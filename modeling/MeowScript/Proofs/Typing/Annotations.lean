import MeowScript.Check.Statement

/-!
# Checking and old annotations

A tree is plain if its types and storage names are open. The check writes them, on every expression
it comes to, and never reads them:
of a tree and of the plain one it makes the same, and apart from them it leaves the tree as it was.
Only the body of a function whose name is taken is not looked at; it keeps what it had, but then
there is a fault.

Results:
* `Expr.check_plain`, `Expr.plain_check`: expressions.
* `Stmt.check_plain`, `Stmt.plain_check`: statements, in any state of the check.
* `check_rewrites`: programs that differ in annotations, and a program that is checked twice.
-/
namespace MeowScript

/-! ## Plain trees -/

mutual

/-- The expression with its annotations open. -/
def Expr.plain : Expr → Expr
  | .literal v p _ => .literal v p .unknown
  | .var name _ p _ => .var name none p .unknown
  | .binary op left right p _ => .binary op left.plain right.plain p .unknown
  | .unary op operand p _ => .unary op operand.plain p .unknown
  | .call name args p _ => .call name (Expr.allPlain args) p .unknown

def Expr.allPlain : List Expr → List Expr
  | [] => []
  | e :: es => Expr.plain e :: Expr.allPlain es

end

@[simp] theorem Expr.allPlain_eq (es : List Expr) : Expr.allPlain es = es.map Expr.plain := by
  induction es with
  | nil => rfl
  | cons e es ih => rw [Expr.allPlain, ih, List.map_cons]

mutual

/-- The statement with its annotations open. -/
def Stmt.plain : Stmt → Stmt
  | .declare name value _ p => .declare name value.plain none p
  | .assign name value _ p => .assign name value.plain none p
  | .define name params body p => .define name params (Stmt.allPlain body) p
  | .call name args p => .call name (args.map Expr.plain) p
  | .ifThen condition body p => .ifThen condition.plain (Stmt.allPlain body) p
  | .ifElse condition body otherwise p =>
    .ifElse condition.plain (Stmt.allPlain body) (Stmt.allPlain otherwise) p
  | .loop condition body p => .loop condition.plain (Stmt.allPlain body) p
  | .bring value p => .bring value.plain p
  | .print value p => .print value.plain p

def Stmt.allPlain : List Stmt → List Stmt
  | [] => []
  | s :: ss => Stmt.plain s :: Stmt.allPlain ss

end

/-- The program with its annotations open. -/
def Program.plain (p : Program) : Program := ⟨Stmt.allPlain p.body, p.position⟩

/-! ## Expressions -/

mutual

theorem Expr.check_plain (t : Scopes) : ∀ e : Expr, Expr.check t e.plain = Expr.check t e
  | .literal v p note => rfl
  | .var name storage p ty => rfl
  | .binary op left right p note => by
    rw [Expr.plain, Expr.check, Expr.check, Expr.check_plain t left, Expr.check_plain t right]
  | .unary op operand p note => by
    rw [Expr.plain, Expr.check, Expr.check, Expr.check_plain t operand]
  | .call name args p note => by
    rw [Expr.plain, Expr.check, Expr.check, Expr.allPlain_eq, Expr.checkAll_plain t args,
      List.length_map]

theorem Expr.checkAll_plain (t : Scopes) : ∀ es : List Expr,
    Expr.checkAll t (es.map Expr.plain) = Expr.checkAll t es
  | [] => rfl
  | e :: es => by
    rw [List.map_cons, Expr.checkAll, Expr.checkAll, Expr.check_plain t e,
      Expr.checkAll_plain t es]

end

mutual

theorem Expr.plain_check (t : Scopes) : ∀ e : Expr, (Expr.check t e).1.plain = e.plain
  | .literal v p note => rfl
  | .var name storage p ty => by
    unfold Expr.check
    split
    · rfl
    · split <;> rfl
  | .binary op left right p note => by
    simp only [Expr.check, Expr.plain, Expr.plain_check t left, Expr.plain_check t right]
  | .unary op operand p note => by
    simp only [Expr.check, Expr.plain, Expr.plain_check t operand]
  | .call name args p note => by
    simp only [Expr.check, Expr.plain, Expr.allPlain_eq, Expr.plain_checkAll t args]

theorem Expr.plain_checkAll (t : Scopes) : ∀ es : List Expr,
    (Expr.checkAll t es).1.map Expr.plain = es.map Expr.plain
  | [] => rfl
  | e :: es => by
    simp only [Expr.checkAll, List.map_cons, Expr.plain_check t e, Expr.plain_checkAll t es]

end

/-! ## Statements -/

section
variable {α β : Type}

/-- The same state and faults, and the same tree if there are no faults. -/
structure Checked.Agrees (r r' : Checked α) : Prop where
  after : r.after = r'.after
  faults : r.faults = r'.faults
  value : r'.faults = [] → r.value = r'.value

theorem Checked.Agrees.of_eq {r r' : Checked α} (h : r = r') : r.Agrees r' := by
  subst h
  exact ⟨rfl, rfl, fun _ => rfl⟩

/-- The same part of a greater thing: `f` is built of it, `g` is the state that is left, and there
are other faults before its own. -/
theorem Checked.Agrees.within {r r' : Checked α} (h : r.Agrees r') (f : α → β)
    (g : Checker → Checker) (earlier : Faults) :
    Checked.Agrees ⟨f r.value, g r.after, earlier ++ r.faults⟩
      ⟨f r'.value, g r'.after, earlier ++ r'.faults⟩ where
  after := congrArg g h.after
  faults := congrArg (earlier ++ ·) h.faults
  value hnone := congrArg f (h.value (List.append_eq_nil_iff.mp hnone).2)

end

mutual

theorem Stmt.check_plain (c : Checker) : ∀ s : Stmt,
    (Stmt.check c s.plain).Agrees (Stmt.check c s)
  | .declare name value storage p => .of_eq (by
    simp only [Stmt.plain, Stmt.check, Expr.check_plain])
  | .assign name value storage p => .of_eq (by
    simp only [Stmt.plain, Stmt.check, Expr.check_plain])
  | .define name params body p => by
    rw [Stmt.plain, Stmt.check, Stmt.check]
    split
    · exact ⟨rfl, rfl, nofun⟩
    · exact (Stmt.checkAll_plain _ body).within (Stmt.define name params · p)
        (fun d => { d.exit with inside := c.inside }) _
  | .call name args p => .of_eq (by
    simp only [Stmt.plain, Stmt.check, Expr.checkAll_plain, List.length_map])
  | .ifThen condition body p => by
    rw [Stmt.plain, Stmt.check, Stmt.check, Expr.check_plain]
    exact (Stmt.checkAll_plain c.enter body).within (Stmt.ifThen _ · p) Checker.exit _
  | .ifElse condition body otherwise p => by
    obtain ⟨hafter, hfaults, hvalue⟩ := Stmt.checkAll_plain c.enter body
    obtain ⟨hafter', hfaults', hvalue'⟩ :=
      Stmt.checkAll_plain (Stmt.checkAll c.enter body).after.exit.enter otherwise
    rw [Stmt.plain, Stmt.check, Stmt.check, Expr.check_plain]
    refine ⟨?_, ?_, fun hnone => ?_⟩
    · simp only [hafter, hafter']
    · simp only [hafter, hfaults, hfaults']
    · obtain ⟨hfirst, hsecond⟩ := List.append_eq_nil_iff.mp hnone
      simp only [hafter, hvalue (List.append_eq_nil_iff.mp hfirst).2, hvalue' hsecond]
  | .loop condition body p => by
    rw [Stmt.plain, Stmt.check, Stmt.check, Expr.check_plain]
    exact (Stmt.checkAll_plain c.enter body).within (Stmt.loop _ · p) Checker.exit _
  | .bring value p => .of_eq (by
    simp only [Stmt.plain, Stmt.check, Expr.check_plain])
  | .print value p => .of_eq (by
    simp only [Stmt.plain, Stmt.check, Expr.check_plain])

theorem Stmt.checkAll_plain (c : Checker) : ∀ ss : List Stmt,
    (Stmt.checkAll c (Stmt.allPlain ss)).Agrees (Stmt.checkAll c ss)
  | [] => .of_eq rfl
  | s :: ss => by
    obtain ⟨hafter, hfaults, hvalue⟩ := Stmt.check_plain c s
    obtain ⟨hafter', hfaults', hvalue'⟩ := Stmt.checkAll_plain (Stmt.check c s).after ss
    rw [Stmt.allPlain, Stmt.checkAll, Stmt.checkAll]
    refine ⟨?_, ?_, fun hnone => ?_⟩
    · simp only [hafter, hafter']
    · simp only [hafter, hfaults, hfaults']
    · obtain ⟨hfirst, hsecond⟩ := List.append_eq_nil_iff.mp hnone
      simp only [hafter, hvalue hfirst, hvalue' hsecond]

end

mutual

theorem Stmt.plain_check (c : Checker) : ∀ s : Stmt, (Stmt.check c s).value.plain = s.plain
  | .declare name value storage p => by
    simp only [Stmt.check, Stmt.plain, Expr.plain_check]
  | .assign name value storage p => by
    simp only [Stmt.check, Stmt.plain, Expr.plain_check]
  | .define name params body p => by
    rw [Stmt.check]
    split
    · rfl
    · simp only [Stmt.plain, Stmt.plain_checkAll]
  | .call name args p => by
    simp only [Stmt.check, Stmt.plain, Expr.plain_checkAll]
  | .ifThen condition body p => by
    simp only [Stmt.check, Stmt.plain, Expr.plain_check, Stmt.plain_checkAll]
  | .ifElse condition body otherwise p => by
    simp only [Stmt.check, Stmt.plain, Expr.plain_check, Stmt.plain_checkAll]
  | .loop condition body p => by
    simp only [Stmt.check, Stmt.plain, Expr.plain_check, Stmt.plain_checkAll]
  | .bring value p => by
    simp only [Stmt.check, Stmt.plain, Expr.plain_check]
  | .print value p => by
    simp only [Stmt.check, Stmt.plain, Expr.plain_check]

theorem Stmt.plain_checkAll (c : Checker) : ∀ ss : List Stmt,
    Stmt.allPlain (Stmt.checkAll c ss).value = Stmt.allPlain ss
  | [] => rfl
  | s :: ss => by
    simp only [Stmt.checkAll, Stmt.allPlain, Stmt.plain_check c s, Stmt.plain_checkAll _ ss]

end

/-! ## Programs -/

theorem Program.check_plain (p : Program) : p.plain.check = p.check := by
  obtain ⟨-, hfaults, hvalue⟩ := Stmt.checkAll_plain .start p.body
  unfold Program.check
  dsimp only [Program.plain]
  rw [hfaults]
  split
  · next hnone => rw [hvalue hnone]
  · rfl

theorem Program.plain_check {p q : Program} (h : p.check = .ok q) : q.plain = p.plain := by
  unfold Program.check at h
  dsimp only at h
  split at h
  · cases h
    exact congrArg (Program.mk · p.position) (Stmt.plain_checkAll .start p.body)
  · cases h

/-- A program that was accepted comes back as itself. -/
theorem Program.check_again {p q : Program} (h : p.check = .ok q) : q.check = .ok q := by
  rw [← Program.check_plain q, Program.plain_check h, Program.check_plain p, h]

/-- **Main.** Programs that differ in types and storage names only have the same outcome, the same
annotated tree or the same faults. What an accepted program comes back as differs from it in types
and storage names only, and comes back as itself when it is checked again. -/
theorem check_rewrites :
    (∀ p q : Program, p.plain = q.plain → p.check = q.check) ∧
    ∀ p q : Program, p.check = .ok q → q.plain = p.plain ∧ q.check = .ok q := by
  have hsame : ∀ p q : Program, p.plain = q.plain → p.check = q.check := by
    intro p q h
    rw [← Program.check_plain p, h, Program.check_plain q]
  exact ⟨hsame, fun p q h => ⟨Program.plain_check h, Program.check_again h⟩⟩

/-- A program with annotations that have nothing to do with it. -/
def stale : Program :=
  ⟨[.declare "x" (.literal (.integer 1) ⟨1, 17⟩ ⟨.string, "x"⟩) (some "y") ⟨1, 6⟩,
    .print (.unary .neg (.var "x" (some "z") ⟨1, 27⟩ .float) ⟨1, 26⟩ ⟨.unknown, "y"⟩) ⟨1, 19⟩],
    ⟨1, 1⟩⟩

/-- The same program with its own annotations. -/
def current : Program :=
  ⟨[.declare "x" (.literal (.integer 1) ⟨1, 17⟩ Ty.integer) (some "x") ⟨1, 6⟩,
    .print (.unary .neg (.var "x" (some "x") ⟨1, 27⟩ .integer) ⟨1, 26⟩ Ty.integer) ⟨1, 19⟩],
    ⟨1, 1⟩⟩

theorem check_rewrites_stale : stale.plain.check = .ok current ∧ stale.check = .ok current ∧
    current.plain = stale.plain ∧ current.check = .ok current := by
  have hplain : stale.plain.check = .ok current := rfl
  obtain ⟨hsame, htwice⟩ := check_rewrites
  have hstale : stale.check = .ok current := (hsame stale stale.plain rfl).trans hplain
  exact ⟨hplain, hstale, htwice stale current hstale⟩

end MeowScript
