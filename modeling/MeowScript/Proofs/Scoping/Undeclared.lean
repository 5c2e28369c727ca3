import MeowScript.Compilation
import MeowScript.Proofs.Grammar.Exact
import MeowScript.Proofs.Scoping.Retype
import MeowScript.Proofs.Scoping.Rules

/-!
# Names declared nowhere

A name that nothing in a program declares is found in no scope, whatever else is wrong with the
program. So each of its uses is reported where it stands, once, with one exception: a function whose
name is taken in its scope is reported as declared twice, and its body is not looked at.

Results:
* `Expr.check_reported`, `Stmt.check_reported`: what is reported of an expression, of a statement.
* `undeclared_reported`: the uses reported of a program, and when these are all.
* `undeclared_missed`: a text with a use that is not reported.
-/
namespace MeowScript

/-! ## Uses of a name -/

mutual

/-- Where an expression reads the variable `name`. -/
def Expr.uses (name : String) : Expr → List Position
  | .literal _ _ _ => []
  | .var x _ p _ => if x = name then [p] else []
  | .binary _ left right _ _ => left.uses name ++ right.uses name
  | .unary _ operand _ _ => operand.uses name
  | .call _ args _ _ => Expr.allUses name args

def Expr.allUses (name : String) : List Expr → List Position
  | [] => []
  | e :: es => e.uses name ++ Expr.allUses name es

end

/-- A use of a name. It is hidden if it stands in the body of a function whose name was taken. -/
structure Use where
  position : Position
  hidden : Bool
  deriving DecidableEq, Repr

def Use.all (hidden : Bool) (ps : List Position) : List Use := ps.map fun p => ⟨p, hidden⟩

mutual

/-- Where a statement reads or assigns the variable `name`. The names in `taken` were declared
before in the scope of the statement; `hidden` tells whether it stands in a body that is not looked
at. -/
def Stmt.uses (name : String) (hidden : Bool) (taken : List String) : Stmt → List Use
  | .declare _ value _ _ | .bring value _ | .print value _ => Use.all hidden (value.uses name)
  | .assign x value _ p => Use.all hidden ((if x = name then [p] else []) ++ value.uses name)
  | .define f params body _ =>
    Stmt.allUses name (hidden || taken.contains f) (params.map Param.name) body
  | .call _ args _ => Use.all hidden (Expr.allUses name args)
  | .ifThen condition body _ | .loop condition body _ =>
    Use.all hidden (condition.uses name) ++ Stmt.allUses name hidden [] body
  | .ifElse condition body otherwise _ =>
    Use.all hidden (condition.uses name) ++ Stmt.allUses name hidden [] body ++
      Stmt.allUses name hidden [] otherwise

def Stmt.allUses (name : String) (hidden : Bool) (taken : List String) : List Stmt → List Use
  | [] => []
  | s :: ss =>
    s.uses name hidden taken ++ Stmt.allUses name hidden (taken ++ s.declarations.names) ss

end

/-- Every use of the variable `name` in the program, in the order of the text. -/
def Program.uses (p : Program) (name : String) : List Use := Stmt.allUses name false [] p.body

mutual

/-- All names that a statement and those in it declare: of variables, functions and parameters. -/
def Stmt.introduces : Stmt → List String
  | .declare name _ _ _ => [name]
  | .define name params body _ => name :: (params.map Param.name ++ Stmt.allIntroduce body)
  | .ifThen _ body _ | .loop _ body _ => Stmt.allIntroduce body
  | .ifElse _ body otherwise _ => Stmt.allIntroduce body ++ Stmt.allIntroduce otherwise
  | .assign _ _ _ _ | .call _ _ _ | .bring _ _ | .print _ _ => []

def Stmt.allIntroduce : List Stmt → List String
  | [] => []
  | s :: ss => s.introduces ++ Stmt.allIntroduce ss

end

/-- Where uses are looked at. -/
def visible (uses : List Use) : List Position :=
  (uses.filter fun u => !u.hidden).map Use.position

section
variable {a b : List Use} {ps : List Position}

@[simp] theorem visible_append : visible (a ++ b) = visible a ++ visible b := by
  simp [visible]

theorem visible_of_hidden (h : ∀ u ∈ a, u.hidden = true) : visible a = [] := by
  have hnone : a.filter (fun u => !u.hidden) = [] := by
    simpa [List.filter_eq_nil_iff] using h
  rw [visible, hnone, List.map_nil]

theorem visible_eq_all : visible a = a.map Use.position ↔ ∀ u ∈ a, u.hidden = false := by
  rw [visible]
  constructor
  · intro h
    have hlength := congrArg List.length h
    rw [List.length_map, List.length_map, List.length_filter_eq_length_iff] at hlength
    simpa using hlength
  · intro h
    rw [List.filter_eq_self.mpr (by simpa using h)]

@[simp] theorem visible_all : visible (Use.all false ps) = ps := by
  rw [visible_eq_all.mpr (by simp [Use.all])]
  simp [Use.all, Function.comp_def]

theorem Use.all_append {hidden : Bool} {ps qs : List Position} :
    Use.all hidden (ps ++ qs) = Use.all hidden ps ++ Use.all hidden qs :=
  List.map_append

@[simp] theorem Use.all_eq_nil {hidden : Bool} : Use.all hidden ps = [] ↔ ps = [] :=
  List.map_eq_nil_iff

theorem Use.hidden_all : ∀ u ∈ Use.all true ps, u.hidden = true := by
  simp [Use.all]

end

mutual

/-- In a body that is not looked at every use is hidden. -/
theorem Stmt.uses_hidden (name : String) : ∀ (s : Stmt) (taken : List String),
    ∀ u ∈ s.uses name true taken, u.hidden = true
  | .declare _ _ _ _, _ | .assign _ _ _ _, _ | .call _ _ _, _ | .bring _ _, _ | .print _ _, _ =>
    Use.hidden_all
  | .define _ _ body _, _ => Stmt.allUses_hidden name body _
  | .ifThen _ body _, _ | .loop _ body _, _ =>
    List.forall_mem_append.mpr ⟨Use.hidden_all, Stmt.allUses_hidden name body _⟩
  | .ifElse _ body otherwise _, _ =>
    List.forall_mem_append.mpr ⟨List.forall_mem_append.mpr
      ⟨Use.hidden_all, Stmt.allUses_hidden name body _⟩, Stmt.allUses_hidden name otherwise _⟩

theorem Stmt.allUses_hidden (name : String) : ∀ (ss : List Stmt) (taken : List String),
    ∀ u ∈ Stmt.allUses name true taken ss, u.hidden = true
  | [], _ => nofun
  | s :: ss, _ =>
    List.forall_mem_append.mpr ⟨Stmt.uses_hidden name s _, Stmt.allUses_hidden name ss _⟩

end

/-! ## Reports -/

/-- Where `name` is reported as undeclared. -/
def reportsOf (name : String) (faults : Faults) : List Position :=
  faults.filterMap fun f => if f.cause = .undeclared name then some f.position else none

section
variable {name : String} {p : Position} {a b : Faults}

@[simp] theorem reportsOf_nil : reportsOf name [] = [] := rfl

@[simp] theorem reportsOf_append : reportsOf name (a ++ b) = reportsOf name a ++ reportsOf name b :=
  List.filterMap_append

@[simp] theorem reportsOf_singleton {f : SemanticFault} :
    reportsOf name [⟨f, p⟩] = if f = .undeclared name then [p] else [] := by
  by_cases h : f = .undeclared name <;> simp [reportsOf, h]

@[simp] theorem reportsOf_faultUnless {ok : Bool} {f : SemanticFault} (h : f ≠ .undeclared name) :
    reportsOf name (faultUnless ok f p) = [] := by
  cases ok <;> simp [faultUnless, h]

@[simp] theorem reportsOf_callFaults {x : String} {count : Nat} {o : Option Symbol} :
    reportsOf name (callFaults x count p o) = [] := by
  cases o with
  | none => simp [callFaults]
  | some s => cases h : s.isFunction <;> simp [callFaults, h]

end

mutual

/-- Of a name that is not found every use in an expression is reported. -/
theorem Expr.check_reported {t : Scopes} {name : String} (h : t.lookup name = none) :
    ∀ e : Expr, reportsOf name (Expr.check t e).2 = e.uses name
  | .literal _ _ _ => rfl
  | .var x _ p _ => by
    by_cases hx : x = name
    · subst hx
      simp [Expr.check, Expr.uses, h]
    · rw [Expr.check, Expr.uses, if_neg hx]
      cases t.lookup x with
      | none => simp [hx]
      | some s => cases hs : s.isFunction <;> simp [hs]
  | .binary _ left right _ _ => by
    simp [Expr.check, Expr.uses, Expr.check_reported h left, Expr.check_reported h right]
  | .unary _ operand _ _ => by simp [Expr.check, Expr.uses, Expr.check_reported h operand]
  | .call _ args _ _ => by simp [Expr.check, Expr.uses, Expr.checkAll_reported h args]

theorem Expr.checkAll_reported {t : Scopes} {name : String} (h : t.lookup name = none) :
    ∀ es : List Expr, reportsOf name (Expr.checkAll t es).2 = Expr.allUses name es
  | [] => rfl
  | e :: es => by
    simp [Expr.checkAll, Expr.allUses, Expr.check_reported h e, Expr.checkAll_reported h es]

end

/-! ## Scopes -/

/-- The scope knows these names and no others. -/
def Scope.Knows (s : Scope) (names : List String) : Prop :=
  ∀ x, (s.symbol? x).isSome = true ↔ x ∈ names

namespace Scope.Knows

variable {s : Scope} {names : List String}

theorem empty : Knows [] [] := fun x => by simp [symbol?]

theorem retype (h : s.Knows names) (name : String) (ty : Ty) : (s.retype name ty).Knows names := by
  intro x
  rw [symbol?_retype, Option.isSome_map, h x]

theorem declare (h : s.Knows names) {x : Symbol} (hs : s.symbol? x.name = none) :
    Knows (s ++ [x]) (names ++ [x.name]) := by
  intro y
  rw [symbol?_snoc hs, List.mem_append, List.mem_singleton, ← h y]
  by_cases hy : x.name = y
  · simp [hy]
  · simp [hy, Ne.symm hy]

/-- One name more that is known already. -/
theorem again (h : s.Knows names) {name : String} (hs : name ∈ names) :
    s.Knows (names ++ [name]) := by
  intro x
  rw [h x, List.mem_append, List.mem_singleton]
  constructor
  · exact .inl
  · rintro (hx | rfl)
    · exact hx
    · exact hs

end Scope.Knows

/-- The innermost scope knows the names in `taken`, those around it the names in `outer`, and `name`
is not among them. -/
structure Misses (name : String) (taken : List String) (outer : List (List String)) (t : Scopes) :
    Prop where
  knows : List.Forall₂ Scope.Knows t.stack (taken :: outer)
  unknown : ∀ names ∈ taken :: outer, name ∉ names

namespace Misses

variable {name : String} {taken names : List String} {outer : List (List String)} {t u : Scopes}
  {x : Symbol}

theorem start : Misses name [] [] .start := ⟨.cons .empty .nil, by simp⟩

theorem lookup (h : Misses name taken outer t) : t.lookup name = none := by
  obtain ⟨hknows, hunknown⟩ := h
  rw [Scopes.lookup]
  generalize t.stack = ss at hknows
  generalize taken :: outer = all at hknows hunknown
  induction hknows with
  | nil => rfl
  | @cons s names _ _ hs _ ih =>
    obtain ⟨hfirst, hrest⟩ := List.forall_mem_cons.mp hunknown
    have hnone : s.symbol? name = none := by
      rw [← Option.not_isSome_iff_eq_none, hs name]
      exact hfirst
    rw [List.findSome?_cons, hnone]
    exact ih hrest

theorem enter (h : Misses name taken outer t) : Misses name [] (taken :: outer) t.enter :=
  ⟨.cons .empty h.knows, List.forall_mem_cons.mpr ⟨List.not_mem_nil, h.unknown⟩⟩

theorem exit (h : Misses name names (taken :: outer) t) : Misses name taken outer t.exit.2 := by
  obtain ⟨_, _, _, ht, hstack⟩ := List.forall₂_cons_right_iff.mp h.knows
  refine ⟨?_, (List.forall_mem_cons.mp h.unknown).2⟩
  simp only [Scopes.exit, hstack, List.tail_cons]
  exact ht

theorem retype (h : Misses name taken outer t) (y : String) (ty : Ty) :
    Misses name taken outer (t.retype y ty) :=
  ⟨Scopes.forall₂_retype (fun hs => hs.retype y ty) h.knows, h.unknown⟩

theorem retypeAt (h : Misses name taken outer t) (depth : Nat) (y : String) (ty : Ty) :
    Misses name taken outer (t.retypeAt depth y ty) :=
  ⟨Scopes.forall₂_retypeAt (fun hs => hs.retype y ty) depth h.knows, h.unknown⟩

theorem unknown_snoc (h : Misses name taken outer t) {y : String} (hy : y ≠ name) :
    ∀ names ∈ (taken ++ [y]) :: outer, name ∉ names := by
  obtain ⟨hfirst, hrest⟩ := List.forall_mem_cons.mp h.unknown
  refine List.forall_mem_cons.mpr ⟨?_, hrest⟩
  rw [List.mem_append, List.mem_singleton, not_or]
  exact ⟨hfirst, Ne.symm hy⟩

/-- Another name, which was not taken in the scope. -/
theorem declare_ok (h : Misses name taken outer t) (hx : x.name ≠ name)
    (hu : t.declare x = .ok u) : x.name ∉ taken ∧ Misses name (taken ++ [x.name]) outer u := by
  have hknows := h.knows
  rcases Scopes.declare_ok hu with ⟨he, -⟩ | ⟨s, rest, he, hnone, rfl⟩
  · rw [he] at hknows
    cases hknows
  · rw [he] at hknows
    cases hknows with
    | cons hs ht =>
      refine ⟨fun hmem => ?_, .cons (hs.declare (x := { x with depth := rest.length }) hnone) ht,
        h.unknown_snoc hx⟩
      rw [← hs x.name, hnone] at hmem
      cases hmem

/-- A name that was taken; the scope stays as it is. -/
theorem declare_error (h : Misses name taken outer t) (hx : x.name ≠ name) {existing : Symbol}
    (he : t.declare x = .error existing) :
    x.name ∈ taken ∧ Misses name (taken ++ [x.name]) outer t := by
  have hknows := h.knows
  unfold Scopes.declare at he
  split at he
  · cases he
  · next s rest hstack =>
    rw [hstack] at hknows
    cases hknows with
    | cons hs ht =>
      split at he
      · next y hy =>
        have hmem : x.name ∈ taken := (hs x.name).mp (by rw [hy]; rfl)
        refine ⟨hmem, ?_, h.unknown_snoc hx⟩
        rw [hstack]
        exact .cons (hs.again hmem) ht
      · cases he

end Misses

/-! ## Statements -/

/-- The faults report the uses that are not hidden, and there are some if there is any use. -/
structure Told (name : String) (faults : Faults) (uses : List Use) : Prop where
  reports : reportsOf name faults = visible uses
  clean : faults = [] → uses = []

namespace Told

variable {name : String} {a b : Faults} {us vs : List Use}

theorem append (ha : Told name a us) (hb : Told name b vs) : Told name (a ++ b) (us ++ vs) := by
  refine ⟨by rw [reportsOf_append, visible_append, ha.reports, hb.reports], fun h => ?_⟩
  obtain ⟨hnone, hnone'⟩ := List.append_eq_nil_iff.mp h
  rw [ha.clean hnone, hb.clean hnone', List.append_nil]

theorem shown {ps : List Position} (h : reportsOf name a = ps) :
    Told name a (Use.all false ps) := by
  refine ⟨h.trans visible_all.symm, ?_⟩
  rintro rfl
  exact Use.all_eq_nil.mpr h.symm

theorem quiet (h : reportsOf name a = []) : Told name a [] := ⟨h, fun _ => rfl⟩

end Told

/-- What was checked tells of these uses, and `name` is still missing behind it. -/
structure Reported {α : Type} (name : String) (r : Checked α) (uses : List Use)
    (taken : List String) (outer : List (List String)) : Prop where
  told : Told name r.faults uses
  misses : Misses name taken outer r.after.scopes

/-- A statement that declares nothing. -/
theorem Reported.plain {α : Type} {name : String} {r : Checked α} {uses : List Use}
    {taken : List String} {outer : List (List String)} (ht : Told name r.faults uses)
    (hm : Misses name taken outer r.after.scopes) : Reported name r uses (taken ++ []) outer :=
  ⟨ht, by rwa [List.append_nil]⟩

section
variable {name : String} {taken : List String} {outer : List (List String)} {c : Checker}

theorem Checker.declareVar_reported (h : Misses name taken outer c.scopes) {x : String} (ty : Ty)
    (p : Position) (hx : x ≠ name) :
    Reported name (c.declareVar x ty p) [] (taken ++ [x]) outer := by
  unfold Checker.declareVar
  dsimp only
  split
  · next u hu => exact ⟨.quiet rfl, (h.declare_ok hx hu).2⟩
  · next existing he =>
    exact ⟨.quiet (by simp [Checker.redeclared]), (h.declare_error hx he).2⟩

theorem Checker.declareParams_reported {taken : List String} {c : Checker}
    (h : Misses name taken outer c.scopes) (params : List Param)
    (hparams : ∀ x ∈ params, x.name ≠ name) :
    Reported name (c.declareParams params) [] (taken ++ params.map Param.name) outer := by
  induction params generalizing taken c with
  | nil => exact ⟨.quiet rfl, by simpa [Checker.declareParams] using h⟩
  | cons x params ih =>
    obtain ⟨hx, hrest⟩ := List.forall_mem_cons.mp hparams
    have hfirst := Checker.declareVar_reported h .unknown x.position hx
    have hthen := ih hfirst.misses hrest
    rw [Checker.declareParams]
    exact ⟨hfirst.told.append hthen.told, by simpa using hthen.misses⟩

theorem Checker.store_reported (h : Misses name taken outer c.scopes) (x : String) (found : Ty)
    (p : Position) (target : Option Symbol) :
    Reported name (c.store x found p target) [] taken outer := by
  unfold Checker.store
  split
  · exact ⟨.quiet rfl, h⟩
  · split
    · exact ⟨.quiet rfl, h⟩
    · split
      · exact ⟨.quiet rfl, h.retype x found⟩
      · exact ⟨.quiet (by simp), h⟩

theorem Checker.bring_reported (h : Misses name taken outer c.scopes) (found : Ty) (p : Position) :
    Reported name (c.bring found p) [] taken outer := by
  unfold Checker.bring
  split
  · exact ⟨.quiet (by simp), h⟩
  · next f depth _ =>
    split
    · exact ⟨.quiet rfl, h⟩
    · split
      · exact ⟨.quiet rfl, h⟩
      · split
        · exact ⟨.quiet rfl, h.retypeAt depth f found⟩
        · exact ⟨.quiet (by simp), h⟩

/-- An assignment to the missing name is reported at the statement, any other is not. -/
theorem Checker.targetFaults_told (h : Misses name taken outer c.scopes) (x : String)
    (p : Position) : Told name (Checker.targetFaults x p (c.scopes.lookup x))
      (Use.all false (if x = name then [p] else [])) := by
  refine .shown ?_
  by_cases hx : x = name
  · subst hx
    simp [Checker.targetFaults, h.lookup]
  · rw [if_neg hx]
    cases c.scopes.lookup x with
    | none => simp [Checker.targetFaults, hx]
    | some s => cases hs : s.isFunction <;> simp [Checker.targetFaults, hs]

theorem Expr.check_told (h : Misses name taken outer c.scopes) (e : Expr) :
    Told name (Expr.check c.scopes e).2 (Use.all false (e.uses name)) :=
  .shown (Expr.check_reported h.lookup e)

end

mutual

theorem Stmt.check_reported {name : String} : ∀ (s : Stmt) {taken : List String}
    {outer : List (List String)} {c : Checker}, Misses name taken outer c.scopes →
      name ∉ s.introduces → Reported name (Stmt.check c s) (s.uses name false taken)
        (taken ++ s.declarations.names) outer
  | .declare x value _ p, _, _, c, h, hname => by
    have hx : x ≠ name := fun he => hname (List.mem_singleton.mpr he.symm)
    have hdeclared := Checker.declareVar_reported h (Expr.check c.scopes value).1.ty p hx
    have htold := (Expr.check_told h value).append hdeclared.told
    rw [List.append_nil] at htold
    exact ⟨htold, hdeclared.misses⟩
  | .assign x value _ p, _, _, c, h, _ => by
    have hstored := Checker.store_reported h x (Expr.check c.scopes value).1.ty p
      (c.scopes.lookup x)
    have htold := ((Checker.targetFaults_told h x p).append (Expr.check_told h value)).append
      hstored.told
    rw [List.append_nil, ← Use.all_append] at htold
    exact .plain htold hstored.misses
  | .define f params body p, taken, outer, c, h, hname => by
    obtain ⟨hf, hinside⟩ := not_or.mp (List.mem_cons.not.mp hname)
    obtain ⟨hparams, hbody⟩ := not_or.mp (List.mem_append.not.mp hinside)
    have hfunction : (Symbol.function f (params.map Param.name) p).name ≠ name := Ne.symm hf
    rw [Stmt.check, Stmt.uses, Bool.false_or]
    split
    · next existing he =>
      -- the body is not looked at, and its uses are hidden
      obtain ⟨htaken, hmisses⟩ := h.declare_error hfunction he
      have hhidden : taken.contains f = true := List.contains_iff_mem.mpr htaken
      rw [hhidden]
      refine ⟨⟨?_, nofun⟩, hmisses⟩
      rw [visible_of_hidden (Stmt.allUses_hidden name body _)]
      simp [Checker.redeclared]
    · next u hu =>
      obtain ⟨hfree, hmisses⟩ := h.declare_ok hfunction hu
      have hshown : taken.contains f = false := by
        simpa [Symbol.function] using hfree
      have hparams' : ∀ x ∈ params, x.name ≠ name := fun x hx he =>
        hparams (List.mem_map.mpr ⟨x, hx, he⟩)
      have hdeclared := Checker.declareParams_reported
        (c := { c with scopes := u.enter, inside := some (f, u.depth) }) hmisses.enter params
        hparams'
      have hinner := Stmt.checkAll_reported body hdeclared.misses hbody
      rw [hshown]
      exact ⟨hdeclared.told.append hinner.told, hinner.misses.exit⟩
  | .call x args p, _, _, c, h, _ => by
    have hargs : Told name (callFaults x args.length p (c.scopes.lookup x)) [] :=
      .quiet reportsOf_callFaults
    exact .plain (hargs.append (.shown (Expr.checkAll_reported h.lookup args))) h
  | .ifThen condition body _, _, _, c, h, hname | .loop condition body _, _, _, c, h, hname => by
    have hbody := Stmt.checkAll_reported (c := c.enter) body h.enter hname
    exact .plain ((Expr.check_told h condition).append hbody.told) hbody.misses.exit
  | .ifElse condition body otherwise _, _, _, c, h, hname => by
    obtain ⟨hnameBody, hnameOther⟩ := not_or.mp (List.mem_append.not.mp hname)
    have hbody := Stmt.checkAll_reported (c := c.enter) body h.enter hnameBody
    have hother := Stmt.checkAll_reported (c := (Stmt.checkAll c.enter body).after.exit.enter)
      otherwise hbody.misses.exit.enter hnameOther
    exact .plain (((Expr.check_told h condition).append hbody.told).append hother.told)
      hother.misses.exit
  | .bring value p, _, _, c, h, _ => by
    have hbrought := Checker.bring_reported h (Expr.check c.scopes value).1.ty p
    have htold := (Expr.check_told h value).append hbrought.told
    rw [List.append_nil] at htold
    exact .plain htold hbrought.misses
  | .print value _, _, _, c, h, _ => .plain (Expr.check_told h value) h

theorem Stmt.checkAll_reported {name : String} : ∀ (ss : List Stmt) {taken : List String}
    {outer : List (List String)} {c : Checker}, Misses name taken outer c.scopes →
      name ∉ Stmt.allIntroduce ss → Reported name (Stmt.checkAll c ss)
        (Stmt.allUses name false taken ss) (taken ++ (Stmt.allDeclarations ss).names) outer
  | [], _, _, _, h, _ => .plain (.quiet rfl) h
  | s :: ss, _, _, _, h, hname => by
    obtain ⟨hnameFirst, hnameRest⟩ := not_or.mp (List.mem_append.not.mp hname)
    have hs := Stmt.check_reported s h hnameFirst
    have hss := Stmt.checkAll_reported ss hs.misses hnameRest
    have hnames : (Stmt.allDeclarations (s :: ss)).names =
        s.declarations.names ++ (Stmt.allDeclarations ss).names := by
      simp [Stmt.allDeclarations, Declarations.names]
    rw [hnames, ← List.append_assoc]
    exact ⟨hs.told.append hss.told, hss.misses⟩

end

/-! ## Programs -/

/-- **Main.** A program that uses a name declared nowhere in it is rejected. The name is reported as
undeclared at each use that is not in the body of a function whose own name was taken, once and in
the order of the text; these are all of its uses if and only if none is in such a body. -/
theorem undeclared_reported (p : Program) (name : String)
    (h : name ∉ Stmt.allIntroduce p.body) :
    (p.uses name ≠ [] → ∃ faults, p.check = .error faults) ∧
      ∀ faults, p.check = .error faults → reportsOf name faults = visible (p.uses name) ∧
        (reportsOf name faults = (p.uses name).map Use.position ↔
          ∀ u ∈ p.uses name, u.hidden = false) := by
  obtain ⟨⟨hreports, hclean⟩, -⟩ := Stmt.checkAll_reported (c := .start) p.body .start h
  rw [Program.check]
  split
  · next hnone => exact ⟨fun huses => absurd (hclean hnone) huses, nofun⟩
  · refine ⟨fun _ => ⟨_, rfl⟩, fun faults hfaults => ?_⟩
    rw [← Except.error.inj hfaults, hreports]
    exact ⟨rfl, visible_eq_all⟩

/-- A read and an assignment, both reported. -/
theorem undeclared_reported_twice : ∃ (p : Program) (faults : Faults),
    "ghost" ∉ Stmt.allIntroduce p.body ∧ p.check = .error faults ∧
      reportsOf "ghost" faults = [⟨1, 11⟩, ⟨2, 1⟩] := by
  let p : Program := ⟨[.print (.var "ghost" none ⟨1, 11⟩ .unknown) ⟨1, 6⟩,
    .assign "ghost" (.literal (.integer 1) ⟨2, 12⟩ .unknown) none ⟨2, 1⟩], .start⟩
  have hnowhere : "ghost" ∉ Stmt.allIntroduce p.body := by decide
  obtain ⟨hrejected, hreports⟩ := undeclared_reported p "ghost" hnowhere
  obtain ⟨faults, hfaults⟩ := hrejected (List.cons_ne_nil _ _)
  exact ⟨p, faults, hnowhere, hfaults, (hreports faults hfaults).1⟩

def ghostText : String := "Wake Hunt f() \x7b Bring 1 \x7d Hunt f() \x7b Meow(ghost) \x7d Sleep"

/-- The text declares no `ghost` and uses it, in the body of a function declared twice. Nothing but
the second declaration is reported. -/
theorem undeclared_missed :
    Compilation.ofText ghostText = .error (.semantic [⟨.redeclaration "f" 1, ⟨1, 27⟩⟩]) ∧
      ∃ tokens p, tokensOf ghostText = .ok tokens ∧ Program.ofTokens tokens = .ok p ∧
        "ghost" ∉ Stmt.allIntroduce p.body ∧ (p.uses "ghost").map Use.position = [⟨1, 43⟩] := by
  have hrejected : (Compilation.ofText ghostText).map (fun _ => ()) =
      .error (.semantic [⟨.redeclaration "f" 1, ⟨1, 27⟩⟩]) := by
    decide +kernel
  refine ⟨map_eq_error.mp hrejected, ?_⟩
  have hread : (tokensOf ghostText).toOption.bind (fun tokens =>
      (Program.ofTokens tokens).toOption.map fun p =>
        (Stmt.allIntroduce p.body, (p.uses "ghost").map Use.position)) =
      some (["f", "f"], [⟨1, 43⟩]) := by
    decide +kernel
  obtain ⟨tokens, htokens, htree⟩ := Option.bind_eq_some_iff.mp hread
  obtain ⟨p, hp, hfound⟩ := Option.map_eq_some_iff.mp htree
  obtain ⟨hnames, huses⟩ := Prod.mk.inj hfound
  refine ⟨tokens, p, toOption_eq_some.mp htokens, toOption_eq_some.mp hp, ?_, huses⟩
  rw [hnames]
  decide

end MeowScript
