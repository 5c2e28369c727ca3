import MeowScript.Proofs.Layout.Checking
import MeowScript.Proofs.Typing.Annotations
import MeowScript.Tree.Outline

/-!
# The shape of an outline

An outline shows a tree in which every node has a heading: those of the program, and a node for each
block of a choice or a loop. Nothing closes a node but the depth of the next row. So rows with their
depths tell the tree of headings, and that tells the program up to its positions and annotations.
The annotations of an accepted program are those that the check writes on the plain tree.

Results:
* `Sketch.allRows_append_inj`: nodes of one depth are told from their rows and the row behind them.
* `Expr.rows_sketch`, `Stmt.rows_sketch`: an outline shows headings.
* `Expr.sketch_inj`, `Stmt.sketch_inj`: the headings tell the plain tree.
* `Program.bare_of_plain`: the plain tree tells an accepted program.
* `Program.sketch_eq_iff`: with these, the headings tell it but for the positions.
-/
namespace MeowScript

/-- Headings that say the same everywhere. -/
inductive Mark where
  | program | choice | yes | no | loop | body | bring | print
  deriving DecidableEq, Repr

def Mark.text : Mark → String
  | program => "Program"
  | choice => "If"
  | yes => "Then"
  | no => "Else"
  | loop => "While"
  | body => "Body"
  | bring => "Return"
  | print => "Print"

/-- What a row says, apart from how deep it stands. -/
inductive Heading where
  | literal (value : Literal) (ty : Ty)
  | var (name : String) (storage : Option String) (ty : Ty)
  | binary (op : BinaryOp) (ty : Ty)
  | unary (op : UnaryOp) (ty : Ty)
  | call (name : String) (ty : Ty)
  | declare (name : String) (storage : Option String)
  | assign (name : String) (storage : Option String)
  | define (name : String) (params : List String)
  | callAlone (name : String)
  | mark (m : Mark)
  deriving DecidableEq, Repr

def Heading.label : Heading → String
  | literal v t => Outline.typed (Outline.literal v) t
  | var name storage t =>
    Outline.typed ("Identifier " ++ name ++ Outline.storageNote name storage) t
  | binary op t => Outline.typed ("BinaryOp " ++ op.symbol) t
  | unary op t => Outline.typed ("UnaryOp " ++ op.symbol) t
  | call name t => Outline.typed ("Call " ++ name) t
  | declare name storage => "VarDecl " ++ name ++ Outline.storageNote name storage
  | assign name storage => "Assign " ++ name ++ Outline.storageNote name storage
  | define name params => "FunctionDef " ++ name ++ "(" ++ ", ".intercalate params ++ ")"
  | callAlone name => "CallStmt " ++ name
  | mark m => m.text

/-- A tree of headings. -/
inductive Sketch where
  | node (heading : Heading) (below : List Sketch)

/-! ## Rows of a tree -/

namespace Sketch

mutual

/-- The headings of a tree from top to bottom, each with its depth. -/
def rows (d : Nat) : Sketch → List (Nat × Heading)
  | node h below => (d, h) :: allRows (d + 1) below

def allRows (d : Nat) : List Sketch → List (Nat × Heading)
  | [] => []
  | s :: ss => rows d s ++ allRows d ss

end

/-- What comes next is not as deep as this. -/
def EndsAbove (d : Nat) (rest : List (Nat × Heading)) : Prop := ∀ x ∈ rest.head?, x.1 < d

theorem EndsAbove.allRows {d : Nat} {rest : List (Nat × Heading)} (h : EndsAbove d rest)
    (ss : List Sketch) : EndsAbove (d + 1) (allRows d ss ++ rest) := by
  cases ss with
  | nil => exact fun x hx => Nat.lt_succ_of_lt (h x hx)
  | cons s ss =>
    cases s
    rintro x ⟨⟩
    exact Nat.lt_succ_self d

mutual

theorem rows_append_inj {d : Nat} {rest rest' : List (Nat × Heading)}
    (hrest : EndsAbove (d + 1) rest) (hrest' : EndsAbove (d + 1) rest') : ∀ s t : Sketch,
    rows d s ++ rest = rows d t ++ rest' → s = t ∧ rest = rest'
  | node h below, node h' below', heq => by
    rw [rows, rows, List.cons_append, List.cons_append, List.cons.injEq, Prod.mk.injEq] at heq
    obtain ⟨⟨-, rfl⟩, hrows⟩ := heq
    obtain ⟨rfl, rfl⟩ := allRows_append_inj hrest hrest' below below' hrows
    exact ⟨rfl, rfl⟩

/-- Behind nodes of one depth comes a row that is less deep, and it is the first one. -/
theorem allRows_append_inj {d : Nat} {rest rest' : List (Nat × Heading)}
    (hrest : EndsAbove d rest) (hrest' : EndsAbove d rest') : ∀ ss ts : List Sketch,
    allRows d ss ++ rest = allRows d ts ++ rest' → ss = ts ∧ rest = rest'
  | [], [], heq => ⟨rfl, heq⟩
  -- a node at depth `d` cannot be what stands behind
  | [], node h below :: ts, heq => by
    rw [allRows, List.nil_append] at heq
    exact absurd (hrest (d, h) (by rw [heq]; rfl)) (Nat.lt_irrefl d)
  | node h below :: ss, [], heq => by
    rw [allRows, List.nil_append] at heq
    exact absurd (hrest' (d, h) (by rw [← heq]; rfl)) (Nat.lt_irrefl d)
  | s :: ss, t :: ts, heq => by
    rw [allRows, allRows, List.append_assoc, List.append_assoc] at heq
    obtain ⟨rfl, hrows⟩ := rows_append_inj (hrest.allRows ss) (hrest'.allRows ts) s t heq
    obtain ⟨rfl, rfl⟩ := allRows_append_inj hrest hrest' ss ts hrows
    exact ⟨rfl, rfl⟩

end

theorem rows_injective {d : Nat} {s t : Sketch} (h : s.rows d = t.rows d) : s = t := by
  have hend : EndsAbove (d + 1) [] := nofun
  exact (rows_append_inj hend hend s t (by rw [h])).1

end Sketch

/-! ## The sketch of a program -/

mutual

def Expr.sketch : Expr → Sketch
  | .literal v _ note => .node (.literal v note.ty) []
  | .var name storage _ t => .node (.var name storage t) []
  | .binary op left right _ note => .node (.binary op note.ty) [left.sketch, right.sketch]
  | .unary op operand _ note => .node (.unary op note.ty) [operand.sketch]
  | .call name args _ note => .node (.call name note.ty) (Expr.sketches args)

def Expr.sketches : List Expr → List Sketch
  | [] => []
  | e :: es => e.sketch :: Expr.sketches es

end

mutual

def Stmt.sketch : Stmt → Sketch
  | .declare name value storage _ => .node (.declare name storage) [value.sketch]
  | .assign name value storage _ => .node (.assign name storage) [value.sketch]
  | .define name params body _ => .node (.define name (params.map Param.name)) (Stmt.sketches body)
  | .call name args _ => .node (.callAlone name) (Expr.sketches args)
  | .ifThen condition body _ =>
    .node (.mark .choice) [condition.sketch, .node (.mark .yes) (Stmt.sketches body)]
  | .ifElse condition body otherwise _ =>
    .node (.mark .choice) [condition.sketch, .node (.mark .yes) (Stmt.sketches body),
      .node (.mark .no) (Stmt.sketches otherwise)]
  | .loop condition body _ =>
    .node (.mark .loop) [condition.sketch, .node (.mark .body) (Stmt.sketches body)]
  | .bring value _ => .node (.mark .bring) [value.sketch]
  | .print value _ => .node (.mark .print) [value.sketch]

def Stmt.sketches : List Stmt → List Sketch
  | [] => []
  | s :: ss => s.sketch :: Stmt.sketches ss

end

def Program.sketch (p : Program) : Sketch := .node (.mark .program) (Stmt.sketches p.body)

/-! ## An outline shows the sketch -/

def Row.of (x : Nat × Heading) : Row := ⟨x.1, x.2.label⟩

mutual

theorem Expr.rows_sketch (d : Nat) : ∀ e : Expr, Outline.expr d e = (e.sketch.rows d).map Row.of
  | .literal v _ t => rfl
  | .var name storage _ t => rfl
  | .binary op left right _ t => by
    simp [Outline.expr, Expr.sketch, Sketch.rows, Sketch.allRows, Row.of, Heading.label,
      Expr.rows_sketch _ left, Expr.rows_sketch _ right]
  | .unary op operand _ t => by
    simp [Outline.expr, Expr.sketch, Sketch.rows, Sketch.allRows, Row.of, Heading.label,
      Expr.rows_sketch _ operand]
  | .call name args _ t => by
    simp [Outline.expr, Expr.sketch, Sketch.rows, Row.of, Heading.label,
      Expr.rows_sketches _ args]

theorem Expr.rows_sketches (d : Nat) : ∀ es : List Expr,
    Outline.exprs d es = (Sketch.allRows d (Expr.sketches es)).map Row.of
  | [] => rfl
  | e :: es => by
    rw [Outline.exprs, Expr.sketches, Sketch.allRows, List.map_append, Expr.rows_sketch d e,
      Expr.rows_sketches d es]

end

mutual

theorem Stmt.rows_sketch (d : Nat) : ∀ s : Stmt, Outline.stmt d s = (s.sketch.rows d).map Row.of
  | .declare name value storage _ | .assign name value storage _ => by
    simp [Outline.stmt, Stmt.sketch, Sketch.rows, Sketch.allRows, Row.of, Heading.label,
      Expr.rows_sketch]
  | .define name params body _ => by
    simp [Outline.stmt, Stmt.sketch, Sketch.rows, Row.of, Heading.label,
      Stmt.rows_sketches _ body]
  | .call name args _ => by
    simp [Outline.stmt, Stmt.sketch, Sketch.rows, Row.of, Heading.label, Expr.rows_sketches]
  | .ifThen condition body _ | .loop condition body _ => by
    simp [Outline.stmt, Stmt.sketch, Sketch.rows, Sketch.allRows, Row.of, Heading.label, Mark.text,
      Expr.rows_sketch, Stmt.rows_sketches _ body]
  | .ifElse condition body otherwise _ => by
    simp [Outline.stmt, Stmt.sketch, Sketch.rows, Sketch.allRows, Row.of, Heading.label, Mark.text,
      Expr.rows_sketch, Stmt.rows_sketches _ body, Stmt.rows_sketches _ otherwise]
  | .bring value _ | .print value _ => by
    simp [Outline.stmt, Stmt.sketch, Sketch.rows, Sketch.allRows, Row.of, Heading.label, Mark.text,
      Expr.rows_sketch]

theorem Stmt.rows_sketches (d : Nat) : ∀ ss : List Stmt,
    Outline.stmts d ss = (Sketch.allRows d (Stmt.sketches ss)).map Row.of
  | [] => rfl
  | s :: ss => by
    rw [Outline.stmts, Stmt.sketches, Sketch.allRows, List.map_append, Stmt.rows_sketch d s,
      Stmt.rows_sketches d ss]

end

theorem Program.outline_eq (p : Program) :
    p.outline = Outline.text ((p.sketch.rows 0).map Row.of) := by
  rw [outline, Stmt.rows_sketches]
  rfl

/-! ## The sketch tells the tree -/

mutual

theorem Expr.sketch_inj : ∀ e f : Expr, e.sketch = f.sketch → e.plain.bare = f.plain.bare
  | .literal v _ t, f, h => by
    cases f <;> simp_all [Expr.sketch, Expr.plain, Expr.bare]
  | .var name storage _ t, f, h => by
    cases f <;> simp_all [Expr.sketch, Expr.plain, Expr.bare]
  | .binary op left right _ t, f, h => by
    cases f with
    | binary op' left' right' p' t' =>
      simp only [Expr.sketch, Sketch.node.injEq, Heading.binary.injEq, List.cons.injEq,
        and_true] at h
      obtain ⟨⟨rfl, -⟩, hleft, hright⟩ := h
      rw [Expr.plain, Expr.plain, Expr.bare, Expr.bare, Expr.sketch_inj left left' hleft,
        Expr.sketch_inj right right' hright]
    | _ => simp [Expr.sketch] at h
  | .unary op operand _ t, f, h => by
    cases f with
    | unary op' operand' p' t' =>
      simp only [Expr.sketch, Sketch.node.injEq, Heading.unary.injEq, List.cons.injEq,
        and_true] at h
      obtain ⟨⟨rfl, -⟩, hoperand⟩ := h
      rw [Expr.plain, Expr.plain, Expr.bare, Expr.bare, Expr.sketch_inj operand operand' hoperand]
    | _ => simp [Expr.sketch] at h
  | .call name args _ t, f, h => by
    cases f with
    | call name' args' p' t' =>
      simp only [Expr.sketch, Sketch.node.injEq, Heading.call.injEq] at h
      obtain ⟨⟨rfl, -⟩, hargs⟩ := h
      rw [Expr.plain, Expr.plain, Expr.bare, Expr.bare, Expr.allPlain_eq, Expr.allPlain_eq,
        Expr.allBare_eq, Expr.allBare_eq, Expr.sketches_inj args args' hargs]
    | _ => simp [Expr.sketch] at h

theorem Expr.sketches_inj : ∀ es fs : List Expr,
    Expr.sketches es = Expr.sketches fs →
      (es.map Expr.plain).map Expr.bare = (fs.map Expr.plain).map Expr.bare
  | [], [], _ => rfl
  | [], _ :: _, h | _ :: _, [], h => by simp [Expr.sketches] at h
  | e :: es, f :: fs, h => by
    rw [Expr.sketches, Expr.sketches, List.cons.injEq] at h
    rw [List.map_cons, List.map_cons, List.map_cons, List.map_cons, Expr.sketch_inj e f h.1,
      Expr.sketches_inj es fs h.2]

end

theorem map_bare_of_map_name {xs ys : List Param} (h : xs.map Param.name = ys.map Param.name) :
    xs.map Param.bare = ys.map Param.bare := by
  have hnamed : ∀ zs : List Param,
      zs.map Param.bare = (zs.map Param.name).map (Param.mk · .start) := by
    intro zs
    rw [List.map_map]
    rfl
  rw [hnamed, hnamed, h]

mutual

theorem Stmt.sketch_inj : ∀ s t : Stmt, s.sketch = t.sketch → s.plain.bare = t.plain.bare
  | .declare name value storage _, t, h => by
    cases t with
    | declare name' value' storage' p' =>
      simp only [Stmt.sketch, Sketch.node.injEq, Heading.declare.injEq, List.cons.injEq,
        and_true] at h
      obtain ⟨⟨rfl, rfl⟩, hvalue⟩ := h
      rw [Stmt.plain, Stmt.plain, Stmt.bare, Stmt.bare, Expr.sketch_inj value value' hvalue]
    | _ => simp [Stmt.sketch] at h
  | .assign name value storage _, t, h => by
    cases t with
    | assign name' value' storage' p' =>
      simp only [Stmt.sketch, Sketch.node.injEq, Heading.assign.injEq, List.cons.injEq,
        and_true] at h
      obtain ⟨⟨rfl, rfl⟩, hvalue⟩ := h
      rw [Stmt.plain, Stmt.plain, Stmt.bare, Stmt.bare, Expr.sketch_inj value value' hvalue]
    | _ => simp [Stmt.sketch] at h
  | .define name params body _, t, h => by
    cases t with
    | define name' params' body' p' =>
      simp only [Stmt.sketch, Sketch.node.injEq, Heading.define.injEq] at h
      obtain ⟨⟨rfl, hparams⟩, hbody⟩ := h
      rw [Stmt.plain, Stmt.plain, Stmt.bare, Stmt.bare, map_bare_of_map_name hparams,
        Stmt.sketches_inj body body' hbody]
    | _ => simp [Stmt.sketch] at h
  | .call name args _, t, h => by
    cases t with
    | call name' args' p' =>
      simp only [Stmt.sketch, Sketch.node.injEq, Heading.callAlone.injEq] at h
      obtain ⟨rfl, hargs⟩ := h
      rw [Stmt.plain, Stmt.plain, Stmt.bare, Stmt.bare, Expr.sketches_inj args args' hargs]
    | _ => simp [Stmt.sketch] at h
  | .ifThen condition body _, t, h => by
    cases t with
    | ifThen condition' body' p' =>
      simp only [Stmt.sketch, Sketch.node.injEq, List.cons.injEq, true_and, and_true] at h
      obtain ⟨hcondition, hbody⟩ := h
      rw [Stmt.plain, Stmt.plain, Stmt.bare, Stmt.bare,
        Expr.sketch_inj condition condition' hcondition, Stmt.sketches_inj body body' hbody]
    | _ => simp [Stmt.sketch] at h
  | .ifElse condition body otherwise _, t, h => by
    cases t with
    | ifElse condition' body' otherwise' p' =>
      simp only [Stmt.sketch, Sketch.node.injEq, List.cons.injEq, true_and, and_true] at h
      obtain ⟨hcondition, hbody, hotherwise⟩ := h
      rw [Stmt.plain, Stmt.plain, Stmt.bare, Stmt.bare,
        Expr.sketch_inj condition condition' hcondition, Stmt.sketches_inj body body' hbody,
        Stmt.sketches_inj otherwise otherwise' hotherwise]
    | _ => simp [Stmt.sketch] at h
  | .loop condition body _, t, h => by
    cases t with
    | loop condition' body' p' =>
      simp only [Stmt.sketch, Sketch.node.injEq, List.cons.injEq, true_and, and_true] at h
      obtain ⟨hcondition, hbody⟩ := h
      rw [Stmt.plain, Stmt.plain, Stmt.bare, Stmt.bare,
        Expr.sketch_inj condition condition' hcondition, Stmt.sketches_inj body body' hbody]
    | _ => simp [Stmt.sketch] at h
  | .bring value _, t, h => by
    cases t with
    | bring value' p' =>
      simp only [Stmt.sketch, Sketch.node.injEq, List.cons.injEq, true_and, and_true] at h
      rw [Stmt.plain, Stmt.plain, Stmt.bare, Stmt.bare, Expr.sketch_inj value value' h]
    | _ => simp [Stmt.sketch] at h
  | .print value _, t, h => by
    cases t with
    | print value' p' =>
      simp only [Stmt.sketch, Sketch.node.injEq, List.cons.injEq, true_and, and_true] at h
      rw [Stmt.plain, Stmt.plain, Stmt.bare, Stmt.bare, Expr.sketch_inj value value' h]
    | _ => simp [Stmt.sketch] at h

theorem Stmt.sketches_inj : ∀ ss ts : List Stmt,
    Stmt.sketches ss = Stmt.sketches ts →
      Stmt.allBare (Stmt.allPlain ss) = Stmt.allBare (Stmt.allPlain ts)
  | [], [], _ => rfl
  | [], _ :: _, h | _ :: _, [], h => by simp [Stmt.sketches] at h
  | s :: ss, t :: ts, h => by
    rw [Stmt.sketches, Stmt.sketches, List.cons.injEq] at h
    rw [Stmt.allPlain, Stmt.allPlain, Stmt.allBare, Stmt.allBare, Stmt.sketch_inj s t h.1,
      Stmt.sketches_inj ss ts h.2]

end

/-! ## Positions are not shown -/

mutual

theorem Expr.sketch_bare : ∀ e : Expr, e.bare.sketch = e.sketch
  | .literal _ _ _ | .var _ _ _ _ => rfl
  | .binary op left right _ t => by
    rw [Expr.bare, Expr.sketch, Expr.sketch, Expr.sketch_bare left, Expr.sketch_bare right]
  | .unary op operand _ t => by
    rw [Expr.bare, Expr.sketch, Expr.sketch, Expr.sketch_bare operand]
  | .call name args _ t => by
    rw [Expr.bare, Expr.allBare_eq, Expr.sketch, Expr.sketch, Expr.sketches_bare args]

theorem Expr.sketches_bare : ∀ es : List Expr, Expr.sketches (es.map Expr.bare) = Expr.sketches es
  | [] => rfl
  | e :: es => by
    rw [List.map_cons, Expr.sketches, Expr.sketches, Expr.sketch_bare e, Expr.sketches_bare es]

end

mutual

theorem Stmt.sketch_bare : ∀ s : Stmt, s.bare.sketch = s.sketch
  | .declare name value storage _ | .assign name value storage _ => by
    rw [Stmt.bare, Stmt.sketch, Stmt.sketch, Expr.sketch_bare]
  | .define name params body _ => by
    rw [Stmt.bare, Stmt.sketch, Stmt.sketch, List.map_map, Stmt.sketches_bare body]
    rfl
  | .call name args _ => by
    rw [Stmt.bare, Stmt.sketch, Stmt.sketch, Expr.sketches_bare]
  | .ifThen condition body _ | .loop condition body _ => by
    rw [Stmt.bare, Stmt.sketch, Stmt.sketch, Expr.sketch_bare, Stmt.sketches_bare body]
  | .ifElse condition body otherwise _ => by
    rw [Stmt.bare, Stmt.sketch, Stmt.sketch, Expr.sketch_bare, Stmt.sketches_bare body,
      Stmt.sketches_bare otherwise]
  | .bring value _ | .print value _ => by
    rw [Stmt.bare, Stmt.sketch, Stmt.sketch, Expr.sketch_bare]

theorem Stmt.sketches_bare : ∀ ss : List Stmt,
    Stmt.sketches (Stmt.allBare ss) = Stmt.sketches ss
  | [] => rfl
  | s :: ss => by
    rw [Stmt.allBare, Stmt.sketches, Stmt.sketches, Stmt.sketch_bare s, Stmt.sketches_bare ss]

end

/-! ## Accepted programs -/

section
variable {p q p' q' : Program}

/-- What was accepted is, up to positions, what the check makes of its plain tree. -/
theorem Program.check_plain_bare (hp : p'.check = .ok p) : p.plain.bare.check = .ok p.bare := by
  rw [Program.check_bare, Program.check_plain, Program.check_again hp]

theorem Program.bare_of_plain (hp : p'.check = .ok p) (hq : q'.check = .ok q)
    (h : p.plain.bare = q.plain.bare) : p.bare = q.bare := by
  have hsame := Program.check_plain_bare hp
  rw [h, Program.check_plain_bare hq] at hsame
  exact (Except.ok.inj hsame).symm

theorem Program.sketch_eq_iff (hp : p'.check = .ok p) (hq : q'.check = .ok q) :
    p.sketch = q.sketch ↔ p.bare = q.bare := by
  have hbare : ∀ r : Program, r.bare.sketch = r.sketch := fun r => by
    rw [Program.bare, ← Stmt.allBare_eq, Program.sketch, Stmt.sketches_bare, Program.sketch]
  constructor
  · intro h
    rw [Program.sketch, Program.sketch, Sketch.node.injEq] at h
    refine Program.bare_of_plain hp hq ?_
    rw [Program.bare, Program.bare, Program.plain, Program.plain, ← Stmt.allBare_eq,
      ← Stmt.allBare_eq, Stmt.sketches_inj _ _ h.2]
  · intro h
    rw [← hbare p, h, hbare q]

end

end MeowScript
