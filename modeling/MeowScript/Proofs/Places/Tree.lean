import MeowScript.Proofs.Grammar.Derivation

/-!
# Where a tree stands

Every node of a tree that tokens spell stands at one of them.

Results:
* `ExprSpelled.stands`, `StmtSpelled.stands`: a tree stands where its tokens stand.
-/
namespace MeowScript

variable {P : Position → Prop}

/-! ## Trees -/

/-- Every node of the expression stands at such a place. -/
inductive Expr.Stands (P : Position → Prop) : Expr → Prop where
  | literal {v : Literal} {p : Position} {note : Annotation} : P p → Stands P (.literal v p note)
  | var {name : String} {storage : Option String} {p : Position} {ty : Ty} :
      P p → Stands P (.var name storage p ty)
  | binary {op : BinaryOp} {left right : Expr} {p : Position} {note : Annotation} :
      Stands P left → Stands P right → P p → Stands P (.binary op left right p note)
  | unary {op : UnaryOp} {e : Expr} {p : Position} {note : Annotation} :
      Stands P e → P p → Stands P (.unary op e p note)
  | call {name : String} {args : List Expr} {p : Position} {note : Annotation} :
      (∀ e ∈ args, Stands P e) → P p → Stands P (.call name args p note)

/-- Every node of the statement stands at such a place. -/
inductive Stmt.Stands (P : Position → Prop) : Stmt → Prop where
  | declare {name : String} {e : Expr} {storage : Option String} {p : Position} :
      e.Stands P → P p → Stands P (.declare name e storage p)
  | assign {name : String} {e : Expr} {storage : Option String} {p : Position} :
      e.Stands P → P p → Stands P (.assign name e storage p)
  | define {name : String} {params : List Param} {body : List Stmt} {p : Position} :
      (∀ x ∈ params, P x.position) → (∀ s ∈ body, Stands P s) → P p →
      Stands P (.define name params body p)
  | call {name : String} {args : List Expr} {p : Position} :
      (∀ e ∈ args, e.Stands P) → P p → Stands P (.call name args p)
  | ifThen {condition : Expr} {body : List Stmt} {p : Position} :
      condition.Stands P → (∀ s ∈ body, Stands P s) → P p → Stands P (.ifThen condition body p)
  | ifElse {condition : Expr} {body otherwise : List Stmt} {p : Position} :
      condition.Stands P → (∀ s ∈ body, Stands P s) → (∀ s ∈ otherwise, Stands P s) → P p →
      Stands P (.ifElse condition body otherwise p)
  | loop {condition : Expr} {body : List Stmt} {p : Position} :
      condition.Stands P → (∀ s ∈ body, Stands P s) → P p → Stands P (.loop condition body p)
  | bring {e : Expr} {p : Position} : e.Stands P → P p → Stands P (.bring e p)
  | print {e : Expr} {p : Position} : e.Stands P → P p → Stands P (.print e p)

/-! ## Spelled trees -/

/-- The tokens stand at such places. -/
def Lie (P : Position → Prop) (toks : List Token) : Prop := ∀ t ∈ toks, P t.position

@[simp] theorem lie_nil : Lie P [] := List.forall_mem_nil _

@[simp] theorem lie_cons {t : Token} {toks : List Token} :
    Lie P (t :: toks) ↔ P t.position ∧ Lie P toks := List.forall_mem_cons

@[simp] theorem lie_append {a b : List Token} : Lie P (a ++ b) ↔ Lie P a ∧ Lie P b :=
  List.forall_mem_append

section
variable {α : Type} {Q : α → Prop}

theorem CommaEach.stands {xs : List (List Token × α)} {toks : List Token}
    (h : CommaEach xs toks) (hx : ∀ x ∈ xs, Lie P x.1 → Q x.2) (ht : Lie P toks) :
    ∀ a ∈ meanings xs, Q a := by
  induction h with
  | nil => exact List.forall_mem_nil _
  | cons _ _ ih =>
    obtain ⟨hfirst, hrest⟩ := List.forall_mem_cons.mp hx
    rw [lie_cons, lie_append] at ht
    exact List.forall_mem_cons.mpr ⟨hfirst ht.2.1, ih hrest ht.2.2⟩

theorem Listed.stands {xs : List (List Token × α)} {toks : List Token} (h : Listed xs toks)
    (hx : ∀ x ∈ xs, Lie P x.1 → Q x.2) (ht : Lie P toks) : ∀ a ∈ meanings xs, Q a := by
  cases h with
  | none => exact List.forall_mem_nil _
  | some hmore =>
    obtain ⟨hfirst, hrest⟩ := List.forall_mem_cons.mp hx
    rw [lie_append] at ht
    exact List.forall_mem_cons.mpr ⟨hfirst ht.1, hmore.stands hrest ht.2⟩

theorem spelling_stands {xs : List (List Token × α)} (hx : ∀ x ∈ xs, Lie P x.1 → Q x.2)
    (ht : Lie P (spelling xs)) : ∀ a ∈ meanings xs, Q a := by
  induction xs with
  | nil => exact List.forall_mem_nil _
  | cons x xs ih =>
    obtain ⟨hfirst, hrest⟩ := List.forall_mem_cons.mp hx
    rw [spelling_cons, lie_append] at ht
    exact List.forall_mem_cons.mpr ⟨hfirst ht.1, ih hrest ht.2⟩

theorem Braced.stands {xs : List (List Token × α)} {block : List Token}
    (h : Braced (spelling xs) block) (hx : ∀ x ∈ xs, Lie P x.1 → Q x.2) (ht : Lie P block) :
    ∀ a ∈ meanings xs, Q a := by
  cases h with
  | mk => exact spelling_stands hx (by simp_all)

end

theorem ExprSpelled.stands {rows : List (List BinaryOp)} {toks : List Token} {e : Expr}
    (h : ExprSpelled rows toks e) (ht : Lie P toks) : e.Stands P := by
  induction h with
  | tighter _ ih => exact ih ht
  | binary _ _ _ _ ihl ihr =>
    rw [lie_append, lie_cons] at ht
    exact .binary (ihl ht.1) (ihr ht.2.2) ht.2.1
  | unary _ _ ih =>
    rw [lie_cons] at ht
    exact .unary (ih ht.2) ht.1
  | literal => exact .literal (lie_cons.mp ht).1
  | var => exact .var (lie_cons.mp ht).1
  | call _ _ _ hl _ ih =>
    simp only [lie_cons, lie_append] at ht
    exact .call (hl.stands ih ht.2.2.1) ht.1
  | parens _ _ _ ih =>
    simp only [lie_cons, lie_append] at ht
    exact ih ht.2.1

theorem EnclosedSpelled.stands {toks : List Token} {e : Expr} (h : EnclosedSpelled toks e)
    (ht : Lie P toks) : e.Stands P := by
  cases h with
  | mk _ he _ =>
    simp only [lie_cons, lie_append] at ht
    exact he.stands ht.2.1

theorem ParamSpelled.stands {toks : List Token} {x : Param} (h : ParamSpelled toks x)
    (ht : Lie P toks) : P x.position := by
  cases h with
  | mk => exact (lie_cons.mp ht).1

theorem StmtSpelled.stands {toks : List Token} {s : Stmt} (h : StmtSpelled toks s)
    (ht : Lie P toks) : s.Stands P := by
  induction h with
  | declare _ _ _ he =>
    simp only [lie_cons] at ht
    exact .declare (he.stands ht.2.2.2) ht.1
  | assign _ _ he =>
    simp only [lie_cons] at ht
    exact .assign (he.stands ht.2.2) ht.1
  | call _ _ ha hl _ =>
    simp only [lie_cons, lie_append] at ht
    exact .call (hl.stands (fun x hx => (ha x hx).stands) ht.2.2.1) ht.1
  | define _ _ _ hp hl _ _ hb ih =>
    simp only [lie_cons, lie_append] at ht
    exact .define (hl.stands (fun x hx => (hp x hx).stands) ht.2.2.2.1) (hb.stands ih ht.2.2.2.2.2)
      ht.1
  | ifThen _ he _ hb ih =>
    simp only [lie_cons, lie_append] at ht
    exact .ifThen (he.stands ht.2.1) (hb.stands ih ht.2.2) ht.1
  | ifElse _ he _ hb _ _ hb' ih ih' =>
    simp only [lie_cons, lie_append] at ht
    exact .ifElse (he.stands ht.2.1.1) (hb.stands ih ht.2.1.2) (hb'.stands ih' ht.2.2.2) ht.1
  | loop _ he _ hb ih =>
    simp only [lie_cons, lie_append] at ht
    exact .loop (he.stands ht.2.1) (hb.stands ih ht.2.2) ht.1
  | bring _ he =>
    rw [lie_cons] at ht
    exact .bring (he.stands ht.2) ht.1
  | print _ he =>
    rw [lie_cons] at ht
    exact .print (he.stands ht.2) ht.1

end MeowScript
