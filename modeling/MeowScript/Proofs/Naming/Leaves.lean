import MeowScript.Proofs.Naming.Renaming

/-!
# Where the operands of code come from

An instruction names variables, constants and temporaries. The temporaries are made while a tree is
lowered; the variables and constants stand at its leaves. In the code of a text every constant is a
literal among the tokens, and every variable is a storage name given by the check.

Results:
* `Stmt.lowerAll_operands`: what holds of the leaves of statements holds of the operands of their
  code.
* `Stmt.checkAll_constants`, `StmtSpelled.constants`: constants stay the same from token to tree and
  from tree to annotated tree.
* `Compilation.operands`: the same for all phases together.
-/
namespace MeowScript

/-! ## Operands of code -/

namespace Instr

/-- What an instruction writes, if it writes anything. -/
def written? : Instr → Option Operand
  | copy dest _ => some (.var dest)
  | binary dest _ _ _ _ | unary dest _ _ _ | call dest _ _ => some (.temp dest)
  | label _ | ifFalse _ _ | goto _ | param _ | bring _ | print _ | beginFunction _
  | endFunction _ => none

/-- What an instruction reads. -/
def read : Instr → List Operand
  | copy _ a | unary _ _ a _ | ifFalse a _ | param a | bring a | print a => [a]
  | binary _ _ a b _ => [a, b]
  | label _ | goto _ | call _ _ _ | beginFunction _ | endFunction _ => []

end Instr

/-- All that instructions write or read. -/
def operandsOf (code : List Instr) : List Operand :=
  code.flatMap fun i => i.written?.toList ++ i.read

/-- All that the code writes or reads has the property. -/
def EachOperand (P : Operand → Prop) (code : List Instr) : Prop := ∀ o ∈ operandsOf code, P o

namespace EachOperand

variable {P : Operand → Prop}

@[simp] theorem nil : EachOperand P [] := nofun

@[simp] theorem cons_iff {i : Instr} {code : List Instr} : EachOperand P (i :: code) ↔
    (∀ o ∈ i.written?, P o) ∧ (∀ o ∈ i.read, P o) ∧ EachOperand P code := by
  simp [EachOperand, operandsOf, or_imp, forall_and]

@[simp] theorem append_iff {a b : List Instr} :
    EachOperand P (a ++ b) ↔ EachOperand P a ∧ EachOperand P b := by
  rw [EachOperand, operandsOf, List.flatMap_append]
  exact List.forall_mem_append

end EachOperand

/-! ## Leaves of trees -/

mutual

/-- The variables and constants of an expression. -/
def Expr.leaves : Expr → List Operand
  | .literal v _ _ => [.constant v]
  | .var name storage _ _ => [.var (storage.getD name)]
  | .binary _ left right _ _ => left.leaves ++ right.leaves
  | .unary _ operand _ _ => operand.leaves
  | .call _ args _ _ => Expr.allLeaves args

def Expr.allLeaves : List Expr → List Operand
  | [] => []
  | e :: es => e.leaves ++ Expr.allLeaves es

end

mutual

/-- The variables and constants of a statement, with those it stores in. -/
def Stmt.leaves : Stmt → List Operand
  | .declare name value storage _ | .assign name value storage _ =>
    .var (storage.getD name) :: value.leaves
  | .define _ _ body _ => Stmt.allLeaves body
  | .call _ args _ => Expr.allLeaves args
  | .ifThen condition body _ | .loop condition body _ => condition.leaves ++ Stmt.allLeaves body
  | .ifElse condition body otherwise _ =>
    condition.leaves ++ Stmt.allLeaves body ++ Stmt.allLeaves otherwise
  | .bring value _ | .print value _ => value.leaves

def Stmt.allLeaves : List Stmt → List Operand
  | [] => []
  | s :: ss => s.leaves ++ Stmt.allLeaves ss

end

theorem mem_allLeaves {ss : List Stmt} {o : Operand} :
    o ∈ Stmt.allLeaves ss ↔ ∃ s ∈ ss, o ∈ s.leaves := by
  induction ss with
  | nil => simp [Stmt.allLeaves]
  | cons s ss ih => simp [Stmt.allLeaves, ih]

theorem Expr.mem_allLeaves {es : List Expr} {o : Operand} :
    o ∈ Expr.allLeaves es ↔ ∃ e ∈ es, o ∈ e.leaves := by
  induction es with
  | nil => simp [Expr.allLeaves]
  | cons e es ih => simp [Expr.allLeaves, ih]

/-! ## From leaves to code -/

mutual

theorem Expr.lower_operands {P : Operand → Prop} (ht : ∀ n, P (.temp n)) :
    ∀ (e : Expr) (next : Nat), (∀ o ∈ e.leaves, P o) →
      P (e.lower next).result ∧ EachOperand P (e.lower next).code
  | .literal v _ _, next, h | .var name storage _ _, next, h =>
    ⟨h _ (List.mem_singleton_self _), .nil⟩
  | .binary op left right _ note, next, h => by
    obtain ⟨hl, hr⟩ := List.forall_mem_append.mp h
    obtain ⟨hleft, hcode⟩ := Expr.lower_operands ht left next hl
    obtain ⟨hright, hcode'⟩ := Expr.lower_operands ht right (left.lower next).next hr
    refine ⟨ht _, ?_⟩
    simp [Expr.lower, Instr.written?, Instr.read, *]
  | .unary op operand _ note, next, h => by
    obtain ⟨hoperand, hcode⟩ := Expr.lower_operands ht operand next h
    refine ⟨ht _, ?_⟩
    simp [Expr.lower, Instr.written?, Instr.read, *]
  | .call name args _ _, next, h => by
    have hargs := Expr.lowerArgs_operands ht args next h
    refine ⟨ht _, ?_⟩
    simp [Expr.lower, Instr.written?, Instr.read, *]

theorem Expr.lowerArgs_operands {P : Operand → Prop} (ht : ∀ n, P (.temp n)) :
    ∀ (es : List Expr) (next : Nat), (∀ o ∈ Expr.allLeaves es, P o) →
      EachOperand P (Expr.lowerArgs next es).1
  | [], _, _ => .nil
  | e :: es, next, h => by
    obtain ⟨he, hes⟩ := List.forall_mem_append.mp h
    obtain ⟨hresult, hcode⟩ := Expr.lower_operands ht e next he
    have hrest := Expr.lowerArgs_operands ht es (e.lower next).next hes
    simp [Expr.lowerArgs, Instr.written?, Instr.read, *]

end

mutual

theorem Stmt.lower_operands {P : Operand → Prop} (ht : ∀ n, P (.temp n)) :
    ∀ (s : Stmt) (c : Counters), (∀ o ∈ s.leaves, P o) → EachOperand P (Stmt.lower c s).1
  | .declare name value storage _, c, h | .assign name value storage _, c, h => by
    obtain ⟨hname, hvalue⟩ := List.forall_mem_cons.mp h
    obtain ⟨hresult, hcode⟩ := Expr.lower_operands ht value c.temp hvalue
    simp [Stmt.lower, storedAs, Instr.written?, Instr.read, *]
  | .define name _ body _, c, h => by
    have hbody := Stmt.lowerAll_operands ht body c h
    simp [Stmt.lower, Instr.written?, Instr.read, *]
  | .call name args _, c, h => by
    have hargs := Expr.lowerArgs_operands ht args c.temp h
    simp [Stmt.lower, Instr.written?, Instr.read, *]
  | .ifThen condition body _, c, h => by
    obtain ⟨hc, hb⟩ := List.forall_mem_append.mp h
    obtain ⟨hresult, hcode⟩ := Expr.lower_operands ht condition c.temp hc
    have hbody := Stmt.lowerAll_operands ht body
      ⟨(condition.lower c.temp).next, c.label + 1⟩ hb
    simp [Stmt.lower, Instr.written?, Instr.read, *]
  | .ifElse condition body otherwise _, c, h => by
    obtain ⟨hcb, ho⟩ := List.forall_mem_append.mp h
    obtain ⟨hc, hb⟩ := List.forall_mem_append.mp hcb
    obtain ⟨hresult, hcode⟩ := Expr.lower_operands ht condition c.temp hc
    have hbody := Stmt.lowerAll_operands ht body
      ⟨(condition.lower c.temp).next, c.label + 2⟩ hb
    have hother := fun c => Stmt.lowerAll_operands ht otherwise c ho
    simp [Stmt.lower, Instr.written?, Instr.read, *]
  | .loop condition body _, c, h => by
    obtain ⟨hc, hb⟩ := List.forall_mem_append.mp h
    obtain ⟨hresult, hcode⟩ := Expr.lower_operands ht condition c.temp hc
    have hbody := Stmt.lowerAll_operands ht body
      ⟨(condition.lower c.temp).next, c.label + 2⟩ hb
    simp [Stmt.lower, Instr.written?, Instr.read, *]
  | .bring value _, c, h | .print value _, c, h => by
    obtain ⟨hresult, hcode⟩ := Expr.lower_operands ht value c.temp h
    simp [Stmt.lower, Instr.written?, Instr.read, *]

theorem Stmt.lowerAll_operands {P : Operand → Prop} (ht : ∀ n, P (.temp n)) :
    ∀ (ss : List Stmt) (c : Counters), (∀ o ∈ Stmt.allLeaves ss, P o) →
      EachOperand P (Stmt.lowerAll c ss).1
  | [], _, _ => .nil
  | s :: ss, c, h => by
    obtain ⟨hs, hss⟩ := List.forall_mem_append.mp h
    rw [Stmt.lowerAll, EachOperand.append_iff]
    exact ⟨Stmt.lower_operands ht s c hs, Stmt.lowerAll_operands ht ss _ hss⟩

end

/-! ## Constants -/

mutual

/-- The check changes no constant. -/
theorem Expr.check_constants (t : Scopes) (v : Literal) : ∀ e : Expr,
    .constant v ∈ (Expr.check t e).1.leaves → .constant v ∈ e.leaves
  | .literal _ _ _, h => h
  | .var name _ p _, h => by
    rw [Expr.check] at h
    split at h
    · cases List.mem_singleton.mp h
    · split at h <;> cases List.mem_singleton.mp h
  | .binary _ left right _ _, h =>
    List.mem_append.mpr ((List.mem_append.mp h).imp (Expr.check_constants t v left)
      (Expr.check_constants t v right))
  | .unary _ operand _ _, h => Expr.check_constants t v operand h
  | .call _ args _ _, h => Expr.checkAll_constants t v args h

theorem Expr.checkAll_constants (t : Scopes) (v : Literal) : ∀ es : List Expr,
    .constant v ∈ Expr.allLeaves (Expr.checkAll t es).1 → .constant v ∈ Expr.allLeaves es
  | [], h => h
  | e :: es, h =>
    List.mem_append.mpr ((List.mem_append.mp h).imp (Expr.check_constants t v e)
      (Expr.checkAll_constants t v es))

end

mutual

theorem Stmt.check_constants (c : Checker) (v : Literal) : ∀ s : Stmt,
    .constant v ∈ (Stmt.check c s).value.leaves → .constant v ∈ s.leaves
  | .declare _ value _ _, h | .assign _ value _ _, h => by
    simp only [Stmt.check, Stmt.leaves, List.mem_cons, reduceCtorEq, false_or] at h ⊢
    exact Expr.check_constants c.scopes v value h
  | .define _ params body _, h => by
    rw [Stmt.check] at h
    split at h
    · exact h
    · exact Stmt.checkAll_constants _ v body h
  | .call _ args _, h => Expr.checkAll_constants c.scopes v args h
  | .ifThen condition body _, h | .loop condition body _, h =>
    List.mem_append.mpr ((List.mem_append.mp h).imp (Expr.check_constants c.scopes v condition)
      (Stmt.checkAll_constants c.enter v body))
  | .ifElse condition body otherwise _, h => by
    simp only [Stmt.check, Stmt.leaves, List.mem_append] at h ⊢
    exact h.imp (.imp (Expr.check_constants c.scopes v condition)
      (Stmt.checkAll_constants c.enter v body)) (Stmt.checkAll_constants _ v otherwise)
  | .bring value _, h | .print value _, h => Expr.check_constants c.scopes v value h

theorem Stmt.checkAll_constants (c : Checker) (v : Literal) : ∀ ss : List Stmt,
    .constant v ∈ Stmt.allLeaves (Stmt.checkAll c ss).value → .constant v ∈ Stmt.allLeaves ss
  | [], h => h
  | s :: ss, h =>
    List.mem_append.mpr ((List.mem_append.mp h).imp (Stmt.check_constants c v s)
      (Stmt.checkAll_constants _ v ss))

end

/-- One of the tokens is this literal. -/
def Spells (toks : List Token) (v : Literal) : Prop := ∃ t ∈ toks, t.kind = v.kind

theorem Spells.mono {toks more : List Token} {v : Literal} (h : Spells toks v)
    (hm : toks ⊆ more) : Spells more v := by
  obtain ⟨t, ht, hk⟩ := h
  exact ⟨t, hm ht, hk⟩

theorem ExprSpelled.constants {rows : List (List BinaryOp)} {toks : List Token} {e : Expr}
    (h : ExprSpelled rows toks e) {v : Literal} (hv : .constant v ∈ e.leaves) : Spells toks v := by
  induction h with
  | tighter _ ih => exact ih hv
  | binary _ _ _ _ ihl ihr =>
    rcases List.mem_append.mp hv with hv | hv
    · exact (ihl hv).mono (List.subset_append_left _ _)
    · exact (ihr hv).mono fun t ht => by simp [ht]
  | unary _ _ ih => exact (ih hv).mono (List.subset_cons_self _ _)
  | literal ht =>
    cases List.mem_singleton.mp hv
    exact ⟨_, List.mem_singleton_self _, ht⟩
  | var => cases List.mem_singleton.mp hv
  | call _ _ _ hl _ ih =>
    obtain ⟨e, he, hv⟩ := Expr.mem_allLeaves.mp hv
    obtain ⟨x, hx, rfl⟩ := List.mem_map.mp he
    exact (ih x hx hv).mono fun t ht => by simp [hl.subset hx ht]
  | parens _ _ _ ih => exact (ih hv).mono fun t ht => by simp [ht]

theorem EnclosedSpelled.constants {toks : List Token} {e : Expr} (h : EnclosedSpelled toks e)
    {v : Literal} (hv : .constant v ∈ e.leaves) : Spells toks v := by
  cases h with
  | mk _ he _ => exact (he.constants hv).mono fun t ht => by simp [ht]

/-- If the literals of each part are among its tokens, so are those of all. -/
theorem spells_body {body : List (List Token × Stmt)} {v : Literal}
    (ih : ∀ x ∈ body, .constant v ∈ x.2.leaves → Spells x.1 v)
    (h : .constant v ∈ Stmt.allLeaves (meanings body)) : Spells (spelling body) v := by
  obtain ⟨s, hs, hv⟩ := mem_allLeaves.mp h
  obtain ⟨x, hx, rfl⟩ := List.mem_map.mp hs
  exact (ih x hx hv).mono (mem_spelling hx)

theorem StmtSpelled.constants {toks : List Token} {s : Stmt} (h : StmtSpelled toks s)
    {v : Literal} (hv : .constant v ∈ s.leaves) : Spells toks v := by
  induction h with
  | declare _ _ _ he | assign _ _ he =>
    simp only [Stmt.leaves, List.mem_cons, reduceCtorEq, false_or] at hv
    exact (he.constants hv).mono fun t ht => by simp [ht]
  | call _ _ ha hl _ =>
    obtain ⟨e, he, hv⟩ := Expr.mem_allLeaves.mp hv
    obtain ⟨x, hx, rfl⟩ := List.mem_map.mp he
    exact ((ha x hx).constants hv).mono fun t ht => by simp [hl.subset hx ht]
  | define _ _ _ _ _ _ _ hb ih =>
    exact (spells_body ih hv).mono fun t ht => by simp [hb.subset ht]
  | ifThen _ he _ hb ih | loop _ he _ hb ih =>
    rcases List.mem_append.mp hv with hv | hv
    · exact (he.constants hv).mono fun t ht => by simp [ht]
    · exact (spells_body ih hv).mono fun t ht => by simp [hb.subset ht]
  | ifElse _ he _ hb _ _ hb' ih ih' =>
    simp only [Stmt.leaves, List.mem_append] at hv
    rcases hv with (hv | hv) | hv
    · exact (he.constants hv).mono fun t ht => by simp [ht]
    · exact (spells_body ih hv).mono fun t ht => by simp [hb.subset ht]
    · exact (spells_body ih' hv).mono fun t ht => by simp [hb'.subset ht]
  | bring _ he => exact (he.constants hv).mono (List.subset_cons_self _ _)
  | print _ he => exact (he.constants hv).mono (List.subset_cons_self _ _)

/-! ## Variables -/

theorem Occurrence.Named.mem {storages : List String} {storage : Option String}
    {declaration : Option Nat} (h : Occurrence.Named storages ⟨storage, declaration⟩)
    (name : String) : storage.getD name ∈ storages := by
  obtain ⟨k, s, -, hs, hk⟩ := h
  cases hs
  exact List.mem_of_getElem? hk

mutual

/-- The variables of an expression are the storage names of its occurrences. -/
theorem Expr.leaves_named {storages : List String} {s : String} (b : Bindings) : ∀ e : Expr,
    (∀ o ∈ e.occurrences b, o.Named storages) → .var s ∈ e.leaves → s ∈ storages
  | .literal _ _ _, _, hs => by cases List.mem_singleton.mp hs
  | .var name _ _ _, h, hs => by
    cases List.mem_singleton.mp hs
    exact (h _ (List.mem_singleton_self _)).mem name
  | .binary _ left right _ _, h, hs => by
    obtain ⟨hl, hr⟩ := List.forall_mem_append.mp h
    exact (List.mem_append.mp hs).elim (Expr.leaves_named b left hl) (Expr.leaves_named b right hr)
  | .unary _ operand _ _, h, hs => Expr.leaves_named b operand h hs
  | .call _ args _ _, h, hs => Expr.allLeaves_named b args h hs

theorem Expr.allLeaves_named {storages : List String} {s : String} (b : Bindings) :
    ∀ es : List Expr, (∀ o ∈ Expr.allOccurrences b es, o.Named storages) →
      .var s ∈ Expr.allLeaves es → s ∈ storages
  | [], _, hs => nomatch hs
  | e :: es, h, hs => by
    obtain ⟨he, hes⟩ := List.forall_mem_append.mp h
    exact (List.mem_append.mp hs).elim (Expr.leaves_named b e he) (Expr.allLeaves_named b es hes)

end

mutual

theorem Stmt.leaves_named {storages : List String} {s : String} (b : Bindings) : ∀ x : Stmt,
    (∀ o ∈ (x.occurrences b).found, o.Named storages) → .var s ∈ x.leaves → s ∈ storages
  | .declare name value storage _, h, hs => by
    obtain ⟨hvalue, hname⟩ := List.forall_mem_append.mp h
    rcases List.mem_cons.mp hs with he | hs
    · cases he
      exact (hname _ (List.mem_singleton_self _)).mem name
    · exact Expr.leaves_named b value hvalue hs
  | .assign name value storage _, h, hs => by
    obtain ⟨hname, hvalue⟩ := List.forall_mem_cons.mp h
    rcases List.mem_cons.mp hs with he | hs
    · cases he
      exact hname.mem name
    · exact Expr.leaves_named b value hvalue hs
  | .define _ params body _, h, hs => Stmt.allLeaves_named _ body h hs
  | .call _ args _, h, hs => Expr.allLeaves_named b args h hs
  | .ifThen condition body _, h, hs | .loop condition body _, h, hs => by
    obtain ⟨hcondition, hbody⟩ := List.forall_mem_append.mp h
    exact (List.mem_append.mp hs).elim (Expr.leaves_named b condition hcondition)
      (Stmt.allLeaves_named _ body hbody)
  | .ifElse condition body otherwise _, h, hs => by
    obtain ⟨hfirst, hotherwise⟩ := List.forall_mem_append.mp h
    obtain ⟨hcondition, hbody⟩ := List.forall_mem_append.mp hfirst
    rcases List.mem_append.mp hs with hs | hs
    · exact (List.mem_append.mp hs).elim (Expr.leaves_named b condition hcondition)
        (Stmt.allLeaves_named _ body hbody)
    · exact Stmt.allLeaves_named _ otherwise hotherwise hs
  | .bring value _, h, hs | .print value _, h, hs => Expr.leaves_named b value h hs

theorem Stmt.allLeaves_named {storages : List String} {s : String} (b : Bindings) :
    ∀ xs : List Stmt, (∀ o ∈ (Stmt.allOccurrences b xs).found, o.Named storages) →
      .var s ∈ Stmt.allLeaves xs → s ∈ storages
  | [], _, hs => nomatch hs
  | x :: xs, h, hs => by
    obtain ⟨hx, hxs⟩ := List.forall_mem_append.mp h
    exact (List.mem_append.mp hs).elim (Stmt.leaves_named b x hx) (Stmt.allLeaves_named _ xs hxs)

end

/-! ## Compilations -/

/-- The tokens have the constant, or the name that a variable's storage name was given for. -/
def ComesFrom (toks : List Token) : Operand → Prop
  | .temp _ => True
  | .constant v => Spells toks v
  | .var s => ∃ name n, Mentions toks name ∧ s = storageFor name n

/-- Where the operands of compiled code come from. -/
theorem Compilation.operands {source : String} {c : Compilation} (h : ofText source = .ok c) :
    EachOperand (ComesFrom c.tokens) c.code := by
  obtain ⟨tree, htoks, htree, hfaults, hbody⟩ := Compilation.of_ofText h
  obtain ⟨parts, hspelled, hmeanings, hsubset⟩ := ofTokens_spelled htree
  have hrenamed := Stmt.checkAll_renamed .start tree.body hfaults
  rw [Compilation.code_of_ofText h, Program.lower, hbody]
  refine Stmt.lowerAll_operands (fun _ => trivial) _ _ fun o ho => ?_
  cases o with
  | temp n => trivial
  | constant v =>
    have hv := Stmt.checkAll_constants .start v tree.body ho
    rw [hmeanings] at hv
    exact (spells_body (fun x hx => (hspelled x hx).constants) hv).mono hsubset
  | var s =>
    obtain ⟨name, hname, n, -, hs⟩ :=
      of_mem_storagesOf (Stmt.allLeaves_named .start _ hrenamed.named ho)
    have hdeclares := (Stmt.checkAll_declared .start name tree.body hname).resolve_right
      List.not_mem_nil
    exact ⟨name, n, ofTokens_declares htree hdeclares, hs⟩

end MeowScript
