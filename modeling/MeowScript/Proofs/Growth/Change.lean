import Mathlib.Algebra.GroupWithZero.Nat
import MeowScript.Proofs.Growth.Continuation
import MeowScript.Proofs.Meaning.Numbering

/-!
# A last statement that goes on has other code

An expression with more operands has more code, so that the instruction behind the old one moves; a
branch that is given its other block jumps where it has ended before. A variable that becomes a call
is a fault, as no name is a variable and a function.

Results:
* `Expr.lower_length`, `Stmt.lower_length`: the length of code depends on the tree alone.
* `codeAt_operator`, `codeAt_hiss`: the code of a statement that goes on does not begin like before.
* `Growth.no_paren`: more tokens of an accepted program do not begin with a parenthesis.
* `Growth.code_iff`, `Growth.body_iff`: their first token tells whether they keep code and
  statements.
-/
namespace MeowScript

/-! ## The length of code -/

mutual

/-- The number of instructions of an expression. -/
def Expr.cost : Expr → Nat
  | .literal _ _ _ | .var _ _ _ _ => 0
  | .binary _ left right _ _ => left.cost + right.cost + 1
  | .unary _ operand _ _ => operand.cost + 1
  | .call _ args _ _ => Expr.costAll args + 1

/-- The number of instructions of arguments, each of which is given as a parameter. -/
def Expr.costAll : List Expr → Nat
  | [] => 0
  | e :: es => e.cost + 1 + Expr.costAll es

end

mutual

theorem Expr.lower_length : ∀ (e : Expr) (next : Nat), (e.lower next).code.length = e.cost
  | .literal _ _ _, _ | .var _ _ _ _, _ => rfl
  | .binary _ left right _ _, next => by
    simp only [Expr.lower, Expr.cost, List.length_append, List.length_singleton,
      Expr.lower_length left, Expr.lower_length right]
  | .unary _ operand _ _, next => by simp [Expr.lower, Expr.cost, Expr.lower_length operand]
  | .call _ args _ _, next => by simp [Expr.lower, Expr.cost, Expr.lowerArgs_length args]

theorem Expr.lowerArgs_length :
    ∀ (es : List Expr) (next : Nat), (Expr.lowerArgs next es).1.length = Expr.costAll es
  | [], _ => rfl
  | e :: es, next => by
    simp only [Expr.lowerArgs, Expr.costAll, List.length_append, List.length_singleton,
      Expr.lower_length e, Expr.lowerArgs_length es]

end

mutual

theorem Expr.check_cost (t : Scopes) : ∀ e : Expr, (Expr.check t e).1.cost = e.cost
  | .literal _ _ _ => rfl
  | .var name _ p _ => by
    rw [Expr.check]
    split
    · rfl
    · split <;> rfl
  | .binary _ left right _ _ => by
    simp [Expr.check, Expr.cost, Expr.check_cost t left, Expr.check_cost t right]
  | .unary _ operand _ _ => by simp [Expr.check, Expr.cost, Expr.check_cost t operand]
  | .call _ args _ _ => by simp [Expr.check, Expr.cost, Expr.checkAll_cost t args]

theorem Expr.checkAll_cost (t : Scopes) :
    ∀ es : List Expr, Expr.costAll (Expr.checkAll t es).1 = Expr.costAll es
  | [] => rfl
  | e :: es => by
    simp [Expr.checkAll, Expr.costAll, Expr.check_cost t e, Expr.checkAll_cost t es]

end

mutual

/-- Where the numbers of temporaries and labels begin does not matter. -/
theorem Stmt.lower_length (c c' : Counters) : ∀ s : Stmt,
    (Stmt.lower c s).1.length = (Stmt.lower c' s).1.length
  | .declare _ _ _ _ | .assign _ _ _ _ | .bring _ _ | .print _ _ => by
    simp [Stmt.lower, Expr.lower_length]
  | .call _ _ _ => by simp [Stmt.lower, Expr.lowerArgs_length]
  | .define _ _ body _ => by simp [Stmt.lower, Stmt.lowerAll_length c c' body]
  | .ifThen condition body _ => by
    simp [Stmt.lower, Expr.lower_length,
      Stmt.lowerAll_length ⟨(condition.lower c.temp).next, c.label + 1⟩
        ⟨(condition.lower c'.temp).next, c'.label + 1⟩ body]
  | .ifElse condition body otherwise _ => by
    simp only [Stmt.lower, List.length_append, Expr.lower_length]
    rw [Stmt.lowerAll_length _ ⟨(condition.lower c'.temp).next, c'.label + 2⟩ body,
      Stmt.lowerAll_length _
        (Stmt.lowerAll ⟨(condition.lower c'.temp).next, c'.label + 2⟩ body).2 otherwise]
    rfl
  | .loop condition body _ => by
    simp [Stmt.lower, Expr.lower_length,
      Stmt.lowerAll_length ⟨(condition.lower c.temp).next, c.label + 2⟩
        ⟨(condition.lower c'.temp).next, c'.label + 2⟩ body]

theorem Stmt.lowerAll_length (c c' : Counters) : ∀ ss : List Stmt,
    (Stmt.lowerAll c ss).1.length = (Stmt.lowerAll c' ss).1.length
  | [] => rfl
  | s :: ss => by
    simp [Stmt.lowerAll, Stmt.lower_length c c' s,
      Stmt.lowerAll_length (Stmt.lower c s).2 (Stmt.lower c' s).2 ss]

end

theorem Joined.cost {e : Expr} {xs : List Expr} (h : Joined e xs) :
    e.cost + 1 = (xs.map fun x => x.cost + 1).sum := by
  induction h with
  | one e => simp
  | binary _ _ ihl ihr =>
    rw [List.map_append, List.sum_append, ← ihl, ← ihr, Expr.cost]
    omega

/-- With more operands there is more code. -/
theorem Joined.cost_lt {e e' : Expr} {xs ys : List Expr} (h : Joined e xs)
    (h' : Joined e' (xs ++ ys)) (hy : ys ≠ []) : e.cost < e'.cost := by
  have hold := h.cost
  have hnew := h'.cost
  rw [List.map_append, List.sum_append, ← hold] at hnew
  cases ys with
  | nil => exact absurd rfl hy
  | cons y ys =>
    rw [List.map_cons, List.sum_cons] at hnew
    omega

/-! ## The last instruction of a statement made of a value -/

namespace MadeOfValue

variable {make : Expr → Stmt}

/-- The code of the value, and the instruction that hands it over. -/
theorem lower (h : MadeOfValue make) (c : Checker) (k : Counters) (e : Expr) :
    ∃ i, i.isComputation = false ∧ (Stmt.lower k (Stmt.check c (make e)).value).1 =
      ((Expr.check c.scopes e).1.lower k.temp).code ++ [i] := by
  cases h <;> simp only [Stmt.check, Stmt.lower] <;> refine ⟨_, ?_, rfl⟩ <;> rfl

theorem accepted (h : MadeOfValue make) {c : Checker} {e : Expr}
    (hf : (Stmt.check c (make e)).faults = []) : (Expr.check c.scopes e).2 = [] := by
  cases h <;> simp_all [Stmt.check]

end MadeOfValue

/-! ## One statement changed -/

/-- The code that a statement comes to where it stands. -/
def Stmt.codeAt (c : Checker) (k : Counters) (s : Stmt) : List Instr :=
  (Stmt.lower k (Stmt.check c s).value).1

/-- More operands of the value. -/
theorem codeAt_operator {make : Expr → Stmt} (h : MadeOfValue make) {e e' : Expr}
    {xs ys : List Expr} (he : Joined e xs) (he' : Joined e' (xs ++ ys)) (hy : ys ≠ [])
    (c : Checker) (k : Counters) (rest : List Instr) :
    ¬ Stmt.codeAt c k (make e) <+: Stmt.codeAt c k (make e') ++ rest := by
  obtain ⟨i, hi, hcode⟩ := h.lower c k e
  obtain ⟨i', -, hcode'⟩ := h.lower c k e'
  rw [Stmt.codeAt, Stmt.codeAt, hcode, hcode', List.append_assoc]
  intro hpre
  have hlt := he.cost_lt he' hy
  -- the old code is too short for its last instruction to stand behind the new value
  have hinside : ((Expr.check c.scopes e).1.lower k.temp).code ++ [i] <+:
      ((Expr.check c.scopes e').1.lower k.temp).code := by
    refine List.prefix_of_prefix_length_le hpre (List.prefix_append _ _) ?_
    simp only [List.length_append, List.length_singleton, Expr.lower_length, Expr.check_cost]
    omega
  have hcomputes := Expr.lower_computes _ _ i (hinside.subset (by simp))
  rw [hi] at hcomputes
  cases hcomputes

/-- Another block behind a branch. -/
theorem codeAt_hiss (condition : Expr) (body otherwise : List Stmt) (p : Position) (c : Checker)
    (k : Counters) (rest : List Instr) :
    ¬ Stmt.codeAt c k (.ifThen condition body p) <+:
      Stmt.codeAt c k (.ifElse condition body otherwise p) ++ rest := by
  simp only [Stmt.codeAt, Stmt.check, Stmt.lower, List.append_assoc, List.cons_append,
    List.nil_append]
  intro hpre
  obtain ⟨-, hpre⟩ := List.cons_prefix_cons.mp ((List.prefix_append_right_inj _).mp hpre)
  have hlength := Stmt.lowerAll_length
    ⟨((Expr.check c.scopes condition).1.lower k.temp).next, k.label + 1⟩
    ⟨((Expr.check c.scopes condition).1.lower k.temp).next, k.label + 2⟩
    (Stmt.checkAll c.enter body).value
  obtain ⟨more, hmore⟩ := hpre
  rw [List.append_assoc] at hmore
  -- up to the end of the first block both are of one length; there a label meets a jump
  have hlabel := (List.append_inj hmore hlength).2
  cases hlabel

/-- A statement that comes to other code has the code of the program changed. -/
theorem code_changed {s s' : Stmt}
    (h : ∀ c k rest, ¬ Stmt.codeAt c k s <+: Stmt.codeAt c k s' ++ rest) (front more : List Stmt) :
    ¬ (Stmt.lowerAll .start (Stmt.checkAll .start (front ++ [s])).value).1 <+:
      (Stmt.lowerAll .start (Stmt.checkAll .start (front ++ s' :: more)).value).1 := by
  simp only [Stmt.checkAll_append, Stmt.lowerAll_append, Stmt.checkAll, Stmt.lowerAll,
    List.append_nil, List.prefix_append_right_inj]
  exact h _ _ _

/-! ## No variable becomes a call -/

theorem Joined.accepted {t : Scopes} {e : Expr} {xs : List Expr} (h : Joined e xs)
    (hf : (Expr.check t e).2 = []) : ∀ x ∈ xs, (Expr.check t x).2 = [] := by
  induction h with
  | one e =>
    intro x hx
    rw [List.mem_singleton.mp hx]
    exact hf
  | binary _ _ ihl ihr =>
    simp only [Expr.check, List.append_eq_nil_iff] at hf
    exact List.forall_mem_append.mpr ⟨ihl hf.1.1, ihr hf.1.2⟩

/-- A name that is a variable cannot be called. -/
theorem Called.rejected {t : Scopes} {e e' : Expr} (h : Called e e')
    (hf : (Expr.check t e).2 = []) : (Expr.check t e').2 ≠ [] := by
  induction h with
  | @var name storage p q ty note args =>
    simp only [Expr.check] at hf ⊢
    cases hs : t.lookup name with
    | none => simp [callFaults]
    | some s =>
      cases hfun : s.isFunction with
      | true => simp [hs, hfun] at hf
      | false => simp [callFaults, hfun]
  | unary _ ih =>
    intro hf'
    simp only [Expr.check, List.append_eq_nil_iff] at hf hf'
    exact ih hf.1 hf'.1

theorem checkAll_accepted {front more : List Stmt} {s : Stmt}
    (h : (Stmt.checkAll .start (front ++ s :: more)).faults = []) :
    (Stmt.check (Stmt.checkAll .start front).after s).faults = [] := by
  simp only [Stmt.checkAll_append, Stmt.checkAll, List.append_eq_nil_iff] at h
  exact h.2.1

/-! ## More tokens of an accepted program -/

/-- A statement goes on with the first of these tokens. -/
def Continues (toks : List Token) : Prop :=
  ∃ t ∈ toks.head?, (∃ o, t.kind = .operator o) ∨ t.kind = .keyword .hiss

namespace Growth

variable {a c : Compilation} {toks : List Token} {old new : List (List Token × Stmt)}

/-- In accepted programs no parenthesis stands where a statement might have ended. -/
theorem no_paren (h : Growth a c toks old new) {t : Token} (ht : t ∈ toks.head?) :
    t.kind ≠ .delimiter .openParen := by
  intro hk
  obtain ⟨rest, rfl⟩ := List.head?_eq_some_iff.mp ht
  obtain ⟨front, last, hmem, more, y, hy, hbody, hbody'⟩ :=
    last_statement h.oldSpelled h.newSpelled h.newTokens (stuck_paren hk)
  obtain ⟨make, e, e', xs, z, z', ys, later, hmake, hs, hy', hold, hjoined, hcalled⟩ :=
    statements_paren (h.oldSpelled last hmem) hy hk
  have haccepted := h.oldBody.accepted
  have haccepted' := h.newBody.accepted
  rw [hbody, hs] at haccepted
  rw [hbody', hy'] at haccepted'
  have hvar := hold.accepted (hmake.accepted (checkAll_accepted haccepted)) z (by simp)
  have hcall := hjoined.accepted (hmake.accepted (checkAll_accepted haccepted')) z' (by simp)
  exact hcalled.rejected hvar hcall

/-- What a statement goes on with changes the code. -/
theorem changes (h : Growth a c toks old new) (hc : Continues toks) : ¬ a.code <+: c.code := by
  obtain ⟨t, ht, hk⟩ := hc
  obtain ⟨rest, rfl⟩ := List.head?_eq_some_iff.mp ht
  have hstuck : Stuck t := by
    rcases hk with ⟨o, ho⟩ | hhiss
    · exact stuck_operator ho
    · exact stuck_hiss hhiss
  obtain ⟨front, last, hmem, more, y, hy, hbody, hbody'⟩ :=
    last_statement h.oldSpelled h.newSpelled h.newTokens hstuck
  have hlast := h.oldSpelled last hmem
  rw [h.oldBody.lowered, h.newBody.lowered, h.oldBody.checked, h.newBody.checked, hbody, hbody']
  rcases hk with ⟨o, ho⟩ | hhiss
  · obtain ⟨make, e, e', xs, ys, later, hmake, hs, hy', hold, hjoined, hne⟩ :=
      statements_operator hlast hy ho
    rw [hs, hy']
    exact code_changed (codeAt_operator hmake hold hjoined hne) _ _
  · obtain ⟨condition, body, otherwise, p, later, hs, hy'⟩ := statements_hiss hlast hy hhiss
    rw [hs, hy']
    exact code_changed (codeAt_hiss condition body otherwise p) _ _

/-- More tokens of an accepted program keep its statements and its code, unless a statement goes on
with them. -/
theorem keeps_of_not (h : Growth a c toks old new) (hc : ¬ Continues toks) :
    a.program.body <+: c.program.body ∧ a.code <+: c.code := by
  refine h.keeps ?_
  cases htoks : toks with
  | nil => exact .of_end rfl _
  | cons t rest =>
    have ht : t ∈ toks.head? := by simp [htoks]
    exact .cons (fun o ho => hc ⟨t, ht, .inl ⟨o, ho⟩⟩) (h.no_paren ht)
      (fun hk => hc ⟨t, ht, .inr hk⟩) _

theorem code_iff (h : Growth a c toks old new) : a.code <+: c.code ↔ ¬ Continues toks :=
  ⟨fun hpre hc => h.changes hc hpre, fun hc => (h.keeps_of_not hc).2⟩

theorem body_iff (h : Growth a c toks old new) :
    a.program.body <+: c.program.body ↔ ¬ Continues toks := by
  refine ⟨fun hpre => h.code_iff.mp ?_, fun hc => (h.keeps_of_not hc).1⟩
  rw [h.oldBody.lowered, h.newBody.lowered]
  exact lowerAll_grow hpre _

end Growth

end MeowScript
