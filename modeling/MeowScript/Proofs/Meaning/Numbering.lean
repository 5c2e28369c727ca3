import MeowScript.Proofs.Meaning.Machine

/-!
# The numbers and marks in lowered code

Results:
* `Expr.lower_computes`: the code of an expression does nothing but compute.
* `Expr.lower_unmarked`: so it has no labels and no marks of functions.
* `Expr.lower_below`: the value of an expression is not in a temporary that later code writes.
* `Stmt.lower_labels`: the labels of a statement are numbered from where it begins to where it ends.
* `Stmt.behindFunction_lower`: whoever looks for the end of a function does not find it inside a
  statement.
-/
namespace MeowScript

/-! ## Expressions -/

/-- Whether the instruction computes a value, or gives one to a call. -/
def Instr.isComputation : Instr → Bool
  | binary _ _ _ _ _ | unary _ _ _ _ | call _ _ _ | param _ => true
  | copy _ _ | label _ | ifFalse _ _ | goto _ | bring _ | print _ | beginFunction _
  | endFunction _ => false

theorem Instr.isMark_of_isComputation {i : Instr} (h : i.isComputation = true) :
    i.isMark = false := by
  cases i <;> first | rfl | cases h

mutual

/-- The code of an expression does nothing but compute. -/
theorem Expr.lower_computes : ∀ (e : Expr) (next : Nat), ∀ i ∈ (e.lower next).code,
    i.isComputation = true
  | .literal _ _ _, _ | .var _ _ _ _, _ => by simp [Expr.lower]
  | .binary op left right _ note, next => by
    intro i hi
    simp only [Expr.lower, List.mem_append, List.mem_singleton] at hi
    rcases hi with (hl | hr) | rfl
    · exact Expr.lower_computes left _ i hl
    · exact Expr.lower_computes right _ i hr
    · rfl
  | .unary op operand _ note, next => by
    intro i hi
    simp only [Expr.lower, List.mem_append, List.mem_singleton] at hi
    rcases hi with he | rfl
    · exact Expr.lower_computes operand _ i he
    · rfl
  | .call name args _ _, next => by
    intro i hi
    simp only [Expr.lower, List.mem_append, List.mem_singleton] at hi
    rcases hi with ha | rfl
    · exact Expr.lowerArgs_computes args _ i ha
    · rfl

theorem Expr.lowerArgs_computes : ∀ (es : List Expr) (next : Nat),
    ∀ i ∈ (Expr.lowerArgs next es).1, i.isComputation = true
  | [], _ => by simp [Expr.lowerArgs]
  | e :: es, next => by
    intro i hi
    simp only [Expr.lowerArgs, List.mem_append, List.mem_singleton] at hi
    rcases hi with (he | rfl) | hs
    · exact Expr.lower_computes e _ i he
    · rfl
    · exact Expr.lowerArgs_computes es _ i hs

end

theorem Expr.lower_unmarked (e : Expr) (next : Nat) :
    ∀ i ∈ (e.lower next).code, i.isMark = false :=
  fun i hi => Instr.isMark_of_isComputation (Expr.lower_computes e next i hi)

theorem Expr.lowerArgs_unmarked (es : List Expr) (next : Nat) :
    ∀ i ∈ (Expr.lowerArgs next es).1, i.isMark = false :=
  fun i hi => Instr.isMark_of_isComputation (Expr.lowerArgs_computes es next i hi)

/-- No label stands among unmarked instructions. -/
theorem label_notMem {code : List Instr} (h : ∀ i ∈ code, i.isMark = false) (l : Nat) :
    .label l ∉ code := by
  intro hl
  have := h _ hl
  simp [Instr.isMark] at this

/-- The code of a test and its jump, in front of `here`. -/
abbrev testCode (condition : Expr) (next target : Nat) (here : List Instr) : List Instr :=
  (condition.lower next).code ++ .ifFalse (condition.lower next).result target :: here

theorem labelled_testCode (condition : Expr) (next target l : Nat) (here : List Instr) :
    labelled l (testCode condition next target here) = labelled l here := by
  have hcode := label_notMem (Expr.lower_unmarked condition next) l
  rw [testCode, labelled_append hcode, labelled_cons (by simp)]

mutual

theorem Expr.lower_next_le : ∀ (e : Expr) (next : Nat), next ≤ (e.lower next).next
  | .literal _ _ _, _ | .var _ _ _ _, _ => by simp [Expr.lower]
  | .binary _ left right _ _, next => by
    have hl := Expr.lower_next_le left next
    have hr := Expr.lower_next_le right (left.lower next).next
    simp only [Expr.lower]
    omega
  | .unary _ operand _ _, next => by
    have := Expr.lower_next_le operand next
    simp only [Expr.lower]
    omega
  | .call _ args _ _, next => by
    have := Expr.lowerArgs_next_le args next
    simp only [Expr.lower]
    omega

theorem Expr.lowerArgs_next_le :
    ∀ (es : List Expr) (next : Nat), next ≤ (Expr.lowerArgs next es).2
  | [], _ => by simp [Expr.lowerArgs]
  | e :: es, next => by
    have he := Expr.lower_next_le e next
    have hs := Expr.lowerArgs_next_le es (e.lower next).next
    simp only [Expr.lowerArgs]
    omega

end

/-- If a temporary is read, its number is less than `n`. -/
def Operand.Below (n : Nat) : Operand → Prop
  | .temp k => k < n
  | .constant _ | .var _ => True

theorem Expr.lower_below (e : Expr) (next : Nat) :
    (e.lower next).result.Below (e.lower next).next := by
  cases e <;> simp [Expr.lower, Operand.Below]

/-! ## Statements -/

/-- Every label in the code is numbered from `lo` on and below `hi`. -/
def LabelsWithin (lo hi : Nat) (code : List Instr) : Prop :=
  ∀ l, .label l ∈ code → lo ≤ l ∧ l < hi

namespace LabelsWithin

variable {lo hi lo' hi' : Nat} {a b : List Instr}

theorem mono (h : LabelsWithin lo hi a) (hl : lo' ≤ lo) (hh : hi ≤ hi') :
    LabelsWithin lo' hi' a := by
  intro l hm
  have := h l hm
  omega

theorem append (ha : LabelsWithin lo hi a) (hb : LabelsWithin lo hi b) :
    LabelsWithin lo hi (a ++ b) := by
  intro l hm
  rcases List.mem_append.mp hm with h | h
  · exact ha l h
  · exact hb l h

theorem cons_label {n : Nat} (hl : lo ≤ n) (hh : n < hi) (ha : LabelsWithin lo hi a) :
    LabelsWithin lo hi (.label n :: a) := by
  intro l hm
  rcases List.mem_cons.mp hm with h | h
  · cases h; exact ⟨hl, hh⟩
  · exact ha l h

theorem cons {i : Instr} (hi' : ∀ l, i ≠ .label l) (ha : LabelsWithin lo hi a) :
    LabelsWithin lo hi (i :: a) := by
  intro l hm
  rcases List.mem_cons.mp hm with h | h
  · exact absurd h.symm (hi' l)
  · exact ha l h

theorem nil : LabelsWithin lo hi [] := by simp [LabelsWithin]

theorem of_unmarked (h : ∀ i ∈ a, i.isMark = false) : LabelsWithin lo hi a :=
  fun l hm => absurd hm (label_notMem h l)

/-- A number that is not yet given is no label. -/
theorem notMem {l : Nat} (h : LabelsWithin lo hi a) (hl : l < lo ∨ hi ≤ l) : .label l ∉ a := by
  intro hm
  have := h l hm
  omega

end LabelsWithin

mutual

theorem Stmt.lower_labels : ∀ (s : Stmt) (c : Counters),
    c.label ≤ (s.lower c).2.label ∧ LabelsWithin c.label (s.lower c).2.label (s.lower c).1
  | .declare _ value _ _, c | .assign _ value _ _, c | .bring value _, c | .print value _, c => by
    refine ⟨Nat.le_refl _, ?_⟩
    exact .append (.of_unmarked (Expr.lower_unmarked value _)) (.cons (by simp) .nil)
  | .define _ _ body _, c => by
    obtain ⟨hle, hb⟩ := Stmt.lowerAll_labels body c
    exact ⟨hle, .cons (by simp) (hb.append (.cons (by simp) .nil))⟩
  | .call _ args _, c => by
    refine ⟨Nat.le_refl _, ?_⟩
    exact .append (.of_unmarked (Expr.lowerArgs_unmarked args _)) (.cons (by simp) .nil)
  | .ifThen condition body _, c => by
    obtain ⟨hle, hb⟩ := Stmt.lowerAll_labels body ⟨(condition.lower c.temp).next, c.label + 1⟩
    simp only [Stmt.lower] at hle hb ⊢
    refine ⟨by omega, .append (.append (.append ?_ (.cons (by simp) .nil)) ?_) ?_⟩
    · exact .of_unmarked (Expr.lower_unmarked condition _)
    · exact hb.mono (by omega) (Nat.le_refl _)
    · exact .cons_label (Nat.le_refl _) hle .nil
  | .ifElse condition body otherwise _, c => by
    obtain ⟨hle, hb⟩ := Stmt.lowerAll_labels body ⟨(condition.lower c.temp).next, c.label + 2⟩
    obtain ⟨hle', ho⟩ := Stmt.lowerAll_labels otherwise
      (Stmt.lowerAll ⟨(condition.lower c.temp).next, c.label + 2⟩ body).2
    simp only [Stmt.lower] at hle hb hle' ho ⊢
    refine ⟨by omega,
      .append (.append (.append (.append (.append ?_ (.cons (by simp) .nil)) ?_) ?_) ?_) ?_⟩
    · exact .of_unmarked (Expr.lower_unmarked condition _)
    · exact hb.mono (by omega) hle'
    · exact .cons (by simp) (.cons_label (Nat.le_refl _) (by omega) .nil)
    · exact ho.mono (by omega) (Nat.le_refl _)
    · exact .cons_label (by omega) (by omega) .nil
  | .loop condition body _, c => by
    obtain ⟨hle, hb⟩ := Stmt.lowerAll_labels body ⟨(condition.lower c.temp).next, c.label + 2⟩
    simp only [Stmt.lower] at hle hb ⊢
    refine ⟨by omega, .append (.append (.append ?_ (.cons (by simp) .nil)) ?_) ?_⟩
    · exact .cons_label (Nat.le_refl _) (by omega)
        (.of_unmarked (Expr.lower_unmarked condition _))
    · exact hb.mono (by omega) (Nat.le_refl _)
    · exact .cons (by simp) (.cons_label (by omega) (by omega) .nil)

theorem Stmt.lowerAll_labels : ∀ (ss : List Stmt) (c : Counters),
    c.label ≤ (Stmt.lowerAll c ss).2.label ∧
      LabelsWithin c.label (Stmt.lowerAll c ss).2.label (Stmt.lowerAll c ss).1
  | [], c => ⟨Nat.le_refl _, .nil⟩
  | s :: ss, c => by
    obtain ⟨hle, hs⟩ := Stmt.lower_labels s c
    obtain ⟨hle', hss⟩ := Stmt.lowerAll_labels ss (s.lower c).2
    simp only [Stmt.lowerAll]
    exact ⟨Nat.le_trans hle hle',
      .append (hs.mono (Nat.le_refl _) hle') (hss.mono hle (Nat.le_refl _))⟩

end

mutual

theorem Stmt.behindFunction_lower : ∀ (s : Stmt) (c : Counters) (d : Nat) (rest : List Instr),
    behindFunction d ((s.lower c).1 ++ rest) = behindFunction d rest
  | .declare _ value _ _, c, d, rest | .assign _ value _ _, c, d, rest | .bring value _, c, d, rest
  | .print value _, c, d, rest => by
    simp only [Stmt.lower, List.append_assoc, behindFunction_append (Expr.lower_unmarked value _)]
    rfl
  | .define name _ body _, c, d, rest => by
    simp only [Stmt.lower, List.cons_append, List.append_assoc, behindFunction]
    rw [Stmt.behindFunction_lowerAll body c]
    rfl
  | .call _ args _, c, d, rest => by
    simp only [Stmt.lower, List.append_assoc,
      behindFunction_append (Expr.lowerArgs_unmarked args _)]
    rfl
  | .ifThen condition body _, c, d, rest => by
    simp only [Stmt.lower, List.append_assoc, List.cons_append, List.nil_append,
      behindFunction_append (Expr.lower_unmarked condition _), behindFunction]
    rw [Stmt.behindFunction_lowerAll body]
    rfl
  | .ifElse condition body otherwise _, c, d, rest => by
    simp only [Stmt.lower, List.append_assoc, List.cons_append, List.nil_append,
      behindFunction_append (Expr.lower_unmarked condition _), behindFunction]
    rw [Stmt.behindFunction_lowerAll body]
    simp only [behindFunction]
    rw [Stmt.behindFunction_lowerAll otherwise]
    rfl
  | .loop condition body _, c, d, rest => by
    simp only [Stmt.lower, List.append_assoc, List.cons_append, List.nil_append,
      behindFunction_append (Expr.lower_unmarked condition _), behindFunction]
    rw [Stmt.behindFunction_lowerAll body]
    rfl

theorem Stmt.behindFunction_lowerAll :
    ∀ (ss : List Stmt) (c : Counters) (d : Nat) (rest : List Instr),
      behindFunction d ((Stmt.lowerAll c ss).1 ++ rest) = behindFunction d rest
  | [], _, _, _ => rfl
  | s :: ss, c, d, rest => by
    simp only [Stmt.lowerAll, List.append_assoc]
    rw [Stmt.behindFunction_lower s, Stmt.behindFunction_lowerAll ss]

end

end MeowScript
