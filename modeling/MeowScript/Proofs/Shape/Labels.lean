import Mathlib.Data.List.Basic
import Mathlib.Data.List.Perm.Basic
import Mathlib.Data.List.Range
import MeowScript.Proofs.Meaning.Numbering

/-!
# Labels are set once and jumped to once

A branch takes one label, a branch with another block or a loop takes two, however they are nested.
The labels of a program are numbered from zero without a gap; each is set at one place of the code,
and one instruction jumps there.

Results:
* `Stmt.lower_label`: how many labels a statement takes.
* `Stmt.lower_marks`: the labels that its code sets, and those that it jumps to, are the ones it
  takes, each once.
* `lower_labels_once`: the same for a program.
-/
namespace MeowScript

/-! ## Labels of a tree -/

mutual

/-- How many labels a statement takes. -/
def Stmt.labelCount : Stmt → Nat
  | .declare _ _ _ _ | .assign _ _ _ _ | .call _ _ _ | .bring _ _ | .print _ _ => 0
  | .define _ _ body _ => Stmt.labelCounts body
  | .ifThen _ body _ => 1 + Stmt.labelCounts body
  | .ifElse _ body otherwise _ => 2 + Stmt.labelCounts body + Stmt.labelCounts otherwise
  | .loop _ body _ => 2 + Stmt.labelCounts body

def Stmt.labelCounts : List Stmt → Nat
  | [] => 0
  | s :: ss => s.labelCount + Stmt.labelCounts ss

end

mutual

theorem Stmt.lower_label : ∀ (s : Stmt) (c : Counters),
    (s.lower c).2.label = c.label + s.labelCount
  | .declare _ _ _ _, _ | .assign _ _ _ _, _ | .call _ _ _, _ | .bring _ _, _ | .print _ _, _ => rfl
  | .define _ _ body _, c => by
    rw [Stmt.lower, Stmt.labelCount]
    exact Stmt.lowerAll_label body c
  | .ifThen condition body _, c => by
    simp only [Stmt.lower, Stmt.labelCount]
    rw [Stmt.lowerAll_label body, Nat.add_assoc]
  | .ifElse condition body otherwise _, c => by
    simp only [Stmt.lower, Stmt.labelCount]
    rw [Stmt.lowerAll_label otherwise, Stmt.lowerAll_label body, Nat.add_assoc, Nat.add_assoc,
      Nat.add_assoc]
  | .loop condition body _, c => by
    simp only [Stmt.lower, Stmt.labelCount]
    rw [Stmt.lowerAll_label body, Nat.add_assoc]

theorem Stmt.lowerAll_label : ∀ (ss : List Stmt) (c : Counters),
    (Stmt.lowerAll c ss).2.label = c.label + Stmt.labelCounts ss
  | [], _ => rfl
  | s :: ss, c => by
    simp only [Stmt.lowerAll, Stmt.labelCounts]
    rw [Stmt.lowerAll_label ss, Stmt.lower_label s]
    omega

end

/-! ## Labels of code -/

/-- The label that the instruction sets. -/
def Instr.label? : Instr → Option Nat
  | label n => some n
  | _ => none

/-- The label that the instruction jumps to. -/
def Instr.target? : Instr → Option Nat
  | ifFalse _ n | goto n => some n
  | _ => none

/-- What the instructions give by `f`, in order: the labels set, or those jumped to. -/
def marksOf (f : Instr → Option Nat) (code : List Instr) : List Nat := code.filterMap f

variable {f : Instr → Option Nat}

@[simp] theorem marksOf_nil : marksOf f [] = [] := rfl

@[simp] theorem marksOf_cons (i : Instr) (code : List Instr) :
    marksOf f (i :: code) = (f i).toList ++ marksOf f code := by
  unfold marksOf
  rw [List.filterMap_cons]
  cases f i <;> rfl

@[simp] theorem marksOf_append (a b : List Instr) :
    marksOf f (a ++ b) = marksOf f a ++ marksOf f b :=
  List.filterMap_append

/-- Instructions that compute neither set a label nor jump. -/
theorem marksOf_of_computes (hf : ∀ i, i.isComputation = true → f i = none) {code : List Instr}
    (h : ∀ i ∈ code, i.isComputation = true) : marksOf f code = [] :=
  List.filterMap_eq_nil_iff.mpr fun i hi => hf i (h i hi)

/-- The labels set in the code, and those jumped to in it, are `n` from `lo` on, each once. -/
def MarksOnce (lo n : Nat) (code : List Instr) : Prop :=
  (marksOf Instr.label? code).Perm (List.range' lo n) ∧
    (marksOf Instr.target? code).Perm (List.range' lo n)

namespace MarksOnce

variable {lo m n : Nat} {a b : List Instr}

theorem iff_count : MarksOnce lo n a ↔ ∀ k,
    (marksOf Instr.label? a).count k = (List.range' lo n).count k ∧
      (marksOf Instr.target? a).count k = (List.range' lo n).count k := by
  unfold MarksOnce
  rw [List.perm_iff_count, List.perm_iff_count, forall_and]

theorem nil : MarksOnce lo 0 [] := ⟨.nil, .nil⟩

theorem cons {i : Instr} (hl : i.label? = none) (ht : i.target? = none) (h : MarksOnce lo n a) :
    MarksOnce lo n (i :: a) := by
  unfold MarksOnce
  rw [marksOf_cons, marksOf_cons, hl, ht]
  exact h

theorem append (ha : MarksOnce lo m a) (hb : MarksOnce (lo + m) n b) :
    MarksOnce lo (m + n) (a ++ b) := by
  unfold MarksOnce
  rw [marksOf_append, marksOf_append, ← List.range'_append_1]
  exact ⟨ha.1.append hb.1, ha.2.append hb.2⟩

/-- Code that only computes, in front. -/
theorem after_computes (ha : ∀ i ∈ a, i.isComputation = true) (hb : MarksOnce lo n b) :
    MarksOnce lo n (a ++ b) := by
  have hnone : ∀ i : Instr, i.isComputation = true → i.label? = none ∧ i.target? = none := by
    intro i hi
    cases i <;> first | exact ⟨rfl, rfl⟩ | cases hi
  unfold MarksOnce
  rw [marksOf_append, marksOf_append, marksOf_of_computes (fun i hi => (hnone i hi).1) ha,
    marksOf_of_computes (fun i hi => (hnone i hi).2) ha]
  exact hb

/-- A jump over a block to a label behind it. -/
theorem branch {x : Operand} (hb : MarksOnce (lo + 1) n b) :
    MarksOnce lo (1 + n) (.ifFalse x lo :: (b ++ [.label lo])) := by
  rw [iff_count] at hb ⊢
  intro k
  obtain ⟨hl, ht⟩ := hb k
  simp only [marksOf_cons, marksOf_append, marksOf_nil, Instr.label?, Instr.target?, Option.toList,
    List.count_append, List.count_cons, List.count_nil, Nat.add_comm 1, List.range'_succ]
  omega

/-- Two numbers, and those behind them. -/
theorem range'_two : List.range' lo (2 + n) = lo :: (lo + 1) :: List.range' (lo + 2) n := by
  rw [Nat.add_comm, List.range'_succ, List.range'_succ]

/-- A jump over a block to another one, and one from the end of the first over the other. -/
theorem branches {x : Operand} (ha : MarksOnce (lo + 2) m a) (hb : MarksOnce (lo + 2 + m) n b) :
    MarksOnce lo (2 + m + n) (.ifFalse x lo :: (a ++ .goto (lo + 1) :: .label lo :: (b ++
      [.label (lo + 1)]))) := by
  have hab := ha.append hb
  rw [iff_count] at hab
  rw [iff_count, Nat.add_assoc, range'_two]
  intro k
  obtain ⟨hl, ht⟩ := hab k
  simp only [marksOf_cons, marksOf_append, marksOf_nil, Instr.label?, Instr.target?, Option.toList,
    List.count_append, List.count_cons, List.count_nil] at hl ht ⊢
  omega

/-- A block that jumps back to the test in front of it, and a jump from there behind the block. -/
theorem loop {x : Operand} (ha : ∀ i ∈ a, i.isComputation = true) (hb : MarksOnce (lo + 2) n b) :
    MarksOnce lo (2 + n) (.label lo :: (a ++ .ifFalse x (lo + 1) :: (b ++
      [.goto lo, .label (lo + 1)]))) := by
  have hab := after_computes ha hb
  rw [iff_count] at hab
  rw [iff_count, range'_two]
  intro k
  obtain ⟨hl, ht⟩ := hab k
  simp only [marksOf_cons, marksOf_append, marksOf_nil, Instr.label?, Instr.target?, Option.toList,
    List.count_append, List.count_cons, List.count_nil] at hl ht ⊢
  omega

end MarksOnce

/-! ## Labels that statements take -/

mutual

theorem Stmt.lower_marks : ∀ (s : Stmt) (c : Counters),
    MarksOnce c.label s.labelCount (s.lower c).1
  | .declare _ value _ _, c | .assign _ value _ _, c | .bring value _, c | .print value _, c =>
    .after_computes (Expr.lower_computes value _) (.cons rfl rfl .nil)
  | .call _ args _, c =>
    .after_computes (Expr.lowerArgs_computes args _) (.cons rfl rfl .nil)
  | .define _ _ body _, c =>
    .cons rfl rfl (.append (Stmt.lowerAll_marks body c) (.cons rfl rfl .nil))
  | .ifThen condition body _, c => by
    have hb := Stmt.lowerAll_marks body ⟨(condition.lower c.temp).next, c.label + 1⟩
    simp only [Stmt.lower, List.append_assoc, List.cons_append, List.nil_append]
    exact .after_computes (Expr.lower_computes condition _) hb.branch
  | .ifElse condition body otherwise _, c => by
    have hb := Stmt.lowerAll_marks body ⟨(condition.lower c.temp).next, c.label + 2⟩
    have ho := Stmt.lowerAll_marks otherwise
      (Stmt.lowerAll ⟨(condition.lower c.temp).next, c.label + 2⟩ body).2
    rw [Stmt.lowerAll_label] at ho
    simp only [Stmt.lower, List.append_assoc, List.cons_append, List.nil_append]
    exact .after_computes (Expr.lower_computes condition _) (hb.branches ho)
  | .loop condition body _, c => by
    have hb := Stmt.lowerAll_marks body ⟨(condition.lower c.temp).next, c.label + 2⟩
    simp only [Stmt.lower, List.append_assoc, List.cons_append, List.nil_append]
    exact .loop (Expr.lower_computes condition _) hb

theorem Stmt.lowerAll_marks : ∀ (ss : List Stmt) (c : Counters),
    MarksOnce c.label (Stmt.labelCounts ss) (Stmt.lowerAll c ss).1
  | [], _ => .nil
  | s :: ss, c => by
    have hs := Stmt.lower_marks s c
    have hss := Stmt.lowerAll_marks ss (s.lower c).2
    rw [Stmt.lower_label] at hss
    exact hs.append hss

end

/-- **Main.** The labels of a program are numbered from zero to the number it takes. Its code sets
each of them at one place, jumps to each from one place, and mentions no other. -/
theorem lower_labels_once (p : Program) :
    (Stmt.lowerAll .start p.body).2.label = Stmt.labelCounts p.body ∧
      ∀ k, p.lower.count (.label k) = (if k < Stmt.labelCounts p.body then 1 else 0) ∧
        p.lower.countP (fun i => i.target? = some k) =
          (if k < Stmt.labelCounts p.body then 1 else 0) := by
  obtain ⟨hlabels, htargets⟩ := Stmt.lowerAll_marks p.body .start
  refine ⟨by rw [Stmt.lowerAll_label]; exact Nat.zero_add _, fun k => ⟨?_, ?_⟩⟩
  · have hset : p.lower.count (.label k) = (marksOf Instr.label? p.lower).count k := by
      rw [marksOf, List.count_filterMap, List.count_eq_countP]
      refine List.countP_congr fun i _ => ?_
      cases i <;> simp [Instr.label?]
    rw [hset, ← List.count_range, List.range_eq_range']
    exact hlabels.count_eq k
  · have hjumps : p.lower.countP (fun i => i.target? = some k) =
        (marksOf Instr.target? p.lower).count k := by
      rw [marksOf, List.count_filterMap]
      exact List.countP_congr fun i _ => by simp
    rw [hjumps, ← List.count_range, List.range_eq_range']
    exact htargets.count_eq k

end MeowScript
