import MeowScript.Proofs.Shape.Labels
import MeowScript.Proofs.Shape.Parameters

/-!
# Functions, jumps and parameters nest

`Functions` are those that have begun and not ended where code is gone through from the first
instruction to the last. They end in the reverse order, each under the name it began with. A
statement keeps its labels to itself: it sets them and jumps to them where the same functions are
around, those in which the statement stands.

Results:
* `Stmt.lower_housed`: the code of a statement.
* `lower_nested`: marks, jumps and parameters in the code of a program.
-/
namespace MeowScript

/-! ## Functions around -/

/-- How many functions have begun, and those that have not ended, the innermost first. A function is
given by its number in the order of beginning, and its name. -/
structure Functions where
  begun : Nat
  around : List (Nat × String)
  deriving DecidableEq, Repr

namespace Functions

def start : Functions := ⟨0, []⟩

/-- The innermost function ends first, and under its own name. -/
def step (f : Functions) : Instr → Option Functions
  | .beginFunction name => some ⟨f.begun + 1, (f.begun, name) :: f.around⟩
  | .endFunction name =>
    match f.around with
    | [] => none
    | inner :: outer => if inner.2 = name then some { f with around := outer } else none
  | _ => some f

end Functions

/-- The label that the instruction sets or jumps to. -/
def Instr.mention? (i : Instr) : Option Nat := i.label?.or i.target?

/-- The instruction stands where the functions are around in which its label belongs: `homes` has
those of the labels from `lo` on. -/
def Belongs (lo : Nat) (homes : List (List (Nat × String))) (f : Functions) (i : Instr) : Prop :=
  ∀ k, i.mention? = some k → ∃ j, k = lo + j ∧ homes[j]? = some f.around

namespace Belongs

variable {lo k : Nat} {homes more : List (List (Nat × String))} {f : Functions} {i : Instr}

theorem of_none (h : i.mention? = none) : Belongs lo homes f i := by
  intro k hk
  rw [h] at hk
  cases hk

theorem of_mention (h : i.mention? = some (lo + k)) (hk : homes[k]? = some f.around) :
    Belongs lo homes f i :=
  fun _ hn => ⟨k, Option.some.inj (hn.symm.trans h), hk⟩

theorem append (h : Belongs lo homes f i) : Belongs lo (homes ++ more) f i := by
  intro k hk
  obtain ⟨j, rfl, hj⟩ := h k hk
  refine ⟨j, rfl, ?_⟩
  rw [List.getElem?_append_left (List.getElem?_eq_some_iff.mp hj).1, hj]

theorem behind (h : Belongs (lo + homes.length) more f i) : Belongs lo (homes ++ more) f i := by
  intro k hk
  obtain ⟨j, rfl, hj⟩ := h k hk
  refine ⟨homes.length + j, Nat.add_assoc _ _ _, ?_⟩
  rw [List.getElem?_append_right (Nat.le_add_right _ _), Nat.add_sub_cancel_left, hj]

end Belongs

theorem Functions.leads_of_computes {lo : Nat} {homes : List (List (Nat × String))} {f : Functions}
    {code : List Instr} (h : ∀ i ∈ code, i.isComputation = true) :
    Leads Functions.step (Belongs lo homes) f code f := by
  induction code with
  | nil => exact .nil f
  | cons i code ih =>
    obtain ⟨hi, hcode⟩ := List.forall_mem_cons.mp h
    cases i <;> first | exact .cons (.of_none rfl) rfl (ih hcode) | cases hi

/-- Among the functions `around`, every function that begins in the code ends in it, and each of the
`n` labels from `lo` on is set and jumped to among the same functions. -/
def Housed (lo n : Nat) (around : List (Nat × String)) (code : List Instr) : Prop :=
  ∀ begun, ∃ homes k, homes.length = n ∧
    Leads Functions.step (Belongs lo homes) ⟨begun, around⟩ code ⟨k, around⟩

namespace Housed

variable {lo m n : Nat} {around : List (Nat × String)} {a b : List Instr} {i : Instr} {x : Operand}

theorem nil : Housed lo 0 around [] := fun begun => ⟨[], begun, rfl, .nil _⟩

theorem append (ha : Housed lo m around a) (hb : Housed (lo + m) n around b) :
    Housed lo (m + n) around (a ++ b) := by
  intro begun
  obtain ⟨homes, k, rfl, hfirst⟩ := ha begun
  obtain ⟨more, l, rfl, hlast⟩ := hb k
  exact ⟨homes ++ more, l, List.length_append,
    (hfirst.imp fun _ _ hi => hi.append).append (hlast.imp fun _ _ hi => hi.behind)⟩

/-- Code that only computes, in front. -/
theorem after_computes (ha : ∀ i ∈ a, i.isComputation = true) (hb : Housed lo n around b) :
    Housed lo n around (a ++ b) := by
  intro begun
  obtain ⟨homes, k, hn, hlast⟩ := hb begun
  exact ⟨homes, k, hn, (Functions.leads_of_computes ha).append hlast⟩

/-- An instruction that neither jumps nor marks anything. -/
theorem one (hi : ∀ f, Functions.step f i = some f) (hm : i.mention? = none) :
    Housed lo 0 around [i] :=
  fun begun => ⟨[], begun, rfl, .one (.of_none hm) (hi _)⟩

/-- A function, whichever number it gets. -/
theorem function {name : String} (h : ∀ k, Housed lo n ((k, name) :: around) a) :
    Housed lo n around (.beginFunction name :: a ++ [.endFunction name]) := by
  intro begun
  obtain ⟨homes, k, hn, ha⟩ := h begun (begun + 1)
  refine ⟨homes, k, hn, .snoc (.cons (.of_none rfl) rfl ha) (.of_none rfl) ?_⟩
  simp [Functions.step]

/-- A jump over a block to a label behind it. -/
theorem branch (hb : Housed (lo + 1) n around b) :
    Housed lo (1 + n) around (.ifFalse x lo :: (b ++ [.label lo])) := by
  intro begun
  obtain ⟨homes, k, rfl, hbody⟩ := hb begun
  refine ⟨[around] ++ homes, k, List.length_append, ?_⟩
  refine .cons (.of_mention (k := 0) rfl rfl) rfl (.append (hbody.imp fun _ _ hi => hi.behind) ?_)
  exact .one (.of_mention (k := 0) rfl rfl) rfl

/-- A jump over a block to another one, and one from the end of the first over the other. -/
theorem branches (ha : Housed (lo + 2) m around a) (hb : Housed (lo + 2 + m) n around b) :
    Housed lo (2 + m + n) around (.ifFalse x lo :: (a ++ .goto (lo + 1) :: .label lo :: (b ++
      [.label (lo + 1)]))) := by
  intro begun
  obtain ⟨homes, k, rfl, hfirst⟩ := ha begun
  obtain ⟨more, l, rfl, hother⟩ := hb k
  refine ⟨[around, around] ++ (homes ++ more), l, ?_, ?_⟩
  · rw [List.length_append, List.length_append, Nat.add_assoc]
    rfl
  refine .cons (.of_mention (k := 0) rfl rfl) rfl
    (.append (hfirst.imp fun _ _ hi => hi.append.behind) ?_)
  refine .cons (.of_mention (k := 1) rfl rfl) rfl (.cons (.of_mention (k := 0) rfl rfl) rfl ?_)
  exact (hother.imp fun _ _ hi => hi.behind.behind).snoc (.of_mention (k := 1) rfl rfl) rfl

/-- A block that jumps back to the test in front of it, and a jump from there behind the block. -/
theorem loop (ha : ∀ i ∈ a, i.isComputation = true) (hb : Housed (lo + 2) n around b) :
    Housed lo (2 + n) around (.label lo :: (a ++ .ifFalse x (lo + 1) :: (b ++
      [.goto lo, .label (lo + 1)]))) := by
  intro begun
  obtain ⟨homes, k, rfl, hbody⟩ := hb begun
  refine ⟨[around, around] ++ homes, k, List.length_append, ?_⟩
  refine .cons (.of_mention (k := 0) rfl rfl) rfl ((Functions.leads_of_computes ha).append ?_)
  refine .cons (.of_mention (k := 1) rfl rfl) rfl (.append (hbody.imp fun _ _ hi => hi.behind) ?_)
  exact .cons (.of_mention (k := 0) rfl rfl) rfl (.one (.of_mention (k := 1) rfl rfl) rfl)

end Housed

/-! ## Lowered code -/

mutual

/-- The labels of a statement stay in the functions around it, or in one inside of it. -/
theorem Stmt.lower_housed : ∀ (s : Stmt) (c : Counters) (around : List (Nat × String)),
    Housed c.label s.labelCount around (s.lower c).1
  | .declare _ value _ _, c, _ | .assign _ value _ _, c, _ | .bring value _, c, _
  | .print value _, c, _ =>
    .after_computes (Expr.lower_computes value _) (.one (fun _ => rfl) rfl)
  | .call _ args _, c, _ =>
    .after_computes (Expr.lowerArgs_computes args _) (.one (fun _ => rfl) rfl)
  | .define _ _ body _, c, _ => .function fun _ => Stmt.lowerAll_housed body c _
  | .ifThen condition body _, c, around => by
    have hb := Stmt.lowerAll_housed body ⟨(condition.lower c.temp).next, c.label + 1⟩ around
    simp only [Stmt.lower, List.append_assoc, List.cons_append, List.nil_append]
    exact .after_computes (Expr.lower_computes condition _) hb.branch
  | .ifElse condition body otherwise _, c, around => by
    have hb := Stmt.lowerAll_housed body ⟨(condition.lower c.temp).next, c.label + 2⟩ around
    have ho := Stmt.lowerAll_housed otherwise
      (Stmt.lowerAll ⟨(condition.lower c.temp).next, c.label + 2⟩ body).2 around
    rw [Stmt.lowerAll_label] at ho
    simp only [Stmt.lower, List.append_assoc, List.cons_append, List.nil_append]
    exact .after_computes (Expr.lower_computes condition _) (hb.branches ho)
  | .loop condition body _, c, around => by
    have hb := Stmt.lowerAll_housed body ⟨(condition.lower c.temp).next, c.label + 2⟩ around
    simp only [Stmt.lower, List.append_assoc, List.cons_append, List.nil_append]
    exact .loop (Expr.lower_computes condition _) hb

theorem Stmt.lowerAll_housed : ∀ (ss : List Stmt) (c : Counters) (around : List (Nat × String)),
    Housed c.label (Stmt.labelCounts ss) around (Stmt.lowerAll c ss).1
  | [], _, _ => .nil
  | s :: ss, c, around => by
    have hs := Stmt.lower_housed s c around
    have hss := Stmt.lowerAll_housed ss (s.lower c).2 around
    rw [Stmt.lower_label] at hss
    exact hs.append hss

end

/-- **Main.** In the code of a program every function ends that has begun, the innermost first and
under its own name. What is jumped to is set, among the very functions that are around the jump. A
call finds the parameters it takes, which are the operands that its arguments are, and none is left
where an instruction does anything else than compute. -/
theorem lower_nested (p : Program) :
    (∃ n, stateAfter Functions.step .start p.lower = some ⟨n, []⟩) ∧
      (∀ before i rest k, p.lower = before ++ i :: rest → i.target? = some k →
        .label k ∈ p.lower ∧ ∀ before' rest', p.lower = before' ++ .label k :: rest' →
          ∃ f f', stateAfter Functions.step .start before = some f ∧
            stateAfter Functions.step .start before' = some f' ∧ f.around = f'.around) ∧
      stateAfter Parameters.step .start p.lower = some ⟨[], p.takings⟩ ∧
      ∀ before i rest, p.lower = before ++ i :: rest → i.isComputation = false →
        ∃ calls, stateAfter Parameters.step .start before = some ⟨[], calls⟩ := by
  obtain ⟨homes, n, -, hfunctions⟩ := Stmt.lowerAll_housed p.body .start [] 0
  have hparameters := Stmt.lowerAll_leads p.body .start []
  refine ⟨⟨n, hfunctions.stateAfter_eq⟩, ?_, hparameters.stateAfter_eq, ?_⟩
  · intro before i rest k hcode hi
    constructor
    · obtain ⟨hlabels, htargets⟩ := Stmt.lowerAll_marks p.body .start
      have hjump : k ∈ marksOf Instr.target? p.lower :=
        List.mem_filterMap.mpr ⟨i, by rw [hcode]; exact List.mem_append_right _ (.head _), hi⟩
      obtain ⟨j, hj, hset⟩ := List.mem_filterMap.mp
        (hlabels.mem_iff.mpr (htargets.mem_iff.mp hjump))
      cases j <;> simp only [Instr.label?, reduceCtorEq, Option.some.injEq] at hset
      rw [← hset]
      exact hj
    · intro before' rest' hcode'
      obtain ⟨f, hf, hbelongs⟩ := hfunctions.at_place hcode
      obtain ⟨f', hf', hbelongs'⟩ := hfunctions.at_place hcode'
      have hmention : i.mention? = some k := by
        cases i <;> first | exact hi | cases hi
      obtain ⟨j, rfl, hj⟩ := hbelongs k hmention
      obtain ⟨j', hjj', hj'⟩ := hbelongs' _ rfl
      obtain rfl := Nat.add_left_cancel hjj'
      exact ⟨f, f', hf, hf', Option.some.inj (hj.symm.trans hj')⟩
  · intro before i rest hcode hi
    obtain ⟨s, hs, hclear⟩ := hparameters.at_place hcode
    exact ⟨s.calls, by rw [show Parameters.start = ⟨[], []⟩ from rfl, hs, ← hclear hi]⟩

end MeowScript
