import MeowScript.Compilation
import MeowScript.Proofs.Evaluation.Occurrences

/-!
# Variables are read before the calls behind them

A variable is read by the instruction that its value goes into. So a read comes before the calls
that come behind it, with one exception: the left operand of an operator is read by the operator,
which stands behind the code of the right operand and all calls in there.

Results:
* `InOrder.append`, `InOrder.operator`, `InOrder.overtaking`: the order of code in parts.
* `Expr.inOrder`, `Portion.inOrder`: the order of the accesses of a tree.
* `read_before_call`: the order in the code of a program.
* `read_behind_call`: a text with an operand that a call changes before it is read.
-/
namespace MeowScript

/-! ## Operators -/

/-- An operator with its operands, and the number of the first access in them. -/
structure Operation where
  first : Nat
  left : Expr
  right : Expr

mutual

/-- The operators with two operands in an expression, its accesses being numbered from `k` on. -/
def Expr.operations (k : Nat) : Expr → List Operation
  | .literal _ _ _ | .var _ _ _ _ => []
  | .binary _ left right _ _ =>
    ⟨k, left, right⟩ :: (left.operations k ++ right.operations (k + left.accesses.length))
  | .unary _ operand _ _ => operand.operations k
  | .call _ args _ _ => Expr.allOperations k args

def Expr.allOperations (k : Nat) : List Expr → List Operation
  | [] => []
  | e :: es => e.operations k ++ Expr.allOperations (k + e.accesses.length) es

end

def Portion.operations (k : Nat) : List Portion → List Operation
  | [] => []
  | .value e :: ps => e.operations k ++ Portion.operations (k + e.accesses.length) ps
  | .call _ :: ps => Portion.operations (k + 1) ps
  | .mark :: ps => Portion.operations k ps

def Program.operations (p : Program) : List Operation :=
  Portion.operations 0 (Stmt.allPortions p.body)

def Expr.isVariable : Expr → Bool
  | .var _ _ _ _ => true
  | _ => false

/-- The `n`-th access is the left operand of an operator that has the `m`-th in its right one. -/
def Overtaken (ops : List Operation) (n m : Nat) : Prop :=
  ∃ o ∈ ops, o.left.isVariable = true ∧ o.first = n ∧ n < m ∧ m ≤ n + o.right.accesses.length

/-! ## The order of reads and calls -/

/-- Variables are read before the calls behind them if they are not overtaken, else after them. The
accesses are numbered from `k` on, and the operators are those in the accesses. -/
structure InOrder (k : Nat) (agenda : Agenda) (ops : List Operation) : Prop where
  within : ∀ o ∈ ops, k ≤ o.first ∧
    o.first + o.left.accesses.length + o.right.accesses.length ≤ k + agenda.length
  ordered : ∀ n m i j x f, n < m → agenda[n]? = some (i, .read x) →
    agenda[m]? = some (j, .call f) →
      (Overtaken ops (k + n) (k + m) → j < i) ∧ (¬ Overtaken ops (k + n) (k + m) → i < j)

namespace InOrder

variable {k n m : Nat} {a b : Agenda} {ops ops' : List Operation}

theorem nil : InOrder k [] [] := ⟨nofun, nofun⟩

theorem one (u : Nat × Access) : InOrder k [u] [] := by
  refine ⟨nofun, fun n m i j x f hnm hn hm => ?_⟩
  have hlt := (List.getElem?_eq_some_iff.mp hm).1
  rw [List.length_singleton] at hlt
  omega

/-- What overtakes stands among the accesses. -/
theorem of_overtaken (h : InOrder k a ops) (ho : Overtaken ops n m) : k ≤ n ∧ m < k + a.length := by
  obtain ⟨o, hmem, hvar, rfl, -, hm⟩ := ho
  obtain ⟨hk, hlast⟩ := h.within o hmem
  have hleft : o.left.accesses.length = 1 := by
    cases hl : o.left <;> rw [hl] at hvar <;> first | rfl | cases hvar
  omega

theorem shifted (h : InOrder k a ops) (d : Nat) : InOrder k (Agenda.shift d a) ops := by
  refine ⟨fun o ho => ?_, fun n m i j x f hnm hn hm => ?_⟩
  · rw [Agenda.shift, Agenda.move_length]
    exact h.within o ho
  · rw [Agenda.shift, Agenda.move, List.getElem?_map, Option.map_eq_some_iff] at hn hm
    obtain ⟨⟨i', _⟩, hn, heq⟩ := hn
    obtain ⟨⟨j', _⟩, hm, heq'⟩ := hm
    obtain ⟨rfl, rfl⟩ := Prod.mk.inj heq
    obtain ⟨rfl, rfl⟩ := Prod.mk.inj heq'
    obtain ⟨hover, hnot⟩ := h.ordered n m i' j' x f hnm hn hm
    exact ⟨fun ho => Nat.add_lt_add_left (hover ho) d, fun ho => Nat.add_lt_add_left (hnot ho) d⟩

theorem overtaken_append :
    Overtaken (ops ++ ops') n m ↔ Overtaken ops n m ∨ Overtaken ops' n m := by
  simp only [Overtaken, List.mem_append, or_and_right, exists_or]

theorem append (ha : InOrder k a ops) (hb : InOrder (k + a.length) b ops')
    (hlt : ∀ u ∈ a, ∀ v ∈ b, u.1 < v.1) : InOrder k (a ++ b) (ops ++ ops') := by
  refine ⟨fun o ho => ?_, fun n m i j x f hnm hn hm => ?_⟩
  · rw [List.length_append]
    rcases List.mem_append.mp ho with ho | ho
    · have hwithin := ha.within o ho
      omega
    · have hwithin := hb.within o ho
      omega
  · rw [overtaken_append]
    rcases Nat.lt_or_ge m a.length with hma | hma
    · have hna : n < a.length := Nat.lt_trans hnm hma
      rw [List.getElem?_append_left hna] at hn
      rw [List.getElem?_append_left hma] at hm
      have hright : ¬ Overtaken ops' (k + n) (k + m) := fun ho => by
        have hbound := hb.of_overtaken ho
        omega
      simpa only [hright, or_false] using ha.ordered n m i j x f hnm hn hm
    · have hleft : ¬ Overtaken ops (k + n) (k + m) := fun ho => by
        have hbound := ha.of_overtaken ho
        omega
      rw [List.getElem?_append_right hma] at hm
      rcases Nat.lt_or_ge n a.length with hna | hna
      · have hright : ¬ Overtaken ops' (k + n) (k + m) := fun ho => by
          have hbound := hb.of_overtaken ho
          omega
        rw [List.getElem?_append_left hna] at hn
        refine ⟨fun ho => absurd ho (not_or.mpr ⟨hleft, hright⟩), fun _ => ?_⟩
        exact hlt _ (List.mem_of_getElem? hn) _ (List.mem_of_getElem? hm)
      · rw [List.getElem?_append_right hna] at hn
        have hordered := hb.ordered _ _ i j x f (by omega) hn hm
        rw [Nat.add_assoc, Nat.add_assoc, Nat.add_sub_cancel' hna, Nat.add_sub_cancel' hma]
          at hordered
        simpa only [hleft, false_or] using hordered

/-- An operator whose left operand is no variable overtakes nothing. -/
theorem operator {left right : Expr} (hleft : left.isVariable = false)
    (hlength : a.length = left.accesses.length + right.accesses.length) (h : InOrder k a ops) :
    InOrder k a (⟨k, left, right⟩ :: ops) := by
  have hsame : ∀ n m, Overtaken (⟨k, left, right⟩ :: ops) n m ↔ Overtaken ops n m := by
    intro n m
    simp [Overtaken, hleft]
  have hlast : k + left.accesses.length + right.accesses.length ≤ k + a.length := by omega
  refine ⟨List.forall_mem_cons.mpr ⟨⟨Nat.le_refl _, hlast⟩, h.within⟩, ?_⟩
  simpa only [hsame] using h.ordered

/-- A variable is read behind the calls of the right operand. -/
theorem overtaking {left right : Expr} {x : String} {place : Nat} (hleft : left.isVariable = true)
    (hb : InOrder (k + 1) b ops) (hlength : b.length = right.accesses.length)
    (hlt : ∀ j f, (j, .call f) ∈ b → j < place) :
    InOrder k ((place, .read x) :: b) (⟨k, left, right⟩ :: ops) := by
  have hone : left.accesses.length = 1 := by
    cases left <;> first | rfl | cases hleft
  have hlast : k + left.accesses.length + right.accesses.length ≤ k + (b.length + 1) := by omega
  refine ⟨List.forall_mem_cons.mpr ⟨⟨Nat.le_refl _, hlast⟩, fun o ho => ?_⟩,
    fun n m i j y f hnm hn hm => ?_⟩
  · have hwithin := hb.within o ho
    rw [List.length_cons]
    omega
  · obtain ⟨m, rfl⟩ := Nat.exists_eq_add_one_of_ne_zero (Nat.ne_zero_of_lt hnm)
    rw [List.getElem?_cons_succ] at hm
    cases n with
    | zero =>
      obtain ⟨rfl, -⟩ := Prod.mk.inj (Option.some.inj hn)
      have hmlt := (List.getElem?_eq_some_iff.mp hm).1
      have hover : Overtaken (⟨k, left, right⟩ :: ops) (k + 0) (k + (m + 1)) :=
        ⟨_, .head _, hleft, rfl, by omega, by simp only; omega⟩
      exact ⟨fun _ => hlt j f (List.mem_of_getElem? hm), fun hnot => absurd hover hnot⟩
    | succ n =>
      rw [List.getElem?_cons_succ] at hn
      have hsame : Overtaken (⟨k, left, right⟩ :: ops) (k + (n + 1)) (k + (m + 1)) ↔
          Overtaken ops (k + 1 + n) (k + 1 + m) := by
        have hk : k ≠ k + 1 + n := by omega
        rw [Nat.add_comm n, Nat.add_comm m, ← Nat.add_assoc, ← Nat.add_assoc]
        simp [Overtaken, hk]
      rw [hsame]
      exact hb.ordered n m i j y f (Nat.lt_of_succ_lt_succ hnm) hn hm

end InOrder

/-! ## Lowered code -/

theorem Expr.agenda_le {e : Expr} {i : Nat} {a : Access} (h : (i, a) ∈ e.agenda) : i ≤ e.cost := by
  rcases (Expr.lower_agenda e 0 i a).mp h with hdoes | ⟨rfl, -⟩
  · rw [← Expr.lower_length e 0]
    exact Nat.le_of_lt hdoes.lt
  · exact Nat.le_refl _

/-- Behind its own code an expression leaves nothing but the read of a variable. -/
theorem Expr.agenda_lt {e : Expr} {i : Nat} {a : Access} (h : (i, a) ∈ e.agenda)
    (hpending : e.isVariable = false ∨ ∃ f, a = .call f) : i < e.cost := by
  rcases (Expr.lower_agenda e 0 i a).mp h with hdoes | ⟨-, hresult⟩
  · rw [← Expr.lower_length e 0]
    exact hdoes.lt
  · rcases hpending with hvar | ⟨f, rfl⟩
    · cases e with
      | var _ _ _ _ => cases hvar
      | _ => cases hresult
    · cases e <;> cases hresult

theorem Expr.allAgenda_lt {es : List Expr} {i : Nat} {a : Access}
    (h : (i, a) ∈ Expr.allAgenda es) : i < Expr.costAll es := by
  rw [← Expr.lowerArgs_length es 0]
  exact ((Expr.lowerArgs_agenda es 0 i a).mp h).lt

/-- The code of an expression and of the instruction its value goes into, in front of other code. -/
theorem InOrder.value {k : Nat} {e : Expr} {b : Agenda} {ops : List Operation}
    (he : InOrder k e.agenda (e.operations k)) (hb : InOrder (k + e.accesses.length) b ops) :
    InOrder k (e.agenda ++ Agenda.shift (e.cost + 1) b) (e.operations k ++ ops) := by
  rw [← Expr.agenda_length] at hb
  exact he.append (hb.shifted _) fun u hu v hv =>
    Nat.lt_of_lt_of_le (Nat.lt_succ_of_le (Expr.agenda_le hu)) (Agenda.le_of_mem_shift hv)

mutual

theorem Expr.inOrder : ∀ (e : Expr) (k : Nat), InOrder k e.agenda (e.operations k)
  | .literal _ _ _, _ => .nil
  | .var _ _ _ _, _ => .one _
  | .binary op left right p note, k => by
    have hleft := Expr.inOrder left k
    have hright := (Expr.inOrder right (k + left.accesses.length)).shifted left.cost
    have hlength : (Agenda.shift left.cost right.agenda).length = right.accesses.length := by
      rw [Agenda.shift, Agenda.move_length, Expr.agenda_length]
    rw [Expr.agenda, Expr.operations]
    cases hvar : left.isVariable with
    | false =>
      have hlt : ∀ u ∈ left.agenda, u.1 < left.cost := fun u hu => Expr.agenda_lt hu (.inl hvar)
      rw [← Expr.agenda_length] at hright ⊢
      rw [Agenda.delay_eq_self hlt]
      refine .operator hvar ?_ (hleft.append hright fun u hu v hv =>
        Nat.lt_of_lt_of_le (hlt u hu) (Agenda.le_of_mem_shift hv))
      rw [List.length_append, hlength, Expr.agenda_length]
    | true =>
      cases left with
      | var _ _ _ _ =>
        refine .overtaking hvar hright hlength fun j f hmem => ?_
        obtain ⟨i, rfl, hi⟩ := Agenda.mem_shift.mp hmem
        exact Nat.add_lt_add_left (Expr.agenda_lt hi (.inr ⟨f, rfl⟩)) _
      | _ => cases hvar
  | .unary _ operand _ _, k => Expr.inOrder operand k
  | .call name args _ _, k => by
    have hcall := (Expr.allInOrder args k).append (.one (Expr.costAll args, .call name))
      fun u hu v hv => by
        rw [List.mem_singleton.mp hv]
        exact Expr.allAgenda_lt hu
    rwa [List.append_nil] at hcall

theorem Expr.allInOrder : ∀ (es : List Expr) (k : Nat),
    InOrder k (Expr.allAgenda es) (Expr.allOperations k es)
  | [], _ => .nil
  | e :: es, k => (Expr.inOrder e k).value (Expr.allInOrder es _)

end

theorem Portion.inOrder (ps : List Portion) (k : Nat) :
    InOrder k (Portion.agenda ps) (Portion.operations k ps) := by
  induction ps generalizing k with
  | nil => exact .nil
  | cons p ps ih =>
    cases p with
    | value e => exact (Expr.inOrder e k).value (ih _)
    | call name =>
      refine (InOrder.one (0, .call name)).append ((ih (k + 1)).shifted 1) fun u hu v hv => ?_
      rw [List.mem_singleton.mp hu]
      exact Agenda.le_of_mem_shift hv
    | mark => exact (ih k).shifted 1

/-- **Main.** Each read of a variable and each call of a program is done by one instruction of its
code. A read comes before the calls behind it, in particular before those in the same expression,
unless the variable is the left operand of an operator that has the call in its right operand: then
the operator reads it, and stands behind the call. -/
theorem read_before_call (p : Program) {n m : Nat} {x f : String} (hnm : n < m)
    (hread : p.accesses[n]? = some (.read x)) (hcall : p.accesses[m]? = some (.call f)) :
    ∃ i j, (∀ i', p.DoneAt n i' ↔ i' = i) ∧ (∀ j', p.DoneAt m j' ↔ j' = j) ∧
      Does p.lower i (.read x) ∧ Does p.lower j (.call f) ∧
      (Overtaken p.operations n m → j < i) ∧ (¬ Overtaken p.operations n m → i < j) := by
  obtain ⟨i, hi⟩ := Program.agenda_of_accesses hread
  obtain ⟨j, hj⟩ := Program.agenda_of_accesses hcall
  have horder := (Portion.inOrder (Stmt.allPortions p.body) 0).ordered n m i j x f hnm hi hj
  rw [Nat.zero_add, Nat.zero_add] at horder
  exact ⟨i, j, Program.doneAt_of_agenda hi, Program.doneAt_of_agenda hj,
    p.does_iff.mpr (List.mem_of_getElem? hi), p.does_iff.mpr (List.mem_of_getElem? hj), horder⟩

/-- In `x + f(x)` the operator reads the first `x` behind the call; the second is a parameter. -/
theorem read_before_call_parameter : ∃ p : Program,
    p.accesses = [.read "x", .read "x", .call "f"] ∧
      (∃ i j, p.DoneAt 0 i ∧ p.DoneAt 2 j ∧ j < i) ∧
      ∃ i j, p.DoneAt 1 i ∧ p.DoneAt 2 j ∧ i < j := by
  let x : Expr := .var "x" none .start .unknown
  let sum : Expr := .binary .add x (.call "f" [x] .start .unknown) .start .unknown
  let p : Program := ⟨[.print sum .start], .start⟩
  refine ⟨p, rfl, ?_, ?_⟩
  · obtain ⟨i, j, hi, hj, -, -, hover, -⟩ :=
      read_before_call p (n := 0) (m := 2) (x := "x") (f := "f") (by decide) rfl rfl
    exact ⟨i, j, (hi i).mpr rfl, (hj j).mpr rfl,
      hover ⟨_, .head _, rfl, rfl, by decide, by decide⟩⟩
  · obtain ⟨i, j, hi, hj, -, -, -, hbefore⟩ :=
      read_before_call p (n := 1) (m := 2) (x := "x") (f := "f") (by decide) rfl rfl
    refine ⟨i, j, (hi i).mpr rfl, (hj j).mpr rfl, hbefore ?_⟩
    rintro ⟨o, ho, -, hfirst, -⟩
    cases List.mem_singleton.mp ho
    cases hfirst

/-- The text reads `x` in front of a call in one expression, and its code behind the call, which has
changed `x`. -/
theorem read_behind_call : ∃ c,
    Compilation.ofText
        "Wake Box x paws 1 Hunt f() \x7b x paws 2 Bring 3 \x7d Box y paws x + f() Sleep" = .ok c ∧
      (∃ s ∈ Stmt.allPortions c.program.body, s.accesses = [.read "x", .call "f"]) ∧
      c.program.accesses = [.read "x", .call "f"] ∧
      c.program.DoneAt 0 6 ∧ c.program.DoneAt 1 5 := by
  have hcompiled : (Compilation.ofText
      "Wake Box x paws 1 Hunt f() \x7b x paws 2 Bring 3 \x7d Box y paws x + f() Sleep").toOption.map
      (fun c => (c.program.agenda, (Stmt.allPortions c.program.body).map Portion.accesses)) =
      some ([(6, .read "x"), (5, .call "f")], [[], [], [], [], [], [.read "x", .call "f"]]) := by
    decide +kernel
  obtain ⟨c, hc, hfound⟩ := Option.map_eq_some_iff.mp hcompiled
  obtain ⟨hagenda, haccesses⟩ := Prod.mk.inj hfound
  refine ⟨c, toOption_eq_some.mp hc, ?_, ?_, ?_, ?_⟩
  · exact List.mem_map.mp (by rw [haccesses]; decide)
  · rw [Program.accesses, ← Portion.agenda_accesses]
    exact congrArg (List.map Prod.snd) hagenda
  · exact c.program.doneAt_iff.mpr ⟨_, by rw [hagenda]; rfl⟩
  · exact c.program.doneAt_iff.mpr ⟨_, by rw [hagenda]; rfl⟩

end MeowScript
