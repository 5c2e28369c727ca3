import Mathlib.Data.List.Perm.Basic
import Mathlib.Data.List.Range
import MeowScript.Proofs.Meaning.Numbering
import MeowScript.Proofs.Naming.Leaves

/-!
# Temporaries are written once and read once

Each operator and each call of a program puts its value in a temporary of its own. Values are wanted
once, by what they are an operand of; only the value of a call that is a statement is not wanted.
`Flow` keeps account of this along the code: what has been read, with what is still awaited, is
what is wanted. A value is awaited across the code of other operands only, which does nothing but
compute, so it is read before any label, jump or mark.

Results:
* `Expr.lower_next`, `Stmt.lower_temp`: how many temporaries are taken.
* `Flow.append`, `Flow.consume`: code in two parts, and an instruction that reads what is awaited.
* `Expr.lower_flow`, `Stmt.lower_flow`: the code of an expression, of a statement.
* `lower_temps_once`: the code of a program.
-/
namespace MeowScript

/-! ## Values of a tree -/

mutual

/-- How many values an expression computes, one for each operator and each call. -/
def Expr.valueCount : Expr → Nat
  | .literal _ _ _ | .var _ _ _ _ => 0
  | .binary _ left right _ _ => left.valueCount + right.valueCount + 1
  | .unary _ operand _ _ => operand.valueCount + 1
  | .call _ args _ _ => Expr.valueCounts args + 1

def Expr.valueCounts : List Expr → Nat
  | [] => 0
  | e :: es => e.valueCount + Expr.valueCounts es

end

mutual

/-- The values that a statement computes, in the order of the text: whether each is wanted. -/
def Stmt.wanted : Stmt → List Bool
  | .declare _ value _ _ | .assign _ value _ _ | .bring value _ | .print value _ =>
    .replicate value.valueCount true
  | .define _ _ body _ => Stmt.allWanted body
  | .call _ args _ => .replicate (Expr.valueCounts args) true ++ [false]
  | .ifThen condition body _ | .loop condition body _ =>
    .replicate condition.valueCount true ++ Stmt.allWanted body
  | .ifElse condition body otherwise _ =>
    .replicate condition.valueCount true ++ Stmt.allWanted body ++ Stmt.allWanted otherwise

def Stmt.allWanted : List Stmt → List Bool
  | [] => []
  | s :: ss => s.wanted ++ Stmt.allWanted ss

end

mutual

theorem Expr.lower_next : ∀ (e : Expr) (next : Nat), (e.lower next).next = next + e.valueCount
  | .literal _ _ _, _ | .var _ _ _ _, _ => rfl
  | .binary _ left right _ _, next => by
    simp only [Expr.lower, Expr.valueCount, Expr.lower_next left, Expr.lower_next right]
    omega
  | .unary _ operand _ _, next => by
    simp only [Expr.lower, Expr.valueCount, Expr.lower_next operand]
    omega
  | .call _ args _ _, next => by
    simp only [Expr.lower, Expr.valueCount, Expr.lowerArgs_next args]
    omega

theorem Expr.lowerArgs_next : ∀ (es : List Expr) (next : Nat),
    (Expr.lowerArgs next es).2 = next + Expr.valueCounts es
  | [], _ => rfl
  | e :: es, next => by
    simp only [Expr.lowerArgs, Expr.valueCounts, Expr.lower_next e, Expr.lowerArgs_next es]
    omega

end

mutual

theorem Stmt.lower_temp : ∀ (s : Stmt) (c : Counters),
    (s.lower c).2.temp = c.temp + s.wanted.length
  | .declare _ value _ _, c | .assign _ value _ _, c | .bring value _, c | .print value _, c => by
    simp only [Stmt.lower, Stmt.wanted, Expr.lower_next, List.length_replicate]
  | .define _ _ body _, c => by
    rw [Stmt.lower, Stmt.wanted]
    exact Stmt.lowerAll_temp body c
  | .call _ args _, c => by
    simp only [Stmt.lower, Stmt.wanted, Expr.lowerArgs_next, List.length_append,
      List.length_replicate, List.length_singleton, Nat.add_assoc]
  | .ifThen condition body _, c | .loop condition body _, c => by
    simp only [Stmt.lower, Stmt.wanted, Stmt.lowerAll_temp body, Expr.lower_next,
      List.length_append, List.length_replicate, Nat.add_assoc]
  | .ifElse condition body otherwise _, c => by
    simp only [Stmt.lower, Stmt.wanted, Stmt.lowerAll_temp otherwise, Stmt.lowerAll_temp body,
      Expr.lower_next, List.length_append, List.length_replicate, Nat.add_assoc]

theorem Stmt.lowerAll_temp : ∀ (ss : List Stmt) (c : Counters),
    (Stmt.lowerAll c ss).2.temp = c.temp + (Stmt.allWanted ss).length
  | [], _ => rfl
  | s :: ss, c => by
    simp only [Stmt.lowerAll, Stmt.allWanted, Stmt.lowerAll_temp ss, Stmt.lower_temp s,
      List.length_append, Nat.add_assoc]

end

/-! ## Temporaries of code -/

def Operand.temp? : Operand → Option Nat
  | temp n => some n
  | constant _ | var _ => none

namespace Instr

/-- The temporary that an instruction writes. -/
def tempWritten? (i : Instr) : Option Nat := i.written?.bind Operand.temp?

/-- The temporaries that an instruction reads. -/
def tempsRead (i : Instr) : List Nat := i.read.filterMap Operand.temp?

end Instr

def tempsWritten (code : List Instr) : List Nat := code.filterMap Instr.tempWritten?

def tempsRead (code : List Instr) : List Nat := code.flatMap Instr.tempsRead

theorem Operand.temps_single (o : Operand) : [o].filterMap temp? = o.temp?.toList := by
  cases o <;> rfl

theorem Operand.temps_pair (o o' : Operand) :
    [o, o'].filterMap temp? = o.temp?.toList ++ o'.temp?.toList := by
  cases o <;> cases o' <;> rfl

theorem tempsWritten_append (a b : List Instr) :
    tempsWritten (a ++ b) = tempsWritten a ++ tempsWritten b :=
  List.filterMap_append

theorem tempsRead_append (a b : List Instr) :
    tempsRead (a ++ b) = tempsRead a ++ tempsRead b :=
  List.flatMap_append

theorem tempsWritten_singleton (i : Instr) : tempsWritten [i] = i.tempWritten?.toList := by
  rw [tempsWritten, List.filterMap_cons]
  cases i.tempWritten? <;> rfl

theorem tempsRead_singleton (i : Instr) : tempsRead [i] = i.tempsRead := by simp [tempsRead]

/-- The temporary is written, and nothing but computing stands behind that. -/
def Awaited (code : List Instr) (k : Nat) : Prop :=
  ∃ before w after, code = before ++ w :: after ∧ w.tempWritten? = some k ∧
    ∀ i ∈ after, i.isComputation = true

/-- The temporary is read behind where it is written, and nothing but computing stands between. -/
def ReadInTime (code : List Instr) (k : Nat) : Prop :=
  ∃ before w between r after, code = before ++ w :: (between ++ r :: after) ∧
    w.tempWritten? = some k ∧ k ∈ r.tempsRead ∧ ∀ i ∈ between, i.isComputation = true

namespace Awaited

variable {a b : List Instr} {k : Nat}

theorem append (h : Awaited a k) (hb : ∀ i ∈ b, i.isComputation = true) : Awaited (a ++ b) k := by
  obtain ⟨before, w, after, rfl, hw, hafter⟩ := h
  exact ⟨before, w, after ++ b, by simp, hw, List.forall_mem_append.mpr ⟨hafter, hb⟩⟩

theorem behind (h : Awaited b k) (a : List Instr) : Awaited (a ++ b) k := by
  obtain ⟨before, w, after, rfl, hw, hafter⟩ := h
  exact ⟨a ++ before, w, after, by simp, hw, hafter⟩

theorem read (h : Awaited a k) {i : Instr} (hi : k ∈ i.tempsRead) : ReadInTime (a ++ [i]) k := by
  obtain ⟨before, w, after, rfl, hw, hafter⟩ := h
  exact ⟨before, w, after, i, [], by simp, hw, hi, hafter⟩

end Awaited

namespace ReadInTime

variable {a b : List Instr} {k : Nat}

theorem append (h : ReadInTime a k) (b : List Instr) : ReadInTime (a ++ b) k := by
  obtain ⟨before, w, between, r, after, rfl, hw, hr, hbetween⟩ := h
  exact ⟨before, w, between, r, after ++ b, by simp, hw, hr, hbetween⟩

theorem behind (h : ReadInTime b k) (a : List Instr) : ReadInTime (a ++ b) k := by
  obtain ⟨before, w, between, r, after, rfl, hw, hr, hbetween⟩ := h
  exact ⟨a ++ before, w, between, r, after, by simp, hw, hr, hbetween⟩

end ReadInTime

/-! ## Accounts -/

/-- The numbers of the values that are wanted, the first of all values having the number `lo`. -/
def numbersWanted (lo : Nat) : List Bool → List Nat
  | [] => []
  | w :: ws => (if w then [lo] else []) ++ numbersWanted (lo + 1) ws

theorem numbersWanted_append (lo : Nat) (ws vs : List Bool) :
    numbersWanted lo (ws ++ vs) = numbersWanted lo ws ++ numbersWanted (lo + ws.length) vs := by
  induction ws generalizing lo with
  | nil => rfl
  | cons w ws ih =>
    have hlo : lo + (w :: ws).length = lo + 1 + ws.length := by rw [List.length_cons]; omega
    rw [List.cons_append, numbersWanted, numbersWanted, ih, hlo, List.append_assoc]

theorem numbersWanted_within (lo : Nat) (ws : List Bool) :
    ∀ k ∈ numbersWanted lo ws, lo ≤ k ∧ k < lo + ws.length := by
  induction ws generalizing lo with
  | nil => exact List.forall_mem_nil _
  | cons w ws ih =>
    rw [numbersWanted, List.length_cons, List.forall_mem_append]
    refine ⟨fun k hk => ?_, fun k hk => ?_⟩
    · cases w with
      | true =>
        rw [List.mem_singleton.mp hk]
        omega
      | false => cases hk
    · have := ih (lo + 1) k hk
      omega

theorem count_numbersWanted (lo : Nat) (ws : List Bool) (k : Nat) :
    (numbersWanted lo ws).count (lo + k) = if ws[k]? = some true then 1 else 0 := by
  induction ws generalizing lo k with
  | nil => rfl
  | cons w ws ih =>
    rw [numbersWanted, List.count_append]
    cases k with
    | zero =>
      have hrest : (numbersWanted (lo + 1) ws).count lo = 0 := by
        rw [List.count_eq_zero]
        intro hlo
        have := numbersWanted_within (lo + 1) ws lo hlo
        omega
      rw [Nat.add_zero, hrest]
      cases w <;> simp
    | succ k =>
      have hfirst : (if w then [lo] else []).count (lo + (k + 1)) = 0 := by
        rw [List.count_eq_zero]
        cases w <;> simp
      rw [hfirst, Nat.zero_add, ← Nat.add_assoc, Nat.add_right_comm, ih, List.getElem?_cons_succ]

/-- The code writes the temporaries from `lo` on in order, one for each value. What it reads, with
what it leaves to be read, is what is wanted; all of it is read in time. -/
structure Flow (lo : Nat) (wanted : List Bool) (awaited : List Nat) (code : List Instr) :
    Prop where
  written : tempsWritten code = List.range' lo wanted.length
  account : (tempsRead code ++ awaited).Perm (numbersWanted lo wanted)
  read : ∀ k ∈ tempsRead code, ReadInTime code k
  left : ∀ k ∈ awaited, Awaited code k

namespace Flow

variable {lo : Nat} {w v : List Bool} {awaited awaited' : List Nat} {a b : List Instr}
  {i : Instr}

theorem nil : Flow lo [] [] [] := ⟨rfl, .nil, List.forall_mem_nil _, List.forall_mem_nil _⟩

/-- Code in two parts. If something is awaited behind the first, the second only computes. -/
theorem append (ha : Flow lo w awaited a) (hb : Flow (lo + w.length) v awaited' b)
    (h : awaited = [] ∨ ∀ i ∈ b, i.isComputation = true) :
    Flow lo (w ++ v) (awaited ++ awaited') (a ++ b) := by
  refine ⟨?_, ?_, ?_, ?_⟩
  · rw [tempsWritten_append, ha.written, hb.written, List.length_append, List.range'_append_1]
  · rw [tempsRead_append, numbersWanted_append]
    refine .trans ?_ (ha.account.append hb.account)
    rw [List.append_assoc, List.append_assoc, List.perm_append_left_iff]
    exact List.perm_append_comm_assoc _ _ _
  · rw [tempsRead_append, List.forall_mem_append]
    exact ⟨fun k hk => (ha.read k hk).append b, fun k hk => (hb.read k hk).behind a⟩
  · rw [List.forall_mem_append]
    refine ⟨fun k hk => ?_, fun k hk => (hb.left k hk).behind a⟩
    rcases h with rfl | hb'
    · cases hk
    · exact (ha.left k hk).append hb'

/-- An instruction that reads all that is awaited, and writes the next temporary or none. -/
theorem consume (ha : Flow lo w awaited a) (hr : i.tempsRead = awaited)
    (hw : i.tempWritten?.toList = List.range' (lo + w.length) v.length) :
    Flow lo (w ++ v) (numbersWanted (lo + w.length) v) (a ++ [i]) := by
  have hnext : ∀ k ∈ numbersWanted (lo + w.length) v, i.tempWritten? = some k := by
    intro k hk
    rw [← Option.mem_toList, hw, List.mem_range'_1]
    exact numbersWanted_within _ _ k hk
  refine ⟨?_, ?_, ?_, fun k hk => ⟨a, i, [], rfl, hnext k hk, List.forall_mem_nil _⟩⟩
  · rw [tempsWritten_append, tempsWritten_singleton, ha.written, hw, List.length_append,
      List.range'_append_1]
  · rw [tempsRead_append, tempsRead_singleton, hr, numbersWanted_append]
    exact ha.account.append_right _
  · rw [tempsRead_append, tempsRead_singleton, List.forall_mem_append]
    refine ⟨fun k hk => (ha.read k hk).append [i], fun k hk => ?_⟩
    exact (ha.left k (hr ▸ hk)).read hk

/-- An instruction that uses what is awaited for no other value. -/
theorem hand_over (ha : Flow lo w awaited a) (hr : i.tempsRead = awaited)
    (hw : i.tempWritten? = none) : Flow lo w [] (a ++ [i]) := by
  have h := ha.consume (v := []) hr (by rw [hw]; rfl)
  rwa [List.append_nil] at h

/-- An instruction that touches no temporary. -/
theorem plain (hr : i.tempsRead = []) (hw : i.tempWritten? = none) : Flow lo [] [] [i] :=
  nil.hand_over hr hw

section values
variable {m n : Nat}

/-- Code of two operands, the second of which only computes. -/
theorem both (ha : Flow lo (.replicate m true) awaited a)
    (hb : Flow (lo + m) (.replicate n true) awaited' b) (h : ∀ i ∈ b, i.isComputation = true) :
    Flow lo (.replicate (m + n) true) (awaited ++ awaited') (a ++ b) := by
  rw [← List.replicate_append_replicate]
  exact ha.append (by rwa [List.length_replicate]) (.inr h)

/-- An instruction that uses what is awaited for one more value. -/
theorem compute (ha : Flow lo (.replicate n true) awaited a) (hr : i.tempsRead = awaited)
    (hw : i.tempWritten? = some (lo + n)) :
    Flow lo (.replicate (n + 1) true) [lo + n] (a ++ [i]) := by
  have h := ha.consume (v := [true]) hr (by rw [hw, List.length_replicate]; rfl)
  rwa [← List.replicate_succ', List.length_replicate] at h

end values

end Flow

/-! ## Lowered code -/

mutual

/-- The code of an expression leaves its value to be read. -/
theorem Expr.lower_flow : ∀ (e : Expr) (next : Nat),
    Flow next (.replicate e.valueCount true) (e.lower next).result.temp?.toList
      (e.lower next).code
  | .literal _ _ _, _ | .var _ _ _ _, _ => .nil
  | .binary op left right _ note, next => by
    have hleft := Expr.lower_flow left next
    have hright := Expr.lower_flow right (left.lower next).next
    have hfree := Expr.lower_next right (left.lower next).next
    rw [Expr.lower_next left] at hright hfree
    have hboth := hleft.both hright (Expr.lower_computes right _)
    simp only [Expr.lower, Expr.lower_next left, hfree, Nat.add_assoc]
    exact hboth.compute (Operand.temps_pair _ _) rfl
  | .unary op operand _ note, next => by
    have hoperand := Expr.lower_flow operand next
    simp only [Expr.lower, Expr.lower_next operand]
    exact hoperand.compute (Operand.temps_single _) rfl
  | .call name args _ _, next => by
    have hargs := Expr.lowerArgs_flow args next
    simp only [Expr.lower, Expr.lowerArgs_next args]
    exact hargs.compute rfl rfl

/-- Every value in the code of arguments has been read. -/
theorem Expr.lowerArgs_flow : ∀ (es : List Expr) (next : Nat),
    Flow next (.replicate (Expr.valueCounts es) true) [] (Expr.lowerArgs next es).1
  | [], _ => .nil
  | e :: es, next => by
    have he := Expr.lower_flow e next
    have hes := Expr.lowerArgs_flow es (e.lower next).next
    have hparam := he.hand_over (i := .param (e.lower next).result) (Operand.temps_single _) rfl
    simp only [Expr.lowerArgs, Expr.lower_next e] at hes hparam ⊢
    exact hparam.both hes (Expr.lowerArgs_computes es _)

end

/-- A test and its jump, and the block behind them. -/
theorem Flow.test {condition : Expr} {next l : Nat} {w : List Bool} {block : List Instr}
    (hblock : Flow (condition.lower next).next w [] block) :
    Flow next (.replicate condition.valueCount true ++ w) []
      ((condition.lower next).code ++ [.ifFalse (condition.lower next).result l] ++
        block) := by
  have htest := (Expr.lower_flow condition next).hand_over
    (i := .ifFalse (condition.lower next).result l) (Operand.temps_single _) rfl
  rw [Expr.lower_next] at hblock
  exact htest.append (by rwa [List.length_replicate]) (.inl rfl)

mutual

/-- Nothing is awaited behind a statement. -/
theorem Stmt.lower_flow : ∀ (s : Stmt) (c : Counters), Flow c.temp s.wanted [] (s.lower c).1
  | .declare _ value _ _, c | .assign _ value _ _, c | .bring value _, c | .print value _, c =>
    (Expr.lower_flow value c.temp).hand_over (Operand.temps_single _) rfl
  | .define _ _ body _, c =>
    .append (.plain rfl rfl) ((Stmt.lowerAll_flow body c).hand_over rfl rfl) (.inl rfl)
  | .call _ args _, c => by
    have hargs := Expr.lowerArgs_flow args c.temp
    simp only [Stmt.lower, Expr.lowerArgs_next args]
    exact hargs.consume (v := [false]) rfl (by rw [List.length_replicate]; rfl)
  | .ifThen condition body _, c => by
    have hbody := Stmt.lowerAll_flow body ⟨(condition.lower c.temp).next, c.label + 1⟩
    exact hbody.test.hand_over rfl rfl
  | .ifElse condition body otherwise _, c => by
    have hbody := Stmt.lowerAll_flow body ⟨(condition.lower c.temp).next, c.label + 2⟩
    have hotherwise := Stmt.lowerAll_flow otherwise
      (Stmt.lowerAll ⟨(condition.lower c.temp).next, c.label + 2⟩ body).2
    rw [Stmt.lowerAll_temp] at hotherwise
    have hgoto := (hbody.hand_over (i := .goto (c.label + 1)) rfl rfl).hand_over
      (i := .label c.label) rfl rfl
    have hblocks := ((hgoto.append hotherwise (.inl rfl)).test (l := c.label)).hand_over
      (i := .label (c.label + 1)) rfl rfl
    simpa [Stmt.lower, Stmt.wanted] using hblocks
  | .loop condition body _, c => by
    have hbody := Stmt.lowerAll_flow body ⟨(condition.lower c.temp).next, c.label + 2⟩
    have hback := (hbody.test (l := c.label + 1)).hand_over (i := .goto c.label) rfl rfl
    have hloop := (Flow.plain (i := .label c.label) rfl rfl).append
      (hback.hand_over (i := .label (c.label + 1)) rfl rfl) (.inl rfl)
    simpa [Stmt.lower, Stmt.wanted] using hloop

theorem Stmt.lowerAll_flow : ∀ (ss : List Stmt) (c : Counters),
    Flow c.temp (Stmt.allWanted ss) [] (Stmt.lowerAll c ss).1
  | [], _ => .nil
  | s :: ss, c => by
    have hs := Stmt.lower_flow s c
    have hss := Stmt.lowerAll_flow ss (s.lower c).2
    rw [Stmt.lower_temp] at hss
    exact hs.append hss (.inl rfl)

end

/-! ## Programs -/

/-- **Main.** Each value that a program computes has a temporary of its own, numbered from zero. The
code writes the temporaries once each, in order. One whose value is wanted is read once, and nothing
but computing stands between writing and reading it: no label, no jump, no mark. The others, which
hold what calls made as statements bring, are not read. -/
theorem lower_temps_once (p : Program) :
    (Stmt.lowerAll .start p.body).2.temp = (Stmt.allWanted p.body).length ∧
      tempsWritten p.lower = List.range (Stmt.allWanted p.body).length ∧
      ∀ k, (tempsRead p.lower).count k =
          (if (Stmt.allWanted p.body)[k]? = some true then 1 else 0) ∧
        (k ∈ tempsRead p.lower → ReadInTime p.lower k) := by
  have hflow : Flow 0 (Stmt.allWanted p.body) [] p.lower := Stmt.lowerAll_flow p.body .start
  refine ⟨?_, ?_, fun k => ⟨?_, hflow.read k⟩⟩
  · rw [Stmt.lowerAll_temp]
    exact Nat.zero_add _
  · rw [List.range_eq_range']
    exact hflow.written
  · have haccount := hflow.account.count_eq k
    rwa [List.append_nil, ← Nat.zero_add k, count_numbersWanted, Nat.zero_add] at haccount

end MeowScript
