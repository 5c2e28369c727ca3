import MeowScript.Proofs.Meaning.Tree

/-!
# A machine for three-address code

Variables, temporaries and parameters are kept apart. The machine stands before the rest of the
code that it goes through; a jump goes to where the code has the label, and the mark at the
beginning of a function leads behind its matching end. A temporary that was never written cannot
be read, a call cannot take more parameters than were given, a jump needs its label: where an
instruction cannot be done the machine has no step, and has not ended either.

Results:
* `Steps.le_of_stopped`, `Steps.stopped_unique`: a machine stops in one place only.
* `Config.step_of_ended`: it stops where it has ended.
* `labelled_cons`, `labelled_append`, `behindFunction_append`: code without the label, or without
  marks, is passed over.
-/
namespace MeowScript

universe u

variable {V : Type u}

/-- What is left of the code, the variables, the temporaries written so far, the parameters given
(the newest first), and what has been shown. -/
structure Config (V : Type u) where
  rest : List Instr
  store : Store V
  temps : Nat → Option V
  params : List V
  events : List (Event V)

/-- Before the first instruction. -/
def Config.start (code : List Instr) (σ : Store V) : Config V := ⟨code, σ, fun _ => none, [], []⟩

def Operand.read (I : Interpretation V) (σ : Store V) (temps : Nat → Option V) :
    Operand → Option V
  | .constant v => some (I.literal v)
  | .var storage => some (σ storage)
  | .temp n => temps n

/-- The code from the label on. -/
def labelled (l : Nat) : List Instr → Option (List Instr)
  | [] => none
  | i :: is => if i = .label l then some (i :: is) else labelled l is

/-- The code behind the end of a function, `depth` functions inside which end earlier. -/
def behindFunction (depth : Nat) : List Instr → Option (List Instr)
  | [] => none
  | .beginFunction _ :: is => behindFunction (depth + 1) is
  | .endFunction _ :: is =>
    match depth with
    | 0 => some is
    | d + 1 => behindFunction d is
  | _ :: is => behindFunction depth is

/-- One instruction. -/
def Config.step (I : Interpretation V) (code : List Instr) (c : Config V) : Option (Config V) :=
  match c.rest with
  | [] => none
  | .copy dest source :: rest =>
    (source.read I c.store c.temps).map fun v =>
      { c with rest, store := Function.update c.store dest v }
  | .binary dest op left right _ :: rest =>
    (left.read I c.store c.temps).bind fun v =>
      (right.read I c.store c.temps).map fun w =>
        { c with rest, temps := Function.update c.temps dest (some (I.binary op v w)) }
  | .unary dest op operand _ :: rest =>
    (operand.read I c.store c.temps).map fun v =>
      { c with rest, temps := Function.update c.temps dest (some (I.unary op v)) }
  | .label _ :: rest => some { c with rest }
  | .ifFalse condition target :: rest =>
    (condition.read I c.store c.temps).bind fun v =>
      if I.truth v then some { c with rest }
      else (labelled target code).map fun rest => { c with rest }
  | .goto target :: _ => (labelled target code).map fun rest => { c with rest }
  | .call dest name count :: rest =>
    if count ≤ c.params.length then
      let args := (c.params.take count).reverse
      some { c with
        rest
        temps := Function.update c.temps dest (some (I.call name args))
        params := c.params.drop count
        events := c.events ++ [.call name args] }
    else none
  | .param value :: rest =>
    (value.read I c.store c.temps).map fun v => { c with rest, params := v :: c.params }
  | .bring _ :: _ => none
  | .print value :: rest =>
    (value.read I c.store c.temps).map fun v =>
      { c with rest, events := c.events ++ [.print v] }
  | .beginFunction _ :: rest => (behindFunction 0 rest).map fun rest => { c with rest }
  | .endFunction _ :: _ => none

/-- What a run that has come here amounts to, if it has ended: behind all code or at a value that is
brought. -/
def Config.ended? (I : Interpretation V) (c : Config V) : Option (Execution V) :=
  match c.rest with
  | [] => some ⟨c.events, c.store, .finished⟩
  | .bring value :: _ =>
    (value.read I c.store c.temps).map fun v => ⟨c.events, c.store, .brought v⟩
  | _ => none

/-- So many steps lead from one state to the other. -/
inductive Steps (I : Interpretation V) (code : List Instr) : Nat → Config V → Config V → Prop where
  | refl (a : Config V) : Steps I code 0 a a
  | cons {n : Nat} {a b c : Config V} : a.step I code = some b → Steps I code n b c →
      Steps I code (n + 1) a c

/-- From the store `σ` the code ends as `e` says. -/
def Halts (I : Interpretation V) (code : List Instr) (σ : Store V) (e : Execution V) : Prop :=
  ∃ n c, Steps I code n (Config.start code σ) c ∧ c.ended? I = some e

/-- From the store `σ` the machine comes to a place where it has not ended and cannot go on. -/
def GetsStuck (I : Interpretation V) (code : List Instr) (σ : Store V) : Prop :=
  ∃ n c, Steps I code n (Config.start code σ) c ∧ c.ended? I = none ∧ c.step I code = none

/-! ## Runs -/

section

variable {I : Interpretation V} {code : List Instr}

theorem Steps.one {a b : Config V} (h : a.step I code = some b) : Steps I code 1 a b :=
  .cons h (.refl b)

theorem Steps.trans {n m : Nat} {a b c : Config V} (h : Steps I code n a b)
    (h' : Steps I code m b c) : Steps I code (n + m) a c := by
  induction h with
  | refl => simpa using h'
  | cons hs _ ih => rw [Nat.add_right_comm]; exact .cons hs (ih h')

/-- A long run has every shorter one in front. -/
theorem Steps.shorter {n m : Nat} {a c : Config V} (h : Steps I code n a c) (hm : m ≤ n) :
    ∃ b, Steps I code m a b := by
  induction h generalizing m with
  | refl a => obtain rfl : m = 0 := by omega
              exact ⟨a, .refl a⟩
  | @cons _ a _ _ hs _ ih =>
    cases m with
    | zero => exact ⟨a, .refl a⟩
    | succ m =>
      obtain ⟨b, hb⟩ := ih (m := m) (by omega)
      exact ⟨b, .cons hs hb⟩

theorem Steps.split {n m : Nat} {a c : Config V} (h : Steps I code (n + m) a c) :
    ∃ b, Steps I code n a b ∧ Steps I code m b c := by
  induction n generalizing a with
  | zero => exact ⟨a, .refl a, by simpa using h⟩
  | succ n ih =>
    rw [Nat.add_right_comm] at h
    cases h with
    | cons hs h =>
      obtain ⟨b, hb, hc⟩ := ih h
      exact ⟨b, .cons hs hb, hc⟩

theorem Steps.deterministic {n : Nat} {a b c : Config V} (h : Steps I code n a b)
    (h' : Steps I code n a c) : b = c := by
  induction h with
  | refl => cases h'; rfl
  | cons hs _ ih =>
    cases h' with
    | cons hs' h' =>
      rw [hs] at hs'
      cases hs'
      exact ih h'

theorem Config.step_of_ended {c : Config V} {e : Execution V} (h : c.ended? I = some e) :
    c.step I code = none := by
  unfold Config.ended? at h
  unfold Config.step
  split at h
  · next hr => rw [hr]
  · next hr => rw [hr]
  · cases h

/-- No run is longer than one that cannot go on. -/
theorem Steps.le_of_stopped {n m : Nat} {a b c : Config V} (h : Steps I code n a b)
    (hb : b.step I code = none) (h' : Steps I code m a c) : m ≤ n := by
  by_contra hn
  obtain ⟨d, rfl⟩ : ∃ d, m = n + (d + 1) := ⟨m - n - 1, by omega⟩
  obtain ⟨b', hb', hc⟩ := h'.split
  cases h.deterministic hb'
  cases hc with
  | cons hs _ => rw [hb] at hs; cases hs

theorem Steps.stopped_unique {n m : Nat} {a b c : Config V} (h : Steps I code n a b)
    (hb : b.step I code = none) (h' : Steps I code m a c) (hc : c.step I code = none) : b = c := by
  obtain rfl : m = n := Nat.le_antisymm (h.le_of_stopped hb h') (h'.le_of_stopped hc h)
  exact h.deterministic h'

end

/-! ## Where a jump goes -/

theorem labelled_here (l : Nat) (rest : List Instr) :
    labelled l (.label l :: rest) = some (.label l :: rest) := if_pos rfl

theorem labelled_cons {l : Nat} {i : Instr} (h : i ≠ .label l) (rest : List Instr) :
    labelled l (i :: rest) = labelled l rest := if_neg h

theorem labelled_append {l : Nat} {before : List Instr} (h : .label l ∉ before)
    (rest : List Instr) : labelled l (before ++ rest) = labelled l rest := by
  induction before with
  | nil => rfl
  | cons i before ih =>
    simp only [List.mem_cons, not_or] at h
    rw [List.cons_append, labelled_cons (Ne.symm h.1), ih h.2]

/-- Instructions that mark no function are passed over. -/
theorem behindFunction_append {d : Nat} {part rest : List Instr}
    (h : ∀ i ∈ part, i.isMark = false) :
    behindFunction d (part ++ rest) = behindFunction d rest := by
  induction part with
  | nil => rfl
  | cons i part ih =>
    have hi := h i List.mem_cons_self
    have := ih fun j hj => h j (List.mem_cons_of_mem i hj)
    cases i <;> simp_all [behindFunction, Instr.isMark]

end MeowScript
