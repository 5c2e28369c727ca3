import Mathlib.Data.List.Basic
import MeowScript.Proofs.Evaluation.Accesses

/-!
# Which instruction does an access

The same variable may be read at many places of a tree. Accesses are told apart by naming each of
them: the instruction that reads or calls under the name of an access, whatever the accesses are
named, is the one that does it. Names change nothing else in the code, and under its own names a
program has the code it has.

Results:
* `Program.named_agenda`: the places of accesses do not depend on names.
* `Program.named_own`: the names that a program has already.
* `Program.doneAt_iff`: each access is done at one place, the one in the agenda.
-/
namespace MeowScript

/-! ## Naming accesses -/

namespace Access

def name : Access → String
  | read storage => storage
  | call name => name

def named (name : String) : Access → Access
  | read _ => read name
  | call _ => call name

theorem name_named (a : Access) (s : String) : (a.named s).name = s := by
  cases a <;> rfl

end Access

section
variable (g : Nat → String)

mutual

/-- The expression with new names for what it reads and calls, one for each access from `k` on. -/
def Expr.named (k : Nat) : Expr → Expr
  | .literal v p note => .literal v p note
  | .var name _ p ty => .var name (some (g k)) p ty
  | .binary op left right p note =>
    .binary op (left.named k) (right.named (k + left.accesses.length)) p note
  | .unary op operand p note => .unary op (operand.named k) p note
  | .call _ args p note =>
    .call (g (k + (Expr.allAccesses args).length)) (Expr.allNamed k args) p note

def Expr.allNamed (k : Nat) : List Expr → List Expr
  | [] => []
  | e :: es => e.named k :: Expr.allNamed (k + e.accesses.length) es

end

def Portion.allNamed (k : Nat) : List Portion → List Portion
  | [] => []
  | .value e :: ps => .value (e.named g k) :: Portion.allNamed (k + e.accesses.length) ps
  | .call _ :: ps => .call (g k) :: Portion.allNamed (k + 1) ps
  | .mark :: ps => .mark :: Portion.allNamed k ps

/-- How many accesses a statement takes. -/
def Stmt.accessCount (s : Stmt) : Nat := (Portion.allAccesses s.portions).length

def Stmt.accessCounts (ss : List Stmt) : Nat := (Portion.allAccesses (Stmt.allPortions ss)).length

mutual

/-- The statement with new names for what it reads and calls; it stores where it did. -/
def Stmt.named (k : Nat) : Stmt → Stmt
  | .declare name value storage p => .declare name (value.named g k) storage p
  | .assign name value storage p => .assign name (value.named g k) storage p
  | .define name params body p => .define name params (Stmt.allNamed k body) p
  | .call _ args p => .call (g (k + (Expr.allAccesses args).length)) (Expr.allNamed g k args) p
  | .ifThen condition body p =>
    .ifThen (condition.named g k) (Stmt.allNamed (k + condition.accesses.length) body) p
  | .ifElse condition body otherwise p =>
    .ifElse (condition.named g k) (Stmt.allNamed (k + condition.accesses.length) body)
      (Stmt.allNamed (k + condition.accesses.length + Stmt.accessCounts body) otherwise) p
  | .loop condition body p =>
    .loop (condition.named g k) (Stmt.allNamed (k + condition.accesses.length) body) p
  | .bring value p => .bring (value.named g k) p
  | .print value p => .print (value.named g k) p

def Stmt.allNamed (k : Nat) : List Stmt → List Stmt
  | [] => []
  | s :: ss => s.named k :: Stmt.allNamed (k + s.accessCount) ss

end

/-- The program with the name `g n` for what its `n`-th access reads or calls. -/
def Program.named (p : Program) : Program := ⟨Stmt.allNamed g 0 p.body, p.position⟩

/-- Names for the accesses of an agenda. -/
def Agenda.named (k : Nat) (agenda : Agenda) : Agenda :=
  agenda.mapIdx fun n a => (a.1, a.2.named (g (k + n)))

theorem Agenda.named_append (k : Nat) (a b : Agenda) :
    Agenda.named g k (a ++ b) = Agenda.named g k a ++ Agenda.named g (k + a.length) b := by
  simp [Agenda.named, List.mapIdx_append, Nat.add_left_comm, Nat.add_comm]

theorem Agenda.named_move (k : Nat) (place : Nat → Nat) (a : Agenda) :
    Agenda.named g k (Agenda.move place a) = Agenda.move place (Agenda.named g k a) := by
  refine List.ext_getElem? fun n => ?_
  simp only [Agenda.named, Agenda.move, List.getElem?_mapIdx, List.getElem?_map, Option.map_map]
  rfl

/-! ## Names change nothing else -/

@[simp] theorem Portion.allAccesses_nil : Portion.allAccesses [] = [] := rfl

@[simp] theorem Portion.allAccesses_cons (p : Portion) (ps : List Portion) :
    Portion.allAccesses (p :: ps) = p.accesses ++ Portion.allAccesses ps :=
  List.flatMap_cons

mutual

theorem Expr.agenda_accesses : ∀ e : Expr, e.agenda.map Prod.snd = e.accesses
  | .literal _ _ _ | .var _ _ _ _ => rfl
  | .binary _ left right _ _ => by
    rw [Expr.agenda, List.map_append, Agenda.shift, Agenda.delay, Agenda.move_accesses,
      Agenda.move_accesses, Expr.accesses, Expr.agenda_accesses left, Expr.agenda_accesses right]
  | .unary _ operand _ _ => Expr.agenda_accesses operand
  | .call _ args _ _ => by
    rw [Expr.agenda, List.map_append, Expr.allAgenda_accesses args, Expr.accesses]
    rfl

theorem Expr.allAgenda_accesses : ∀ es : List Expr,
    (Expr.allAgenda es).map Prod.snd = Expr.allAccesses es
  | [] => rfl
  | e :: es => by
    rw [Expr.allAgenda, List.map_append, Agenda.shift, Agenda.move_accesses,
      Expr.agenda_accesses e, Expr.allAgenda_accesses es, Expr.allAccesses]

end

@[simp] theorem Portion.allAccesses_append (ps qs : List Portion) :
    Portion.allAccesses (ps ++ qs) = Portion.allAccesses ps ++ Portion.allAccesses qs :=
  List.flatMap_append

theorem Portion.agenda_accesses (ps : List Portion) :
    (Portion.agenda ps).map Prod.snd = Portion.allAccesses ps := by
  induction ps with
  | nil => rfl
  | cons p ps ih =>
    rw [Portion.allAccesses_cons, ← ih]
    cases p with
    | value e =>
      rw [Portion.agenda, List.map_append, Agenda.shift, Agenda.move_accesses,
        Expr.agenda_accesses e]
      rfl
    | call name => rw [Portion.agenda, List.map_cons, Agenda.shift, Agenda.move_accesses]; rfl
    | mark => rw [Portion.agenda, Agenda.shift, Agenda.move_accesses]; rfl

theorem Expr.agenda_length (e : Expr) : e.agenda.length = e.accesses.length := by
  rw [← Expr.agenda_accesses, List.length_map]

theorem Expr.allAgenda_length (es : List Expr) :
    (Expr.allAgenda es).length = (Expr.allAccesses es).length := by
  rw [← Expr.allAgenda_accesses, List.length_map]

mutual

theorem Expr.named_cost : ∀ (e : Expr) (k : Nat), (e.named g k).cost = e.cost
  | .literal _ _ _, _ | .var _ _ _ _, _ => rfl
  | .binary _ left right _ _, k => by
    simp [Expr.named, Expr.cost, Expr.named_cost left, Expr.named_cost right]
  | .unary _ operand _ _, k => by simp [Expr.named, Expr.cost, Expr.named_cost operand]
  | .call _ args _ _, k => by simp [Expr.named, Expr.cost, Expr.allNamed_cost args]

theorem Expr.allNamed_cost : ∀ (es : List Expr) (k : Nat),
    Expr.costAll (Expr.allNamed g k es) = Expr.costAll es
  | [], _ => rfl
  | e :: es, k => by
    simp [Expr.allNamed, Expr.costAll, Expr.named_cost e, Expr.allNamed_cost es]

end

theorem Expr.allNamed_length (es : List Expr) (k : Nat) :
    (Expr.allNamed g k es).length = es.length := by
  induction es generalizing k with
  | nil => rfl
  | cons e es ih => rw [Expr.allNamed, List.length_cons, List.length_cons, ih]

mutual

theorem Expr.named_agenda : ∀ (e : Expr) (k : Nat),
    (e.named g k).agenda = Agenda.named g k e.agenda
  | .literal _ _ _, _ | .var _ _ _ _, _ => rfl
  | .binary _ left right _ _, k => by
    rw [Expr.named, Expr.agenda, Expr.named_agenda left, Expr.named_agenda right,
      Expr.named_cost g left, Expr.named_cost g right, ← Expr.agenda_length left, Expr.agenda,
      Agenda.named_append, Agenda.shift, Agenda.delay, Agenda.named_move, Agenda.named_move,
      Agenda.move_length]
  | .unary _ operand _ _, k => Expr.named_agenda operand k
  | .call _ args _ _, k => by
    rw [Expr.named, Expr.agenda, Expr.allNamed_agenda args, Expr.allNamed_cost g args,
      ← Expr.allAgenda_length args, Expr.agenda, Agenda.named_append]
    rfl

theorem Expr.allNamed_agenda : ∀ (es : List Expr) (k : Nat),
    Expr.allAgenda (Expr.allNamed g k es) = Agenda.named g k (Expr.allAgenda es)
  | [], _ => rfl
  | e :: es, k => by
    rw [Expr.allNamed, Expr.allAgenda, Expr.named_agenda e, Expr.allNamed_agenda es,
      Expr.named_cost g e, ← Expr.agenda_length e, Expr.allAgenda, Agenda.named_append,
      Agenda.shift, Agenda.named_move]

end

theorem Portion.allNamed_agenda (ps : List Portion) (k : Nat) :
    Portion.agenda (Portion.allNamed g k ps) = Agenda.named g k (Portion.agenda ps) := by
  induction ps generalizing k with
  | nil => rfl
  | cons p ps ih =>
    cases p with
    | value e =>
      rw [Portion.allNamed, Portion.agenda, ih, Expr.named_agenda g e, Expr.named_cost g e,
        ← Expr.agenda_length e, Portion.agenda, Agenda.named_append, Agenda.shift,
        Agenda.named_move]
    | call name =>
      rw [Portion.allNamed, Portion.agenda, ih, Portion.agenda, Agenda.shift, ← Agenda.named_move]
      exact (Agenda.named_append g k [(0, .call name)] _).symm
    | mark =>
      rw [Portion.allNamed, Portion.agenda, ih, Portion.agenda, Agenda.shift, Agenda.named_move]

theorem Portion.allNamed_append (k : Nat) (ps qs : List Portion) :
    Portion.allNamed g k (ps ++ qs) = Portion.allNamed g k ps ++
      Portion.allNamed g (k + (Portion.allAccesses ps).length) qs := by
  induction ps generalizing k with
  | nil => rfl
  | cons p ps ih =>
    cases p <;> simp [Portion.allNamed, Portion.accesses, ih, Nat.add_assoc, Nat.add_comm 1]

theorem Portion.allNamed_values (es : List Expr) (k : Nat) :
    Portion.allNamed g k (es.map .value) = (Expr.allNamed g k es).map .value := by
  induction es generalizing k with
  | nil => rfl
  | cons e es ih => rw [List.map_cons, Portion.allNamed, ih, Expr.allNamed, List.map_cons]

theorem Portion.values_accesses (es : List Expr) :
    Portion.allAccesses (es.map .value) = Expr.allAccesses es := by
  induction es with
  | nil => rfl
  | cons e es ih =>
    rw [List.map_cons, Portion.allAccesses_cons, ih]
    rfl

mutual

theorem Stmt.named_portions : ∀ (s : Stmt) (k : Nat),
    (s.named g k).portions = Portion.allNamed g k s.portions
  | .declare _ _ _ _, _ | .assign _ _ _ _, _ | .bring _ _, _ | .print _ _, _ => rfl
  | .define _ _ body _, k => by
    simp [Stmt.named, Stmt.portions, Portion.allNamed, Portion.allNamed_append,
      Stmt.allNamed_portions body]
  | .call _ args _, k => by
    simp [Stmt.named, Stmt.portions, Portion.allNamed, Portion.allNamed_append,
      Portion.allNamed_values, Portion.values_accesses]
  | .ifThen condition body _, k => by
    simp [Stmt.named, Stmt.portions, Portion.allNamed, Portion.allNamed_append,
      Stmt.allNamed_portions body]
  | .ifElse condition body otherwise _, k => by
    simp [Stmt.named, Stmt.portions, Portion.allNamed, Portion.allNamed_append,
      Stmt.allNamed_portions body, Stmt.allNamed_portions otherwise, Stmt.accessCounts]
  | .loop condition body _, k => by
    simp [Stmt.named, Stmt.portions, Portion.allNamed, Portion.allNamed_append,
      Stmt.allNamed_portions body]

theorem Stmt.allNamed_portions : ∀ (ss : List Stmt) (k : Nat),
    Stmt.allPortions (Stmt.allNamed g k ss) = Portion.allNamed g k (Stmt.allPortions ss)
  | [], _ => rfl
  | s :: ss, k => by
    simp [Stmt.allNamed, Stmt.allPortions, Portion.allNamed_append, Stmt.named_portions s,
      Stmt.allNamed_portions ss, Stmt.accessCount]

end

theorem Program.named_agenda (p : Program) : (p.named g).agenda = Agenda.named g 0 p.agenda := by
  rw [Program.agenda, Program.named, Stmt.allNamed_portions, Portion.allNamed_agenda]
  rfl

/-! ## The names of a program itself -/

/-- From number `k` on, `g` has the names of these accesses. -/
def Owns (k : Nat) (accesses : List Access) : Prop :=
  ∀ n a, accesses[n]? = some a → g (k + n) = a.name

theorem owns_append {k : Nat} {a b : List Access} :
    Owns g k (a ++ b) ↔ Owns g k a ∧ Owns g (k + a.length) b := by
  constructor
  · refine fun h => ⟨fun n x hn => h n x ?_, fun n x hn => ?_⟩
    · rw [List.getElem?_append_left (List.getElem?_eq_some_iff.mp hn).1, hn]
    · rw [Nat.add_assoc]
      refine h (a.length + n) x ?_
      rw [List.getElem?_append_right (Nat.le_add_right _ _), Nat.add_sub_cancel_left, hn]
  · rintro ⟨ha, hb⟩ n x hn
    rcases Nat.lt_or_ge n a.length with hlt | hge
    · rw [List.getElem?_append_left hlt] at hn
      exact ha n x hn
    · obtain ⟨m, rfl⟩ := Nat.exists_eq_add_of_le hge
      rw [List.getElem?_append_right hge, Nat.add_sub_cancel_left] at hn
      rw [← Nat.add_assoc]
      exact hb m x hn

theorem Owns.head {k : Nat} {a : Access} (h : Owns g k [a]) : g k = a.name := h 0 a rfl

mutual

theorem Expr.named_own : ∀ (e : Expr) (k next : Nat), Owns g k e.accesses →
    (e.named g k).lower next = e.lower next
  | .literal _ _ _, _, _, _ => rfl
  | .var name storage _ _, k, _, h => by
    rw [Expr.named, Expr.lower, Expr.lower, h.head]
    rfl
  | .binary _ left right _ _, k, next, h => by
    obtain ⟨hleft, hright⟩ := (owns_append g).mp h
    simp only [Expr.named, Expr.lower, Expr.named_own left k next hleft,
      Expr.named_own right _ _ hright]
  | .unary _ operand _ _, k, next, h => by
    simp only [Expr.named, Expr.lower, Expr.named_own operand k next h]
  | .call name args _ _, k, next, h => by
    obtain ⟨hargs, hcall⟩ := (owns_append g).mp h
    simp only [Expr.named, Expr.lower, Expr.allNamed_own args k next hargs, hcall.head,
      Expr.allNamed_length, Access.name]

theorem Expr.allNamed_own : ∀ (es : List Expr) (k next : Nat), Owns g k (Expr.allAccesses es) →
    Expr.lowerArgs next (Expr.allNamed g k es) = Expr.lowerArgs next es
  | [], _, _, _ => rfl
  | e :: es, k, next, h => by
    obtain ⟨he, hes⟩ := (owns_append g).mp h
    simp only [Expr.allNamed, Expr.lowerArgs, Expr.named_own e k next he,
      Expr.allNamed_own es _ _ hes]

end

mutual

theorem Stmt.named_own : ∀ (s : Stmt) (k : Nat) (c : Counters),
    Owns g k (Portion.allAccesses s.portions) → (s.named g k).lower c = s.lower c
  | .declare _ value _ _, k, c, h | .assign _ value _ _, k, c, h | .bring value _, k, c, h
  | .print value _, k, c, h => by
    have hvalue : Owns g k value.accesses := ((owns_append g).mp h).1
    simp only [Stmt.named, Stmt.lower, Expr.named_own g value k _ hvalue]
  | .define _ _ body _, k, c, h => by
    have hbody : Owns g k (Portion.allAccesses (Stmt.allPortions body)) := by
      simpa [Stmt.portions, Portion.accesses] using h
    simp only [Stmt.named, Stmt.lower, Stmt.allNamed_own body k c hbody]
  | .call name args _, k, c, h => by
    have hcall : Owns g k (Expr.allAccesses args ++ [.call name]) := by
      simpa [Stmt.portions, Portion.accesses, Portion.values_accesses] using h
    obtain ⟨hargs, hname⟩ := (owns_append g).mp hcall
    simp only [Stmt.named, Stmt.lower, Expr.allNamed_own g args k _ hargs, hname.head,
      Expr.allNamed_length, Access.name]
  | .ifThen condition body _, k, c, h | .loop condition body _, k, c, h => by
    have hboth : Owns g k (condition.accesses ++ Portion.allAccesses (Stmt.allPortions body)) := by
      simpa [Stmt.portions, Portion.accesses] using h
    obtain ⟨hcondition, hbody⟩ := (owns_append g).mp hboth
    simp only [Stmt.named, Stmt.lower, Expr.named_own g condition k _ hcondition,
      Stmt.allNamed_own body _ _ hbody]
  | .ifElse condition body otherwise _, k, c, h => by
    have hall : Owns g k (condition.accesses ++ (Portion.allAccesses (Stmt.allPortions body) ++
        Portion.allAccesses (Stmt.allPortions otherwise))) := by
      simpa [Stmt.portions, Portion.accesses] using h
    obtain ⟨hcondition, hblocks⟩ := (owns_append g).mp hall
    obtain ⟨hbody, hother⟩ := (owns_append g).mp hblocks
    simp only [Stmt.named, Stmt.lower, Expr.named_own g condition k _ hcondition,
      Stmt.allNamed_own body _ _ hbody, Stmt.accessCounts, Stmt.allNamed_own otherwise _ _ hother]

theorem Stmt.allNamed_own : ∀ (ss : List Stmt) (k : Nat) (c : Counters),
    Owns g k (Portion.allAccesses (Stmt.allPortions ss)) →
      Stmt.lowerAll c (Stmt.allNamed g k ss) = Stmt.lowerAll c ss
  | [], _, _, _ => rfl
  | s :: ss, k, c, h => by
    rw [Stmt.allPortions, Portion.allAccesses_append, owns_append] at h
    simp only [Stmt.allNamed, Stmt.lowerAll, Stmt.named_own s k c h.1, Stmt.accessCount,
      Stmt.allNamed_own ss _ _ h.2]

end

end

/-- Under the names that its accesses have, a program has the code it has. -/
theorem Program.named_own (p : Program) :
    (p.named fun n => (p.accesses[n]?.map Access.name).getD "").lower = p.lower := by
  rw [Program.lower, Program.named, Stmt.allNamed_own, Program.lower]
  intro n a hn
  have hn' : p.accesses[n]? = some a := hn
  simp [hn']

/-! ## The place of an access -/

/-- The instruction does the `n`-th access of the program: it reads or calls under the name of the
access, whatever the accesses are named. -/
def Program.DoneAt (p : Program) (n i : Nat) : Prop :=
  ∀ g : Nat → String, ∃ a, Does (p.named g).lower i a ∧ a.name = g n

theorem Agenda.mem_named {g : Nat → String} {k i : Nat} {a : Access} {agenda : Agenda} :
    (i, a) ∈ Agenda.named g k agenda ↔
      ∃ n, ∃ b : Access, agenda[n]? = some (i, b) ∧ a = b.named (g (k + n)) := by
  simp only [List.mem_iff_getElem?, Agenda.named, List.getElem?_mapIdx, Option.map_eq_some_iff,
    Prod.mk.injEq, Prod.exists]
  constructor
  · rintro ⟨n, i, b, hn, rfl, rfl⟩
    exact ⟨n, b, hn, rfl⟩
  · rintro ⟨n, b, hn, rfl⟩
    exact ⟨n, i, b, hn, rfl, rfl⟩

/-- Each access is done at one place only. -/
theorem Program.doneAt_iff (p : Program) {n i : Nat} :
    p.DoneAt n i ↔ ∃ a, p.agenda[n]? = some (i, a) := by
  constructor
  · intro h
    obtain ⟨a, hdoes, hname⟩ := h toString
    rw [Program.does_iff, Program.named_agenda, Agenda.mem_named] at hdoes
    obtain ⟨m, b, hm, rfl⟩ := hdoes
    rw [Access.name_named, Nat.zero_add] at hname
    rw [← toString_injective hname]
    exact ⟨b, hm⟩
  · rintro ⟨a, hn⟩ g
    refine ⟨a.named (g n), ?_, a.name_named (g n)⟩
    rw [Program.does_iff, Program.named_agenda, Agenda.mem_named]
    exact ⟨n, a, hn, by rw [Nat.zero_add]⟩

/-- Each access of a program has its place. -/
theorem Program.agenda_of_accesses {p : Program} {n : Nat} {a : Access}
    (h : p.accesses[n]? = some a) : ∃ i, p.agenda[n]? = some (i, a) := by
  rw [Program.accesses, ← Portion.agenda_accesses, List.getElem?_map, Option.map_eq_some_iff] at h
  obtain ⟨⟨i, _⟩, hn, rfl⟩ := h
  exact ⟨i, hn⟩

theorem Program.doneAt_of_agenda {p : Program} {n i : Nat} {a : Access}
    (h : p.agenda[n]? = some (i, a)) (j : Nat) : p.DoneAt n j ↔ j = i := by
  rw [p.doneAt_iff, h]
  simp [eq_comm]

end MeowScript
