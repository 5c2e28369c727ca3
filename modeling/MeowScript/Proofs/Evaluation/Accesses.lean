import MeowScript.Proofs.Growth.Change
import MeowScript.Proofs.Naming.Leaves

/-!
# Where variables are read and functions called

The accesses of an expression are its reads of variables and its calls, from left to right and a
call behind its arguments. In the code each access has its place. A variable is an operand, so that
it is read by the instruction that its value goes into: the operator, the parameter, or what stands
behind the code of the whole expression.

Results:
* `Expr.lower_agenda`: the places of the accesses of an expression.
* `Consists.does_iff`, `Program.does_iff`: the code of a program reads and calls there, and nowhere
  else.
-/
namespace MeowScript

/-! ## Accesses -/

/-- A variable is read, or a function called. -/
inductive Access where
  | read (storage : String)
  | call (name : String)
  deriving DecidableEq, Repr

/-- What an operand has the instruction read. -/
def Operand.access? : Operand → Option Access
  | .var storage => some (.read storage)
  | .constant _ | .temp _ => none

/-- The accesses that an instruction does. -/
def Instr.accesses : Instr → List Access
  | .call _ name _ => [.call name]
  | i => i.read.filterMap Operand.access?

mutual

/-- The accesses of an expression in the order of evaluation. -/
def Expr.accesses : Expr → List Access
  | .literal _ _ _ => []
  | .var name storage _ _ => [.read (storage.getD name)]
  | .binary _ left right _ _ => left.accesses ++ right.accesses
  | .unary _ operand _ _ => operand.accesses
  | .call name args _ _ => Expr.allAccesses args ++ [.call name]

def Expr.allAccesses : List Expr → List Access
  | [] => []
  | e :: es => e.accesses ++ Expr.allAccesses es

end

/-- What the code of a statement is made of: the code of a value with the instruction that it goes
into, a call behind its arguments, or an instruction that neither reads a variable nor calls. -/
inductive Portion where
  | value (e : Expr)
  | call (name : String)
  | mark

def Portion.accesses : Portion → List Access
  | value e => e.accesses
  | call name => [.call name]
  | mark => []

def Portion.allAccesses (ps : List Portion) : List Access := ps.flatMap Portion.accesses

mutual

def Stmt.portions : Stmt → List Portion
  | .declare _ value _ _ | .assign _ value _ _ | .bring value _ | .print value _ => [.value value]
  | .define _ _ body _ => .mark :: Stmt.allPortions body ++ [.mark]
  | .call name args _ => args.map .value ++ [.call name]
  | .ifThen condition body _ => .value condition :: Stmt.allPortions body ++ [.mark]
  | .ifElse condition body otherwise _ =>
    .value condition :: Stmt.allPortions body ++ [.mark, .mark] ++ Stmt.allPortions otherwise ++
      [.mark]
  | .loop condition body _ =>
    .mark :: .value condition :: Stmt.allPortions body ++ [.mark, .mark]

def Stmt.allPortions : List Stmt → List Portion
  | [] => []
  | s :: ss => s.portions ++ Stmt.allPortions ss

end

/-- The accesses of a program, those of an expression in the order of its evaluation. -/
def Program.accesses (p : Program) : List Access := Portion.allAccesses (Stmt.allPortions p.body)

/-! ## Accesses and their places -/

/-- Accesses, each with the place of the instruction that does it. -/
abbrev Agenda := List (Nat × Access)

namespace Agenda

/-- The same accesses at other places. -/
def move (place : Nat → Nat) (agenda : Agenda) : Agenda := agenda.map fun a => (place a.1, a.2)

def shift (d : Nat) : Agenda → Agenda := move (d + ·)

/-- What an expression with `own` instructions leaves to the next one is done `more` places further.
-/
def delay (own more : Nat) : Agenda → Agenda := move fun i => if i = own then own + more else i

variable {place : Nat → Nat} {d i own more : Nat} {x : Access} {a : Agenda}

theorem move_accesses (place : Nat → Nat) (a : Agenda) :
    (move place a).map Prod.snd = a.map Prod.snd :=
  List.map_map

theorem move_length (place : Nat → Nat) (a : Agenda) : (move place a).length = a.length :=
  List.length_map _

theorem mem_move : (i, x) ∈ move place a ↔ ∃ j, i = place j ∧ (j, x) ∈ a := by
  simp only [move, List.mem_map, Prod.mk.injEq, Prod.exists]
  constructor
  · rintro ⟨j, x, hmem, rfl, rfl⟩
    exact ⟨j, rfl, hmem⟩
  · rintro ⟨j, rfl, hmem⟩
    exact ⟨j, x, hmem, rfl, rfl⟩

theorem mem_shift : (i, x) ∈ shift d a ↔ ∃ j, i = d + j ∧ (j, x) ∈ a := mem_move

theorem le_of_mem_shift {u : Nat × Access} (h : u ∈ shift d a) : d ≤ u.1 := by
  obtain ⟨j, hj, -⟩ := mem_shift.mp h
  exact hj ▸ Nat.le_add_right d j

/-- Only what is left behind the expression is delayed. -/
theorem mem_delay {P : Nat → Access → Prop} {Q : Access → Prop} (hP : ∀ i x, P i x → i < own)
    (h : ∀ i x, (i, x) ∈ a ↔ P i x ∨ (i = own ∧ Q x)) :
    (i, x) ∈ delay own more a ↔ P i x ∨ (i = own + more ∧ Q x) := by
  rw [delay, mem_move]
  constructor
  · rintro ⟨j, hi, hmem⟩
    rcases (h _ _).mp hmem with hp | ⟨rfl, hq⟩
    · rw [if_neg (Nat.ne_of_lt (hP _ _ hp))] at hi
      exact .inl (hi ▸ hp)
    · rw [if_pos rfl] at hi
      exact .inr ⟨hi, hq⟩
  · rintro (hp | ⟨rfl, hq⟩)
    · exact ⟨i, (if_neg (Nat.ne_of_lt (hP _ _ hp))).symm, (h _ _).mpr (.inl hp)⟩
    · exact ⟨own, (if_pos rfl).symm, (h _ _).mpr (.inr ⟨rfl, hq⟩)⟩

theorem delay_eq_self (h : ∀ u ∈ a, u.1 < own) : delay own more a = a := by
  refine (List.map_congr_left fun u hu => ?_).trans (List.map_id _)
  exact congrArg (·, u.2) (if_neg (Nat.ne_of_lt (h u hu)))

end Agenda

mutual

/-- The accesses of an expression with their places in the code; the place behind the code is that
of the instruction that the value goes into. -/
def Expr.agenda : Expr → Agenda
  | .literal _ _ _ => []
  | .var name storage _ _ => [(0, .read (storage.getD name))]
  | .binary _ left right _ _ =>
    Agenda.delay left.cost right.cost left.agenda ++ Agenda.shift left.cost right.agenda
  | .unary _ operand _ _ => operand.agenda
  | .call name args _ _ => Expr.allAgenda args ++ [(Expr.costAll args, .call name)]

def Expr.allAgenda : List Expr → Agenda
  | [] => []
  | e :: es => e.agenda ++ Agenda.shift (e.cost + 1) (Expr.allAgenda es)

end

def Portion.agenda : List Portion → Agenda
  | [] => []
  | .value e :: ps => e.agenda ++ Agenda.shift (e.cost + 1) (Portion.agenda ps)
  | .call name :: ps => (0, .call name) :: Agenda.shift 1 (Portion.agenda ps)
  | .mark :: ps => Agenda.shift 1 (Portion.agenda ps)

/-! ## What code does -/

/-- The instruction at the place does the access. -/
def Does (code : List Instr) (i : Nat) (y : Access) : Prop :=
  ∃ x, code[i]? = some x ∧ y ∈ x.accesses

section
variable {a b code : List Instr} {x : Instr} {i : Nat} {y : Access}

theorem does_nil : ¬ Does [] i y := by
  rintro ⟨x, hx, -⟩
  cases hx

theorem Does.lt (h : Does code i y) : i < code.length := by
  obtain ⟨x, hx, -⟩ := h
  exact (List.getElem?_eq_some_iff.mp hx).1

theorem does_append : Does (a ++ b) i y ↔ Does a i y ∨ ∃ j, i = a.length + j ∧ Does b j y := by
  unfold Does
  rcases Nat.lt_or_ge i a.length with hi | hi
  · have hj : ∀ j, i ≠ a.length + j := by omega
    simp [List.getElem?_append_left hi, hj]
  · obtain ⟨j, rfl⟩ := Nat.exists_eq_add_of_le hi
    simp [List.getElem?_append_right hi]

theorem does_cons : Does (x :: code) i y ↔
    (i = 0 ∧ y ∈ x.accesses) ∨ ∃ j, i = 1 + j ∧ Does code j y := by
  unfold Does
  cases i with
  | zero =>
    have hj : ∀ j, 0 ≠ 1 + j := by omega
    simp [hj]
  | succ i => simp [Nat.add_comm 1]

theorem does_snoc :
    Does (code ++ [x]) i y ↔ Does code i y ∨ (i = code.length ∧ y ∈ x.accesses) := by
  simp [does_append, does_cons, does_nil]

end

/-! ## Expressions -/

theorem Instr.mem_accesses_binary {dest : Nat} {op : BinaryOp} {a b : Operand} {ty : Ty}
    {y : Access} :
    y ∈ (Instr.binary dest op a b ty).accesses ↔ a.access? = some y ∨ b.access? = some y := by
  simp [Instr.accesses, Instr.read]

/-- An instruction that reads one operand only. -/
theorem Instr.mem_accesses_of_read {x : Instr} {o : Operand} {y : Access} (h : x.read = [o]) :
    y ∈ x.accesses ↔ o.access? = some y := by
  cases x <;> cases h <;> simp [Instr.accesses, Instr.read]

mutual

/-- The accesses of an expression are done by its code, but for the read of a variable that is its
value. -/
theorem Expr.lower_agenda : ∀ (e : Expr) (next i : Nat) (y : Access), (i, y) ∈ e.agenda ↔
    Does (e.lower next).code i y ∨ (i = e.cost ∧ (e.lower next).result.access? = some y)
  | .literal _ _ _, _, i, y => by simp [Expr.agenda, Expr.lower, does_nil, Operand.access?]
  | .var name storage _ _, _, i, y => by
    simp [Expr.agenda, Expr.lower, storedAs, does_nil, Operand.access?, Expr.cost, eq_comm]
  | .binary op left right _ note, next, i, y => by
    have hleft := Expr.lower_agenda left next
    have hright := Expr.lower_agenda right (left.lower next).next
    have hlt : ∀ i y, Does (left.lower next).code i y → i < left.cost := fun i y h => by
      rw [← Expr.lower_length left next]
      exact h.lt
    have htemp : (Operand.temp (right.lower (left.lower next).next).next).access? ≠ some y := nofun
    rw [Expr.agenda, Expr.lower, does_snoc, does_append, List.mem_append,
      Agenda.mem_delay hlt hleft, Agenda.mem_shift]
    simp only [hright, Instr.mem_accesses_binary, List.length_append, Expr.lower_length, htemp,
      and_false, or_false]
    -- both operands that are variables are read by the operator, at the last place
    constructor
    · rintro ((hl | ⟨hi, hl⟩) | ⟨j, hi, hr | ⟨rfl, hr⟩⟩)
      · exact .inl (.inl hl)
      · exact .inr ⟨hi, .inl hl⟩
      · exact .inl (.inr ⟨j, hi, hr⟩)
      · exact .inr ⟨hi, .inr hr⟩
    · rintro ((hl | ⟨j, hi, hr⟩) | ⟨hi, hl | hr⟩)
      · exact .inl (.inl hl)
      · exact .inr ⟨j, hi, .inl hr⟩
      · exact .inl (.inr ⟨hi, hl⟩)
      · exact .inr ⟨right.cost, hi, .inr ⟨rfl, hr⟩⟩
  | .unary op operand _ note, next, i, y => by
    have htemp : (Operand.temp (operand.lower next).next).access? ≠ some y := nofun
    rw [Expr.agenda, Expr.lower, does_snoc, Instr.mem_accesses_of_read rfl]
    simp only [Expr.lower_agenda operand next i y, Expr.lower_length, htemp, and_false, or_false]
  | .call name args _ _, next, i, y => by
    have htemp : (Operand.temp (Expr.lowerArgs next args).2).access? ≠ some y := nofun
    simp only [Expr.agenda, List.mem_append, Expr.lowerArgs_agenda args next i y, Expr.lower,
      does_snoc, Instr.accesses, List.mem_singleton, Prod.mk.injEq, Expr.lowerArgs_length, htemp,
      and_false, or_false]

/-- The accesses of arguments are all done by their code. -/
theorem Expr.lowerArgs_agenda : ∀ (es : List Expr) (next i : Nat) (y : Access),
    (i, y) ∈ Expr.allAgenda es ↔ Does (Expr.lowerArgs next es).1 i y
  | [], _, i, y => by simp [Expr.allAgenda, Expr.lowerArgs, does_nil]
  | e :: es, next, i, y => by
    rw [Expr.allAgenda, Expr.lowerArgs, does_append, does_snoc, List.mem_append, Agenda.mem_shift,
      Instr.mem_accesses_of_read rfl]
    simp only [Expr.lower_agenda e next, Expr.lowerArgs_agenda es (e.lower next).next,
      List.length_append, List.length_singleton, Expr.lower_length]

end

/-! ## Statements -/

/-- The code is made of these portions. -/
inductive Consists : List Portion → List Instr → Prop where
  | nil : Consists [] []
  | value {e : Expr} {next : Nat} {reader : Instr} {ps : List Portion} {code : List Instr} :
      reader.read = [(e.lower next).result] → Consists ps code →
      Consists (.value e :: ps) ((e.lower next).code ++ reader :: code)
  | call {name : String} {dest count : Nat} {ps : List Portion} {code : List Instr} :
      Consists ps code → Consists (.call name :: ps) (.call dest name count :: code)
  | mark {i : Instr} {ps : List Portion} {code : List Instr} : i.accesses = [] → Consists ps code →
      Consists (.mark :: ps) (i :: code)

namespace Consists

variable {ps qs : List Portion} {a b code : List Instr} {i : Nat} {y : Access}

theorem append (h : Consists ps a) (h' : Consists qs b) : Consists (ps ++ qs) (a ++ b) := by
  induction h with
  | nil => exact h'
  | value hr _ ih =>
    rw [List.append_assoc]
    exact .value hr ih
  | call _ ih => exact .call ih
  | mark hi _ ih => exact .mark hi ih

/-- The code does the accesses at their places, and no others. -/
theorem does_iff (h : Consists ps code) : Does code i y ↔ (i, y) ∈ Portion.agenda ps := by
  induction h generalizing i with
  | nil => simp [does_nil, Portion.agenda]
  | @value e next reader ps code hr _ ih =>
    rw [List.append_cons, does_append, does_snoc, Instr.mem_accesses_of_read hr, Portion.agenda,
      List.mem_append, Agenda.mem_shift]
    simp only [Expr.lower_agenda e next, ih, Expr.lower_length, List.length_append,
      List.length_singleton]
  | @call name dest count ps code _ ih =>
    rw [does_cons, Portion.agenda, List.mem_cons, Agenda.mem_shift]
    simp only [ih, Instr.accesses, List.mem_singleton, Prod.mk.injEq]
  | @mark x ps code hx _ ih =>
    rw [does_cons, Portion.agenda, Agenda.mem_shift]
    simp only [ih, hx, List.not_mem_nil, and_false, false_or]

end Consists

theorem Expr.lowerArgs_consists (es : List Expr) (next : Nat) :
    Consists (es.map .value) (Expr.lowerArgs next es).1 := by
  induction es generalizing next with
  | nil => exact .nil
  | cons e es ih =>
    rw [Expr.lowerArgs, List.map_cons, List.append_assoc]
    exact .value rfl (ih _)

mutual

theorem Stmt.lower_consists : ∀ (s : Stmt) (c : Counters), Consists s.portions (s.lower c).1
  | .declare _ _ _ _, _ | .assign _ _ _ _, _ | .bring _ _, _ | .print _ _, _ => .value rfl .nil
  | .define _ _ body _, c => .mark rfl ((Stmt.lowerAll_consists body c).append (.mark rfl .nil))
  | .call _ args _, c => (Expr.lowerArgs_consists args c.temp).append (.call .nil)
  | .ifThen condition body _, c => by
    have hbody := Stmt.lowerAll_consists body ⟨(condition.lower c.temp).next, c.label + 1⟩
    simp only [Stmt.lower, List.append_assoc, List.cons_append, List.nil_append]
    exact .value rfl (hbody.append (.mark rfl .nil))
  | .ifElse condition body otherwise _, c => by
    have hbody := Stmt.lowerAll_consists body ⟨(condition.lower c.temp).next, c.label + 2⟩
    have hother := Stmt.lowerAll_consists otherwise
      (Stmt.lowerAll ⟨(condition.lower c.temp).next, c.label + 2⟩ body).2
    simp only [Stmt.lower, Stmt.portions, List.append_assoc, List.cons_append, List.nil_append]
    exact .value rfl (hbody.append (.mark rfl (.mark rfl (hother.append (.mark rfl .nil)))))
  | .loop condition body _, c => by
    have hbody := Stmt.lowerAll_consists body ⟨(condition.lower c.temp).next, c.label + 2⟩
    simp only [Stmt.lower, List.append_assoc, List.cons_append, List.nil_append]
    exact .mark rfl (.value rfl (hbody.append (.mark rfl (.mark rfl .nil))))

theorem Stmt.lowerAll_consists : ∀ (ss : List Stmt) (c : Counters),
    Consists (Stmt.allPortions ss) (Stmt.lowerAll c ss).1
  | [], _ => .nil
  | s :: ss, c => (Stmt.lower_consists s c).append (Stmt.lowerAll_consists ss (s.lower c).2)

end

/-- The accesses of a program with the places of the instructions that do them. -/
def Program.agenda (p : Program) : Agenda := Portion.agenda (Stmt.allPortions p.body)

/-- The code of a program reads variables and calls functions exactly where the agenda says. -/
theorem Program.does_iff (p : Program) {i : Nat} {y : Access} :
    Does p.lower i y ↔ (i, y) ∈ p.agenda :=
  (Stmt.lowerAll_consists p.body .start).does_iff

end MeowScript
