import MeowScript.Proofs.Shape.Temporaries

/-!
# Calls take the parameters given for them

Code is gone through from the first instruction to the last, jumps or not. `Parameters` are those
given so far that no call has taken. Calls stand in the order of their evaluation; each takes what
the operands of its arguments are, also when there are calls in the arguments. Between statements,
and inside of them where code does anything else than compute, no parameter is left.

Results:
* `Leads.append`, `Leads.at_place`: what holds at every place of code.
* `Expr.lower_result`: where the code of an expression leaves its value.
* `Expr.lower_leads`, `Expr.lowerArgs_leads`: the code of an expression takes what it gives, the
  code of arguments gives their values.
* `Stmt.lower_leads`: nothing is left behind a statement.
-/
namespace MeowScript

/-! ## Going through code -/

section
variable {σ : Type} {step : σ → Instr → Option σ} {P Q : σ → Instr → Prop} {s t u : σ}
  {a b code : List Instr} {i : Instr}

/-- The state behind the code, if each instruction can follow those before it. -/
def stateAfter (step : σ → Instr → Option σ) (s : σ) (code : List Instr) : Option σ :=
  code.foldlM step s

/-- The code leads from `s` to `t`, and `P` holds of each instruction and the state before it. -/
inductive Leads (step : σ → Instr → Option σ) (P : σ → Instr → Prop) :
    σ → List Instr → σ → Prop where
  | nil (s : σ) : Leads step P s [] s
  | cons {s t u : σ} {i : Instr} {code : List Instr} : P s i → step s i = some u →
      Leads step P u code t → Leads step P s (i :: code) t

namespace Leads

theorem one (hp : P s i) (hs : step s i = some t) : Leads step P s [i] t := .cons hp hs (.nil t)

theorem append (h : Leads step P s a u) (h' : Leads step P u b t) : Leads step P s (a ++ b) t := by
  induction h with
  | nil => exact h'
  | cons hp hs _ ih => exact .cons hp hs (ih h')

/-- One more instruction. -/
theorem snoc (h : Leads step P s a u) (hp : P u i) (hs : step u i = some t) :
    Leads step P s (a ++ [i]) t :=
  h.append (.one hp hs)

theorem imp (h : Leads step P s code t) (hpq : ∀ u i, P u i → Q u i) : Leads step Q s code t := by
  induction h with
  | nil => exact .nil _
  | cons hp hs _ ih => exact .cons (hpq _ _ hp) hs ih

theorem stateAfter_eq (h : Leads step P s code t) : stateAfter step s code = some t := by
  induction h with
  | nil => rfl
  | @cons s t u i code _ hs _ ih =>
    unfold stateAfter at ih ⊢
    rw [List.foldlM_cons, hs]
    exact ih

/-- Every place is come to, and `P` holds there. -/
theorem at_place (h : Leads step P s code t) {before rest : List Instr}
    (hcode : code = before ++ i :: rest) : ∃ u, stateAfter step s before = some u ∧ P u i := by
  induction h generalizing before with
  | nil => simp at hcode
  | @cons s t u j code hp hs _ ih =>
    cases before with
    | nil =>
      obtain ⟨rfl, -⟩ := List.cons.inj hcode
      exact ⟨s, rfl, hp⟩
    | cons k before =>
      obtain ⟨rfl, htail⟩ := List.cons.inj hcode
      obtain ⟨v, hv, hpv⟩ := ih htail
      refine ⟨v, ?_, hpv⟩
      unfold stateAfter at hv ⊢
      rw [List.foldlM_cons, hs]
      exact hv

end Leads

end

/-! ## Parameters -/

/-- A call as code makes it: the temporary for what it brings, the name, and what it takes. -/
structure Taking where
  dest : Nat
  name : String
  args : List Operand
  deriving DecidableEq, Repr

/-- The parameters given that no call has taken, the newest first, and the calls made. -/
structure Parameters where
  given : List Operand
  calls : List Taking
  deriving DecidableEq, Repr

namespace Parameters

def start : Parameters := ⟨[], []⟩

/-- A call takes as many of the newest parameters as it says, in the order they were given. -/
def step (s : Parameters) : Instr → Option Parameters
  | .param value => some { s with given := value :: s.given }
  | .call dest name count =>
    if count ≤ s.given.length then
      some ⟨s.given.drop count, s.calls ++ [⟨dest, name, (s.given.take count).reverse⟩]⟩
    else none
  | _ => some s

/-- No parameter is left where an instruction does anything else than compute. -/
def Clear (s : Parameters) (i : Instr) : Prop := i.isComputation = false → s.given = []

theorem clear_of_isComputation {s : Parameters} {i : Instr} (h : i.isComputation = true) :
    s.Clear i := by
  intro hi
  rw [h] at hi
  cases hi

theorem clear_of_given {s : Parameters} {i : Instr} (h : s.given = []) : s.Clear i := fun _ => h

/-- A call takes exactly the parameters given for it. -/
theorem step_call (dest : Nat) (name : String) (os ps : List Operand) (calls : List Taking) :
    step ⟨os.reverse ++ ps, calls⟩ (.call dest name os.length) =
      some ⟨ps, calls ++ [⟨dest, name, os⟩]⟩ := by
  simp [step]

end Parameters

/-! ## Calls of a tree -/

/-- Where the value of an expression is found, its own values being numbered from `next` on. -/
def Expr.operand (next : Nat) : Expr → Operand
  | .literal v _ _ => .constant v
  | .var name storage _ _ => .var (storage.getD name)
  | .binary _ left right _ _ => .temp (next + left.valueCount + right.valueCount)
  | .unary _ operand _ _ => .temp (next + operand.valueCount)
  | .call _ args _ _ => .temp (next + Expr.valueCounts args)

def Expr.operands (next : Nat) : List Expr → List Operand
  | [] => []
  | e :: es => e.operand next :: Expr.operands (next + e.valueCount) es

mutual

/-- The calls of an expression in the order of their evaluation, each with the operands that its
arguments are. -/
def Expr.takings (next : Nat) : Expr → List Taking
  | .literal _ _ _ | .var _ _ _ _ => []
  | .binary _ left right _ _ => left.takings next ++ right.takings (next + left.valueCount)
  | .unary _ operand _ _ => operand.takings next
  | .call name args _ _ =>
    Expr.allTakings next args ++ [⟨next + Expr.valueCounts args, name, Expr.operands next args⟩]

def Expr.allTakings (next : Nat) : List Expr → List Taking
  | [] => []
  | e :: es => e.takings next ++ Expr.allTakings (next + e.valueCount) es

end

mutual

def Stmt.takings (next : Nat) : Stmt → List Taking
  | .declare _ value _ _ | .assign _ value _ _ | .bring value _ | .print value _ =>
    value.takings next
  | .define _ _ body _ => Stmt.allTakings next body
  | .call name args _ =>
    Expr.allTakings next args ++ [⟨next + Expr.valueCounts args, name, Expr.operands next args⟩]
  | .ifThen condition body _ | .loop condition body _ =>
    condition.takings next ++ Stmt.allTakings (next + condition.valueCount) body
  | .ifElse condition body otherwise _ =>
    condition.takings next ++ Stmt.allTakings (next + condition.valueCount) body ++
      Stmt.allTakings (next + condition.valueCount + (Stmt.allWanted body).length) otherwise

def Stmt.allTakings (next : Nat) : List Stmt → List Taking
  | [] => []
  | s :: ss => s.takings next ++ Stmt.allTakings (next + s.wanted.length) ss

end

/-- The calls of a program, in the order of the text. -/
def Program.takings (p : Program) : List Taking := Stmt.allTakings 0 p.body

/-! ## Lowered code -/

theorem Expr.lower_result (e : Expr) (next : Nat) : (e.lower next).result = e.operand next := by
  cases e <;> simp [Expr.lower, storedAs, Expr.operand, Expr.lower_next, Expr.lowerArgs_next]

theorem Expr.operands_length (next : Nat) (es : List Expr) :
    (Expr.operands next es).length = es.length := by
  induction es generalizing next with
  | nil => rfl
  | cons e es ih => rw [Expr.operands, List.length_cons, List.length_cons, ih]

open Parameters in
/-- The call that stands behind the code of its arguments. -/
theorem Leads.call (dest : Nat) (name : String) {s : Parameters} {next : Nat} {args : List Expr}
    {calls : List Taking} {code : List Instr}
    (h : Leads step Clear s code ⟨(Expr.operands next args).reverse ++ s.given, calls⟩) :
    Leads step Clear s (code ++ [.call dest name args.length])
      ⟨s.given, calls ++ [⟨dest, name, Expr.operands next args⟩]⟩ := by
  refine h.snoc (clear_of_isComputation rfl) ?_
  rw [← Expr.operands_length next args]
  exact step_call ..

mutual

/-- The code of an expression takes all parameters that it gives. -/
theorem Expr.lower_leads : ∀ (e : Expr) (next : Nat) (s : Parameters),
    Leads Parameters.step Parameters.Clear s (e.lower next).code
      ⟨s.given, s.calls ++ e.takings next⟩
  | .literal _ _ _, _, s | .var _ _ _ _, _, s => by
    simp only [Expr.lower, Expr.takings, List.append_nil]
    exact .nil s
  | .binary op left right _ note, next, s => by
    have hleft := Expr.lower_leads left next s
    have hright := Expr.lower_leads right (left.lower next).next
      ⟨s.given, s.calls ++ left.takings next⟩
    rw [Expr.lower_next] at hright
    simp only [Expr.lower, Expr.lower_next, Expr.takings, ← List.append_assoc] at hright ⊢
    exact (hleft.append hright).snoc (Parameters.clear_of_isComputation rfl) rfl
  | .unary op operand _ note, next, s =>
    (Expr.lower_leads operand next s).snoc (Parameters.clear_of_isComputation rfl) rfl
  | .call name args _ _, next, s => by
    have hcall := (Expr.lowerArgs_leads args next s).call (Expr.lowerArgs next args).2 name
    rw [Expr.lowerArgs_next, List.append_assoc] at hcall
    simp only [Expr.lower, Expr.lowerArgs_next, Expr.takings]
    exact hcall

/-- The code of arguments leaves their values as parameters, the last one newest. -/
theorem Expr.lowerArgs_leads : ∀ (es : List Expr) (next : Nat) (s : Parameters),
    Leads Parameters.step Parameters.Clear s (Expr.lowerArgs next es).1
      ⟨(Expr.operands next es).reverse ++ s.given, s.calls ++ Expr.allTakings next es⟩
  | [], _, s => by
    simp only [Expr.lowerArgs, Expr.operands, Expr.allTakings, List.append_nil, List.reverse_nil,
      List.nil_append]
    exact .nil s
  | e :: es, next, s => by
    have hparam := (Expr.lower_leads e next s).snoc (i := .param (e.lower next).result)
      (Parameters.clear_of_isComputation rfl) rfl
    have hes := Expr.lowerArgs_leads es (e.lower next).next
      ⟨(e.lower next).result :: s.given, s.calls ++ e.takings next⟩
    have hall := hparam.append hes
    simpa [Expr.lowerArgs, Expr.operands, Expr.allTakings, Expr.lower_next, Expr.lower_result]
      using hall

end

/-- An instruction that touches no parameter, where none is left. -/
theorem Leads.idle {s : Parameters} {i : Instr} {code : List Instr} {calls : List Taking}
    (h : Leads Parameters.step Parameters.Clear s code ⟨[], calls⟩)
    (hi : i.isComputation = false) :
    Leads Parameters.step Parameters.Clear s (code ++ [i]) ⟨[], calls⟩ := by
  refine h.snoc (Parameters.clear_of_given rfl) ?_
  cases i <;> first | rfl | cases hi

mutual

/-- No parameter is left behind a statement. -/
theorem Stmt.lower_leads : ∀ (s : Stmt) (c : Counters) (calls : List Taking),
    Leads Parameters.step Parameters.Clear ⟨[], calls⟩ (s.lower c).1
      ⟨[], calls ++ s.takings c.temp⟩
  | .declare _ value _ _, c, calls | .assign _ value _ _, c, calls | .bring value _, c, calls
  | .print value _, c, calls => (Expr.lower_leads value c.temp ⟨[], calls⟩).idle rfl
  | .define name _ body _, c, calls =>
    (Leads.idle (i := .beginFunction name) (.nil _) rfl).append
      ((Stmt.lowerAll_leads body c calls).idle rfl)
  | .call name args _, c, calls => by
    have hcall := (Expr.lowerArgs_leads args c.temp ⟨[], calls⟩).call
      (Expr.lowerArgs c.temp args).2 name
    rw [Expr.lowerArgs_next, List.append_assoc] at hcall
    simp only [Stmt.lower, Expr.lowerArgs_next, Stmt.takings]
    exact hcall
  | .ifThen condition body _, c, calls => by
    have htest := (Expr.lower_leads condition c.temp ⟨[], calls⟩).idle
      (i := .ifFalse (condition.lower c.temp).result c.label) rfl
    have hbody := Stmt.lowerAll_leads body ⟨(condition.lower c.temp).next, c.label + 1⟩
      (calls ++ condition.takings c.temp)
    have hall := (htest.append hbody).idle (i := .label c.label) rfl
    simpa [Stmt.lower, Stmt.takings, Expr.lower_next] using hall
  | .ifElse condition body otherwise _, c, calls => by
    have htest := (Expr.lower_leads condition c.temp ⟨[], calls⟩).idle
      (i := .ifFalse (condition.lower c.temp).result c.label) rfl
    have hbody := Stmt.lowerAll_leads body ⟨(condition.lower c.temp).next, c.label + 2⟩
      (calls ++ condition.takings c.temp)
    have hgoto := ((htest.append hbody).idle (i := .goto (c.label + 1)) rfl).idle
      (i := .label c.label) rfl
    have hotherwise := hgoto.append (Stmt.lowerAll_leads otherwise
      (Stmt.lowerAll ⟨(condition.lower c.temp).next, c.label + 2⟩ body).2 _)
    have hall := hotherwise.idle (i := .label (c.label + 1)) rfl
    simpa [Stmt.lower, Stmt.takings, Stmt.lowerAll_temp, Expr.lower_next] using hall
  | .loop condition body _, c, calls => by
    have hlabel := (Leads.nil (⟨[], calls⟩ : Parameters)).idle (i := .label c.label) rfl
    have htest := (hlabel.append (Expr.lower_leads condition c.temp ⟨[], calls⟩)).idle
      (i := .ifFalse (condition.lower c.temp).result (c.label + 1)) rfl
    have hbody := htest.append (Stmt.lowerAll_leads body
      ⟨(condition.lower c.temp).next, c.label + 2⟩ (calls ++ condition.takings c.temp))
    have hall := (hbody.idle (i := .goto c.label) rfl).idle (i := .label (c.label + 1)) rfl
    simpa [Stmt.lower, Stmt.takings, Expr.lower_next] using hall

theorem Stmt.lowerAll_leads : ∀ (ss : List Stmt) (c : Counters) (calls : List Taking),
    Leads Parameters.step Parameters.Clear ⟨[], calls⟩ (Stmt.lowerAll c ss).1
      ⟨[], calls ++ Stmt.allTakings c.temp ss⟩
  | [], _, calls => by
    simp only [Stmt.lowerAll, Stmt.allTakings, List.append_nil]
    exact .nil _
  | s :: ss, c, calls => by
    have hs := Stmt.lower_leads s c calls
    have hss := Stmt.lowerAll_leads ss (s.lower c).2 (calls ++ s.takings c.temp)
    rw [Stmt.lower_temp, List.append_assoc] at hss
    exact hs.append hss

end

/-- In `f(1, g(x))` the call of `g` stands between the two parameters of `f`. -/
example (q : Position) (t : Ty) :
    stateAfter Parameters.step .start
      (Stmt.lower .start (.call "f" [.literal (.integer 1) q t, .call "g" [.var "x" none q t] q t]
        q)).1 =
    some ⟨[], [⟨0, "g", [.var "x"]⟩, ⟨1, "f", [.constant (.integer 1), .temp 0]⟩]⟩ := rfl

end MeowScript
