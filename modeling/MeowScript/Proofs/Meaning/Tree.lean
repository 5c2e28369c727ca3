import Mathlib.Logic.Function.Basic
import MeowScript.Code.Lower

/-!
# What a tree means

Variables live in a store, under the names they are stored as; operands are computed from left to
right, those of `&&` and `||` too. Values are of any type: an `Interpretation` says what literals,
operators and calls give, and which values count as true. A call is answered from the name of the
function and its arguments alone. What can be seen of a run is its events (prints and calls), the
store it leaves and how it ends.

A loop may go round for ever, so a run is given a bound on the rounds of each loop, and comes to
nothing when a loop needs more. A program `Terminates` when some bound is enough.

Results:
* `Stmt.exec_mono`, `Stmt.execAll_mono`: a run that ends under one bound ends in the same way under
  every larger one.
* `Program.Terminates.unique`: a program ends in one way only.
-/
namespace MeowScript

universe u

/-- What the operators and the functions do to values of type `V`. -/
structure Interpretation (V : Type u) where
  literal : Literal → V
  binary : BinaryOp → V → V → V
  unary : UnaryOp → V → V
  truth : V → Bool
  call : String → List V → V

/-- What a run shows to the outside. -/
inductive Event (V : Type u) where
  | print (value : V)
  | call (name : String) (args : List V)

/-- The values of the variables, by the names they are stored under. -/
abbrev Store (V : Type u) := String → V

/-- How a run ends: behind its last statement, or at a `Bring`. -/
inductive Ending (V : Type u) where
  | finished
  | brought (value : V)

/-- A run that has ended. -/
structure Execution (V : Type u) where
  events : List (Event V)
  store : Store V
  ending : Ending V

variable {V : Type u}

namespace Execution

/-- Puts earlier events in front. -/
def after (events : List (Event V)) (e : Execution V) : Execution V :=
  { e with events := events ++ e.events }

/-- Goes on with `next`, unless the run was stopped. -/
def andThen (e : Execution V) (next : Store V → Option (Execution V)) : Option (Execution V) :=
  match e.ending with
  | .finished => (next e.store).map (after e.events)
  | .brought _ => some e

@[simp] theorem after_nil : after ([] : List (Event V)) = fun e => e := rfl

end Execution

/-! ## Expressions -/

mutual

/-- The value of an expression and the events on the way to it. -/
def Expr.eval (I : Interpretation V) (σ : Store V) : Expr → V × List (Event V)
  | .literal v _ _ => (I.literal v, [])
  | .var name storage _ _ => (σ (storage.getD name), [])
  | .binary op left right _ _ =>
    let l := Expr.eval I σ left
    let r := Expr.eval I σ right
    (I.binary op l.1 r.1, l.2 ++ r.2)
  | .unary op operand _ _ =>
    let e := Expr.eval I σ operand
    (I.unary op e.1, e.2)
  | .call name args _ _ =>
    let as := Expr.evalAll I σ args
    (I.call name as.1, as.2 ++ [.call name as.1])

def Expr.evalAll (I : Interpretation V) (σ : Store V) : List Expr → List V × List (Event V)
  | [] => ([], [])
  | e :: es =>
    let r := Expr.eval I σ e
    let rs := Expr.evalAll I σ es
    (r.1 :: rs.1, r.2 ++ rs.2)

end

/-! ## Statements -/

/-- Up to so many rounds of a loop. -/
def rounds (I : Interpretation V) (condition : Expr) (body : Store V → Option (Execution V)) :
    Nat → Store V → Option (Execution V)
  | 0, _ => none
  | n + 1, σ =>
    let c := condition.eval I σ
    if I.truth c.1 then
      (body σ).bind fun e => (e.after c.2).andThen (rounds I condition body n)
    else some ⟨c.2, σ, .finished⟩

mutual

/-- Runs a statement, no loop for more than `n` rounds at a time. -/
def Stmt.exec (I : Interpretation V) (n : Nat) : Stmt → Store V → Option (Execution V)
  | .declare name value storage _, σ | .assign name value storage _, σ =>
    let e := value.eval I σ
    some ⟨e.2, Function.update σ (storage.getD name) e.1, .finished⟩
  | .define _ _ _ _, σ => some ⟨[], σ, .finished⟩
  | .call name args _, σ =>
    let as := Expr.evalAll I σ args
    some ⟨as.2 ++ [.call name as.1], σ, .finished⟩
  | .ifThen condition body _, σ =>
    let c := condition.eval I σ
    if I.truth c.1 then (Stmt.execAll I n body σ).map (Execution.after c.2)
    else some ⟨c.2, σ, .finished⟩
  | .ifElse condition body otherwise _, σ =>
    let c := condition.eval I σ
    if I.truth c.1 then (Stmt.execAll I n body σ).map (Execution.after c.2)
    else (Stmt.execAll I n otherwise σ).map (Execution.after c.2)
  | .loop condition body _, σ => rounds I condition (Stmt.execAll I n body) n σ
  | .bring value _, σ =>
    let e := value.eval I σ
    some ⟨e.2, σ, .brought e.1⟩
  | .print value _, σ =>
    let e := value.eval I σ
    some ⟨e.2 ++ [.print e.1], σ, .finished⟩

def Stmt.execAll (I : Interpretation V) (n : Nat) : List Stmt → Store V → Option (Execution V)
  | [], σ => some ⟨[], σ, .finished⟩
  | s :: ss, σ => (Stmt.exec I n s σ).bind fun e => e.andThen (Stmt.execAll I n ss)

end

/-- From the store `σ` the main program ends as `e` says. -/
def Program.Terminates (I : Interpretation V) (p : Program) (σ : Store V) (e : Execution V) :
    Prop := ∃ n, Stmt.execAll I n p.body σ = some e

/-! ## Larger bounds -/

/-- What `f` answers, `g` answers too. -/
def Extends (f g : Store V → Option (Execution V)) : Prop := ∀ σ e, f σ = some e → g σ = some e

theorem andThen_mono {f g : Store V → Option (Execution V)} (h : Extends f g) {e r : Execution V}
    (he : e.andThen f = some r) : e.andThen g = some r := by
  unfold Execution.andThen at he ⊢
  split at he
  · obtain ⟨r', hr, rfl⟩ := Option.map_eq_some_iff.mp he
    rw [h _ _ hr, Option.map_some]
  · exact he

theorem bind_andThen_mono {f f' g g' : Store V → Option (Execution V)} (hf : Extends f f')
    (hg : Extends g g') (ev : List (Event V)) :
    Extends (fun σ => (f σ).bind fun e => (e.after ev).andThen g)
      (fun σ => (f' σ).bind fun e => (e.after ev).andThen g') := by
  intro σ r h
  obtain ⟨e, he, hr⟩ := Option.bind_eq_some_iff.mp h
  simp only [hf _ _ he, Option.bind_some]
  exact andThen_mono hg hr

theorem map_after_mono {f g : Store V → Option (Execution V)} (h : Extends f g) {σ : Store V}
    {ev : List (Event V)} {r : Execution V} (hr : (f σ).map (Execution.after ev) = some r) :
    (g σ).map (Execution.after ev) = some r := by
  obtain ⟨e, he, rfl⟩ := Option.map_eq_some_iff.mp hr
  rw [h _ _ he, Option.map_some]

theorem rounds_mono (I : Interpretation V) (condition : Expr)
    {f g : Store V → Option (Execution V)} (h : Extends f g) :
    ∀ n m, n ≤ m → Extends (rounds I condition f n) (rounds I condition g m)
  | 0, _, _ => fun _ _ hr => by simp [rounds] at hr
  | n + 1, m, hm => by
    obtain ⟨m, rfl⟩ : ∃ k, m = k + 1 := ⟨m - 1, by omega⟩
    intro σ e hr
    rw [rounds] at hr ⊢
    split at hr
    · next ht =>
      rw [if_pos ht]
      exact bind_andThen_mono h (rounds_mono I condition h n m (by omega)) _ σ e hr
    · next hf => rw [if_neg hf]; exact hr

mutual

theorem Stmt.exec_mono (I : Interpretation V) {n m : Nat} (h : n ≤ m) :
    ∀ s : Stmt, Extends (Stmt.exec I n s) (Stmt.exec I m s)
  | .declare _ _ _ _ | .assign _ _ _ _ | .define _ _ _ _ | .call _ _ _ | .bring _ _
  | .print _ _ => fun _ _ hr => by simpa only [Stmt.exec] using hr
  | .ifThen _ body _ => fun σ e hr => by
    simp only [Stmt.exec] at hr ⊢
    split at hr
    · next ht => rw [if_pos ht]; exact map_after_mono (Stmt.execAll_mono I h body) hr
    · next hf => rw [if_neg hf]; exact hr
  | .ifElse _ body otherwise _ => fun σ e hr => by
    simp only [Stmt.exec] at hr ⊢
    split at hr
    · next ht => rw [if_pos ht]; exact map_after_mono (Stmt.execAll_mono I h body) hr
    · next hf => rw [if_neg hf]; exact map_after_mono (Stmt.execAll_mono I h otherwise) hr
  | .loop condition body _ => fun σ e hr => by
    simp only [Stmt.exec] at hr ⊢
    exact rounds_mono I condition (Stmt.execAll_mono I h body) n m h σ e hr

theorem Stmt.execAll_mono (I : Interpretation V) {n m : Nat} (h : n ≤ m) :
    ∀ ss : List Stmt, Extends (Stmt.execAll I n ss) (Stmt.execAll I m ss)
  | [] => fun _ _ hr => by simpa only [Stmt.execAll] using hr
  | s :: ss => fun σ e hr => by
    simp only [Stmt.execAll] at hr ⊢
    exact bind_andThen_mono (Stmt.exec_mono I h s) (Stmt.execAll_mono I h ss) [] σ e hr

end

theorem Program.Terminates.unique {I : Interpretation V} {p : Program} {σ : Store V}
    {e e' : Execution V} (h : p.Terminates I σ e) (h' : p.Terminates I σ e') : e = e' := by
  obtain ⟨n, hn⟩ := h
  obtain ⟨m, hm⟩ := h'
  have hl := Stmt.execAll_mono I (Nat.le_max_left n m) _ _ _ hn
  have hr := Stmt.execAll_mono I (Nat.le_max_right n m) _ _ _ hm
  rw [hl] at hr
  exact Option.some.inj hr

end MeowScript
