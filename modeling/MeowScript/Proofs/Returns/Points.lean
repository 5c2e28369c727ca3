import MeowScript.Check.Statement

/-!
# Where the checker comes by

A point is the state that the checker is in somewhere in a program, with the statements that are
left in the block it is in. The points of a block are those in front of each of its statements, with
the points inside that statement behind them, and the one at its end. The body of a function whose
name is taken is not checked, so there is no point in it.

Results:
* `Invariant.allPoints`: what every step of the checker keeps holds at every point.
* `Stmt.allPoints_faults`: a fault at a point is a fault of the program.
-/
namespace MeowScript

/-- A state of the checker and what is left of the block. -/
structure Point where
  state : Checker
  rest : List Stmt
  deriving Repr

/-- At the first statement of a function's body, with the function in `scopes`. -/
def Checker.body (c : Checker) (scopes : Scopes) (name : String) (params : List Param) : Checker :=
  let inner : Checker := { c with scopes := scopes.enter, inside := some (name, scopes.depth) }
  (inner.declareParams params).after

mutual

/-- The points inside a statement. -/
def Stmt.points (c : Checker) : Stmt → List Point
  | .define name params body p =>
    match c.scopes.declare (.function name (params.map Param.name) p) with
    | .error _ => []
    | .ok scopes => Stmt.allPoints (c.body scopes name params) body
  | .ifThen _ body _ | .loop _ body _ => Stmt.allPoints c.enter body
  | .ifElse _ body otherwise _ =>
    Stmt.allPoints c.enter body ++
      Stmt.allPoints (Stmt.checkAll c.enter body).after.exit.enter otherwise
  | .declare _ _ _ _ | .assign _ _ _ _ | .call _ _ _ | .bring _ _ | .print _ _ => []

def Stmt.allPoints (c : Checker) : List Stmt → List Point
  | [] => [⟨c, []⟩]
  | s :: ss => ⟨c, s :: ss⟩ :: (Stmt.points c s ++ Stmt.allPoints (Stmt.check c s).after ss)

end

def Program.points (p : Program) : List Point := Stmt.allPoints .start p.body

/-! ## Invariants -/

/-- Every step of the checker keeps `P`. -/
structure Checker.Invariant (P : Checker → Prop) : Prop where
  check : ∀ {c : Checker} (s : Stmt), P c → P (Stmt.check c s).after
  enter : ∀ {c : Checker}, P c → P c.enter
  body : ∀ {c : Checker} {scopes : Scopes} {name : String} {params : List Param} {p : Position},
    P c → c.scopes.declare (.function name (params.map Param.name) p) = .ok scopes →
      P (c.body scopes name params)

mutual

theorem Checker.Invariant.points {P : Checker → Prop} (hP : Checker.Invariant P) :
    ∀ {c : Checker}, P c → ∀ s : Stmt, ∀ q ∈ Stmt.points c s, P q.state
  | c, hc, .define name params body p, q, hq => by
    rw [Stmt.points] at hq
    split at hq
    · cases hq
    · next scopes hd => exact hP.allPoints (hP.body hc hd) body q hq
  | c, hc, .ifThen _ body _, q, hq => hP.allPoints (hP.enter hc) body q hq
  | c, hc, .loop _ body _, q, hq => hP.allPoints (hP.enter hc) body q hq
  | c, hc, .ifElse e body otherwise p, q, hq => by
    rw [Stmt.points, List.mem_append] at hq
    rcases hq with hq | hq
    · exact hP.allPoints (hP.enter hc) body q hq
    · -- behind the first block the state is that behind a branch with this block alone
      have hbetween : P (Stmt.checkAll c.enter body).after.exit := hP.check (.ifThen e body p) hc
      exact hP.allPoints (hP.enter hbetween) otherwise q hq

/-- What every step of the checker keeps holds at every point. -/
theorem Checker.Invariant.allPoints {P : Checker → Prop} (hP : Checker.Invariant P) :
    ∀ {c : Checker}, P c → ∀ ss : List Stmt, ∀ q ∈ Stmt.allPoints c ss, P q.state
  | c, hc, [], q, hq => by
    rw [Stmt.allPoints, List.mem_singleton] at hq
    rw [hq]
    exact hc
  | c, hc, s :: ss, q, hq => by
    rw [Stmt.allPoints, List.mem_cons, List.mem_append] at hq
    rcases hq with rfl | hq | hq
    · exact hc
    · exact hP.points hc s q hq
    · exact hP.allPoints (hP.check s hc) ss q hq

end

/-! ## Faults -/

mutual

theorem Stmt.points_faults : ∀ (c : Checker) (s : Stmt), ∀ q ∈ Stmt.points c s,
    (Stmt.checkAll q.state q.rest).faults ⊆ (Stmt.check c s).faults
  | c, .define name params body p, q, hq => by
    rw [Stmt.points] at hq
    rw [Stmt.check]
    cases hd : c.scopes.declare (.function name (params.map Param.name) p) with
    | error existing => rw [hd] at hq; cases hq
    | ok scopes =>
      rw [hd] at hq
      exact fun f hf => List.mem_append_right _ (Stmt.allPoints_faults _ body q hq hf)
  | c, .ifThen _ body _, q, hq =>
    fun f hf => List.mem_append_right _ (Stmt.allPoints_faults _ body q hq hf)
  | c, .loop _ body _, q, hq =>
    fun f hf => List.mem_append_right _ (Stmt.allPoints_faults _ body q hq hf)
  | c, .ifElse _ body otherwise _, q, hq => by
    rw [Stmt.points, List.mem_append] at hq
    rw [Stmt.check]
    intro f hf
    rcases hq with hq | hq
    · apply List.mem_append_left
      exact List.mem_append_right _ (Stmt.allPoints_faults _ body q hq hf)
    · exact List.mem_append_right _ (Stmt.allPoints_faults _ otherwise q hq hf)

/-- What is wrong from a point on is wrong with the block the point is in. -/
theorem Stmt.allPoints_faults : ∀ (c : Checker) (ss : List Stmt), ∀ q ∈ Stmt.allPoints c ss,
    (Stmt.checkAll q.state q.rest).faults ⊆ (Stmt.checkAll c ss).faults
  | c, [], q, hq => by
    rw [Stmt.allPoints, List.mem_singleton] at hq
    rw [hq]
    exact List.Subset.refl _
  | c, s :: ss, q, hq => by
    rw [Stmt.allPoints, List.mem_cons, List.mem_append] at hq
    rcases hq with rfl | hq | hq
    · exact List.Subset.refl _
    · rw [Stmt.checkAll]
      exact fun f hf => List.mem_append_left _ (Stmt.points_faults c s q hq hf)
    · rw [Stmt.checkAll]
      exact fun f hf => List.mem_append_right _ (Stmt.allPoints_faults _ ss q hq hf)

end

end MeowScript
