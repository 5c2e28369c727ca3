import MeowScript.Proofs.Returns.Inference

/-!
# All states of the checker

The points of a program are the states in front of its statements and at the ends of its blocks.
Between them the checker passes further states: a function has been declared but is not yet the one
around, some of its parameters are missing, its body is left while it still is the one around, the
first block of a branch has been left and the second not been entered. At the end the global scope
is left as well. What holds of all of these states holds at any moment.

Results:
* `Program.states`: every state of the checker in a program.
* `Program.check_closes`: behind a program all scopes but the global one have been left.
* `Checker.Standing.of_states`: the function around is in scope at any moment.
* `Checker.bring_found`: a `Bring` in a function is held against that function and counts for it.
* `states_settle`: what every statement does in every state, and that the function around is found.
-/
namespace MeowScript

/-! ## States -/

/-- The states that the checker passes in a statement, apart from the points in it. -/
def Stmt.passes (c : Checker) : Stmt → List Checker
  | .define name params body p =>
    match c.scopes.declare (.function name (params.map Param.name) p) with
    | .error _ => []
    | .ok scopes =>
      let declared : Checker := { c with scopes, inside := some (name, scopes.depth) }
      { c with scopes } :: declared :: params.inits.map (c.body scopes name) ++
        [(Stmt.checkAll (c.body scopes name params) body).after.exit]
  | .ifElse _ body _ _ => [(Stmt.checkAll c.enter body).after.exit]
  | .declare _ _ _ _ | .assign _ _ _ _ | .call _ _ _ | .ifThen _ _ _ | .loop _ _ _ | .bring _ _
  | .print _ _ => []

/-- The state at the point, and those on the way to the next one. -/
def Point.states (q : Point) : List Checker :=
  q.state :: q.rest.head?.toList.flatMap (Stmt.passes q.state)

/-- The states that the checker is in while it checks the program. The last is the one without
scopes. -/
def Program.states (p : Program) : List Checker :=
  p.points.flatMap Point.states ++ [(Stmt.checkAll .start p.body).after.exit]

/-- Behind a program the checker is in the global scope and in no function. -/
theorem Program.check_closes (p : Program) :
    (Stmt.checkAll .start p.body).after.scopes.depth = 0 ∧
      (Stmt.checkAll .start p.body).after.inside = none :=
  ⟨(Stmt.checkAll_settles .start p.body).depth, (Stmt.checkAll_keeps .start p.body).inside⟩

/-! ## The function around -/

namespace Checker

/-- Also between two points the function around is in scope. -/
theorem Standing.passes {c d : Checker} (h : c.Standing) (s : Stmt) (hd : d ∈ Stmt.passes c s) :
    d.Standing := by
  cases s with
  | define name params body p =>
    rw [Stmt.passes] at hd
    cases hscopes : c.scopes.declare (.function name (params.map Param.name) p) with
    | error existing =>
      rw [hscopes] at hd
      cases hd
    | ok scopes =>
      rw [hscopes] at hd
      have hdeclared := h.declared hscopes
      simp only [List.cons_append, List.mem_cons, List.mem_append, List.mem_map, List.mem_nil_iff,
        or_false] at hd
      rcases hd with rfl | rfl | ⟨ps, -, rfl⟩ | rfl
      · exact h.settles rfl (.declare hscopes)
      · exact hdeclared
      · exact hdeclared.body ps
      · have hparams := declareParams_keeps params
          { c with scopes := scopes.enter, inside := some (name, scopes.depth) }
        have hbody := Stmt.checkAll_keeps (c.body scopes name params) body
        refine hdeclared.settles (hbody.inside.trans hparams.inside) (.block ?_)
        exact (c.body_settles scopes name params).trans (Stmt.checkAll_settles _ body)
  | ifElse condition body otherwise p =>
    obtain rfl := List.mem_singleton.mp hd
    exact h.settles (Stmt.checkAll_keeps c.enter body).inside
      (Stmt.checkAll_settles c.enter body).block
  | declare | assign | call | ifThen | loop | bring | print => cases hd

/-- In every state in which there is a function around, it is in scope. -/
theorem Standing.of_states {p : Program} {c : Checker} (hc : c ∈ p.states) :
    c.Standing ∨ c.inside = none := by
  rw [Program.states, List.mem_append, List.mem_flatMap, List.mem_singleton] at hc
  rcases hc with ⟨q, hq, hc⟩ | rfl
  · have hstanding := Standing.of_points hq
    rw [Point.states, List.mem_cons, List.mem_flatMap] at hc
    rcases hc with rfl | ⟨s, -, hc⟩
    · exact .inl hstanding
    · exact .inl (hstanding.passes s hc)
  · exact .inr p.check_closes.2

/-- Whatever is brought, it is compared with what the function around has brought before, and counts
for that function. -/
theorem bring_found {c : Checker} {name : String} {depth : Nat} {x : Symbol}
    (hin : c.inside = some (name, depth)) (hx : c.scopes.lookupAt depth name = some x)
    (hf : x.isFunction = true) (found : Ty) (p : Position) :
    (c.bring found p).faults =
        faultUnless (x.ty.comparable found) (.inconsistentReturn name x.ty found) p ∧
      (c.bring found p).after.scopes.lookupAt depth name = some (x.bringing [found]) := by
  constructor
  · unfold bring
    rw [hin]
    dsimp only
    rw [hx]
    dsimp only
    split
    · next hunknown => rw [hunknown, Ty.comparable_unknown]; rfl
    · split
      · next hopen => rw [hopen, Ty.unknown_comparable]; rfl
      · rfl
  · have hafter := (c.bring_keeps found p).function hx hf
    rwa [if_pos hin] at hafter

end Checker

/-! ## Programs -/

/-- **Main.** In whatever state the checker is while it checks a program: any statement leaves it in
the same function and lets the scopes settle; as many are open as before, every symbol stays in its
place and what it is, but for a type that was open, and only the innermost scope gains names. And if
the state is in a function, then at the depth recorded for it there is a function of its name, so
that every `Bring` is held against that function and counts for it. -/
theorem states_settle {p : Program} {c : Checker} (hc : c ∈ p.states) :
    (∀ s : Stmt, (Stmt.check c s).after.inside = c.inside ∧
      c.scopes.Settles (Stmt.check c s).after.scopes) ∧
    ∀ name depth, c.inside = some (name, depth) →
      ∃ x, c.scopes.lookupAt depth name = some x ∧ x.name = name ∧ x.isFunction = true ∧
        ∀ found pos, (c.bring found pos).faults =
            faultUnless (x.ty.comparable found) (.inconsistentReturn name x.ty found) pos ∧
          (c.bring found pos).after.scopes.lookupAt depth name = some (x.bringing [found]) := by
  refine ⟨fun s => ⟨(Stmt.check_keeps c s).inside, Stmt.check_settles c s⟩, ?_⟩
  intro name depth hin
  have hstanding : c.Standing := by
    rcases Checker.Standing.of_states hc with h | hnone
    · exact h
    · rw [hnone] at hin
      cases hin
  obtain ⟨x, hx, hf⟩ := hstanding.around hin
  exact ⟨x, hx, Scopes.lookupAt_name hx, hf, Checker.bring_found hin hx hf⟩

/-- It gives a text to the parameter of `f`. -/
def shade : Stmt := .assign "a" (.literal (.string "s") ⟨1, 48⟩ .unknown) none ⟨1, 41⟩

/-- In a branch in `f` stands `g`, whose parameter has its name. -/
def eclipse : Program :=
  ⟨[.define "f" [⟨"a", ⟨1, 13⟩⟩]
      [.ifThen (.var "a" none ⟨1, 24⟩ .unknown)
        [.define "g" [⟨"g", ⟨1, 36⟩⟩]
          [shade, .bring (.var "a" none ⟨1, 58⟩ .unknown) ⟨1, 52⟩] ⟨1, 29⟩] ⟨1, 18⟩] ⟨1, 6⟩],
    ⟨1, 1⟩⟩

/-- At the first statement of `g`. -/
def eclipsed : Checker where
  scopes := ⟨[[{ Symbol.var "g" .unknown ⟨1, 36⟩ with depth := 3 }],
    [{ Symbol.function "g" ["g"] ⟨1, 29⟩ with depth := 2 }],
    [{ Symbol.var "a" .unknown ⟨1, 13⟩ with depth := 1 }],
    [Symbol.function "f" ["a"] ⟨1, 6⟩]]⟩
  declared := ["g", "a"]
  inside := some ("g", 2)

/-- The parameter of `f` gets its type two scopes below, and what is brought counts for the function
`g`, although `g` means its parameter. -/
theorem states_settle_eclipsed :
    eclipsed ∈ eclipse.states ∧ eclipsed.inside = some ("g", 2) ∧
    (∃ x y, eclipsed.scopes.lookupAt 1 "a" = some x ∧
      (Stmt.check eclipsed shade).after.scopes.lookupAt 1 "a" = some y ∧ x.Settles y ∧
      x.ty = .unknown ∧ y.ty = .string) ∧
    ∃ x, eclipsed.scopes.lookupAt 2 "g" = some x ∧ x.isFunction = true ∧
      (eclipsed.bring .string ⟨1, 52⟩).after.scopes.lookupAt 2 "g" =
        some { x with ty := .string } := by
  have hplace : eclipse.states[13]? = some eclipsed := rfl
  have hc := List.mem_of_getElem? hplace
  obtain ⟨hstep, haround⟩ := states_settle hc
  have ha : eclipsed.scopes.lookupAt 1 "a" =
      some { Symbol.var "a" .unknown ⟨1, 13⟩ with depth := 1 } := rfl
  obtain ⟨y, hy, hsettles⟩ := (hstep shade).2.kept ha
  obtain ⟨x, hx, -, hf, hbring⟩ := haround "g" 2 rfl
  have hg : x = { Symbol.function "g" ["g"] ⟨1, 29⟩ with depth := 2 } := by
    cases hx
    rfl
  have hcounts := (hbring .string ⟨1, 52⟩).2
  refine ⟨hc, rfl, ⟨_, y, ha, hy, hsettles, rfl, ?_⟩, x, hx, hf, ?_⟩
  · cases hy
    rfl
  · rw [hcounts, hg]
    rfl

end MeowScript
