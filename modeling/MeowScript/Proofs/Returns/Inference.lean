import MeowScript.Compilation
import MeowScript.Proofs.Grammar.Exact
import MeowScript.Proofs.Settling.Steps

/-!
# The type of what a function brings

A function is declared with an open type, and its body is checked with the function in scope. Then
it has the type of what its body brings first, among what is known and stands in no nested function;
and it keeps that type for as long as it is in scope.

Results:
* `Checker.Standing.invariant`: the function around is always in scope.
* `Checker.Fixed.invariant`: a function that is not around keeps its type.
* `return_type_inferred`: the type of every function behind its definition.
-/
namespace MeowScript

namespace Checker

/-- There is a scope, and the function around is in scope. -/
structure Standing (c : Checker) : Prop where
  stack : c.scopes.stack ≠ []
  around : ∀ {name : String} {depth : Nat}, c.inside = some (name, depth) →
    ∃ x, c.scopes.lookupAt depth name = some x ∧ x.isFunction = true

/-- The function that is declared next, as its body finds it. -/
def declaredFunction (c : Checker) (name : String) (params : List Param) (p : Position) : Symbol :=
  { Symbol.function name (params.map Param.name) p with depth := c.scopes.depth }

theorem body_self {c : Checker} (hc : c.scopes.stack ≠ []) {scopes : Scopes} {name : String}
    {params : List Param} {p : Position}
    (hd : c.scopes.declare (.function name (params.map Param.name) p) = .ok scopes) :
    (c.body scopes name params).scopes.lookupAt c.scopes.depth name =
      some (c.declaredFunction name params p) := by
  have hself := Scopes.lookupAt_declare_self hd hc
  exact (body_keeps hd).2.2 hself rfl

theorem Standing.start : Standing .start where
  stack := List.cons_ne_nil _ _
  around := nofun

section
variable {c c' : Checker} {scopes : Scopes} {name : String} {params : List Param} {p : Position}

theorem Standing.settles (h : c.Standing) (hin : c'.inside = c.inside)
    (hs : c.scopes.Settles c'.scopes) : c'.Standing where
  stack := by
    apply List.ne_nil_of_length_pos
    rw [hs.height]
    exact List.length_pos_of_ne_nil h.stack
  around {name depth} hd := by
    obtain ⟨x, hx, hf⟩ := h.around (hin ▸ hd)
    obtain ⟨y, hy, hxy⟩ := hs.kept hx
    exact ⟨y, hy, hxy.isFunction.trans hf⟩

theorem Standing.enter (h : c.Standing) : c.enter.Standing where
  stack := List.cons_ne_nil _ _
  around {name depth} hin := by
    obtain ⟨x, hx, hf⟩ := h.around hin
    exact ⟨x, Scopes.lookupAt_enter hx, hf⟩

/-- A function that has just been declared can be the one around. -/
theorem Standing.declared (h : c.Standing)
    (hd : c.scopes.declare (.function name (params.map Param.name) p) = .ok scopes) :
    Standing { c with scopes, inside := some (name, scopes.depth) } where
  stack := by
    apply List.ne_nil_of_length_pos
    rw [Scopes.length_declare hd]
    exact List.length_pos_of_ne_nil h.stack
  around {n depth} hn := by
    cases hn
    have hself := Scopes.lookupAt_declare_self hd h.stack
    rw [← (Scopes.Settles.declare hd).depth] at hself
    exact ⟨_, hself, rfl⟩

/-- In its body, behind any parameters. -/
theorem Standing.body (h : Standing { c with scopes, inside := some (name, scopes.depth) })
    (params : List Param) : (c.body scopes name params).Standing :=
  h.enter.settles (declareParams_keeps params _).inside (c.body_settles scopes name params)

end

theorem Standing.invariant : Invariant Standing where
  check {c} s h := h.settles (Stmt.check_keeps c s).inside (Stmt.check_settles c s)
  enter := Standing.enter
  body {_ _ _ params _} h hd := (h.declared hd).body params

/-- At every point of a program the function around is in scope. -/
theorem Standing.of_points {p : Program} {q : Point} (hq : q ∈ p.points) : q.state.Standing :=
  Standing.invariant.allPoints .start p.body q hq

/-- The function is in scope and not the one around. -/
structure Fixed (depth : Nat) (name : String) (x : Symbol) (c : Checker) : Prop where
  found : c.scopes.lookupAt depth name = some x
  outside : c.inside ≠ some (name, depth)

/-- Nothing that is brought elsewhere changes it. -/
theorem Fixed.invariant {depth : Nat} {name : String} {x : Symbol} (hx : x.isFunction = true) :
    Invariant (Fixed depth name x) where
  check {c} s h := by
    have hkeeps := Stmt.check_keeps c s
    refine ⟨?_, hkeeps.inside ▸ h.outside⟩
    rw [hkeeps.function h.found hx, if_neg h.outside]
  enter {c} h := ⟨Scopes.lookupAt_enter h.found, h.outside⟩
  body {c scopes n params p} h hd := by
    obtain ⟨hin, -, hbody⟩ := body_keeps hd
    refine ⟨hbody (Scopes.lookupAt_declare hd h.found) hx, fun hsame => ?_⟩
    -- another function can be declared where there is none of its name
    rw [hin, Option.some.injEq, Prod.mk.injEq] at hsame
    obtain ⟨rfl, rfl⟩ := hsame
    have hnone : c.scopes.lookupAt c.scopes.depth n = none := Scopes.lookupAt_of_declare hd
    have hfound := h.found
    rw [hnone] at hfound
    cases hfound

/-- Where a function can be declared, it is not the one around. -/
theorem Standing.outside {c : Checker} (h : c.Standing) {scopes : Scopes} {name : String}
    {params : List Param} {p : Position}
    (hd : c.scopes.declare (.function name (params.map Param.name) p) = .ok scopes) :
    c.inside ≠ some (name, c.scopes.depth) := by
  intro hin
  obtain ⟨x, hx, -⟩ := h.around hin
  have hnone : c.scopes.lookupAt c.scopes.depth name = none := Scopes.lookupAt_of_declare hd
  rw [hnone] at hx
  cases hx

/-- Behind its definition a function has the type of what its body has brought. -/
theorem Standing.define {c : Checker} (h : c.Standing) {scopes : Scopes} {name : String}
    {params : List Param} {p : Position}
    (hd : c.scopes.declare (.function name (params.map Param.name) p) = .ok scopes)
    (body : List Stmt) :
    Fixed c.scopes.depth name ((c.declaredFunction name params p).bringing
        (Stmt.allBrought (Stmt.checkAll (c.body scopes name params) body).value))
      (Stmt.check c (.define name params body p)).after := by
  have hkeeps := Stmt.checkAll_keeps (c.body scopes name params) body
  obtain ⟨hin, hheight, -⟩ := body_keeps hd
  have hbehind := hkeeps.function (body_self h.stack hd) rfl
  rw [if_pos hin] at hbehind
  have hpos := List.length_pos_of_ne_nil h.stack
  have hdepth : c.scopes.depth = c.scopes.stack.length - 1 := rfl
  have hafter := hkeeps.height
  rw [Stmt.check_define hd]
  refine ⟨?_, h.outside hd⟩
  show (Stmt.checkAll (c.body scopes name params) body).after.scopes.exit.2.lookupAt _ _ = _
  rw [Scopes.lookupAt_exit (by omega), hbehind]

end Checker

/-! ## Programs -/

/-- **Main.** Wherever a program defines a function whose name is not taken, the function is in
scope behind its definition, and its type is the first known one of what its body brings outside
nested functions, in the order of the text; it is unknown if there is none. Everywhere in the rest
of the block, where the function is in scope, it still has that type. -/
theorem return_type_inferred {p : Program} {c : Checker} {name : String} {params : List Param}
    {body rest : List Stmt} {pos : Position} {scopes : Scopes}
    (hq : ⟨c, .define name params body pos :: rest⟩ ∈ p.points)
    (hd : c.scopes.declare (.function name (params.map Param.name) pos) = .ok scopes) :
    ∃ checked, (Stmt.check c (.define name params body pos)).value =
        .define name params checked pos ∧
      ∃ x : Symbol, x = { Symbol.function name (params.map Param.name) pos with
          depth := c.scopes.depth, ty := firstKnown (Stmt.allBrought checked) } ∧
        (Stmt.check c (.define name params body pos)).after.scopes.lookupAt c.scopes.depth name =
          some x ∧
        ∀ q ∈ Stmt.allPoints (Stmt.check c (.define name params body pos)).after rest,
          q.state.scopes.lookupAt c.scopes.depth name = some x := by
  have hstanding : c.Standing := Checker.Standing.of_points hq
  have hfixed := hstanding.define hd body
  refine ⟨_, by rw [Stmt.check_define hd], _, rfl, hfixed.found, fun q hq => ?_⟩
  exact ((Checker.Fixed.invariant rfl).allPoints hfixed rest q hq).found

/-- In the body of `f` another `f` is defined, which brings a text and has a parameter `f`. -/
def namesakeText : String :=
  "Wake Hunt f(a) \x7b Bring a Purr (a) \x7b Hunt f(f) \x7b Bring \"no\" \x7d Bring 1 \x7d " ++
    "Bring 2 \x7d Box x paws f(0) Sleep"

def namesakeBody : List Stmt :=
  [.bring (.var "a" none ⟨1, 24⟩ .unknown) ⟨1, 18⟩,
    .ifThen (.var "a" none ⟨1, 32⟩ .unknown)
      [.define "f" [⟨"f", ⟨1, 44⟩⟩]
          [.bring (.literal (.string "no") ⟨1, 55⟩ .unknown) ⟨1, 49⟩] ⟨1, 37⟩,
        .bring (.literal (.integer 1) ⟨1, 68⟩ .unknown) ⟨1, 62⟩] ⟨1, 26⟩,
    .bring (.literal (.integer 2) ⟨1, 78⟩ .unknown) ⟨1, 72⟩]

def namesake : Stmt := .define "f" [⟨"a", ⟨1, 13⟩⟩] namesakeBody ⟨1, 6⟩

def namesakeUse : Stmt :=
  .declare "x" (.call "f" [.literal (.integer 0) ⟨1, 95⟩ .unknown] ⟨1, 93⟩ .unknown) none ⟨1, 82⟩

/-- The outer function has the type of `Bring 1`, behind its definition and behind its use. -/
theorem return_type_inferred_namesake :
    ∃ tokens p scopes x, tokensOf namesakeText = .ok tokens ∧
      Program.ofTokens tokens = .ok p ∧ ⟨.start, [namesake, namesakeUse]⟩ ∈ p.points ∧
      Checker.start.scopes.declare (.function "f" ["a"] ⟨1, 6⟩) = .ok scopes ∧
      Symbol.ty x = .integer ∧
      ∀ q ∈ Stmt.allPoints (Stmt.check .start namesake).after [namesakeUse],
        q.state.scopes.lookupAt 0 "f" = some x := by
  have hread : (tokensOf namesakeText).toOption.bind (fun tokens =>
      (Program.ofTokens tokens).toOption.map Program.body) = some [namesake, namesakeUse] := by
    with_unfolding_all rfl
  obtain ⟨tokens, htokens, htree⟩ := Option.bind_eq_some_iff.mp hread
  obtain ⟨p, hp, hbody⟩ := Option.map_eq_some_iff.mp htree
  have hpoint : ⟨.start, [namesake, namesakeUse]⟩ ∈ p.points := by
    rw [Program.points, hbody, Stmt.allPoints]
    exact List.mem_cons_self
  obtain ⟨_, -, x, -, hfound, hrest⟩ := return_type_inferred hpoint rfl
  have hty : ((Stmt.check .start namesake).after.scopes.lookupAt 0 "f").map Symbol.ty =
      some .integer := by
    decide +kernel
  have hx : (Stmt.check .start namesake).after.scopes.lookupAt 0 "f" = some x := hfound
  rw [hx] at hty
  exact ⟨tokens, p, _, x, toOption_eq_some.mp htokens, toOption_eq_some.mp hp, hpoint, rfl,
    Option.some.inj hty, hrest⟩

end MeowScript
