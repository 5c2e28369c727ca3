import Mathlib.Data.List.Basic
import MeowScript.Proofs.Returns.Points
import MeowScript.Proofs.Scoping.Places

/-!
# What becomes of the functions in scope

The checker reaches the function around it by its name and the depth it was declared at. Whatever
is declared meanwhile, every function that was in scope stays in its place; only the type of the
function around can change, and it changes with what is brought in the text that was checked,
outside nested functions.

Results:
* `firstKnown_append`: what is brought first, part by part.
* `Stmt.check_keeps`, `Stmt.checkAll_keeps`: what a statement and a block do to the functions in
  scope.
* `Checker.body_keeps`: what happens up to the first statement of a body.
-/
namespace MeowScript

/-! ## What is brought -/

/-- The first of the types that is known, if one is. -/
def firstKnown : List Ty → Ty
  | [] => .unknown
  | t :: ts => if t = .unknown then firstKnown ts else t

theorem firstKnown_append (ts us : List Ty) :
    firstKnown (ts ++ us) = if firstKnown ts = .unknown then firstKnown us else firstKnown ts := by
  induction ts with
  | nil => rfl
  | cons t ts ih =>
    rw [List.cons_append, firstKnown, firstKnown]
    by_cases ht : t = .unknown
    · rw [if_pos ht, if_pos ht, ih]
    · rw [if_neg ht, if_neg ht, if_neg ht]

theorem firstKnown_singleton (t : Ty) : firstKnown [t] = t := by cases t <;> rfl

theorem firstKnown_firstKnown_cons (ts us : List Ty) :
    firstKnown (firstKnown ts :: us) = firstKnown (ts ++ us) := by
  rw [firstKnown_append, firstKnown]

mutual

/-- The types that a checked statement brings, in the order of the text, outside nested
functions. -/
def Stmt.brought : Stmt → List Ty
  | .bring value _ => [value.ty]
  | .ifThen _ body _ | .loop _ body _ => Stmt.allBrought body
  | .ifElse _ body otherwise _ => Stmt.allBrought body ++ Stmt.allBrought otherwise
  | .declare _ _ _ _ | .assign _ _ _ _ | .define _ _ _ _ | .call _ _ _ | .print _ _ => []

def Stmt.allBrought : List Stmt → List Ty
  | [] => []
  | s :: ss => s.brought ++ Stmt.allBrought ss

end

/-! ## Symbols by depth -/

namespace Scopes

theorem lookupAt_enter {t : Scopes} {depth : Nat} {name : String} {x : Symbol}
    (h : t.lookupAt depth name = some x) : t.enter.lookupAt depth name = some x :=
  (enter_lookupAt t depth name).trans h

/-- The innermost scope can be left without loss for the scopes around it. -/
theorem lookupAt_exit {t : Scopes} {depth : Nat} {name : String}
    (h : depth + 1 < t.stack.length) : t.exit.2.lookupAt depth name = t.lookupAt depth name :=
  (exit_lookupAt t depth name).trans (if_pos h)

/-- Where a symbol can be declared there was none of its name. -/
theorem lookupAt_of_declare {t u : Scopes} {y : Symbol} (h : t.declare y = .ok u) :
    t.lookupAt t.depth y.name = none := by
  cases hx : t.lookupAt t.depth y.name with
  | none => rfl
  | some x =>
    rw [declare_clash hx] at h
    cases h

theorem lookupAt_declare {t u : Scopes} {y : Symbol} (h : t.declare y = .ok u) {depth : Nat}
    {name : String} {x : Symbol} (hx : t.lookupAt depth name = some x) :
    u.lookupAt depth name = some x := by
  have ht : t.stack ≠ [] := List.length_pos_iff.mp (Nat.zero_lt_of_lt (lookupAt_lt hx))
  rw [declare_lookupAt h ht, if_neg ?_, hx]
  rintro ⟨rfl, rfl⟩
  rw [lookupAt_of_declare h] at hx
  cases hx

theorem lookupAt_declare_self {t u : Scopes} {y : Symbol} (h : t.declare y = .ok u)
    (ht : t.stack ≠ []) : u.lookupAt t.depth y.name = some { y with depth := t.depth } := by
  rw [declare_lookupAt h ht, if_pos ⟨rfl, rfl⟩]

theorem lookupAt_retypeAt {t : Scopes} (d : Nat) (n : String) (ty : Ty) {depth : Nat}
    {name : String} {x : Symbol} (hx : t.lookupAt depth name = some x) :
    (t.retypeAt d n ty).lookupAt depth name =
      some (if n = name ∧ d = depth then { x with ty } else x) := by
  rw [retypeAt_lookupAt]
  by_cases hplace : depth = d ∧ name = n
  · obtain ⟨rfl, rfl⟩ := hplace
    rw [if_pos ⟨rfl, rfl⟩, if_pos ⟨rfl, rfl⟩, hx, Option.map_some]
  · rw [if_neg hplace, if_neg fun hsame => hplace ⟨hsame.2.symm, hsame.1.symm⟩, hx]

/-- The type of a variable is set; a function is no variable, also where it has the same name. -/
theorem lookupAt_retype {t : Scopes} {name : String} {y : Symbol} (hy : t.lookup name = some y)
    (hvar : y.isFunction = false) (ty : Ty) {depth : Nat} {other : String} {x : Symbol}
    (hx : t.lookupAt depth other = some x) (hfun : x.isFunction = true) :
    (t.retype name ty).lookupAt depth other = some x := by
  obtain ⟨d, hd, hsame⟩ := retype_eq_retypeAt hy
  rw [hsame, lookupAt_retypeAt d name ty hx, if_neg]
  rintro ⟨rfl, rfl⟩
  rw [hd, Option.some.injEq] at hx
  rw [← hx, hvar] at hfun
  cases hfun

end Scopes

/-! ## Functions in scope -/

/-- The function, when it has brought more. -/
def Symbol.bringing (x : Symbol) (ts : List Ty) : Symbol := { x with ty := firstKnown (x.ty :: ts) }

namespace Symbol

@[simp] theorem bringing_nil (x : Symbol) : x.bringing [] = x := by
  rw [bringing, firstKnown_singleton]

theorem bringing_append (x : Symbol) (ts us : List Ty) :
    (x.bringing ts).bringing us = x.bringing (ts ++ us) := by
  unfold bringing
  rw [firstKnown_firstKnown_cons, List.cons_append]

end Symbol

namespace Checker

/-- From `c` to `c'` the types `ts` have been brought in the function around. All functions are
where they were. -/
structure Keeps (c c' : Checker) (ts : List Ty) : Prop where
  inside : c'.inside = c.inside
  height : c'.scopes.stack.length = c.scopes.stack.length
  function : ∀ {depth : Nat} {name : String} {x : Symbol},
    c.scopes.lookupAt depth name = some x → x.isFunction = true →
      c'.scopes.lookupAt depth name =
        some (if c.inside = some (name, depth) then x.bringing ts else x)

namespace Keeps

variable {c c' c'' : Checker} {ts us : List Ty}

theorem refl (c : Checker) : Keeps c c [] where
  inside := rfl
  height := rfl
  function hx _ := by rw [hx, Symbol.bringing_nil, ite_self]

theorem trans (h : Keeps c c' ts) (h' : Keeps c' c'' us) : Keeps c c'' (ts ++ us) where
  inside := h'.inside.trans h.inside
  height := h'.height.trans h.height
  function {depth name x} hx hf := by
    have hfirst := h.function hx hf
    by_cases hin : c.inside = some (name, depth)
    · rw [if_pos hin] at hfirst ⊢
      rw [h'.function hfirst hf, h.inside, if_pos hin, Symbol.bringing_append]
    · rw [if_neg hin] at hfirst ⊢
      rw [h'.function hfirst hf, h.inside, if_neg hin]

/-- Where no other function is meant, the types do not matter. -/
theorem of_scopes {scopes : Scopes} (hl : scopes.stack.length = c.scopes.stack.length)
    (h : ∀ {depth : Nat} {name : String} {x : Symbol}, c.scopes.lookupAt depth name = some x →
      x.isFunction = true → scopes.lookupAt depth name = some x) (names : List String) :
    Keeps c ⟨scopes, names, c.inside⟩ [] where
  inside := rfl
  height := hl
  function hx hf := by rw [h hx hf, Symbol.bringing_nil, ite_self]

/-- What happens in a block of its own. -/
theorem block (h : Keeps c.enter c' ts) : Keeps c c'.exit ts := by
  have hheight : c'.scopes.stack.length = c.scopes.stack.length + 1 := h.height
  refine ⟨h.inside, ?_, fun {depth name x} hx hf => ?_⟩
  · show c'.scopes.stack.tail.length = c.scopes.stack.length
    rw [List.length_tail]
    omega
  · have hlt := Scopes.lookupAt_lt hx
    show c'.scopes.exit.2.lookupAt depth name = _
    rw [Scopes.lookupAt_exit (by omega)]
    exact h.function (Scopes.lookupAt_enter hx) hf

end Keeps

/-! ## Steps of the checker -/

theorem declareVar_keeps (c : Checker) (name : String) (ty : Ty) (p : Position) :
    Keeps c (c.declareVar name ty p).after [] := by
  unfold declareVar
  dsimp only
  split
  · next scopes hd =>
    exact .of_scopes (Scopes.length_declare hd) (fun hx _ => Scopes.lookupAt_declare hd hx) _
  · exact .refl c

theorem declareParams_keeps (params : List Param) (c : Checker) :
    Keeps c (c.declareParams params).after [] := by
  induction params generalizing c with
  | nil => exact .refl c
  | cons x params ih => exact (c.declareVar_keeps x.name .unknown x.position).trans (ih _)

theorem store_keeps (c : Checker) (name : String) (found : Ty) (p : Position) :
    Keeps c (c.store name found p (c.scopes.lookup name)).after [] := by
  unfold store
  split
  · exact .refl c
  · next s hs =>
    split
    · exact .refl c
    · next hvar =>
      split
      · have hheight : (c.scopes.retype name found).stack.length = c.scopes.stack.length :=
          Scopes.length_retype_go name found c.scopes.stack
        refine .of_scopes hheight (fun hx hf => ?_) _
        exact Scopes.lookupAt_retype hs (Bool.not_eq_true _ ▸ hvar) found hx hf
      · exact .refl c

/-- What is brought counts for the function around, if it has not brought anything known before. -/
theorem bring_keeps (c : Checker) (found : Ty) (p : Position) :
    Keeps c (c.bring found p).after [found] := by
  have hstill : (∀ {depth name x}, c.scopes.lookupAt depth name = some x → x.isFunction = true →
      c.inside = some (name, depth) → x.bringing [found] = x) → Keeps c c [found] := by
    intro h
    refine ⟨rfl, rfl, fun {depth name x} hx hf => ?_⟩
    rw [hx]
    by_cases hin : c.inside = some (name, depth)
    · rw [if_pos hin, h hx hf hin]
    · rw [if_neg hin]
  unfold bring
  split
  · next hin =>
    apply hstill
    intro depth name x hx hf hin'
    rw [hin] at hin'
    cases hin'
  · next n d hin =>
    split
    · next hfound =>
      apply hstill
      intro depth name x hx hf _
      rw [Symbol.bringing, hfound]
      cases x with
      | mk _ ty => cases ty <;> rfl
    · split
      · next hnone =>
        apply hstill
        intro depth name x hx hf hin'
        rw [hin] at hin'
        cases hin'
        rw [hx] at hnone
        cases hnone
      · next s hs =>
        split
        · next hty =>
          -- the type of the function around is still open, and is set
          refine ⟨rfl, Scopes.length_retypeAt_go d n found c.scopes.stack,
            fun {depth name x} hx hf => ?_⟩
          show (c.scopes.retypeAt d n found).lookupAt depth name = _
          rw [Scopes.lookupAt_retypeAt d n found hx, hin]
          by_cases hsame : n = name ∧ d = depth
          · obtain ⟨rfl, rfl⟩ := hsame
            rw [hs, Option.some.injEq] at hx
            subst hx
            rw [if_pos ⟨rfl, rfl⟩, if_pos rfl, Symbol.bringing, hty]
            cases found <;> rfl
          · rw [if_neg hsame, if_neg (by simpa using hsame)]
        · next hty =>
          apply hstill
          intro depth name x hx hf hin'
          rw [hin] at hin'
          cases hin'
          rw [hs, Option.some.injEq] at hx
          subst hx
          rw [Symbol.bringing, firstKnown, if_neg hty]

/-- Up to the first statement of a function's body. The function around is now that function; what
is known of the functions around does not depend on it. -/
theorem body_keeps {c : Checker} {scopes : Scopes} {name : String} {params : List Param}
    {p : Position} (hd : c.scopes.declare (.function name (params.map Param.name) p) = .ok scopes) :
    (c.body scopes name params).inside = some (name, c.scopes.depth) ∧
      (c.body scopes name params).scopes.stack.length = c.scopes.stack.length + 1 ∧
      ∀ {depth : Nat} {n : String} {x : Symbol}, scopes.lookupAt depth n = some x →
        x.isFunction = true → (c.body scopes name params).scopes.lookupAt depth n = some x := by
  have hdepth : scopes.depth = c.scopes.depth := by
    unfold Scopes.depth
    rw [Scopes.length_declare hd]
  have hparams := declareParams_keeps params
    { c with scopes := scopes.enter, inside := some (name, scopes.depth) }
  refine ⟨hdepth ▸ hparams.inside, ?_, fun hx hf => ?_⟩
  · rw [← Scopes.length_declare hd]
    exact hparams.height
  · have hbody := hparams.function (Scopes.lookupAt_enter hx) hf
    rwa [Symbol.bringing_nil, ite_self] at hbody

end Checker

/-! ## Statements -/

/-- A function's definition, if its name is not taken. -/
theorem Stmt.check_define {c : Checker} {scopes : Scopes} {name : String} {params : List Param}
    {p : Position} (hd : c.scopes.declare (.function name (params.map Param.name) p) = .ok scopes)
    (body : List Stmt) :
    Stmt.check c (.define name params body p) =
      let b := Stmt.checkAll (c.body scopes name params) body
      ⟨.define name params b.value p, { b.after.exit with inside := c.inside },
        (({ c with scopes := scopes.enter, inside := some (name, scopes.depth) }).declareParams
          params).faults ++ b.faults⟩ := by
  rw [Stmt.check, hd]
  rfl

open Checker in
/-- A body is left, and the functions around are found as before. What is brought counts for the
function of that body alone. -/
theorem Checker.Keeps.define {c c' : Checker} {scopes : Scopes} {name : String}
    {params : List Param} {p : Position} {ts : List Ty}
    (hd : c.scopes.declare (.function name (params.map Param.name) p) = .ok scopes)
    (h : Keeps (c.body scopes name params) c' ts) :
    Keeps c { c'.exit with inside := c.inside } [] := by
  obtain ⟨hin, hheight, hbody⟩ := body_keeps hd
  have hheight' : c'.scopes.stack.length = c.scopes.stack.length + 1 := h.height.trans hheight
  refine .of_scopes ?_ (fun {depth n x} hx hf => ?_) _
  · show c'.scopes.stack.tail.length = c.scopes.stack.length
    rw [List.length_tail]
    omega
  · have hlt := Scopes.lookupAt_lt hx
    show c'.scopes.exit.2.lookupAt depth n = some x
    rw [Scopes.lookupAt_exit (by omega), h.function (hbody (Scopes.lookupAt_declare hd hx) hf) hf,
      if_neg]
    -- a function that was there before is not the one that was declared now
    intro hsame
    rw [hin, Option.some.injEq, Prod.mk.injEq] at hsame
    obtain ⟨rfl, rfl⟩ := hsame
    have hnone : c.scopes.lookupAt c.scopes.depth name = none := Scopes.lookupAt_of_declare hd
    rw [hnone] at hx
    cases hx

open Checker in
mutual

theorem Stmt.check_keeps (c : Checker) :
    ∀ s : Stmt, Keeps c (Stmt.check c s).after (Stmt.check c s).value.brought
  | .declare name value _ p => c.declareVar_keeps name _ p
  | .assign name value _ p => c.store_keeps name _ p
  | .define name params body p => by
    cases hd : c.scopes.declare (.function name (params.map Param.name) p) with
    | error existing =>
      rw [Stmt.check, hd]
      exact .refl c
    | ok scopes =>
      rw [Stmt.check_define hd]
      exact .define hd (Stmt.checkAll_keeps _ body)
  | .call _ _ _ | .print _ _ => .refl c
  | .ifThen _ body _ | .loop _ body _ => (Stmt.checkAll_keeps c.enter body).block
  | .ifElse _ body otherwise _ =>
    (Stmt.checkAll_keeps c.enter body).block.trans (Stmt.checkAll_keeps _ otherwise).block
  | .bring value p => c.bring_keeps _ p

theorem Stmt.checkAll_keeps (c : Checker) : ∀ ss : List Stmt,
    Keeps c (Stmt.checkAll c ss).after (Stmt.allBrought (Stmt.checkAll c ss).value)
  | [] => .refl c
  | s :: ss => (Stmt.check_keeps c s).trans (Stmt.checkAll_keeps _ ss)

end

end MeowScript
