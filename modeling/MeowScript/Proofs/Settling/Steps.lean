import MeowScript.Proofs.Returns.Functions

/-!
# What a statement may do to the scopes around it

Whatever is checked, the scopes around it only settle. As many are open as before; each symbol is
where it was, and is the same but for its type, which may be set if it was open; the innermost scope
may have gained names, no other has. Faults make no difference: a name that is taken, a `Bring` that
stands in no function or an assignment that does not fit leave the scopes as they are.

Results:
* `Scopes.Settles`: what may become of scopes.
* `Scopes.Settles.block`: a scope that is opened and left again leaves only types behind.
* `Stmt.check_settles`, `Stmt.checkAll_settles`: statements and blocks, in any state.
-/
namespace MeowScript

/-- The symbol may have been given a type if it had none. Nothing else has changed. -/
structure Symbol.Settles (x y : Symbol) : Prop where
  same : y = { x with ty := y.ty }
  known : x.ty ≠ .unknown → y.ty = x.ty

/-- What becomes of the scopes `t` while `u` is reached from them. -/
structure Scopes.Settles (t u : Scopes) : Prop where
  /-- As many scopes are open, so the innermost one has the same depth. -/
  height : u.stack.length = t.stack.length
  /-- Every symbol stays in its place. -/
  kept : ∀ {depth : Nat} {name : String} {x : Symbol}, t.lookupAt depth name = some x →
    ∃ y, u.lookupAt depth name = some y ∧ x.Settles y
  /-- Only the innermost scope gains names. -/
  gained : ∀ {depth : Nat} {name : String}, depth < t.depth →
    t.lookupAt depth name = none → u.lookupAt depth name = none

namespace Symbol.Settles

theorem refl (x : Symbol) : x.Settles x := ⟨rfl, fun _ => rfl⟩

theorem trans {x y z : Symbol} (h : x.Settles y) (h' : y.Settles z) : x.Settles z where
  same := by
    rw [h'.same, h.same]
  known hx := by
    have hy := h.known hx
    rw [h'.known (hy ▸ hx), hy]

theorem of_unknown {x : Symbol} (hx : x.ty = .unknown) (ty : Ty) : x.Settles { x with ty } :=
  ⟨rfl, fun hknown => absurd hx hknown⟩

/-- A function stays one. -/
theorem isFunction {x y : Symbol} (h : x.Settles y) : y.isFunction = x.isFunction := by
  rw [h.same]
  rfl

end Symbol.Settles

/-! ## Operations on scopes -/

namespace Scopes

variable {t u v : Scopes}

theorem Settles.depth (h : t.Settles u) : u.depth = t.depth := by
  rw [Scopes.depth, h.height, Scopes.depth]

namespace Settles

theorem refl (t : Scopes) : t.Settles t where
  height := rfl
  kept {_ _ x} hx := ⟨x, hx, .refl x⟩
  gained _ hnone := hnone

theorem trans (h : t.Settles u) (h' : u.Settles v) : t.Settles v where
  height := h'.height.trans h.height
  kept hx := by
    obtain ⟨y, hy, hxy⟩ := h.kept hx
    obtain ⟨z, hz, hyz⟩ := h'.kept hy
    exact ⟨z, hz, hxy.trans hyz⟩
  gained hlt hnone := h'.gained (h.depth ▸ hlt) (h.gained hlt hnone)

theorem declare {x : Symbol} (h : t.declare x = .ok u) : t.Settles u where
  height := length_declare h
  kept {_ _ y} hy := ⟨y, lookupAt_declare h hy, .refl y⟩
  gained {depth name} hlt hnone := by
    have ht : t.stack ≠ [] := by
      rintro he
      rw [Scopes.depth, he] at hlt
      exact absurd hlt (Nat.not_lt_zero _)
    rw [declare_lookupAt h ht, if_neg fun hplace => Nat.ne_of_lt hlt hplace.1, hnone]

/-- Setting the type of a symbol that has none. -/
theorem retypeAt {d : Nat} {n : String} {s : Symbol} (hs : t.lookupAt d n = some s)
    (hopen : s.ty = .unknown) (ty : Ty) : t.Settles (t.retypeAt d n ty) where
  height := length_retypeAt_go d n ty t.stack
  kept {depth name x} hx := by
    refine ⟨_, lookupAt_retypeAt d n ty hx, ?_⟩
    by_cases hplace : n = name ∧ d = depth
    · obtain ⟨rfl, rfl⟩ := hplace
      rw [hs, Option.some.injEq] at hx
      rw [if_pos ⟨rfl, rfl⟩, ← hx]
      exact .of_unknown hopen ty
    · rw [if_neg hplace]
      exact .refl x
  gained {depth name} _ hnone := by
    rw [retypeAt_lookupAt, if_neg, hnone]
    rintro ⟨rfl, rfl⟩
    rw [hnone] at hs
    cases hs

theorem retype {name : String} {s : Symbol} (hs : t.lookup name = some s)
    (hopen : s.ty = .unknown) (ty : Ty) : t.Settles (t.retype name ty) := by
  obtain ⟨depth, hdepth, hsame⟩ := retype_eq_retypeAt hs
  rw [hsame]
  exact .retypeAt hdepth hopen ty

/-- A scope that is opened and left again takes its names with it. -/
theorem block (h : t.enter.Settles u) : t.Settles u.exit.2 where
  height := by
    have hheight : u.stack.length = t.stack.length + 1 := h.height
    show u.stack.tail.length = t.stack.length
    rw [List.length_tail]
    omega
  kept {depth name x} hx := by
    have hheight : u.stack.length = t.stack.length + 1 := h.height
    have hlt := lookupAt_lt hx
    rw [lookupAt_exit (by omega)]
    exact h.kept (lookupAt_enter hx)
  gained {depth name} hlt hnone := by
    have hinner : depth < t.enter.depth := Nat.lt_of_lt_of_le hlt (Nat.sub_le _ _)
    rw [exit_lookupAt, h.gained hinner (by rw [enter_lookupAt, hnone]), ite_self]

end Settles
end Scopes

/-! ## Steps of the checker -/

namespace Checker

theorem declareVar_settles (c : Checker) (name : String) (ty : Ty) (p : Position) :
    c.scopes.Settles (c.declareVar name ty p).after.scopes := by
  unfold declareVar
  dsimp only
  split
  · next scopes hd => exact .declare hd
  · exact .refl c.scopes

theorem declareParams_settles (params : List Param) (c : Checker) :
    c.scopes.Settles (c.declareParams params).after.scopes := by
  induction params generalizing c with
  | nil => exact .refl c.scopes
  | cons x params ih => exact (c.declareVar_settles x.name .unknown x.position).trans (ih _)

/-- Up to the first statement of a function's body. -/
theorem body_settles (c : Checker) (scopes : Scopes) (name : String) (params : List Param) :
    scopes.enter.Settles (c.body scopes name params).scopes :=
  declareParams_settles params ⟨scopes.enter, c.declared, some (name, scopes.depth)⟩

theorem store_settles (c : Checker) (name : String) (found : Ty) (p : Position) :
    c.scopes.Settles (c.store name found p (c.scopes.lookup name)).after.scopes := by
  unfold store
  split
  · exact .refl c.scopes
  · next s hs =>
    split
    · exact .refl c.scopes
    · split
      · next hopen => exact .retype hs hopen found
      · exact .refl c.scopes

theorem bring_settles (c : Checker) (found : Ty) (p : Position) :
    c.scopes.Settles (c.bring found p).after.scopes := by
  unfold bring
  split
  · exact .refl c.scopes
  · split
    · exact .refl c.scopes
    · split
      · exact .refl c.scopes
      · next s hs =>
        split
        · next hopen => exact .retypeAt hs hopen found
        · exact .refl c.scopes

end Checker

/-! ## Statements -/

open Scopes in
mutual

/-- Whatever the state is, checking a statement lets the scopes settle. -/
theorem Stmt.check_settles (c : Checker) :
    ∀ s : Stmt, c.scopes.Settles (Stmt.check c s).after.scopes
  | .declare name value _ p => c.declareVar_settles name _ p
  | .assign name value _ p => c.store_settles name _ p
  | .define name params body p => by
    cases hd : c.scopes.declare (.function name (params.map Param.name) p) with
    | error existing =>
      rw [Stmt.check, hd]
      exact .refl c.scopes
    | ok scopes =>
      rw [Stmt.check_define hd]
      -- the function is declared around the scope of its parameters and its body
      have hbody : scopes.enter.Settles
          (Stmt.checkAll (c.body scopes name params) body).after.scopes :=
        (c.body_settles scopes name params).trans (Stmt.checkAll_settles _ body)
      exact (Settles.declare hd).trans hbody.block
  | .call _ _ _ | .print _ _ => .refl c.scopes
  | .ifThen _ body _ | .loop _ body _ => (Stmt.checkAll_settles c.enter body).block
  | .ifElse _ body otherwise _ =>
    (Stmt.checkAll_settles c.enter body).block.trans
      (Stmt.checkAll_settles (Stmt.checkAll c.enter body).after.exit.enter otherwise).block
  | .bring value p => c.bring_settles _ p

theorem Stmt.checkAll_settles (c : Checker) :
    ∀ ss : List Stmt, c.scopes.Settles (Stmt.checkAll c ss).after.scopes
  | [] => .refl c.scopes
  | s :: ss => (Stmt.check_settles c s).trans (Stmt.checkAll_settles _ ss)

end

end MeowScript
