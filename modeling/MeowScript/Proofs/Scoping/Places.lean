import Mathlib.Data.List.Basic
import MeowScript.Scope.Stack

/-!
# Symbols by their places

A symbol has its place in the scopes: the depth of the scope that holds it, counted from the global
scope, and the name that it is found under there. All that an operation does to the scopes can be
said place by place.

Results:
* `enter_lookupAt`, `exit_lookupAt`, `declare_lookupAt`, `retypeAt_lookupAt`: what is at a place
  behind each operation.
* `declare_clash`, `declare_new`: when a name can be declared.
* `Filed`: every symbol knows its place. Each operation keeps it so.
* `Filed.lookup_eq_some_iff`: a name means the innermost symbol of that name.
* `retype_eq_retypeAt`: setting the type of what a name means sets it in one place.
-/
namespace MeowScript

theorem Scope.symbol?_name {s : Scope} {name : String} {x : Symbol}
    (h : s.symbol? name = some x) : x.name = name := by
  simpa using List.find?_some h

namespace Scopes

variable {t u : Scopes} {x y : Symbol} {depth : Nat} {name : String}

/-! ## What is at a place -/

theorem lookupAt_cons (s : Scope) (outer : List Scope) (depth : Nat) (name : String) :
    lookupAt ⟨s :: outer⟩ depth name =
      if outer.length = depth then s.symbol? name else lookupAt ⟨outer⟩ depth name := by
  unfold lookupAt
  rw [List.reverse_cons]
  rcases Nat.lt_trichotomy depth outer.length with hlt | heq | hgt
  · rw [if_neg (by omega), List.getElem?_append_left (by simpa using hlt)]
  · subst heq
    rw [if_pos rfl, List.getElem?_append_right (by simp)]
    simp
  · rw [if_neg (by omega), List.getElem?_eq_none (by simp; omega),
      List.getElem?_eq_none (by simp; omega)]

theorem lookupAt_lt (h : t.lookupAt depth name = some x) : depth < t.stack.length := by
  unfold lookupAt at h
  obtain ⟨s, hs, -⟩ := Option.bind_eq_some_iff.mp h
  have hlt := (List.getElem?_eq_some_iff.mp hs).1
  rwa [List.length_reverse] at hlt

theorem lookupAt_name (h : t.lookupAt depth name = some x) : x.name = name := by
  obtain ⟨s, -, hs⟩ := Option.bind_eq_some_iff.mp h
  exact Scope.symbol?_name hs

/-- Beyond the innermost scope there is nothing. -/
theorem lookupAt_of_le (h : t.stack.length ≤ depth) (name : String) :
    t.lookupAt depth name = none := by
  rw [Option.eq_none_iff_forall_ne_some]
  intro x hx
  have hlt := lookupAt_lt hx
  omega

@[simp] theorem enter_lookupAt (t : Scopes) (depth : Nat) (name : String) :
    t.enter.lookupAt depth name = t.lookupAt depth name := by
  rw [enter, lookupAt_cons]
  split
  · next hd => exact (lookupAt_of_le (by omega) name).symm
  · rfl

theorem exit_lookupAt (t : Scopes) (depth : Nat) (name : String) :
    t.exit.2.lookupAt depth name =
      if depth + 1 < t.stack.length then t.lookupAt depth name else none := by
  obtain ⟨stack⟩ := t
  cases stack with
  | nil => rfl
  | cons s outer =>
    rw [List.length_cons]
    split
    · next h =>
      rw [lookupAt_cons, if_neg (by omega)]
      rfl
    · next h => exact lookupAt_of_le (by simp [exit]; omega) name

theorem length_declare (h : t.declare x = .ok u) : u.stack.length = t.stack.length := by
  rcases declare_ok h with ⟨-, rfl⟩ | ⟨s, outer, he, -, rfl⟩
  · rfl
  · rw [he, List.length_cons, List.length_cons]

theorem declare_lookupAt (h : t.declare x = .ok u) (ht : t.stack ≠ []) (depth : Nat)
    (name : String) : u.lookupAt depth name =
      if depth = t.depth ∧ name = x.name then some { x with depth := t.depth }
      else t.lookupAt depth name := by
  rcases declare_ok h with ⟨he, -⟩ | ⟨s, outer, he, hnone, rfl⟩
  · exact absurd he ht
  · obtain ⟨stack⟩ := t
    cases he
    have hdepth : (Scopes.mk (s :: outer)).depth = outer.length := by simp [Scopes.depth]
    rw [lookupAt_cons, lookupAt_cons, hdepth]
    by_cases hd : outer.length = depth
    · rw [if_pos hd, if_pos hd,
        Scope.symbol?_snoc (x := { x with depth := outer.length }) hnone]
      simp [hd, eq_comm]
    · rw [if_neg hd, if_neg hd, if_neg fun hplace => hd hplace.1.symm]

/-- A name that is taken in the innermost scope gives back its symbol. -/
theorem declare_clash (h : t.lookupAt t.depth x.name = some y) : t.declare x = .error y := by
  obtain ⟨stack⟩ := t
  cases stack with
  | nil => cases h
  | cons s outer =>
    rw [lookupAt_cons, if_pos (by simp [Scopes.depth])] at h
    simp only [declare, h]

/-- Any other name can be declared. -/
theorem declare_new (h : t.lookupAt t.depth x.name = none) : ∃ u, t.declare x = .ok u := by
  obtain ⟨stack⟩ := t
  cases stack with
  | nil => exact ⟨_, rfl⟩
  | cons s outer =>
    rw [lookupAt_cons, if_pos (by simp [Scopes.depth])] at h
    exact ⟨_, by simp only [declare, h]; rfl⟩

/-- Only the symbol in this place has another type. -/
theorem retypeAt_lookupAt (t : Scopes) (d : Nat) (n : String) (ty : Ty) (depth : Nat)
    (name : String) : (t.retypeAt d n ty).lookupAt depth name =
      if depth = d ∧ name = n then (t.lookupAt d n).map fun x => { x with ty }
      else t.lookupAt depth name := by
  have hscope : ∀ s : Scope, (s.retype n ty).symbol? name =
      if name = n then (s.symbol? n).map fun x => { x with ty } else s.symbol? name := by
    intro s
    rw [Scope.symbol?_retype]
    split
    · next hn =>
      subst hn
      exact Option.map_congr fun x hx => if_pos (Scope.symbol?_name hx)
    · next hn =>
      have hkeep : (s.symbol? name).map id = s.symbol? name := Option.map_id'
      refine (Option.map_congr fun x hx => if_neg ?_).trans hkeep
      rintro rfl
      exact hn (Scope.symbol?_name hx).symm
  obtain ⟨stack⟩ := t
  unfold retypeAt
  dsimp only
  induction stack with
  | nil => simp [retypeAt.go, lookupAt]
  | cons s outer ih =>
    rw [retypeAt.go, lookupAt_cons, lookupAt_cons]
    by_cases hd : outer.length = d
    · rw [if_pos hd, lookupAt_cons, if_pos hd]
      by_cases hdepth : outer.length = depth
      · rw [if_pos hdepth, if_pos hdepth, hscope]
        simp [hd, ← hdepth]
      · rw [if_neg hdepth, if_neg hdepth, if_neg fun hplace => hdepth (hd.trans hplace.1.symm)]
    · rw [if_neg hd, lookupAt_cons, length_retypeAt_go, if_neg hd, ih]
      by_cases hdepth : outer.length = depth
      · rw [if_pos hdepth, if_pos hdepth, if_neg fun hplace => hd (hdepth.trans hplace.1)]
      · rw [if_neg hdepth, if_neg hdepth]

/-! ## Symbols that know their places -/

end Scopes

/-- Each symbol of the scope has this depth and is the one that is found under its name. -/
def Scope.Filed (s : Scope) (depth : Nat) : Prop :=
  ∀ x ∈ s, x.depth = depth ∧ s.symbol? x.name = some x

namespace Scope.Filed

variable {s : Scope} {depth : Nat}

theorem snoc (h : s.Filed depth) {x : Symbol} (hx : x.depth = depth)
    (hnone : s.symbol? x.name = none) : Scope.Filed (s ++ [x]) depth := by
  intro y hy
  rw [symbol?_append]
  rcases List.mem_append.mp hy with hy | hy
  · exact ⟨(h y hy).1, by rw [(h y hy).2, Option.some_or]⟩
  · cases List.mem_singleton.mp hy
    exact ⟨hx, by rw [hnone, Option.none_or, symbol?_singleton, if_pos rfl]⟩

theorem retype (h : s.Filed depth) (name : String) (ty : Ty) :
    (s.retype name ty).Filed depth := by
  intro y hy
  obtain ⟨x, hx, rfl⟩ := List.mem_map.mp hy
  have hkeep : (if x.name = name then { x with ty } else x).name = x.name ∧
      (if x.name = name then { x with ty } else x).depth = x.depth := by
    split <;> exact ⟨rfl, rfl⟩
  rw [hkeep.1, hkeep.2, symbol?_retype, (h x hx).2]
  exact ⟨(h x hx).1, rfl⟩

end Scope.Filed

namespace Scopes

/-- Each symbol has the depth of the scope that holds it, and is the one that is found there under
its name. -/
def Filed (t : Scopes) : Prop :=
  ∀ (depth : Nat) (s : Scope), t.stack.reverse[depth]? = some s → s.Filed depth

theorem filed_nil : Filed ⟨[]⟩ := fun _ _ h => by cases h

theorem filed_cons {s : Scope} {outer : List Scope} :
    Filed ⟨s :: outer⟩ ↔ s.Filed outer.length ∧ Filed ⟨outer⟩ := by
  unfold Filed
  simp only [List.reverse_cons]
  constructor
  · intro h
    refine ⟨h _ s (by simp), fun depth s' hs => h depth s' ?_⟩
    rw [List.getElem?_append_left (List.getElem?_eq_some_iff.mp hs).1]
    exact hs
  · rintro ⟨hhead, htail⟩ depth s' hs
    rcases Nat.lt_or_ge depth outer.length with hlt | hge
    · rw [List.getElem?_append_left (by simpa using hlt)] at hs
      exact htail depth s' hs
    · have hlt := (List.getElem?_eq_some_iff.mp hs).1
      obtain rfl : depth = outer.length := by
        simp at hlt
        omega
      rw [List.getElem?_append_right (by simp)] at hs
      simp only [List.length_reverse, Nat.sub_self, List.getElem?_cons_zero,
        Option.some.injEq] at hs
      exact hs ▸ hhead

namespace Filed

variable {t u : Scopes} {x y : Symbol} {depth : Nat} {name : String}

theorem enter (h : t.Filed) : t.enter.Filed := filed_cons.mpr ⟨nofun, h⟩

theorem exit (h : t.Filed) : t.exit.2.Filed := by
  obtain ⟨stack⟩ := t
  cases stack with
  | nil => exact h
  | cons s outer => exact (filed_cons.mp h).2

theorem declare (h : t.Filed) (hu : t.declare x = .ok u) : u.Filed := by
  rcases declare_ok hu with ⟨-, rfl⟩ | ⟨s, outer, he, hnone, rfl⟩
  · exact h
  · obtain ⟨stack⟩ := t
    cases he
    obtain ⟨hhead, htail⟩ := filed_cons.mp h
    exact filed_cons.mpr ⟨hhead.snoc rfl hnone, htail⟩

theorem retype (h : t.Filed) (name : String) (ty : Ty) : (t.retype name ty).Filed := by
  obtain ⟨stack⟩ := t
  unfold Scopes.retype
  induction stack with
  | nil => exact filed_nil
  | cons s outer ih =>
    obtain ⟨hhead, htail⟩ := filed_cons.mp h
    dsimp only [retype.go]
    split
    · exact filed_cons.mpr ⟨hhead.retype name ty, htail⟩
    · exact filed_cons.mpr ⟨by rw [length_retype_go]; exact hhead, ih htail⟩

theorem retypeAt (h : t.Filed) (d : Nat) (name : String) (ty : Ty) :
    (t.retypeAt d name ty).Filed := by
  obtain ⟨stack⟩ := t
  unfold Scopes.retypeAt
  induction stack with
  | nil => exact filed_nil
  | cons s outer ih =>
    obtain ⟨hhead, htail⟩ := filed_cons.mp h
    dsimp only [retypeAt.go]
    split
    · exact filed_cons.mpr ⟨hhead.retype name ty, htail⟩
    · exact filed_cons.mpr ⟨by rw [length_retypeAt_go]; exact hhead, ih htail⟩

end Filed

/-! ## What a name means -/

section
variable {t : Scopes} {x : Symbol} {name : String}

theorem lookup_cons (s : Scope) (outer : List Scope) (name : String) :
    lookup ⟨s :: outer⟩ name = (s.symbol? name).or (lookup ⟨outer⟩ name) := by
  unfold lookup
  rw [List.findSome?_cons]
  cases s.symbol? name <;> rfl

theorem lookup_eq_none_iff : t.lookup name = none ↔ ∀ depth, t.lookupAt depth name = none := by
  obtain ⟨stack⟩ := t
  induction stack with
  | nil => simp [lookup, lookupAt]
  | cons s outer ih =>
    rw [lookup_cons, Option.or_eq_none_iff, ih]
    constructor
    · rintro ⟨hs, houter⟩ depth
      rw [lookupAt_cons]
      split
      · exact hs
      · exact houter depth
    · intro h
      refine ⟨?_, fun depth => ?_⟩
      · have hhead := h outer.length
        rwa [lookupAt_cons, if_pos rfl] at hhead
      · rcases Nat.lt_or_ge depth outer.length with hlt | hge
        · have hplace := h depth
          rwa [lookupAt_cons, if_neg (by omega)] at hplace
        · exact lookupAt_of_le hge name

/-- A name means the symbol of that name in the innermost scope that has one. -/
theorem Filed.lookup_eq_some_iff (h : t.Filed) : t.lookup name = some x ↔
    t.lookupAt x.depth name = some x ∧ ∀ depth, x.depth < depth → t.lookupAt depth name = none := by
  obtain ⟨stack⟩ := t
  induction stack with
  | nil => simp [lookup, lookupAt]
  | cons s outer ih =>
    obtain ⟨hhead, htail⟩ := filed_cons.mp h
    rw [lookup_cons]
    cases hs : s.symbol? name with
    | some y =>
      have hy : y.depth = outer.length := (hhead y (List.mem_of_find?_eq_some hs)).1
      rw [Option.some_or, Option.some.injEq]
      constructor
      · rintro rfl
        refine ⟨by rw [lookupAt_cons, if_pos hy.symm, hs], fun depth hlt => ?_⟩
        exact lookupAt_of_le (by simp; omega) name
      · rintro ⟨hx, hinner⟩
        by_cases hd : outer.length = x.depth
        · rw [lookupAt_cons, if_pos hd, hs] at hx
          exact Option.some.inj hx
        · have hlt := lookupAt_lt hx
          have hnone := hinner outer.length (by simp at hlt; omega)
          rw [lookupAt_cons, if_pos rfl, hs] at hnone
          cases hnone
    | none =>
      rw [Option.none_or, ih htail]
      have hsame : ∀ depth, lookupAt ⟨s :: outer⟩ depth name = lookupAt ⟨outer⟩ depth name := by
        intro depth
        rw [lookupAt_cons]
        split
        · next hd => rw [hs, lookupAt_of_le (by simp [hd]) name]
        · rfl
      simp only [hsame]

/-- Setting the type of what a name means sets it in one place. -/
theorem retype_eq_retypeAt (hx : t.lookup name = some x) :
    ∃ depth, t.lookupAt depth name = some x ∧
      ∀ ty, t.retype name ty = t.retypeAt depth name ty := by
  obtain ⟨stack⟩ := t
  unfold Scopes.retype Scopes.retypeAt
  simp only [Scopes.mk.injEq]
  induction stack with
  | nil => cases hx
  | cons s outer ih =>
    rw [lookup_cons] at hx
    cases hs : s.symbol? name with
    | some y =>
      rw [hs, Option.some_or] at hx
      refine ⟨outer.length, by rw [lookupAt_cons, if_pos rfl, hs, hx], fun ty => ?_⟩
      rw [retype.go, retypeAt.go, hs, Option.isSome_some, if_pos rfl, if_pos rfl]
    | none =>
      rw [hs, Option.none_or] at hx
      obtain ⟨depth, hdepth, hsame⟩ := ih hx
      have hlt : depth < outer.length := lookupAt_lt hdepth
      refine ⟨depth, by rw [lookupAt_cons, if_neg (by omega), hdepth], fun ty => ?_⟩
      rw [retype.go, retypeAt.go, hs, if_neg (by simp), if_neg (by omega), hsame]

/-- The place is the one that the symbol knows. -/
theorem Filed.retype_eq (h : t.Filed) (hx : t.lookup name = some x) (ty : Ty) :
    t.retype name ty = t.retypeAt x.depth name ty := by
  obtain ⟨depth, hdepth, hsame⟩ := retype_eq_retypeAt hx
  obtain ⟨s, hs, hfound⟩ := Option.bind_eq_some_iff.mp hdepth
  rw [(h depth s hs x (List.mem_of_find?_eq_some hfound)).1, hsame]

/-- A name that means nothing is given no type. -/
theorem retype_of_lookup_none (h : t.lookup name = none) (ty : Ty) : t.retype name ty = t := by
  obtain ⟨stack⟩ := t
  unfold retype
  congr 1
  induction stack with
  | nil => rfl
  | cons s outer ih =>
    rw [lookup_cons, Option.or_eq_none_iff] at h
    rw [retype.go, h.1, if_neg (by simp), ih h.2]

end

end Scopes
end MeowScript
