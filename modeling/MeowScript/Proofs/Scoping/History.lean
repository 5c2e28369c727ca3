import Mathlib.Data.Option.Basic
import MeowScript.Proofs.Scoping.Places

/-!
# Scopes after any history

Whatever is done with scopes from the beginning on, and also when all of them have been left, every
symbol knows its place, and each operation does what its name says. A scope that is opened and left
again hands back what was declared in it meanwhile; the scopes around it are as they were, but for
the types that were set in them.

Results:
* `step_lookupAt`: what one step does at a place whose scope stays open.
* `run_lookupAt`: what any number of steps do there.
* `Closes.of_filed`: what a scope hands back and what it leaves behind.
* `stack_of_scopes`: every history.
-/
namespace MeowScript

/-- What can be done with scopes. -/
inductive ScopeStep where
  | enter
  | exit
  | declare (symbol : Symbol)
  | lookup (name : String)
  | retype (name : String) (ty : Ty)
  | retypeAt (depth : Nat) (name : String) (ty : Ty)
  deriving Repr

namespace ScopeStep

/-- How many scopes are open behind the step of those opened since, if `open` were before it; none
is left if the step leaves an earlier one. -/
def opened (count : Nat) : ScopeStep → Option Nat
  | enter => some (count + 1)
  | exit => if count = 0 then none else some (count - 1)
  | declare _ | lookup _ | retype _ _ | retypeAt _ _ _ => some count

def declared? : ScopeStep → Option Symbol
  | declare x => some x
  | enter | exit | lookup _ | retype _ _ | retypeAt _ _ _ => none

end ScopeStep

/-- The steps leave all scopes that they open, and no other. -/
def Matched (steps : List ScopeStep) : Prop := steps.foldlM ScopeStep.opened 0 = some 0

instance (steps : List ScopeStep) : Decidable (Matched steps) :=
  inferInstanceAs (Decidable (steps.foldlM ScopeStep.opened 0 = some 0))

/-- The symbols that steps declare in one scope, in which `count` others are open. -/
def declaredIn : Nat → List ScopeStep → List Symbol
  | _, [] => []
  | count, s :: steps =>
    (if count = 0 then s.declared?.toList else []) ++
      declaredIn ((s.opened count).getD 0) steps

/-- The symbol declared at a place; the first of a name counts. -/
def declaredAt (base depth : Nat) (name : String) (symbols : List Symbol) : Option Symbol :=
  if depth = base then (symbols.find? (·.name == name)).map ({ · with depth := base }) else none

section
variable (base depth : Nat) (name : String)

@[simp] theorem declaredAt_nil : declaredAt base depth name [] = none := by simp [declaredAt]

theorem declaredAt_append (xs ys : List Symbol) : declaredAt base depth name (xs ++ ys) =
    (declaredAt base depth name xs).or (declaredAt base depth name ys) := by
  unfold declaredAt
  split
  · rw [List.find?_append, Option.map_or]
  · rfl

theorem declaredAt_singleton (x : Symbol) : declaredAt base depth name [x] =
    if depth = base ∧ name = x.name then some { x with depth := base } else none := by
  unfold declaredAt
  by_cases hname : x.name = name
  · simp [hname]
  · simp [hname, Ne.symm hname]

end

/-- The symbol, with its type set anew if there is one to set. -/
def Symbol.withType (x : Symbol) (ty : Option Ty) : Symbol := { x with ty := ty.getD x.ty }

@[simp] theorem Symbol.withType_none (x : Symbol) : x.withType none = x := rfl

theorem Symbol.withType_withType (x : Symbol) (ty later : Option Ty) :
    (x.withType ty).withType later = x.withType (later.or ty) := by
  cases later <;> rfl

namespace Scopes

/-- The scopes behind a step. Declaring a name that is taken changes nothing. -/
def step (t : Scopes) : ScopeStep → Scopes
  | .enter => t.enter
  | .exit => t.exit.2
  | .declare x => (t.declare x).toOption.getD t
  | .lookup _ => t
  | .retype name ty => t.retype name ty
  | .retypeAt depth name ty => t.retypeAt depth name ty

def run (t : Scopes) (steps : List ScopeStep) : Scopes := steps.foldl step t

/-- The type that a step sets for the symbol at a place. -/
def typeSet (t : Scopes) (depth : Nat) (name : String) : ScopeStep → Option Ty
  | .retype n ty => if n = name ∧ (t.lookup n).map Symbol.depth = some depth then some ty else none
  | .retypeAt d n ty =>
    if d = depth ∧ n = name ∧ (t.lookupAt d n).isSome = true then some ty else none
  | .enter | .exit | .declare _ | .lookup _ => none

/-- The type that is set last, if one is. -/
def lastType (depth : Nat) (name : String) : Scopes → List ScopeStep → Option Ty
  | _, [] => none
  | t, s :: steps => (lastType depth name (t.step s) steps).or (t.typeSet depth name s)

/-! ## One step -/

theorem step_of_declare {t u : Scopes} {x : Symbol} (h : t.declare x = .ok u) :
    t.step (.declare x) = u := by simp [step, h, Except.toOption]

theorem step_of_clash {t : Scopes} {x y : Symbol} (h : t.declare x = .error y) :
    t.step (.declare x) = t := by simp [step, h, Except.toOption]

theorem Filed.step {t : Scopes} (h : t.Filed) (s : ScopeStep) : (t.step s).Filed := by
  cases s with
  | enter => exact h.enter
  | exit => exact h.exit
  | declare x =>
    cases hu : t.declare x with
    | ok u => rw [step_of_declare hu]; exact h.declare hu
    | error y => rw [step_of_clash hu]; exact h
  | lookup name => exact h
  | retype name ty => exact h.retype name ty
  | retypeAt depth name ty => exact h.retypeAt depth name ty

theorem Filed.run {t : Scopes} (h : t.Filed) (steps : List ScopeStep) : (t.run steps).Filed := by
  induction steps generalizing t with
  | nil => exact h
  | cons s steps ih => exact ih (h.step s)

theorem run_append (t : Scopes) (steps more : List ScopeStep) :
    t.run (steps ++ more) = (t.run steps).run more := List.foldl_append

section
variable {t : Scopes} {base count count' depth : Nat}

theorem step_length {s : ScopeStep} (hlen : t.stack.length = base + 1 + count)
    (hs : s.opened count = some count') : (t.step s).stack.length = base + 1 + count' := by
  cases s with
  | enter =>
    cases hs
    simp [step, enter, hlen]
    omega
  | exit =>
    simp only [ScopeStep.opened] at hs
    split at hs
    · cases hs
    · next hcount =>
      cases hs
      simp [step, exit, hlen]
      omega
  | declare x =>
    cases hs
    cases hu : t.declare x with
    | ok u => rw [step_of_declare hu, length_declare hu, hlen]
    | error y => rw [step_of_clash hu, hlen]
  | lookup name => cases hs; exact hlen
  | retype name ty => cases hs; rw [← hlen]; exact length_retype_go name ty t.stack
  | retypeAt d name ty => cases hs; rw [← hlen]; exact length_retypeAt_go d name ty t.stack

/-- Nothing is given a type where nothing is. -/
theorem typeSet_of_none (ht : t.Filed) {name : String} (h : t.lookupAt depth name = none)
    (s : ScopeStep) : t.typeSet depth name s = none := by
  cases s with
  | retype n ty =>
    refine if_neg ?_
    rintro ⟨rfl, hdepth⟩
    obtain ⟨x, hx, rfl⟩ := Option.map_eq_some_iff.mp hdepth
    rw [(ht.lookup_eq_some_iff.mp hx).1] at h
    cases h
  | retypeAt d n ty =>
    refine if_neg ?_
    rintro ⟨rfl, rfl, hsome⟩
    rw [h] at hsome
    cases hsome
  | enter | exit | declare | lookup => rfl

/-- What a step does at a place whose scope was open before and stays so. -/
theorem step_lookupAt (ht : t.Filed) (hlen : t.stack.length = base + 1 + count) {s : ScopeStep}
    (hs : s.opened count = some count') (hd : depth ≤ base) (name : String) :
    (t.step s).lookupAt depth name =
      ((t.lookupAt depth name).or
        (declaredAt base depth name (if count = 0 then s.declared?.toList else []))).map
          (·.withType (t.typeSet depth name s)) := by
  have hdepth : t.depth = base + count := by
    rw [Scopes.depth, hlen]
    omega
  have hset : ∀ d n ty, (t.retypeAt d n ty).lookupAt depth name =
      (t.lookupAt depth name).map
        (·.withType (t.typeSet depth name (.retypeAt d n ty))) := by
    intro d n ty
    rw [retypeAt_lookupAt, typeSet]
    by_cases hplace : d = depth ∧ n = name
    · obtain ⟨rfl, rfl⟩ := hplace
      cases t.lookupAt d n <;> simp [Symbol.withType]
    · rw [if_neg fun h => hplace ⟨h.1.symm, h.2.symm⟩,
        if_neg fun h => hplace ⟨h.1, h.2.1⟩]
      simp
  cases s with
  | enter => simp [step, typeSet, ScopeStep.declared?]
  | lookup n => simp [step, typeSet, ScopeStep.declared?]
  | exit =>
    have hcount : count ≠ 0 := by
      rintro rfl
      cases hs
    simp [step, typeSet, ScopeStep.declared?, exit_lookupAt]
    omega
  | declare x =>
    have ht' : t.stack ≠ [] := List.length_pos_iff.mp (by omega)
    have hnew : declaredAt base depth name
        (if count = 0 then (ScopeStep.declare x).declared?.toList else []) =
          if depth = t.depth ∧ name = x.name then some { x with depth := t.depth } else none := by
      split
      · next hcount =>
        subst hcount
        rw [hdepth]
        exact declaredAt_singleton base depth name x
      · next hcount => rw [declaredAt_nil, if_neg fun h => by omega]
    rw [hnew]
    simp only [typeSet, Symbol.withType_none, Option.map_id']
    cases hx : t.lookupAt t.depth x.name with
    | some y =>
      rw [step_of_clash (declare_clash hx)]
      split
      · next hplace => rw [hplace.1, hplace.2, hx, Option.some_or]
      · rw [Option.or_none]
    | none =>
      obtain ⟨u, hu⟩ := declare_new hx
      rw [step_of_declare hu, declare_lookupAt hu ht']
      split
      · next hplace => rw [hplace.1, hplace.2, hx, Option.none_or]
      · rw [Option.or_none]
  | retypeAt d n ty => simpa [step, ScopeStep.declared?] using hset d n ty
  | retype n ty =>
    simp only [ScopeStep.declared?, Option.toList_none, ite_self, declaredAt_nil, Option.or_none]
    cases hx : t.lookup n with
    | none =>
      simp [step, typeSet, retype_of_lookup_none hx, hx]
    | some x =>
      have hsame : t.typeSet depth name (.retype n ty) =
          t.typeSet depth name (.retypeAt x.depth n ty) := by
        have hfound := (ht.lookup_eq_some_iff.mp hx).1
        simp [typeSet, hx, hfound, and_comm]
      rw [step, ht.retype_eq hx, hset, hsame]

/-! ## Any number of steps -/

theorem run_length {steps : List ScopeStep} (hlen : t.stack.length = base + 1 + count)
    (hs : steps.foldlM ScopeStep.opened count = some count') :
    (t.run steps).stack.length = base + 1 + count' := by
  induction steps generalizing t count with
  | nil =>
    cases hs
    exact hlen
  | cons s steps ih =>
    rw [List.foldlM_cons] at hs
    obtain ⟨now, hnow, hrest⟩ := Option.bind_eq_some_iff.mp hs
    exact ih (step_length hlen hnow) hrest

/-- What steps do at a place whose scope was open before and stays so. -/
theorem run_lookupAt {steps : List ScopeStep} (ht : t.Filed)
    (hlen : t.stack.length = base + 1 + count)
    (hs : steps.foldlM ScopeStep.opened count = some count') (hd : depth ≤ base) (name : String) :
    (t.run steps).lookupAt depth name =
      ((t.lookupAt depth name).or (declaredAt base depth name (declaredIn count steps))).map
        (·.withType (lastType depth name t steps)) := by
  induction steps generalizing t count with
  | nil => simp [run, declaredIn, lastType]
  | cons s steps ih =>
    rw [List.foldlM_cons] at hs
    obtain ⟨now, hnow, hrest⟩ := Option.bind_eq_some_iff.mp hs
    have hafter := ih (ht.step s) (step_length hlen hnow) hrest
    rw [step_lookupAt ht hlen hnow hd] at hafter
    rw [declaredIn, hnow, Option.getD_some, declaredAt_append, lastType]
    refine Eq.trans hafter ?_
    cases hx : t.lookupAt depth name with
    | some x => simp [Symbol.withType_withType]
    | none =>
      rw [typeSet_of_none ht hx]
      simp [Option.map_or]

/-! ## Leaving a scope -/

/-- If a name has the same symbols in both, types apart, it means the same. -/
theorem lookup_of_places {u : Scopes} (ht : t.Filed) (hu : u.Filed) {name : String}
    {ty : Nat → Option Ty}
    (h : ∀ depth, u.lookupAt depth name = (t.lookupAt depth name).map (·.withType (ty depth))) :
    u.lookup name = (t.lookup name).map fun x => x.withType (ty x.depth) := by
  cases hx : t.lookup name with
  | none =>
    rw [lookup_eq_none_iff] at hx
    rw [Option.map_none, lookup_eq_none_iff]
    intro depth
    rw [h, hx, Option.map_none]
  | some x =>
    obtain ⟨hplace, hinner⟩ := ht.lookup_eq_some_iff.mp hx
    rw [Option.map_some, hu.lookup_eq_some_iff]
    refine ⟨?_, fun depth hlt => ?_⟩
    · show u.lookupAt x.depth name = _
      rw [h, hplace, Option.map_some]
    · rw [h, hinner depth hlt, Option.map_none]

/-- What leaving a scope does that was entered in `t`, when `since` has been done in it and `u` is
reached: it hands back the symbols that were declared in the scope, and leaves the scopes as they
were in `t`, each symbol with the type it was given last. -/
structure Closes (t : Scopes) (since : List ScopeStep) (u : Scopes) : Prop where
  returned : ∃ s, u.exit.1 = some s ∧ s.Filed t.stack.length ∧ ∀ name,
    s.symbol? name = ((declaredIn 0 since).find? (·.name == name)).map fun x =>
      { x with depth := t.stack.length }.withType
        (lastType t.stack.length name t.enter since)
  height : u.exit.2.stack.length = t.stack.length
  places : ∀ depth name, u.exit.2.lookupAt depth name =
    (t.lookupAt depth name).map (·.withType (lastType depth name t.enter since))
  names : ∀ name, u.exit.2.lookup name =
    (t.lookup name).map fun x => x.withType (lastType x.depth name t.enter since)

theorem Closes.of_filed (ht : t.Filed) {since : List ScopeStep} (hs : Matched since) :
    t.Closes since (t.enter.run since) := by
  have hlen : t.enter.stack.length = t.stack.length + 1 + 0 := by simp [enter]
  have hlength := run_length hlen hs
  have hfiled := ht.enter.run since
  have hlookup := fun depth (hd : depth ≤ t.stack.length) name =>
    run_lookupAt ht.enter hlen hs hd name
  generalize hu : t.enter.run since = u at hlength hfiled hlookup
  have hplaces : ∀ depth name, u.exit.2.lookupAt depth name =
      (t.lookupAt depth name).map (·.withType (lastType depth name t.enter since)) := by
    intro depth name
    rw [exit_lookupAt, hlength]
    split
    · rw [hlookup depth (by omega), enter_lookupAt, declaredAt, if_neg (by omega), Option.or_none]
    · rw [lookupAt_of_le (t := t) (by omega), Option.map_none]
  refine ⟨?_, ?_, hplaces, fun name =>
    lookup_of_places ht hfiled.exit fun depth => hplaces depth name⟩
  · obtain ⟨stack⟩ := u
    cases stack with
    | nil => simp at hlength
    | cons s outer =>
      have houter : outer.length = t.stack.length := by simpa using hlength
      refine ⟨s, rfl, houter ▸ (filed_cons.mp hfiled).1, fun name => ?_⟩
      have hown := hlookup t.stack.length (Nat.le_refl _) name
      rw [lookupAt_cons, if_pos houter, enter_lookupAt, lookupAt_of_le (Nat.le_refl _),
        Option.none_or, declaredAt, if_pos rfl, Option.map_map] at hown
      exact hown
  · simp [exit, hlength]

end

/-! ## Every history -/

/-- What each operation does with the scopes `t`. -/
structure IsStack (t : Scopes) : Prop where
  /-- Every symbol that is stored has the depth of its scope and is found there by its name. -/
  filed : t.Filed
  /-- A name means the symbol of that name in the innermost scope that has one. -/
  lookup : ∀ name x, t.lookup name = some x ↔
    t.lookupAt x.depth name = some x ∧ ∀ depth, x.depth < depth → t.lookupAt depth name = none
  lookup_none : ∀ name, t.lookup name = none ↔ ∀ depth, t.lookupAt depth name = none
  /-- This symbol is the one that is given a type by its name. -/
  retype : ∀ name ty, t.retype name ty =
    match t.lookup name with
    | some x => t.retypeAt x.depth name ty
    | none => t
  /-- By its place a symbol is given a type and nothing else is changed. -/
  retypeAt : ∀ d n ty, (t.retypeAt d n ty).stack.length = t.stack.length ∧
    ∀ depth name, (t.retypeAt d n ty).lookupAt depth name =
      if depth = d ∧ name = n then (t.lookupAt d n).map fun x => { x with ty }
      else t.lookupAt depth name
  /-- A name that is taken gives back its symbol, and nothing is changed. -/
  clash : ∀ x y, t.lookupAt t.depth x.name = some y →
    t.declare x = .error y ∧ t.step (.declare x) = t
  /-- Another name is declared, in the innermost scope and nowhere else. -/
  declare : ∀ x, t.stack ≠ [] → t.lookupAt t.depth x.name = none →
    ∃ u, t.declare x = .ok u ∧ t.step (.declare x) = u ∧ u.stack.length = t.stack.length ∧
      ∀ depth name, u.lookupAt depth name =
        if depth = t.depth ∧ name = x.name then some { x with depth := t.depth }
        else t.lookupAt depth name
  /-- Without a scope nothing is stored, and none can be left. -/
  empty : t.stack = [] → (∀ x, t.declare x = .ok t) ∧ t.exit = (none, t)

theorem Filed.isStack {t : Scopes} (h : t.Filed) : t.IsStack where
  filed := h
  lookup name x := h.lookup_eq_some_iff
  lookup_none name := lookup_eq_none_iff
  retype name ty := by
    cases hx : t.lookup name with
    | some x => exact h.retype_eq hx ty
    | none => exact retype_of_lookup_none hx ty
  retypeAt d n ty := ⟨length_retypeAt_go d n ty t.stack, retypeAt_lookupAt t d n ty⟩
  clash x y hy := ⟨declare_clash hy, step_of_clash (declare_clash hy)⟩
  declare x ht hx := by
    obtain ⟨u, hu⟩ := declare_new hx
    exact ⟨u, hu, step_of_declare hu, length_declare hu, declare_lookupAt hu ht⟩
  empty ht := by
    obtain ⟨stack⟩ := t
    cases ht
    exact ⟨fun x => rfl, rfl⟩

/-- **Main.** Whatever steps were taken from the beginning, scopes are a stack. And a scope that was
entered after any steps, when it is left behind steps that leave all scopes they enter and no other,
hands back what was declared in it; all else is as before it was entered, but for the types set
since then. So it is with the global scope, which is entered before the first step. -/
theorem stack_of_scopes (steps : List ScopeStep) :
    (start.run steps).IsStack ∧
    (∀ since, Matched since →
      (start.run steps).Closes since (start.run (steps ++ .enter :: since))) ∧
    ∀ since, Matched since → Closes ⟨[]⟩ since (start.run since) := by
  have hstart : start.Filed := filed_nil.enter
  refine ⟨(hstart.run steps).isStack, fun since hs => ?_, fun since hs => ?_⟩
  · rw [run_append]
    exact Closes.of_filed (hstart.run steps) hs
  · exact Closes.of_filed filed_nil hs

/-- The global scope is left, nothing is stored without a scope, and a new one is entered. -/
def emptied : List ScopeStep :=
  [.declare (.var "y" .integer ⟨1, 1⟩), .exit, .exit, .declare (.var "y" .integer ⟨1, 5⟩), .enter,
    .declare (.var "x" .unknown ⟨2, 1⟩)]

/-- A name is hidden, and the type of the hidden symbol is set from an inner scope. -/
def shadowed : List ScopeStep :=
  [.retype "x" .integer, .declare (.var "x" .unknown ⟨3, 1⟩), .enter, .retypeAt 0 "x" .float,
    .retype "x" .string, .exit, .declare (.var "x" .float ⟨4, 1⟩)]

theorem stack_of_scopes_emptied :
    Matched shadowed ∧
    (∃ s, (start.run (emptied ++ .enter :: shadowed)).exit.1 = some s ∧
      s.symbol? "x" = some { Symbol.var "x" .string ⟨3, 1⟩ with depth := 1 }) ∧
    (start.run (emptied ++ .enter :: shadowed)).exit.2.lookup "x" =
      some (.var "x" .float ⟨2, 1⟩) ∧
    (start.run (emptied ++ .enter :: shadowed)).exit.2.lookup "y" = none := by
  have hmatched : Matched shadowed := by decide
  obtain ⟨hreturned, -, -, hnames⟩ := (stack_of_scopes emptied).2.1 shadowed hmatched
  obtain ⟨s, hs, -, hsymbols⟩ := hreturned
  exact ⟨hmatched, ⟨s, hs, (hsymbols "x").trans (by decide)⟩, (hnames "x").trans (by decide),
    (hnames "y").trans (by decide)⟩

end Scopes
end MeowScript
