import MeowScript.Scope.Symbol

/-!
# Nested scopes

A scope is a list of symbols of different names; `Scopes` is a stack of them, the innermost first.
A name means what the innermost scope that knows it says.

Mirrors `Scope` and `SymbolTable` (symbols:59-135); there a scope is a map by name.

Results:
* `Scope.symbol?_snoc`, `Scope.symbol?_retype`: what a changed scope knows.
* `exit_enter`: leaving a scope at once restores the scopes.
* `declare_ok`: what declaring does when it succeeds.
* `lookup_declare_self`: a declared name is found.
* `lookup_declare_of_ne`: declaring a name hides no other.
* `depth_retype`, `depth_retypeAt`: a change of type keeps every scope.
-/
namespace MeowScript

abbrev Scope := List Symbol

namespace Scope

def symbol? (s : Scope) (name : String) : Option Symbol := s.find? fun x => x.name == name

/-- Gives the symbol of this name another type. -/
def retype (s : Scope) (name : String) (ty : Ty) : Scope :=
  s.map fun x => if x.name = name then { x with ty } else x

/-- The symbols of a scope by the order of their names. -/
def sorted (s : Scope) : List Symbol := s.mergeSort fun a b => decide (a.name ≤ b.name)

theorem symbol?_append (s t : Scope) (name : String) :
    symbol? (s ++ t) name = (symbol? s name).or (symbol? t name) := List.find?_append

theorem symbol?_singleton (x : Symbol) (name : String) :
    symbol? [x] name = if x.name = name then some x else none := by
  by_cases h : x.name = name <;> simp [symbol?, h]

theorem symbol?_snoc {s : Scope} {x : Symbol} (hs : s.symbol? x.name = none) (name : String) :
    symbol? (s ++ [x]) name = if x.name = name then some x else s.symbol? name := by
  rw [symbol?_append, symbol?_singleton]
  split
  · next he => rw [← he, hs, Option.none_or]
  · rw [Option.or_none]

theorem symbol?_retype (s : Scope) (name : String) (ty : Ty) (x : String) :
    (s.retype name ty).symbol? x =
      (s.symbol? x).map fun y => if y.name = name then { y with ty } else y := by
  unfold retype symbol?
  rw [List.find?_map]
  congr 2
  funext y
  simp only [Function.comp_apply]
  split <;> rfl

end Scope

structure Scopes where
  stack : List Scope
  deriving Repr

namespace Scopes

/-- The global scope alone. -/
def start : Scopes := ⟨[[]]⟩

/-- The depth of the innermost scope; the global scope has depth 0. -/
def depth (t : Scopes) : Nat := t.stack.length - 1

def enter (t : Scopes) : Scopes := ⟨[] :: t.stack⟩

/-- Leaves the innermost scope and hands it back, if there is one (`exit_scope`, symbols:95-102). -/
def exit (t : Scopes) : Option Scope × Scopes := (t.stack.head?, ⟨t.stack.tail⟩)

/-- Declares in the innermost scope. A name that is taken there gives back its symbol; without any
scope nothing is stored (`declare`, symbols:104-117). -/
def declare (t : Scopes) (symbol : Symbol) : Except Symbol Scopes :=
  match t.stack with
  | [] => .ok t
  | s :: outer =>
    match s.symbol? symbol.name with
    | some existing => .error existing
    | none => .ok ⟨(s ++ [{ symbol with depth := outer.length }]) :: outer⟩

/-- What the name means here (`lookup`, symbols:119-122). -/
def lookup (t : Scopes) (name : String) : Option Symbol := t.stack.findSome? (·.symbol? name)

/-- The symbol of this name in the scope at `depth`, which may be hidden (`get_at_mut`,
symbols:131-134). -/
def lookupAt (t : Scopes) (depth : Nat) (name : String) : Option Symbol :=
  t.stack.reverse[depth]?.bind (·.symbol? name)

/-- Gives the symbol that `name` means another type, as is done through `lookup_mut`
(symbols:124-129). -/
def retype (t : Scopes) (name : String) (ty : Ty) : Scopes := ⟨go t.stack⟩
where
  go : List Scope → List Scope
    | [] => []
    | s :: outer =>
      if (s.symbol? name).isSome then s.retype name ty :: outer else s :: go outer

/-- Gives the symbol of this name in the scope at `depth` another type. -/
def retypeAt (t : Scopes) (depth : Nat) (name : String) (ty : Ty) : Scopes :=
  ⟨go t.stack⟩
where
  go : List Scope → List Scope
    | [] => []
    | s :: outer => if outer.length = depth then s.retype name ty :: outer else s :: go outer

/-! ## What each operation does to the scopes -/

@[simp] theorem exit_enter (t : Scopes) : t.enter.exit = (some [], t) := rfl

/-- What declaring does when it succeeds. -/
theorem declare_ok {t u : Scopes} {x : Symbol} (h : t.declare x = .ok u) :
    (t.stack = [] ∧ u = t) ∨ ∃ s outer, t.stack = s :: outer ∧ s.symbol? x.name = none ∧
      u = ⟨(s ++ [{ x with depth := outer.length }]) :: outer⟩ := by
  unfold declare at h
  split at h
  · next he => cases h; exact .inl ⟨he, rfl⟩
  · next s outer he =>
    split at h
    · cases h
    · next hn => cases h; exact .inr ⟨s, outer, he, hn, rfl⟩

theorem lookup_declare_self {t u : Scopes} {x : Symbol} (h : t.declare x = .ok u)
    (hs : t.stack ≠ []) : u.lookup x.name = some { x with depth := t.depth } := by
  rcases declare_ok h with ⟨he, -⟩ | ⟨s, outer, he, hn, rfl⟩
  · exact absurd he hs
  · have hsnoc := Scope.symbol?_snoc (x := { x with depth := outer.length }) hn x.name
    rw [if_pos rfl] at hsnoc
    simp [lookup, hsnoc, depth, he]

theorem lookup_declare_of_ne {t u : Scopes} {x : Symbol} {name : String}
    (h : t.declare x = .ok u) (hn : name ≠ x.name) : u.lookup name = t.lookup name := by
  rcases declare_ok h with ⟨-, rfl⟩ | ⟨s, outer, he, hs, rfl⟩
  · rfl
  · have hsnoc := Scope.symbol?_snoc (x := { x with depth := outer.length }) hs name
    rw [if_neg (Ne.symm hn)] at hsnoc
    simp only [lookup, he, List.findSome?_cons, hsnoc]

theorem length_retype_go (name : String) (ty : Ty) (ss : List Scope) :
    (retype.go name ty ss).length = ss.length := by
  induction ss with
  | nil => rfl
  | cons s ss ih => rw [retype.go]; split <;> simp [ih]

theorem length_retypeAt_go (depth : Nat) (name : String) (ty : Ty) (ss : List Scope) :
    (retypeAt.go depth name ty ss).length = ss.length := by
  induction ss with
  | nil => rfl
  | cons s ss ih => rw [retypeAt.go]; split <;> simp [ih]

@[simp] theorem depth_retype (t : Scopes) (name : String) (ty : Ty) :
    (t.retype name ty).depth = t.depth := by simp [depth, retype, length_retype_go]

@[simp] theorem depth_retypeAt (t : Scopes) (d : Nat) (name : String) (ty : Ty) :
    (t.retypeAt d name ty).depth = t.depth := by simp [depth, retypeAt, length_retypeAt_go]

end Scopes
end MeowScript
