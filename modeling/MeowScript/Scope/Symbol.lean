import MeowScript.Text.Position
import MeowScript.Ty

/-!
# Symbols

What a name stands for: a variable with its type, or a function with its parameters and the type
of what it brings.

Mirrors `Symbol` and `SymbolKind` (symbols:6-57).
-/
namespace MeowScript

inductive SymbolKind where
  | var
  | function (params : List String)
  deriving DecidableEq, Repr

structure Symbol where
  name : String
  ty : Ty
  depth : Nat
  kind : SymbolKind
  position : Position
  storage : String
  deriving DecidableEq, Repr

namespace Symbol

/-- A variable that is stored under its own name. -/
def var (name : String) (ty : Ty) (position : Position) : Symbol :=
  ⟨name, ty, 0, .var, position, name⟩

/-- A function that has brought nothing yet. -/
def function (name : String) (params : List String) (position : Position) : Symbol :=
  ⟨name, .unknown, 0, .function params, position, name⟩

def isFunction (s : Symbol) : Bool :=
  match s.kind with
  | .function _ => true
  | .var => false

def arity (s : Symbol) : Nat :=
  match s.kind with
  | .function params => params.length
  | .var => 0

end Symbol
end MeowScript
