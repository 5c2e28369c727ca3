import MeowScript.Text.Position

/-!
# Something at a place in the text
-/
namespace MeowScript

/-- A cause of failure and the position it is reported at. -/
structure Located (α : Type) where
  cause : α
  position : Position
  deriving DecidableEq, Repr

end MeowScript
