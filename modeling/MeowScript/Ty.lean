/-!
# Types of expressions

`unknown` stands for a type that is not yet known, such as an untyped parameter's, or that an
error has left open. It fits everywhere, so that one mistake is reported once.

Results:
* `accepts_unknown`, `unknown_accepts`: an unknown type is no mismatch on either side.
-/
namespace MeowScript

inductive Ty where
  | integer | float | string | unknown
  deriving DecidableEq, Repr, Inhabited

namespace Ty

def text : Ty → String
  | integer => "Integer"
  | float => "Float"
  | string => "String"
  | unknown => "unknown"

def isNumeric : Ty → Bool
  | integer | float => true
  | string | unknown => false

/-- Whether a variable of type `declared` may hold a value of type `value`: the same type, or a
whole number where a fraction is expected (`assignable`, semantic:80-87). -/
def accepts (declared value : Ty) : Bool :=
  declared == value || declared == unknown || value == unknown ||
    declared == float && value == integer

/-- Whether values of the two types may be compared: both numbers or both strings (`same_family`,
semantic:89-91). -/
def comparable (a b : Ty) : Bool :=
  a == b || a == unknown || b == unknown || a.isNumeric && b.isNumeric

@[simp] theorem accepts_unknown (t : Ty) : t.accepts unknown = true := by cases t <;> rfl

@[simp] theorem unknown_accepts (t : Ty) : unknown.accepts t = true := by cases t <;> rfl

@[simp] theorem comparable_unknown (t : Ty) : t.comparable unknown = true := by cases t <;> rfl

@[simp] theorem unknown_comparable (t : Ty) : unknown.comparable t = true := by cases t <;> rfl

theorem comparable_comm (a b : Ty) : a.comparable b = b.comparable a := by
  cases a <;> cases b <;> rfl

end Ty
end MeowScript
