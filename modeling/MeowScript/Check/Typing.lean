import MeowScript.Operator
import MeowScript.Ty

/-!
# Types under operators

Which operands an operator takes, and the type of its result. The result of a comparison is known
even where its operands do not go together.

Mirrors `binary_type` and the unary case of `check_expr` (semantic:310-321, 330-354), which decide
on the fault and on the type at once; here `takes` is the one and `resultType` the other.

Results:
* `BinaryOp.takes_unknown_left`, `BinaryOp.takes_unknown_right`: an unknown operand is never wrong.
-/
namespace MeowScript

namespace BinaryOp

/-- A plus sign with a string on either side joins texts (semantic:332-334). -/
def joins (op : BinaryOp) (left right : Ty) : Bool :=
  op == add && (left == .string || right == .string)

/-- Whether the operator may stand between values of these types. -/
def takes (op : BinaryOp) (left right : Ty) : Bool :=
  if op.isArithmetic then
    op.joins left right || left == .unknown || right == .unknown ||
      left.isNumeric && right.isNumeric
  else !op.isComparison || left.comparable right

/-- The type of the result. Comparisons and logical operators give a number, 0 or 1. -/
def resultType (op : BinaryOp) (left right : Ty) : Ty :=
  if op.isArithmetic then
    if op.joins left right then .string
    else if left.isNumeric && right.isNumeric then
      if op == div || left == .float || right == .float then .float else .integer
    else .unknown
  else .integer

@[simp] theorem takes_unknown_left (op : BinaryOp) (t : Ty) : op.takes .unknown t = true := by
  cases op <;> cases t <;> rfl

@[simp] theorem takes_unknown_right (op : BinaryOp) (t : Ty) : op.takes t .unknown = true := by
  cases op <;> cases t <;> rfl

end BinaryOp

namespace UnaryOp

def takes : UnaryOp → Ty → Bool
  | not, _ => true
  | neg, t => t.isNumeric || t == .unknown

def resultType : UnaryOp → Ty → Ty
  | not, _ => .integer
  | neg, t => if t.isNumeric then t else .unknown

end UnaryOp
end MeowScript
