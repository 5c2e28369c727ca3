import MeowScript.Operator
import MeowScript.Ty

/-!
# What can be wrong with the meaning of a program

Mirrors `SemanticErrorKind` (semantic:8-65).
-/
namespace MeowScript

inductive SemanticFault where
  | undeclared (name : String)
  | redeclaration (name : String) (previousLine : Nat)
  | operandTypes (op : BinaryOp) (left right : Ty)
  | unaryOperandType (op : UnaryOp) (operand : Ty)
  | assignmentType (name : String) (expected found : Ty)
  | undefinedFunction (name : String)
  | notAFunction (name : String)
  | functionAsValue (name : String)
  | argumentCount (name : String) (expected found : Nat)
  | returnOutsideFunction
  | assignToFunction (name : String)
  | inconsistentReturn (name : String) (expected found : Ty)
  deriving DecidableEq, Repr

namespace SemanticFault

def code : SemanticFault → String
  | undeclared _ => "undeclared-identifier"
  | redeclaration _ _ => "redeclaration"
  | operandTypes _ _ _ => "operand-types"
  | unaryOperandType _ _ => "unary-operand-type"
  | assignmentType _ _ _ => "assignment-type"
  | undefinedFunction _ => "undefined-function"
  | notAFunction _ => "not-a-function"
  | functionAsValue _ => "function-as-value"
  | argumentCount _ _ _ => "argument-count"
  | returnOutsideFunction => "return-outside-function"
  | assignToFunction _ => "assign-to-function"
  | inconsistentReturn _ _ _ => "inconsistent-return"

def message : SemanticFault → String
  | undeclared name => "undeclared identifier '" ++ name ++ "'"
  | redeclaration name line =>
    "'" ++ name ++ "' is already declared in this scope (line " ++ toString line ++ ")"
  | operandTypes op left right =>
    "cannot apply '" ++ op.symbol ++ "' to " ++ left.text ++ " and " ++ right.text
  | unaryOperandType op operand => "cannot apply unary '" ++ op.symbol ++ "' to " ++ operand.text
  | assignmentType name expected found =>
    "cannot assign " ++ found.text ++ " to '" ++ name ++ "' of type " ++ expected.text
  | undefinedFunction name => "undefined function '" ++ name ++ "'"
  | notAFunction name => "'" ++ name ++ "' is not a function"
  | functionAsValue name => "function '" ++ name ++ "' cannot be used as a value"
  | argumentCount name expected found =>
    "function '" ++ name ++ "' expects " ++ toString expected ++ " argument(s), got " ++
      toString found
  | returnOutsideFunction => "'Bring' outside of a function"
  | assignToFunction name => "cannot assign to function '" ++ name ++ "'"
  | inconsistentReturn name expected found =>
    "function '" ++ name ++ "' brings " ++ found.text ++ " but earlier brought " ++ expected.text

end SemanticFault
end MeowScript
