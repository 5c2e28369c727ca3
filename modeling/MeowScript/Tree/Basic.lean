import MeowScript.Number.Binary64
import MeowScript.Operator
import MeowScript.Text.Position
import MeowScript.Ty

/-!
# Programs as trees

Every node carries a position. An expression also carries what the check writes on it, its type and
the name a variable is stored under; a statement that writes a variable carries that name too. Both
are open (`unknown`, `none`) until the program has been checked. Parentheses leave no node.
-/
namespace MeowScript

inductive Literal where
  | integer (value : Int)
  | float (value : Binary64)
  | string (value : String)
  deriving DecidableEq, Repr

def Literal.ty : Literal → Ty
  | integer _ => .integer
  | float _ => .float
  | string _ => .string

/-- What the check writes on an expression that is no variable: its type, and no storage name. There
is room for such a name on every expression (ast:30-38), and a tree made by hand may have any there;
the check makes it open again. -/
structure Annotation where
  ty : Ty
  storage : Option String
  deriving DecidableEq, Repr

/-- On an expression that has not been checked. -/
abbrev Annotation.unknown : Annotation := ⟨.unknown, none⟩

/-- The type alone. -/
instance : Coe Ty Annotation := ⟨fun ty => ⟨ty, none⟩⟩

/-- Expressions. A binary or unary node stands at its operator, any other at its first token. On a
variable the annotation is written out as its storage name and its type. -/
inductive Expr where
  | literal (value : Literal) (position : Position) (note : Annotation)
  | var (name : String) (storage : Option String) (position : Position) (ty : Ty)
  | binary (op : BinaryOp) (left right : Expr) (position : Position) (note : Annotation)
  | unary (op : UnaryOp) (operand : Expr) (position : Position) (note : Annotation)
  | call (name : String) (args : List Expr) (position : Position) (note : Annotation)
  deriving Repr

namespace Expr

def position : Expr → Position
  | literal _ p _ | var _ _ p _ | binary _ _ _ p _ | unary _ _ p _ | call _ _ p _ => p

def ty : Expr → Ty
  | var _ _ _ t => t
  | literal _ _ n | binary _ _ _ _ n | unary _ _ _ n | call _ _ _ n => n.ty

end Expr

structure Param where
  name : String
  position : Position
  deriving DecidableEq, Repr

/-- Statements, each at its first token. -/
inductive Stmt where
  | declare (name : String) (value : Expr) (storage : Option String) (position : Position)
  | assign (name : String) (value : Expr) (storage : Option String) (position : Position)
  | define (name : String) (params : List Param) (body : List Stmt) (position : Position)
  | call (name : String) (args : List Expr) (position : Position)
  | ifThen (condition : Expr) (body : List Stmt) (position : Position)
  | ifElse (condition : Expr) (body otherwise : List Stmt) (position : Position)
  | loop (condition : Expr) (body : List Stmt) (position : Position)
  | bring (value : Expr) (position : Position)
  | print (value : Expr) (position : Position)
  deriving Repr

def Stmt.position : Stmt → Position
  | declare _ _ _ p | assign _ _ _ p | define _ _ _ p | call _ _ p | ifThen _ _ p
  | ifElse _ _ _ p | loop _ _ p | bring _ p | print _ p => p

structure Program where
  body : List Stmt
  position : Position
  deriving Repr

end MeowScript
