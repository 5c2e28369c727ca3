import MeowScript.Number.Shortest
import MeowScript.Text.Quoted
import MeowScript.Tree.Basic

/-!
# A tree as indented text

An outline is a list of rows, each with its depth in the tree: a node, then its children one deeper.

Mirrors how a program is displayed (ast:198-311).

Results:
* `text_append`: outlines are written one after the other.
-/
namespace MeowScript

structure Row where
  depth : Nat
  label : String
  deriving DecidableEq, Repr

namespace Row

/-- A row on a line of its own, two spaces deeper for each level. -/
def text (r : Row) : String :=
  String.ofList (List.replicate (2 * r.depth) ' ') ++ r.label ++ "\n"

end Row

namespace Outline

def text (rows : List Row) : String := String.join (rows.map Row.text)

theorem text_append (a b : List Row) : text (a ++ b) = text a ++ text b := by
  rw [← String.toList_inj]; simp [text]

/-- Where a variable is stored, if not under its own name (`StorageNote`, ast:208-219). -/
def storageNote (name : String) : Option String → String
  | none => ""
  | some storage => if storage = name then "" else " as " ++ storage

def typed (label : String) (t : Ty) : String := label ++ " : " ++ t.text

def literal : Literal → String
  | .integer n => "Integer " ++ toString n
  | .float x => "Float " ++ x.text
  | .string s => "String " ++ Text.quoted s

mutual

def expr (depth : Nat) : Expr → List Row
  | .literal v _ note => [⟨depth, typed (literal v) note.ty⟩]
  | .var name storage _ t => [⟨depth, typed ("Identifier " ++ name ++ storageNote name storage) t⟩]
  | .binary op left right _ note =>
    ⟨depth, typed ("BinaryOp " ++ op.symbol) note.ty⟩ ::
      expr (depth + 1) left ++ expr (depth + 1) right
  | .unary op operand _ note =>
    ⟨depth, typed ("UnaryOp " ++ op.symbol) note.ty⟩ :: expr (depth + 1) operand
  | .call name args _ note => ⟨depth, typed ("Call " ++ name) note.ty⟩ :: exprs (depth + 1) args

def exprs (depth : Nat) : List Expr → List Row
  | [] => []
  | e :: es => expr depth e ++ exprs depth es

end

mutual

def stmt (depth : Nat) : Stmt → List Row
  | .declare name value storage _ =>
    ⟨depth, "VarDecl " ++ name ++ storageNote name storage⟩ :: expr (depth + 1) value
  | .assign name value storage _ =>
    ⟨depth, "Assign " ++ name ++ storageNote name storage⟩ :: expr (depth + 1) value
  | .define name params body _ =>
    ⟨depth, "FunctionDef " ++ name ++ "(" ++ ", ".intercalate (params.map Param.name) ++ ")"⟩ ::
      stmts (depth + 1) body
  | .call name args _ => ⟨depth, "CallStmt " ++ name⟩ :: exprs (depth + 1) args
  | .ifThen condition body _ =>
    ⟨depth, "If"⟩ :: expr (depth + 1) condition ++ ⟨depth + 1, "Then"⟩ :: stmts (depth + 2) body
  | .ifElse condition body otherwise _ =>
    ⟨depth, "If"⟩ :: expr (depth + 1) condition ++ ⟨depth + 1, "Then"⟩ :: stmts (depth + 2) body ++
      ⟨depth + 1, "Else"⟩ :: stmts (depth + 2) otherwise
  | .loop condition body _ =>
    ⟨depth, "While"⟩ :: expr (depth + 1) condition ++ ⟨depth + 1, "Body"⟩ :: stmts (depth + 2) body
  | .bring value _ => ⟨depth, "Return"⟩ :: expr (depth + 1) value
  | .print value _ => ⟨depth, "Print"⟩ :: expr (depth + 1) value

def stmts (depth : Nat) : List Stmt → List Row
  | [] => []
  | s :: ss => stmt depth s ++ stmts depth ss

end
end Outline

def Program.outline (p : Program) : String :=
  Outline.text (⟨0, "Program"⟩ :: Outline.stmts 1 p.body)

end MeowScript
