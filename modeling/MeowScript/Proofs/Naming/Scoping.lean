import Mathlib.Data.List.Basic
import MeowScript.Tree.Basic

/-!
# Lexical scoping of variables

Which declaration a variable means, by position in the text alone. Declarations of variables, with
parameters, are numbered in the order of the text. A declaration is in force from behind its
initializer to the end of its block, a parameter's in the body of its function; the body of a
function, a branch or a loop is a block of its own. A name means the innermost declaration of it
that is in force.

An `Occurrence` is a place in a checked tree where a variable is declared with `Box`, assigned or
read: the storage name recorded there, and the number of the declaration it means.
-/
namespace MeowScript

structure Occurrence where
  storage : Option String
  declaration : Option Nat
  deriving DecidableEq, Repr

/-- The declarations in force and how many were made. Each scope, the innermost first, lists the
names declared in it, the last first, with the numbers of their declarations. -/
structure Bindings where
  scopes : List (List (String × Nat))
  made : Nat
  deriving Repr

namespace Bindings

def start : Bindings := ⟨[[]], 0⟩

def enter (b : Bindings) : Bindings := { b with scopes := [] :: b.scopes }

def exit (b : Bindings) : Bindings := { b with scopes := b.scopes.tail }

/-- One more declaration, in the innermost scope. -/
def declare (b : Bindings) (name : String) : Bindings :=
  ⟨b.scopes.modifyHead ((name, b.made) :: ·), b.made + 1⟩

/-- The declaration that the name means. -/
def resolve (b : Bindings) (name : String) : Option Nat := b.scopes.findSome? (·.lookup name)

end Bindings

mutual

def Expr.occurrences (b : Bindings) : Expr → List Occurrence
  | .literal _ _ _ => []
  | .var name storage _ _ => [⟨storage, b.resolve name⟩]
  | .binary _ left right _ _ => Expr.occurrences b left ++ Expr.occurrences b right
  | .unary _ operand _ _ => Expr.occurrences b operand
  | .call _ args _ _ => Expr.allOccurrences b args

def Expr.allOccurrences (b : Bindings) : List Expr → List Occurrence
  | [] => []
  | e :: es => Expr.occurrences b e ++ Expr.allOccurrences b es

end

/-- The occurrences in a piece of the program, and the declarations in force behind it. -/
structure Scoped where
  found : List Occurrence
  after : Bindings
  deriving Repr

mutual

def Stmt.occurrences (b : Bindings) : Stmt → Scoped
  | .declare name value storage _ =>
    ⟨Expr.occurrences b value ++ [⟨storage, some b.made⟩], b.declare name⟩
  | .assign name value storage _ => ⟨⟨storage, b.resolve name⟩ :: Expr.occurrences b value, b⟩
  | .define _ params body _ =>
    let inner := params.foldl (fun b x => b.declare x.name) b.enter
    let r := Stmt.allOccurrences inner body
    ⟨r.found, r.after.exit⟩
  | .call _ args _ => ⟨Expr.allOccurrences b args, b⟩
  | .ifThen condition body _ | .loop condition body _ =>
    let r := Stmt.allOccurrences b.enter body
    ⟨Expr.occurrences b condition ++ r.found, r.after.exit⟩
  | .ifElse condition body otherwise _ =>
    let r := Stmt.allOccurrences b.enter body
    let o := Stmt.allOccurrences r.after.exit.enter otherwise
    ⟨Expr.occurrences b condition ++ r.found ++ o.found, o.after.exit⟩
  | .bring value _ | .print value _ => ⟨Expr.occurrences b value, b⟩

def Stmt.allOccurrences (b : Bindings) : List Stmt → Scoped
  | [] => ⟨[], b⟩
  | s :: ss =>
    let r := Stmt.occurrences b s
    let rs := Stmt.allOccurrences r.after ss
    ⟨r.found ++ rs.found, rs.after⟩

end

def Program.occurrences (p : Program) : List Occurrence :=
  (Stmt.allOccurrences .start p.body).found

end MeowScript
