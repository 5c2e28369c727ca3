import MeowScript.Tree.Basic

/-!
# Lexical scoping rules

What makes a program lexically well scoped, by the text alone. A scope is the whole program, the
body of a function with its parameters, or a block of a branch or a loop. A declaration is in force
from behind its statement to the end of its scope, that of a function in its own body as well; in
each scope a name is declared once. A name means the innermost declaration of it that is in force:
that must be a variable where it is read or assigned, and a function of as many parameters as there
are arguments where it is called. `Bring` stands in the body of a function.

Types and storage names play no part.
-/
namespace MeowScript

/-- What a name is declared as. -/
inductive Meaning where
  | variable
  | function (arity : Nat)
  deriving DecidableEq, Repr

/-- The declarations in force in one scope, in the order of the text. -/
abbrev Declarations := List (String × Meaning)

def Declarations.names (ds : Declarations) : List String := ds.map Prod.fst

/-- Where a piece of program stands: the declarations in force in its scope and in the scopes around
it, the innermost first, and whether it belongs to the body of a function. -/
structure Surroundings where
  inner : Declarations
  outer : List Declarations
  inFunction : Bool
  deriving Repr

namespace Surroundings

def start : Surroundings := ⟨[], [], false⟩

/-- What the name means here. -/
def meaning (r : Surroundings) (name : String) : Option Meaning :=
  (r.inner :: r.outer).findSome? (·.lookup name)

/-- Behind declarations. -/
def behind (r : Surroundings) (ds : Declarations) : Surroundings :=
  { r with inner := r.inner ++ ds }

/-- In a block. -/
def block (r : Surroundings) : Surroundings := ⟨[], r.inner :: r.outer, r.inFunction⟩

/-- In the body of a function with these parameters. -/
def body (r : Surroundings) (params : Declarations) : Surroundings :=
  ⟨params, r.inner :: r.outer, true⟩

end Surroundings

mutual

def Expr.WellScoped (r : Surroundings) : Expr → Prop
  | .literal _ _ _ => True
  | .var name _ _ _ => r.meaning name = some .variable
  | .binary _ left right _ _ => left.WellScoped r ∧ right.WellScoped r
  | .unary _ operand _ _ => operand.WellScoped r
  | .call name args _ _ =>
    r.meaning name = some (.function args.length) ∧ Expr.AllWellScoped r args

def Expr.AllWellScoped (r : Surroundings) : List Expr → Prop
  | [] => True
  | e :: es => e.WellScoped r ∧ Expr.AllWellScoped r es

end

/-- Parameters are declared as variables. -/
def Param.declarations (params : List Param) : Declarations :=
  params.map fun x => (x.name, .variable)

/-- What a statement declares in the scope it stands in. -/
def Stmt.declarations : Stmt → Declarations
  | .declare name _ _ _ => [(name, .variable)]
  | .define name params _ _ => [(name, .function params.length)]
  | _ => []

def Stmt.allDeclarations (ss : List Stmt) : Declarations := ss.flatMap Stmt.declarations

mutual

def Stmt.WellScoped (r : Surroundings) : Stmt → Prop
  | .declare _ value _ _ => value.WellScoped r
  | .assign name value _ _ => r.meaning name = some .variable ∧ value.WellScoped r
  | .define name params body _ =>
    (Param.declarations params ++ Stmt.allDeclarations body).names.Nodup ∧
      Stmt.AllWellScoped
        ((r.behind [(name, .function params.length)]).body (Param.declarations params)) body
  | .call name args _ =>
    r.meaning name = some (.function args.length) ∧ Expr.AllWellScoped r args
  | .ifThen condition body _ | .loop condition body _ =>
    condition.WellScoped r ∧ (Stmt.allDeclarations body).names.Nodup ∧
      Stmt.AllWellScoped r.block body
  | .ifElse condition body otherwise _ =>
    condition.WellScoped r ∧
      ((Stmt.allDeclarations body).names.Nodup ∧ Stmt.AllWellScoped r.block body) ∧
      (Stmt.allDeclarations otherwise).names.Nodup ∧ Stmt.AllWellScoped r.block otherwise
  | .bring value _ => value.WellScoped r ∧ r.inFunction = true
  | .print value _ => value.WellScoped r

/-- Each statement stands behind the declarations of those before it. -/
def Stmt.AllWellScoped (r : Surroundings) : List Stmt → Prop
  | [] => True
  | s :: ss => s.WellScoped r ∧ Stmt.AllWellScoped (r.behind s.declarations) ss

end

/-- The program is lexically well scoped. -/
def Program.WellScoped (p : Program) : Prop :=
  (Stmt.allDeclarations p.body).names.Nodup ∧ Stmt.AllWellScoped .start p.body

end MeowScript
