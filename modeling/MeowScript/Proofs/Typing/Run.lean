import Mathlib.Logic.Function.Basic
import MeowScript.Code.Lower

/-!
# Running programs on tagged values

A value is a whole number, a fraction or a text, and which of them it is can be told at run time. An
operator looks at the tags of its operands: it may refuse them, and they tell the tag of its result.
Which number or text it gives, and which values count as true, is left to an `Arithmetic`.

A run goes from one `Snapshot` to the next, statement by statement. What goes wrong is a `Fault`:
a variable that was never written, operands of the wrong kinds, or a call where there are no
functions.

Definitions:
* `BinaryOp.resultTag`: which operands an operator takes at run time.
* `Snapshot.step`, `Reaches`: one step, and any number of them.
-/
namespace MeowScript

/-! ## Values -/

inductive Value where
  | integer (n : Int)
  | float (x : Binary64)
  | string (s : String)

inductive Tag where
  | integer | float | string
  deriving DecidableEq, Repr

def Value.tag : Value → Tag
  | integer _ => .integer
  | float _ => .float
  | string _ => .string

def Tag.isNumber : Tag → Bool
  | integer | float => true
  | string => false

/-- Whether an expression of this type may give a value with this tag: the same, or a whole number
where a fraction is expected. -/
def Tag.fits : Tag → Ty → Bool
  | integer, .integer | integer, .float | float, .float | string, .string => true
  | _, _ => false

inductive Fault where
  | unwritten (name : String)
  | operands (op : BinaryOp) (left right : Tag)
  | operand (op : UnaryOp) (operand : Tag)
  | noFunction (name : String)
  deriving DecidableEq, Repr

/-! ## Operators -/

/-- The numbers and texts that operators give, and the values that count as true. -/
structure Arithmetic where
  integer : BinaryOp → Value → Value → Int
  float : BinaryOp → Value → Value → Binary64
  string : BinaryOp → Value → Value → String
  negInteger : Int → Int
  negFloat : Binary64 → Binary64
  not : Value → Int
  truth : Value → Bool

/-- The tag of what is made of two numbers: whole if both are. -/
def Tag.ofNumbers : Tag → Tag → Option Tag
  | string, _ | _, string => none
  | integer, integer => some integer
  | _, _ => some float

/-- The tag of the result, unless the operator refuses the operands. A plus sign joins texts; other
arithmetic needs numbers, and only whole ones without a division stay whole. Two numbers or two
texts can be compared; logic takes anything. -/
def BinaryOp.resultTag : BinaryOp → Tag → Tag → Option Tag
  | .add, .string, _ | .add, _, .string => some .string
  | .add, a, b | .sub, a, b | .mul, a, b | .mod, a, b => Tag.ofNumbers a b
  | .div, a, b => (Tag.ofNumbers a b).map fun _ => .float
  | .eq, a, b | .ne, a, b | .lt, a, b | .gt, a, b | .le, a, b | .ge, a, b =>
    if a.isNumber = b.isNumber then some .integer else none
  | .and, _, _ | .or, _, _ => some .integer

def BinaryOp.apply (A : Arithmetic) (op : BinaryOp) (a b : Value) : Except Fault Value :=
  match op.resultTag a.tag b.tag with
  | some .integer => .ok (.integer (A.integer op a b))
  | some .float => .ok (.float (A.float op a b))
  | some .string => .ok (.string (A.string op a b))
  | none => .error (.operands op a.tag b.tag)

def UnaryOp.apply (A : Arithmetic) : UnaryOp → Value → Except Fault Value
  | .not, v => .ok (.integer (A.not v))
  | .neg, .integer n => .ok (.integer (A.negInteger n))
  | .neg, .float x => .ok (.float (A.negFloat x))
  | .neg, .string _ => .error (.operand .neg .string)

/-! ## Expressions -/

/-- The values of the variables that were written, by their storage names. -/
abbrev Memory := String → Option Value

def Literal.toValue : Literal → Value
  | integer n => .integer n
  | float x => .float x
  | string s => .string s

/-- The value of an expression, operands from left to right. -/
def Expr.run (A : Arithmetic) (m : Memory) : Expr → Except Fault Value
  | .literal v _ _ => .ok v.toValue
  | .var name storage _ _ =>
    match m (storage.getD name) with
    | some v => .ok v
    | none => .error (.unwritten (storage.getD name))
  | .binary op left right _ _ =>
    (Expr.run A m left).bind fun a => (Expr.run A m right).bind fun b => op.apply A a b
  | .unary op operand _ _ => (Expr.run A m operand).bind fun v => op.apply A v
  | .call name _ _ _ => .error (.noFunction name)

mutual

/-- An expression and all that stand in it. -/
def Expr.nodes : Expr → List Expr
  | .literal v p n => [.literal v p n]
  | .var name storage p t => [.var name storage p t]
  | .binary op left right p n => .binary op left right p n :: (Expr.nodes left ++ Expr.nodes right)
  | .unary op operand p n => .unary op operand p n :: Expr.nodes operand
  | .call name args p n => .call name args p n :: Expr.allNodes args

def Expr.allNodes : List Expr → List Expr
  | [] => []
  | e :: es => Expr.nodes e ++ Expr.allNodes es

end

/-! ## Statements -/

/-- The expressions a statement computes before anything else, with all that stand in them. -/
def Stmt.computes : Stmt → List Expr
  | .declare _ e _ _ | .assign _ e _ _ | .ifThen e _ _ | .ifElse e _ _ _ | .loop e _ _ | .bring e _
  | .print e _ => e.nodes
  | .call _ args _ => Expr.allNodes args
  | .define _ _ _ _ => []

mutual

/-- The expressions in a statement and in those within it. -/
def Stmt.nodes : Stmt → List Expr
  | .declare _ e _ _ | .assign _ e _ _ | .bring e _ | .print e _ => e.nodes
  | .call _ args _ => Expr.allNodes args
  | .define _ _ body _ => Stmt.allNodes body
  | .ifThen e body _ | .loop e body _ => e.nodes ++ Stmt.allNodes body
  | .ifElse e body otherwise _ => e.nodes ++ Stmt.allNodes body ++ Stmt.allNodes otherwise

def Stmt.allNodes : List Stmt → List Expr
  | [] => []
  | s :: ss => Stmt.nodes s ++ Stmt.allNodes ss

/-- Whether no function is defined in a statement. -/
def Stmt.functionFree : Stmt → Bool
  | .declare _ _ _ _ | .assign _ _ _ _ | .bring _ _ | .print _ _ | .call _ _ _ => true
  | .define _ _ _ _ => false
  | .ifThen _ body _ | .loop _ body _ => Stmt.allFunctionFree body
  | .ifElse _ body otherwise _ => Stmt.allFunctionFree body && Stmt.allFunctionFree otherwise

def Stmt.allFunctionFree : List Stmt → Bool
  | [] => true
  | s :: ss => Stmt.functionFree s && Stmt.allFunctionFree ss

end

/-- The statements still to be run, and the memory. -/
structure Snapshot where
  todo : List Stmt
  memory : Memory

def Snapshot.start (p : Program) : Snapshot := ⟨p.body, fun _ => none⟩

/-- Runs a statement with others behind it; of a branch or a loop, the choice where to go on.
Nothing is run behind a `Bring`. -/
def Stmt.step (A : Arithmetic) (m : Memory) (rest : List Stmt) : Stmt → Except Fault Snapshot
  | .declare name e storage _ | .assign name e storage _ =>
    (e.run A m).map fun v => ⟨rest, Function.update m (storage.getD name) (some v)⟩
  | .define _ _ _ _ => .ok ⟨rest, m⟩
  | .call name _ _ => .error (.noFunction name)
  | .ifThen e body _ => (e.run A m).map fun v => ⟨if A.truth v then body ++ rest else rest, m⟩
  | .ifElse e body otherwise _ =>
    (e.run A m).map fun v => ⟨(if A.truth v then body else otherwise) ++ rest, m⟩
  | .loop e body p =>
    (e.run A m).map fun v => ⟨if A.truth v then body ++ .loop e body p :: rest else rest, m⟩
  | .bring e _ => (e.run A m).map fun _ => ⟨[], m⟩
  | .print e _ => (e.run A m).map fun _ => ⟨rest, m⟩

/-- Runs the next statement, if there is one. -/
def Snapshot.step (A : Arithmetic) (m : Snapshot) : Except Fault Snapshot :=
  match m.todo with
  | [] => .ok m
  | s :: rest => s.step A m.memory rest

/-- So many steps lead from one snapshot to the other, each under some arithmetic. -/
inductive Reaches : Nat → Snapshot → Snapshot → Prop where
  | refl {m : Snapshot} : Reaches 0 m m
  | step {n : Nat} {a b c : Snapshot} {A : Arithmetic} :
      Reaches n a b → b.step A = .ok c → Reaches (n + 1) a c

end MeowScript
