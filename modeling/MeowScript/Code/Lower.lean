import MeowScript.Code.Instr

/-!
# Lowering a tree to three-address code

Temporaries and labels are numbered from zero in the order in which they are needed, and no number
is used twice. Operands are computed from left to right.

Mirrors `CodeGenerator` (codegen:18-186), which adds to one list of instructions; here each part of
a tree gives its own code and the next numbers.

Results:
* `Stmt.lowerAll_append`: code is made from left to right, each statement going on with the numbers
  the ones before have left.
-/
namespace MeowScript

/-- The code of an expression, where its value is found, and the next free temporary. -/
structure Lowered where
  code : List Instr
  result : Operand
  next : Nat

/-- The name a variable is kept under: what the check has chosen, or its own (`storage_name`,
codegen:18-22). -/
def storedAs (name : String) (storage : Option String) : String := storage.getD name

mutual

/-- The code of an expression, from the temporary `next` on (`gen_expr`, codegen:135-171). -/
def Expr.lower (next : Nat) : Expr → Lowered
  | .literal v _ _ => ⟨[], .constant v, next⟩
  | .var name storage _ _ => ⟨[], .var (storedAs name storage), next⟩
  | .binary op left right _ note =>
    let l := Expr.lower next left
    let r := Expr.lower l.next right
    ⟨l.code ++ r.code ++ [.binary r.next op l.result r.result note.ty], .temp r.next, r.next + 1⟩
  | .unary op operand _ note =>
    let e := Expr.lower next operand
    ⟨e.code ++ [.unary e.next op e.result note.ty], .temp e.next, e.next + 1⟩
  | .call name args _ _ =>
    let as := Expr.lowerArgs next args
    ⟨as.1 ++ [.call as.2 name args.length], .temp as.2, as.2 + 1⟩

/-- Code that gives the arguments as parameters, each after its own code (the loop of `gen_call`,
codegen:174-177). -/
def Expr.lowerArgs (next : Nat) : List Expr → List Instr × Nat
  | [] => ([], next)
  | e :: es =>
    let r := Expr.lower next e
    let rs := Expr.lowerArgs r.next es
    (r.code ++ [.param r.result] ++ rs.1, rs.2)

end

/-- The next free temporary and label (codegen:26-31). -/
structure Counters where
  temp : Nat
  label : Nat
  deriving DecidableEq, Repr

def Counters.start : Counters := ⟨0, 0⟩

mutual

/-- The code of a statement (`gen_stmt`, codegen:69-133). A loop takes its labels before its
condition is computed, a branch after it. -/
def Stmt.lower (c : Counters) : Stmt → List Instr × Counters
  | .declare name value storage _ | .assign name value storage _ =>
    let e := Expr.lower c.temp value
    (e.code ++ [.copy (storedAs name storage) e.result], { c with temp := e.next })
  | .define name _ body _ =>
    let b := Stmt.lowerAll c body
    (.beginFunction name :: b.1 ++ [.endFunction name], b.2)
  | .call name args _ =>
    let as := Expr.lowerArgs c.temp args
    (as.1 ++ [.call as.2 name args.length], { c with temp := as.2 + 1 })
  | .ifThen condition body _ =>
    let e := Expr.lower c.temp condition
    let finish := c.label
    let b := Stmt.lowerAll ⟨e.next, c.label + 1⟩ body
    (e.code ++ [.ifFalse e.result finish] ++ b.1 ++ [.label finish], b.2)
  | .ifElse condition body otherwise _ =>
    let e := Expr.lower c.temp condition
    let other := c.label
    let finish := c.label + 1
    let b := Stmt.lowerAll ⟨e.next, c.label + 2⟩ body
    let o := Stmt.lowerAll b.2 otherwise
    (e.code ++ [.ifFalse e.result other] ++ b.1 ++ [.goto finish, .label other] ++ o.1 ++
      [.label finish], o.2)
  | .loop condition body _ =>
    let again := c.label
    let finish := c.label + 1
    let e := Expr.lower c.temp condition
    let b := Stmt.lowerAll ⟨e.next, c.label + 2⟩ body
    (.label again :: e.code ++ [.ifFalse e.result finish] ++ b.1 ++ [.goto again, .label finish],
      b.2)
  | .bring value _ =>
    let e := Expr.lower c.temp value
    (e.code ++ [.bring e.result], { c with temp := e.next })
  | .print value _ =>
    let e := Expr.lower c.temp value
    (e.code ++ [.print e.result], { c with temp := e.next })

def Stmt.lowerAll (c : Counters) : List Stmt → List Instr × Counters
  | [] => ([], c)
  | s :: ss =>
    let r := Stmt.lower c s
    let rs := Stmt.lowerAll r.2 ss
    (r.1 ++ rs.1, rs.2)

end

theorem Stmt.lowerAll_append (c : Counters) (a b : List Stmt) :
    Stmt.lowerAll c (a ++ b) =
      ((Stmt.lowerAll c a).1 ++ (Stmt.lowerAll (Stmt.lowerAll c a).2 b).1,
        (Stmt.lowerAll (Stmt.lowerAll c a).2 b).2) := by
  induction a generalizing c with
  | nil => simp [Stmt.lowerAll]
  | cons s a ih => simp [Stmt.lowerAll, ih]

/-- The code of a program (`generate`, codegen:5-16). -/
def Program.lower (p : Program) : List Instr := (Stmt.lowerAll .start p.body).1

end MeowScript
