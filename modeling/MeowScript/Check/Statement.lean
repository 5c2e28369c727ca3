import MeowScript.Check.Expression

/-!
# Checking statements

Statements are checked in order, each in the state the one before has left: the scopes, the names
that variables have been declared under so far, and the function whose body is being checked. A
program without faults comes back annotated.

Mirrors `analyze` and `Analyzer` (semantic:67-278).

Results:
* `storageFor_zero`: the first variable of a name is stored under it.
-/
namespace MeowScript

/-- The state of the check (`Analyzer`, semantic:93-100), but for the faults found so far. -/
structure Checker where
  scopes : Scopes
  /-- The names of all variables declared so far, in any scope. -/
  declared : List String
  /-- The name of the function around and the depth it was declared at. -/
  inside : Option (String × Nat)
  deriving Repr

def Checker.start : Checker := ⟨.start, [], none⟩

/-- A result, the state after it, and the faults found. -/
structure Checked (α : Type) where
  value : α
  after : Checker
  faults : Faults

/-- The name that a variable is stored under when `count` of its name were declared before: its
own, or one with a number that no name in a program has (semantic:154-158). -/
def storageFor (name : String) (count : Nat) : String :=
  if count = 0 then name else name ++ "." ++ toString count

@[simp] theorem storageFor_zero (name : String) : storageFor name 0 = name := rfl

namespace Checker

def redeclared (name : String) (p : Position) (existing : Symbol) : Faults :=
  [⟨.redeclaration name existing.position.line, p⟩]

/-- Declares a variable and gives it its storage name (`declare_variable`, semantic:150-165). -/
def declareVar (c : Checker) (name : String) (ty : Ty) (p : Position) :
    Checked (Option String) :=
  let storage := storageFor name (c.declared.count name)
  match c.scopes.declare { Symbol.var name ty p with storage } with
  | .ok scopes => ⟨some storage, { c with scopes, declared := name :: c.declared }, []⟩
  | .error existing => ⟨none, c, redeclared name p existing⟩

/-- Declares parameters, whose types are open (semantic:218-220). -/
def declareParams (c : Checker) : List Param → Checked Unit
  | [] => ⟨(), c, []⟩
  | x :: xs =>
    let r := c.declareVar x.name .unknown x.position
    let rs := r.after.declareParams xs
    ⟨(), rs.after, r.faults ++ rs.faults⟩

/-- What an assignment finds at its target (semantic:181-187). -/
def targetFaults (name : String) (p : Position) : Option Symbol → Faults
  | none => [⟨.undeclared name, p⟩]
  | some s => if s.isFunction then [⟨.assignToFunction name, p⟩] else []

/-- Storing a value of type `found` in the target: it sets a type that is still open, and must fit
one that is not (semantic:190-206). -/
def store (c : Checker) (name : String) (found : Ty) (p : Position) : Option Symbol → Checked Unit
  | none => ⟨(), c, []⟩
  | some s =>
    if s.isFunction then ⟨(), c, []⟩
    else if s.ty = .unknown then ⟨(), { c with scopes := c.scopes.retype name found }, []⟩
    else ⟨(), c, faultUnless (s.ty.accepts found) (.assignmentType name s.ty found) p⟩

/-- Bringing a value of type `found`: the first known type is the function's, the others must go
together with it (semantic:247-271). -/
def bring (c : Checker) (found : Ty) (p : Position) : Checked Unit :=
  match c.inside with
  | none => ⟨(), c, [⟨.returnOutsideFunction, p⟩]⟩
  | some (name, depth) =>
    if found = .unknown then ⟨(), c, []⟩
    else
      match c.scopes.lookupAt depth name with
      | none => ⟨(), c, []⟩
      | some s =>
        if s.ty = .unknown then
          ⟨(), { c with scopes := c.scopes.retypeAt depth name found }, []⟩
        else ⟨(), c, faultUnless (s.ty.comparable found) (.inconsistentReturn name s.ty found) p⟩

def enter (c : Checker) : Checker := { c with scopes := c.scopes.enter }

def exit (c : Checker) : Checker := { c with scopes := c.scopes.exit.2 }

end Checker

mutual

/-- The statement checked in this state (`check_stmt`, semantic:167-278). The body of a function
whose name is taken is left as it is (semantic:211-213). -/
def Stmt.check (c : Checker) : Stmt → Checked Stmt
  | .declare name value _ p =>
    let e := Expr.check c.scopes value
    let d := c.declareVar name e.1.ty p
    ⟨.declare name e.1 d.value p, d.after, e.2 ++ d.faults⟩
  | .assign name value _ p =>
    let target := c.scopes.lookup name
    let storage := (target.filter fun s => !s.isFunction).map Symbol.storage
    let e := Expr.check c.scopes value
    let stored := c.store name e.1.ty p target
    ⟨.assign name e.1 storage p, stored.after,
      Checker.targetFaults name p target ++ e.2 ++ stored.faults⟩
  | .define name params body p =>
    match c.scopes.declare (.function name (params.map Param.name) p) with
    | .error existing => ⟨.define name params body p, c, Checker.redeclared name p existing⟩
    | .ok scopes =>
      let inner : Checker := { c with scopes := scopes.enter, inside := some (name, scopes.depth) }
      let ps := inner.declareParams params
      let b := Stmt.checkAll ps.after body
      ⟨.define name params b.value p, { b.after.exit with inside := c.inside },
        ps.faults ++ b.faults⟩
  | .call name args p =>
    let as := Expr.checkAll c.scopes args
    ⟨.call name as.1 p, c, callFaults name args.length p (c.scopes.lookup name) ++ as.2⟩
  | .ifThen condition body p =>
    let e := Expr.check c.scopes condition
    let b := Stmt.checkAll c.enter body
    ⟨.ifThen e.1 b.value p, b.after.exit, e.2 ++ b.faults⟩
  | .ifElse condition body otherwise p =>
    let e := Expr.check c.scopes condition
    let b := Stmt.checkAll c.enter body
    let o := Stmt.checkAll b.after.exit.enter otherwise
    ⟨.ifElse e.1 b.value o.value p, o.after.exit, e.2 ++ b.faults ++ o.faults⟩
  | .loop condition body p =>
    let e := Expr.check c.scopes condition
    let b := Stmt.checkAll c.enter body
    ⟨.loop e.1 b.value p, b.after.exit, e.2 ++ b.faults⟩
  | .bring value p =>
    let e := Expr.check c.scopes value
    let b := c.bring e.1.ty p
    ⟨.bring e.1 p, b.after, e.2 ++ b.faults⟩
  | .print value p =>
    let e := Expr.check c.scopes value
    ⟨.print e.1 p, c, e.2⟩

def Stmt.checkAll (c : Checker) : List Stmt → Checked (List Stmt)
  | [] => ⟨[], c, []⟩
  | s :: ss =>
    let r := Stmt.check c s
    let rs := Stmt.checkAll r.after ss
    ⟨r.value :: rs.value, rs.after, r.faults ++ rs.faults⟩

end

/-- The annotated program, or every fault found (`analyze`, semantic:67-78). -/
def Program.check (p : Program) : Except Faults Program :=
  let r := Stmt.checkAll .start p.body
  match r.faults with
  | [] => .ok { p with body := r.value }
  | faults => .error faults

end MeowScript
