import Mathlib.Data.List.Basic
import MeowScript.Code.Lower

/-!
# Lexical scoping of calls

Which function a call means, by position in the text alone. Definitions of functions are numbered in
the order of the text. Functions and variables share their names: a name means the innermost
declaration of it that is in force, and a call means a function only if that declaration is a
definition. A definition is in force from its own body on, to the end of its block.

Code keeps the names of functions only. Its calls stand in the order in which the calls of the
program are evaluated, and each definition begins with a mark.

Results:
* `Stmt.lowerAll_calls`: the calls of code are those of the program, one for one.
* `Stmt.lowerAll_begins`: the marks of code are the definitions of the program, one for one.
-/
namespace MeowScript

/-- The definition of a function: its name and how many parameters it has. -/
structure Definition where
  name : String
  arity : Nat
  deriving DecidableEq, Repr

/-- What a name is declared as. A function is given by the number of its definition. -/
inductive Denotation where
  | var
  | function (number : Nat)
  deriving DecidableEq, Repr

/-- The declarations in force, and the definitions made so far in the order of the text. Each scope,
the innermost first, lists the names declared in it, the last first. -/
structure Environment where
  scopes : List (List (String × Denotation))
  made : List Definition
  deriving Repr

namespace Environment

def start : Environment := ⟨[[]], []⟩

def enter (b : Environment) : Environment := { b with scopes := [] :: b.scopes }

def exit (b : Environment) : Environment := { b with scopes := b.scopes.tail }

/-- One more declaration, in the innermost scope. -/
def declare (b : Environment) (name : String) (d : Denotation) : Environment :=
  { b with scopes := b.scopes.modifyHead ((name, d) :: ·) }

/-- One more definition, in the innermost scope. -/
def define (b : Environment) (name : String) (arity : Nat) : Environment :=
  { b.declare name (.function b.made.length) with made := b.made ++ [⟨name, arity⟩] }

/-- In the body of a function with these parameters. -/
def body (b : Environment) (params : List Param) : Environment :=
  params.foldl (fun b x => b.declare x.name .var) b.enter

/-- What the name means. -/
def denotation (b : Environment) (name : String) : Option Denotation :=
  b.scopes.findSome? (·.lookup name)

/-- The number of the definition that a call of the name means. -/
def callee (b : Environment) (name : String) : Option Nat :=
  match b.denotation name with
  | some (.function k) => some k
  | _ => none

@[simp] theorem body_made (b : Environment) (params : List Param) :
    (b.body params).made = b.made := by
  unfold body
  generalize hb : b.enter = inner
  have hmade : inner.made = b.made := by rw [← hb]; rfl
  rw [← hmade]
  clear hb hmade
  induction params generalizing inner with
  | nil => rfl
  | cons x params ih => exact ih _

end Environment

/-- A call: the name, the number of arguments, and the number of the definition that it means. -/
structure CallSite where
  name : String
  count : Nat
  callee : Option Nat
  deriving DecidableEq, Repr

mutual

/-- The calls of an expression in the order of their evaluation. -/
def Expr.calls (b : Environment) : Expr → List CallSite
  | .literal _ _ _ | .var _ _ _ _ => []
  | .binary _ left right _ _ => Expr.calls b left ++ Expr.calls b right
  | .unary _ operand _ _ => Expr.calls b operand
  | .call name args _ _ => Expr.allCalls b args ++ [⟨name, args.length, b.callee name⟩]

def Expr.allCalls (b : Environment) : List Expr → List CallSite
  | [] => []
  | e :: es => Expr.calls b e ++ Expr.allCalls b es

end

/-- The calls in a piece of the program, and the declarations in force behind it. -/
structure Calling where
  calls : List CallSite
  after : Environment
  deriving Repr

mutual

def Stmt.calls (b : Environment) : Stmt → Calling
  | .declare name value _ _ => ⟨Expr.calls b value, b.declare name .var⟩
  | .assign _ value _ _ | .bring value _ | .print value _ => ⟨Expr.calls b value, b⟩
  | .define name params body _ =>
    let r := Stmt.allCalls ((b.define name params.length).body params) body
    ⟨r.calls, r.after.exit⟩
  | .call name args _ => ⟨Expr.allCalls b args ++ [⟨name, args.length, b.callee name⟩], b⟩
  | .ifThen condition body _ | .loop condition body _ =>
    let r := Stmt.allCalls b.enter body
    ⟨Expr.calls b condition ++ r.calls, r.after.exit⟩
  | .ifElse condition body otherwise _ =>
    let r := Stmt.allCalls b.enter body
    let o := Stmt.allCalls r.after.exit.enter otherwise
    ⟨Expr.calls b condition ++ r.calls ++ o.calls, o.after.exit⟩

def Stmt.allCalls (b : Environment) : List Stmt → Calling
  | [] => ⟨[], b⟩
  | s :: ss =>
    let r := Stmt.calls b s
    let rs := Stmt.allCalls r.after ss
    ⟨r.calls ++ rs.calls, rs.after⟩

end

def Program.calls (p : Program) : List CallSite := (Stmt.allCalls .start p.body).calls

/-- The definitions of a program in the order of the text. -/
def Program.definitions (p : Program) : List Definition := (Stmt.allCalls .start p.body).after.made

/-! ## Calls and marks in code -/

namespace Instr

/-- The name that is called and the number of parameters taken. -/
def called? : Instr → Option (String × Nat)
  | call _ name count => some (name, count)
  | _ => none

/-- The name of the function that begins here. -/
def begins? : Instr → Option String
  | beginFunction name => some name
  | _ => none

end Instr

def callsOf (code : List Instr) : List (String × Nat) := code.filterMap Instr.called?

def beginsOf (code : List Instr) : List String := code.filterMap Instr.begins?

/-- The call as an instruction shows it. -/
def CallSite.shown (x : CallSite) : String × Nat := (x.name, x.count)

@[simp] theorem callsOf_nil : callsOf [] = [] := rfl

@[simp] theorem callsOf_cons (i : Instr) (code : List Instr) :
    callsOf (i :: code) = i.called?.toList ++ callsOf code := by
  rw [callsOf, List.filterMap_cons]
  cases i.called? <;> rfl

@[simp] theorem callsOf_append (a b : List Instr) : callsOf (a ++ b) = callsOf a ++ callsOf b :=
  List.filterMap_append

@[simp] theorem beginsOf_nil : beginsOf [] = [] := rfl

@[simp] theorem beginsOf_cons (i : Instr) (code : List Instr) :
    beginsOf (i :: code) = i.begins?.toList ++ beginsOf code := by
  rw [beginsOf, List.filterMap_cons]
  cases i.begins? <;> rfl

@[simp] theorem beginsOf_append (a b : List Instr) :
    beginsOf (a ++ b) = beginsOf a ++ beginsOf b :=
  List.filterMap_append

mutual

theorem Expr.lower_calls (b : Environment) : ∀ (e : Expr) (next : Nat),
    callsOf (e.lower next).code = (e.calls b).map CallSite.shown
  | .literal _ _ _, _ | .var _ _ _ _, _ => rfl
  | .binary op left right _ note, next => by
    have hleft := Expr.lower_calls b left next
    have hright := Expr.lower_calls b right (left.lower next).next
    simp [Expr.lower, Expr.calls, Instr.called?, hleft, hright]
  | .unary op operand _ note, next => by
    have hoperand := Expr.lower_calls b operand next
    simp [Expr.lower, Expr.calls, Instr.called?, hoperand]
  | .call name args _ _, next => by
    have hargs := Expr.lowerArgs_calls b args next
    simp [Expr.lower, Expr.calls, Instr.called?, CallSite.shown, hargs]

theorem Expr.lowerArgs_calls (b : Environment) : ∀ (es : List Expr) (next : Nat),
    callsOf (Expr.lowerArgs next es).1 = (Expr.allCalls b es).map CallSite.shown
  | [], _ => rfl
  | e :: es, next => by
    have he := Expr.lower_calls b e next
    have hes := Expr.lowerArgs_calls b es (e.lower next).next
    simp [Expr.lowerArgs, Expr.allCalls, Instr.called?, he, hes]

end

mutual

theorem Expr.lower_begins : ∀ (e : Expr) (next : Nat), beginsOf (e.lower next).code = []
  | .literal _ _ _, _ | .var _ _ _ _, _ => rfl
  | .binary op left right _ note, next => by
    simp [Expr.lower, Instr.begins?, Expr.lower_begins left, Expr.lower_begins right]
  | .unary op operand _ note, next => by
    simp [Expr.lower, Instr.begins?, Expr.lower_begins operand]
  | .call name args _ _, next => by
    simp [Expr.lower, Instr.begins?, Expr.lowerArgs_begins args]

theorem Expr.lowerArgs_begins : ∀ (es : List Expr) (next : Nat),
    beginsOf (Expr.lowerArgs next es).1 = []
  | [], _ => rfl
  | e :: es, next => by
    simp [Expr.lowerArgs, Instr.begins?, Expr.lower_begins e, Expr.lowerArgs_begins es]

end

mutual

theorem Stmt.lower_calls : ∀ (s : Stmt) (b : Environment) (c : Counters),
    callsOf (s.lower c).1 = (s.calls b).calls.map CallSite.shown
  | .declare _ value _ _, b, c | .assign _ value _ _, b, c | .bring value _, b, c
  | .print value _, b, c => by
    have hvalue := Expr.lower_calls b value c.temp
    simp [Stmt.lower, Stmt.calls, Instr.called?, hvalue]
  | .define name params body _, b, c => by
    have hbody := Stmt.lowerAll_calls body ((b.define name params.length).body params) c
    simp [Stmt.lower, Stmt.calls, Instr.called?, hbody]
  | .call name args _, b, c => by
    have hargs := Expr.lowerArgs_calls b args c.temp
    simp [Stmt.lower, Stmt.calls, Instr.called?, CallSite.shown, hargs]
  | .ifThen condition body _, b, c => by
    have hcondition := Expr.lower_calls b condition c.temp
    have hbody := Stmt.lowerAll_calls body b.enter ⟨(condition.lower c.temp).next, c.label + 1⟩
    simp [Stmt.lower, Stmt.calls, Instr.called?, hcondition, hbody]
  | .ifElse condition body otherwise _, b, c => by
    have hcondition := Expr.lower_calls b condition c.temp
    have hbody := Stmt.lowerAll_calls body b.enter ⟨(condition.lower c.temp).next, c.label + 2⟩
    have hotherwise := Stmt.lowerAll_calls otherwise
      (Stmt.allCalls b.enter body).after.exit.enter
    simp [Stmt.lower, Stmt.calls, Instr.called?, hcondition, hbody, hotherwise]
  | .loop condition body _, b, c => by
    have hcondition := Expr.lower_calls b condition c.temp
    have hbody := Stmt.lowerAll_calls body b.enter ⟨(condition.lower c.temp).next, c.label + 2⟩
    simp [Stmt.lower, Stmt.calls, Instr.called?, hcondition, hbody]

theorem Stmt.lowerAll_calls : ∀ (ss : List Stmt) (b : Environment) (c : Counters),
    callsOf (Stmt.lowerAll c ss).1 = (Stmt.allCalls b ss).calls.map CallSite.shown
  | [], _, _ => rfl
  | s :: ss, b, c => by
    have hs := Stmt.lower_calls s b c
    have hss := Stmt.lowerAll_calls ss (s.calls b).after (s.lower c).2
    simp [Stmt.lowerAll, Stmt.allCalls, hs, hss]

end

mutual

theorem Stmt.lower_begins : ∀ (s : Stmt) (b : Environment) (c : Counters),
    (s.calls b).after.made.map Definition.name =
      b.made.map Definition.name ++ beginsOf (s.lower c).1
  | .declare _ value _ _, b, c | .assign _ value _ _, b, c | .bring value _, b, c
  | .print value _, b, c => by
    simp [Stmt.lower, Stmt.calls, Environment.declare, Instr.begins?, Expr.lower_begins]
  | .define name params body _, b, c => by
    have hbody := Stmt.lowerAll_begins body ((b.define name params.length).body params) c
    simpa [Stmt.lower, Stmt.calls, Environment.exit, Environment.define, Instr.begins?] using hbody
  | .call name args _, b, c => by
    simp [Stmt.lower, Stmt.calls, Instr.begins?, Expr.lowerArgs_begins]
  | .ifThen condition body _, b, c => by
    have hbody := Stmt.lowerAll_begins body b.enter ⟨(condition.lower c.temp).next, c.label + 1⟩
    simpa [Stmt.lower, Stmt.calls, Environment.exit, Environment.enter, Instr.begins?,
      Expr.lower_begins] using hbody
  | .ifElse condition body otherwise _, b, c => by
    have hbody := Stmt.lowerAll_begins body b.enter ⟨(condition.lower c.temp).next, c.label + 2⟩
    have hotherwise := Stmt.lowerAll_begins otherwise
      (Stmt.allCalls b.enter body).after.exit.enter
      (Stmt.lowerAll ⟨(condition.lower c.temp).next, c.label + 2⟩ body).2
    simp only [Environment.exit, Environment.enter] at hbody hotherwise
    simp [Stmt.lower, Stmt.calls, Environment.exit, Environment.enter, Instr.begins?,
      Expr.lower_begins, hbody, hotherwise]
  | .loop condition body _, b, c => by
    have hbody := Stmt.lowerAll_begins body b.enter ⟨(condition.lower c.temp).next, c.label + 2⟩
    simpa [Stmt.lower, Stmt.calls, Environment.exit, Environment.enter, Instr.begins?,
      Expr.lower_begins] using hbody

theorem Stmt.lowerAll_begins : ∀ (ss : List Stmt) (b : Environment) (c : Counters),
    (Stmt.allCalls b ss).after.made.map Definition.name =
      b.made.map Definition.name ++ beginsOf (Stmt.lowerAll c ss).1
  | [], _, _ => by simp [Stmt.lowerAll, Stmt.allCalls]
  | s :: ss, b, c => by
    have hs := Stmt.lower_begins s b c
    have hss := Stmt.lowerAll_begins ss (s.calls b).after (s.lower c).2
    simp [Stmt.lowerAll, Stmt.allCalls, hs, hss]

end

end MeowScript
