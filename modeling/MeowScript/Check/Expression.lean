import MeowScript.Check.Fault
import MeowScript.Check.Typing
import MeowScript.Located
import MeowScript.Scope.Stack
import MeowScript.Tree.Basic

/-!
# Checking expressions

An expression is checked in the scopes around it, which it only reads: it comes back with its types
and storage names, and with the faults found from left to right. What it was annotated with before
does not matter.

Mirrors `check_expr` and `check_call` (semantic:280-328, 356-385).

Results:
* `Expr.checkAll_length`: arguments keep their number.
-/
namespace MeowScript

abbrev Faults := List (Located SemanticFault)

/-- One fault at `p` unless the condition holds. -/
def faultUnless (ok : Bool) (f : SemanticFault) (p : Position) : Faults :=
  if ok then [] else [⟨f, p⟩]

/-- What is wrong with calling `name` with `count` arguments, before the arguments are looked at
(semantic:362-374). -/
def callFaults (name : String) (count : Nat) (p : Position) : Option Symbol → Faults
  | none => [⟨.undefinedFunction name, p⟩]
  | some s =>
    if s.isFunction then faultUnless (s.arity == count) (.argumentCount name s.arity count) p
    else [⟨.notAFunction name, p⟩]

/-- The type of a call: what the function brings (semantic:381-384). -/
def callType : Option Symbol → Ty
  | none => .unknown
  | some s => if s.isFunction then s.ty else .unknown

mutual

/-- The expression with its annotation written anew, and its faults (`check_expr`,
semantic:280-328). -/
def Expr.check (t : Scopes) : Expr → Expr × Faults
  | .literal v p _ => (.literal v p v.ty, [])
  | .var name _ p _ =>
    match t.lookup name with
    | none => (.var name none p .unknown, [⟨.undeclared name, p⟩])
    | some s =>
      if s.isFunction then (.var name none p .unknown, [⟨.functionAsValue name, p⟩])
      else (.var name (some s.storage) p s.ty, [])
  | .binary op left right p _ =>
    let l := Expr.check t left
    let r := Expr.check t right
    (.binary op l.1 r.1 p (op.resultType l.1.ty r.1.ty),
      l.2 ++ r.2 ++
        faultUnless (op.takes l.1.ty r.1.ty) (.operandTypes op l.1.ty r.1.ty) p)
  | .unary op operand p _ =>
    let e := Expr.check t operand
    (.unary op e.1 p (op.resultType e.1.ty),
      e.2 ++ faultUnless (op.takes e.1.ty) (.unaryOperandType op e.1.ty) p)
  | .call name args p _ =>
    let callee := t.lookup name
    let as := Expr.checkAll t args
    (.call name as.1 p (callType callee), callFaults name args.length p callee ++ as.2)

def Expr.checkAll (t : Scopes) : List Expr → List Expr × Faults
  | [] => ([], [])
  | e :: es =>
    let r := Expr.check t e
    let rs := Expr.checkAll t es
    (r.1 :: rs.1, r.2 ++ rs.2)

end

theorem Expr.checkAll_length (t : Scopes) (es : List Expr) :
    (Expr.checkAll t es).1.length = es.length := by
  induction es with
  | nil => rw [Expr.checkAll]
  | cons e es ih => simp [Expr.checkAll, ih]

end MeowScript
