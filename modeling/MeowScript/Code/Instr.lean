import MeowScript.Number.Shortest
import MeowScript.Tree.Basic

/-!
# Three-address code and its listing

Each instruction does one step on constants, variables and numbered temporaries; jumps go to
numbered labels. A listing has one instruction on each line.

Mirrors `Operand`, `Instr` and `render` (tac:4-141).

Results:
* `toString_injective`: what is named by a number is told by its name.
* `listing_append`: the listing of code in two parts is the two listings.
-/
namespace MeowScript

/-- What an instruction reads. -/
inductive Operand where
  | constant (value : Literal)
  | var (storage : String)
  | temp (number : Nat)
  deriving DecidableEq, Repr

/-- One instruction. A call takes the last `count` parameters given before it. -/
inductive Instr where
  | copy (dest : String) (source : Operand)
  | binary (dest : Nat) (op : BinaryOp) (left right : Operand) (ty : Ty)
  | unary (dest : Nat) (op : UnaryOp) (operand : Operand) (ty : Ty)
  | label (number : Nat)
  | ifFalse (condition : Operand) (target : Nat)
  | goto (target : Nat)
  | call (dest : Nat) (name : String) (count : Nat)
  | param (value : Operand)
  | bring (value : Operand)
  | print (value : Operand)
  | beginFunction (name : String)
  | endFunction (name : String)
  deriving DecidableEq, Repr

theorem toList_toString (n : Nat) : (toString n).toList = Nat.toDigits 10 n := by
  rw [Nat.toString_eq_repr, Nat.toList_repr]

/-- Numbered names tell their numbers. -/
theorem toString_injective {m n : Nat} (h : toString m = toString n) : m = n := by
  have hdigits := congrArg (Nat.ofDigitChars 10 ·.toList 0) h
  simpa [toList_toString] using hdigits

/-- The characters that are escaped in a string constant; all others stand for themselves. -/
def escapeConstant : Char → List Char
  | '\n' => ['\\', 'n']
  | '\t' => ['\\', 't']
  | '"' => ['\\', '"']
  | '\\' => ['\\', '\\']
  | c => [c]

def constantChars (cs : List Char) : List Char := '"' :: cs.flatMap escapeConstant ++ ['"']

namespace Operand

def tempText (n : Nat) : String := "t" ++ toString n

def text : Operand → String
  | constant (.integer n) => toString n
  | constant (.float x) => x.text
  | constant (.string s) => String.ofList (constantChars s.toList)
  | var storage => storage
  | temp n => tempText n

theorem toList_text_string (s : String) :
    (constant (.string s)).text.toList = constantChars s.toList := String.toList_ofList

theorem toList_text_integer (n : Nat) :
    (constant (.integer n)).text.toList = Nat.toDigits 10 n := by
  simp [text, Int.repr, Nat.repr]

end Operand

namespace Instr

/-- Labels and the marks around a function are not indented. -/
def isMark : Instr → Bool
  | label _ | beginFunction _ | endFunction _ => true
  | _ => false

/-- The type carried by an instruction that computes. -/
def ty? : Instr → Option Ty
  | binary _ _ _ _ t | unary _ _ _ t => some t
  | _ => none

def labelText (n : Nat) : String := "L" ++ toString n

def text : Instr → String
  | copy dest source => dest ++ " = " ++ source.text
  | binary dest op left right _ =>
    Operand.tempText dest ++ " = " ++ left.text ++ " " ++ op.symbol ++ " " ++ right.text
  | unary dest op operand _ => Operand.tempText dest ++ " = " ++ op.symbol ++ operand.text
  | label n => labelText n ++ ":"
  | ifFalse condition target =>
    "if_false " ++ condition.text ++ " goto " ++ labelText target
  | goto target => "goto " ++ labelText target
  | call dest name count =>
    Operand.tempText dest ++ " = call " ++ name ++ ", " ++ toString count
  | param value => "param " ++ value.text
  | bring value => "return " ++ value.text
  | print value => "print " ++ value.text
  | beginFunction name => "begin_func " ++ name
  | endFunction name => "end_func " ++ name

/-- The line of an instruction, indented by four spaces unless it is a mark. -/
def line (i : Instr) : String := (if i.isMark then "" else "    ") ++ i.text ++ "\n"

end Instr

def listing (code : List Instr) : String := String.join (code.map Instr.line)

@[simp] theorem listing_nil : listing [] = "" := rfl

theorem listing_append (a b : List Instr) : listing (a ++ b) = listing a ++ listing b := by
  rw [← String.toList_inj]; simp [listing]

end MeowScript
