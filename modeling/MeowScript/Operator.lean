/-!
# Operators and how tightly they bind

Binary operators stand on six levels, each of which associates to the left.

Results:
* `mem_ladder`: every level is on the ladder.
* `symbol_injective`: the symbol of a binary operator tells which it is.
-/
namespace MeowScript

inductive BinaryOp where
  | or | and | eq | ne | lt | gt | le | ge | add | sub | mul | div | mod
  deriving DecidableEq, Repr

inductive UnaryOp where
  | neg | not
  deriving DecidableEq, Repr

inductive Level where
  | disjunction | conjunction | equality | comparison | sum | product
  deriving DecidableEq, Repr

/-- The levels from the loosest to the tightest. -/
def Level.ladder : List Level :=
  [disjunction, conjunction, equality, comparison, sum, product]

theorem Level.mem_ladder (l : Level) : l ∈ ladder := by cases l <;> decide

namespace BinaryOp

def all : List BinaryOp := [or, and, eq, ne, lt, gt, le, ge, add, sub, mul, div, mod]

theorem mem_all (o : BinaryOp) : o ∈ all := by cases o <;> decide

def level : BinaryOp → Level
  | or => .disjunction
  | and => .conjunction
  | eq | ne => .equality
  | lt | gt | le | ge => .comparison
  | add | sub => .sum
  | mul | div | mod => .product

def symbol : BinaryOp → String
  | or => "||"
  | and => "&&"
  | eq => "=="
  | ne => "!="
  | lt => "<"
  | gt => ">"
  | le => "<="
  | ge => ">="
  | add => "+"
  | sub => "-"
  | mul => "*"
  | div => "/"
  | mod => "%"

theorem symbol_injective {a b : BinaryOp} (h : a.symbol = b.symbol) : a = b := by
  revert h; cases a <;> cases b <;> decide

def isArithmetic (o : BinaryOp) : Bool := o.level == .sum || o.level == .product

def isComparison (o : BinaryOp) : Bool := o.level == .equality || o.level == .comparison

end BinaryOp

def UnaryOp.symbol : UnaryOp → String
  | neg => "-"
  | not => "!"

end MeowScript
