import MeowScript.Located
import MeowScript.Token.Basic

/-!
# Attempts to read from a list of tokens

What is wrong with a token list that is no program, and the results of readers. A reader hands
back its value and the tokens it has not taken, or what it expected and the tokens from the place
where it found something else. `Attempt α n` bounds both: a success leaves fewer than `n` tokens,
a failure at most `n`, so a reader can go on with what is left.

Mirrors `SyntaxErrorKind`, `Failure`, `unexpected` and `expect` (parser:7-51, 99-122). The readers
here take tokens off a list; `Grammar.Cursor` has them with a place among all tokens, and
`Proofs.Cursor` shows that both read the same.

Results:
* `fewer_cons`, `atMost_self`, `atMost_cons`: the bounds a reader meets with one token or none.
* `Attempt.map_ok`, `Attempt.map_error`: changing the value leaves the place alone.
-/
namespace MeowScript

/-- What a reader looks for: the texts that `expect` and `unexpected` are given. -/
inductive Expected where
  | variableName | functionName | parameterName | identifier | paws | pawsOrParen | statement
  | expression
  | delimiter (d : Delimiter)
  deriving DecidableEq, Repr

def Expected.text : Expected → String
  | variableName => "variable name"
  | functionName => "function name"
  | parameterName => "parameter name"
  | identifier => "identifier"
  | paws => "'paws'"
  | pawsOrParen => "'paws' or '('"
  | statement => "a statement"
  | expression => "an expression"
  | delimiter d => Kind.spelled d.text

/-- What can be wrong with a token list (`SyntaxErrorKind`, parser:7-21). -/
inductive SyntaxFault where
  | expected (what : Expected) (found : Kind)
  | unexpectedToken (found : Kind)
  | missingStart (found : Kind)
  | missingEnd (found : Kind)
  | trailingInput (found : Kind)
  | unexpectedEnd (what : Expected)
  deriving DecidableEq, Repr

namespace SyntaxFault

def code : SyntaxFault → String
  | expected _ _ => "expected-token"
  | unexpectedToken _ => "unexpected-token"
  | missingStart _ => "missing-program-start"
  | missingEnd _ => "missing-program-end"
  | trailingInput _ => "trailing-input"
  | unexpectedEnd _ => "unexpected-eof"

def message : SyntaxFault → String
  | expected what found => "expected " ++ what.text ++ ", found " ++ found.text
  | unexpectedToken found => "unexpected " ++ found.text
  | missingStart found => "program must start with 'Wake', found " ++ found.text
  | missingEnd found => "program must end with 'Sleep', found " ++ found.text
  | trailingInput found => "unexpected " ++ found.text ++ " after 'Sleep'"
  | unexpectedEnd what => "unexpected end of input, expected " ++ what.text

end SyntaxFault

/-- Whether a token is an end of input. -/
def isFinish (t : Token) : Bool := t.kind == .endOfInput

theorem fewer_cons (t : Token) (rest : List Token) : rest.length < (t :: rest).length :=
  Nat.lt_succ_self _

theorem atMost_self (toks : List Token) : toks.length ≤ toks.length := Nat.le_refl _

theorem atMost_cons (t : Token) (rest : List Token) : rest.length ≤ (t :: rest).length :=
  Nat.le_succ _

/-- A value read, and what is left. -/
structure Parsed (α : Type) (n : Nat) where
  value : α
  rest : List Token
  fewer : rest.length < n

/-- What was expected, and the tokens from the one found instead. -/
structure Failure (n : Nat) where
  expected : Expected
  rest : List Token
  atMost : rest.length ≤ n

abbrev Attempt (α : Type) (n : Nat) := Except (Failure n) (Parsed α n)

/-- The fault to report; the end of the input lies at `finish` (`unexpected`, parser:99-114). -/
def Failure.fault {n : Nat} (f : Failure n) (finish : Position) : Located SyntaxFault :=
  match f.rest with
  | [] => ⟨.unexpectedEnd f.expected, finish⟩
  | t :: _ => ⟨.expected f.expected t.kind, t.position⟩

def Failure.weaken {n m : Nat} (f : Failure n) (h : n ≤ m) : Failure m :=
  ⟨f.expected, f.rest, Nat.le_trans f.atMost h⟩

/-- Fails at the first of `toks`. -/
def Failure.here (what : Expected) (toks : List Token) : Failure toks.length :=
  ⟨what, toks, atMost_self toks⟩

namespace Attempt

variable {α β : Type} {n m : Nat}

/-- Changes the value and loosens the bound. -/
def map (f : α → β) (h : n ≤ m) : Attempt α n → Attempt β m
  | .ok r => .ok ⟨f r.value, r.rest, Nat.lt_of_lt_of_le r.fewer h⟩
  | .error e => .error (e.weaken h)

/-- Goes on with what the first reader left. -/
def andThen (a : Attempt α n) (f : α → (rest : List Token) → Attempt β rest.length) :
    Attempt β n :=
  match a with
  | .ok r => (f r.value r.rest).map id (Nat.le_of_lt r.fewer)
  | .error e => .error e

@[simp] theorem map_ok (f : α → β) (h : n ≤ m) (r : Parsed α n) :
    map f h (.ok r) = .ok ⟨f r.value, r.rest, Nat.lt_of_lt_of_le r.fewer h⟩ := rfl

@[simp] theorem map_error (f : α → β) (h : n ≤ m) (e : Failure n) :
    map f h (.error e) = .error (e.weaken h) := rfl

end Attempt

/-- Takes one delimiter (`expect`, parser:116-122). -/
def delimiter (d : Delimiter) (toks : List Token) : Attempt Unit toks.length :=
  match toks with
  | [] => .error (.here (.delimiter d) [])
  | t :: rest =>
    if t.kind = .delimiter d then .ok ⟨(), rest, fewer_cons t rest⟩
    else .error (.here (.delimiter d) (t :: rest))

end MeowScript
