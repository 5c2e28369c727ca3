import MeowScript.Located
import MeowScript.Token.Basic

/-!
# Splitting a text into tokens

A text is cut into pieces: gaps (blanks and comments), tokens, and faults, which are places that
are no token. The longest piece that begins at a place is taken. Tokens are handed out only when
there is no fault; otherwise every fault is.

Mirrors `tokenize`, its callbacks and the patterns of `TokenKind` (lexer:38-191, 318-378). The
patterns are matched as their attributes say: the longest match, a keyword before a name.

Results:
* `first_append`: a piece and what is left of the text are the text.
* `pieces_join`: no character is lost or read twice.
-/
namespace MeowScript

/-- What can be wrong at a place (`LexErrorKind`, lexer:7-29). -/
inductive LexicalFault where
  | invalidCharacter (c : Char)
  | unterminatedString
  | unterminatedComment
  | integerOutOfRange
  deriving DecidableEq, Repr

namespace LexicalFault

def code : LexicalFault → String
  | invalidCharacter _ => "invalid-character"
  | unterminatedString => "unterminated-string"
  | unterminatedComment => "unterminated-comment"
  | integerOutOfRange => "integer-out-of-range"

def message : LexicalFault → String
  | invalidCharacter c => "invalid character '" ++ String.singleton c ++ "'"
  | unterminatedString => "unterminated string literal"
  | unterminatedComment => "unterminated block comment"
  | integerOutOfRange => "integer literal out of range"

end LexicalFault

/-- What a piece of the text is. -/
inductive Content where
  | gap
  | token (kind : Kind)
  | fault (fault : LexicalFault)
  deriving DecidableEq, Repr

structure Piece where
  text : List Char
  content : Content
  deriving DecidableEq, Repr

namespace Piece

/-! ## Gaps -/

/-- The blanks between tokens (lexer:40); all others are invalid characters. -/
def isGapChar (c : Char) : Bool :=
  c == ' ' || c == '\t' || c == '\r' || c == '\n' || c == '\x0c'

/-- A comment up to its first closing mark, and what follows it (`block_comment`, lexer:178-191). -/
def comment? : List Char → Option (List Char × List Char)
  | [] => none
  | '*' :: '/' :: cs => some (['*', '/'], cs)
  | c :: cs => (comment? cs).map fun r => (c :: r.1, r.2)

theorem comment?_append {cs : List Char} {r : List Char × List Char} (h : comment? cs = some r) :
    r.1 ++ r.2 = cs := by
  fun_induction comment? cs generalizing r with
  | case1 => cases h
  | case2 => cases h; rfl
  | case3 c cs _ ih =>
    obtain ⟨s, hs, rfl⟩ := Option.map_eq_some_iff.1 h
    simp [ih hs]

/-- What a slash begins: a comment (lexer:41, 78-82), or the operator. -/
def slash : List Char → Piece × List Char
  | '/' :: cs => (⟨'/' :: '/' :: cs.takeWhile (· != '\n'), .gap⟩, cs.dropWhile (· != '\n'))
  | '*' :: cs =>
    match comment? cs with
    | some (body, rest) => (⟨'/' :: '*' :: body, .gap⟩, rest)
    | none => (⟨'/' :: '*' :: cs, .fault .unterminatedComment⟩, [])
  | cs => (⟨['/'], .token (.operator .div)⟩, cs)

theorem slash_append (cs : List Char) : (slash cs).1.text ++ (slash cs).2 = '/' :: cs := by
  fun_cases slash cs with
  | case1 cs => simp
  | case2 cs body rest h => simpa using comment?_append h
  | case3 cs _ => simp
  | case4 cs => rfl

/-! ## Words and numbers -/

/-- How a word begins (lexer:66). -/
def isWordStart (c : Char) : Bool := c.isAlpha || c == '_'

def isWordChar (c : Char) : Bool := c.isAlphanum || c == '_'

/-- The kind of a whole word. -/
def wordKind (s : String) : Kind :=
  match Keyword.ofText? s with
  | some k => .keyword k
  | none => .identifier s

def word (c : Char) (cs : List Char) : Piece × List Char :=
  let text := c :: cs.takeWhile isWordChar
  (⟨text, .token (wordKind (String.ofList text))⟩, cs.dropWhile isWordChar)

/-- The largest integer a literal may have (lexer:72). -/
def maxInteger : Nat := 0x7fffffffffffffff

def integerContent (digits : List Char) : Content :=
  let n := Nat.ofDigitChars 10 digits 0
  if n ≤ maxInteger then .token (.integer n) else .fault .integerOutOfRange

def floatContent (whole fraction : List Char) : Content :=
  .token (.float
    (.ofDecimal false (Nat.ofDigitChars 10 (whole ++ fraction) 0) (-(fraction.length : Int))))

/-- Digits; with a point and more digits they are a fraction (lexer:69-73). -/
def number (c : Char) (cs : List Char) : Piece × List Char :=
  let whole := c :: cs.takeWhile Char.isDigit
  match cs.dropWhile Char.isDigit with
  | '.' :: d :: rest =>
    if d.isDigit then
      let fraction := d :: rest.takeWhile Char.isDigit
      (⟨whole ++ '.' :: fraction, floatContent whole fraction⟩, rest.dropWhile Char.isDigit)
    else (⟨whole, integerContent whole⟩, '.' :: d :: rest)
  | rest => (⟨whole, integerContent whole⟩, rest)

theorem number_append (c : Char) (cs : List Char) :
    (number c cs).1.text ++ (number c cs).2 = c :: cs := by
  have h := List.takeWhile_append_dropWhile (p := Char.isDigit) (l := cs)
  unfold number
  split
  · next d rest he => rw [he] at h; split <;> simp [h]
  · simp [h]

/-! ## Strings -/

/-- What an escaped character stands for (lexer:153-162). -/
def unescape : Char → Char
  | 'n' => '\n'
  | 't' => '\t'
  | c => c

/-- What follows an opening quote: the characters of the string with the closing quote, its value
unless it is left open, and the rest of the text. A line feed is never part of a string. -/
structure Body where
  text : List Char
  value : Option (List Char)
  rest : List Char

/-- Puts one more character, written as `raw`, in front. -/
def Body.add (raw : List Char) (c : Char) (b : Body) : Body :=
  ⟨raw ++ b.text, b.value.map (c :: ·), b.rest⟩

/-- The loop of `string_literal` (lexer:143-167). A line feed behind a backslash ends the string as
any other does. -/
def stringBody : List Char → Body
  | [] => ⟨[], none, []⟩
  | '"' :: cs => ⟨['"'], some [], cs⟩
  | '\n' :: cs => ⟨[], none, '\n' :: cs⟩
  | ['\\'] => ⟨['\\'], none, []⟩
  | '\\' :: '\n' :: cs => ⟨['\\'], none, '\n' :: cs⟩
  | '\\' :: c :: cs => (stringBody cs).add ['\\', c] (unescape c)
  | c :: cs => (stringBody cs).add [c] c

theorem stringBody_append (cs : List Char) : (stringBody cs).text ++ (stringBody cs).rest = cs := by
  fun_induction stringBody cs with
  | case6 c cs _ ih => simp [Body.add, ih]
  | case7 c cs _ _ _ _ _ ih => simp [Body.add, ih]
  | _ => rfl

def string (cs : List Char) : Piece × List Char :=
  let body := stringBody cs
  let content := match body.value with
    | some value => .token (.string (String.ofList value))
    | none => .fault .unterminatedString
  (⟨'"' :: body.text, content⟩, body.rest)

/-! ## All pieces -/

/-- Operators and delimiters (lexer:84-130); two characters are taken before one. Any other
character is a fault of its own (lexer:356-362). -/
def mark (c : Char) (cs : List Char) : Piece × List Char :=
  let one (kind : Kind) := (⟨[c], .token kind⟩, cs)
  match c, cs with
  | '=', '=' :: cs => (⟨['=', '='], .token (.operator .eq)⟩, cs)
  | '!', '=' :: cs => (⟨['!', '='], .token (.operator .ne)⟩, cs)
  | '<', '=' :: cs => (⟨['<', '='], .token (.operator .le)⟩, cs)
  | '>', '=' :: cs => (⟨['>', '='], .token (.operator .ge)⟩, cs)
  | '&', '&' :: cs => (⟨['&', '&'], .token (.operator .and)⟩, cs)
  | '|', '|' :: cs => (⟨['|', '|'], .token (.operator .or)⟩, cs)
  | '+', _ => one (.operator .add)
  | '-', _ => one (.operator .sub)
  | '*', _ => one (.operator .mul)
  | '%', _ => one (.operator .mod)
  | '<', _ => one (.operator .lt)
  | '>', _ => one (.operator .gt)
  | '!', _ => one .bang
  | '(', _ => one (.delimiter .openParen)
  | ')', _ => one (.delimiter .closeParen)
  | '{', _ => one (.delimiter .openBrace)
  | '}', _ => one (.delimiter .closeBrace)
  | ',', _ => one (.delimiter .comma)
  | ';', _ => one (.delimiter .semicolon)
  | c, cs => (⟨[c], .fault (.invalidCharacter c)⟩, cs)

theorem mark_append (c : Char) (cs : List Char) :
    (mark c cs).1.text ++ (mark c cs).2 = c :: cs := by
  fun_cases mark c cs <;> rfl

/-- The piece that begins with `c`, and the rest of the text. -/
def first (c : Char) (cs : List Char) : Piece × List Char :=
  if isGapChar c then (⟨c :: cs.takeWhile isGapChar, .gap⟩, cs.dropWhile isGapChar)
  else if isWordStart c then word c cs
  else if c.isDigit then number c cs
  else if c = '"' then string cs
  else if c = '/' then slash cs
  else mark c cs

theorem first_append (c : Char) (cs : List Char) :
    (first c cs).1.text ++ (first c cs).2 = c :: cs := by
  unfold first
  split
  · simp
  split
  · simp [word]
  split
  · exact number_append c cs
  split
  · next h => simpa [string, h] using stringBody_append cs
  split
  · next h => rw [h]; exact slash_append cs
  · exact mark_append c cs

theorem first_text_ne_nil (c : Char) (cs : List Char) : (first c cs).1.text ≠ [] := by
  unfold first
  split
  · simp
  split
  · simp [word]
  split
  · unfold number; split <;> try split
    all_goals simp
  split
  · simp [string]
  split
  · fun_cases slash cs <;> simp
  · fun_cases mark c cs <;> simp

theorem first_rest_lt (c : Char) (cs : List Char) :
    (first c cs).2.length < (c :: cs).length := by
  have h := congrArg List.length (first_append c cs)
  have := List.length_pos_iff.2 (first_text_ne_nil c cs)
  simp only [List.length_append] at h
  omega

end Piece

/-- The pieces of a text, in order. -/
def pieces : List Char → List Piece
  | [] => []
  | c :: cs => (Piece.first c cs).1 :: pieces (Piece.first c cs).2
termination_by cs => cs.length
decreasing_by exact Piece.first_rest_lt c cs

theorem pieces_join (cs : List Char) : (pieces cs).flatMap Piece.text = cs := by
  fun_induction pieces cs with
  | case1 => rfl
  | case2 c cs ih => rw [List.flatMap_cons, ih, Piece.first_append]

/-- Each piece with the position of its first character (`LineIndex`, lexer:318-337). -/
def placed : Position → List Piece → List (Located Piece)
  | _, [] => []
  | p, x :: xs => ⟨x, p⟩ :: placed (p.after x.text) xs

def Piece.tokenAt (x : Located Piece) : Option Token :=
  match x.cause.content with
  | .token kind => some ⟨kind, String.ofList x.cause.text, x.position⟩
  | _ => none

def Piece.faultAt (x : Located Piece) : Option (Located LexicalFault) :=
  match x.cause.content with
  | .fault f => some ⟨f, x.position⟩
  | _ => none

/-- The tokens of a text with the end of input, or all of its faults (`tokenize`, lexer:339-378). -/
def tokensOf (source : String) : Except (List (Located LexicalFault)) (List Token) :=
  let found := placed .start (pieces source.toList)
  match found.filterMap Piece.faultAt with
  | [] => .ok (found.filterMap Piece.tokenAt ++ [.finish (Position.start.after source.toList)])
  | faults => .error faults

end MeowScript
