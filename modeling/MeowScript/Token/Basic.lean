import MeowScript.Text.Position
import MeowScript.Text.Quoted
import MeowScript.Number.Shortest
import MeowScript.Operator

/-!
# Tokens

The smallest parts of a program: what they are, how they are named in messages, and which of them
recovery from a mistake stops at.

Mirrors `TokenKind`, `TokenClass` and `Token` (lexer:42-133, 192-316).

Results:
* `Keyword.ofText?_text`, `Keyword.text_of_ofText?`: a keyword and its spelling determine each
  other.
-/
namespace MeowScript

inductive Keyword where
  | wake | sleep | box | paws | hunt | bring | purr | hiss | chase | meow
  deriving DecidableEq, Repr

namespace Keyword

def all : List Keyword := [wake, sleep, box, paws, hunt, bring, purr, hiss, chase, meow]

def text : Keyword → String
  | wake => "Wake"
  | sleep => "Sleep"
  | box => "Box"
  | paws => "paws"
  | hunt => "Hunt"
  | bring => "Bring"
  | purr => "Purr"
  | hiss => "Hiss"
  | chase => "Chase"
  | meow => "Meow"

def ofText? (s : String) : Option Keyword := all.find? fun k => k.text == s

theorem ofText?_text (k : Keyword) : ofText? k.text = some k := by cases k <;> decide

theorem text_of_ofText? {s : String} {k : Keyword} (h : ofText? s = some k) : k.text = s := by
  simpa using List.find?_some h

end Keyword

inductive Delimiter where
  | openParen | closeParen | openBrace | closeBrace | comma | semicolon
  deriving DecidableEq, Repr

def Delimiter.text : Delimiter → String
  | openParen => "("
  | closeParen => ")"
  | openBrace => "\x7b"
  | closeBrace => "\x7d"
  | comma => ","
  | semicolon => ";"

/-- What a token is (lexer:42-133). The minus sign is the binary operator in either use. -/
inductive Kind where
  | keyword (k : Keyword)
  | identifier (name : String)
  | integer (value : Int)
  | float (value : Binary64)
  | string (value : String)
  | operator (o : BinaryOp)
  | bang
  | delimiter (d : Delimiter)
  | endOfInput
  deriving DecidableEq, Repr

/-- What tokens are counted by in a summary (`TokenClass`, lexer:192-219). -/
inductive Category where
  | keyword | identifier | integer | float | string | operator | delimiter | endOfInput
  deriving DecidableEq, Repr

namespace Category

def all : List Category :=
  [keyword, identifier, integer, float, string, operator, delimiter, endOfInput]

def text : Category → String
  | keyword => "keyword"
  | identifier => "identifier"
  | integer => "integer literal"
  | float => "float literal"
  | string => "string literal"
  | operator => "operator"
  | delimiter => "delimiter"
  | endOfInput => "end of input"

end Category

namespace Kind

def category : Kind → Category
  | keyword _ => .keyword
  | identifier _ => .identifier
  | integer _ => .integer
  | float _ => .float
  | string _ => .string
  | operator _ | bang => .operator
  | delimiter _ => .delimiter
  | endOfInput => .endOfInput

def spelled (s : String) : String := "'" ++ s ++ "'"

/-- How a message names the token (lexer:268-309). -/
def text : Kind → String
  | keyword k => spelled k.text
  | identifier name => "identifier " ++ spelled name
  | integer n => "integer " ++ toString n
  | float x => "float " ++ x.text
  | string s => "string " ++ Text.quoted s
  | operator o => spelled o.symbol
  | bang => spelled "!"
  | delimiter d => spelled d.text
  | endOfInput => "end of input"

/-- Whether a token of this kind starts a statement, closes a block or the program: the places
where reading goes on after a mistake (`is_sync_point`, lexer:250-265). -/
def isLandmark : Kind → Bool
  | keyword .box | keyword .hunt | keyword .purr | keyword .chase | keyword .bring
  | keyword .meow | keyword .sleep | delimiter .closeBrace | endOfInput => true
  | _ => false

end Kind

structure Token where
  kind : Kind
  lexeme : String
  position : Position
  deriving DecidableEq, Repr

/-- The token that stands for the end of the text at `p` (lexer:372-376). -/
def Token.finish (p : Position) : Token := ⟨.endOfInput, "", p⟩

end MeowScript
