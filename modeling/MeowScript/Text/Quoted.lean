import MeowScript.Text.Unprintable

/-!
# Quoted text

A text in double quotes, fit to be shown on one line: a few characters have a short escape, and
those that are not shown as they are have their code point in hexadecimal.

Results:
* `quoted_eq`: one escape per character, between two quotes.
-/
namespace MeowScript.Text

/-- The short escapes. -/
def shortEscape : Char → Option Char
  | '\x00' => some '0'
  | '\t' => some 't'
  | '\r' => some 'r'
  | '\n' => some 'n'
  | '"' => some '"'
  | '\\' => some '\\'
  | _ => none

/-- How one character stands inside quotes. -/
def escape (c : Char) : List Char :=
  match shortEscape c with
  | some d => ['\\', d]
  | none =>
    if isUnprintable c then ['\\', 'u', '{'] ++ Nat.toDigits 16 c.toNat ++ ['}'] else [c]

def quotedChars (cs : List Char) : List Char := '"' :: cs.flatMap escape ++ ['"']

def quoted (s : String) : String := String.ofList (quotedChars s.toList)

theorem quoted_eq (s : String) : (quoted s).toList = '"' :: s.toList.flatMap escape ++ ['"'] := by
  simp [quoted, quotedChars]

end MeowScript.Text
