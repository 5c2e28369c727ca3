import MeowScript.Text.Blank

/-!
# Input that spans lines

Lines are collected until every brace they open has been closed. A closing brace with nothing to
close is not counted.

Mirrors `PendingInput` (repl:68-105).

Results:
* `unclosed_append`: braces are counted line by line.
-/
namespace MeowScript

/-- The braces open behind a text, when `n` are open before it (repl:83-89). -/
def unclosed (n : Nat) (cs : List Char) : Nat :=
  cs.foldl (fun n c => if c = '{' then n + 1 else if c = '}' then n - 1 else n) n

theorem unclosed_append (n : Nat) (a b : List Char) :
    unclosed n (a ++ b) = unclosed (unclosed n a) b := by
  simp [unclosed, List.foldl_append]

structure Pending where
  text : String
  braces : Nat
  deriving DecidableEq, Repr

namespace Pending

def start : Pending := ⟨"", 0⟩

/-- Whether an input has begun (`is_continuing`, repl:77-79). -/
def hasBegun (p : Pending) : Bool := p.text != ""

/-- Adds a line, and hands back the whole input, trimmed, once no brace is open (`push_line`,
repl:81-99). -/
def push (p : Pending) (line : String) : Option String × Pending :=
  let text := p.text ++ line ++ "\n"
  let braces := unclosed p.braces line.toList
  if braces > 0 then (none, ⟨text, braces⟩) else (some (Text.trimmed text), start)

end Pending
end MeowScript
