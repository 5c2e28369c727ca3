import MeowScript.Compilation
import MeowScript.Text.Blank

/-!
# A session: one program that grows

Each input is compiled together with all inputs accepted before. An accepted input is kept, and
answered with the code it adds; a rejected one leaves the session as it was.

Mirrors `Session` (repl:14-54).

Results:
* `extend_error`: a rejected input is the rejection of the whole text.
-/
namespace MeowScript

structure Session where
  statements : List String
  last : Option Compilation
  deriving Repr

namespace Session

def start : Session := ⟨[], none⟩

/-- The program of the inputs accepted so far, followed by another one (`source_with`,
repl:23-32). -/
def source (s : Session) (input : String) : String :=
  "Wake\n" ++ String.join (s.statements.map (· ++ "\n")) ++ input ++ "\nSleep"

/-- The number of lines before a new input (`line_offset`, repl:34-37). -/
def offset (s : Session) : Nat :=
  s.statements.foldr (fun t n => Text.lineCount t.toList + n) 1

def code (s : Session) : List Instr := (s.last.map Compilation.code).getD []

/-- Compiles another input: the listing of the code it adds and the session that holds it
(`submit`, repl:43-53). -/
def extend (s : Session) (input : String) : Except Rejection (String × Session) :=
  match Compilation.ofText (s.source input) with
  | .error r => .error r
  | .ok c => .ok (listing (c.code.drop s.code.length), ⟨s.statements ++ [input], some c⟩)

theorem extend_error {s : Session} {input : String} {r : Rejection} :
    s.extend input = .error r ↔ Compilation.ofText (s.source input) = .error r := by
  unfold extend
  split <;> simp_all

end Session
end MeowScript
