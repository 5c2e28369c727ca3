import MeowScript.Session.Basic
import MeowScript.Session.Editor
import MeowScript.Session.Pending
import MeowScript.Help

/-!
# A dialogue, line by line

Each line is a command, which begins with a dot, or part of an input. A command is recognised only
between inputs. The answer to a line is what is printed and the dialogue after it, if it goes on. A
turn is a call of the line editor with what is made of its reply, and a dialogue is turns until one
leaves.

Mirrors `repl_loop`, `handle_command`, `load_file`, `execute_input` and `print_errors`
(repl:107-242).

Results:
* `answer_exit`: leaving says goodbye.
* `turn_wanted`: which file a turn reads.
-/
namespace MeowScript

/-- What goes to standard output and to standard error. -/
structure Printed where
  out : String
  err : String
  deriving DecidableEq, Repr

namespace Printed

def nothing : Printed := ⟨"", ""⟩

def toOut (s : String) : Printed := ⟨s, ""⟩

def toErr (s : String) : Printed := ⟨"", s⟩

instance : Append Printed := ⟨fun a b => ⟨a.out ++ b.out, a.err ++ b.err⟩⟩

end Printed

inductive DotCommand where
  | exit | help | clear | code | outline
  | load (path : Option String)
  | unknown (word : String)
  deriving DecidableEq, Repr

namespace DotCommand

/-- The command of a trimmed line: its first word, and the rest of the line behind a space
(repl:172-174). -/
def ofLine (line : List Char) : DotCommand :=
  let word := String.ofList (line.takeWhile (· != ' '))
  let argument := match line.dropWhile (· != ' ') with
    | [] => none
    | _ :: rest => some (String.ofList (Text.trim rest))
  match word with
  | ".exit" | ".quit" | ".q" => exit
  | ".help" | ".h" => help
  | ".clear" => clear
  | ".tac" => code
  | ".ast" => outline
  | ".load" => load argument
  | _ => unknown word

/-- The command that a line gives, if it begins with a dot. -/
def ofLine? (line : String) : Option DotCommand :=
  match Text.trim line.toList with
  | '.' :: rest => some (ofLine ('.' :: rest))
  | _ => none

end DotCommand

/-- Diagnostics with their lines counted from the one after `offset` (`print_errors`,
repl:237-242). -/
def shifted (offset : Nat) (r : Rejection) : Printed :=
  .toErr (String.join (r.diagnostics.map fun d => (d.shift offset).text ++ "\n"))

/-- Compiles a file on its own (`load_file`, repl:213-225). -/
def loaded (path : String) : Except String String → Printed
  | .error reason => .toErr ("Error reading '" ++ path ++ "': " ++ reason ++ "\n")
  | .ok text =>
    match Compilation.ofText text with
    | .ok c => .toOut c.listing
    | .error r => shifted 0 r

structure Dialogue where
  session : Session
  pending : Pending
  deriving Repr

namespace Dialogue

def start : Dialogue := ⟨.start, .start⟩

def goodbye : Printed := .toOut "Goodbye!\n"

/-- Carries out a command; `read` reads a file, or says why it cannot (`handle_command`,
repl:171-210). -/
def obey (read : String → Except String String) (d : Dialogue) :
    DotCommand → Printed × Option Dialogue
  | .exit => (goodbye, none)
  | .help => (.toOut Help.dialogue, some d)
  | .clear => (.toOut "Session cleared.\n", some { d with session := .start })
  | .code =>
    (.toOut (match d.session.last with
      | some c => c.listing
      | none => "No code yet.\n"), some d)
  | .outline =>
    (.toOut (match d.session.last with
      | some c => c.program.outline
      | none => "No statements yet.\n"), some d)
  | .load none => (.toErr "Usage: .load <filename>\n", some d)
  | .load (some path) => (loaded path (read path), some d)
  | .unknown word =>
    (.toErr ("Unknown command: " ++ word ++ "\nType .help for available commands.\n"), some d)

/-- Submits a complete input, unless nothing is in it (`execute_input`, repl:227-234). -/
def complete (d : Dialogue) (input : String) : Printed × Dialogue :=
  if input = "" then (.nothing, d)
  else
    match d.session.extend input with
    | .ok (added, session) => (.toOut added, { d with session })
    | .error r => (shifted d.session.offset r, d)

/-- The command that a line gives here. -/
def command? (d : Dialogue) (line : String) : Option DotCommand :=
  if d.pending.hasBegun then none else DotCommand.ofLine? line

/-- The file that a turn with this reply reads. -/
def wanted? (d : Dialogue) : Reply → Option String
  | .line line =>
    match d.command? line with
    | some (.load path) => path
    | _ => none
  | _ => none

/-- The answer to a line (repl:139-154). -/
def answer (read : String → Except String String) (d : Dialogue) (line : String) :
    Printed × Option Dialogue :=
  match d.command? line with
  | some c => d.obey read c
  | none =>
    match d.pending.push line with
    | (none, pending) => (.nothing, some { d with pending })
    | (some input, pending) =>
      let (printed, d) := { d with pending }.complete input
      (printed, some d)

theorem answer_exit {read : String → Except String String} {d : Dialogue} {line : String}
    (h : d.command? line = some .exit) : d.answer read line = (goodbye, none) := by
  simp [answer, h, obey]

/-- What a line adds to the history: a command, or an input that it completes. -/
def entry? (d : Dialogue) (line : String) : Option String :=
  match d.command? line with
  | some _ => some (Text.trimmed line)
  | none => (d.pending.push line).1.filter (· != "")

end Dialogue

/-- What comes of a part of a dialogue: what is printed, what the history takes in, what the log
tells, and whether the line editor breaks it off, so that no history is kept. -/
structure Course where
  printed : Printed
  entries : List String
  logs : List Log
  broken : Bool
  deriving DecidableEq, Repr

namespace Course

def only (printed : Printed) : Course := ⟨printed, [], [], false⟩

/-- The line editor cannot go on (repl:63-65). -/
def brokenBy (reason : String) : Course :=
  ⟨.toErr ("REPL error: " ++ reason ++ "\n"), [], [], true⟩

instance : Append Course :=
  ⟨fun a b => ⟨a.printed ++ b.printed, a.entries ++ b.entries, a.logs ++ b.logs,
    a.broken || b.broken⟩⟩

end Course

namespace Dialogue

/-- What the log tells when `e` comes after `d`. -/
def growth (d e : Dialogue) : List Log :=
  let kept := e.session.statements.length
  if d.session.statements.length < kept then [.extended kept] else []

/-- One turn: what is made of a reply of the line editor (repl:120-154). `remember` takes an entry
into the history, or says why it cannot. -/
def turn (read : String → Except String String) (remember : String → Except String Unit)
    (d : Dialogue) : Reply → Course × Option Dialogue
  | .interrupted => (.only (.toOut "^C\n"), some { d with pending := .start })
  | .ended => (.only goodbye, none)
  | .failed reason => (.only (.toErr ("Error: " ++ reason ++ "\n")), none)
  | .line line =>
    let entry := d.entry? line
    match (entry.map remember).getD (.ok ()), d.answer read line with
    | .error reason, _ => (.brokenBy reason, none)
    | .ok (), (printed, none) => (⟨printed, entry.toList, [], false⟩, none)
    | .ok (), (printed, some e) => (⟨printed, entry.toList, d.growth e, false⟩, some e)

/-- A turn reads no file but the one it wants. -/
theorem turn_wanted {read : String → Except String String}
    {remember : String → Except String Unit} {d : Dialogue} {reply : Reply}
    {file : Except String String} (h : ∀ path, d.wanted? reply = some path → read path = file) :
    d.turn (fun _ => file) remember reply = d.turn read remember reply := by
  cases reply with
  | line line =>
    have hanswer : d.answer (fun _ => file) line = d.answer read line := by
      unfold answer
      split
      · next c hc =>
        cases c with
        | load path =>
          cases path with
          | none => rfl
          | some path =>
            have hread : read path = file := h path (by rw [wanted?, hc])
            rw [obey, obey, hread]
        | _ => rfl
      · rfl
    rw [turn, turn, hanswer]
  | _ => rfl

/-- Turns until one leaves. Behind the last reply standard input has ended. -/
def converse (read : String → Except String String) (remember : String → Except String Unit)
    (d : Dialogue) : List Reply → Course
  | [] => .only goodbye
  | reply :: replies =>
    match d.turn read remember reply with
    | (course, none) => course
    | (course, some e) => course ++ e.converse read remember replies

end Dialogue
end MeowScript
