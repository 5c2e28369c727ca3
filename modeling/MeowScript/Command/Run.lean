import MeowScript.Command.Host
import MeowScript.Session.Dialogue

/-!
# A whole run of the command

`run` gives what a run prints, its exit code and the files after it, from its arguments, its
standard input and the files before it, on any host.

Mirrors `main` (main:164-186) and `run_repl` (repl:56-66).

Results:
* `run_usage`: a usage error exits with 1 and touches no file.
-/
namespace MeowScript

/-- What a run leaves: its exit code, what it printed to standard output and to standard error, what
the command put in the log, which goes to standard error as well, and the files. -/
structure Outcome (σ : Type) where
  exit : Nat
  out : String
  err : String
  logs : List Log
  files : σ

namespace Outcome

variable {σ : Type} (x : Outcome σ)

def printed : Printed := ⟨x.out, x.err⟩

/-- What it leaves when this is how much of the log is asked for. -/
def logging (verbosity : Nat) : Outcome σ := { x with logs := Log.shown verbosity x.logs }

end Outcome

namespace Command

def usage (e : UsageFault) : String :=
  "Error: " ++ e.message ++ "\nTry 'meow --help' for usage.\n"

variable {σ : Type} [Host σ]

/-- What a compilation on a host leaves (main:180-184). -/
def compile (files : σ) (stdin : ByteArray) (o : Options) (source : Source) : Outcome σ :=
  let (r, files) := ((Host.ports stdin).compile o source).run files
  ⟨if r.ok then 0 else 1, r.out, r.err, r.logs, files⟩

/-- What the log tells of a call that failed. -/
def told (log : String → Log) : Except String Unit → List Log
  | .ok () => []
  | .error reason => [log reason]

/-- What the log tells when the history of earlier dialogues is asked for (repl:112-117). -/
def loadHistory (files : σ) : List Log :=
  let editor : Editor σ := Host.editor
  match editor.history with
  | none => []
  | some path => told (fun _ => .noHistory path) (editor.load files path)

/-- Keeps the history of a dialogue, unless the line editor broke it off (repl:157-161). -/
def keepHistory (files : σ) (course : Course) : List Log × σ :=
  let editor : Editor σ := Host.editor
  match editor.history, course.broken with
  | some path, false =>
    let (kept, files) := editor.keep files path course.entries
    (told (.historyLost path) kept, files)
  | _, _ => ([], files)

/-- A dialogue, behind the greeting (`repl_loop`, repl:107-155). -/
def converse (files : σ) (stdin : ByteArray) : Course :=
  let editor : Editor σ := Host.editor
  match editor.ready with
  | .error reason => .brokenBy reason
  | .ok () =>
    let course := Dialogue.start.converse (Host.textOf files) editor.remember
      (editor.replies files stdin)
    { course with logs := loadHistory files ++ course.logs }

/-- What a dialogue on a host leaves (`run_repl`, repl:56-66). -/
def talk (files : σ) (stdin : ByteArray) : Outcome σ :=
  let course := converse files stdin
  let (logs, after) := keepHistory files course
  ⟨0, Help.greeting ++ course.printed.out, course.printed.err, course.logs ++ logs, after⟩

def run (files : σ) (stdin : ByteArray) (args : List String) : Outcome σ :=
  match Options.ofArgs args with
  | .error e => ⟨1, "", usage e, [], files⟩
  | .ok o =>
    match o.action with
    | .help => ⟨0, Help.command, "", [], files⟩
    | .version => ⟨0, Help.versionLine, "", [], files⟩
    | .repl => (talk files stdin).logging o.verbosity
    | .compile source => (compile files stdin o source).logging o.verbosity

theorem run_usage {files : σ} {stdin : ByteArray} {args : List String} {e : UsageFault}
    (h : Options.ofArgs args = .error e) : run files stdin args = ⟨1, "", usage e, [], files⟩ := by
  simp [run, h]

end Command
end MeowScript
