/-!
# The log

What the command tells of a run when it is asked to be verbose. These lines go to standard error
with the time in front of each, so a run keeps them apart from what it prints there. The phases of a
compilation tell of themselves in the same place (lexer:367, parser:136-157, semantic:72,
codegen:9-14, lib:42-45); nothing is said of those lines here.

Mirrors the calls of `debug!` and `info!` in `run_compile`, `submit` and `repl_loop`, and
`init_logging` (main:65-76).
-/
namespace MeowScript

inductive Log where
  /-- An input of so many bytes has been read (main:123). -/
  | compiling (input : String) (bytes : Nat)
  /-- It was accepted (main:135). -/
  | compiled (instructions : Nat)
  /-- The code has been written to a file (main:159). -/
  | saved (path : String)
  /-- A session has kept an input (repl:51). -/
  | extended (statements : Nat)
  /-- A dialogue has found no history (repl:115). -/
  | noHistory (path : String)
  /-- A dialogue could not write its history (repl:159). -/
  | historyLost (path reason : String)
  deriving DecidableEq, Repr

namespace Log

/-- A line of the log, without the time. -/
def text : Log → String
  | compiling input bytes => "DEBUG compiling input=" ++ input ++ " bytes=" ++ toString bytes
  | compiled instructions => " INFO compilation succeeded instructions=" ++ toString instructions
  | saved path => "DEBUG wrote three-address code path=" ++ path
  | extended statements => "DEBUG session extended statements=" ++ toString statements
  | noHistory path => "DEBUG no history loaded path=" ++ path
  | historyLost path reason => "DEBUG history not saved path=" ++ path ++ " error=" ++ reason

/-- What the log shows: without an option that asks for it, nothing. -/
def shown (verbosity : Nat) (logs : List Log) : List Log := if verbosity = 0 then [] else logs

end Log
end MeowScript
