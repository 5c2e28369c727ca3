import MeowScript.Log

/-!
# The line editor

A dialogue does not read its lines itself. It asks a line editor for them, which may let a line be
changed while it is typed and keeps a history of what was entered. Nothing is known of it here but
what its calls give. What it shows on its own, prompts and the keys that are typed, is not part of
what a dialogue prints.

Mirrors the calls that `repl_loop` makes (repl:107-164).
-/
namespace MeowScript

/-- The answer to a call for a line. -/
inductive Reply where
  | line (text : String)
  /-- A key that drops what has been typed. -/
  | interrupted
  /-- The end of standard input, or a key that leaves. -/
  | ended
  | failed (reason : String)
  deriving DecidableEq, Repr

/-- A line editor, where `σ` is the state of the files. -/
structure Editor (σ : Type) where
  /-- Sets it up, or says why it cannot be. -/
  ready : Except String Unit
  /-- The answers to the calls for a line, in turn, with this standard input. -/
  replies : σ → ByteArray → List Reply
  /-- Takes an entry into the history, or says why it cannot. -/
  remember : String → Except String Unit
  /-- Where the history is kept between runs, if it is (repl:166-168). -/
  history : Option String
  /-- Reads the history that is kept there. -/
  load : σ → String → Except String Unit
  /-- Writes the history there, with the new entries. -/
  keep : σ → String → List String → Except String Unit × σ

end MeowScript
