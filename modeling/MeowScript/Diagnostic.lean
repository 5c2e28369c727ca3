import MeowScript.Check.Fault
import MeowScript.Grammar.Attempt
import MeowScript.Token.Scan

/-!
# Faults as they are shown

A compilation stops at the first phase that finds faults, with all the faults of that phase.

Mirrors `Phase`, `Diagnostic` and `CompileError` (error:47-148).

Results:
* `length_diagnostics`: every fault is shown once.
-/
namespace MeowScript

inductive Phase where
  | lexical | syntactic | semantic
  deriving DecidableEq, Repr

def Phase.text : Phase → String
  | lexical => "lexical"
  | syntactic => "syntax"
  | semantic => "semantic"

structure Diagnostic where
  phase : Phase
  code : String
  message : String
  position : Position
  deriving DecidableEq, Repr

namespace Diagnostic

/-- All of a diagnostic on one line. -/
def text (d : Diagnostic) : String :=
  d.phase.text ++ " error [" ++ d.code ++ "] at " ++ d.position.text ++ ": " ++ d.message

/-- The message and the place. -/
def brief (d : Diagnostic) : String := d.message ++ " at " ++ d.position.text

/-- Counts lines from the one after `offset`; the message stays as it is (`print_errors`,
repl:236-242). -/
def shift (offset : Nat) (d : Diagnostic) : Diagnostic :=
  { d with position := { d.position with line := max 1 (d.position.line - offset) } }

end Diagnostic

/-- The faults of the first phase that found any. -/
inductive Rejection where
  | lexical (faults : List (Located LexicalFault))
  | syntactic (faults : List (Located SyntaxFault))
  | semantic (faults : List (Located SemanticFault))
  deriving DecidableEq, Repr

namespace Rejection

def phase : Rejection → Phase
  | lexical _ => .lexical
  | syntactic _ => .syntactic
  | semantic _ => .semantic

def diagnostics : Rejection → List Diagnostic
  | lexical fs => fs.map fun f => ⟨.lexical, f.cause.code, f.cause.message, f.position⟩
  | syntactic fs => fs.map fun f => ⟨.syntactic, f.cause.code, f.cause.message, f.position⟩
  | semantic fs => fs.map fun f => ⟨.semantic, f.cause.code, f.cause.message, f.position⟩

def count : Rejection → Nat
  | lexical fs => fs.length
  | syntactic fs => fs.length
  | semantic fs => fs.length

def activity : Rejection → String
  | lexical _ => "lexical analysis"
  | syntactic _ => "parsing"
  | semantic _ => "semantic analysis"

def message (r : Rejection) : String :=
  r.activity ++ " failed with " ++ toString r.count ++ " error(s)"

theorem length_diagnostics (r : Rejection) : r.diagnostics.length = r.count := by
  cases r <;> simp [diagnostics, count]

end Rejection
end MeowScript
