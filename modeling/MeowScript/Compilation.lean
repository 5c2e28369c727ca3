import MeowScript.Check.Statement
import MeowScript.Code.Lower
import MeowScript.Diagnostic
import MeowScript.Grammar.Program
import MeowScript.Tree.Outline

/-!
# Compiling a text

Tokens, tree, check and code in turn.

Mirrors `Compilation` and `compile` (lib:24-55).
-/
namespace MeowScript

structure Compilation where
  tokens : List Token
  program : Program
  code : List Instr
  deriving Repr

def Compilation.listing (c : Compilation) : String := MeowScript.listing c.code

/-- What a text compiles to, or why it does not. -/
def Compilation.ofText (source : String) : Except Rejection Compilation :=
  match tokensOf source with
  | .error faults => .error (.lexical faults)
  | .ok tokens =>
    match Program.ofTokens tokens with
    | .error faults => .error (.syntactic faults)
    | .ok tree =>
      match tree.check with
      | .error faults => .error (.semantic faults)
      | .ok program => .ok ⟨tokens, program, program.lower⟩

end MeowScript
