import MeowScript.Command.Options
import MeowScript.Compilation
import MeowScript.Log

/-!
# What a compilation prints

The tokens, the tree and the code of an accepted program, as far as they are asked for, or the
diagnostics of a rejected one.

Mirrors `run_compile` and `print_tokens` (main:90-162).

Results:
* `Report.saved_out`: saving changes nothing that is printed.
* `report_rejected`: a rejected program prints nothing to standard output and saves nothing.
-/
namespace MeowScript

/-- What goes to standard output, to standard error and to the log, what is to be saved and where,
and whether all went well. -/
structure Report where
  out : String
  err : String
  logs : List Log
  save : Option (String × String)
  ok : Bool
  deriving DecidableEq, Repr

namespace Report

def padLeft (n : Nat) (s : String) : String :=
  String.ofList (List.replicate (n - s.length) ' ') ++ s

def padRight (n : Nat) (s : String) : String :=
  s ++ String.ofList (List.replicate (n - s.length) ' ')

def tokenLine (t : Token) : String :=
  padLeft 4 (toString t.position.line) ++ ":" ++ padRight 4 (toString t.position.column) ++ " " ++
    padRight 16 t.kind.category.text ++ " " ++ t.lexeme ++ "\n"

/-- How many tokens there are of each class that occurs. -/
def summary (tokens : List Token) : String :=
  String.join <| Category.all.map fun c =>
    let n := tokens.countP fun t => t.kind.category == c
    if n = 0 then "" else "  " ++ padRight 16 c.text ++ " " ++ toString n ++ "\n"

/-- The tokens, one on a line (`print_tokens`, main:90-112). -/
def tokenTable (tokens : List Token) (verbose : Bool) : String :=
  "== tokens ==\n" ++ String.join (tokens.map tokenLine) ++
    (if verbose then "\n" ++ summary tokens else "") ++ "\n"

def tree (p : Program) : String := "== syntax tree ==\n" ++ p.outline ++ "\n"

/-- What is shown of an accepted program (main:137-152). The code is not shown if it is to be
saved. -/
def shown (o : Options) (c : Compilation) : String :=
  if o.codeOnly then c.listing
  else
    (if o.tokens || o.isVerbose then tokenTable c.tokens o.isVerbose else "") ++
    (if o.outline || o.isVerbose then tree c.program else "") ++
    (if o.output.isNone then "== three-address code ==\n" ++ c.listing else "")

/-- Every diagnostic on a line of its own, and their number (main:127-132). -/
def rejected (name : String) (r : Rejection) : String :=
  String.join <| (r.diagnostics.map Diagnostic.text ++ [r.message]).map fun s =>
    name ++ ": " ++ s ++ "\n"

end Report

/-- What is reported when an input cannot be read (main:118-121). -/
def unreadable (name reason : String) : String :=
  "Error reading '" ++ name ++ "': " ++ reason ++ "\n"

/-- What is reported when the code cannot be saved (main:155-158). -/
def saveFailure (path reason : String) : String :=
  "Error writing '" ++ path ++ "': " ++ reason ++ "\n"

/-- The report on the text of the input `name`, or on why it cannot be read (main:115-154). -/
def report (o : Options) (name : String) : Except String String → Report
  | .error reason => ⟨"", unreadable name reason, [], none, false⟩
  | .ok text =>
    let read := Log.compiling name text.utf8ByteSize
    match Compilation.ofText text with
    | .error r => ⟨"", Report.rejected name r, [read], none, false⟩
    | .ok c =>
      ⟨Report.shown o c, "", [read, .compiled c.code.length],
        o.output.map fun path => (path, c.listing), true⟩

/-- The report when the code has been saved, or could not be (main:154-161). -/
def Report.saved (r : Report) (path : String) : Except String Unit → Report
  | .ok () => { r with logs := r.logs ++ [.saved path] }
  | .error reason => { r with err := r.err ++ saveFailure path reason, ok := false }

theorem Report.saved_out (r : Report) (path : String) (result : Except String Unit) :
    (r.saved path result).out = r.out := by
  cases result <;> rfl

theorem report_rejected {o : Options} {name : String} {source : Except String String}
    (h : (report o name source).ok = false) :
    (report o name source).out = "" ∧ (report o name source).save = none := by
  unfold report at h ⊢
  split
  · exact ⟨rfl, rfl⟩
  · split
    · exact ⟨rfl, rfl⟩
    · simp_all

end MeowScript
