import MeowScript.Command.Run

/-!
# The command `meow`

Reads arguments, files and standard input, and prints what `Command` and `Dialogue` say. Lines are
read one at a time, so that each is answered before the next one; no history is kept.
-/
namespace MeowScript.Command

/-- A failure of the system as messages give it. -/
def reason : IO.Error → String
  | .noFileOrDirectory _ _ _ => FileError.notFound.text
  | .permissionDenied _ n text | .inappropriateType _ n text | .resourceExhausted _ n text
  | .alreadyExists _ n text | .invalidArgument _ n text | .noSuchThing _ n text
  | .resourceBusy n text | .illegalOperation n text | .otherError n text =>
    text ++ " (os error " ++ toString n ++ ")"
  | e => toString e

/-- What the system gives, or why it does not. -/
def orReason {α : Type} (act : IO α) : IO (Except String α) :=
  try return .ok (← act) catch e => return .error (reason e)

def system : Ports IO where
  file path :=
    match Route.ofString path with
    | .error e => return .error e.text
    | .ok _ => orReason (IO.FS.readBinFile path)
  input := orReason do (← IO.getStdin).readBinToEnd
  save path text := orReason (IO.FS.writeFile path text)

def tell (verbosity : Nat) (logs : List Log) : IO Unit :=
  (Log.shown verbosity logs).forM fun log => IO.eprintln log.text

def compileTo (o : Options) (source : Source) : IO UInt32 := do
  let r := report o source.name (← system.text source)
  IO.print r.out
  let r ← system.finish r
  tell o.verbosity r.logs
  IO.eprint r.err
  return if r.ok then 0 else 1

/-- The bytes of a stream up to the next line feed, and with it. -/
partial def lineBytes (input : IO.FS.Stream) (line : ByteArray) : IO ByteArray := do
  let next ← input.read 1
  if next.isEmpty then return line
  let line := line ++ next
  if next.toList.contains 10 then return line
  lineBytes input line

partial def talkTo (input : IO.FS.Stream) (verbosity : Nat) (d : Dialogue) : IO Unit := do
  let reply := (typedLines (← lineBytes input .empty).toList).headD .ended
  let file ← match d.wanted? reply with
    | some path => system.text (.file path)
    | none => pure (.error "")
  let (course, next) := d.turn (fun _ => file) (fun _ => .ok ()) reply
  tell verbosity course.logs
  IO.print course.printed.out
  IO.eprint course.printed.err
  match next with
  | some d => talkTo input verbosity d
  | none => return

end MeowScript.Command

open MeowScript MeowScript.Command

def main (args : List String) : IO UInt32 := do
  match Options.ofArgs args with
  | .error e =>
    IO.eprint (usage e)
    return 1
  | .ok o =>
    match o.action with
    | .help => IO.print Help.command; return 0
    | .version => IO.print Help.versionLine; return 0
    | .repl =>
      IO.print Help.greeting
      talkTo (← IO.getStdin) o.verbosity .start
      return 0
    | .compile source => compileTo o source
