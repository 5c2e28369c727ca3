/-!
# Command line options

Arguments are read from left to right. Flags may be repeated and stand anywhere; at most one input
may be given; the value of an option is the argument after it, whatever it looks like.

Mirrors `Options`, its method `parse` and the types around it (config:4-146).

Results:
* `Request.verbosity_louder_le`: the verbosity stops at 255.
-/
namespace MeowScript

inductive UsageFault where
  | missingValue (option : String)
  | unknownOption (option : String)
  | extraInput (argument : String)
  deriving DecidableEq, Repr

def UsageFault.message : UsageFault → String
  | missingValue option => option ++ " requires a value"
  | unknownOption option => "unknown option '" ++ option ++ "'"
  | extraInput argument =>
    "unexpected argument '" ++ argument ++ "': only one input may be given"

/-- Where the program text comes from. -/
inductive Source where
  | file (path : String)
  | stdin
  | inline (code : String)
  deriving DecidableEq, Repr

/-- How messages name the input. -/
def Source.name : Source → String
  | file path => path
  | stdin => "<stdin>"
  | inline _ => "<inline>"

/-- What the command is asked to do. -/
inductive Action where
  | help | version | repl
  | compile (source : Source)
  deriving DecidableEq, Repr

structure Options where
  action : Action
  verbosity : Nat
  tokens : Bool
  outline : Bool
  codeOnly : Bool
  output : Option String
  deriving DecidableEq, Repr

namespace Options

def isVerbose (o : Options) : Bool := o.verbosity > 0

/-- What the arguments read so far ask for. -/
structure Request where
  help : Bool
  version : Bool
  repl : Bool
  verbosity : Nat
  tokens : Bool
  outline : Bool
  codeOnly : Bool
  output : Option String
  input : Option Source
  deriving DecidableEq, Repr

namespace Request

def nothing : Request := ⟨false, false, false, 0, false, false, false, none, none⟩

/-- Verbosity counts up to 255. -/
def louder (n : Nat) (r : Request) : Request := { r with verbosity := min 255 (r.verbosity + n) }

/-- The effect of an argument that stands for itself. -/
def flag? : String → Option (Request → Request)
  | "-h" | "--help" => some fun r => { r with help := true }
  | "-V" | "--version" => some fun r => { r with version := true }
  | "-i" | "--repl" => some fun r => { r with repl := true }
  | "-v" | "--verbose" => some (louder 1)
  | "-vv" => some (louder 2)
  | "--tokens" => some fun r => { r with tokens := true }
  | "--ast" => some fun r => { r with outline := true }
  | "--tac-only" => some fun r => { r with codeOnly := true }
  | _ => none

/-- Takes an input, which `argument` gives, unless there is one. -/
def give (r : Request) (argument : String) (input : Source) : Except UsageFault Request :=
  match r.input with
  | some _ => .error (.extraInput argument)
  | none => .ok { r with input := some input }

/-- The input that an argument other than an option names. -/
def sourceNamed (argument : String) : Except UsageFault Source :=
  if argument = "-" then .ok .stdin
  else if argument.toList.head? = some '-' then .error (.unknownOption argument)
  else .ok (.file argument)

def read (r : Request) : List String → Except UsageFault Request
  | [] => .ok r
  | argument :: rest =>
    match flag? argument with
    | some change => (change r).read rest
    | none =>
      if argument = "-o" ∨ argument = "--output" then
        match rest with
        | [] => .error (.missingValue "-o")
        | path :: rest => { r with output := some path }.read rest
      else if argument = "-e" then
        match rest with
        | [] => .error (.missingValue "-e")
        | code :: rest =>
          match r.give argument (.inline code) with
          | .error e => .error e
          | .ok r => r.read rest
      else
        match sourceNamed argument with
        | .error e => .error e
        | .ok input =>
          match r.give argument input with
          | .error e => .error e
          | .ok r => r.read rest

/-- Asking for help wins over asking for the version, and both over everything else. -/
def action (r : Request) : Action :=
  if r.help then .help
  else if r.version then .version
  else
    match r.input, r.repl with
    | some input, false => .compile input
    | _, _ => .repl

def options (r : Request) : Options :=
  ⟨r.action, r.verbosity, r.tokens, r.outline, r.codeOnly, r.output⟩

theorem verbosity_louder_le (n : Nat) (r : Request) : (r.louder n).verbosity ≤ 255 :=
  Nat.min_le_left _ _

end Request

/-- The options that the arguments after the name of the program give. -/
def ofArgs (args : List String) : Except UsageFault Options :=
  (Request.nothing.read args).map Request.options

end Options
end MeowScript
