import MeowScript.Command.Files
import MeowScript.Command.Report
import MeowScript.Session.Typed

/-!
# The host of a run

A run reads files and standard input, writes a file and asks a line editor for lines. What these
give is up to the host it is on. A compilation asks the host in one of two ways: as a program does,
or as a function of the files that gives the files after it.

Results:
* `Host.ports_text`: reading an input leaves the files of a host as they are.
* `Host.ports_finish_none`, `Host.ports_finish_some`: what saving makes of a report and the files.
-/
namespace MeowScript

/-- A host, where `σ` is the state of its files. -/
class Host (σ : Type) where
  /-- The bytes of a file, or why it cannot be read. -/
  read : σ → String → Except String ByteArray
  /-- The bytes of standard input to its end, where these are the ones that it holds, or why it
  cannot be read. -/
  input : σ → ByteArray → Except String ByteArray
  /-- Writes a text to a file, or says why it cannot. -/
  write : σ → String → String → Except String Unit × σ
  editor : Editor σ

/-- The directory is all that there is on this host, and standard input is no terminal. -/
instance : Host Files where
  read files path := (files.read path).mapError FileError.text
  input _ stdin := .ok stdin
  write files path text :=
    match files.write path text.toUTF8 with
    | .ok after => (.ok (), after)
    | .error e => (.error e.text, files)
  editor := .piped Files

/-- How a compilation asks for what it reads and writes. -/
structure Ports (m : Type → Type) where
  file : String → m (Except String ByteArray)
  input : m (Except String ByteArray)
  save : String → String → m (Except String Unit)

/-- Bytes as text, or why they are none. -/
def asText (bytes : ByteArray) : Except String String := (decode bytes).mapError FileError.text

/-- The program that inline statements are compiled as (main:85). -/
def Source.wrap (code : String) : String := "Wake\n" ++ code ++ "\nSleep"

namespace Ports

variable {m : Type → Type} [Monad m] (ports : Ports m)

/-- The text of an input (`read_source`, main:78-88). -/
def text : Source → m (Except String String)
  | .file path => return (← ports.file path).bind asText
  | .stdin => return (← ports.input).bind asText
  | .inline code => return .ok (Source.wrap code)

/-- Saves what is to be saved (main:154-161). -/
def finish (r : Report) : m Report :=
  match r.save with
  | none => return r
  | some (path, text) => return r.saved path (← ports.save path text)

/-- Compiles one input (`run_compile`, main:115-162). -/
def compile (o : Options) (source : Source) : m Report := do
  ports.finish (report o source.name (← ports.text source))

end Ports

namespace Host

variable {σ : Type} [Host σ]

/-- Ports to the files of a host, where standard input holds `stdin`. -/
def ports (stdin : ByteArray) : Ports (StateM σ) where
  file path := return read (← get) path
  input := return input (← get) stdin
  save path text := modifyGet fun files => write files path text

/-- A file as text, or why it is none. -/
def textOf (files : σ) (path : String) : Except String String := (read files path).bind asText

/-- The text of an input, or why there is none. -/
def sourceOf (files : σ) (stdin : ByteArray) : Source → Except String String
  | .file path => textOf files path
  | .stdin => (input files stdin).bind asText
  | .inline code => .ok (Source.wrap code)

theorem ports_text (files : σ) (stdin : ByteArray) (source : Source) :
    ((ports stdin).text source).run files = (sourceOf files stdin source, files) := by
  cases source <;> rfl

variable {r : Report} {path text : String}

theorem ports_finish_none (h : r.save = none) (files : σ) (stdin : ByteArray) :
    ((ports stdin).finish r).run files = (r, files) := by
  rw [Ports.finish, h]
  rfl

theorem ports_finish_some (h : r.save = some (path, text)) (files : σ) (stdin : ByteArray) :
    ((ports stdin).finish r).run files =
      (r.saved path (write files path text).1, (write files path text).2) := by
  rw [Ports.finish, h]
  rfl

end Host
end MeowScript
