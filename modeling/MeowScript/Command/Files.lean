/-!
# A directory of files

A directory holds files, some of them in directories of its own. A path is walked part by part.
Each part but the last has to lead to a directory, and so has the last if a slash stands behind it
or if it is a dot part. Nothing is known of what lies outside but that it holds directories.

Results:
* `contents?_put_self`, `contents?_put_of_ne`: a file that is put somewhere stands there, and no
  other file changes.
* `contents?_write`: what was written stands where the path led.
-/
namespace MeowScript

inductive FileError where
  | notFound | isDirectory | notDirectory | nameTooLong | holdsNul | notUtf8
  deriving DecidableEq, Repr

def FileError.text : FileError → String
  | notFound => "No such file or directory (os error 2)"
  | isDirectory => "Is a directory (os error 21)"
  | notDirectory => "Not a directory (os error 20)"
  | nameTooLong => "File name too long (os error 36)"
  | holdsNul => "file name contained an unexpected NUL byte"
  | notUtf8 => "stream did not contain valid UTF-8"

/-- Bytes as text, if they are UTF-8. -/
def decode (bytes : ByteArray) : Except FileError String :=
  match String.fromUTF8? bytes with
  | some text => .ok text
  | none => .error .notUtf8

/-- Names that lead from the directory down to a file or another directory. -/
abbrev Place := List String

/-- Whether `p` leads to `q` and further. -/
def Place.leadsTo (p q : Place) : Bool := p.isPrefixOf q && p.length < q.length

/-! ## Paths -/

/-- A path taken apart. -/
structure Route where
  /-- Where it starts; `none` lies outside. -/
  origin : Option Place
  /-- What stands between its slashes, if anything does. -/
  parts : List String
  /-- Whether a slash ends it. -/
  closed : Bool
  deriving DecidableEq, Repr

namespace Route

/-- The most bytes that a path has, and those that a name has. -/
def maxPath : Nat := 4095

def maxName : Nat := 255

def partsOf (s : String) : List String := (s.splitOn "/").filter (· != "")

def ofString (s : String) : Except FileError Route :=
  if s.toList.contains '\x00' then .error .holdsNul
  else if s = "" then .error .notFound
  else if maxPath < s.utf8ByteSize then .error .nameTooLong
  else .ok ⟨if s.toList.head? = some '/' then none else some [], partsOf s,
    s.toList.getLast? == some '/'⟩

/-- The part that stays where it is, and the one that goes up. -/
def isDots (part : String) : Bool := part == "." || part == ".."

/-- The name at the end, if there is one. -/
def name? (r : Route) : Option String := r.parts.getLast?.filter fun part => !isDots part

end Route

/-! ## What a directory holds -/

structure Files where
  entries : List (Place × ByteArray)

inductive Entry where
  | directory
  | file (bytes : ByteArray)

namespace Files

def ofList (entries : List (String × ByteArray)) : Files :=
  ⟨entries.map fun e => (Route.partsOf e.1, e.2)⟩

def contents? (d : Files) (p : Place) : Option ByteArray := d.entries.lookup p

def isDirectory (d : Files) (p : Place) : Bool := p.isEmpty || d.entries.any fun e => p.leadsTo e.1

/-- What stands under a name in the directory at `p`. -/
def entry? (d : Files) (p : Place) (name : String) : Except FileError (Option Entry) :=
  if Route.maxName < name.utf8ByteSize then .error .nameTooLong
  else if d.isDirectory (p ++ [name]) then .ok (some .directory)
  else .ok ((d.contents? (p ++ [name])).map .file)

/-- The directory that a part leads to from another one. -/
def step (d : Files) (place : Option Place) (part : String) : Except FileError (Option Place) :=
  if part = "." then .ok place
  else
    match place with
    | none => if part = ".." then .ok none else .error .notFound
    | some p =>
      if part = ".." then .ok (if p.isEmpty then none else some p.dropLast)
      else do
        match ← d.entry? p part with
        | some .directory => .ok (some (p ++ [part]))
        | some (.file _) => .error .notDirectory
        | none => .error .notFound

/-- The directory at the end of a list of parts. -/
def walk (d : Files) (place : Option Place) : List String → Except FileError (Option Place)
  | [] => .ok place
  | part :: parts => do d.walk (← d.step place part) parts

/-- The outcome of opening a directory as a file. -/
def refuse {α : Type} (d : Files) (place : Option Place) (parts : List String) :
    Except FileError α := do
  let _ ← d.walk place parts
  .error .isDirectory

def read (d : Files) (path : String) : Except FileError ByteArray := do
  let r ← Route.ofString path
  match r.name?, r.closed with
  | some name, false =>
    match ← d.walk r.origin r.parts.dropLast with
    | none => .error .notFound
    | some p =>
      match ← d.entry? p name with
      | some (.file bytes) => .ok bytes
      | some .directory => .error .isDirectory
      | none => .error .notFound
  | _, _ => d.refuse r.origin r.parts

/-- Where a file is made or replaced under a path. A slash behind a name that is to be written
makes it a directory, whatever stands there. -/
def target (d : Files) (path : String) : Except FileError Place := do
  let r ← Route.ofString path
  match r.name? with
  | none => d.refuse r.origin r.parts
  | some name =>
    match ← d.walk r.origin r.parts.dropLast, r.closed with
    | _, true => .error .isDirectory
    | none, false => .error .notFound
    | some p, false =>
      match ← d.entry? p name with
      | some .directory => .error .isDirectory
      | _ => .ok (p ++ [name])

/-- The directory with another file at `p`. -/
def put (d : Files) (p : Place) (bytes : ByteArray) : Files :=
  ⟨(p, bytes) :: d.entries.filter fun e => e.1 != p⟩

def write (d : Files) (path : String) (bytes : ByteArray) : Except FileError Files :=
  (d.target path).map (d.put · bytes)

theorem contents?_put_self (d : Files) (p : Place) (bytes : ByteArray) :
    (d.put p bytes).contents? p = some bytes := by
  simp [put, contents?]

theorem contents?_put_of_ne (d : Files) {p q : Place} (bytes : ByteArray) (h : q ≠ p) :
    (d.put p bytes).contents? q = d.contents? q := by
  have hq : (q == p) = false := by simpa using h
  simp only [put, contents?, List.lookup_cons, hq]
  induction d.entries with
  | nil => rfl
  | cons e es ih =>
    obtain ⟨k, b⟩ := e
    by_cases hk : k = p
    · subst hk; simpa [List.lookup_cons, hq] using ih
    · simp [List.lookup_cons, hk, ih]

theorem contents?_write {d e : Files} {path : String} {bytes : ByteArray}
    (h : d.write path bytes = .ok e) :
    ∃ p, d.target path = .ok p ∧ e.contents? p = some bytes := by
  unfold write at h
  cases ht : d.target path with
  | error f => rw [ht] at h; cases h
  | ok p =>
    rw [ht] at h
    cases h
    exact ⟨p, rfl, contents?_put_self d p bytes⟩

end Files
end MeowScript
