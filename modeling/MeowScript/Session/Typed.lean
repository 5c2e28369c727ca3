import MeowScript.Session.Editor
import MeowScript.Text.Cluster

/-!
# A line editor without a terminal

Where standard input is not a terminal, there is nothing to edit on. The stream of bytes is cut into
lines, and each line that is text is carried out key by key: a backspace takes back what a reader
sees as the last character. A dialogue can be held with any other line editor.

Results:
* `keyed_of_no_backspace`: a line without a backspace stands as it was typed.
* `key_erase`: a backspace undoes the key before it, if the size of that key fits a byte.
-/
namespace MeowScript

/-- What has been typed of a line: its characters, the last first, and the sizes of the clusters
typed and not taken back, the last first. A size is kept in one byte and counts modulo 256. -/
structure Typed where
  chars : List Char
  sizes : List UInt8
  deriving DecidableEq, Repr

namespace Typed

def start : Typed := ⟨[], []⟩

/-- Drops `n` bytes from the front, with the whole of a character that would be cut. -/
def dropBytes : Nat → List Char → List Char
  | 0, cs => cs
  | _ + 1, [] => []
  | n + 1, c :: cs => dropBytes (n + 1 - c.utf8Size) cs

def byteCount : List Char → Nat
  | [] => 0
  | c :: cs => c.utf8Size + byteCount cs

/-- One key: a backspace, or a cluster. -/
def key (t : Typed) (cluster : List Char) : Typed :=
  if cluster = ['\x08'] then
    match t.sizes with
    | [] => t
    | n :: sizes => ⟨dropBytes n.toNat t.chars, sizes⟩
  else ⟨cluster.reverse ++ t.chars, (byteCount cluster).toUInt8 :: t.sizes⟩

theorem dropBytes_append (cs ds : List Char) : dropBytes (byteCount cs) (cs ++ ds) = ds := by
  induction cs with
  | nil => simp [byteCount, dropBytes]
  | cons c cs ih =>
    have hc := c.utf8Size_pos
    have hs : byteCount (c :: cs) = (c.utf8Size + byteCount cs - 1) + 1 := by
      simp only [byteCount]; omega
    rw [hs, List.cons_append, dropBytes]
    have : c.utf8Size + byteCount cs - 1 + 1 - c.utf8Size = byteCount cs := by omega
    rw [this, ih]

theorem byteCount_append (cs ds : List Char) :
    byteCount (cs ++ ds) = byteCount cs + byteCount ds := by
  induction cs with
  | nil => simp [byteCount]
  | cons c cs ih => simp only [List.cons_append, byteCount, ih]; omega

theorem byteCount_reverse (cs : List Char) : byteCount cs.reverse = byteCount cs := by
  induction cs with
  | nil => rfl
  | cons c cs ih => simp only [List.reverse_cons, byteCount_append, byteCount, ih]; omega

theorem key_erase {t : Typed} {cluster : List Char} (hc : cluster ≠ ['\x08'])
    (hn : byteCount cluster < 256) : (t.key cluster).key ['\x08'] = t := by
  have hs : (byteCount cluster).toUInt8.toNat = byteCount cluster := by
    simp [Nat.toUInt8, Nat.mod_eq_of_lt hn]
  simp only [key, if_neg hc, if_true, hs]
  rw [← byteCount_reverse, dropBytes_append]

end Typed

/-- What a line of keys comes to. -/
def keyed (cs : List Char) : List Char :=
  ((Text.clusters cs).foldl Typed.key .start).chars.reverse

theorem chars_foldl_key {xs : List (List Char)} (h : ∀ x ∈ xs, '\x08' ∉ x) (t : Typed) :
    (xs.foldl Typed.key t).chars.reverse = t.chars.reverse ++ xs.flatten := by
  induction xs generalizing t with
  | nil => simp
  | cons x xs ih =>
    have hx : x ≠ ['\x08'] := fun e => h x List.mem_cons_self (by simp [e])
    rw [List.foldl_cons, ih fun y hy => h y (List.mem_cons_of_mem _ hy)]
    simp [Typed.key, hx]

theorem keyed_of_no_backspace {cs : List Char} (h : '\x08' ∉ cs) : keyed cs = cs := by
  rw [keyed, chars_foldl_key]
  · simp [Typed.start, Text.clusters_flatten]
  · intro x hx hb
    refine h ?_
    rw [← Text.clusters_flatten cs]
    exact List.mem_flatten_of_mem hx hb

/-! ## Lines of bytes -/

/-- The lines of a stream of bytes: up to a line feed and without it and the carriage return
before it, and a last one that has no line feed unless it is empty. -/
def byteLines : List UInt8 → List (List UInt8)
  | [] => []
  | 10 :: rest => [] :: byteLines rest
  | 13 :: 10 :: rest => [] :: byteLines rest
  | b :: rest =>
    match byteLines rest with
    | [] => [[b]]
    | line :: lines => (b :: line) :: lines

/-- The line that bytes spell, if they are UTF-8. -/
def typedLine (bytes : List UInt8) : Option String :=
  (String.fromUTF8? ⟨bytes.toArray⟩).map fun s => String.ofList (keyed s.toList)

/-- What is answered where a line is not text. -/
def notText : Reply :=
  .failed "Io(Error \x7b kind: InvalidData, message: \"stream did not contain valid UTF-8\" \x7d)"

/-- The lines of a stream, each as typed if it is text. -/
def typedLines (bytes : List UInt8) : List Reply :=
  (byteLines bytes).map fun line => ((typedLine line).map Reply.line).getD notText

/-- The line editor that answers so, and keeps no history between runs. -/
def Editor.piped (σ : Type) : Editor σ where
  ready := .ok ()
  replies _ stdin := typedLines stdin.toList
  remember _ := .ok ()
  history := none
  load _ _ := .ok ()
  keep files _ _ := (.ok (), files)

end MeowScript
