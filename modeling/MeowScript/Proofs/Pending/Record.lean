import MeowScript.Proofs.Pending.Braces
import Mathlib.Data.List.Induction
import Mathlib.Order.Bounds.Defs

/-!
# What becomes of the lines

Lines are pushed one after the other, and what is pending is dropped now and then. A closing brace
with nothing to close is forgotten, so the braces counted open are not those opened less those
closed. They are the largest such difference over the ends of the text: what was forgotten stands
before the end where it is reached.

Results:
* `unclosed_greatest`: the braces open behind a text.
* `Record.Divided.push`: one line, pushed to an input that is pending.
* `Record.divided`: the lines of a run, input by input.
* `no_line_lost`: every run, with its flags and everything it hands back.
-/
namespace MeowScript

/-! ## Braces open behind a text -/

/-- How many more braces are opened than closed. -/
def excess (cs : List Char) : Int := cs.count '\x7b' - cs.count '\x7d'

/-- The excesses of the ends of a text, that of the empty one among them. -/
def endExcesses (cs : List Char) : Set Int := {n | ∃ s, s <:+ cs ∧ excess s = n}

theorem excess_snoc (cs : List Char) (c : Char) :
    excess (cs ++ [c]) =
      excess cs + if c = '\x7b' then 1 else if c = '\x7d' then -1 else 0 := by
  unfold excess
  rw [List.count_append, List.count_append]
  by_cases hopen : c = '\x7b'
  · subst hopen
    simp
    omega
  · by_cases hclose : c = '\x7d'
    · subst hclose
      simp
      omega
    · simp [hopen, hclose]

theorem unclosed_snoc (n : Nat) (cs : List Char) (c : Char) :
    unclosed n (cs ++ [c]) =
      if c = '\x7b' then unclosed n cs + 1
      else if c = '\x7d' then unclosed n cs - 1 else unclosed n cs := by
  rw [unclosed_append]
  rfl

/-- The braces open behind a text are the largest excess of its ends. -/
theorem unclosed_greatest (cs : List Char) : IsGreatest (endExcesses cs) (unclosed 0 cs) := by
  induction cs using List.reverseRecOn with
  | nil =>
    refine ⟨⟨[], List.suffix_refl [], rfl⟩, ?_⟩
    rintro n ⟨s, hs, rfl⟩
    rw [List.suffix_nil.mp hs]
    exact Int.le_refl 0
  | append_singleton cs c ih =>
    obtain ⟨⟨s, hs, hn⟩, hmax⟩ := ih
    rw [unclosed_snoc]
    constructor
    · -- an end that has the largest excess keeps it, unless a closing brace leaves none
      by_cases hforgotten : c = '\x7d' ∧ unclosed 0 cs = 0
      · obtain ⟨rfl, hzero⟩ := hforgotten
        exact ⟨[], List.nil_suffix, by simp [excess, hzero]⟩
      · refine ⟨s ++ [c], List.suffix_concat_iff.mpr (.inr ⟨s, rfl, hs⟩), ?_⟩
        rw [excess_snoc, hn]
        split
        · omega
        · split
          · next hclose =>
            have hpos : unclosed 0 cs ≠ 0 := fun hzero => hforgotten ⟨hclose, hzero⟩
            omega
          · omega
    · rintro n ⟨t, ht, rfl⟩
      obtain rfl | ⟨u, rfl, hu⟩ := List.suffix_concat_iff.mp ht
      · exact Int.natCast_nonneg _
      · have hle : excess u ≤ unclosed 0 cs := hmax ⟨u, hu, rfl⟩
        rw [excess_snoc]
        split
        · omega
        · split <;> omega

/-! ## Lines as they are written -/

/-- The text of lines, with a line feed behind each. -/
def written (lines : List String) : String := String.join (lines.map (· ++ "\n"))

theorem written_append (xs ys : List String) : written (xs ++ ys) = written xs ++ written ys := by
  rw [written, written, written, List.map_append, String.join_append]

theorem written_snoc (lines : List String) (line : String) :
    written (lines ++ [line]) = written lines ++ line ++ "\n" := by
  rw [written_append, String.append_assoc]
  simp [written]

theorem written_flatten (blocks : List (List String)) :
    written blocks.flatten = String.join (blocks.map written) := by
  induction blocks with
  | nil => rfl
  | cons b blocks ih => simp [written_append, ih]

theorem written_eq_empty {lines : List String} : written lines = "" ↔ lines = [] := by
  constructor
  · intro h
    by_contra hne
    obtain ⟨line, rest, rfl⟩ := List.exists_cons_of_ne_nil hne
    have hlist := congrArg String.toList h
    simp [written] at hlist
  · rintro rfl
    rfl

/-- The braces that lines leave open. -/
def leftOpen (lines : List String) : Nat := unclosed 0 (written lines).toList

theorem leftOpen_snoc (lines : List String) (line : String) :
    leftOpen (lines ++ [line]) = unclosed (leftOpen lines) line.toList := by
  unfold leftOpen
  rw [written_snoc, String.toList_append, String.toList_append, unclosed_append, unclosed_append]
  rfl

namespace Pending

/-! ## One input -/

/-- The lines leave a brace open, and so does each beginning of them. -/
def Waits (lines : List String) : Prop := ∀ ls, ls <+: lines → ls ≠ [] → 0 < leftOpen ls

/-- The lines are one input: the first at which no brace is open is the last. -/
def Whole (lines : List String) : Prop :=
  ∃ first last, lines = first ++ [last] ∧ Waits first ∧ leftOpen lines = 0

/-- What is handed back at the lines of one input: nothing before the last. -/
def handedBack (lines : List String) : List (Option String) :=
  List.replicate (lines.length - 1) none ++ [some (Text.trimmed (written lines))]

theorem waits_nil : Waits [] := fun _ hls hne => absurd (List.prefix_nil.mp hls) hne

theorem Waits.snoc {lines : List String} (h : Waits lines) {line : String}
    (hopen : 0 < leftOpen (lines ++ [line])) : Waits (lines ++ [line]) := by
  intro ls hls hne
  rcases List.prefix_concat_iff.mp hls with rfl | hls
  · exact hopen
  · exact h ls hls hne

theorem Waits.pos_iff {lines : List String} (h : Waits lines) :
    written lines ≠ "" ↔ 0 < leftOpen lines := by
  rw [ne_eq, written_eq_empty]
  constructor
  · exact h lines (List.prefix_refl lines)
  · rintro hpos rfl
    exact absurd hpos (by decide)

/-! ## A run -/

/-- A line is pushed, or what is pending is dropped. -/
inductive Event where
  | push (line : String)
  | clear
  deriving DecidableEq, Repr

/-- What is pending, and the lines pushed since it was last dropped, each with what was handed back
at it. -/
structure Record where
  pending : Pending
  log : List (String × Option String)
  deriving DecidableEq, Repr

namespace Record

def start : Record := ⟨.start, []⟩

def next (r : Record) : Event → Record
  | .push line => ⟨(r.pending.push line).2, r.log ++ [(line, (r.pending.push line).1)]⟩
  | .clear => start

/-- The record of events in turn. -/
def ofEvents (events : List Event) : Record := events.foldl next start

def lines (r : Record) : List String := r.log.map Prod.fst

/-- What was handed back at each line. -/
def answers (r : Record) : List (Option String) := r.log.map Prod.snd

/-- The lines are these inputs, each handed back at its last line, and the lines of one more that
is pending. -/
structure Divided (r : Record) (inputs : List (List String)) (rest : List String) : Prop where
  lines : r.lines = inputs.flatten ++ rest
  answers : r.answers = inputs.flatMap handedBack ++ rest.map fun _ => none
  whole : ∀ b ∈ inputs, Whole b
  waits : Waits rest
  text : r.pending.text = written rest
  braces : r.pending.braces = leftOpen rest

theorem divided_start : start.Divided [] [] where
  lines := rfl
  answers := rfl
  whole := List.forall_mem_nil _
  waits := waits_nil
  text := rfl
  braces := rfl

section
variable {r : Record} {inputs : List (List String)} {rest : List String}

theorem Divided.push_eq (h : r.Divided inputs rest) (line : String) :
    r.pending.push line =
      if 0 < leftOpen (rest ++ [line]) then
        (none, ⟨written (rest ++ [line]), leftOpen (rest ++ [line])⟩)
      else (some (Text.trimmed (written (rest ++ [line]))), .start) := by
  rw [leftOpen_snoc, written_snoc, ← h.text, ← h.braces]
  rfl

/-- The line ends the pending input if it leaves no brace open, and is kept otherwise. -/
theorem Divided.push (h : r.Divided inputs rest) (line : String) :
    ∃ inputs' rest', (r.next (.push line)).Divided inputs' rest' := by
  have hlines : (r.next (.push line)).lines = inputs.flatten ++ rest ++ [line] := by
    rw [← h.lines]
    exact List.map_append
  have hanswers : (r.next (.push line)).answers =
      inputs.flatMap handedBack ++ rest.map (fun _ => none) ++ [(r.pending.push line).1] := by
    rw [← h.answers]
    exact List.map_append
  have hpending : (r.next (.push line)).pending = (r.pending.push line).2 := rfl
  rw [h.push_eq] at hanswers hpending
  by_cases hopen : 0 < leftOpen (rest ++ [line])
  · rw [if_pos hopen] at hanswers hpending
    refine ⟨inputs, rest ++ [line], ?_, ?_, h.whole, h.waits.snoc hopen, ?_, ?_⟩
    · rw [hlines, List.append_assoc]
    · rw [hanswers, List.map_append, List.append_assoc]
      rfl
    · rw [hpending]
    · rw [hpending]
  · rw [if_neg hopen] at hanswers hpending
    have hwhole : Whole (rest ++ [line]) := ⟨rest, line, rfl, h.waits, by omega⟩
    refine ⟨inputs ++ [rest ++ [line]], [], ?_, ?_, ?_, waits_nil, ?_, ?_⟩
    · rw [hlines]
      simp
    · rw [hanswers]
      simp [handedBack]
    · intro b hb
      rcases List.mem_append.mp hb with hb | hb
      · exact h.whole b hb
      · rw [List.mem_singleton.mp hb]
        exact hwhole
    · rw [hpending]
      rfl
    · rw [hpending]
      rfl

end

theorem divided (events : List Event) :
    ∃ inputs rest, (ofEvents events).Divided inputs rest := by
  induction events using List.reverseRecOn with
  | nil => exact ⟨[], [], divided_start⟩
  | append_singleton events e ih =>
    obtain ⟨inputs, rest, h⟩ := ih
    have hlast : ofEvents (events ++ [e]) = (ofEvents events).next e := by simp [ofEvents]
    rw [hlast]
    cases e with
    | push line => exact h.push line
    | clear => exact ⟨[], [], divided_start⟩

end Record

theorem handedBack_inputs (inputs : List (List String)) :
    (inputs.flatMap handedBack).filterMap id =
      inputs.map fun b => Text.trimmed (written b) := by
  induction inputs with
  | nil => rfl
  | cons b inputs ih =>
    rw [List.flatMap_cons, List.filterMap_append, ih]
    simp [handedBack]

/-- **Main.** After any events, something is pending if and only if a brace is open, and the braces
counted open are the largest excess of the ends of the pending text. The lines pushed since the last
time it was cleared are whole inputs and the pending lines: the texts of the inputs and the pending
text together are those lines, and what was handed back is the text of each input, trimmed, at its
last line, the first that leaves no brace open. -/
theorem no_line_lost (events : List Event) :
    let r := Record.ofEvents events
    (r.pending.text ≠ "" ↔ 0 < r.pending.braces) ∧
    IsGreatest (endExcesses r.pending.text.toList) r.pending.braces ∧
    ∃ inputs rest, r.Divided inputs rest ∧
      String.join (inputs.map written) ++ r.pending.text = written r.lines ∧
      r.answers.filterMap id = inputs.map fun b => Text.trimmed (written b) := by
  intro r
  obtain ⟨inputs, rest, h⟩ := Record.divided events
  have hflags : r.pending.text ≠ "" ↔ 0 < r.pending.braces := by
    rw [h.text, h.braces]
    exact h.waits.pos_iff
  have hgreatest : IsGreatest (endExcesses r.pending.text.toList) r.pending.braces := by
    rw [h.text, h.braces]
    exact unclosed_greatest _
  refine ⟨hflags, hgreatest, inputs, rest, h, ?_, ?_⟩
  · rw [h.lines, h.text, written_append, written_flatten]
  · rw [h.answers, List.filterMap_append, handedBack_inputs]
    simp

/-- Braces closed too early are forgotten, and lines that are cleared are not handed back. -/
example : (Record.ofEvents [.push "x \x7b", .clear, .push "\x7d\x7d \x7b", .push "\x7d"]).answers =
    [none, some "\x7d\x7d \x7b\n\x7d"] := by
  decide

end Pending
end MeowScript
