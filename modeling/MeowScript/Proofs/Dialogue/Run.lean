import MeowScript.Session.Dialogue

/-!
# A run of a dialogue

A run answers one line after another, until one leaves or the lines end. Every line that is reached
has an answer of its own.

Results:
* `Dialogue.follow_append`, `Dialogue.answers_getElem?`: a run goes on where another one ended, and
  answers each line at its place.
* `Dialogue.converse_follow`: what is printed is the answers in turn, and what comes behind them.
* `Dialogue.follow_completes`: an input of several lines is answered at the last of them.
-/
namespace MeowScript

/-! ## Answers in turn -/

namespace Printed

theorem nothing_append (a : Printed) : nothing ++ a = a := by
  show Printed.mk ("" ++ a.out) ("" ++ a.err) = a
  rw [String.empty_append, String.empty_append]

theorem append_nothing (a : Printed) : a ++ nothing = a := by
  show Printed.mk (a.out ++ "") (a.err ++ "") = a
  rw [String.append_empty, String.append_empty]

theorem toOut_append (s : String) (a : Printed) : toOut s ++ a = ⟨s ++ a.out, a.err⟩ := by
  show Printed.mk (s ++ a.out) ("" ++ a.err) = _
  rw [String.empty_append]

theorem toErr_append (s : String) (a : Printed) : toErr s ++ a = ⟨a.out, s ++ a.err⟩ := by
  show Printed.mk ("" ++ a.out) (s ++ a.err) = _
  rw [String.empty_append]

theorem append_assoc (a b c : Printed) : a ++ b ++ c = a ++ (b ++ c) := by
  show Printed.mk (a.out ++ b.out ++ c.out) (a.err ++ b.err ++ c.err) =
    ⟨a.out ++ (b.out ++ c.out), a.err ++ (b.err ++ c.err)⟩
  rw [String.append_assoc, String.append_assoc]

/-- What is printed in turn. -/
def joined (answers : List Printed) : Printed := answers.foldr (· ++ ·) nothing

theorem joined_cons (a : Printed) (as : List Printed) : joined (a :: as) = a ++ joined as := rfl

theorem joined_append (as bs : List Printed) : joined (as ++ bs) = joined as ++ joined bs := by
  induction as with
  | nil => rw [List.nil_append]; exact (nothing_append _).symm
  | cons a as ih => rw [List.cons_append, joined_cons, joined_cons, ih, append_assoc]

theorem joined_nothing {as : List Printed} (h : ∀ a ∈ as, a = nothing) : joined as = nothing := by
  induction as with
  | nil => rfl
  | cons a as ih =>
    obtain ⟨rfl, hrest⟩ := List.forall_mem_cons.mp h
    rw [joined_cons, nothing_append, ih hrest]

end Printed

/-- The answers to the lines that are reached, the dialogue behind the last of them that does not
leave, and whether one leaves. -/
structure Transcript where
  answers : List Printed
  last : Dialogue
  left : Bool
  deriving Repr

namespace Dialogue

/-- Answers lines in turn until one leaves. -/
def follow (read : String → Except String String) (d : Dialogue) : List String → Transcript
  | [] => ⟨[], d, false⟩
  | line :: lines =>
    match d.answer read line with
    | (printed, none) => ⟨[printed], d, true⟩
    | (printed, some e) =>
      let t := e.follow read lines
      ⟨printed :: t.answers, t.last, t.left⟩

variable {read : String → Except String String} {d e : Dialogue} {line : String}
  {printed : Printed}

theorem follow_leave (h : d.answer read line = (printed, none)) (lines : List String) :
    d.follow read (line :: lines) = ⟨[printed], d, true⟩ := by
  rw [follow, h]

theorem follow_stay (h : d.answer read line = (printed, some e)) (lines : List String) :
    d.follow read (line :: lines) =
      ⟨printed :: (e.follow read lines).answers, (e.follow read lines).last,
        (e.follow read lines).left⟩ := by
  rw [follow, h]

theorem follow_append {xs : List String} (h : (d.follow read xs).left = false)
    (ys : List String) :
    d.follow read (xs ++ ys) =
      ⟨(d.follow read xs).answers ++ ((d.follow read xs).last.follow read ys).answers,
        ((d.follow read xs).last.follow read ys).last,
        ((d.follow read xs).last.follow read ys).left⟩ := by
  induction xs generalizing d with
  | nil => rfl
  | cons line xs ih =>
    rcases ha : d.answer read line with ⟨printed, _ | e⟩
    · rw [follow_leave ha] at h
      cases h
    · rw [follow_stay ha] at h
      rw [List.cons_append, follow_stay ha, follow_stay ha, ih h, List.cons_append]

/-- A run that is not left has answered every line. -/
theorem length_answers {xs : List String} (h : (d.follow read xs).left = false) :
    (d.follow read xs).answers.length = xs.length := by
  induction xs generalizing d with
  | nil => rfl
  | cons line xs ih =>
    rcases ha : d.answer read line with ⟨printed, _ | e⟩
    · rw [follow_leave ha] at h
      cases h
    · rw [follow_stay ha] at h ⊢
      rw [List.length_cons, ih h, List.length_cons]

/-- The answer to a line stands behind those to the lines before it. -/
theorem answers_getElem? {pre : List String} (h : (d.follow read pre).left = false)
    (ha : (d.follow read pre).last.answer read line = (printed, some e)) (post : List String) :
    (d.follow read (pre ++ line :: post)).answers[pre.length]? = some printed := by
  rw [follow_append h, follow_stay ha]
  dsimp only
  rw [← length_answers h, List.getElem?_append_right (Nat.le_refl _), Nat.sub_self]
  rfl

section
variable {remember : String → Except String Unit} (h : ∀ entry, remember entry = .ok ())
include h

/-- A turn with a line is the answer to it, if the history takes in every entry. -/
theorem turn_line (read : String → Except String String) (d : Dialogue) (line : String) : ∃ course,
    d.turn read remember (.line line) = (course, (d.answer read line).2) ∧
      course.printed = (d.answer read line).1 := by
  have hentry : ((d.entry? line).map remember).getD (.ok ()) = .ok () := by
    cases d.entry? line with
    | none => rfl
    | some entry => exact h entry
  rw [turn, hentry]
  rcases d.answer read line with ⟨printed, _ | e⟩ <;> exact ⟨_, rfl, rfl⟩

theorem converse_follow (lines : List String) (more : List Reply) :
    (d.converse read remember (lines.map .line ++ more)).printed =
      .joined (d.follow read lines).answers ++
        if (d.follow read lines).left then .nothing
        else ((d.follow read lines).last.converse read remember more).printed := by
  induction lines generalizing d with
  | nil => exact (Printed.nothing_append _).symm
  | cons line lines ih =>
    obtain ⟨course, hturn, hprinted⟩ := turn_line h read d line
    rw [List.map_cons, List.cons_append, converse, hturn]
    rcases ha : d.answer read line with ⟨printed, _ | e⟩
    · rw [follow_leave ha]
      show course.printed = (printed ++ .nothing) ++ .nothing
      rw [hprinted, ha, Printed.append_nothing, Printed.append_nothing]
    · rw [follow_stay ha]
      show course.printed ++ (e.converse read remember (lines.map .line ++ more)).printed = _
      rw [hprinted, ha, ih, Printed.joined_cons, Printed.append_assoc]

end

end Dialogue

/-! ## A whole input -/

namespace Pending

/-- These lines are one input: it is handed back at the last of them. -/
inductive Completes : Pending → List String → String → Prop where
  | last {p q : Pending} {line input : String} :
      p.push line = (some input, q) → Completes p [line] input
  | more {p q : Pending} {line input : String} {lines : List String} :
      p.push line = (none, q) → Completes q lines input → Completes p (line :: lines) input

theorem push_some {p q : Pending} {line input : String} (h : p.push line = (some input, q)) :
    q = start := by
  dsimp only [push] at h
  split at h
  · cases h
  · exact (Prod.mk.inj h).2.symm

theorem push_none {p q : Pending} {line : String} (h : p.push line = (none, q)) :
    q.hasBegun = true := by
  dsimp only [push] at h
  split at h
  · obtain ⟨-, rfl⟩ := Prod.mk.inj h
    rw [hasBegun, bne_iff_ne, ne_eq, ← String.toList_inj, String.toList_append]
    simp
  · cases h

end Pending

namespace Dialogue

variable {d : Dialogue}

theorem complete_empty : d.complete "" = (.nothing, d) := if_pos rfl

theorem complete_rejected {text : String} {r : Rejection} (hne : text ≠ "")
    (h : d.session.extend text = .error r) :
    d.complete text = (shifted d.session.offset r, d) := by
  rw [complete, if_neg hne, h]

theorem complete_accepted {text added : String} {s : Session} (hne : text ≠ "")
    (h : d.session.extend text = .ok (added, s)) :
    d.complete text = (.toOut added, { d with session := s }) := by
  rw [complete, if_neg hne, h]

/-- Nothing is answered before the last line of an input, and nothing is pending behind it. -/
theorem follow_completes (read : String → Except String String) {lines : List String}
    {input : String} (hlines : d.pending.Completes lines input)
    (hfirst : ∀ line ∈ lines.head?, d.command? line = none) :
    ∃ waiting, (∀ w ∈ waiting, w = .nothing) ∧ d.follow read lines =
      ⟨waiting ++ [({ d with pending := .start }.complete input).1],
        ({ d with pending := .start }.complete input).2, false⟩ := by
  generalize hp : d.pending = p at hlines
  induction hlines generalizing d with
  | @last p q line input hpush =>
    have ha : d.answer read line = (({ d with pending := .start }.complete input).1,
        some ({ d with pending := .start }.complete input).2) := by
      rw [answer, hfirst line rfl, hp, hpush, Pending.push_some hpush]
    exact ⟨[], List.forall_mem_nil _, follow_stay ha []⟩
  | @more p q line input lines hpush hlines ih =>
    have ha : d.answer read line = (.nothing, some { d with pending := q }) := by
      rw [answer, hfirst line rfl, hp, hpush]
    have hbegun : ∀ line ∈ lines.head?, command? { d with pending := q } line = none :=
      fun _ _ => if_pos (Pending.push_none hpush)
    obtain ⟨waiting, hwaiting, hrest⟩ := ih hbegun rfl
    refine ⟨.nothing :: waiting, List.forall_mem_cons.mpr ⟨rfl, hwaiting⟩, ?_⟩
    rw [follow_stay ha, hrest, List.cons_append]

end Dialogue
end MeowScript
