import MeowScript.Proofs.Dialogue.Run
import Mathlib.Logic.Basic

/-!
# A dialogue is what it has kept

What a line is, a command or a part of an input, depends on the lines before it and not on the
session. The inputs kept are those that compile together with the ones kept before them, since the
last `.clear`. A dialogue between two inputs is made of nothing else, so a command and a rejected
input leave no trace.

Results:
* `Session.source_eq_programText`: what is compiled is the inputs kept and another, line by line.
* `Session.Keeps.unique`: a session is determined by the inputs it keeps.
* `Dialogue.Holds.answer`, `Dialogue.Holds.follow`: what one line and what a run keep.
* `Dialogue.Idle.follow`: lines that leave no trace leave the dialogue as it was.
* `dialogue_of_accepted`: the answers of a run, with and without such lines.
-/
namespace MeowScript

/-! ## Turns -/

/-- What a line is: a command, a part of an input, or the end of one. -/
inductive Turn where
  | command (c : DotCommand)
  | goesOn
  | input (text : String)
  deriving DecidableEq, Repr

namespace Pending

/-- What a line is behind what is pending, and what is pending behind it. -/
def turn (p : Pending) (line : String) : Turn × Pending :=
  match if p.hasBegun then none else DotCommand.ofLine? line with
  | some c => (.command c, p)
  | none =>
    match p.push line with
    | (none, q) => (.goesOn, q)
    | (some text, q) => (.input text, q)

def turns (p : Pending) : List String → List Turn
  | [] => []
  | line :: lines => (p.turn line).1 :: (p.turn line).2.turns lines

/-- An input that has not begun is empty, and so are the braces counted. -/
def Settled (p : Pending) : Prop := p.hasBegun = false → p = start

theorem Settled.turn {p : Pending} (h : p.Settled) (line : String) : (p.turn line).2.Settled := by
  unfold Pending.turn
  split
  · exact h
  · rcases hp : p.push line with ⟨_ | text, q⟩
    · intro hq
      rw [push_none hp] at hq
      cases hq
    · exact fun _ => push_some hp

end Pending

/-! ## What a session keeps -/

/-- The program of some inputs, line by line. -/
def programText (inputs : List String) : String :=
  "\n".intercalate ("Wake" :: inputs ++ ["Sleep"])

/-- The inputs kept behind a turn: an input is kept if it compiles with those kept before. -/
def keep (kept : List String) : Turn → List String
  | .command .clear => []
  | .input text =>
    if text ≠ "" ∧ (Compilation.ofText (programText (kept ++ [text]))).isOk then kept ++ [text]
    else kept
  | _ => kept

section
variable {kept : List String} {text : String}

theorem keep_empty : keep kept (.input "") = kept := by
  rw [keep, if_neg fun h => h.1 rfl]

theorem keep_rejected {r : Rejection}
    (h : Compilation.ofText (programText (kept ++ [text])) = .error r) :
    keep kept (.input text) = kept := by
  refine if_neg fun hok => ?_
  rw [h] at hok
  cases hok.2

theorem keep_accepted {c : Compilation} (hne : text ≠ "")
    (h : Compilation.ofText (programText (kept ++ [text])) = .ok c) :
    keep kept (.input text) = kept ++ [text] :=
  if_pos ⟨hne, by rw [h]; rfl⟩

end

/-- The inputs accepted among these lines since the last `.clear`. -/
def accepted (lines : List String) : List String := (Pending.start.turns lines).foldl keep []

namespace Session

theorem source_eq_programText (s : Session) (input : String) :
    s.source input = programText (s.statements ++ [input]) := by
  have hlines : ∀ texts : List String, "\n".intercalate (texts ++ [input] ++ ["Sleep"]) =
      String.join (texts.map (· ++ "\n")) ++ input ++ "\nSleep" := by
    intro texts
    induction texts with
    | nil => simp [← String.toList_inj]
    | cons t texts ih =>
      rw [List.cons_append, List.cons_append, String.intercalate_cons_of_ne_nil (by simp), ih]
      simp [← String.toList_inj]
  rw [programText, List.cons_append, String.intercalate_cons_of_ne_nil (by simp), hlines, source]
  simp [← String.toList_inj]

/-- The session of exactly these inputs: it holds what they compile to. -/
inductive Keeps : Session → List String → Prop where
  | nothing : Keeps ⟨[], none⟩ []
  | inputs {kept : List String} {c : Compilation} (hne : kept ≠ [])
      (hc : Compilation.ofText (programText kept) = .ok c) : Keeps ⟨kept, some c⟩ kept

theorem Keeps.statements {s : Session} {kept : List String} (h : s.Keeps kept) :
    s.statements = kept := by
  cases h <;> rfl

theorem Keeps.unique {s s' : Session} {kept : List String} (h : s.Keeps kept)
    (h' : s'.Keeps kept) : s = s' := by
  cases h with
  | nothing =>
    cases h' with
    | nothing => rfl
    | inputs hne => exact absurd rfl hne
  | inputs hne hc =>
    cases h' with
    | nothing => exact absurd rfl hne
    | inputs _ hc' => rw [Except.ok.inj (hc.symm.trans hc')]

theorem Keeps.extend_error {s : Session} {kept : List String} (h : s.Keeps kept) {input : String}
    {r : Rejection} :
    s.extend input = .error r ↔ Compilation.ofText (programText (kept ++ [input])) = .error r := by
  rw [Session.extend_error, source_eq_programText, h.statements]

theorem Keeps.extend_ok {s : Session} {kept : List String} (h : s.Keeps kept) {input : String}
    {c : Compilation} (hc : Compilation.ofText (programText (kept ++ [input])) = .ok c) :
    s.extend input = .ok (listing (c.code.drop s.code.length), ⟨kept ++ [input], some c⟩) := by
  rw [Session.extend, source_eq_programText, h.statements, hc]

end Session

namespace Dialogue

variable {read : String → Except String String} {d e : Dialogue} {kept : List String}

/-! ## One turn -/

/-- The answer to a turn. -/
def react (read : String → Except String String) (d : Dialogue) : Turn → Printed × Option Dialogue
  | .command c => d.obey read c
  | .goesOn => (.nothing, some d)
  | .input text => ((d.complete text).1, some (d.complete text).2)

section
variable {line : String}

theorem turn_command {c : DotCommand} (h : d.command? line = some c) :
    d.pending.turn line = (.command c, d.pending) := by
  rw [command?] at h
  rw [Pending.turn, h]

theorem turn_goesOn {q : Pending} (h : d.command? line = none)
    (hp : d.pending.push line = (none, q)) : d.pending.turn line = (.goesOn, q) := by
  rw [command?] at h
  rw [Pending.turn, h, hp]

theorem turn_input {q : Pending} {text : String} (h : d.command? line = none)
    (hp : d.pending.push line = (some text, q)) : d.pending.turn line = (.input text, q) := by
  rw [command?] at h
  rw [Pending.turn, h, hp]

/-- A line is answered as what it is. -/
theorem answer_react (line : String) :
    d.answer read line =
      { d with pending := (d.pending.turn line).2 }.react read (d.pending.turn line).1 := by
  unfold answer
  cases h : d.command? line with
  | some c => rw [turn_command h]; rfl
  | none =>
    rcases hp : d.pending.push line with ⟨_ | text, q⟩
    · rw [turn_goesOn h hp]; rfl
    · rw [turn_input h hp]; rfl

end

/-- What an input keeps. -/
theorem keeps_complete (hk : d.session.Keeps kept) (text : String) :
    (d.complete text).2.session.Keeps (keep kept (.input text)) ∧
      (d.complete text).2.pending = d.pending := by
  rcases eq_or_ne text "" with rfl | hne
  · rw [complete_empty, keep_empty]
    exact ⟨hk, rfl⟩
  · cases hc : Compilation.ofText (programText (kept ++ [text])) with
    | error r =>
      rw [complete_rejected hne (hk.extend_error.mpr hc), keep_rejected hc]
      exact ⟨hk, rfl⟩
    | ok c =>
      rw [complete_accepted hne (hk.extend_ok hc), keep_accepted hne hc]
      exact ⟨.inputs (by simp) hc, rfl⟩

/-- What one turn keeps. -/
theorem keeps_react (hk : d.session.Keeps kept) {t : Turn} {printed : Printed}
    (h : d.react read t = (printed, some e)) :
    e.session.Keeps (keep kept t) ∧ e.pending = d.pending := by
  obtain ⟨-, he⟩ := Prod.mk.inj h
  cases t with
  | command c =>
    cases c with
    | exit => cases he
    | clear =>
      cases he
      exact ⟨.nothing, rfl⟩
    | load path =>
      cases path <;> cases he <;> exact ⟨hk, rfl⟩
    | _ =>
      cases he
      exact ⟨hk, rfl⟩
  | goesOn =>
    cases he
    exact ⟨hk, rfl⟩
  | input text =>
    cases he
    exact keeps_complete hk text

/-- A reached dialogue: its session keeps these inputs, and what is pending has begun if it is not
nothing. -/
structure Holds (d : Dialogue) (kept : List String) : Prop where
  session : d.session.Keeps kept
  pending : d.pending.Settled

theorem holds_start : start.Holds [] := ⟨.nothing, fun _ => rfl⟩

/-- What one line keeps. -/
theorem Holds.answer (h : d.Holds kept) {line : String} {printed : Printed}
    (ha : d.answer read line = (printed, some e)) :
    e.Holds (keep kept (d.pending.turn line).1) ∧ e.pending = (d.pending.turn line).2 := by
  rw [answer_react] at ha
  obtain ⟨hkept, hpending⟩ :=
    keeps_react (d := { d with pending := (d.pending.turn line).2 }) h.session ha
  exact ⟨⟨hkept, hpending ▸ h.pending.turn line⟩, hpending⟩

/-! ## A run -/

/-- What a run keeps. -/
theorem Holds.follow (h : d.Holds kept) {lines : List String}
    (hstays : (d.follow read lines).left = false) :
    (d.follow read lines).last.Holds ((d.pending.turns lines).foldl keep kept) := by
  induction lines generalizing d kept with
  | nil => exact h
  | cons line lines ih =>
    rcases ha : d.answer read line with ⟨printed, _ | e⟩
    · rw [follow_leave ha] at hstays
      cases hstays
    · rw [follow_stay ha] at hstays ⊢
      obtain ⟨hstep, hpending⟩ := h.answer ha
      have hrest := ih hstep hstays
      rw [hpending] at hrest
      rwa [Pending.turns, List.foldl_cons]

/-- A dialogue is what it keeps and what is pending. -/
theorem Holds.unique {d' : Dialogue} (h : d.Holds kept) (h' : d'.Holds kept)
    (hp : d.pending = d'.pending) : d = d' := by
  obtain ⟨session, pending⟩ := d
  obtain ⟨session', pending'⟩ := d'
  cases hp
  cases h.session.unique h'.session
  rfl

/-- The code of the inputs kept. -/
theorem Holds.code (h : d.Holds kept) {line : String} (hline : d.command? line = some .code) :
    (kept = [] ∧ d.answer read line = (.toOut "No code yet.\n", some d)) ∨
      ∃ c, kept ≠ [] ∧ Compilation.ofText (programText kept) = .ok c ∧
        d.answer read line = (.toOut c.listing, some d) := by
  have ha : d.answer read line = d.obey read .code := by rw [Dialogue.answer, hline]
  obtain ⟨session, pending⟩ := d
  rw [ha]
  cases h.session with
  | nothing => exact .inl ⟨rfl, rfl⟩
  | inputs hne hc => exact .inr ⟨_, hne, hc, rfl⟩

/-! ## Lines that leave no trace -/

/-- A command that neither clears nor leaves, or one whole input that is rejected. -/
inductive Idle (d : Dialogue) : List String → Prop where
  | command {line : String} {c : DotCommand} : d.command? line = some c → c ≠ .clear →
      c ≠ .exit → Idle d [line]
  | rejected {line input : String} {lines : List String} {r : Rejection} :
      d.pending.hasBegun = false → d.command? line = none →
      d.pending.Completes (line :: lines) input → input ≠ "" →
      d.session.extend input = .error r → Idle d (line :: lines)

theorem answer_idle (read : String → Except String String) {line : String} {c : DotCommand}
    (h : d.command? line = some c) (hclear : c ≠ .clear) (hexit : c ≠ .exit) :
    ∃ printed, d.answer read line = (printed, some d) := by
  rw [answer, h]
  cases c with
  | exit => exact absurd rfl hexit
  | clear => exact absurd rfl hclear
  | load path => cases path <;> exact ⟨_, rfl⟩
  | _ => exact ⟨_, rfl⟩

theorem Idle.follow (read : String → Except String String) (hd : d.pending.Settled)
    {lines : List String} (h : d.Idle lines) :
    (d.follow read lines).last = d ∧ (d.follow read lines).left = false := by
  cases h with
  | command hc hclear hexit =>
    obtain ⟨printed, ha⟩ := answer_idle read hc hclear hexit
    rw [follow_stay ha]
    exact ⟨rfl, rfl⟩
  | rejected hbegun hfirst hlines hne hr =>
    have hstart : { d with pending := .start } = d := by rw [← hd hbegun]
    obtain ⟨waiting, -, hrun⟩ := follow_completes read hlines (by simpa using hfirst)
    rw [hrun, hstart, complete_rejected hne hr]
    exact ⟨rfl, rfl⟩

end Dialogue

open Dialogue

/-- **Main.** In a run of a dialogue over any lines, with what files hold given, `.tac` shows the
code of the inputs accepted before it since the last `.clear`, compiled between `Wake` and `Sleep`.
The dialogue behind some lines is determined by the inputs accepted and what is pending. Without the
lines of a rejected input, or without a command that neither clears nor leaves, all other lines are
answered as before and the last dialogue is the same. What is printed is the answers in turn, if the
history takes in every entry. -/
theorem dialogue_of_accepted (read : String → Except String String) :
    (∀ pre line post, (start.follow read pre).left = false →
      (start.follow read pre).last.command? line = some .code →
      (accepted pre = [] ∧ (start.follow read (pre ++ line :: post)).answers[pre.length]? =
        some (.toOut "No code yet.\n")) ∨
      ∃ c, accepted pre ≠ [] ∧ Compilation.ofText (programText (accepted pre)) = .ok c ∧
        (start.follow read (pre ++ line :: post)).answers[pre.length]? = some (.toOut c.listing)) ∧
    (∀ pre pre', (start.follow read pre).left = false → (start.follow read pre').left = false →
      accepted pre = accepted pre' →
      (start.follow read pre).last.pending = (start.follow read pre').last.pending →
      (start.follow read pre).last = (start.follow read pre').last) ∧
    (∀ pre idle post, (start.follow read pre).left = false →
      (start.follow read pre).last.Idle idle →
      ∃ front cut back last left, front.length = pre.length ∧ cut.length = idle.length ∧
        start.follow read (pre ++ idle ++ post) = ⟨front ++ cut ++ back, last, left⟩ ∧
        start.follow read (pre ++ post) = ⟨front ++ back, last, left⟩) ∧
    ∀ remember, (∀ entry, remember entry = .ok ()) → ∀ lines more,
      (start.converse read remember (lines.map .line ++ more)).printed =
        .joined (start.follow read lines).answers ++ if (start.follow read lines).left then .nothing
          else ((start.follow read lines).last.converse read remember more).printed := by
  have hreached : ∀ {pre}, (start.follow read pre).left = false →
      (start.follow read pre).last.Holds (accepted pre) := fun h => holds_start.follow h
  refine ⟨fun pre line post hpre hline => ?_, fun pre pre' hpre hpre' hsame hp => ?_,
    fun pre idle post hpre hidle => ?_, fun _ => converse_follow⟩
  · rcases (hreached hpre).code hline with ⟨hnone, ha⟩ | ⟨c, hsome, hc, ha⟩
    · exact .inl ⟨hnone, answers_getElem? hpre ha post⟩
    · exact .inr ⟨c, hsome, hc, answers_getElem? hpre ha post⟩
  · have hsecond := hreached hpre'
    rw [← hsame] at hsecond
    exact (hreached hpre).unique hsecond hp
  · obtain ⟨hlast, hleft⟩ := hidle.follow read (hreached hpre).pending
    refine ⟨_, _, _, _, _, length_answers hpre, length_answers hleft, ?_, follow_append hpre post⟩
    rw [List.append_assoc, follow_append hpre, follow_append hleft, hlast, List.append_assoc]

end MeowScript
