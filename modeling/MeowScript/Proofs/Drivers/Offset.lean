import MeowScript.Proofs.Drivers.Agreement
import MeowScript.Proofs.Growth.Session
import MeowScript.Proofs.Lexing.Joined

/-!
# Lines of an input and lines of a session

A session compiles a new input behind the lines it has kept. Their number is counted text by text,
and each kept text has as many lines as it has line feeds and one more, since it does not end with
one. So what is moved up by that number is where it would be if the input stood alone.

Results:
* `Text.lineCount_submitted`: the lines of a text that a dialogue submits.
* `Session.count_lines`: the line feeds before a new input.
* `shift_located`: a place in the input, moved up.
* `Pending.push_submitted`: what a dialogue submits.
* `shift_exact`: every session, with every diagnostic in the input.
-/
namespace MeowScript

/-! ## Positions -/

/-- Behind a line feed a text goes on as it would by itself, only further down. -/
theorem Position.after_feed (cs : List Char) :
    start.after (cs ++ ['\n']) = start.down ((cs ++ ['\n']).count '\n') := by
  rw [after_append, after_cons, after_nil, start_after_feed, List.count_append]
  rfl

/-- The line of a character is one of the lines of the text. -/
theorem line_le_lineCount (before : List Char) (c : Char) (behind : List Char) :
    (Position.start.after before).line ≤ Text.lineCount (before ++ c :: behind) := by
  have hline := Position.after_line Position.start before
  have hstart : Position.start.line = 1 := rfl
  rw [Text.lineCount, List.count_append]
  split
  · next hlast =>
    -- the text ends with a line feed, which is not before the character
    have hfeed : '\n' ∈ c :: behind := by
      rw [List.getLast?_append_of_ne_nil _ (List.cons_ne_nil c behind),
        List.getLast?_eq_some_getLast (List.cons_ne_nil c behind), Option.all_some,
        beq_iff_eq] at hlast
      exact hlast ▸ List.getLast_mem _
    have hpos := List.count_pos_iff.mpr hfeed
    omega
  · omega

/-! ## Texts that are submitted -/

/-- A text that is not empty and has no blank at either end. -/
def Submitted (text : String) : Prop := text ≠ "" ∧ Text.trimmed text = text

instance (text : String) : Decidable (Submitted text) :=
  inferInstanceAs (Decidable (text ≠ "" ∧ Text.trimmed text = text))

namespace Text

theorem not_blank_of_trim_last {cs : List Char} {c : Char} (h : (trim cs).getLast? = some c) :
    isBlank c = false := by
  rw [trim, List.getLast?_reverse] at h
  have hhead := List.head?_dropWhile_not isBlank (cs.dropWhile isBlank).reverse
  rw [h] at hhead
  simpa using hhead

/-- Trimming takes blanks at the ends, and nothing else. -/
theorem trim_eq_self {cs : List Char} (hfirst : ∀ c ∈ cs.head?, isBlank c = false)
    (hlast : ∀ c ∈ cs.getLast?, isBlank c = false) : trim cs = cs := by
  have hkeep : ∀ ds : List Char, (∀ c ∈ ds.head?, isBlank c = false) →
      ds.dropWhile isBlank = ds := by
    intro ds hds
    cases ds with
    | nil => rfl
    | cons d ds => exact List.dropWhile_cons_of_neg (by simp [hds d rfl])
  rw [trim, hkeep cs hfirst, hkeep cs.reverse (by rwa [List.head?_reverse]), List.reverse_reverse]

theorem trim_trim (cs : List Char) : trim (trim cs) = trim cs := by
  refine trim_eq_self (fun c hc => ?_) fun c hc => not_blank_of_trim_last hc
  obtain ⟨ds, hds⟩ := List.head?_eq_some_iff.mp hc
  exact not_blank_of_trim hds

theorem submitted_trimmed {text : String} (h : trimmed text ≠ "") : Submitted (trimmed text) := by
  refine ⟨h, ?_⟩
  unfold trimmed
  rw [String.toList_ofList, trim_trim]

theorem lineCount_submitted {text : String} (h : Submitted text) :
    lineCount text.toList = text.toList.count '\n' + 1 := by
  obtain ⟨hne, htrim⟩ := h
  have hself : trim text.toList = text.toList := by
    rw [← String.ofList_inj, String.ofList_toList]
    exact htrim
  have hlist : text.toList ≠ [] := fun hnil => hne (String.toList_eq_nil_iff.mp hnil)
  obtain ⟨c, hc⟩ : ∃ c, text.toList.getLast? = some c := ⟨_, List.getLast?_eq_some_getLast hlist⟩
  have hblank : isBlank c = false := not_blank_of_trim_last (hself.symm ▸ hc)
  have hfeed : c ≠ '\n' := by
    rintro rfl
    revert hblank
    decide
  rw [lineCount, hc, Option.all_some]
  simp [hfeed]

end Text

/-- What is handed back to be submitted. -/
theorem Pending.push_submitted {p q : Pending} {line input : String}
    (h : p.push line = (some input, q)) (hne : input ≠ "") : Submitted input := by
  dsimp only [push] at h
  split at h
  · cases h
  · obtain ⟨hinput, -⟩ := Prod.mk.inj h
    rw [← Option.some.inj hinput] at hne ⊢
    exact Text.submitted_trimmed hne

/-! ## Sessions -/

namespace Session

/-- What stands before a new input: the lines kept, and a line feed. -/
def front (s : Session) : String := s.lines ++ "\n"

theorem source_front (s : Session) (input : String) :
    s.source input = s.front ++ input ++ "\nSleep" := source_lines s input

theorem count_lines {s : Session} (h : ∀ t ∈ s.statements, Submitted t) :
    s.front.toList.count '\n' = s.offset := by
  obtain ⟨statements, last⟩ := s
  dsimp only at h
  have hkept : (String.join (statements.map ("\n" ++ ·))).toList.count '\n' + 1 =
      offset ⟨statements, last⟩ := by
    unfold offset
    induction statements with
    | nil => rfl
    | cons t statements ih =>
      obtain ⟨ht, hrest⟩ := List.forall_mem_cons.mp h
      rw [List.foldr_cons, ← ih hrest, Text.lineCount_submitted ht]
      simp
      omega
  rw [← hkept, front, lines]
  simp

theorem run_statements {s : Session} {inputs : List String} :
    ∀ t ∈ (s.run inputs).2.statements, t ∈ s.statements ∨ t ∈ inputs := by
  induction inputs generalizing s with
  | nil => exact fun t ht => .inl ht
  | cons input inputs ih =>
    intro t ht
    rw [run] at ht
    split at ht
    · rcases ih t ht with hs | hinputs
      · exact .inl hs
      · exact .inr (List.mem_cons_of_mem _ hinputs)
    · next answer s' he =>
      have hkept : s'.statements = s.statements ++ [input] := by
        unfold extend at he
        split at he
        · cases he
        · obtain ⟨-, rfl⟩ := Prod.mk.inj (Except.ok.inj he)
          rfl
      rcases ih t ht with hs | hinputs
      · rw [hkept, List.mem_append, List.mem_singleton] at hs
        rcases hs with hs | rfl
        · exact .inl hs
        · exact .inr List.mem_cons_self
      · exact .inr (List.mem_cons_of_mem _ hinputs)

/-- The place, in what is compiled, of the character of the input behind `before`. -/
def placeOf (s : Session) (before : List Char) : Position :=
  Position.start.after (s.front.toList ++ before)

theorem placeOf_eq {s : Session} (h : ∀ t ∈ s.statements, Submitted t) (before : List Char) :
    s.placeOf before = (Position.start.after before).down s.offset := by
  have hfront : Position.start.after s.front.toList = Position.start.down s.offset := by
    rw [← count_lines h, front, String.toList_append]
    exact Position.after_feed s.lines.toList
  rw [placeOf, Position.after_append, hfront, Position.after_down]

end Session

/-- A diagnostic in the input is shown where the input has it. -/
theorem shift_located {s : Session} (h : ∀ t ∈ s.statements, Submitted t) {d : Diagnostic}
    {before : List Char} (hd : d.position = s.placeOf before) :
    (d.shift s.offset).position = Position.start.after before := by
  have hline := Position.after_line Position.start before
  have hstart : Position.start.line = 1 := rfl
  rw [Diagnostic.shift, hd, Session.placeOf_eq h]
  show Position.mk (max 1 (s.offset + (Position.start.after before).line - s.offset)) _ = _
  rw [Nat.add_sub_cancel_left, Nat.max_eq_right (by omega)]
  rfl

/-- **Main.** Let a session be reached by any texts that are not empty and begin and end with no
blank, as all are that a dialogue submits, and let such a text be the next input. There are as many
line feeds before it as the session counts lines. If it is rejected, the session stays, and the
diagnostics are shown that many lines up; each that is at a character of the input is shown at the
place which that character has in the input, and so with one of the lines of the input. -/
theorem shift_exact {inputs : List String} (hinputs : ∀ x ∈ inputs, Submitted x) {input : String}
    (hinput : Submitted input) :
    (∀ p line x q, Pending.push p line = (some x, q) → x ≠ "" → Submitted x) ∧
    let s := (Session.start.run inputs).2
    s.source input = s.front ++ input ++ "\nSleep" ∧ s.front.toList.count '\n' = s.offset ∧
    ∀ r, s.extend input = .error r →
      (∀ p, Dialogue.complete ⟨s, p⟩ input =
        (printed (r.diagnostics.map (Diagnostic.shift s.offset)), ⟨s, p⟩)) ∧
      ∀ d ∈ r.diagnostics, ∀ before c behind, input.toList = before ++ c :: behind →
        d.position = s.placeOf before →
        (d.shift s.offset).position = Position.start.after before ∧
          1 ≤ (d.shift s.offset).position.line ∧
          (d.shift s.offset).position.line ≤ Text.lineCount input.toList := by
  refine ⟨fun p line x q => Pending.push_submitted, ?_⟩
  intro s
  have hs : ∀ t ∈ s.statements, Submitted t := by
    intro t ht
    rcases Session.run_statements t ht with hnone | ht
    · cases hnone
    · exact hinputs t ht
  refine ⟨s.source_front input, Session.count_lines hs, fun r hr => ⟨fun p => ?_, ?_⟩⟩
  · rw [Dialogue.complete_rejected (d := ⟨s, p⟩) hinput.1 hr, printed, List.map_map]
    rfl
  · intro d _ before c behind hsplit hd
    rw [shift_located hs hd, hsplit]
    refine ⟨rfl, ?_, line_le_lineCount before c behind⟩
    exact line_le_after Position.start before

/-- A session that has kept four lines, and rejected one between them. -/
def fourLines : List String := ["Box x paws 5", "Meow(ghost)", "Hunt f() \x7b\n  Bring x\n\x7d"]

theorem shift_exact_fourLines :
    (∀ x ∈ fourLines, Submitted x) ∧ Submitted "Meow(x)\nMeow(ghost)" ∧
    (Session.start.run fourLines).2.offset = 5 ∧
    ∃ (r : Rejection) (d : Diagnostic),
      (Session.start.run fourLines).2.extend "Meow(x)\nMeow(ghost)" = .error r ∧
      r.diagnostics = [d] ∧ d.position = ⟨7, 6⟩ ∧ (d.shift 5).position = ⟨2, 6⟩ := by
  have hkept : ∀ x ∈ fourLines, Submitted x := by decide +kernel
  have hinput : Submitted "Meow(x)\nMeow(ghost)" := by decide +kernel
  have hoffset : (Session.start.run fourLines).2.offset = 5 := by decide +kernel
  have hrejected : rejection? (Compilation.ofText
      ((Session.start.run fourLines).2.source "Meow(x)\nMeow(ghost)")) =
        some (.semantic [⟨.undeclared "ghost", ⟨7, 6⟩⟩]) := by
    decide +kernel
  have hr := Session.extend_error.mpr (rejection?_eq_some.mp hrejected)
  have hplace : (⟨7, 6⟩ : Position) =
      (Session.start.run fourLines).2.placeOf "Meow(x)\nMeow(".toList := by
    decide +kernel
  have hplain : Position.start.after "Meow(x)\nMeow(".toList = ⟨2, 6⟩ := by decide +kernel
  obtain ⟨-, -, -, hall⟩ := shift_exact hkept hinput
  obtain ⟨-, hshown⟩ := hall _ hr
  obtain ⟨hat, -, -⟩ := hshown _ (List.mem_singleton_self _) "Meow(x)\nMeow(".toList 'g'
    "host)".toList (by decide +kernel) hplace
  rw [hoffset, hplain] at hat
  exact ⟨hkept, hinput, hoffset, _, _, hr, rfl, rfl, hat⟩

end MeowScript
