import MeowScript.Proofs.Dialogue.Run
import MeowScript.Proofs.Drivers.Editor
import MeowScript.Proofs.Drivers.Runs
import MeowScript.Proofs.Drivers.Shift

/-!
# All drivers agree on a text

A text is compiled as it stands from an argument, from standard input, from a file and in a
dialogue, which it reaches line by line. Each driver reads, wraps and prints it on its own. The host
may be any, and its line editor any that can be relied on.

Results:
* `answer_load`: loading a file in a dialogue.
* `converse_first`: what a dialogue answers to its first input.
* `arrives`: how the text gets to each driver.
* `drivers_agree`: all of them on one text.
-/
namespace MeowScript

/-! ## A dialogue -/

/-- A text between `Wake` and `Sleep`. -/
def wrapped (s : String) : String := "Wake\n" ++ s ++ "\nSleep"

theorem source_start (s : String) : Session.start.source s = wrapped s := by
  simp [Session.source, Session.start, wrapped]

theorem wrapped_rejected {s : String} {r : Rejection}
    (h : Compilation.ofText (wrapped s) = .error r) : r.Within Later := by
  rw [wrapped, String.append_assoc] at h
  exact rejected_later h

/-- Diagnostics, each on a line of its own. -/
def printed (ds : List Diagnostic) : Printed :=
  .toErr (String.join (ds.map fun d => d.text ++ "\n"))

theorem shifted_zero {r : Rejection} (h : r.Within Later) :
    shifted 0 r = printed r.diagnostics := by
  have htexts : r.diagnostics.map (fun d => (d.shift 0).text ++ "\n") =
      r.diagnostics.map fun d => d.text ++ "\n" :=
    List.map_congr_left fun d hd => by rw [shift_zero (h.diagnostics d hd)]
  rw [shifted, htexts, printed]

theorem shifted_one {r : Rejection} (h : r.Within Later) :
    shifted 1 r = printed (r.diagnostics.map Diagnostic.lineUp) := by
  have htexts : r.diagnostics.map (fun d => (d.shift 1).text ++ "\n") =
      r.diagnostics.map fun d => d.lineUp.text ++ "\n" :=
    List.map_congr_left fun d hd => by rw [shift_lineUp (h.diagnostics d hd)]
  rw [shifted, htexts, printed, List.map_map]
  rfl

namespace Dialogue

variable {read : String → Except String String} {d : Dialogue} {line path text : String}

theorem answer_load (hline : d.command? line = some (.load (some path)))
    (hread : read path = .ok text) : d.answer read line =
      (match Compilation.ofText text with
        | .ok c => .toOut c.listing
        | .error r => shifted 0 r, some d) := by
  rw [answer, hline]
  show (loaded path (read path), some d) = _
  rw [hread]
  rfl

end Dialogue

/-! ### The first input -/

/-- A text that begins with no blank begins so when it is trimmed. -/
theorem trim_cons {c : Char} (h : Text.isBlank c = false) (cs : List Char) :
    ∃ ds, Text.trim (c :: cs) = c :: ds := by
  have hlast : [c].dropWhile Text.isBlank = [c] := List.dropWhile_cons_of_neg (by simp [h])
  rw [Text.trim, List.dropWhile_cons_of_neg (by simp [h]), List.reverse_cons,
    List.dropWhile_append]
  split
  · exact ⟨[], by rw [hlast]; rfl⟩
  · exact ⟨_, by rw [List.reverse_append]; rfl⟩

/-- What is trimmed begins with no blank. -/
theorem not_blank_of_trim {cs ds : List Char} {c : Char} (h : Text.trim cs = c :: ds) :
    Text.isBlank c = false := by
  have hprefix : Text.trim cs <+: cs.dropWhile Text.isBlank := by
    rw [Text.trim, ← List.reverse_suffix, List.reverse_reverse]
    exact List.dropWhile_suffix _
  obtain ⟨more, hmore⟩ := hprefix
  rw [h, List.cons_append] at hmore
  have hhead := List.head?_dropWhile_not Text.isBlank cs
  rw [← hmore] at hhead
  simpa using hhead

/-- What is handed back was trimmed. -/
theorem Pending.Completes.trimmed {p : Pending} {lines : List String} {input : String}
    (h : p.Completes lines input) : ∃ cs, input.toList = Text.trim cs := by
  induction h with
  | more _ _ ih => exact ih
  | last hpush =>
    dsimp only [Pending.push] at hpush
    split at hpush
    · cases hpush
    · obtain ⟨hinput, -⟩ := Prod.mk.inj hpush
      rw [← Option.some.inj hinput, Text.trimmed, String.toList_ofList]
      exact ⟨_, rfl⟩

section
variable {s : String} (hs : Pending.start.Completes (linesOf s) s) (hne : s ≠ "")
  (hdot : s.toList.head? ≠ some '.')
include hs hne hdot

/-- The first line of such a text is no command. -/
theorem first_line : ∀ line ∈ (linesOf s).head?, Dialogue.start.command? line = none := by
  obtain ⟨cs, hcs⟩ := hs.trimmed
  obtain ⟨c, ds, hc⟩ : ∃ c ds, s.toList = c :: ds :=
    List.exists_cons_of_ne_nil fun h => hne (String.toList_eq_nil_iff.mp h)
  have hblank := not_blank_of_trim (hcs.symm.trans hc)
  have hfeed : (c == '\n') = false := by
    rw [beq_eq_false_iff_ne]
    rintro rfl
    revert hblank
    decide
  obtain ⟨first, lines, hlines⟩ := List.exists_cons_of_ne_nil (List.splitOn_ne_nil '\n' ds)
  have hsplit : linesOf s = String.ofList (c :: first) :: lines.map String.ofList := by
    rw [linesOf, hc, List.splitOn_cons_eq_if_modifyHead, hlines, hfeed]
    rfl
  intro line hline
  rw [hsplit, List.head?_cons, Option.mem_some_iff] at hline
  obtain ⟨rest, hrest⟩ := trim_cons hblank first
  rw [Dialogue.command?, ← hline, DotCommand.ofLine?, String.toList_ofList, hrest]
  have hfirst : c ≠ '.' := by
    rw [hc] at hdot
    simpa using hdot
  split
  · rfl
  · split
    · next hcommand => exact absurd (List.cons.inj hcommand).1 hfirst
    · rfl

/-- The first input is answered when its last line has been typed. -/
theorem converse_first (read : String → Except String String)
    {remember : String → Except String Unit} (hremember : ∀ entry, remember entry = .ok ())
    (more : List Reply) :
    (Dialogue.start.converse read remember ((linesOf s).map .line ++ more)).printed =
      (Dialogue.start.complete s).1 ++
        ((Dialogue.start.complete s).2.converse read remember more).printed := by
  obtain ⟨waiting, hwaiting, hrun⟩ :=
    Dialogue.follow_completes read hs (first_line hs hne hdot)
  rw [Dialogue.converse_follow hremember, hrun]
  dsimp only
  rw [Printed.joined_append, Printed.joined_nothing hwaiting, Printed.nothing_append,
    Printed.joined_cons]
  exact congrArg (· ++ _) (Printed.append_nothing _)

end

/-! ## Every driver -/

section
variable (σ : Type) [Host σ]

/-- What a dialogue prints from here on. -/
def onwards {σ : Type} [Host σ] (files : σ) (d : Dialogue) (more : List Reply) : Printed :=
  (d.converse (Host.textOf files) (Host.editor : Editor σ).remember more).printed

/-- The text reaches every driver: wrapped as an argument, on standard input and in a file, and
typed line by line in a dialogue. -/
structure Arrives (s : String) : Prop where
  argument : Options.ofArgs ["-e", s] = .ok (.only (.inline s)) ∧
    ∀ (files : σ) stdin, Host.sourceOf files stdin (.inline s) = .ok (wrapped s)
  stdin : Options.ofArgs ["-"] = .ok (.only .stdin) ∧
    ∀ (files : σ) stdin, Host.input files stdin = .ok (wrapped s).toUTF8 →
      Host.sourceOf files stdin .stdin = .ok (wrapped s)
  file : ∀ (files : σ) path, Host.read files path = .ok (wrapped s).toUTF8 →
    (path.toList.head? ≠ some '-' → Options.ofArgs [path] = .ok (.only (.file path))) ∧
      (∀ stdin, Host.sourceOf files stdin (.file path) = .ok (wrapped s)) ∧
      Host.textOf files path = .ok (wrapped s)
  typed : (∀ c ∈ s.toList, IsKey c → c = '\n') → ∀ (files : σ) more, ∃ rest,
    Host.editor.replies files ((s ++ "\n").toUTF8 ++ more) = (linesOf s).map .line ++ rest

/-- Every driver shows the listing of this compilation for the text. A dialogue does so whatever
keys have made up its lines. -/
structure AllShow (s : String) (c : Compilation) : Prop where
  compiles : ∀ (files : σ) stdin args o source, Options.ofArgs args = .ok o →
    o.action = .compile source → Host.sourceOf files stdin source = .ok (wrapped s) →
    Delivers o c.listing files (Command.run files stdin args)
  loads : ∀ read (d : Dialogue) line path, d.command? line = some (.load (some path)) →
    read path = .ok (wrapped s) → d.answer read line = (.toOut c.listing, some d)
  typed : ∀ (files : σ) stdin args o more, Options.ofArgs args = .ok o → o.action = .repl →
    Host.editor.replies files stdin = (linesOf s).map .line ++ more →
    (Command.run files stdin args).exit = 0 ∧
      (Command.run files stdin args).printed =
        .toOut Help.greeting ++ (.toOut c.listing ++ onwards files ⟨⟨[s], some c⟩, .start⟩ more)

/-- Every driver rejects the text with the same diagnostics. A dialogue shows them one line up. -/
structure AllReject (s : String) (r : Rejection) : Prop where
  compiles : ∀ (files : σ) stdin args o source, Options.ofArgs args = .ok o →
    o.action = .compile source → Host.sourceOf files stdin source = .ok (wrapped s) →
    Fails (Report.rejected source.name r) files (Command.run files stdin args)
  loads : ∀ read (d : Dialogue) line path, d.command? line = some (.load (some path)) →
    read path = .ok (wrapped s) → d.answer read line = (printed r.diagnostics, some d)
  typed : ∀ (files : σ) stdin args o more, Options.ofArgs args = .ok o → o.action = .repl →
    Host.editor.replies files stdin = (linesOf s).map .line ++ more →
    (Command.run files stdin args).exit = 0 ∧
      (Command.run files stdin args).printed = .toOut Help.greeting ++
        (printed (r.diagnostics.map Diagnostic.lineUp) ++ onwards files .start more)
  later : ∀ d ∈ r.diagnostics, Later d.position
  /-- These are all line numbers, unless a message names the line of an earlier declaration. -/
  lineUp : r.diagnostics.map Diagnostic.lineUp = r.lineUp.diagnostics ↔ ¬ r.Redeclares

end

variable {σ : Type} [Host σ]

theorem asText_toUTF8 (s : String) : asText s.toUTF8 = .ok s := by
  rw [asText, decode, fromUTF8?_toUTF8]
  rfl

section
variable (heditor : (Host.editor : Editor σ).Reliable)
include heditor

theorem arrives (s : String) : Arrives σ s where
  argument := ⟨rfl, fun _ _ => rfl⟩
  stdin := by
    refine ⟨rfl, fun files stdin h => ?_⟩
    rw [Host.sourceOf, h]
    exact asText_toUTF8 _
  file files path h := by
    have htext : Host.textOf files path = .ok (wrapped s) := by
      rw [Host.textOf, h]
      exact asText_toUTF8 _
    exact ⟨ofArgs_path, fun _ => htext, htext⟩
  typed hs files more := heditor.types hs files more

/-- A dialogue greets, and answers what its line editor hands over. -/
theorem run_onwards {args : List String} {o : Options} (ho : Options.ofArgs args = .ok o)
    (ha : o.action = .repl) (files : σ) (stdin : ByteArray) :
    (Command.run files stdin args).exit = 0 ∧
      (Command.run files stdin args).printed =
        .toOut Help.greeting ++ onwards files .start (Host.editor.replies files stdin) := by
  have hconverse : (Command.converse files stdin).printed =
      onwards files .start (Host.editor.replies files stdin) := by
    rw [Command.converse, heditor.ready]
    rfl
  rw [Command.run_repl ho ha, ← hconverse, Printed.toOut_append]
  exact ⟨rfl, rfl⟩

variable {s : String} (hs : Pending.start.Completes (linesOf s) s) (hne : s ≠ "")
  (hdot : s.toList.head? ≠ some '.')
include hs hne hdot

theorem all_show {c : Compilation} (hc : Compilation.ofText (wrapped s) = .ok c) :
    AllShow σ s c where
  compiles files stdin args o source ho ha hsource := by
    have hrun := Command.run_compiles files stdin ho ha
    rw [hsource] at hrun
    dsimp only at hrun
    rwa [hc] at hrun
  loads read d line path hline hread := by rw [Dialogue.answer_load hline hread, hc]
  typed files stdin args o more ho ha htyped := by
    have hextend : Dialogue.start.session.extend s = .ok (c.listing, ⟨[s], some c⟩) := by
      show Session.start.extend s = _
      rw [Session.extend, source_start, hc]
      rfl
    have hrun := run_onwards heditor ho ha files stdin
    rwa [htyped, onwards, converse_first hs hne hdot _ heditor.remembers,
      Dialogue.complete_accepted (d := .start) hne hextend] at hrun

theorem all_reject {r : Rejection} (hr : Compilation.ofText (wrapped s) = .error r) :
    AllReject σ s r where
  compiles files stdin args o source ho ha hsource := by
    have hrun := Command.run_compiles files stdin ho ha
    rw [hsource] at hrun
    dsimp only at hrun
    rwa [hr] at hrun
  loads read d line path hline hread := by
    rw [Dialogue.answer_load hline hread, hr]
    exact congrArg (·, some d) (shifted_zero (wrapped_rejected hr))
  typed files stdin args o more ho ha htyped := by
    have hextend : Dialogue.start.session.extend s = .error r := by
      show Session.start.extend s = _
      rw [Session.extend_error, source_start, hr]
    have hrun := run_onwards heditor ho ha files stdin
    rw [htyped, onwards, converse_first hs hne hdot _ heditor.remembers,
      Dialogue.complete_rejected (d := .start) hne hextend] at hrun
    rwa [← shifted_one (wrapped_rejected hr)]
  later := (wrapped_rejected hr).diagnostics
  lineUp := lineUp_diagnostics_iff (wrapped_rejected hr)

end

/-- **Main.** On any host with a line editor that can be relied on, a text that is one input of a
dialogue, trimmed and not empty, without a dot in front, is shown with the same listing by every
driver, or rejected by every driver with the same diagnostics; only a dialogue shows their places
one line up, and leaves the lines that are named in messages. Any run that
compiles, of whatever input, delivers its listing and succeeds unless that cannot be written, or
fails with nothing printed to standard output and no file changed. Log lines are left open. -/
theorem drivers_agree {σ : Type} [Host σ] (heditor : (Host.editor : Editor σ).Reliable) {s : String}
    (hdot : s.toList.head? ≠ some '.') (hne : s ≠ "") (hs : Pending.start.Completes (linesOf s) s) :
    Arrives σ s ∧
    ((∃ c, Compilation.ofText (wrapped s) = .ok c ∧ AllShow σ s c) ∨
      ∃ r, Compilation.ofText (wrapped s) = .error r ∧ AllReject σ s r) ∧
    ∀ (files : σ) stdin args o source, Options.ofArgs args = .ok o → o.action = .compile source →
      match Host.sourceOf files stdin source with
      | .error reason =>
        Fails (unreadable source.name reason) files (Command.run files stdin args)
      | .ok text =>
        match Compilation.ofText text with
        | .error r => Fails (Report.rejected source.name r) files (Command.run files stdin args)
        | .ok c => Delivers o c.listing files (Command.run files stdin args) := by
  refine ⟨arrives heditor s, ?_, fun files stdin args o source ho ha =>
    Command.run_compiles files stdin ho ha⟩
  cases h : Compilation.ofText (wrapped s) with
  | ok c => exact .inl ⟨c, rfl, all_show heditor hs hne hdot h⟩
  | error r => exact .inr ⟨r, rfl, all_reject heditor hs hne hdot h⟩

/-- Without a terminal, on any directory: a text that is typed is shown, and then its end is met. -/
theorem drivers_agree_print :
    ∃ c, Compilation.ofText (wrapped "Meow(1)") = .ok c ∧ c.listing = "    print 1\n" ∧
      AllShow Files "Meow(1)" c ∧
      ∀ files : Files, (Command.run files ("Meow(1)" ++ "\n").toUTF8 []).printed =
        .toOut Help.greeting ++ (.toOut "    print 1\n" ++ Dialogue.goodbye) := by
  have hlines : linesOf "Meow(1)" = ["Meow(1)"] := by decide
  have hone : Pending.start.Completes (linesOf "Meow(1)") "Meow(1)" := by
    have hpush : Pending.start.push "Meow(1)" = (some "Meow(1)", .start) := by decide
    rw [hlines]
    exact .last hpush
  have hlisting : (Compilation.ofText (wrapped "Meow(1)")).toOption.map Compilation.listing =
      some "    print 1\n" := by
    decide +kernel
  have htyped : ∀ files : Files, Host.editor.replies files ("Meow(1)" ++ "\n").toUTF8 =
      (linesOf "Meow(1)").map .line ++ [] := by
    intro files
    have hline := typedLines_line "Meow(1)" (by decide) (by decide) (by decide) []
    rw [hlines]
    rwa [List.append_nil] at hline
  obtain ⟨c, hc, hshown⟩ := Option.map_eq_some_iff.mp hlisting
  have heditor : (Host.editor : Editor Files).Reliable := Editor.piped_reliable Files
  rcases (drivers_agree heditor (by decide) (by decide) hone).2.1 with
    ⟨c', hc', hall⟩ | ⟨r, hr, -⟩
  · rw [hc', Except.toOption, Option.some.injEq] at hc
    subst hc
    refine ⟨c', hc', hshown, hall, fun files => ?_⟩
    have hrun := (hall.typed files _ [] _ [] rfl rfl (htyped files)).2
    rwa [hshown] at hrun
  · rw [hr] at hc
    cases hc

def rejection? : Except Rejection Compilation → Option Rejection
  | .error r => some r
  | .ok _ => none

theorem rejection?_eq_some {x : Except Rejection Compilation} {r : Rejection} :
    rejection? x = some r ↔ x = .error r := by
  cases x <;> simp [rejection?]

/-- A name declared twice in the first input of a dialogue: the line that the message names is a
line of what is compiled, and stays so where the place moves up. -/
theorem message_keeps_line :
    Pending.start.push "Box x paws 1 Box x paws 2" = (some "Box x paws 1 Box x paws 2", .start) ∧
    ∃ r, Compilation.ofText (wrapped "Box x paws 1 Box x paws 2") = .error r ∧
      r.diagnostics = [⟨.semantic, "redeclaration",
        "'x' is already declared in this scope (line 2)", ⟨2, 14⟩⟩] ∧
      (Dialogue.start.answer (fun _ => .ok "") "Box x paws 1 Box x paws 2").1 =
        .toErr ("semantic error [redeclaration] at line 1, column 14: " ++
          "'x' is already declared in this scope (line 2)\n") ∧
      (Dialogue.start.answer (fun _ => .ok "") "Box x paws 1 Box x paws 2").1 ≠
        printed r.lineUp.diagnostics := by
  have hrejected : rejection? (Compilation.ofText (wrapped "Box x paws 1 Box x paws 2")) =
      some (.semantic [⟨.redeclaration "x" 2, ⟨2, 14⟩⟩]) := by
    decide +kernel
  exact ⟨by decide +kernel, _, rejection?_eq_some.mp hrejected, by decide +kernel,
    by decide +kernel, by decide +kernel⟩

end MeowScript
