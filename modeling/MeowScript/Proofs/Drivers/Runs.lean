import MeowScript.Command.Run

/-!
# Runs of the command

A run that compiles either delivers a listing, which is printed or written to a file, or fails with
nothing printed to standard output and no file changed. The host decides what is read and whether
the file can be written; log lines are left open.

Results:
* `compile_unread`, `compile_rejected`, `compile_accepted`: what a compilation comes to.
* `run_compiles`: every run that compiles.
* `ofArgs_path`: an argument that is no option names a file.
-/
namespace MeowScript

/-! ## Options -/

/-- One input and no other option. -/
def Options.only (source : Source) : Options := ⟨.compile source, 0, false, false, false, none⟩

theorem ofArgs_path {path : String} (h : path.toList.head? ≠ some '-') :
    Options.ofArgs [path] = .ok (.only (.file path)) := by
  have hflag : Options.Request.flag? path = none := by
    unfold Options.Request.flag?
    split <;> first | exact absurd rfl h | rfl
  have hoption : ∀ option : String, option.toList.head? = some '-' → path ≠ option := by
    rintro option ho rfl
    exact h ho
  rw [Options.ofArgs, Options.Request.read, hflag]
  simp only [hoption "-o" rfl, hoption "--output" rfl, hoption "-e" rfl, or_self, if_false]
  rw [Options.Request.sourceNamed, if_neg (hoption "-" rfl), if_neg h]
  rfl

/-! ## Runs that compile -/

variable {σ : Type}

/-- A run that fails with this on standard error, prints nothing else and changes no file. -/
structure Fails (err : String) (files : σ) (x : Outcome σ) : Prop where
  exit : x.exit = 1
  out : x.out = ""
  err : x.err = err
  files : x.files = files

variable [Host σ]

/-- A run that succeeds with this listing, unless the file it is to be written to cannot be. -/
structure Delivers (o : Options) (listing : String) (files : σ) (x : Outcome σ) : Prop where
  /-- Asked for nothing else, it prints the listing. -/
  codeOnly : o.codeOnly = true → x.out = listing
  /-- Otherwise the listing comes last, with a headline. -/
  code : o.codeOnly = false → o.output = none → ∃ details,
    x.out = details ++ ("== three-address code ==\n" ++ listing) ∧
      (o.tokens = false → o.outline = false → o.verbosity = 0 → details = "")
  unsaved : o.output = none → x.exit = 0 ∧ x.err = "" ∧ x.files = files
  saved : ∀ path, o.output = some path → x.files = (Host.write files path listing).2 ∧
    match (Host.write files path listing).1 with
    | .ok () => x.exit = 0 ∧ x.err = ""
    | .error reason => x.exit = 1 ∧ x.err = saveFailure path reason

/-- Neither depends on the log. -/
theorem Delivers.logging {o : Options} {listing : String} {files : σ} {x : Outcome σ}
    (h : Delivers o listing files x) (verbosity : Nat) :
    Delivers o listing files (x.logging verbosity) :=
  ⟨h.codeOnly, h.code, h.unsaved, h.saved⟩

omit [Host σ] in
theorem Fails.logging {err : String} {files : σ} {x : Outcome σ} (h : Fails err files x)
    (verbosity : Nat) : Fails err files (x.logging verbosity) :=
  ⟨h.exit, h.out, h.err, h.files⟩

namespace Report

variable {o : Options} {c : Compilation}

theorem shown_codeOnly (h : o.codeOnly = true) : shown o c = c.listing := by
  rw [shown, if_pos h]

theorem shown_code (h : o.codeOnly = false) (ho : o.output = none) : ∃ details,
    shown o c = details ++ ("== three-address code ==\n" ++ c.listing) ∧
      (o.tokens = false → o.outline = false → o.verbosity = 0 → details = "") := by
  refine ⟨_, by rw [shown, h, ho]; rfl, fun htokens houtline hverbosity => ?_⟩
  have hquiet : o.isVerbose = false := by simp [Options.isVerbose, hverbosity]
  rw [htokens, houtline, hquiet]
  rfl

end Report

namespace Command

section
variable {files : σ} {stdin : ByteArray} {o : Options} {source : Source}

/-- A compilation reads its input, reports on it, and saves what is to be saved. -/
theorem compile_eq {r : Report} {after : σ}
    (h : ((Host.ports stdin).finish (report o source.name (Host.sourceOf files stdin source))).run
      files = (r, after)) :
    compile files stdin o source = ⟨if r.ok then 0 else 1, r.out, r.err, r.logs, after⟩ := by
  have hrun : ((Host.ports stdin).compile o source).run files = (r, after) := by
    rw [Ports.compile, StateT.run_bind, Host.ports_text]
    exact h
  rw [compile, hrun]

theorem compile_unread {reason : String} (h : Host.sourceOf files stdin source = .error reason) :
    Fails (unreadable source.name reason) files (compile files stdin o source) := by
  rw [compile_eq (by rw [h]; exact Host.ports_finish_none rfl _ _)]
  exact ⟨rfl, rfl, rfl, rfl⟩

variable {text : String} (h : Host.sourceOf files stdin source = .ok text)
include h

theorem compile_rejected {r : Rejection} (hr : Compilation.ofText text = .error r) :
    Fails (Report.rejected source.name r) files (compile files stdin o source) := by
  have hreport : report o source.name (Host.sourceOf files stdin source) =
      ⟨"", Report.rejected source.name r, [.compiling source.name text.utf8ByteSize], none,
        false⟩ := by rw [h, report, hr]
  rw [compile_eq (by rw [hreport]; exact Host.ports_finish_none rfl _ _)]
  exact ⟨rfl, rfl, rfl, rfl⟩

theorem compile_accepted {c : Compilation} (hc : Compilation.ofText text = .ok c) :
    Delivers o c.listing files (compile files stdin o source) := by
  have hreport : report o source.name (Host.sourceOf files stdin source) =
      ⟨Report.shown o c, "", [.compiling source.name text.utf8ByteSize, .compiled c.code.length],
        o.output.map fun path => (path, c.listing), true⟩ := by rw [h, report, hc]
  cases ho : o.output with
  | none =>
    rw [ho] at hreport
    rw [compile_eq (by rw [hreport]; exact Host.ports_finish_none rfl _ _)]
    refine ⟨Report.shown_codeOnly, Report.shown_code, fun _ => ⟨rfl, rfl, rfl⟩,
      fun path hpath => ?_⟩
    rw [ho] at hpath
    cases hpath
  | some path =>
    rw [ho] at hreport
    rw [compile_eq (by rw [hreport]; exact Host.ports_finish_some rfl _ _)]
    have hnone : o.output ≠ none := by simp [ho]
    refine ⟨fun h => (Report.saved_out ..).trans (Report.shown_codeOnly h),
      fun _ h => absurd h hnone, fun h => absurd h hnone, fun path' hpath => ⟨?_, ?_⟩⟩
    · rw [Option.some.inj (hpath.symm.trans ho)]
    · rw [Option.some.inj (hpath.symm.trans ho)]
      cases (Host.write files path c.listing).1 with
      | ok _ => exact ⟨rfl, rfl⟩
      | error reason => exact ⟨rfl, String.empty_append ..⟩

end

section
variable {files : σ} {stdin : ByteArray} {args : List String} {o : Options}
  (ho : Options.ofArgs args = .ok o)
include ho

theorem run_compile {source : Source} (ha : o.action = .compile source) :
    run files stdin args = (compile files stdin o source).logging o.verbosity := by
  rw [run, ho]
  dsimp only
  rw [ha]

theorem run_repl (ha : o.action = .repl) :
    run files stdin args = (talk files stdin).logging o.verbosity := by
  rw [run, ho]
  dsimp only
  rw [ha]

end

/-- A run that compiles delivers a listing, or fails with what keeps it from doing so. -/
theorem run_compiles (files : σ) (stdin : ByteArray) {args : List String} {o : Options}
    {source : Source} (ho : Options.ofArgs args = .ok o) (ha : o.action = .compile source) :
    match Host.sourceOf files stdin source with
    | .error reason => Fails (unreadable source.name reason) files (run files stdin args)
    | .ok text =>
      match Compilation.ofText text with
      | .error r => Fails (Report.rejected source.name r) files (run files stdin args)
      | .ok c => Delivers o c.listing files (run files stdin args) := by
  rw [run_compile ho ha]
  cases hsource : Host.sourceOf files stdin source with
  | error reason => exact (compile_unread hsource).logging _
  | ok text =>
    dsimp only
    cases hc : Compilation.ofText text with
    | ok c => exact (compile_accepted hsource hc).logging _
    | error r => exact (compile_rejected hsource hc).logging _

end Command

end MeowScript
