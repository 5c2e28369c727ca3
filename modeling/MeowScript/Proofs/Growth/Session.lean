import MeowScript.Proofs.Growth.Change
import MeowScript.Session.Basic

/-!
# What a session shows

An accepted input is answered with the code behind as many instructions as there were before. That
is the code it adds, as long as no input goes on with the last statement of the one before: an
operator goes on with its value, and a `Hiss` with its branch. Such an input is accepted as well;
the code before it is then no longer part of the session's, and what it is answered with is not
what it adds.

Results:
* `Session.source_lines`: the text of a session is its lines, the input and `Sleep`.
* `Session.Sound.extend`: what one accepted input does to code and statements.
* `session_adds_iff`: the same for a run, and what its answers come to together.
* `session_rewrites_value`: an input that goes on with the value before it.
-/
namespace MeowScript

namespace Session

/-- The lines of the program of all inputs accepted, before its `Sleep`. -/
def lines (s : Session) : String := "Wake" ++ String.join (s.statements.map ("\n" ++ ·))

/-- The annotated statements of all inputs accepted. -/
def body (s : Session) : List Stmt := (s.last.map fun c => c.program.body).getD []

theorem source_lines (s : Session) (input : String) :
    s.source input = s.lines ++ "\n" ++ input ++ "\nSleep" := by
  -- a line feed behind each input, and one before the first, is one before each and one behind all
  have hshift : ∀ texts : List String, "\n" ++ String.join (texts.map (· ++ "\n")) =
      String.join (texts.map ("\n" ++ ·)) ++ "\n" := by
    intro texts
    rw [← String.toList_inj]
    induction texts with
    | nil => simp
    | cons t texts ih => simp_all
  have hwake : ("Wake\n" : String) = "Wake" ++ "\n" := by decide
  rw [source, lines, hwake, @String.append_assoc "Wake" "\n", hshift]
  simp only [String.append_assoc]

theorem lines_extended (s : Session) (input : String) (last : Option Compilation) :
    lines ⟨s.statements ++ [input], last⟩ = s.lines ++ "\n" ++ input := by
  rw [← String.toList_inj]
  simp [lines]

/-- The session holds what its lines compile to. -/
def Sound (s : Session) : Prop :=
  ∃ c, Compilation.ofText (s.lines ++ "\nSleep") = .ok c ∧ s.code = c.code ∧
    s.body = c.program.body

theorem sound_start : start.Sound := by
  have hempty : (Compilation.ofText (start.lines ++ "\nSleep")).toOption.map
      (fun c => (c.code, c.program.body)) = some ([], []) := by
    with_unfolding_all rfl
  obtain ⟨c, hc, hnil⟩ := Option.map_eq_some_iff.mp hempty
  obtain ⟨hcode, hbody⟩ := Prod.mk.inj hnil
  exact ⟨c, toOption_eq_some.mp hc, hcode.symm, hbody.symm⟩

end Session

/-! ## One input -/

/-- The text begins with an operator or with `Hiss`. -/
def GoesOn (text : String) : Prop := ∃ toks, tokensOf text = .ok toks ∧ Continues toks

/-- Lines behind lines without faults have no faults if there are none in all. -/
theorem clean_more {lines more : String} (h : Clean lines.toList)
    (hm : Clean (lines ++ "\n" ++ more).toList) : Clean more.toList := by
  have hall := (Clean.iff_found .start).mp hm
  rw [String.toList_append, String.toList_append, List.append_assoc] at hall
  rw [Clean.iff_found ((Position.start.after lines.toList).next '\n')]
  exact (List.append_eq_nil_iff.mp ((found_join skipsGaps_faultAt _ _ _ h).symm.trans hall)).2

/-- The first tokens of a text are those it has by itself. -/
theorem goesOn_iff {text : String} {ts : List Token} (h : Clean text.toList)
    (ht : ts.map Token.kind = (pieces text.toList).filterMap Piece.kind?) :
    GoesOn text ↔ Continues ts := by
  constructor
  · rintro ⟨toks, htoks, t, hhead, hk⟩
    obtain ⟨rest, rfl⟩ := List.head?_eq_some_iff.mp hhead
    have hkinds := tokensOf_kinds htoks
    rw [← ht] at hkinds
    cases ts with
    | nil =>
      -- the end of the input goes on with nothing
      rw [(List.cons.inj hkinds).1] at hk
      simp at hk
    | cons u ts => exact ⟨u, rfl, by rwa [← (List.cons.inj hkinds).1]⟩
  · rintro ⟨t, hhead, hk⟩
    obtain ⟨toks, htoks⟩ : ∃ toks, tokensOf text = .ok toks := ⟨_, tokensOf_eq_ok.mpr ⟨h, rfl⟩⟩
    obtain ⟨u, hu, hku⟩ := head?_kind htoks ht hhead
    exact ⟨toks, htoks, u, hu, hku ▸ hk⟩

namespace Session

variable {s s' : Session} {input answer : String}

/-- What an accepted input does: code and statements before it stay unless it goes on with the last
of them. -/
theorem Sound.extend (hs : s.Sound) (h : s.extend input = .ok (answer, s')) :
    s'.Sound ∧ answer = listing (s'.code.drop s.code.length) ∧
      (s.code <+: s'.code ↔ ¬ GoesOn input) ∧ (s.body <+: s'.body ↔ ¬ GoesOn input) := by
  obtain ⟨a, ha, hcode, hbody⟩ := hs
  unfold Session.extend at h
  split at h
  · cases h
  · next c hc =>
    obtain ⟨rfl, rfl⟩ := Prod.mk.inj (Except.ok.inj h)
    rw [source_lines] at hc
    obtain ⟨toks, old, new, hkinds, hgrowth⟩ := Compilation.growth ha hc
    have hclean := clean_more (Compilation.ofText_sleep ha).1 (Compilation.ofText_sleep hc).1
    have hsound : Sound ⟨s.statements ++ [input], some c⟩ :=
      ⟨c, by rw [lines_extended]; exact hc, rfl, rfl⟩
    refine ⟨hsound, rfl, ?_, ?_⟩
    · rw [goesOn_iff hclean hkinds, hcode]
      exact hgrowth.code_iff
    · rw [goesOn_iff hclean hkinds, hbody]
      exact hgrowth.body_iff

/-! ## A run -/

/-- An accepted input: the session it was given to, its text, the answer, and the session after. -/
structure Step where
  before : Session
  input : String
  answer : String
  after : Session

/-- The accepted inputs among these, given in turn, and the session at the end. -/
def run (s : Session) : List String → List Step × Session
  | [] => ([], s)
  | input :: inputs =>
    match s.extend input with
    | .error _ => s.run inputs
    | .ok (answer, s') => (⟨s, input, answer, s'⟩ :: (s'.run inputs).1, (s'.run inputs).2)

/-- Each step of a run begins with a session that holds what its lines compile to. -/
theorem Sound.run (hs : s.Sound) (inputs : List String) :
    ∀ x ∈ (s.run inputs).1, x.before.Sound ∧ x.before.extend x.input = .ok (x.answer, x.after) := by
  induction inputs generalizing s with
  | nil => intro x hx; cases hx
  | cons input inputs ih =>
    rw [Session.run]
    split
    · exact ih hs
    · next answer s' h =>
      intro x hx
      rcases List.mem_cons.mp hx with rfl | hx
      · exact ⟨hs, h⟩
      · exact ih (hs.extend h).1 x hx

/-- If every step keeps the code before it, the answers list what the run adds. -/
theorem Sound.listing_run (hs : s.Sound) (inputs : List String)
    (hk : ∀ x ∈ (s.run inputs).1, x.before.code <+: x.after.code) :
    listing s.code ++ String.join ((s.run inputs).1.map Step.answer) =
      listing (s.run inputs).2.code := by
  induction inputs generalizing s with
  | nil => simp [Session.run]
  | cons input inputs ih =>
    rw [Session.run] at hk ⊢
    split at hk
    · exact ih hs hk
    · next answer s' h =>
      obtain ⟨hs', hanswer, -⟩ := hs.extend h
      obtain ⟨hfirst, hrest⟩ := List.forall_mem_cons.mp hk
      obtain ⟨more, hmore⟩ := hfirst
      have hadded : listing s.code ++ answer = listing s'.code := by
        rw [hanswer, ← hmore, List.drop_left, listing_append]
      rw [← ih hs' hrest, ← hadded]
      simp [String.append_assoc]

end Session

/-- **Main.** In every run of a session, an accepted input keeps the code and the statements before
it if and only if it does not go on with them; if none does, the answers together are the listing of
the whole session. -/
theorem session_adds_iff (inputs : List String) :
    (∀ x ∈ (Session.start.run inputs).1,
      (x.before.code <+: x.after.code ↔ ¬ GoesOn x.input) ∧
      (x.before.body <+: x.after.body ↔ ¬ GoesOn x.input)) ∧
    ((∀ x ∈ (Session.start.run inputs).1, ¬ GoesOn x.input) →
      String.join ((Session.start.run inputs).1.map Session.Step.answer) =
        listing (Session.start.run inputs).2.code) := by
  have hsteps := Session.sound_start.run inputs
  constructor
  · intro x hx
    obtain ⟨hs, h⟩ := hsteps x hx
    exact (hs.extend h).2.2
  · intro hk
    have hkeep : ∀ x ∈ (Session.start.run inputs).1, x.before.code <+: x.after.code := by
      intro x hx
      obtain ⟨hs, h⟩ := hsteps x hx
      exact (hs.extend h).2.2.1.mpr (hk x hx)
    simpa [Session.start, Session.code] using Session.sound_start.listing_run inputs hkeep

/-- Here the second input goes on with the value of the first: what the first was answered with is
no longer code of the session. -/
theorem session_rewrites_value :
    (¬ ∀ x ∈ (Session.start.run ["Box x paws 1", "+ 2"]).1, x.before.code <+: x.after.code) ∧
      String.join ((Session.start.run ["Box x paws 1", "+ 2"]).1.map Session.Step.answer) ≠
        listing (Session.start.run ["Box x paws 1", "+ 2"]).2.code := by
  generalize hrun : Session.start.run ["Box x paws 1", "+ 2"] = r
  have hfound : (r.1.map (fun x => (x.before.code, x.after.code)),
      String.join (r.1.map Session.Step.answer), listing r.2.code) =
      ([([], [.copy "x" (.constant (.integer 1))]),
        ([.copy "x" (.constant (.integer 1))],
          [.binary 0 .add (.constant (.integer 1)) (.constant (.integer 2)) .integer,
            .copy "x" (.temp 0)])],
        "    x = 1\n    x = t0\n", "    t0 = 1 + 2\n    x = t0\n") := by
    rw [← hrun]
    decide +kernel
  obtain ⟨hcodes, hshown⟩ := Prod.mk.inj hfound
  obtain ⟨hanswers, hlisting⟩ := Prod.mk.inj hshown
  constructor
  · intro h
    have hpairs : ∀ y ∈ r.1.map (fun x => (x.before.code, x.after.code)), y.1 <+: y.2 :=
      List.forall_mem_map.mpr h
    rw [hcodes] at hpairs
    revert hpairs
    decide
  · rw [hanswers, hlisting]
    decide

end MeowScript
