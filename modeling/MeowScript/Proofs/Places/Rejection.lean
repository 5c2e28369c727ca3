import MeowScript.Compilation
import MeowScript.Proofs.Growth.Extension
import MeowScript.Proofs.Places.Check
import MeowScript.Proofs.Progress.Stream

/-!
# Faults behind the first line

A text whose first line is `Wake` is rejected for what stands behind that line: every fault of every
phase is there, and so is every declaration whose line a fault names.

Results:
* `Position.after_line`: the line behind a text.
* `line_le_found`: what is found in a text is not before its first line.
* `program_placed`, `body_stands`: faults and tree of a program are where the tokens behind `Wake`
  are, or at the end.
* `rejected_later`: a text that begins with a line `Wake`.
-/
namespace MeowScript

/-! ## Lines of a text -/

theorem Position.after_line (p : Position) (cs : List Char) :
    (p.after cs).line = p.line + cs.count '\n' := by
  induction cs generalizing p with
  | nil => rfl
  | cons c cs ih =>
    rw [after_cons, ih, next]
    by_cases hc : c = '\n'
    · subst hc
      simp
      omega
    · simp [hc]

theorem line_le_after (p : Position) (cs : List Char) : p.line ≤ (p.after cs).line := by
  rw [Position.after_line]
  exact Nat.le_add_right _ _

theorem line_le_placed {p : Position} {xs : List Piece} :
    ∀ y ∈ placed p xs, p.line ≤ y.position.line := by
  induction xs generalizing p with
  | nil => exact List.forall_mem_nil _
  | cons x xs ih =>
    refine List.forall_mem_cons.mpr ⟨Nat.le_refl _, fun y hy => ?_⟩
    exact Nat.le_trans (line_le_after p x.text) (ih y hy)

theorem tokenAt_position {y : Located Piece} {t : Token} (h : Piece.tokenAt y = some t) :
    t.position = y.position := by
  unfold Piece.tokenAt at h
  split at h
  · cases h; rfl
  · cases h

theorem faultAt_position {y : Located Piece} {f : Located LexicalFault}
    (h : Piece.faultAt y = some f) : f.position = y.position := by
  unfold Piece.faultAt at h
  split at h
  · cases h; rfl
  · cases h

theorem line_le_found {α : Type} {f : Located Piece → Option α} {place : α → Position}
    (hf : ∀ y a, f y = some a → place a = y.position) (p : Position) (cs : List Char) :
    ∀ a ∈ found f p cs, p.line ≤ (place a).line := by
  intro a ha
  obtain ⟨y, hy, ha⟩ := List.mem_filterMap.mp ha
  rw [hf y a ha]
  exact line_le_placed y hy

/-! ## Programs -/

section
variable {P : Position → Prop} {w : Token} {rest : List Token} {finish : Position}

open TokenStream

theorem stopFault_placed (hfinish : P finish) (e : Expected) {toks : List Token}
    (ht : Lie P toks) : P (stopFault finish e toks).position := by
  cases toks with
  | nil => exact hfinish
  | cons t toks => exact (lie_cons.mp ht).1

theorem close_placed (hfinish : P finish) {toks : List Token} (ht : Lie P toks) :
    ∀ f ∈ (close finish toks).1, P f.position := by
  unfold close
  split
  · exact List.forall_mem_singleton.mpr hfinish
  · next t toks =>
    obtain ⟨hfirst, hrest⟩ := lie_cons.mp ht
    split
    · cases toks with
      | nil => exact List.forall_mem_nil _
      | cons u more => exact List.forall_mem_singleton.mpr (lie_cons.mp hrest).1
    · exact List.forall_mem_singleton.mpr hfirst

theorem program_placed (hw : w.kind = .keyword .wake) (hrest : Lie P rest) (hfinish : P finish)
    {faults : List (Located SyntaxFault)}
    (h : (program ⟨w :: rest, finish⟩).1 = .error faults) : ∀ f ∈ faults, P f.position := by
  have hstart : start ⟨w :: rest, finish⟩ = ([], rest) := if_pos hw
  have htop := topLevel_forward rest
  rw [program_account, hstart] at h
  dsimp only at h
  generalize (topLevel rest).account = r at h htop
  obtain ⟨early, result, left⟩ := r
  have hearly : ∀ f ∈ early, P f.position := by
    intro f hf
    obtain ⟨t, ht, hp⟩ := htop.placed f hf
    exact hp ▸ hrest t ht
  have hleft : Lie P left := fun t ht => hrest t (htop.left.subset ht)
  cases result with
  | error e =>
    cases h
    rw [List.nil_append, List.forall_mem_append]
    exact ⟨hearly, List.forall_mem_singleton.mpr (stopFault_placed hfinish e hleft)⟩
  | ok body =>
    dsimp only at h
    split at h
    · cases h
    · cases h
      rw [List.nil_append, List.forall_mem_append]
      exact ⟨hearly, close_placed hfinish hleft⟩

theorem body_stands (hrest : Lie P rest) {p : Program}
    (h : (program ⟨w :: rest, finish⟩).1 = .ok p) : ∀ s ∈ p.body, s.Stands P := by
  obtain ⟨w', s, rest', hahead, -, -, hread, -⟩ := (program_iff _ _ _).mp (toOption_eq_some.mpr h)
  obtain ⟨-, rfl⟩ := List.cons.inj hahead
  obtain ⟨body, hspell, hspelled, hbody⟩ := statements_sound rest _ hread
  have hmeanings : p.body = meanings body := hbody
  rw [hspell, lie_append] at hrest
  rw [hmeanings]
  exact spelling_stands (fun x hx => (hspelled x hx).stands) hrest.1

end

/-! ## Texts -/

/-- Behind the first line. -/
def Later (p : Position) : Prop := 2 ≤ p.line

/-- Every fault is at such a place, and so is every declaration whose line is named. -/
def Rejection.Within (P : Position → Prop) : Rejection → Prop
  | .lexical fs => ∀ f ∈ fs, P f.position
  | .syntactic fs => ∀ f ∈ fs, P f.position
  | .semantic fs => ∀ f ∈ fs, Placed P f

theorem first_wake : Piece.first 'W' ['a', 'k', 'e'] =
    (⟨['W', 'a', 'k', 'e'], .token (.keyword .wake)⟩, []) := by
  decide

theorem clean_wake : Clean "Wake".toList := by
  have hwake : "Wake".toList = ['W', 'a', 'k', 'e'] := by decide
  rw [hwake, Clean.cons_iff, first_wake]
  exact ⟨nofun, .nil⟩

theorem found_wake (p : Position) :
    found Piece.tokenAt p "Wake".toList = [⟨.keyword .wake, "Wake", p⟩] := by
  have hwake : "Wake".toList = ['W', 'a', 'k', 'e'] := by decide
  rw [hwake, found_cons, first_wake, found_nil]
  rfl

/-- The second line begins where the first ends. -/
theorem found_behind_wake {α : Type} {f : Located Piece → Option α} (hf : SkipsGaps f)
    (more : String) : found f .start ("Wake\n" ++ more).toList =
      found f .start "Wake".toList ++ found f ⟨2, 1⟩ more.toList := by
  have hsource : ("Wake\n" ++ more).toList = "Wake".toList ++ '\n' :: more.toList := by
    rw [String.toList_append]
    rfl
  rw [hsource, found_join hf _ _ _ clean_wake]
  rfl

theorem tokensOf_wake {more : String} {toks : List Token}
    (h : tokensOf ("Wake\n" ++ more) = .ok toks) : ∃ w rest fin, toks = w :: rest ++ [fin] ∧
      w.kind = .keyword .wake ∧ fin.kind = .endOfInput ∧ Unfinished (w :: rest) ∧
      Lie Later rest ∧ Later fin.position := by
  obtain ⟨-, rfl⟩ := tokensOf_eq_ok.mp h
  rw [found_behind_wake skipsGaps_tokenAt, found_wake]
  refine ⟨_, _, _, rfl, rfl, rfl, ?_, ?_, ?_⟩
  · exact unfinished_cons.mpr ⟨by simp, fun t ht => found_ne_finish ht⟩
  · exact line_le_found (fun _ _ => tokenAt_position) ⟨2, 1⟩ more.toList
  · have hfirst : Position.start.after "Wake\n".toList = ⟨2, 1⟩ := by decide
    rw [String.toList_append, Position.after_append, hfirst]
    exact line_le_after ⟨2, 1⟩ more.toList

theorem rejected_later {more : String} {r : Rejection}
    (h : Compilation.ofText ("Wake\n" ++ more) = .error r) : r.Within Later := by
  unfold Compilation.ofText at h
  cases htoks : tokensOf ("Wake\n" ++ more) with
  | error faults =>
    rw [htoks] at h
    cases h
    have hfaults : faults = found Piece.faultAt .start ("Wake\n" ++ more).toList := by
      unfold tokensOf at htoks
      dsimp only at htoks
      split at htoks
      · cases htoks
      · cases htoks
        rfl
    rw [hfaults, found_behind_wake skipsGaps_faultAt, (Clean.iff_found .start).mp clean_wake]
    exact line_le_found (fun _ _ => faultAt_position) ⟨2, 1⟩ more.toList
  | ok toks =>
    obtain ⟨w, rest, fin, rfl, hw, hfin, hunfinished, hrest, hfinish⟩ := tokensOf_wake htoks
    have hlist := TokenStream.ofList_ends hfin hunfinished
    rw [htoks] at h
    dsimp only at h
    rw [Program.ofTokens, hlist] at h
    split at h
    · next faults hfaults =>
      cases h
      exact program_placed hw hrest hfinish hfaults
    · next tree htree =>
      split at h
      · next faults hfaults =>
        cases h
        exact Program.check_placed (body_stands hrest htree) hfaults
      · cases h

end MeowScript
