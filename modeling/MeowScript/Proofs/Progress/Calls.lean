import MeowScript.Proofs.Cursor.Program

/-!
# A cursor goes forward

However many programs are asked for, every call returns and asks for no token out of bounds. The
place never goes back and never behind the first end of input, so what stands there does not matter.

Results:
* `Tape.round_gives`: a statement of a list, and recovery behind one that fails.
* `calls_forward`: any number of calls, and every statement on the way.
-/
namespace MeowScript

open Cursor

namespace Tape

variable {T : Tape} {t : Token} {rest left : List Token} {faults : List (Located SyntaxFault)}

theorem facing_place_le (h : left <:+ rest) :
    (T.facing rest faults).place ≤ (T.facing left faults).place :=
  Nat.sub_le_sub_left h.length_le _

theorem leftAfter_add (T : Tape) (k n : Nat) : T.leftAfter (k + n) <:+ T.leftAfter k := by
  induction n with
  | zero => exact List.suffix_refl _
  | succ n ih =>
    rw [← Nat.add_assoc, leftAfter_succ]
    exact (T.stream _).program_forward.1.trans ih

/-- A call answers with no more faults than there are tokens before the first end of input, and
two. -/
theorem faults_length (T : Tape) {k : Nat} {reported : List (Located SyntaxFault)}
    (h : .error reported ∈ T.answers k) : reported.length ≤ T.before.length + 2 := by
  obtain ⟨i, -, hi⟩ := List.mem_map.mp h
  have hfew := (T.stream (T.leftAfter i)).program_forward.2.2 reported hi
  have hle := (T.leftAfter_suffix i).length_le
  exact Nat.le_trans hfew (Nat.add_le_add_right hle 2)

/-- A statement of a list ends further on or where it began; recovery from one that fails has left
its first token behind. -/
theorem round_gives (he : ¬ endsStatements t.kind = true) (h : t :: rest <:+ T.before)
    (faults : List (Located SyntaxFault)) : ∃ r c,
      Gives (fun n => (Cursor.statement n).run) (T.facing (t :: rest) faults) r c ∧
      c.tokens = T.tokens ∧
      (T.facing (t :: rest) faults).place ≤ c.place ∧ c.place ≤ T.before.length ∧
      ∀ fault, r = .error (.recoverable fault) →
        ∃ c', Gives synchronize { c with faults := c.faults ++ [fault] } () c' ∧
          c'.tokens = T.tokens ∧
          (T.facing (t :: rest) faults).place < c'.place ∧ c'.place ≤ T.before.length := by
  have ht := T.unfinished t (h.subset List.mem_cons_self)
  obtain ⟨hleft, hskip⟩ := statementAt_forward he ht rest
  have hgives := (statement_reads (T := T) t rest).gives h faults
  refine ⟨_, _, hgives, rfl, facing_place_le hleft, Nat.sub_le _ _, fun fault _ => ?_⟩
  refine ⟨_, synchronize_gives (hleft.trans h), rfl, ?_, Nat.sub_le _ _⟩
  have hpassed := hskip.length_le
  have hlength := h.length_le
  rw [List.length_cons] at hlength
  show T.before.length - (rest.length + 1) < T.before.length - _
  omega

end Tape

/-- **Main.** However many programs are asked for of one cursor on any list of tokens, with or
without ends of input in it, all calls return, and no token is asked for out of bounds. A call
leaves the place where it was or further on, and not behind the first end of input; it reports at
most as many faults as there are tokens up to there, and two. Any other tokens behind that end make
no difference. Wherever a list of statements is, on any level, a statement that fails has not gone
back, and if it can be recovered from, recovery ends behind its first token. -/
theorem calls_forward (toks : List Token) :
    firstEnd toks < (ended toks).length ∧
    (∀ k, ∃ answers c, Gives (calls · k) (ofTokens toks) answers c ∧
      c.tokens = ended toks ∧ c.place ≤ firstEnd toks ∧
      (∀ j answers' c', Gives (calls · (k + j)) (ofTokens toks) answers' c' → c.place ≤ c'.place) ∧
      (∀ faults, .error faults ∈ answers → faults.length ≤ firstEnd toks + 2) ∧
      ∀ more, ∃ c', c'.place = c.place ∧ c'.faults = c.faults ∧
        Gives (calls · k) (ofTokens ((ended toks).take (firstEnd toks + 1) ++ more)) answers c') ∧
    ∀ c t, c.tokens = ended toks → c.place ≤ firstEnd toks → c.tokens[c.place]? = some t →
      ¬ endsStatements t.kind = true → t.kind ≠ .endOfInput →
      ∃ r c', Gives (fun n => (Cursor.statement n).run) c r c' ∧ c'.tokens = ended toks ∧
        c.place ≤ c'.place ∧ c'.place ≤ firstEnd toks ∧
        ∀ fault, r = .error (.recoverable fault) →
          ∃ c'', Gives synchronize { c' with faults := c'.faults ++ [fault] } () c'' ∧
            c''.tokens = ended toks ∧ c.place < c''.place ∧ c''.place ≤ firstEnd toks := by
  obtain ⟨T, htokens, hfirst, -⟩ := exists_tape toks
  rw [hfirst, htokens]
  refine ⟨?_, fun k => ?_, fun c t hc hplace ht he hend => ?_⟩
  · rw [Tape.tokens, List.length_append, List.length_cons]
    omega
  · have hgives := T.calls_gives k
    rw [← Tape.ofTokens_eq htokens] at hgives
    refine ⟨_, _, hgives, rfl, Nat.sub_le _ _, fun j answers' c' h' => ?_,
      fun faults hf => T.faults_length hf, fun more => ?_⟩
    · have hlater := T.calls_gives (k + j)
      rw [← Tape.ofTokens_eq htokens] at hlater
      rw [(h'.unique hlater).2]
      exact Tape.facing_place_le (T.leftAfter_add k j)
    · obtain ⟨behind, hbehind⟩ := T.exists_behind more
      have htake : T.tokens.take (T.before.length + 1) ++ more = T.before ++ T.finish :: more := by
        rw [Tape.tokens]
        simp [List.take_append]
      rw [htake, Tape.ofTokens_eq hbehind]
      exact ⟨({ T with behind } : Tape).facing (T.leftAfter k) [], rfl, rfl,
        ({ T with behind } : Tape).calls_gives k⟩
  · obtain ⟨rest, hrest⟩ : ∃ rest, T.before.drop c.place = t :: rest := by
      have hlt : c.place < T.before.length := by
        refine Nat.lt_of_le_of_ne hplace fun heq => ?_
        rw [hc, heq, Tape.tokens, List.getElem?_append_right (Nat.le_refl _), Nat.sub_self] at ht
        cases ht
        exact hend T.ends
      rw [hc, Tape.tokens, List.getElem?_append_left hlt, List.getElem?_eq_getElem hlt] at ht
      cases ht
      exact ⟨_, List.drop_eq_getElem_cons hlt⟩
    have hsuffix : t :: rest <:+ T.before := hrest ▸ List.drop_suffix _ _
    have hround := T.round_gives he hsuffix c.faults
    rw [← hrest, ← Tape.facing_drop hc hplace] at hround
    exact hround

/-- Behind `Wake`, `Meow(1 +)` fails at its parenthesis, and recovery ends behind that. -/
theorem calls_forward_broken :
    Gives (fun n => (Cursor.statement n).run) ⟨brokenTokens, 1, []⟩
      (.error (.recoverable ⟨.expected .expression (.delimiter .closeParen), ⟨1, 6⟩⟩))
      ⟨brokenTokens, 5, []⟩ ∧
    Gives synchronize
      ⟨brokenTokens, 5, [⟨.expected .expression (.delimiter .closeParen), ⟨1, 6⟩⟩]⟩ ()
      ⟨brokenTokens, 6, [⟨.expected .expression (.delimiter .closeParen), ⟨1, 6⟩⟩]⟩ ∧
    1 < 6 ∧ 6 ≤ firstEnd brokenTokens := by
  obtain ⟨-, -, hround⟩ := calls_forward brokenTokens
  obtain ⟨r, c, hgives, -, -, -, hrecovers⟩ := hround ⟨brokenTokens, 1, []⟩
    ⟨.keyword .meow, "", ⟨1, 2⟩⟩ rfl (by decide) rfl (by decide) (by decide)
  have hstatement : ((Cursor.statement 20).run.run ⟨brokenTokens, 1, []⟩).run =
      some (.ok (.error (.recoverable ⟨.expected .expression (.delimiter .closeParen), ⟨1, 6⟩⟩),
        ⟨brokenTokens, 5, []⟩)) := rfl
  obtain ⟨rfl, rfl⟩ := hgives.eq_of_run (n := 20) hstatement
  obtain ⟨c', hskips, -, hbehind, hbefore⟩ := hrecovers _ rfl
  have hskipped : ((synchronize 20).run
      ⟨brokenTokens, 5, [⟨.expected .expression (.delimiter .closeParen), ⟨1, 6⟩⟩]⟩).run =
      some (.ok ((),
        ⟨brokenTokens, 6, [⟨.expected .expression (.delimiter .closeParen), ⟨1, 6⟩⟩]⟩)) := rfl
  obtain ⟨-, rfl⟩ := hskips.eq_of_run (n := 20) hskipped
  exact ⟨hgives, hskips, hbehind, hbefore⟩

end MeowScript
