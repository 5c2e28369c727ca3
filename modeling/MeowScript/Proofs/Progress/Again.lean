import MeowScript.Proofs.Progress.Calls

/-!
# Asking a cursor again

A call leaves no faults behind, and from the place where it stopped the next one answers what a new
cursor answers on the tokens from there on. Behind an accepted program nothing is left but the end
of the input, and there every call fails in the same way.

Results:
* `TokenStream.program_nil`, `TokenStream.left_of_accepted`: a stream that is used up, and that an
  accepted program uses it up.
* `Tape.ended_from`: the tokens from a place on end as the whole list does.
* `call_again`: every call of a row, and the calls behind an accepted program.
-/
namespace MeowScript

open Cursor

namespace TokenStream

/-! ## A stream that is used up -/

/-- What is reported of the end of the input alone. -/
def nothingLeft (finish : Position) : List (Located SyntaxFault) :=
  [⟨.missingStart .endOfInput, finish⟩, ⟨.missingEnd .endOfInput, finish⟩]

theorem program_nil (finish : Position) :
    program ⟨[], finish⟩ = (.error (nothingLeft finish), ⟨[], finish⟩) := by
  have hbody : (topLevel []).account = .of ⟨.ok [], []⟩ := by
    have hnone : ∀ t ∈ ([] : List Token).head?, endsStatements t.kind = true := nofun
    rw [topLevel_account, statements_account_end hnone]
    rfl
  have hstart : start ⟨[], finish⟩ = ([⟨.missingStart .endOfInput, finish⟩], []) := rfl
  refine Prod.ext ?_ ?_
  · rw [program_account, hstart, hbody]
    rfl
  · rw [program_left, hstart, hbody]
    rfl

/-- Behind an accepted program stands the end of the input. -/
theorem left_of_accepted {p : TokenStream} {tree : Program} (h : p.program.1 = .ok tree) :
    p.program.2 = ⟨[], p.finish⟩ := by
  rw [program_account] at h
  rw [program_left]
  generalize (topLevel p.start.2).account = r at h
  obtain ⟨faults, result, rest⟩ := r
  cases result with
  | error e => cases h
  | ok body =>
    dsimp only at h
    split at h
    · next hnone =>
      obtain ⟨s, rfl, hs⟩ := close_nil (List.append_eq_nil_iff.mp hnone).2
      simp only [close, if_pos hs]
    · cases h

theorem afterCalls_nil (finish : Position) (n : Nat) :
    afterCalls ⟨[], finish⟩ n = ⟨[], finish⟩ := by
  induction n with
  | zero => rfl
  | succ n ih => rw [afterCalls, ih, program_nil]

theorem afterCalls_add (p : TokenStream) (k n : Nat) :
    p.afterCalls (k + n) = (p.afterCalls k).afterCalls n := by
  induction n with
  | zero => rfl
  | succ n ih => exact congrArg (fun s => s.program.2) ih

/-- Every call behind an accepted program finds the end of the input alone. -/
theorem program_behind_accepted {p : TokenStream} {k : Nat} {tree : Program}
    (h : (p.afterCalls k).program.1 = .ok tree) {j : Nat} (hj : k < j) :
    (p.afterCalls j).program.1 = .error (nothingLeft p.finish) := by
  obtain ⟨n, rfl⟩ := Nat.exists_eq_add_of_lt hj
  have hnext : p.afterCalls (k + 1) = ⟨[], p.finish⟩ := by
    rw [← (p.afterCalls_forward k).2]
    exact left_of_accepted h
  rw [Nat.add_right_comm, afterCalls_add, hnext, afterCalls_nil, program_nil]

end TokenStream

/-! ## The tokens from a place on -/

/-- A list that ends with an end of input stays as it is. -/
theorem ended_of_last {toks : List Token} {t : Token} (h : toks.getLast? = some t)
    (ht : isFinish t = true) : ended toks = toks := by
  rw [ended, h]
  exact if_pos ht

theorem ended_last (toks : List Token) :
    ∃ t, (ended toks).getLast? = some t ∧ isFinish t = true := by
  unfold ended
  split
  · exact ⟨.finish .start, rfl, rfl⟩
  · next t h =>
    split
    · next ht => exact ⟨t, h, ht⟩
    · exact ⟨.finish t.position, List.getLast?_concat, rfl⟩

namespace Tape

variable {T : Tape}

/-- The tokens from a place on, up to the first end of input and behind it. -/
theorem drop_facing {ahead : List Token} (h : ahead <:+ T.before) :
    T.tokens.drop (T.facing ahead []).place = ahead ++ T.finish :: T.behind := by
  obtain ⟨passed, hpassed⟩ := h
  have hplace : (T.facing ahead []).place = passed.length := by
    rw [facing, ← hpassed, List.length_append, Nat.add_sub_cancel]
  rw [hplace, tokens, ← hpassed, List.append_assoc, List.drop_left]

/-- The tokens from a place on end as the whole list does. -/
theorem ended_from {toks ahead : List Token} (htokens : ended toks = T.tokens)
    (h : ahead <:+ T.before) :
    ended (ahead ++ T.finish :: T.behind) = ahead ++ T.finish :: T.behind := by
  obtain ⟨t, hlast, ht⟩ := ended_last toks
  obtain ⟨passed, hpassed⟩ := h
  refine ended_of_last (t := t) ?_ ht
  rw [htokens, tokens, ← hpassed, List.append_assoc] at hlast
  rwa [List.getLast?_append_of_ne_nil _ (by simp)] at hlast

/-- The call behind `k` others, asked of a new cursor on what those have left. -/
theorem fresh_gives {toks : List Token} (htokens : ended toks = T.tokens) (k : Nat) :
    Gives parseProgram (ofTokens ((T.tokens).drop (T.facing (T.leftAfter k) []).place))
      (T.stream (T.leftAfter k)).program.1
      ⟨T.tokens.drop (T.facing (T.leftAfter k) []).place,
        (T.leftAfter k).length - (T.leftAfter (k + 1)).length, []⟩ := by
  have hleft := T.leftAfter_suffix k
  have hunfinished : Unfinished (T.leftAfter k) := fun t ht => T.unfinished t (hleft.subset ht)
  let U : Tape := ⟨T.leftAfter k, T.finish, T.behind, hunfinished, T.ends⟩
  have hU : ended (T.leftAfter k ++ T.finish :: T.behind) = U.tokens := ended_from htokens hleft
  have hcall := U.parseProgram_gives (List.suffix_refl (T.leftAfter k))
  rw [drop_facing hleft, ofTokens_eq hU, leftAfter_succ]
  exact hcall

end Tape

/-- **Main.** However many programs are asked for of one cursor, no fault is kept behind a call, and
the next one answers what a new cursor answers on the tokens from the place on, and moves on as far.
When one call has accepted a program, every later one reports a missing start and a missing end,
both at the first end of input, and nothing else. -/
theorem call_again (toks : List Token) :
    (∀ k, ∃ answers c, Gives (calls · k) (ofTokens toks) answers c ∧ answers.length = k ∧
      c.faults = [] ∧ ∃ answer fresh,
        Gives parseProgram (ofTokens (c.tokens.drop c.place)) answer fresh ∧
        Gives (calls · (k + 1)) (ofTokens toks) (answers ++ [answer])
          ⟨c.tokens, c.place + fresh.place, []⟩) ∧
    ∃ e, (ended toks)[firstEnd toks]? = some e ∧ e.kind = .endOfInput ∧
      ∀ k answers c, Gives (calls · k) (ofTokens toks) answers c → ∀ (i : Nat) (tree : Program),
        answers[i]? = some (.ok tree) → ∀ (j : Nat) (answer : Answer), i < j →
        answers[j]? = some answer →
          answer = .error
            [⟨.missingStart .endOfInput, e.position⟩, ⟨.missingEnd .endOfInput, e.position⟩] := by
  obtain ⟨T, htokens, hfirst, -⟩ := exists_tape toks
  have hcalls := T.calls_gives
  rw [← Tape.ofTokens_eq htokens] at hcalls
  refine ⟨fun k => ⟨T.answers k, T.facing (T.leftAfter k) [], hcalls k, ?_, rfl,
    (T.stream (T.leftAfter k)).program.1, _, T.fresh_gives htokens k, ?_⟩, T.finish, ?_, T.ends, ?_⟩
  · rw [Tape.answers, List.length_map, List.length_range]
  · have hplace : (T.facing (T.leftAfter (k + 1)) []).place = (T.facing (T.leftAfter k) []).place +
        ((T.leftAfter k).length - (T.leftAfter (k + 1)).length) := by
      have hle := (T.leftAfter_suffix k).length_le
      have hle' := (T.leftAfter_add k 1).length_le
      show T.before.length - _ = T.before.length - _ + _
      omega
    have hnext := hcalls (k + 1)
    rw [T.answers_succ] at hnext
    rwa [← hplace]
  · rw [hfirst, htokens, Tape.tokens, List.getElem?_append_right (Nat.le_refl _), Nat.sub_self]
    rfl
  · intro k answers c h i tree hi j answer hj hanswer
    rw [(h.unique (hcalls k)).1] at hi hanswer
    rw [T.of_answers hanswer, T.stream_leftAfter]
    have haccepted := (T.of_answers hi).symm
    rw [T.stream_leftAfter] at haccepted
    exact TokenStream.program_behind_accepted haccepted hj

/-- `Wake } Sleep Wake Sleep`, without an end of input. -/
def twoPrograms : List Token :=
  [.keyword .wake, .delimiter .closeBrace, .keyword .sleep, .keyword .wake, .keyword .sleep].mapIdx
    fun i k => ⟨k, "", ⟨1, i + 1⟩⟩

/-- Its tape. -/
def twoProgramsTape : Tape := ⟨twoPrograms, .finish ⟨1, 5⟩, [], by unfold Unfinished; decide, rfl⟩

/-- The first call fails for a brace and for what is behind its `Sleep`, and stops there; the second
accepts a program; and from then on nothing is left. -/
theorem call_again_twice : ∃ c, Gives (calls · 4) (ofTokens twoPrograms)
    [.error [⟨.unexpectedToken (.delimiter .closeBrace), ⟨1, 2⟩⟩,
        ⟨.trailingInput (.keyword .wake), ⟨1, 4⟩⟩],
      .ok ⟨[], ⟨1, 4⟩⟩,
      .error [⟨.missingStart .endOfInput, ⟨1, 5⟩⟩, ⟨.missingEnd .endOfInput, ⟨1, 5⟩⟩],
      .error [⟨.missingStart .endOfInput, ⟨1, 5⟩⟩, ⟨.missingEnd .endOfInput, ⟨1, 5⟩⟩]] c := by
  have htokens : ended twoPrograms = twoProgramsTape.tokens := by decide
  have hfirst : (twoProgramsTape.stream (twoProgramsTape.leftAfter 0)).program.1 =
      .error [⟨.unexpectedToken (.delimiter .closeBrace), ⟨1, 2⟩⟩,
        ⟨.trailingInput (.keyword .wake), ⟨1, 4⟩⟩] := by with_unfolding_all rfl
  have hsecond : (twoProgramsTape.stream (twoProgramsTape.leftAfter 1)).program.1 =
      .ok ⟨[], ⟨1, 4⟩⟩ := by with_unfolding_all rfl
  have hcalls := twoProgramsTape.calls_gives 4
  rw [← Tape.ofTokens_eq htokens] at hcalls
  obtain ⟨-, e, hend, -, hbehind⟩ := call_again twoPrograms
  have hfinish : (ended twoPrograms)[firstEnd twoPrograms]? = some (.finish ⟨1, 5⟩) := by decide
  rw [hend] at hfinish
  cases hfinish
  have hlater := hbehind 4 _ _ hcalls 1 ⟨[], ⟨1, 4⟩⟩ (congrArg some hsecond)
  have hthird := hlater 2 (twoProgramsTape.stream (twoProgramsTape.leftAfter 2)).program.1
    (by decide) rfl
  have hfourth := hlater 3 (twoProgramsTape.stream (twoProgramsTape.leftAfter 3)).program.1
    (by decide) rfl
  rw [Tape.answers_succ, Tape.answers_succ, Tape.answers_succ, Tape.answers_succ, hfirst, hsecond,
    hthird, hfourth] at hcalls
  exact ⟨_, hcalls⟩

end MeowScript
