import Mathlib.Data.List.TakeWhile
import MeowScript.Grammar.Cursor
import MeowScript.Proofs.Prefix.FirstFault
import MeowScript.Proofs.Progress.Forward

/-!
# A stream of tokens goes forward

Programs may be read from a stream again and again. Each reading leaves an end part of it, and
reports no more faults than there were tokens and two: one for a missing start and one for a missing
end.

Results:
* `statements_round`, `statementAt_forward`: a list of statements is read statement by statement,
  and one that fails is left behind, with at least one token.
* `TokenStream.program_forward`: one program.
* `ended_split`: the stream of a list of tokens, which ends at their first end of input.
-/
namespace MeowScript

open Account

/-! ## One statement of a list -/

/-- The statement at the front of a list, its first token included; if that begins none, nothing is
taken. -/
def statementAt (t : Token) (rest : List Token) : Account Stmt :=
  match Starter.ofKind? t.kind with
  | none => .of ⟨.error .statement, t :: rest⟩
  | some s => (statement s t.position rest).account

variable {t : Token} {rest : List Token}

/-- Reading goes on behind a statement, and at the next landmark after one that fails. -/
theorem statements_round (he : ¬ endsStatements t.kind = true) (ht : t.kind ≠ .endOfInput) :
    (statements (t :: rest)).account = (statementAt t rest).recover
      (fun first left => (statements left).account.map (first :: ·))
      fun left => (statements left).account := by
  unfold statementAt
  cases hs : Starter.ofKind? t.kind with
  | none =>
    rw [statements_account_none he hs, ← skip_of_landmark (isLandmark_of_none he hs ht)]
    rfl
  | some s => exact statements_account hs rest

/-- A statement that fails has not gone back, and what recovery leaves is behind its first token. -/
theorem statementAt_forward (he : ¬ endsStatements t.kind = true) (ht : t.kind ≠ .endOfInput)
    (rest : List Token) : (statementAt t rest).reading.Forward (t :: rest) ∧
      skip (statementAt t rest).reading.rest <:+ rest := by
  unfold statementAt
  cases hs : Starter.ofKind? t.kind with
  | none =>
    refine ⟨.here, ?_⟩
    show skip (t :: rest) <:+ rest
    rw [skip_of_landmark (isLandmark_of_none he hs ht)]
    exact skip_suffix rest
  | some s =>
    have hleft := (statement_forward s t.position rest).left
    exact ⟨hleft.behind, (skip_suffix _).trans hleft⟩

/-- Behind a statement stands less than its first token. -/
theorem statementAt_left {first : Stmt} {left : List Token}
    (h : (statementAt t rest).reading = ⟨.ok first, left⟩) : left <:+ rest := by
  unfold statementAt at h
  cases hs : Starter.ofKind? t.kind with
  | none =>
    rw [hs] at h
    cases h
  | some s =>
    rw [hs] at h
    have hleft := (statement_forward s t.position rest).left
    rw [h] at hleft
    exact hleft

/-! ## One call -/

namespace TokenStream

/-- What is left of a stream when a program has been read from it. -/
theorem program_left (p : TokenStream) : p.program.2 =
    ⟨match (topLevel p.start.2).account.reading with
      | ⟨.error _, rest⟩ => rest
      | ⟨.ok _, rest⟩ => (close p.finish rest).2, p.finish⟩ := by
  rw [program]
  dsimp only
  generalize topLevel p.start.2 = r
  obtain ⟨faults, outcome⟩ := r
  cases outcome with
  | error f => rfl
  | ok r =>
    dsimp only [Recovered.account, Attempt.reading_ok]
    cases p.start.1 ++ faults ++ (close p.finish r.rest).1 <;> rfl

/-- A missing start is reported without taking a token. -/
theorem start_forward (p : TokenStream) :
    p.start.2 <:+ p.ahead ∧ p.start.1.length + p.start.2.length ≤ p.ahead.length + 1 := by
  obtain ⟨ahead, finish⟩ := p
  cases ahead with
  | nil => exact ⟨List.suffix_refl _, Nat.le_refl _⟩
  | cons t rest =>
    unfold start
    dsimp only
    split
    · exact ⟨List.suffix_cons t rest, by simp; omega⟩
    · exact ⟨List.suffix_refl _, by simp; omega⟩

theorem close_forward (finish : Position) (toks : List Token) :
    (close finish toks).2 <:+ toks ∧ (close finish toks).1.length ≤ 1 := by
  unfold close
  split
  · exact ⟨List.suffix_refl _, Nat.le_refl _⟩
  · next t rest =>
    split
    · cases rest with
      | nil => exact ⟨List.nil_suffix, Nat.zero_le _⟩
      | cons u more => exact ⟨List.suffix_cons t _, Nat.le_refl _⟩
    · exact ⟨List.suffix_refl _, Nat.le_refl _⟩

/-- A call leaves an end part of the stream, and reports no more faults than there were tokens, and
two. -/
theorem program_forward (p : TokenStream) :
    p.program.2.ahead <:+ p.ahead ∧ p.program.2.finish = p.finish ∧
      ∀ faults, p.program.1 = .error faults → faults.length ≤ p.ahead.length + 2 := by
  obtain ⟨hstart, hearly⟩ := p.start_forward
  have htop := topLevel_forward p.start.2
  rw [program_left, program_account]
  generalize (topLevel p.start.2).account = r at htop
  obtain ⟨faults, result, rest⟩ := r
  have hleft : rest <:+ p.start.2 := htop.left
  have hfew : faults.length + rest.length ≤ p.start.2.length := htop.few
  cases result with
  | error e =>
    refine ⟨hleft.trans hstart, rfl, fun all hall => ?_⟩
    have hlt : faults.length < p.start.2.length := (htop.stops e rfl).2
    cases hall
    simp only [List.length_append, List.length_singleton]
    omega
  | ok body =>
    obtain ⟨hclose, hlate⟩ := close_forward p.finish rest
    refine ⟨hclose.trans (hleft.trans hstart), rfl, fun all hall => ?_⟩
    have hsum : (p.start.1 ++ faults ++ (close p.finish rest).1).length ≤ p.ahead.length + 2 := by
      simp only [List.length_append]
      omega
    dsimp only at hall
    split at hall
    · cases hall
    · cases hall
      exact hsum

/-! ## Any number of calls -/

/-- The stream when `k` programs have been read from it. -/
def afterCalls (p : TokenStream) : Nat → TokenStream
  | 0 => p
  | k + 1 => (p.afterCalls k).program.2

theorem afterCalls_forward (p : TokenStream) (k : Nat) :
    (p.afterCalls k).ahead <:+ p.ahead ∧ (p.afterCalls k).finish = p.finish := by
  induction k with
  | zero => exact ⟨List.suffix_refl _, rfl⟩
  | succ k ih =>
    obtain ⟨hahead, hfinish, -⟩ := (p.afterCalls k).program_forward
    exact ⟨hahead.trans ih.1, hfinish.trans ih.2⟩

end TokenStream

open TokenStream

/-- Where the first end of input stands. -/
def firstEnd (toks : List Token) : Nat := (ended toks).findIdx isFinish

/-- A stream holds the tokens before the first end of input, and where that end stands. -/
theorem ended_split (toks : List Token) : ∃ init e more, ended toks = init ++ e :: more ∧
    e.kind = .endOfInput ∧ Unfinished init ∧ ofList toks = ⟨init, e.position⟩ := by
  cases hfind : toks.find? isFinish with
  | some e =>
    obtain ⟨he, init, more, rfl, hinit⟩ := List.find?_eq_some_iff_append.mp hfind
    have hend : e.kind = .endOfInput := by simpa [isFinish] using he
    have hbefore : Unfinished init := fun t ht => by simpa [isFinish] using hinit t ht
    have hlist : ofList (init ++ e :: more) = ⟨init, e.position⟩ := by
      obtain ⟨kind, lexeme, position⟩ := e
      cases hend
      rw [ofList_append_finish, ofList_ends rfl hbefore]
    rw [ended]
    split
    · next h => simp at h
    · next t h =>
      split
      · exact ⟨init, e, more, rfl, hend, hbefore, hlist⟩
      · exact ⟨init, e, more ++ [.finish t.position], by simp, hend, hbefore, hlist⟩
  | none =>
    have hnone : ∀ t ∈ toks, isFinish t = false := by simpa using List.find?_eq_none.mp hfind
    have hunfinished : Unfinished toks := fun t ht => by simpa [isFinish] using hnone t ht
    have hahead : toks.takeWhile (fun t => !isFinish t) = toks :=
      List.takeWhile_eq_self_iff.mpr fun t ht => by simp [hnone t ht]
    rw [ended, ofList, hahead, hfind]
    cases hlast : toks.getLast? with
    | none =>
      rw [List.getLast?_eq_none_iff.mp hlast]
      exact ⟨[], _, [], rfl, rfl, unfinished_nil, rfl⟩
    | some t =>
      refine ⟨toks, .finish t.position, [], ?_, rfl, hunfinished, rfl⟩
      dsimp only
      rw [hnone t (List.mem_of_getLast? hlast)]
      rfl

theorem firstEnd_eq (toks : List Token) : firstEnd toks = (ofList toks).ahead.length := by
  obtain ⟨init, e, more, hsplit, he, hinit, hlist⟩ := ended_split toks
  have hend : isFinish e = true := by simp [isFinish, he]
  rw [firstEnd, hsplit, hlist, List.findIdx_append, List.findIdx_eq_length_of_false]
  · simp [List.findIdx_cons, hend]
  · exact fun t ht => by simp [isFinish, hinit t ht]

end MeowScript
