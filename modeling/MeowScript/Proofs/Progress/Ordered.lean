import MeowScript.Proofs.Places.Increasing
import MeowScript.Proofs.Progress.Forward

/-!
# Faults come in reading order

A mistake is noticed where reading has stopped, and reading never goes back. So a fault that is
reported later, by whatever list of statements around it, stands at the same token or further on.
That holds on every level of blocks, and for the faults that the beginning and the end of a program
give rise to.

Results:
* `Along.sorted`: faults along tokens in reading order are in reading order.
* `statement_inOrder`, `statements_inOrder`, `topLevel_inOrder`: readers that go on after mistakes.
* `TokenStream.program_along`: one program.
* `faults_in_order`: the faults of a text, lexical and syntactic.
-/
namespace MeowScript

variable {α β : Type}

/-! ## Faults along tokens -/

/-- The faults are reported one after the other while `toks` are read up to `rest`: each at one of
the tokens from the place of the fault before it on, and none behind the first token of `rest`. -/
inductive Along : List Token → List (Located SyntaxFault) → List Token → Prop where
  | done {toks rest : List Token} : rest <:+ toks → Along toks [] rest
  | fault {toks more rest : List Token} {t : Token} {f : Located SyntaxFault}
      {faults : List (Located SyntaxFault)} :
      t :: more <:+ toks → f.position = t.position → Along (t :: more) faults rest →
      Along toks (f :: faults) rest

namespace Along

variable {toks rest left : List Token} {faults later : List (Located SyntaxFault)}

theorem mono (h : Along rest faults left) (hr : rest <:+ toks) : Along toks faults left := by
  cases h with
  | done hleft => exact .done (hleft.trans hr)
  | fault ht hf hmore => exact .fault (ht.trans hr) hf hmore

theorem append (h : Along toks faults rest) (h' : Along rest later left) :
    Along toks (faults ++ later) left := by
  induction h with
  | done hr => exact h'.mono hr
  | fault ht hf _ ih => exact .fault ht hf (ih h')

/-- A fault at the first of the tokens. -/
theorem head {t : Token} {f : Located SyntaxFault} (hf : f.position = t.position)
    (hr : rest <:+ t :: toks) : Along (t :: toks) [f] rest :=
  .fault (List.suffix_refl _) hf (.done hr)

/-- More tokens behind all of these. -/
theorem further (h : Along toks faults rest) (more : List Token) :
    Along (toks ++ more) faults (rest ++ more) := by
  have hsuffix : ∀ {a b : List Token}, a <:+ b → a ++ more <:+ b ++ more := by
    rintro a b ⟨front, rfl⟩
    exact ⟨front, by rw [List.append_assoc]⟩
  induction h with
  | done hr => exact .done (hsuffix hr)
  | fault ht hf _ ih => exact .fault (hsuffix ht) hf ih

theorem placed (h : Along toks faults rest) :
    ∀ f ∈ faults, ∃ t ∈ toks, t.position = f.position := by
  induction h with
  | done _ => exact List.forall_mem_nil _
  | fault ht hf _ ih =>
    refine List.forall_mem_cons.mpr ⟨⟨_, ht.subset List.mem_cons_self, hf.symm⟩, fun g hg => ?_⟩
    obtain ⟨u, hu, hg⟩ := ih g hg
    exact ⟨u, ht.subset hu, hg⟩

theorem sorted (h : Along toks faults rest)
    (hpos : (toks.map Token.position).Pairwise (· < ·)) :
    (faults.map Located.position).Pairwise (· ≤ ·) := by
  induction h with
  | done _ => exact .nil
  | @fault toks more rest t f faults ht hf hmore ih =>
    have hpos := hpos.sublist (ht.sublist.map Token.position)
    rw [List.map_cons, List.pairwise_cons, List.forall_mem_map]
    refine ⟨fun g hg => ?_, ih hpos⟩
    rw [List.map_cons, List.pairwise_cons, List.forall_mem_map] at hpos
    obtain ⟨u, hu, hposition⟩ := hmore.placed g hg
    rw [hf, ← hposition]
    rcases List.mem_cons.mp hu with rfl | hu
    · exact le_refl _
    · exact (hpos.1 u hu).le

end Along

/-! ## Readers one after the other -/

namespace Account

/-- The faults stand along these tokens, up to those that are left. -/
def InOrder (toks : List Token) (r : Account α) : Prop := Along toks r.faults r.reading.rest

variable {toks rest : List Token} {r : Account α}

theorem InOrder.of {r : Reading α} (h : r.Forward toks) : (of r).InOrder toks := .done h

theorem InOrder.map {f : α → β} (h : r.InOrder toks) : (r.map f).InOrder toks := h

theorem InOrder.behind {t : Token} (h : r.InOrder toks) : r.InOrder (t :: toks) :=
  Along.mono h (List.suffix_cons t toks)

/-- With faults reported while the tokens before were read. -/
theorem InOrder.after {faults : List (Located SyntaxFault)} (h : r.InOrder rest)
    (hf : Along toks faults rest) : (r.after faults).InOrder toks :=
  hf.append h

theorem InOrder.andThen {f : α → List Token → Account β} (h : r.InOrder toks)
    (hf : ∀ a left, r.reading = ⟨.ok a, left⟩ → (f a left).InOrder left) :
    (r.andThen f).InOrder toks := by
  obtain ⟨faults, result, left⟩ := r
  cases result with
  | error e => exact h
  | ok a => exact (hf a left rfl).after h

/-- The fault is reported where the first reader stopped, and what is skipped lies behind. -/
theorem InOrder.recover {f : α → List Token → Account β} {g : List Token → Account β}
    (h : r.InOrder toks)
    (hf : ∀ a left, r.reading = ⟨.ok a, left⟩ → (f a left).InOrder left)
    (hg : ∀ e left, r.reading = ⟨.error e, left⟩ → (g (skip left)).InOrder (skip left)) :
    (r.recover f g).InOrder toks := by
  obtain ⟨faults, result, left⟩ := r
  cases result with
  | ok a => exact (hf a left rfl).after h
  | error e =>
    cases left with
    | nil => exact h
    | cons u more =>
      exact (hg e (u :: more) rfl).after (h.append (.head rfl (skip_suffix (u :: more))))

end Account

/-! ## Statements -/

open Attempt Recovered

mutual

theorem statement_inOrder (s : Starter) (p : Position) (toks : List Token) :
    (statement s p toks).account.InOrder toks := by
  cases s with
  | declaration =>
    rw [statement, account_ofAttempt]
    exact .of (declaration_forward p toks)
  | named name =>
    rw [statement, account_ofAttempt]
    exact .of (named_forward name p toks)
  | bring =>
    rw [statement, account_ofAttempt, reading_map]
    exact .of (expression_forward toks).map
  | print =>
    rw [statement, account_ofAttempt, reading_map]
    exact .of (enclosed_forward toks).map
  | definition =>
    rw [statement_account_definition]
    refine (Account.InOrder.of (signature_forward toks)).andThen fun x rest h => ?_
    have hfewer := rest_lt h
    exact (block_inOrder rest).map
  | loop =>
    rw [statement_account_loop]
    refine (Account.InOrder.of (enclosed_forward toks)).andThen fun e rest h => ?_
    have hfewer := rest_lt h
    exact (block_inOrder rest).map
  | branch =>
    rw [statement_account_branch]
    refine (Account.InOrder.of (enclosed_forward toks)).andThen fun e rest h => ?_
    have hfewer := rest_lt h
    refine (block_inOrder rest).andThen fun ss left hl => ?_
    have hfewer' := rest_lt hl
    cases left with
    | nil => exact .of .here
    | cons t more =>
      rw [otherwiseAccount]
      split
      · have hmore : more.length < (t :: more).length := Nat.lt_succ_self _
        exact (block_inOrder more).map.behind
      · exact .of .here
termination_by toks.length
decreasing_by all_goals omega

theorem block_inOrder (toks : List Token) : (block toks).account.InOrder toks := by
  rcases head_cases (· = .delimiter .openBrace) toks with ⟨t, rest, rfl, ht⟩ | hnone
  · rw [block_account ht]
    refine Account.InOrder.behind (.andThen (statements_inOrder rest) fun ss left _ => ?_)
    exact .of (delimiter_forward _ left).map
  · rw [block_account_none hnone]
    exact .of .here
termination_by toks.length
decreasing_by subst_vars; simp

theorem statements_inOrder (toks : List Token) : (statements toks).account.InOrder toks := by
  rcases head_cases (¬ endsStatements · = true) toks with ⟨t, rest, rfl, ht⟩ | hend
  · cases hs : Starter.ofKind? t.kind with
    | none =>
      have hle := skip_length_le rest
      rw [statements_account_none ht hs]
      refine (statements_inOrder (skip rest)).after (.head rfl ?_)
      exact (skip_suffix rest).trans (List.suffix_cons t rest)
    | some s =>
      rw [statements_account hs]
      refine .behind (.recover (statement_inOrder s t.position rest) (fun a left h => ?_)
        fun e left h => ?_)
      · have hfewer := rest_lt h
        exact (statements_inOrder left).map
      · have hle := Nat.le_trans (skip_length_le left) (rest_le h)
        exact statements_inOrder (skip left)
  · simp only [not_not] at hend
    rw [statements_account_end hend]
    exact .of .here
termination_by toks.length
decreasing_by all_goals subst_vars; simp only [List.length_cons]; omega

end

theorem topLevel_inOrder (toks : List Token) : (topLevel toks).account.InOrder toks := by
  rw [topLevel_account]
  refine (statements_inOrder toks).andThen fun body rest h => ?_
  have hfewer := rest_lt h
  cases rest with
  | nil => exact .of .here
  | cons t left =>
    by_cases ht : t.kind = .delimiter .closeBrace
    · dsimp only
      rw [if_pos ht]
      exact (topLevel_inOrder left).map.after (.head rfl (List.suffix_cons t left))
    · dsimp only
      rw [if_neg ht]
      exact .of .here
termination_by toks.length
decreasing_by simp only [List.length_cons] at hfewer; omega

/-! ## Programs -/

namespace TokenStream

variable {fin : Token}

theorem start_along (p : TokenStream) (hfin : fin.position = p.finish) :
    Along (p.ahead ++ [fin]) p.start.1 (p.start.2 ++ [fin]) := by
  obtain ⟨ahead, finish⟩ := p
  cases ahead with
  | nil => exact .head hfin.symm (List.suffix_refl _)
  | cons t rest =>
    unfold start
    dsimp only
    split
    · exact .done (List.suffix_cons t _)
    · exact .head rfl (List.suffix_refl _)

theorem close_along {finish : Position} (hfin : fin.position = finish) (toks : List Token) :
    Along (toks ++ [fin]) (close finish toks).1 ((close finish toks).2 ++ [fin]) := by
  unfold close
  split
  · exact .head hfin.symm (List.suffix_refl _)
  · next t rest =>
    split
    · cases rest with
      | nil => exact .done (List.suffix_cons t _)
      | cons u more => exact .mono (.head rfl (List.suffix_refl _)) (List.suffix_cons t _)
    · exact .head rfl (List.suffix_refl _)

theorem stopFault_along {finish : Position} (hfin : fin.position = finish) (e : Expected)
    (toks : List Token) : Along (toks ++ [fin]) [stopFault finish e toks] (toks ++ [fin]) := by
  cases toks with
  | nil => exact .head hfin.symm (List.suffix_refl _)
  | cons t toks => exact .head rfl (List.suffix_refl _)

/-- The faults of a program stand along its tokens, the end of the input with them. -/
theorem program_along (p : TokenStream) (hfin : fin.position = p.finish)
    {faults : List (Located SyntaxFault)} (h : p.program.1 = .error faults) :
    ∃ rest, Along (p.ahead ++ [fin]) faults rest := by
  have htop := topLevel_inOrder p.start.2
  rw [program_account] at h
  generalize (topLevel p.start.2).account = r at h htop
  obtain ⟨within, result, rest⟩ := r
  have hwithin := (p.start_along hfin).append (Along.further htop [fin])
  cases result with
  | error e =>
    cases h
    exact ⟨_, hwithin.append (stopFault_along hfin e rest)⟩
  | ok body =>
    dsimp only at h
    split at h
    · cases h
    · cases h
      exact ⟨_, hwithin.append (close_along hfin rest)⟩

end TokenStream

/-! ## Texts -/

/-- **Main.** The lexical faults of a text stand one behind the other. If it has none, its syntax
faults stand each at one of its tokens, and none before the fault reported before it, in whatever
blocks they were found. -/
theorem faults_in_order (source : String) :
    (∀ faults, tokensOf source = .error faults →
      (faults.map Located.position).Pairwise (· < ·)) ∧
    ∀ toks faults, tokensOf source = .ok toks → Program.ofTokens toks = .error faults →
      (faults.map Located.position).Pairwise (· ≤ ·) ∧
        ∀ f ∈ faults, ∃ t ∈ toks, t.position = f.position := by
  refine ⟨fun faults => tokensOf_faults_increasing, fun toks faults htoks hfaults => ?_⟩
  have hpos := tokensOf_increasing htoks
  obtain ⟨-, rfl⟩ := tokensOf_eq_ok.mp htoks
  rw [Program.ofTokens, TokenStream.ofList_ends rfl fun t ht => found_ne_finish ht] at hfaults
  obtain ⟨rest, halong⟩ := TokenStream.program_along _ rfl hfaults
  exact ⟨halong.sorted hpos, halong.placed⟩

/-- Blocks that are closed and not, and more behind the end. -/
def brokenText : String :=
  "Wake Purr (1) \x7b Box \x7d Chase 2\nHunt f() \x7b Meow Sleep +"

def brokenFaults : List (Located SyntaxFault) :=
  [⟨.expected .variableName (.delimiter .closeBrace), ⟨1, 21⟩⟩,
    ⟨.expected (.delimiter .openParen) (.integer 2), ⟨1, 29⟩⟩,
    ⟨.expected (.delimiter .openParen) (.keyword .sleep), ⟨2, 17⟩⟩,
    ⟨.expected (.delimiter .closeBrace) (.keyword .sleep), ⟨2, 17⟩⟩,
    ⟨.trailingInput (.operator .add), ⟨2, 23⟩⟩]

/-- A fault within a block, one within a block that is not closed, and the fault of that block at
the same token. -/
theorem faults_in_order_nested :
    ∃ toks, tokensOf brokenText = .ok toks ∧ Program.ofTokens toks = .error brokenFaults ∧
      (brokenFaults.map Located.position).Pairwise (· ≤ ·) ∧
      ∀ f ∈ brokenFaults, ∃ t ∈ toks, t.position = f.position := by
  have hread : (tokensOf brokenText).toOption.map Program.ofTokens =
      some (.error brokenFaults) := by
    with_unfolding_all rfl
  obtain ⟨toks, htoks, hfaults⟩ := Option.map_eq_some_iff.mp hread
  have htoks : tokensOf brokenText = .ok toks := toOption_eq_some.mp htoks
  exact ⟨toks, htoks, hfaults, (faults_in_order brokenText).2 toks brokenFaults htoks hfaults⟩

end MeowScript
