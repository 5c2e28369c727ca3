import MeowScript.Proofs.Grammar.Readings

/-!
# Readers only go forward

What a reader leaves, whether it has found what it was to read or not, is an end part of the tokens
it was given: no token is read twice and none is made up. A reader that goes on after mistakes
reports each of them at one of its tokens, and pays for it with a token that is not left.

Results:
* `operand_forward`, `expression_forward` and the like: what is left is an end part.
* `skip_of_landmark`, `isLandmark_of_none`: recovery stops only where a statement or the end of its
  list can begin, so that it passes a token that begins neither.
* `statements_forward`, `topLevel_forward`: the same with the faults reported on the way, and how
  many there are.
-/
namespace MeowScript

variable {α β : Type} {toks : List Token}

open Attempt Recovered

/-! ## Readers one after the other -/

namespace Reading

/-- What is left is an end part of these tokens. -/
def Forward (toks : List Token) (r : Reading α) : Prop := r.rest <:+ toks

variable {r : Reading α}

theorem Forward.here {x : Except Expected α} : Forward toks ⟨x, toks⟩ := List.suffix_refl toks

theorem Forward.mono {rest : List Token} (h : r.Forward rest) (hr : rest <:+ toks) :
    r.Forward toks :=
  h.trans hr

theorem Forward.behind {t : Token} (h : r.Forward toks) : r.Forward (t :: toks) :=
  h.mono (List.suffix_cons t toks)

theorem Forward.map {f : α → β} (h : r.Forward toks) : (r.map f).Forward toks := h

theorem Forward.andThen {f : α → List Token → Reading β} (h : r.Forward toks)
    (hf : ∀ a rest, r = ⟨.ok a, rest⟩ → (f a rest).Forward rest) :
    (r.andThen f).Forward toks := by
  obtain ⟨result, rest⟩ := r
  cases result with
  | error e => exact h
  | ok a => exact (hf a rest rfl).mono h

end Reading

open Reading

/-! ## Tokens and expressions -/

theorem takeOne_forward (k : Kind) (e : Expected) (toks : List Token) :
    (takeOne k e toks).Forward toks := by
  cases toks with
  | nil => exact .here
  | cons t rest =>
    rw [takeOne]
    split
    · exact Forward.here.behind
    · exact .here

theorem delimiter_forward (d : Delimiter) (toks : List Token) :
    (delimiter d toks).reading.Forward toks := by
  rw [delimiter_reading]
  exact takeOne_forward _ _ toks

mutual

theorem operand_forward (toks : List Token) : (operand toks).reading.Forward toks := by
  cases toks with
  | nil =>
    rw [operand_reading_nil]
    exact .here
  | cons t rest =>
    rcases begins_cases t.kind with ⟨op, ht⟩ | ⟨v, ht⟩ | ⟨name, ht⟩ | ht | hnone
    · rw [operand_reading_unary ht]
      exact (operand_forward rest).map.behind
    · rw [operand_reading_literal ht]
      exact Forward.here.behind
    · rcases head_cases (· = .delimiter .openParen) rest with ⟨u, more, rfl, hu⟩ | hr
      · rw [operand_reading_call ht hu]
        exact (arguments_forward more).map.behind.behind
      · rw [operand_reading_var ht hr]
        exact Forward.here.behind
    · rw [operand_reading_parens ht]
      refine Forward.behind (.andThen (expression_forward rest) fun e left _ => ?_)
      exact (delimiter_forward _ left).map
    · rw [operand_reading_none hnone]
      exact .here
termination_by 3 * toks.length
decreasing_by all_goals subst_vars; simp only [List.length_cons]; omega

theorem expression_forward (toks : List Token) : (expression toks).reading.Forward toks := by
  rw [expression_reading]
  refine (operand_forward toks).andThen fun e rest h => ?_
  have hfewer := rest_lt h
  exact (links_forward rest).map
termination_by 3 * toks.length + 1
decreasing_by all_goals omega

theorem links_forward (toks : List Token) : (links toks).reading.Forward toks := by
  rcases head_cases (∃ o, · = .operator o) toks with ⟨t, rest, rfl, o, ht⟩ | hend
  · rw [links_reading_operator ht]
    refine Forward.behind (.andThen (operand_forward rest) fun e left h => ?_)
    have hfewer := rest_lt h
    exact (links_forward left).map
  · simp only [not_exists] at hend
    rw [links_reading_end hend]
    exact .here
termination_by 3 * toks.length
decreasing_by all_goals subst_vars; simp only [List.length_cons]; omega

theorem arguments_forward (toks : List Token) : (arguments toks).reading.Forward toks := by
  rcases head_cases (· = .delimiter .closeParen) toks with ⟨t, rest, rfl, ht⟩ | hsome
  · rw [arguments_reading_none ht]
    exact Forward.here.behind
  · rw [arguments_reading_some hsome]
    refine (expression_forward toks).andThen fun e left h => ?_
    have hfewer := rest_lt h
    exact (moreArguments_forward left).map
termination_by 3 * toks.length + 2
decreasing_by all_goals omega

theorem moreArguments_forward (toks : List Token) :
    (moreArguments toks).reading.Forward toks := by
  rcases head_cases (· = .delimiter .comma) toks with ⟨t, rest, rfl, ht⟩ | hend
  · rw [moreArguments_reading_comma ht]
    refine Forward.behind (.andThen (expression_forward rest) fun e left h => ?_)
    have hfewer := rest_lt h
    exact (moreArguments_forward left).map
  · rw [moreArguments_reading_end hend]
    exact (delimiter_forward _ toks).map
termination_by 3 * toks.length
decreasing_by all_goals subst_vars; simp only [List.length_cons]; omega

end

/-! ## Parts of statements -/

theorem identifier_forward (what : Expected) (toks : List Token) :
    (identifier what toks).reading.Forward toks := by
  rcases head_cases (∃ name, · = .identifier name) toks with ⟨t, rest, rfl, name, ht⟩ | hnone
  · rw [identifier_reading ht]
    exact Forward.here.behind
  · simp only [not_exists] at hnone
    rw [identifier_reading_none what hnone]
    exact .here

theorem enclosed_forward (toks : List Token) : (enclosed toks).reading.Forward toks := by
  rw [enclosed_reading]
  refine (delimiter_forward _ toks).andThen fun _ rest _ => ?_
  refine (expression_forward rest).andThen fun e left _ => ?_
  exact (delimiter_forward _ left).map

theorem declaration_forward (p : Position) (toks : List Token) :
    (declaration p toks).reading.Forward toks := by
  rw [declaration_reading]
  refine (identifier_forward _ toks).andThen fun x rest _ => ?_
  rw [paws_reading]
  refine (takeOne_forward _ _ rest).andThen fun _ left _ => ?_
  exact (expression_forward left).map

theorem named_forward (name : String) (p : Position) (toks : List Token) :
    (named name p toks).reading.Forward toks := by
  rcases head_cases (· = .keyword .paws) toks with ⟨t, rest, rfl, ht⟩ | hpaws
  · rw [named_reading_assign ht]
    exact (expression_forward rest).map.behind
  rcases head_cases (· = .delimiter .openParen) toks with ⟨t, rest, rfl, ht⟩ | hparen
  · rw [named_reading_call ht]
    exact (arguments_forward rest).map.behind
  · rw [named_reading_none fun t ht => ⟨hpaws t ht, hparen t ht⟩]
    exact .here

theorem moreParameters_forward (toks : List Token) :
    (moreParameters toks).reading.Forward toks := by
  rcases head_cases (· = .delimiter .comma) toks with ⟨t, rest, rfl, ht⟩ | hend
  · rw [moreParameters_reading_comma ht]
    refine Forward.behind (.andThen (identifier_forward _ rest) fun x left h => ?_)
    have hfewer := rest_lt h
    exact (moreParameters_forward left).map
  · rw [moreParameters_reading_end hend]
    exact (delimiter_forward _ toks).map
termination_by toks.length
decreasing_by subst_vars; simp only [List.length_cons]; omega

theorem signature_forward (toks : List Token) : (signature toks).reading.Forward toks := by
  rw [signature_reading]
  refine (identifier_forward _ toks).andThen fun x rest _ => ?_
  refine (delimiter_forward _ rest).andThen fun _ left _ => Forward.map ?_
  rcases head_cases (∃ name, · = .identifier name) left with ⟨t, more, rfl, name, ht⟩ | hnone
  · rw [parameters_reading_some ht]
    exact (moreParameters_forward more).map.behind
  · simp only [not_exists] at hnone
    rw [parameters_reading_none hnone]
    exact (delimiter_forward _ left).map

/-! ## Going on after mistakes -/

namespace Account

/-- What is left is an end part of these tokens; each fault stands at one of them, and there are no
more faults than tokens that are not left. -/
structure Forward (toks : List Token) (r : Account α) : Prop where
  left : r.reading.Forward toks
  few : r.faults.length + r.reading.rest.length ≤ toks.length
  placed : ∀ f ∈ r.faults, ∃ t ∈ toks, t.position = f.position

variable {r : Account α}

theorem Forward.of {r : Reading α} (h : r.Forward toks) : (of r).Forward toks :=
  ⟨h, by simpa [Account.of] using h.length_le, nofun⟩

theorem Forward.mono {rest : List Token} (h : r.Forward rest) (hr : rest <:+ toks) :
    r.Forward toks where
  left := h.left.mono hr
  few := Nat.le_trans h.few hr.length_le
  placed f hf := by
    obtain ⟨t, ht, hp⟩ := h.placed f hf
    exact ⟨t, hr.subset ht, hp⟩

theorem Forward.behind {t : Token} (h : r.Forward toks) : r.Forward (t :: toks) :=
  h.mono (List.suffix_cons t toks)

theorem Forward.map {f : α → β} (h : r.Forward toks) : (r.map f).Forward toks :=
  ⟨h.left.map, h.few, h.placed⟩

/-- With faults that tokens before these have paid for. -/
theorem Forward.after {rest : List Token} {faults : List (Located SyntaxFault)}
    (h : r.Forward rest) (hr : rest <:+ toks) (hfew : faults.length + rest.length ≤ toks.length)
    (hplaced : ∀ f ∈ faults, ∃ t ∈ toks, t.position = f.position) :
    (r.after faults).Forward toks where
  left := h.left.mono hr
  few := by
    have := h.few
    simp only [Account.after, List.length_append]
    omega
  placed := List.forall_mem_append.mpr ⟨hplaced, (h.mono hr).placed⟩

theorem Forward.andThen {f : α → List Token → Account β} (h : r.Forward toks)
    (hf : ∀ a rest, r.reading = ⟨.ok a, rest⟩ → (f a rest).Forward rest) :
    (r.andThen f).Forward toks := by
  obtain ⟨faults, result, rest⟩ := r
  cases result with
  | error e => exact ⟨h.left, h.few, h.placed⟩
  | ok a => exact (hf a rest rfl).after h.left h.few h.placed

/-- Besides, only the end of the tokens stops it for good, and leaves room for one fault more. -/
structure Recovers (toks : List Token) (r : Account α) : Prop extends r.Forward toks where
  stops : ∀ e, r.reading.result = .error e → r.reading.rest = [] ∧ r.faults.length < toks.length

theorem Recovers.map {f : α → β} (h : r.Recovers toks) : (r.map f).Recovers toks := by
  refine ⟨h.toForward.map, fun e he => ?_⟩
  obtain ⟨faults, result, rest⟩ := r
  cases result with
  | error e => exact h.stops e rfl
  | ok a => cases he

theorem Recovers.after {rest : List Token} {faults : List (Located SyntaxFault)}
    (h : r.Recovers rest) (hr : rest <:+ toks) (hfew : faults.length + rest.length ≤ toks.length)
    (hplaced : ∀ f ∈ faults, ∃ t ∈ toks, t.position = f.position) :
    (r.after faults).Recovers toks := by
  refine ⟨h.toForward.after hr hfew hplaced, fun e he => ?_⟩
  obtain ⟨hnil, hlt⟩ := h.stops e he
  refine ⟨hnil, ?_⟩
  simp only [Account.after, List.length_append]
  omega

theorem Recovers.andThen {f : α → List Token → Account β} (h : r.Recovers toks)
    (hf : ∀ a rest, r.reading = ⟨.ok a, rest⟩ → (f a rest).Recovers rest) :
    (r.andThen f).Recovers toks := by
  obtain ⟨faults, result, rest⟩ := r
  cases result with
  | error e => exact ⟨⟨h.left, h.few, h.placed⟩, fun _ _ => h.stops e rfl⟩
  | ok a => exact (hf a rest rfl).after h.left h.few h.placed

end Account

/-! ### Where recovery stops -/

/-- A token that neither begins a statement nor ends a list of them is passed by recovery. -/
theorem isLandmark_of_none {k : Kind} (he : ¬ endsStatements k = true)
    (hs : Starter.ofKind? k = none) (hk : k ≠ .endOfInput) : k.isLandmark = false := by
  unfold Kind.isLandmark
  split <;> simp_all [endsStatements, Starter.ofKind?]

theorem skip_suffix (toks : List Token) : skip toks <:+ toks := List.dropWhile_suffix _

theorem skip_of_landmark {t : Token} (ht : t.kind.isLandmark = false) (rest : List Token) :
    skip (t :: rest) = skip rest := by
  rw [skip, List.dropWhile_cons_of_pos (by simp [ht])]
  rfl

/-- A statement behind its first token `t`, and the rest of its list. -/
theorem Account.Recovers.recover {t : Token} {rest : List Token} {r : Account α}
    {f : α → List Token → Account β} {g : List Token → Account β} (h : r.Forward rest)
    (hf : ∀ a left, r.reading = ⟨.ok a, left⟩ → (f a left).Recovers left)
    (hg : ∀ e left, r.reading = ⟨.error e, left⟩ → (g (skip left)).Recovers (skip left)) :
    (r.recover f g).Recovers (t :: rest) := by
  obtain ⟨faults, result, left⟩ := r
  have hbehind := h.behind (t := t)
  have hfew : faults.length + left.length ≤ rest.length := h.few
  cases result with
  | ok a => exact (hf a left rfl).after hbehind.left hbehind.few hbehind.placed
  | error e =>
    cases left with
    | nil =>
      refine ⟨⟨hbehind.left, hbehind.few, hbehind.placed⟩, fun e _ => ⟨rfl, ?_⟩⟩
      exact Nat.lt_succ_of_le hfew
    | cons u more =>
      have hskip := skip_suffix (u :: more)
      have hle := hskip.length_le
      have hu : u ∈ t :: rest := hbehind.left.subset List.mem_cons_self
      refine (hg e (u :: more) rfl).after (hskip.trans hbehind.left) ?_ ?_
      · -- the first token of the statement pays for its failure
        have hpaid : faults.length + 1 + (skip (u :: more)).length ≤ rest.length + 1 := by omega
        rw [List.length_append, List.length_singleton, List.length_cons]
        exact hpaid
      · refine List.forall_mem_append.mpr ⟨hbehind.placed, fun f hf => ⟨u, hu, ?_⟩⟩
        rw [List.mem_singleton.mp hf]

/-! ### Statements -/

mutual

theorem statement_forward (s : Starter) (p : Position) (toks : List Token) :
    (statement s p toks).account.Forward toks := by
  cases s with
  | declaration =>
    rw [statement, account_ofAttempt]
    exact .of (declaration_forward p toks)
  | named name =>
    rw [statement, account_ofAttempt]
    exact .of (named_forward name p toks)
  | bring =>
    rw [statement, account_ofAttempt, reading_map]
    exact .of (expression_forward toks).map
  | print =>
    rw [statement, account_ofAttempt, reading_map]
    exact .of (enclosed_forward toks).map
  | definition =>
    rw [statement_account_definition]
    refine (Account.Forward.of (signature_forward toks)).andThen fun x rest h => ?_
    have hfewer := rest_lt h
    exact (block_forward rest).map
  | loop =>
    rw [statement_account_loop]
    refine (Account.Forward.of (enclosed_forward toks)).andThen fun e rest h => ?_
    have hfewer := rest_lt h
    exact (block_forward rest).map
  | branch =>
    rw [statement_account_branch]
    refine (Account.Forward.of (enclosed_forward toks)).andThen fun e rest h => ?_
    have hfewer := rest_lt h
    refine (block_forward rest).andThen fun ss left hl => ?_
    have hfewer' := rest_lt hl
    cases left with
    | nil => exact .of .here
    | cons t more =>
      rw [otherwiseAccount]
      split
      · have hmore : more.length < (t :: more).length := Nat.lt_succ_self _
        exact (block_forward more).map.behind
      · exact .of .here
termination_by toks.length
decreasing_by all_goals omega

theorem block_forward (toks : List Token) : (block toks).account.Forward toks := by
  rcases head_cases (· = .delimiter .openBrace) toks with ⟨t, rest, rfl, ht⟩ | hnone
  · rw [block_account ht]
    refine Account.Forward.behind (.andThen (statements_forward rest).toForward fun ss left _ => ?_)
    exact .of (delimiter_forward _ left).map
  · rw [block_account_none hnone]
    exact .of .here
termination_by toks.length
decreasing_by subst_vars; simp

theorem statements_forward (toks : List Token) : (statements toks).account.Recovers toks := by
  rcases head_cases (¬ endsStatements · = true) toks with ⟨t, rest, rfl, ht⟩ | hend
  · cases hs : Starter.ofKind? t.kind with
    | none =>
      have hle := skip_length_le rest
      rw [statements_account_none ht hs]
      refine (statements_forward (skip rest)).after ?_ (by simp; omega) (by simp)
      exact (skip_suffix rest).trans (List.suffix_cons t rest)
    | some s =>
      rw [statements_account hs]
      refine .recover (statement_forward s t.position rest) (fun a left h => ?_) fun e left h => ?_
      · have hfewer := rest_lt h
        exact (statements_forward left).map
      · have hle := Nat.le_trans (skip_length_le left) (rest_le h)
        exact statements_forward (skip left)
  · simp only [not_not] at hend
    rw [statements_account_end hend]
    exact ⟨.of .here, nofun⟩
termination_by toks.length
decreasing_by all_goals subst_vars; simp only [List.length_cons]; omega

end

theorem topLevel_forward (toks : List Token) : (topLevel toks).account.Recovers toks := by
  rw [topLevel_account]
  refine (statements_forward toks).andThen fun body rest h => ?_
  have hfewer := rest_lt h
  cases rest with
  | nil => exact ⟨.of .here, nofun⟩
  | cons t left =>
    by_cases ht : t.kind = .delimiter .closeBrace
    · dsimp only
      rw [if_pos ht]
      exact (topLevel_forward left).map.after (List.suffix_cons t left) (by simp; omega) (by simp)
    · dsimp only
      rw [if_neg ht]
      exact ⟨.of .here, nofun⟩
termination_by toks.length
decreasing_by simp only [List.length_cons] at hfewer; omega

end MeowScript
