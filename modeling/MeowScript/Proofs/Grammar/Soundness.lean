import MeowScript.Proofs.Grammar.Precedence
import MeowScript.Proofs.Grammar.Reading

/-!
# What is read is spelled by the grammar

Every reader takes tokens from the front; what it took spells, by the rules of the grammar, the tree
it gives. The induction is on the number of tokens, as the readers' own recursion.

Results:
* `operand_sound`, `expression_sound`, `arguments_sound`: expressions.
* `statement_sound`, `block_sound`, `statements_sound`: statements, read without a mistake.
-/
namespace MeowScript

open Attempt Recovered

theorem Attempt.fewer_of_result? {α : Type} {n : Nat} {a : Attempt α n} {x : α × List Token}
    (h : a.result? = some x) : x.2.length < n := by
  cases a with
  | error => cases h
  | ok r => cases h; exact r.fewer

/-! ## Expressions -/

mutual

theorem operand_sound (toks : List Token) (x : Expr × List Token)
    (h : (operand toks).result? = some x) :
    ∃ used, toks = used ++ x.2 ∧ ExprSpelled [] used x.1 := by
  cases toks with
  | nil => rw [operand_nil] at h; cases h
  | cons t rest =>
    rcases operand_begins h with ⟨op, ht⟩ | ⟨v, ht⟩ | ⟨name, ht⟩ | ht
    · rw [operand_unary ht, Option.map_eq_some_iff] at h
      obtain ⟨y, hy, rfl⟩ := h
      obtain ⟨used, hu, he⟩ := operand_sound rest y hy
      exact ⟨t :: used, by rw [hu, List.cons_append], .unary ht he⟩
    · rw [operand_literal ht, Option.some.injEq] at h
      obtain rfl := h
      exact ⟨[t], rfl, .literal ht⟩
    · cases ho : take? (.delimiter .openParen) rest with
      | none =>
        rw [operand_var ht ho, Option.some.injEq] at h
        obtain rfl := h
        exact ⟨[t], rfl, .var ht⟩
      | some more =>
        rw [operand_call ht ho, Option.map_eq_some_iff] at h
        obtain ⟨y, hy, rfl⟩ := h
        obtain ⟨o, rfl, hk⟩ := of_take? ho
        obtain ⟨parts, used, c, hu, hc, hp, hl, ha⟩ := arguments_sound more y hy
        refine ⟨t :: o :: (used ++ [c]), by simp [hu], ?_⟩
        rw [ha]
        exact .call ht hk hp hl hc
    · rw [operand_parens ht, Option.bind_eq_some_iff] at h
      obtain ⟨y, hy, h⟩ := h
      obtain ⟨left, hl, rfl⟩ := Option.map_eq_some_iff.mp h
      obtain ⟨used, hu, he⟩ := expression_sound rest y hy
      obtain ⟨c, hc, hk⟩ := of_take? hl
      exact ⟨t :: (used ++ [c]), by simp [hu, hc], .parens ht he hk⟩
termination_by 3 * toks.length
decreasing_by all_goals subst_vars; simp only [List.length_cons]; omega

theorem expression_sound (toks : List Token) (x : Expr × List Token)
    (h : (expression toks).result? = some x) :
    ∃ used, toks = used ++ x.2 ∧ ExprSpelled operatorRows used x.1 := by
  rw [expression_result?, Option.bind_eq_some_iff] at h
  obtain ⟨y, hy, h⟩ := h
  obtain ⟨z, hz, rfl⟩ := Option.map_eq_some_iff.mp h
  obtain ⟨a, ha, he⟩ := operand_sound toks y hy
  have hfewer := Attempt.fewer_of_result? hy
  obtain ⟨b, hb, hl⟩ := links_sound y.2 z hz
  exact ⟨a ++ b, by rw [ha, hb, List.append_assoc], assemble_spelled he hl⟩
termination_by 3 * toks.length + 1
decreasing_by all_goals omega

theorem links_sound (toks : List Token) (x : List Link × List Token)
    (h : (links toks).result? = some x) :
    ∃ used, toks = used ++ x.2 ∧ LinksSpelled used x.1 := by
  cases toks with
  | nil =>
    rw [links_end (by simp), Option.some.injEq] at h
    obtain rfl := h
    exact ⟨[], rfl, .nil⟩
  | cons t rest =>
    by_cases hop : ∃ o, t.kind = .operator o
    · obtain ⟨o, ht⟩ := hop
      rw [links_operator ht, Option.bind_eq_some_iff] at h
      obtain ⟨y, hy, h⟩ := h
      obtain ⟨z, hz, rfl⟩ := Option.map_eq_some_iff.mp h
      obtain ⟨a, ha, he⟩ := operand_sound rest y hy
      have hfewer := Attempt.fewer_of_result? hy
      obtain ⟨b, hb, hl⟩ := links_sound y.2 z hz
      exact ⟨t :: (a ++ b), by rw [ha, hb]; simp, .cons ht rfl he hl⟩
    · have hend : ∀ u ∈ (t :: rest).head?, ∀ o, u.kind ≠ .operator o := by
        intro u hu o ho
        cases hu
        exact hop ⟨o, ho⟩
      rw [links_end hend, Option.some.injEq] at h
      obtain rfl := h
      exact ⟨[], rfl, .nil⟩
termination_by 3 * toks.length
decreasing_by all_goals subst_vars; simp only [List.length_cons]; omega

theorem arguments_sound (toks : List Token) (x : List Expr × List Token)
    (h : (arguments toks).result? = some x) :
    ∃ parts used c, toks = used ++ c :: x.2 ∧ c.kind = .delimiter .closeParen ∧
      (∀ y ∈ parts, ExprSpelled operatorRows y.1 y.2) ∧ Listed parts used ∧
      x.1 = meanings parts := by
  cases hc : take? (.delimiter .closeParen) toks with
  | some rest =>
    rw [arguments_none hc, Option.some.injEq] at h
    obtain rfl := h
    obtain ⟨c, rfl, hk⟩ := of_take? hc
    exact ⟨[], [], c, rfl, hk, by simp, .none, rfl⟩
  | none =>
    rw [arguments_some hc, Option.bind_eq_some_iff] at h
    obtain ⟨y, hy, h⟩ := h
    obtain ⟨z, hz, rfl⟩ := Option.map_eq_some_iff.mp h
    obtain ⟨a, ha, he⟩ := expression_sound toks y hy
    have hfewer := Attempt.fewer_of_result? hy
    obtain ⟨parts, used, c, hu, hk, hp, hl, hm⟩ := moreArguments_sound y.2 z hz
    have hparts : ∀ w ∈ (a, y.1) :: parts, ExprSpelled operatorRows w.1 w.2 :=
      List.forall_mem_cons.mpr ⟨he, hp⟩
    exact ⟨(a, y.1) :: parts, a ++ used, c, by rw [ha, hu, List.append_assoc], hk, hparts,
      .some hl, by rw [hm, meanings_cons]⟩
termination_by 3 * toks.length + 2
decreasing_by all_goals omega

theorem moreArguments_sound (toks : List Token) (x : List Expr × List Token)
    (h : (moreArguments toks).result? = some x) :
    ∃ parts used c, toks = used ++ c :: x.2 ∧ c.kind = .delimiter .closeParen ∧
      (∀ y ∈ parts, ExprSpelled operatorRows y.1 y.2) ∧ CommaEach parts used ∧
      x.1 = meanings parts := by
  cases hc : take? (.delimiter .comma) toks with
  | none =>
    rw [moreArguments_end hc, Option.map_eq_some_iff] at h
    obtain ⟨rest, hr, rfl⟩ := h
    obtain ⟨c, rfl, hk⟩ := of_take? hr
    exact ⟨[], [], c, rfl, hk, by simp, .nil, rfl⟩
  | some rest =>
    rw [moreArguments_comma hc, Option.bind_eq_some_iff] at h
    obtain ⟨y, hy, h⟩ := h
    obtain ⟨z, hz, rfl⟩ := Option.map_eq_some_iff.mp h
    obtain ⟨t, rfl, ht⟩ := of_take? hc
    obtain ⟨a, ha, he⟩ := expression_sound rest y hy
    have hfewer := Attempt.fewer_of_result? hy
    obtain ⟨parts, used, c, hu, hk, hp, hl, hm⟩ := moreArguments_sound y.2 z hz
    have hparts : ∀ w ∈ (a, y.1) :: parts, ExprSpelled operatorRows w.1 w.2 :=
      List.forall_mem_cons.mpr ⟨he, hp⟩
    exact ⟨(a, y.1) :: parts, t :: (a ++ used), c, by rw [ha, hu]; simp, hk, hparts,
      .cons ht hl, by rw [hm, meanings_cons]⟩
termination_by 3 * toks.length
decreasing_by all_goals subst_vars; simp only [List.length_cons]; omega

end

/-! ## Parts of statements -/

theorem moreParameters_sound (toks : List Token) (x : List Param × List Token)
    (h : (moreParameters toks).result? = some x) :
    ∃ parts used c, toks = used ++ c :: x.2 ∧ c.kind = .delimiter .closeParen ∧
      (∀ y ∈ parts, ParamSpelled y.1 y.2) ∧ CommaEach parts used ∧ x.1 = meanings parts := by
  cases hc : take? (.delimiter .comma) toks with
  | none =>
    rw [moreParameters_end hc, Option.map_eq_some_iff] at h
    obtain ⟨rest, hr, rfl⟩ := h
    obtain ⟨c, rfl, hk⟩ := of_take? hr
    exact ⟨[], [], c, rfl, hk, by simp, .nil, rfl⟩
  | some rest =>
    rw [moreParameters_comma hc, Option.bind_eq_some_iff] at h
    obtain ⟨y, hy, h⟩ := h
    obtain ⟨z, hz, rfl⟩ := Option.map_eq_some_iff.mp h
    obtain ⟨t, rfl, ht⟩ := of_take? hc
    obtain ⟨n, rfl, hn, hp⟩ := identifier_begins hy
    obtain ⟨parts, used, c, hu, hk, hs, hl, hm⟩ := moreParameters_sound y.2 z hz
    have hparam : ParamSpelled [n] ⟨y.1.1, y.1.2⟩ := by rw [← hp]; exact .mk hn
    have hparts : ∀ w ∈ ([n], (⟨y.1.1, y.1.2⟩ : Param)) :: parts, ParamSpelled w.1 w.2 :=
      List.forall_mem_cons.mpr ⟨hparam, hs⟩
    exact ⟨([n], ⟨y.1.1, y.1.2⟩) :: parts, t :: ([n] ++ used), c, by rw [hu]; simp, hk, hparts,
      .cons ht hl, by rw [hm, meanings_cons]⟩
termination_by toks.length
decreasing_by subst_vars; simp only [List.length_cons]; omega

theorem parameters_sound (toks : List Token) (x : List Param × List Token)
    (h : (parameters toks).result? = some x) :
    ∃ parts used c, toks = used ++ c :: x.2 ∧ c.kind = .delimiter .closeParen ∧
      (∀ y ∈ parts, ParamSpelled y.1 y.2) ∧ Listed parts used ∧ x.1 = meanings parts := by
  by_cases hn : ∃ t rest name, toks = t :: rest ∧ t.kind = .identifier name
  · obtain ⟨t, rest, name, rfl, ht⟩ := hn
    rw [parameters_some ht, Option.map_eq_some_iff] at h
    obtain ⟨z, hz, rfl⟩ := h
    obtain ⟨parts, used, c, hu, hk, hs, hl, hm⟩ := moreParameters_sound rest z hz
    have hparts : ∀ w ∈ ([t], (⟨name, t.position⟩ : Param)) :: parts, ParamSpelled w.1 w.2 :=
      List.forall_mem_cons.mpr ⟨.mk ht, hs⟩
    exact ⟨([t], ⟨name, t.position⟩) :: parts, [t] ++ used, c, by rw [hu]; simp, hk, hparts,
      .some hl, by rw [hm, meanings_cons]⟩
  · have hnone : ∀ t ∈ toks.head?, ∀ name, t.kind ≠ .identifier name := by
      intro t ht name hname
      obtain ⟨rest, rfl⟩ := List.head?_eq_some_iff.mp ht
      exact hn ⟨t, rest, name, rfl, hname⟩
    rw [parameters_none hnone, Option.map_eq_some_iff] at h
    obtain ⟨rest, hr, rfl⟩ := h
    obtain ⟨c, rfl, hk⟩ := of_take? hr
    exact ⟨[], [], c, rfl, hk, by simp, .none, rfl⟩

theorem enclosed_sound (toks : List Token) (x : Expr × List Token)
    (h : (enclosed toks).result? = some x) :
    ∃ used, toks = used ++ x.2 ∧ EnclosedSpelled used x.1 := by
  rw [enclosed_result?, Option.bind_eq_some_iff] at h
  obtain ⟨rest, ho, h⟩ := h
  obtain ⟨y, hy, h⟩ := Option.bind_eq_some_iff.mp h
  obtain ⟨left, hc, rfl⟩ := Option.map_eq_some_iff.mp h
  obtain ⟨o, rfl, hok⟩ := of_take? ho
  obtain ⟨used, hu, he⟩ := expression_sound rest y hy
  obtain ⟨c, hl, hck⟩ := of_take? hc
  exact ⟨o :: (used ++ [c]), by rw [hu, hl]; simp, .mk hok he hck⟩

/-! ## Statements -/

theorem Recovered.fewer_of_clean? {α : Type} {n : Nat} {r : Recovered α n} {x : α × List Token}
    (h : r.clean? = some x) : x.2.length < n := by
  obtain ⟨faults, outcome⟩ := r
  cases faults with
  | nil => exact Attempt.fewer_of_result? h
  | cons => cases h

theorem starter_kind {k : Kind} {s : Starter} (h : Starter.ofKind? k = some s) :
    match s with
    | .declaration => k = .keyword .box
    | .definition => k = .keyword .hunt
    | .branch => k = .keyword .purr
    | .loop => k = .keyword .chase
    | .bring => k = .keyword .bring
    | .print => k = .keyword .meow
    | .named name => k = .identifier name := by
  unfold Starter.ofKind? at h
  split at h <;> cases h <;> rfl

mutual

theorem statement_sound (s : Starter) (t : Token) (toks : List Token) (x : Stmt × List Token)
    (ht : Starter.ofKind? t.kind = some s) (h : (statement s t.position toks).clean? = some x) :
    ∃ used, toks = used ++ x.2 ∧ StmtSpelled (t :: used) x.1 := by
  have hk := starter_kind ht
  cases s with
  | declaration =>
    rw [statement, clean?_ofAttempt, declaration_result?, Option.bind_eq_some_iff] at h
    obtain ⟨y, hy, h⟩ := h
    obtain ⟨rest, hw, h⟩ := Option.bind_eq_some_iff.mp h
    obtain ⟨z, hz, rfl⟩ := Option.map_eq_some_iff.mp h
    obtain ⟨n, rfl, hn, -⟩ := identifier_begins hy
    obtain ⟨w, hwr, hw⟩ := of_take? hw
    obtain ⟨used, hu, he⟩ := expression_sound rest z hz
    exact ⟨n :: w :: used, by rw [hwr, hu]; rfl, .declare hk hn hw he⟩
  | named name =>
    rw [statement, clean?_ofAttempt] at h
    rcases named_begins h with ⟨rest, hr⟩ | ⟨rest, hr⟩
    · rw [named_assign hr, Option.map_eq_some_iff] at h
      obtain ⟨y, hy, rfl⟩ := h
      obtain ⟨w, rfl, hw⟩ := of_take? hr
      obtain ⟨used, hu, he⟩ := expression_sound rest y hy
      exact ⟨w :: used, by rw [hu]; rfl, .assign hk hw he⟩
    · rw [named_call hr, Option.map_eq_some_iff] at h
      obtain ⟨y, hy, rfl⟩ := h
      obtain ⟨o, rfl, ho⟩ := of_take? hr
      obtain ⟨parts, used, c, hu, hc, hp, hl, hm⟩ := arguments_sound rest y hy
      refine ⟨o :: (used ++ [c]), by rw [hu]; simp, ?_⟩
      rw [hm]
      exact .call hk ho hp hl hc
  | bring =>
    rw [statement, clean?_ofAttempt, result?_map, Option.map_eq_some_iff] at h
    obtain ⟨y, hy, rfl⟩ := h
    obtain ⟨used, hu, he⟩ := expression_sound toks y hy
    exact ⟨used, hu, .bring hk he⟩
  | print =>
    rw [statement, clean?_ofAttempt, result?_map, Option.map_eq_some_iff] at h
    obtain ⟨y, hy, rfl⟩ := h
    obtain ⟨used, hu, he⟩ := enclosed_sound toks y hy
    exact ⟨used, hu, .print hk he⟩
  | definition =>
    rw [statement_definition, Option.bind_eq_some_iff] at h
    obtain ⟨y, hy, h⟩ := h
    obtain ⟨z, hz, rfl⟩ := Option.map_eq_some_iff.mp h
    have hfewer := Attempt.fewer_of_result? hy
    rw [signature_result?, Option.bind_eq_some_iff] at hy
    obtain ⟨name, hn, hy⟩ := hy
    obtain ⟨rest, ho, hy⟩ := Option.bind_eq_some_iff.mp hy
    obtain ⟨params, hp, rfl⟩ := Option.map_eq_some_iff.mp hy
    obtain ⟨n, rfl, hnk, -⟩ := identifier_begins hn
    obtain ⟨o, hor, ho⟩ := of_take? ho
    obtain ⟨parts, used, c, hu, hc, hs, hl, hm⟩ := parameters_sound rest params hp
    obtain ⟨body, block, hb, hbs, hbr, hbm⟩ := block_sound params.2 z hz
    refine ⟨n :: o :: (used ++ c :: block), by rw [hor, hu, hb]; simp, ?_⟩
    simp only [hm, hbm]
    exact .define hk hnk ho hs hl hc hbs hbr
  | loop =>
    rw [statement_loop, Option.bind_eq_some_iff] at h
    obtain ⟨y, hy, h⟩ := h
    obtain ⟨z, hz, rfl⟩ := Option.map_eq_some_iff.mp h
    have hfewer := Attempt.fewer_of_result? hy
    obtain ⟨test, hu, he⟩ := enclosed_sound toks y hy
    obtain ⟨body, block, hb, hbs, hbr, hbm⟩ := block_sound y.2 z hz
    refine ⟨test ++ block, by rw [hu, hb]; simp, ?_⟩
    rw [hbm]
    exact .loop hk he hbs hbr
  | branch =>
    rw [statement_branch, Option.bind_eq_some_iff] at h
    obtain ⟨y, hy, h⟩ := h
    obtain ⟨z, hz, h⟩ := Option.bind_eq_some_iff.mp h
    have hfewer := Attempt.fewer_of_result? hy
    have hfewer' := Recovered.fewer_of_clean? hz
    obtain ⟨test, hu, he⟩ := enclosed_sound toks y hy
    obtain ⟨body, block, hb, hbs, hbr, hbm⟩ := block_sound y.2 z hz
    unfold otherwise? at h
    split at h
    · next more hm =>
      obtain ⟨w, hw, rfl⟩ := Option.map_eq_some_iff.mp h
      obtain ⟨i, hi, hik⟩ := of_take? hm
      have hmore : more.length < z.2.length := by rw [hi]; simp
      obtain ⟨body', block', hb', hbs', hbr', hbm'⟩ := block_sound more w hw
      refine ⟨test ++ block ++ i :: block', by rw [hu, hb, hi, hb']; simp, ?_⟩
      rw [hbm, hbm']
      exact .ifElse hk he hbs hbr hik hbs' hbr'
    · rw [Option.some.injEq] at h
      obtain rfl := h
      refine ⟨test ++ block, by rw [hu, hb]; simp, ?_⟩
      rw [hbm]
      exact .ifThen hk he hbs hbr
termination_by toks.length
decreasing_by
  · subst_vars; exact hfewer
  · exact hfewer
  · omega
  · exact hfewer

theorem block_sound (toks : List Token) (x : List Stmt × List Token)
    (h : (block toks).clean? = some x) :
    ∃ body used, toks = used ++ x.2 ∧ (∀ y ∈ body, StmtSpelled y.1 y.2) ∧
      Braced (spelling body) used ∧ x.1 = meanings body := by
  rw [block_clean?, Option.bind_eq_some_iff] at h
  obtain ⟨rest, ho, h⟩ := h
  obtain ⟨y, hy, h⟩ := Option.bind_eq_some_iff.mp h
  obtain ⟨left, hc, rfl⟩ := Option.map_eq_some_iff.mp h
  obtain ⟨o, rfl, hok⟩ := of_take? ho
  obtain ⟨c, hcl, hck⟩ := of_take? hc
  obtain ⟨body, hb, hs, hm⟩ := statements_sound rest y hy
  exact ⟨body, o :: (spelling body ++ [c]), by rw [hb, hcl]; simp, hs, .mk hok hck, hm⟩
termination_by toks.length
decreasing_by subst_vars; simp

theorem statements_sound (toks : List Token) (x : List Stmt × List Token)
    (h : (statements toks).clean? = some x) :
    ∃ body, toks = spelling body ++ x.2 ∧ (∀ y ∈ body, StmtSpelled y.1 y.2) ∧
      x.1 = meanings body := by
  cases toks with
  | nil =>
    rw [statements_end (by simp), Option.some.injEq] at h
    obtain rfl := h
    exact ⟨[], rfl, by simp, rfl⟩
  | cons t rest =>
    rcases statements_begins h with he | ⟨s, hs⟩
    · have hend : ∀ u ∈ (t :: rest).head?, endsStatements u.kind = true := by
        intro u hu
        cases hu
        exact he
      rw [statements_end hend, Option.some.injEq] at h
      obtain rfl := h
      exact ⟨[], rfl, by simp, rfl⟩
    · rw [statements_starter hs, Option.bind_eq_some_iff] at h
      obtain ⟨y, hy, h⟩ := h
      obtain ⟨z, hz, rfl⟩ := Option.map_eq_some_iff.mp h
      have hfewer := Recovered.fewer_of_clean? hy
      obtain ⟨used, hu, hst⟩ := statement_sound s t rest y hs hy
      obtain ⟨body, hb, hbs, hm⟩ := statements_sound y.2 z hz
      refine ⟨(t :: used, y.1) :: body, by rw [hu, hb]; simp, ?_, by rw [hm, meanings_cons]⟩
      intro w hw
      rcases List.mem_cons.mp hw with rfl | hw
      · exact hst
      · exact hbs w hw
termination_by toks.length
decreasing_by all_goals subst_vars; simp only [List.length_cons]; omega

end

end MeowScript
