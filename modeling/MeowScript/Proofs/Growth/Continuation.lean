import MeowScript.Proofs.Growth.Extension

/-!
# How a last statement goes on

Tokens behind spelled statements can change the last of them in three ways only: an operator goes on
with an expression at its end, an opening parenthesis makes a call of the variable that ends such an
expression, and a `Hiss` gives a branch its other block.

Results:
* `assemble_joined`: an assembled tree joins the operands of its chain by binary operators.
* `expression_operator`, `expression_paren`: what becomes of an expression.
* `goes_on`: where a statement goes on with a token that begins no other.
* `statements_operator`, `statements_paren`, `statements_hiss`: what becomes of the statement.
-/
namespace MeowScript

open Attempt Recovered

/-! ## Operands of a tree -/

/-- The expression joins these operands, in this order, by binary operators. -/
inductive Joined : Expr → List Expr → Prop where
  | one (e : Expr) : Joined e [e]
  | binary {op : BinaryOp} {left right : Expr} {xs ys : List Expr} {p : Position}
      {note : Annotation} :
      Joined left xs → Joined right ys → Joined (.binary op left right p note) (xs ++ ys)

/-- The operands of a chain behind its first. -/
def operands (ks : List Link) : List Expr := ks.map Link.operand

theorem foldl_joined {ls : List Level} (segs : List (Link × List Link)) :
    ∀ {left : Expr} {xs : List Expr}, Joined left xs →
      (∀ s ∈ segs, Joined (Chain.assemble ls s.1.operand s.2) (s.1.operand :: operands s.2)) →
      Joined (segs.foldl
        (fun left s =>
          .binary s.1.op left (Chain.assemble ls s.1.operand s.2) s.1.position .unknown) left)
        (xs ++ operands (segs.flatMap fun s => s.1 :: s.2)) := by
  induction segs with
  | nil =>
    intro left xs h _
    simpa [operands] using h
  | cons s segs ih =>
    intro left xs h hs
    have hleft : Joined
        (.binary s.1.op left (Chain.assemble ls s.1.operand s.2) s.1.position .unknown)
        (xs ++ s.1.operand :: operands s.2) := .binary h (hs s List.mem_cons_self)
    simpa [operands] using ih hleft fun s' hs' => hs s' (List.mem_cons_of_mem s hs')

theorem assemble_joined (ls : List Level) : ∀ (e : Expr) (ks : List Link),
    (∀ k ∈ ks, k.op.level ∈ ls) → Joined (Chain.assemble ls e ks) (e :: operands ks) := by
  induction ls with
  | nil =>
    intro e ks hk
    cases ks with
    | nil => exact .one e
    | cons k ks => exact absurd (hk k List.mem_cons_self) List.not_mem_nil
  | cons l ls ih =>
    intro e ks hk
    have htighter : ∀ k : Link, k ∈ ks → k.op.level ≠ l → k.op.level ∈ ls :=
      fun k hm hl => (List.mem_cons.mp (hk k hm)).resolve_left hl
    have hfirst : ∀ k ∈ (Chain.segments l ks).1, k.op.level ∈ ls := fun k h => by
      obtain ⟨hm, hl⟩ := Chain.mem_segments_fst h
      exact htighter k hm hl
    have hjoined := foldl_joined (Chain.segments l ks).2 (ih e _ hfirst) fun s hs =>
      ih _ _ fun k hk' => by
        obtain ⟨hm, hl⟩ := (Chain.mem_segments_snd hs).2 k hk'
        exact htighter k hm hl
    have hsplit : operands ks = operands (Chain.segments l ks).1 ++
        operands ((Chain.segments l ks).2.flatMap fun s => s.1 :: s.2) := by
      rw [operands, operands, operands, ← List.map_append, Chain.segments_join]
    rw [hsplit, ← List.cons_append]
    exact hjoined

/-! ## Chains -/

/-- An operand and the links behind it. -/
def chain? (toks : List Token) : Option ((Expr × List Link) × List Token) :=
  (operand toks).result?.bind fun x => (links x.2).result?.map fun y => ((x.1, y.1), y.2)

theorem expression_chain? (toks : List Token) :
    (expression toks).result? =
      (chain? toks).map fun x => (Chain.assemble Level.ladder x.1.1 x.1.2, x.2) := by
  rw [expression_result?, chain?, Option.map_bind]
  simp only [Option.map_map, Function.comp_def]

theorem links_chain? {t : Token} {o : BinaryOp} (ht : t.kind = .operator o) (rest : List Token) :
    (links (t :: rest)).result? =
      (chain? rest).map fun x => (⟨o, t.position, x.1.1⟩ :: x.1.2, x.2) := by
  rw [links_operator ht, chain?, Option.map_bind]
  simp only [Option.map_map, Function.comp_def]

/-- A variable at the end has become a call. -/
inductive Called : Expr → Expr → Prop where
  | var {name : String} {storage : Option String} {p q : Position} {ty : Ty} {note : Annotation}
      {args : List Expr} : Called (.var name storage p ty) (.call name args q note)
  | unary {op : UnaryOp} {e e' : Expr} {p q : Position} {note note' : Annotation} :
      Called e e' → Called (.unary op e p note) (.unary op e' q note')

theorem operand_paren {rows : List (List BinaryOp)} {a : List Token} {e : Expr}
    (h : ExprSpelled rows a e) (hrows : rows = []) {u : Token}
    (hu : u.kind = .delimiter .openParen) {rest : List Token}
    {x : Expr × List Token} (hx : (operand (a ++ u :: rest)).result? = some x) :
    x = (e, u :: rest) ∨ Called e x.1 := by
  induction h generalizing x with
  | tighter | binary => cases hrows
  | @unary t op toks e ht _ ih =>
    rw [List.cons_append, operand_unary ht, Option.map_eq_some_iff] at hx
    obtain ⟨y, hy, rfl⟩ := hx
    rcases ih rfl hy with rfl | hcalled
    · exact .inl rfl
    · exact .inr (.unary hcalled)
  | literal ht =>
    rw [List.singleton_append, operand_literal ht, Option.some.injEq] at hx
    exact .inl hx.symm
  | var ht =>
    rw [List.singleton_append, operand_call ht (take?_of_kind hu rest),
      Option.map_eq_some_iff] at hx
    obtain ⟨y, -, rfl⟩ := hx
    exact .inr .var
  | @call t o c name args toks ht ho ha hl hc =>
    have hj : t :: o :: (toks ++ [c]) ++ u :: rest = t :: o :: (toks ++ c :: u :: rest) := by simp
    rw [hj, operand_call ht (take?_of_kind ho _),
      arguments_complete args toks ha hl c hc (u :: rest), Option.map_some,
      Option.some.injEq] at hx
    exact .inl hx.symm
  | @parens o c toks e ho he hc =>
    have hj : o :: (toks ++ [c]) ++ u :: rest = o :: (toks ++ c :: u :: rest) := by simp
    rw [hj, operand_parens ho,
      expression_complete toks e he _ (endsExpr_delimiter hc (by decide) _), Option.bind_some,
      take?_of_kind hc, Option.map_some, Option.some.injEq] at hx
    exact .inl hx.symm

/-- Behind a chain that is spelled, reading goes on at an operator. -/
theorem chain?_operator {a b : List Token} {e : Expr} {ks : List Link} (ha : ExprSpelled [] a e)
    (hb : LinksSpelled b ks) {u : Token} {o : BinaryOp} (hu : u.kind = .operator o)
    (rest : List Token) :
    chain? (a ++ b ++ u :: rest) =
      (links (u :: rest)).result?.map fun y => ((e, ks ++ y.1), y.2) := by
  induction hb generalizing a e with
  | nil =>
    have hparen : take? (.delimiter .openParen) (u :: rest) = none := if_neg (by simp [hu])
    rw [List.append_nil, chain?, operand_complete a e ha _ hparen, Option.bind_some]
    rfl
  | @cons t k a' b ks ht hp he hb ih =>
    have hparen : take? (.delimiter .openParen) (t :: (a' ++ b) ++ u :: rest) = none :=
      if_neg (by simp [ht])
    rw [List.append_assoc, chain?, operand_complete a e ha _ hparen, Option.bind_some,
      List.cons_append, links_chain? ht, ih he, Option.map_map, Option.map_map]
    simp [Function.comp_def, hp]

/-- At an opening parenthesis a chain ends, or the variable in front of it becomes a call. -/
theorem chain?_paren {a b : List Token} {e : Expr} {ks : List Link} (ha : ExprSpelled [] a e)
    (hb : LinksSpelled b ks) {u : Token} (hu : u.kind = .delimiter .openParen) {rest : List Token}
    {x : (Expr × List Link) × List Token} (hx : chain? (a ++ b ++ u :: rest) = some x) :
    x.2 = u :: rest ∨ ∃ xs z z' ys, e :: operands ks = xs ++ [z] ∧
      x.1.1 :: operands x.1.2 = xs ++ z' :: ys ∧ Called z z' := by
  induction hb generalizing a e x with
  | nil =>
    rw [List.append_nil, chain?, Option.bind_eq_some_iff] at hx
    obtain ⟨y, hy, hx⟩ := hx
    rcases operand_paren ha rfl hu hy with rfl | hcalled
    · have hends : ∀ t ∈ (u :: rest).head?, ∀ o, t.kind ≠ .operator o := by
        intro t ht o
        cases ht
        simp [hu]
      rw [links_end hends, Option.map_some, Option.some.injEq] at hx
      exact .inl (hx ▸ rfl)
    · obtain ⟨z, -, rfl⟩ := Option.map_eq_some_iff.mp hx
      exact .inr ⟨[], e, y.1, operands z.1, rfl, rfl, hcalled⟩
  | @cons t k a' b ks ht hp he hb ih =>
    have hparen : take? (.delimiter .openParen) (t :: (a' ++ b) ++ u :: rest) = none :=
      if_neg (by simp [ht])
    rw [List.append_assoc, chain?, operand_complete a e ha _ hparen, Option.bind_some,
      List.cons_append, links_chain? ht, Option.map_map, Option.map_eq_some_iff] at hx
    obtain ⟨y, hy, rfl⟩ := hx
    rcases ih he hy with hleft | ⟨xs, z, z', ys, hold, hnew, hcalled⟩
    · exact .inl hleft
    · refine .inr ⟨e :: xs, z, z', ys, ?_, ?_, hcalled⟩
      · exact congrArg (e :: ·) hold
      · exact congrArg (e :: ·) hnew

/-! ## Expressions -/

/-- An operator behind an expression joins more operands to it. -/
theorem expression_operator {toks : List Token} {e : Expr}
    (h : ExprSpelled operatorRows toks e) {u : Token} {o : BinaryOp} (hu : u.kind = .operator o)
    {rest : List Token} {x : Expr × List Token}
    (hx : (expression (toks ++ u :: rest)).result? = some x) :
    ∃ xs ys, Joined e xs ∧ Joined x.1 (xs ++ ys) ∧ ys ≠ [] := by
  obtain ⟨a, b, e₀, ks, rfl, ha, hb, rfl⟩ := h.chain
  rw [expression_chain?, chain?_operator ha hb hu, Option.map_map, Option.map_eq_some_iff] at hx
  obtain ⟨y, hy, rfl⟩ := hx
  rw [links_chain? hu, Option.map_eq_some_iff] at hy
  obtain ⟨z, -, rfl⟩ := hy
  have hjoined := assemble_joined Level.ladder e₀ (ks ++ ⟨o, u.position, z.1.1⟩ :: z.1.2)
    fun k _ => Level.mem_ladder k.op.level
  refine ⟨e₀ :: operands ks, z.1.1 :: operands z.1.2,
    assemble_joined _ e₀ ks fun k _ => Level.mem_ladder k.op.level, ?_, List.cons_ne_nil _ _⟩
  simpa [operands] using hjoined

/-- An opening parenthesis behind an expression is left alone, or makes a call of the variable in
front of it. -/
theorem expression_paren {toks : List Token} {e : Expr} (h : ExprSpelled operatorRows toks e)
    {u : Token} (hu : u.kind = .delimiter .openParen) {rest : List Token}
    {x : Expr × List Token} (hx : (expression (toks ++ u :: rest)).result? = some x) :
    x.2 = u :: rest ∨ ∃ xs z z' ys, Joined e (xs ++ [z]) ∧ Joined x.1 (xs ++ z' :: ys) ∧
      Called z z' := by
  obtain ⟨a, b, e₀, ks, rfl, ha, hb, rfl⟩ := h.chain
  rw [expression_chain?, Option.map_eq_some_iff] at hx
  obtain ⟨y, hy, rfl⟩ := hx
  rcases chain?_paren ha hb hu hy with hleft | ⟨xs, z, z', ys, hold, hnew, hcalled⟩
  · exact .inl hleft
  · have holder := assemble_joined Level.ladder e₀ ks fun k _ => Level.mem_ladder k.op.level
    have hnewer := assemble_joined Level.ladder y.1.1 y.1.2 fun k _ => Level.mem_ladder k.op.level
    exact .inr ⟨xs, z, z', ys, hold ▸ holder, hnew ▸ hnewer, hcalled⟩

/-! ## Statements -/

/-- No list of statements begins or ends with the token. -/
structure Stuck (u : Token) : Prop where
  noEnd : endsStatements u.kind = false
  noStarter : Starter.ofKind? u.kind = none

theorem stuck_operator {u : Token} {o : BinaryOp} (hu : u.kind = .operator o) : Stuck u :=
  ⟨by rw [hu]; rfl, by rw [hu]; rfl⟩

theorem stuck_paren {u : Token} (hu : u.kind = .delimiter .openParen) : Stuck u :=
  ⟨by rw [hu]; rfl, by rw [hu]; rfl⟩

theorem stuck_hiss {u : Token} (hu : u.kind = .keyword .hiss) : Stuck u :=
  ⟨by rw [hu]; rfl, by rw [hu]; rfl⟩

theorem Stuck.clean? {u : Token} (hu : Stuck u) (rest : List Token) :
    (statements (u :: rest)).clean? = none := by
  cases h : (statements (u :: rest)).clean? with
  | none => rfl
  | some x =>
    rcases statements_begins h with hend | ⟨s, hs⟩
    · rw [hu.noEnd] at hend
      cases hend
    · rw [hu.noStarter] at hs
      cases hs

/-- Tokens that a list of statements cannot go on with are taken by the last statement before
them. -/
theorem last_statement {old new : List (List Token × Stmt)} {u : Token} {rest : List Token}
    (ho : ∀ x ∈ old, StmtSpelled x.1 x.2) (hn : ∀ x ∈ new, StmtSpelled x.1 x.2)
    (ht : spelling new = spelling old ++ u :: rest) (hu : Stuck u) :
    ∃ front, ∃ last ∈ old, ∃ more y, (statements (last.1 ++ u :: more)).clean? = some y ∧
      meanings old = front ++ [last.2] ∧ meanings new = front ++ y.1 := by
  have hread := statements_sleep hn
  rw [ht, List.append_assoc, List.cons_append] at hread
  rcases List.eq_nil_or_concat old with rfl | ⟨init, last, hold⟩
  · rw [spelling_nil, List.nil_append, hu.clean?] at hread
    cases hread
  · rw [List.concat_eq_append] at hold
    subst hold
    have hjoin : spelling (init ++ [last]) = spelling init ++ last.1 := by simp [spelling]
    obtain ⟨hinit, hlast⟩ := List.forall_mem_append.mp ho
    obtain ⟨t, more, st, hmore, hst, -⟩ := (hlast last (List.mem_singleton_self _)).ends
    have hends : ∀ toks, EndsStmt (last.1 ++ toks) := by
      intro toks
      rw [hmore, List.cons_append]
      exact .of_starter hst _
    rw [hjoin, List.append_assoc, statements_append (fun x hx => (hinit x hx).readable) (hends _),
      Option.map_eq_some_iff] at hread
    obtain ⟨y, hy, hnew⟩ := hread
    exact ⟨meanings init, last, by simp, _, y, hy, by simp [meanings],
      (congrArg Prod.fst hnew).symm⟩

/-- A statement goes on with such a token where it ends with an expression that does, or where it is
a branch and the token is `Hiss`. -/
theorem goes_on {toks : List Token} {s : Stmt} (h : StmtSpelled toks s) {u : Token} (hu : Stuck u)
    {rest : List Token} {y : List Stmt × List Token}
    (hy : (statements (toks ++ u :: rest)).clean? = some y) :
    (∃ make e tail x more, MadeOfValue make ∧ s = make e ∧ ExprSpelled operatorRows tail e ∧
      (expression (tail ++ u :: rest)).result? = some x ∧ (statements x.2).clean? ≠ none ∧
      y.1 = make x.1 :: more) ∨
    u.kind = .keyword .hiss ∧ ∃ condition body otherwise p more, s = .ifThen condition body p ∧
      y.1 = .ifElse condition body otherwise p :: more := by
  obtain ⟨t, more, st, rfl, hst, hending⟩ := h.ends
  rw [List.cons_append, statements_starter hst, Option.bind_eq_some_iff] at hy
  obtain ⟨z, hz, hy⟩ := hy
  obtain ⟨w, hw, rfl⟩ := Option.map_eq_some_iff.mp hy
  cases hending with
  | @value front tail make e hmake hmore he hs hread =>
    rw [hmore, List.append_assoc, hread, Option.map_eq_some_iff] at hz
    obtain ⟨x, hx, rfl⟩ := hz
    exact .inl ⟨make, e, tail, x, w.1, hmake, hs, he, hx, by rw [hw]; simp, rfl⟩
  | @branch condition body hs hread =>
    rw [hread, otherwise?] at hz
    by_cases hhiss : u.kind = .keyword .hiss
    · rw [take?_of_kind hhiss, Option.map_eq_some_iff] at hz
      obtain ⟨x, -, rfl⟩ := hz
      exact .inr ⟨hhiss, condition, body, x.1, t.position, w.1, hs, rfl⟩
    · have hnone : take? (.keyword .hiss) (u :: rest) = none := if_neg hhiss
      rw [hnone, Option.some.injEq] at hz
      rw [← hz, hu.clean?] at hw
      cases hw
  | closed hread =>
    rw [hread, Option.some.injEq] at hz
    rw [← hz, hu.clean?] at hw
    cases hw

section
variable {toks : List Token} {s : Stmt} (h : StmtSpelled toks s) {u : Token} {rest : List Token}
  {y : List Stmt × List Token} (hy : (statements (toks ++ u :: rest)).clean? = some y)
include h hy

theorem statements_operator {o : BinaryOp} (hu : u.kind = .operator o) :
    ∃ make e e' xs ys more, MadeOfValue make ∧ s = make e ∧ y.1 = make e' :: more ∧
      Joined e xs ∧ Joined e' (xs ++ ys) ∧ ys ≠ [] := by
  rcases goes_on h (stuck_operator hu) hy with
    ⟨make, e, tail, x, more, hmake, hs, he, hx, -, hnew⟩ | ⟨hk, -⟩
  · obtain ⟨xs, ys, hold, hjoined, hne⟩ := expression_operator he hu hx
    exact ⟨make, e, x.1, xs, ys, more, hmake, hs, hnew, hold, hjoined, hne⟩
  · rw [hu] at hk
    cases hk

theorem statements_paren (hu : u.kind = .delimiter .openParen) :
    ∃ make e e' xs z z' ys more, MadeOfValue make ∧ s = make e ∧ y.1 = make e' :: more ∧
      Joined e (xs ++ [z]) ∧ Joined e' (xs ++ z' :: ys) ∧ Called z z' := by
  rcases goes_on h (stuck_paren hu) hy with
    ⟨make, e, tail, x, more, hmake, hs, he, hx, hread, hnew⟩ | ⟨hk, -⟩
  · rcases expression_paren he hu hx with hleft | ⟨xs, z, z', ys, hold, hjoined, hcalled⟩
    · rw [hleft] at hread
      exact absurd ((stuck_paren hu).clean? rest) hread
    · exact ⟨make, e, x.1, xs, z, z', ys, more, hmake, hs, hnew, hold, hjoined, hcalled⟩
  · rw [hu] at hk
    cases hk

theorem statements_hiss (hu : u.kind = .keyword .hiss) :
    ∃ condition body otherwise p more, s = .ifThen condition body p ∧
      y.1 = .ifElse condition body otherwise p :: more := by
  rcases goes_on h (stuck_hiss hu) hy with
    ⟨make, e, tail, x, more, -, -, he, hx, hread, -⟩ | ⟨-, hbranch⟩
  · have hends : EndsExpr (u :: rest) := by
      intro v hv
      cases hv
      simp [hu]
    rw [expression_complete tail e he _ hends, Option.some.injEq] at hx
    rw [← hx] at hread
    exact absurd ((stuck_hiss hu).clean? rest) hread
  · exact hbranch

end

end MeowScript
