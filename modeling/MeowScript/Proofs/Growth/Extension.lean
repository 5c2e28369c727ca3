import MeowScript.Proofs.Grammar.Exact
import MeowScript.Proofs.Lexing.Lines
import MeowScript.Proofs.Naming.Words

/-!
# More lines extend a compilation

Two texts are compared, of which the second has more lines before the final `Sleep`. All phases go
from left to right: the tokens of the common lines are the same, the statements they spell are read
in the same way unless what follows goes on with the last of them, and the check and the code of
these statements know nothing of the later ones.

Results:
* `tokensOf_sleep`: the tokens of a text are those of its lines, and `Sleep`.
* `Compilation.growth`: what both compilations have in common.
* `Growth.keeps`: statements and code stay if no statement goes on with the first new token.
* `compile_extends`: so they do if the new lines begin with a statement.
-/
namespace MeowScript

/-! ## Tokens -/

theorem found_ne_finish {p : Position} {cs : List Char} {t : Token}
    (ht : t ∈ found Piece.tokenAt p cs) : t.kind ≠ .endOfInput := by
  intro hk
  obtain ⟨c, ds, hreads⟩ := tokenAt_kind ht
  rw [hk] at hreads
  cases hreads

/-- `Sleep` on the last line. -/
def finalTokens (p : Position) : List Token :=
  [⟨.keyword .sleep, "Sleep", p⟩, .finish (p.after "Sleep".toList)]

theorem found_sleep (p : Position) :
    found Piece.tokenAt p "Sleep".toList = [⟨.keyword .sleep, "Sleep", p⟩] := by
  have hfirst : Piece.first 'S' ['l', 'e', 'e', 'p'] =
      (⟨['S', 'l', 'e', 'e', 'p'], .token (.keyword .sleep)⟩, []) := by decide
  have hsleep : "Sleep".toList = ['S', 'l', 'e', 'e', 'p'] := by decide
  rw [hsleep, found_cons, hfirst, found_nil]
  rfl

/-- The tokens of a text are those of its lines before `Sleep`, and these are without faults. -/
theorem tokensOf_sleep {lines : String} {toks : List Token}
    (h : tokensOf (lines ++ "\nSleep") = .ok toks) :
    Clean lines.toList ∧ ∃ p, toks = found Piece.tokenAt .start lines.toList ++ finalTokens p := by
  have hsource : (lines ++ "\nSleep").toList = lines.toList ++ '\n' :: "Sleep".toList := by simp
  obtain ⟨hclean, rfl⟩ := tokensOf_eq_ok.mp h
  rw [hsource] at hclean
  have hlines := clean_of_join lines.toList (by decide) hclean
  refine ⟨hlines, (Position.start.after lines.toList).next '\n', ?_⟩
  rw [hsource, found_join skipsGaps_tokenAt _ _ _ hlines, found_sleep, List.append_assoc,
    Position.after_append, Position.after_cons]
  rfl

/-- Lines behind lines without faults are tokens behind their tokens. -/
theorem found_lines {lines more : String} (h : Clean lines.toList) :
    found Piece.tokenAt .start (lines ++ "\n" ++ more).toList =
      found Piece.tokenAt .start lines.toList ++
        found Piece.tokenAt ((Position.start.after lines.toList).next '\n') more.toList := by
  rw [← found_join skipsGaps_tokenAt _ _ _ h]
  simp

/-! ## Statements -/

/-- A program read from tokens that end with `Sleep` has spelled statements before it. -/
theorem ofTokens_sleep {toks : List Token} {p : Position} (ht : ∀ t ∈ toks, t.kind ≠ .endOfInput)
    {program : Program} (h : Program.ofTokens (toks ++ finalTokens p) = .ok program) :
    ∃ w parts, toks = w :: spelling parts ∧ (∀ x ∈ parts, StmtSpelled x.1 x.2) ∧
      program.body = meanings parts := by
  let s : Token := ⟨.keyword .sleep, "Sleep", p⟩
  have hfin : toks ++ finalTokens p = (toks ++ [s]) ++ [.finish (p.after "Sleep".toList)] := by
    simp [finalTokens, s]
  have hinit : ∀ t ∈ toks ++ [s], t.kind ≠ .endOfInput :=
    List.forall_mem_append.mpr ⟨ht, by simp [s]⟩
  rw [hfin, Program.ofTokens, TokenStream.ofList_ends rfl hinit, ← toOption_eq_some,
    TokenStream.program_iff] at h
  obtain ⟨w, s', rest, hahead, hw, -, hread, -⟩ := h
  obtain ⟨parts, hrest, hparts, hbody⟩ := statements_sound rest _ hread
  cases toks with
  | nil =>
    -- `Sleep` is not `Wake`
    cases hahead
    cases hw
  | cons t toks =>
    obtain ⟨rfl, htoks⟩ := List.cons.inj hahead
    obtain ⟨htoks, -⟩ := List.append_inj' (htoks.trans hrest) rfl
    exact ⟨t, parts, by rw [htoks], hparts, hbody⟩

/-- Statements that are spelled are read up to `Sleep`. -/
theorem statements_sleep {parts : List (List Token × Stmt)}
    (h : ∀ x ∈ parts, StmtSpelled x.1 x.2) :
    (statements (spelling parts ++ finalTokens .start)).clean? =
      some (meanings parts, finalTokens .start) :=
  statements_complete (fun x hx => (h x hx).readable) rfl _

/-- More tokens behind spelled statements spell more statements, if no statement goes on with
them. -/
theorem meanings_grow {old new : List (List Token × Stmt)} {toks : List Token}
    (ho : ∀ x ∈ old, StmtSpelled x.1 x.2) (hn : ∀ x ∈ new, StmtSpelled x.1 x.2)
    (ht : spelling new = spelling old ++ toks) (hends : EndsStmt (toks ++ finalTokens .start)) :
    meanings old <+: meanings new := by
  have hread := statements_sleep hn
  rw [ht, List.append_assoc, statements_append (fun x hx => (ho x hx).readable) hends,
    Option.map_eq_some_iff] at hread
  obtain ⟨x, -, hx⟩ := hread
  exact ⟨x.1, congrArg Prod.fst hx⟩

/-! ## Check and code -/

/-- Statements are checked without regard to those behind them. -/
theorem Stmt.checkAll_append (c : Checker) (ss ss' : List Stmt) :
    Stmt.checkAll c (ss ++ ss') =
      ⟨(Stmt.checkAll c ss).value ++ (Stmt.checkAll (Stmt.checkAll c ss).after ss').value,
        (Stmt.checkAll (Stmt.checkAll c ss).after ss').after,
        (Stmt.checkAll c ss).faults ++ (Stmt.checkAll (Stmt.checkAll c ss).after ss').faults⟩ := by
  induction ss generalizing c with
  | nil => simp [Stmt.checkAll]
  | cons s ss ih => simp [Stmt.checkAll, ih]

/-- Statements in front come to the same annotated statements in front. -/
theorem checkAll_grow {ss ss' : List Stmt} (h : ss <+: ss') (c : Checker) :
    (Stmt.checkAll c ss).value <+: (Stmt.checkAll c ss').value := by
  obtain ⟨more, rfl⟩ := h
  rw [Stmt.checkAll_append]
  exact List.prefix_append _ _

theorem lowerAll_grow {ss ss' : List Stmt} (h : ss <+: ss') (c : Counters) :
    (Stmt.lowerAll c ss).1 <+: (Stmt.lowerAll c ss').1 := by
  obtain ⟨more, rfl⟩ := h
  rw [Stmt.lowerAll_append]
  exact List.prefix_append _ _

/-! ## Compilations -/

/-- A compilation comes from these statements, in which no fault was found. -/
structure Compilation.Of (c : Compilation) (body : List Stmt) : Prop where
  accepted : (Stmt.checkAll .start body).faults = []
  checked : c.program.body = (Stmt.checkAll .start body).value
  lowered : c.code = (Stmt.lowerAll .start c.program.body).1

/-- Two compilations of which the second has more tokens before the final `Sleep`. -/
structure Growth (a c : Compilation) (toks : List Token) (old new : List (List Token × Stmt)) :
    Prop where
  oldTokens : ∃ w p, a.tokens = w :: spelling old ++ finalTokens p ∧
    ∃ q, c.tokens = w :: spelling new ++ finalTokens q
  newTokens : spelling new = spelling old ++ toks
  oldSpelled : ∀ x ∈ old, StmtSpelled x.1 x.2
  newSpelled : ∀ x ∈ new, StmtSpelled x.1 x.2
  oldBody : a.Of (meanings old)
  newBody : c.Of (meanings new)

/-- What a text that ends with a line `Sleep` compiles to. -/
theorem Compilation.ofText_sleep {lines : String} {c : Compilation}
    (h : ofText (lines ++ "\nSleep") = .ok c) :
    Clean lines.toList ∧ ∃ p w parts,
      c.tokens = found Piece.tokenAt .start lines.toList ++ finalTokens p ∧
      found Piece.tokenAt .start lines.toList = w :: spelling parts ∧
      (∀ x ∈ parts, StmtSpelled x.1 x.2) ∧ c.Of (meanings parts) := by
  obtain ⟨tree, htoks, htree, hfaults, hbody⟩ := of_ofText h
  obtain ⟨hclean, p, hc⟩ := tokensOf_sleep htoks
  rw [hc] at htree
  obtain ⟨w, parts, hw, hparts, hmeanings⟩ := ofTokens_sleep (fun t ht => found_ne_finish ht) htree
  rw [hmeanings] at hfaults hbody
  exact ⟨hclean, p, w, parts, hc, hw, hparts, hfaults, hbody, code_of_ofText h⟩

/-- What a text and the same with more lines have in common. -/
theorem Compilation.growth {lines more : String} {a c : Compilation}
    (ha : ofText (lines ++ "\nSleep") = .ok a)
    (hc : ofText (lines ++ "\n" ++ more ++ "\nSleep") = .ok c) :
    ∃ toks old new, toks.map Token.kind = (pieces more.toList).filterMap Piece.kind? ∧
      Growth a c toks old new := by
  obtain ⟨hclean, p, w, old, hp, hw, hold, hbody⟩ := ofText_sleep ha
  obtain ⟨-, q, w', new, hq, hw', hnew, hbody'⟩ := ofText_sleep hc
  have hlines := hw'
  rw [found_lines hclean, hw, List.cons_append] at hlines
  obtain ⟨rfl, hspell⟩ := List.cons.inj hlines
  exact ⟨_, old, new, found_kinds _ _, ⟨w, p, hw ▸ hp, q, hw' ▸ hq⟩, hspell.symm, hold, hnew,
    hbody, hbody'⟩

namespace Growth

variable {a c : Compilation} {toks : List Token} {old new : List (List Token × Stmt)}

/-- All tokens before `Sleep` stay. -/
theorem tokens_grow (h : Growth a c toks old new) :
    ∃ ts p, a.tokens = ts ++ finalTokens p ∧ ts <+: c.tokens := by
  obtain ⟨w, p, ha, q, hc⟩ := h.oldTokens
  refine ⟨w :: spelling old, p, ha, ?_⟩
  rw [hc, h.newTokens, List.cons_append, List.append_assoc]
  exact List.prefix_append _ _

/-- Statements and code stay if no statement goes on with the first new token. -/
theorem keeps (h : Growth a c toks old new) (hends : EndsStmt (toks ++ finalTokens .start)) :
    a.program.body <+: c.program.body ∧ a.code <+: c.code := by
  have hbody : a.program.body <+: c.program.body := by
    rw [h.oldBody.checked, h.newBody.checked]
    exact checkAll_grow (meanings_grow h.oldSpelled h.newSpelled h.newTokens hends) _
  rw [h.oldBody.lowered, h.newBody.lowered]
  exact ⟨hbody, lowerAll_grow hbody _⟩

end Growth

/-! ## Lines that begin with a statement -/

/-- There is no token, or the first one starts a statement. -/
def OpensStatement (toks : List Token) : Prop :=
  ∀ t ∈ toks.head?, t.kind = .endOfInput ∨ ∃ s, Starter.ofKind? t.kind = some s

theorem OpensStatement.endsStmt {toks : List Token} (h : OpensStatement toks) :
    EndsStmt (toks ++ finalTokens .start) := by
  cases toks with
  | nil => exact .of_end rfl _
  | cons t toks =>
    rcases h t rfl with hk | ⟨s, hs⟩
    · exact .cons (by simp [hk]) (by simp [hk]) (by simp [hk]) _
    · exact .of_starter hs _

/-- The tokens of a text are of the kinds of its pieces, and the end of the input. -/
theorem tokensOf_kinds {source : String} {toks : List Token} (h : tokensOf source = .ok toks) :
    toks.map Token.kind = (pieces source.toList).filterMap Piece.kind? ++ [.endOfInput] := by
  obtain ⟨-, rfl⟩ := tokensOf_eq_ok.mp h
  rw [List.map_append, found_kinds]
  rfl

/-- The first token of a text by itself is of the kind of the first one found in it. -/
theorem head?_kind {source : String} {toks ts : List Token} (h : tokensOf source = .ok toks)
    (hts : ts.map Token.kind = (pieces source.toList).filterMap Piece.kind?) {t : Token}
    (ht : t ∈ ts.head?) : ∃ u ∈ toks.head?, u.kind = t.kind := by
  obtain ⟨rest, rfl⟩ := List.head?_eq_some_iff.mp ht
  have hkinds := tokensOf_kinds h
  rw [← hts] at hkinds
  cases toks with
  | nil => simp at hkinds
  | cons u toks => exact ⟨u, rfl, (List.cons.inj hkinds).1⟩

/-- **Main.** If a program still compiles with more lines before its `Sleep`, which are empty of
tokens or begin with a statement, then its annotated statements, its tokens up to `Sleep` and its
instructions are the first of the longer program's. -/
theorem compile_extends {lines more : String} {a c : Compilation} {toks : List Token}
    (ha : Compilation.ofText ("Wake\n" ++ lines ++ "\nSleep") = .ok a)
    (hc : Compilation.ofText ("Wake\n" ++ lines ++ "\n" ++ more ++ "\nSleep") = .ok c)
    (hm : tokensOf more = .ok toks) (ho : OpensStatement toks) :
    a.program.body <+: c.program.body ∧
      (∃ ts sleep finish, a.tokens = ts ++ [sleep, finish] ∧ sleep.kind = .keyword .sleep ∧
        finish.kind = .endOfInput ∧ ts <+: c.tokens) ∧
      a.code <+: c.code := by
  obtain ⟨added, old, new, hkinds, hgrowth⟩ := Compilation.growth ha hc
  have hopens : OpensStatement added := by
    intro t ht
    obtain ⟨u, hu, hk⟩ := head?_kind hm hkinds ht
    exact hk ▸ ho u hu
  obtain ⟨hbody, hcode⟩ := hgrowth.keeps hopens.endsStmt
  obtain ⟨ts, p, htokens, hprefix⟩ := hgrowth.tokens_grow
  exact ⟨hbody, ⟨ts, _, _, htokens, rfl, rfl, hprefix⟩, hcode⟩

/-- Lines that end with a branch. -/
def branchText : String := "Box x paws 1 + 2 // three\nPurr (x) \x7b Meow(x) \x7d"

/-- Lines that begin with a function. -/
def callText : String := "Hunt f(x) \x7b Bring x \x7d\nMeow(f(x))"

theorem compile_extends_branch : ∃ a c toks,
    Compilation.ofText ("Wake\n" ++ branchText ++ "\nSleep") = .ok a ∧ a.code.length = 5 ∧
    Compilation.ofText ("Wake\n" ++ branchText ++ "\n" ++ callText ++ "\nSleep") = .ok c ∧
    c.code.length = 11 ∧ tokensOf callText = .ok toks ∧ OpensStatement toks ∧
    a.program.body <+: c.program.body ∧
      (∃ ts sleep finish, a.tokens = ts ++ [sleep, finish] ∧ sleep.kind = .keyword .sleep ∧
        finish.kind = .endOfInput ∧ ts <+: c.tokens) ∧
      a.code <+: c.code := by
  have hold : (Compilation.ofText ("Wake\n" ++ branchText ++ "\nSleep")).toOption.map
      (·.code.length) = some 5 := by
    decide +kernel
  have hnew : (Compilation.ofText ("Wake\n" ++ branchText ++ "\n" ++ callText ++
      "\nSleep")).toOption.map (·.code.length) = some 11 := by
    decide +kernel
  have hfirst : (tokensOf callText).toOption.map (fun toks => toks.head?.map Token.kind) =
      some (some (.keyword .hunt)) := by
    decide +kernel
  obtain ⟨a, ha, holds⟩ := Option.map_eq_some_iff.mp hold
  obtain ⟨c, hc, hholds⟩ := Option.map_eq_some_iff.mp hnew
  obtain ⟨toks, htoks, hhead⟩ := Option.map_eq_some_iff.mp hfirst
  have hopens : OpensStatement toks := by
    intro t ht
    rw [Option.mem_def.mp ht, Option.map_some, Option.some.injEq] at hhead
    exact .inr ⟨.definition, by rw [hhead]; rfl⟩
  have htext := toOption_eq_some.mp ha
  have hlonger := toOption_eq_some.mp hc
  have hmore := toOption_eq_some.mp htoks
  exact ⟨a, c, toks, htext, holds, hlonger, hholds, hmore, hopens,
    compile_extends htext hlonger hmore hopens⟩

end MeowScript
