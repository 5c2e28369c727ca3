import MeowScript.Proofs.Grammar.Exact
import MeowScript.Proofs.Layout.Checking
import MeowScript.Proofs.Layout.Gaps

/-!
# Layout does not matter

Other gaps between the tokens of a text leave it the same tokens in other places, and places decide
nothing in any phase: what a text compiles to is a function of its tokens without their positions.

Results:
* `outcomeOf_tokens`: the outcome of compiling is that of the bare tokens.
* `outcomeOf_setOut`: a text set out anew has the same tokens and compiles to the same.
-/
namespace MeowScript

/-- What compiling a text comes to: its code, or the phase that failed with the codes of all of its
faults, in order. -/
def outcomeOf (source : String) : Except (Phase × List String) (List Instr) :=
  match Compilation.ofText source with
  | .ok c => .ok c.code
  | .error r => .error (r.phase, r.diagnostics.map Diagnostic.code)

/-- The same from the tokens on. -/
def outcomeOfTokens (toks : List Token) : Except (Phase × List String) (List Instr) :=
  match Program.ofTokens toks with
  | .error faults => .error (.syntactic, faults.map fun f => f.cause.code)
  | .ok tree =>
    match tree.check with
    | .error faults => .error (.semantic, faults.map fun f => f.cause.code)
    | .ok program => .ok program.lower

theorem outcomeOf_tokens {source : String} {toks : List Token} (h : tokensOf source = .ok toks) :
    outcomeOf source = outcomeOfTokens toks := by
  rw [outcomeOf, Compilation.ofText, h, outcomeOfTokens]
  dsimp only
  cases Program.ofTokens toks with
  | error faults => simp [Rejection.phase, Rejection.diagnostics, Function.comp_def]
  | ok tree =>
    dsimp only
    cases tree.check with
    | error faults => simp [Rejection.phase, Rejection.diagnostics, Function.comp_def]
    | ok program => rfl

/-- No position of a token decides anything. -/
theorem outcomeOfTokens_bare (toks : List Token) :
    outcomeOfTokens (toks.map Token.bare) = outcomeOfTokens toks := by
  rw [outcomeOfTokens, outcomeOfTokens, ofTokens_bare]
  cases Program.ofTokens toks with
  | error faults => simp [Located.bare, Function.comp_def]
  | ok tree =>
    dsimp only
    rw [Program.check_bare]
    cases tree.check with
    | error faults => simp [Faults.bare, Located.bare, Function.comp_def]
    | ok program => exact congrArg Except.ok program.lower_bare

/-- Tokens of the same kinds and lexemes are the same but for their places. -/
theorem map_bare_eq {toks toks' : List Token} (hkind : toks'.map Token.kind = toks.map Token.kind)
    (hlexeme : toks'.map Token.lexeme = toks.map Token.lexeme) :
    toks'.map Token.bare = toks.map Token.bare := by
  induction toks generalizing toks' with
  | nil => rw [List.map_eq_nil_iff.mp hkind]
  | cons t toks ih =>
    cases toks' with
    | nil => cases hkind
    | cons t' toks' =>
      obtain ⟨hk, hkind⟩ := List.cons.inj hkind
      obtain ⟨hl, hlexeme⟩ := List.cons.inj hlexeme
      rw [List.map_cons, List.map_cons, ih hkind hlexeme, Token.bare, Token.bare, hk, hl]

/-- **Main.** A text whose tokens are set out anew, with any gaps that keep them apart, has tokens
of the same kinds and lexemes, and compiles to the same code or fails in the same phase with the
same codes. -/
theorem outcomeOf_setOut {source : String} {toks : List Token} (h : tokensOf source = .ok toks)
    {first : List Char} {gaps : List (List Char)} (hfirst : Separator first)
    (hlen : toks.dropLast.length = gaps.length) (hg : KeepsApart gaps) :
    (∃ toks', tokensOf (String.ofList (setOut first (toks.dropLast.map Token.lexeme) gaps)) =
        .ok toks' ∧
      toks'.map Token.kind = toks.map Token.kind ∧
      toks'.map Token.lexeme = toks.map Token.lexeme) ∧
    outcomeOf (String.ofList (setOut first (toks.dropLast.map Token.lexeme) gaps)) =
      outcomeOf source := by
  obtain ⟨toks', htoks', hkind, hlexeme⟩ := tokensOf_setOut h hfirst hlen hg
  refine ⟨⟨toks', htoks', hkind, hlexeme⟩, ?_⟩
  rw [outcomeOf_tokens htoks', outcomeOf_tokens h, ← outcomeOfTokens_bare,
    map_bare_eq hkind hlexeme, outcomeOfTokens_bare]

/-- Gaps for eight tokens, two of them with a comment. -/
def airyGaps : List (List Char) :=
  ["\n\t".toList, " /* ( */".toList, " ".toList, " // one\n".toList, "\n".toList, "\t".toList,
    "\r\n".toList, []]

theorem airyGaps_keepApart : KeepsApart airyGaps := by
  refine ⟨fun g hg => ?_, by decide, ?_⟩
  · have hcomment : Separator " /* ( */".toList :=
      .blank rfl (@Separator.comment " ( ".toList [] (by decide) .nil)
    have hline : Separator " // one\n".toList :=
      .blank rfl (@Separator.lineComment " one".toList [] (by decide) .nil)
    have hblanks : ∀ cs : List Char, cs.all Piece.isGapChar = true → Separator cs := by
      intro cs hcs
      induction cs with
      | nil => exact .nil
      | cons c cs ih =>
        rw [List.all_cons, Bool.and_eq_true] at hcs
        exact .blank hcs.1 (ih hcs.2)
    simp only [airyGaps, List.mem_cons, List.not_mem_nil, or_false] at hg
    rcases hg with rfl | rfl | rfl | rfl | rfl | rfl | rfl | rfl
    · exact hblanks _ (by decide)
    · exact hcomment
    · exact hblanks _ (by decide)
    · exact hline
    · exact hblanks _ (by decide)
    · exact hblanks _ (by decide)
    · exact hblanks _ (by decide)
    · exact .nil
  · have hheads : ∀ g ∈ airyGaps, g.head?.all Piece.isGapChar = true := by decide
    intro g hg c hc
    have hhead := hheads g hg
    rw [hc] at hhead
    exact hhead

/-- Tokens close to each other, and the same ones between comments and on lines of their own. -/
theorem outcomeOf_setOut_airy :
    outcomeOf "// first\nWake\n\tMeow /* ( */( 1 // one\n-\n2\t)\r\nSleep" =
      .ok [.binary 0 .sub (.constant (.integer 1)) (.constant (.integer 2)) .integer,
        .print (.temp 0)] := by
  have hlexemes : (tokensOf "Wake Meow(1-2)Sleep").toOption.map
      (fun toks => toks.dropLast.map Token.lexeme) =
      some ["Wake", "Meow", "(", "1", "-", "2", ")", "Sleep"] := by
    decide +kernel
  have hcode : outcomeOf "Wake Meow(1-2)Sleep" =
      .ok [.binary 0 .sub (.constant (.integer 1)) (.constant (.integer 2)) .integer,
        .print (.temp 0)] := by
    decide +kernel
  obtain ⟨toks, htoks, hlexemes⟩ := Option.map_eq_some_iff.mp hlexemes
  have hlen : toks.dropLast.length = airyGaps.length := by
    rw [← List.length_map (f := Token.lexeme), hlexemes]
    rfl
  have hfirst : Separator "// first\n".toList :=
    @Separator.lineComment " first".toList [] (by decide) .nil
  have hset := (outcomeOf_setOut (toOption_eq_some.mp htoks) hfirst hlen airyGaps_keepApart).2
  have htext : String.ofList (setOut "// first\n".toList
      ["Wake", "Meow", "(", "1", "-", "2", ")", "Sleep"] airyGaps) =
      "// first\nWake\n\tMeow /* ( */( 1 // one\n-\n2\t)\r\nSleep" := by
    decide
  rw [hlexemes, htext, hcode] at hset
  exact hset

end MeowScript
