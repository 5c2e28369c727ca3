import MeowScript.Proofs.Lexing.Exact

/-!
# Tokens with other gaps between them

A token stays what it is wherever it stands, if a blank or nothing follows it: no longer piece
begins at its place, since only blanks and comments go over a blank. So the tokens of a text can be
set out anew, and are found again.

Results:
* `Rule.Applies.apart`, `StandsBefore.apart`: a token before a blank or at the end.
* `found_separator`: a gap only moves what follows.
* `found_setOut`: what is found in a text that has been set out.
* `tokensOf_setOut`: it has the same tokens.
-/
namespace MeowScript

open Piece (isGapChar isWordStart isWordChar)

/-- The text begins with a blank, if it is not empty. -/
def BeginsBlank (cs : List Char) : Prop := ∀ c, cs.head? = some c → isGapChar c = true

/-! ## A token before a blank -/

/-- Blanks stand in blanks and comments only. -/
theorem Rule.Matches.of_blank {r : Rule} {m : List Char} (h : r.Matches m) {c : Char} (hc : c ∈ m)
    (hgap : isGapChar c = true) : r = blanks ∨ r = lineComment := by
  have hword : isWordChar c = false := by
    rcases isGapChar_cases hgap with rfl | rfl | rfl | rfl | rfl <;> decide
  have hdigit : c.isDigit = false := by
    rcases isGapChar_cases hgap with rfl | rfl | rfl | rfl | rfl <;> decide
  have hmark : ∀ cs : List Char, cs.all (fun d => !isGapChar d) = true → c ∉ cs := by
    intro cs hcs hmem
    have hnot := List.all_eq_true.mp hcs c hmem
    rw [hgap] at hnot
    cases hnot
  cases r with
  | blanks => exact .inl rfl
  | lineComment => exact .inr rfl
  | openComment => exact absurd hc ((show m = ['/', '*'] from h) ▸ hmark _ (by decide))
  | quote => exact absurd hc ((show m = ['"'] from h) ▸ hmark _ (by decide))
  | bang => exact absurd hc ((show m = ['!'] from h) ▸ hmark _ (by decide))
  | keyword k =>
    obtain rfl : m = k.text.toList := h
    rw [identifier_chars (identifier_keyword k) c hc] at hword
    cases hword
  | identifier =>
    rw [identifier_chars h c hc] at hword
    cases hword
  | float =>
    obtain ⟨whole, fraction, rfl, hw, hf⟩ := h
    rcases List.mem_append.mp hc with hc | hc
    · rw [hw.2 c hc] at hdigit
      cases hdigit
    · rcases List.mem_cons.mp hc with rfl | hc
      · exact absurd hgap (by decide)
      · rw [hf.2 c hc] at hdigit
        cases hdigit
  | integer =>
    rw [h.2 c hc] at hdigit
    cases hdigit
  | operator o =>
    obtain rfl : m = o.symbol.toList := h
    exact absurd hc (hmark _ (by cases o <;> decide))
  | delimiter d =>
    obtain rfl : m = d.text.toList := h
    exact absurd hc (hmark _ (by cases d <;> decide))

/-- A rule that accepts no blanks applies whatever stands behind a blank. -/
theorem Rule.Applies.apart {r : Rule} {m rest rest' : List Char} (h : r.Applies m rest)
    (hblank : r ≠ blanks) (hline : r ≠ lineComment) (hrest : BeginsBlank rest') :
    r.Applies m rest' := by
  refine ⟨h.accepts, fun r' m' hm' hpre => ?_, h.preferred⟩
  by_contra hlt
  obtain ⟨more, rfl⟩ : m <+: m' :=
    List.prefix_of_prefix_length_le (List.prefix_append m rest') hpre (by omega)
  -- the longer text has the blank behind `m` in it
  obtain ⟨c, more, rfl⟩ : ∃ c more', more = c :: more' := by
    cases more with
    | nil => simp at hlt
    | cons c more => exact ⟨c, more, rfl⟩
  have hgap : isGapChar c = true := by
    rw [List.prefix_append_right_inj] at hpre
    obtain ⟨tail, htail⟩ := hpre
    exact hrest c (by rw [← htail]; rfl)
  obtain ⟨d, ds, rfl⟩ := List.exists_cons_of_ne_nil h.accepts.ne_nil
  have hlead : r'.lead = r.lead := by rw [hm'.lead, h.accepts.lead]
  rcases hm'.of_blank (by simp) hgap with rfl | rfl
  · exact hblank (lead_blank hlead.symm)
  · -- a comment begins with two slashes, and only a comment has both of them
    obtain ⟨body, hbody, -⟩ := hm'
    cases ds with
    | nil =>
      cases hbody
      exact absurd hgap (by decide)
    | cons e ds =>
      cases hbody
      have haccepts := h.accepts
      rcases lead_slash hlead.symm with rfl | rfl | rfl
      · exact hline rfl
      · cases (show '/' :: '/' :: ds = ['/', '*'] from haccepts)
      · cases (show '/' :: '/' :: ds = ['/'] from haccepts)

theorem StandsBefore.apart {m : List Char} {k : Kind} {rest rest' : List Char}
    (h : StandsBefore ⟨m, .token k⟩ rest) (hrest : BeginsBlank rest') :
    StandsBefore ⟨m, .token k⟩ rest' := by
  cases h with
  | accepted happly hyield =>
    cases hyield with
    | whole hm =>
      refine .accepted (happly.apart ?_ ?_ hrest) (.whole hm)
      · rintro rfl
        cases hm
      · rintro rfl
        cases hm
    | string hraw =>
      have hquote := happly.accepts
      cases (show _ = ['"'] from hquote)
      exact .accepted Rule.quote_applies (.string hraw)

/-- What is split off where a piece stands. -/
theorem StandsBefore.first {x : Piece} {rest : List Char} (h : StandsBefore x rest) :
    ∃ c cs, x.text ++ rest = c :: cs ∧ Piece.first c cs = (x, rest) := by
  obtain ⟨c, cs, hx⟩ := List.exists_cons_of_ne_nil h.text_ne_nil
  have hfirst := Piece.first_stands c (cs ++ rest)
  have hunique := hfirst.unique h (by rw [Piece.first_append, hx, List.cons_append])
  exact ⟨c, cs ++ rest, by rw [hx, List.cons_append], Prod.ext hunique.1 hunique.2⟩

/-! ## Gaps -/

/-- Blanks, comments with the line feed that ends them, and closed comments. -/
inductive Separator : List Char → Prop where
  | nil : Separator []
  | blank {c : Char} {g : List Char} : isGapChar c = true → Separator g → Separator (c :: g)
  | lineComment {body g : List Char} : '\n' ∉ body → Separator g →
      Separator ('/' :: '/' :: (body ++ '\n' :: g))
  | comment {body g : List Char} : ¬ ['*', '/'] <:+: body ++ ['*'] → Separator g →
      Separator ('/' :: '*' :: (body ++ '*' :: '/' :: g))

section
variable {α : Type} {f : Located Piece → Option α}

theorem found_separator (hf : SkipsGaps f) {g : List Char} (hg : Separator g) (p : Position)
    (rest : List Char) : found f p (g ++ rest) = found f (p.after g) rest := by
  have hslash : ∀ (p : Position) (cs : List Char) (x : List Char × List Char),
      Piece.slash cs = (⟨x.1, .gap⟩, x.2) → found f p ('/' :: cs) = found f (p.after x.1) x.2 := by
    intro p cs x hx
    rw [found_cons, show Piece.first '/' cs = Piece.slash cs from rfl, hx, hf _ rfl]
    rfl
  induction hg generalizing p with
  | nil => rfl
  | blank hc _ ih => rw [List.cons_append, found_blank hf p hc, ih, Position.after_cons]
  | @lineComment body g hbody _ ih =>
    have htake : (body ++ '\n' :: (g ++ rest)).takeWhile (· != '\n') = body :=
      takeWhile_of_stops (ne_line hbody) (stops_line (.inr ⟨_, rfl⟩))
    have hdrop : (body ++ '\n' :: (g ++ rest)).dropWhile (· != '\n') = '\n' :: (g ++ rest) := by
      have happend := List.takeWhile_append_dropWhile (p := (· != '\n'))
        (l := body ++ '\n' :: (g ++ rest))
      rw [htake] at happend
      exact List.append_cancel_left happend
    have hread : Piece.slash ('/' :: (body ++ '\n' :: (g ++ rest))) =
        (⟨'/' :: '/' :: body, .gap⟩, '\n' :: (g ++ rest)) := by
      rw [Piece.slash, htake, hdrop]
    have hj : '/' :: '/' :: (body ++ '\n' :: g) ++ rest =
        '/' :: '/' :: (body ++ '\n' :: (g ++ rest)) := by simp
    rw [hj, hslash p _ (_, _) hread, found_blank hf _ rfl, ih]
    simp [Position.after_append]
  | @comment body g hfirst _ ih =>
    have hread : Piece.slash ('*' :: (body ++ '*' :: '/' :: (g ++ rest))) =
        (⟨'/' :: '*' :: (body ++ ['*', '/']), .gap⟩, g ++ rest) := by
      rw [Piece.slash, comment?_of_first hfirst]
    have hj : '/' :: '*' :: (body ++ '*' :: '/' :: g) ++ rest =
        '/' :: '*' :: (body ++ '*' :: '/' :: (g ++ rest)) := by simp
    rw [hj, hslash p _ (_, _) hread, ih]
    simp [Position.after_append]

/-! ## Texts set out anew -/

/-- The piece that a token is. -/
def Token.piece (t : Token) : Piece := ⟨t.lexeme.toList, .token t.kind⟩

/-- The text with these lexemes, a gap before them and a gap behind each. -/
def setOut (first : List Char) (lexemes : List String) (gaps : List (List Char)) : List Char :=
  first ++ (List.zipWith (fun l g => l.toList ++ g) lexemes gaps).flatten

/-- Each gap behind a token begins with a blank, and only the last may be empty. -/
structure KeepsApart (gaps : List (List Char)) : Prop where
  separators : ∀ g ∈ gaps, Separator g
  inner : ∀ g ∈ gaps.dropLast, g ≠ []
  blank : ∀ g ∈ gaps, BeginsBlank g

namespace KeepsApart

variable {g : List Char} {gaps : List (List Char)}

theorem tail (h : KeepsApart (g :: gaps)) : KeepsApart gaps := by
  refine ⟨fun g' hg => h.separators g' (List.mem_cons_of_mem g hg), fun g' hg => ?_,
    fun g' hg => h.blank g' (List.mem_cons_of_mem g hg)⟩
  cases gaps with
  | nil => cases hg
  | cons g₁ gaps => exact h.inner g' (List.mem_cons_of_mem g hg)

/-- What follows a token begins with a blank. -/
theorem beginsBlank (h : KeepsApart (g :: gaps)) (lexemes : List String)
    (hlen : lexemes.length = gaps.length) :
    BeginsBlank (g ++ (List.zipWith (fun l g => l.toList ++ g) lexemes gaps).flatten) := by
  intro c hc
  cases g with
  | cons d g =>
    cases hc
    exact h.blank (c :: g) List.mem_cons_self c rfl
  | nil =>
    cases gaps with
    | nil =>
      cases List.length_eq_zero_iff.mp hlen
      cases hc
    | cons g₁ gaps => exact absurd rfl (h.inner [] (by simp))

end KeepsApart

/-- Tokens are found again, wherever they are set. -/
theorem found_setOut (hf : SkipsGaps f) (toks : List Token) (gaps : List (List Char))
    (hlen : toks.length = gaps.length) (hg : KeepsApart gaps)
    (hstand : ∀ t ∈ toks, ∃ rest, StandsBefore t.piece rest) (p : Position) :
    ∃ ys : List (Located Piece), ys.map Located.cause = toks.map Token.piece ∧
      found f p (List.zipWith (fun l g => l.toList ++ g) (toks.map Token.lexeme) gaps).flatten =
        ys.filterMap f := by
  induction toks generalizing gaps p with
  | nil => exact ⟨[], rfl, found_nil p⟩
  | cons t toks ih =>
    cases gaps with
    | nil => cases hlen
    | cons g gaps =>
      have hlen' : toks.length = gaps.length := Nat.succ.inj hlen
      obtain ⟨rest, hrest⟩ := hstand t List.mem_cons_self
      have hblank := hg.beginsBlank (toks.map Token.lexeme) (by simpa using hlen')
      obtain ⟨c, cs, htext, hfirst⟩ := (hrest.apart hblank).first
      obtain ⟨ys, hys, hfound⟩ := ih gaps hlen' hg.tail
        (fun u hu => hstand u (List.mem_cons_of_mem t hu)) ((p.after t.lexeme.toList).after g)
      refine ⟨⟨t.piece, p⟩ :: ys, by rw [List.map_cons, hys]; rfl, ?_⟩
      have hj : (List.zipWith (fun l g => l.toList ++ g) ((t :: toks).map Token.lexeme)
          (g :: gaps)).flatten = c :: cs := by
        rw [← htext]
        simp
      have hcons : (⟨t.piece, p⟩ :: ys).filterMap f =
          (f ⟨t.piece, p⟩).toList ++ ys.filterMap f := by
        rw [List.filterMap_cons]
        cases f ⟨t.piece, p⟩ <;> rfl
      have hsep := hg.separators g List.mem_cons_self
      rw [hj, found_cons, hfirst, found_separator hf hsep, hfound, hcons]
      rfl

end

/-- Every piece of a text stands somewhere. -/
theorem pieces_stand {cs : List Char} {x : Piece} (hx : x ∈ pieces cs) :
    ∃ rest, StandsBefore x rest := by
  fun_induction pieces cs with
  | case1 => cases hx
  | case2 c cs ih =>
    rcases List.mem_cons.mp hx with rfl | hx
    · exact ⟨_, Piece.first_stands c cs⟩
    · exact ih hx

theorem tokenAt_piece {y : Located Piece} {t : Token} (h : Piece.tokenAt y = some t) :
    t.piece = y.cause := by
  obtain ⟨⟨text, content⟩, q⟩ := y
  cases content with
  | token k =>
    cases h
    simp [Token.piece]
  | gap | fault => cases h

/-- Pieces that are tokens hold no fault and give those tokens, with their own places. -/
theorem filterMap_pieces {ys : List (Located Piece)} {toks : List Token}
    (h : ys.map Located.cause = toks.map Token.piece) :
    ys.filterMap Piece.faultAt = [] ∧
      (ys.filterMap Piece.tokenAt).map Token.kind = toks.map Token.kind ∧
      (ys.filterMap Piece.tokenAt).map Token.lexeme = toks.map Token.lexeme := by
  induction ys generalizing toks with
  | nil =>
    cases toks with
    | nil => exact ⟨rfl, rfl, rfl⟩
    | cons => cases h
  | cons y ys ih =>
    cases toks with
    | nil => cases h
    | cons t toks =>
      obtain ⟨x, q⟩ := y
      obtain ⟨rfl, htail⟩ := List.cons.inj h
      obtain ⟨hfault, hkind, hlexeme⟩ := ih htail
      have htoken : Piece.tokenAt ⟨t.piece, q⟩ = some ⟨t.kind, t.lexeme, q⟩ := by
        simp [Piece.tokenAt, Token.piece]
      rw [List.filterMap_cons_some htoken]
      exact ⟨hfault, by rw [List.map_cons, hkind]; rfl, by rw [List.map_cons, hlexeme]; rfl⟩

/-- Text set out anew has the same tokens, in other places. -/
theorem tokensOf_setOut {source : String} {toks : List Token} (h : tokensOf source = .ok toks)
    {first : List Char} {gaps : List (List Char)} (hfirst : Separator first)
    (hlen : toks.dropLast.length = gaps.length) (hg : KeepsApart gaps) :
    ∃ toks', tokensOf (String.ofList (setOut first (toks.dropLast.map Token.lexeme) gaps)) =
        .ok toks' ∧
      toks'.map Token.kind = toks.map Token.kind ∧
      toks'.map Token.lexeme = toks.map Token.lexeme := by
  obtain ⟨-, htoks⟩ := tokensOf_eq_ok.mp h
  have hdrop : toks.dropLast = found Piece.tokenAt .start source.toList := by
    rw [htoks, List.dropLast_concat]
  have hsplit : toks = toks.dropLast ++ [.finish (Position.start.after source.toList)] := by
    rw [hdrop, ← htoks]
  have hstand : ∀ t ∈ toks.dropLast, ∃ rest, StandsBefore t.piece rest := by
    intro t ht
    rw [hdrop] at ht
    obtain ⟨y, hy, hyt⟩ := List.mem_filterMap.mp ht
    have hx : y.cause ∈ pieces source.toList := by
      rw [← placed_causes .start (pieces source.toList)]
      exact List.mem_map.mpr ⟨y, hy, rfl⟩
    rw [tokenAt_piece hyt]
    exact pieces_stand hx
  generalize hinit : toks.dropLast = init at hlen hsplit hstand
  have hread : ∀ {α : Type} {f : Located Piece → Option α}, SkipsGaps f →
      ∃ ys : List (Located Piece), ys.map Located.cause = init.map Token.piece ∧
        found f .start (setOut first (init.map Token.lexeme) gaps) = ys.filterMap f := by
    intro α f hf
    rw [setOut, found_separator hf hfirst]
    exact found_setOut hf init gaps hlen hg hstand _
  obtain ⟨xs, hxs, hfaults⟩ := hread skipsGaps_faultAt
  obtain ⟨ys, hys, htokens⟩ := hread skipsGaps_tokenAt
  obtain ⟨-, hkind, hlexeme⟩ := filterMap_pieces hys
  refine ⟨_, tokensOf_eq_ok.mpr ⟨?_, rfl⟩, ?_, ?_⟩
  · rw [String.toList_ofList, Clean.iff_found .start, hfaults]
    exact (filterMap_pieces hxs).1
  · rw [String.toList_ofList, htokens, List.map_append, hkind, hsplit, List.map_append]
    rfl
  · rw [String.toList_ofList, htokens, List.map_append, hlexeme, hsplit, List.map_append]
    rfl

end MeowScript
