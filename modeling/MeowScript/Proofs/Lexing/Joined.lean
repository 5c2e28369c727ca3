import MeowScript.Proofs.Lexing.Exact

/-!
# Texts joined by a line feed

No piece of a text without faults goes on behind a line feed, and no piece behind it depends on what
stands before. So two such texts, joined, have the tokens of both, those of the second further down;
and the faults of the second stay its faults.

Results:
* `Position.after_down`, `found_down`: a place, and what is found in a text, further down.
* `tokensOf_joined`: the tokens or the faults of two texts with a line feed between them.
-/
namespace MeowScript

/-! ## Further down -/

namespace Position

/-- The same place `n` lines down. -/
def down (n : Nat) (p : Position) : Position := ⟨n + p.line, p.column⟩

theorem after_down (n : Nat) (p : Position) (cs : List Char) :
    (p.down n).after cs = (p.after cs).down n := by
  induction cs generalizing p with
  | nil => rfl
  | cons c cs ih =>
    have hnext : (p.down n).next c = (p.next c).down n := by
      unfold next
      split <;> rfl
    rw [after_cons, after_cons, hnext, ih]

/-- Behind a text and a line feed a new line begins, below all lines of the text. -/
theorem start_after_feed (cs : List Char) :
    (start.after cs).next '\n' = start.down (cs.count '\n' + 1) := by
  rw [start_after, next, if_pos rfl]
  rfl

end Position

/-- The token in its place `n` lines down. -/
def Token.down (n : Nat) (t : Token) : Token := { t with position := t.position.down n }

def Located.down {α : Type} (n : Nat) (x : Located α) : Located α :=
  { x with position := x.position.down n }

theorem placed_down (n : Nat) (p : Position) (xs : List Piece) :
    placed (p.down n) xs = (placed p xs).map (Located.down n) := by
  induction xs generalizing p with
  | nil => rfl
  | cons x xs ih => rw [placed, placed, List.map_cons, Position.after_down, ih]; rfl

theorem tokenAt_down (n : Nat) (x : Located Piece) :
    Piece.tokenAt (x.down n) = (Piece.tokenAt x).map (Token.down n) := by
  obtain ⟨⟨text, content⟩, p⟩ := x
  cases content <;> rfl

theorem faultAt_down (n : Nat) (x : Located Piece) :
    Piece.faultAt (x.down n) = (Piece.faultAt x).map (Located.down n) := by
  obtain ⟨⟨text, content⟩, p⟩ := x
  cases content <;> rfl

/-- What is found in a text further down is found in it alone, and moved. -/
theorem found_down {α : Type} {f : Located Piece → Option α} {move : α → α} {n : Nat}
    (hf : ∀ x, f (x.down n) = (f x).map move) (p : Position) (cs : List Char) :
    found f (p.down n) cs = (found f p cs).map move := by
  rw [found, found, placed_down, List.filterMap_map, List.map_filterMap]
  exact congrArg (List.filterMap · _) (funext hf)

/-! ## Two texts -/

/-- **Main.** A text that has tokens is followed by a line feed and any other text. If the other has
tokens, those of the whole are the tokens of the first without the end of the input and then those
of the other; otherwise its faults are the faults of the other. What comes from the other stands
further down by the line feeds of the first and one more, in the same column. -/
theorem tokensOf_joined {a : String} {toks : List Token} (h : tokensOf a = .ok toks) (b : String) :
    ∃ before, toks = before ++ [.finish (Position.start.after a.toList)] ∧
      tokensOf (a ++ "\n" ++ b) = match tokensOf b with
        | .ok more => .ok (before ++ more.map (Token.down (a.toList.count '\n' + 1)))
        | .error faults => .error (faults.map (Located.down (a.toList.count '\n' + 1))) := by
  obtain ⟨hclean, htoks⟩ := tokensOf_eq_ok.mp h
  refine ⟨_, htoks, ?_⟩
  have hsource : (a ++ "\n" ++ b).toList = a.toList ++ '\n' :: b.toList := by simp
  have hfaults : found Piece.faultAt .start (a ++ "\n" ++ b).toList =
      (found Piece.faultAt .start b.toList).map (Located.down (a.toList.count '\n' + 1)) := by
    rw [hsource, found_join skipsGaps_faultAt _ _ _ hclean, (Clean.iff_found .start).mp hclean,
      List.nil_append, Position.start_after_feed, found_down (faultAt_down _)]
  have htokens : found Piece.tokenAt .start (a ++ "\n" ++ b).toList =
      found Piece.tokenAt .start a.toList ++
        (found Piece.tokenAt .start b.toList).map (Token.down (a.toList.count '\n' + 1)) := by
    rw [hsource, found_join skipsGaps_tokenAt _ _ _ hclean, Position.start_after_feed,
      found_down (tokenAt_down _)]
  have hend : Position.start.after (a ++ "\n" ++ b).toList =
      (Position.start.after b.toList).down (a.toList.count '\n' + 1) := by
    rw [hsource, Position.after_append, Position.after_cons, Position.start_after_feed,
      Position.after_down]
  rw [tokensOf, tokensOf, ← found.eq_1, ← found.eq_1, ← found.eq_1, ← found.eq_1, hfaults, htokens,
    hend]
  cases found Piece.faultAt .start b.toList with
  | nil => simp [Token.down, Token.finish]
  | cons f fs => rfl

/-- A comment over two lines, and an operator that would go on with what the next line begins
with. -/
theorem tokensOf_joined_less :
    tokensOf "/* 1\n2 */ x <" =
      .ok [⟨.identifier "x", "x", ⟨2, 6⟩⟩, ⟨.operator .lt, "<", ⟨2, 8⟩⟩, .finish ⟨2, 9⟩] ∧
    tokensOf "/* 1\n2 */ x <\n= \"" =
      .error [⟨.invalidCharacter '=', ⟨3, 1⟩⟩, ⟨.unterminatedString, ⟨3, 3⟩⟩] := by
  have hfirst : tokensOf "/* 1\n2 */ x <" =
      .ok [⟨.identifier "x", "x", ⟨2, 6⟩⟩, ⟨.operator .lt, "<", ⟨2, 8⟩⟩, .finish ⟨2, 9⟩] := by
    decide +kernel
  have hsecond : tokensOf "= \"" =
      .error [⟨.invalidCharacter '=', ⟨1, 1⟩⟩, ⟨.unterminatedString, ⟨1, 3⟩⟩] := by
    decide +kernel
  obtain ⟨before, -, hjoined⟩ := tokensOf_joined hfirst "= \""
  rw [hsecond] at hjoined
  exact ⟨hfirst, hjoined⟩

end MeowScript
