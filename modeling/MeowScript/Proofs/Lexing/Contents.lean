import Mathlib.Data.List.Basic
import MeowScript.Token.Scan

/-!
# What a piece of a text can be

All that the first character of a piece and the text behind it leave possible, in one place: what is
known of a token is read off here.

Results:
* `first_reads`: one case for each kind of piece.
* `tokenAt_kind`, `tokensOf_kind`: so every token but the end of the input is one of them.
-/
namespace MeowScript

namespace Piece

theorem isWordChar_of_isWordStart {c : Char} (h : isWordStart c = true) :
    isWordChar c = true := by
  simp only [isWordStart, isWordChar, Char.isAlphanum, Bool.or_eq_true] at h ⊢
  exact h.imp_left .inl

/-- No word begins with a digit. -/
theorem isWordStart_of_isDigit {c : Char} (h : c.isDigit = true) : isWordStart c = false := by
  have hbounds : 48 ≤ c.toNat ∧ c.toNat ≤ 57 := by
    simpa [Char.isDigit, UInt32.le_iff_toNat_le] using h
  have hupper : c.isUpper = false := by
    show decide (65 ≤ c.val ∧ c.val ≤ 90) = false
    simp [UInt32.le_iff_toNat_le]
    omega
  have hlower : c.isLower = false := by
    show (decide (97 ≤ c.val) && decide (c.val ≤ 122)) = false
    simp [UInt32.le_iff_toNat_le]
    omega
  have hunderscore : c ≠ '_' := by
    rintro rfl
    exact absurd hbounds (by decide)
  show (c.isUpper || c.isLower || c == '_') = false
  rw [hupper, hlower, beq_eq_false_iff_ne.mpr hunderscore]
  rfl

/-- What the piece that begins with `c` and goes on into `cs` can be. -/
inductive Reads : Char → List Char → Content → Prop where
  | gap {c : Char} {cs : List Char} : Reads c cs .gap
  | keyword {c : Char} {cs : List Char} (k : Keyword) : Reads c cs (.token (.keyword k))
  | identifier {c : Char} {cs : List Char} : isWordStart c = true →
      Reads c cs (.token (.identifier (String.ofList (c :: cs.takeWhile isWordChar))))
  | integer {c : Char} {cs : List Char} (n : Nat) : Reads c cs (.token (.integer n))
  | outOfRange {c : Char} {cs : List Char} : Reads c cs (.fault .integerOutOfRange)
  | float {c : Char} {cs : List Char} (n : Nat) (e : Int) :
      Reads c cs (.token (.float (.ofDecimal false n e)))
  | string {c : Char} {cs : List Char} (s : String) : Reads c cs (.token (.string s))
  | openString {c : Char} {cs : List Char} : Reads c cs (.fault .unterminatedString)
  | openComment {cs : List Char} : comment? cs = none →
      Reads '/' ('*' :: cs) (.fault .unterminatedComment)
  | operator {c : Char} {cs : List Char} (o : BinaryOp) : Reads c cs (.token (.operator o))
  | bang {c : Char} {cs : List Char} : Reads c cs (.token .bang)
  | delimiter {c : Char} {cs : List Char} (d : Delimiter) : Reads c cs (.token (.delimiter d))
  | invalid {c : Char} {cs : List Char} : Reads c cs (.fault (.invalidCharacter c))

variable (c : Char) (cs : List Char)

theorem word_reads (hc : isWordStart c = true) : Reads c cs (word c cs).1.content := by
  simp only [word, wordKind]
  split
  · exact .keyword _
  · exact .identifier hc

theorem number_reads : Reads c cs (number c cs).1.content := by
  have hinteger : ∀ digits, Reads c cs (integerContent digits) := by
    intro digits
    unfold integerContent
    dsimp only
    split
    · exact .integer _
    · exact .outOfRange
  unfold number
  split
  · split
    · exact .float _ _
    · exact hinteger _
  · exact hinteger _

theorem string_reads : Reads c cs (string cs).1.content := by
  unfold string
  dsimp only
  split
  · exact .string _
  · exact .openString

theorem slash_reads : Reads '/' cs (slash cs).1.content := by
  fun_cases slash cs with
  | case1 cs => exact .gap
  | case2 cs body rest h => exact .gap
  | case3 cs h => exact .openComment h
  | case4 cs => exact .operator _

theorem mark_reads : Reads c cs (mark c cs).1.content := by
  fun_cases mark c cs <;>
    first
      | exact .operator _
      | exact .delimiter _
      | exact .bang
      | exact .invalid

theorem first_reads : Reads c cs (first c cs).1.content := by
  unfold first
  split
  · exact .gap
  split
  · next hc => exact word_reads c cs hc
  split
  · exact number_reads c cs
  split
  · exact string_reads c cs
  split
  · next hc => exact hc ▸ slash_reads cs
  · exact mark_reads c cs

end Piece

theorem pieces_reads {cs : List Char} {x : Piece} (hx : x ∈ pieces cs) :
    ∃ c ds, Piece.Reads c ds x.content := by
  fun_induction pieces cs with
  | case1 => cases hx
  | case2 c cs ih =>
    rcases List.mem_cons.mp hx with rfl | hx
    · exact ⟨c, cs, Piece.first_reads c cs⟩
    · exact ih hx

theorem placed_causes (p : Position) (xs : List Piece) :
    (placed p xs).map Located.cause = xs := by
  induction xs generalizing p with
  | nil => rfl
  | cons x xs ih => simp [placed, ih]

theorem tokenAt_kind {p : Position} {cs : List Char} {t : Token}
    (ht : t ∈ (placed p (pieces cs)).filterMap Piece.tokenAt) :
    ∃ c ds, Piece.Reads c ds (.token t.kind) := by
  obtain ⟨y, hy, hyt⟩ := List.mem_filterMap.mp ht
  have hx : y.cause ∈ pieces cs := by
    rw [← placed_causes p (pieces cs)]
    exact List.mem_map.mpr ⟨y, hy, rfl⟩
  obtain ⟨c, ds, hreads⟩ := pieces_reads hx
  unfold Piece.tokenAt at hyt
  split at hyt
  · next k hk =>
    cases hyt
    exact ⟨c, ds, hk ▸ hreads⟩
  · cases hyt

/-- Every token is a piece of the text or the end of the input. -/
theorem tokensOf_kind {source : String} {toks : List Token} (h : tokensOf source = .ok toks)
    {t : Token} (ht : t ∈ toks) :
    t.kind = .endOfInput ∨ ∃ c cs, Piece.Reads c cs (.token t.kind) := by
  unfold tokensOf at h
  dsimp only at h
  split at h
  · cases h
    rcases List.mem_append.mp ht with ht | ht
    · exact .inr (tokenAt_kind ht)
    · exact .inl (by rw [List.mem_singleton.mp ht]; rfl)
  · cases h

end MeowScript
