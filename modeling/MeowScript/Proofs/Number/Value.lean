import Mathlib.Algebra.Order.Field.Rat
import Mathlib.Data.List.TakeWhile
import Mathlib.Tactic.NormNum
import Mathlib.Tactic.Ring
import MeowScript.Number.Decimal

/-!
# What a written number stands for

A written number can be read: its digits stand for a whole number, each digit behind the point
divides it by ten, and an exponent moves the point. Read so, a decimal stands for its value,
whichever of the two forms it is written in. So decimals of different values are written
differently.

Results:
* `significant_value`: the digits that are written tell the value.
* `positional_form`, `scientific_form`: what the two forms consist of.
* `numberOf_layOut`: a decimal as it is written stands for its value.
* `layOut_chars`, `layOut_marked`, `layOut_digit`: which characters a decimal is written with.
-/
namespace MeowScript.Decimal

def value (d : Decimal) : ℚ := d.coefficient * 10 ^ d.exponent

/-! ## Reading -/

/-- What digits stand for, with a point between them or without. -/
def pointed (cs : List Char) : ℚ :=
  let fraction := (cs.dropWhile (· != '.')).tail
  Nat.ofDigitChars 10 (cs.takeWhile (· != '.') ++ fraction) 0 * 10 ^ (-fraction.length : ℤ)

def signed : List Char → ℤ
  | '-' :: ds => -Nat.ofDigitChars 10 ds 0
  | ds => Nat.ofDigitChars 10 ds 0

/-- What a written number stands for, with an exponent or without. -/
def numberOf (cs : List Char) : ℚ :=
  pointed (cs.takeWhile (· != 'e')) * 10 ^ signed (cs.dropWhile (· != 'e')).tail

/-- All characters are digits. -/
def AllDigits (cs : List Char) : Prop := ∀ c ∈ cs, c.isDigit = true

namespace AllDigits

variable {a b : List Char}

theorem append (ha : AllDigits a) (hb : AllDigits b) : AllDigits (a ++ b) :=
  List.forall_mem_append.mpr ⟨ha, hb⟩

theorem zeros (n : Nat) : AllDigits (List.replicate n '0') := by
  intro c hc
  rw [List.eq_of_mem_replicate hc]
  rfl

theorem toDigits (n : Nat) : AllDigits (Nat.toDigits 10 n) :=
  fun _ hc => Nat.isDigit_of_mem_toDigits (by decide) (by decide) hc

theorem ne (ha : AllDigits a) {c : Char} (hc : c.isDigit = false) : ∀ d ∈ a, (d != c) = true := by
  intro d hd
  rw [bne_iff_ne]
  rintro rfl
  rw [ha d hd] at hc
  cases hc

end AllDigits

section
variable {p : Char → Bool} {c : Char} {a : List Char}

/-- Reading up to a mark. -/
theorem takeWhile_mark (ha : ∀ d ∈ a, p d = true) (hc : p c = false) (b : List Char) :
    (a ++ c :: b).takeWhile p = a ∧ (a ++ c :: b).dropWhile p = c :: b := by
  rw [List.takeWhile_append_of_pos ha, List.dropWhile_append_of_pos ha]
  simp [hc]

theorem takeWhile_all (ha : ∀ d ∈ a, p d = true) : a.takeWhile p = a ∧ a.dropWhile p = [] :=
  ⟨List.takeWhile_eq_self_iff.mpr ha, List.dropWhile_eq_nil_iff.mpr ha⟩

end

theorem pointed_point {whole : List Char} (h : AllDigits whole) (fraction : List Char) :
    pointed (whole ++ '.' :: fraction) =
      Nat.ofDigitChars 10 (whole ++ fraction) 0 * 10 ^ (-fraction.length : ℤ) := by
  obtain ⟨htake, hdrop⟩ := takeWhile_mark (h.ne rfl) (bne_self_eq_false '.') fraction
  rw [pointed, htake, hdrop, List.tail_cons]

theorem pointed_whole {whole : List Char} (h : AllDigits whole) :
    pointed whole = Nat.ofDigitChars 10 whole 0 := by
  obtain ⟨htake, hdrop⟩ := takeWhile_all (h.ne (c := '.') rfl)
  simp [pointed, htake, hdrop]

theorem signed_of_allDigits {ds : List Char} (h : AllDigits ds) :
    signed ds = Nat.ofDigitChars 10 ds 0 := by
  unfold signed
  split
  · next ds =>
    have hdigit := h '-' List.mem_cons_self
    cases hdigit
  · rfl

/-- A whole number is written in its digits, with a sign if it is negative. -/
theorem toString_form (e : ℤ) : ∃ n : Nat,
    e = n ∧ (toString e).toList = Nat.toDigits 10 n ∨
    e = -n ∧ (toString e).toList = '-' :: Nat.toDigits 10 n := by
  cases e with
  | ofNat n => exact ⟨n, .inl ⟨rfl, by simp [toString, Int.repr, Nat.repr]⟩⟩
  | negSucc n => exact ⟨n + 1, .inr ⟨rfl, by simp [toString, Int.repr, Nat.repr]⟩⟩

theorem signed_toString (e : ℤ) : signed (toString e).toList = e := by
  obtain ⟨n, ⟨rfl, hchars⟩ | ⟨rfl, hchars⟩⟩ := toString_form e
  · rw [hchars, signed_of_allDigits (.toDigits n), Nat.ofDigitChars_ten_toDigits]
  · rw [hchars, signed, Nat.ofDigitChars_ten_toDigits]

theorem toString_chars (e : ℤ) : ∀ c ∈ (toString e).toList, c.isDigit = true ∨ c = '-' := by
  intro c hc
  obtain ⟨n, ⟨-, hchars⟩ | ⟨-, hchars⟩⟩ := toString_form e
  · rw [hchars] at hc
    exact .inl (AllDigits.toDigits n c hc)
  · rw [hchars] at hc
    rcases List.mem_cons.mp hc with rfl | hc
    · exact .inr rfl
    · exact .inl (AllDigits.toDigits n c hc)

theorem numberOf_exponent {mantissa : List Char} (h : ∀ c ∈ mantissa, (c != 'e') = true) (e : ℤ) :
    numberOf (mantissa ++ 'e' :: (toString e).toList) = pointed mantissa * 10 ^ e := by
  obtain ⟨htake, hdrop⟩ := takeWhile_mark h (bne_self_eq_false 'e') (toString e).toList
  rw [numberOf, htake, hdrop, List.tail_cons, signed_toString]

theorem numberOf_pointed {cs : List Char} (h : ∀ c ∈ cs, (c != 'e') = true) :
    numberOf cs = pointed cs := by
  obtain ⟨htake, hdrop⟩ := takeWhile_all h
  simp [numberOf, htake, hdrop, signed]

/-! ## The digits that are written -/

/-- Zeros behind digits count powers of ten. -/
theorem ofDigitChars_zeros (digits : List Char) (n : Nat) :
    Nat.ofDigitChars 10 (digits ++ List.replicate n '0') 0 =
      10 ^ n * Nat.ofDigitChars 10 digits 0 := by
  rw [Nat.ofDigitChars_append, Nat.ofDigitChars_replicate_zero]

/-- Only zeros are left out. -/
theorem significant_append (d : Decimal) :
    ∃ n, Nat.toDigits 10 d.coefficient = d.significant ++ List.replicate n '0' := by
  have hsplit := List.takeWhile_append_dropWhile (p := (· == '0'))
    (l := (Nat.toDigits 10 d.coefficient).reverse)
  have hzeros : (Nat.toDigits 10 d.coefficient).reverse.takeWhile (· == '0') =
      List.replicate ((Nat.toDigits 10 d.coefficient).reverse.takeWhile (· == '0')).length '0' := by
    refine List.eq_replicate_iff.mpr ⟨rfl, fun c hc => ?_⟩
    simpa using List.mem_takeWhile_imp hc
  rw [hzeros] at hsplit
  have hdigits := congrArg List.reverse hsplit
  rw [List.reverse_append, List.reverse_reverse, List.reverse_replicate] at hdigits
  unfold significant
  split
  · next hnone =>
    -- nothing but zeros is zero
    rw [hnone, List.nil_append] at hdigits
    have hzero : d.coefficient = 0 := by
      have hvalue := congrArg (Nat.ofDigitChars 10 · 0) hdigits
      simpa using hvalue.symm
    exact ⟨0, by rw [hzero]; rfl⟩
  · exact ⟨_, hdigits.symm⟩

theorem significant_allDigits (d : Decimal) : AllDigits d.significant := by
  obtain ⟨n, h⟩ := d.significant_append
  intro c hc
  exact AllDigits.toDigits d.coefficient c (h ▸ List.mem_append_left _ hc)

theorem significant_value (d : Decimal) :
    d.value = Nat.ofDigitChars 10 d.significant 0 *
      (10 : ℚ) ^ (d.leading + 1 - d.significant.length) := by
  obtain ⟨n, h⟩ := d.significant_append
  have hcoefficient : d.coefficient = 10 ^ n * Nat.ofDigitChars 10 d.significant 0 := by
    rw [← ofDigitChars_zeros, ← h, Nat.ofDigitChars_ten_toDigits]
  have hleading : d.leading + 1 - d.significant.length = d.exponent + n := by
    rw [leading, h, List.length_append, List.length_replicate]
    push_cast
    ring
  rw [value, hleading, zpow_add₀ (by norm_num), zpow_natCast]
  nth_rewrite 1 [hcoefficient]
  push_cast
  ring

/-! ## The two forms -/

theorem positional_form {digits : List Char} (h : AllDigits digits) (e : ℤ) :
    ∃ whole fraction, positional digits e = whole ++ '.' :: fraction ∧
      AllDigits whole ∧ AllDigits fraction ∧
      (Nat.ofDigitChars 10 (whole ++ fraction) 0 : ℚ) * 10 ^ (-fraction.length : ℤ) =
        Nat.ofDigitChars 10 digits 0 * (10 : ℚ) ^ (e + 1 - digits.length) := by
  unfold positional
  split
  · next he =>
    refine ⟨['0'], List.replicate (-e - 1).toNat '0' ++ digits, rfl, .zeros 1,
      (AllDigits.zeros _).append h, ?_⟩
    have hdigits : Nat.ofDigitChars 10 (['0'] ++ (List.replicate (-e - 1).toNat '0' ++ digits)) 0 =
        Nat.ofDigitChars 10 digits 0 := by
      rw [← List.append_assoc, Nat.ofDigitChars_append, List.singleton_append,
        ← List.replicate_succ, Nat.ofDigitChars_replicate_zero, Nat.mul_zero]
    rw [hdigits, List.length_append, List.length_replicate]
    congr 2
    omega
  · next he =>
    dsimp only
    split
    · next hnone =>
      have hlen : digits.length ≤ e.toNat + 1 := List.drop_eq_nil_iff.mp hnone
      rw [List.take_of_length_le (by simp; omega)]
      refine ⟨digits ++ List.replicate (e.toNat + 1 - digits.length) '0', ['0'], rfl,
        h.append (.zeros _), .zeros 1, ?_⟩
      have hzeros : digits ++ List.replicate (e.toNat + 1 - digits.length) '0' ++ ['0'] =
          digits ++ List.replicate (e.toNat + 1 - digits.length + 1) '0' := by
        rw [List.append_assoc, List.replicate_succ']
      rw [hzeros, ofDigitChars_zeros, Nat.cast_mul, mul_comm (Nat.cast _), mul_assoc, Nat.cast_pow,
        ← zpow_natCast, Nat.cast_ofNat, ← zpow_add₀ (by norm_num)]
      congr 2
      simp
      omega
    · next hsome =>
      have hlen : e.toNat + 1 < digits.length := by
        by_contra hle
        exact hsome (List.drop_eq_nil_iff.mpr (by omega))
      refine ⟨digits.take (e.toNat + 1), digits.drop (e.toNat + 1), ?_,
        fun c hc => h c (List.mem_of_mem_take hc), fun c hc => h c (List.mem_of_mem_drop hc), ?_⟩
      · rw [List.take_append_of_le_length hlen.le]
      · rw [List.take_append_drop, List.length_drop]
        congr 2
        omega

theorem scientific_form {digits : List Char} (h : AllDigits digits) (hne : digits ≠ []) (e : ℤ) :
    ∃ mantissa, scientific digits e = mantissa ++ 'e' :: (toString e).toList ∧
      (∀ c ∈ mantissa, c.isDigit = true ∨ c = '.') ∧
      pointed mantissa = Nat.ofDigitChars 10 digits 0 * (10 : ℚ) ^ (1 - digits.length : ℤ) := by
  unfold scientific
  refine ⟨_, rfl, ?_⟩
  split
  · next first second rest =>
    have hfirst : AllDigits [first] := by
      intro c hc
      rw [List.mem_singleton.mp hc]
      exact h first List.mem_cons_self
    constructor
    · intro c hc
      rcases List.mem_cons.mp hc with rfl | hc
      · exact .inl (h _ List.mem_cons_self)
      · rcases List.mem_cons.mp hc with rfl | hc
        · exact .inr rfl
        · exact .inl (h c (List.mem_cons_of_mem _ hc))
    · have hpointed := pointed_point hfirst (second :: rest)
      rw [List.singleton_append, List.singleton_append] at hpointed
      have hlen : (1 - (first :: second :: rest).length : ℤ) = -(second :: rest).length := by
        rw [List.length_cons]
        push_cast
        ring
      rw [hpointed, hlen]
  · next hshort =>
    refine ⟨fun c hc => .inl (h c hc), ?_⟩
    have hlen : digits.length = 1 := by
      match digits, hne, hshort with
      | [c], _, _ => rfl
      | c :: d :: rest, _, hshort => exact absurd rfl (hshort c d rest)
    rw [pointed_whole h, hlen]
    simp

theorem numberOf_layOut (d : Decimal) (l : Layout) : numberOf (d.layOut l) = d.value := by
  have hdigits := d.significant_allDigits
  rw [d.significant_value]
  unfold layOut
  split
  · obtain ⟨whole, fraction, hform, hwhole, hfraction, hvalue⟩ :=
      positional_form hdigits d.leading
    have hplain : ∀ c ∈ whole ++ '.' :: fraction, (c != 'e') = true := by
      refine List.forall_mem_append.mpr ⟨hwhole.ne rfl, List.forall_mem_cons.mpr ⟨rfl, ?_⟩⟩
      exact hfraction.ne rfl
    rw [hform, numberOf_pointed hplain, pointed_point hwhole, hvalue]
  · obtain ⟨mantissa, hform, hchars, hvalue⟩ :=
      scientific_form hdigits d.significant_ne_nil d.leading
    have hplain : ∀ c ∈ mantissa, (c != 'e') = true := by
      intro c hc
      rw [bne_iff_ne]
      rintro rfl
      exact absurd (hchars _ hc) (by decide)
    rw [hform, numberOf_exponent hplain, hvalue, mul_assoc, ← zpow_add₀ (by norm_num)]
    congr 2
    ring

/-! ## Characters -/

theorem layOut_chars (d : Decimal) (l : Layout) :
    ∀ c ∈ d.layOut l, c.isDigit = true ∨ c ∈ ['.', 'e', '-'] := by
  have hdigits := d.significant_allDigits
  unfold layOut
  split
  · obtain ⟨whole, fraction, hform, hwhole, hfraction, -⟩ := positional_form hdigits d.leading
    rw [hform]
    refine List.forall_mem_append.mpr ⟨fun c hc => .inl (hwhole c hc), ?_⟩
    exact List.forall_mem_cons.mpr ⟨.inr (by decide), fun c hc => .inl (hfraction c hc)⟩
  · obtain ⟨mantissa, hform, hchars, -⟩ :=
      scientific_form hdigits d.significant_ne_nil d.leading
    rw [hform]
    refine List.forall_mem_append.mpr ⟨fun c hc => ?_, List.forall_mem_cons.mpr
      ⟨.inr (by decide), fun c hc => ?_⟩⟩
    · exact (hchars c hc).imp_right (by rintro rfl; decide)
    · exact (toString_chars d.leading c hc).imp_right (by rintro rfl; decide)

/-- No whole number is written so. -/
theorem layOut_marked (d : Decimal) (l : Layout) : '.' ∈ d.layOut l ∨ 'e' ∈ d.layOut l := by
  have hdigits := d.significant_allDigits
  unfold layOut
  split
  · obtain ⟨whole, fraction, hform, -⟩ := positional_form hdigits d.leading
    exact .inl (by simp [hform])
  · obtain ⟨mantissa, hform, -⟩ := scientific_form hdigits d.significant_ne_nil d.leading
    exact .inr (by simp [hform])

theorem layOut_digit (d : Decimal) (l : Layout) :
    ∃ c cs, d.layOut l = c :: cs ∧ c.isDigit = true := by
  obtain ⟨c, cs, hd⟩ := List.exists_cons_of_ne_nil d.significant_ne_nil
  have hc := d.significant_allDigits c (hd ▸ List.mem_cons_self)
  unfold layOut
  split
  · rw [hd]
    unfold positional
    split
    · exact ⟨'0', _, rfl, rfl⟩
    · simp only [List.cons_append, List.take_succ_cons]
      split
      · exact ⟨c, _, rfl, hc⟩
      · exact ⟨c, _, rfl, hc⟩
  · rw [hd]
    unfold scientific
    split
    · next h =>
      cases h
      exact ⟨c, _, rfl, hc⟩
    · exact ⟨c, _, rfl, hc⟩

end MeowScript.Decimal
