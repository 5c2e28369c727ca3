import Mathlib.Algebra.Order.Field.Power
import Mathlib.Tactic.FieldSimp
import Mathlib.Tactic.Linarith
import MeowScript.Number.Shortest
import MeowScript.Proofs.Number.Value

/-!
# Different numbers are written differently

The fractions that round to a number lie between those that round to its neighbours, and a number is
written as one that rounds to it. Seventeen digits are always enough to find one, because the steps
of that grid are smaller than the distance of two numbers. So what is written tells the number.

Results:
* `around_before`, `around_unique`: no fraction rounds to two numbers.
* `le_decade`: the first digit of a fraction.
* `onGrid_of_fine`: a grid that is fine enough has a point inside an interval.
* `shortest_holds`: what is written for a number rounds to it.
* `Binary64.text_injective`: the text of a number tells which it is.
-/
namespace MeowScript

namespace Interval

variable {i j : Interval} {x : ℚ}

/-! ## Fractions inside an interval -/

/-- Whether a fraction, in the units of the bounds, lies in the interval. -/
def Holds (i : Interval) (x : ℚ) : Prop :=
  if i.closed then i.low ≤ x ∧ x ≤ i.high else i.low < x ∧ x < i.high

theorem holds_div {a b : Nat} (hb : 0 < b) (h : i.Inside a b) : i.Holds (a / b) := by
  have hb' : (0 : ℚ) < b := by exact_mod_cast hb
  unfold Inside at h
  unfold Holds
  split at h
  · next hclosed =>
    rw [if_pos hclosed, le_div_iff₀ hb', div_le_iff₀ hb']
    exact_mod_cast h
  · next hclosed =>
    rw [if_neg hclosed, lt_div_iff₀ hb', div_lt_iff₀ hb']
    exact_mod_cast h

/-- The bounds, whether they belong to the interval or not. -/
theorem Holds.bounds (h : i.Holds x) : i.low ≤ x ∧ x ≤ i.high := by
  unfold Holds at h
  split at h
  · exact h
  · exact ⟨h.1.le, h.2.le⟩

theorem Holds.strict (h : i.Holds x) (hopen : i.closed = false) : i.low < x ∧ x < i.high := by
  rwa [Holds, if_neg (by simp [hopen])] at h

/-- One interval ends before the other begins, or where it begins if the bound is not in both. -/
def Before (i j : Interval) : Prop :=
  i.high < j.low ∨ i.high = j.low ∧ (i.closed = false ∨ j.closed = false)

theorem Before.apart (h : i.Before j) (hi : i.Holds x) (hj : j.Holds x) : False := by
  rcases h with hlt | ⟨heq, hopen⟩
  · have hlt : (i.high : ℚ) < j.low := by exact_mod_cast hlt
    linarith [hi.bounds.2, hj.bounds.1]
  · have heq : (i.high : ℚ) = j.low := by exact_mod_cast heq
    rcases hopen with hopen | hopen
    · linarith [(hi.strict hopen).2, hj.bounds.1]
    · linarith [hi.bounds.2, (hj.strict hopen).1]

/-! ## Intervals of different numbers -/

/-- What the lower bound of a number stays below it, in units of its scale. -/
def below (m q : Nat) : Nat := if m = Nat.pow 2 52 ∧ q ≠ 0 then 1 else 2

theorem around_eq (m q : Nat) : around m q =
    ⟨(4 * m - below m q) * 2 ^ q, 4 * m * 2 ^ q, (4 * m + 2) * 2 ^ q, m % 2 == 0⟩ := rfl

theorem around_before {m m' q q' : Nat} (h : Canonical m q) (h' : Canonical m' q')
    (hlt : q < q' ∨ q = q' ∧ m < m') : (around m q).Before (around m' q') := by
  have hpos : 0 < 2 ^ q := Nat.two_pow_pos q
  have hm : m < 2 ^ 53 := h.1
  simp only [around_eq, Before, below, Nat.pow_eq]
  rcases hlt with hlt | ⟨rfl, hlt⟩
  · -- from a scale to a larger one the distance doubles at least
    obtain ⟨k, rfl⟩ := Nat.exists_eq_add_of_lt hlt
    have hleast : 2 ^ 52 ≤ m' := h'.2.2.resolve_left (by omega)
    have hscale : 2 ^ q * 2 ≤ 2 ^ (q + k + 1) := by
      rw [← Nat.pow_succ]
      exact Nat.pow_le_pow_right (by decide) (by omega)
    have hlow : (2 ^ 54 - 1) * (2 ^ q * 2) ≤
        (4 * m' - if m' = 2 ^ 52 ∧ q + k + 1 ≠ 0 then 1 else 2) * 2 ^ (q + k + 1) := by
      refine Nat.mul_le_mul ?_ hscale
      split <;> omega
    generalize (4 * m' - if m' = 2 ^ 52 ∧ q + k + 1 ≠ 0 then 1 else 2) * 2 ^ (q + k + 1) = low
      at hlow
    rcases Nat.mod_two_eq_zero_or_one m with heven | hodd
    · have hhigh : (4 * m + 2) * 2 ^ q < (2 ^ 55 - 2) * 2 ^ q :=
        Nat.mul_lt_mul_of_pos_right (by omega) hpos
      exact .inl (by omega)
    · have hhigh : (4 * m + 2) * 2 ^ q ≤ (2 ^ 55 - 2) * 2 ^ q :=
        Nat.mul_le_mul_right _ (by omega)
      rcases Nat.lt_or_eq_of_le (show (4 * m + 2) * 2 ^ q ≤ low by omega) with hbefore | hmeet
      · exact .inl hbefore
      · exact .inr ⟨hmeet, .inl (by rw [hodd]; rfl)⟩
  · generalize hlow : (4 * m' - if m' = 2 ^ 52 ∧ q ≠ 0 then 1 else 2) = low
    have hle : 4 * m + 2 ≤ low ∧ (4 * m + 2 = low → m' = m + 1) := by
      split at hlow <;> omega
    rcases Nat.lt_or_eq_of_le hle.1 with hbefore | hmeet
    · exact .inl (Nat.mul_lt_mul_of_pos_right hbefore hpos)
    · -- of two neighbours one is odd, and its interval is open
      refine .inr ⟨by rw [hmeet], ?_⟩
      rw [hle.2 hmeet]
      rcases Nat.mod_two_eq_zero_or_one m with heven | hodd
      · exact .inr (beq_eq_false_iff_ne.mpr (by omega))
      · exact .inl (beq_eq_false_iff_ne.mpr (by omega))

theorem around_unique {m m' q q' : Nat} (h : Canonical m q) (h' : Canonical m' q')
    (hx : (around m q).Holds x) (hx' : (around m' q').Holds x) : m = m' ∧ q = q' := by
  rcases Nat.lt_trichotomy q q' with hlt | rfl | hgt
  · exact ((around_before h h' (.inl hlt)).apart hx hx').elim
  · rcases Nat.lt_trichotomy m m' with hlt | rfl | hgt
    · exact ((around_before h h' (.inr ⟨rfl, hlt⟩)).apart hx hx').elim
    · exact ⟨rfl, rfl⟩
    · exact ((around_before h' h (.inr ⟨rfl, hgt⟩)).apart hx' hx).elim
  · exact ((around_before h' h (.inl hgt)).apart hx' hx).elim

/-! ## A point of a grid -/

/-- The digits of a number say between which powers of ten it lies. -/
theorem length_toDigits_bounds {n : Nat} (hn : 0 < n) :
    10 ^ ((Nat.toDigits 10 n).length - 1) ≤ n ∧ n < 10 ^ (Nat.toDigits 10 n).length := by
  have hpos := Nat.length_toDigits_pos (b := 10) (n := n)
  refine ⟨?_, (Nat.length_toDigits_le_iff (by decide) hpos).mp le_rfl⟩
  by_contra hlt
  rcases Nat.eq_zero_or_pos ((Nat.toDigits 10 n).length - 1) with hzero | hmore
  · rw [hzero] at hlt
    omega
  · have hshorter := (Nat.length_toDigits_le_iff (by decide) hmore).mpr (Nat.not_le.mp hlt)
    omega

theorem le_decade {a b : Nat} (ha : 0 < a) (hb : 0 < b) : (10 : ℚ) ^ decade a b ≤ a / b := by
  have hb' : (0 : ℚ) < b := by exact_mod_cast hb
  -- below one, the power is a divisor
  have hbelow : ∀ k : Nat, b ≤ a * 10 ^ k → (10 : ℚ) ^ (-k : ℤ) ≤ a / b := by
    intro k hk
    rw [zpow_neg, zpow_natCast, le_div_iff₀ hb', inv_mul_le_iff₀ (by positivity), mul_comm]
    exact_mod_cast hk
  unfold decade
  split
  · next hle =>
    obtain ⟨hlow, -⟩ := length_toDigits_bounds (Nat.div_pos hle hb)
    have hpos := Nat.length_toDigits_pos (b := 10) (n := a / b)
    rw [← Nat.cast_pred hpos, zpow_natCast, le_div_iff₀ hb']
    exact_mod_cast (Nat.le_div_iff_mul_le hb).mp hlow
  · next hlt =>
    obtain ⟨-, hhigh⟩ := length_toDigits_bounds (Nat.div_pos (Nat.not_le.mp hlt).le ha)
    have hpos := Nat.length_toDigits_pos (b := 10) (n := b / a)
    dsimp only
    split
    · next hexact =>
      rw [← neg_sub, ← Nat.cast_pred hpos]
      exact hbelow _ hexact.ge
    · refine hbelow _ ?_
      rw [mul_comm]
      exact (Nat.div_lt_iff_lt_mul ha).mp hhigh |>.le

theorem unit_pos : 0 < unit := by
  unfold unit
  generalize 1076 = n
  exact Nat.two_pow_pos n

theorem inside_of_lt {a b : Nat} (hlow : i.low * b < a) (hhigh : a < i.high * b) :
    i.Inside a b := by
  unfold Inside
  split
  · exact ⟨hlow.le, hhigh.le⟩
  · exact ⟨hlow, hhigh⟩

/-- Near the value there is a point of every grid whose step is less than twice the distance from
the value to each bound. -/
theorem onGrid_of_fine {e : ℤ} {step times : Nat} (hstep : step = unit * 10 ^ e.toNat)
    (htimes : times = 10 ^ (-e).toNat)
    (hlow : step + 2 * (i.low * times) < 2 * (i.value * times))
    (hhigh : step + 2 * (i.value * times) < 2 * (i.high * times)) : ∃ k, i.onGrid e = some k := by
  have hpos : 0 < step := hstep ▸ Nat.mul_pos unit_pos (Nat.pow_pos (by decide))
  have hdivide := Nat.div_add_mod (i.value * times) step
  have hless := Nat.mod_lt (i.value * times) hpos
  unfold onGrid
  simp only [Nat.pow_eq, ← hstep, ← htimes]
  generalize i.value * times % step = r at hdivide hless
  generalize i.value * times / step = k at hdivide
  rw [mul_comm] at hdivide
  have hinside : i.Inside (k * step) times ∨ i.Inside ((k + 1) * step) times := by
    rw [Nat.add_mul, Nat.one_mul]
    -- the nearer of the two neighbours
    by_cases hhalf : 2 * r ≤ step
    · exact .inl (inside_of_lt (by omega) (by omega))
    · exact .inr (inside_of_lt (by omega) (by omega))
  split
  · exact ⟨_, (apply_ite some _ _ _).symm⟩
  · exact ⟨_, rfl⟩
  · exact ⟨_, rfl⟩
  · next hk hk' =>
    exact (hinside.elim (of_decide_eq_false hk) (of_decide_eq_false hk')).elim

/-! ## The shortest decimal -/

theorem zpow_toNat (e : ℤ) : (10 : ℚ) ^ e * 10 ^ (-e).toNat = 10 ^ e.toNat := by
  rw [← zpow_natCast, ← zpow_natCast, ← zpow_add₀ (by norm_num)]
  congr 1
  omega

section
variable {m q : Nat} (h : Canonical m q) (hm : 0 < m)
include h hm

/-- No bound is nearer to a number than its part in 2 ^ 54. -/
theorem around_wide : ∃ d, (around m q).low + d = (around m q).value ∧
    (around m q).value + d ≤ (around m q).high ∧ (around m q).value ≤ 2 ^ 54 * d := by
  have hlt : m < 2 ^ 53 := h.1
  have hbelow : below m q ≤ 2 ∧ below m q ≤ 4 * m ∧ 4 * m ≤ 2 ^ 54 * below m q := by
    unfold below
    rw [Nat.pow_eq]
    split <;> omega
  refine ⟨below m q * 2 ^ q, ?_, ?_, ?_⟩
  all_goals rw [around_eq]; dsimp only
  · rw [← Nat.add_mul, Nat.sub_add_cancel hbelow.2.1]
  · rw [← Nat.add_mul]
    exact Nat.mul_le_mul_right _ (by omega)
  · rw [← Nat.mul_assoc]
    exact Nat.mul_le_mul_right _ hbelow.2.2

/-- A grid of seventeen digits is fine enough. -/
theorem onGrid_seventeen :
    ∃ k, (around m q).onGrid (decade (around m q).value unit - 16) = some k := by
  obtain ⟨d, hlow, hhigh, hwide⟩ := around_wide h hm
  have hvalue : 0 < (around m q).value := by
    rw [around_eq]
    exact Nat.mul_pos (by omega) (Nat.two_pow_pos q)
  have hdecade := le_decade hvalue unit_pos
  have hunit : (0 : ℚ) < unit := by exact_mod_cast unit_pos
  rw [le_div_iff₀ hunit] at hdecade
  generalize decade (around m q).value unit = e at hdecade
  have hfine : (10 : ℚ) ^ (e - 16) * unit < 2 * d := by
    have hsixteen : (10 : ℚ) ^ (e - 16) * 10 ^ 16 = 10 ^ e := by
      rw [← zpow_natCast, ← zpow_add₀ (by norm_num)]
      norm_num
    have hd : (0 : ℚ) < d := by exact_mod_cast (show 0 < d by omega)
    have hwide : ((around m q).value : ℚ) ≤ 2 ^ 54 * d := by exact_mod_cast hwide
    rw [← hsixteen] at hdecade
    linarith
  have hstep : unit * 10 ^ (e - 16).toNat < 2 * (d * 10 ^ (-(e - 16)).toNat) := by
    have hscaled := mul_lt_mul_of_pos_right hfine
      (show (0 : ℚ) < 10 ^ (-(e - 16)).toNat by positivity)
    rw [mul_right_comm, zpow_toNat, mul_comm, mul_assoc] at hscaled
    exact_mod_cast hscaled
  refine onGrid_of_fine rfl rfl ?_ ?_
  · rw [← hlow, Nat.add_mul]
    omega
  · have hhigh := Nat.mul_le_mul_right (10 ^ (-(e - 16)).toNat) hhigh
    rw [Nat.add_mul] at hhigh
    omega

theorem shortest_found :
    ∃ k e, (around m q).shortest = ⟨k, e⟩ ∧ (around m q).onGrid e = some k := by
  obtain ⟨k, hk⟩ := onGrid_seventeen h hm
  unfold shortest
  dsimp only
  generalize decade (around m q).value unit = e at hk
  generalize hgrids : (fun n : Nat => ((around m q).onGrid (e - n)).map (Decimal.mk · (e - n))) = f
  cases hfound : (List.range 17).findSome? f with
  | none =>
    have hnone := List.findSome?_eq_none_iff.mp hfound 16 (by decide)
    subst hgrids
    simp [hk] at hnone
  | some d =>
    obtain ⟨n, -, hn⟩ := List.exists_of_findSome?_eq_some hfound
    subst hgrids
    obtain ⟨k', hk', rfl⟩ := Option.map_eq_some_iff.mp hn
    exact ⟨k', e - n, rfl, hk'⟩

theorem shortest_holds : (around m q).Holds ((around m q).shortest.value * unit) := by
  obtain ⟨k, e, hshortest, hgrid⟩ := shortest_found h hm
  have hholds := holds_div (Nat.pow_pos (by decide)) (onGrid_inside hgrid)
  have hvalue : (⟨k, e⟩ : Decimal).value * unit =
      (k * (unit * Nat.pow 10 e.toNat) : Nat) / (10 ^ (-e).toNat : Nat) := by
    rw [eq_div_iff (by positivity), Decimal.value, Nat.pow_eq]
    push_cast
    rw [← zpow_toNat e]
    ring
  rw [hshortest, hvalue]
  exact hholds

end

end Interval

/-! ## The text of a number -/

namespace Binary64

/-- The decimal that is written for a finite number, behind its sign. -/
def magnitude (m q : Nat) : Decimal := if m = 0 then ⟨0, 0⟩ else (Interval.around m q).shortest

theorem chars_finite (negative : Bool) {m q : Nat} (h : Canonical m q) :
    (finite negative m q h).chars =
      sign negative ++ (magnitude m q).layOut Decimal.Layout.plain := rfl

/-- Only zero is written as zero. -/
theorem magnitude_eq_zero {m q : Nat} (h : Canonical m q) : (magnitude m q).value = 0 ↔ m = 0 := by
  unfold magnitude
  split
  · next hm => simp [Decimal.value, hm]
  · next hm =>
    have hlow := (Interval.shortest_holds h (Nat.pos_of_ne_zero hm)).bounds.1
    have hpos : 0 < (Interval.around m q).low := by
      rw [Interval.around_eq]
      refine Nat.mul_pos ?_ (Nat.two_pow_pos q)
      unfold Interval.below
      split <;> omega
    have hpos : (0 : ℚ) < (Interval.around m q).low := by exact_mod_cast hpos
    refine iff_of_false (fun hzero => ?_) hm
    rw [hzero, zero_mul] at hlow
    linarith

theorem magnitude_unique {m m' q q' : Nat} (h : Canonical m q) (h' : Canonical m' q')
    (he : (magnitude m q).value = (magnitude m' q').value) : m = m' ∧ q = q' := by
  by_cases hm : m = 0
  · have hm' : m' = 0 := (magnitude_eq_zero h').mp (he ▸ (magnitude_eq_zero h).mpr hm)
    subst hm hm'
    exact ⟨rfl, (h.2.2.resolve_right (by decide)).trans (h'.2.2.resolve_right (by decide)).symm⟩
  · have hm' : m' ≠ 0 := fun hzero => hm ((magnitude_eq_zero h).mp
      (he.trans ((magnitude_eq_zero h').mpr hzero)))
    rw [magnitude, if_neg hm, magnitude, if_neg hm'] at he
    have hholds := Interval.shortest_holds h (Nat.pos_of_ne_zero hm)
    rw [he] at hholds
    exact Interval.around_unique h h' hholds
      (Interval.shortest_holds h' (Nat.pos_of_ne_zero hm'))

theorem sign_append_inj {n n' : Bool} {a b : List Char} (ha : a.head? ≠ some '-')
    (hb : b.head? ≠ some '-') (h : sign n ++ a = sign n' ++ b) : n = n' ∧ a = b := by
  cases n <;> cases n'
  · exact ⟨rfl, h⟩
  · exact absurd (congrArg List.head? h) ha
  · exact absurd (congrArg List.head? h).symm hb
  · exact ⟨rfl, (List.cons.inj h).2⟩

theorem layOut_head (d : Decimal) (l : Decimal.Layout) : (d.layOut l).head? ≠ some '-' := by
  obtain ⟨c, cs, hd, hc⟩ := d.layOut_digit l
  rw [hd]
  rintro ⟨⟩
  cases hc

/-- A finite number is not written like a word. -/
theorem finite_ne_word {negative n : Bool} {m q : Nat} {h : Canonical m q} {c : Char}
    {cs : List Char} (hc : c.isDigit = false) (hsign : c ≠ '-') :
    (finite negative m q h).chars ≠ sign n ++ c :: cs := by
  rw [chars_finite]
  intro he
  obtain ⟨-, hword⟩ := sign_append_inj (layOut_head _ _) (by simpa using hsign) he
  obtain ⟨d, ds, hd, hdigit⟩ := (magnitude m q).layOut_digit Decimal.Layout.plain
  rw [hword] at hd
  rw [(List.cons.inj hd).1, hdigit] at hc
  cases hc

theorem chars_injective {x y : Binary64} (h : x.chars = y.chars) : x = y := by
  cases x with
  | nan =>
    cases y with
    | nan => rfl
    | infinity n => cases n <;> exact absurd h (by decide)
    | finite n m q hc => exact absurd h.symm (finite_ne_word (n := false) rfl (by decide))
  | infinity n =>
    cases y with
    | nan => cases n <;> exact absurd h (by decide)
    | infinity n' => rw [(sign_append_inj (by decide) (by decide) h).1]
    | finite n' m q hc => exact absurd h.symm (finite_ne_word rfl (by decide))
  | finite n m q hc =>
    cases y with
    | nan => exact absurd h (finite_ne_word (n := false) rfl (by decide))
    | infinity n' => exact absurd h (finite_ne_word rfl (by decide))
    | finite n' m' q' hc' =>
      obtain ⟨rfl, hmagnitude⟩ := sign_append_inj (layOut_head _ _) (layOut_head _ _) h
      have hvalue := congrArg Decimal.numberOf hmagnitude
      rw [Decimal.numberOf_layOut, Decimal.numberOf_layOut] at hvalue
      obtain ⟨rfl, rfl⟩ := magnitude_unique hc hc' hvalue
      rfl

theorem text_injective {x y : Binary64} (h : x.text = y.text) : x = y :=
  chars_injective (String.ofList_injective h)

end Binary64
end MeowScript
