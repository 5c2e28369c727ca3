/-!
# Binary floating point numbers of 64 bits

A finite number is `± significand · 2 ^ (scale - 1074)`, with one significand and scale for each.
Reading a fraction rounds to the nearest such number, a tie to the even significand; what is too
large becomes infinite.

Results:
* `roundDiv_le`, `le_roundDiv`: a rounded quotient differs from the quotient by half at most.
-/
namespace MeowScript

/-- `a / b` rounded to the nearest whole number, a tie to the even one. -/
def roundDiv (a b : Nat) : Nat :=
  let q := a / b
  let r := a % b
  if 2 * r < b ∨ 2 * r = b ∧ q % 2 = 0 then q else q + 1

theorem roundDiv_le (a b : Nat) : 2 * (roundDiv a b * b) ≤ 2 * a + b := by
  have h := Nat.div_add_mod a b
  have hm : a / b * b = b * (a / b) := Nat.mul_comm _ _
  simp only [roundDiv]
  split
  · omega
  · rw [Nat.add_mul, Nat.one_mul]; omega

theorem le_roundDiv (a b : Nat) (hb : 0 < b) : 2 * a ≤ 2 * (roundDiv a b * b) + b := by
  have h := Nat.div_add_mod a b
  have hm : a / b * b = b * (a / b) := Nat.mul_comm _ _
  have := Nat.mod_lt a hb
  simp only [roundDiv]
  split
  · omega
  · rw [Nat.add_mul, Nat.one_mul]; omega

/-- The significand has 53 bits, and fewer only at the least scale. -/
def Canonical (significand scale : Nat) : Prop :=
  significand < Nat.pow 2 53 ∧ scale ≤ 2045 ∧ (scale = 0 ∨ Nat.pow 2 52 ≤ significand)

instance (m q : Nat) : Decidable (Canonical m q) :=
  inferInstanceAs (Decidable (m < Nat.pow 2 53 ∧ q ≤ 2045 ∧ (q = 0 ∨ Nat.pow 2 52 ≤ m)))

inductive Binary64 where
  | nan
  | infinity (negative : Bool)
  | finite (negative : Bool) (significand scale : Nat) (canonical : Canonical significand scale)
  deriving DecidableEq, Repr

namespace Binary64

/-- The number with this significand and scale, or infinity where there is none. -/
def pack (negative : Bool) (significand scale : Nat) : Binary64 :=
  if h : Canonical significand scale then finite negative significand scale h
  else infinity negative

/-- The number nearest to `± a / b`. -/
def ofFraction (negative : Bool) (a b : Nat) : Binary64 :=
  let steps := a * Nat.pow 2 1074
  let scale := (steps / b).log2 - 52
  let m := roundDiv steps (b * Nat.pow 2 scale)
  if m = Nat.pow 2 53 then pack negative (Nat.pow 2 52) (scale + 1) else pack negative m scale

/-- The number nearest to `± coefficient · 10 ^ exponent`. -/
def ofDecimal (negative : Bool) (coefficient : Nat) (exponent : Int) : Binary64 :=
  if 0 ≤ exponent then ofFraction negative (coefficient * Nat.pow 10 exponent.toNat) 1
  else ofFraction negative coefficient (Nat.pow 10 (-exponent).toNat)

end Binary64
end MeowScript
