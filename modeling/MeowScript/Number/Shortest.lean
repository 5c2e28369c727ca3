import MeowScript.Number.Binary64
import MeowScript.Number.Decimal

/-!
# The shortest decimal that reads back

Every finite number owns an interval of fractions that round to it. On coarser and then finer
decimal grids the two neighbours of the number are tried; the first grid that has one inside the
interval gives the digits.

Results:
* `onGrid_inside`: what a grid gives lies inside the interval.
-/
namespace MeowScript

/-- Bounds of the fractions that round to `value`, all in units of `2 ^ -1076`. -/
structure Interval where
  low : Nat
  value : Nat
  high : Nat
  closed : Bool

namespace Interval

/-- The unit is a fourth of the least distance of two numbers, so that the bounds are whole. -/
def unit : Nat := Nat.pow 2 1076

/-- Below a power of two the numbers lie twice as close. The bounds round to the number when its
significand is even. -/
def around (significand scale : Nat) : Interval where
  low :=
    (4 * significand - if significand = Nat.pow 2 52 ∧ scale ≠ 0 then 1 else 2) * Nat.pow 2 scale
  value := 4 * significand * Nat.pow 2 scale
  high := (4 * significand + 2) * Nat.pow 2 scale
  closed := significand % 2 == 0

/-- Whether `a / b` units lie in the interval. -/
def Inside (i : Interval) (a b : Nat) : Prop :=
  if i.closed then i.low * b ≤ a ∧ a ≤ i.high * b else i.low * b < a ∧ a < i.high * b

instance (i : Interval) (a b : Nat) : Decidable (i.Inside a b) := by
  unfold Inside; infer_instance

/-- The power of ten of the first digit of `a / b`. -/
def decade (a b : Nat) : Int :=
  if b ≤ a then (Nat.toDigits 10 (a / b)).length - 1
  else
    let n := (Nat.toDigits 10 (b / a)).length
    if a * Nat.pow 10 (n - 1) = b then 1 - n else -n

/-- The multiple of `10 ^ e` inside the interval that is nearest to the value, the larger of two. -/
def onGrid (i : Interval) (e : Int) : Option Nat :=
  let times := Nat.pow 10 (-e).toNat
  let step := unit * Nat.pow 10 e.toNat
  let k := i.value * times / step
  let r := i.value * times % step
  match decide (i.Inside (k * step) times), decide (i.Inside ((k + 1) * step) times) with
  | true, true => if 2 * r < step then some k else some (k + 1)
  | true, false => some k
  | false, true => some (k + 1)
  | false, false => none

theorem onGrid_inside {i : Interval} {e : Int} {k : Nat} (h : i.onGrid e = some k) :
    i.Inside (k * (unit * Nat.pow 10 e.toNat)) (Nat.pow 10 (-e).toNat) := by
  simp only [onGrid] at h
  split at h
  · next hd hu =>
    split at h <;> cases h
    · simpa using hd
    · simpa using hu
  · next hd _ => cases h; simpa using hd
  · next _ hu => cases h; simpa using hu
  · cases h

/-- Seventeen digits always suffice. -/
def shortest (i : Interval) : Decimal :=
  let e := decade i.value unit
  ((List.range 17).findSome? fun (n : Nat) => (i.onGrid (e - n)).map (⟨·, e - n⟩)).getD default

end Interval

namespace Binary64

def sign (negative : Bool) : List Char := if negative then ['-'] else []

def chars : Binary64 → List Char
  | nan => ['N', 'a', 'N']
  | infinity negative => sign negative ++ ['i', 'n', 'f']
  | finite negative m q _ =>
    sign negative ++
      (if m = 0 then ⟨0, 0⟩ else (Interval.around m q).shortest).layOut Decimal.Layout.plain

/-- The shortest decimal that reads back as the number, always with a point or an exponent. -/
def text (x : Binary64) : String := String.ofList x.chars

end Binary64
end MeowScript
