/-!
# Characters given by ranges

A property of characters is a list of ranges of code points, in order. All such lists here follow
Unicode 17.0.

Results:
* `inRanges_head`: what lies in the first range is found there.
-/
namespace MeowScript.Text

/-- Whether `n` lies in one of the ranges, which are in order. -/
def inRanges : List (Nat × Nat) → Nat → Bool
  | [], _ => false
  | (low, high) :: rest, n => if n < low then false else n ≤ high || inRanges rest n

theorem inRanges_head {low high n : Nat} (rest : List (Nat × Nat)) (hl : low ≤ n) (hh : n ≤ high) :
    inRanges ((low, high) :: rest) n = true := by
  simp [inRanges, Nat.not_lt.2 hl, hh]

/-- Below the first range there is nothing. -/
theorem inRanges_of_lt {low high n : Nat} (rest : List (Nat × Nat)) (h : n < low) :
    inRanges ((low, high) :: rest) n = false := by
  simp [inRanges, h]

end MeowScript.Text
