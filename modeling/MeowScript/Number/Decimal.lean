/-!
# Decimal numbers and their layout

A decimal is `coefficient · 10 ^ exponent`. `Layout` says which of them are written out and which
with an exponent.

Results:
* `significant_ne_nil`: there is always a digit to write.
* `layOut_positional`, `layOut_scientific`: the two forms a number can take.
-/
namespace MeowScript

structure Decimal where
  coefficient : Nat
  exponent : Int
  deriving DecidableEq, Repr, Inhabited

namespace Decimal

/-- The digits of the coefficient up to the last that is not zero, at least one. -/
def significant (d : Decimal) : List Char :=
  match ((Nat.toDigits 10 d.coefficient).reverse.dropWhile (· == '0')).reverse with
  | [] => ['0']
  | digits => digits

theorem significant_ne_nil (d : Decimal) : d.significant ≠ [] := by
  unfold significant
  split <;> simp_all

/-- The power of ten that the first digit counts. -/
def leading (d : Decimal) : Int := d.exponent + (Nat.toDigits 10 d.coefficient).length - 1

/-- The first digits from `lowest` to `highest` are written out, others get an exponent. -/
structure Layout where
  lowest : Int
  highest : Int

/-- Numbers are written out from a ten thousandth to below ten million billion. -/
def Layout.plain : Layout := ⟨-4, 15⟩

/-- Digits of which the first counts `10 ^ e`, written out with a point and a digit on both sides
of it. -/
def positional (digits : List Char) (e : Int) : List Char :=
  if e < 0 then '0' :: '.' :: List.replicate (-e - 1).toNat '0' ++ digits
  else
    let whole := (digits ++ List.replicate (e.toNat + 1 - digits.length) '0').take (e.toNat + 1)
    match digits.drop (e.toNat + 1) with
    | [] => whole ++ ['.', '0']
    | fraction => whole ++ '.' :: fraction

/-- Digits of which the first counts `10 ^ e`, with the exponent named and a point only if digits
follow it. -/
def scientific (digits : List Char) (e : Int) : List Char :=
  (match digits with
    | first :: second :: rest => first :: '.' :: second :: rest
    | short => short) ++ 'e' :: (toString e).toList

def layOut (l : Layout) (d : Decimal) : List Char :=
  if l.lowest ≤ d.leading ∧ d.leading ≤ l.highest then positional d.significant d.leading
  else scientific d.significant d.leading

theorem layOut_positional {l : Layout} {d : Decimal} (hl : l.lowest ≤ d.leading)
    (hh : d.leading ≤ l.highest) : d.layOut l = positional d.significant d.leading :=
  if_pos ⟨hl, hh⟩

theorem layOut_scientific {l : Layout} {d : Decimal}
    (h : d.leading < l.lowest ∨ l.highest < d.leading) :
    d.layOut l = scientific d.significant d.leading :=
  if_neg fun ⟨hl, hh⟩ => by omega

end Decimal
end MeowScript
