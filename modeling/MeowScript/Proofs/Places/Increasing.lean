import MeowScript.Proofs.Places.Rejection

/-!
# What is found in a text stands in reading order

Walking over a text only leads further on, and no piece of it is empty. So the pieces of a text
begin at different places, each behind the one before, and whatever is picked out of them comes in
the same order; the end of the text is behind all of it.

Results:
* `Position.lt_after`: behind a text that is not empty.
* `found_increasing`, `found_lt_after`: what is found in a text, and the end of the text.
* `tokensOf_increasing`, `tokensOf_faults_increasing`: the tokens of a text, or its faults.
-/
namespace MeowScript

/-! ## Reading order -/

namespace Position

theorem lt_iff {p q : Position} :
    p < q ↔ p.line < q.line ∨ p.line = q.line ∧ p.column < q.column := Iff.rfl

/-- Reading order compares any two places. -/
instance : LinearOrder Position where
  le p q := p.line < q.line ∨ p.line = q.line ∧ p.column ≤ q.column
  le_refl p := .inr ⟨rfl, Nat.le_refl _⟩
  le_trans p q r h h' := by omega
  lt_iff_le_not_ge p q := by rw [lt_iff]; omega
  le_antisymm p q h h' := by
    obtain ⟨l, c⟩ := p
    obtain ⟨l', c'⟩ := q
    simp only [mk.injEq] at h h' ⊢
    omega
  le_total p q := by omega
  toDecidableLE p q :=
    inferInstanceAs (Decidable (p.line < q.line ∨ p.line = q.line ∧ p.column ≤ q.column))
  toDecidableLT := inferInstance
  toDecidableEq := inferInstance

theorem lt_next (p : Position) (c : Char) : p < p.next c := by
  unfold next
  split
  · exact .inl (Nat.lt_succ_self _)
  · exact .inr ⟨rfl, Nat.lt_succ_self _⟩

theorem le_after (p : Position) (cs : List Char) : p ≤ p.after cs := by
  induction cs generalizing p with
  | nil => exact le_refl p
  | cons c cs ih => exact (p.lt_next c).le.trans (ih (p.next c))

theorem lt_after (p : Position) {cs : List Char} (h : cs ≠ []) : p < p.after cs := by
  obtain ⟨c, cs, rfl⟩ := List.exists_cons_of_ne_nil h
  exact (p.lt_next c).trans_le ((p.next c).le_after cs)

end Position

/-! ## Pieces -/

theorem text_ne_nil_of_mem_pieces {cs : List Char} {x : Piece} (hx : x ∈ pieces cs) :
    x.text ≠ [] := by
  fun_induction pieces cs with
  | case1 => cases hx
  | case2 c cs ih =>
    rcases List.mem_cons.mp hx with rfl | hx
    · exact Piece.first_text_ne_nil c cs
    · exact ih hx

/-- Pieces that are not empty begin one behind the other, and before the end of the last. -/
theorem placed_increasing {xs : List Piece} (hx : ∀ x ∈ xs, x.text ≠ []) (p : Position) :
    ((placed p xs).map Located.position).Pairwise (· < ·) ∧
      ∀ y ∈ placed p xs, p ≤ y.position ∧ y.position < p.after (xs.flatMap Piece.text) := by
  induction xs generalizing p with
  | nil => exact ⟨.nil, List.forall_mem_nil _⟩
  | cons x xs ih =>
    obtain ⟨hne, hrest⟩ := List.forall_mem_cons.mp hx
    obtain ⟨hincreasing, hbetween⟩ := ih hrest (p.after x.text)
    have hlt : p < p.after x.text := p.lt_after hne
    rw [List.flatMap_cons, Position.after_append, placed, List.map_cons, List.pairwise_cons,
      List.forall_mem_map, List.forall_mem_cons]
    refine ⟨⟨fun y hy => ?_, hincreasing⟩, ⟨le_refl p, ?_⟩, fun y hy => ?_⟩
    · exact hlt.trans_le (hbetween y hy).1
    · exact hlt.trans_le (Position.le_after _ _)
    · exact ⟨hlt.le.trans (hbetween y hy).1, (hbetween y hy).2⟩

/-- The pieces of a text, and where it ends. -/
theorem pieces_increasing (p : Position) (cs : List Char) :
    ((placed p (pieces cs)).map Located.position).Pairwise (· < ·) ∧
      ∀ y ∈ placed p (pieces cs), y.position < p.after cs := by
  obtain ⟨hincreasing, hbetween⟩ :=
    placed_increasing (fun x (hx : x ∈ pieces cs) => text_ne_nil_of_mem_pieces hx) p
  rw [pieces_join] at hbetween
  exact ⟨hincreasing, fun y hy => (hbetween y hy).2⟩

/-! ## What is found -/

section
variable {α : Type} {f : Located Piece → Option α} {place : α → Position}
  (hf : ∀ y a, f y = some a → place a = y.position)
include hf

theorem found_increasing (p : Position) (cs : List Char) :
    ((found f p cs).map place).Pairwise (· < ·) := by
  have hincreasing := (pieces_increasing p cs).1
  rw [List.pairwise_map] at hincreasing ⊢
  refine List.Pairwise.filterMap f (fun y z hlt a ha b hb => ?_) hincreasing
  rw [hf y a ha, hf z b hb]
  exact hlt

theorem found_lt_after (p : Position) (cs : List Char) :
    ∀ a ∈ found f p cs, place a < p.after cs := by
  intro a ha
  obtain ⟨y, hy, ha⟩ := List.mem_filterMap.mp ha
  rw [hf y a ha]
  exact (pieces_increasing p cs).2 y hy

end

/-! ## Tokens and faults -/

theorem tokensOf_increasing {source : String} {toks : List Token}
    (h : tokensOf source = .ok toks) : (toks.map Token.position).Pairwise (· < ·) := by
  obtain ⟨-, rfl⟩ := tokensOf_eq_ok.mp h
  rw [List.map_append, List.map_singleton, List.pairwise_append]
  refine ⟨found_increasing (fun _ _ => tokenAt_position) _ _, List.pairwise_singleton _ _, ?_⟩
  rw [List.forall_mem_map]
  intro t ht q hq
  rw [List.mem_singleton.mp hq]
  exact found_lt_after (fun _ _ => tokenAt_position) _ _ t ht

theorem tokensOf_faults_increasing {source : String} {faults : List (Located LexicalFault)}
    (h : tokensOf source = .error faults) :
    (faults.map Located.position).Pairwise (· < ·) := by
  unfold tokensOf at h
  dsimp only at h
  split at h
  · cases h
  · cases h
    exact found_increasing (fun _ _ => faultAt_position) _ _

end MeowScript
