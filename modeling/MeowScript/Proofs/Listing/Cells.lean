import MeowScript.Proofs.Lexing.Rules

/-!
# Rows of cells

A line of a listing is a row of cells with one blank between two. In a cell there is no blank, or it
ends in a string, and then the closing quote tells where it ends, whatever is in the string. So a
line can be taken apart in one way only.

Results:
* `Unescapes.end_unique`: a string ends at one place and stands for one value.
* `Cell.append_inj`: a cell ends at one place.
* `row_inj`: a row tells its cells.
* `feed_notMem_row`, `row_head`: no row has a line feed in it or begins with a blank.
-/
namespace MeowScript

/-- Whether a character can stand in a cell outside a string. -/
def isPlain (c : Char) : Bool := c != ' ' && c != '"' && c != '\n'

theorem isPlain_of {p : Char → Bool} (hblank : p ' ' = false) (hquote : p '"' = false)
    (hfeed : p '\n' = false) {c : Char} (hc : p c = true) : isPlain c = true := by
  simp only [isPlain, Bool.and_eq_true, bne_iff_ne]
  refine ⟨⟨?_, ?_⟩, ?_⟩ <;> (rintro rfl; simp_all)

theorem isPlain_of_isDigit {c : Char} (hc : c.isDigit = true) : isPlain c = true :=
  isPlain_of rfl rfl rfl hc

theorem isPlain_of_isWordChar {c : Char} (hc : Piece.isWordChar c = true) : isPlain c = true :=
  isPlain_of rfl rfl rfl hc

/-! ## Strings -/

theorem Unescapes.end_unique {raw raw' value value' s t : List Char} (h : Unescapes raw value)
    (h' : Unescapes raw' value') (he : raw ++ '"' :: s = raw' ++ '"' :: t) :
    raw = raw' ∧ value = value' ∧ s = t := by
  have hbody := h.stringBody s
  rw [he, h'.stringBody t] at hbody
  injection hbody with htext hvalue hrest
  exact ⟨(List.append_cancel_right htext).symm, (Option.some.inj hvalue).symm, hrest.symm⟩

theorem Unescapes.feed_notMem {raw value : List Char} (h : Unescapes raw value) : '\n' ∉ raw := by
  induction h with
  | nil => exact List.not_mem_nil
  | plain _ _ hfeed _ ih => simp [ih, hfeed.symm]
  | escape hfeed _ _ ih => simp [ih, hfeed.symm]

/-! ## Cells -/

/-- What can stand between two blanks of a line: something without blanks, or a string with or
without something before it. -/
inductive Cell : List Char → Prop where
  | plain {cs : List Char} : cs ≠ [] → (∀ c ∈ cs, isPlain c = true) → Cell cs
  | quoted {front raw value : List Char} : (∀ c ∈ front, isPlain c = true) →
      Unescapes raw value → Cell (front ++ '"' :: raw ++ ['"'])

namespace Cell

variable {a b s t : List Char}

theorem string {raw value : List Char} (h : Unescapes raw value) : Cell ('"' :: raw ++ ['"']) :=
  @quoted [] raw value (List.forall_mem_nil _) h

theorem cons (h : Cell a) {c : Char} (hc : isPlain c = true) : Cell (c :: a) := by
  cases h with
  | plain _ hcs => exact .plain (List.cons_ne_nil _ _) (List.forall_mem_cons.mpr ⟨hc, hcs⟩)
  | quoted hfront hraw => exact .quoted (List.forall_mem_cons.mpr ⟨hc, hfront⟩) hraw

/-- Behind a cell the line ends or goes on with a blank. -/
theorem append_inj (ha : Cell a) (hb : Cell b) (hs : Stops (· != ' ') s) (ht : Stops (· != ' ') t)
    (h : a ++ s = b ++ t) : a = b ∧ s = t := by
  have hquote : ∀ cs, Stops isPlain ('"' :: cs) := by
    rintro cs c ⟨⟩
    rfl
  have hstops : ∀ {cs}, Stops (· != ' ') cs → Stops isPlain cs := by
    intro cs hcs c hc
    rw [show c = ' ' by simpa using hcs c hc]
    rfl
  cases ha with
  | plain _ hplain =>
    cases hb with
    | plain _ hplain' => exact append_inj_of_stops hplain hplain' (hstops hs) (hstops ht) h
    | quoted hfront hraw =>
      rw [List.append_assoc, List.append_assoc] at h
      obtain ⟨-, rfl⟩ := append_inj_of_stops hplain hfront (hstops hs) (hquote _) h
      cases hs _ rfl
  | quoted hfront hraw =>
    rw [List.append_assoc, List.append_assoc] at h
    cases hb with
    | plain _ hplain' =>
      obtain ⟨-, rfl⟩ := append_inj_of_stops hfront hplain' (hquote _) (hstops ht) h
      cases ht _ rfl
    | quoted hfront' hraw' =>
      rw [List.append_assoc, List.append_assoc] at h
      obtain ⟨rfl, he⟩ := append_inj_of_stops hfront hfront' (hquote _) (hquote _) h
      obtain ⟨rfl, -, rfl⟩ := hraw.end_unique hraw' (List.cons.inj he).2
      exact ⟨rfl, rfl⟩

theorem ne_nil (h : Cell a) : a ≠ [] := by
  cases h with
  | plain hne _ => exact hne
  | quoted _ _ => simp

theorem head (h : Cell a) : a.head? ≠ some ' ' := by
  cases h with
  | plain _ hcs =>
    intro hhead
    cases hcs _ (List.mem_of_mem_head? hhead)
  | @quoted front raw _ hfront _ =>
    cases front with
    | nil => simp
    | cons c front =>
      rintro ⟨⟩
      cases hfront ' ' List.mem_cons_self

theorem feed_notMem (h : Cell a) : '\n' ∉ a := by
  cases h with
  | plain _ hcs =>
    intro hmem
    cases hcs _ hmem
  | quoted hfront hraw =>
    have hfeed := hraw.feed_notMem
    simp only [List.mem_append, List.mem_cons, not_or]
    refine ⟨⟨fun hmem => ?_, by decide, hfeed⟩, by decide⟩
    cases hfront _ hmem

end Cell

/-! ## Rows -/

/-- Cells with one blank between two. -/
def row : List String → List Char
  | [] => []
  | cell :: cells => cell.toList ++ cells.flatMap fun cell => ' ' :: cell.toList

theorem stops_cells (cells : List String) :
    Stops (· != ' ') (cells.flatMap fun cell => ' ' :: cell.toList) := by
  cases cells with
  | nil => rintro c ⟨⟩
  | cons cell cells =>
    rintro c ⟨⟩
    rfl

/-- The cells behind the first one. -/
theorem cells_inj {as bs : List String} (ha : ∀ cell ∈ as, Cell cell.toList)
    (hb : ∀ cell ∈ bs, Cell cell.toList)
    (h : as.flatMap (fun cell => ' ' :: cell.toList) = bs.flatMap fun cell => ' ' :: cell.toList) :
    as = bs := by
  induction as generalizing bs with
  | nil =>
    cases bs with
    | nil => rfl
    | cons b bs => cases h
  | cons a as ih =>
    cases bs with
    | nil => cases h
    | cons b bs =>
      rw [List.forall_mem_cons] at ha hb
      have hcells := (List.cons.inj h).2
      obtain ⟨hcell, hrest⟩ := ha.1.append_inj hb.1 (stops_cells as) (stops_cells bs) hcells
      rw [String.toList_inj.mp hcell, ih ha.2 hb.2 hrest]

theorem row_inj {as bs : List String} (ha : ∀ cell ∈ as, Cell cell.toList)
    (hb : ∀ cell ∈ bs, Cell cell.toList) (h : row as = row bs) : as = bs := by
  cases as with
  | nil =>
    cases bs with
    | nil => rfl
    | cons b bs =>
      exact absurd (List.append_eq_nil_iff.mp h.symm).1 (hb b List.mem_cons_self).ne_nil
  | cons a as =>
    cases bs with
    | nil => exact absurd (List.append_eq_nil_iff.mp h).1 (ha a List.mem_cons_self).ne_nil
    | cons b bs =>
      rw [List.forall_mem_cons] at ha hb
      obtain ⟨hcell, hrest⟩ := ha.1.append_inj hb.1 (stops_cells as) (stops_cells bs) h
      rw [String.toList_inj.mp hcell, cells_inj ha.2 hb.2 hrest]

theorem row_head {cells : List String} (h : ∀ cell ∈ cells, Cell cell.toList) :
    (row cells).head? ≠ some ' ' := by
  cases cells with
  | nil => nofun
  | cons cell cells =>
    have hcell := h cell List.mem_cons_self
    rw [row, List.head?_append_of_ne_nil _ hcell.ne_nil]
    exact hcell.head

theorem feed_notMem_row {cells : List String} (h : ∀ cell ∈ cells, Cell cell.toList) :
    '\n' ∉ row cells := by
  cases cells with
  | nil => exact List.not_mem_nil
  | cons cell cells =>
    rw [List.forall_mem_cons] at h
    simp only [row, List.mem_append, List.mem_flatMap, List.mem_cons, not_or, not_exists, not_and]
    exact ⟨h.1.feed_notMem, fun other hother => ⟨by decide, (h.2 other hother).feed_notMem⟩⟩

end MeowScript
