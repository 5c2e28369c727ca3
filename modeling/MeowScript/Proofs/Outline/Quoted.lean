import MeowScript.Proofs.Listing.Cells
import MeowScript.Text.Quoted

/-!
# Quoted text is one cell and tells the text

A backslash begins an escape, and an escape is a letter or a code point in braces. So quoted text
can be read back, and the quote that closes it is the first one that stands for itself.

Results:
* `toDigits_injective`: code points are told from their hexadecimal digits.
* `escape_append_inj`: an escape ends at one place and stands for one character.
* `quoted_cell`, `quoted_injective`: a quoted text is a cell, and no two are alike.
-/
namespace MeowScript.Text

/-! ## Hexadecimal digits -/

def hexDigits : List Char :=
  ['0', '1', '2', '3', '4', '5', '6', '7', '8', '9', 'a', 'b', 'c', 'd', 'e', 'f']

theorem digitChar_mem (n : Nat) : Nat.digitChar (n % 16) ∈ hexDigits := by
  have hall : ∀ d < 16, Nat.digitChar d ∈ hexDigits := by decide
  exact hall _ (Nat.mod_lt n (by decide))

theorem digitChar_inj {m n : Nat} (h : Nat.digitChar (m % 16) = Nat.digitChar (n % 16)) :
    m % 16 = n % 16 := by
  have hall : ∀ d < 16, ∀ e < 16, Nat.digitChar d = Nat.digitChar e → d = e := by decide
  exact hall _ (Nat.mod_lt m (by decide)) _ (Nat.mod_lt n (by decide)) h

/-- The last digit and those before it. -/
theorem toDigits_last (n : Nat) : Nat.toDigits 16 n =
    (if n < 16 then [] else Nat.toDigits 16 (n / 16)) ++ [Nat.digitChar (n % 16)] := by
  split
  · next h => rw [Nat.toDigits_of_lt_base h, Nat.mod_eq_of_lt h, List.nil_append]
  · next h => rw [Nat.toDigits_of_base_le (by decide) (Nat.not_lt.mp h)]

theorem toDigits_mem (n : Nat) : ∀ c ∈ Nat.toDigits 16 n, c ∈ hexDigits := by
  induction n using Nat.strongRecOn with
  | ind n ih =>
    rw [toDigits_last]
    refine List.forall_mem_append.mpr ⟨?_, List.forall_mem_singleton.mpr (digitChar_mem n)⟩
    split
    · exact List.forall_mem_nil _
    · exact ih (n / 16) (by omega)

theorem toDigits_injective {m n : Nat} (h : Nat.toDigits 16 m = Nat.toDigits 16 n) : m = n := by
  induction m using Nat.strongRecOn generalizing n with
  | ind m ih =>
    rw [toDigits_last m, toDigits_last n] at h
    obtain ⟨hfront, hlast⟩ := List.append_inj' h rfl
    have hmod := digitChar_inj (List.cons.inj hlast).1
    split at hfront
    · split at hfront
      · omega
      · exact absurd hfront.symm Nat.toDigits_ne_nil
    · split at hfront
      · exact absurd hfront Nat.toDigits_ne_nil
      · have hdiv := ih (m / 16) (by omega) hfront
        omega

/-! ## Escapes -/

/-- The three ways a character is shown: by a short escape, by its code point, or as it is. -/
theorem escape_cases (c : Char) :
    (∃ d, shortEscape c = some d ∧ escape c = ['\\', d]) ∨
    escape c = ['\\', 'u', '\x7b'] ++ Nat.toDigits 16 c.toNat ++ ['\x7d'] ∨
    (shortEscape c = none ∧ escape c = [c]) := by
  unfold escape
  split
  · next d hd => exact .inl ⟨d, hd, rfl⟩
  · next hnone =>
    split
    · exact .inr (.inl rfl)
    · exact .inr (.inr ⟨hnone, rfl⟩)

def shortEscapes : List (Char × Char) :=
  [('\x00', '0'), ('\t', 't'), ('\r', 'r'), ('\n', 'n'), ('"', '"'), ('\\', '\\')]

theorem shortEscape_mem {c d : Char} (h : shortEscape c = some d) : (c, d) ∈ shortEscapes := by
  unfold shortEscape at h
  split at h <;> cases h <;> decide

theorem shortEscape_injective {a b d : Char} (ha : shortEscape a = some d)
    (hb : shortEscape b = some d) : a = b := by
  have hall : ∀ x ∈ shortEscapes, ∀ y ∈ shortEscapes, x.2 = y.2 → x.1 = y.1 := by decide
  exact hall _ (shortEscape_mem ha) _ (shortEscape_mem hb) rfl

/-- A short escape is no `u`. -/
theorem ne_of_shortEscape {c d : Char} (h : shortEscape c = some d) : d ≠ '\n' ∧ d ≠ 'u' := by
  have hall : ∀ x ∈ shortEscapes, x.2 ≠ '\n' ∧ x.2 ≠ 'u' := by decide
  exact hall _ (shortEscape_mem h)

theorem ne_of_shortEscape_none {c : Char} (h : shortEscape c = none) :
    c ≠ '"' ∧ c ≠ '\\' ∧ c ≠ '\n' := by
  refine ⟨?_, ?_, ?_⟩ <;> (rintro rfl; cases h)

theorem escape_append_inj {a b : Char} {s t : List Char} (h : escape a ++ s = escape b ++ t) :
    a = b ∧ s = t := by
  have hclose : ∀ cs, Stops (· != '\x7d') ('\x7d' :: cs) := by rintro cs c ⟨⟩; rfl
  have hdigits : ∀ n, ∀ c ∈ Nat.toDigits 16 n, (c != '\x7d') = true := by
    have hall : ∀ c ∈ hexDigits, (c != '\x7d') = true := by simp [hexDigits]
    exact fun n c hc => hall c (toDigits_mem n c hc)
  rcases escape_cases a with ⟨d, hd, ha⟩ | ha | ⟨hnone, ha⟩ <;>
    rcases escape_cases b with ⟨e, he, hb⟩ | hb | ⟨hnone', hb⟩ <;>
    rw [ha, hb] at h <;>
    simp only [List.cons_append, List.nil_append, List.append_assoc, List.cons.injEq,
      true_and] at h
  · obtain ⟨rfl, rfl⟩ := h
    exact ⟨shortEscape_injective hd he, rfl⟩
  · exact absurd h.1 (ne_of_shortEscape hd).2
  · exact absurd h.1.symm (ne_of_shortEscape_none hnone').2.1
  · exact absurd h.1.symm (ne_of_shortEscape he).2
  · obtain ⟨hcode, hrest⟩ := append_inj_of_stops (hdigits _) (hdigits _) (hclose _) (hclose _) h
    exact ⟨Char.toNat_inj.mp (toDigits_injective hcode), (List.cons.inj hrest).2⟩
  · exact absurd h.1.symm (ne_of_shortEscape_none hnone').2.1
  · exact absurd h.1 (ne_of_shortEscape_none hnone).2.1
  · exact absurd h.1 (ne_of_shortEscape_none hnone).2.1
  · exact h

theorem escape_ne_nil (c : Char) : escape c ≠ [] := by
  rcases escape_cases c with ⟨d, -, h⟩ | h | ⟨-, h⟩ <;> simp [h]

theorem escapes_injective {cs ds : List Char} (h : cs.flatMap escape = ds.flatMap escape) :
    cs = ds := by
  induction cs generalizing ds with
  | nil =>
    cases ds with
    | nil => rfl
    | cons d ds => exact absurd (List.append_eq_nil_iff.mp h.symm).1 (escape_ne_nil d)
  | cons c cs ih =>
    cases ds with
    | nil => exact absurd (List.append_eq_nil_iff.mp h).1 (escape_ne_nil c)
    | cons d ds =>
      rw [List.flatMap_cons, List.flatMap_cons] at h
      obtain ⟨rfl, hrest⟩ := escape_append_inj h
      rw [ih hrest]

/-! ## Cells -/

/-- Characters that stand for themselves in a string. -/
theorem unescapes_plain {cs raw value : List Char}
    (h : ∀ c ∈ cs, c ≠ '"' ∧ c ≠ '\\' ∧ c ≠ '\n') (hraw : Unescapes raw value) :
    Unescapes (cs ++ raw) (cs ++ value) := by
  induction cs with
  | nil => exact hraw
  | cons c cs ih =>
    rw [List.forall_mem_cons] at h
    exact .plain h.1.1 h.1.2.1 h.1.2.2 (ih h.2)

/-- To the end of a string an escape is harmless, whatever it would stand for in a program. -/
theorem escape_unescapes (c : Char) {raw value : List Char} (h : Unescapes raw value) :
    ∃ value', Unescapes (escape c ++ raw) value' := by
  rcases escape_cases c with ⟨d, hd, hc⟩ | hc | ⟨hnone, hc⟩ <;> rw [hc]
  · exact ⟨_, .escape (ne_of_shortEscape hd).1 (standsFor_unescape _) h⟩
  · have hplain : ∀ d ∈ '\x7b' :: Nat.toDigits 16 c.toNat ++ ['\x7d'],
        d ≠ '"' ∧ d ≠ '\\' ∧ d ≠ '\n' := by
      have hall : ∀ d ∈ hexDigits, d ≠ '"' ∧ d ≠ '\\' ∧ d ≠ '\n' := by simp [hexDigits]
      exact List.forall_mem_append.mpr ⟨List.forall_mem_cons.mpr ⟨by decide, fun d hd =>
        hall d (toDigits_mem _ d hd)⟩, List.forall_mem_singleton.mpr (by decide)⟩
    exact ⟨_, .escape (by decide) (standsFor_unescape _) (unescapes_plain hplain h)⟩
  · obtain ⟨hquote, hslash, hfeed⟩ := ne_of_shortEscape_none hnone
    exact ⟨_, .plain hquote hslash hfeed h⟩

theorem escapes_unescape (cs : List Char) : ∃ value, Unescapes (cs.flatMap escape) value := by
  induction cs with
  | nil => exact ⟨[], .nil⟩
  | cons c cs ih =>
    obtain ⟨value, hvalue⟩ := ih
    exact escape_unescapes c hvalue

theorem quoted_cell (s : String) : Cell (quoted s).toList := by
  obtain ⟨value, hvalue⟩ := escapes_unescape s.toList
  rw [quoted_eq]
  exact .string hvalue

theorem quoted_injective {s t : String} (h : quoted s = quoted t) : s = t := by
  have hchars := congrArg String.toList h
  rw [quoted_eq, quoted_eq] at hchars
  exact String.toList_inj.mp
    (escapes_injective (List.append_cancel_right (List.cons.inj hchars).2))

end MeowScript.Text
