import Mathlib.Data.List.Nodup
import MeowScript.Proofs.Naming.Words

/-!
# No storage name is given twice

Variables are numbered by how many of their name came before, in any scope. A name is made of word
characters only and the number stands behind a point, so a storage name tells both; and no name
comes twice with the same number.

Results:
* `storageFor_injective`: a storage name tells the name and the number.
* `storagesOf_nodup`: the storage names of a row of declarations are all different.
* `storagesOf_of_suffix`: later declarations change no storage name.
-/
namespace MeowScript

/-! ## One storage name -/

/-- What the storage name consists of. -/
theorem storageFor_toList (name : String) (n : Nat) :
    (storageFor name n).toList = name.toList ++ if n = 0 then [] else '.' :: Nat.toDigits 10 n := by
  unfold storageFor
  split
  · simp
  · simp [Nat.toString_eq_repr, Nat.repr]

/-- Up to the point it is the name. -/
theorem storageFor_takeWhile {name : String} (h : IsWord name) (n : Nat) :
    (storageFor name n).toList.takeWhile (· != '.') = name.toList := by
  have hword : ∀ c ∈ name.toList, (c != '.') = true := by
    intro c hc
    rw [bne_iff_ne]
    rintro rfl
    exact absurd (h _ hc) (by decide)
  rw [storageFor_toList, List.takeWhile_append_of_pos hword]
  split <;> simp

theorem storageFor_injective {a b : String} {m n : Nat} (ha : IsWord a) (hb : IsWord b)
    (h : storageFor a m = storageFor b n) : a = b ∧ m = n := by
  have hname : a = b := by
    apply String.toList_inj.mp
    rw [← storageFor_takeWhile ha m, h, storageFor_takeWhile hb n]
  subst hname
  refine ⟨rfl, ?_⟩
  have hnumber := congrArg String.toList h
  rw [storageFor_toList, storageFor_toList, List.append_cancel_left_eq] at hnumber
  split at hnumber
  · next hm =>
    split at hnumber
    · next hn => rw [hm, hn]
    · cases hnumber
  · split at hnumber
    · cases hnumber
    · have hdigits := congrArg (Nat.ofDigitChars 10 · 0) (List.cons.inj hnumber).2
      simpa using hdigits

/-! ## The storage names of a row of declarations -/

/-- The storage names of all variables declared, in the order of their declarations; `names` are
their names, the last first. -/
def storagesOf : List String → List String
  | [] => []
  | name :: names => storagesOf names ++ [storageFor name (names.count name)]

@[simp] theorem storagesOf_length (names : List String) :
    (storagesOf names).length = names.length := by
  induction names with
  | nil => rfl
  | cons name names ih => simp [storagesOf, ih]

/-- A storage name given so far has the name and a number below the count of that name. -/
theorem of_mem_storagesOf {names : List String} {s : String} (h : s ∈ storagesOf names) :
    ∃ name ∈ names, ∃ n < names.count name, s = storageFor name n := by
  induction names with
  | nil => cases h
  | cons x names ih =>
    rcases List.mem_append.mp h with h | h
    · obtain ⟨name, hname, n, hn, rfl⟩ := ih h
      refine ⟨name, List.mem_cons_of_mem x hname, n, ?_, rfl⟩
      exact Nat.lt_of_lt_of_le hn List.count_le_count_cons
    · refine ⟨x, List.mem_cons_self, names.count x, ?_, List.mem_singleton.mp h⟩
      rw [List.count_cons_self]
      exact Nat.lt_succ_self _

theorem storagesOf_nodup {names : List String} (h : ∀ x ∈ names, IsWord x) :
    (storagesOf names).Nodup := by
  induction names with
  | nil => exact List.nodup_nil
  | cons x names ih =>
    have hnames := fun y hy => h y (List.mem_cons_of_mem x hy)
    refine List.nodup_append.mpr ⟨ih hnames, List.nodup_singleton _, ?_⟩
    intro s hs t ht hst
    obtain ⟨name, hname, n, hn, rfl⟩ := of_mem_storagesOf hs
    rw [List.mem_singleton.mp ht] at hst
    obtain ⟨rfl, rfl⟩ := storageFor_injective (hnames name hname) (h x List.mem_cons_self) hst
    exact Nat.lt_irrefl _ hn

/-- Later declarations change no storage name. -/
theorem storagesOf_of_suffix {names more : List String} (h : names <:+ more) :
    storagesOf names <+: storagesOf more := by
  obtain ⟨later, rfl⟩ := h
  induction later with
  | nil => exact List.prefix_rfl
  | cons x later ih => exact ih.trans (List.prefix_append _ _)

end MeowScript
