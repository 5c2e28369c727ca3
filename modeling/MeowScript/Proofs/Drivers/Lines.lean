import Mathlib.Data.List.Basic

/-!
# The lines of a text

A text is cut into lines at its line feeds, and put together from them again.

Results:
* `linesOf_join`, `join_linesOf`: lines that were put together are found again, and lines that were
  found give the text when they are put together.
* `mem_of_mem_linesOf`: a character of a line is one of the text, and no line feed.
-/
namespace MeowScript

/-- The lines of a text, between its line feeds. -/
def linesOf (s : String) : List String := (s.toList.splitOn '\n').map String.ofList

/-! ## Texts put together from lines -/

section
variable {α β : Type} {f : α → String} {xs ys : List α}

/-- Every item on a line of its own, and nothing behind the last line feed. -/
theorem linesOf_join (h : ∀ x ∈ xs, '\n' ∉ (f x).toList) :
    linesOf (String.join (xs.map fun x => f x ++ "\n")) = xs.map f ++ [""] := by
  induction xs with
  | nil => rfl
  | cons x xs ih =>
    rw [List.forall_mem_cons] at h
    have hcons : (String.join ((x :: xs).map fun x => f x ++ "\n")).toList =
        (f x).toList ++ '\n' :: (String.join (xs.map fun x => f x ++ "\n")).toList := by
      simp
    rw [linesOf, hcons, List.splitOn_append_cons_self_of_not_mem h.1, List.map_cons,
      String.ofList_toList, List.map_cons, List.cons_append]
    exact congrArg (f x :: ·) (ih h.2)

/-- What each line tells, all lines tell. -/
theorem map_eq_of_lines_eq {g : α → β} (hinj : ∀ x ∈ xs, ∀ y ∈ ys, f x = f y → g x = g y)
    (h : xs.map f = ys.map f) : xs.map g = ys.map g := by
  induction xs generalizing ys with
  | nil =>
    cases ys with
    | nil => rfl
    | cons y ys => cases h
  | cons x xs ih =>
    cases ys with
    | nil => cases h
    | cons y ys =>
      obtain ⟨hfirst, hrest⟩ := List.cons.inj h
      rw [List.map_cons, List.map_cons, hinj x List.mem_cons_self y List.mem_cons_self hfirst,
        ih (fun a ha b hb =>
          hinj a (List.mem_cons_of_mem x ha) b (List.mem_cons_of_mem y hb)) hrest]

end

/-! ## A text cut into lines -/

theorem join_splitOn (cs : List Char) :
    (cs.splitOn '\n').flatMap (· ++ ['\n']) = cs ++ ['\n'] := by
  induction cs with
  | nil => rfl
  | cons c cs ih =>
    obtain ⟨line, lines, hlines⟩ := List.exists_cons_of_ne_nil (List.splitOn_ne_nil '\n' cs)
    rw [List.splitOn_cons_eq_if_modifyHead]
    split
    · next hc =>
      rw [List.flatMap_cons, ih, beq_iff_eq.mp hc]
      rfl
    · rw [hlines] at ih ⊢
      exact congrArg (c :: ·) ih

/-- The lines of a text, each with a line feed behind it. -/
theorem join_linesOf (s : String) : String.join ((linesOf s).map (· ++ "\n")) = s ++ "\n" := by
  rw [← String.toList_inj, String.toList_append, ← String.ofList_toList (s := "\n")]
  have hjoin := join_splitOn s.toList
  simpa [linesOf, List.flatMap, Function.comp_def] using hjoin

theorem mem_of_mem_splitOn {cs line : List Char} (h : line ∈ cs.splitOn '\n') {c : Char}
    (hc : c ∈ line) : c ∈ cs ∧ c ≠ '\n' := by
  induction cs generalizing line with
  | nil =>
    rw [List.mem_singleton.mp h] at hc
    cases hc
  | cons d cs ih =>
    obtain ⟨first, lines, hlines⟩ := List.exists_cons_of_ne_nil (List.splitOn_ne_nil '\n' cs)
    have hlater : ∀ {l : List Char}, l ∈ first :: lines → c ∈ l → c ∈ d :: cs ∧ c ≠ '\n' := by
      intro l hl hmem
      obtain ⟨hcs, hfeed⟩ := ih (hlines ▸ hl) hmem
      exact ⟨List.mem_cons_of_mem d hcs, hfeed⟩
    rw [List.splitOn_cons_eq_if_modifyHead, hlines] at h
    split at h
    · rcases List.mem_cons.mp h with rfl | h
      · cases hc
      · exact hlater h hc
    · next hd =>
      rcases List.mem_cons.mp h with rfl | h
      · rcases List.mem_cons.mp hc with rfl | hc
        · exact ⟨List.mem_cons_self, by simpa using hd⟩
        · exact hlater List.mem_cons_self hc
      · exact hlater (List.mem_cons_of_mem first h) hc

theorem mem_of_mem_linesOf {s line : String} (h : line ∈ linesOf s) {c : Char}
    (hc : c ∈ line.toList) : c ∈ s.toList ∧ c ≠ '\n' := by
  obtain ⟨cs, hcs, rfl⟩ := List.mem_map.mp h
  rw [String.toList_ofList] at hc
  exact mem_of_mem_splitOn hcs hc

end MeowScript
