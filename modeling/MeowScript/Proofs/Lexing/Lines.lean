import MeowScript.Proofs.Lexing.Contents

/-!
# Tokens of a text in two parts

A line feed between two parts of a text ends whatever piece the first part ends with: only blanks
go on behind it, and a comment that was never closed. So the tokens of the whole are those of the
first part and then those of the second, from the place where it begins.

Results:
* `first_line`: a piece that begins before a line feed ends there at the latest.
* `found_join`: what is found in a text is found in its parts.
* `clean_of_join`: where no mark closes a comment, faults of the first part stay faults.
* `tokensOf_eq_ok`: what splitting a text into tokens gives, in these terms.
-/
namespace MeowScript

/-! ## One piece before a line feed -/

section
variable {p : Char → Bool} (hp : p '\n' = false) (cs more : List Char)
include hp

theorem takeWhile_line : (cs ++ '\n' :: more).takeWhile p = cs.takeWhile p := by
  induction cs with
  | nil => simp [hp]
  | cons c cs ih => by_cases hc : p c = true <;> simp [hc, ih]

theorem dropWhile_line : (cs ++ '\n' :: more).dropWhile p = cs.dropWhile p ++ '\n' :: more := by
  induction cs with
  | nil => simp [hp]
  | cons c cs ih => by_cases hc : p c = true <;> simp [hc, ih]

end

namespace Piece

/-- More text, on a new line, behind what a piece leaves. -/
def andLine (x : Piece × List Char) (more : List Char) : Piece × List Char :=
  (x.1, x.2 ++ '\n' :: more)

theorem comment?_append_of_some {cs : List Char} {r : List Char × List Char}
    (h : comment? cs = some r) (more : List Char) :
    comment? (cs ++ more) = some (r.1, r.2 ++ more) := by
  fun_induction comment? cs generalizing r with
  | case1 => cases h
  | case2 cs => cases h; simp [comment?]
  | case3 c cs hc ih =>
    obtain ⟨s, hs, rfl⟩ := Option.map_eq_some_iff.mp h
    have hne : ∀ ds, c = '*' → cs ++ more = '/' :: ds → False := by
      intro ds hstar hslash
      cases cs with
      | nil => cases hs
      | cons d cs =>
        obtain ⟨rfl, -⟩ := List.cons.inj hslash
        exact hc cs hstar rfl
    rw [List.cons_append, comment?.eq_3 c (cs ++ more) hne, ih hs]
    rfl

/-- An open comment stays open if no slash follows. -/
theorem comment?_line_of_none {cs more : List Char} (h : comment? cs = none)
    (hm : '/' ∉ more) : comment? (cs ++ '\n' :: more) = none := by
  have hopen : ∀ ds : List Char, '/' ∉ ds → comment? ds = none := by
    intro ds hds
    induction ds with
    | nil => rfl
    | cons d ds ih =>
      rw [List.mem_cons, not_or] at hds
      rw [comment?.eq_3 d ds fun es _ he => hds.2 (he ▸ List.mem_cons_self), ih hds.2]
      rfl
  fun_induction comment? cs with
  | case1 => exact hopen _ (by simp [hm])
  | case2 => cases h
  | case3 c cs hc ih =>
    have hne : ∀ ds, c = '*' → cs ++ '\n' :: more = '/' :: ds → False := by
      intro ds hstar hslash
      cases cs with
      | nil => cases hslash
      | cons d cs =>
        obtain ⟨rfl, -⟩ := List.cons.inj hslash
        exact hc cs hstar rfl
    rw [List.cons_append, comment?.eq_3 c _ hne, ih (Option.map_eq_none_iff.mp h)]
    rfl

variable (c : Char) (cs more : List Char)

theorem word_line : word c (cs ++ '\n' :: more) = andLine (word c cs) more := by
  have hn : isWordChar '\n' = false := by decide
  simp only [word, andLine, takeWhile_line hn, dropWhile_line hn]

theorem number_line : number c (cs ++ '\n' :: more) = andLine (number c cs) more := by
  have hn : Char.isDigit '\n' = false := by decide
  unfold number
  rw [takeWhile_line hn, dropWhile_line hn]
  generalize cs.dropWhile Char.isDigit = rest
  cases rest with
  | nil => rfl
  | cons a rest =>
    by_cases ha : a = '.'
    · subst ha
      cases rest with
      | nil => simp [andLine, hn]
      | cons d rest =>
        by_cases hd : d.isDigit = true
        · simp [andLine, hd, takeWhile_line hn, dropWhile_line hn]
        · simp [andLine, hd]
    · simp [andLine, ha]

theorem stringBody_line : stringBody (cs ++ '\n' :: more) =
    ⟨(stringBody cs).text, (stringBody cs).value, (stringBody cs).rest ++ '\n' :: more⟩ := by
  fun_induction stringBody cs with
  | case1 => rfl
  | case2 cs => simp [stringBody]
  | case3 cs => simp [stringBody]
  | case4 => simp [stringBody]
  | case5 cs => simp [stringBody]
  | case6 c cs hc ih => simp [stringBody, ih, Body.add]
  | case7 c cs hquote hline hend _ hescape ih =>
    have hc : c ≠ '\\' := by
      intro hb
      cases cs with
      | nil => exact hend hb rfl
      | cons d cs => exact hescape d cs hb rfl
    simp [stringBody, hc, ih, Body.add]

theorem string_line : string (cs ++ '\n' :: more) = andLine (string cs) more := by
  simp only [string, andLine, stringBody_line]

theorem slash_line (h : (slash cs).1.content ≠ .fault .unterminatedComment) :
    slash (cs ++ '\n' :: more) = andLine (slash cs) more := by
  fun_cases slash cs with
  | case1 cs =>
    simp [slash, andLine, takeWhile_line (p := (· != '\n')), dropWhile_line (p := (· != '\n'))]
  | case2 cs body rest hc => simp [slash, andLine, comment?_append_of_some hc]
  | case3 cs hc => simp [slash, hc] at h
  | case4 cs hline hstar => cases cs <;> simp_all [slash, andLine]

theorem mark_line : mark c (cs ++ '\n' :: more) = andLine (mark c cs) more := by
  fun_cases mark c cs with
  | case11 cs he one | case12 cs he one | case13 cs he one =>
    cases cs with
    | nil => rfl
    | cons d cs =>
      have hd : d ≠ '=' := fun h => he cs (h ▸ rfl)
      simp [mark, andLine, hd, one]
  | case20 => cases cs <;> unfold mark <;> split <;> simp_all [andLine]
  | _ => rfl

/-- A piece that begins before a line feed ends there at the latest, unless it is a gap or an open
comment. -/
theorem first_line (hc : isGapChar c = false)
    (hopen : (first c cs).1.content ≠ .fault .unterminatedComment) :
    first c (cs ++ '\n' :: more) = andLine (first c cs) more := by
  unfold first at hopen ⊢
  rw [hc] at hopen ⊢
  simp only [Bool.false_eq_true, if_false] at hopen ⊢
  split
  · exact word_line c cs more
  split
  · exact number_line c cs more
  split
  · exact string_line cs more
  split
  · next hword hdigit hquote hslash =>
    rw [if_neg hword, if_neg hdigit, if_neg hquote, if_pos hslash] at hopen
    exact slash_line cs more hopen
  · exact mark_line c cs more

/-- An open comment stays open if no slash follows. -/
theorem first_line_open {c : Char} {cs more : List Char}
    (h : (first c cs).1.content = .fault .unterminatedComment) (hm : '/' ∉ more) :
    (first c (cs ++ '\n' :: more)).1.content = .fault .unterminatedComment := by
  have hreads := first_reads c cs
  rw [h] at hreads
  cases hreads with
  | openComment hnone =>
    have hfirst : ∀ ds, first '/' ds = slash ds := fun _ => rfl
    rw [hfirst, List.cons_append, slash, comment?_line_of_none hnone hm]

end Piece

/-! ## What is found in a text -/

/-- What is sought among the pieces of a text at `p`, in order. -/
def found {α : Type} (f : Located Piece → Option α) (p : Position) (cs : List Char) : List α :=
  (placed p (pieces cs)).filterMap f

/-- Gaps are not what is sought. -/
def SkipsGaps {α : Type} (f : Located Piece → Option α) : Prop :=
  ∀ x, x.cause.content = .gap → f x = none

theorem skipsGaps_tokenAt : SkipsGaps Piece.tokenAt := fun x hx => by rw [Piece.tokenAt, hx]

theorem skipsGaps_faultAt : SkipsGaps Piece.faultAt := fun x hx => by rw [Piece.faultAt, hx]

section
variable {α : Type} {f : Located Piece → Option α}

theorem found_nil (p : Position) : found f p [] = [] := by rw [found, pieces]; rfl

theorem found_cons (p : Position) (c : Char) (cs : List Char) :
    found f p (c :: cs) = (f ⟨(Piece.first c cs).1, p⟩).toList ++
      found f (p.after (Piece.first c cs).1.text) (Piece.first c cs).2 := by
  rw [found, pieces, placed, List.filterMap_cons]
  cases f ⟨(Piece.first c cs).1, p⟩ <;> rfl

/-- A blank at the beginning only moves what follows. -/
theorem found_blank (hf : SkipsGaps f) (p : Position) {c : Char} (hc : Piece.isGapChar c = true)
    (cs : List Char) : found f p (c :: cs) = found f (p.next c) cs := by
  have hgap : ∀ (p : Position) (d : Char) (ds : List Char), Piece.isGapChar d = true →
      found f p (d :: ds) = found f ((p.next d).after (ds.takeWhile Piece.isGapChar))
        (ds.dropWhile Piece.isGapChar) := by
    intro p d ds hd
    rw [found_cons, Piece.first, if_pos hd, hf _ rfl]
    rfl
  rw [hgap p c cs hc]
  cases cs with
  | nil => rfl
  | cons d ds =>
    by_cases hd : Piece.isGapChar d = true
    · simp [hgap _ d ds hd, hd]
    · simp [hd]

end

/-! ## Texts without faults -/

/-- No piece of the text is a fault. -/
def Clean (cs : List Char) : Prop := ∀ x ∈ pieces cs, ∀ e, x.content ≠ .fault e

namespace Clean

variable {c : Char} {cs more : List Char}

theorem nil : Clean [] := by
  intro x hx
  rw [pieces] at hx
  cases hx

theorem cons_iff : Clean (c :: cs) ↔
    (∀ e, (Piece.first c cs).1.content ≠ .fault e) ∧ Clean (Piece.first c cs).2 := by
  rw [Clean, pieces, List.forall_mem_cons, Clean]

theorem iff_found (p : Position) : Clean cs ↔ found Piece.faultAt p cs = [] := by
  have hnone : ∀ y : Located Piece,
      Piece.faultAt y = none ↔ ∀ e, y.cause.content ≠ .fault e := by
    intro y
    unfold Piece.faultAt
    split <;> simp_all
  rw [found, List.filterMap_eq_nil_iff, Clean]
  simp only [hnone]
  conv_lhs => rw [← placed_causes p (pieces cs)]
  rw [List.forall_mem_map]

theorem blank_iff (hc : Piece.isGapChar c = true) : Clean (c :: cs) ↔ Clean cs := by
  rw [iff_found .start, iff_found (Position.start.next c), found_blank skipsGaps_faultAt _ hc]

end Clean

/-- What is found in a text without faults and in the lines behind it. -/
theorem found_join {α : Type} {f : Located Piece → Option α} (hf : SkipsGaps f)
    (cs more : List Char) (p : Position) (h : Clean cs) :
    found f p (cs ++ '\n' :: more) = found f p cs ++ found f ((p.after cs).next '\n') more := by
  match cs, h with
  | [], _ => exact (found_blank hf p rfl more).trans (by rw [found_nil]; rfl)
  | c :: cs, h =>
    by_cases hc : Piece.isGapChar c = true
    · rw [List.cons_append, found_blank hf p hc, found_blank hf p hc,
        found_join hf cs more _ ((Clean.blank_iff hc).mp h), Position.after_cons]
    · have hfirst := Clean.cons_iff.mp h
      have hle : (Piece.first c cs).2.length ≤ cs.length :=
        Nat.le_of_lt_succ (Piece.first_rest_lt c cs)
      rw [List.cons_append, found_cons, found_cons, Piece.first_line c cs more (by simpa using hc)
        (hfirst.1 _), Piece.andLine, found_join hf _ more _ hfirst.2, ← Position.after_append,
        Piece.first_append, List.append_assoc]
termination_by cs.length

/-- Where no mark closes a comment, faults of the first part stay faults. -/
theorem clean_of_join (cs : List Char) {more : List Char} (hm : '/' ∉ more)
    (h : Clean (cs ++ '\n' :: more)) : Clean cs := by
  match cs, h with
  | [], _ => exact Clean.nil
  | c :: cs, h =>
    rw [List.cons_append] at h
    by_cases hc : Piece.isGapChar c = true
    · exact (Clean.blank_iff hc).mpr (clean_of_join cs hm ((Clean.blank_iff hc).mp h))
    · have hopen : (Piece.first c cs).1.content ≠ .fault .unterminatedComment :=
        fun ho => (Clean.cons_iff.mp h).1 _ (Piece.first_line_open ho hm)
      have hle : (Piece.first c cs).2.length ≤ cs.length :=
        Nat.le_of_lt_succ (Piece.first_rest_lt c cs)
      rw [Clean.cons_iff, Piece.first_line c cs more (by simpa using hc) hopen] at h
      exact Clean.cons_iff.mpr ⟨h.1, clean_of_join _ hm h.2⟩
termination_by cs.length

/-! ## Tokens -/

/-- The kind of a piece that is a token. -/
def Piece.kind? (x : Piece) : Option Kind :=
  match x.content with
  | .token kind => some kind
  | _ => none

/-- What kinds of tokens a text has does not depend on where it stands. -/
theorem found_kinds (p : Position) (cs : List Char) :
    (found Piece.tokenAt p cs).map Token.kind = (pieces cs).filterMap Piece.kind? := by
  have hkind : ∀ y : Located Piece, (Piece.tokenAt y).map Token.kind = y.cause.kind? := by
    intro y
    unfold Piece.tokenAt Piece.kind?
    split <;> simp_all
  rw [found, List.map_filterMap]
  simp only [hkind]
  conv_rhs => rw [← placed_causes p (pieces cs), List.filterMap_map]
  rfl

theorem tokensOf_eq_ok {source : String} {toks : List Token} : tokensOf source = .ok toks ↔
    Clean source.toList ∧ toks = found Piece.tokenAt .start source.toList ++
      [.finish (Position.start.after source.toList)] := by
  rw [Clean.iff_found .start, tokensOf, ← found.eq_1, ← found.eq_1]
  split
  · next h => simp [h, eq_comm]
  · next h => simpa using fun he => absurd he h

end MeowScript
