import MeowScript.Proofs.Lexing.Constants
import MeowScript.Proofs.Listing.Cells
import MeowScript.Proofs.Naming.Listing
import MeowScript.Proofs.Number.Distinct

/-!
# What an operand is printed as

Variables and temporaries are printed like words, constants unlike words, but for two: a number that
is infinite and one that is none. If no variable is called like these or like a temporary, then what
is printed for an operand tells the operand; and it is one cell of a line.

Results:
* `Literal.text_injective`: no two constants are printed alike.
* `Operand.IsListable.text_injective`: no two operands, if variables have such names.
* `Operand.IsListable.cell`: an operand is a cell.
-/
namespace MeowScript

/-! ## Names -/

/-- A word, and maybe a number behind a point. -/
def IsStorage (name : String) : Prop :=
  ∃ c word number, name.toList = c :: word ++ number ∧ Piece.isWordStart c = true ∧
    (∀ d ∈ word, Piece.isWordChar d = true) ∧ (number = [] ∨ ∃ ds, Digits ds ∧ number = '.' :: ds)

/-- A storage name that nothing else is printed as. -/
structure IsVariable (name : String) : Prop where
  storage : IsStorage name
  ne_temp : ∀ n, name ≠ Operand.tempText n
  ne_infinite : name ≠ "inf"
  ne_nan : name ≠ "NaN"

/-- A variable is stored under its name, or under its name and a number. -/
theorem storageFor_isStorage {name : String} {c : Char} {word : List Char}
    (hname : name.toList = c :: word) (hc : Piece.isWordStart c = true)
    (hword : word.all Piece.isWordChar = true) (n : Nat) : IsStorage (storageFor name n) := by
  refine ⟨c, word, if n = 0 then [] else '.' :: Nat.toDigits 10 n, ?_, hc,
    List.all_eq_true.mp hword, ?_⟩
  · rw [storageFor_toList, hname]
  · split
    · exact .inl rfl
    · exact .inr ⟨_, ⟨Nat.toDigits_ne_nil, Decimal.AllDigits.toDigits n⟩, rfl⟩

theorem IsStorage.isPlain {name : String} (h : IsStorage name) :
    ∀ c ∈ name.toList, isPlain c = true := by
  obtain ⟨c, word, number, hname, hc, hword, hnumber⟩ := h
  rw [hname]
  refine List.forall_mem_append.mpr ⟨List.forall_mem_cons.mpr ⟨?_, fun d hd => ?_⟩, fun d hd => ?_⟩
  · exact isPlain_of_isWordChar (Piece.isWordChar_of_isWordStart hc)
  · exact isPlain_of_isWordChar (hword d hd)
  · rcases hnumber with rfl | ⟨ds, hds, rfl⟩
    · cases hd
    · rcases List.mem_cons.mp hd with rfl | hd
      · rfl
      · exact isPlain_of_isDigit (hds.2 d hd)

theorem IsStorage.ne_nil {name : String} (h : IsStorage name) : name.toList ≠ [] := by
  obtain ⟨c, word, number, hname, -⟩ := h
  simp [hname]

/-! ## Numbered names -/

theorem tempText_injective {m n : Nat} (h : Operand.tempText m = Operand.tempText n) : m = n :=
  toString_injective (String.append_right_inj "t" |>.mp h)

theorem labelText_injective {m n : Nat} (h : Instr.labelText m = Instr.labelText n) : m = n :=
  toString_injective (String.append_right_inj "L" |>.mp h)

theorem toList_tempText (n : Nat) : (Operand.tempText n).toList = 't' :: (toString n).toList := by
  rw [Operand.tempText, String.toList_append]
  rfl

theorem IsStorage.isVariable {name : String} (h : IsStorage name)
    (ht : name.toList.head? ≠ some 't') (hinf : name ≠ "inf") (hnan : name ≠ "NaN") :
    IsVariable name := by
  refine ⟨h, ?_, hinf, hnan⟩
  rintro n rfl
  exact ht (by rw [toList_tempText, List.head?_cons])

theorem number_isPlain (n : Nat) : ∀ c ∈ (toString n).toList, isPlain c = true := by
  rw [toList_toString]
  exact fun c hc => isPlain_of_isDigit (Decimal.AllDigits.toDigits n c hc)

/-! ## Numbers -/

theorem integer_isPlain (n : Int) : ∀ c ∈ (toString n).toList, isPlain c = true := by
  intro c hc
  rcases Decimal.toString_chars n c hc with hdigit | rfl
  · exact isPlain_of_isDigit hdigit
  · rfl

theorem integer_ne_nil (n : Int) : (toString n).toList ≠ [] := by
  obtain ⟨k, ⟨-, hchars⟩ | ⟨-, hchars⟩⟩ := Decimal.toString_form n
  · rw [hchars]
    exact Nat.toDigits_ne_nil
  · rw [hchars]
    exact List.cons_ne_nil _ _

theorem integer_injective {m n : Int} (h : toString m = toString n) : m = n := by
  have hsigned := congrArg (Decimal.signed ·.toList) h
  simpa only [Decimal.signed_toString] using hsigned

namespace Binary64

theorem chars_isPlain (x : Binary64) : ∀ c ∈ x.chars, isPlain c = true := by
  have hsign : ∀ n, ∀ c ∈ sign n, isPlain c = true := by simp [sign, isPlain]
  cases x with
  | nan => simp [chars, isPlain]
  | infinity n => exact List.forall_mem_append.mpr ⟨hsign n, by simp [isPlain]⟩
  | finite n m q h =>
    refine List.forall_mem_append.mpr ⟨hsign n, fun c hc => ?_⟩
    rcases Decimal.layOut_chars _ _ c hc with hdigit | hmark
    · exact isPlain_of_isDigit hdigit
    · simp only [List.mem_cons, List.not_mem_nil, or_false] at hmark
      rcases hmark with rfl | rfl | rfl <;> rfl

/-- No fraction is written like a whole number. -/
theorem chars_marked (x : Binary64) : ∃ c ∈ x.chars, ¬ (c.isDigit = true ∨ c = '-') := by
  cases x with
  | nan => exact ⟨'N', List.mem_cons_self, by decide⟩
  | infinity n => exact ⟨'i', List.mem_append_right _ List.mem_cons_self, by decide⟩
  | finite n m q h =>
    rw [chars_finite]
    rcases (magnitude m q).layOut_marked Decimal.Layout.plain with hpoint | hexponent
    · exact ⟨'.', List.mem_append_right _ hpoint, by decide⟩
    · exact ⟨'e', List.mem_append_right _ hexponent, by decide⟩

theorem chars_ne_nil (x : Binary64) : x.chars ≠ [] := by
  obtain ⟨c, hc, -⟩ := x.chars_marked
  exact List.ne_nil_of_mem hc

end Binary64

/-! ## Constants -/

theorem toList_text_float (x : Binary64) :
    (Operand.constant (.float x)).text.toList = x.chars := String.toList_ofList

/-- A number has no quote, and a string has. -/
theorem number_ne_string {v : Literal} (s : String)
    (h : ∀ c ∈ (Operand.constant v).text.toList, isPlain c = true) :
    (Operand.constant v).text ≠ (Operand.constant (.string s)).text := by
  intro he
  rw [he, Operand.toList_text_string] at h
  cases h '"' List.mem_cons_self

theorem integer_ne_float (n : Int) (x : Binary64) :
    (Operand.constant (.integer n)).text ≠ (Operand.constant (.float x)).text := by
  intro he
  obtain ⟨c, hc, hmark⟩ := x.chars_marked
  rw [← toList_text_float, ← he] at hc
  exact hmark (Decimal.toString_chars n c hc)

theorem string_injective {s t : String}
    (h : (Operand.constant (.string s)).text = (Operand.constant (.string t)).text) : s = t := by
  have hchars := congrArg String.toList h
  rw [Operand.toList_text_string, Operand.toList_text_string] at hchars
  exact String.toList_inj.mp ((escaped_unescapes s.toList).end_unique (escaped_unescapes t.toList)
    (List.cons.inj hchars).2).2.1

theorem Literal.text_injective {v w : Literal}
    (h : (Operand.constant v).text = (Operand.constant w).text) : v = w := by
  have hfloat : ∀ x, ∀ c ∈ (Operand.constant (.float x)).text.toList, isPlain c = true := by
    intro x
    rw [toList_text_float]
    exact x.chars_isPlain
  cases v with
  | integer n =>
    cases w with
    | integer n' => rw [integer_injective h]
    | float x' => exact absurd h (integer_ne_float n x')
    | string s' => exact absurd h (number_ne_string s' (integer_isPlain n))
  | float x =>
    cases w with
    | integer n' => exact absurd h.symm (integer_ne_float n' x)
    | float x' => rw [Binary64.text_injective h]
    | string s' => exact absurd h (number_ne_string s' (hfloat x))
  | string s =>
    cases w with
    | integer n' => exact absurd h.symm (number_ne_string s (integer_isPlain n'))
    | float x' => exact absurd h.symm (number_ne_string s (hfloat x'))
    | string s' => rw [string_injective h]

/-! ## Operands -/

theorem not_beginsNoWord {cs rest : List Char} {c : Char} (hcs : cs = c :: rest)
    (hc : Piece.isWordStart c = true) : ¬ BeginsNoWord cs := by
  rintro ⟨d, ds, hds, hd⟩
  rw [hcs] at hds
  rw [(List.cons.inj hds).1, hd] at hc
  cases hc

/-- Constants begin unlike words, but for two that are no finite number. -/
theorem constant_unlike_word (v : Literal) : (Operand.constant v).text = "NaN" ∨
    (Operand.constant v).text = "inf" ∨ BeginsNoWord (Operand.constant v).text.toList := by
  cases v with
  | integer n =>
    obtain ⟨k, ⟨-, hchars⟩ | ⟨-, hchars⟩⟩ := Decimal.toString_form n
    · exact .inr (.inr (hchars ▸ toDigits_begins k))
    · exact .inr (.inr ⟨'-', _, hchars, by decide⟩)
  | float x =>
    have hchars := toList_text_float x
    cases x with
    | nan => exact .inl rfl
    | infinity n =>
      cases n with
      | false => exact .inr (.inl rfl)
      | true => exact .inr (.inr ⟨'-', _, hchars, by decide⟩)
    | finite n m q h =>
      cases n with
      | false => exact .inr (.inr (hchars ▸ Decimal.layOut_begins _ _))
      | true => exact .inr (.inr ⟨'-', _, hchars, by decide⟩)
  | string s => exact .inr (.inr ⟨'"', _, Operand.toList_text_string s, by decide⟩)

namespace Operand

/-- If the operand is a variable, nothing else is printed like it. -/
def IsListable (o : Operand) : Prop := ∀ name, o = var name → IsVariable name

theorem constant_ne_var (v : Literal) {name : String} (h : IsVariable name) :
    (constant v).text ≠ (var name).text := by
  intro he
  obtain ⟨c, word, number, hname, hc, -⟩ := h.storage
  rcases constant_unlike_word v with hnan | hinf | hbegins
  · exact h.ne_nan (he.symm.trans hnan)
  · exact h.ne_infinite (he.symm.trans hinf)
  · rw [he] at hbegins
    exact not_beginsNoWord hname hc hbegins

theorem constant_ne_temp (v : Literal) (n : Nat) : (constant v).text ≠ (temp n).text := by
  intro he
  have hchars : (constant v).text.toList = 't' :: (toString n).toList := by
    rw [he]
    exact toList_tempText n
  rcases constant_unlike_word v with hnan | hinf | hbegins
  · rw [hnan] at hchars
    exact absurd (List.cons.inj hchars).1 (by decide)
  · rw [hinf] at hchars
    exact absurd (List.cons.inj hchars).1 (by decide)
  · exact not_beginsNoWord hchars (by decide) hbegins

theorem IsListable.text_injective {o o' : Operand} (ho : o.IsListable) (ho' : o'.IsListable)
    (h : o.text = o'.text) : o = o' := by
  cases o with
  | constant v =>
    cases o' with
    | constant v' => rw [Literal.text_injective h]
    | var name' => exact absurd h (constant_ne_var v (ho' name' rfl))
    | temp n' => exact absurd h (constant_ne_temp v n')
  | var name =>
    cases o' with
    | constant v' => exact absurd h.symm (constant_ne_var v' (ho name rfl))
    | var name' => exact congrArg var h
    | temp n' => exact absurd h ((ho name rfl).ne_temp n')
  | temp n =>
    cases o' with
    | constant v' => exact absurd h.symm (constant_ne_temp v' n)
    | var name' => exact absurd h.symm ((ho' name' rfl).ne_temp n)
    | temp n' => rw [tempText_injective h]

theorem tempText_cell (n : Nat) : Cell (tempText n).toList := by
  rw [toList_tempText]
  exact .plain (List.cons_ne_nil _ _) (List.forall_mem_cons.mpr ⟨by decide, number_isPlain n⟩)

theorem IsListable.cell {o : Operand} (ho : o.IsListable) : Cell o.text.toList := by
  cases o with
  | constant v =>
    cases v with
    | integer n => exact .plain (integer_ne_nil n) (integer_isPlain n)
    | float x =>
      rw [toList_text_float]
      exact .plain x.chars_ne_nil x.chars_isPlain
    | string s =>
      rw [toList_text_string]
      exact .string (escaped_unescapes s.toList)
  | var name => exact .plain (ho name rfl).storage.ne_nil (ho name rfl).storage.isPlain
  | temp n => exact tempText_cell n

end Operand

end MeowScript
