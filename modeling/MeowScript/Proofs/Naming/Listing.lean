import MeowScript.Proofs.Naming.Leaves
import MeowScript.Proofs.Number.Value

/-!
# Which names of a listing are ambiguous

In a listing a variable stands under its storage name, a temporary under `t` and its number, and a
constant as it is written. Constants begin with a digit or a quotation mark, which no name does, and
a storage name with a number in it has a point, which no temporary has. That leaves two ways for a
variable to look like something else: the program itself calls it like a temporary of its code, or
it calls it `inf` and has a fraction too large to be finite.

Results:
* `Decimal.layOut_begins`, `constant_begins`: what a constant begins with.
* `storage_begins`: what a storage name begins with.
* `unambiguous_iff`: for which texts no variable looks like something else.
* `listing_ambiguous`: a text for which one does.
-/
namespace MeowScript

/-- The text begins with a character that begins no word. -/
def BeginsNoWord (cs : List Char) : Prop := ∃ c rest, cs = c :: rest ∧ Piece.isWordStart c = false

/-! ## Constants -/

theorem beginsNoWord_of_isDigit {cs : List Char} (h : ∃ c rest, cs = c :: rest ∧ c.isDigit = true) :
    BeginsNoWord cs := by
  obtain ⟨c, rest, hcs, hc⟩ := h
  exact ⟨c, rest, hcs, Piece.isWordStart_of_isDigit hc⟩

theorem toDigits_begins (n : Nat) : BeginsNoWord (Nat.toDigits 10 n) := by
  obtain ⟨c, rest, hcs⟩ := List.exists_cons_of_ne_nil (Nat.toDigits_ne_nil (n := n) (b := 10))
  have hc := Decimal.AllDigits.toDigits n c (hcs ▸ List.mem_cons_self)
  exact beginsNoWord_of_isDigit ⟨c, rest, hcs, hc⟩

theorem Decimal.layOut_begins (d : Decimal) (l : Layout) : BeginsNoWord (d.layOut l) :=
  beginsNoWord_of_isDigit (d.layOut_digit l)

/-- A fraction in a program is not negative, and is infinite at most by its size. -/
theorem Binary64.ofDecimal_chars (n : Nat) (e : Int) :
    ofDecimal false n e = infinity false ∨ BeginsNoWord (ofDecimal false n e).chars := by
  have hpack : ∀ m q, pack false m q = infinity false ∨ BeginsNoWord (pack false m q).chars := by
    intro m q
    unfold pack
    split
    · exact .inr (Decimal.layOut_begins _ _)
    · exact .inl rfl
  have hfraction : ∀ a b, ofFraction false a b = infinity false ∨
      BeginsNoWord (ofFraction false a b).chars := by
    intro a b
    unfold ofFraction
    dsimp only
    split
    · exact hpack _ _
    · exact hpack _ _
  unfold ofDecimal
  split
  · exact hfraction _ _
  · exact hfraction _ _

/-- A constant of a program is written unlike a word, unless it is infinite. -/
theorem constant_begins {source : String} {toks : List Token} (h : tokensOf source = .ok toks)
    {v : Literal} (hv : Spells toks v) :
    v = .float (.infinity false) ∨ BeginsNoWord (Operand.constant v).text.toList := by
  obtain ⟨t, ht, hk⟩ := hv
  rcases tokensOf_kind h ht with hend | ⟨c, cs, hreads⟩
  · rw [hend] at hk
    cases v <;> cases hk
  · rw [hk] at hreads
    cases v with
    | integer n =>
      cases hreads with
      | integer n =>
        rw [Operand.toList_text_integer]
        exact .inr (toDigits_begins n)
    | float x =>
      cases hreads with
      | float n e =>
        rw [Operand.text, Binary64.text, String.toList_ofList, Literal.float.injEq]
        exact Binary64.ofDecimal_chars n e
    | string s =>
      rw [Operand.text, String.toList_ofList]
      exact .inr ⟨'"', _, rfl, by decide⟩

/-! ## Names -/

theorem storage_begins {source : String} {toks : List Token} (h : tokensOf source = .ok toks)
    {name : String} (hm : Mentions toks name) (n : Nat) :
    ¬ BeginsNoWord (storageFor name n).toList := by
  obtain ⟨t, ht, hk⟩ := hm
  obtain ⟨c, cs, hname, hc, -⟩ := tokensOf_identifier_cons h ht hk
  rw [storageFor_toList, hname]
  rintro ⟨d, rest, hd, hword⟩
  rw [(List.cons.inj hd).1, hword] at hc
  cases hc

/-- A storage name without a point is the name itself. -/
theorem storageFor_of_no_point {name : String} {n : Nat} (h : '.' ∉ (storageFor name n).toList) :
    storageFor name n = name := by
  by_cases hn : n = 0
  · rw [hn, storageFor_zero]
  · rw [storageFor_toList, if_neg hn] at h
    exact absurd (List.mem_append_right _ List.mem_cons_self) h

theorem tempText_no_point (n : Nat) : '.' ∉ (Operand.tempText n).toList := by
  intro h
  have hdigits : '.' ∈ Nat.toDigits 10 n := by
    simpa [Operand.tempText, Nat.toString_eq_repr, Nat.repr] using h
  have hdigit := Nat.isDigit_of_mem_toDigits (by decide) (by decide) hdigits
  exact absurd hdigit (by decide)

/-! ## Listings -/

/-- No variable that the code writes or reads is printed like anything else in it. -/
def Unambiguous (code : List Instr) : Prop :=
  ∀ s, .var s ∈ operandsOf code → ∀ o ∈ operandsOf code, o.text = s → o = .var s

/-- The name is printed for something in the code that is no variable. -/
def Reserved (code : List Instr) (name : String) : Prop :=
  (∃ n, .temp n ∈ operandsOf code ∧ name = Operand.tempText n) ∨
    .constant (.float (.infinity false)) ∈ operandsOf code ∧ name = "inf"

/-- **Main.** In the code of a text no variable is printed like a temporary or a constant if and
only if no variable is named in the text itself like a temporary of that code, or `inf` next to a
fraction that is not finite. -/
theorem unambiguous_iff {source : String} {c : Compilation}
    (h : Compilation.ofText source = .ok c) :
    Unambiguous c.code ↔ ∀ name, Mentions c.tokens name → .var name ∈ operandsOf c.code →
      ¬ Reserved c.code name := by
  obtain ⟨tree, htoks, -⟩ := Compilation.of_ofText h
  have horigin := Compilation.operands h
  constructor
  · rintro hu name - hname (⟨n, hn, htext⟩ | ⟨hinf, htext⟩)
    · cases hu name hname _ hn htext.symm
    · have hprinted : (Operand.constant (.float (.infinity false))).text = "inf" := by decide
      cases hu name hname _ hinf (hprinted.trans htext.symm)
  · intro hfree s hs o ho htext
    obtain ⟨name, n, hm, rfl⟩ := horigin _ hs
    cases o with
    | var w => rw [← htext]; rfl
    | temp k =>
      -- a temporary has no point, so the variable stands under its own name
      have hown : storageFor name n = name := storageFor_of_no_point (htext ▸ tempText_no_point k)
      rw [hown] at hs htext
      exact absurd (.inl ⟨k, ho, htext.symm⟩) (hfree name hm hs)
    | constant v =>
      rcases constant_begins htoks (horigin _ ho) with rfl | hbegins
      · have hprinted : (Operand.constant (.float (.infinity false))).text = "inf" := by decide
        rw [hprinted] at htext
        have hown : storageFor name n = name := storageFor_of_no_point (by rw [← htext]; decide)
        rw [hown] at hs htext
        exact absurd (.inr ⟨ho, htext.symm⟩) (hfree name hm hs)
      · rw [htext] at hbegins
        exact absurd hbegins (storage_begins htoks hm n)

/-- A variable called like the second temporary, where there is one only. -/
def unreservedText : String := "Wake Box t1 paws 1 + 2 Meow(t1) Sleep"

theorem unambiguous_iff_unreserved :
    ∃ c, Compilation.ofText unreservedText = .ok c ∧
      c.listing = "    t0 = 1 + 2\n    t1 = t0\n    print t1\n" ∧ Unambiguous c.code := by
  have hcompiled : (Compilation.ofText unreservedText).toOption.map
      (fun c => (c.listing, operandsOf c.code)) =
      some ("    t0 = 1 + 2\n    t1 = t0\n    print t1\n",
        [.temp 0, .constant (.integer 1), .constant (.integer 2), .var "t1", .temp 0,
          .var "t1"]) := by
    decide +kernel
  obtain ⟨c, hc, hfound⟩ := Option.map_eq_some_iff.mp hcompiled
  obtain ⟨hlisting, hoperands⟩ := Prod.mk.inj hfound
  have htext := toOption_eq_some.mp hc
  refine ⟨c, htext, hlisting, (unambiguous_iff htext).mpr fun name _ hname hreserved => ?_⟩
  have hname : name = "t1" := by simpa [hoperands] using hname
  subst hname
  rcases hreserved with ⟨n, hn, hprinted⟩ | ⟨hinf, -⟩
  · have hn : n = 0 := by simpa [hoperands] using hn
    subst hn
    exact absurd hprinted (by decide)
  · simp [hoperands] at hinf

/-- A variable called like the temporary that its value is computed in: the listing copies `t0` to
`t0`. -/
theorem listing_ambiguous :
    ∃ c, Compilation.ofText "Wake Box t0 paws 1 + 2 Sleep" = .ok c ∧
      c.listing = "    t0 = 1 + 2\n    t0 = t0\n" ∧ ¬ Unambiguous c.code := by
  have hcompiled : (Compilation.ofText "Wake Box t0 paws 1 + 2 Sleep").toOption.map
      (fun c => (c.listing, operandsOf c.code)) =
      some ("    t0 = 1 + 2\n    t0 = t0\n",
        [.temp 0, .constant (.integer 1), .constant (.integer 2), .var "t0", .temp 0]) := by
    decide +kernel
  obtain ⟨c, hc, hfound⟩ := Option.map_eq_some_iff.mp hcompiled
  obtain ⟨hlisting, hoperands⟩ := Prod.mk.inj hfound
  refine ⟨c, toOption_eq_some.mp hc, hlisting, fun hunambiguous => ?_⟩
  have hvar : Operand.var "t0" ∈ operandsOf c.code := by simp [hoperands]
  have htemp : Operand.temp 0 ∈ operandsOf c.code := by simp [hoperands]
  cases hunambiguous "t0" hvar (.temp 0) htemp (by decide)

end MeowScript
