import MeowScript.Command.Host
import MeowScript.Proofs.Drivers.Lines

/-!
# Lines from a line editor

A line editor is relied on for what it hands over when no key to edit with is pressed. The one
without a terminal does so: in UTF-8 the bytes of line feed and carriage return stand for these
characters only, so the lines of bytes are the lines of the text, and each is text again.

Results:
* `Editor.Reliable.types`: the lines of a text without control characters are handed over.
* `eq_of_mem_utf8`: a byte of the ASCII range stands for itself.
* `typedLines_line`: a line without backspaces and carriage returns is typed as it is written.
* `Editor.piped_reliable`: the editor without a terminal can be relied on.
-/
namespace MeowScript

/-! ## What is relied on -/

/-- Whether a line editor may take this character for a key to edit with: the control characters. -/
def IsKey (c : Char) : Prop := c.toNat < 32 ∨ 127 ≤ c.toNat ∧ c.toNat < 160

/-- A line editor that can be set up, takes every entry into its history, and hands over the lines
of standard input as they are until a key to edit with is among them. -/
structure Editor.Reliable {σ : Type} (e : Editor σ) : Prop where
  ready : e.ready = .ok ()
  remembers : ∀ entry, e.remember entry = .ok ()
  handsOver : ∀ (files : σ) (lines : List String) (more : ByteArray),
    (∀ line ∈ lines, ∀ c ∈ line.toList, ¬ IsKey c) →
    lines.map .line <+: e.replies files ((String.join (lines.map (· ++ "\n"))).toUTF8 ++ more)

/-- A text without control characters but line feeds is handed over line by line. -/
theorem Editor.Reliable.types {σ : Type} {e : Editor σ} (h : e.Reliable) {s : String}
    (hs : ∀ c ∈ s.toList, IsKey c → c = '\n') (files : σ) (more : ByteArray) :
    ∃ rest, e.replies files ((s ++ "\n").toUTF8 ++ more) = (linesOf s).map .line ++ rest := by
  have hplain : ∀ line ∈ linesOf s, ∀ c ∈ line.toList, ¬ IsKey c := by
    intro line hline c hc hkey
    obtain ⟨hmem, hfeed⟩ := mem_of_mem_linesOf hline hc
    exact hfeed (hs c hmem hkey)
  obtain ⟨rest, hrest⟩ := h.handsOver files (linesOf s) more hplain
  rw [join_linesOf] at hrest
  exact ⟨rest, hrest.symm⟩

/-! ## Bytes -/

theorem toList_loop (bs : ByteArray) (i : Nat) (r : List UInt8) :
    ByteArray.toList.loop bs i r = r.reverse ++ bs.data.toList.drop i := by
  fun_induction ByteArray.toList.loop bs i r with
  | case1 i r hlt ih =>
    have hi : i < bs.data.toList.length := by simpa using hlt
    have hget : bs.get! i = bs.data.toList[i] := getElem!_pos bs.data i (by simpa using hlt)
    rw [ih, List.drop_eq_getElem_cons hi, hget]
    simp
  | case2 i r hge =>
    rw [List.drop_eq_nil_of_le (by simpa using hge), List.append_nil]

theorem toList_bytes (bs : ByteArray) : bs.toList = bs.data.toList := by
  rw [ByteArray.toList, toList_loop]
  rfl

theorem toList_bytes_append (as bs : ByteArray) : (as ++ bs).toList = as.toList ++ bs.toList := by
  rw [toList_bytes, toList_bytes, toList_bytes, ByteArray.data_append, Array.toList_append]

/-- The bytes of characters. -/
def utf8 (cs : List Char) : List UInt8 := cs.flatMap String.utf8EncodeChar

theorem toList_toUTF8 (s : String) : s.toUTF8.toList = utf8 s.toList := by
  rw [toList_bytes, String.toUTF8_eq_toByteArray, ← String.ofList_toList (s := s),
    String.toByteArray_ofList, List.utf8Encode, List.toList_data_toByteArray]
  simp [utf8]

theorem eq_of_mem_utf8 {c : Char} {b : UInt8} (hb : b ∈ String.utf8EncodeChar c)
    (h : b.toNat < 128) : b.toNat = c.toNat := by
  -- the bytes of a longer sequence are 128 and more
  have hhigh : ∀ n k : Nat, 128 ≤ k → n + k < 256 → ¬ (UInt8.ofNat (n + k)).toNat < 128 := by
    intro n k hk hn
    rw [UInt8.toNat_ofNat', Nat.mod_eq_of_lt hn]
    omega
  have hvalue : c.toNat = c.val.toNat := rfl
  unfold String.utf8EncodeChar at hb
  dsimp only at hb
  rw [hvalue]
  generalize c.val.toNat = v at hb
  split at hb
  · next hv =>
    rw [List.mem_singleton.mp hb, UInt8.toNat_ofNat']
    omega
  · exfalso
    split at hb
    · simp only [List.mem_cons, List.not_mem_nil, or_false] at hb
      rcases hb with rfl | rfl
      all_goals exact hhigh _ _ (by omega) (by omega) h
    · split at hb
      all_goals
        simp only [List.mem_cons, List.not_mem_nil, or_false] at hb
      · rcases hb with rfl | rfl | rfl
        all_goals exact hhigh _ _ (by omega) (by omega) h
      · rcases hb with rfl | rfl | rfl | rfl
        all_goals exact hhigh _ _ (by omega) (by omega) h

/-- Bytes of characters other than line feed and carriage return are other bytes. -/
theorem plain_of_utf8 {c : Char} (hn : c ≠ '\n') (hr : c ≠ '\r') :
    ∀ b ∈ String.utf8EncodeChar c, b ≠ 10 ∧ b ≠ 13 := by
  intro b hb
  constructor
  · rintro rfl
    exact hn (Char.toNat_inj.mp (eq_of_mem_utf8 hb (by decide)).symm)
  · rintro rfl
    exact hr (Char.toNat_inj.mp (eq_of_mem_utf8 hb (by decide)).symm)

/-! ## Lines of bytes -/

theorem byteLines_feed (bytes : List UInt8) : byteLines (10 :: bytes) = [] :: byteLines bytes := by
  rw [byteLines]

theorem byteLines_append {bs bytes line : List UInt8} {lines : List (List UInt8)}
    (hb : ∀ b ∈ bs, b ≠ 10 ∧ b ≠ 13) (h : byteLines bytes = line :: lines) :
    byteLines (bs ++ bytes) = (bs ++ line) :: lines := by
  induction bs with
  | nil => exact h
  | cons b bs ih =>
    obtain ⟨⟨hfeed, hreturn⟩, hrest⟩ := List.forall_mem_cons.mp hb
    rw [List.cons_append, byteLines]
    · rw [ih hrest, List.cons_append]
    · exact hfeed
    · exact fun _ hb _ => hreturn hb

theorem byteLines_utf8 {cs : List Char} (hfeed : '\n' ∉ cs) (hreturn : '\r' ∉ cs)
    (more : List UInt8) : byteLines (utf8 cs ++ 10 :: more) = utf8 cs :: byteLines more := by
  have hplain : ∀ b ∈ utf8 cs, b ≠ 10 ∧ b ≠ 13 := by
    intro b hb
    obtain ⟨c, hc, hb⟩ := List.mem_flatMap.mp hb
    exact plain_of_utf8 (fun h => hfeed (h ▸ hc)) (fun h => hreturn (h ▸ hc)) b hb
  rw [byteLines_append hplain (byteLines_feed more), List.append_nil]

/-! ## Lines of text -/

theorem bytes_utf8 (cs : List Char) :
    ByteArray.mk (utf8 cs).toArray = (String.ofList cs).toUTF8 := by
  refine ByteArray.ext (Array.toList_inj.mp ?_)
  rw [String.toUTF8_eq_toByteArray, String.toByteArray_ofList, List.utf8Encode,
    List.toList_data_toByteArray]
  rfl

theorem fromUTF8?_toUTF8 (s : String) : String.fromUTF8? s.toUTF8 = some s := by
  rw [String.fromUTF8?, String.toUTF8_eq_toByteArray, dif_pos s.isValidUTF8]
  rfl

theorem typedLine_utf8 {cs : List Char} (h : '\x08' ∉ cs) :
    typedLine (utf8 cs) = some (String.ofList cs) := by
  rw [typedLine, bytes_utf8, fromUTF8?_toUTF8, Option.map_some, String.toList_ofList,
    keyed_of_no_backspace h]

/-- A line with its line feed behind it, and more behind that. -/
theorem typedLines_line (line : String) (hfeed : '\n' ∉ line.toList) (hreturn : '\r' ∉ line.toList)
    (hback : '\x08' ∉ line.toList) (more : List UInt8) :
    typedLines ((line ++ "\n").toUTF8.toList ++ more) = .line line :: typedLines more := by
  have hbytes : (line ++ "\n").toUTF8.toList = utf8 line.toList ++ [10] := by
    rw [toList_toUTF8, String.toList_append, utf8, List.flatMap_append]
    rfl
  rw [hbytes, List.append_assoc, List.singleton_append, typedLines, byteLines_utf8 hfeed hreturn,
    List.map_cons, typedLine_utf8 hback, String.ofList_toList]
  rfl

theorem Editor.piped_reliable (σ : Type) : (Editor.piped σ).Reliable where
  ready := rfl
  remembers _ := rfl
  handsOver files lines more hlines := by
    refine ⟨typedLines more.toList, ?_⟩
    show _ = typedLines ((String.join (lines.map (· ++ "\n"))).toUTF8 ++ more).toList
    rw [toList_bytes_append]
    induction lines with
    | nil =>
      have hnone : (String.join ([].map (· ++ "\n"))).toUTF8.toList = [] := by
        rw [List.map_nil, String.join_nil, toList_toUTF8]
        rfl
      rw [hnone]
      rfl
    | cons line lines ih =>
      obtain ⟨hline, hrest⟩ := List.forall_mem_cons.mp hlines
      have hplain : ∀ c : Char, IsKey c → c ∉ line.toList := fun c hc hmem => hline c hmem hc
      have hbytes : (String.join ((line :: lines).map (· ++ "\n"))).toUTF8.toList =
          (line ++ "\n").toUTF8.toList ++ (String.join (lines.map (· ++ "\n"))).toUTF8.toList := by
        rw [← toList_bytes_append, List.map_cons, String.join_cons]
        rfl
      rw [hbytes, List.append_assoc, typedLines_line line (hplain _ (.inl (by decide)))
        (hplain _ (.inl (by decide))) (hplain _ (.inl (by decide))), ← ih hrest]
      rfl

end MeowScript
