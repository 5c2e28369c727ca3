import MeowScript.Proofs.Drivers.Lines
import MeowScript.Proofs.Listing.Operands
import MeowScript.Proofs.Naming.Leaves

/-!
# A listing tells its code

Each instruction is printed as a row of cells on one line, and strings cannot break out of their
cell. Which instruction it is shows in the number of cells and in words at places where no operand
stands. So code with the same listing is the same, up to types, which are not printed.

Results:
* `Instr.toList_text`: the text of an instruction is a row of cells.
* `Instr.cells_injective`, `Instr.body_injective`: the cells and the line of an instruction tell it.
* `linesOf_listing`: a listing has one line for each instruction.
* `listing_determines`: with these, a listing tells its code.
-/
namespace MeowScript

namespace Instr

/-! ## Cells of an instruction -/

/-- The cells of the line of an instruction. -/
def cells : Instr → List String
  | copy dest source => [dest, "=", source.text]
  | binary dest op left right _ =>
    [Operand.tempText dest, "=", left.text, op.symbol, right.text]
  | unary dest op operand _ => [Operand.tempText dest, "=", op.symbol ++ operand.text]
  | label n => [labelText n ++ ":"]
  | ifFalse condition target => ["if_false", condition.text, "goto", labelText target]
  | goto target => ["goto", labelText target]
  | call dest name count => [Operand.tempText dest, "=", "call", name ++ ",", toString count]
  | param value => ["param", value.text]
  | bring value => ["return", value.text]
  | print value => ["print", value.text]
  | beginFunction name => ["begin_func", name]
  | endFunction name => ["end_func", name]

theorem toList_text (i : Instr) : i.text.toList = row i.cells := by
  cases i <;> simp [text, cells, row]

/-- The function that an instruction names. -/
def function? : Instr → Option String
  | call _ name _ | beginFunction name | endFunction name => some name
  | _ => none

/-- The names in an instruction are such that it can be told from its line. -/
structure IsListable (i : Instr) : Prop where
  function : ∀ name, i.function? = some name → IsStorage name
  written : ∀ o, i.written? = some o → o.IsListable
  read : ∀ o ∈ i.read, o.IsListable

/-- The instruction without the type of its result. -/
def untyped : Instr → Instr
  | binary dest op left right _ => binary dest op left right .unknown
  | unary dest op operand _ => unary dest op operand .unknown
  | i => i

theorem keyword_cell {s : String} (hne : s.toList ≠ []) (h : s.toList.all isPlain = true) :
    Cell s.toList :=
  .plain hne (List.all_eq_true.mp h)

theorem symbol_cell (op : BinaryOp) : Cell op.symbol.toList := by
  cases op
  all_goals exact keyword_cell (by decide) (by decide)

theorem signed_cell (op : UnaryOp) {o : Operand} (ho : o.IsListable) :
    Cell (op.symbol ++ o.text).toList := by
  rw [String.toList_append]
  cases op
  all_goals exact ho.cell.cons (by decide)

/-- A mark behind a name belongs to its cell. -/
theorem marked_cell {s mark : String} (h : ∀ c ∈ s.toList, isPlain c = true)
    (hne : mark.toList ≠ []) (hmark : mark.toList.all isPlain = true) :
    Cell (s ++ mark).toList := by
  rw [String.toList_append]
  refine .plain (List.append_ne_nil_of_right_ne_nil _ hne) (List.forall_mem_append.mpr ⟨h, ?_⟩)
  exact List.all_eq_true.mp hmark

theorem labelText_isPlain (n : Nat) : ∀ c ∈ (labelText n).toList, isPlain c = true := by
  rw [labelText, String.toList_append]
  exact List.forall_mem_cons.mpr ⟨by decide, number_isPlain n⟩

theorem labelText_cell (n : Nat) : Cell (labelText n).toList := by
  refine .plain ?_ (labelText_isPlain n)
  rw [labelText, String.toList_append]
  exact List.cons_ne_nil _ _

theorem number_cell (n : Nat) : Cell (toString n).toList := by
  refine .plain ?_ (number_isPlain n)
  rw [toList_toString]
  exact Nat.toDigits_ne_nil

theorem cell_of_mem_cells {i : Instr} (h : i.IsListable) : ∀ cell ∈ i.cells, Cell cell.toList := by
  have hequals : Cell "=".toList := keyword_cell (by decide) (by decide)
  have hgoto : Cell "goto".toList := keyword_cell (by decide) (by decide)
  have hread : ∀ o ∈ i.read, Cell o.text.toList := fun o ho => (h.read o ho).cell
  have hname : ∀ name, i.function? = some name → Cell name.toList :=
    fun name hf => .plain (h.function name hf).ne_nil (h.function name hf).isPlain
  cases i
  all_goals
    simp only [cells, List.forall_mem_cons, List.not_mem_nil, false_imp_iff, implies_true, and_true]
  case copy dest a =>
    exact ⟨(h.written _ rfl).cell, hequals, hread a (by simp [read])⟩
  case binary dest op left right ty =>
    exact ⟨Operand.tempText_cell dest, hequals, hread left (by simp [read]), symbol_cell op,
      hread right (by simp [read])⟩
  case unary dest op a ty =>
    exact ⟨Operand.tempText_cell dest, hequals, signed_cell op (h.read a (by simp [read]))⟩
  case label n => exact marked_cell (labelText_isPlain n) (by decide) (by decide)
  case ifFalse a n =>
    exact ⟨keyword_cell (by decide) (by decide), hread a (by simp [read]), hgoto, labelText_cell n⟩
  case goto n => exact ⟨hgoto, labelText_cell n⟩
  case call dest name count =>
    exact ⟨Operand.tempText_cell dest, hequals, keyword_cell (by decide) (by decide),
      marked_cell (h.function name rfl).isPlain (by decide) (by decide), number_cell count⟩
  case param a => exact ⟨keyword_cell (by decide) (by decide), hread a (by simp [read])⟩
  case bring a => exact ⟨keyword_cell (by decide) (by decide), hread a (by simp [read])⟩
  case print a => exact ⟨keyword_cell (by decide) (by decide), hread a (by simp [read])⟩
  case beginFunction name => exact ⟨keyword_cell (by decide) (by decide), hname name rfl⟩
  case endFunction name => exact ⟨keyword_cell (by decide) (by decide), hname name rfl⟩

/-! ## An instruction told from its cells -/

theorem signed_injective {op op' : UnaryOp} {s s' : String}
    (h : op.symbol ++ s = op'.symbol ++ s') : op = op' ∧ s = s' := by
  have hchars := congrArg String.toList h
  rw [String.toList_append, String.toList_append] at hchars
  have hop : op = op' := by
    cases op <;> cases op'
    · rfl
    · exact absurd (List.cons.inj hchars).1 (by decide)
    · exact absurd (List.cons.inj hchars).1 (by decide)
    · rfl
  subst hop
  exact ⟨rfl, String.append_right_inj _ |>.mp h⟩

/-- No operator ends in a comma. -/
theorem symbol_ne_marked (op : BinaryOp) (name : String) : op.symbol ≠ name ++ "," := by
  intro h
  have hcomma : ',' ∈ op.symbol.toList := by
    rw [h, String.toList_append]
    exact List.mem_append_right _ (by decide)
  revert hcomma
  cases op <;> decide

theorem cells_injective {i j : Instr} (hi : i.IsListable) (hj : j.IsListable)
    (h : i.cells = j.cells) : i.untyped = j.untyped := by
  have hread : ∀ o ∈ i.read, ∀ o' ∈ j.read, o.text = o'.text → o = o' :=
    fun o ho o' ho' => (hi.read o ho).text_injective (hj.read o' ho')
  cases i with
  | copy dest a =>
    cases j with
    | copy dest' a' =>
      simp only [cells, List.cons.injEq, true_and, and_true] at h
      rw [h.1, hread a (by simp [read]) a' (by simp [read]) h.2]
    | unary dest' op' a' ty' =>
      simp only [cells, List.cons.injEq] at h
      exact absurd h.1 ((hi.written _ rfl dest rfl).ne_temp dest')
    | _ => simp [cells] at h
  | binary dest op left right ty =>
    cases j with
    | binary dest' op' left' right' ty' =>
      simp only [cells, List.cons.injEq, true_and, and_true] at h
      obtain ⟨hdest, hleft, hop, hright⟩ := h
      rw [untyped, untyped, tempText_injective hdest, BinaryOp.symbol_injective hop,
        hread left (by simp [read]) left' (by simp [read]) hleft,
        hread right (by simp [read]) right' (by simp [read]) hright]
    | call dest' name' count' =>
      simp only [cells, List.cons.injEq] at h
      exact absurd h.2.2.2.1 (symbol_ne_marked op name')
    | _ => simp [cells] at h
  | unary dest op a ty =>
    cases j with
    | unary dest' op' a' ty' =>
      simp only [cells, List.cons.injEq, true_and, and_true] at h
      obtain ⟨rfl, ha⟩ := signed_injective h.2
      rw [untyped, untyped, tempText_injective h.1, hread a (by simp [read]) a' (by simp [read]) ha]
    | copy dest' a' =>
      simp only [cells, List.cons.injEq] at h
      exact absurd h.1.symm ((hj.written _ rfl dest' rfl).ne_temp dest)
    | _ => simp [cells] at h
  | label n =>
    cases j with
    | label n' =>
      simp only [cells, List.cons.injEq, and_true] at h
      rw [labelText_injective (String.append_left_inj _ |>.mp h)]
    | _ => simp [cells] at h
  | ifFalse a n =>
    cases j with
    | ifFalse a' n' =>
      simp only [cells, List.cons.injEq, true_and, and_true] at h
      rw [hread a (by simp [read]) a' (by simp [read]) h.1, labelText_injective h.2]
    | _ => simp [cells] at h
  | goto n =>
    cases j with
    | goto n' =>
      simp only [cells, List.cons.injEq, true_and, and_true] at h
      rw [labelText_injective h]
    | _ => simp [cells] at h
  | call dest name count =>
    cases j with
    | call dest' name' count' =>
      simp only [cells, List.cons.injEq, true_and, and_true] at h
      obtain ⟨hdest, hname, hcount⟩ := h
      rw [tempText_injective hdest, String.append_left_inj _ |>.mp hname,
        toString_injective hcount]
    | binary dest' op' left' right' ty' =>
      simp only [cells, List.cons.injEq] at h
      exact absurd h.2.2.2.1.symm (symbol_ne_marked op' name)
    | _ => simp [cells] at h
  | param a =>
    cases j with
    | param a' =>
      simp only [cells, List.cons.injEq, true_and, and_true] at h
      rw [hread a (by simp [read]) a' (by simp [read]) h]
    | _ => simp [cells] at h
  | bring a =>
    cases j with
    | bring a' =>
      simp only [cells, List.cons.injEq, true_and, and_true] at h
      rw [hread a (by simp [read]) a' (by simp [read]) h]
    | _ => simp [cells] at h
  | print a =>
    cases j with
    | print a' =>
      simp only [cells, List.cons.injEq, true_and, and_true] at h
      rw [hread a (by simp [read]) a' (by simp [read]) h]
    | _ => simp [cells] at h
  | beginFunction name =>
    cases j with
    | beginFunction name' =>
      simp only [cells, List.cons.injEq, true_and, and_true] at h
      rw [h]
    | _ => simp [cells] at h
  | endFunction name =>
    cases j with
    | endFunction name' =>
      simp only [cells, List.cons.injEq, true_and, and_true] at h
      rw [h]
    | _ => simp [cells] at h

/-! ## An instruction told from its line -/

/-- The line of an instruction without the line feed. -/
def body (i : Instr) : String := (if i.isMark then "" else "    ") ++ i.text

theorem line_eq (i : Instr) : i.line = i.body ++ "\n" := rfl

theorem body_untyped (i : Instr) : i.untyped.body = i.body := by
  cases i <;> rfl

theorem text_inj {i j : Instr} (hi : i.IsListable) (hj : j.IsListable) (h : i.text = j.text) :
    i.untyped = j.untyped := by
  have hrow := congrArg String.toList h
  rw [toList_text, toList_text] at hrow
  exact cells_injective hi hj (row_inj (cell_of_mem_cells hi) (cell_of_mem_cells hj) hrow)

/-- The text of an instruction is not indented further. -/
theorem text_ne_indented {i : Instr} (hi : i.IsListable) (s : String) : "    " ++ s ≠ i.text := by
  intro h
  have hhead := row_head (cell_of_mem_cells hi)
  rw [← toList_text, ← h, String.toList_append] at hhead
  exact hhead rfl

theorem body_injective {i j : Instr} (hi : i.IsListable) (hj : j.IsListable)
    (h : i.body = j.body) : i.untyped = j.untyped := by
  unfold body at h
  cases hmi : i.isMark <;> cases hmj : j.isMark <;>
    simp only [hmi, hmj, if_true, if_false, Bool.false_eq_true, String.empty_append] at h
  · exact text_inj hi hj (String.append_right_inj _ |>.mp h)
  · exact absurd h (text_ne_indented hj _)
  · exact absurd h.symm (text_ne_indented hi _)
  · exact text_inj hi hj h

theorem feed_notMem_body {i : Instr} (hi : i.IsListable) : '\n' ∉ i.body.toList := by
  rw [body, String.toList_append, toList_text, List.mem_append, not_or]
  refine ⟨?_, feed_notMem_row (cell_of_mem_cells hi)⟩
  split <;> decide

end Instr

/-! ## Listings -/

/-- Every instruction on a line of its own, and nothing behind the last line feed. -/
theorem linesOf_listing {code : List Instr} (h : ∀ i ∈ code, i.IsListable) :
    linesOf (listing code) = code.map Instr.body ++ [""] :=
  linesOf_join fun i hi => Instr.feed_notMem_body (h i hi)

theorem listing_untyped (code : List Instr) : listing (code.map Instr.untyped) = listing code := by
  rw [listing, List.map_map, listing]
  congr 1
  exact List.map_congr_left fun i _ => by
    rw [Function.comp_apply, Instr.line_eq, Instr.line_eq, Instr.body_untyped]

theorem bodies_injective {a b : List Instr} (ha : ∀ i ∈ a, i.IsListable)
    (hb : ∀ i ∈ b, i.IsListable) (h : a.map Instr.body = b.map Instr.body) :
    a.map Instr.untyped = b.map Instr.untyped :=
  map_eq_of_lines_eq (fun i hi j hj => Instr.body_injective (ha i hi) (hb j hj)) h

/-- **Main.** In a listing every instruction has one line, whatever is in its strings; and two
listings are the same if and only if the code is the same up to the types of its results. Here
variables may be called like words of the listing, but not like a temporary or a number. -/
theorem listing_determines :
    (∀ code : List Instr, (∀ i ∈ code, i.IsListable) →
      linesOf (listing code) = code.map Instr.body ++ [""]) ∧
    ∀ a b : List Instr, (∀ i ∈ a, i.IsListable) → (∀ i ∈ b, i.IsListable) →
      (listing a = listing b ↔ a.map Instr.untyped = b.map Instr.untyped) := by
  refine ⟨fun code h => linesOf_listing h, fun a b ha hb => ⟨fun h => ?_, fun h => ?_⟩⟩
  · have hlines := congrArg linesOf h
    rw [linesOf_listing ha, linesOf_listing hb] at hlines
    exact bodies_injective ha hb (List.append_cancel_right hlines)
  · rw [← listing_untyped a, h, listing_untyped]

/-- Names like the words of a listing, and a string that goes on like one. -/
def imitating : List Instr :=
  [.copy "goto" (.constant (.string "\n    goto L0\n\" + 1")),
    .binary 0 .add (.var "call") (.var "param.1") .integer, .call 1 "print" 2]

/-- The same, but for an instruction in place of the string. -/
def imitated : List Instr :=
  [.copy "goto" (.constant (.string "")), .goto 0,
    .binary 0 .add (.var "call") (.var "param.1") .unknown, .call 1 "print" 2]

theorem listing_determines_imitating :
    (∀ i ∈ imitating, i.IsListable) ∧ (∀ i ∈ imitated, i.IsListable) ∧
    linesOf (listing imitating) =
      ["    goto = \"\\n    goto L0\\n\\\" + 1\"", "    t0 = call + param.1",
        "    t1 = call print, 2", ""] ∧
    listing imitating ≠ listing imitated := by
  have hgoto : IsStorage (storageFor "goto" 0) := storageFor_isStorage (c := 'g') rfl rfl rfl 0
  have hcall : IsStorage (storageFor "call" 0) := storageFor_isStorage (c := 'c') rfl rfl rfl 0
  have hparam : IsStorage (storageFor "param" 1) := storageFor_isStorage (c := 'p') rfl rfl rfl 1
  have hprint : IsStorage (storageFor "print" 0) := storageFor_isStorage (c := 'p') rfl rfl rfl 0
  have hcopy : ∀ s, (Instr.copy "goto" (.constant (.string s))).IsListable := by
    refine fun s => ⟨nofun, ?_, ?_⟩
    · rintro o ⟨⟩ name ⟨⟩
      exact hgoto.isVariable (by decide) (by decide) (by decide)
    · exact List.forall_mem_singleton.mpr nofun
  have hbinary : ∀ ty, (Instr.binary 0 .add (.var "call") (.var "param.1") ty).IsListable := by
    refine fun ty => ⟨nofun, ?_, List.forall_mem_cons.mpr ⟨?_, List.forall_mem_singleton.mpr ?_⟩⟩
    · rintro o ⟨⟩ name ⟨⟩
    · rintro name ⟨⟩
      exact hcall.isVariable (by decide) (by decide) (by decide)
    · rintro name ⟨⟩
      exact hparam.isVariable (by decide) (by decide) (by decide)
  have hcalls : (Instr.call 1 "print" 2).IsListable := by
    refine ⟨?_, ?_, nofun⟩
    · rintro name ⟨⟩
      exact hprint
    · rintro o ⟨⟩ name ⟨⟩
  have himitating : ∀ i ∈ imitating, i.IsListable := by simp [imitating, hcopy, hbinary, hcalls]
  have himitated : ∀ i ∈ imitated, i.IsListable := by
    have hjump : (Instr.goto 0).IsListable := ⟨nofun, nofun, nofun⟩
    simp [imitated, hcopy, hjump, hbinary, hcalls]
  refine ⟨himitating, himitated, (listing_determines.1 imitating himitating).trans (by decide),
    fun h => ?_⟩
  have hcode := (listing_determines.2 imitating imitated himitating himitated).mp h
  exact absurd hcode (by decide)

end MeowScript
