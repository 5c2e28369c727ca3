import MeowScript.Proofs.Listing.Determined
import MeowScript.Proofs.Outline.Quoted
import MeowScript.Proofs.Outline.Sketch

/-!
# Rows of an outline are read back

The label of a row is a row of cells: a keyword, what it is about, and for an expression its type. A
storage name is noted where it is not the name, so it is told where every variable has one. Names
are words, so the name of a function ends at the parenthesis behind it; and no label begins with a
blank, so the depth of a row is told as well.

Results:
* `Heading.toList_label`: a label is a row of cells.
* `parameterCells_inj`: the parameters of a function are told from their cells.
* `Heading.cells_injective`: headings are told from their cells.
* `rows_of_text_eq`: with these, rows are told from their text.
-/
namespace MeowScript

/-! ## Cells of a heading -/

/-- Parameters with a comma behind each but the last, and what closes them. -/
def parameterCells : List String → List String
  | [] => [")"]
  | [p] => [p ++ ")"]
  | p :: q :: ps => (p ++ ",") :: parameterCells (q :: ps)

@[simp] theorem parameterCells_ne_nil (ps : List String) : parameterCells ps ≠ [] := by
  fun_cases parameterCells ps <;> exact List.cons_ne_nil _ _

def noteCells (name : String) : Option String → List String
  | none => []
  | some storage => if storage = name then [] else ["as", storage]

def Literal.cells : Literal → List String
  | integer n => ["Integer", toString n]
  | float x => ["Float", x.text]
  | string s => ["String", Text.quoted s]

namespace Heading

def cells : Heading → List String
  | literal v t => v.cells ++ [":", t.text]
  | var name storage t => "Identifier" :: name :: (noteCells name storage ++ [":", t.text])
  | binary op t => ["BinaryOp", op.symbol, ":", t.text]
  | unary op t => ["UnaryOp", op.symbol, ":", t.text]
  | call name t => ["Call", name, ":", t.text]
  | declare name storage => "VarDecl" :: name :: noteCells name storage
  | assign name storage => "Assign" :: name :: noteCells name storage
  | define name params => "FunctionDef" :: (parameterCells params).modifyHead (name ++ "(" ++ ·)
  | callAlone name => ["CallStmt", name]
  | mark m => [m.text]

end Heading

/-! ## A label is a row of cells -/

theorem row_cons {cells : List String} (hne : cells ≠ []) (cell : String) :
    row (cell :: cells) = cell.toList ++ ' ' :: row cells := by
  obtain ⟨first, others, rfl⟩ := List.exists_cons_of_ne_nil hne
  simp [row]

theorem row_modifyHead {cells : List String} (hne : cells ≠ []) (front : String) :
    row (cells.modifyHead (front ++ ·)) = front.toList ++ row cells := by
  obtain ⟨first, others, rfl⟩ := List.exists_cons_of_ne_nil hne
  simp [row]

theorem toList_storageNote (name : String) (storage : Option String) :
    (Outline.storageNote name storage).toList =
      (noteCells name storage).flatMap fun cell => ' ' :: cell.toList := by
  fun_cases noteCells name storage <;> simp_all [Outline.storageNote]

theorem toList_parameters (ps : List String) :
    (", ".intercalate ps).toList ++ [')'] = row (parameterCells ps) := by
  fun_induction parameterCells ps with
  | case1 => rfl
  | case2 p => simp [row]
  | case3 p q ps ih =>
    rw [row_cons (parameterCells_ne_nil _), ← ih, String.intercalate_cons_cons]
    simp

theorem Heading.toList_label (h : Heading) : h.label.toList = row h.cells := by
  cases h with
  | literal v t =>
    cases v <;> simp [label, cells, Literal.cells, row, Outline.typed, Outline.literal]
  | var name storage t => simp [label, cells, row, Outline.typed, toList_storageNote]
  | binary op t => simp [label, cells, row, Outline.typed]
  | unary op t => simp [label, cells, row, Outline.typed]
  | call name t => simp [label, cells, row, Outline.typed]
  | declare name storage => simp [label, cells, row, toList_storageNote]
  | assign name storage => simp [label, cells, row, toList_storageNote]
  | define name params =>
    have hne := parameterCells_ne_nil params
    rw [cells, row_cons (by simp), row_modifyHead hne, ← toList_parameters]
    simp [label]
  | callAlone name => simp [label, cells, row]
  | mark m => simp [label, cells, row]

/-! ## Legible headings -/

namespace Heading

def names : Heading → List String
  | var name _ _ | call name _ | declare name _ | assign name _ | callAlone name => [name]
  | define name params => name :: params
  | literal _ _ | binary _ _ | unary _ _ | mark _ => []

/-- The storage name, if the heading is about a variable. -/
def storage? : Heading → Option (Option String)
  | var _ storage _ | declare _ storage | assign _ storage => some storage
  | _ => none

/-- All names are words, and variables have storage names. -/
structure IsLegible (h : Heading) : Prop where
  named : ∀ name ∈ h.names, IsWord name
  ne_empty : ∀ name ∈ h.names, name.toList ≠ []
  stored : ∀ storage, h.storage? = some storage → ∃ s, storage = some s ∧ IsStorage s

end Heading

/-! ## Parameters and notes -/

section
variable {name name' : String}

theorem IsWord.isPlain (h : IsWord name) : ∀ c ∈ name.toList, isPlain c = true :=
  fun c hc => isPlain_of_isWordChar (h c hc)

theorem parameterCells_cell {ps : List String} (h : ∀ p ∈ ps, IsWord p) :
    ∀ cell ∈ parameterCells ps, Cell cell.toList := by
  fun_induction parameterCells ps with
  | case1 => exact List.forall_mem_singleton.mpr (Instr.keyword_cell (by decide) (by decide))
  | case2 p =>
    rw [List.forall_mem_singleton] at h ⊢
    exact Instr.marked_cell h.isPlain (by decide) (by decide)
  | case3 p q ps ih =>
    rw [List.forall_mem_cons] at h ⊢
    exact ⟨Instr.marked_cell h.1.isPlain (by decide) (by decide), ih h.2⟩

/-- The cells are as many as the parameters, but for one that is there without any. -/
theorem parameterCells_inj {ps qs : List String} (hp : ∀ p ∈ ps, p.toList ≠ [])
    (hq : ∀ q ∈ qs, q.toList ≠ []) (h : parameterCells ps = parameterCells qs) : ps = qs := by
  have hsingle : ∀ p : String, p.toList ≠ [] → parameterCells [p] ≠ parameterCells [] := by
    intro p hne he
    have hchars := congrArg String.toList (List.cons.inj he).1
    rw [String.toList_append] at hchars
    exact hne (List.append_left_eq_self.mp hchars)
  induction ps generalizing qs with
  | nil =>
    rcases qs with - | ⟨q, - | ⟨q', qs⟩⟩
    · rfl
    · exact absurd h.symm (hsingle q (hq q List.mem_cons_self))
    · exact absurd (List.cons.inj h).2.symm (parameterCells_ne_nil _)
  | cons p ps ih =>
    rcases ps with - | ⟨p', ps⟩
    · rcases qs with - | ⟨q, - | ⟨q', qs⟩⟩
      · exact absurd h (hsingle p (hp p List.mem_cons_self))
      · rw [String.append_left_inj _ |>.mp (List.cons.inj h).1]
      · exact absurd (List.cons.inj h).2.symm (parameterCells_ne_nil _)
    · rcases qs with - | ⟨q, - | ⟨q', qs⟩⟩
      · exact absurd (List.cons.inj h).2 (parameterCells_ne_nil _)
      · exact absurd (List.cons.inj h).2 (parameterCells_ne_nil _)
      · obtain ⟨hfirst, hrest⟩ := List.cons.inj h
        rw [String.append_left_inj _ |>.mp hfirst, ih (List.forall_mem_cons.mp hp).2
          (List.forall_mem_cons.mp hq).2 hrest]

/-- The name of a function ends at the parenthesis. -/
theorem opened_inj {s s' : String} (hname : IsWord name) (hname' : IsWord name')
    (h : name ++ "(" ++ s = name' ++ "(" ++ s') : name = name' ∧ s = s' := by
  have hstops : ∀ cs, Stops Piece.isWordChar ('(' :: cs) := by
    rintro cs c ⟨⟩
    rfl
  have hchars := congrArg String.toList h
  simp only [String.toList_append, List.append_assoc] at hchars
  obtain ⟨hsame, hrest⟩ := append_inj_of_stops hname hname' (hstops _) (hstops _) hchars
  exact ⟨String.toList_inj.mp hsame, String.toList_inj.mp (List.cons.inj hrest).2⟩

theorem signature_inj {ps qs : List String} (hname : IsWord name) (hname' : IsWord name')
    (hp : ∀ p ∈ ps, p.toList ≠ []) (hq : ∀ q ∈ qs, q.toList ≠ [])
    (h : (parameterCells ps).modifyHead (name ++ "(" ++ ·) =
      (parameterCells qs).modifyHead (name' ++ "(" ++ ·)) : name = name' ∧ ps = qs := by
  obtain ⟨c, cs, hps⟩ := List.exists_cons_of_ne_nil (parameterCells_ne_nil ps)
  obtain ⟨d, ds, hqs⟩ := List.exists_cons_of_ne_nil (parameterCells_ne_nil qs)
  rw [hps, hqs, List.modifyHead_cons, List.modifyHead_cons, List.cons.injEq] at h
  obtain ⟨hsame, hfirst⟩ := opened_inj hname hname' h.1
  exact ⟨hsame, parameterCells_inj hp hq (by rw [hps, hqs, hfirst, h.2])⟩

theorem noteCells_inj {s s' : String}
    (h : noteCells name (some s) = noteCells name (some s')) : s = s' := by
  unfold noteCells at h
  dsimp only at h
  split_ifs at h with hs hs'
  · rw [hs, hs']
  · exact (List.cons.inj (List.cons.inj h).2).1

theorem noteCells_cell {storage : Option String} (h : ∃ s, storage = some s ∧ IsStorage s) :
    ∀ cell ∈ noteCells name storage, Cell cell.toList := by
  obtain ⟨s, rfl, hs⟩ := h
  unfold noteCells
  dsimp only
  split_ifs
  · exact List.forall_mem_nil _
  · exact List.forall_mem_cons.mpr ⟨Instr.keyword_cell (by decide) (by decide),
      List.forall_mem_singleton.mpr (.plain hs.ne_nil hs.isPlain)⟩

end

/-! ## Headings are told from their cells -/

theorem Cell.front {a front : List Char} (h : Cell a) (hfront : ∀ c ∈ front, isPlain c = true) :
    Cell (front ++ a) := by
  induction front with
  | nil => exact h
  | cons c front ih =>
    rw [List.forall_mem_cons] at hfront
    exact (ih hfront.2).cons hfront.1

theorem Ty.text_cell (t : Ty) : Cell t.text.toList := by
  cases t <;> exact Instr.keyword_cell (by decide) (by decide)

theorem Ty.text_injective {t t' : Ty} (h : t.text = t'.text) : t = t' := by
  revert h
  cases t <;> cases t' <;> decide

theorem UnaryOp.symbol_injective {op op' : UnaryOp} (h : op.symbol = op'.symbol) : op = op' := by
  revert h
  cases op <;> cases op' <;> decide

theorem Mark.text_injective {m m' : Mark} (h : m.text = m'.text) : m = m' := by
  revert h
  cases m <;> cases m' <;> decide

theorem Literal.cells_cell (v : Literal) : ∀ cell ∈ v.cells, Cell cell.toList := by
  -- the keyword of a constant is the name of its type
  have hkeyword : ∀ t : Ty, Cell t.text.toList := Ty.text_cell
  cases v with
  | integer n =>
    exact List.forall_mem_cons.mpr ⟨hkeyword .integer,
      List.forall_mem_singleton.mpr (.plain (integer_ne_nil n) (integer_isPlain n))⟩
  | float x =>
    refine List.forall_mem_cons.mpr ⟨hkeyword .float, List.forall_mem_singleton.mpr ?_⟩
    rw [Binary64.text, String.toList_ofList]
    exact .plain x.chars_ne_nil x.chars_isPlain
  | string s =>
    exact List.forall_mem_cons.mpr ⟨hkeyword .string,
      List.forall_mem_singleton.mpr (Text.quoted_cell s)⟩

theorem Literal.cells_injective {v w : Literal} (h : v.cells = w.cells) : v = w := by
  cases v <;> cases w <;> simp only [cells, List.cons.injEq, and_true, true_and] at h
  case integer.integer => rw [integer_injective h]
  case float.float => rw [Binary64.text_injective h]
  case string.string => rw [Text.quoted_injective h]
  all_goals exact absurd h.1 (by decide)

namespace Heading

variable {h h' : Heading}

theorem IsLegible.cell (hh : h.IsLegible) : ∀ cell ∈ h.cells, Cell cell.toList := by
  have hname : ∀ name ∈ h.names, Cell name.toList :=
    fun name hn => .plain (hh.ne_empty name hn) (hh.named name hn).isPlain
  have htype : ∀ t : Ty, ∀ cell ∈ [":", t.text], Cell cell.toList := fun t =>
    List.forall_mem_cons.mpr ⟨Instr.keyword_cell (by decide) (by decide),
      List.forall_mem_singleton.mpr t.text_cell⟩
  cases h with
  | literal v t => exact List.forall_mem_append.mpr ⟨v.cells_cell, htype t⟩
  | var name storage t =>
    refine List.forall_mem_cons.mpr ⟨Instr.keyword_cell (by decide) (by decide), ?_⟩
    refine List.forall_mem_cons.mpr ⟨hname name List.mem_cons_self, ?_⟩
    exact List.forall_mem_append.mpr ⟨noteCells_cell (hh.stored storage rfl), htype t⟩
  | binary op t =>
    refine List.forall_mem_cons.mpr ⟨Instr.keyword_cell (by decide) (by decide), ?_⟩
    exact List.forall_mem_cons.mpr ⟨Instr.symbol_cell op, htype t⟩
  | unary op t =>
    refine List.forall_mem_cons.mpr ⟨Instr.keyword_cell (by decide) (by decide), ?_⟩
    refine List.forall_mem_cons.mpr ⟨?_, htype t⟩
    cases op <;> exact Instr.keyword_cell (by decide) (by decide)
  | call name t =>
    refine List.forall_mem_cons.mpr ⟨Instr.keyword_cell (by decide) (by decide), ?_⟩
    exact List.forall_mem_cons.mpr ⟨hname name List.mem_cons_self, htype t⟩
  | declare name storage | assign name storage =>
    refine List.forall_mem_cons.mpr ⟨Instr.keyword_cell (by decide) (by decide), ?_⟩
    exact List.forall_mem_cons.mpr
      ⟨hname name List.mem_cons_self, noteCells_cell (hh.stored storage rfl)⟩
  | define name params =>
    refine List.forall_mem_cons.mpr ⟨Instr.keyword_cell (by decide) (by decide), ?_⟩
    obtain ⟨hplain, hparams⟩ := List.forall_mem_cons.mp hh.named
    have hcells := parameterCells_cell hparams
    obtain ⟨first, others, hsplit⟩ :=
      List.exists_cons_of_ne_nil (parameterCells_ne_nil params)
    rw [hsplit, List.forall_mem_cons] at hcells
    rw [hsplit, List.modifyHead_cons, List.forall_mem_cons, String.toList_append,
      String.toList_append]
    exact ⟨hcells.1.front (List.forall_mem_append.mpr
      ⟨hplain.isPlain, List.forall_mem_singleton.mpr rfl⟩), hcells.2⟩
  | callAlone name =>
    exact List.forall_mem_cons.mpr ⟨Instr.keyword_cell (by decide) (by decide),
      List.forall_mem_singleton.mpr (hname name List.mem_cons_self)⟩
  | mark m =>
    refine List.forall_mem_singleton.mpr ?_
    cases m <;> exact Instr.keyword_cell (by decide) (by decide)

theorem IsLegible.storage_eq {name : String} {storage storage' : Option String}
    (hs : ∃ s, storage = some s ∧ IsStorage s) (hs' : ∃ s, storage' = some s ∧ IsStorage s)
    (heq : noteCells name storage = noteCells name storage') : storage = storage' := by
  obtain ⟨s, rfl, -⟩ := hs
  obtain ⟨s', rfl, -⟩ := hs'
  rw [noteCells_inj heq]

/-- The keyword tells what kind of heading it is. -/
theorem cells_injective (hh : h.IsLegible) (hh' : h'.IsLegible) (heq : h.cells = h'.cells) :
    h = h' := by
  cases h with
  | literal v t =>
    cases h' with
    | literal v' t' =>
      obtain ⟨hv, ht⟩ := List.append_inj' heq rfl
      rw [Literal.cells_injective hv, Ty.text_injective (List.cons.inj (List.cons.inj ht).2).1]
    | _ => cases v <;> simp [cells, Literal.cells] at heq
  | var name storage t =>
    cases h' with
    | var name' storage' t' =>
      simp only [cells, List.cons.injEq, true_and] at heq
      obtain ⟨rfl, hcells⟩ := heq
      obtain ⟨hnote, ht⟩ := List.append_inj' hcells rfl
      rw [IsLegible.storage_eq (hh.stored storage rfl) (hh'.stored storage' rfl) hnote,
        Ty.text_injective (List.cons.inj (List.cons.inj ht).2).1]
    | literal v' t' => cases v' <;> simp [cells, Literal.cells] at heq
    | _ => simp [cells] at heq
  | binary op t =>
    cases h' with
    | binary op' t' =>
      simp only [cells, List.cons.injEq, true_and, and_true] at heq
      rw [BinaryOp.symbol_injective heq.1, Ty.text_injective heq.2]
    | literal v' t' => cases v' <;> simp [cells, Literal.cells] at heq
    | _ => simp [cells] at heq
  | unary op t =>
    cases h' with
    | unary op' t' =>
      simp only [cells, List.cons.injEq, true_and, and_true] at heq
      rw [UnaryOp.symbol_injective heq.1, Ty.text_injective heq.2]
    | literal v' t' => cases v' <;> simp [cells, Literal.cells] at heq
    | _ => simp [cells] at heq
  | call name t =>
    cases h' with
    | call name' t' =>
      simp only [cells, List.cons.injEq, true_and, and_true] at heq
      rw [heq.1, Ty.text_injective heq.2]
    | literal v' t' => cases v' <;> simp [cells, Literal.cells] at heq
    | _ => simp [cells] at heq
  | declare name storage =>
    cases h' with
    | declare name' storage' =>
      simp only [cells, List.cons.injEq, true_and] at heq
      obtain ⟨rfl, hnote⟩ := heq
      rw [IsLegible.storage_eq (hh.stored storage rfl) (hh'.stored storage' rfl) hnote]
    | literal v' t' => cases v' <;> simp [cells, Literal.cells] at heq
    | _ => simp [cells] at heq
  | assign name storage =>
    cases h' with
    | assign name' storage' =>
      simp only [cells, List.cons.injEq, true_and] at heq
      obtain ⟨rfl, hnote⟩ := heq
      rw [IsLegible.storage_eq (hh.stored storage rfl) (hh'.stored storage' rfl) hnote]
    | literal v' t' => cases v' <;> simp [cells, Literal.cells] at heq
    | _ => simp [cells] at heq
  | define name params =>
    cases h' with
    | define name' params' =>
      simp only [cells, List.cons.injEq, true_and] at heq
      obtain ⟨hname, hparams⟩ := List.forall_mem_cons.mp hh.named
      obtain ⟨rfl, rfl⟩ := signature_inj (hh.named name List.mem_cons_self)
        (hh'.named name' List.mem_cons_self) (List.forall_mem_cons.mp hh.ne_empty).2
        (List.forall_mem_cons.mp hh'.ne_empty).2 heq
      rfl
    | literal v' t' => cases v' <;> simp [cells, Literal.cells] at heq
    | _ => simp [cells] at heq
  | callAlone name =>
    cases h' with
    | callAlone name' =>
      simp only [cells, List.cons.injEq, true_and, and_true] at heq
      rw [heq]
    | literal v' t' => cases v' <;> simp [cells, Literal.cells] at heq
    | _ => simp [cells] at heq
  | mark m =>
    cases h' with
    | mark m' =>
      simp only [cells, List.cons.injEq, and_true] at heq
      rw [Mark.text_injective heq]
    | literal v' t' => cases v' <;> simp [cells, Literal.cells] at heq
    | _ => simp [cells] at heq

end Heading

/-! ## Rows are told from their text -/

/-- A row without its line feed. -/
def rowBody (x : Nat × Heading) : String :=
  String.ofList (List.replicate (2 * x.1) ' ') ++ x.2.label

theorem rowBody_inj {x y : Nat × Heading} (hx : x.2.IsLegible) (hy : y.2.IsLegible)
    (h : rowBody x = rowBody y) : x = y := by
  have hblank : ∀ n, ∀ c ∈ List.replicate n ' ', (c == ' ') = true := fun n c hc => by
    rw [(List.mem_replicate.mp hc).2]
    rfl
  have hstops : ∀ {z : Heading}, z.IsLegible → Stops (· == ' ') (row z.cells) := by
    intro z hz c hc
    rw [beq_eq_false_iff_ne]
    rintro rfl
    exact row_head hz.cell hc
  have hchars := congrArg String.toList h
  rw [rowBody, rowBody, String.toList_append, String.toList_append, String.toList_ofList,
    String.toList_ofList, Heading.toList_label, Heading.toList_label] at hchars
  obtain ⟨hdepth, hrow⟩ :=
    append_inj_of_stops (hblank _) (hblank _) (hstops hx) (hstops hy) hchars
  have hdepth : 2 * x.1 = 2 * y.1 := by simpa using congrArg List.length hdepth
  exact Prod.ext (by omega) (Heading.cells_injective hx hy (row_inj hx.cell hy.cell hrow))

theorem feed_notMem_rowBody {x : Nat × Heading} (hx : x.2.IsLegible) :
    '\n' ∉ (rowBody x).toList := by
  rw [rowBody, String.toList_append, String.toList_ofList, Heading.toList_label, List.mem_append,
    not_or]
  exact ⟨fun hmem => absurd (List.mem_replicate.mp hmem).2 (by decide), feed_notMem_row hx.cell⟩

/-- An outline has one line for each row, and nothing behind the last line feed. -/
theorem linesOf_rows {xs : List (Nat × Heading)} (h : ∀ x ∈ xs, x.2.IsLegible) :
    linesOf (Outline.text (xs.map Row.of)) = xs.map rowBody ++ [""] := by
  have hjoin : Outline.text (xs.map Row.of) = String.join (xs.map fun x => rowBody x ++ "\n") := by
    rw [Outline.text, List.map_map]
    rfl
  rw [hjoin, linesOf_join fun x hx => feed_notMem_rowBody (h x hx)]

theorem rows_of_text_eq {xs ys : List (Nat × Heading)} (hx : ∀ x ∈ xs, x.2.IsLegible)
    (hy : ∀ y ∈ ys, y.2.IsLegible)
    (h : Outline.text (xs.map Row.of) = Outline.text (ys.map Row.of)) : xs = ys := by
  have hlines := congrArg linesOf h
  rw [linesOf_rows hx, linesOf_rows hy] at hlines
  have hrows := map_eq_of_lines_eq (g := id)
    (fun x hxs y hys => rowBody_inj (hx x hxs) (hy y hys)) (List.append_cancel_right hlines)
  rwa [List.map_id, List.map_id] at hrows

end MeowScript
