import MeowScript.Proofs.Outline.Labels
import MeowScript.Proofs.Typing.Annotations

/-!
# An outline tells the program

In a program that was accepted every name is an identifier of the text, and every variable has a
storage name; so each heading of its outline is legible. Hence two accepted programs have the same
outline if and only if they are the same but for their positions.

Results:
* `StmtSpelled.names`: names in headings are identifiers among the tokens.
* `Stmt.names_plain`: the check leaves these names.
* `Stmt.stored`: headings have the storage names of the occurrences.
* `Compilation.legible`: with these, the headings of an accepted program.
* `outline_determines`: the outlines of two texts.
-/
namespace MeowScript

/-! ## Headings of a sketch -/

namespace Sketch

mutual

def headings : Sketch → List Heading
  | node h below => h :: allHeadings below

def allHeadings : List Sketch → List Heading
  | [] => []
  | s :: ss => headings s ++ allHeadings ss

end

mutual

theorem map_rows (d : Nat) : ∀ s : Sketch, (s.rows d).map Prod.snd = s.headings
  | node h below => by rw [rows, headings, List.map_cons, map_allRows _ below]

theorem map_allRows (d : Nat) : ∀ ss : List Sketch,
    (allRows d ss).map Prod.snd = allHeadings ss
  | [] => rfl
  | s :: ss => by rw [allRows, allHeadings, List.map_append, map_rows d s, map_allRows d ss]

end

/-- The names in all headings. -/
def names (s : Sketch) : List String := s.headings.flatMap Heading.names

def allNames (ss : List Sketch) : List String := (allHeadings ss).flatMap Heading.names

@[simp] theorem names_node (h : Heading) (below : List Sketch) :
    (node h below).names = h.names ++ allNames below := by
  rw [names, headings, List.flatMap_cons, allNames]

@[simp] theorem allNames_nil : allNames [] = [] := rfl

@[simp] theorem allNames_cons (s : Sketch) (ss : List Sketch) :
    allNames (s :: ss) = s.names ++ allNames ss := by
  rw [allNames, allHeadings, List.flatMap_append, names, allNames]

end Sketch

/-! ## Names come from tokens -/

theorem mem_names_of_exprs {es : List Expr} {name : String} :
    name ∈ Sketch.allNames (Expr.sketches es) ↔ ∃ e ∈ es, name ∈ e.sketch.names := by
  induction es with
  | nil => simp [Expr.sketches]
  | cons e es ih => simp [Expr.sketches, ih]

theorem mem_names_of_stmts {ss : List Stmt} {name : String} :
    name ∈ Sketch.allNames (Stmt.sketches ss) ↔ ∃ s ∈ ss, name ∈ s.sketch.names := by
  induction ss with
  | nil => simp [Stmt.sketches]
  | cons s ss ih => simp [Stmt.sketches, ih]

theorem ExprSpelled.names {rows : List (List BinaryOp)} {toks : List Token} {e : Expr}
    (h : ExprSpelled rows toks e) {name : String} (hn : name ∈ e.sketch.names) :
    Mentions toks name := by
  induction h with
  | tighter _ ih => exact ih hn
  | @binary l ls a b t op left right _ _ _ _ ihl ihr =>
    have hn : name ∈ left.sketch.names ∨ name ∈ right.sketch.names := by
      simpa [Expr.sketch, Heading.names] using hn
    rcases hn with hn | hn
    · exact (ihl hn).mono (List.subset_append_left _ _)
    · exact (ihr hn).mono fun t ht => by simp [ht]
  | unary _ _ ih =>
    have hn := ih (by simpa [Expr.sketch, Heading.names] using hn)
    exact hn.mono (List.subset_cons_self _ _)
  | literal ht => cases hn
  | var ht =>
    cases List.mem_singleton.mp hn
    exact ⟨_, List.mem_singleton_self _, ht⟩
  | @call t o c callee args toks ht _ _ hl _ ih =>
    rw [Expr.sketch, Sketch.names_node, List.mem_append, mem_names_of_exprs] at hn
    rcases hn with hn | ⟨e, he, hn⟩
    · cases List.mem_singleton.mp hn
      exact ⟨t, List.mem_cons_self, ht⟩
    · obtain ⟨x, hx, rfl⟩ := List.mem_map.mp he
      exact (ih x hx hn).mono fun t ht => by simp [hl.subset hx ht]
  | parens _ _ _ ih => exact (ih hn).mono fun t ht => by simp [ht]

theorem EnclosedSpelled.names {toks : List Token} {e : Expr} (h : EnclosedSpelled toks e)
    {name : String} (hn : name ∈ e.sketch.names) : Mentions toks name := by
  cases h with
  | mk _ he _ => exact (he.names hn).mono fun t ht => by simp [ht]

/-- If what each part names is mentioned there, so is what all name. -/
theorem names_body {body : List (List Token × Stmt)} {name : String}
    (ih : ∀ x ∈ body, name ∈ x.2.sketch.names → Mentions x.1 name)
    (h : name ∈ Sketch.allNames (Stmt.sketches (meanings body))) :
    Mentions (spelling body) name := by
  obtain ⟨s, hs, hn⟩ := mem_names_of_stmts.mp h
  obtain ⟨x, hx, rfl⟩ := List.mem_map.mp hs
  exact (ih x hx hn).mono (mem_spelling hx)

theorem StmtSpelled.names {toks : List Token} {s : Stmt} (h : StmtSpelled toks s)
    {name : String} (hn : name ∈ s.sketch.names) : Mentions toks name := by
  induction h with
  | @declare t n w target toks e _ hname _ he =>
    have hn : name = target ∨ name ∈ e.sketch.names := by
      simpa [Stmt.sketch, Heading.names] using hn
    rcases hn with rfl | hn
    · exact ⟨n, by simp, hname⟩
    · exact (he.names hn).mono fun t ht => by simp [ht]
  | @assign n w target toks e hname _ he =>
    have hn : name = target ∨ name ∈ e.sketch.names := by
      simpa [Stmt.sketch, Heading.names] using hn
    rcases hn with rfl | hn
    · exact ⟨n, by simp, hname⟩
    · exact (he.names hn).mono fun t ht => by simp [ht]
  | @call n o c callee args toks hname _ ha hl _ =>
    have hn : name = callee ∨ name ∈ Sketch.allNames (Expr.sketches (meanings args)) := by
      simpa [Stmt.sketch, Heading.names] using hn
    rcases hn with rfl | hn
    · exact ⟨n, by simp, hname⟩
    · obtain ⟨e, he, hn⟩ := mem_names_of_exprs.mp hn
      obtain ⟨x, hx, rfl⟩ := List.mem_map.mp he
      exact ((ha x hx).names hn).mono fun t ht => by simp [hl.subset hx ht]
  | @define t n o c target params toks block body _ hname _ hp hl _ _ hb ih =>
    have hn : name = target ∨ (∃ param ∈ meanings params, param.name = name) ∨
        name ∈ Sketch.allNames (Stmt.sketches (meanings body)) := by
      simpa [Stmt.sketch, Heading.names] using hn
    rcases hn with rfl | ⟨param, hparam, rfl⟩ | hn
    · exact ⟨n, by simp, hname⟩
    · obtain ⟨⟨used, param⟩, hx, rfl⟩ := List.mem_map.mp hparam
      have hmentions : Mentions used param.name := by
        cases hp _ hx with
        | mk ht => exact ⟨_, List.mem_singleton_self _, ht⟩
      exact hmentions.mono fun t ht => by simp [hl.subset hx ht]
    · exact (names_body ih hn).mono fun t ht => by simp [hb.subset ht]
  | @ifThen t test block condition body _ he _ hb ih
  | @loop t test block condition body _ he _ hb ih =>
    have hn : name ∈ condition.sketch.names ∨
        name ∈ Sketch.allNames (Stmt.sketches (meanings body)) := by
      simpa [Stmt.sketch, Heading.names] using hn
    rcases hn with hn | hn
    · exact (he.names hn).mono fun t ht => by simp [ht]
    · exact (names_body ih hn).mono fun t ht => by simp [hb.subset ht]
  | @ifElse t h test block block' condition body otherwise _ he _ hb _ _ hb' ih ih' =>
    have hn : name ∈ condition.sketch.names ∨
        name ∈ Sketch.allNames (Stmt.sketches (meanings body)) ∨
        name ∈ Sketch.allNames (Stmt.sketches (meanings otherwise)) := by
      simpa [Stmt.sketch, Heading.names] using hn
    rcases hn with hn | hn | hn
    · exact (he.names hn).mono fun t ht => by simp [ht]
    · exact (names_body ih hn).mono fun t ht => by simp [hb.subset ht]
    · exact (names_body ih' hn).mono fun t ht => by simp [hb'.subset ht]
  | bring _ he =>
    exact (he.names (by simpa [Stmt.sketch, Heading.names] using hn)).mono
      (List.subset_cons_self _ _)
  | print _ he =>
    exact (he.names (by simpa [Stmt.sketch, Heading.names] using hn)).mono
      (List.subset_cons_self _ _)

/-! ## The check leaves the names -/

mutual

theorem Expr.names_plain : ∀ e : Expr, e.plain.sketch.names = e.sketch.names
  | .literal _ _ _ | .var _ _ _ _ => rfl
  | .binary _ left right _ _ => by
    simp only [Expr.plain, Expr.sketch, Sketch.names_node, Heading.names, Sketch.allNames_cons,
      Expr.names_plain left, Expr.names_plain right]
  | .unary _ operand _ _ => by
    simp only [Expr.plain, Expr.sketch, Sketch.names_node, Heading.names, Sketch.allNames_cons,
      Expr.names_plain operand]
  | .call name args _ _ => by
    simp only [Expr.plain, Expr.allPlain_eq, Expr.sketch, Sketch.names_node, Heading.names,
      Expr.allNames_plain args]

theorem Expr.allNames_plain : ∀ es : List Expr,
    Sketch.allNames (Expr.sketches (es.map Expr.plain)) = Sketch.allNames (Expr.sketches es)
  | [] => rfl
  | e :: es => by
    simp only [List.map_cons, Expr.sketches, Sketch.allNames_cons, Expr.names_plain e,
      Expr.allNames_plain es]

end

mutual

theorem Stmt.names_plain : ∀ s : Stmt, s.plain.sketch.names = s.sketch.names
  | .declare _ value _ _ | .assign _ value _ _ | .bring value _ | .print value _ => by
    simp only [Stmt.plain, Stmt.sketch, Sketch.names_node, Heading.names, Sketch.allNames_cons,
      Expr.names_plain value]
  | .define name params body _ => by
    simp only [Stmt.plain, Stmt.sketch, Sketch.names_node, Heading.names, Stmt.allNames_plain body]
  | .call name args _ => by
    simp only [Stmt.plain, Stmt.sketch, Sketch.names_node, Heading.names, Expr.allNames_plain args]
  | .ifThen condition body _ | .loop condition body _ => by
    simp only [Stmt.plain, Stmt.sketch, Sketch.names_node, Heading.names, Sketch.allNames_cons,
      Expr.names_plain condition, Stmt.allNames_plain body]
  | .ifElse condition body otherwise _ => by
    simp only [Stmt.plain, Stmt.sketch, Sketch.names_node, Heading.names, Sketch.allNames_cons,
      Expr.names_plain condition, Stmt.allNames_plain body, Stmt.allNames_plain otherwise]

theorem Stmt.allNames_plain : ∀ ss : List Stmt,
    Sketch.allNames (Stmt.sketches (Stmt.allPlain ss)) = Sketch.allNames (Stmt.sketches ss)
  | [] => rfl
  | s :: ss => by
    simp only [Stmt.allPlain, Stmt.sketches, Sketch.allNames_cons, Stmt.names_plain s,
      Stmt.allNames_plain ss]

end

/-! ## Storage names -/

/-- If the heading is about a variable, it has one of these storage names. -/
def Heading.StoredIn (storages : List String) (h : Heading) : Prop :=
  ∀ storage, h.storage? = some storage → ∃ s ∈ storages, storage = some s

theorem Heading.StoredIn.of_none {storages : List String} {h : Heading} (hn : h.storage? = none) :
    h.StoredIn storages := fun storage hs => by
  rw [hn] at hs
  cases hs

theorem Occurrence.Named.storedIn {storages : List String} {storage : Option String}
    {declaration : Option Nat} (h : Occurrence.Named storages ⟨storage, declaration⟩)
    {x : Heading} (hx : x.storage? = some storage) : x.StoredIn storages := by
  obtain ⟨k, s, -, hs, hk⟩ := h
  intro other hother
  rw [hx] at hother
  cases hother
  exact ⟨s, List.mem_of_getElem? hk, hs⟩

mutual

theorem Expr.stored {storages : List String} (b : Bindings) : ∀ e : Expr,
    (∀ o ∈ e.occurrences b, o.Named storages) → ∀ h ∈ e.sketch.headings, h.StoredIn storages
  | .literal _ _ _, _ => by
    rintro h (- | ⟨-, ⟨⟩⟩)
    exact .of_none rfl
  | .var name storage _ _, ho => by
    rintro h (- | ⟨-, ⟨⟩⟩)
    exact (ho _ (List.mem_singleton_self _)).storedIn rfl
  | .binary _ left right _ _, ho => by
    obtain ⟨hl, hr⟩ := List.forall_mem_append.mp ho
    simp only [Expr.sketch, Sketch.headings, Sketch.allHeadings, List.append_nil,
      List.forall_mem_cons, List.forall_mem_append]
    exact ⟨.of_none rfl, Expr.stored b left hl, Expr.stored b right hr⟩
  | .unary _ operand _ _, ho => by
    simp only [Expr.sketch, Sketch.headings, Sketch.allHeadings, List.append_nil,
      List.forall_mem_cons]
    exact ⟨.of_none rfl, Expr.stored b operand ho⟩
  | .call _ args _ _, ho => by
    simp only [Expr.sketch, Sketch.headings, List.forall_mem_cons]
    exact ⟨.of_none rfl, Expr.allStored b args ho⟩

theorem Expr.allStored {storages : List String} (b : Bindings) : ∀ es : List Expr,
    (∀ o ∈ Expr.allOccurrences b es, o.Named storages) →
      ∀ h ∈ Sketch.allHeadings (Expr.sketches es), h.StoredIn storages
  | [], _ => List.forall_mem_nil _
  | e :: es, ho => by
    obtain ⟨he, hes⟩ := List.forall_mem_append.mp ho
    exact List.forall_mem_append.mpr ⟨Expr.stored b e he, Expr.allStored b es hes⟩

end

mutual

theorem Stmt.stored {storages : List String} (b : Bindings) : ∀ s : Stmt,
    (∀ o ∈ (s.occurrences b).found, o.Named storages) →
      ∀ h ∈ s.sketch.headings, h.StoredIn storages
  | .declare name value storage _, ho => by
    obtain ⟨hv, hname⟩ := List.forall_mem_append.mp ho
    simp only [Stmt.sketch, Sketch.headings, Sketch.allHeadings, List.append_nil,
      List.forall_mem_cons]
    exact ⟨(hname _ (List.mem_singleton_self _)).storedIn rfl, Expr.stored b value hv⟩
  | .assign name value storage _, ho => by
    obtain ⟨hname, hv⟩ := List.forall_mem_cons.mp ho
    simp only [Stmt.sketch, Sketch.headings, Sketch.allHeadings, List.append_nil,
      List.forall_mem_cons]
    exact ⟨hname.storedIn rfl, Expr.stored b value hv⟩
  | .define name params body _, ho => by
    simp only [Stmt.sketch, Sketch.headings, List.forall_mem_cons]
    exact ⟨.of_none rfl, Stmt.allStored _ body ho⟩
  | .call name args _, ho => by
    simp only [Stmt.sketch, Sketch.headings, List.forall_mem_cons]
    exact ⟨.of_none rfl, Expr.allStored b args ho⟩
  | .ifThen condition body _, ho | .loop condition body _, ho => by
    obtain ⟨hc, hbody⟩ := List.forall_mem_append.mp ho
    simp only [Stmt.sketch, Sketch.headings, Sketch.allHeadings, List.append_nil,
      List.forall_mem_cons, List.forall_mem_append]
    exact ⟨.of_none rfl, Expr.stored b condition hc, .of_none rfl, Stmt.allStored _ body hbody⟩
  | .ifElse condition body otherwise _, ho => by
    obtain ⟨hboth, hother⟩ := List.forall_mem_append.mp ho
    obtain ⟨hc, hbody⟩ := List.forall_mem_append.mp hboth
    simp only [Stmt.sketch, Sketch.headings, Sketch.allHeadings, List.append_nil,
      List.forall_mem_cons, List.forall_mem_append]
    exact ⟨.of_none rfl, Expr.stored b condition hc, ⟨.of_none rfl, Stmt.allStored _ body hbody⟩,
      .of_none rfl, Stmt.allStored _ otherwise hother⟩
  | .bring value _, ho | .print value _, ho => by
    simp only [Stmt.sketch, Sketch.headings, Sketch.allHeadings, List.append_nil,
      List.forall_mem_cons]
    exact ⟨.of_none rfl, Expr.stored b value ho⟩

theorem Stmt.allStored {storages : List String} (b : Bindings) : ∀ ss : List Stmt,
    (∀ o ∈ (Stmt.allOccurrences b ss).found, o.Named storages) →
      ∀ h ∈ Sketch.allHeadings (Stmt.sketches ss), h.StoredIn storages
  | [], _ => List.forall_mem_nil _
  | s :: ss, ho => by
    obtain ⟨hs, hss⟩ := List.forall_mem_append.mp ho
    exact List.forall_mem_append.mpr ⟨Stmt.stored b s hs, Stmt.allStored _ ss hss⟩

end

/-! ## Accepted programs -/

/-- The names in an accepted program begin like words and go on like them. -/
theorem Compilation.names_word {source : String} {c : Compilation} (h : ofText source = .ok c)
    {name : String} (hn : name ∈ c.program.sketch.names) :
    ∃ d ds, name.toList = d :: ds ∧ Piece.isWordStart d = true ∧
      ∀ e ∈ ds, Piece.isWordChar e = true := by
  obtain ⟨tree, htoks, htree, hfaults, hbody⟩ := Compilation.of_ofText h
  obtain ⟨parts, hspelled, hmeanings, hsubset⟩ := ofTokens_spelled htree
  rw [Program.sketch, Sketch.names_node, Heading.names, List.nil_append, hbody,
    ← Stmt.allNames_plain, Stmt.plain_checkAll, Stmt.allNames_plain, hmeanings] at hn
  obtain ⟨t, ht, hk⟩ := names_body (fun x hx => (hspelled x hx).names) hn
  exact tokensOf_identifier_cons htoks (hsubset ht) hk

/-- A variable of an accepted program is stored under the name of a declaration. -/
theorem Compilation.headings_stored {source : String} {c : Compilation}
    (h : ofText source = .ok c) :
    ∃ storages, (∀ s ∈ storages, IsStorage s) ∧
      ∀ x ∈ c.program.sketch.headings, x.StoredIn storages := by
  obtain ⟨tree, htoks, htree, hfaults, hbody⟩ := Compilation.of_ofText h
  have hrenamed := Stmt.checkAll_renamed .start tree.body hfaults
  refine ⟨storagesOf (Stmt.checkAll .start tree.body).after.declared, fun s hs => ?_, ?_⟩
  · obtain ⟨name, hname, n, -, rfl⟩ := of_mem_storagesOf hs
    have hdeclares := (Stmt.checkAll_declared .start name tree.body hname).resolve_right
      List.not_mem_nil
    obtain ⟨t, ht, hk⟩ := ofTokens_declares htree hdeclares
    obtain ⟨d, ds, hchars, hd, hds⟩ := tokensOf_identifier_cons htoks ht hk
    exact storageFor_isStorage hchars hd (List.all_eq_true.mpr hds) n
  · rw [Program.sketch, Sketch.headings, hbody, List.forall_mem_cons]
    exact ⟨.of_none rfl, Stmt.allStored .start _ hrenamed.named⟩

theorem Compilation.legible {source : String} {c : Compilation} (h : ofText source = .ok c) :
    ∀ x ∈ c.program.sketch.headings, x.IsLegible := by
  intro x hx
  obtain ⟨storages, hstorage, hstored⟩ := Compilation.headings_stored h
  have hword : ∀ name ∈ x.names, _ := fun name hn =>
    Compilation.names_word h (List.mem_flatMap.mpr ⟨x, hx, hn⟩)
  refine ⟨fun name hn => ?_, fun name hn => ?_, fun storage hs => ?_⟩
  · obtain ⟨d, ds, hname, hd, hds⟩ := hword name hn
    rw [IsWord, hname, List.forall_mem_cons]
    exact ⟨Piece.isWordChar_of_isWordStart hd, hds⟩
  · obtain ⟨d, ds, hname, -⟩ := hword name hn
    rw [hname]
    exact List.cons_ne_nil d ds
  · obtain ⟨s, hmem, rfl⟩ := hstored x hx storage hs
    exact ⟨s, rfl, hstorage s hmem⟩

/-- **Main.** Two texts that are accepted have the same outline if and only if their programs are
the same but for positions: in their statements and expressions, names, storage names, constants
and types. -/
theorem outline_determines {a b : String} {c d : Compilation} (hc : Compilation.ofText a = .ok c)
    (hd : Compilation.ofText b = .ok d) :
    c.program.outline = d.program.outline ↔ c.program.bare = d.program.bare := by
  have hlegible : ∀ {s : String} {e : Compilation}, Compilation.ofText s = .ok e →
      ∀ x ∈ e.program.sketch.rows 0, x.2.IsLegible := by
    intro s e he x hx
    refine Compilation.legible he x.2 ?_
    rw [← Sketch.map_rows 0]
    exact List.mem_map_of_mem hx
  obtain ⟨_, -, -, hp⟩ := Compilation.check_of_ofText hc
  obtain ⟨_, -, -, hq⟩ := Compilation.check_of_ofText hd
  rw [← Program.sketch_eq_iff hp hq, Program.outline_eq, Program.outline_eq]
  constructor
  · intro h
    exact Sketch.rows_injective (rows_of_text_eq (hlegible hc) (hlegible hd) h)
  · intro h
    rw [h]

/-- The outline of a text, if it is accepted. -/
def outlineOf (source : String) : Option String :=
  (Compilation.ofText source).toOption.map (·.program.outline)

theorem exists_of_outlineOf {source x : String} (h : outlineOf source = some x) :
    ∃ c, Compilation.ofText source = .ok c ∧ c.program.outline = x := by
  obtain ⟨c, hc, hx⟩ := Option.map_eq_some_iff.mp h
  exact ⟨c, toOption_eq_some.mp hc, hx⟩

/-- The `Hiss` of the inner `Purr`. -/
def innerHiss : String := "Wake Purr (1) \x7b Purr (2) \x7b \x7d Hiss \x7b \x7d \x7d Sleep"

/-- The same on more lines. -/
def innerHissSpread : String :=
  "Wake\nPurr (1) \x7b\n  Purr (2) \x7b \x7d\n  Hiss \x7b \x7d\n\x7d\nSleep\n"

/-- The `Hiss` of the outer `Purr`. -/
def outerHiss : String := "Wake Purr (1) \x7b Purr (2) \x7b \x7d \x7d Hiss \x7b \x7d Sleep"

theorem outline_determines_hiss : ∃ c d e,
    Compilation.ofText innerHiss = .ok c ∧ Compilation.ofText innerHissSpread = .ok d ∧
      Compilation.ofText outerHiss = .ok e ∧ c.program.bare = d.program.bare ∧
      c.program.bare ≠ e.program.bare := by
  have hinner : outlineOf innerHiss = some ("Program\n" ++
      "  If\n    Integer 1 : Integer\n    Then\n      If\n        Integer 2 : Integer\n" ++
      "        Then\n        Else\n") := by decide +kernel
  have hspread : outlineOf innerHissSpread = some ("Program\n" ++
      "  If\n    Integer 1 : Integer\n    Then\n      If\n        Integer 2 : Integer\n" ++
      "        Then\n        Else\n") := by decide +kernel
  have houter : outlineOf outerHiss = some ("Program\n" ++
      "  If\n    Integer 1 : Integer\n    Then\n      If\n        Integer 2 : Integer\n" ++
      "        Then\n    Else\n") := by decide +kernel
  obtain ⟨c, hc, hcx⟩ := exists_of_outlineOf hinner
  obtain ⟨d, hd, hdx⟩ := exists_of_outlineOf hspread
  obtain ⟨e, he, hex⟩ := exists_of_outlineOf houter
  refine ⟨c, d, e, hc, hd, he, (outline_determines hc hd).mp (hcx.trans hdx.symm), fun h => ?_⟩
  have hsame := (outline_determines hc he).mpr h
  rw [hcx, hex] at hsame
  exact absurd hsame (by decide)

end MeowScript
