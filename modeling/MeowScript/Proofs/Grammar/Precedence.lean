import MeowScript.Proofs.Grammar.Derivation

/-!
# Rows of operators and chains of operands

The grammar has one rule for each row of operators; an expression is read as a flat chain that is
assembled level by level. The levels are the rows, and both ways give the same trees.

Results:
* `operatorRows_eq`: the rows of the grammar are the levels of the reader.
* `assemble_spelled`: the tree assembled from a chain is one that the rows spell.
* `ExprSpelled.chain`: what the rows spell is assembled from some chain of the same tokens.
-/
namespace MeowScript

/-! ## Rows and levels -/

/-- The operators of a level. -/
def Level.row (l : Level) : List BinaryOp := BinaryOp.all.filter fun o => o.level == l

theorem Level.mem_row {l : Level} {o : BinaryOp} : o ∈ l.row ↔ o.level = l := by
  simp [row, BinaryOp.mem_all]

theorem operatorRows_eq : operatorRows = Level.ladder.map Level.row := by decide

/-! ## Chains -/

/-- `(operator unary)*`. -/
inductive LinksSpelled : List Token → List Link → Prop where
  | nil : LinksSpelled [] []
  | cons {t : Token} {k : Link} {a b : List Token} {ks : List Link} :
      t.kind = .operator k.op → t.position = k.position → ExprSpelled [] a k.operand →
      LinksSpelled b ks → LinksSpelled (t :: (a ++ b)) (k :: ks)

namespace LinksSpelled

theorem split {ks js : List Link} : ∀ {b : List Token}, LinksSpelled b (ks ++ js) →
    ∃ c d, b = c ++ d ∧ LinksSpelled c ks ∧ LinksSpelled d js := by
  induction ks with
  | nil => exact fun h => ⟨[], _, rfl, .nil, h⟩
  | cons k ks ih =>
    intro b h
    cases h with
    | cons ht hp he h =>
      obtain ⟨c, d, rfl, hc, hd⟩ := ih h
      exact ⟨_, d, by simp, .cons ht hp he hc, hd⟩

theorem append {c d : List Token} {ks js : List Link} (hc : LinksSpelled c ks)
    (hd : LinksSpelled d js) : LinksSpelled (c ++ d) (ks ++ js) := by
  induction hc with
  | nil => exact hd
  | cons ht hp he _ ih =>
    rw [List.cons_append, List.append_assoc]
    exact .cons ht hp he ih

end LinksSpelled

namespace Chain

/-! ## Segments -/

theorem mem_segments_fst {l : Level} {ks : List Link} {k : Link} (h : k ∈ (segments l ks).1) :
    k ∈ ks ∧ k.op.level ≠ l := by
  induction ks with
  | nil => simp [segments] at h
  | cons j ks ih =>
    rw [segments] at h
    split at h
    · simp at h
    · next hj =>
      rcases List.mem_cons.mp h with rfl | h
      · exact ⟨List.mem_cons_self, hj⟩
      · exact ⟨List.mem_cons_of_mem _ (ih h).1, (ih h).2⟩

theorem mem_segments_snd {l : Level} {ks : List Link} {s : Link × List Link}
    (h : s ∈ (segments l ks).2) :
    s.1.op.level = l ∧ ∀ k ∈ s.2, k ∈ ks ∧ k.op.level ≠ l := by
  induction ks with
  | nil => simp [segments] at h
  | cons j ks ih =>
    rw [segments] at h
    split at h
    · next hj =>
      rcases List.mem_cons.mp h with rfl | h
      · refine ⟨hj, fun k hk => ?_⟩
        obtain ⟨hm, hl⟩ := mem_segments_fst hk
        exact ⟨List.mem_cons_of_mem _ hm, hl⟩
      · exact ⟨(ih h).1, fun k hk => ⟨List.mem_cons_of_mem _ ((ih h).2 k hk).1, ((ih h).2 k hk).2⟩⟩
    · exact ⟨(ih h).1, fun k hk => ⟨List.mem_cons_of_mem _ ((ih h).2 k hk).1, ((ih h).2 k hk).2⟩⟩

theorem segments_of_no_level {l : Level} {ks : List Link} (h : ∀ k ∈ ks, k.op.level ≠ l) :
    segments l ks = (ks, []) := by
  induction ks with
  | nil => rfl
  | cons k ks ih =>
    rw [segments, if_neg (h k List.mem_cons_self), ih fun j hj => h j (List.mem_cons_of_mem k hj)]

/-- An operator of the level with tighter operators behind it is the last segment. -/
theorem segments_append {l : Level} {k : Link} {js : List Link} (hk : k.op.level = l)
    (hj : ∀ j ∈ js, j.op.level ≠ l) (ks : List Link) :
    segments l (ks ++ k :: js) = ((segments l ks).1, (segments l ks).2 ++ [(k, js)]) := by
  induction ks with
  | nil => simp [segments, hk, segments_of_no_level hj]
  | cons i ks ih =>
    rw [List.cons_append, segments, ih, segments]
    split <;> simp

/-! ## Assembling -/

theorem assemble_of_no_level {l : Level} {ls : List Level} {ks : List Link}
    (h : ∀ k ∈ ks, k.op.level ≠ l) (e : Expr) : assemble (l :: ls) e ks = assemble ls e ks := by
  simp [assemble, segments_of_no_level h]

theorem assemble_append {l : Level} {ls : List Level} {k : Link} {js : List Link}
    (hk : k.op.level = l) (hj : ∀ j ∈ js, j.op.level ≠ l) (e : Expr) (ks : List Link) :
    assemble (l :: ls) e (ks ++ k :: js) =
      .binary k.op (assemble (l :: ls) e ks) (assemble ls k.operand js) k.position .unknown := by
  simp [assemble, segments_append hk hj]

end Chain

open Chain in
/-- The operators of one level, joined from the left. -/
theorem foldl_spelled {l : Level} {ls : List Level} (ih : ∀ {a b : List Token} {e : Expr}
      {ks : List Link}, ExprSpelled [] a e → LinksSpelled b ks → (∀ k ∈ ks, k.op.level ∈ ls) →
      ExprSpelled (ls.map Level.row) (a ++ b) (assemble ls e ks)) (segs : List (Link × List Link)) :
    ∀ {a b : List Token} {left : Expr}, ExprSpelled ((l :: ls).map Level.row) a left →
      (∀ s ∈ segs, s.1.op.level = l ∧ ∀ k ∈ s.2, k.op.level ∈ ls) →
      LinksSpelled b (segs.flatMap fun s => s.1 :: s.2) →
      ExprSpelled ((l :: ls).map Level.row) (a ++ b) (segs.foldl
        (fun left s => .binary s.1.op left (assemble ls s.1.operand s.2) s.1.position .unknown)
        left) := by
  induction segs with
  | nil =>
    intro a b left ha _ hb
    cases hb
    rwa [List.append_nil]
  | cons s segs ihs =>
    intro a b left ha hs hb
    obtain ⟨hl, hks⟩ := hs s List.mem_cons_self
    rw [List.flatMap_cons] at hb
    obtain ⟨c, d, rfl, hc, hd⟩ := hb.split
    cases hc with
    | cons ht hp he hc =>
      rw [← List.append_assoc]
      have hjoined := ExprSpelled.binary ha ht (Level.mem_row.mpr hl) (ih he hc hks)
      rw [hp] at hjoined
      exact ihs hjoined (fun s' h => hs s' (List.mem_cons_of_mem s h)) hd

/-- A chain of operands with operators of some levels spells the tree assembled from it. -/
theorem assemble_spelled_among (ls : List Level) :
    ∀ {a b : List Token} {e : Expr} {ks : List Link},
      ExprSpelled [] a e → LinksSpelled b ks → (∀ k ∈ ks, k.op.level ∈ ls) →
        ExprSpelled (ls.map Level.row) (a ++ b) (Chain.assemble ls e ks) := by
  induction ls with
  | nil =>
    intro a b e ks ha hb hk
    cases hb with
    | nil => rwa [List.append_nil]
    | cons => exact absurd (hk _ List.mem_cons_self) List.not_mem_nil
  | cons l ls ih =>
    intro a b e ks ha hb hk
    have htighter : ∀ k : Link, k ∈ ks → k.op.level ≠ l → k.op.level ∈ ls :=
      fun k hm hl => (List.mem_cons.mp (hk k hm)).resolve_left hl
    rw [← Chain.segments_join l ks] at hb
    obtain ⟨c, d, rfl, hc, hd⟩ := hb.split
    rw [← List.append_assoc]
    refine foldl_spelled ih _ (.tighter (ih ha hc fun k h => ?_)) (fun s h => ?_) hd
    · obtain ⟨hm, hl⟩ := Chain.mem_segments_fst h
      exact htighter k hm hl
    · obtain ⟨hl, hs⟩ := Chain.mem_segments_snd h
      exact ⟨hl, fun k h => htighter k (hs k h).1 (hs k h).2⟩

/-- A chain of operands spells the tree assembled from it. -/
theorem assemble_spelled {a b : List Token} {e : Expr} {ks : List Link} (ha : ExprSpelled [] a e)
    (hb : LinksSpelled b ks) :
    ExprSpelled operatorRows (a ++ b) (Chain.assemble Level.ladder e ks) := by
  rw [operatorRows_eq]
  exact assemble_spelled_among _ ha hb fun k _ => Level.mem_ladder k.op.level

/-- An operand is a chain on its own. -/
theorem ExprSpelled.alone {toks : List Token} {e : Expr} (h : ExprSpelled [] toks e)
    {ls : List Level} (hrows : [] = ls.map Level.row) :
    ∃ a b e₀ ks, toks = a ++ b ∧ ExprSpelled [] a e₀ ∧ LinksSpelled b ks ∧
      (∀ k ∈ ks, k.op.level ∈ ls) ∧ e = Chain.assemble ls e₀ ks := by
  rw [List.map_eq_nil_iff.mp hrows.symm]
  exact ⟨toks, [], e, [], (List.append_nil toks).symm, h, .nil, List.forall_mem_nil _, rfl⟩

/-- What is spelled in the rows of some levels is a chain of operands with operators of these
levels. -/
theorem ExprSpelled.chain_among {rows : List (List BinaryOp)} {toks : List Token} {e : Expr}
    (h : ExprSpelled rows toks e) : ∀ {ls : List Level}, rows = ls.map Level.row → ls.Nodup →
      ∃ a b e₀ ks, toks = a ++ b ∧ ExprSpelled [] a e₀ ∧ LinksSpelled b ks ∧
        (∀ k ∈ ks, k.op.level ∈ ls) ∧ e = Chain.assemble ls e₀ ks := by
  induction h with
  | tighter _ ih =>
    intro ls hrows hn
    obtain ⟨l, ls, rfl, -, hls⟩ := List.map_eq_cons_iff.mp hrows.symm
    obtain ⟨hl, hn⟩ := List.nodup_cons.mp hn
    obtain ⟨a, b, e₀, ks, rfl, ha, hb, hk, rfl⟩ := ih hls.symm hn
    have hne : ∀ k ∈ ks, k.op.level ≠ l := fun k h he => hl (he ▸ hk k h)
    exact ⟨a, b, e₀, ks, rfl, ha, hb, fun k h => List.mem_cons_of_mem l (hk k h),
      (Chain.assemble_of_no_level hne e₀).symm⟩
  | @binary row rows _ _ t op left right _ ht hop _ ihl ihr =>
    intro ls hrows hn
    obtain ⟨a, b, e₀, ks, rfl, ha, hb, hk, rfl⟩ := ihl hrows hn
    obtain ⟨l, ls, rfl, rfl, hls⟩ := List.map_eq_cons_iff.mp hrows.symm
    obtain ⟨hl, hn⟩ := List.nodup_cons.mp hn
    obtain ⟨a', b', e₁, js, rfl, ha', hb', hj, rfl⟩ := ihr hls.symm hn
    have hlevel : op.level = l := Level.mem_row.mp hop
    have hne : ∀ j ∈ js, j.op.level ≠ l := fun j h he => hl (he ▸ hj j h)
    let k : Link := ⟨op, t.position, e₁⟩
    refine ⟨a, b ++ t :: (a' ++ b'), e₀, ks ++ k :: js, by simp, ha,
      hb.append (.cons ht rfl ha' hb'), ?_, (Chain.assemble_append (k := k) hlevel hne e₀ ks).symm⟩
    intro i h
    rcases List.mem_append.mp h with h | h
    · exact hk i h
    · rcases List.mem_cons.mp h with rfl | h
      · exact hlevel ▸ List.mem_cons_self
      · exact List.mem_cons_of_mem l (hj i h)
  | unary ht h _ => exact fun hrows _ => (ExprSpelled.unary ht h).alone hrows
  | literal ht => exact fun hrows _ => (ExprSpelled.literal ht).alone hrows
  | var ht => exact fun hrows _ => (ExprSpelled.var ht).alone hrows
  | call ht ho ha hs hc _ => exact fun hrows _ => (ExprSpelled.call ht ho ha hs hc).alone hrows
  | parens ho h hc _ => exact fun hrows _ => (ExprSpelled.parens ho h hc).alone hrows

/-- An expression is a chain of operands, assembled. -/
theorem ExprSpelled.chain {toks : List Token} {e : Expr} (h : ExprSpelled operatorRows toks e) :
    ∃ a b e₀ ks, toks = a ++ b ∧ ExprSpelled [] a e₀ ∧ LinksSpelled b ks ∧
      e = Chain.assemble Level.ladder e₀ ks := by
  obtain ⟨a, b, e₀, ks, htoks, ha, hb, -, he⟩ := h.chain_among operatorRows_eq (by decide)
  exact ⟨a, b, e₀, ks, htoks, ha, hb, he⟩

end MeowScript
