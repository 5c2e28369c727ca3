import MeowScript.Proofs.Cursor.Runs
import MeowScript.Proofs.Grammar.Precedence

/-!
# A cursor reads expressions

The methods for the levels of operators, one inside the other, read what one reader of lists reads
as a flat chain and assembles. A method for some levels takes the links whose operators are on them,
and leaves the others to the method that called it.

Results:
* `linksAmong_cons`: the links of several levels are those of the tighter ones, and what goes on
  behind them.
* `chain_reads`: the method for these levels reads an operand and the links among them.
* `Tape.expression_reads`, `Tape.callArgs_reads`: expressions and arguments.
-/
namespace MeowScript

open Attempt

/-! ## Links of some levels -/

/-- As many binary operators of these levels with operands as there are. -/
def linksAmong (ls : List Level) (toks : List Token) : Attempt (List Link) (toks.length + 1) :=
  match toks with
  | [] => .ok ⟨[], [], Nat.lt_succ_self _⟩
  | t :: rest =>
    match t.kind with
    | .operator o =>
      if o.level ∈ ls then
        match operand rest with
        | .error f => .error (f.weaken (Nat.le_trans (Nat.le_succ _) (Nat.le_succ _)))
        | .ok ⟨e, left, h⟩ =>
          (linksAmong ls left).map (⟨o, t.position, e⟩ :: ·)
            (Nat.le_trans h (Nat.le_trans (Nat.le_succ _) (Nat.le_succ _)))
      else .ok ⟨[], t :: rest, Nat.lt_succ_self _⟩
    | _ => .ok ⟨[], t :: rest, Nat.lt_succ_self _⟩
termination_by toks.length
decreasing_by simp only [List.length_cons]; omega

/-- A token of this kind is an operator of one of these levels. -/
def IsAmong (ls : List Level) (k : Kind) : Prop := ∃ o : BinaryOp, k = .operator o ∧ o.level ∈ ls

section
variable {ls : List Level} {l : Level}

theorem isAmong_cons {k : Kind} : IsAmong (l :: ls) k ↔ IsAmong [l] k ∨ IsAmong ls k := by
  simp only [IsAmong, List.mem_cons, List.not_mem_nil, or_false, and_or_left, exists_or]

theorem linksAmong_operator {t : Token} {o : BinaryOp} (ht : t.kind = .operator o)
    (ho : o.level ∈ ls) (rest : List Token) :
    (linksAmong ls (t :: rest)).reading = (operand rest).reading.andThen fun e left =>
      (linksAmong ls left).reading.map (⟨o, t.position, e⟩ :: ·) := by
  rw [linksAmong]
  simp only [ht, if_pos ho]
  cases operand rest with
  | error f => rfl
  | ok r => simp

theorem linksAmong_end {toks : List Token} (h : ∀ t ∈ toks.head?, ¬ IsAmong ls t.kind) :
    (linksAmong ls toks).reading = ⟨.ok [], toks⟩ := by
  cases toks with
  | nil => rw [linksAmong]; rfl
  | cons t rest =>
    rw [linksAmong]
    split
    · next o ho =>
      rw [if_neg fun hl => h t rfl ⟨o, ho, hl⟩]
      rfl
    · rfl

theorem linksAmong_ladder (toks : List Token) :
    (linksAmong Level.ladder toks).reading = (links toks).reading := by
  rcases head_cases (∃ o, · = .operator o) toks with ⟨t, rest, rfl, o, ht⟩ | hend
  · rw [linksAmong_operator ht (Level.mem_ladder _), links_reading_operator ht]
    refine Reading.andThen_congr fun e left h => ?_
    have hfewer := rest_lt h
    rw [linksAmong_ladder left]
  · simp only [not_exists] at hend
    rw [links_reading_end hend, linksAmong_end]
    rintro t ht ⟨o, ho, -⟩
    exact hend t ht o ho
termination_by toks.length
decreasing_by subst_vars; simp only [List.length_cons]; omega

/-- The links are of these levels, and the operator behind them is not. -/
theorem linksAmong_ok {toks : List Token} : ∀ {ks : List Link} {rest : List Token},
    (linksAmong ls toks).reading = ⟨.ok ks, rest⟩ →
    (∀ k ∈ ks, k.op.level ∈ ls) ∧ ∀ t ∈ rest.head?, ¬ IsAmong ls t.kind := by
  intro ks rest h
  rcases head_cases (IsAmong ls) toks with ⟨t, more, rfl, o, ht, ho⟩ | hend
  · rw [linksAmong_operator ht ho] at h
    generalize hr : (operand more).reading = r at h
    obtain ⟨result, left⟩ := r
    cases result with
    | error e => cases h
    | ok e =>
      have hfewer := rest_lt hr
      rw [Reading.andThen_ok] at h
      generalize hlinks : (linksAmong ls left).reading = r at h
      obtain ⟨result, left'⟩ := r
      cases result with
      | error e => cases h
      | ok js =>
        cases h
        obtain ⟨hjs, hrest⟩ := linksAmong_ok hlinks
        exact ⟨List.forall_mem_cons.mpr ⟨ho, hjs⟩, hrest⟩
  · rw [linksAmong_end hend] at h
    cases h
    exact ⟨List.forall_mem_nil _, hend⟩
termination_by toks.length
decreasing_by subst_vars; simp only [List.length_cons]; omega

theorem linksAmong_cons (toks : List Token) : (linksAmong (l :: ls) toks).reading =
    (linksAmong ls toks).reading.andThen fun ks rest =>
      (linksAmong (l :: ls) rest).reading.map (ks ++ ·) := by
  rcases head_cases (IsAmong ls) toks with ⟨t, more, rfl, o, ht, ho⟩ | hend
  · rw [linksAmong_operator ht ho, linksAmong_operator ht (List.mem_cons_of_mem l ho),
      Reading.andThen_assoc]
    refine Reading.andThen_congr fun e left h => ?_
    have hfewer := rest_lt h
    rw [linksAmong_cons left, Reading.map_andThen, Reading.andThen_map]
    simp only [Reading.map_map, List.cons_append]
  · rw [linksAmong_end hend, Reading.andThen_ok]
    simp only [List.nil_append]
    exact (Reading.map_self _).symm
termination_by toks.length
decreasing_by subst_vars; simp only [List.length_cons]; omega

end

/-! ## The methods for levels -/

/-- An operand with the links of these levels behind it. -/
def readChain (ls : List Level) (toks : List Token) : Reading Expr :=
  (operand toks).reading.andThen fun e rest =>
    (linksAmong ls rest).reading.map (Chain.assemble ls e ·)

/-- The same two, not yet put together. -/
def chainOf (ls : List Level) (toks : List Token) : Reading (Expr × List Link) :=
  (operand toks).reading.andThen fun e rest => (linksAmong ls rest).reading.map (e, ·)

theorem readChain_eq (ls : List Level) (toks : List Token) :
    readChain ls toks = (chainOf ls toks).map fun c => Chain.assemble ls c.1 c.2 := by
  rw [readChain, chainOf, Reading.map_andThen]
  simp only [Reading.map_map]

/-- The tighter levels have taken their links, and left what is none of theirs. -/
theorem chainOf_ok {ls : List Level} {toks rest : List Token} {e : Expr} {ks : List Link}
    (h : chainOf ls toks = ⟨.ok (e, ks), rest⟩) : rest.length < toks.length ∧
      (∀ k ∈ ks, k.op.level ∈ ls) ∧ ∀ t ∈ rest.head?, ¬ IsAmong ls t.kind := by
  rw [chainOf] at h
  generalize hr : (operand toks).reading = r at h
  obtain ⟨result, left⟩ := r
  cases result with
  | error x => cases h
  | ok e' =>
    have hfewer := rest_lt hr
    rw [Reading.andThen_ok] at h
    generalize hlinks : (linksAmong ls left).reading = r at h
    obtain ⟨result, left'⟩ := r
    cases result with
    | error x => cases h
    | ok js =>
      have hfewer' := rest_lt hlinks
      rw [Reading.map_ok] at h
      cases h
      exact ⟨by omega, linksAmong_ok hlinks⟩

/-- The links of one more level are read behind those of the tighter ones. -/
theorem chainOf_cons {α : Type} (l : Level) (ls : List Level) (f : Expr → List Link → α)
    (toks : List Token) :
    ((operand toks).reading.andThen fun e rest => (linksAmong (l :: ls) rest).reading.map (f e)) =
      (chainOf ls toks).andThen fun c rest =>
        (linksAmong (l :: ls) rest).reading.map fun js => f c.1 (c.2 ++ js) := by
  rw [chainOf, Reading.andThen_assoc]
  refine Reading.andThen_congr fun e rest _ => ?_
  rw [linksAmong_cons, Reading.map_andThen, Reading.andThen_map]
  simp only [Reading.map_map]

theorem readChain_nil (toks : List Token) : readChain [] toks = (operand toks).reading := by
  have hnone : ∀ rest : List Token, (linksAmong [] rest).reading = ⟨.ok [], rest⟩ := fun rest =>
    linksAmong_end fun t _ ⟨o, _, ho⟩ => List.not_mem_nil ho
  rw [readChain]
  generalize (operand toks).reading = r
  obtain ⟨result, rest⟩ := r
  cases result with
  | error e => rfl
  | ok e =>
    rw [Reading.andThen_ok, hnone]
    rfl

theorem readChain_ladder (toks : List Token) :
    readChain Level.ladder toks = (expression toks).reading := by
  rw [readChain, expression_reading]
  exact Reading.andThen_congr fun e rest _ => by rw [linksAmong_ladder]

/-- The operator of a level at the front, or none is there. -/
theorem operatorAt_cases (l : Level) (k : Kind) :
    (∃ o, k = .operator o ∧ o.level = l ∧ Cursor.operatorAt l k = some o) ∨
      (¬ IsAmong [l] k ∧ Cursor.operatorAt l k = none) := by
  unfold Cursor.operatorAt IsAmong
  split
  · next o =>
    by_cases ho : o.level = l
    · exact .inl ⟨o, rfl, ho, if_pos ho⟩
    · refine .inr ⟨?_, if_neg ho⟩
      rintro ⟨o', ho', hl⟩
      cases ho'
      exact ho (List.mem_singleton.mp hl)
  · next hnone =>
    refine .inr ⟨?_, rfl⟩
    rintro ⟨o, ho, -⟩
    exact hnone o ho

namespace Tape

variable {T : Tape} {size : Nat} {l : Level} {ls : List Level} {ahead : List Token}

/-- The loop of one level, behind an operand and links that are read already; the tighter levels
have taken theirs. -/
theorem chainFrom_reads (hl : l ∉ ls)
    (htighter : ∀ ahead : List Token, ahead.length ≤ size →
      T.Reads (Cursor.chain · ls) ahead (.of (readChain ls ahead)))
    (e : Expr) (ks : List Link) (ahead : List Token) (hn : ahead.length ≤ size)
    (hend : ∀ t ∈ ahead.head?, ¬ IsAmong ls t.kind) :
    T.Reads (Cursor.chainFrom · l ls (Chain.assemble (l :: ls) e ks)) ahead
      (.of ((linksAmong (l :: ls) ahead).reading.map fun js =>
        Chain.assemble (l :: ls) e (ks ++ js))) := by
  refine .succ (fun _ => rfl) (.peek ?_)
  rcases operatorAt_cases l (T.head ahead).kind with ⟨o, ho, hlevel, hop⟩ | ⟨hnone, hop⟩
  · rw [hop]
    cases ahead with
    | nil =>
      rw [head_nil, T.ends] at ho
      cases ho
    | cons t rest =>
      rw [head_cons] at ho
      rw [List.length_cons] at hn
      refine .advance ?_
      have hright := htighter rest (by omega)
      rw [readChain_eq] at hright
      rw [linksAmong_operator ho (by rw [hlevel]; exact List.mem_cons_self), Reading.map_andThen]
      simp only [Reading.map_map]
      rw [chainOf_cons l ls fun right js => Chain.assemble (l :: ls) e
        (ks ++ ⟨o, t.position, right⟩ :: js)]
      refine hright.bindMapped fun ⟨right, js⟩ left h => ?_
      obtain ⟨hfewer, hjs, hbehind⟩ := chainOf_ok h
      have hno : ∀ j ∈ js, j.op.level ≠ l := fun j hj h => hl (h ▸ hjs j hj)
      have hnext := chainFrom_reads hl htighter e (ks ++ ⟨o, t.position, right⟩ :: js) left
        (by omega) hbehind
      simp only [List.append_assoc, List.cons_append] at hnext
      rwa [Chain.assemble_append hlevel hno] at hnext
  · rw [hop, linksAmong_end]
    · rw [Reading.map_ok, List.append_nil]
      exact .pure _ ahead
    · intro t ht hamong
      rcases isAmong_cons.mp hamong with hthis | htighter
      · cases ahead <;> cases ht
        exact hnone hthis
      · exact hend t ht htighter
termination_by ahead.length
decreasing_by subst_vars; simp only [List.length_cons]; omega

theorem chain_reads (hunary : ∀ ahead : List Token, ahead.length ≤ size →
      T.Reads Cursor.unary ahead (.of (operand ahead).reading)) {ls : List Level}
    (hls : ls.Nodup) (ahead : List Token) (hn : ahead.length ≤ size) :
    T.Reads (Cursor.chain · ls) ahead (.of (readChain ls ahead)) := by
  induction ls generalizing ahead with
  | nil =>
    rw [readChain_nil]
    exact .succ (fun _ => rfl) (hunary ahead hn)
  | cons l ls ih =>
    obtain ⟨hl, hls⟩ := List.nodup_cons.mp hls
    have hfirst := ih hls ahead hn
    rw [readChain_eq] at hfirst
    rw [readChain, chainOf_cons]
    refine .succ (fun _ => rfl) (hfirst.bindMapped fun ⟨e, ks⟩ left h => ?_)
    obtain ⟨hfewer, hks, hend⟩ := chainOf_ok h
    have hno : ∀ k ∈ ks, k.op.level ≠ l := fun k hk h => hl (h ▸ hks k hk)
    have hloop := chainFrom_reads hl (ih hls) e ks left (by omega) hend
    rwa [Chain.assemble_of_no_level hno] at hloop

/-- With the whole ladder, an expression. -/
theorem expression_reads_of (hunary : ∀ ahead : List Token, ahead.length ≤ size →
      T.Reads Cursor.unary ahead (.of (operand ahead).reading)) (ahead : List Token)
    (hn : ahead.length ≤ size) :
    T.Reads (Cursor.chain · Level.ladder) ahead (.of (expression ahead).reading) := by
  rw [← readChain_ladder]
  exact chain_reads hunary (by decide) ahead hn

/-! ## Operands and arguments -/

theorem unaryAt_kind (op : UnaryOp) : Cursor.unaryAt op.kind = some op := by
  cases op <;> rfl

theorem unaryAt_none {k : Kind} (h : ∀ op : UnaryOp, k ≠ op.kind) : Cursor.unaryAt k = none := by
  unfold Cursor.unaryAt
  split
  · exact absurd rfl (h .neg)
  · exact absurd rfl (h .not)
  · rfl

/-- Only a token that is no operator begins a primary. -/
theorem unaryAt_head (h : ∀ t ∈ ahead.head?, ∀ op : UnaryOp, t.kind ≠ op.kind) :
    Cursor.unaryAt (T.head ahead).kind = none := by
  refine unaryAt_none fun op => ?_
  cases ahead with
  | nil =>
    rw [head_nil, T.ends]
    cases op <;> nofun
  | cons t rest => exact h t rfl op

mutual

theorem unary_reads (ahead : List Token) :
    T.Reads Cursor.unary ahead (.of (operand ahead).reading) := by
  rcases head_cases (∃ op : UnaryOp, · = op.kind) ahead with ⟨t, rest, rfl, op, ht⟩ | hnone
  · rw [operand_reading_unary ht]
    refine .succ (fun _ => rfl) (.peek ?_)
    rw [head_cons, ht, unaryAt_kind]
    exact .advance ((unary_reads rest).map _)
  · simp only [not_exists] at hnone
    refine .succ (fun _ => rfl) (.peek ?_)
    rw [unaryAt_head hnone]
    exact primary_reads ahead hnone
termination_by 2 * ahead.length + 1
decreasing_by all_goals grind

theorem primary_reads (ahead : List Token)
    (h : ∀ t ∈ ahead.head?, ∀ op : UnaryOp, t.kind ≠ op.kind) :
    T.Reads Cursor.primary ahead (.of (operand ahead).reading) := by
  refine .succ (fun _ => rfl) (.peek ?_)
  cases ahead with
  | nil =>
    rw [operand_reading_nil, head_nil, T.ends]
    exact .unexpected _ _
  | cons t rest =>
    rw [head_cons]
    rcases begins_cases t.kind with ⟨op, ht⟩ | ⟨v, ht⟩ | ⟨name, ht⟩ | ht | hnone
    · exact absurd ht (h t rfl op)
    · rw [operand_reading_literal ht, ht]
      cases v <;> exact .advance (.pure _ rest)
    · rw [ht]
      refine .advance ?_
      rcases head_cases (· = .delimiter .openParen) rest with ⟨u, more, rfl, hu⟩ | hvar
      · rw [operand_reading_call ht hu]
        refine .checked hu ?_
        exact (callArgs_reads hu more).map _
      · rw [operand_reading_var ht hvar]
        exact .unchecked (by decide) hvar (.pure _ rest)
    · rw [operand_reading_parens ht, ht]
      have hinner :=
        expression_reads_of (T := T) (fun more _ => unary_reads more) rest (Nat.le_refl _)
      exact .advance (hinner.bindReading fun e left _ => .close .closeParen e left)
    · rw [operand_reading_none hnone]
      obtain ⟨-, hv, hname, hparen⟩ := hnone
      split
      · next n hn => exact absurd hn (hv (.integer n))
      · next x hx => exact absurd hx (hv (.float x))
      · next s hs => exact absurd hs (hv (.string s))
      · next name hn => exact absurd hn (hname name)
      · next hp => exact absurd hp hparen
      · exact .unexpected _ _
termination_by 2 * ahead.length
decreasing_by all_goals grind

theorem callArgs_reads {o : Token} (ho : o.kind = .delimiter .openParen) (rest : List Token) :
    T.Reads Cursor.callArgs (o :: rest) (.of (arguments rest).reading) := by
  refine .succ (fun _ => rfl) ((Reads.expect_taken ho _ rest).next ?_)
  rcases head_cases (· = .delimiter .closeParen) rest with ⟨c, more, rfl, hc⟩ | hsome
  · rw [arguments_reading_none hc]
    exact .checked hc ((Reads.expect_taken hc _ more).next (.pure _ more))
  · rw [arguments_reading_some hsome]
    have hfirst :=
      expression_reads_of (T := T) (fun more _ => unary_reads more) rest (Nat.le_refl _)
    refine .unchecked (by decide) hsome (hfirst.bindReading fun e left h => ?_)
    have hfewer := rest_lt h
    exact moreArgs_reads [e] left
termination_by 2 * (rest.length + 1)
decreasing_by all_goals grind

/-- The loop over the arguments behind those read already, and the closing parenthesis. -/
theorem moreArgs_reads (args : List Expr) (ahead : List Token) :
    T.Reads (fun n => Cursor.moreArgs n args >>= fun args =>
        Cursor.expectDelimiter .closeParen >>= fun _ => pure args) ahead
      (.of ((moreArguments ahead).reading.map (args ++ ·))) := by
  refine .succ (fun _ => rfl) ?_
  simp only [Cursor.moreArgs, bind_assoc]
  rcases head_cases (· = .delimiter .comma) ahead with ⟨c, rest, rfl, hc⟩ | hend
  · rw [moreArguments_reading_comma hc, Reading.map_andThen]
    refine .checked hc ?_
    simp only [if_true, bind_assoc]
    have hnext := expression_reads_of (T := T) (fun more _ => unary_reads more) rest (Nat.le_refl _)
    refine .advance (hnext.bindReading fun e left h => ?_)
    have hfewer := rest_lt h
    have hrest := moreArgs_reads (args ++ [e]) left
    simp only [List.append_assoc, List.singleton_append] at hrest
    rw [Reading.map_map]
    exact hrest
  · rw [moreArguments_reading_end hend]
    refine .unchecked (by decide) hend ?_
    rw [Reading.map_map, List.append_nil]
    exact .close .closeParen args ahead
termination_by 2 * ahead.length
decreasing_by all_goals grind

end

theorem expression_reads (ahead : List Token) :
    T.Reads Cursor.expression ahead (.of (expression ahead).reading) :=
  expression_reads_of (fun more _ => unary_reads more) ahead (Nat.le_refl _)

end Tape
end MeowScript
