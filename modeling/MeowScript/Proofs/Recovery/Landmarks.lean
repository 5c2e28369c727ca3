import MeowScript.Proofs.Grammar.Completeness
import MeowScript.Proofs.Grammar.Kinds

/-!
# Landmarks within statements

Recovery goes on at a landmark. Behind the first token of a statement that is spelled right, the
first landmark stands in a block, so that an opening brace comes before it; and no statement goes
on with a landmark. So a piece of a program without braces reaches up to the next landmark at most.

Results:
* `StmtSpelled.behindBrace`: a landmark within a statement has an opening brace before it.
* `endsStmt_of_landmark`: no statement goes on with a landmark.
* `skip_to`: recovery leaves what stands from the next landmark on.
-/
namespace MeowScript

/-! ## Within a statement -/

/-- None of the tokens is a landmark. -/
def Unmarked (toks : List Token) : Prop := ∀ t ∈ toks, t.kind.isLandmark = false

@[simp] theorem unmarked_nil : Unmarked [] := List.forall_mem_nil _

@[simp] theorem unmarked_cons {t : Token} {toks : List Token} :
    Unmarked (t :: toks) ↔ t.kind.isLandmark = false ∧ Unmarked toks := List.forall_mem_cons

@[simp] theorem unmarked_append {a b : List Token} :
    Unmarked (a ++ b) ↔ Unmarked a ∧ Unmarked b := List.forall_mem_append

theorem Values.unmarked {toks : List Token} (h : Values toks) : Unmarked toks :=
  fun t ht => Kind.isLandmark_of_inValue (h t ht)

/-- Each landmark has an opening brace before it. -/
def BehindBrace (toks : List Token) : Prop :=
  ∀ before t after, toks = before ++ t :: after → t.kind.isLandmark = true →
    ∃ o ∈ before, o.kind = .delimiter .openBrace

namespace BehindBrace

theorem of_unmarked {toks : List Token} (h : Unmarked toks) : BehindBrace toks := by
  rintro before t after rfl ht
  have hnot := h t (by simp)
  rw [ht] at hnot
  cases hnot

/-- It is enough that the tokens up to the first opening brace are no landmarks. -/
theorem of_front {front rest : List Token} {o : Token} (hf : Unmarked front)
    (ho : o.kind = .delimiter .openBrace) : BehindBrace (front ++ o :: rest) := by
  intro before t after he ht
  have hno : o.kind.isLandmark = false := by rw [ho]; rfl
  rcases List.append_eq_append_iff.mp he with ⟨more, rfl, hmore⟩ | ⟨more, hfront, hmore⟩
  · cases more with
    | nil =>
      cases hmore
      rw [ht] at hno
      cases hno
    | cons u more =>
      cases hmore
      exact ⟨o, by simp, ho⟩
  · -- what stands in front of the brace is no landmark, nor is the brace
    have ht' : t ∈ front ++ [o] := by
      cases more with
      | nil => cases hmore; simp
      | cons u more => cases hmore; simp [hfront]
    have hnot : Unmarked (front ++ [o]) := by simp [hf, hno]
    rw [hnot t ht'] at ht
    cases ht

end BehindBrace

/-- A landmark within a statement stands in one of its blocks. -/
theorem StmtSpelled.behindBrace {t : Token} {more : List Token} {s : Stmt}
    (h : StmtSpelled (t :: more) s) : BehindBrace more := by
  generalize htoks : t :: more = toks at h
  cases h with
  | declare _ hn hw he =>
    cases htoks
    exact .of_unmarked (by simp [hn, hw, Kind.isLandmark, he.values.unmarked])
  | assign _ hw he =>
    cases htoks
    exact .of_unmarked (by simp [hw, Kind.isLandmark, he.values.unmarked])
  | call _ ho ha hl hc =>
    cases htoks
    have hargs := (hl.values fun x hx => (ha x hx).values).unmarked
    exact .of_unmarked (by simp [ho, hc, Kind.isLandmark, hargs])
  | @define _ n o c _ _ toks _ body _ hn ho hp hl hc _ hb =>
    cases htoks
    cases hb with
    | @mk ob cb _ hob _ =>
      have hparams := (hl.values fun x hx => (hp x hx).values).unmarked
      have hfront : Unmarked (n :: o :: (toks ++ [c])) := by
        simp [hn, ho, hc, Kind.isLandmark, hparams]
      have hfirst : BehindBrace (n :: o :: (toks ++ [c]) ++ ob :: (spelling body ++ [cb])) :=
        .of_front hfront hob
      simpa using hfirst
  | ifThen _ he _ hb =>
    cases htoks
    cases hb with
    | mk hob _ => exact .of_front he.values.unmarked hob
  | ifElse _ he _ hb =>
    cases htoks
    cases hb with
    | mk hob _ =>
      rw [List.append_assoc, List.cons_append]
      exact .of_front he.values.unmarked hob
  | loop _ he _ hb =>
    cases htoks
    cases hb with
    | mk hob _ => exact .of_front he.values.unmarked hob
  | bring _ he =>
    cases htoks
    exact .of_unmarked he.values.unmarked
  | print _ he =>
    cases htoks
    exact .of_unmarked he.values.unmarked

/-! ## In front of a landmark -/

/-- No statement goes on with a landmark. -/
theorem endsStmt_of_landmark {t : Token} (ht : t.kind.isLandmark = true) (rest : List Token) :
    EndsStmt (t :: rest) := by
  refine .cons (fun o ho => ?_) (fun ho => ?_) (fun ho => ?_) rest <;> rw [ho] at ht <;> cases ht

theorem isLandmark_of_ends {k : Kind} (h : endsStatements k = true) : k.isLandmark = true := by
  unfold endsStatements at h
  split at h <;> first | rfl | cases h

/-- Recovery leaves what stands from the next landmark on. -/
theorem skip_to {front : List Token} (hf : Unmarked front) {t : Token}
    (ht : t.kind.isLandmark = true) (rest : List Token) :
    skip (front ++ t :: rest) = t :: rest := by
  unfold skip
  rw [List.dropWhile_append_of_pos]
  · exact List.dropWhile_cons_of_neg (by simp [ht])
  · intro u hu
    simp [hf u hu]

end MeowScript
