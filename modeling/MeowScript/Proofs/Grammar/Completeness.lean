import MeowScript.Proofs.Grammar.Precedence
import MeowScript.Proofs.Grammar.Reading

/-!
# What the grammar spells is read

Readers are greedy: they take an operator or an opening parenthesis whenever one follows. What can
follow an expression or a statement in a program is neither, and no `Hiss` can follow a branch that
has none; so a greedy reader stops where the grammar does.

Results:
* `operand_complete`, `expression_complete`, `arguments_complete`: expressions.
* `StmtSpelled.ends`: what a statement makes of the tokens behind it.
* `StmtSpelled.readable`, `block_complete`, `statements_complete`: statements.
-/
namespace MeowScript

open Attempt Recovered

/-! ## Expressions -/

/-- No expression goes on with the first of these tokens. -/
def EndsExpr (toks : List Token) : Prop :=
  ∀ t ∈ toks.head?, (∀ o, t.kind ≠ .operator o) ∧ t.kind ≠ .delimiter .openParen

theorem EndsExpr.no_paren {toks : List Token} (h : EndsExpr toks) :
    take? (.delimiter .openParen) toks = none := by
  cases toks with
  | nil => rfl
  | cons t rest => exact if_neg (h t rfl).2

theorem endsExpr_delimiter {t : Token} {d : Delimiter} (ht : t.kind = .delimiter d)
    (hd : d ≠ .openParen) (rest : List Token) : EndsExpr (t :: rest) := by
  intro u hu
  cases hu
  rw [ht]
  exact ⟨fun o => by simp, fun h => hd (by simpa using h)⟩

/-- An expression has a first token, which is no closing parenthesis. -/
theorem ExprSpelled.begins {rows : List (List BinaryOp)} {toks : List Token} {e : Expr}
    (h : ExprSpelled rows toks e) :
    ∃ t more, toks = t :: more ∧ t.kind ≠ .delimiter .closeParen := by
  induction h with
  | tighter _ ih => exact ih
  | binary _ _ _ _ ih =>
    obtain ⟨u, more, rfl, hu⟩ := ih
    exact ⟨u, _, rfl, hu⟩
  | @unary _ op _ _ ht => exact ⟨_, _, rfl, by cases op <;> simp [ht, UnaryOp.kind]⟩
  | @literal _ v ht => exact ⟨_, _, rfl, by cases v <;> simp [ht, Literal.kind]⟩
  | var ht => exact ⟨_, _, rfl, by simp [ht]⟩
  | call ht => exact ⟨_, _, rfl, by simp [ht]⟩
  | parens ho => exact ⟨_, _, rfl, by simp [ho]⟩

theorem ExprSpelled.not_close {rows : List (List BinaryOp)} {toks : List Token} {e : Expr}
    (h : ExprSpelled rows toks e) (rest : List Token) :
    take? (.delimiter .closeParen) (toks ++ rest) = none := by
  obtain ⟨t, more, rfl, ht⟩ := h.begins
  exact if_neg ht

mutual

theorem operand_complete (toks : List Token) (e : Expr) (h : ExprSpelled [] toks e)
    (rest : List Token) (hr : take? (.delimiter .openParen) rest = none) :
    (operand (toks ++ rest)).result? = some (e, rest) := by
  cases h with
  | @unary t op toks e ht he =>
    rw [List.cons_append, operand_unary ht, operand_complete toks e he rest hr, Option.map_some]
  | literal ht => rw [List.singleton_append, operand_literal ht]
  | var ht => rw [List.singleton_append, operand_var ht hr]
  | @call t o c name args toks ht ho ha hl hc =>
    have hj : t :: o :: (toks ++ [c]) ++ rest = t :: o :: (toks ++ c :: rest) := by simp
    rw [hj, operand_call ht (take?_of_kind ho _), arguments_complete args toks ha hl c hc rest,
      Option.map_some]
  | @parens o c toks _ ho he hc =>
    have hj : o :: (toks ++ [c]) ++ rest = o :: (toks ++ c :: rest) := by simp
    rw [hj, operand_parens ho,
      expression_complete toks e he (c :: rest) (endsExpr_delimiter hc (by decide) rest),
      Option.bind_some, take?_of_kind hc, Option.map_some]
termination_by 2 * toks.length
decreasing_by all_goals subst_vars; simp only [List.length_cons, List.length_append]; omega

theorem expression_complete (toks : List Token) (e : Expr)
    (h : ExprSpelled operatorRows toks e) (rest : List Token) (hr : EndsExpr rest) :
    (expression (toks ++ rest)).result? = some (e, rest) := by
  obtain ⟨a, b, e₀, ks, rfl, ha, hb, rfl⟩ := h.chain
  have hparen : take? (.delimiter .openParen) (b ++ rest) = none := by
    cases hb with
    | nil => exact hr.no_paren
    | cons ht => exact if_neg (by simp [ht])
  rw [expression_result?, List.append_assoc, operand_complete a e₀ ha (b ++ rest) hparen,
    Option.bind_some, links_complete b ks hb rest hr, Option.map_some]
termination_by 2 * toks.length + 1
decreasing_by all_goals subst_vars; simp only [List.length_append]; omega

theorem links_complete (toks : List Token) (ks : List Link) (h : LinksSpelled toks ks)
    (rest : List Token) (hr : EndsExpr rest) :
    (links (toks ++ rest)).result? = some (ks, rest) := by
  cases h with
  | nil => exact links_end fun t ht => (hr t ht).1
  | @cons t k a b ks ht hp he hb =>
    have hparen : take? (.delimiter .openParen) (b ++ rest) = none := by
      cases hb with
      | nil => exact hr.no_paren
      | cons ht => exact if_neg (by simp [ht])
    rw [List.cons_append, List.append_assoc, links_operator ht,
      operand_complete a k.operand he (b ++ rest) hparen, Option.bind_some,
      links_complete b ks hb rest hr, Option.map_some, hp]
termination_by 2 * toks.length
decreasing_by all_goals subst_vars; simp only [List.length_cons, List.length_append]; omega

theorem arguments_complete (args : List (List Token × Expr)) (toks : List Token)
    (h : ∀ x ∈ args, ExprSpelled operatorRows x.1 x.2) (hl : Listed args toks) (c : Token)
    (hc : c.kind = .delimiter .closeParen) (rest : List Token) :
    (arguments (toks ++ c :: rest)).result? = some (meanings args, rest) := by
  cases hl with
  | none => exact arguments_none (take?_of_kind hc rest)
  | @some x xs toks hl =>
    have hx := h x List.mem_cons_self
    have hends : EndsExpr (toks ++ c :: rest) := by
      cases hl with
      | nil => exact endsExpr_delimiter hc (by decide) rest
      | cons ht => exact endsExpr_delimiter ht (by decide) _
    rw [List.append_assoc, arguments_some (hx.not_close _),
      expression_complete x.1 x.2 hx _ hends, Option.bind_some,
      moreArguments_complete xs toks (fun y hy => h y (List.mem_cons_of_mem x hy)) hl c hc rest,
      Option.map_some, meanings_cons]
termination_by 2 * toks.length + 2
decreasing_by all_goals subst_vars; simp only [List.length_append]; omega

theorem moreArguments_complete (args : List (List Token × Expr)) (toks : List Token)
    (h : ∀ x ∈ args, ExprSpelled operatorRows x.1 x.2) (hl : CommaEach args toks) (c : Token)
    (hc : c.kind = .delimiter .closeParen) (rest : List Token) :
    (moreArguments (toks ++ c :: rest)).result? = some (meanings args, rest) := by
  cases hl with
  | nil =>
    have hcomma : take? (.delimiter .comma) (c :: rest) = none := if_neg (by simp [hc])
    rw [List.nil_append, moreArguments_end hcomma, take?_of_kind hc]
    rfl
  | @cons t x xs toks ht hl =>
    have hx := h x List.mem_cons_self
    have hends : EndsExpr (toks ++ c :: rest) := by
      cases hl with
      | nil => exact endsExpr_delimiter hc (by decide) rest
      | cons ht => exact endsExpr_delimiter ht (by decide) _
    rw [List.cons_append, List.append_assoc, moreArguments_comma (take?_of_kind ht _),
      expression_complete x.1 x.2 hx _ hends, Option.bind_some,
      moreArguments_complete xs toks (fun y hy => h y (List.mem_cons_of_mem x hy)) hl c hc rest,
      Option.map_some, meanings_cons]
termination_by 2 * toks.length + 1
decreasing_by all_goals subst_vars; simp only [List.length_cons, List.length_append]; omega

end

/-! ## Parts of statements -/

theorem moreParameters_complete {params : List (List Token × Param)} {toks : List Token}
    (hl : CommaEach params toks) (h : ∀ x ∈ params, ParamSpelled x.1 x.2) {c : Token}
    (hc : c.kind = .delimiter .closeParen) (rest : List Token) :
    (moreParameters (toks ++ c :: rest)).result? = some (meanings params, rest) := by
  induction hl with
  | nil =>
    have hcomma : take? (.delimiter .comma) (c :: rest) = none := if_neg (by simp [hc])
    rw [List.nil_append, moreParameters_end hcomma, take?_of_kind hc]
    rfl
  | @cons t x xs toks ht _ ih =>
    have hp := h x List.mem_cons_self
    obtain ⟨used, param⟩ := x
    cases hp with
    | @mk n _ hn =>
      have hj : t :: ([n] ++ toks) ++ c :: rest = t :: n :: (toks ++ c :: rest) := rfl
      rw [hj, moreParameters_comma (take?_of_kind ht _), identifier_result? hn, Option.bind_some,
        ih fun y hy => h y (List.mem_cons_of_mem _ hy)]
      rfl

theorem parameters_complete {params : List (List Token × Param)} {toks : List Token}
    (hl : Listed params toks) (h : ∀ x ∈ params, ParamSpelled x.1 x.2) {c : Token}
    (hc : c.kind = .delimiter .closeParen) (rest : List Token) :
    (parameters (toks ++ c :: rest)).result? = some (meanings params, rest) := by
  cases hl with
  | none =>
    have hn : ∀ u ∈ (c :: rest).head?, ∀ name, u.kind ≠ .identifier name := by
      intro u hu name
      cases hu
      simp [hc]
    rw [List.nil_append, parameters_none hn, take?_of_kind hc]
    rfl
  | @some x xs toks hl =>
    have hp := h x List.mem_cons_self
    obtain ⟨used, param⟩ := x
    cases hp with
    | @mk n _ hn =>
      have hj : [n] ++ toks ++ c :: rest = n :: (toks ++ c :: rest) := rfl
      rw [hj, parameters_some hn,
        moreParameters_complete hl (fun y hy => h y (List.mem_cons_of_mem _ hy)) hc]
      rfl

theorem enclosed_complete {toks : List Token} {e : Expr} (h : EnclosedSpelled toks e)
    (rest : List Token) : (enclosed (toks ++ rest)).result? = some (e, rest) := by
  cases h with
  | @mk o c toks _ ho he hc =>
    have hj : o :: (toks ++ [c]) ++ rest = o :: (toks ++ c :: rest) := by simp
    rw [hj, enclosed_result?, take?_of_kind ho, Option.bind_some,
      expression_complete toks e he _ (endsExpr_delimiter hc (by decide) rest), Option.bind_some,
      take?_of_kind hc]
    rfl

/-! ## Statements -/

/-- No statement goes on with the first of these tokens. -/
structure EndsStmt (toks : List Token) : Prop where
  endsExpr : EndsExpr toks
  no_hiss : take? (.keyword .hiss) toks = none

namespace EndsStmt

variable {t : Token}

theorem cons (hop : ∀ o, t.kind ≠ .operator o) (hparen : t.kind ≠ .delimiter .openParen)
    (hhiss : t.kind ≠ .keyword .hiss) (rest : List Token) : EndsStmt (t :: rest) := by
  refine ⟨fun u hu => ?_, if_neg hhiss⟩
  cases hu
  exact ⟨hop, hparen⟩

/-- The end of a list of statements goes on with none of them. -/
theorem of_end (h : endsStatements t.kind = true) (rest : List Token) : EndsStmt (t :: rest) := by
  refine cons (fun o ho => ?_) (fun ho => ?_) (fun ho => ?_) rest <;> rw [ho] at h <;>
    simp [endsStatements] at h

/-- Nor does another statement. -/
theorem of_starter {s : Starter} (h : Starter.ofKind? t.kind = some s) (rest : List Token) :
    EndsStmt (t :: rest) := by
  refine cons (fun o ho => ?_) (fun ho => ?_) (fun ho => ?_) rest <;> rw [ho] at h <;>
    simp [Starter.ofKind?] at h

end EndsStmt

/-- The tokens begin with a starter, and the rest of the statement is read behind it. -/
def Readable (toks : List Token) (s : Stmt) : Prop :=
  ∃ t more st, toks = t :: more ∧ Starter.ofKind? t.kind = some st ∧
    ∀ rest, EndsStmt rest → (statement st t.position (more ++ rest)).clean? = some (s, rest)

/-- Statements that are read may come in between. -/
theorem EndsStmt.spelling {body : List (List Token × Stmt)} (h : ∀ x ∈ body, Readable x.1 x.2)
    {rest : List Token} (hr : EndsStmt rest) : EndsStmt (spelling body ++ rest) := by
  cases body with
  | nil => exact hr
  | cons x xs =>
    obtain ⟨t, more, st, hx, ht, -⟩ := h x List.mem_cons_self
    rw [spelling_cons, hx, List.append_assoc, List.cons_append]
    exact .of_starter ht _

/-- Behind statements that are read, reading goes on. -/
theorem statements_append {body : List (List Token × Stmt)} (h : ∀ x ∈ body, Readable x.1 x.2)
    {rest : List Token} (hr : EndsStmt rest) :
    (statements (spelling body ++ rest)).clean? =
      (statements rest).clean?.map fun x => (meanings body ++ x.1, x.2) := by
  induction body with
  | nil => simp
  | cons x xs ih =>
    have hxs := fun y hy => h y (List.mem_cons_of_mem x hy)
    obtain ⟨t, more, st, hx, ht, hread⟩ := h x List.mem_cons_self
    rw [spelling_cons, hx, List.append_assoc, List.cons_append, statements_starter ht,
      hread _ (.spelling hxs hr), Option.bind_some, ih hxs, Option.map_map]
    rfl

theorem statements_complete {body : List (List Token × Stmt)} (h : ∀ x ∈ body, Readable x.1 x.2)
    {c : Token} (hc : endsStatements c.kind = true) (rest : List Token) :
    (statements (spelling body ++ c :: rest)).clean? = some (meanings body, c :: rest) := by
  have hend : ∀ u ∈ (c :: rest).head?, endsStatements u.kind = true := by
    intro u hu
    cases hu
    exact hc
  rw [statements_append h (.of_end hc rest), statements_end hend, Option.map_some,
    List.append_nil]

theorem block_complete {body : List (List Token × Stmt)} (h : ∀ x ∈ body, Readable x.1 x.2)
    {toks : List Token} (hb : Braced (spelling body) toks) (rest : List Token) :
    (block (toks ++ rest)).clean? = some (meanings body, rest) := by
  cases hb with
  | @mk o c _ ho hc =>
    have hj : o :: (spelling body ++ [c]) ++ rest = o :: (spelling body ++ c :: rest) := by simp
    have hend : endsStatements c.kind = true := by rw [hc]; rfl
    rw [hj, block_clean?, take?_of_kind ho, Option.bind_some, statements_complete h hend,
      Option.bind_some, take?_of_kind hc]
    rfl

/-- Statements that end with an expression. -/
inductive MadeOfValue : (Expr → Stmt) → Prop where
  | declare (name : String) (p : Position) : MadeOfValue (.declare name · none p)
  | assign (name : String) (p : Position) : MadeOfValue (.assign name · none p)
  | bring (p : Position) : MadeOfValue (.bring · p)

/-- What the reading of a statement, behind its starter, makes of the tokens that follow it: an
expression at its end goes on as far as it can, and a branch takes a `Hiss`. -/
inductive StmtEnding (st : Starter) (p : Position) (more : List Token) (s : Stmt) : Prop where
  | value (front : List Token) {tail : List Token} {make : Expr → Stmt} {e : Expr} :
      MadeOfValue make → more = front ++ tail → ExprSpelled operatorRows tail e → s = make e →
      (∀ toks, (statement st p (front ++ toks)).clean? =
        (expression toks).result?.map fun x => (make x.1, x.2)) → StmtEnding st p more s
  | branch {condition : Expr} {body : List Stmt} : s = .ifThen condition body p →
      (∀ rest, (statement st p (more ++ rest)).clean? = otherwise? condition body p rest) →
      StmtEnding st p more s
  | closed : (∀ rest, (statement st p (more ++ rest)).clean? = some (s, rest)) →
      StmtEnding st p more s

theorem StmtEnding.read {st : Starter} {p : Position} {more : List Token} {s : Stmt}
    (h : StmtEnding st p more s) {rest : List Token} (hr : EndsStmt rest) :
    (statement st p (more ++ rest)).clean? = some (s, rest) := by
  cases h with
  | @value front tail make e _ hmore he hs hread =>
    rw [hmore, hs, List.append_assoc, hread, expression_complete tail e he rest hr.endsExpr,
      Option.map_some]
  | branch hs hread => rw [hs, hread, otherwise?, hr.no_hiss]
  | closed hread => exact hread rest

/-- The tokens begin with a starter, and the reading behind it is one of these. -/
def Ends (toks : List Token) (s : Stmt) : Prop :=
  ∃ t more st, toks = t :: more ∧ Starter.ofKind? t.kind = some st ∧ StmtEnding st t.position more s

theorem Ends.readable {toks : List Token} {s : Stmt} (h : Ends toks s) : Readable toks s := by
  obtain ⟨t, more, st, hmore, hst, hending⟩ := h
  exact ⟨t, more, st, hmore, hst, fun rest hr => hending.read hr⟩

theorem StmtSpelled.ends {toks : List Token} {s : Stmt} (h : StmtSpelled toks s) :
    Ends toks s := by
  induction h with
  | @declare t n w name toks e ht hn hw he =>
    refine ⟨t, _, .declaration, rfl, by rw [ht]; rfl,
      .value [n, w] (.declare name t.position) rfl he rfl fun toks => ?_⟩
    rw [statement, clean?_ofAttempt, List.cons_append, List.cons_append, List.nil_append,
      declaration_result?, identifier_result? hn, Option.bind_some, take?_of_kind hw,
      Option.bind_some]
  | @assign n w name toks e hn hw he =>
    refine ⟨n, _, .named name, rfl, by rw [hn]; rfl,
      .value [w] (.assign name n.position) rfl he rfl fun toks => ?_⟩
    rw [statement, clean?_ofAttempt, List.singleton_append, named_assign (take?_of_kind hw _)]
  | @call n o c name args toks hn ho ha hl hc =>
    refine ⟨n, _, .named name, rfl, by rw [hn]; rfl, .closed fun rest => ?_⟩
    have hj : o :: (toks ++ [c]) ++ rest = o :: (toks ++ c :: rest) := by simp
    rw [statement, clean?_ofAttempt, hj, named_call (take?_of_kind ho _),
      arguments_complete args toks ha hl c hc rest, Option.map_some]
  | @define t n o c name params toks block body ht hn ho hp hl hc _ hb ih =>
    refine ⟨t, _, .definition, rfl, by rw [ht]; rfl, .closed fun rest => ?_⟩
    have hj : n :: o :: (toks ++ c :: block) ++ rest =
        n :: o :: (toks ++ c :: (block ++ rest)) := by simp
    rw [hj, statement_definition, signature_result?, identifier_result? hn, Option.bind_some,
      take?_of_kind ho, Option.bind_some, parameters_complete hl hp hc, Option.map_some,
      Option.bind_some, block_complete (fun x hx => (ih x hx).readable) hb, Option.map_some]
  | @ifThen t test block condition body ht he _ hb ih =>
    refine ⟨t, _, .branch, rfl, by rw [ht]; rfl, .branch rfl fun rest => ?_⟩
    rw [List.append_assoc, statement_branch, enclosed_complete he, Option.bind_some,
      block_complete (fun x hx => (ih x hx).readable) hb, Option.bind_some]
  | @ifElse t i test block block' condition body otherwise ht he _ hb hi _ hb' ih ih' =>
    refine ⟨t, _, .branch, rfl, by rw [ht]; rfl, .closed fun rest => ?_⟩
    rw [List.append_assoc, List.append_assoc, List.cons_append, statement_branch,
      enclosed_complete he, Option.bind_some, block_complete (fun x hx => (ih x hx).readable) hb,
      Option.bind_some, otherwise?, take?_of_kind hi]
    simp only [block_complete (fun x hx => (ih' x hx).readable) hb', Option.map_some]
  | @loop t test block condition body ht he _ hb ih =>
    refine ⟨t, _, .loop, rfl, by rw [ht]; rfl, .closed fun rest => ?_⟩
    rw [List.append_assoc, statement_loop, enclosed_complete he, Option.bind_some,
      block_complete (fun x hx => (ih x hx).readable) hb, Option.map_some]
  | @bring t toks e ht he =>
    refine ⟨t, _, .bring, rfl, by rw [ht]; rfl,
      .value [] (.bring t.position) rfl he rfl fun toks => ?_⟩
    rw [statement, clean?_ofAttempt, result?_map, List.nil_append]
  | @print t toks e ht he =>
    refine ⟨t, _, .print, rfl, by rw [ht]; rfl, .closed fun rest => ?_⟩
    rw [statement, clean?_ofAttempt, result?_map, enclosed_complete he, Option.map_some]

theorem StmtSpelled.readable {toks : List Token} {s : Stmt} (h : StmtSpelled toks s) :
    Readable toks s :=
  h.ends.readable

end MeowScript
