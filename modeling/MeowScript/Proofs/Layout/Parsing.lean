import MeowScript.Proofs.Grammar.Readings

/-!
# Reading without looking at positions

A thing is bare if everything in it stands at the start of the text. Readers decide by what tokens
are and never by where they stand: of bare tokens they make what they make of the others, but bare.

Results:
* `assemble_bare`: precedence.
* `operand_bare`, `expression_bare`: expressions.
* `statement_bare`, `statements_bare`: statements, with the faults that are reported on the way.
* `ofTokens_bare`: programs.
-/
namespace MeowScript

open Attempt Recovered

variable {α β : Type}

/-! ## Bare things -/

def Token.bare (t : Token) : Token := { t with position := .start }

@[simp] theorem Token.bare_kind (t : Token) : t.bare.kind = t.kind := rfl

@[simp] theorem Token.bare_position (t : Token) : t.bare.position = .start := rfl

mutual

def Expr.bare : Expr → Expr
  | .literal v _ note => .literal v .start note
  | .var name storage _ ty => .var name storage .start ty
  | .binary op left right _ note => .binary op left.bare right.bare .start note
  | .unary op operand _ note => .unary op operand.bare .start note
  | .call name args _ note => .call name (Expr.allBare args) .start note

def Expr.allBare : List Expr → List Expr
  | [] => []
  | e :: es => Expr.bare e :: Expr.allBare es

end

@[simp] theorem Expr.allBare_eq (es : List Expr) : Expr.allBare es = es.map Expr.bare := by
  induction es with
  | nil => rfl
  | cons e es ih => rw [Expr.allBare, ih, List.map_cons]

def Link.bare (k : Link) : Link := ⟨k.op, .start, k.operand.bare⟩

def Param.bare (x : Param) : Param := ⟨x.name, .start⟩

mutual

def Stmt.bare : Stmt → Stmt
  | .declare name value storage _ => .declare name value.bare storage .start
  | .assign name value storage _ => .assign name value.bare storage .start
  | .define name params body _ => .define name (params.map Param.bare) (Stmt.allBare body) .start
  | .call name args _ => .call name (args.map Expr.bare) .start
  | .ifThen condition body _ => .ifThen condition.bare (Stmt.allBare body) .start
  | .ifElse condition body otherwise _ =>
    .ifElse condition.bare (Stmt.allBare body) (Stmt.allBare otherwise) .start
  | .loop condition body _ => .loop condition.bare (Stmt.allBare body) .start
  | .bring value _ => .bring value.bare .start
  | .print value _ => .print value.bare .start

def Stmt.allBare : List Stmt → List Stmt
  | [] => []
  | s :: ss => Stmt.bare s :: Stmt.allBare ss

end

@[simp] theorem Stmt.allBare_eq (ss : List Stmt) : Stmt.allBare ss = ss.map Stmt.bare := by
  induction ss with
  | nil => rfl
  | cons s ss ih => rw [Stmt.allBare, ih, List.map_cons]

def Program.bare (p : Program) : Program := ⟨p.body.map Stmt.bare, .start⟩

/-- The same cause, made bare by `g`, at the start. -/
def Located.bare (g : α → α) (x : Located α) : Located α := ⟨g x.cause, .start⟩

/-- The same result, made bare by `g`, and bare tokens left. -/
def Reading.bare (g : α → α) (r : Reading α) : Reading α :=
  ⟨r.result.map g, r.rest.map Token.bare⟩

def Account.bare (g : α → α) (r : Account α) : Account α :=
  ⟨r.faults.map (Located.bare id), r.reading.bare g⟩

/-! ## Readers one after the other -/

theorem Reading.bare_map {g : α → α} {g' : β → β} {f f' : α → β} (h : ∀ a, f' (g a) = g' (f a))
    (r : Reading α) : (r.bare g).map f' = (r.map f).bare g' := by
  obtain ⟨result, rest⟩ := r
  cases result with
  | error e => rfl
  | ok a => simp [bare, map, Except.map, h]

theorem Reading.bare_andThen {g : α → α} {g' : β → β} {f f' : α → List Token → Reading β}
    {r : Reading α}
    (h : ∀ a rest, r = ⟨.ok a, rest⟩ → f' (g a) (rest.map Token.bare) = (f a rest).bare g') :
    (r.bare g).andThen f' = (r.andThen f).bare g' := by
  obtain ⟨result, rest⟩ := r
  cases result with
  | error e => rfl
  | ok a => exact h a rest rfl

theorem head_bare {toks : List Token} {p : Kind → Prop} (h : ∀ t ∈ toks.head?, p t.kind) :
    ∀ t ∈ (toks.map Token.bare).head?, p t.kind := by
  cases toks with
  | nil => nofun
  | cons t rest =>
    intro u hu
    cases hu
    exact h t rfl

/-! ## Tokens -/

theorem takeOne_bare (k : Kind) (e : Expected) (toks : List Token) :
    takeOne k e (toks.map Token.bare) = (takeOne k e toks).bare id := by
  cases toks with
  | nil => rfl
  | cons t rest =>
    by_cases h : t.kind = k
    · simp [takeOne, Token.bare, Reading.bare, h, Except.map]
    · simp [takeOne, Token.bare, Reading.bare, h, Except.map]

theorem delimiter_bare (d : Delimiter) (toks : List Token) :
    (delimiter d (toks.map Token.bare)).reading = (delimiter d toks).reading.bare id := by
  rw [delimiter_reading, delimiter_reading, takeOne_bare]

theorem paws_bare (toks : List Token) :
    (paws (toks.map Token.bare)).reading = (paws toks).reading.bare id := by
  rw [paws_reading, paws_reading, takeOne_bare]

/-! ## Expressions -/

theorem segments_bare (l : Level) (ks : List Link) :
    Chain.segments l (ks.map Link.bare) =
      ((Chain.segments l ks).1.map Link.bare,
        (Chain.segments l ks).2.map fun s => (s.1.bare, s.2.map Link.bare)) := by
  induction ks with
  | nil => rfl
  | cons k ks ih =>
    rw [List.map_cons, Chain.segments, Chain.segments, ih]
    by_cases h : k.op.level = l
    · simp [Link.bare, h]
    · simp [Link.bare, h]

theorem assemble_bare (ls : List Level) (e : Expr) (ks : List Link) :
    Chain.assemble ls e.bare (ks.map Link.bare) = (Chain.assemble ls e ks).bare := by
  induction ls generalizing e ks with
  | nil => rfl
  | cons l ls ih =>
    rw [Chain.assemble, Chain.assemble, segments_bare]
    dsimp only
    rw [List.foldl_map, ih]
    refine List.foldl_hom Expr.bare fun left s => ?_
    dsimp only [Link.bare]
    rw [ih, Expr.bare]

mutual

theorem operand_bare (toks : List Token) :
    (operand (toks.map Token.bare)).reading = (operand toks).reading.bare Expr.bare := by
  cases toks with
  | nil =>
    rw [List.map_nil, operand_reading_nil]
    rfl
  | cons t rest =>
    rw [List.map_cons]
    rcases begins_cases t.kind with ⟨op, ht⟩ | ⟨v, ht⟩ | ⟨name, ht⟩ | ht | hnone
    · rw [operand_reading_unary (t := t.bare) ht, operand_reading_unary ht, operand_bare rest]
      exact Reading.bare_map (fun e => by rw [Expr.bare]; rfl) _
    · rw [operand_reading_literal (t := t.bare) ht, operand_reading_literal ht]
      simp [Reading.bare, Except.map, Expr.bare, Token.bare]
    · rcases head_cases (· = .delimiter .openParen) rest with ⟨u, more, rfl, hu⟩ | hr
      · rw [List.map_cons, operand_reading_call (t := t.bare) (u := u.bare) ht hu,
          operand_reading_call ht hu, arguments_bare more]
        exact Reading.bare_map (fun es => by rw [Expr.bare, Expr.allBare_eq]; rfl) _
      · rw [operand_reading_var (t := t.bare) ht (head_bare (p := (¬ · = _)) hr),
          operand_reading_var ht hr]
        simp [Reading.bare, Except.map, Expr.bare, Token.bare]
    · rw [operand_reading_parens (t := t.bare) ht, operand_reading_parens ht, expression_bare rest]
      refine Reading.bare_andThen fun e left _ => ?_
      rw [delimiter_bare]
      exact Reading.bare_map (by intro x; rfl) _
    · rw [operand_reading_none (t := t.bare) hnone, operand_reading_none hnone]
      rfl
termination_by 3 * toks.length
decreasing_by all_goals subst_vars; simp only [List.length_cons]; omega

theorem expression_bare (toks : List Token) :
    (expression (toks.map Token.bare)).reading = (expression toks).reading.bare Expr.bare := by
  rw [expression_reading, expression_reading, operand_bare toks]
  refine Reading.bare_andThen fun e rest h => ?_
  have hfewer := rest_lt h
  rw [links_bare rest]
  exact Reading.bare_map (fun ks => assemble_bare _ e ks) _
termination_by 3 * toks.length + 1
decreasing_by all_goals omega

theorem links_bare (toks : List Token) :
    (links (toks.map Token.bare)).reading = (links toks).reading.bare (List.map Link.bare) := by
  rcases head_cases (∃ o, · = .operator o) toks with ⟨t, rest, rfl, o, ht⟩ | hend
  · rw [List.map_cons, links_reading_operator (t := t.bare) ht, links_reading_operator ht,
      operand_bare rest]
    refine Reading.bare_andThen fun e left h => ?_
    have hfewer := rest_lt h
    rw [links_bare left]
    exact Reading.bare_map (by intro ks; rfl) _
  · simp only [not_exists] at hend
    rw [links_reading_end (head_bare (p := fun k => ∀ o, ¬ k = .operator o) hend),
      links_reading_end hend]
    rfl
termination_by 3 * toks.length
decreasing_by all_goals subst_vars; simp only [List.length_cons]; omega

theorem arguments_bare (toks : List Token) :
    (arguments (toks.map Token.bare)).reading =
      (arguments toks).reading.bare (List.map Expr.bare) := by
  rcases head_cases (· = .delimiter .closeParen) toks with ⟨t, rest, rfl, ht⟩ | hsome
  · rw [List.map_cons, arguments_reading_none (t := t.bare) ht, arguments_reading_none ht]
    rfl
  · rw [arguments_reading_some (head_bare (p := (¬ · = _)) hsome), arguments_reading_some hsome,
      expression_bare toks]
    refine Reading.bare_andThen fun e left h => ?_
    have hfewer := rest_lt h
    rw [moreArguments_bare left]
    exact Reading.bare_map (by intro es; rfl) _
termination_by 3 * toks.length + 2
decreasing_by all_goals omega

theorem moreArguments_bare (toks : List Token) :
    (moreArguments (toks.map Token.bare)).reading =
      (moreArguments toks).reading.bare (List.map Expr.bare) := by
  rcases head_cases (· = .delimiter .comma) toks with ⟨t, rest, rfl, ht⟩ | hend
  · rw [List.map_cons, moreArguments_reading_comma (t := t.bare) ht,
      moreArguments_reading_comma ht, expression_bare rest]
    refine Reading.bare_andThen fun e left h => ?_
    have hfewer := rest_lt h
    rw [moreArguments_bare left]
    exact Reading.bare_map (by intro es; rfl) _
  · rw [moreArguments_reading_end (head_bare (p := (¬ · = _)) hend),
      moreArguments_reading_end hend, delimiter_bare]
    exact Reading.bare_map (by intro x; rfl) _
termination_by 3 * toks.length
decreasing_by all_goals subst_vars; simp only [List.length_cons]; omega

end

/-! ## Parts of statements -/

theorem identifier_bare (what : Expected) (toks : List Token) :
    (identifier what (toks.map Token.bare)).reading =
      (identifier what toks).reading.bare fun x => (x.1, .start) := by
  rcases head_cases (∃ name, · = .identifier name) toks with ⟨t, rest, rfl, name, ht⟩ | hnone
  · rw [List.map_cons, identifier_reading (t := t.bare) ht, identifier_reading ht]
    rfl
  · simp only [not_exists] at hnone
    have hbare := head_bare (p := fun k => ∀ name, ¬ k = .identifier name) hnone
    rw [identifier_reading_none what hbare, identifier_reading_none what hnone]
    rfl

theorem enclosed_bare (toks : List Token) :
    (enclosed (toks.map Token.bare)).reading = (enclosed toks).reading.bare Expr.bare := by
  rw [enclosed_reading, enclosed_reading, delimiter_bare]
  refine Reading.bare_andThen fun _ rest _ => ?_
  rw [expression_bare]
  refine Reading.bare_andThen fun e left _ => ?_
  rw [delimiter_bare]
  exact Reading.bare_map (by intro x; rfl) _

theorem declaration_bare (p : Position) (toks : List Token) :
    (declaration .start (toks.map Token.bare)).reading =
      (declaration p toks).reading.bare Stmt.bare := by
  rw [declaration_reading, declaration_reading, identifier_bare]
  refine Reading.bare_andThen fun x rest _ => ?_
  rw [paws_bare]
  refine Reading.bare_andThen fun _ left _ => ?_
  rw [expression_bare]
  exact Reading.bare_map (fun e => by rw [Stmt.bare]) _

theorem named_bare (name : String) (p : Position) (toks : List Token) :
    (named name .start (toks.map Token.bare)).reading =
      (named name p toks).reading.bare Stmt.bare := by
  rcases head_cases (· = .keyword .paws) toks with ⟨t, rest, rfl, ht⟩ | hpaws
  · rw [List.map_cons, named_reading_assign (t := t.bare) ht, named_reading_assign ht,
      expression_bare]
    exact Reading.bare_map (fun e => by rw [Stmt.bare]) _
  rcases head_cases (· = .delimiter .openParen) toks with ⟨t, rest, rfl, ht⟩ | hparen
  · rw [List.map_cons, named_reading_call (t := t.bare) ht, named_reading_call ht, arguments_bare]
    exact Reading.bare_map (fun es => by rw [Stmt.bare]) _
  · have hnone : ∀ t ∈ toks.head?, ¬ t.kind = .keyword .paws ∧ ¬ t.kind = .delimiter .openParen :=
      fun t ht => ⟨hpaws t ht, hparen t ht⟩
    rw [named_reading_none hnone, named_reading_none
      (head_bare (p := fun k => ¬ k = .keyword .paws ∧ ¬ k = .delimiter .openParen) hnone)]
    rfl

theorem moreParameters_bare (toks : List Token) :
    (moreParameters (toks.map Token.bare)).reading =
      (moreParameters toks).reading.bare (List.map Param.bare) := by
  rcases head_cases (· = .delimiter .comma) toks with ⟨t, rest, rfl, ht⟩ | hend
  · rw [List.map_cons, moreParameters_reading_comma (t := t.bare) ht,
      moreParameters_reading_comma ht, identifier_bare]
    refine Reading.bare_andThen fun x left h => ?_
    have hfewer := rest_lt h
    rw [moreParameters_bare left]
    exact Reading.bare_map (by intro xs; rfl) _
  · rw [moreParameters_reading_end (head_bare (p := (¬ · = _)) hend),
      moreParameters_reading_end hend, delimiter_bare]
    exact Reading.bare_map (by intro x; rfl) _
termination_by toks.length
decreasing_by subst_vars; simp only [List.length_cons]; omega

theorem parameters_bare (toks : List Token) :
    (parameters (toks.map Token.bare)).reading =
      (parameters toks).reading.bare (List.map Param.bare) := by
  rcases head_cases (∃ name, · = .identifier name) toks with ⟨t, rest, rfl, name, ht⟩ | hnone
  · rw [List.map_cons, parameters_reading_some (t := t.bare) ht, parameters_reading_some ht,
      moreParameters_bare]
    exact Reading.bare_map (by intro xs; rfl) _
  · simp only [not_exists] at hnone
    rw [parameters_reading_none (head_bare (p := fun k => ∀ name, ¬ k = .identifier name) hnone),
      parameters_reading_none hnone, delimiter_bare]
    exact Reading.bare_map (by intro x; rfl) _

theorem signature_bare (toks : List Token) :
    (signature (toks.map Token.bare)).reading =
      (signature toks).reading.bare fun x => (x.1, x.2.map Param.bare) := by
  rw [signature_reading, signature_reading, identifier_bare]
  refine Reading.bare_andThen fun x rest _ => ?_
  rw [delimiter_bare]
  refine Reading.bare_andThen fun _ left _ => ?_
  rw [parameters_bare]
  exact Reading.bare_map (by intro xs; rfl) _

/-! ## Statements -/

namespace Account

theorem of_bare (g : α → α) (r : Reading α) : of (r.bare g) = (of r).bare g := rfl

theorem bare_map {g : α → α} {g' : β → β} {f f' : α → β} (h : ∀ a, f' (g a) = g' (f a))
    (r : Account α) : (r.bare g).map f' = (r.map f).bare g' :=
  congrArg (Account.mk _) (Reading.bare_map h r.reading)

theorem bare_after (g : α → α) (faults : List (Located SyntaxFault)) (r : Account α) :
    (r.bare g).after (faults.map (Located.bare id)) = (r.after faults).bare g := by
  simp [bare, after]

theorem bare_andThen {g : α → α} {g' : β → β} {f f' : α → List Token → Account β} {r : Account α}
    (h : ∀ a rest, r.reading = ⟨.ok a, rest⟩ →
      f' (g a) (rest.map Token.bare) = (f a rest).bare g') :
    (r.bare g).andThen f' = (r.andThen f).bare g' := by
  obtain ⟨faults, result, rest⟩ := r
  cases result with
  | error e => rfl
  | ok a =>
    simp only [andThen, bare, Reading.bare, Except.map]
    rw [h a rest rfl]
    exact bare_after g' faults (f a rest)

theorem bare_recover {g : α → α} {g' : β → β} {f f' : α → List Token → Account β}
    {k k' : List Token → Account β} {r : Account α}
    (hf : ∀ a rest, r.reading = ⟨.ok a, rest⟩ →
      f' (g a) (rest.map Token.bare) = (f a rest).bare g')
    (hk : ∀ e rest, r.reading = ⟨.error e, rest⟩ →
      k' (skip (rest.map Token.bare)) = (k (skip rest)).bare g') :
    (r.bare g).recover f' k' = (r.recover f k).bare g' := by
  obtain ⟨faults, result, rest⟩ := r
  cases result with
  | ok a =>
    simp only [recover, bare, Reading.bare, Except.map]
    rw [hf a rest rfl]
    exact bare_after g' faults (f a rest)
  | error e =>
    cases rest with
    | nil => rfl
    | cons u more =>
      have hskip := hk e (u :: more) rfl
      rw [List.map_cons] at hskip
      have hafter := bare_after g' (faults ++ [⟨.expected e u.kind, u.position⟩])
        (k (skip (u :: more)))
      rw [← hskip, List.map_append] at hafter
      exact hafter

end Account

theorem skip_bare (toks : List Token) :
    skip (toks.map Token.bare) = (skip toks).map Token.bare := by
  rw [skip, skip, List.dropWhile_map]
  rfl

mutual

theorem statement_bare (s : Starter) (p : Position) (toks : List Token) :
    (statement s .start (toks.map Token.bare)).account =
      (statement s p toks).account.bare Stmt.bare := by
  cases s with
  | declaration =>
    rw [statement, statement, account_ofAttempt, account_ofAttempt, declaration_bare p]
    rfl
  | named name =>
    rw [statement, statement, account_ofAttempt, account_ofAttempt, named_bare name p]
    rfl
  | bring =>
    rw [statement, statement, account_ofAttempt, account_ofAttempt, reading_map, reading_map,
      expression_bare, ← Account.of_bare]
    exact congrArg _ (Reading.bare_map (fun e => by rw [Stmt.bare]) _)
  | print =>
    rw [statement, statement, account_ofAttempt, account_ofAttempt, reading_map, reading_map,
      enclosed_bare, ← Account.of_bare]
    exact congrArg _ (Reading.bare_map (fun e => by rw [Stmt.bare]) _)
  | definition =>
    rw [statement_account_definition, statement_account_definition, signature_bare, Account.of_bare]
    refine Account.bare_andThen fun x rest h => ?_
    have hfewer := rest_lt h
    rw [block_bare rest]
    exact Account.bare_map (fun ss => by rw [Stmt.bare, Stmt.allBare_eq]) _
  | loop =>
    rw [statement_account_loop, statement_account_loop, enclosed_bare, Account.of_bare]
    refine Account.bare_andThen fun e rest h => ?_
    have hfewer := rest_lt h
    rw [block_bare rest]
    exact Account.bare_map (fun ss => by rw [Stmt.bare, Stmt.allBare_eq]) _
  | branch =>
    rw [statement_account_branch, statement_account_branch, enclosed_bare, Account.of_bare]
    refine Account.bare_andThen fun e rest h => ?_
    have hfewer := rest_lt h
    rw [block_bare rest]
    refine Account.bare_andThen fun ss left hl => ?_
    have hfewer' := rest_lt hl
    cases left with
    | nil =>
      rw [List.map_nil, otherwiseAccount, otherwiseAccount, ← Account.of_bare]
      simp [Reading.bare, Except.map, Stmt.bare]
    | cons t more =>
      rw [List.map_cons, otherwiseAccount, otherwiseAccount]
      by_cases ht : t.kind = .keyword .hiss
      · have hmore : more.length < (t :: more).length := Nat.lt_succ_self _
        rw [Token.bare_kind, if_pos ht, if_pos ht, block_bare more]
        exact Account.bare_map (fun ss => by simp only [Stmt.bare, Stmt.allBare_eq]) _
      · rw [Token.bare_kind, if_neg ht, if_neg ht, ← Account.of_bare]
        simp [Reading.bare, Except.map, Stmt.bare]
termination_by toks.length
decreasing_by all_goals omega

theorem block_bare (toks : List Token) :
    (block (toks.map Token.bare)).account = (block toks).account.bare (List.map Stmt.bare) := by
  rcases head_cases (· = .delimiter .openBrace) toks with ⟨t, rest, rfl, ht⟩ | hnone
  · rw [List.map_cons, block_account (t := t.bare) ht, block_account ht, statements_bare rest]
    refine Account.bare_andThen fun ss left _ => ?_
    rw [delimiter_bare, ← Account.of_bare]
    exact congrArg _ (Reading.bare_map (by intro x; rfl) _)
  · rw [block_account_none (head_bare (p := (¬ · = _)) hnone), block_account_none hnone]
    rfl
termination_by toks.length
decreasing_by subst_vars; simp

theorem statements_bare (toks : List Token) :
    (statements (toks.map Token.bare)).account =
      (statements toks).account.bare (List.map Stmt.bare) := by
  rcases head_cases (¬ endsStatements · = true) toks with ⟨t, rest, rfl, ht⟩ | hend
  · rw [List.map_cons]
    cases hs : Starter.ofKind? t.kind with
    | none =>
      have hle := skip_length_le rest
      rw [statements_account_none (t := t.bare) ht hs, statements_account_none ht hs, skip_bare,
        statements_bare (skip rest)]
      exact Account.bare_after _ [⟨.expected .statement t.kind, t.position⟩] _
    | some s =>
      rw [statements_account (t := t.bare) hs, statements_account hs]
      rw [Token.bare_position, statement_bare s t.position rest]
      refine Account.bare_recover (fun a left h => ?_) fun e left h => ?_
      · have hfewer := rest_lt h
        rw [statements_bare left]
        exact Account.bare_map (by intro ss; rfl) _
      · have hle := Nat.le_trans (skip_length_le left) (rest_le h)
        rw [skip_bare, statements_bare (skip left)]
  · simp only [not_not] at hend
    rw [statements_account_end (head_bare (p := (endsStatements · = true)) hend),
      statements_account_end hend]
    rfl
termination_by toks.length
decreasing_by all_goals subst_vars; simp only [List.length_cons]; omega

end

/-! ## Programs -/

theorem topLevel_bare (toks : List Token) :
    (topLevel (toks.map Token.bare)).account =
      (topLevel toks).account.bare (List.map Stmt.bare) := by
  rw [topLevel_account, topLevel_account, statements_bare]
  refine Account.bare_andThen fun ss rest h => ?_
  have hfewer := rest_lt h
  cases rest with
  | nil => rfl
  | cons t left =>
    rw [List.map_cons]
    by_cases ht : t.kind = .delimiter .closeBrace
    · dsimp only
      have hjoin : ((topLevel left).account.bare (List.map Stmt.bare)).map
          (ss.map Stmt.bare ++ ·) =
            ((topLevel left).account.map (ss ++ ·)).bare (List.map Stmt.bare) :=
        Account.bare_map (fun ss' => (List.map_append ..).symm) _
      rw [if_pos (show t.bare.kind = _ from ht), if_pos ht, topLevel_bare left, hjoin]
      exact Account.bare_after _ [⟨.unexpectedToken t.kind, t.position⟩] _
    · dsimp only
      rw [if_neg (show ¬ t.bare.kind = _ from ht), if_neg ht]
      rfl
termination_by toks.length
decreasing_by simp only [List.length_cons] at hfewer; omega

namespace TokenStream

theorem ofList_bare (toks : List Token) :
    ofList (toks.map Token.bare) = ⟨(ofList toks).ahead.map Token.bare, .start⟩ := by
  rw [ofList, ofList, TokenStream.mk.injEq]
  constructor
  · rw [List.takeWhile_map]
    rfl
  · have hfinish : isFinish ∘ Token.bare = isFinish := rfl
    rw [List.find?_map, hfinish]
    cases toks.find? isFinish with
    | some t => rfl
    | none =>
      rw [Option.map_none, List.getLast?_map]
      cases toks.getLast? <;> rfl

theorem close_bare (finish : Position) (toks : List Token) :
    (close .start (toks.map Token.bare)).1 = (close finish toks).1.map (Located.bare id) := by
  cases toks with
  | nil => rfl
  | cons t rest =>
    by_cases ht : t.kind = .keyword .sleep
    · cases rest <;> simp [close, ht, Located.bare]
    · simp [close, ht, Located.bare]

theorem start_bare (p : TokenStream) :
    start ⟨p.ahead.map Token.bare, .start⟩ =
      (p.start.1.map (Located.bare id), p.start.2.map Token.bare) := by
  obtain ⟨ahead, finish⟩ := p
  cases ahead with
  | nil => rfl
  | cons t rest =>
    rw [start, start]
    by_cases ht : t.kind = .keyword .wake
    · simp [ht]
    · simp [ht, Located.bare]

end TokenStream

/-- What is made of bare tokens is what is made of the tokens, but bare. -/
theorem ofTokens_bare (toks : List Token) :
    Program.ofTokens (toks.map Token.bare) =
      match Program.ofTokens toks with
      | .ok p => .ok p.bare
      | .error faults => .error (faults.map (Located.bare id)) := by
  rw [Program.ofTokens, Program.ofTokens, TokenStream.ofList_bare]
  generalize TokenStream.ofList toks = p
  rw [program_account, program_account, TokenStream.start_bare]
  dsimp only
  rw [topLevel_bare]
  generalize (topLevel p.start.2).account = r
  obtain ⟨faults, result, rest⟩ := r
  cases result with
  | error e => cases rest <;> simp [Account.bare, Reading.bare, Except.map, stopFault, Located.bare]
  | ok body =>
    simp only [Account.bare, Reading.bare, Except.map]
    rw [TokenStream.close_bare p.finish, ← List.map_append, ← List.map_append]
    cases p.start.1 ++ faults ++ (TokenStream.close p.finish rest).1 with
    | nil =>
      obtain ⟨ahead, finish⟩ := p
      cases ahead <;> rfl
    | cons f fs => rfl

end MeowScript
