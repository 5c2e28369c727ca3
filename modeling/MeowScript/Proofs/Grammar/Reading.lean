import MeowScript.Proofs.Grammar.Derivation

/-!
# What readers take

The value a reader gives and the tokens it leaves, without the bounds that come with them; and for
a reader that goes on after mistakes, the same if it has reported none.

Results:
* `Attempt.result?_map`, `Attempt.result?_andThen`: readers one after the other.
* `Recovered.clean?_map`, `Recovered.clean?_after`: the same without mistakes.
* `operand_result?` and the like: each reader said again in these terms.
-/
namespace MeowScript

variable {α β : Type} {n m : Nat}

/-! ## Attempts -/

namespace Attempt

/-- The value read and what is left, unless reading failed. -/
def result? : Attempt α n → Option (α × List Token)
  | .ok r => some (r.value, r.rest)
  | .error _ => none

@[simp] theorem result?_ok (r : Parsed α n) : result? (.ok r) = some (r.value, r.rest) := rfl

@[simp] theorem result?_error (f : Failure n) : result? (α := α) (.error f) = none := rfl

@[simp] theorem result?_map (f : α → β) (h : n ≤ m) (a : Attempt α n) :
    (a.map f h).result? = a.result?.map fun x => (f x.1, x.2) := by
  cases a <;> rfl

@[simp] theorem result?_andThen (a : Attempt α n)
    (f : α → (rest : List Token) → Attempt β rest.length) :
    (a.andThen f).result? = a.result?.bind fun x => (f x.1 x.2).result? := by
  cases a with
  | error => rfl
  | ok r => simp [andThen]

end Attempt

open Attempt

/-- One token of the kind asked for. -/
def take? (k : Kind) : List Token → Option (List Token)
  | [] => none
  | t :: rest => if t.kind = k then some rest else none

@[simp] theorem take?_of_kind {k : Kind} {t : Token} (h : t.kind = k) (rest : List Token) :
    take? k (t :: rest) = some rest := if_pos h

theorem of_take? {k : Kind} {toks rest : List Token} (h : take? k toks = some rest) :
    ∃ t, toks = t :: rest ∧ t.kind = k := by
  cases toks with
  | nil => cases h
  | cons t toks =>
    rw [take?] at h
    split at h
    · next ht => cases h; exact ⟨t, rfl, ht⟩
    · cases h

theorem kind_ne_of_take? {k : Kind} {t : Token} {rest : List Token}
    (h : take? k (t :: rest) = none) : t.kind ≠ k := by
  intro ht
  rw [take?_of_kind ht] at h
  cases h

theorem delimiter_result? (d : Delimiter) (toks : List Token) :
    (delimiter d toks).result? = (take? (.delimiter d) toks).map fun rest => ((), rest) := by
  unfold delimiter take?
  cases toks with
  | nil => rfl
  | cons t rest => by_cases h : t.kind = .delimiter d <;> simp [h]

/-! ## Expressions -/

theorem operand_unary {t : Token} {op : UnaryOp} (ht : t.kind = op.kind) (rest : List Token) :
    (operand (t :: rest)).result? =
      (operand rest).result?.map fun x => (.unary op x.1 t.position .unknown, x.2) := by
  rw [operand]
  cases op <;> simp [ht, UnaryOp.kind]

theorem operand_literal {t : Token} {v : Literal} (ht : t.kind = v.kind) (rest : List Token) :
    (operand (t :: rest)).result? = some (.literal v t.position .unknown, rest) := by
  rw [operand]
  cases v <;> simp [ht, Literal.kind]

theorem operand_call {t : Token} {name : String} {rest more : List Token}
    (ht : t.kind = .identifier name) (ho : take? (.delimiter .openParen) rest = some more) :
    (operand (t :: rest)).result? =
      (arguments more).result?.map fun x => (.call name x.1 t.position .unknown, x.2) := by
  obtain ⟨u, rfl, hu⟩ := of_take? ho
  rw [operand]
  simp [ht, hu]

theorem operand_var {t : Token} {name : String} {rest : List Token}
    (ht : t.kind = .identifier name) (ho : take? (.delimiter .openParen) rest = none) :
    (operand (t :: rest)).result? = some (.var name none t.position .unknown, rest) := by
  rw [operand]
  cases rest with
  | nil => simp [ht]
  | cons u rest => simp [ht, kind_ne_of_take? ho]

theorem operand_parens {t : Token} (ht : t.kind = .delimiter .openParen) (rest : List Token) :
    (operand (t :: rest)).result? = (expression rest).result?.bind fun x =>
      (take? (.delimiter .closeParen) x.2).map fun left => (x.1, left) := by
  rw [operand]
  simp only [ht]
  cases expression rest with
  | error f => rfl
  | ok r => simp [delimiter_result?, Function.comp_def]

/-- What an operand can begin with. -/
theorem operand_begins {t : Token} {rest : List Token} {x : Expr × List Token}
    (h : (operand (t :: rest)).result? = some x) :
    (∃ op : UnaryOp, t.kind = op.kind) ∨ (∃ v : Literal, t.kind = v.kind) ∨
      (∃ name, t.kind = .identifier name) ∨ t.kind = .delimiter .openParen := by
  rw [operand] at h
  split at h
  · next ht => exact .inl ⟨.neg, ht⟩
  · next ht => exact .inl ⟨.not, ht⟩
  · next n ht => exact .inr (.inl ⟨.integer n, ht⟩)
  · next v ht => exact .inr (.inl ⟨.float v, ht⟩)
  · next s ht => exact .inr (.inl ⟨.string s, ht⟩)
  · next name ht => exact .inr (.inr (.inl ⟨name, ht⟩))
  · next ht => exact .inr (.inr (.inr ht))
  · simp at h

theorem expression_result? (toks : List Token) :
    (expression toks).result? = (operand toks).result?.bind fun x =>
      (links x.2).result?.map fun y => (Chain.assemble Level.ladder x.1 y.1, y.2) := by
  rw [expression]
  cases operand toks with
  | error f => rfl
  | ok r => simp

theorem links_operator {t : Token} {o : BinaryOp} (ht : t.kind = .operator o)
    (rest : List Token) :
    (links (t :: rest)).result? = (operand rest).result?.bind fun x =>
      (links x.2).result?.map fun y => (⟨o, t.position, x.1⟩ :: y.1, y.2) := by
  rw [links]
  simp only [ht]
  cases operand rest with
  | error f => rfl
  | ok r => simp

theorem links_end {toks : List Token} (h : ∀ t ∈ toks.head?, ∀ o, t.kind ≠ .operator o) :
    (links toks).result? = some ([], toks) := by
  cases toks with
  | nil => rw [links]; rfl
  | cons t rest =>
    rw [links]
    split
    · next o ho => exact absurd ho (h t rfl o)
    · rfl

theorem arguments_none {toks rest : List Token}
    (h : take? (.delimiter .closeParen) toks = some rest) :
    (arguments toks).result? = some ([], rest) := by
  obtain ⟨t, rfl, ht⟩ := of_take? h
  simp [arguments, ht]

theorem arguments_some {toks : List Token} (h : take? (.delimiter .closeParen) toks = none) :
    (arguments toks).result? = (expression toks).result?.bind fun x =>
      (moreArguments x.2).result?.map fun y => (x.1 :: y.1, y.2) := by
  cases toks with
  | nil => rw [arguments, expression, operand]; rfl
  | cons t toks =>
    rw [arguments, if_neg (kind_ne_of_take? h)]
    cases expression (t :: toks) with
    | error f => rfl
    | ok r => simp

theorem moreArguments_comma {toks rest : List Token}
    (h : take? (.delimiter .comma) toks = some rest) :
    (moreArguments toks).result? = (expression rest).result?.bind fun x =>
      (moreArguments x.2).result?.map fun y => (x.1 :: y.1, y.2) := by
  obtain ⟨t, rfl, ht⟩ := of_take? h
  rw [moreArguments, if_pos ht]
  cases expression rest with
  | error f => rfl
  | ok r => simp

theorem moreArguments_end {toks : List Token} (h : take? (.delimiter .comma) toks = none) :
    (moreArguments toks).result? =
      (take? (.delimiter .closeParen) toks).map fun rest => ([], rest) := by
  cases toks with
  | nil => rw [moreArguments]; rfl
  | cons t toks =>
    rw [moreArguments, if_neg (kind_ne_of_take? h), take?]
    split <;> rfl

/-! ## Parts of statements -/

theorem identifier_result? {t : Token} {name : String} (ht : t.kind = .identifier name)
    (what : Expected) (rest : List Token) :
    (identifier what (t :: rest)).result? = some ((name, t.position), rest) := by
  simp [identifier, ht]

theorem identifier_begins {what : Expected} {toks : List Token}
    {x : (String × Position) × List Token} (h : (identifier what toks).result? = some x) :
    ∃ t, toks = t :: x.2 ∧ t.kind = .identifier x.1.1 ∧ t.position = x.1.2 := by
  cases toks with
  | nil => simp [identifier] at h
  | cons t rest =>
    rw [identifier] at h
    split at h
    · next name ht => cases h; exact ⟨t, rfl, ht, rfl⟩
    · simp at h

theorem paws_result? (toks : List Token) :
    (paws toks).result? = (take? (.keyword .paws) toks).map fun rest => ((), rest) := by
  unfold paws take?
  cases toks with
  | nil => rfl
  | cons t rest => by_cases h : t.kind = .keyword .paws <;> simp [h]

theorem enclosed_result? (toks : List Token) :
    (enclosed toks).result? = (take? (.delimiter .openParen) toks).bind fun rest =>
      (expression rest).result?.bind fun x =>
        (take? (.delimiter .closeParen) x.2).map fun left => (x.1, left) := by
  simp [enclosed, delimiter_result?, Option.bind_map, Function.comp_def]

theorem declaration_result? (p : Position) (toks : List Token) :
    (declaration p toks).result? = (identifier .variableName toks).result?.bind fun x =>
      (take? (.keyword .paws) x.2).bind fun rest =>
        (expression rest).result?.map fun y => (.declare x.1.1 y.1 none p, y.2) := by
  simp [declaration, paws_result?, Option.bind_map, Function.comp_def]

theorem named_assign {toks rest : List Token} (h : take? (.keyword .paws) toks = some rest)
    (name : String) (p : Position) :
    (named name p toks).result? =
      (expression rest).result?.map fun x => (.assign name x.1 none p, x.2) := by
  obtain ⟨t, rfl, ht⟩ := of_take? h
  simp [named, ht]

theorem named_call {toks rest : List Token}
    (h : take? (.delimiter .openParen) toks = some rest) (name : String) (p : Position) :
    (named name p toks).result? =
      (arguments rest).result?.map fun x => (.call name x.1 p, x.2) := by
  obtain ⟨t, rfl, ht⟩ := of_take? h
  simp [named, ht]

theorem named_begins {name : String} {p : Position} {toks : List Token} {x : Stmt × List Token}
    (h : (named name p toks).result? = some x) :
    (∃ rest, take? (.keyword .paws) toks = some rest) ∨
      ∃ rest, take? (.delimiter .openParen) toks = some rest := by
  cases toks with
  | nil => simp [named] at h
  | cons t rest =>
    rw [named] at h
    split at h
    · next ht => exact .inl ⟨rest, take?_of_kind ht rest⟩
    · split at h
      · next ht => exact .inr ⟨rest, take?_of_kind ht rest⟩
      · simp at h

theorem moreParameters_comma {toks rest : List Token}
    (h : take? (.delimiter .comma) toks = some rest) :
    (moreParameters toks).result? = (identifier .parameterName rest).result?.bind fun x =>
      (moreParameters x.2).result?.map fun y => (⟨x.1.1, x.1.2⟩ :: y.1, y.2) := by
  obtain ⟨t, rfl, ht⟩ := of_take? h
  rw [moreParameters, if_pos ht]
  cases identifier .parameterName rest with
  | error f => rfl
  | ok r => simp

theorem moreParameters_end {toks : List Token} (h : take? (.delimiter .comma) toks = none) :
    (moreParameters toks).result? =
      (take? (.delimiter .closeParen) toks).map fun rest => ([], rest) := by
  cases toks with
  | nil => rw [moreParameters]; rfl
  | cons t toks =>
    rw [moreParameters, if_neg (kind_ne_of_take? h), take?]
    split <;> rfl

theorem parameters_some {t : Token} {name : String} (ht : t.kind = .identifier name)
    (rest : List Token) :
    (parameters (t :: rest)).result? =
      (moreParameters rest).result?.map fun x => (⟨name, t.position⟩ :: x.1, x.2) := by
  simp [parameters, ht]

theorem parameters_none {toks : List Token}
    (h : ∀ t ∈ toks.head?, ∀ name, t.kind ≠ .identifier name) :
    (parameters toks).result? =
      (take? (.delimiter .closeParen) toks).map fun rest => ([], rest) := by
  cases toks with
  | nil => rfl
  | cons t rest =>
    rw [parameters]
    split
    · next name ht => exact absurd ht (h t rfl name)
    · simp [delimiter_result?, Function.comp_def]

theorem signature_result? (toks : List Token) :
    (signature toks).result? = (identifier .functionName toks).result?.bind fun x =>
      (take? (.delimiter .openParen) x.2).bind fun rest =>
        (parameters rest).result?.map fun y => ((x.1.1, y.1), y.2) := by
  simp [signature, delimiter_result?, Option.bind_map, Function.comp_def]

/-! ## Statements -/

namespace Recovered

/-- The value read and what is left, if no mistake was met. -/
def clean? (r : Recovered α n) : Option (α × List Token) :=
  match r.faults with
  | [] => r.outcome.result?
  | _ :: _ => none

@[simp] theorem clean?_nil (a : Attempt α n) : clean? ⟨[], a⟩ = a.result? := rfl

@[simp] theorem clean?_cons (f : Located SyntaxFault) (fs : List (Located SyntaxFault))
    (a : Attempt α n) : clean? ⟨f :: fs, a⟩ = none := rfl

@[simp] theorem clean?_ofAttempt (a : Attempt α n) : (ofAttempt a).clean? = a.result? := rfl

@[simp] theorem clean?_map (f : α → β) (h : n ≤ m) (r : Recovered α n) :
    (r.map f h).clean? = r.clean?.map fun x => (f x.1, x.2) := by
  obtain ⟨faults, outcome⟩ := r
  cases faults with
  | nil => simp [clean?, map]
  | cons => rfl

@[simp] theorem clean?_after_nil (r : Recovered α n) : (r.after []).clean? = r.clean? := rfl

@[simp] theorem clean?_after_cons (f : Located SyntaxFault) (fs : List (Located SyntaxFault))
    (r : Recovered α n) : (r.after (f :: fs)).clean? = none := rfl

end Recovered

open Recovered

theorem block_clean? (toks : List Token) :
    (block toks).clean? = (take? (.delimiter .openBrace) toks).bind fun rest =>
      (statements rest).clean?.bind fun x =>
        (take? (.delimiter .closeBrace) x.2).map fun left => (x.1, left) := by
  cases toks with
  | nil => rw [block]; rfl
  | cons t rest =>
    rw [block, take?]
    split
    · rw [Option.bind_some]
      obtain ⟨faults, outcome⟩ := statements rest
      cases faults with
      | cons => cases outcome <;> rfl
      | nil =>
        cases outcome with
        | error f => rfl
        | ok r => simp [clean?, delimiter_result?, Function.comp_def]
    · rfl

theorem statement_definition (p : Position) (toks : List Token) :
    (statement .definition p toks).clean? = (signature toks).result?.bind fun x =>
      (block x.2).clean?.map fun y => (.define x.1.1 x.1.2 y.1 p, y.2) := by
  rw [statement]
  cases signature toks with
  | error f => rfl
  | ok r => simp

theorem statement_loop (p : Position) (toks : List Token) :
    (statement .loop p toks).clean? = (enclosed toks).result?.bind fun x =>
      (block x.2).clean?.map fun y => (.loop x.1 y.1 p, y.2) := by
  rw [statement]
  cases enclosed toks with
  | error f => rfl
  | ok r => simp

/-- What is left of a branch behind its first block. -/
def otherwise? (condition : Expr) (body : List Stmt) (p : Position) (rest : List Token) :
    Option (Stmt × List Token) :=
  match take? (.keyword .hiss) rest with
  | some more => (block more).clean?.map fun y => (.ifElse condition body y.1 p, y.2)
  | none => some (.ifThen condition body p, rest)

theorem statement_branch (p : Position) (toks : List Token) :
    (statement .branch p toks).clean? = (enclosed toks).result?.bind fun x =>
      (block x.2).clean?.bind fun y => otherwise? x.1 y.1 p y.2 := by
  rw [statement]
  cases enclosed toks with
  | error f => rfl
  | ok r =>
    obtain ⟨condition, rest, h⟩ := r
    simp only [Attempt.result?_ok, Option.bind_some]
    obtain ⟨faults, outcome⟩ := block rest
    cases outcome with
    | error f => cases faults <;> rfl
    | ok b =>
      obtain ⟨body, left, hl⟩ := b
      cases left with
      | nil => cases faults <;> rfl
      | cons t more =>
        by_cases ht : t.kind = .keyword .hiss
        · cases faults <;> simp [otherwise?, take?, ht]
        · cases faults <;> simp [otherwise?, take?, ht]

theorem statements_end {toks : List Token} (h : ∀ t ∈ toks.head?, endsStatements t.kind = true) :
    (statements toks).clean? = some ([], toks) := by
  cases toks with
  | nil => rw [statements]; rfl
  | cons t rest =>
    rw [statements, if_pos (h t rfl)]
    rfl

theorem statements_starter {t : Token} {s : Starter} (hs : Starter.ofKind? t.kind = some s)
    (rest : List Token) :
    (statements (t :: rest)).clean? = (statement s t.position rest).clean?.bind fun x =>
      (statements x.2).clean?.map fun y => (x.1 :: y.1, y.2) := by
  have hend : ¬ endsStatements t.kind = true := by
    intro he
    unfold endsStatements at he
    split at he <;> simp_all [Starter.ofKind?]
  rw [statements, if_neg hend]
  split
  · next hn => rw [hs] at hn; cases hn
  · next s' hs' =>
    rw [hs] at hs'
    cases hs'
    obtain ⟨faults, outcome⟩ := statement s t.position rest
    cases outcome with
    | ok r =>
      cases faults <;> simp
    | error f =>
      obtain ⟨what, left, hl⟩ := f
      cases left with
      | nil => cases faults <;> rfl
      | cons u left => cases faults <;> simp

/-- Without a mistake, statements go up to their end or begin with a starter. -/
theorem statements_begins {t : Token} {rest : List Token} {x : List Stmt × List Token}
    (h : (statements (t :: rest)).clean? = some x) :
    endsStatements t.kind = true ∨ ∃ s, Starter.ofKind? t.kind = some s := by
  by_cases he : endsStatements t.kind = true
  · exact .inl he
  · rw [statements, if_neg he] at h
    cases hs : Starter.ofKind? t.kind with
    | some s => exact .inr ⟨s, rfl⟩
    | none => simp [hs] at h

end MeowScript
