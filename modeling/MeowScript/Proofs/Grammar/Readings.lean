import MeowScript.Proofs.Grammar.Reading

/-!
# What readers do, mistakes included

A reading is what a reader does without the bounds that come with it: the value it gives or what it
expected instead, and the tokens from the place where it stopped. An account adds the faults
reported on the way.

Results:
* `Attempt.reading_map`, `Attempt.reading_andThen`: readers one after the other.
* `operand_reading` and the like: each reader said again in these terms, one equation for each way
  it can go.
* `statements_account`, `topLevel_account`: the same for those that go on after a mistake.
* `program_account`: what is made of the account on the statements of a program.
-/
namespace MeowScript

variable {α β γ : Type} {n m : Nat}

/-- A value or what was expected instead, and the tokens left there. -/
structure Reading (α : Type) where
  result : Except Expected α
  rest : List Token

namespace Reading

def map (f : α → β) (r : Reading α) : Reading β := ⟨r.result.map f, r.rest⟩

/-- Goes on with what is left, after a value. -/
def andThen (r : Reading α) (f : α → List Token → Reading β) : Reading β :=
  match r.result with
  | .ok a => f a r.rest
  | .error e => ⟨.error e, r.rest⟩

@[simp] theorem map_ok (f : α → β) (a : α) (rest : List Token) :
    map f ⟨.ok a, rest⟩ = ⟨.ok (f a), rest⟩ := rfl

@[simp] theorem map_error (f : α → β) (e : Expected) (rest : List Token) :
    map f ⟨.error e, rest⟩ = ⟨.error e, rest⟩ := rfl

@[simp] theorem andThen_ok (a : α) (rest : List Token) (f : α → List Token → Reading β) :
    andThen ⟨.ok a, rest⟩ f = f a rest := rfl

@[simp] theorem andThen_error (e : Expected) (rest : List Token)
    (f : α → List Token → Reading β) : andThen ⟨.error e, rest⟩ f = ⟨.error e, rest⟩ := rfl

theorem map_eq_andThen (f : α → β) (r : Reading α) :
    r.map f = r.andThen fun a rest => ⟨.ok (f a), rest⟩ := by
  obtain ⟨result, rest⟩ := r
  cases result <;> rfl

theorem map_self (r : Reading α) : (r.map fun a => a) = r := by
  obtain ⟨result, rest⟩ := r
  cases result <;> rfl

theorem map_map (f : α → β) (g : β → γ) (r : Reading α) :
    (r.map f).map g = r.map fun a => g (f a) := by
  obtain ⟨result, rest⟩ := r
  cases result <;> rfl

theorem map_andThen (f : α → List Token → Reading β) (g : β → γ) (r : Reading α) :
    (r.andThen f).map g = r.andThen fun a rest => (f a rest).map g := by
  obtain ⟨result, rest⟩ := r
  cases result <;> rfl

theorem andThen_map (f : α → β) (g : β → List Token → Reading γ) (r : Reading α) :
    (r.map f).andThen g = r.andThen fun a rest => g (f a) rest := by
  obtain ⟨result, rest⟩ := r
  cases result <;> rfl

theorem andThen_assoc (f : α → List Token → Reading β) (g : β → List Token → Reading γ)
    (r : Reading α) : (r.andThen f).andThen g = r.andThen fun a rest => (f a rest).andThen g := by
  obtain ⟨result, rest⟩ := r
  cases result <;> rfl

theorem andThen_congr {f g : α → List Token → Reading β} {r : Reading α}
    (h : ∀ a rest, r = ⟨.ok a, rest⟩ → f a rest = g a rest) : r.andThen f = r.andThen g := by
  obtain ⟨result, rest⟩ := r
  cases result with
  | error e => rfl
  | ok a => exact h a rest rfl

end Reading

namespace Attempt

def reading : Attempt α n → Reading α
  | .ok r => ⟨.ok r.value, r.rest⟩
  | .error f => ⟨.error f.expected, f.rest⟩

@[simp] theorem reading_ok (r : Parsed α n) : reading (.ok r) = ⟨.ok r.value, r.rest⟩ := rfl

@[simp] theorem reading_error (f : Failure n) :
    reading (α := α) (.error f) = ⟨.error f.expected, f.rest⟩ := rfl

@[simp] theorem reading_map (f : α → β) (h : n ≤ m) (a : Attempt α n) :
    (a.map f h).reading = a.reading.map f := by
  cases a <;> rfl

@[simp] theorem reading_andThen (a : Attempt α n)
    (f : α → (rest : List Token) → Attempt β rest.length) :
    (a.andThen f).reading = a.reading.andThen fun x rest => (f x rest).reading := by
  cases a with
  | error => rfl
  | ok r =>
    rw [andThen, reading_map, reading_ok, Reading.andThen_ok]
    cases f r.value r.rest <;> rfl

/-- Fewer tokens are left behind a value. -/
theorem rest_lt {a : Attempt α n} {x : α} {rest : List Token} (h : a.reading = ⟨.ok x, rest⟩) :
    rest.length < n := by
  cases a with
  | error => cases h
  | ok r =>
    cases h
    exact r.fewer

/-- No more tokens are left than there were. -/
theorem rest_le {a : Attempt α n} {e : Expected} {rest : List Token}
    (h : a.reading = ⟨.error e, rest⟩) : rest.length ≤ n := by
  cases a with
  | ok => cases h
  | error f =>
    cases h
    exact f.atMost

end Attempt

open Attempt

/-! ## One token -/

/-- Either a token of such a kind comes first, or none does. -/
theorem head_cases (p : Kind → Prop) (toks : List Token) :
    (∃ t rest, toks = t :: rest ∧ p t.kind) ∨ ∀ t ∈ toks.head?, ¬ p t.kind := by
  cases toks with
  | nil => exact .inr nofun
  | cons t rest =>
    by_cases ht : p t.kind
    · exact .inl ⟨t, rest, rfl, ht⟩
    · refine .inr fun u hu => ?_
      cases hu
      exact ht

/-- One token of the kind asked for, or what was expected. -/
def takeOne (k : Kind) (e : Expected) : List Token → Reading Unit
  | [] => ⟨.error e, []⟩
  | t :: rest => if t.kind = k then ⟨.ok (), rest⟩ else ⟨.error e, t :: rest⟩

theorem delimiter_reading (d : Delimiter) (toks : List Token) :
    (delimiter d toks).reading = takeOne (.delimiter d) (.delimiter d) toks := by
  unfold delimiter takeOne
  cases toks with
  | nil => rfl
  | cons t rest => by_cases h : t.kind = .delimiter d <;> simp [h, Failure.here]

theorem paws_reading (toks : List Token) :
    (paws toks).reading = takeOne (.keyword .paws) .paws toks := by
  unfold paws takeOne
  cases toks with
  | nil => rfl
  | cons t rest => by_cases h : t.kind = .keyword .paws <;> simp [h, Failure.here]

/-! ## Expressions -/

theorem operand_reading_nil : (operand []).reading = ⟨.error .expression, []⟩ := by
  rw [operand_nil]
  rfl

theorem operand_reading_unary {t : Token} {op : UnaryOp} (ht : t.kind = op.kind)
    (rest : List Token) : (operand (t :: rest)).reading =
      (operand rest).reading.map (.unary op · t.position .unknown) := by
  rw [operand]
  cases op <;> simp [ht, UnaryOp.kind]

theorem operand_reading_literal {t : Token} {v : Literal} (ht : t.kind = v.kind)
    (rest : List Token) :
    (operand (t :: rest)).reading = ⟨.ok (.literal v t.position .unknown), rest⟩ := by
  rw [operand]
  cases v <;> simp [ht, Literal.kind]

theorem operand_reading_call {t u : Token} {name : String} (ht : t.kind = .identifier name)
    (hu : u.kind = .delimiter .openParen) (rest : List Token) :
    (operand (t :: u :: rest)).reading =
      (arguments rest).reading.map (.call name · t.position .unknown) := by
  rw [operand]
  simp [ht, hu]

theorem operand_reading_var {t : Token} {name : String} (ht : t.kind = .identifier name)
    {rest : List Token} (hr : ∀ u ∈ rest.head?, u.kind ≠ .delimiter .openParen) :
    (operand (t :: rest)).reading = ⟨.ok (.var name none t.position .unknown), rest⟩ := by
  rw [operand]
  cases rest with
  | nil => simp [ht]
  | cons u rest => simp [ht, hr u rfl]

theorem operand_reading_parens {t : Token} (ht : t.kind = .delimiter .openParen)
    (rest : List Token) :
    (operand (t :: rest)).reading = (expression rest).reading.andThen fun e left =>
      (delimiter .closeParen left).reading.map fun _ => e := by
  rw [operand]
  simp only [ht]
  cases expression rest with
  | error f => rfl
  | ok r => simp

/-- No operand begins with a token of this kind. -/
def BeginsNone (k : Kind) : Prop :=
  (∀ op : UnaryOp, k ≠ op.kind) ∧ (∀ v : Literal, k ≠ v.kind) ∧
    (∀ name, k ≠ .identifier name) ∧ k ≠ .delimiter .openParen

/-- What an operand can begin with. -/
theorem begins_cases (k : Kind) :
    (∃ op : UnaryOp, k = op.kind) ∨ (∃ v : Literal, k = v.kind) ∨
      (∃ name, k = .identifier name) ∨ k = .delimiter .openParen ∨ BeginsNone k := by
  unfold BeginsNone
  by_cases hop : ∃ op : UnaryOp, k = op.kind
  · exact .inl hop
  by_cases hv : ∃ v : Literal, k = v.kind
  · exact .inr (.inl hv)
  by_cases hname : ∃ name, k = .identifier name
  · exact .inr (.inr (.inl hname))
  by_cases hparen : k = .delimiter .openParen
  · exact .inr (.inr (.inr (.inl hparen)))
  · simp only [not_exists] at hop hv hname
    exact .inr (.inr (.inr (.inr ⟨hop, hv, hname, hparen⟩)))

theorem operand_reading_none {t : Token} (ht : BeginsNone t.kind) (rest : List Token) :
    (operand (t :: rest)).reading = ⟨.error .expression, t :: rest⟩ := by
  obtain ⟨hop, hv, hname, hparen⟩ := ht
  rw [operand]
  split
  · next h => exact absurd h (hop .neg)
  · next h => exact absurd h (hop .not)
  · next n h => exact absurd h (hv (.integer n))
  · next x h => exact absurd h (hv (.float x))
  · next s h => exact absurd h (hv (.string s))
  · next name h => exact absurd h (hname name)
  · next h => exact absurd h hparen
  · rfl

theorem expression_reading (toks : List Token) :
    (expression toks).reading = (operand toks).reading.andThen fun e rest =>
      (links rest).reading.map (Chain.assemble Level.ladder e ·) := by
  rw [expression]
  cases operand toks with
  | error f => rfl
  | ok r => simp

theorem links_reading_operator {t : Token} {o : BinaryOp} (ht : t.kind = .operator o)
    (rest : List Token) :
    (links (t :: rest)).reading = (operand rest).reading.andThen fun e left =>
      (links left).reading.map (⟨o, t.position, e⟩ :: ·) := by
  rw [links]
  simp only [ht]
  cases operand rest with
  | error f => rfl
  | ok r => simp

theorem links_reading_end {toks : List Token} (h : ∀ t ∈ toks.head?, ∀ o, t.kind ≠ .operator o) :
    (links toks).reading = ⟨.ok [], toks⟩ := by
  cases toks with
  | nil => rw [links]; rfl
  | cons t rest =>
    rw [links]
    split
    · next o ho => exact absurd ho (h t rfl o)
    · rfl

theorem arguments_reading_none {t : Token} (ht : t.kind = .delimiter .closeParen)
    (rest : List Token) : (arguments (t :: rest)).reading = ⟨.ok [], rest⟩ := by
  simp [arguments, ht]

theorem arguments_reading_some {toks : List Token}
    (h : ∀ t ∈ toks.head?, t.kind ≠ .delimiter .closeParen) :
    (arguments toks).reading = (expression toks).reading.andThen fun e left =>
      (moreArguments left).reading.map (e :: ·) := by
  cases toks with
  | nil => rw [arguments, expression, operand]; rfl
  | cons t toks =>
    rw [arguments, if_neg (h t rfl)]
    cases expression (t :: toks) with
    | error f => rfl
    | ok r => simp

theorem moreArguments_reading_comma {t : Token} (ht : t.kind = .delimiter .comma)
    (rest : List Token) :
    (moreArguments (t :: rest)).reading = (expression rest).reading.andThen fun e left =>
      (moreArguments left).reading.map (e :: ·) := by
  rw [moreArguments, if_pos ht]
  cases expression rest with
  | error f => rfl
  | ok r => simp

theorem moreArguments_reading_end {toks : List Token}
    (h : ∀ t ∈ toks.head?, t.kind ≠ .delimiter .comma) : (moreArguments toks).reading =
      (delimiter .closeParen toks).reading.map fun _ => [] := by
  cases toks with
  | nil => rw [moreArguments]; rfl
  | cons t toks =>
    rw [moreArguments, if_neg (h t rfl), delimiter_reading, takeOne]
    split <;> rfl

/-! ## Parts of statements -/

theorem identifier_reading {t : Token} {name : String} (ht : t.kind = .identifier name)
    (what : Expected) (rest : List Token) :
    (identifier what (t :: rest)).reading = ⟨.ok (name, t.position), rest⟩ := by
  simp [identifier, ht]

theorem identifier_reading_none {toks : List Token} (what : Expected)
    (h : ∀ t ∈ toks.head?, ∀ name, t.kind ≠ .identifier name) :
    (identifier what toks).reading = ⟨.error what, toks⟩ := by
  cases toks with
  | nil => rfl
  | cons t rest =>
    rw [identifier]
    split
    · next name hname => exact absurd hname (h t rfl name)
    · rfl

theorem enclosed_reading (toks : List Token) :
    (enclosed toks).reading = (delimiter .openParen toks).reading.andThen fun _ rest =>
      (expression rest).reading.andThen fun e left =>
        (delimiter .closeParen left).reading.map fun _ => e := by
  simp [enclosed]

theorem declaration_reading (p : Position) (toks : List Token) :
    (declaration p toks).reading = (identifier .variableName toks).reading.andThen fun x rest =>
      (paws rest).reading.andThen fun _ left =>
        (expression left).reading.map (.declare x.1 · none p) := by
  simp [declaration]

theorem named_reading_assign {t : Token} (ht : t.kind = .keyword .paws) (name : String)
    (p : Position) (rest : List Token) : (named name p (t :: rest)).reading =
      (expression rest).reading.map (.assign name · none p) := by
  simp [named, ht]

theorem named_reading_call {t : Token} (ht : t.kind = .delimiter .openParen) (name : String)
    (p : Position) (rest : List Token) : (named name p (t :: rest)).reading =
      (arguments rest).reading.map (.call name · p) := by
  simp [named, ht]

theorem named_reading_none {toks : List Token}
    (h : ∀ t ∈ toks.head?, t.kind ≠ .keyword .paws ∧ t.kind ≠ .delimiter .openParen)
    (name : String) (p : Position) :
    (named name p toks).reading = ⟨.error .pawsOrParen, toks⟩ := by
  cases toks with
  | nil => rfl
  | cons t rest =>
    obtain ⟨hpaws, hparen⟩ := h t rfl
    rw [named, if_neg hpaws, if_neg hparen]
    rfl

theorem moreParameters_reading_comma {t : Token} (ht : t.kind = .delimiter .comma)
    (rest : List Token) : (moreParameters (t :: rest)).reading =
      (identifier .parameterName rest).reading.andThen fun x left =>
        (moreParameters left).reading.map (⟨x.1, x.2⟩ :: ·) := by
  rw [moreParameters, if_pos ht]
  cases identifier .parameterName rest with
  | error f => rfl
  | ok r => simp

theorem moreParameters_reading_end {toks : List Token}
    (h : ∀ t ∈ toks.head?, t.kind ≠ .delimiter .comma) : (moreParameters toks).reading =
      (delimiter .closeParen toks).reading.map fun _ => [] := by
  cases toks with
  | nil => rw [moreParameters]; rfl
  | cons t toks =>
    rw [moreParameters, if_neg (h t rfl), delimiter_reading, takeOne]
    split <;> rfl

theorem parameters_reading_some {t : Token} {name : String} (ht : t.kind = .identifier name)
    (rest : List Token) : (parameters (t :: rest)).reading =
      (moreParameters rest).reading.map (⟨name, t.position⟩ :: ·) := by
  simp [parameters, ht]

theorem parameters_reading_none {toks : List Token}
    (h : ∀ t ∈ toks.head?, ∀ name, t.kind ≠ .identifier name) :
    (parameters toks).reading = (delimiter .closeParen toks).reading.map fun _ => [] := by
  cases toks with
  | nil => rfl
  | cons t rest =>
    rw [parameters]
    split
    · next name ht => exact absurd ht (h t rfl name)
    · simp

theorem signature_reading (toks : List Token) :
    (signature toks).reading = (identifier .functionName toks).reading.andThen fun x rest =>
      (delimiter .openParen rest).reading.andThen fun _ left =>
        (parameters left).reading.map (x.1, ·) := by
  simp [signature]

/-! ## Statements -/

/-- A reading and the faults reported before it. -/
structure Account (α : Type) where
  faults : List (Located SyntaxFault)
  reading : Reading α

namespace Account

def of (r : Reading α) : Account α := ⟨[], r⟩

def map (f : α → β) (r : Account α) : Account β := ⟨r.faults, r.reading.map f⟩

def after (faults : List (Located SyntaxFault)) (r : Account α) : Account α :=
  ⟨faults ++ r.faults, r.reading⟩

/-- Goes on with what is left, after a value. -/
def andThen (r : Account α) (f : α → List Token → Account β) : Account β :=
  match r.reading.result with
  | .ok a => (f a r.reading.rest).after r.faults
  | .error e => ⟨r.faults, ⟨.error e, r.reading.rest⟩⟩

/-- Goes on with what is left after a value, and behind the next landmark after a mistake, which is
then reported; at the end of the input there is nothing to go on with. -/
def recover (r : Account α) (f : α → List Token → Account β) (g : List Token → Account β) :
    Account β :=
  match r.reading.result with
  | .ok a => (f a r.reading.rest).after r.faults
  | .error e =>
    match r.reading.rest with
    | [] => ⟨r.faults, ⟨.error e, []⟩⟩
    | u :: more => (g (skip (u :: more))).after
        (r.faults ++ [⟨.expected e u.kind, u.position⟩])

theorem map_map (f : α → β) (g : β → γ) (x : Account α) :
    (x.map f).map g = x.map (g ∘ f) := by
  obtain ⟨faults, result, rest⟩ := x
  cases result <;> rfl

theorem map_after (f : α → β) (faults : List (Located SyntaxFault)) (x : Account α) :
    (x.after faults).map f = (x.map f).after faults := rfl

theorem map_nil_append (x : Account (List α)) : x.map ([] ++ ·) = x := by
  obtain ⟨faults, result, rest⟩ := x
  cases result <;> rfl

theorem map_andThen (h : β → γ) (r : Account α) (f : α → List Token → Account β) :
    (r.andThen f).map h = r.andThen fun a rest => (f a rest).map h := by
  obtain ⟨faults, result, rest⟩ := r
  cases result <;> rfl

theorem map_recover (h : β → γ) (r : Account α) (f : α → List Token → Account β)
    (g : List Token → Account β) : (r.recover f g).map h =
      r.recover (fun a rest => (f a rest).map h) fun rest => (g rest).map h := by
  obtain ⟨faults, result, rest⟩ := r
  cases result with
  | ok a => rfl
  | error e => cases rest <;> rfl

@[simp] theorem after_nil (r : Account α) : r.after [] = r := rfl

theorem after_after (early faults : List (Located SyntaxFault)) (r : Account α) :
    (r.after faults).after early = r.after (early ++ faults) := by
  simp only [after, List.append_assoc]

@[simp] theorem of_ok_andThen (a : α) (rest : List Token) (f : α → List Token → Account β) :
    (of ⟨.ok a, rest⟩).andThen f = f a rest := rfl

@[simp] theorem of_error_andThen (e : Expected) (rest : List Token)
    (f : α → List Token → Account β) :
    (of ⟨.error e, rest⟩).andThen f = of ⟨.error e, rest⟩ := rfl

end Account

namespace Recovered

def account (r : Recovered α n) : Account α := ⟨r.faults, r.outcome.reading⟩

@[simp] theorem account_ofAttempt (a : Attempt α n) :
    (ofAttempt a).account = .of a.reading := rfl

@[simp] theorem account_map (f : α → β) (h : n ≤ m) (r : Recovered α n) :
    (r.map f h).account = r.account.map f := by
  rw [map, account, reading_map]
  rfl

@[simp] theorem account_after (faults : List (Located SyntaxFault)) (r : Recovered α n) :
    (r.after faults).account = r.account.after faults := rfl

end Recovered

open Recovered

theorem block_account {t : Token} (ht : t.kind = .delimiter .openBrace) (rest : List Token) :
    (block (t :: rest)).account = (statements rest).account.andThen fun body left =>
      .of ((delimiter .closeBrace left).reading.map fun _ => body) := by
  rw [block, if_pos ht]
  obtain ⟨faults, outcome⟩ := statements rest
  cases outcome with
  | error f => rfl
  | ok r => simp [account, Account.andThen, Account.after, Account.of]

theorem block_account_none {toks : List Token}
    (h : ∀ t ∈ toks.head?, t.kind ≠ .delimiter .openBrace) :
    (block toks).account = .of ⟨.error (.delimiter .openBrace), toks⟩ := by
  cases toks with
  | nil => rw [block]; rfl
  | cons t rest => rw [block, if_neg (h t rfl)]; rfl

theorem statement_account_definition (p : Position) (toks : List Token) :
    (statement .definition p toks).account =
      (Account.of (signature toks).reading).andThen fun x rest =>
        (block rest).account.map (.define x.1 x.2 · p) := by
  rw [statement]
  cases signature toks with
  | error f => rfl
  | ok r =>
    rw [account_map]
    rfl

theorem statement_account_loop (p : Position) (toks : List Token) :
    (statement .loop p toks).account =
      (Account.of (enclosed toks).reading).andThen fun condition rest =>
        (block rest).account.map (.loop condition · p) := by
  rw [statement]
  cases enclosed toks with
  | error f => rfl
  | ok r =>
    rw [account_map]
    rfl

/-- What is read of a branch behind its first block. -/
def otherwiseAccount (condition : Expr) (body : List Stmt) (p : Position) :
    List Token → Account Stmt
  | [] => .of ⟨.ok (.ifThen condition body p), []⟩
  | t :: more =>
    if t.kind = .keyword .hiss then (block more).account.map (.ifElse condition body · p)
    else .of ⟨.ok (.ifThen condition body p), t :: more⟩

theorem statement_account_branch (p : Position) (toks : List Token) :
    (statement .branch p toks).account =
      (Account.of (enclosed toks).reading).andThen fun condition rest =>
        (block rest).account.andThen fun body left => otherwiseAccount condition body p left := by
  rw [statement]
  cases enclosed toks with
  | error f => rfl
  | ok r =>
    obtain ⟨condition, rest, h⟩ := r
    rw [reading_ok, Account.of_ok_andThen]
    simp only
    generalize block rest = b
    obtain ⟨faults, outcome⟩ := b
    cases outcome with
    | error f => rfl
    | ok b =>
      obtain ⟨body, left, hl⟩ := b
      cases left with
      | nil => simp [account, Account.andThen, Account.after, Account.of, otherwiseAccount]
      | cons t more =>
        by_cases ht : t.kind = .keyword .hiss
        · simp [account, Account.andThen, Account.after, otherwiseAccount, ht, Account.map,
            Recovered.after, Recovered.map]
        · simp [account, Account.andThen, Account.after, Account.of, otherwiseAccount, ht]

theorem statements_account_end {toks : List Token}
    (h : ∀ t ∈ toks.head?, endsStatements t.kind = true) :
    (statements toks).account = .of ⟨.ok [], toks⟩ := by
  cases toks with
  | nil => rw [statements]; rfl
  | cons t rest =>
    rw [statements, if_pos (h t rfl)]
    rfl

theorem statements_account_none {t : Token} (he : ¬ endsStatements t.kind = true)
    (hs : Starter.ofKind? t.kind = none) (rest : List Token) :
    (statements (t :: rest)).account =
      (statements (skip rest)).account.after [⟨.expected .statement t.kind, t.position⟩] := by
  rw [statements, if_neg he]
  split
  · rw [account_after, account_map]
    simp [Account.map, Account.after, Reading.map]
  · next s hs' => rw [hs] at hs'; cases hs'

theorem statements_account {t : Token} {s : Starter} (hs : Starter.ofKind? t.kind = some s)
    (rest : List Token) :
    (statements (t :: rest)).account = (statement s t.position rest).account.recover
      (fun first left => (statements left).account.map (first :: ·))
      fun left => (statements left).account := by
  have hend : ¬ endsStatements t.kind = true := by
    intro he
    unfold endsStatements at he
    split at he <;> simp_all [Starter.ofKind?]
  rw [statements, if_neg hend]
  split
  · next hn => rw [hs] at hn; cases hn
  · next s' hs' =>
    rw [hs] at hs'
    cases hs'
    obtain ⟨faults, outcome⟩ := statement s t.position rest
    cases outcome with
    | ok r =>
      rw [account_after, account_map]
      rfl
    | error f =>
      obtain ⟨what, left, hl⟩ := f
      cases left with
      | nil => rfl
      | cons u left =>
        dsimp only
        rw [account_after, account_map]
        simp [Account.map, Account.after, Reading.map, Account.recover, account]

theorem topLevel_account (toks : List Token) :
    (topLevel toks).account = (statements toks).account.andThen fun body rest =>
      match rest with
      | [] => .of ⟨.ok body, []⟩
      | t :: left =>
        if t.kind = .delimiter .closeBrace then
          ((topLevel left).account.map (body ++ ·)).after [⟨.unexpectedToken t.kind, t.position⟩]
        else .of ⟨.ok body, t :: left⟩ := by
  rw [topLevel]
  obtain ⟨faults, outcome⟩ := statements toks
  cases outcome with
  | error f => rfl
  | ok r =>
    obtain ⟨body, rest, h⟩ := r
    cases rest with
    | nil => simp [account, Account.andThen, Account.after, Account.of]
    | cons t left =>
      by_cases ht : t.kind = .delimiter .closeBrace
      · simp [account, Account.andThen, Account.after, ht, Account.map, Recovered.after,
          Recovered.map]
      · simp [account, Account.andThen, Account.after, Account.of, ht]

/-! ## Programs -/

/-- The fault reported where reading stopped for good. -/
def stopFault (finish : Position) (e : Expected) : List Token → Located SyntaxFault
  | [] => ⟨.unexpectedEnd e, finish⟩
  | t :: _ => ⟨.expected e t.kind, t.position⟩

theorem program_account (p : TokenStream) :
    p.program.1 = match (topLevel p.start.2).account with
      | ⟨faults, .error e, rest⟩ =>
        .error (p.start.1 ++ faults ++ [stopFault p.finish e rest])
      | ⟨faults, .ok body, rest⟩ =>
        match p.start.1 ++ faults ++ (TokenStream.close p.finish rest).1 with
        | [] => .ok ⟨body, p.peek.2⟩
        | all => .error all := by
  rw [TokenStream.program]
  dsimp only
  generalize topLevel p.start.2 = r
  obtain ⟨faults, outcome⟩ := r
  cases outcome with
  | error f =>
    obtain ⟨e, rest, h⟩ := f
    cases rest <;> rfl
  | ok r =>
    dsimp only [account, reading_ok]
    cases p.start.1 ++ faults ++ (TokenStream.close p.finish r.rest).1 <;> rfl

end MeowScript
