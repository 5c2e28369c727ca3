import MeowScript.Grammar.Expression

/-!
# Reading statements, and going on after a mistake

A list of statements goes up to `Sleep`, a closing brace or the end of the input. A statement that
fails is reported where it failed, and reading goes on at the next landmark; only the end of the
input stops it for good. `Recovered` is a result with the faults reported on the way to it.

Mirrors `synchronize` and `statement_list` to `print_statement` (parser:140-146, 206-328).

Results:
* `skip_length_le`: skipping to a landmark takes nothing back.
-/
namespace MeowScript

/-- What a statement begins with: the cases of `statement` (parser:231-242). -/
inductive Starter where
  | declaration | definition | branch | loop | bring | print
  | named (name : String)
  deriving DecidableEq, Repr

def Starter.ofKind? : Kind → Option Starter
  | .keyword .box => some declaration
  | .keyword .hunt => some definition
  | .keyword .purr => some branch
  | .keyword .chase => some loop
  | .keyword .bring => some bring
  | .keyword .meow => some print
  | .identifier name => some (named name)
  | _ => none

/-- Whether a token of this kind ends a list of statements. -/
def endsStatements : Kind → Bool
  | .keyword .sleep | .delimiter .closeBrace => true
  | _ => false

/-- Drops tokens up to the next landmark (`synchronize`, parser:140-146). -/
def skip (toks : List Token) : List Token := toks.dropWhile fun t => !t.kind.isLandmark

theorem skip_length_le (toks : List Token) : (skip toks).length ≤ toks.length :=
  (List.dropWhile_sublist _).length_le

/-! ## Parts of statements -/

/-- A name where `what` is expected (`expect_identifier`, parser:124-133). -/
def identifier (what : Expected) (toks : List Token) :
    Attempt (String × Position) toks.length :=
  match toks with
  | [] => .error (.here what [])
  | t :: rest =>
    match t.kind with
    | .identifier name => .ok ⟨(name, t.position), rest, fewer_cons t rest⟩
    | _ => .error (.here what (t :: rest))

/-- The word `paws` before a value. -/
def paws (toks : List Token) : Attempt Unit toks.length :=
  match toks with
  | [] => .error (.here .paws [])
  | t :: rest =>
    if t.kind = .keyword .paws then .ok ⟨(), rest, fewer_cons t rest⟩
    else .error (.here .paws (t :: rest))

/-- An expression in parentheses. -/
def enclosed (toks : List Token) : Attempt Expr toks.length :=
  (delimiter .openParen toks).andThen fun _ rest =>
    (expression rest).andThen fun e rest =>
      (delimiter .closeParen rest).map (fun _ => e) (atMost_self rest)

/-- A declaration (`var_declaration`, parser:244-250). -/
def declaration (p : Position) (toks : List Token) : Attempt Stmt toks.length :=
  (identifier .variableName toks).andThen fun name rest =>
    (paws rest).andThen fun _ rest =>
      (expression rest).map (.declare name.1 · none p) (atMost_self rest)

/-- A statement that begins with a name: an assignment or a call (`identifier_statement`,
parser:252-269). -/
def named (name : String) (p : Position) (toks : List Token) : Attempt Stmt toks.length :=
  match toks with
  | [] => .error (.here .pawsOrParen [])
  | t :: rest =>
    if t.kind = .keyword .paws then
      (expression rest).map (.assign name · none p) (atMost_cons t rest)
    else if t.kind = .delimiter .openParen then
      (arguments rest).map (.call name · p) (atMost_cons t rest)
    else .error (.here .pawsOrParen (t :: rest))

/-- What may follow a parameter: a comma and another one, or the closing parenthesis. -/
def moreParameters (toks : List Token) : Attempt (List Param) toks.length :=
  match toks with
  | [] => .error (.here (.delimiter .closeParen) [])
  | t :: rest =>
    if t.kind = .delimiter .comma then
      match identifier .parameterName rest with
      | .error f => .error (f.weaken (atMost_cons t rest))
      | .ok ⟨name, left, h⟩ =>
        (moreParameters left).map (⟨name.1, name.2⟩ :: ·)
          (Nat.le_trans (Nat.le_of_lt h) (atMost_cons t rest))
    else if t.kind = .delimiter .closeParen then .ok ⟨[], rest, fewer_cons t rest⟩
    else .error (.here (.delimiter .closeParen) (t :: rest))
termination_by toks.length
decreasing_by simp only [List.length_cons]; omega

/-- The parameters of a definition, after the opening parenthesis and with the closing one. -/
def parameters (toks : List Token) : Attempt (List Param) toks.length :=
  match toks with
  | [] => .error (.here (.delimiter .closeParen) [])
  | t :: rest =>
    match t.kind with
    | .identifier name =>
      (moreParameters rest).map (⟨name, t.position⟩ :: ·) (atMost_cons t rest)
    | _ => (delimiter .closeParen (t :: rest)).map (fun _ => []) (atMost_self (t :: rest))

/-- The name and the parameters of a definition (`function_def`, parser:271-286). -/
def signature (toks : List Token) : Attempt (String × List Param) toks.length :=
  (identifier .functionName toks).andThen fun name rest =>
    (delimiter .openParen rest).andThen fun _ rest =>
      (parameters rest).map (name.1, ·) (atMost_self rest)

/-! ## Statements and blocks -/

/-- A result and the faults reported before it. -/
structure Recovered (α : Type) (n : Nat) where
  faults : List (Located SyntaxFault)
  outcome : Attempt α n

namespace Recovered

variable {α β : Type} {n m : Nat}

def ofAttempt (a : Attempt α n) : Recovered α n := ⟨[], a⟩

def map (f : α → β) (h : n ≤ m) (r : Recovered α n) : Recovered β m := ⟨r.faults, r.outcome.map f h⟩

/-- Puts faults reported earlier in front. -/
def after (faults : List (Located SyntaxFault)) (r : Recovered α n) : Recovered α n :=
  ⟨faults ++ r.faults, r.outcome⟩

end Recovered

mutual

/-- The statement after its starter, which stands at `p` (parser:231-328). -/
def statement (s : Starter) (p : Position) (toks : List Token) : Recovered Stmt toks.length :=
  match s with
  | .declaration => .ofAttempt (declaration p toks)
  | .named name => .ofAttempt (named name p toks)
  | .bring => .ofAttempt ((expression toks).map (.bring · p) (atMost_self toks))
  | .print => .ofAttempt ((enclosed toks).map (.print · p) (atMost_self toks))
  | .definition =>
    match signature toks with
    | .error f => .ofAttempt (.error f)
    | .ok ⟨(name, params), rest, h⟩ => (block rest).map (.define name params · p) (Nat.le_of_lt h)
  | .loop =>
    match enclosed toks with
    | .error f => .ofAttempt (.error f)
    | .ok ⟨condition, rest, h⟩ => (block rest).map (.loop condition · p) (Nat.le_of_lt h)
  | .branch =>
    match enclosed toks with
    | .error f => .ofAttempt (.error f)
    | .ok ⟨condition, rest, h⟩ =>
      match block rest with
      | ⟨faults, .error f⟩ => ⟨faults, .error (f.weaken (Nat.le_of_lt h))⟩
      | ⟨faults, .ok ⟨body, left, hl⟩⟩ =>
        match left with
        | [] => ⟨faults, .ok ⟨.ifThen condition body p, [], Nat.lt_trans hl h⟩⟩
        | t :: more =>
          if t.kind = .keyword .hiss then
            ((block more).map (.ifElse condition body · p) (by simp at hl; omega)).after faults
          else ⟨faults, .ok ⟨.ifThen condition body p, t :: more, Nat.lt_trans hl h⟩⟩
termination_by toks.length
decreasing_by all_goals simp_all; try omega

/-- Statements in braces (`block`, parser:224-229). -/
def block (toks : List Token) : Recovered (List Stmt) toks.length :=
  match toks with
  | [] => .ofAttempt (.error (.here (.delimiter .openBrace) []))
  | t :: rest =>
    if t.kind = .delimiter .openBrace then
      match statements rest with
      | ⟨faults, .error f⟩ => ⟨faults, .error f⟩
      | ⟨faults, .ok ⟨body, left, h⟩⟩ =>
        ⟨faults, (delimiter .closeBrace left).map (fun _ => body) (Nat.le_of_lt h)⟩
    else .ofAttempt (.error (.here (.delimiter .openBrace) (t :: rest)))
termination_by toks.length
decreasing_by simp

/-- Statements up to the end of their list (`statement_list`, parser:206-222). -/
def statements (toks : List Token) : Recovered (List Stmt) (toks.length + 1) :=
  match toks with
  | [] => .ofAttempt (.ok ⟨[], [], Nat.lt_succ_self _⟩)
  | t :: rest =>
    if endsStatements t.kind then .ofAttempt (.ok ⟨[], t :: rest, Nat.lt_succ_self _⟩)
    else
      match Starter.ofKind? t.kind with
      | none =>
        ((statements (skip rest)).map id (by have := skip_length_le rest; simp; omega)).after
          [⟨.expected .statement t.kind, t.position⟩]
      | some s =>
        match statement s t.position rest with
        | ⟨faults, .ok ⟨first, left, h⟩⟩ =>
          ((statements left).map (first :: ·) (by simp; omega)).after faults
        | ⟨faults, .error f⟩ =>
          match f.rest with
          | [] => ⟨faults, .error (f.weaken (by simp; omega))⟩
          | u :: _ =>
            ((statements (skip f.rest)).map id
              (by have := skip_length_le f.rest; have := f.atMost; simp; omega)).after
              (faults ++ [⟨.expected f.expected u.kind, u.position⟩])
termination_by toks.length
decreasing_by
  · have := skip_length_le rest; simp; omega
  · simp
  · simp; omega
  · have := skip_length_le f.rest; have := f.atMost; simp; omega

end
end MeowScript
