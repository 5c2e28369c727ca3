import MeowScript.Grammar.Statement

/-!
# Reading programs

A program is `Wake`, statements and `Sleep`. A `TokenStream` is a place in a token list; reading a
program moves it on, so that it can be asked again. Tokens behind the first end of input are never
seen.

Mirrors `parse`, `parse_program` and `program` (parser:54-57, 148-204) on the tokens that are left;
`Cursor` keeps the place, the tokens and the faults as they are kept there.

Results:
* `ofList_append_finish`: nothing behind an end of input matters.
-/
namespace MeowScript

/-- The tokens not yet taken, none of which is the end of the input, and where that end lies. -/
structure TokenStream where
  ahead : List Token
  finish : Position
  deriving Repr

/-- Statements up to `Sleep` or the end of the input; closing braces among them close nothing, and
are reported (the loop of `program`, parser:181-190). -/
def topLevel (toks : List Token) : Recovered (List Stmt) (toks.length + 1) :=
  match statements toks with
  | ⟨faults, .error f⟩ => ⟨faults, .error f⟩
  | ⟨faults, .ok ⟨body, rest, h⟩⟩ =>
    match rest with
    | [] => ⟨faults, .ok ⟨body, [], h⟩⟩
    | t :: left =>
      if t.kind = .delimiter .closeBrace then
        ((topLevel left).map (body ++ ·) (Nat.le_of_lt h)).after
          (faults ++ [⟨.unexpectedToken t.kind, t.position⟩])
      else ⟨faults, .ok ⟨body, t :: left, h⟩⟩
termination_by toks.length
decreasing_by exact Nat.lt_of_succ_lt_succ h

namespace TokenStream

/-- A list without an end of input ends where its last token stands (`new`, parser:66-81). -/
def ofList (toks : List Token) : TokenStream where
  ahead := toks.takeWhile fun t => !isFinish t
  finish :=
    match toks.find? isFinish with
    | some t => t.position
    | none => (toks.getLast?.map Token.position).getD .start

theorem ofList_append_finish (toks more : List Token) (p : Position) (s : String) :
    ofList (toks ++ ⟨.endOfInput, s, p⟩ :: more) = ofList (toks ++ [⟨.endOfInput, s, p⟩]) := by
  have hf : isFinish ⟨.endOfInput, s, p⟩ = true := rfl
  simp only [ofList, List.find?_append, List.find?_cons, hf, TokenStream.mk.injEq]
  refine ⟨?_, by cases toks.find? isFinish <;> rfl⟩
  induction toks with
  | nil => rfl
  | cons t toks ih => simp only [List.cons_append, List.takeWhile_cons, ih]

/-- The first token ahead, or the end of the input. -/
def peek (p : TokenStream) : Kind × Position :=
  match p.ahead with
  | [] => (.endOfInput, p.finish)
  | t :: _ => (t.kind, t.position)

/-- What is reported of the start, and the tokens of the body (parser:173-179). -/
def start (p : TokenStream) : List (Located SyntaxFault) × List Token :=
  match p.ahead with
  | [] => ([⟨.missingStart .endOfInput, p.finish⟩], [])
  | t :: rest =>
    if t.kind = .keyword .wake then ([], rest)
    else ([⟨.missingStart t.kind, t.position⟩], t :: rest)

/-- What is reported of the end of a program, given the tokens behind its body, and what is left
of them (parser:192-201). -/
def close (finish : Position) : List Token → List (Located SyntaxFault) × List Token
  | [] => ([⟨.missingEnd .endOfInput, finish⟩], [])
  | t :: rest =>
    if t.kind = .keyword .sleep then
      match rest with
      | [] => ([], [])
      | u :: _ => ([⟨.trailingInput u.kind, u.position⟩], rest)
    else ([⟨.missingEnd t.kind, t.position⟩], t :: rest)

/-- Reads one program, or reports every fault in it, and moves on (`parse_program`,
parser:148-165). -/
def program (p : TokenStream) : Except (List (Located SyntaxFault)) Program × TokenStream :=
  let (early, rest) := p.start
  match topLevel rest with
  | ⟨faults, .error f⟩ => (.error (early ++ faults ++ [f.fault p.finish]), ⟨f.rest, p.finish⟩)
  | ⟨faults, .ok r⟩ =>
    let (late, left) := close p.finish r.rest
    match early ++ faults ++ late with
    | [] => (.ok ⟨r.value, p.peek.2⟩, ⟨left, p.finish⟩)
    | all => (.error all, ⟨left, p.finish⟩)

end TokenStream

/-- The program that a token list spells, or every fault in it (`parse`, parser:54-57). -/
def Program.ofTokens (toks : List Token) : Except (List (Located SyntaxFault)) Program :=
  (TokenStream.ofList toks).program.1

end MeowScript
