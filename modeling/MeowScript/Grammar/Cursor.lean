import MeowScript.Grammar.Attempt
import MeowScript.Grammar.Chain

/-!
# A cursor in the tokens

The parser as a machine: the tokens with an end of input as the last of them, the place of the one
to be read next, and the faults reported so far. A step reads the token at the place, which may lie
out of bounds, and may move on by one. Nothing here says that the place stays among the tokens, or
that a method returns: one that loops or calls itself is told how many calls may be under way inside
one another, a round of a loop being one more of them, and has no outcome if that is too few. A
method that goes on for ever has none with any number.

A reader is a method that can fail. A list of statements goes on after a failure it can recover
from, behind the tokens that `synchronize` discards; any other failure ends the call.

Mirrors `Parser` method by method; each names its lines in the module `parser` of the source.
-/
namespace MeowScript

/-- The tokens with an end of input as the last of them, which is added if it is missing. -/
def ended (toks : List Token) : List Token :=
  match toks.getLast? with
  | none => [.finish .start]
  | some t => if isFinish t then toks else toks ++ [.finish t.position]

structure Cursor where
  tokens : List Token
  place : Nat
  faults : List (Located SyntaxFault)
  deriving Repr

namespace Cursor

/-- How a reader fails (parser:36-42). -/
inductive Stop where
  | recoverable (fault : Located SyntaxFault)
  | fatal (fault : Located SyntaxFault)
  deriving DecidableEq, Repr

def Stop.fault : Stop → Located SyntaxFault
  | recoverable f | fatal f => f

/-- A token was asked for where there is none. -/
structure OutOfBounds where
  place : Nat
  size : Nat
  deriving DecidableEq, Repr

/-- What may run out of calls, and may ask for a token out of bounds. -/
abbrev Step (α : Type) := StateT Cursor (ExceptT OutOfBounds Option) α

/-- A step that may fail besides. -/
abbrev Reader (α : Type) := ExceptT Stop (StateT Cursor (ExceptT OutOfBounds Option)) α

/-- One more call is made than there may be. -/
def exhausted {α : Type} : Step α := fun _ => ExceptT.mk none

/-- A failure as a value. -/
abbrev attempt {α : Type} (p : Reader α) : Reader (Except Stop α) :=
  (Except.ok <$> p.run : Step (Except Stop (Except Stop α)))

/-- A cursor before the first token (`new`, parser:66-80). -/
def ofTokens (toks : List Token) : Cursor := ⟨ended toks, 0, []⟩

/-! ## One token -/

/-- The token at the place (parser:83-85). -/
def peek : Step Token := do
  let c ← get
  match c.tokens[c.place]? with
  | some t => return t
  | none => throwThe OutOfBounds ⟨c.place, c.tokens.length⟩

/-- Takes the token at the place, and moves on unless it is the last one (parser:87-93). -/
def advance : Step Token := do
  let t ← peek
  modify fun c => if c.place + 1 < c.tokens.length then { c with place := c.place + 1 } else c
  return t

/-- Whether the token at the place is of this kind (parser:95-97); asked only of kinds that carry
no value. -/
def check (k : Kind) : Step Bool := return (← peek).kind == k

/-- Fails at the place, for good at an end of input (parser:99-114). -/
def unexpected {α : Type} (what : Expected) : Reader α := do
  let t ← peek
  if t.kind = .endOfInput then throw (.fatal ⟨.unexpectedEnd what, t.position⟩)
  else throw (.recoverable ⟨.expected what t.kind, t.position⟩)

/-- One token of this kind (parser:116-122). -/
def expect (k : Kind) (what : Expected) : Reader Token := do
  if ← check k then advance else unexpected what

def expectDelimiter (d : Delimiter) : Reader Token := expect (.delimiter d) (.delimiter d)

/-- A name and where it stands (parser:124-133). -/
def expectIdentifier (what : Expected) : Reader (String × Position) := do
  match (← peek).kind with
  | .identifier name => return (name, (← advance).position)
  | _ => unexpected what

/-- Reports a fault and goes on (parser:135-138). -/
def record (fault : Located SyntaxFault) : Step Unit :=
  modify fun c => { c with faults := c.faults ++ [fault] }

/-- Discards tokens up to the next landmark (parser:140-146). -/
def synchronize : Nat → Step Unit
  | 0 => exhausted
  | n + 1 => do
    if (← peek).kind.isLandmark then return
    else
      let _ ← advance
      synchronize n

/-! ## Expressions -/

/-- The operator of level `l` that a token of this kind is. -/
def operatorAt (l : Level) : Kind → Option BinaryOp
  | .operator o => if o.level = l then some o else none
  | _ => none

def unaryAt : Kind → Option UnaryOp
  | .operator .sub => some .neg
  | .bang => some .not
  | _ => none

mutual

/-- Operands joined by operators of these levels, the loosest first (parser:352-433, one method for
each level: `parse_or` is that of the whole ladder). -/
def chain : Nat → List Level → Reader Expr
  | 0, _ => exhausted
  | n + 1, [] => unary n
  | n + 1, l :: tighter => do
    let left ← chain n tighter
    chainFrom n l tighter left

/-- The loop of one level, with what has been read to the left. -/
def chainFrom : Nat → Level → List Level → Expr → Reader Expr
  | 0, _, _, _ => exhausted
  | n + 1, l, tighter, left => do
    match operatorAt l (← peek).kind with
    | none => return left
    | some o =>
      let t ← advance
      let right ← chain n tighter
      chainFrom n l tighter (.binary o left right t.position .unknown)

/-- Unary operators before a primary (parser:435-444). -/
def unary : Nat → Reader Expr
  | 0 => exhausted
  | n + 1 => do
    match unaryAt (← peek).kind with
    | none => primary n
    | some op =>
      let t ← advance
      let operand ← unary n
      return .unary op operand t.position .unknown

/-- A literal, a variable, a call or an expression in parentheses (parser:446-479). -/
def primary : Nat → Reader Expr
  | 0 => exhausted
  | n + 1 => do
    let t ← peek
    match t.kind with
    | .integer i =>
      let _ ← advance
      return .literal (.integer i) t.position .unknown
    | .float x =>
      let _ ← advance
      return .literal (.float x) t.position .unknown
    | .string s =>
      let _ ← advance
      return .literal (.string s) t.position .unknown
    | .identifier name =>
      let _ ← advance
      if ← check (.delimiter .openParen) then
        let args ← callArgs n
        return .call name args t.position .unknown
      else return .var name none t.position .unknown
    | .delimiter .openParen =>
      let _ ← advance
      let e ← chain n Level.ladder
      let _ ← expectDelimiter .closeParen
      return e
    | _ => unexpected .expression

/-- The arguments of a call with their parentheses (parser:330-342). -/
def callArgs : Nat → Reader (List Expr)
  | 0 => exhausted
  | n + 1 => do
    let _ ← expectDelimiter .openParen
    if ← check (.delimiter .closeParen) then
      let _ ← expectDelimiter .closeParen
      return []
    else
      let e ← chain n Level.ladder
      let args ← moreArgs n [e]
      let _ ← expectDelimiter .closeParen
      return args

/-- The loop over the arguments behind those read already. -/
def moreArgs : Nat → List Expr → Reader (List Expr)
  | 0, _ => exhausted
  | n + 1, args => do
    if ← check (.delimiter .comma) then
      let _ ← advance
      let e ← chain n Level.ladder
      moreArgs n (args ++ [e])
    else return args

end

/-- An expression of any level (parser:344-346). -/
def expression (n : Nat) : Reader Expr := chain n Level.ladder

/-! ## Parts of statements -/

/-- An expression in parentheses, as `Purr`, `Chase` and `Meow` have it. -/
def enclosed (n : Nat) : Reader Expr := do
  let _ ← expectDelimiter .openParen
  let e ← expression n
  let _ ← expectDelimiter .closeParen
  return e

/-- The loop over the parameters behind those read already (parser:280-284). -/
def moreParams : Nat → List Param → Reader (List Param)
  | 0, _ => exhausted
  | n + 1, params => do
    if ← check (.delimiter .comma) then
      let _ ← advance
      let (name, p) ← expectIdentifier .parameterName
      moreParams n (params ++ [⟨name, p⟩])
    else return params

/-- The parameters of a definition with their parentheses (parser:275-286). -/
def params (n : Nat) : Reader (List Param) := do
  let _ ← expectDelimiter .openParen
  match (← peek).kind with
  | .identifier _ =>
    let (name, p) ← expectIdentifier .parameterName
    let params ← moreParams n [⟨name, p⟩]
    let _ ← expectDelimiter .closeParen
    return params
  | _ =>
    let _ ← expectDelimiter .closeParen
    return []

/-- The name and the parameters of a definition (parser:273-286). -/
def signature (n : Nat) : Reader (String × List Param) := do
  let (name, _) ← expectIdentifier .functionName
  let params ← params n
  return (name, params)

/-- `Box` and what follows it (parser:244-250). -/
def varDeclaration (n : Nat) : Reader Stmt := do
  let t ← advance
  let (name, _) ← expectIdentifier .variableName
  let _ ← expect (.keyword .paws) .paws
  let value ← expression n
  return .declare name value none t.position

/-- An assignment or a call, which the token behind the name tells apart (parser:252-269). -/
def identifierStatement (n : Nat) : Reader Stmt := do
  let (name, p) ← expectIdentifier .identifier
  if ← check (.keyword .paws) then
    let _ ← advance
    let value ← expression n
    return .assign name value none p
  else if ← check (.delimiter .openParen) then
    let args ← callArgs n
    return .call name args p
  else unexpected .pawsOrParen

/-- `Bring` and what follows it (parser:316-320). -/
def returnStatement (n : Nat) : Reader Stmt := do
  let t ← advance
  let value ← expression n
  return .bring value t.position

/-- `Meow` and what follows it (parser:322-328). -/
def printStatement (n : Nat) : Reader Stmt := do
  let t ← advance
  let value ← enclosed n
  return .print value t.position

/-! ## Statements and blocks -/

/-- Whether a list of statements ends at the place: at `Sleep`, a closing brace or an end of
input. -/
def atListEnd : Step Bool :=
  return (← check (.keyword .sleep)) || (← check (.delimiter .closeBrace)) ||
    (← check .endOfInput)

mutual

/-- Statements behind those read already; one that fails is reported and left behind at the next
landmark, unless it failed for good (parser:206-222). -/
def statementList : Nat → List Stmt → Reader (List Stmt)
  | 0, _ => exhausted
  | n + 1, stmts => do
    if ← atListEnd then return stmts
    else
      match ← attempt (statement n) with
      | .ok stmt => statementList n (stmts ++ [stmt])
      | .error (.recoverable fault) =>
        record fault
        synchronize n
        statementList n stmts
      | .error stop => throw stop

/-- A list of statements in braces (parser:224-229). -/
def block : Nat → Reader (List Stmt)
  | 0 => exhausted
  | n + 1 => do
    let _ ← expectDelimiter .openBrace
    let body ← statementList n []
    let _ ← expectDelimiter .closeBrace
    return body

/-- A statement, which its first token tells apart (parser:231-242). -/
def statement : Nat → Reader Stmt
  | 0 => exhausted
  | n + 1 => do
    match (← peek).kind with
    | .keyword .box => varDeclaration n
    | .keyword .hunt => functionDef n
    | .keyword .purr => ifStatement n
    | .keyword .chase => whileLoop n
    | .keyword .bring => returnStatement n
    | .keyword .meow => printStatement n
    | .identifier _ => identifierStatement n
    | _ => unexpected .statement

/-- `Hunt` and what follows it (parser:271-290). -/
def functionDef : Nat → Reader Stmt
  | 0 => exhausted
  | n + 1 => do
    let t ← advance
    let (name, params) ← signature n
    let body ← block n
    return .define name params body t.position

/-- `Purr` and what follows it (parser:292-305). -/
def ifStatement : Nat → Reader Stmt
  | 0 => exhausted
  | n + 1 => do
    let t ← advance
    let condition ← enclosed n
    let body ← block n
    if ← check (.keyword .hiss) then
      let _ ← advance
      let otherwise ← block n
      return .ifElse condition body otherwise t.position
    else return .ifThen condition body t.position

/-- `Chase` and what follows it (parser:307-314). -/
def whileLoop : Nat → Reader Stmt
  | 0 => exhausted
  | n + 1 => do
    let t ← advance
    let condition ← enclosed n
    let body ← block n
    return .loop condition body t.position

end

/-! ## Programs -/

/-- The place of `Wake`, or a report that it is missing (parser:173-179). -/
def programStart : Step Position := do
  let t ← peek
  if ← check (.keyword .wake) then
    let _ ← advance
    return t.position
  else
    record ⟨.missingStart t.kind, t.position⟩
    return t.position

/-- Lists of statements behind those read already, with the closing braces between them reported
(parser:181-190). -/
def body : Nat → List Stmt → Reader (List Stmt)
  | 0, _ => exhausted
  | n + 1, stmts => do
    let more ← statementList n []
    if ← check (.delimiter .closeBrace) then
      let stray ← advance
      record ⟨.unexpectedToken stray.kind, stray.position⟩
      body n (stmts ++ more)
    else return stmts ++ more

/-- Takes `Sleep`, and reports that it is missing or that something stands behind it
(parser:192-201). -/
def programEnd : Step Unit := do
  if ← check (.keyword .sleep) then
    let _ ← advance
    let extra ← peek
    if ← check .endOfInput then return
    else record ⟨.trailingInput extra.kind, extra.position⟩
  else
    let t ← peek
    record ⟨.missingEnd t.kind, t.position⟩

/-- A program (parser:172-204). -/
def program (n : Nat) : Reader Program := do
  let start ← programStart
  let stmts ← body n []
  programEnd
  return ⟨stmts, start⟩

/-- What a call answers: a program, or every fault found. -/
abbrev Answer := Except (List (Located SyntaxFault)) Program

/-- Hands over the faults, and keeps none. -/
def takeFaults : Step (List (Located SyntaxFault)) :=
  modifyGet fun c => (c.faults, { c with faults := [] })

/-- One call (parser:148-164). -/
def parseProgram (n : Nat) : Step Answer := do
  match ← (program n).run with
  | .error stop =>
    record stop.fault
    return .error (← takeFaults)
  | .ok tree =>
    if (← get).faults.isEmpty then return .ok tree
    else return .error (← takeFaults)

/-- The answers of `k` calls on one cursor. -/
def calls (n : Nat) : Nat → Step (List Answer)
  | 0 => return []
  | k + 1 => do
    let answers ← calls n k
    let answer ← parseProgram n
    return answers ++ [answer]

/-- The answer of a new cursor (`parse`, parser:55-57). -/
def parse (n : Nat) (toks : List Token) : ExceptT OutOfBounds Option Answer :=
  (parseProgram n).run' (ofTokens toks)

end Cursor
end MeowScript
