import Mathlib.Data.List.Basic
import MeowScript.Grammar.Program

/-!
# The grammar

What a list of tokens spells, rule by rule, without any reading: tokens are put together in every
way the grammar allows.

* `program := Wake statement* Sleep end`
* `statement := Box IDENT paws expr | IDENT paws expr | IDENT ( args? )
  | Hunt IDENT ( params? ) block | Purr ( expr ) block [ Hiss block ] | Chase ( expr ) block
  | Bring expr | Meow ( expr )`
* `block := { statement* }`
* `expr` has a level for each row of operators. On each, `level := tighter (operator tighter)*`, and
  the tree leans to the left; behind the tightest row comes
  `unary := (! | -) unary | INT | FLOAT | STRING | IDENT [ ( args? ) ] | ( expr )`.
* `args := expr (, expr)*` and `params := IDENT (, IDENT)*`.

The tree that is spelled has no types and no storage names yet.
-/
namespace MeowScript

variable {α : Type}

/-! ## Repetition -/

/-- `(, item)*`: each item with the comma before it. -/
inductive CommaEach : List (List Token × α) → List Token → Prop where
  | nil : CommaEach [] []
  | cons {t : Token} {x : List Token × α} {xs : List (List Token × α)} {toks : List Token} :
      t.kind = .delimiter .comma → CommaEach xs toks → CommaEach (x :: xs) (t :: (x.1 ++ toks))

/-- `[ item (, item)* ]`. -/
inductive Listed : List (List Token × α) → List Token → Prop where
  | none : Listed [] []
  | some {x : List Token × α} {xs : List (List Token × α)} {toks : List Token} :
      CommaEach xs toks → Listed (x :: xs) (x.1 ++ toks)

/-- The tokens of one item after the other. -/
def spelling (parts : List (List Token × α)) : List Token := (parts.map Prod.fst).flatten

/-- What the items stand for. -/
def meanings (parts : List (List Token × α)) : List α := parts.map Prod.snd

/-! ## Expressions -/

/-- The token of a unary operator. -/
def UnaryOp.kind : UnaryOp → Kind
  | neg => .operator .sub
  | not => .bang

/-- The token of a literal. -/
def Literal.kind : Literal → Kind
  | integer n => .integer n
  | float x => .float x
  | string s => .string s

/-- The binary operators, row by row, the loosest first. -/
def operatorRows : List (List BinaryOp) :=
  [[.or], [.and], [.eq, .ne], [.lt, .gt, .le, .ge], [.add, .sub], [.mul, .div, .mod]]

/-- The tokens spell an expression whose binary operators outside parentheses are in the rows given,
the loosest first; without a row it is a `unary`. -/
inductive ExprSpelled : List (List BinaryOp) → List Token → Expr → Prop where
  | tighter {row : List BinaryOp} {rows : List (List BinaryOp)} {toks : List Token} {e : Expr} :
      ExprSpelled rows toks e → ExprSpelled (row :: rows) toks e
  | binary {row : List BinaryOp} {rows : List (List BinaryOp)} {a b : List Token} {t : Token}
      {op : BinaryOp} {left right : Expr} :
      ExprSpelled (row :: rows) a left → t.kind = .operator op → op ∈ row →
      ExprSpelled rows b right →
      ExprSpelled (row :: rows) (a ++ t :: b) (.binary op left right t.position .unknown)
  | unary {t : Token} {op : UnaryOp} {toks : List Token} {e : Expr} :
      t.kind = op.kind → ExprSpelled [] toks e →
      ExprSpelled [] (t :: toks) (.unary op e t.position .unknown)
  | literal {t : Token} {v : Literal} :
      t.kind = v.kind → ExprSpelled [] [t] (.literal v t.position .unknown)
  | var {t : Token} {name : String} :
      t.kind = .identifier name → ExprSpelled [] [t] (.var name none t.position .unknown)
  | call {t o c : Token} {name : String} {args : List (List Token × Expr)} {toks : List Token} :
      t.kind = .identifier name → o.kind = .delimiter .openParen →
      (∀ x ∈ args, ExprSpelled operatorRows x.1 x.2) → Listed args toks →
      c.kind = .delimiter .closeParen →
      ExprSpelled [] (t :: o :: (toks ++ [c])) (.call name (meanings args) t.position .unknown)
  | parens {o c : Token} {toks : List Token} {e : Expr} :
      o.kind = .delimiter .openParen → ExprSpelled operatorRows toks e →
      c.kind = .delimiter .closeParen → ExprSpelled [] (o :: (toks ++ [c])) e

/-! ## Statements -/

/-- An expression in parentheses. -/
inductive EnclosedSpelled : List Token → Expr → Prop where
  | mk {o c : Token} {toks : List Token} {e : Expr} :
      o.kind = .delimiter .openParen → ExprSpelled operatorRows toks e →
      c.kind = .delimiter .closeParen → EnclosedSpelled (o :: (toks ++ [c])) e

/-- A single token that names a parameter. -/
inductive ParamSpelled : List Token → Param → Prop where
  | mk {t : Token} {name : String} :
      t.kind = .identifier name → ParamSpelled [t] ⟨name, t.position⟩

/-- Tokens in braces. -/
inductive Braced : List Token → List Token → Prop where
  | mk {o c : Token} {toks : List Token} :
      o.kind = .delimiter .openBrace → c.kind = .delimiter .closeBrace →
      Braced toks (o :: (toks ++ [c]))

inductive StmtSpelled : List Token → Stmt → Prop where
  | declare {t n w : Token} {name : String} {toks : List Token} {e : Expr} :
      t.kind = .keyword .box → n.kind = .identifier name → w.kind = .keyword .paws →
      ExprSpelled operatorRows toks e →
      StmtSpelled (t :: n :: w :: toks) (.declare name e none t.position)
  | assign {n w : Token} {name : String} {toks : List Token} {e : Expr} :
      n.kind = .identifier name → w.kind = .keyword .paws → ExprSpelled operatorRows toks e →
      StmtSpelled (n :: w :: toks) (.assign name e none n.position)
  | call {n o c : Token} {name : String} {args : List (List Token × Expr)} {toks : List Token} :
      n.kind = .identifier name → o.kind = .delimiter .openParen →
      (∀ x ∈ args, ExprSpelled operatorRows x.1 x.2) → Listed args toks →
      c.kind = .delimiter .closeParen →
      StmtSpelled (n :: o :: (toks ++ [c])) (.call name (meanings args) n.position)
  | define {t n o c : Token} {name : String} {params : List (List Token × Param)}
      {toks block : List Token} {body : List (List Token × Stmt)} :
      t.kind = .keyword .hunt → n.kind = .identifier name → o.kind = .delimiter .openParen →
      (∀ x ∈ params, ParamSpelled x.1 x.2) → Listed params toks →
      c.kind = .delimiter .closeParen →
      (∀ x ∈ body, StmtSpelled x.1 x.2) → Braced (spelling body) block →
      StmtSpelled (t :: n :: o :: (toks ++ c :: block))
        (.define name (meanings params) (meanings body) t.position)
  | ifThen {t : Token} {test block : List Token} {condition : Expr}
      {body : List (List Token × Stmt)} :
      t.kind = .keyword .purr → EnclosedSpelled test condition →
      (∀ x ∈ body, StmtSpelled x.1 x.2) → Braced (spelling body) block →
      StmtSpelled (t :: (test ++ block)) (.ifThen condition (meanings body) t.position)
  | ifElse {t h : Token} {test block block' : List Token} {condition : Expr}
      {body otherwise : List (List Token × Stmt)} :
      t.kind = .keyword .purr → EnclosedSpelled test condition →
      (∀ x ∈ body, StmtSpelled x.1 x.2) → Braced (spelling body) block →
      h.kind = .keyword .hiss →
      (∀ x ∈ otherwise, StmtSpelled x.1 x.2) → Braced (spelling otherwise) block' →
      StmtSpelled (t :: (test ++ block ++ h :: block'))
        (.ifElse condition (meanings body) (meanings otherwise) t.position)
  | loop {t : Token} {test block : List Token} {condition : Expr}
      {body : List (List Token × Stmt)} :
      t.kind = .keyword .chase → EnclosedSpelled test condition →
      (∀ x ∈ body, StmtSpelled x.1 x.2) → Braced (spelling body) block →
      StmtSpelled (t :: (test ++ block)) (.loop condition (meanings body) t.position)
  | bring {t : Token} {toks : List Token} {e : Expr} :
      t.kind = .keyword .bring → ExprSpelled operatorRows toks e →
      StmtSpelled (t :: toks) (.bring e t.position)
  | print {t : Token} {toks : List Token} {e : Expr} :
      t.kind = .keyword .meow → EnclosedSpelled toks e →
      StmtSpelled (t :: toks) (.print e t.position)

/-- Statements between `Wake` and `Sleep`, and the end of the input. -/
inductive ProgramSpelled : List Token → Program → Prop where
  | mk {w s f : Token} {body : List (List Token × Stmt)} :
      w.kind = .keyword .wake → (∀ x ∈ body, StmtSpelled x.1 x.2) → s.kind = .keyword .sleep →
      f.kind = .endOfInput →
      ProgramSpelled (w :: (spelling body ++ [s, f])) ⟨meanings body, w.position⟩

/-! ## Joining items -/

@[simp] theorem spelling_nil : spelling ([] : List (List Token × α)) = [] := rfl

@[simp] theorem spelling_cons (x : List Token × α) (xs : List (List Token × α)) :
    spelling (x :: xs) = x.1 ++ spelling xs := rfl

@[simp] theorem meanings_nil : meanings ([] : List (List Token × α)) = [] := rfl

@[simp] theorem meanings_cons (x : List Token × α) (xs : List (List Token × α)) :
    meanings (x :: xs) = x.2 :: meanings xs := rfl

end MeowScript
