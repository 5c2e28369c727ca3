import MeowScript.Grammar.Attempt
import MeowScript.Grammar.Chain

/-!
# Reading expressions

`operand` reads a literal, a variable, a call, an expression in parentheses or a unary operator
before an operand; `expression` reads a chain of operands and assembles it.

Mirrors `call_args` to `parse_primary` (parser:330-478).

Results:
* `operand_nil`: an expression never begins at the end of the input.
-/
namespace MeowScript

mutual

/-- What can stand on either side of a binary operator (`parse_unary` and `parse_primary`,
parser:435-478). -/
def operand (toks : List Token) : Attempt Expr toks.length :=
  match toks with
  | [] => .error (.here .expression [])
  | t :: rest =>
    match t.kind with
    | .operator .sub =>
      (operand rest).map (.unary .neg · t.position .unknown) (Nat.le_succ _)
    | .bang => (operand rest).map (.unary .not · t.position .unknown) (Nat.le_succ _)
    | .integer n => .ok ⟨.literal (.integer n) t.position .unknown, rest, Nat.lt_succ_self _⟩
    | .float x => .ok ⟨.literal (.float x) t.position .unknown, rest, Nat.lt_succ_self _⟩
    | .string s => .ok ⟨.literal (.string s) t.position .unknown, rest, Nat.lt_succ_self _⟩
    | .identifier name =>
      match rest with
      | [] => .ok ⟨.var name none t.position .unknown, [], Nat.lt_succ_self _⟩
      | u :: more =>
        if u.kind = .delimiter .openParen then
          (arguments more).map (.call name · t.position .unknown)
            (Nat.le_trans (Nat.le_succ _) (Nat.le_succ _))
        else .ok ⟨.var name none t.position .unknown, u :: more, Nat.lt_succ_self _⟩
    | .delimiter .openParen =>
      match expression rest with
      | .error f => .error (f.weaken (Nat.le_succ _))
      | .ok ⟨e, left, h⟩ =>
        (delimiter .closeParen left).map (fun _ => e)
          (Nat.le_trans (Nat.le_of_lt h) (Nat.le_succ _))
    | _ => .error (.here .expression (t :: rest))
termination_by 3 * toks.length
decreasing_by all_goals simp only [List.length_cons]; omega

/-- An operand and the operators with operands that follow it (`expression`, parser:344-433). -/
def expression (toks : List Token) : Attempt Expr toks.length :=
  match operand toks with
  | .error f => .error f
  | .ok ⟨e, rest, h⟩ => (links rest).map (Chain.assemble Level.ladder e ·) h
termination_by 3 * toks.length + 1
decreasing_by all_goals omega

/-- As many binary operators with operands as there are. -/
def links (toks : List Token) : Attempt (List Link) (toks.length + 1) :=
  match toks with
  | [] => .ok ⟨[], [], Nat.lt_succ_self _⟩
  | t :: rest =>
    match t.kind with
    | .operator o =>
      match operand rest with
      | .error f => .error (f.weaken (Nat.le_trans (Nat.le_succ _) (Nat.le_succ _)))
      | .ok ⟨e, left, h⟩ =>
        (links left).map (⟨o, t.position, e⟩ :: ·)
          (Nat.le_trans h (Nat.le_trans (Nat.le_succ _) (Nat.le_succ _)))
    | _ => .ok ⟨[], t :: rest, Nat.lt_succ_self _⟩
termination_by 3 * toks.length
decreasing_by all_goals simp only [List.length_cons]; omega

/-- The arguments of a call, after the opening parenthesis and with the closing one (`call_args`,
parser:330-342). -/
def arguments (toks : List Token) : Attempt (List Expr) toks.length :=
  match toks with
  | [] => .error (.here .expression [])
  | t :: rest =>
    if t.kind = .delimiter .closeParen then .ok ⟨[], rest, Nat.lt_succ_self _⟩
    else
      match expression (t :: rest) with
      | .error f => .error f
      | .ok ⟨e, left, h⟩ => (moreArguments left).map (e :: ·) (Nat.le_of_lt h)
termination_by 3 * toks.length + 2
decreasing_by all_goals omega

/-- What may follow an argument: a comma and another argument, or the closing parenthesis. -/
def moreArguments (toks : List Token) : Attempt (List Expr) toks.length :=
  match toks with
  | [] => .error (.here (.delimiter .closeParen) [])
  | t :: rest =>
    if t.kind = .delimiter .comma then
      match expression rest with
      | .error f => .error (f.weaken (Nat.le_succ _))
      | .ok ⟨e, left, h⟩ =>
        (moreArguments left).map (e :: ·) (Nat.le_trans (Nat.le_of_lt h) (Nat.le_succ _))
    else if t.kind = .delimiter .closeParen then .ok ⟨[], rest, Nat.lt_succ_self _⟩
    else .error (.here (.delimiter .closeParen) (t :: rest))
termination_by 3 * toks.length
decreasing_by all_goals simp only [List.length_cons]; omega

end

theorem operand_nil : operand [] = .error (.here .expression []) := by rw [operand]

end MeowScript
