import MeowScript.Proofs.Grammar.Derivation

/-!
# Tokens that spell values

Expressions, and names and expressions in a row, are spelled with operators, literals, names,
parentheses and commas. No other kind of token stands among theirs.

Results:
* `Kind.isLandmark_of_inValue`: none of these kinds is a landmark.
* `ExprSpelled.values`, `EnclosedSpelled.values`, `Listed.values`: what is spelled with them.
-/
namespace MeowScript

variable {α : Type}

/-- Tokens of this kind occur in expressions and in lists of names. -/
def Kind.inValue : Kind → Bool
  | .operator _ | .bang | .integer _ | .float _ | .string _ | .identifier _
  | .delimiter .openParen | .delimiter .closeParen | .delimiter .comma => true
  | _ => false

theorem Kind.isLandmark_of_inValue {k : Kind} (h : k.inValue = true) : k.isLandmark = false := by
  unfold inValue at h
  split at h <;> first | rfl | cases h

/-- All tokens are of kinds that occur in expressions and in lists of names. -/
def Values (toks : List Token) : Prop := ∀ t ∈ toks, t.kind.inValue = true

@[simp] theorem values_nil : Values [] := List.forall_mem_nil _

@[simp] theorem values_cons {t : Token} {toks : List Token} :
    Values (t :: toks) ↔ t.kind.inValue = true ∧ Values toks := List.forall_mem_cons

@[simp] theorem values_append {a b : List Token} : Values (a ++ b) ↔ Values a ∧ Values b :=
  List.forall_mem_append

theorem CommaEach.values {xs : List (List Token × α)} {toks : List Token} (h : CommaEach xs toks)
    (hx : ∀ x ∈ xs, Values x.1) : Values toks := by
  induction h with
  | nil => exact values_nil
  | cons ht _ ih =>
    obtain ⟨hfirst, hrest⟩ := List.forall_mem_cons.mp hx
    simp [ht, Kind.inValue, hfirst, ih hrest]

theorem Listed.values {xs : List (List Token × α)} {toks : List Token} (h : Listed xs toks)
    (hx : ∀ x ∈ xs, Values x.1) : Values toks := by
  cases h with
  | none => exact values_nil
  | some h =>
    obtain ⟨hfirst, hrest⟩ := List.forall_mem_cons.mp hx
    exact values_append.mpr ⟨hfirst, h.values hrest⟩

theorem ExprSpelled.values {rows : List (List BinaryOp)} {toks : List Token} {e : Expr}
    (h : ExprSpelled rows toks e) : Values toks := by
  induction h with
  | tighter _ ih => exact ih
  | binary _ ht _ _ iha ihb => simp [ht, Kind.inValue, iha, ihb]
  | @unary _ op _ _ ht _ ih => cases op <;> simp [ht, UnaryOp.kind, Kind.inValue, ih]
  | @literal _ v ht => cases v <;> simp [ht, Literal.kind, Kind.inValue]
  | var ht => simp [ht, Kind.inValue]
  | call ht ho _ hl hc ih => simp [ht, ho, hc, Kind.inValue, hl.values ih]
  | parens ho _ hc ih => simp [ho, hc, Kind.inValue, ih]

theorem ParamSpelled.values {toks : List Token} {x : Param} (h : ParamSpelled toks x) :
    Values toks := by
  cases h with
  | mk ht => simp [ht, Kind.inValue]

theorem EnclosedSpelled.values {toks : List Token} {e : Expr} (h : EnclosedSpelled toks e) :
    Values toks := by
  cases h with
  | mk ho he hc => simp [ho, hc, Kind.inValue, he.values]

end MeowScript
