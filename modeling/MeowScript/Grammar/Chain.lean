import MeowScript.Tree.Basic

/-!
# Precedence on a chain of operands

An expression without its parentheses is a chain: an operand, then operators each with an operand.
`assemble` turns a chain into a tree, one level of precedence after the other. On each level the
chain is cut at the operators of that level, and the segments between them, which hold tighter
operators only, are joined from the left.

Mirrors what the six methods from `parse_or` to `parse_multiplicative` build (parser:344-433): each
reads operands of the next level and joins them from the left.

Results:
* `segments_join`: cutting a chain loses no link.
* `assemble_nil`: a lone operand is its own tree.
-/
namespace MeowScript

/-- An operator at its position and the operand to its right. -/
structure Link where
  op : BinaryOp
  position : Position
  operand : Expr
  deriving Repr

namespace Chain

/-- Cuts a chain at its operators of level `l`: the links before the first of them, and each of
them with the links up to the next. -/
def segments (l : Level) : List Link → List Link × List (Link × List Link)
  | [] => ([], [])
  | k :: ks =>
    let r := segments l ks
    if k.op.level = l then ([], (k, r.1) :: r.2) else (k :: r.1, r.2)

theorem segments_join (l : Level) (ks : List Link) :
    (segments l ks).1 ++ (segments l ks).2.flatMap (fun s => s.1 :: s.2) = ks := by
  induction ks with
  | nil => rfl
  | cons k ks ih =>
    rw [segments]
    split
    · simpa using ih
    · simpa using ih

/-- The tree of the chain that begins with `e`; the levels are given from the loosest on. The node
of an operator is made as `binary` makes it (parser:348-350). -/
def assemble : List Level → Expr → List Link → Expr
  | [], e, _ => e
  | l :: ls, e, ks =>
    let r := segments l ks
    r.2.foldl
      (fun left s => .binary s.1.op left (assemble ls s.1.operand s.2) s.1.position .unknown)
      (assemble ls e r.1)

@[simp] theorem assemble_nil (ls : List Level) (e : Expr) : assemble ls e [] = e := by
  induction ls with
  | nil => rfl
  | cons l ls ih => simpa [assemble, segments] using ih

end Chain
end MeowScript
