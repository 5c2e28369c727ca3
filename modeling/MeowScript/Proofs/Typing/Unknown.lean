import MeowScript.Check.Statement

/-!
# Unknown types and type faults

A type is unknown where an earlier fault, a parameter or a function that has not brought anything
leaves it open. Four faults name types that do not go together. None of them is reported of an
unknown type, whichever side it is on, so one mistake is reported once.

Results:
* `Ty.known_of_clash`, `UnaryOp.known_of_clash`: types that do not go together are known.
* `Expr.check_known`, `Stmt.check_known`: the types that faults name.
* `Checker.lenient`: what an unknown type adds, in any state of the check.
* `unknown_never_clashes`: every fault of every program.
-/
namespace MeowScript

/-! ## Types that do not go together -/

/-- Where an unknown type fits on either side, types that do not fit are known. -/
theorem Ty.known_of_clash {fits : Ty → Ty → Bool} (hleft : ∀ t, fits .unknown t = true)
    (hright : ∀ t, fits t .unknown = true) {a b : Ty} (h : fits a b = false) :
    a ≠ .unknown ∧ b ≠ .unknown := by
  constructor
  · rintro rfl
    rw [hleft] at h
    cases h
  · rintro rfl
    rw [hright] at h
    cases h

theorem UnaryOp.takes_unknown (op : UnaryOp) : op.takes .unknown = true := by cases op <;> rfl

theorem UnaryOp.known_of_clash {op : UnaryOp} {operand : Ty} (h : op.takes operand = false) :
    operand ≠ .unknown := by
  rintro rfl
  rw [UnaryOp.takes_unknown] at h
  cases h

/-! ## Type faults -/

/-- The types that do not go together, if that is the fault. -/
def SemanticFault.types : SemanticFault → List Ty
  | .operandTypes _ left right => [left, right]
  | .unaryOperandType _ operand => [operand]
  | .assignmentType _ expected found => [expected, found]
  | .inconsistentReturn _ expected found => [expected, found]
  | _ => []

def SemanticFault.isTypeFault (f : SemanticFault) : Bool := !f.types.isEmpty

/-- The faults that name types. -/
def typeFaults (fs : Faults) : Faults := fs.filter fun f => f.cause.isTypeFault

/-- All types that the faults name are known. -/
def AllKnown (fs : Faults) : Prop := ∀ f ∈ fs, Ty.unknown ∉ f.cause.types

@[simp] theorem typeFaults_append (fs gs : Faults) :
    typeFaults (fs ++ gs) = typeFaults fs ++ typeFaults gs := List.filter_append fs gs

@[simp] theorem allKnown_append {fs gs : Faults} :
    AllKnown (fs ++ gs) ↔ AllKnown fs ∧ AllKnown gs := List.forall_mem_append

theorem allKnown_nil : AllKnown [] := List.forall_mem_nil _

theorem allKnown_of_typeFaults {fs : Faults} (h : typeFaults fs = []) : AllKnown fs := by
  intro f hf
  have hnone := List.filter_eq_nil_iff.mp h f hf
  simp only [SemanticFault.isTypeFault, Bool.not_eq_true', Bool.not_eq_false,
    List.isEmpty_iff] at hnone
  rw [hnone]
  exact List.not_mem_nil

theorem allKnown_faultUnless {ok : Bool} {f : SemanticFault} {p : Position}
    (h : ok = false → Ty.unknown ∉ f.types) : AllKnown (faultUnless ok f p) := by
  cases ok with
  | true => exact allKnown_nil
  | false => exact List.forall_mem_singleton.mpr (h rfl)

theorem typeFaults_callFaults (name : String) (count : Nat) (p : Position)
    (callee : Option Symbol) : typeFaults (callFaults name count p callee) = [] := by
  cases callee with
  | none => rfl
  | some s =>
    rw [callFaults, faultUnless]
    split
    · split <;> rfl
    · rfl

/-! ## Expressions -/

mutual

theorem Expr.check_known (t : Scopes) : ∀ e : Expr, AllKnown (Expr.check t e).2
  | .literal v p note => allKnown_nil
  | .var name storage p ty => by
    refine allKnown_of_typeFaults ?_
    unfold Expr.check
    split
    · rfl
    · split <;> rfl
  | .binary op left right p note => by
    simp only [Expr.check, allKnown_append]
    refine ⟨⟨Expr.check_known t left, Expr.check_known t right⟩, ?_⟩
    refine allKnown_faultUnless fun hclash => ?_
    obtain ⟨hleft, hright⟩ := Ty.known_of_clash op.takes_unknown_left op.takes_unknown_right hclash
    simp [SemanticFault.types, hleft.symm, hright.symm]
  | .unary op operand p note => by
    simp only [Expr.check, allKnown_append]
    refine ⟨Expr.check_known t operand, allKnown_faultUnless fun hclash => ?_⟩
    have hknown := UnaryOp.known_of_clash hclash
    simp [SemanticFault.types, hknown.symm]
  | .call name args p note => by
    simp only [Expr.check, allKnown_append]
    exact ⟨allKnown_of_typeFaults (typeFaults_callFaults _ _ _ _), Expr.checkAll_known t args⟩

theorem Expr.checkAll_known (t : Scopes) : ∀ es : List Expr, AllKnown (Expr.checkAll t es).2
  | [] => allKnown_nil
  | e :: es => by
    simp only [Expr.checkAll, allKnown_append]
    exact ⟨Expr.check_known t e, Expr.checkAll_known t es⟩

end

/-! ## Statements -/

namespace Checker

theorem typeFaults_redeclared (name : String) (p : Position) (existing : Symbol) :
    typeFaults (redeclared name p existing) = [] := rfl

theorem typeFaults_declareVar (c : Checker) (name : String) (ty : Ty) (p : Position) :
    typeFaults (c.declareVar name ty p).faults = [] := by
  unfold declareVar
  dsimp only
  split
  · rfl
  · exact typeFaults_redeclared _ _ _

theorem typeFaults_declareParams (c : Checker) (params : List Param) :
    typeFaults (c.declareParams params).faults = [] := by
  induction params generalizing c with
  | nil => rfl
  | cons x xs ih => simp [declareParams, typeFaults_declareVar, ih]

theorem typeFaults_targetFaults (name : String) (p : Position) (target : Option Symbol) :
    typeFaults (targetFaults name p target) = [] := by
  cases target with
  | none => rfl
  | some s =>
    rw [targetFaults]
    split <;> rfl

theorem store_known (c : Checker) (name : String) (found : Ty) (p : Position)
    (target : Option Symbol) : AllKnown (c.store name found p target).faults := by
  cases target with
  | none => exact allKnown_nil
  | some s =>
    rw [store]
    split
    · exact allKnown_nil
    split
    · exact allKnown_nil
    refine allKnown_faultUnless fun hmisfit => ?_
    obtain ⟨hdeclared, hfound⟩ := Ty.known_of_clash Ty.unknown_accepts Ty.accepts_unknown hmisfit
    simp [SemanticFault.types, hdeclared.symm, hfound.symm]

theorem bring_known (c : Checker) (found : Ty) (p : Position) :
    AllKnown (c.bring found p).faults := by
  unfold bring
  split
  · exact allKnown_of_typeFaults rfl
  · split
    · exact allKnown_nil
    · split
      · exact allKnown_nil
      · split
        · exact allKnown_nil
        · refine allKnown_faultUnless fun hunlike => ?_
          obtain ⟨hearlier, hfound⟩ :=
            Ty.known_of_clash Ty.unknown_comparable Ty.comparable_unknown hunlike
          simp [SemanticFault.types, hearlier.symm, hfound.symm]

/-- Storing in a variable, or from a value, of unknown type. -/
theorem typeFaults_store {c : Checker} {name : String} {found : Ty} {p : Position}
    {target : Option Symbol} (h : (∃ s, target = some s ∧ s.ty = .unknown) ∨ found = .unknown) :
    typeFaults (c.store name found p target).faults = [] := by
  cases target with
  | none => rfl
  | some s =>
    rw [store]
    split
    · rfl
    split
    · rfl
    · next hknown =>
      rcases h with ⟨u, hu, hopen⟩ | rfl
      · exact absurd (Option.some.inj hu ▸ hopen) hknown
      · simp [faultUnless, typeFaults]

/-- Bringing a value of unknown type. -/
theorem typeFaults_bring (c : Checker) (p : Position) :
    typeFaults (c.bring .unknown p).faults = [] := by
  unfold bring
  split
  · rfl
  · rw [if_pos rfl]
    rfl

end Checker

mutual

theorem Stmt.check_known (c : Checker) : ∀ s : Stmt, AllKnown (Stmt.check c s).faults
  | .declare name value storage p => by
    simp only [Stmt.check, allKnown_append]
    exact ⟨Expr.check_known _ value, allKnown_of_typeFaults (c.typeFaults_declareVar _ _ _)⟩
  | .assign name value storage p => by
    simp only [Stmt.check, allKnown_append]
    exact ⟨⟨allKnown_of_typeFaults (Checker.typeFaults_targetFaults _ _ _),
      Expr.check_known _ value⟩, c.store_known _ _ _ _⟩
  | .define name params body p => by
    rw [Stmt.check]
    split
    · exact allKnown_of_typeFaults (Checker.typeFaults_redeclared _ _ _)
    · simp only [allKnown_append]
      exact ⟨allKnown_of_typeFaults (Checker.typeFaults_declareParams _ params),
        Stmt.checkAll_known _ body⟩
  | .call name args p => by
    simp only [Stmt.check, allKnown_append]
    exact ⟨allKnown_of_typeFaults (typeFaults_callFaults _ _ _ _), Expr.checkAll_known _ args⟩
  | .ifThen condition body p | .loop condition body p => by
    simp only [Stmt.check, allKnown_append]
    exact ⟨Expr.check_known _ condition, Stmt.checkAll_known _ body⟩
  | .ifElse condition body otherwise p => by
    simp only [Stmt.check, allKnown_append]
    exact ⟨⟨Expr.check_known _ condition, Stmt.checkAll_known _ body⟩,
      Stmt.checkAll_known _ otherwise⟩
  | .bring value p => by
    simp only [Stmt.check, allKnown_append]
    exact ⟨Expr.check_known _ value, c.bring_known _ _⟩
  | .print value p => Expr.check_known c.scopes value

theorem Stmt.checkAll_known (c : Checker) : ∀ ss : List Stmt,
    AllKnown (Stmt.checkAll c ss).faults
  | [] => allKnown_nil
  | s :: ss => by
    simp only [Stmt.checkAll, allKnown_append]
    exact ⟨Stmt.check_known c s, Stmt.checkAll_known _ ss⟩

end

/-- What an unknown type adds in this state of the check: an operator, an assignment or a `Bring`
has the type faults of its expressions and none of its own. -/
structure Checker.Lenient (c : Checker) : Prop where
  binary : ∀ op left right p note,
    (Expr.check c.scopes left).1.ty = .unknown ∨ (Expr.check c.scopes right).1.ty = .unknown →
      typeFaults (Expr.check c.scopes (.binary op left right p note)).2 =
        typeFaults (Expr.check c.scopes left).2 ++ typeFaults (Expr.check c.scopes right).2
  unary : ∀ op operand p note, (Expr.check c.scopes operand).1.ty = .unknown →
    typeFaults (Expr.check c.scopes (.unary op operand p note)).2 =
      typeFaults (Expr.check c.scopes operand).2
  assign : ∀ name value storage p,
    (∃ s, c.scopes.lookup name = some s ∧ s.ty = .unknown) ∨
        (Expr.check c.scopes value).1.ty = .unknown →
      typeFaults (Stmt.check c (.assign name value storage p)).faults =
        typeFaults (Expr.check c.scopes value).2
  bring : ∀ value p, (Expr.check c.scopes value).1.ty = .unknown →
    typeFaults (Stmt.check c (.bring value p)).faults = typeFaults (Expr.check c.scopes value).2

theorem Checker.lenient (c : Checker) : c.Lenient where
  binary op left right p note h := by
    have htakes : op.takes (Expr.check c.scopes left).1.ty (Expr.check c.scopes right).1.ty =
        true := by
      rcases h with h | h
      · rw [h, BinaryOp.takes_unknown_left]
      · rw [h, BinaryOp.takes_unknown_right]
    rw [Expr.check, htakes]
    simp [faultUnless]
  unary op operand p note h := by
    rw [Expr.check, h, UnaryOp.takes_unknown]
    simp [faultUnless]
  assign name value storage p h := by
    simp [Stmt.check, Checker.typeFaults_targetFaults, Checker.typeFaults_store h]
  bring value p h := by
    simp [Stmt.check, h, Checker.typeFaults_bring]

/-- **Main.** No fault of a program names an unknown type. In every state of the check, whatever has
led to it, an operator with an operand of unknown type on either side, an assignment of which the
variable or the value has an unknown type, and a `Bring` of such a value add no type fault. -/
theorem unknown_never_clashes :
    (∀ (p : Program) (faults : Faults), p.check = .error faults →
      ∀ f ∈ faults, Ty.unknown ∉ f.cause.types) ∧
    ∀ c : Checker, c.Lenient := by
  refine ⟨fun p faults h => ?_, Checker.lenient⟩
  unfold Program.check at h
  dsimp only at h
  split at h
  · cases h
  · cases h
    exact Stmt.checkAll_known .start p.body

/-- A name that is nowhere declared, and a string to take from it. -/
def ghostly : Expr :=
  .binary .sub (.var "ghost" none ⟨1, 17⟩ .unknown)
    (.literal (.string "s") ⟨1, 25⟩ .unknown) ⟨1, 23⟩ .unknown

/-- Here `y` is open at first; it then takes the type of a string. -/
def haunted : Program :=
  ⟨[.declare "y" ghostly none ⟨1, 6⟩,
    .assign "y" (.literal (.string "t") ⟨1, 36⟩ .unknown) none ⟨1, 29⟩,
    .assign "y" (.literal (.integer 1) ⟨1, 47⟩ .unknown) none ⟨1, 40⟩], ⟨1, 1⟩⟩

theorem unknown_never_clashes_haunted :
    typeFaults (Expr.check .start ghostly).2 = [] ∧
    ∃ faults, haunted.check = .error faults ∧
      faults.map Located.cause = [.undeclared "ghost", .assignmentType "y" .string .integer] ∧
      ∀ f ∈ faults, Ty.unknown ∉ f.cause.types := by
  have hfaults : haunted.check = .error [⟨.undeclared "ghost", ⟨1, 17⟩⟩,
      ⟨.assignmentType "y" .string .integer, ⟨1, 40⟩⟩] := rfl
  obtain ⟨hknown, hlenient⟩ := unknown_never_clashes
  refine ⟨?_, _, hfaults, rfl, hknown _ _ hfaults⟩
  exact (hlenient .start).binary .sub _ _ _ _ (.inl rfl)

end MeowScript
