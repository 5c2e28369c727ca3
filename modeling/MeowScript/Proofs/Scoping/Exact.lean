import Mathlib.Data.List.Nodup
import MeowScript.Check.Statement
import MeowScript.Proofs.Scoping.Retype
import MeowScript.Proofs.Scoping.Rules

/-!
# Scopes are checked exactly

The checker's scopes and the declarations in force are walked side by side. As long as there is no
fault of scoping, each of its scopes knows what is declared there and nothing else; the types of the
symbols, which change on the way, play no part. So a statement is reported where it breaks the
rules, and only there. Behind a fault the two may differ, but then the program is not well scoped
whatever follows.

Results:
* `Mirrors.lookup`: both sides give a name the same meaning.
* `Expr.check_scoped`, `Stmt.check_scoped`: one expression, one statement.
* `scoping_exact`: a program has no fault of scoping if and only if it is well scoped.
-/
namespace MeowScript

/-! ## Faults -/

/-- Whether the fault is about names and scopes, and not about types. -/
def SemanticFault.isScoping : SemanticFault → Bool
  | undeclared _ | redeclaration _ _ | undefinedFunction _ | notAFunction _ | functionAsValue _
  | argumentCount _ _ _ | returnOutsideFunction | assignToFunction _ => true
  | operandTypes _ _ _ | unaryOperandType _ _ | assignmentType _ _ _
  | inconsistentReturn _ _ _ => false

/-- No fault is about names and scopes. -/
def Unscoping (faults : Faults) : Prop := ∀ f ∈ faults, f.cause.isScoping = false

namespace Unscoping

@[simp] theorem nil : Unscoping [] := nofun

@[simp] theorem append_iff {a b : Faults} : Unscoping (a ++ b) ↔ Unscoping a ∧ Unscoping b :=
  List.forall_mem_append

@[simp] theorem singleton_iff {f : SemanticFault} {p : Position} :
    Unscoping [⟨f, p⟩] ↔ f.isScoping = false := by
  simp [Unscoping]

@[simp] theorem faultUnless_iff {ok : Bool} {f : SemanticFault} {p : Position} :
    Unscoping (faultUnless ok f p) ↔ ok = true ∨ f.isScoping = false := by
  cases ok <;> simp [faultUnless]

end Unscoping

theorem redeclared_scoping (name : String) (p : Position) (existing : Symbol) :
    ¬ Unscoping (Checker.redeclared name p existing) := by
  simp [Checker.redeclared, SemanticFault.isScoping]

/-! ## Scopes and declarations -/

/-- What a symbol is declared as. -/
def Symbol.meaning (x : Symbol) : Meaning :=
  if x.isFunction then .function x.arity else .variable

/-- The scope knows what is declared, and nothing else. -/
def Scope.Holds (s : Scope) (ds : Declarations) : Prop :=
  ∀ name, (s.symbol? name).map Symbol.meaning = ds.lookup name

namespace Scope.Holds

variable {s : Scope} {ds : Declarations}

theorem empty : Holds [] [] := fun _ => rfl

/-- The type of a symbol does not matter. -/
theorem retype (h : s.Holds ds) (name : String) (ty : Ty) : (s.retype name ty).Holds ds := by
  intro x
  rw [← h x, symbol?_retype, Option.map_map]
  congr 1
  funext y
  simp only [Function.comp_apply]
  split <;> rfl

theorem declare (h : s.Holds ds) {x : Symbol} (hs : s.symbol? x.name = none) :
    Holds (s ++ [x]) (ds ++ [(x.name, x.meaning)]) := by
  intro name
  rw [symbol?_append, symbol?_singleton, List.lookup_append, ← h name]
  by_cases hn : x.name = name
  · subst hn
    simp [hs]
  · have hne : (name == x.name) = false := beq_false_of_ne (Ne.symm hn)
    simp [hn, List.lookup_cons, hne]

end Scope.Holds

/-- Another declaration leaves names declared once if the name is new. -/
theorem Declarations.once_snoc {ds : Declarations} (h : ds.names.Nodup) (name : String)
    (m : Meaning) : (names (ds ++ [(name, m)])).Nodup ↔ ds.lookup name = none := by
  have hnames : names (ds ++ [(name, m)]) = ds.names ++ [name] := List.map_append
  rw [hnames, List.nodup_append_comm, List.singleton_append, List.nodup_cons,
    List.lookup_eq_none_iff]
  simp only [names, List.mem_map, bne_iff_ne, ne_eq]
  exact ⟨fun hn p hp he => hn.1 ⟨p, hp, he.symm⟩,
    fun hn => ⟨fun ⟨p, hp, he⟩ => hn p hp he.symm, h⟩⟩

/-- The checker's scopes hold the declarations in force. -/
structure Mirrors (c : Checker) (r : Surroundings) : Prop where
  scopes : List.Forall₂ Scope.Holds c.scopes.stack (r.inner :: r.outer)
  once : r.inner.names.Nodup
  inFunction : c.inside.isSome = r.inFunction

/-- What was checked has no fault of scoping just in this case, and then the checker's scopes hold
what is in force here. -/
structure Exact {α : Type} (x : Checked α) (ok : Prop) (r : Surroundings) : Prop where
  faults : Unscoping x.faults ↔ ok
  mirrors : Unscoping x.faults → Mirrors x.after r

@[simp] theorem Surroundings.behind_nil (r : Surroundings) : r.behind [] = r := by simp [behind]

/-- Declarations in front of others are declared once with them. -/
theorem Declarations.once_left {ds ds' : Declarations} (h : (names (ds ++ ds')).Nodup) :
    ds.names.Nodup := by
  rw [names, List.map_append] at h
  exact h.of_append_left

namespace Exact

variable {α β : Type} {x : Checked α} {y : Checked β} {ok ok' : Prop} {r r' : Surroundings}
  {c : Checker}

/-- One check after another. -/
theorem append (hx : Exact x ok r) (hy : Unscoping x.faults → Exact y ok' r') :
    Unscoping (x.faults ++ y.faults) ↔ ok ∧ ok' := by
  rw [Unscoping.append_iff]
  constructor
  · rintro ⟨hf, hf'⟩
    exact ⟨hx.faults.mp hf, (hy hf).faults.mp hf'⟩
  · rintro ⟨h, h'⟩
    have hf := hx.faults.mpr h
    exact ⟨hf, (hy hf).faults.mpr h'⟩

theorem mirrors_append (hy : Unscoping x.faults → Exact y ok' r')
    (hf : Unscoping (x.faults ++ y.faults)) : Mirrors y.after r' := by
  obtain ⟨hf, hf'⟩ := Unscoping.append_iff.mp hf
  exact (hy hf).mirrors hf'

/-- A statement that declares nothing. -/
theorem plain (hx : Exact x ok r) (h : Mirrors c r) :
    Exact x ((r.inner ++ []).names.Nodup ∧ ok) (r.behind []) := by
  rw [List.append_nil, Surroundings.behind_nil]
  exact ⟨hx.faults.trans (and_iff_right h.once).symm, hx.mirrors⟩

end Exact

namespace Mirrors

variable {c c' : Checker} {r : Surroundings}

theorem start : Mirrors .start .start := ⟨.cons .empty .nil, List.nodup_nil, rfl⟩

/-- Both sides give a name the same meaning. -/
theorem lookup (h : Mirrors c r) (name : String) :
    (c.scopes.lookup name).map Symbol.meaning = r.meaning name := by
  have hstack := h.scopes
  rw [Scopes.lookup, Surroundings.meaning]
  generalize c.scopes.stack = ss at hstack
  generalize r.inner :: r.outer = dss at hstack
  induction hstack with
  | nil => rfl
  | @cons s ds _ _ hs _ ih =>
    rw [List.findSome?_cons, List.findSome?_cons, ← hs name]
    cases s.symbol? name with
    | some x => rfl
    | none => exact ih

theorem enter (h : Mirrors c r) : Mirrors c.enter r.block :=
  ⟨.cons .empty h.scopes, List.nodup_nil, h.inFunction⟩

/-- Without the innermost scope, those around it are left. -/
theorem outer (h : Mirrors c r) : List.Forall₂ Scope.Holds c.exit.scopes.stack r.outer := by
  obtain ⟨_, _, _, ht, hstack⟩ := List.forall₂_cons_right_iff.mp h.scopes
  simp only [Checker.exit, Scopes.exit, hstack, List.tail_cons]
  exact ht

/-- Leaving a block. -/
theorem exit (h : Mirrors c r) {ds : Declarations} (h' : Mirrors c' (r.block.behind ds)) :
    Mirrors c'.exit r :=
  ⟨h'.outer, h.once, h'.inFunction⟩

theorem retype (h : Mirrors c r) (name : String) (ty : Ty) :
    Mirrors { c with scopes := c.scopes.retype name ty } r :=
  ⟨Scopes.forall₂_retype (fun hs => hs.retype name ty) h.scopes, h.once, h.inFunction⟩

theorem retypeAt (h : Mirrors c r) (depth : Nat) (name : String) (ty : Ty) :
    Mirrors { c with scopes := c.scopes.retypeAt depth name ty } r :=
  ⟨Scopes.forall₂_retypeAt (fun hs => hs.retype name ty) depth h.scopes, h.once, h.inFunction⟩

/-- A declaration is accepted if it is the first of its name. -/
theorem declare_ok (h : Mirrors c r) {x : Symbol} {u : Scopes} (hu : c.scopes.declare x = .ok u) :
    (r.inner ++ [(x.name, x.meaning)]).names.Nodup ∧
      List.Forall₂ Scope.Holds u.stack ((r.inner ++ [(x.name, x.meaning)]) :: r.outer) := by
  have hstack := h.scopes
  rcases Scopes.declare_ok hu with ⟨he, -⟩ | ⟨s, outer, he, hnone, rfl⟩
  · rw [he] at hstack
    cases hstack
  · rw [he] at hstack
    cases hstack with
    | cons hs ht =>
      refine ⟨(Declarations.once_snoc h.once _ _).mpr ?_, ?_⟩
      · rw [← hs, hnone, Option.map_none]
      · exact .cons (hs.declare (x := { x with depth := outer.length }) hnone) ht

theorem declare_error (h : Mirrors c r) {x existing : Symbol}
    (he : c.scopes.declare x = .error existing) :
    ¬ (r.inner ++ [(x.name, x.meaning)]).names.Nodup := by
  have hstack := h.scopes
  unfold Scopes.declare at he
  split at he
  · cases he
  · next s outer hs =>
    rw [hs] at hstack
    cases hstack with
    | cons hholds _ =>
      split at he
      · next y hy =>
        rw [Declarations.once_snoc h.once, ← hholds, hy]
        exact nofun
      · cases he

theorem declareVar (h : Mirrors c r) (name : String) (ty : Ty) (p : Position) :
    Exact (c.declareVar name ty p) (r.inner ++ [(name, Meaning.variable)]).names.Nodup
      (r.behind [(name, .variable)]) := by
  unfold Checker.declareVar
  dsimp only
  split
  · next u hu =>
    obtain ⟨honce, hstack⟩ := h.declare_ok hu
    exact ⟨iff_of_true .nil honce, fun _ => ⟨hstack, honce, h.inFunction⟩⟩
  · next existing he =>
    have hfault := redeclared_scoping name p existing
    exact ⟨iff_of_false hfault (h.declare_error he), fun hf => absurd hf hfault⟩

theorem declareParams {c : Checker} {r : Surroundings} (h : Mirrors c r) (params : List Param) :
    Exact (c.declareParams params) (r.inner ++ Param.declarations params).names.Nodup
      (r.behind (Param.declarations params)) := by
  induction params generalizing c r with
  | nil =>
    rw [Checker.declareParams]
    simp only [Param.declarations, List.map_nil, List.append_nil, Surroundings.behind_nil]
    exact ⟨iff_of_true .nil h.once, fun _ => h⟩
  | cons x params ih =>
    have hfirst := h.declareVar x.name .unknown x.position
    have hjoin : r.inner ++ Param.declarations (x :: params) =
        (r.behind [(x.name, .variable)]).inner ++ Param.declarations params := by
      simp [Param.declarations, Surroundings.behind]
    have hbehind : r.behind (Param.declarations (x :: params)) =
        (r.behind [(x.name, .variable)]).behind (Param.declarations params) := by
      simp [Param.declarations, Surroundings.behind]
    rw [Checker.declareParams, hjoin, hbehind]
    have hrest := fun hf => ih (hfirst.mirrors hf)
    refine ⟨(hfirst.append hrest).trans ?_, Exact.mirrors_append hrest⟩
    exact and_iff_right_of_imp Declarations.once_left

theorem store (h : Mirrors c r) (name : String) (found : Ty) (p : Position)
    (target : Option Symbol) : Exact (c.store name found p target) True r := by
  unfold Checker.store
  split
  · exact ⟨iff_of_true .nil trivial, fun _ => h⟩
  · split
    · exact ⟨iff_of_true .nil trivial, fun _ => h⟩
    · split
      · exact ⟨iff_of_true .nil trivial, fun _ => h.retype name found⟩
      · exact ⟨iff_of_true (by simp [SemanticFault.isScoping]) trivial, fun _ => h⟩

theorem bring (h : Mirrors c r) (found : Ty) (p : Position) :
    Exact (c.bring found p) (r.inFunction = true) r := by
  rw [← h.inFunction]
  unfold Checker.bring
  split
  · next hi =>
    have hfault : ¬ Unscoping [⟨.returnOutsideFunction, p⟩] := by simp [SemanticFault.isScoping]
    exact ⟨iff_of_false hfault (by simp [hi]), fun hf => absurd hf hfault⟩
  · next name depth hi =>
    have hin : c.inside.isSome = true := by rw [hi]; rfl
    split
    · exact ⟨iff_of_true .nil hin, fun _ => h⟩
    · split
      · exact ⟨iff_of_true .nil hin, fun _ => h⟩
      · split
        · exact ⟨iff_of_true .nil hin, fun _ => h.retypeAt depth name found⟩
        · exact ⟨iff_of_true (by simp [SemanticFault.isScoping]) hin, fun _ => h⟩

end Mirrors

/-! ## Expressions -/

theorem callFaults_iff {name : String} {count : Nat} {p : Position} {o : Option Symbol} :
    Unscoping (callFaults name count p o) ↔ o.map Symbol.meaning = some (.function count) := by
  cases o with
  | none => simp [callFaults, SemanticFault.isScoping]
  | some s =>
    by_cases hf : s.isFunction <;>
      simp [callFaults, Symbol.meaning, hf, SemanticFault.isScoping]

theorem targetFaults_iff {name : String} {p : Position} {o : Option Symbol} :
    Unscoping (Checker.targetFaults name p o) ↔ o.map Symbol.meaning = some .variable := by
  cases o with
  | none => simp [Checker.targetFaults, SemanticFault.isScoping]
  | some s =>
    by_cases hf : s.isFunction <;>
      simp [Checker.targetFaults, Symbol.meaning, hf, SemanticFault.isScoping]

mutual

theorem Expr.check_scoped {c : Checker} {r : Surroundings} (h : Mirrors c r) : ∀ e : Expr,
    Unscoping (Expr.check c.scopes e).2 ↔ e.WellScoped r
  | .literal _ _ _ => iff_of_true .nil trivial
  | .var name _ p _ => by
    rw [Expr.WellScoped, ← h.lookup name, Expr.check]
    cases c.scopes.lookup name with
    | none => simp [SemanticFault.isScoping]
    | some s => by_cases hf : s.isFunction <;> simp [hf, Symbol.meaning, SemanticFault.isScoping]
  | .binary op left right p _ => by
    simp [Expr.check, Expr.WellScoped, Expr.check_scoped h left, Expr.check_scoped h right,
      SemanticFault.isScoping]
  | .unary op operand p _ => by
    simp [Expr.check, Expr.WellScoped, Expr.check_scoped h operand, SemanticFault.isScoping]
  | .call name args p _ => by
    rw [Expr.check, Expr.WellScoped, ← h.lookup name, Unscoping.append_iff, callFaults_iff,
      Expr.checkAll_scoped h args]

theorem Expr.checkAll_scoped {c : Checker} {r : Surroundings} (h : Mirrors c r) :
    ∀ es : List Expr, Unscoping (Expr.checkAll c.scopes es).2 ↔ Expr.AllWellScoped r es
  | [] => iff_of_true .nil trivial
  | e :: es => by
    simp [Expr.checkAll, Expr.AllWellScoped, Expr.check_scoped h e, Expr.checkAll_scoped h es]

end

/-! ## Statements -/

mutual

theorem Stmt.check_scoped {c : Checker} {r : Surroundings} (h : Mirrors c r) : ∀ s : Stmt,
    Exact (Stmt.check c s) ((r.inner ++ s.declarations).names.Nodup ∧ s.WellScoped r)
      (r.behind s.declarations)
  | .declare name value _ p => by
    have hvalue := Expr.check_scoped h value
    have hname := h.declareVar name (Expr.check c.scopes value).1.ty p
    rw [Stmt.check]
    refine ⟨?_, fun hf => hname.mirrors (Unscoping.append_iff.mp hf).2⟩
    rw [Unscoping.append_iff, hvalue, hname.faults, and_comm]
    rfl
  | .assign name value _ p => by
    have hvalue := Expr.check_scoped h value
    have hstore := h.store name (Expr.check c.scopes value).1.ty p (c.scopes.lookup name)
    refine Exact.plain ?_ h
    rw [Stmt.check]
    refine ⟨?_, fun hf => hstore.mirrors (Unscoping.append_iff.mp hf).2⟩
    rw [Unscoping.append_iff, Unscoping.append_iff, targetFaults_iff, h.lookup, hvalue,
      hstore.faults, and_true, Stmt.WellScoped]
  | .define name params body p => by
    have hmeaning : (Symbol.function name (params.map Param.name) p).meaning =
        .function params.length := by
      simp [Symbol.function, Symbol.meaning, Symbol.isFunction, Symbol.arity]
    rw [Stmt.check]
    split
    · next existing he =>
      have hfault := redeclared_scoping name p existing
      have honce := h.declare_error he
      rw [hmeaning] at honce
      exact ⟨iff_of_false hfault fun hok => honce hok.1, fun hf => absurd hf hfault⟩
    · next scopes hu =>
      obtain ⟨honce, hstack⟩ := h.declare_ok hu
      rw [hmeaning] at honce hstack
      have hinner : Mirrors { c with scopes := scopes.enter, inside := some (name, scopes.depth) }
          ((r.behind [(name, .function params.length)]).body []) :=
        ⟨.cons .empty hstack, List.nodup_nil, rfl⟩
      have hparams := hinner.declareParams params
      have hbody := fun hf => Stmt.checkAll_scoped (hparams.mirrors hf) body
      refine ⟨(hparams.append hbody).trans ?_, fun hf => ?_⟩
      · rw [and_iff_right_of_imp fun hok => Declarations.once_left hok.1]
        exact (and_iff_right honce).symm
      · -- behind the function its own scope is left, and the function around it is back
        have hleft := Exact.mirrors_append hbody hf
        exact ⟨hleft.outer, honce, h.inFunction⟩
  | .call name args p => by
    refine Exact.plain ?_ h
    rw [Stmt.check]
    refine ⟨?_, fun _ => h⟩
    rw [Unscoping.append_iff, callFaults_iff, h.lookup, Expr.checkAll_scoped h args,
      Stmt.WellScoped]
  | .ifThen condition body p => by
    have hbody := Stmt.checkAll_scoped h.enter body
    refine Exact.plain ?_ h
    rw [Stmt.check]
    refine ⟨?_, fun hf => h.exit (hbody.mirrors (Unscoping.append_iff.mp hf).2)⟩
    rw [Unscoping.append_iff, Expr.check_scoped h condition, hbody.faults, Stmt.WellScoped]
    rfl
  | .ifElse condition body otherwise p => by
    have hbody := Stmt.checkAll_scoped h.enter body
    have hother := fun hf => Stmt.checkAll_scoped (h.exit (hbody.mirrors hf)).enter otherwise
    refine Exact.plain ?_ h
    rw [Stmt.check]
    simp only [List.append_assoc]
    refine ⟨?_, fun hf => ?_⟩
    · rw [Unscoping.append_iff, Expr.check_scoped h condition, hbody.append hother,
        Stmt.WellScoped]
      rfl
    · have hblocks := (Unscoping.append_iff.mp hf).2
      exact h.exit (Exact.mirrors_append hother hblocks)
  | .loop condition body p => by
    have hbody := Stmt.checkAll_scoped h.enter body
    refine Exact.plain ?_ h
    rw [Stmt.check]
    refine ⟨?_, fun hf => h.exit (hbody.mirrors (Unscoping.append_iff.mp hf).2)⟩
    rw [Unscoping.append_iff, Expr.check_scoped h condition, hbody.faults, Stmt.WellScoped]
    rfl
  | .bring value p => by
    have hbring := h.bring (Expr.check c.scopes value).1.ty p
    refine Exact.plain ?_ h
    rw [Stmt.check]
    refine ⟨?_, fun hf => hbring.mirrors (Unscoping.append_iff.mp hf).2⟩
    rw [Unscoping.append_iff, Expr.check_scoped h value, hbring.faults, Stmt.WellScoped]
  | .print value p => by
    refine Exact.plain ?_ h
    rw [Stmt.check]
    exact ⟨by rw [Expr.check_scoped h value, Stmt.WellScoped], fun _ => h⟩

theorem Stmt.checkAll_scoped {c : Checker} {r : Surroundings} (h : Mirrors c r) :
    ∀ ss : List Stmt, Exact (Stmt.checkAll c ss)
      ((r.inner ++ Stmt.allDeclarations ss).names.Nodup ∧ Stmt.AllWellScoped r ss)
      (r.behind (Stmt.allDeclarations ss))
  | [] => by
    refine Exact.plain ?_ h
    exact ⟨iff_of_true .nil trivial, fun _ => h⟩
  | s :: ss => by
    have hs := Stmt.check_scoped h s
    have hss := fun hf => Stmt.checkAll_scoped (hs.mirrors hf) ss
    have hjoin : r.inner ++ Stmt.allDeclarations (s :: ss) =
        (r.behind s.declarations).inner ++ Stmt.allDeclarations ss := by
      simp [Stmt.allDeclarations, Surroundings.behind]
    have hbehind : r.behind (Stmt.allDeclarations (s :: ss)) =
        (r.behind s.declarations).behind (Stmt.allDeclarations ss) := by
      simp [Stmt.allDeclarations, Surroundings.behind]
    rw [Stmt.checkAll, hjoin, hbehind]
    refine ⟨(hs.append hss).trans ?_, Exact.mirrors_append hss⟩
    rw [Stmt.AllWellScoped]
    constructor
    · rintro ⟨⟨-, hone⟩, honce, hrest⟩
      exact ⟨honce, hone, hrest⟩
    · rintro ⟨honce, hone, hrest⟩
      exact ⟨⟨Declarations.once_left honce, hone⟩, honce, hrest⟩

end

/-! ## Programs -/

/-- **Main.** The check of a program reports nothing undeclared, declared twice, called or used as
what it is not, called with another number of arguments or brought outside of a function if and only
if the program is lexically well scoped. -/
theorem scoping_exact (p : Program) :
    (∀ faults, p.check = .error faults → ∀ f ∈ faults, f.cause.isScoping = false) ↔
      p.WellScoped := by
  have hbody := (Stmt.checkAll_scoped .start p.body).faults
  rw [Surroundings.start, List.nil_append] at hbody
  refine Iff.trans ?_ hbody
  rw [Program.check]
  split
  · next hnone =>
    rw [hnone]
    exact iff_of_true nofun .nil
  · next faults hsome =>
    exact ⟨fun h => h _ rfl, fun h faults hf => Except.error.inj hf ▸ h⟩

end MeowScript
