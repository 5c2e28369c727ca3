import MeowScript.Check.Statement
import MeowScript.Proofs.Places.Tree

/-!
# Where the check finds faults

The check reports a fault at a node of the tree, and the line it names for an earlier declaration is
that of a node, or of a symbol in the scopes around the tree.

Results:
* `Expr.check_placed`, `Stmt.check_placed`: faults are where the tree and the scopes stand.
* `Program.check_placed`: the same for a program, which is checked in empty scopes.
-/
namespace MeowScript

variable {P : Position → Prop}

/-- The fault is at such a place, and so is the declaration whose line it names. -/
def Placed (P : Position → Prop) (f : Located SemanticFault) : Prop :=
  P f.position ∧ ∀ name line, f.cause = .redeclaration name line → ∃ p, P p ∧ p.line = line

theorem placed_of_ne {cause : SemanticFault} {p : Position} (hp : P p)
    (h : ∀ name line, cause ≠ .redeclaration name line) : Placed P ⟨cause, p⟩ :=
  ⟨hp, fun name line hc => absurd hc (h name line)⟩

theorem faultUnless_placed {ok : Bool} {cause : SemanticFault} {p : Position} (hp : P p)
    (h : ∀ name line, cause ≠ .redeclaration name line) :
    ∀ f ∈ faultUnless ok cause p, Placed P f := by
  cases ok with
  | true => exact List.forall_mem_nil _
  | false => exact List.forall_mem_singleton.mpr (placed_of_ne hp h)

/-! ## Expressions -/

theorem callFaults_placed {name : String} {count : Nat} {p : Position} (hp : P p)
    (callee : Option Symbol) : ∀ f ∈ callFaults name count p callee, Placed P f := by
  cases callee with
  | none => exact List.forall_mem_singleton.mpr (placed_of_ne hp nofun)
  | some s =>
    rw [callFaults]
    split
    · exact faultUnless_placed hp nofun
    · exact List.forall_mem_singleton.mpr (placed_of_ne hp nofun)

theorem Expr.checkAll_each {t : Scopes} {es : List Expr} {Q : Located SemanticFault → Prop}
    (h : ∀ e ∈ es, ∀ f ∈ (Expr.check t e).2, Q f) : ∀ f ∈ (Expr.checkAll t es).2, Q f := by
  induction es with
  | nil => rw [Expr.checkAll]; exact List.forall_mem_nil _
  | cons e es ih =>
    obtain ⟨hfirst, hrest⟩ := List.forall_mem_cons.mp h
    rw [Expr.checkAll]
    exact List.forall_mem_append.mpr ⟨hfirst, ih hrest⟩

theorem Expr.check_placed {e : Expr} (h : e.Stands P) (t : Scopes) :
    ∀ f ∈ (Expr.check t e).2, Placed P f := by
  induction h with
  | literal hp => rw [Expr.check]; exact List.forall_mem_nil _
  | var hp =>
    rw [Expr.check]
    split
    · exact List.forall_mem_singleton.mpr (placed_of_ne hp nofun)
    · split
      · exact List.forall_mem_singleton.mpr (placed_of_ne hp nofun)
      · exact List.forall_mem_nil _
  | binary _ _ hp ihl ihr =>
    rw [Expr.check]
    simp only [List.forall_mem_append]
    exact ⟨⟨ihl, ihr⟩, faultUnless_placed hp nofun⟩
  | unary _ hp ih =>
    rw [Expr.check]
    exact List.forall_mem_append.mpr ⟨ih, faultUnless_placed hp nofun⟩
  | call _ hp ih =>
    rw [Expr.check]
    exact List.forall_mem_append.mpr ⟨callFaults_placed hp _, Expr.checkAll_each ih⟩

theorem Expr.checkAll_placed {es : List Expr} (h : ∀ e ∈ es, e.Stands P) (t : Scopes) :
    ∀ f ∈ (Expr.checkAll t es).2, Placed P f :=
  Expr.checkAll_each fun e he => Expr.check_placed (h e he) t

/-! ## Scopes -/

namespace Scopes

/-- Every symbol is declared at such a place. -/
def Stand (P : Position → Prop) (t : Scopes) : Prop := ∀ s ∈ t.stack, ∀ x ∈ s, P x.position

theorem stand_start : start.Stand P := by simp [Stand, start]

variable {t : Scopes}

theorem Stand.enter (h : t.Stand P) : t.enter.Stand P :=
  List.forall_mem_cons.mpr ⟨List.forall_mem_nil _, h⟩

theorem Stand.exit (h : t.Stand P) : t.exit.2.Stand P := fun s hs => h s (List.mem_of_mem_tail hs)

/-- A symbol that can be declared stands with the others, and one that is taken is among them. -/
theorem Stand.declare (h : t.Stand P) {x : Symbol} (hx : P x.position) :
    match t.declare x with
    | .ok u => u.Stand P
    | .error existing => P existing.position := by
  obtain ⟨stack⟩ := t
  cases stack with
  | nil => exact h
  | cons s outer =>
    obtain ⟨hs, houter⟩ := List.forall_mem_cons.mp h
    simp only [Scopes.declare]
    cases hsymbol : s.symbol? x.name with
    | some existing => exact hs existing (List.mem_of_find?_eq_some hsymbol)
    | none =>
      refine List.forall_mem_cons.mpr ⟨List.forall_mem_append.mpr ⟨hs, ?_⟩, houter⟩
      exact List.forall_mem_singleton.mpr hx

theorem stand_scope_retype {s : Scope} (h : ∀ x ∈ s, P x.position) (name : String) (ty : Ty) :
    ∀ x ∈ s.retype name ty, P x.position := by
  refine List.forall_mem_map.mpr fun x hx => ?_
  split <;> exact h x hx

theorem Stand.retype (h : t.Stand P) (name : String) (ty : Ty) : (t.retype name ty).Stand P := by
  obtain ⟨stack⟩ := t
  show ∀ s ∈ retype.go name ty stack, _
  induction stack with
  | nil => exact List.forall_mem_nil _
  | cons s outer ih =>
    obtain ⟨hs, houter⟩ := List.forall_mem_cons.mp h
    rw [retype.go]
    split
    · exact List.forall_mem_cons.mpr ⟨stand_scope_retype hs name ty, houter⟩
    · exact List.forall_mem_cons.mpr ⟨hs, ih houter⟩

theorem Stand.retypeAt (h : t.Stand P) (depth : Nat) (name : String) (ty : Ty) :
    (t.retypeAt depth name ty).Stand P := by
  obtain ⟨stack⟩ := t
  show ∀ s ∈ retypeAt.go depth name ty stack, _
  induction stack with
  | nil => exact List.forall_mem_nil _
  | cons s outer ih =>
    obtain ⟨hs, houter⟩ := List.forall_mem_cons.mp h
    rw [retypeAt.go]
    split
    · exact List.forall_mem_cons.mpr ⟨stand_scope_retype hs name ty, houter⟩
    · exact List.forall_mem_cons.mpr ⟨hs, ih houter⟩

end Scopes

/-! ## Statements -/

/-- What a check leaves: scopes that stand at such places, and faults that are placed there. -/
structure Checked.Placed {α : Type} (P : Position → Prop) (r : Checked α) : Prop where
  scopes : r.after.scopes.Stand P
  faults : ∀ f ∈ r.faults, MeowScript.Placed P f

namespace Checker

theorem redeclared_placed {name : String} {existing : Symbol} {p : Position} (hp : P p)
    (he : P existing.position) : ∀ f ∈ redeclared name p existing, Placed P f := by
  refine List.forall_mem_singleton.mpr ⟨hp, fun _ _ hc => ?_⟩
  cases hc
  exact ⟨_, he, rfl⟩

theorem targetFaults_placed {name : String} {p : Position} (hp : P p) (target : Option Symbol) :
    ∀ f ∈ targetFaults name p target, Placed P f := by
  cases target with
  | none => exact List.forall_mem_singleton.mpr (placed_of_ne hp nofun)
  | some s =>
    rw [targetFaults]
    split
    · exact List.forall_mem_singleton.mpr (placed_of_ne hp nofun)
    · exact List.forall_mem_nil _

section
variable {c : Checker} (h : c.scopes.Stand P) {p : Position} (hp : P p)
include h hp

theorem declareVar_placed (name : String) (ty : Ty) : (c.declareVar name ty p).Placed P := by
  have hdeclare := h.declare
    (x := { Symbol.var name ty p with storage := storageFor name (c.declared.count name) }) hp
  unfold declareVar
  dsimp only
  split
  · next scopes hs =>
    rw [hs] at hdeclare
    exact ⟨hdeclare, List.forall_mem_nil _⟩
  · next existing hs =>
    rw [hs] at hdeclare
    exact ⟨h, redeclared_placed hp hdeclare⟩

theorem store_placed (name : String) (found : Ty) (target : Option Symbol) :
    (c.store name found p target).Placed P := by
  cases target with
  | none => exact ⟨h, List.forall_mem_nil _⟩
  | some s =>
    rw [store]
    split
    · exact ⟨h, List.forall_mem_nil _⟩
    · split
      · exact ⟨h.retype name found, List.forall_mem_nil _⟩
      · exact ⟨h, faultUnless_placed hp nofun⟩

theorem bring_placed (found : Ty) : (c.bring found p).Placed P := by
  unfold bring
  split
  · exact ⟨h, List.forall_mem_singleton.mpr (placed_of_ne hp nofun)⟩
  · next name depth _ =>
    split
    · exact ⟨h, List.forall_mem_nil _⟩
    · split
      · exact ⟨h, List.forall_mem_nil _⟩
      · split
        · exact ⟨h.retypeAt depth name found, List.forall_mem_nil _⟩
        · exact ⟨h, faultUnless_placed hp nofun⟩

end

theorem declareParams_placed {c : Checker} (h : c.scopes.Stand P) {xs : List Param}
    (hx : ∀ x ∈ xs, P x.position) : (c.declareParams xs).Placed P := by
  induction xs generalizing c with
  | nil => exact ⟨h, List.forall_mem_nil _⟩
  | cons x xs ih =>
    obtain ⟨hfirst, hrest⟩ := List.forall_mem_cons.mp hx
    have hone := declareVar_placed h hfirst x.name .unknown
    have hmore := ih hone.scopes hrest
    exact ⟨hmore.scopes, List.forall_mem_append.mpr ⟨hone.faults, hmore.faults⟩⟩

end Checker

theorem Stmt.checkAll_each {ss : List Stmt}
    (hs : ∀ s ∈ ss, ∀ c : Checker, c.scopes.Stand P → (Stmt.check c s).Placed P) (c : Checker)
    (h : c.scopes.Stand P) : (Stmt.checkAll c ss).Placed P := by
  induction ss generalizing c with
  | nil => rw [Stmt.checkAll]; exact ⟨h, List.forall_mem_nil _⟩
  | cons s ss ih =>
    obtain ⟨hfirst, hrest⟩ := List.forall_mem_cons.mp hs
    have hone := hfirst c h
    have hmore := ih hrest _ hone.scopes
    rw [Stmt.checkAll]
    exact ⟨hmore.scopes, List.forall_mem_append.mpr ⟨hone.faults, hmore.faults⟩⟩

theorem Stmt.check_placed {s : Stmt} (hs : s.Stands P) (c : Checker) (h : c.scopes.Stand P) :
    (Stmt.check c s).Placed P := by
  induction hs generalizing c with
  | @declare name e _ p he hp =>
    have hvar := Checker.declareVar_placed h hp name (Expr.check c.scopes e).1.ty
    rw [Stmt.check]
    exact ⟨hvar.scopes, List.forall_mem_append.mpr ⟨Expr.check_placed he _, hvar.faults⟩⟩
  | @assign name e _ p he hp =>
    have hstore := Checker.store_placed h hp name (Expr.check c.scopes e).1.ty
      (c.scopes.lookup name)
    rw [Stmt.check]
    refine ⟨hstore.scopes, ?_⟩
    simp only [List.forall_mem_append]
    exact ⟨⟨Checker.targetFaults_placed hp _, Expr.check_placed he _⟩, hstore.faults⟩
  | @define name params body p hx _ hp ih =>
    have hdeclare := h.declare (x := .function name (params.map Param.name) p) hp
    rw [Stmt.check]
    split
    · next existing hs =>
      rw [hs] at hdeclare
      exact ⟨h, Checker.redeclared_placed hp hdeclare⟩
    · next scopes hs =>
      rw [hs] at hdeclare
      have hparams := Checker.declareParams_placed
        (c := { c with scopes := scopes.enter, inside := some (name, scopes.depth) })
        hdeclare.enter hx
      have hbody := Stmt.checkAll_each ih _ hparams.scopes
      exact ⟨hbody.scopes.exit, List.forall_mem_append.mpr ⟨hparams.faults, hbody.faults⟩⟩
  | call ha hp =>
    rw [Stmt.check]
    exact ⟨h, List.forall_mem_append.mpr ⟨callFaults_placed hp _, Expr.checkAll_placed ha _⟩⟩
  | ifThen he _ _ ih =>
    have hbody := Stmt.checkAll_each ih c.enter h.enter
    rw [Stmt.check]
    exact ⟨hbody.scopes.exit, List.forall_mem_append.mpr ⟨Expr.check_placed he _, hbody.faults⟩⟩
  | ifElse he _ _ _ ih ih' =>
    have hbody := Stmt.checkAll_each ih c.enter h.enter
    have hother := Stmt.checkAll_each ih' (Stmt.checkAll c.enter _).after.exit.enter
      hbody.scopes.exit.enter
    rw [Stmt.check]
    refine ⟨hother.scopes.exit, ?_⟩
    simp only [List.forall_mem_append]
    exact ⟨⟨Expr.check_placed he _, hbody.faults⟩, hother.faults⟩
  | loop he _ _ ih =>
    have hbody := Stmt.checkAll_each ih c.enter h.enter
    rw [Stmt.check]
    exact ⟨hbody.scopes.exit, List.forall_mem_append.mpr ⟨Expr.check_placed he _, hbody.faults⟩⟩
  | @bring e p he hp =>
    have hbring := Checker.bring_placed h hp (Expr.check c.scopes e).1.ty
    rw [Stmt.check]
    exact ⟨hbring.scopes, List.forall_mem_append.mpr ⟨Expr.check_placed he _, hbring.faults⟩⟩
  | print he _ =>
    rw [Stmt.check]
    exact ⟨h, Expr.check_placed he _⟩

theorem Program.check_placed {p : Program} (hp : ∀ s ∈ p.body, s.Stands P) {faults : Faults}
    (h : p.check = .error faults) : ∀ f ∈ faults, Placed P f := by
  have hall := Stmt.checkAll_each (fun s hs c => Stmt.check_placed (hp s hs) c) .start
    Scopes.stand_start
  unfold Program.check at h
  dsimp only at h
  split at h
  · cases h
  · cases h
    exact hall.faults

end MeowScript
