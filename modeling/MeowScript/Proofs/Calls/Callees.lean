import Mathlib.Data.List.NodupEquivFin
import MeowScript.Proofs.Calls.Resolution
import MeowScript.Proofs.Naming.Words
import MeowScript.Proofs.Scoping.Retype

/-!
# Calls find their functions by name

The checker's scopes and the lexical ones are walked side by side. As long as there is no fault, a
name is a function in the former just when it means a definition in the latter, and both have the
same number of parameters. So a call in the code of a program takes as many parameters as the
definition that it means, and the mark of that definition is in the code.

Code keeps the bare name. Functions of one name in different scopes are told apart by the check, as
variables are, but unlike the storage names of variables their marks are the same; so the name of a
call leads to its function alone only if no other function of the program has it.

Results:
* `Resolves.denotation`: both sides give a name the same meaning.
* `Stmt.check_calls`: one statement.
* `callee_by_name_iff`: which calls are found by name.
* `callee_ambiguous`: a text with two functions of one name.
-/
namespace MeowScript

/-! ## One scope -/

/-- The symbol is what the name is declared as. -/
inductive Denotes (made : List Definition) (name : String) :
    Option Symbol → Option Denotation → Prop where
  | none : Denotes made name none none
  | var {x : Symbol} : x.isFunction = false → Denotes made name (some x) (some .var)
  | function {x : Symbol} {k : Nat} : x.isFunction = true → made[k]? = some ⟨name, x.arity⟩ →
      Denotes made name (some x) (some (.function k))

theorem made_mono {made more : List Definition} (h : made <+: more) {k : Nat} {d : Definition}
    (hk : made[k]? = some d) : more[k]? = some d := by
  obtain ⟨later, rfl⟩ := h
  rw [List.getElem?_append_left (List.getElem?_eq_some_iff.mp hk).1, hk]

theorem Denotes.mono {made more : List Definition} {name : String} {x : Option Symbol}
    {d : Option Denotation} (h : Denotes made name x d) (hm : made <+: more) :
    Denotes more name x d := by
  cases h with
  | none => exact .none
  | var hx => exact .var hx
  | function hx hk => exact .function hx (made_mono hm hk)

/-- The scope knows what is declared, and nothing else. -/
def Scope.Denotes (made : List Definition) (s : Scope) (ds : List (String × Denotation)) : Prop :=
  ∀ name, MeowScript.Denotes made name (s.symbol? name) (ds.lookup name)

namespace Scope.Denotes

variable {made more : List Definition} {s : Scope} {ds : List (String × Denotation)}

theorem empty : Denotes made [] [] := fun _ => .none

theorem mono (h : s.Denotes made ds) (hm : made <+: more) : s.Denotes more ds :=
  fun name => (h name).mono hm

/-- The type of a symbol does not matter. -/
theorem retype (h : s.Denotes made ds) (name : String) (ty : Ty) :
    (s.retype name ty).Denotes made ds := by
  intro x
  have hx := h x
  rw [Scope.symbol?_retype]
  generalize s.symbol? x = found at hx ⊢
  generalize ds.lookup x = d at hx ⊢
  cases hx with
  | none => exact .none
  | var hf =>
    refine .var ?_
    dsimp only
    split <;> exact hf
  | function hf hk =>
    refine .function ?_ ?_ <;> dsimp only
    · split <;> exact hf
    · split <;> exact hk

theorem declare (h : s.Denotes made ds) {x : Symbol} (hs : s.symbol? x.name = none)
    {d : Denotation} (hd : MeowScript.Denotes made x.name (some x) (some d)) :
    Denotes made (s ++ [x]) ((x.name, d) :: ds) := by
  intro name
  rw [Scope.symbol?_snoc hs, List.lookup_cons]
  by_cases hn : x.name = name
  · subst hn
    simpa using hd
  · rw [if_neg hn, beq_false_of_ne (Ne.symm hn)]
    exact h name

end Scope.Denotes

/-! ## All scopes -/

/-- Each of the checker's scopes knows what is declared there. -/
def Resolves (c : Checker) (b : Environment) : Prop :=
  List.Forall₂ (Scope.Denotes b.made) c.scopes.stack b.scopes

namespace Resolves

variable {c : Checker} {b : Environment}

theorem start : Resolves .start .start := .cons .empty .nil

theorem enter (h : Resolves c b) : Resolves c.enter b.enter := .cons .empty h

theorem exit (h : Resolves c b) : Resolves c.exit b.exit := by
  unfold Resolves at h
  show List.Forall₂ (Scope.Denotes b.made) c.scopes.stack.tail b.scopes.tail
  generalize c.scopes.stack = ss at h ⊢
  generalize b.scopes = dss at h ⊢
  cases h with
  | nil => exact .nil
  | cons _ ht => exact ht

/-- Both sides give a name the same meaning. -/
theorem denotation (h : Resolves c b) (name : String) :
    Denotes b.made name (c.scopes.lookup name) (b.denotation name) := by
  unfold Resolves at h
  unfold Scopes.lookup Environment.denotation
  generalize c.scopes.stack = ss at h
  generalize b.scopes = dss at h
  induction h with
  | nil => exact .none
  | @cons s ds _ _ hs _ ih =>
    have hname := hs name
    rw [List.findSome?_cons, List.findSome?_cons]
    cases hname' : s.symbol? name with
    | none =>
      rw [hname'] at hname
      cases hd : ds.lookup name with
      | none => exact ih
      | some d => rw [hd] at hname; cases hname
    | some x =>
      rw [hname'] at hname
      cases hd : ds.lookup name with
      | none => rw [hd] at hname; cases hname
      | some d => rw [hd] at hname; exact hname

/-- A call without a fault means a definition with as many parameters as it has arguments. -/
theorem call (h : Resolves c b) {name : String} {count : Nat} {p : Position}
    (hf : callFaults name count p (c.scopes.lookup name) = []) :
    ∃ k, b.callee name = some k ∧ b.made[k]? = some ⟨name, count⟩ := by
  have hname := h.denotation name
  unfold Environment.callee
  generalize c.scopes.lookup name = x at hf hname
  generalize b.denotation name = d at hname
  cases hname with
  | none => cases hf
  | var hx => simp [callFaults, hx] at hf
  | @function x k hx hk =>
    have harity : x.arity = count := by
      by_contra hne
      simp [callFaults, hx, faultUnless, hne] at hf
    exact ⟨k, rfl, harity ▸ hk⟩

theorem declare (h : Resolves c b) {x : Symbol} {u : Scopes} (hu : c.scopes.declare x = .ok u)
    {made : List Definition} (hm : b.made <+: made) {d : Denotation}
    (hd : Denotes made x.name (some x) (some d)) :
    List.Forall₂ (Scope.Denotes made) u.stack (b.declare x.name d).scopes := by
  have hstack : List.Forall₂ (Scope.Denotes made) c.scopes.stack b.scopes :=
    List.Forall₂.imp (fun _ _ hs => hs.mono hm) h
  unfold Environment.declare
  dsimp only
  generalize b.scopes = dss at hstack ⊢
  rcases Scopes.declare_ok hu with ⟨he, rfl⟩ | ⟨s, outer, he, hnone, rfl⟩
  · rw [he] at hstack ⊢
    cases hstack
    exact .nil
  · rw [he] at hstack
    cases hstack with
    | cons hs ht =>
      have hx : Denotes made x.name (some { x with depth := outer.length }) (some d) := by
        cases hd with
        | var hf => exact .var hf
        | function hf hk => exact .function hf hk
      exact .cons (hs.declare (x := { x with depth := outer.length }) hnone hx) ht

theorem declareVar (h : Resolves c b) {name : String} {ty : Ty} {p : Position}
    (hf : (c.declareVar name ty p).faults = []) :
    Resolves (c.declareVar name ty p).after (b.declare name .var) := by
  unfold Checker.declareVar at hf ⊢
  dsimp only at hf ⊢
  split at hf
  · next u hu => exact h.declare hu List.prefix_rfl (.var rfl)
  · cases hf

theorem declareParams {params : List Param} {c : Checker} {b : Environment} (h : Resolves c b)
    (hf : (c.declareParams params).faults = []) :
    Resolves (c.declareParams params).after
      (params.foldl (fun b x => b.declare x.name .var) b) := by
  induction params generalizing c b with
  | nil => exact h
  | cons x params ih =>
    obtain ⟨hx, hparams⟩ := List.append_eq_nil_iff.mp hf
    exact ih (h.declareVar hx) hparams

theorem store (h : Resolves c b) (name : String) (found : Ty) (p : Position)
    (target : Option Symbol) : Resolves (c.store name found p target).after b := by
  unfold Checker.store
  split
  · exact h
  · split
    · exact h
    · split
      · exact Scopes.forall₂_retype (fun hs => hs.retype name found) h
      · exact h

theorem bring (h : Resolves c b) (found : Ty) (p : Position) :
    Resolves (c.bring found p).after b := by
  unfold Checker.bring
  split
  · exact h
  · next name depth _ =>
    split
    · exact h
    · split
      · exact h
      · split
        · exact Scopes.forall₂_retypeAt (fun hs => hs.retype name found) depth h
        · exact h

end Resolves

/-! ## Expressions -/

/-- The call means a definition of its name with as many parameters as it has arguments. -/
def CallSite.Meant (made : List Definition) (x : CallSite) : Prop :=
  ∃ k, x.callee = some k ∧ made[k]? = some ⟨x.name, x.count⟩

theorem CallSite.Meant.mono {made more : List Definition} {x : CallSite} (h : x.Meant made)
    (hm : made <+: more) : x.Meant more := by
  obtain ⟨k, hk, hd⟩ := h
  exact ⟨k, hk, made_mono hm hd⟩

mutual

theorem Expr.check_calls {c : Checker} {b : Environment} (h : Resolves c b) : ∀ e : Expr,
    (Expr.check c.scopes e).2 = [] → ∀ x ∈ (Expr.check c.scopes e).1.calls b, x.Meant b.made
  | .literal _ _ _, _ => nofun
  | .var name _ _ _, hf => by
    intro x hx
    rw [Expr.check] at hx
    split at hx
    · cases hx
    · split at hx <;> cases hx
  | .binary _ left right _ _, hf => by
    simp only [Expr.check, List.append_eq_nil_iff] at hf
    have hleft := Expr.check_calls h left hf.1.1
    have hright := Expr.check_calls h right hf.1.2
    exact List.forall_mem_append.mpr ⟨hleft, hright⟩
  | .unary _ operand _ _, hf => by
    simp only [Expr.check, List.append_eq_nil_iff] at hf
    exact Expr.check_calls h operand hf.1
  | .call name args _ _, hf => by
    simp only [Expr.check, List.append_eq_nil_iff] at hf
    have hargs := Expr.checkAll_calls h args hf.2
    refine List.forall_mem_append.mpr ⟨hargs, List.forall_mem_singleton.mpr ?_⟩
    rw [Expr.checkAll_length]
    exact h.call hf.1

theorem Expr.checkAll_calls {c : Checker} {b : Environment} (h : Resolves c b) :
    ∀ es : List Expr, (Expr.checkAll c.scopes es).2 = [] →
      ∀ x ∈ Expr.allCalls b (Expr.checkAll c.scopes es).1, x.Meant b.made
  | [], _ => nofun
  | e :: es, hf => by
    simp only [Expr.checkAll, List.append_eq_nil_iff] at hf
    have he := Expr.check_calls h e hf.1
    have hes := Expr.checkAll_calls h es hf.2
    exact List.forall_mem_append.mpr ⟨he, hes⟩

end

/-! ## Statements -/

/-- Checking has gone on to `c`, and every call on the way means a definition. -/
structure Meaningful (b : Environment) (c : Checker) (w : Calling) : Prop where
  resolves : Resolves c w.after
  grows : b.made <+: w.after.made
  meant : ∀ x ∈ w.calls, x.Meant w.after.made

namespace Meaningful

variable {b : Environment} {c : Checker} {w : Calling}

/-- A statement that declares nothing, whose calls mean definitions. -/
theorem still (h : Resolves c b) {calls : List CallSite} (hm : ∀ x ∈ calls, x.Meant b.made) :
    Meaningful b c ⟨calls, b⟩ :=
  ⟨h, List.prefix_rfl, hm⟩

theorem exit (h : Meaningful b.enter c w) : Meaningful b c.exit ⟨w.calls, w.after.exit⟩ :=
  ⟨h.resolves.exit, h.grows, h.meant⟩

/-- An expression before it. -/
theorem behind (h : Meaningful b c w) {calls : List CallSite}
    (hm : ∀ x ∈ calls, x.Meant b.made) : Meaningful b c ⟨calls ++ w.calls, w.after⟩ := by
  have hcalls : ∀ x ∈ calls, x.Meant w.after.made := fun x hx => (hm x hx).mono h.grows
  exact ⟨h.resolves, h.grows, List.forall_mem_append.mpr ⟨hcalls, h.meant⟩⟩

/-- One piece of the program after the other. -/
theorem append {c' : Checker} {v : Calling} (h : Meaningful b c w)
    (h' : Meaningful w.after c' v) : Meaningful b c' ⟨w.calls ++ v.calls, v.after⟩ := by
  have hfirst : ∀ x ∈ w.calls, x.Meant v.after.made := fun x hx => (h.meant x hx).mono h'.grows
  exact ⟨h'.resolves, h.grows.trans h'.grows, List.forall_mem_append.mpr ⟨hfirst, h'.meant⟩⟩

end Meaningful

mutual

theorem Stmt.check_calls {c : Checker} {b : Environment} (h : Resolves c b) : ∀ s : Stmt,
    (Stmt.check c s).faults = [] →
      Meaningful b (Stmt.check c s).after ((Stmt.check c s).value.calls b)
  | .declare name value _ p, hf => by
    simp only [Stmt.check, List.append_eq_nil_iff] at hf
    exact ⟨h.declareVar hf.2, List.prefix_rfl, Expr.check_calls h value hf.1⟩
  | .assign name value _ p, hf => by
    simp only [Stmt.check, List.append_eq_nil_iff] at hf
    exact .still (h.store name _ p _) (Expr.check_calls h value hf.1.2)
  | .define name params body p, hf => by
    rw [Stmt.check] at hf ⊢
    cases hd : c.scopes.declare (.function name (params.map Param.name) p) with
    | error existing => simp [hd, Checker.redeclared] at hf
    | ok scopes =>
      simp only [hd, List.append_eq_nil_iff] at hf ⊢
      have hnext : (b.define name params.length).made[b.made.length]? =
          some ⟨name, params.length⟩ := by simp [Environment.define]
      have hfunction : Denotes (b.define name params.length).made name
          (some (.function name (params.map Param.name) p)) (some (.function b.made.length)) := by
        refine .function rfl ?_
        simp [hnext, Symbol.function, Symbol.arity]
      have hdefine := h.declare hd (List.prefix_append _ _) hfunction
      -- the body is checked with the definition itself in force
      have hinner : Resolves
          { c with scopes := scopes.enter, inside := some (name, scopes.depth) }
          (b.define name params.length).enter := .cons .empty hdefine
      have hbody := Stmt.checkAll_calls (hinner.declareParams hf.1) body hf.2
      have hgrows : b.made <+: ((b.define name params.length).body params).made := by
        rw [Environment.body_made]
        exact List.prefix_append _ _
      exact ⟨hbody.resolves.exit, hgrows.trans hbody.grows, hbody.meant⟩
  | .call name args p, hf => by
    simp only [Stmt.check, List.append_eq_nil_iff] at hf
    have hargs := Expr.checkAll_calls h args hf.2
    refine .still h (List.forall_mem_append.mpr ⟨hargs, List.forall_mem_singleton.mpr ?_⟩)
    rw [Expr.checkAll_length]
    exact h.call hf.1
  | .ifThen condition body _, hf | .loop condition body _, hf => by
    simp only [Stmt.check, List.append_eq_nil_iff] at hf
    exact (Stmt.checkAll_calls h.enter body hf.2).exit.behind (Expr.check_calls h condition hf.1)
  | .ifElse condition body otherwise _, hf => by
    simp only [Stmt.check, List.append_eq_nil_iff] at hf
    have hbody := (Stmt.checkAll_calls h.enter body hf.1.2).exit.behind
      (Expr.check_calls h condition hf.1.1)
    have hotherwise := Stmt.checkAll_calls hbody.resolves.enter otherwise hf.2
    exact hbody.append hotherwise.exit
  | .bring value p, hf => by
    simp only [Stmt.check, List.append_eq_nil_iff] at hf
    exact .still (h.bring _ p) (Expr.check_calls h value hf.1)
  | .print value _, hf => .still h (Expr.check_calls h value hf)

theorem Stmt.checkAll_calls {c : Checker} {b : Environment} (h : Resolves c b) :
    ∀ ss : List Stmt, (Stmt.checkAll c ss).faults = [] →
      Meaningful b (Stmt.checkAll c ss).after (Stmt.allCalls b (Stmt.checkAll c ss).value)
  | [], _ => .still h nofun
  | s :: ss, hf => by
    simp only [Stmt.checkAll, List.append_eq_nil_iff] at hf
    have hs := Stmt.check_calls h s hf.1
    exact hs.append (Stmt.checkAll_calls hs.resolves ss hf.2)

end

/-! ## Programs -/

/-- The name of the call leads to its function alone: one mark in the code has it, and that is the
mark of the definition that the call means, which has as many parameters as the call takes. -/
def FoundByName (p : Program) (x : CallSite) : Prop :=
  (beginsOf p.lower).count x.name = 1 ∧ ∀ k, (beginsOf p.lower)[k]? = some x.name →
    x.callee = some k ∧ p.definitions[k]? = some ⟨x.name, x.count⟩

/-- An entry at one place only occurs once. -/
theorem count_eq_one {xs : List String} {a : String} {k : Nat} (hk : xs[k]? = some a)
    (h : ∀ j, xs[j]? = some a → j = k) : xs.count a = 1 := by
  have hmem : a ∈ xs := List.mem_of_getElem? hk
  have hpos : 0 < xs.count a := List.count_pos_iff.mpr hmem
  have honce : ¬ xs.Duplicate a := by
    intro hd
    obtain ⟨i, j, hij, hi, hj⟩ := List.duplicate_iff_exists_distinct_get.mp hd
    have hik := h i (by simp [hi])
    have hjk := h j (by simp [hj])
    omega
  have hlt : xs.count a < 2 := by
    rw [List.duplicate_iff_two_le_count] at honce
    omega
  omega

/-- The mark with this number is that of the definition with this number. -/
theorem beginsOf_getElem? {p : Program} (h : beginsOf p.lower = p.definitions.map Definition.name)
    {k : Nat} {name : String} : (beginsOf p.lower)[k]? = some name ↔
      ∃ d, p.definitions[k]? = some d ∧ d.name = name := by
  rw [h, List.getElem?_map, Option.map_eq_some_iff]

/-- **Main.** The calls in the code of a text are those of its program, and the marks those of its
definitions, one for one. Each call means, by lexical scoping, a definition with as many parameters;
and its name leads to the mark of that definition alone if and only if no other definition of the
program has the name. -/
theorem callee_by_name_iff {source : String} {c : Compilation}
    (h : Compilation.ofText source = .ok c) :
    callsOf c.code = c.program.calls.map CallSite.shown ∧
      beginsOf c.code = c.program.definitions.map Definition.name ∧
      ∀ x ∈ c.program.calls, x.Meant c.program.definitions ∧
        (FoundByName c.program x ↔ ∀ k d, c.program.definitions[k]? = some d →
          d.name = x.name → x.callee = some k) := by
  obtain ⟨tree, -, -, hfaults, hbody⟩ := Compilation.of_ofText h
  have hchecked := Stmt.checkAll_calls .start tree.body hfaults
  rw [← hbody] at hchecked
  have hmarks : beginsOf c.program.lower = c.program.definitions.map Definition.name :=
    (Stmt.lowerAll_begins c.program.body .start .start).symm
  rw [Compilation.code_of_ofText h]
  refine ⟨Stmt.lowerAll_calls c.program.body .start .start, hmarks, fun x hx => ?_⟩
  obtain ⟨k, hk, hd⟩ := hchecked.meant x hx
  refine ⟨⟨k, hk, hd⟩, fun hfound j d hj hname => ?_, fun honly => ⟨?_, fun j hj => ?_⟩⟩
  · exact (hfound.2 j ((beginsOf_getElem? hmarks).mpr ⟨d, hj, hname⟩)).1
  · refine count_eq_one ((beginsOf_getElem? hmarks).mpr ⟨_, hd, rfl⟩) fun j hj => ?_
    obtain ⟨d, hj, hname⟩ := (beginsOf_getElem? hmarks).mp hj
    exact Option.some.inj ((honly j d hj hname).symm.trans hk)
  · obtain ⟨d, hj, hname⟩ := (beginsOf_getElem? hmarks).mp hj
    have hcallee := honly j d hj hname
    rw [hk, Option.some.injEq] at hcallee
    exact ⟨hcallee ▸ hk, hcallee ▸ hd⟩

/-- A function in a function, and calls of both in an argument. -/
def nestedText : String :=
  "Wake Hunt f(a, b) \x7b Hunt g(a) \x7b Bring a \x7d Bring f(g(a), b) \x7d " ++
    "Meow(f(1, f(2, 3))) Sleep"

theorem callee_by_name_nested :
    ∃ c, Compilation.ofText nestedText = .ok c ∧
      c.program.calls = [⟨"g", 1, some 1⟩, ⟨"f", 2, some 0⟩, ⟨"f", 2, some 0⟩, ⟨"f", 2, some 0⟩] ∧
      c.program.definitions = [⟨"f", 2⟩, ⟨"g", 1⟩] ∧
      ∀ x ∈ c.program.calls, FoundByName c.program x := by
  have hcompiled : (Compilation.ofText nestedText).toOption.map
      (fun c => (c.program.calls, c.program.definitions)) =
      some ([⟨"g", 1, some 1⟩, ⟨"f", 2, some 0⟩, ⟨"f", 2, some 0⟩, ⟨"f", 2, some 0⟩],
        [⟨"f", 2⟩, ⟨"g", 1⟩]) := by
    decide +kernel
  obtain ⟨c, hc, hfound⟩ := Option.map_eq_some_iff.mp hcompiled
  obtain ⟨hcalls, hdefinitions⟩ := Prod.mk.inj hfound
  have htext := toOption_eq_some.mp hc
  refine ⟨c, htext, hcalls, hdefinitions, fun x hx => ?_⟩
  refine (((callee_by_name_iff htext).2.2 x hx).2).mpr fun k d hk hname => ?_
  rw [hdefinitions] at hk
  rw [hcalls] at hx
  have honly : ∀ x ∈ [⟨"g", 1, some 1⟩, ⟨"f", 2, some 0⟩, ⟨"f", 2, some 0⟩,
      (⟨"f", 2, some 0⟩ : CallSite)], ∀ k < 2,
      ∀ d ∈ [⟨"f", 2⟩, (⟨"g", 1⟩ : Definition)][k]?, d.name = x.name → x.callee = some k := by
    decide
  exact honly x hx k (List.getElem?_eq_some_iff.mp hk).1 d hk hname

/-- Two functions of one name in sibling blocks, and a call of each. -/
def siblingText : String :=
  "Wake Purr (1) \x7b Hunt f() \x7b Bring 1 \x7d f() \x7d " ++
    "Hiss \x7b Hunt f(a) \x7b Bring a \x7d f(2) \x7d Sleep"

/-- The code begins both functions with the same mark, and calls both by the same name, once without
a parameter and once with one. -/
theorem callee_ambiguous :
    ∃ c, Compilation.ofText siblingText = .ok c ∧
      c.program.calls = [⟨"f", 0, some 0⟩, ⟨"f", 1, some 1⟩] ∧
      beginsOf c.program.lower = ["f", "f"] ∧
      ¬ ∀ x ∈ c.program.calls, FoundByName c.program x := by
  have hcompiled : (Compilation.ofText siblingText).toOption.map
      (fun c => (c.program.calls, beginsOf c.program.lower)) =
      some ([⟨"f", 0, some 0⟩, ⟨"f", 1, some 1⟩], ["f", "f"]) := by
    decide +kernel
  obtain ⟨c, hc, hfound⟩ := Option.map_eq_some_iff.mp hcompiled
  obtain ⟨hcalls, hbegins⟩ := Prod.mk.inj hfound
  refine ⟨c, toOption_eq_some.mp hc, hcalls, hbegins, fun hall => ?_⟩
  have honce := (hall ⟨"f", 0, some 0⟩ (by rw [hcalls]; decide)).1
  rw [hbegins] at honce
  exact absurd honce (by decide)

end MeowScript
