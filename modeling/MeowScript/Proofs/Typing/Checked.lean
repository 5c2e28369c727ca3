import MeowScript.Proofs.Naming.Fresh
import MeowScript.Proofs.Typing.Rules

/-!
# Accepted programs do not go wrong

Without functions every declaration is a `Box`, so the storage names and types of a program's
variables can be listed (`Stmt.boxes`); no storage name is listed twice, so each has one type. What
checking accepts then follows the typing rules: the checker's scopes hold variables of known types
only, all written before, and the scopes around a block are the same behind it.

Results:
* `Stmt.boxes_storages`: the variables listed are stored under the storage names given.
* `Stmt.check_typed`: an accepted statement is typed.
* `accepted_safe`: a run of an accepted program never fails, and its values fit their types.
-/
namespace MeowScript

/-! ## The variables of a program -/

mutual

/-- The storage names and types of the variables declared in a statement. -/
def Stmt.boxes : Stmt → List (String × Ty)
  | .declare name e storage _ => [(storage.getD name, e.ty)]
  | .define _ _ body _ | .ifThen _ body _ | .loop _ body _ => Stmt.allBoxes body
  | .ifElse _ body otherwise _ => Stmt.allBoxes body ++ Stmt.allBoxes otherwise
  | .assign _ _ _ _ | .call _ _ _ | .bring _ _ | .print _ _ => []

def Stmt.allBoxes : List Stmt → List (String × Ty)
  | [] => []
  | s :: ss => Stmt.boxes s ++ Stmt.allBoxes ss

end

theorem Checker.declareVar_storages {c : Checker} {name : String} {ty : Ty} {p : Position}
    (hf : (c.declareVar name ty p).faults = []) :
    ∃ s, (c.declareVar name ty p).value = some s ∧
      storagesOf (c.declareVar name ty p).after.declared = storagesOf c.declared ++ [s] := by
  unfold declareVar at hf ⊢
  dsimp only at hf ⊢
  split at hf
  · exact ⟨_, rfl, rfl⟩
  · cases hf

mutual

/-- Each variable listed has got the next storage name. -/
theorem Stmt.boxes_storages : ∀ (c : Checker) (s : Stmt), (Stmt.check c s).faults = [] →
    (Stmt.check c s).value.functionFree = true →
      storagesOf (Stmt.check c s).after.declared =
        storagesOf c.declared ++ (Stmt.check c s).value.boxes.map Prod.fst
  | c, .declare name e _ p, hf, _ => by
    simp only [Stmt.check, List.append_eq_nil_iff] at hf
    obtain ⟨s, hs, hstorages⟩ := Checker.declareVar_storages hf.2
    simp [Stmt.check, Stmt.boxes, hs, hstorages]
  | c, .assign _ _ _ _, _, _ => by simp [Stmt.check, Stmt.boxes]
  | c, .define name params _ p, _, hfree => by
    rw [Stmt.check] at hfree
    split at hfree <;> cases hfree
  | c, .call _ _ _, _, _ => by simp [Stmt.check, Stmt.boxes]
  | c, .ifThen _ body _, hf, hfree | c, .loop _ body _, hf, hfree => by
    simp only [Stmt.check, List.append_eq_nil_iff] at hf
    exact Stmt.allBoxes_storages c.enter body hf.2 hfree
  | c, .ifElse _ body otherwise _, hf, hfree => by
    simp only [Stmt.check, List.append_eq_nil_iff] at hf
    have hfrees := Bool.and_eq_true_iff.mp hfree
    have hbody := Stmt.allBoxes_storages c.enter body hf.1.2 hfrees.1
    have hotherwise := Stmt.allBoxes_storages _ otherwise hf.2 hfrees.2
    simp only [Stmt.check, Stmt.boxes, Checker.exit_declared, Checker.enter_declared,
      List.map_append] at hbody hotherwise ⊢
    rw [hotherwise, hbody, List.append_assoc]
  | c, .bring _ _, _, _ => by simp [Stmt.check, Stmt.boxes]
  | c, .print _ _, _, _ => by simp [Stmt.check, Stmt.boxes]

theorem Stmt.allBoxes_storages : ∀ (c : Checker) (ss : List Stmt),
    (Stmt.checkAll c ss).faults = [] → Stmt.allFunctionFree (Stmt.checkAll c ss).value = true →
      storagesOf (Stmt.checkAll c ss).after.declared =
        storagesOf c.declared ++ (Stmt.allBoxes (Stmt.checkAll c ss).value).map Prod.fst
  | c, [], _, _ => by simp [Stmt.checkAll, Stmt.allBoxes]
  | c, s :: ss, hf, hfree => by
    simp only [Stmt.checkAll, List.append_eq_nil_iff] at hf
    have hfrees := Bool.and_eq_true_iff.mp hfree
    have hs := Stmt.boxes_storages c s hf.1 hfrees.1
    have hss := Stmt.allBoxes_storages _ ss hf.2 hfrees.2
    simp only [Stmt.checkAll, Stmt.allBoxes, List.map_append]
    rw [hss, hs, List.append_assoc]

end

/-- In a list without repeated keys every entry is found. -/
theorem lookup_of_mem {α β : Type} [BEq α] [LawfulBEq α] {xs : List (α × β)} {x : α × β}
    (h : (xs.map Prod.fst).Nodup) (hx : x ∈ xs) : xs.lookup x.1 = some x.2 := by
  induction xs with
  | nil => cases hx
  | cons y ys ih =>
    obtain ⟨hy, hys⟩ := List.nodup_cons.mp h
    obtain ⟨k, v⟩ := y
    rcases List.mem_cons.mp hx with rfl | hx
    · rw [List.lookup_cons_self]
    · have hne : (x.1 == k) = false := by
        refine beq_false_of_ne fun he => hy ?_
        rw [← he]
        exact List.mem_map.mpr ⟨x, hx, rfl⟩
      rw [List.lookup_cons, hne]
      exact ih hys hx

/-! ## Scopes without functions -/

variable {Γ : Types} {live more : List String}

/-- A variable of a known type that has been written. -/
structure Symbol.Sound (Γ : Types) (live : List String) (x : Symbol) : Prop where
  isVar : x.isFunction = false
  known : x.ty ≠ .unknown
  typed : Γ x.storage = some x.ty
  written : x.storage ∈ live

/-- The checker is in no function, and nothing but written variables is in its scopes. -/
structure Checker.Sound (Γ : Types) (live : List String) (c : Checker) : Prop where
  symbols : ∀ s ∈ c.scopes.stack, ∀ x ∈ s, x.Sound Γ live
  outside : c.inside = none

namespace Checker.Sound

variable {c c' : Checker}

theorem start : Checker.Sound Γ live .start := by
  refine ⟨fun s hs x hx => ?_, rfl⟩
  rw [List.mem_singleton.mp hs] at hx
  cases hx

theorem mono (h : c.Sound Γ live) (hl : live ⊆ more) : c.Sound Γ more := by
  refine ⟨fun s hs x hx => ?_, h.outside⟩
  obtain ⟨hvar, hknown, htyped, hwritten⟩ := h.symbols s hs x hx
  exact ⟨hvar, hknown, htyped, hl hwritten⟩

theorem enter (h : c.Sound Γ live) : c.enter.Sound Γ live := by
  refine ⟨fun s hs x hx => ?_, h.outside⟩
  rcases List.mem_cons.mp hs with rfl | hs
  · cases hx
  · exact h.symbols s hs x hx

/-- Behind a block whose outer scopes are those before it. -/
theorem exit (h : c.Sound Γ live) (ho : c'.scopes.stack.tail = c.scopes.stack)
    (hi : c'.inside = none) : c'.exit.Sound Γ live := by
  refine ⟨fun s hs x hx => ?_, hi⟩
  have hs' : s ∈ c'.scopes.stack.tail := hs
  rw [ho] at hs'
  exact h.symbols s hs' x hx

theorem lookup (h : c.Sound Γ live) {name : String} {x : Symbol}
    (hx : c.scopes.lookup name = some x) : x.Sound Γ live := by
  obtain ⟨s, hs, hfound⟩ := List.exists_of_findSome?_eq_some hx
  exact h.symbols s hs x (List.mem_of_find?_eq_some hfound)

/-- A variable is declared in the innermost scope. -/
theorem declareVar (h : c.Sound Γ live) {name : String} {ty : Ty} {p : Position} {s : String}
    (hv : (c.declareVar name ty p).value = some s) (hty : Γ s = some ty) (hk : ty ≠ .unknown) :
    (c.declareVar name ty p).after.Sound Γ (s :: live) ∧
      (c.declareVar name ty p).after.scopes.stack.tail = c.scopes.stack.tail := by
  unfold Checker.declareVar at hv ⊢
  dsimp only at hv ⊢
  split at hv
  · next scopes hd =>
    cases hv
    have hstack :=
      (h.mono (List.subset_cons_self (storageFor name (c.declared.count name)) live)).symbols
    rcases Scopes.declare_ok hd with ⟨-, rfl⟩ | ⟨t, outer, he, -, rfl⟩
    · exact ⟨⟨hstack, h.outside⟩, rfl⟩
    · refine ⟨⟨fun r hr x hx => ?_, h.outside⟩, by rw [he]; rfl⟩
      rw [he] at hstack
      rcases List.mem_cons.mp hr with rfl | hr
      · rcases List.mem_append.mp hx with hx | hx
        · exact hstack t List.mem_cons_self x hx
        · cases List.mem_singleton.mp hx
          exact ⟨rfl, hk, hty, List.mem_cons_self⟩
      · exact hstack r (List.mem_cons_of_mem t hr) x hx
  · cases hv

end Checker.Sound

/-! ## Expressions -/

theorem of_faultUnless {ok : Bool} {f : SemanticFault} {p : Position}
    (h : faultUnless ok f p = []) : ok = true := by
  cases ok with
  | true => rfl
  | false => cases h

/-- Without functions there is nothing to call. -/
theorem Checker.Sound.callFaults_ne {c : Checker} (h : c.Sound Γ live) (name : String)
    (count : Nat) (p : Position) : callFaults name count p (c.scopes.lookup name) ≠ [] := by
  cases hs : c.scopes.lookup name with
  | none => simp [callFaults]
  | some x => simp [callFaults, (h.lookup hs).isVar]

theorem Expr.check_typed {c : Checker} (h : c.Sound Γ live) (e : Expr)
    (hf : (Expr.check c.scopes e).2 = []) : (Expr.check c.scopes e).1.Typed Γ live := by
  cases e with
  | literal => exact .literal
  | var name _ p =>
    rw [Expr.check] at hf ⊢
    cases hs : c.scopes.lookup name with
    | none => simp [hs] at hf
    | some x =>
      have hx := h.lookup hs
      simp only [hx.isVar]
      exact .var hx.written hx.typed hx.known
  | binary _ left right =>
    simp only [Expr.check, List.append_eq_nil_iff] at hf
    have hleft := Expr.check_typed h left hf.1.1
    have hright := Expr.check_typed h right hf.1.2
    exact .binary hleft hright (of_faultUnless hf.2)
  | unary _ operand =>
    simp only [Expr.check, List.append_eq_nil_iff] at hf
    exact .unary (Expr.check_typed h operand hf.1) (of_faultUnless hf.2)
  | call name args p =>
    simp only [Expr.check, List.append_eq_nil_iff] at hf
    exact absurd hf.1 (h.callFaults_ne name args.length p)

/-! ## Statements -/

mutual

/-- What is checked without a fault is typed, and the outer scopes stay as they are. -/
theorem Stmt.check_typed : ∀ (live : List String) (c : Checker) (s : Stmt), c.Sound Γ live →
    (Stmt.check c s).faults = [] → (Stmt.check c s).value.functionFree = true →
    (∀ x ∈ (Stmt.check c s).value.boxes, Γ x.1 = some x.2) →
      (Stmt.check c s).value.Typed Γ live ∧
        (Stmt.check c s).after.Sound Γ ((Stmt.check c s).value.live live) ∧
        (Stmt.check c s).after.scopes.stack.tail = c.scopes.stack.tail
  | live, c, .declare name e _ p, h, hf, _, hΓ => by
    simp only [Stmt.check, List.append_eq_nil_iff] at hf
    obtain ⟨s, hs, -⟩ := Checker.declareVar_storages hf.2
    have he := Expr.check_typed h e hf.1
    have hty : Γ s = some (Expr.check c.scopes e).1.ty := by
      simpa [Stmt.check, Stmt.boxes, hs] using hΓ
    obtain ⟨hsound, hstack⟩ := h.declareVar hs hty he.known
    simp only [Stmt.check, Stmt.Typed, Stmt.live, hs, Option.getD_some]
    exact ⟨⟨he, hty⟩, hsound, hstack⟩
  | live, c, .assign name e _ p, h, hf, _, _ => by
    simp only [Stmt.check, List.append_eq_nil_iff] at hf
    obtain ⟨⟨htarget, hvalue⟩, hstored⟩ := hf
    cases hs : c.scopes.lookup name with
    | none => rw [hs] at htarget; cases htarget
    | some x =>
      have hx := h.lookup hs
      have he := Expr.check_typed h e hvalue
      -- the type of the target is known, so the checker stays as it is
      have hstore : ∀ found, c.store name found p (some x) =
          ⟨(), c, faultUnless (x.ty.accepts found) (.assignmentType name x.ty found) p⟩ := by
        intro found
        simp [Checker.store, hx.isVar, hx.known]
      rw [hs, hstore] at hstored
      simp only [Stmt.check, hs, hstore, Option.filter, hx.isVar]
      exact ⟨⟨he, hx.written, x.ty, hx.typed, hx.known, of_faultUnless hstored⟩, h, trivial⟩
  | _, c, .define name params _ p, _, _, hfree, _ => by
    rw [Stmt.check] at hfree
    split at hfree <;> cases hfree
  | _, c, .call name args p, h, hf, _, _ => by
    simp only [Stmt.check, List.append_eq_nil_iff] at hf
    exact absurd hf.1 (h.callFaults_ne name args.length p)
  | live, c, .ifThen e body _, h, hf, hfree, hΓ | live, c, .loop e body _, h, hf, hfree, hΓ => by
    simp only [Stmt.check, List.append_eq_nil_iff] at hf
    obtain ⟨hbody, hstack, hinside⟩ := Stmt.checkAll_typed live c.enter body h.enter hf.2 hfree hΓ
    refine ⟨⟨Expr.check_typed h e hf.1, hbody⟩, h.exit hstack hinside, ?_⟩
    exact congrArg List.tail hstack
  | live, c, .ifElse e body otherwise _, h, hf, hfree, hΓ => by
    simp only [Stmt.check, List.append_eq_nil_iff] at hf
    have hfrees := Bool.and_eq_true_iff.mp hfree
    obtain ⟨hbody, hstack, hinside⟩ := Stmt.checkAll_typed live c.enter body h.enter hf.1.2 hfrees.1
      fun x hx => hΓ x (List.mem_append_left _ hx)
    have hexit := h.exit hstack hinside
    obtain ⟨hotherwise, hstack', hinside'⟩ :=
      Stmt.checkAll_typed live _ otherwise hexit.enter hf.2 hfrees.2
        fun x hx => hΓ x (List.mem_append_right _ hx)
    refine ⟨⟨Expr.check_typed h e hf.1.1, hbody, hotherwise⟩, ?_, ?_⟩
    · exact h.exit (hstack'.trans hstack) hinside'
    · exact congrArg List.tail (hstack'.trans hstack)
  | _, c, .bring _ _, h, hf, _, _ => by
    simp [Stmt.check, Checker.bring, h.outside] at hf
  | _, c, .print e _, h, hf, _, _ => ⟨Expr.check_typed h e hf, h, rfl⟩

theorem Stmt.checkAll_typed : ∀ (live : List String) (c : Checker) (ss : List Stmt),
    c.Sound Γ live → (Stmt.checkAll c ss).faults = [] →
    Stmt.allFunctionFree (Stmt.checkAll c ss).value = true →
    (∀ x ∈ Stmt.allBoxes (Stmt.checkAll c ss).value, Γ x.1 = some x.2) →
      Stmt.AllTyped Γ live (Stmt.checkAll c ss).value ∧
        (Stmt.checkAll c ss).after.scopes.stack.tail = c.scopes.stack.tail ∧
        (Stmt.checkAll c ss).after.inside = none
  | _, c, [], h, _, _, _ => ⟨trivial, rfl, h.outside⟩
  | live, c, s :: ss, h, hf, hfree, hΓ => by
    simp only [Stmt.checkAll, List.append_eq_nil_iff] at hf
    have hfrees := Bool.and_eq_true_iff.mp hfree
    obtain ⟨hs, hsound, hstack⟩ := Stmt.check_typed live c s h hf.1 hfrees.1
      fun x hx => hΓ x (List.mem_append_left _ hx)
    obtain ⟨hss, hstack', hinside⟩ := Stmt.checkAll_typed _ _ ss hsound hf.2 hfrees.2
      fun x hx => hΓ x (List.mem_append_right _ hx)
    exact ⟨⟨hs, hss⟩, hstack'.trans hstack, hinside⟩

end

/-! ## Programs -/

/-- The types of the variables of a program. -/
def Program.types (p : Program) : Types := fun s => (Stmt.allBoxes p.body).lookup s

theorem Compilation.typed {source : String} {c : Compilation} (h : ofText source = .ok c)
    (hfree : Stmt.allFunctionFree c.program.body = true) :
    Stmt.AllTyped c.program.types [] c.program.body := by
  obtain ⟨tree, htoks, htree, hfaults, hbody⟩ := of_ofText h
  have hnodup := storagesOf_nodup fun x hx => declared_word htoks htree hx
  rw [hbody] at hfree
  rw [Stmt.allBoxes_storages _ _ hfaults hfree, ← hbody] at hnodup
  have htypes : ∀ x ∈ Stmt.allBoxes c.program.body, c.program.types x.1 = some x.2 :=
    fun x hx => lookup_of_mem hnodup hx
  rw [hbody] at htypes ⊢
  exact (Stmt.checkAll_typed [] .start tree.body .start hfaults hfree htypes).1

/-- **Main.** In an accepted program without functions every expression has a known type; and
whatever the numbers come out as, after any number of steps the next one does not fail, and every
expression it computes gives a value that fits its type. -/
theorem accepted_safe {source : String} {c : Compilation} (h : Compilation.ofText source = .ok c)
    (hfree : Stmt.allFunctionFree c.program.body = true) :
    (∀ e ∈ Stmt.allNodes c.program.body, e.ty ≠ .unknown) ∧
      ∀ n m, Reaches n (.start c.program) m → ∀ A : Arithmetic,
        (∃ m', m.step A = .ok m') ∧
          ∀ s ∈ m.todo.head?, ∀ e ∈ s.computes,
            ∃ v, e.run A m.memory = .ok v ∧ v.tag.fits e.ty = true := by
  have htyped := Compilation.typed h hfree
  refine ⟨htyped.known, fun n m hr A => ?_⟩
  have hstart : (Snapshot.start c.program).Sound c.program.types [] :=
    ⟨htyped, ⟨fun s hs => absurd hs List.not_mem_nil, fun s v ty hv => by cases hv⟩⟩
  obtain ⟨live, hm⟩ := hstart.reaches hr
  obtain ⟨m', hstep, -⟩ := hm.step A
  exact ⟨⟨m', hstep⟩, fun s hs e he => hm.computes A hs he⟩

/-- A fraction that is given a whole number, in a loop that declares a variable of its own. -/
def mixedText : String :=
  "Wake Box x paws 1 / 2 Chase (x < 3) \x7b Box y paws x x paws 4 Meow(\"y\" + y) \x7d Sleep"

theorem accepted_safe_mixed :
    ∃ c, Compilation.ofText mixedText = .ok c ∧
      Stmt.allFunctionFree c.program.body = true ∧
      (∀ e ∈ Stmt.allNodes c.program.body, e.ty ≠ .unknown) ∧
      ∀ n m, Reaches n (.start c.program) m → ∀ A : Arithmetic,
        (∃ m', m.step A = .ok m') ∧
          ∀ s ∈ m.todo.head?, ∀ e ∈ s.computes,
            ∃ v, e.run A m.memory = .ok v ∧ v.tag.fits e.ty = true := by
  have haccepted : (Compilation.ofText mixedText).toOption.map
      (fun c => Stmt.allFunctionFree c.program.body) = some true := by
    decide +kernel
  obtain ⟨c, hc, hfree⟩ := Option.map_eq_some_iff.mp haccepted
  have htext : Compilation.ofText mixedText = .ok c := toOption_eq_some.mp hc
  exact ⟨c, htext, hfree, accepted_safe htext hfree⟩

end MeowScript
