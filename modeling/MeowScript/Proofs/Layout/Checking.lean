import MeowScript.Compilation
import MeowScript.Proofs.Layout.Parsing

/-!
# Checking and lowering without looking at positions

The check keeps positions, to report faults at them and to name the line of an earlier declaration,
but decides nothing by them; and no code depends on them.

Results:
* `Expr.check_bare`, `Stmt.check_bare`: of a bare tree in bare scopes the check makes the same, but
  bare.
* `Program.lower_bare`: a bare program has the same code.
-/
namespace MeowScript

variable {α β : Type}

/-! ## Scopes -/

def Symbol.bare (x : Symbol) : Symbol := { x with position := .start }

@[simp] theorem Symbol.bare_name (x : Symbol) : x.bare.name = x.name := rfl

@[simp] theorem Symbol.bare_ty (x : Symbol) : x.bare.ty = x.ty := rfl

@[simp] theorem Symbol.bare_storage (x : Symbol) : x.bare.storage = x.storage := rfl

@[simp] theorem Symbol.bare_isFunction (x : Symbol) : x.bare.isFunction = x.isFunction := rfl

@[simp] theorem Symbol.bare_arity (x : Symbol) : x.bare.arity = x.arity := rfl

namespace Scope

def bare (s : Scope) : Scope := s.map Symbol.bare

theorem symbol?_bare (s : Scope) (name : String) :
    s.bare.symbol? name = (s.symbol? name).map Symbol.bare := List.find?_map

theorem retype_bare (s : Scope) (name : String) (ty : Ty) :
    s.bare.retype name ty = (s.retype name ty).bare := by
  rw [bare, retype, retype, bare, List.map_map, List.map_map]
  refine List.map_congr_left fun x _ => ?_
  by_cases hx : x.name = name
  · simp [hx, Symbol.bare]
  · simp [hx]

end Scope

namespace Scopes

def bare (t : Scopes) : Scopes := ⟨t.stack.map Scope.bare⟩

theorem lookup_bare (t : Scopes) (name : String) :
    t.bare.lookup name = (t.lookup name).map Symbol.bare := by
  rw [lookup, lookup, bare, List.findSome?_map]
  induction t.stack with
  | nil => rfl
  | cons s outer ih =>
    rw [List.findSome?_cons, List.findSome?_cons, Function.comp_apply, Scope.symbol?_bare, ih]
    cases s.symbol? name <;> rfl

theorem lookupAt_bare (t : Scopes) (depth : Nat) (name : String) :
    t.bare.lookupAt depth name = (t.lookupAt depth name).map Symbol.bare := by
  rw [lookupAt, lookupAt, bare, ← List.map_reverse, List.getElem?_map]
  cases t.stack.reverse[depth]? with
  | none => rfl
  | some s => exact Scope.symbol?_bare s name

theorem declare_bare (t : Scopes) (x : Symbol) :
    t.bare.declare x.bare = match t.declare x with
      | .ok t => .ok t.bare
      | .error existing => .error existing.bare := by
  obtain ⟨stack⟩ := t
  cases stack with
  | nil => rfl
  | cons s outer =>
    simp only [declare, bare, List.map_cons, Scope.symbol?_bare, Symbol.bare_name]
    cases s.symbol? x.name with
    | some existing => rfl
    | none => simp [Scope.bare, Symbol.bare]

theorem retype_bare (t : Scopes) (name : String) (ty : Ty) :
    t.bare.retype name ty = (t.retype name ty).bare := by
  rw [retype, retype, bare, bare, Scopes.mk.injEq]
  induction t.stack with
  | nil => rfl
  | cons s outer ih =>
    rw [List.map_cons, retype.go, retype.go, Scope.symbol?_bare, Option.isSome_map]
    split
    · rw [Scope.retype_bare, List.map_cons]
    · rw [ih, List.map_cons]

theorem retypeAt_bare (t : Scopes) (depth : Nat) (name : String) (ty : Ty) :
    t.bare.retypeAt depth name ty = (t.retypeAt depth name ty).bare := by
  rw [retypeAt, retypeAt, bare, bare, Scopes.mk.injEq]
  induction t.stack with
  | nil => rfl
  | cons s outer ih =>
    rw [List.map_cons, retypeAt.go, retypeAt.go, List.length_map]
    split
    · rw [Scope.retype_bare, List.map_cons]
    · rw [ih, List.map_cons]

theorem depth_bare (t : Scopes) : t.bare.depth = t.depth := by
  simp [depth, bare]

end Scopes

/-! ## Faults -/

/-- The fault, as if everything were declared on the first line. -/
def SemanticFault.bare : SemanticFault → SemanticFault
  | .redeclaration name _ => .redeclaration name Position.start.line
  | f => f

@[simp] theorem SemanticFault.bare_code (f : SemanticFault) : f.bare.code = f.code := by
  cases f <;> rfl

def Faults.bare (fs : Faults) : Faults := fs.map (Located.bare SemanticFault.bare)

theorem Faults.bare_append (fs gs : Faults) : bare (fs ++ gs) = bare fs ++ bare gs :=
  List.map_append

theorem faultUnless_bare (ok : Bool) {f : SemanticFault} (hf : f.bare = f) (p : Position) :
    faultUnless ok f .start = Faults.bare (faultUnless ok f p) := by
  cases ok with
  | true => rfl
  | false => simp [faultUnless, Faults.bare, Located.bare, hf]

/-! ## Expressions -/

@[simp] theorem Expr.bare_ty (e : Expr) : e.bare.ty = e.ty := by
  cases e <;> rfl

theorem callFaults_bare (name : String) (count : Nat) (p : Position) (s : Option Symbol) :
    callFaults name count .start (s.map Symbol.bare) =
      Faults.bare (callFaults name count p s) := by
  cases s with
  | none => rfl
  | some s =>
    rw [Option.map_some, callFaults, callFaults, Symbol.bare_isFunction, Symbol.bare_arity]
    split
    · exact faultUnless_bare _ rfl p
    · rfl

theorem callType_bare (s : Option Symbol) : callType (s.map Symbol.bare) = callType s := by
  cases s <;> rfl

mutual

theorem Expr.check_bare (t : Scopes) : ∀ e : Expr,
    Expr.check t.bare e.bare = ((Expr.check t e).1.bare, Faults.bare (Expr.check t e).2)
  | .literal v p note => rfl
  | .var name storage p ty => by
    rw [Expr.bare, Expr.check, Expr.check, Scopes.lookup_bare]
    cases t.lookup name with
    | none => rfl
    | some s =>
      by_cases hs : s.isFunction = true
      · simp [hs, Expr.bare, Faults.bare, Located.bare, SemanticFault.bare]
      · simp [hs, Expr.bare, Faults.bare]
  | .binary op left right p note => by
    rw [Expr.bare, Expr.check, Expr.check, Expr.check_bare t left, Expr.check_bare t right]
    simp only [Expr.bare_ty, Faults.bare_append, Expr.bare]
    rw [faultUnless_bare _ (f := .operandTypes op _ _) rfl p]
  | .unary op operand p note => by
    rw [Expr.bare, Expr.check, Expr.check, Expr.check_bare t operand]
    simp only [Expr.bare_ty, Faults.bare_append, Expr.bare]
    rw [faultUnless_bare _ (f := .unaryOperandType op _) rfl p]
  | .call name args p note => by
    rw [Expr.bare, Expr.check, Expr.check, Scopes.lookup_bare, Expr.allBare_eq,
      Expr.checkAll_bare t args]
    simp only [Faults.bare_append, callFaults_bare name _ p, callType_bare, List.length_map,
      Expr.bare, Expr.allBare_eq]

theorem Expr.checkAll_bare (t : Scopes) : ∀ es : List Expr,
    Expr.checkAll t.bare (es.map Expr.bare) =
      ((Expr.checkAll t es).1.map Expr.bare, Faults.bare (Expr.checkAll t es).2)
  | [] => rfl
  | e :: es => by
    rw [List.map_cons, Expr.checkAll, Expr.checkAll, Expr.check_bare t e, Expr.checkAll_bare t es]
    simp only [Faults.bare_append, List.map_cons]

end

/-! ## Statements -/

namespace Checker

def bare (c : Checker) : Checker := { c with scopes := c.scopes.bare }

@[simp] theorem bare_scopes (c : Checker) : c.bare.scopes = c.scopes.bare := rfl

theorem enter_bare (c : Checker) : c.bare.enter = c.enter.bare := rfl

theorem exit_bare (c : Checker) : c.bare.exit = c.exit.bare := by
  simp [bare, exit, Scopes.exit, Scopes.bare]

end Checker

/-- The same result, made bare by `g`, a bare state and bare faults. -/
def Checked.bare (g : α → α) (r : Checked α) : Checked α :=
  ⟨g r.value, r.after.bare, Faults.bare r.faults⟩

namespace Checker

theorem declareVar_bare (c : Checker) (name : String) (ty : Ty) (p : Position) :
    c.bare.declareVar name ty .start = (c.declareVar name ty p).bare id := by
  unfold declareVar
  dsimp only
  have hsymbol : ({ Symbol.var name ty .start with
      storage := storageFor name (c.bare.declared.count name) } : Symbol) =
      ({ Symbol.var name ty p with
        storage := storageFor name (c.declared.count name) } : Symbol).bare := rfl
  rw [hsymbol, show c.bare.scopes = c.scopes.bare from rfl, Scopes.declare_bare]
  cases c.scopes.declare { Symbol.var name ty p with
    storage := storageFor name (c.declared.count name) } <;> rfl

theorem declareParams_bare (c : Checker) (params : List Param) :
    c.bare.declareParams (params.map Param.bare) = (c.declareParams params).bare id := by
  induction params generalizing c with
  | nil => rfl
  | cons x xs ih =>
    rw [List.map_cons, declareParams, declareParams]
    simp only [Param.bare, declareVar_bare c x.name .unknown x.position, Checked.bare]
    rw [ih]
    simp [Checked.bare, Faults.bare_append]

theorem targetFaults_bare (name : String) (p : Position) (s : Option Symbol) :
    targetFaults name .start (s.map Symbol.bare) = Faults.bare (targetFaults name p s) := by
  cases s with
  | none => rfl
  | some s =>
    rw [Option.map_some, targetFaults, targetFaults, Symbol.bare_isFunction]
    split <;> rfl

theorem store_bare (c : Checker) (name : String) (found : Ty) (p : Position) (s : Option Symbol) :
    c.bare.store name found .start (s.map Symbol.bare) =
      (c.store name found p s).bare id := by
  cases s with
  | none => rfl
  | some s =>
    rw [Option.map_some, store, store, Symbol.bare_isFunction, Symbol.bare_ty]
    split
    · rfl
    split
    · simp [Checked.bare, bare, Scopes.retype_bare, Faults.bare]
    · simp [Checked.bare, faultUnless_bare _ (f := .assignmentType name s.ty found) rfl p]

theorem bring_bare (c : Checker) (found : Ty) (p : Position) :
    c.bare.bring found .start = (c.bring found p).bare id := by
  obtain ⟨scopes, declared, inside⟩ := c
  cases inside with
  | none => rfl
  | some f =>
    obtain ⟨name, depth⟩ := f
    simp only [bring, bare]
    split
    · rfl
    · rw [Scopes.lookupAt_bare]
      cases scopes.lookupAt depth name with
      | none => rfl
      | some s =>
        by_cases hs : s.ty = .unknown
        · simp [hs, Checked.bare, bare, Scopes.retypeAt_bare, Faults.bare]
        · simp [hs, Checked.bare, bare,
            faultUnless_bare _ (f := .inconsistentReturn name s.ty found) rfl p]

end Checker

/-- What is stored is stored under the same name. -/
theorem targetStorage_bare (s : Option Symbol) :
    ((s.map Symbol.bare).filter fun x => !x.isFunction).map Symbol.storage =
      (s.filter fun x => !x.isFunction).map Symbol.storage := by
  cases s with
  | none => rfl
  | some s => by_cases hs : s.isFunction = true <;> simp [Option.filter, hs]

mutual

theorem Stmt.check_bare (c : Checker) : ∀ s : Stmt,
    Stmt.check c.bare s.bare = (Stmt.check c s).bare Stmt.bare
  | .declare name value _ p => by
    rw [Stmt.bare, Stmt.check, Stmt.check]
    simp only [Checker.bare_scopes, Expr.check_bare, Expr.bare_ty,
      Checker.declareVar_bare c name _ p, Checked.bare, Stmt.bare, Faults.bare_append, id_eq]
  | .assign name value _ p => by
    rw [Stmt.bare, Stmt.check, Stmt.check]
    simp only [Checker.bare_scopes, Scopes.lookup_bare, Expr.check_bare, Expr.bare_ty,
      Checker.store_bare c name _ p, Checker.targetFaults_bare name p, targetStorage_bare,
      Checked.bare, Stmt.bare, Faults.bare_append]
  | .define name params body p => by
    have hsymbol : Symbol.function name ((params.map Param.bare).map Param.name) .start =
        (Symbol.function name (params.map Param.name) p).bare := by
      rw [List.map_map]
      rfl
    rw [Stmt.bare, Stmt.check, Stmt.check, hsymbol, Checker.bare_scopes, Scopes.declare_bare]
    cases c.scopes.declare (Symbol.function name (params.map Param.name) p) with
    | error existing => simp only [Checked.bare, Stmt.bare]; rfl
    | ok scopes =>
      have hinner : Checker.mk scopes.bare.enter c.bare.declared (some (name, scopes.bare.depth)) =
          (Checker.mk scopes.enter c.declared (some (name, scopes.depth))).bare := by
        rw [Scopes.depth_bare]
        rfl
      simp only [hinner, Checker.declareParams_bare, Checked.bare, Stmt.allBare_eq,
        Stmt.checkAll_bare, Checker.exit_bare, Stmt.bare, Faults.bare_append]
      rfl
  | .call name args p => by
    rw [Stmt.bare, Stmt.check, Stmt.check]
    simp only [Checker.bare_scopes, Scopes.lookup_bare, Expr.checkAll_bare, List.length_map,
      callFaults_bare name _ p, Checked.bare, Stmt.bare, Faults.bare_append]
  | .ifThen condition body p => by
    rw [Stmt.bare, Stmt.check, Stmt.check]
    simp only [Checker.bare_scopes, Expr.check_bare, Checker.enter_bare, Stmt.allBare_eq,
      Stmt.checkAll_bare, Checked.bare, Checker.exit_bare, Stmt.bare, Faults.bare_append]
  | .ifElse condition body otherwise p => by
    rw [Stmt.bare, Stmt.check, Stmt.check]
    simp only [Checker.bare_scopes, Expr.check_bare, Checker.enter_bare, Stmt.allBare_eq,
      Stmt.checkAll_bare, Checked.bare, Checker.exit_bare, Stmt.bare, Faults.bare_append]
  | .loop condition body p => by
    rw [Stmt.bare, Stmt.check, Stmt.check]
    simp only [Checker.bare_scopes, Expr.check_bare, Checker.enter_bare, Stmt.allBare_eq,
      Stmt.checkAll_bare, Checked.bare, Checker.exit_bare, Stmt.bare, Faults.bare_append]
  | .bring value p => by
    rw [Stmt.bare, Stmt.check, Stmt.check]
    simp only [Checker.bare_scopes, Expr.check_bare, Expr.bare_ty, Checker.bring_bare c _ p,
      Checked.bare, Stmt.bare, Faults.bare_append]
  | .print value p => by
    rw [Stmt.bare, Stmt.check, Stmt.check]
    simp only [Checker.bare_scopes, Expr.check_bare, Checked.bare, Stmt.bare]

theorem Stmt.checkAll_bare (c : Checker) : ∀ ss : List Stmt,
    Stmt.checkAll c.bare (ss.map Stmt.bare) = (Stmt.checkAll c ss).bare (List.map Stmt.bare)
  | [] => rfl
  | s :: ss => by
    rw [List.map_cons, Stmt.checkAll, Stmt.checkAll, Stmt.check_bare c s]
    simp only [Checked.bare, Stmt.checkAll_bare, List.map_cons, Faults.bare_append]

end

/-- The check of a bare program is that of the program, but bare. -/
theorem Program.check_bare (p : Program) :
    p.bare.check = match p.check with
      | .ok q => .ok q.bare
      | .error faults => .error (Faults.bare faults) := by
  have hstart : Checker.start = Checker.start.bare := rfl
  unfold Program.check
  dsimp only [Program.bare]
  rw [hstart, Stmt.checkAll_bare, ← hstart]
  dsimp only [Checked.bare]
  cases (Stmt.checkAll .start p.body).faults <;> rfl

/-! ## Lowering -/

mutual

theorem Expr.lower_bare (next : Nat) : ∀ e : Expr, Expr.lower next e.bare = Expr.lower next e
  | .literal v p note => rfl
  | .var name storage p ty => rfl
  | .binary op left right p note => by
    simp only [Expr.bare, Expr.lower, Expr.lower_bare]
  | .unary op operand p note => by
    simp only [Expr.bare, Expr.lower, Expr.lower_bare]
  | .call name args p note => by
    simp only [Expr.bare, Expr.lower, Expr.allBare_eq, Expr.lowerArgs_bare, List.length_map]

theorem Expr.lowerArgs_bare (next : Nat) : ∀ es : List Expr,
    Expr.lowerArgs next (es.map Expr.bare) = Expr.lowerArgs next es
  | [] => rfl
  | e :: es => by
    simp only [List.map_cons, Expr.lowerArgs, Expr.lower_bare, Expr.lowerArgs_bare]

end

mutual

theorem Stmt.lower_bare (c : Counters) : ∀ s : Stmt, Stmt.lower c s.bare = Stmt.lower c s
  | .declare name value storage p => by simp only [Stmt.bare, Stmt.lower, Expr.lower_bare]
  | .assign name value storage p => by simp only [Stmt.bare, Stmt.lower, Expr.lower_bare]
  | .define name params body p => by
    simp only [Stmt.bare, Stmt.lower, Stmt.allBare_eq, Stmt.lowerAll_bare]
  | .call name args p => by
    simp only [Stmt.bare, Stmt.lower, Expr.lowerArgs_bare, List.length_map]
  | .ifThen condition body p => by
    simp only [Stmt.bare, Stmt.lower, Expr.lower_bare, Stmt.allBare_eq, Stmt.lowerAll_bare]
  | .ifElse condition body otherwise p => by
    simp only [Stmt.bare, Stmt.lower, Expr.lower_bare, Stmt.allBare_eq, Stmt.lowerAll_bare]
  | .loop condition body p => by
    simp only [Stmt.bare, Stmt.lower, Expr.lower_bare, Stmt.allBare_eq, Stmt.lowerAll_bare]
  | .bring value p => by simp only [Stmt.bare, Stmt.lower, Expr.lower_bare]
  | .print value p => by simp only [Stmt.bare, Stmt.lower, Expr.lower_bare]

theorem Stmt.lowerAll_bare (c : Counters) : ∀ ss : List Stmt,
    Stmt.lowerAll c (ss.map Stmt.bare) = Stmt.lowerAll c ss
  | [] => rfl
  | s :: ss => by simp only [List.map_cons, Stmt.lowerAll, Stmt.lower_bare, Stmt.lowerAll_bare]

end

theorem Program.lower_bare (p : Program) : p.bare.lower = p.lower := by
  rw [Program.lower, Program.bare, Stmt.lowerAll_bare, Program.lower]

end MeowScript
