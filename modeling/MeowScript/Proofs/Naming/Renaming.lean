import MeowScript.Proofs.Naming.Fresh
import MeowScript.Proofs.Naming.Scoping
import MeowScript.Proofs.Scoping.Retype

/-!
# Storage names rename variables correctly

The checker's scopes and the lexical ones are walked side by side. `Tracks` says that a variable
found in the former is a declaration in force in the latter, and that it is stored under the
storage name of that declaration; every step of checking that finds no fault keeps it. As storage
names are never given twice, they tell declarations apart.

Results:
* `Tracks.resolve`: both sides find the same declaration.
* `Stmt.check_renamed`: one statement.
* `storage_eq_iff`: two occurrences have one storage name if and only if they mean one declaration.
-/
namespace MeowScript

/-! ## One scope -/

/-- What is declared, and that the variables of the scope are stored as `storages` says. -/
structure ScopeTracks (storages : List String) (s : Scope) (names : List (String × Nat)) :
    Prop where
  absent : ∀ name, s.symbol? name = none → names.lookup name = none
  present : ∀ name x, s.symbol? name = some x → x.isFunction = false →
    ∃ k, names.lookup name = some k ∧ storages[k]? = some x.storage

theorem getElem?_of_prefix {storages more : List String} {k : Nat} {s : String}
    (h : storages <+: more) (hk : storages[k]? = some s) : more[k]? = some s := by
  obtain ⟨later, rfl⟩ := h
  rw [List.getElem?_append_left (List.getElem?_eq_some_iff.mp hk).1, hk]

namespace ScopeTracks

variable {storages more : List String} {s : Scope} {names : List (String × Nat)}

theorem empty : ScopeTracks storages [] [] := ⟨fun _ _ => rfl, nofun⟩

theorem mono (h : ScopeTracks storages s names) (hm : storages <+: more) :
    ScopeTracks more s names := by
  refine ⟨h.absent, fun name x hx hf => ?_⟩
  obtain ⟨k, hk, hst⟩ := h.present name x hx hf
  exact ⟨k, hk, getElem?_of_prefix hm hst⟩

theorem retype (h : ScopeTracks storages s names) (name : String) (ty : Ty) :
    ScopeTracks storages (s.retype name ty) names := by
  refine ⟨fun x hx => ?_, fun x y hy hf => ?_⟩
  · rw [Scope.symbol?_retype, Option.map_eq_none_iff] at hx
    exact h.absent x hx
  · rw [Scope.symbol?_retype, Option.map_eq_some_iff] at hy
    obtain ⟨z, hz, rfl⟩ := hy
    split at hf
    · simpa [*] using h.present x z hz hf
    · simpa [*] using h.present x z hz hf

theorem declare (h : ScopeTracks storages s names) {x : Symbol} (hs : s.symbol? x.name = none)
    {k : Nat} (hk : storages[k]? = some x.storage) :
    ScopeTracks storages (s ++ [x]) ((x.name, k) :: names) := by
  refine ⟨fun name hn => ?_, fun name y hy hf => ?_⟩
  · rw [Scope.symbol?_snoc hs] at hn
    split at hn
    · cases hn
    · next hne =>
      rw [List.lookup_cons, beq_false_of_ne (Ne.symm hne)]
      exact h.absent name hn
  · rw [Scope.symbol?_snoc hs] at hy
    split at hy
    · next he =>
      cases hy
      exact ⟨k, by simp [he], hk⟩
    · next hne =>
      rw [List.lookup_cons, beq_false_of_ne (Ne.symm hne)]
      exact h.present name y hy hf

/-- A function is no variable. -/
theorem define (h : ScopeTracks storages s names) {x : Symbol} (hs : s.symbol? x.name = none)
    (hx : x.isFunction = true) : ScopeTracks storages (s ++ [x]) names := by
  refine ⟨fun name hn => ?_, fun name y hy hf => ?_⟩
  · rw [Scope.symbol?_snoc hs] at hn
    split at hn
    · cases hn
    · exact h.absent name hn
  · rw [Scope.symbol?_snoc hs] at hy
    split at hy
    · cases hy
      rw [hx] at hf
      cases hf
    · exact h.present name y hy hf

end ScopeTracks

/-! ## All scopes -/

/-- The same for each scope of a stack. -/
def StackTracks (storages : List String) (ss : List Scope) (bs : List (List (String × Nat))) :
    Prop :=
  List.Forall₂ (ScopeTracks storages) ss bs

namespace StackTracks

variable {storages more : List String} {ss : List Scope} {bs : List (List (String × Nat))}

theorem mono (h : StackTracks storages ss bs) (hm : storages <+: more) :
    StackTracks more ss bs :=
  List.Forall₂.imp (fun _ _ hs => hs.mono hm) h

theorem tail (h : StackTracks storages ss bs) : StackTracks storages ss.tail bs.tail := by
  cases h with
  | nil => exact .nil
  | cons _ ht => exact ht

theorem lookup (h : StackTracks storages ss bs) {name : String} {x : Symbol}
    (hx : ss.findSome? (·.symbol? name) = some x) (hf : x.isFunction = false) :
    ∃ k, bs.findSome? (·.lookup name) = some k ∧ storages[k]? = some x.storage := by
  induction h with
  | nil => cases hx
  | @cons s names _ _ hs _ ih =>
    rw [List.findSome?_cons] at hx ⊢
    cases hsym : s.symbol? name with
    | some y =>
      rw [hsym] at hx
      cases hx
      obtain ⟨k, hk, hst⟩ := hs.present name x hsym hf
      exact ⟨k, by rw [hk], hst⟩
    | none =>
      rw [hsym] at hx
      rw [hs.absent name hsym]
      exact ih hx

theorem declare {t u : Scopes} (h : StackTracks storages t.stack bs) {x : Symbol}
    (hd : t.declare x = .ok u) {k : Nat} (hk : storages[k]? = some x.storage) :
    StackTracks storages u.stack (bs.modifyHead ((x.name, k) :: ·)) := by
  rcases Scopes.declare_ok hd with ⟨he, rfl⟩ | ⟨s, outer, he, hn, rfl⟩
  · rw [he] at h ⊢
    cases h
    exact .nil
  · rw [he] at h
    cases h with
    | cons hs ht =>
      have hsnoc := @ScopeTracks.declare _ _ _ hs { x with depth := outer.length } hn k hk
      exact .cons hsnoc ht

theorem define {t u : Scopes} (h : StackTracks storages t.stack bs) {x : Symbol}
    (hd : t.declare x = .ok u) (hx : x.isFunction = true) : StackTracks storages u.stack bs := by
  rcases Scopes.declare_ok hd with ⟨_, rfl⟩ | ⟨s, outer, he, hn, rfl⟩
  · exact h
  · rw [he] at h
    cases h with
    | cons hs ht => exact .cons (hs.define hn hx) ht

theorem retype (h : StackTracks storages ss bs) (name : String) (ty : Ty) :
    StackTracks storages (Scopes.retype.go name ty ss) bs :=
  Scopes.forall₂_retype (fun hs => hs.retype name ty) h

theorem retypeAt (h : StackTracks storages ss bs) (depth : Nat) (name : String) (ty : Ty) :
    StackTracks storages (Scopes.retypeAt.go depth name ty ss) bs :=
  Scopes.forall₂_retypeAt (fun hs => hs.retype name ty) depth h

end StackTracks

/-- The checker has made the same declarations, and its scopes hold those in force. -/
structure Tracks (c : Checker) (b : Bindings) : Prop where
  made : b.made = c.declared.length
  scopes : StackTracks (storagesOf c.declared) c.scopes.stack b.scopes

/-- The occurrence means a declaration and records its storage name. -/
def Occurrence.Named (storages : List String) (o : Occurrence) : Prop :=
  ∃ k s, o.declaration = some k ∧ o.storage = some s ∧ storages[k]? = some s

theorem Occurrence.Named.mono {storages more : List String} {o : Occurrence}
    (h : o.Named storages) (hm : storages <+: more) : o.Named more := by
  obtain ⟨k, s, hk, hs, hst⟩ := h
  exact ⟨k, s, hk, hs, getElem?_of_prefix hm hst⟩

namespace Tracks

variable {c : Checker} {b : Bindings}

theorem start : Tracks .start .start := ⟨rfl, .cons .empty .nil⟩

theorem enter (h : Tracks c b) : Tracks c.enter b.enter := ⟨h.made, .cons .empty h.scopes⟩

theorem exit (h : Tracks c b) : Tracks c.exit b.exit := ⟨h.made, h.scopes.tail⟩

/-- A variable found in the checker's scopes is the declaration that its name means. -/
theorem resolve (h : Tracks c b) {name : String} {s : Symbol}
    (hs : c.scopes.lookup name = some s) (hf : s.isFunction = false) :
    (⟨some s.storage, b.resolve name⟩ : Occurrence).Named (storagesOf c.declared) := by
  obtain ⟨k, hk, hst⟩ := h.scopes.lookup hs hf
  exact ⟨k, s.storage, hk, rfl, hst⟩

/-- A declaration without a fault is the next one in the text, and its storage name the next. -/
theorem declareVar (h : Tracks c b) {name : String} {ty : Ty} {p : Position}
    (hf : (c.declareVar name ty p).faults = []) :
    Tracks (c.declareVar name ty p).after (b.declare name) ∧
      (c.declareVar name ty p).after.declared = name :: c.declared ∧
      (⟨(c.declareVar name ty p).value, some b.made⟩ : Occurrence).Named
        (storagesOf (name :: c.declared)) := by
  have hnext : (storagesOf (name :: c.declared))[b.made]? =
      some (storageFor name (c.declared.count name)) := by
    rw [storagesOf, h.made, ← storagesOf_length c.declared]
    simp
  unfold Checker.declareVar at hf ⊢
  dsimp only at hf ⊢
  split at hf
  · next scopes hd =>
    refine ⟨⟨by simp [Bindings.declare, h.made], ?_⟩, rfl, b.made, _, rfl, rfl, hnext⟩
    exact (h.scopes.mono (List.prefix_append _ _)).declare hd hnext
  · cases hf

theorem declareParams {params : List Param} {c : Checker} {b : Bindings} (h : Tracks c b)
    (hf : (c.declareParams params).faults = []) :
    Tracks (c.declareParams params).after (params.foldl (fun b x => b.declare x.name) b) ∧
      c.declared <:+ (c.declareParams params).after.declared := by
  induction params generalizing c b with
  | nil => exact ⟨h, List.suffix_rfl⟩
  | cons x params ih =>
    obtain ⟨hx, hparams⟩ := List.append_eq_nil_iff.mp hf
    obtain ⟨htracks, hgrows, -⟩ := h.declareVar hx
    obtain ⟨hafter, hmore⟩ := ih htracks hparams
    rw [hgrows] at hmore
    exact ⟨hafter, (List.suffix_cons _ _).trans hmore⟩

theorem store (h : Tracks c b) (name : String) (found : Ty) (p : Position)
    (target : Option Symbol) : Tracks (c.store name found p target).after b := by
  unfold Checker.store
  split
  · exact h
  · split
    · exact h
    · split
      · exact ⟨h.made, h.scopes.retype name found⟩
      · exact h

theorem bring (h : Tracks c b) (found : Ty) (p : Position) :
    Tracks (c.bring found p).after b := by
  unfold Checker.bring
  split
  · exact h
  · split
    · exact h
    · split
      · exact h
      · split
        · exact ⟨h.made, h.scopes.retypeAt _ _ _⟩
        · exact h

end Tracks

/-! ## Expressions -/

mutual

theorem Expr.check_named {c : Checker} {b : Bindings} (h : Tracks c b) : ∀ e : Expr,
    (Expr.check c.scopes e).2 = [] →
      ∀ o ∈ Expr.occurrences b (Expr.check c.scopes e).1, o.Named (storagesOf c.declared)
  | .literal _ _ _, _ => nofun
  | .var name _ p _, hf => by
    rw [Expr.check] at hf ⊢
    cases hs : c.scopes.lookup name with
    | none => simp [hs] at hf
    | some s =>
      cases hfun : s.isFunction with
      | true => simp [hs, hfun] at hf
      | false =>
        intro o ho
        simp only [hfun] at ho
        cases List.mem_singleton.mp ho
        exact h.resolve hs hfun
  | .binary _ left right _ _, hf => by
    simp only [Expr.check, List.append_eq_nil_iff] at hf
    have hleft := Expr.check_named h left hf.1.1
    have hright := Expr.check_named h right hf.1.2
    exact List.forall_mem_append.mpr ⟨hleft, hright⟩
  | .unary _ operand _ _, hf => by
    simp only [Expr.check, List.append_eq_nil_iff] at hf
    exact Expr.check_named h operand hf.1
  | .call _ args _ _, hf => by
    simp only [Expr.check, List.append_eq_nil_iff] at hf
    exact Expr.checkAll_named h args hf.2

theorem Expr.checkAll_named {c : Checker} {b : Bindings} (h : Tracks c b) : ∀ es : List Expr,
    (Expr.checkAll c.scopes es).2 = [] →
      ∀ o ∈ Expr.allOccurrences b (Expr.checkAll c.scopes es).1, o.Named (storagesOf c.declared)
  | [], _ => nofun
  | e :: es, hf => by
    simp only [Expr.checkAll, List.append_eq_nil_iff] at hf
    have he := Expr.check_named h e hf.1
    have hes := Expr.checkAll_named h es hf.2
    exact List.forall_mem_append.mpr ⟨he, hes⟩

end

/-! ## Statements -/

/-- Checking has gone on from `c` to `c'`, and every occurrence on the way is named. -/
structure Renamed (c c' : Checker) (w : Scoped) : Prop where
  tracks : Tracks c' w.after
  grows : c.declared <:+ c'.declared
  named : ∀ o ∈ w.found, o.Named (storagesOf c'.declared)

namespace Renamed

variable {c c' : Checker} {b : Bindings} {w : Scoped}

/-- A statement that declares nothing, whose occurrences are named. -/
theorem still (h : Tracks c' b) (hd : c'.declared = c.declared) {found : List Occurrence}
    (hn : ∀ o ∈ found, o.Named (storagesOf c.declared)) : Renamed c c' ⟨found, b⟩ :=
  ⟨h, hd ▸ List.suffix_rfl, hd ▸ hn⟩

theorem exit (h : Renamed c.enter c' w) : Renamed c c'.exit ⟨w.found, w.after.exit⟩ :=
  ⟨h.tracks.exit, h.grows, h.named⟩

/-- An expression before it. -/
theorem behind (h : Renamed c c' w) {found : List Occurrence}
    (hn : ∀ o ∈ found, o.Named (storagesOf c.declared)) :
    Renamed c c' ⟨found ++ w.found, w.after⟩ := by
  have hfound : ∀ o ∈ found, o.Named (storagesOf c'.declared) :=
    fun o ho => (hn o ho).mono (storagesOf_of_suffix h.grows)
  exact ⟨h.tracks, h.grows, List.forall_mem_append.mpr ⟨hfound, h.named⟩⟩

/-- One piece of the program after the other. -/
theorem append {c'' : Checker} {v : Scoped} (h : Renamed c c' w) (h' : Renamed c' c'' v) :
    Renamed c c'' ⟨w.found ++ v.found, v.after⟩ := by
  have hfirst : ∀ o ∈ w.found, o.Named (storagesOf c''.declared) :=
    fun o ho => (h.named o ho).mono (storagesOf_of_suffix h'.grows)
  exact ⟨h'.tracks, h.grows.trans h'.grows, List.forall_mem_append.mpr ⟨hfirst, h'.named⟩⟩

end Renamed

mutual

theorem Stmt.check_renamed {c : Checker} {b : Bindings} (h : Tracks c b) : ∀ s : Stmt,
    (Stmt.check c s).faults = [] →
      Renamed c (Stmt.check c s).after (Stmt.occurrences b (Stmt.check c s).value)
  | .declare name value _ p, hf => by
    simp only [Stmt.check, List.append_eq_nil_iff] at hf
    obtain ⟨htracks, hgrows, hnamed⟩ := h.declareVar hf.2
    have hvalue := Expr.check_named h value hf.1
    have hsuffix : c.declared <:+ name :: c.declared := List.suffix_cons _ _
    refine ⟨htracks, by rw [Stmt.check, hgrows]; exact hsuffix, fun o ho => ?_⟩
    rw [Stmt.check, hgrows]
    rcases List.mem_append.mp ho with ho | ho
    · exact (hvalue o ho).mono (storagesOf_of_suffix hsuffix)
    · cases List.mem_singleton.mp ho
      exact hnamed
  | .assign name value _ p, hf => by
    simp only [Stmt.check, List.append_eq_nil_iff] at hf
    obtain ⟨⟨htarget, hvalue⟩, -⟩ := hf
    refine .still (h.store name _ p _) (by simp) fun o ho => ?_
    rcases List.mem_cons.mp ho with rfl | ho
    · -- without a fault the target is a variable
      cases hs : c.scopes.lookup name with
      | none => rw [hs] at htarget; cases htarget
      | some s =>
        cases hfun : s.isFunction with
        | true => simp [hs, hfun, Checker.targetFaults] at htarget
        | false => simpa [Option.filter, hfun] using h.resolve hs hfun
    · exact Expr.check_named h value hvalue o ho
  | .define name params body p, hf => by
    rw [Stmt.check] at hf ⊢
    cases hd : c.scopes.declare (.function name (params.map Param.name) p) with
    | error existing => simp [hd, Checker.redeclared] at hf
    | ok scopes =>
      simp only [hd, List.append_eq_nil_iff] at hf ⊢
      have hscopes : StackTracks (storagesOf c.declared) scopes.stack b.scopes :=
        h.scopes.define hd rfl
      have hinner : Tracks { c with scopes := scopes.enter, inside := some (name, scopes.depth) }
          b.enter := ⟨h.made, .cons .empty hscopes⟩
      obtain ⟨hparams, hgrows⟩ := hinner.declareParams hf.1
      have hbody := Stmt.checkAll_renamed hparams body hf.2
      exact ⟨⟨hbody.tracks.made, hbody.tracks.scopes.tail⟩, hgrows.trans hbody.grows, hbody.named⟩
  | .call _ args _, hf => by
    simp only [Stmt.check, List.append_eq_nil_iff] at hf
    exact .still h rfl (Expr.checkAll_named h args hf.2)
  | .ifThen condition body _, hf | .loop condition body _, hf => by
    simp only [Stmt.check, List.append_eq_nil_iff] at hf
    exact (Stmt.checkAll_renamed h.enter body hf.2).exit.behind
      (Expr.check_named h condition hf.1)
  | .ifElse condition body otherwise _, hf => by
    simp only [Stmt.check, List.append_eq_nil_iff] at hf
    have hbody := (Stmt.checkAll_renamed h.enter body hf.1.2).exit.behind
      (Expr.check_named h condition hf.1.1)
    have hotherwise := Stmt.checkAll_renamed hbody.tracks.enter otherwise hf.2
    exact hbody.append hotherwise.exit
  | .bring value p, hf => by
    simp only [Stmt.check, List.append_eq_nil_iff] at hf
    exact .still (h.bring _ p) (by simp) (Expr.check_named h value hf.1)
  | .print value _, hf => .still h rfl (Expr.check_named h value hf)

theorem Stmt.checkAll_renamed {c : Checker} {b : Bindings} (h : Tracks c b) : ∀ ss : List Stmt,
    (Stmt.checkAll c ss).faults = [] →
      Renamed c (Stmt.checkAll c ss).after (Stmt.allOccurrences b (Stmt.checkAll c ss).value)
  | [], _ => .still h rfl nofun
  | s :: ss, hf => by
    simp only [Stmt.checkAll, List.append_eq_nil_iff] at hf
    have hs := Stmt.check_renamed h s hf.1
    exact hs.append (Stmt.checkAll_renamed hs.tracks ss hf.2)

end

/-! ## Programs -/

/-- **Main.** In an accepted program every occurrence of a variable has a storage name and a
declaration, and two occurrences have the same storage name if and only if they mean the same
declaration. -/
theorem storage_eq_iff {source : String} {c : Compilation} (h : Compilation.ofText source = .ok c) :
    (∀ o ∈ c.program.occurrences, o.storage.isSome ∧ o.declaration.isSome) ∧
      ∀ o ∈ c.program.occurrences, ∀ o' ∈ c.program.occurrences,
        o.storage = o'.storage ↔ o.declaration = o'.declaration := by
  obtain ⟨tree, htoks, htree, hfaults, hbody⟩ := Compilation.of_ofText h
  have hrenamed := Stmt.checkAll_renamed .start tree.body hfaults
  have hnodup := storagesOf_nodup fun x hx => declared_word htoks htree hx
  rw [Program.occurrences, hbody]
  refine ⟨fun o ho => ?_, fun o ho o' ho' => ?_⟩
  · obtain ⟨k, s, hk, hs, -⟩ := hrenamed.named o ho
    rw [hk, hs]
    exact ⟨rfl, rfl⟩
  · obtain ⟨k, s, hk, hs, hks⟩ := hrenamed.named o ho
    obtain ⟨k', s', hk', hs', hks'⟩ := hrenamed.named o' ho'
    rw [hk, hs, hk', hs', Option.some.injEq, Option.some.injEq]
    constructor
    · rintro rfl
      exact (List.getElem?_inj (List.getElem?_eq_some_iff.mp hks).1 hnodup).mp (hks.trans hks'.symm)
    · rintro rfl
      rw [hks, Option.some.injEq] at hks'
      exact hks'

/-- A global variable, a parameter and a local variable of one name. -/
def shadowingText : String :=
  "Wake Box x paws 1 Hunt f(x) \x7b Meow(x) \x7d " ++
    "Chase (x) \x7b x paws x Box x paws x Meow(x) \x7d Sleep"

theorem storage_eq_iff_shadowing :
    ∃ c, Compilation.ofText shadowingText = .ok c ∧
      c.program.occurrences =
        [⟨some "x", some 0⟩, ⟨some "x.1", some 1⟩, ⟨some "x", some 0⟩, ⟨some "x", some 0⟩,
          ⟨some "x", some 0⟩, ⟨some "x", some 0⟩, ⟨some "x.2", some 2⟩, ⟨some "x.2", some 2⟩] ∧
      (∀ o ∈ c.program.occurrences, o.storage.isSome ∧ o.declaration.isSome) ∧
      ∀ o ∈ c.program.occurrences, ∀ o' ∈ c.program.occurrences,
        o.storage = o'.storage ↔ o.declaration = o'.declaration := by
  have hfound : (Compilation.ofText shadowingText).toOption.map (·.program.occurrences) =
      some [⟨some "x", some 0⟩, ⟨some "x.1", some 1⟩, ⟨some "x", some 0⟩, ⟨some "x", some 0⟩,
        ⟨some "x", some 0⟩, ⟨some "x", some 0⟩, ⟨some "x.2", some 2⟩, ⟨some "x.2", some 2⟩] := by
    decide +kernel
  obtain ⟨c, hc, hoccurrences⟩ := Option.map_eq_some_iff.mp hfound
  have htext : Compilation.ofText shadowingText = .ok c := toOption_eq_some.mp hc
  exact ⟨c, htext, hoccurrences, storage_eq_iff htext⟩

end MeowScript
