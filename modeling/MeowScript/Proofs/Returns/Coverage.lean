import MeowScript.Proofs.Returns.Inference

/-!
# What a function brings and the type it has

The type of a function is that of what it brings first. Whatever it brings later is compared with
that, by the rule for comparisons: any two numbers go together. A variable takes less, for one of
whole numbers does not take a fraction. So a value that is brought later fits the function's type
unless it is a fraction and the first value was whole.

Results:
* `Stmt.check_agree`: what is brought without a fault can be compared with the function's type.
* `Ty.accepts_iff_of_comparable`: where the two rules differ.
* `brought_fits_iff`: which functions have a type that takes everything they bring.
* `brought_misfit`: one that has not.
-/
namespace MeowScript

theorem Ty.comparable_self (t : Ty) : t.comparable t = true := by cases t <;> rfl

/-- What can be compared can also be stored, but for a fraction among whole numbers. -/
theorem Ty.accepts_iff_of_comparable {declared found : Ty}
    (h : declared.comparable found = true) :
    declared.accepts found = true ↔ ¬ (declared = .integer ∧ found = .float) := by
  cases declared <;> cases found <;> simp_all [Ty.accepts, Ty.comparable, Ty.isNumeric]

/-! ## Types that go together -/

/-- Each of the types can be compared with the first known one. -/
def Consistent (ts : List Ty) : Prop := ∀ t ∈ ts, (firstKnown ts).comparable t = true

theorem Consistent.singleton (t : Ty) : Consistent [t] := by
  intro u hu
  rw [List.mem_singleton.mp hu, firstKnown_singleton]
  exact t.comparable_self

theorem eq_unknown_of_firstKnown {ts : List Ty} (h : firstKnown ts = .unknown) :
    ∀ t ∈ ts, t = .unknown := by
  induction ts with
  | nil => nofun
  | cons t ts ih =>
    rw [firstKnown] at h
    split at h
    · next ht => exact List.forall_mem_cons.mpr ⟨ht, ih h⟩
    · next ht => exact absurd h ht

theorem Consistent.append {ts us : List Ty} (h : Consistent ts)
    (h' : Consistent (firstKnown ts :: us)) : Consistent (ts ++ us) := by
  intro t ht
  rw [← firstKnown_firstKnown_cons]
  rcases List.mem_append.mp ht with ht | ht
  · by_cases hknown : firstKnown ts = .unknown
    · rw [eq_unknown_of_firstKnown hknown t ht]
      exact Ty.comparable_unknown _
    · rw [firstKnown, if_neg hknown]
      exact h t ht
  · exact h' t (List.mem_cons_of_mem _ ht)

/-! ## Statements -/

/-- The function around, with the types that are brought in it, as they agree with its own. -/
def Checker.Agrees (c : Checker) (ts : List Ty) : Prop :=
  ∀ (name : String) (depth : Nat) (x : Symbol), c.inside = some (name, depth) →
    c.scopes.lookupAt depth name = some x → x.isFunction = true → Consistent (x.ty :: ts)

namespace Checker.Agrees

variable {c c' : Checker} {ts us : List Ty}

theorem nil (c : Checker) : c.Agrees [] := fun _ _ x _ _ _ => .singleton x.ty

theorem append (h : c.Agrees ts) (hk : Keeps c c' ts) (h' : c'.Agrees us) :
    c.Agrees (ts ++ us) := by
  intro name depth x hin hx hf
  have hafter := hk.function hx hf
  rw [if_pos hin] at hafter
  exact (h name depth x hin hx hf).append (h' name depth _ (hk.inside.trans hin) hafter hf)

theorem of_enter (h : c.enter.Agrees ts) : c.Agrees ts :=
  fun name depth x hin hx hf => h name depth x hin (Scopes.lookupAt_enter hx) hf

theorem bring {found : Ty} {p : Position} (h : (c.bring found p).faults = []) :
    c.Agrees [found] := by
  intro name depth x hin hx hf t ht
  unfold Checker.bring at h
  rw [hin] at h
  dsimp only at h
  rw [firstKnown, firstKnown_singleton]
  rcases List.mem_cons.mp ht with rfl | ht
  · split
    · next hopen => rw [hopen, Ty.comparable_unknown]
    · exact Ty.comparable_self _
  · rw [List.mem_singleton.mp ht]
    split
    · exact found.comparable_self
    · next hty =>
      split at h
      · next hfound => rw [hfound, Ty.comparable_unknown]
      · rw [hx] at h
        dsimp only at h
        rw [if_neg hty] at h
        by_contra hbad
        rw [faultUnless, if_neg hbad] at h
        cases h

end Checker.Agrees

mutual

theorem Stmt.check_agree (c : Checker) : ∀ s : Stmt, (Stmt.check c s).faults = [] →
    c.Agrees (Stmt.check c s).value.brought
  | .declare _ _ _ _, _ | .assign _ _ _ _, _ | .call _ _ _, _ | .print _ _, _ => .nil c
  | .define name params body p, _ => by
    cases hd : c.scopes.declare (.function name (params.map Param.name) p) with
    | error existing =>
      rw [Stmt.check, hd]
      exact .nil c
    | ok scopes =>
      rw [Stmt.check_define hd]
      exact .nil c
  | .ifThen _ body _, h | .loop _ body _, h => by
    rw [Stmt.check, List.append_eq_nil_iff] at h
    exact (Stmt.checkAll_agree c.enter body h.2).of_enter
  | .ifElse _ body otherwise _, h => by
    rw [Stmt.check, List.append_eq_nil_iff, List.append_eq_nil_iff] at h
    have hbody := (Stmt.checkAll_agree c.enter body h.1.2).of_enter
    have hotherwise := (Stmt.checkAll_agree _ otherwise h.2).of_enter
    exact hbody.append (Stmt.checkAll_keeps c.enter body).block hotherwise
  | .bring value p, h => by
    rw [Stmt.check, List.append_eq_nil_iff] at h
    exact .bring h.2

theorem Stmt.checkAll_agree (c : Checker) : ∀ ss : List Stmt, (Stmt.checkAll c ss).faults = [] →
    c.Agrees (Stmt.allBrought (Stmt.checkAll c ss).value)
  | [], _ => .nil c
  | s :: ss, h => by
    rw [Stmt.checkAll, List.append_eq_nil_iff] at h
    have hs := Stmt.check_agree c s h.1
    exact hs.append (Stmt.check_keeps c s) (Stmt.checkAll_agree _ ss h.2)

end

/-! ## Programs -/

theorem Program.checkAll_of_check {p r : Program} (h : p.check = .ok r) :
    (Stmt.checkAll .start p.body).faults = [] := by
  unfold Program.check at h
  dsimp only at h
  split at h
  · next hnone => exact hnone
  · cases h

/-- A definition is checked without a fault only if its name is not taken. -/
theorem Stmt.declared_of_check {c : Checker} {name : String} {params : List Param}
    {body : List Stmt} {pos : Position}
    (h : (Stmt.check c (.define name params body pos)).faults = []) :
    ∃ scopes, c.scopes.declare (.function name (params.map Param.name) pos) = .ok scopes ∧
      (Stmt.checkAll (c.body scopes name params) body).faults = [] := by
  cases hd : c.scopes.declare (.function name (params.map Param.name) pos) with
  | error existing =>
    rw [Stmt.check, hd] at h
    cases h
  | ok scopes =>
    rw [Stmt.check_define hd, List.append_eq_nil_iff] at h
    exact ⟨scopes, rfl, h.2⟩

/-- **Main.** A function of an accepted program has one type wherever it is in scope, and everything
that it brings can be compared with that type. The type takes everything that the function brings
unless it is the type of whole numbers and a fraction is brought. -/
theorem brought_fits_iff {p r : Program} (hp : p.check = .ok r) {c : Checker} {name : String}
    {params : List Param} {body rest : List Stmt} {pos : Position}
    (hq : ⟨c, .define name params body pos :: rest⟩ ∈ p.points) :
    ∃ checked, (Stmt.check c (.define name params body pos)).value =
        .define name params checked pos ∧
      ∃ x : Symbol, x.isFunction = true ∧
        (∀ q ∈ Stmt.allPoints (Stmt.check c (.define name params body pos)).after rest,
          q.state.scopes.lookupAt c.scopes.depth name = some x) ∧
        (∀ t ∈ Stmt.allBrought checked, x.ty.comparable t = true) ∧
        ((∀ t ∈ Stmt.allBrought checked, x.ty.accepts t = true) ↔
          ¬ (x.ty = .integer ∧ .float ∈ Stmt.allBrought checked)) := by
  have hnone : (Stmt.checkAll c (.define name params body pos :: rest)).faults = [] :=
    List.eq_nil_of_subset_nil
      (Program.checkAll_of_check hp ▸ Stmt.allPoints_faults .start p.body _ hq)
  rw [Stmt.checkAll, List.append_eq_nil_iff] at hnone
  obtain ⟨scopes, hd, hbody⟩ := Stmt.declared_of_check hnone.1
  have hstanding : c.Standing := Checker.Standing.of_points hq
  have hfixed := hstanding.define hd body
  have hagree := Stmt.checkAll_agree _ body hbody _ _ _ (Checker.body_keeps hd).1
    (Checker.body_self hstanding.stack hd) rfl
  have hcomparable : ∀ t ∈ Stmt.allBrought (Stmt.checkAll (c.body scopes name params) body).value,
      ((c.declaredFunction name params pos).bringing (Stmt.allBrought
        (Stmt.checkAll (c.body scopes name params) body).value)).ty.comparable t = true :=
    fun t ht => hagree t (List.mem_cons_of_mem _ ht)
  refine ⟨_, by rw [Stmt.check_define hd], _, rfl, fun q hq => ?_, hcomparable, ?_, ?_⟩
  · exact ((Checker.Fixed.invariant rfl).allPoints hfixed rest q hq).found
  · intro hall hbad
    have hfloat := (Ty.accepts_iff_of_comparable (hcomparable _ hbad.2)).mp (hall _ hbad.2)
    exact hfloat ⟨hbad.1, rfl⟩
  · intro hgood t ht
    apply (Ty.accepts_iff_of_comparable (hcomparable t ht)).mpr
    rintro ⟨hinteger, rfl⟩
    exact hgood ⟨hinteger, ht⟩

/-- `Hunt f(n) { Purr (n) { Bring 1 / 2 } Bring 1 }`: a fraction first, then a whole number. -/
def widenedHunt : Stmt :=
  .define "f" [⟨"n", ⟨1, 13⟩⟩]
    [.ifThen (.var "n" none ⟨1, 24⟩ .unknown)
        [.bring (.binary .div (.literal (.integer 1) ⟨1, 35⟩ .unknown)
          (.literal (.integer 2) ⟨1, 39⟩ .unknown) ⟨1, 37⟩ .unknown) ⟨1, 29⟩] ⟨1, 18⟩,
      .bring (.literal (.integer 1) ⟨1, 49⟩ .unknown) ⟨1, 43⟩] ⟨1, 6⟩

/-- What the body of a definition brings. -/
def Stmt.bodyBrought : Stmt → List Ty
  | .define _ _ body _ => Stmt.allBrought body
  | _ => []

theorem brought_fits_widened : ∃ r x, Program.check ⟨[widenedHunt], .start⟩ = .ok r ∧
    ⟨.start, [widenedHunt]⟩ ∈ Program.points ⟨[widenedHunt], .start⟩ ∧
    (Stmt.check .start widenedHunt).after.scopes.lookupAt 0 "f" = some x ∧ x.ty = .float ∧
    (Stmt.check .start widenedHunt).value.bodyBrought = [.float, .integer] ∧
    ∀ t ∈ [.float, .integer], x.ty.accepts t = true := by
  have haccepted : (Program.check ⟨[widenedHunt], .start⟩).toOption.isSome = true := by
    decide +kernel
  obtain ⟨r, hr⟩ := Option.isSome_iff_exists.mp haccepted
  have hpoint : ⟨.start, [widenedHunt]⟩ ∈ Program.points ⟨[widenedHunt], .start⟩ :=
    List.mem_cons_self
  obtain ⟨checked, hvalue, x, -, hscope, -, hfits⟩ :=
    brought_fits_iff (toOption_eq_some.mp hr) hpoint
  have hbrought : (Stmt.check .start widenedHunt).value.bodyBrought = [.float, .integer] := by
    decide +kernel
  have hchecked : Stmt.allBrought checked = [.float, .integer] := by
    rw [← hbrought]
    exact (congrArg Stmt.bodyBrought hvalue).symm
  have hfound : (Stmt.check .start widenedHunt).after.scopes.lookupAt 0 "f" = some x :=
    hscope ⟨_, []⟩ (List.mem_singleton_self _)
  have hty : ((Stmt.check .start widenedHunt).after.scopes.lookupAt 0 "f").map Symbol.ty =
      some .float := by
    decide +kernel
  rw [hfound, Option.map_some, Option.some.injEq] at hty
  rw [hchecked, hty] at hfits
  refine ⟨r, x, toOption_eq_some.mp hr, hpoint, hfound, hty, hbrought, ?_⟩
  rw [hty]
  exact hfits.mpr fun hbad => Ty.noConfusion hbad.1

/-- A whole number first, then a fraction, and a variable of the function's type. -/
def narrowedText : String :=
  "Wake Hunt f(n) \x7b Purr (n) \x7b Bring 1 \x7d Bring 1 / 2 \x7d Box x paws f(0) Sleep"

def narrowedHunt : Stmt :=
  .define "f" [⟨"n", ⟨1, 13⟩⟩]
    [.ifThen (.var "n" none ⟨1, 24⟩ .unknown)
        [.bring (.literal (.integer 1) ⟨1, 35⟩ .unknown) ⟨1, 29⟩] ⟨1, 18⟩,
      .bring (.binary .div (.literal (.integer 1) ⟨1, 45⟩ .unknown)
        (.literal (.integer 2) ⟨1, 49⟩ .unknown) ⟨1, 47⟩ .unknown) ⟨1, 39⟩] ⟨1, 6⟩

def narrowedUse : Stmt :=
  .declare "x" (.call "f" [.literal (.integer 0) ⟨1, 66⟩ .unknown] ⟨1, 64⟩ .unknown) none ⟨1, 53⟩

/-- The text is accepted with the type of whole numbers for `f`, and `f` brings a fraction, which no
variable of that type takes. -/
theorem brought_misfit : ∃ tokens p r x, tokensOf narrowedText = .ok tokens ∧
    Program.ofTokens tokens = .ok p ∧ p.check = .ok r ∧
    ⟨.start, [narrowedHunt, narrowedUse]⟩ ∈ p.points ∧
    (Stmt.check .start narrowedHunt).after.scopes.lookupAt 0 "f" = some x ∧ x.ty = .integer ∧
    (Stmt.check .start narrowedHunt).value.bodyBrought = [.integer, .float] ∧
    ¬ ∀ t ∈ [.integer, .float], x.ty.accepts t = true := by
  have hread : (tokensOf narrowedText).toOption.bind (fun tokens =>
      (Program.ofTokens tokens).toOption.map Program.body) = some [narrowedHunt, narrowedUse] := by
    with_unfolding_all rfl
  obtain ⟨tokens, htokens, htree⟩ := Option.bind_eq_some_iff.mp hread
  obtain ⟨p, hp, hbody⟩ := Option.map_eq_some_iff.mp htree
  have haccepted : ((tokensOf narrowedText).toOption.bind fun tokens =>
      (Program.ofTokens tokens).toOption.bind fun p => p.check.toOption).isSome = true := by
    decide +kernel
  rw [htokens, Option.bind_some, hp, Option.bind_some] at haccepted
  obtain ⟨r, hr⟩ := Option.isSome_iff_exists.mp haccepted
  have hpoint : ⟨.start, [narrowedHunt, narrowedUse]⟩ ∈ p.points := by
    rw [Program.points, hbody, Stmt.allPoints]
    exact List.mem_cons_self
  have hbrought : (Stmt.check .start narrowedHunt).value.bodyBrought = [.integer, .float] := by
    decide +kernel
  have hty : ((Stmt.check .start narrowedHunt).after.scopes.lookupAt 0 "f").map Symbol.ty =
      some .integer := by
    decide +kernel
  obtain ⟨x, hx, hinteger⟩ := Option.map_eq_some_iff.mp hty
  refine ⟨tokens, p, r, x, toOption_eq_some.mp htokens, toOption_eq_some.mp hp,
    toOption_eq_some.mp hr, hpoint, hx, hinteger, hbrought, fun hall => ?_⟩
  have hfloat := hall .float (by decide)
  rw [hinteger] at hfloat
  cases hfloat

end MeowScript
