import MeowScript.Check.Typing
import MeowScript.Proofs.Typing.Run

/-!
# Typing rules and what they promise

The rules are about annotated trees, and know nothing of scopes: every storage name has one type in
the whole program (`Γ`), and the rules keep track of the storage names that have been written
(`live`). A statement that follows the rules can be run, whatever the numbers come out as, and the
rest of the program still follows them.

Results:
* `BinaryOp.resultTag_fits`: operators are typed correctly.
* `Expr.Typed.run`: an expression gives a value that fits its type.
* `Stmt.Typed.step`, `Snapshot.Sound.step`: one step of a run.
* `Snapshot.Sound.reaches`: any number of steps.
-/
namespace MeowScript

/-! ## Tags and types -/

namespace Tag

theorem isNumber_of_fits {t : Tag} {ty : Ty} (h : t.fits ty = true) :
    t.isNumber = ty.isNumeric := by
  cases t <;> cases ty <;> first | rfl | cases h

theorem fits_string {t : Tag} {ty : Ty} (h : t.fits ty = true) : t = .string ↔ ty = .string := by
  cases t <;> cases ty <;> simp_all [fits]

theorem eq_integer_of_fits {t : Tag} (h : t.fits .integer = true) : t = .integer := by
  cases t <;> first | rfl | cases h

theorem known_of_fits {t : Tag} {ty : Ty} (h : t.fits ty = true) : ty ≠ .unknown := by
  rintro rfl
  cases t <;> cases h

theorem exists_fits {ty : Ty} (h : ty ≠ .unknown) : ∃ t : Tag, t.fits ty = true := by
  cases ty with
  | integer => exact ⟨.integer, rfl⟩
  | float => exact ⟨.float, rfl⟩
  | string => exact ⟨.string, rfl⟩
  | unknown => exact absurd rfl h

/-- What may be assigned fits. -/
theorem fits_of_accepts {t : Tag} {declared found : Ty} (h : t.fits found = true)
    (hd : declared ≠ .unknown) (ha : declared.accepts found = true) : t.fits declared = true := by
  cases t <;> cases declared <;> cases found <;> simp_all [fits, Ty.accepts]

end Tag

namespace Ty

theorem numeric_of_takes {op : BinaryOp} {a b : Ty} (harith : op.isArithmetic = true)
    (hj : op.joins a b = false) (ha : a ≠ .unknown) (hb : b ≠ .unknown)
    (h : op.takes a b = true) : a.isNumeric = true ∧ b.isNumeric = true := by
  rw [BinaryOp.takes, if_pos harith, hj] at h
  simpa [ha, hb] using h

theorem isNumeric_eq_of_comparable {a b : Ty} (ha : a ≠ .unknown) (hb : b ≠ .unknown)
    (h : a.comparable b = true) : a.isNumeric = b.isNumeric := by
  cases a <;> cases b <;> first | rfl | contradiction

end Ty

namespace BinaryOp

/-- The tag of a result by the classes of operators that the checker knows. -/
theorem resultTag_eq (op : BinaryOp) (a b : Tag) : op.resultTag a b =
    if op.isArithmetic then
      if a = .string ∨ b = .string then if op = .add then some .string else none
      else if a = .integer ∧ b = .integer ∧ op ≠ .div then some .integer
      else some .float
    else if op.isComparison then if a.isNumber = b.isNumber then some .integer else none
    else some .integer := by
  cases op <;> cases a <;> cases b <;> rfl

variable {op : BinaryOp} {a b : Ty} {s t : Tag}

theorem resultTag_join (hs : s.fits a = true) (ht : t.fits b = true) (hj : op.joins a b = true) :
    op.resultTag s t = some .string ∧ op.resultType a b = .string := by
  have hop : op = .add ∧ (a = .string ∨ b = .string) := by simpa [joins] using hj
  obtain ⟨rfl, hstring⟩ := hop
  have htags : s = .string ∨ t = .string :=
    hstring.imp (Tag.fits_string hs).mpr (Tag.fits_string ht).mpr
  refine ⟨?_, ?_⟩
  · rw [resultTag_eq, if_pos (by rfl), if_pos htags, if_pos rfl]
  · rw [resultType, if_pos (by rfl), if_pos hj]

/-- Without texts there are numbers, and a fraction is expected wherever one can come out. -/
theorem resultTag_number (hs : s.fits a = true) (ht : t.fits b = true)
    (harith : op.isArithmetic = true) (hj : op.joins a b = false) (ha : a.isNumeric = true)
    (hb : b.isNumeric = true) :
    ∃ r, op.resultTag s t = some r ∧ r.fits (op.resultType a b) = true := by
  have hs' : s.isNumber = true := (Tag.isNumber_of_fits hs).trans ha
  have ht' : t.isNumber = true := (Tag.isNumber_of_fits ht).trans hb
  have hstring : ¬ (s = .string ∨ t = .string) := by
    rintro (rfl | rfl)
    · cases hs'
    · cases ht'
  rw [resultTag_eq, if_pos harith, if_neg hstring, resultType, if_pos harith, hj, ha, hb]
  by_cases hwhole : s = .integer ∧ t = .integer ∧ op ≠ .div
  · rw [if_pos hwhole]
    refine ⟨.integer, rfl, ?_⟩
    simp only [Bool.false_eq_true, if_false, Bool.and_self, if_true]
    split <;> rfl
  · rw [if_neg hwhole]
    refine ⟨.float, rfl, ?_⟩
    simp only [Bool.false_eq_true, if_false, Bool.and_self, if_true]
    split
    · rfl
    · next hnot =>
      -- a whole type on both sides would make both values whole
      have hnone : op ≠ .div ∧ a ≠ .float ∧ b ≠ .float := by simpa [and_assoc] using hnot
      have hai : a = .integer := by cases a <;> first | rfl | simp_all [Ty.isNumeric]
      have hbi : b = .integer := by cases b <;> first | rfl | simp_all [Ty.isNumeric]
      subst hai hbi
      exact absurd ⟨Tag.eq_integer_of_fits hs, Tag.eq_integer_of_fits ht, hnone.1⟩ hwhole

/-- Where types are taken, so are the tags that fit them, and the result fits. -/
theorem resultTag_fits (hs : s.fits a = true) (ht : t.fits b = true) (h : op.takes a b = true) :
    ∃ r, op.resultTag s t = some r ∧ r.fits (op.resultType a b) = true := by
  have ha := Tag.known_of_fits hs
  have hb := Tag.known_of_fits ht
  by_cases harith : op.isArithmetic = true
  · cases hj : op.joins a b with
    | true =>
      obtain ⟨htag, hty⟩ := resultTag_join hs ht hj
      exact ⟨.string, htag, by rw [hty]; rfl⟩
    | false =>
      obtain ⟨hna, hnb⟩ := Ty.numeric_of_takes harith hj ha hb h
      exact resultTag_number hs ht harith hj hna hnb
  · rw [takes, if_neg harith] at h
    rw [resultTag_eq, if_neg harith, resultType, if_neg harith]
    by_cases hcomp : op.isComparison = true
    · have hsame : s.isNumber = t.isNumber := by
        rw [Tag.isNumber_of_fits hs, Tag.isNumber_of_fits ht]
        exact Ty.isNumeric_eq_of_comparable ha hb (by simpa [hcomp] using h)
      exact ⟨.integer, by rw [if_pos hcomp, if_pos hsame], rfl⟩
    · exact ⟨.integer, by rw [if_neg hcomp], rfl⟩

theorem apply_fits (A : Arithmetic) {v w : Value} (hv : v.tag.fits a = true)
    (hw : w.tag.fits b = true) (h : op.takes a b = true) :
    ∃ r, op.apply A v w = .ok r ∧ r.tag.fits (op.resultType a b) = true := by
  obtain ⟨tag, htag, hfits⟩ := resultTag_fits hv hw h
  rw [BinaryOp.apply, htag]
  cases tag with
  | integer => exact ⟨_, rfl, hfits⟩
  | float => exact ⟨_, rfl, hfits⟩
  | string => exact ⟨_, rfl, hfits⟩

end BinaryOp

theorem UnaryOp.apply_fits (A : Arithmetic) {op : UnaryOp} {a : Ty} {v : Value}
    (hv : v.tag.fits a = true) (h : op.takes a = true) :
    ∃ r, op.apply A v = .ok r ∧ r.tag.fits (op.resultType a) = true := by
  cases op with
  | not => exact ⟨_, rfl, rfl⟩
  | neg =>
    have hnumeric : a.isNumeric = true := by
      simpa [UnaryOp.takes, Tag.known_of_fits hv] using h
    rw [UnaryOp.resultType, if_pos hnumeric]
    cases v with
    | integer n => exact ⟨_, rfl, hv⟩
    | float x => exact ⟨_, rfl, hv⟩
    | string s =>
      rw [(Tag.fits_string hv).mp rfl] at hnumeric
      cases hnumeric

/-! ## The rules -/

/-- The types of variables, by their storage names. -/
abbrev Types := String → Option Ty

/-- The annotations of the expression are right, if the storage names in `live` have been
written. -/
inductive Expr.Typed (Γ : Types) (live : List String) : Expr → Prop where
  | literal {v : Literal} {p : Position} : Typed Γ live (.literal v p v.ty)
  | var {name s : String} {p : Position} {ty : Ty} :
      s ∈ live → Γ s = some ty → ty ≠ .unknown → Typed Γ live (.var name (some s) p ty)
  | binary {op : BinaryOp} {left right : Expr} {p : Position} :
      Typed Γ live left → Typed Γ live right → op.takes left.ty right.ty = true →
      Typed Γ live (.binary op left right p (op.resultType left.ty right.ty))
  | unary {op : UnaryOp} {operand : Expr} {p : Position} :
      Typed Γ live operand → op.takes operand.ty = true →
      Typed Γ live (.unary op operand p (op.resultType operand.ty))

/-- What has been written behind a statement: a block makes no promise. -/
def Stmt.live (live : List String) : Stmt → List String
  | .declare name _ storage _ => storage.getD name :: live
  | _ => live

mutual

/-- The annotations of the statement are right; there are no functions. -/
def Stmt.Typed (Γ : Types) (live : List String) : Stmt → Prop
  | .declare name e storage _ => e.Typed Γ live ∧ Γ (storage.getD name) = some e.ty
  | .assign name e storage _ =>
    e.Typed Γ live ∧ storage.getD name ∈ live ∧
      ∃ ty, Γ (storage.getD name) = some ty ∧ ty ≠ .unknown ∧ ty.accepts e.ty = true
  | .ifThen e body _ | .loop e body _ => e.Typed Γ live ∧ Stmt.AllTyped Γ live body
  | .ifElse e body otherwise _ =>
    e.Typed Γ live ∧ Stmt.AllTyped Γ live body ∧ Stmt.AllTyped Γ live otherwise
  | .print e _ => e.Typed Γ live
  | .define _ _ _ _ | .call _ _ _ | .bring _ _ => False

def Stmt.AllTyped (Γ : Types) (live : List String) : List Stmt → Prop
  | [] => True
  | s :: ss => Stmt.Typed Γ live s ∧ Stmt.AllTyped Γ (s.live live) ss

end

variable {Γ : Types} {live more : List String}

/-! ## Expressions -/

/-- The storage names in `live` have been written, and what is written fits. -/
structure Memory.Sound (Γ : Types) (live : List String) (m : Memory) : Prop where
  written : ∀ s ∈ live, ∃ v, m s = some v
  fits : ∀ s v ty, m s = some v → Γ s = some ty → v.tag.fits ty = true

theorem Literal.toValue_fits (v : Literal) : v.toValue.tag.fits v.ty = true := by
  cases v <;> rfl

/-- A typed expression gives a value that fits its type. -/
theorem Expr.Typed.run {e : Expr} (h : e.Typed Γ live) {m : Memory} (hm : m.Sound Γ live)
    (A : Arithmetic) : ∃ v, e.run A m = .ok v ∧ v.tag.fits e.ty = true := by
  induction h with
  | @literal v p => exact ⟨v.toValue, rfl, v.toValue_fits⟩
  | @var name s p ty hs hty _ =>
    obtain ⟨v, hv⟩ := hm.written s hs
    refine ⟨v, ?_, hm.fits s v ty hv hty⟩
    simp [Expr.run, hv]
  | @binary op left right p _ _ htakes ihl ihr =>
    obtain ⟨v, hv, hvf⟩ := ihl
    obtain ⟨w, hw, hwf⟩ := ihr
    obtain ⟨r, hr, hrf⟩ := BinaryOp.apply_fits A hvf hwf htakes
    refine ⟨r, ?_, hrf⟩
    rw [Expr.run, hv, hw]
    exact hr
  | @unary op operand p _ htakes ih =>
    obtain ⟨v, hv, hvf⟩ := ih
    obtain ⟨r, hr, hrf⟩ := UnaryOp.apply_fits A hvf htakes
    refine ⟨r, ?_, hrf⟩
    rw [Expr.run, hv]
    exact hr

theorem Expr.Typed.nodes {e : Expr} (h : e.Typed Γ live) : ∀ x ∈ e.nodes, x.Typed Γ live := by
  induction h with
  | literal =>
    intro x hx
    rw [List.mem_singleton.mp hx]
    exact .literal
  | var hs hty hknown =>
    intro x hx
    rw [List.mem_singleton.mp hx]
    exact .var hs hty hknown
  | binary hl hr htakes ihl ihr =>
    intro x hx
    rcases List.mem_cons.mp hx with rfl | hx
    · exact .binary hl hr htakes
    · rcases List.mem_append.mp hx with hx | hx
      · exact ihl x hx
      · exact ihr x hx
  | unary he htakes ih =>
    intro x hx
    rcases List.mem_cons.mp hx with rfl | hx
    · exact .unary he htakes
    · exact ih x hx

theorem Expr.Typed.mono {e : Expr} (h : e.Typed Γ live) (hl : live ⊆ more) :
    e.Typed Γ more := by
  induction h with
  | literal => exact .literal
  | var hs hty hknown => exact .var (hl hs) hty hknown
  | binary _ _ htakes ihl ihr => exact .binary ihl ihr htakes
  | unary _ htakes ih => exact .unary ih htakes

/-- The type of a typed expression is known: some value fits it. -/
theorem Expr.Typed.known {e : Expr} (h : e.Typed Γ live) : e.ty ≠ .unknown := by
  induction h with
  | @literal v _ => cases v <;> simp [Expr.ty, Literal.ty]
  | var _ _ hknown => exact hknown
  | binary _ _ htakes ihl ihr =>
    obtain ⟨s, hs⟩ := Tag.exists_fits ihl
    obtain ⟨t, ht⟩ := Tag.exists_fits ihr
    obtain ⟨r, -, hr⟩ := BinaryOp.resultTag_fits hs ht htakes
    exact Tag.known_of_fits hr
  | @unary op operand _ _ htakes ih =>
    cases op with
    | not => exact Ty.noConfusion
    | neg =>
      have hnumeric : operand.ty.isNumeric = true := by simpa [UnaryOp.takes, ih] using htakes
      rw [Expr.ty, UnaryOp.resultType, if_pos hnumeric]
      exact ih

/-! ## Statements -/

theorem Stmt.subset_live (s : Stmt) (live : List String) : live ⊆ s.live live := by
  cases s with
  | declare => exact List.subset_cons_self _ _
  | _ => exact fun _ h => h

theorem Stmt.live_mono (s : Stmt) (h : live ⊆ more) : s.live live ⊆ s.live more := by
  cases s with
  | declare => exact List.cons_subset_cons _ h
  | _ => exact h

mutual

theorem Stmt.Typed.mono {live more : List String} (hl : live ⊆ more) :
    ∀ {s : Stmt}, s.Typed Γ live → s.Typed Γ more
  | .declare _ _ _ _, h => ⟨h.1.mono hl, h.2⟩
  | .assign _ _ _ _, h => ⟨h.1.mono hl, hl h.2.1, h.2.2⟩
  | .ifThen _ _ _, h | .loop _ _ _, h => ⟨h.1.mono hl, Stmt.AllTyped.mono hl h.2⟩
  | .ifElse _ _ _ _, h =>
    ⟨h.1.mono hl, Stmt.AllTyped.mono hl h.2.1, Stmt.AllTyped.mono hl h.2.2⟩
  | .print _ _, h => Expr.Typed.mono h hl

theorem Stmt.AllTyped.mono {live more : List String} (hl : live ⊆ more) :
    ∀ {ss : List Stmt}, Stmt.AllTyped Γ live ss → Stmt.AllTyped Γ more ss
  | [], _ => trivial
  | s :: _, h => ⟨h.1.mono hl, Stmt.AllTyped.mono (s.live_mono hl) h.2⟩

end

/-- A block may be put in front of what is typed without it. -/
theorem Stmt.AllTyped.append {ss rest : List Stmt} (h : Stmt.AllTyped Γ live ss)
    (hr : Stmt.AllTyped Γ live rest) : Stmt.AllTyped Γ live (ss ++ rest) := by
  induction ss generalizing live with
  | nil => exact hr
  | cons s ss ih => exact ⟨h.1, ih h.2 (hr.mono (s.subset_live live))⟩

mutual

theorem Stmt.Typed.known {live : List String} :
    ∀ {s : Stmt}, s.Typed Γ live → ∀ e ∈ s.nodes, e.ty ≠ .unknown
  | .declare _ _ _ _, h, e, he | .assign _ _ _ _, h, e, he => (h.1.nodes e he).known
  | .ifThen _ _ _, h, e, he | .loop _ _ _, h, e, he => by
    rcases List.mem_append.mp he with he | he
    · exact (h.1.nodes e he).known
    · exact Stmt.AllTyped.known h.2 e he
  | .ifElse _ _ _ _, h, e, he => by
    rcases List.mem_append.mp he with he | he
    · rcases List.mem_append.mp he with he | he
      · exact (h.1.nodes e he).known
      · exact Stmt.AllTyped.known h.2.1 e he
    · exact Stmt.AllTyped.known h.2.2 e he
  | .print _ _, h, e, he => (Expr.Typed.nodes h e he).known

theorem Stmt.AllTyped.known {live : List String} :
    ∀ {ss : List Stmt}, Stmt.AllTyped Γ live ss → ∀ e ∈ Stmt.allNodes ss, e.ty ≠ .unknown
  | [], _, _, he => absurd he List.not_mem_nil
  | _ :: _, h, e, he => by
    rcases List.mem_append.mp he with he | he
    · exact Stmt.Typed.known h.1 e he
    · exact Stmt.AllTyped.known h.2 e he

end

/-! ## Runs -/

/-- What is still to be run is typed, and the memory fits. -/
structure Snapshot.Sound (Γ : Types) (live : List String) (m : Snapshot) : Prop where
  todo : Stmt.AllTyped Γ live m.todo
  memory : Memory.Sound Γ live m.memory

theorem Memory.Sound.write {m : Memory} (h : m.Sound Γ live) {s : String} {v : Value} {ty : Ty}
    (hs : Γ s = some ty) (hv : v.tag.fits ty = true) (hl : more ⊆ s :: live) :
    Memory.Sound Γ more (Function.update m s (some v)) := by
  refine ⟨fun x hx => ?_, fun x w u hw hu => ?_⟩
  · by_cases hxs : x = s
    · exact ⟨v, by rw [hxs, Function.update_self]⟩
    · rw [Function.update_of_ne hxs]
      exact h.written x ((List.mem_cons.mp (hl hx)).resolve_left hxs)
  · by_cases hxs : x = s
    · subst hxs
      rw [Function.update_self, Option.some.injEq] at hw
      rw [hs, Option.some.injEq] at hu
      rw [← hw, ← hu]
      exact hv
    · rw [Function.update_of_ne hxs] at hw
      exact h.fits x w u hw hu

theorem map_of_ok {ε α β : Type} {x : Except ε α} {v : α} (h : x = .ok v) (f : α → β) :
    x.map f = .ok (f v) := by
  rw [h]
  rfl

/-- A typed statement can be run, and what is then left to run is typed. -/
theorem Stmt.Typed.step {s : Stmt} (h : s.Typed Γ live) {m : Memory} (hm : m.Sound Γ live)
    {rest : List Stmt} (hrest : Stmt.AllTyped Γ (s.live live) rest) (A : Arithmetic) :
    ∃ m', s.step A m rest = .ok m' ∧ ∃ more, m'.Sound Γ more := by
  cases s with
  | declare name e storage p =>
    obtain ⟨v, hv, hfits⟩ := h.1.run hm A
    exact ⟨_, map_of_ok hv _, _, hrest, hm.write h.2 hfits (List.Subset.refl _)⟩
  | assign name e storage p =>
    obtain ⟨he, -, ty, hty, hknown, haccepts⟩ := h
    obtain ⟨v, hv, hfits⟩ := he.run hm A
    have hfits' := Tag.fits_of_accepts hfits hknown haccepts
    exact ⟨_, map_of_ok hv _, _, hrest, hm.write hty hfits' (List.subset_cons_self _ _)⟩
  | ifThen e body p =>
    obtain ⟨v, hv, -⟩ := h.1.run hm A
    refine ⟨_, map_of_ok hv _, live, ?_, hm⟩
    dsimp only
    split
    · exact h.2.append hrest
    · exact hrest
  | ifElse e body otherwise p =>
    obtain ⟨v, hv, -⟩ := h.1.run hm A
    refine ⟨_, map_of_ok hv _, live, ?_, hm⟩
    dsimp only
    split
    · exact h.2.1.append hrest
    · exact h.2.2.append hrest
  | loop e body p =>
    obtain ⟨v, hv, -⟩ := h.1.run hm A
    refine ⟨_, map_of_ok hv _, live, ?_, hm⟩
    dsimp only
    split
    · exact h.2.append ⟨h, hrest⟩
    · exact hrest
  | print e p =>
    obtain ⟨v, hv, -⟩ := Expr.Typed.run h hm A
    exact ⟨_, map_of_ok hv _, live, hrest, hm⟩
  | define | call | bring => exact h.elim

theorem Stmt.Typed.computes {s : Stmt} (h : s.Typed Γ live) {e : Expr} (he : e ∈ s.computes) :
    e.Typed Γ live := by
  cases s with
  | declare | assign | ifThen | ifElse | loop => exact h.1.nodes e he
  | print => exact Expr.Typed.nodes h e he
  | define | call | bring => exact h.elim

namespace Snapshot.Sound

variable {m m' : Snapshot}

/-- A sound snapshot can make a step, and comes to a sound one. -/
theorem step (h : m.Sound Γ live) (A : Arithmetic) :
    ∃ m', m.step A = .ok m' ∧ ∃ more, m'.Sound Γ more := by
  obtain ⟨todo, memory⟩ := m
  cases todo with
  | nil => exact ⟨_, rfl, live, h⟩
  | cons s rest => exact h.todo.1.step h.memory h.todo.2 A

theorem reaches {n : Nat} (h : m.Sound Γ live) (hr : Reaches n m m') :
    ∃ more, m'.Sound Γ more := by
  induction hr with
  | refl => exact ⟨live, h⟩
  | @step n a b c A _ hstep ih =>
    obtain ⟨more, hb⟩ := ih h
    obtain ⟨c', hc, hsound⟩ := hb.step A
    rw [hstep, Except.ok.injEq] at hc
    exact hc ▸ hsound

/-- What the next statement computes comes out, and fits. -/
theorem computes (h : m.Sound Γ live) (A : Arithmetic) {s : Stmt} (hs : s ∈ m.todo.head?)
    {e : Expr} (he : e ∈ s.computes) :
    ∃ v, e.run A m.memory = .ok v ∧ v.tag.fits e.ty = true := by
  obtain ⟨todo, memory⟩ := m
  cases todo with
  | nil => cases hs
  | cons t rest =>
    cases hs
    exact (h.todo.1.computes he).run h.memory A

end Snapshot.Sound

end MeowScript
