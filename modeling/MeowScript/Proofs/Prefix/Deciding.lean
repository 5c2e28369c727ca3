import Mathlib.Computability.Language
import MeowScript.Proofs.Grammar.Readings

/-!
# Deciding at the first token that tells

A reader goes from left to right and never takes a token back. It decides early if what it took is
a word of its language, or begins one where it failed, and if it was the first token left, no later
one, that made it stop there. A mistake is then met no sooner than it must be, since the tokens
before it could have gone on well, and no later, since with that token they cannot.

Results:
* `Decides.andThen`, `Decides.recover`: early readers one after the other are early.
* `Decides.cons`, `Decides.here`, `Decides.congr`: a first token that is taken, one that stops the
  reader, and one that chooses between readers.
* `takeOne_decides`, `identifier_decides`: readers of one token.
-/
namespace MeowScript

variable {α β γ : Type}

/-! ## The first mistake of an account -/

namespace Account

/-- Where reading first stopped and why: at the first mistake, or without one at its end. -/
def FirstStop (x : Account α) (r : Reading α) : Prop :=
  match x.faults with
  | [] => x.reading = r
  | f :: _ => ∃ e u more, r = ⟨.error e, u :: more⟩ ∧ f = ⟨.expected e u.kind, u.position⟩

theorem firstStop_of {r r' : Reading α} : (of r).FirstStop r' ↔ r = r' := Iff.rfl

theorem of_andThen {r : Reading α} {f : α → List Token → Reading β} {r' : Reading β}
    (h : r' = r.andThen f) : of r' = (of r).andThen fun a rest => of (f a rest) := by
  subst h
  obtain ⟨result, rest⟩ := r
  cases result <;> rfl

theorem of_andThen_andThen {r : Reading α} {f : α → List Token → Reading β}
    {g : α → β → List Token → Reading γ} {r' : Reading γ}
    (h : r' = r.andThen fun a rest => (f a rest).andThen (g a)) :
    of r' = (of r).andThen fun a rest => (of (f a rest)).andThen fun b left => of (g a b left) := by
  rw [of_andThen h]
  congr
  funext a rest
  exact of_andThen rfl

namespace FirstStop

variable {x : Account α} {a : α} {e : Expected} {rest : List Token}

/-- Nothing was reported before a value. -/
theorem of_ok (h : x.FirstStop ⟨.ok a, rest⟩) : x = of ⟨.ok a, rest⟩ := by
  obtain ⟨faults, reading⟩ := x
  cases faults with
  | nil => exact congrArg of h
  | cons f faults =>
    obtain ⟨e, u, more, hr, -⟩ := h
    cases hr

/-- A fault, if one was reported, tells of the token there. -/
theorem of_error (h : x.FirstStop ⟨.error e, rest⟩) :
    x = of ⟨.error e, rest⟩ ∨
      ∃ u more faults reading, rest = u :: more ∧
        x = ⟨⟨.expected e u.kind, u.position⟩ :: faults, reading⟩ := by
  obtain ⟨faults, reading⟩ := x
  cases faults with
  | nil => exact .inl (congrArg of h)
  | cons f faults =>
    obtain ⟨e, u, more, hr, rfl⟩ := h
    cases hr
    exact .inr ⟨u, more, faults, reading, rfl, rfl⟩

theorem map {r : Reading α} (f : α → β) (h : x.FirstStop r) : (x.map f).FirstStop (r.map f) := by
  obtain ⟨faults, reading⟩ := x
  cases faults with
  | nil => exact congrArg (Reading.map f) h
  | cons g faults =>
    obtain ⟨e, u, more, rfl, hg⟩ := h
    exact ⟨e, u, more, rfl, hg⟩

theorem andThen_error (h : x.FirstStop ⟨.error e, rest⟩) (f : α → List Token → Account β) :
    (x.andThen f).FirstStop ⟨.error e, rest⟩ := by
  rcases h.of_error with rfl | ⟨u, more, faults, reading, rfl, rfl⟩
  · rfl
  · obtain ⟨result, left⟩ := reading
    cases result <;> exact ⟨e, u, more, rfl, rfl⟩

theorem recover_error (h : x.FirstStop ⟨.error e, rest⟩) (f : α → List Token → Account β)
    (g : List Token → Account β) : (x.recover f g).FirstStop ⟨.error e, rest⟩ := by
  rcases h.of_error with rfl | ⟨u, more, faults, reading, rfl, rfl⟩
  · cases rest with
    | nil => rfl
    | cons u more => exact ⟨e, u, more, rfl, rfl⟩
  · obtain ⟨result, left⟩ := reading
    cases result with
    | ok a => exact ⟨e, u, more, rfl, rfl⟩
    | error e' => cases left <;> exact ⟨e, u, more, rfl, rfl⟩

end FirstStop
end Account

open Account

theorem Recovered.rest_lt {n : Nat} {r : Recovered α n} {a : α} {rest : List Token}
    (h : r.account.FirstStop ⟨.ok a, rest⟩) : rest.length < n :=
  Attempt.rest_lt (congrArg Account.reading h.of_ok)

/-! ## Early decisions -/

/-- A value was read from a word, an error met on the way through one. -/
def Fits (L : Language Token) (used : List Token) : Except Expected α → Prop
  | .ok _ => used ∈ L
  | .error _ => ∃ more, used ++ more ∈ L

/-- The reader takes `used` and stops before `rest` with this result, whatever else stands behind
the first token of `rest`. -/
structure Decision (x : List Token → Account α) (L : Language Token) (used rest : List Token)
    (result : Except Expected α) : Prop where
  stops : ∀ rest', rest'.head? = rest.head? → (x (used ++ rest')).FirstStop ⟨result, rest'⟩
  fits : Fits L used result

/-- On `toks`, the reader decides early. -/
def Decides (x : List Token → Account α) (L : Language Token) (toks : List Token) : Prop :=
  ∃ used rest result, toks = used ++ rest ∧ Decision x L used rest result

namespace Decides

variable {x y : List Token → Account α} {L M : Language Token} {t : Token} {toks rest : List Token}

/-- The reader stops before the first token, because of it. -/
theorem here (result : Except Expected α)
    (h : ∀ toks', toks'.head? = toks.head? → (x toks').FirstStop ⟨result, toks'⟩)
    (hL : Fits L [] result) : Decides x L toks :=
  ⟨[], toks, result, rfl, h, hL⟩

/-- The first token, which is left, makes the reader go on as another one. -/
theorem congr (h : Decides y L toks)
    (hxy : ∀ toks', toks'.head? = toks.head? → x toks' = y toks') : Decides x L toks := by
  obtain ⟨used, rest, result, rfl, hstops, hfits⟩ := h
  refine ⟨used, rest, result, rfl, fun rest' hr => ?_, hfits⟩
  rw [hxy (used ++ rest') (by simp [hr])]
  exact hstops rest' hr

/-- The first token is taken, and makes the reader go on as another one. -/
theorem cons (h : Decides y M rest) (hxy : ∀ rest, x (t :: rest) = y rest)
    (hL : ∀ w ∈ M, t :: w ∈ L) : Decides x L (t :: rest) := by
  obtain ⟨used, rest, result, rfl, hstops, hfits⟩ := h
  refine ⟨t :: used, rest, result, rfl, fun rest' hr => ?_, ?_⟩
  · rw [List.cons_append, hxy]
    exact hstops rest' hr
  cases result with
  | ok a => exact hL used hfits
  | error e =>
    obtain ⟨more, hmore⟩ := hfits
    exact ⟨more, hL _ hmore⟩

theorem mono (h : Decides x M toks) (hL : ∀ w ∈ M, w ∈ L) : Decides x L toks := by
  obtain ⟨used, rest, result, rfl, hstops, hfits⟩ := h
  refine ⟨used, rest, result, rfl, hstops, ?_⟩
  cases result with
  | ok a => exact hL used hfits
  | error e =>
    obtain ⟨more, hmore⟩ := hfits
    exact ⟨more, hL _ hmore⟩

theorem map (f : α → β) (h : Decides x L toks) : Decides (fun toks => (x toks).map f) L toks := by
  obtain ⟨used, rest, result, rfl, hstops, hfits⟩ := h
  refine ⟨used, rest, result.map f, rfl, fun rest' hr => (hstops rest' hr).map f, ?_⟩
  cases result <;> exact hfits

/-- A reader that goes on after a value, and keeps the first mistake. -/
theorem sequence {y : List Token → Account β} {f : α → List Token → Account β}
    (h : Decides x L toks)
    (hf : ∀ a rest, (x toks).FirstStop ⟨.ok a, rest⟩ → Decides (f a) M rest) (hM : ∃ w, w ∈ M)
    (hok : ∀ toks a rest, (x toks).FirstStop ⟨.ok a, rest⟩ → y toks = f a rest)
    (herror : ∀ toks e rest, (x toks).FirstStop ⟨.error e, rest⟩ →
      (y toks).FirstStop ⟨.error e, rest⟩) : Decides y (L * M) toks := by
  obtain ⟨used, rest, result, rfl, hstops, hfits⟩ := h
  cases result with
  | error e =>
    -- the second reader is never asked: any of its words completes the first one's
    obtain ⟨more, hmore⟩ := hfits
    obtain ⟨w, hw⟩ := hM
    refine ⟨used, rest, .error e, rfl, fun rest' hr => herror _ e rest' (hstops rest' hr),
      more ++ w, ?_⟩
    rw [← List.append_assoc]
    exact Language.append_mem_mul hmore hw
  | ok a =>
    obtain ⟨used', rest', result, rfl, hstops', hfits'⟩ := hf a rest (hstops rest rfl)
    refine ⟨used ++ used', rest', result, (List.append_assoc ..).symm, fun later hl => ?_, ?_⟩
    · -- if the second reader takes nothing, both are stopped by the same token
      have hhead : (used' ++ later).head? = (used' ++ rest').head? := by simp [hl]
      rw [List.append_assoc, hok _ a _ (hstops _ hhead)]
      exact hstops' later hl
    · cases result with
      | ok b => exact Language.append_mem_mul hfits hfits'
      | error e =>
        obtain ⟨more, hmore⟩ := hfits'
        refine ⟨more, ?_⟩
        rw [List.append_assoc]
        exact Language.append_mem_mul hfits hmore

theorem andThen {f : α → List Token → Account β} (h : Decides x L toks)
    (hf : ∀ a rest, (x toks).FirstStop ⟨.ok a, rest⟩ → Decides (f a) M rest) (hM : ∃ w, w ∈ M) :
    Decides (fun toks => (x toks).andThen f) (L * M) toks := by
  refine h.sequence hf hM (fun toks a rest ha => ?_) fun toks e rest he => he.andThen_error f
  rw [ha.of_ok, of_ok_andThen]

theorem recover {f : α → List Token → Account β} (g : List Token → Account β) (h : Decides x L toks)
    (hf : ∀ a rest, (x toks).FirstStop ⟨.ok a, rest⟩ → Decides (f a) M rest) (hM : ∃ w, w ∈ M) :
    Decides (fun toks => (x toks).recover f g) (L * M) toks := by
  refine h.sequence hf hM (fun toks a rest ha => ?_) fun toks e rest he => he.recover_error f g
  rw [ha.of_ok]
  rfl

end Decides

/-! ## Words of one token -/

/-- One token of such a kind. -/
def oneToken (p : Kind → Prop) : Language Token := {w | ∃ t, w = [t] ∧ p t.kind}

theorem oneToken_inhabited {p : Kind → Prop} {k : Kind} (h : p k) : ∃ w, w ∈ oneToken p :=
  ⟨[⟨k, "", .start⟩], _, rfl, h⟩

theorem mul_inhabited {L M : Language Token} (hL : ∃ w, w ∈ L) (hM : ∃ w, w ∈ M) :
    ∃ w, w ∈ L * M := by
  obtain ⟨v, hv⟩ := hL
  obtain ⟨w, hw⟩ := hM
  exact ⟨v ++ w, Language.append_mem_mul hv hw⟩

theorem takeOne_decides (k : Kind) (e : Expected) (toks : List Token) :
    Decides (fun toks => .of (takeOne k e toks)) (oneToken (· = k)) toks := by
  rcases head_cases (· = k) toks with ⟨t, rest, rfl, ht⟩ | hnone
  · exact ⟨[t], rest, .ok (), rfl, fun rest' _ => if_pos ht, t, rfl, ht⟩
  · refine .here (.error e) (fun toks' hr => ?_) (oneToken_inhabited rfl)
    rw [← hr] at hnone
    cases toks' with
    | nil => rfl
    | cons u rest => exact if_neg (hnone u rfl)

theorem delimiter_decides (d : Delimiter) (toks : List Token) :
    Decides (fun toks => .of (delimiter d toks).reading) (oneToken (· = .delimiter d)) toks := by
  simp only [delimiter_reading]
  exact takeOne_decides _ _ toks

theorem paws_decides (toks : List Token) :
    Decides (fun toks => .of (paws toks).reading) (oneToken (· = .keyword .paws)) toks := by
  simp only [paws_reading]
  exact takeOne_decides _ _ toks

theorem identifier_decides (what : Expected) (toks : List Token) :
    Decides (fun toks => .of (identifier what toks).reading)
      (oneToken fun k => ∃ name, k = .identifier name) toks := by
  rcases head_cases (fun k => ∃ name, k = .identifier name) toks with
    ⟨t, rest, rfl, name, ht⟩ | hnone
  · exact ⟨[t], rest, .ok (name, t.position), rfl, fun rest' _ => identifier_reading ht what rest',
      t, rfl, name, ht⟩
  · refine .here (.error what) (fun toks' hr => ?_) (oneToken_inhabited ⟨"", rfl⟩)
    rw [← hr] at hnone
    exact identifier_reading_none what fun t ht name hname => hnone t ht ⟨name, hname⟩

end MeowScript
