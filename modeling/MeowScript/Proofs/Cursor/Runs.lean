import MeowScript.Grammar.Cursor
import MeowScript.Proofs.Prefix.FirstFault
import MeowScript.Proofs.Progress.Forward

/-!
# Runs of a cursor

A method gives a value if it returns, and asks for no token out of bounds on the way: if there is a
number of calls with which it returns the value, and with fewer it only runs out of them. A tape is
a list of tokens cut at its first end of input; on a tape the cursor stands before what is ahead of
it. The steps that take or look at one token are stated for the head of what is ahead, and a reader
is related to an account: the value or the mistake of a reader of lists, what that leaves, and what
it reports.

Results:
* `Gives.bind`, `Gives.andThen`, `Gives.stops`: steps and readers one after the other.
* `Tape.peek_gives`, `Tape.advance_gives`, `Tape.synchronize_gives`: the steps on a tape. Recovery
  stops at the end of the input, because that is a landmark.
* `Tape.Reads.bind` and the like: how the account of a reader is put together.
-/
namespace MeowScript

variable {α β : Type}

/-! ## Methods that return -/

namespace Cursor

variable {c c' c'' : Cursor} {a : α} {b : β}

/-- Begun at `c`, the method returns `a` if enough calls may be under way, and runs out of them if
not; the cursor is at `c'` then. -/
def Gives (p : Nat → Step α) (c : Cursor) (a : α) (c' : Cursor) : Prop :=
  ∃ enough, ∀ n, ((p n).run c).run = if n < enough then none else some (.ok (a, c'))

/-- What a run returns with some number of calls is what the method gives. -/
theorem Gives.eq_of_run {p : Nat → Step α} {a' : α} {n : Nat} (h : Gives p c a c')
    (hrun : ((p n).run c).run = some (.ok (a', c''))) : a = a' ∧ c' = c'' := by
  obtain ⟨enough, h⟩ := h
  rw [h n] at hrun
  split at hrun
  · cases hrun
  · simpa using hrun

theorem Gives.unique {p : Nat → Step α} {a' : α} (h : Gives p c a c') (h' : Gives p c a' c'') :
    a = a' ∧ c' = c'' := by
  obtain ⟨enough, h'⟩ := h'
  exact h.eq_of_run ((h' enough).trans (if_neg (Nat.lt_irrefl enough)))

namespace Gives

/-- A step calls nothing. -/
theorem step {p : Step α} (h : (p.run c).run = some (.ok (a, c'))) : Gives (fun _ => p) c a c' :=
  ⟨0, fun _ => h⟩

/-- One call is the method's own. -/
theorem succ {p : Nat → Step α} (hnone : ((p 0).run c).run = none)
    (h : Gives (fun n => p (n + 1)) c a c') : Gives p c a c' := by
  obtain ⟨N, h⟩ := h
  refine ⟨N + 1, fun n => ?_⟩
  cases n with
  | zero => rw [hnone, if_pos (Nat.succ_pos N)]
  | succ n =>
    rw [h n]
    simp only [Nat.add_lt_add_iff_right]

theorem pure (a : α) (c : Cursor) : Gives (fun _ => pure a) c a c := .step rfl

theorem bind {p : Nat → Step α} {q : Nat → α → Step β} (hp : Gives p c a c')
    (hq : Gives (fun n => q n a) c' b c'') : Gives (fun n => p n >>= q n) c b c'' := by
  obtain ⟨N, hp⟩ := hp
  obtain ⟨M, hq⟩ := hq
  refine ⟨max N M, fun n => ?_⟩
  rw [StateT.run_bind, ExceptT.run_bind, hp n]
  by_cases hfew : n < N
  · rw [if_pos hfew, if_pos (by omega)]
    rfl
  · have hboth : n < M ↔ n < max N M := by omega
    rw [if_neg hfew]
    simp only [← hboth]
    exact hq n

theorem map {p : Nat → Step α} (f : α → β) (hp : Gives p c a c') :
    Gives (fun n => f <$> p n) c (f a) c' := by
  simp only [← bind_pure_comp]
  exact hp.bind (.pure _ _)

/-- A step that cannot fail, among readers. -/
theorem lift {p : Nat → Step α} (hp : Gives p c a c') :
    Gives (fun n => (liftM (p n) : Reader α).run) c (.ok a) c' :=
  hp.map Except.ok

variable {p : Nat → Reader α} {q : Nat → α → Reader β}

theorem andThen {r : Except Stop β} (hp : Gives (fun n => (p n).run) c (.ok a) c')
    (hq : Gives (fun n => (q n a).run) c' r c'') : Gives (fun n => (p n >>= q n).run) c r c'' :=
  hp.bind hq

theorem stops {s : Stop} (hp : Gives (fun n => (p n).run) c (.error s) c') :
    Gives (fun n => (p n >>= q n).run) c (.error s) c' :=
  hp.bind (.pure _ _)

theorem attempt {r : Except Stop α} (hp : Gives (fun n => (p n).run) c r c') :
    Gives (fun n => (attempt (p n)).run) c (.ok r) c' :=
  hp.map Except.ok

end Gives

theorem peek_gives {t : Token} (h : c.tokens[c.place]? = some t) : Gives (fun _ => peek) c t c := by
  have hget : Gives (fun _ => get) c c c := .step rfl
  refine hget.bind ?_
  rw [h]
  exact .pure t c

theorem advance_gives {t : Token} (h : c.tokens[c.place]? = some t)
    (hmore : c.place + 1 < c.tokens.length) :
    Gives (fun _ => advance) c t { c with place := c.place + 1 } := by
  have hmove : Gives (fun _ => modify fun c => if c.place + 1 < c.tokens.length then
      { c with place := c.place + 1 } else c) c () { c with place := c.place + 1 } := by
    refine .step ?_
    show some (Except.ok ((), if c.place + 1 < c.tokens.length then _ else c)) = _
    rw [if_pos hmore]
  exact (peek_gives h).bind (hmove.bind (.pure _ _))

theorem check_gives {t : Token} (h : c.tokens[c.place]? = some t) (k : Kind) :
    Gives (fun _ => check k) c (t.kind == k) c :=
  (peek_gives h).bind (.pure _ _)

theorem record_gives (f : Located SyntaxFault) (c : Cursor) :
    Gives (fun _ => record f) c () { c with faults := c.faults ++ [f] } := .step rfl

end Cursor

open Cursor

/-! ## A tape -/

/-- Tokens, cut at the first end of input. -/
structure Tape where
  before : List Token
  finish : Token
  behind : List Token
  unfinished : Unfinished before
  ends : finish.kind = .endOfInput

namespace Tape

variable (T : Tape)

def tokens : List Token := T.before ++ T.finish :: T.behind

/-- The cursor with this ahead of it, up to the first end of input. -/
def facing (ahead : List Token) (faults : List (Located SyntaxFault)) : Cursor :=
  ⟨T.tokens, T.before.length - ahead.length, faults⟩

/-- The token at the place. -/
def head (ahead : List Token) : Token := ahead.headD T.finish

@[simp] theorem head_nil : T.head [] = T.finish := rfl

@[simp] theorem head_cons (t : Token) (rest : List Token) : T.head (t :: rest) = t := rfl

/-- How a reader fails that expected this, by what is ahead. -/
def stop (e : Expected) : List Token → Stop
  | [] => .fatal ⟨.unexpectedEnd e, T.finish.position⟩
  | t :: _ => .recoverable ⟨.expected e t.kind, t.position⟩

/-- What a reader gives that reads this. -/
def result : Reading α → Except Stop α
  | ⟨.ok a, _⟩ => .ok a
  | ⟨.error e, rest⟩ => .error (T.stop e rest)

variable {T} {ahead rest : List Token} {t : Token} {faults : List (Located SyntaxFault)}

theorem getElem?_facing (h : ahead <:+ T.before) (faults : List (Located SyntaxFault)) :
    (T.facing ahead faults).tokens[(T.facing ahead faults).place]? = some (T.head ahead) := by
  obtain ⟨passed, hpassed⟩ := h
  have hplace : T.before.length - ahead.length = passed.length := by
    rw [← hpassed, List.length_append, Nat.add_sub_cancel]
  rw [facing, hplace, tokens, ← hpassed, List.append_assoc,
    List.getElem?_append_right (Nat.le_refl _), Nat.sub_self]
  cases ahead <;> rfl

theorem peek_gives (h : ahead <:+ T.before) :
    Gives (fun _ => peek) (T.facing ahead faults) (T.head ahead) (T.facing ahead faults) :=
  Cursor.peek_gives (getElem?_facing h faults)

theorem check_gives (h : ahead <:+ T.before) (k : Kind) :
    Gives (fun _ => check k) (T.facing ahead faults) ((T.head ahead).kind == k)
      (T.facing ahead faults) :=
  Cursor.check_gives (getElem?_facing h faults) k

/-- A token before the end of the input is taken. -/
theorem advance_gives (h : t :: rest <:+ T.before) :
    Gives (fun _ => advance) (T.facing (t :: rest) faults) t (T.facing rest faults) := by
  have hle := h.length_le
  rw [List.length_cons] at hle
  have hnext : T.before.length - (t :: rest).length + 1 = T.before.length - rest.length := by
    rw [List.length_cons]
    omega
  have hmore : T.before.length - (t :: rest).length + 1 < T.tokens.length := by
    rw [tokens, List.length_append, List.length_cons, List.length_cons]
    omega
  have hgives := Cursor.advance_gives (getElem?_facing h faults) hmore
  rwa [facing, hnext] at hgives

theorem record_gives (f : Located SyntaxFault) :
    Gives (fun _ => record f) (T.facing ahead faults) () (T.facing ahead (faults ++ [f])) :=
  Cursor.record_gives f _

/-- Discarding tokens stops at the next landmark, and at the end of the input at the latest. -/
theorem synchronize_gives (h : ahead <:+ T.before) :
    Gives synchronize (T.facing ahead faults) () (T.facing (skip ahead) faults) := by
  induction ahead with
  | nil =>
    refine .succ rfl ((peek_gives h).bind ?_)
    rw [head_nil, T.ends]
    exact .pure () _
  | cons t rest ih =>
    refine .succ rfl ((peek_gives h).bind ?_)
    rw [head_cons]
    by_cases hlandmark : t.kind.isLandmark = true
    · rw [skip, List.dropWhile_cons_of_neg (by simp [hlandmark])]
      simp only [if_pos hlandmark]
      exact .pure () _
    · rw [skip_of_landmark (by simpa using hlandmark)]
      simp only [if_neg hlandmark]
      exact (advance_gives h).bind (ih ((List.suffix_cons t rest).trans h))

/-- Where a list of statements ends. -/
theorem atListEnd_gives (h : ahead <:+ T.before) :
    Gives (fun _ => atListEnd) (T.facing ahead faults) ((T.head ahead).kind == .keyword .sleep ||
      (T.head ahead).kind == .delimiter .closeBrace || (T.head ahead).kind == .endOfInput)
      (T.facing ahead faults) :=
  (check_gives h _).bind ((check_gives h _).bind ((check_gives h _).bind (.pure _ _)))

/-- No name stands at the place, if none is ahead. -/
theorem head_not_identifier (h : ∀ t ∈ ahead.head?, ∀ name, t.kind ≠ .identifier name)
    (name : String) : (T.head ahead).kind ≠ .identifier name := by
  cases ahead with
  | nil =>
    rw [head_nil, T.ends]
    nofun
  | cons t rest => exact h t rfl name

/-! ## Readers on a tape -/

/-- The reader does what the account says, at this place. -/
structure Reads (T : Tape) (p : Nat → Reader α) (ahead : List Token) (r : Account α) : Prop where
  left : r.reading.rest <:+ ahead
  gives : ahead <:+ T.before → ∀ faults, Gives (fun n => (p n).run) (T.facing ahead faults)
    (T.result r.reading) (T.facing r.reading.rest (faults ++ r.faults))

namespace Reads

variable {p : Nat → Reader α} {r : Account α} {a : α}

/-- One call is the reader's own. -/
theorem succ (hnone : ∀ c, ((p 0).run.run c).run = none)
    (h : T.Reads (fun n => p (n + 1)) ahead r) : T.Reads p ahead r :=
  ⟨h.left, fun hahead faults => (h.gives hahead faults).succ (hnone _)⟩

theorem pure (a : α) (ahead : List Token) :
    T.Reads (fun _ => pure a) ahead (.of ⟨.ok a, ahead⟩) where
  left := List.suffix_refl ahead
  gives _ faults := by
    show Gives (fun _ => (Pure.pure a : Reader α).run) (T.facing ahead faults) (.ok a)
      (T.facing ahead (faults ++ []))
    rw [List.append_nil]
    exact .pure _ _

/-- What is ahead on a tape holds no end of input. -/
theorem of_unfinished (hleft : r.reading.rest <:+ ahead)
    (h : Unfinished ahead → T.Reads p ahead r) : T.Reads p ahead r :=
  ⟨hleft, fun hahead => (h fun t ht => T.unfinished t (hahead.subset ht)).gives hahead⟩

/-- Behind a value the next reader goes on. -/
theorem goOn {q : Nat → α → Reader β} {early : List (Located SyntaxFault)} {x : Account β}
    (hp : T.Reads p ahead ⟨early, .ok a, rest⟩) (hq : T.Reads (fun n => q n a) rest x) :
    T.Reads (fun n => p n >>= q n) ahead (x.after early) where
  left := hq.left.trans hp.left
  gives h faults := by
    have hgives := hq.gives (hp.left.trans h) (faults ++ early)
    rw [List.append_assoc] at hgives
    exact (hp.gives h faults).andThen hgives

/-- The same behind a reader that reports nothing. -/
theorem next {q : Nat → α → Reader β} {x : Account β} (hp : T.Reads p ahead (.of ⟨.ok a, rest⟩))
    (hq : T.Reads (fun n => q n a) rest x) : T.Reads (fun n => p n >>= q n) ahead x :=
  hp.goOn hq

/-- A failure ends both. -/
theorem fails {q : Nat → α → Reader β} {early : List (Located SyntaxFault)} {e : Expected}
    (hp : T.Reads p ahead ⟨early, .error e, rest⟩) :
    T.Reads (fun n => p n >>= q n) ahead ⟨early, .error e, rest⟩ :=
  ⟨hp.left, fun h faults => (hp.gives h faults).stops⟩

theorem bind {q : Nat → α → Reader β} {f : α → List Token → Account β} (hp : T.Reads p ahead r)
    (hq : ∀ a rest, r.reading = ⟨.ok a, rest⟩ → T.Reads (fun n => q n a) rest (f a rest)) :
    T.Reads (fun n => p n >>= q n) ahead (r.andThen f) := by
  obtain ⟨early, result, rest⟩ := r
  cases result with
  | error e => exact hp.fails
  | ok a => exact hp.goOn (hq a rest rfl)

/-- The value may come out of another, which says more of what has been read. -/
theorem bindMapped {γ : Type} {q : Nat → α → Reader β} {x : Reading γ} {g : γ → α}
    {f : γ → List Token → Reading β} (hp : T.Reads p ahead (.of (x.map g)))
    (hq : ∀ b rest, x = ⟨.ok b, rest⟩ → T.Reads (fun n => q n (g b)) rest (.of (f b rest))) :
    T.Reads (fun n => p n >>= q n) ahead (.of (x.andThen f)) := by
  obtain ⟨result, rest⟩ := x
  cases result with
  | error e => exact hp.fails
  | ok b => exact hp.next (hq b rest rfl)

theorem bindReading {q : Nat → α → Reader β} {x : Reading α} {f : α → List Token → Reading β}
    (hp : T.Reads p ahead (.of x))
    (hq : ∀ a rest, x = ⟨.ok a, rest⟩ → T.Reads (fun n => q n a) rest (.of (f a rest))) :
    T.Reads (fun n => p n >>= q n) ahead (.of (x.andThen f)) := by
  rw [← x.map_self] at hp
  exact hp.bindMapped hq

theorem map (f : α → β) (hp : T.Reads p ahead r) :
    T.Reads (fun n => p n >>= fun a => Pure.pure (f a)) ahead (r.map f) := by
  obtain ⟨early, result, rest⟩ := r
  cases result with
  | error e => exact hp.fails
  | ok a =>
    have hnext := hp.goOn (q := fun _ a => Pure.pure (f a)) (pure (f a) rest)
    rwa [Account.after, Account.of, List.append_nil] at hnext

theorem peek {k : Nat → Token → Reader α} (hk : T.Reads (fun n => k n (T.head ahead)) ahead r) :
    T.Reads (fun n => liftM Cursor.peek >>= k n) ahead r :=
  ⟨hk.left, fun h faults => (peek_gives h).lift.andThen (hk.gives h faults)⟩

theorem check {k : Nat → Bool → Reader α} {x : Kind} {b : Bool}
    (hb : ((T.head ahead).kind == x) = b) (hk : T.Reads (fun n => k n b) ahead r) :
    T.Reads (fun n => liftM (Cursor.check x) >>= k n) ahead r :=
  ⟨hk.left, fun h faults => (check_gives h x).lift.andThen (hb ▸ hk.gives h faults)⟩

/-- A list of statements ends at `Sleep`, at a closing brace and at the end of the input. -/
theorem listEnd {k : Nat → Bool → Reader α}
    (h : ∀ t ∈ ahead.head?, endsStatements t.kind = true)
    (hk : T.Reads (fun n => k n true) ahead r) :
    T.Reads (fun n => liftM atListEnd >>= k n) ahead r := by
  refine ⟨hk.left, fun hahead faults => ((atListEnd_gives hahead).lift.andThen ?_)⟩
  have hend : ((T.head ahead).kind == .keyword .sleep ||
      (T.head ahead).kind == .delimiter .closeBrace ||
      (T.head ahead).kind == .endOfInput) = true := by
    cases ahead with
    | nil => simp [T.ends]
    | cons t rest =>
      have ht := h t rfl
      unfold endsStatements at ht
      split at ht <;> simp_all
  rw [hend]
  exact hk.gives hahead faults

/-- Before any other token it goes on. -/
theorem listGoesOn {k : Nat → Bool → Reader α} (he : ¬ endsStatements t.kind = true)
    (hk : T.Reads (fun n => k n false) (t :: rest) r) :
    T.Reads (fun n => liftM atListEnd >>= k n) (t :: rest) r := by
  refine ⟨hk.left, fun hahead faults => ((atListEnd_gives hahead).lift.andThen ?_)⟩
  have ht := T.unfinished t (hahead.subset List.mem_cons_self)
  have hgoes : (t.kind == .keyword .sleep || t.kind == .delimiter .closeBrace ||
      t.kind == .endOfInput) = false := by
    unfold endsStatements at he
    split at he <;> simp_all
  rw [head_cons, hgoes]
  exact hk.gives hahead faults

/-- The token asked about is there. -/
theorem checked {k : Nat → Bool → Reader α} {x : Kind} (ht : t.kind = x)
    (hk : T.Reads (fun n => k n true) (t :: rest) r) :
    T.Reads (fun n => liftM (Cursor.check x) >>= k n) (t :: rest) r :=
  check (beq_iff_eq.mpr ht) hk

/-- It is not, and the end of the input is none. -/
theorem unchecked {k : Nat → Bool → Reader α} {x : Kind} (hx : x ≠ .endOfInput)
    (h : ∀ t ∈ ahead.head?, t.kind ≠ x) (hk : T.Reads (fun n => k n false) ahead r) :
    T.Reads (fun n => liftM (Cursor.check x) >>= k n) ahead r := by
  refine check (beq_eq_false_iff_ne.mpr ?_) hk
  cases ahead with
  | nil =>
    rw [head_nil, T.ends]
    exact hx.symm
  | cons t rest => exact h t rfl

theorem advance {k : Nat → Token → Reader α} (hk : T.Reads (fun n => k n t) rest r) :
    T.Reads (fun n => liftM Cursor.advance >>= k n) (t :: rest) r :=
  ⟨hk.left.trans (List.suffix_cons t rest), fun h faults =>
    (advance_gives h).lift.andThen (hk.gives ((List.suffix_cons t rest).trans h) faults)⟩

theorem record {f : Located SyntaxFault} (hp : T.Reads p ahead r) :
    T.Reads (fun n => liftM (Cursor.record f) >>= fun _ => p n) ahead (r.after [f]) where
  left := hp.left
  gives h faults := by
    have hgives := hp.gives h (faults ++ [f])
    rw [List.append_assoc] at hgives
    exact (record_gives f).lift.andThen hgives

/-- What is not there is expected: for good at the end of the input, and else of a token that is not
such an end. -/
theorem unexpected (e : Expected) (ahead : List Token) :
    T.Reads (fun _ => Cursor.unexpected (α := α) e) ahead (.of ⟨.error e, ahead⟩) where
  left := List.suffix_refl ahead
  gives h faults := by
    show Gives (fun _ => (Cursor.unexpected (α := α) e).run) (T.facing ahead faults)
      (.error (T.stop e ahead)) (T.facing ahead (faults ++ []))
    rw [List.append_nil]
    refine (peek_gives h).lift.andThen ?_
    cases ahead with
    | nil =>
      rw [head_nil, if_pos T.ends]
      exact .pure _ _
    | cons t rest =>
      rw [head_cons, if_neg (T.unfinished t (h.subset List.mem_cons_self))]
      exact .pure _ _

/-- The same failure, raised again. -/
theorem stopped (e : Expected) (ahead : List Token) :
    T.Reads (fun _ => (throw (T.stop e ahead) : Reader α)) ahead (.of ⟨.error e, ahead⟩) where
  left := List.suffix_refl ahead
  gives _ faults := by
    show Gives _ _ (T.result ⟨.error e, ahead⟩) (T.facing ahead (faults ++ []))
    rw [List.append_nil]
    exact .pure _ _

theorem attempt (hp : T.Reads p ahead r) :
    T.Reads (fun n => attempt (p n)) ahead ⟨r.faults, .ok (T.result r.reading), r.reading.rest⟩ :=
  ⟨hp.left, fun h faults => (hp.gives h faults).attempt⟩

theorem synchronize (hp : T.Reads p (skip ahead) r) :
    T.Reads (fun n => liftM (Cursor.synchronize n) >>= fun _ => p n) ahead r :=
  ⟨hp.left.trans (skip_suffix ahead), fun h faults =>
    (synchronize_gives h).lift.andThen (hp.gives ((skip_suffix ahead).trans h) faults)⟩

/-- A reader whose failure is caught: one for good is raised again, and behind any other one reading
goes on at the next landmark. -/
theorem recover {q : Nat → Except Stop α → Reader β} {p' : Nat → Reader β}
    {f : α → List Token → Account β} {g : List Token → Account β} (hp : T.Reads p ahead r)
    (hfatal : ∀ n fault, q n (.error (.fatal fault)) = throw (.fatal fault))
    (hrecoverable : ∀ n fault, q n (.error (.recoverable fault)) =
      liftM (Cursor.record fault) >>= fun _ => liftM (Cursor.synchronize n) >>= fun _ => p' n)
    (hok : ∀ a rest, r.reading = ⟨.ok a, rest⟩ → T.Reads (fun n => q n (.ok a)) rest (f a rest))
    (hagain : ∀ e rest, r.reading = ⟨.error e, rest⟩ → T.Reads p' (skip rest) (g (skip rest))) :
    T.Reads (fun n => Cursor.attempt (p n) >>= q n) ahead (r.recover f g) := by
  obtain ⟨early, result, rest⟩ := r
  cases result with
  | ok a => exact hp.attempt.goOn (hok a rest rfl)
  | error e =>
    cases rest with
    | nil =>
      have hraised : T.Reads (fun n => q n (.error (T.stop e []))) [] (.of ⟨.error e, []⟩) := by
        simp only [stop, hfatal]
        exact stopped e []
      have hends := hp.attempt.goOn hraised
      rwa [Account.after, Account.of, List.append_nil] at hends
    | cons u more =>
      have hskipped : T.Reads (fun n => q n (.error (T.stop e (u :: more)))) (u :: more)
          ((g (skip (u :: more))).after [⟨.expected e u.kind, u.position⟩]) := by
        simp only [stop, hrecoverable]
        exact record (synchronize (hagain e (u :: more) rfl))
      have hgoes := hp.attempt.goOn hskipped
      rwa [Account.after_after] at hgoes

/-- A token of the kind asked for is taken. -/
theorem expect_taken {k : Kind} (ht : t.kind = k) (e : Expected) (rest : List Token) :
    T.Reads (fun _ => Cursor.expect k e) (t :: rest) (.of ⟨.ok t, rest⟩) := by
  refine checked ht ⟨List.suffix_cons t rest, fun h faults => ?_⟩
  show Gives _ _ (T.result ⟨.ok t, rest⟩) (T.facing rest (faults ++ []))
  rw [List.append_nil]
  exact (advance_gives h).lift

/-- A token of another kind is not, nor is the end of the input. -/
theorem expect_missing {k : Kind} (hk : k ≠ .endOfInput) (h : ∀ t ∈ ahead.head?, t.kind ≠ k)
    (e : Expected) : T.Reads (fun _ => Cursor.expect k e) ahead (.of ⟨.error e, ahead⟩) :=
  unchecked hk h (unexpected e ahead)

/-- One token, and what comes behind it. -/
theorem expect {k : Kind} (hk : k ≠ .endOfInput) (e : Expected) {f : List Token → Reading α}
    (hp : ∀ t rest, ahead = t :: rest → T.Reads p rest (.of (f rest))) :
    T.Reads (fun n => Cursor.expect k e >>= fun _ => p n) ahead
      (.of ((takeOne k e ahead).andThen fun _ rest => f rest)) := by
  rcases head_cases (· = k) ahead with ⟨t, rest, rfl, ht⟩ | hnone
  · rw [takeOne, if_pos ht]
    exact (expect_taken ht e rest).next (hp t rest rfl)
  · have hmissing : takeOne k e ahead = ⟨.error e, ahead⟩ := by
      cases ahead with
      | nil => rfl
      | cons t rest => rw [takeOne, if_neg (hnone t rfl)]
    rw [hmissing]
    exact (expect_missing hk hnone e).fails

/-- A delimiter, and what comes behind it. -/
theorem expectDelimiter (d : Delimiter) {f : List Token → Reading α}
    (hp : ∀ t rest, ahead = t :: rest → T.Reads p rest (.of (f rest))) :
    T.Reads (fun n => Cursor.expectDelimiter d >>= fun _ => p n) ahead
      (.of ((delimiter d ahead).reading.andThen fun _ rest => f rest)) := by
  rw [delimiter_reading]
  exact expect (k := .delimiter d) nofun (.delimiter d) hp

/-- A delimiter, and a value that is known already. -/
theorem close (d : Delimiter) (a : α) (ahead : List Token) :
    T.Reads (fun _ => Cursor.expectDelimiter d >>= fun _ => Pure.pure a) ahead
      (.of ((delimiter d ahead).reading.map fun _ => a)) := by
  rw [Reading.map_eq_andThen]
  exact expectDelimiter d fun _ rest _ => pure a rest

/-- A name. -/
theorem expectIdentifier (what : Expected) (ahead : List Token) :
    T.Reads (fun _ => Cursor.expectIdentifier what) ahead
      (.of (identifier what ahead).reading) := by
  refine peek ?_
  rcases head_cases (∃ name, · = .identifier name) ahead with ⟨t, rest, rfl, name, ht⟩ | hnone
  · rw [identifier_reading ht, head_cons, ht]
    exact advance (pure (name, t.position) rest)
  · simp only [not_exists] at hnone
    rw [identifier_reading_none what hnone]
    split
    · next name ht => exact absurd ht (head_not_identifier hnone name)
    · exact unexpected what ahead

end Reads
end Tape
end MeowScript
