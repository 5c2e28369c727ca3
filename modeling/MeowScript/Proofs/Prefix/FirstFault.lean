import MeowScript.Proofs.Grammar.Kinds
import MeowScript.Proofs.Prefix.Phrases

/-!
# The first fault stands at the earliest token

A program is rejected with a list of faults. The first of them is reported at a token such that the
tokens before it do begin a program, and with it they begin none: a mistake is neither blamed on a
token that could still have been right nor noticed only at a later one.

Results:
* `StmtSpelled.unfinished`: a word of the grammar has no end of input within.
* `TokenStream.rejected_start`, `rejected_statements`, `rejected_end`, `rejected_behind`: what makes
  a program fail, and where its first fault is reported.
* `program_decides`: with it, the reader of programs decides early.
* `first_fault_earliest`: the first fault of a rejected token list.
-/
namespace MeowScript

open Account

variable {α : Type}

/-! ## Words without an end of input -/

/-- No token is the end of the input. -/
def Unfinished (toks : List Token) : Prop := ∀ t ∈ toks, t.kind ≠ .endOfInput

@[simp] theorem unfinished_nil : Unfinished [] := List.forall_mem_nil _

@[simp] theorem unfinished_cons {t : Token} {toks : List Token} :
    Unfinished (t :: toks) ↔ t.kind ≠ .endOfInput ∧ Unfinished toks := List.forall_mem_cons

@[simp] theorem unfinished_append {a b : List Token} :
    Unfinished (a ++ b) ↔ Unfinished a ∧ Unfinished b := List.forall_mem_append

theorem Values.unfinished {toks : List Token} (h : Values toks) : Unfinished toks := by
  intro t ht he
  have hvalue := h t ht
  rw [he] at hvalue
  cases hvalue

theorem spelling_unfinished {xs : List (List Token × α)} (hx : ∀ x ∈ xs, Unfinished x.1) :
    Unfinished (spelling xs) := by
  induction xs with
  | nil => exact unfinished_nil
  | cons x xs ih =>
    obtain ⟨hfirst, hrest⟩ := List.forall_mem_cons.mp hx
    exact unfinished_append.mpr ⟨hfirst, ih hrest⟩

theorem Braced.unfinished {toks block : List Token} (h : Braced toks block)
    (ht : Unfinished toks) : Unfinished block := by
  cases h with
  | mk ho hc => simp [ho, hc, ht]

theorem StmtSpelled.unfinished {toks : List Token} {s : Stmt} (h : StmtSpelled toks s) :
    Unfinished toks := by
  induction h with
  | declare ht hn hw he => simp [ht, hn, hw, he.values.unfinished]
  | assign hn hw he => simp [hn, hw, he.values.unfinished]
  | call hn ho ha hl hc =>
    have hargs := (hl.values fun x hx => (ha x hx).values).unfinished
    simp [hn, ho, hc, hargs]
  | define ht hn ho hp hl hc _ hb ih =>
    have hparams := (hl.values fun x hx => (hp x hx).values).unfinished
    simp [ht, hn, ho, hc, hparams, hb.unfinished (spelling_unfinished ih)]
  | ifThen ht he _ hb ih => simp [ht, he.values.unfinished, hb.unfinished (spelling_unfinished ih)]
  | ifElse ht he _ hb hh _ hb' ih ih' =>
    simp [ht, hh, he.values.unfinished, hb.unfinished (spelling_unfinished ih),
      hb'.unfinished (spelling_unfinished ih')]
  | loop ht he _ hb ih => simp [ht, he.values.unfinished, hb.unfinished (spelling_unfinished ih)]
  | bring ht he => simp [ht, he.values.unfinished]
  | print ht he => simp [ht, he.values.unfinished]

/-! ## Whole programs -/

/-- A program without the end of its input. -/
def Phrase.program : Language Token :=
  oneToken (· = .keyword .wake) * (statements * oneToken (· = .keyword .sleep))

theorem Phrase.program_inhabited : ∃ toks, toks ∈ program :=
  mul_inhabited (oneToken_inhabited rfl)
    (mul_inhabited statements_inhabited (oneToken_inhabited rfl))

theorem Phrase.mem_program {w s : Token} (hw : w.kind = .keyword .wake)
    (hs : s.kind = .keyword .sleep) {body : List Token} (hb : body ∈ statements) :
    w :: (body ++ [s]) ∈ program := by
  have hbody : body ++ [s] ∈ statements * oneToken (· = .keyword .sleep) :=
    Language.append_mem_mul hb ⟨s, rfl, hs⟩
  exact Language.append_mem_mul (a := [w]) ⟨w, rfl, hw⟩ hbody

/-- With an end of input behind it, it is read. -/
theorem Phrase.program_accepted {toks : List Token} (h : toks ∈ program) {fin : Token}
    (hf : fin.kind = .endOfInput) :
    EndsOnce (toks ++ [fin]) ∧ ∃ p, Program.ofTokens (toks ++ [fin]) = .ok p := by
  obtain ⟨_, ⟨w, rfl, hw⟩, _, ⟨_, ⟨body, rfl, hbody⟩, _, ⟨s, rfl, hs⟩, rfl⟩, rfl⟩ := h
  have hbodies := spelling_unfinished fun x hx => (hbody x hx).unfinished
  have hi : Unfinished ([w] ++ (spelling body ++ [s])) := by simp [hw, hs, hbodies]
  have hspelled : ProgramSpelled ([w] ++ (spelling body ++ [s]) ++ [fin])
      ⟨meanings body, w.position⟩ := by
    simpa using ProgramSpelled.mk hw hbody hs hf
  refine ⟨⟨_, fin, rfl, hf, hi⟩, ⟨meanings body, w.position⟩, ?_⟩
  rw [Program.ofTokens, TokenStream.ofList_ends hf hi, ← toOption_eq_some,
    TokenStream.program_iff]
  exact (programSpelled_iff hf _).mp hspelled

namespace TokenStream

/-- Faults are found, the first of them at `p`. -/
def Rejected (s : TokenStream) (p : Position) : Prop :=
  ∃ fault more, s.program.1 = .error (fault :: more) ∧ fault.position = p

variable {w : Token} {ahead rest left : List Token} {body : List Stmt} (finish : Position)

theorem rejected_start (h : ∀ t ∈ ahead.head?, t.kind ≠ .keyword .wake) :
    Rejected ⟨ahead, finish⟩ (peek ⟨ahead, finish⟩).2 := by
  have hstart : ∃ f rest, start ⟨ahead, finish⟩ = ([f], rest) ∧
      f.position = (peek ⟨ahead, finish⟩).2 := by
    cases ahead with
    | nil => exact ⟨_, _, rfl, rfl⟩
    | cons t rest => exact ⟨_, _, if_neg (h t rfl), rfl⟩
  obtain ⟨f, rest, hstart, hf⟩ := hstart
  rw [Rejected, program_account, hstart]
  obtain ⟨faults, result, left⟩ := (topLevel rest).account
  cases result <;> exact ⟨_, _, rfl, hf⟩

theorem rejected_statements (hw : w.kind = .keyword .wake) {e : Expected}
    (h : (statements rest).account.FirstStop ⟨.error e, left⟩) :
    Rejected ⟨w :: rest, finish⟩ (peek ⟨left, finish⟩).2 := by
  have hstart : start ⟨w :: rest, finish⟩ = ([], rest) := if_pos hw
  have htop : (topLevel rest).account.FirstStop ⟨.error e, left⟩ := by
    rw [topLevel_account]
    exact h.andThen_error _
  rw [Rejected, program_account, hstart]
  rcases htop.of_error with hread | ⟨u, more, faults, ⟨result, more'⟩, rfl, hread⟩
  · rw [hread]
    cases left <;> exact ⟨_, _, rfl, rfl⟩
  · rw [hread]
    cases result <;> exact ⟨_, _, rfl, rfl⟩

theorem rejected_end (hw : w.kind = .keyword .wake)
    (h : (statements rest).account = of ⟨.ok body, left⟩)
    (hs : ∀ t ∈ left.head?, t.kind ≠ .keyword .sleep) :
    Rejected ⟨w :: rest, finish⟩ (peek ⟨left, finish⟩).2 := by
  have hstart : start ⟨w :: rest, finish⟩ = ([], rest) := if_pos hw
  rw [Rejected, program_account, hstart, topLevel_account, h, of_ok_andThen]
  cases left with
  | nil => exact ⟨_, _, rfl, rfl⟩
  | cons t more =>
    dsimp only
    by_cases ht : t.kind = .delimiter .closeBrace
    · -- the brace is reported, whatever is read behind it
      rw [if_pos ht]
      obtain ⟨faults, result, more'⟩ := (topLevel more).account
      cases result <;> exact ⟨_, _, rfl, rfl⟩
    · have hclose : close finish (t :: more) = ([⟨.missingEnd t.kind, t.position⟩], t :: more) :=
        if_neg (hs t rfl)
      rw [if_neg ht]
      simp only [of, hclose]
      exact ⟨_, _, rfl, rfl⟩

theorem rejected_behind (hw : w.kind = .keyword .wake) {s u : Token} {more : List Token}
    (h : (statements rest).account = of ⟨.ok body, s :: u :: more⟩)
    (hs : s.kind = .keyword .sleep) :
    Rejected ⟨w :: rest, finish⟩ u.position := by
  have hstart : start ⟨w :: rest, finish⟩ = ([], rest) := if_pos hw
  have hclose : close finish (s :: u :: more) =
      ([⟨.trailingInput u.kind, u.position⟩], u :: more) := if_pos hs
  rw [Rejected, program_account, hstart, topLevel_account, h, of_ok_andThen]
  simp only [hs, reduceCtorEq, if_false, of, hclose]
  exact ⟨_, _, rfl, rfl⟩

end TokenStream

open TokenStream

/-- The tokens are a program, or rejected where they stop to begin one, on the strength of the
first token left there. -/
theorem program_decides (ahead : List Token) : ahead ∈ Phrase.program ∨
    ∃ used rest, ahead = used ++ rest ∧ (∃ more, used ++ more ∈ Phrase.program) ∧
      ∀ rest' finish, rest'.head? = rest.head? →
        Rejected ⟨used ++ rest', finish⟩ (peek ⟨rest', finish⟩).2 := by
  let last : Token := ⟨.keyword .sleep, "", .start⟩
  rcases head_cases (· = .keyword .wake) ahead with ⟨w, ahead, rfl, hw⟩ | hnone
  · obtain ⟨used, rest, result, rfl, hstops, hfits⟩ := statements_decides ahead
    cases result with
    | error e =>
      obtain ⟨more, hmore⟩ := hfits
      have hprogram := Phrase.mem_program (s := last) hw rfl hmore
      rw [List.append_assoc] at hprogram
      exact .inr ⟨w :: used, rest, rfl, ⟨more ++ [last], hprogram⟩,
        fun rest' finish hr => rejected_statements finish hw (hstops rest' hr)⟩
    | ok body =>
      rcases head_cases (· = .keyword .sleep) rest with ⟨s, behind, rfl, hs⟩ | hnone
      · have hprogram := Phrase.mem_program hw hs hfits
        cases behind with
        | nil => exact .inl hprogram
        | cons u more =>
          refine .inr ⟨w :: (used ++ [s]), u :: more, by simp, ⟨[], by simpa using hprogram⟩,
            fun rest' finish hr => ?_⟩
          obtain ⟨more', rfl⟩ := List.head?_eq_some_iff.mp hr
          have hread := (hstops (s :: u :: more') rfl).of_ok
          rw [List.cons_append, List.append_assoc]
          exact rejected_behind finish hw hread hs
      · exact .inr ⟨w :: used, rest, rfl, ⟨[last], Phrase.mem_program hw rfl hfits⟩,
          fun rest' finish hr => rejected_end finish hw (hstops rest' hr).of_ok (hr ▸ hnone)⟩
  · exact .inr ⟨[], ahead, rfl, Phrase.program_inhabited,
      fun rest' finish hr => rejected_start finish (hr ▸ hnone)⟩

/-! ## The first fault -/

theorem ofList_ahead_append {used : List Token} (h : Unfinished used) (more : List Token) :
    (ofList (used ++ more)).ahead = used ++ (ofList more).ahead :=
  List.takeWhile_append_of_pos fun t ht => by simp [isFinish, h t ht]

/-- The token that stops the reader stops it in every longer list. -/
theorem ofTokens_ne_ok {used rest : List Token} (hused : Unfinished used)
    (hrejected : ∀ rest' finish, rest'.head? = rest.head? →
      Rejected ⟨used ++ rest', finish⟩ (peek ⟨rest', finish⟩).2)
    {u : Token} {later : List Token} (hhead : (ofList (u :: later)).ahead.head? = rest.head?)
    (p : Program) : Program.ofTokens (used ++ u :: later) ≠ .ok p := by
  have hahead := ofList_ahead_append hused (u :: later)
  obtain ⟨fault, others, hbad, -⟩ := hrejected _ (ofList (used ++ u :: later)).finish hhead
  intro hp
  rw [← hahead] at hbad
  rw [Program.ofTokens, hbad] at hp
  cases hp

/-- In a list whose members are told apart by `f`, each has one place. -/
theorem getElem?_append_cons_iff {β : Type} {f : α → β} {a b : List α} {x : α}
    (h : ((a ++ x :: b).map f).Nodup) {j : Nat} {y : α} (hj : (a ++ x :: b)[j]? = some y) :
    f y = f x ↔ j = a.length := by
  constructor
  · intro hy
    have hlt : j < ((a ++ x :: b).map f).length := by
      rw [List.length_map]
      exact (List.getElem?_eq_some_iff.mp hj).1
    have hboth : ((a ++ x :: b).map f)[j]? = ((a ++ x :: b).map f)[a.length]? := by
      rw [List.getElem?_map, List.getElem?_map, hj]
      simp [hy]
    exact (List.getElem?_inj hlt h).mp hboth
  · rintro rfl
    rw [List.getElem?_append_right (Nat.le_refl _), Nat.sub_self, List.getElem?_cons_zero,
      Option.some.injEq] at hj
    rw [hj]

/-- **Main.** If a token list that ends with its only end of input is rejected, its first fault is
reported at the position of some token. If no two tokens have the same position, this is the `i`-th
token alone; the tokens before it go on to some program, and with it they go on to none. -/
theorem first_fault_earliest (toks : List Token) (hends : EndsOnce toks)
    (hpos : (toks.map Token.position).Nodup) (faults : List (Located SyntaxFault))
    (h : Program.ofTokens toks = .error faults) :
    ∃ fault others i, faults = fault :: others ∧ i < toks.length ∧
      (∀ j t, toks[j]? = some t → (t.position = fault.position ↔ j = i)) ∧
      (∃ more p, EndsOnce (toks.take i ++ more) ∧
        Program.ofTokens (toks.take i ++ more) = .ok p) ∧
      ∀ more p, Program.ofTokens (toks.take (i + 1) ++ more) ≠ .ok p := by
  obtain ⟨init, fin, rfl, hf, hi⟩ := hends
  rcases program_decides init with hprogram | ⟨used, rest, rfl, ⟨more, hmore⟩, hrejected⟩
  · obtain ⟨-, p, hp⟩ := Phrase.program_accepted hprogram hf
    rw [h] at hp
    cases hp
  · have hused : Unfinished used := (unfinished_append.mp hi).1
    obtain ⟨fault, others, hfaults, hfault⟩ := hrejected rest fin.position rfl
    rw [Program.ofTokens, ofList_ends hf hi, hfaults, Except.error.injEq] at h
    -- the token that stops the reader, which may be the end of the input
    obtain ⟨u, tail, htail, hu, hhead⟩ : ∃ u tail, rest ++ [fin] = u :: tail ∧
        u.position = fault.position ∧ ∀ more, (ofList (u :: more)).ahead.head? = rest.head? := by
      cases rest with
      | nil => exact ⟨fin, [], rfl, hfault.symm, fun more => by simp [ofList, isFinish, hf]⟩
      | cons t rest =>
        have ht : t.kind ≠ .endOfInput := hi t (by simp)
        exact ⟨t, rest ++ [fin], rfl, hfault.symm, fun more => by simp [ofList, isFinish, ht]⟩
    rw [List.append_assoc, htail] at hpos ⊢
    refine ⟨fault, others, used.length, h.symm, by simp, fun j t hj => ?_, ?_, fun later p => ?_⟩
    · rw [← hu]
      exact getElem?_append_cons_iff hpos hj
    · obtain ⟨hends, p, hp⟩ := Phrase.program_accepted hmore hf
      rw [List.append_assoc] at hends hp
      rw [List.take_left]
      exact ⟨more ++ [fin], p, hends, hp⟩
    · have htake : (used ++ u :: tail).take (used.length + 1) ++ later = used ++ u :: later := by
        simp [List.take_append]
      rw [htake]
      exact ofTokens_ne_ok hused hrejected (hhead later) p

/-! `Wake Meow(1 +) Meow Sleep` -/

/-- The tokens, one in each column. -/
def brokenTokens : List Token :=
  [.keyword .wake, .keyword .meow, .delimiter .openParen, .integer 1, .operator .add,
    .delimiter .closeParen, .keyword .meow, .keyword .sleep, .endOfInput].mapIdx
      fun i k => ⟨k, "", ⟨1, i + 1⟩⟩

/-- The tokens up to the `+` begin a program, and with the parenthesis behind it they do not. -/
theorem first_fault_earliest_broken :
    EndsOnce brokenTokens ∧ (brokenTokens.map Token.position).Nodup ∧
      Program.ofTokens brokenTokens =
        .error [⟨.expected .expression (.delimiter .closeParen), ⟨1, 6⟩⟩,
          ⟨.expected (.delimiter .openParen) (.keyword .sleep), ⟨1, 8⟩⟩] ∧
      (∃ more p, EndsOnce (brokenTokens.take 5 ++ more) ∧
        Program.ofTokens (brokenTokens.take 5 ++ more) = .ok p) ∧
      ∀ more p, Program.ofTokens (brokenTokens.take 6 ++ more) ≠ .ok p := by
  have hends : EndsOnce brokenTokens :=
    ⟨brokenTokens.dropLast, ⟨.endOfInput, "", ⟨1, 9⟩⟩, rfl, rfl, by decide⟩
  have hpos : (brokenTokens.map Token.position).Nodup := by decide
  have hfaults : Program.ofTokens brokenTokens =
      .error [⟨.expected .expression (.delimiter .closeParen), ⟨1, 6⟩⟩,
        ⟨.expected (.delimiter .openParen) (.keyword .sleep), ⟨1, 8⟩⟩] := by
    with_unfolding_all rfl
  obtain ⟨fault, others, i, hfirst, -, hindex, hbegins, hstops⟩ :=
    first_fault_earliest brokenTokens hends hpos _ hfaults
  obtain ⟨rfl, -⟩ := List.cons.inj hfirst
  obtain rfl : 5 = i := (hindex 5 _ rfl).mp rfl
  exact ⟨hends, hpos, hfaults, hbegins, hstops⟩

end MeowScript
