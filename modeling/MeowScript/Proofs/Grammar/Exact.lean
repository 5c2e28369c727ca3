import MeowScript.Proofs.Grammar.Soundness
import MeowScript.Proofs.Grammar.Completeness

/-!
# Exactly the grammar is read

A program is read from a token list that ends with its only end of input if and only if the grammar
spells it there, and no token list spells two programs.

Results:
* `TokenStream.program_iff`: what one program is, in terms of a list of statements.
* `Program.ofTokens_iff`: reading is sound and complete.
* `ofTokens_exact`: with it, spelling is unambiguous.
-/
namespace MeowScript

open Attempt Recovered

/-- The only end of input stands at the end. -/
def EndsOnce (toks : List Token) : Prop :=
  ∃ init fin, toks = init ++ [fin] ∧ fin.kind = .endOfInput ∧ ∀ t ∈ init, t.kind ≠ .endOfInput

/-! ## A program and its statements -/

theorem topLevel_clean? (toks : List Token) :
    (topLevel toks).clean? = (statements toks).clean?.bind fun x =>
      match take? (.delimiter .closeBrace) x.2 with
      | some _ => none
      | none => some x := by
  rw [topLevel]
  obtain ⟨faults, outcome⟩ := statements toks
  cases outcome with
  | error f => cases faults <;> rfl
  | ok r =>
    obtain ⟨body, rest, h⟩ := r
    cases rest with
    | nil => cases faults <;> rfl
    | cons t left =>
      by_cases ht : t.kind = .delimiter .closeBrace
      · -- the brace is reported, whatever was met before it
        cases faults <;> simp [ht, take?]
      · cases faults <;> simp [ht, take?, clean?]

namespace TokenStream

theorem ofList_ends {init : List Token} {fin : Token} (hf : fin.kind = .endOfInput)
    (hi : ∀ t ∈ init, t.kind ≠ .endOfInput) : ofList (init ++ [fin]) = ⟨init, fin.position⟩ := by
  have hfin : isFinish fin = true := by simp [isFinish, hf]
  have hinit : ∀ t ∈ init, (!isFinish t) = true := fun t ht => by simp [isFinish, hi t ht]
  have htake : (init ++ [fin]).takeWhile (fun t => !isFinish t) = init := by
    rw [List.takeWhile_append_of_pos hinit]
    simp [hfin]
  have hfind : (init ++ [fin]).find? isFinish = some fin := by
    rw [List.find?_append, List.find?_eq_none.mpr fun t ht => by simpa using hinit t ht]
    simp [hfin]
  rw [ofList, htake, hfind]

theorem close_nil {finish : Position} {toks : List Token} (h : (close finish toks).1 = []) :
    ∃ s, toks = [s] ∧ s.kind = .keyword .sleep := by
  cases toks with
  | nil => simp [close] at h
  | cons s rest =>
    by_cases hs : s.kind = .keyword .sleep
    · cases rest with
      | nil => exact ⟨s, rfl, hs⟩
      | cons u rest => simp [close, hs] at h
    · simp [close, hs] at h

/-- Behind `Wake` come statements, and then a good end. -/
theorem program_wake {w : Token} (hw : w.kind = .keyword .wake) (rest : List Token)
    (finish : Position) :
    (program ⟨w :: rest, finish⟩).1.toOption = (topLevel rest).clean?.bind fun x =>
      match (close finish x.2).1 with
      | [] => some ⟨x.1, w.position⟩
      | _ :: _ => none := by
  have hstart : start ⟨w :: rest, finish⟩ = ([], rest) := if_pos hw
  rw [program, hstart]
  simp only [List.nil_append]
  obtain ⟨faults, outcome⟩ := topLevel rest
  cases outcome with
  | error f => cases faults <;> rfl
  | ok r =>
    cases faults with
    | cons f faults => rfl
    | nil =>
      simp only [List.nil_append, clean?_nil, result?_ok, Option.bind_some]
      cases (close finish r.rest).1 <;> rfl

/-- Nothing else begins a program. -/
theorem program_no_wake {ahead : List Token} (h : take? (.keyword .wake) ahead = none)
    (finish : Position) : (program ⟨ahead, finish⟩).1.toOption = none := by
  have hstart : ∃ f rest, start ⟨ahead, finish⟩ = ([f], rest) := by
    cases ahead with
    | nil => exact ⟨_, _, rfl⟩
    | cons t rest => exact ⟨_, _, if_neg (kind_ne_of_take? h)⟩
  obtain ⟨f, rest, hstart⟩ := hstart
  rw [program, hstart]
  dsimp only
  obtain ⟨faults, outcome⟩ := topLevel rest
  cases outcome <;> rfl

/-- A program is `Wake`, statements, and a `Sleep` behind which nothing stands. -/
theorem program_iff (ahead : List Token) (finish : Position) (p : Program) :
    (program ⟨ahead, finish⟩).1.toOption = some p ↔
      ∃ w s rest, ahead = w :: rest ∧ w.kind = .keyword .wake ∧ s.kind = .keyword .sleep ∧
        (statements rest).clean? = some (p.body, [s]) ∧ p.position = w.position := by
  constructor
  · intro h
    cases hstart : take? (.keyword .wake) ahead with
    | none => rw [program_no_wake hstart] at h; cases h
    | some rest =>
      obtain ⟨w, rfl, hw⟩ := of_take? hstart
      rw [program_wake hw, Option.bind_eq_some_iff] at h
      obtain ⟨x, hx, h⟩ := h
      split at h
      · next hclose =>
        cases h
        obtain ⟨s, hs, hsk⟩ := close_nil hclose
        rw [topLevel_clean?, Option.bind_eq_some_iff] at hx
        obtain ⟨y, hy, hx⟩ := hx
        split at hx
        · cases hx
        · cases hx
          exact ⟨w, s, rest, rfl, hw, hsk, by rw [← hs]; exact hy, rfl⟩
      · cases h
  · rintro ⟨w, s, rest, rfl, hw, hs, hclean, hp⟩
    have htop : (topLevel rest).clean? = some (p.body, [s]) := by
      rw [topLevel_clean?, hclean]
      simp [take?, hs]
    have hclose : (close finish [s]).1 = [] := by simp [close, hs]
    rw [program_wake hw, htop, Option.bind_some, hclose, ← hp]

end TokenStream

/-! ## Programs -/

/-- The statements of a spelled program are read up to its `Sleep`. -/
theorem ProgramSpelled.statements_clean? {toks : List Token} {p : Program}
    (h : ProgramSpelled toks p) {w : Token} {rest : List Token} (ht : toks = w :: rest) :
    ∃ s f, (statements rest).clean? = some (p.body, [s, f]) ∧ p.position = w.position := by
  cases h with
  | @mk w' s f body _ hb hs _ =>
    cases ht
    have hend : endsStatements s.kind = true := by rw [hs]; rfl
    exact ⟨s, f, statements_complete (fun x hx => (hb x hx).readable) hend [f], rfl⟩

theorem ProgramSpelled.unique {toks : List Token} {p q : Program} (hp : ProgramSpelled toks p)
    (hq : ProgramSpelled toks q) : p = q := by
  obtain ⟨w, rest, ht⟩ : ∃ w rest, toks = w :: rest := by
    cases hp with
    | mk => exact ⟨_, _, rfl⟩
  obtain ⟨s, f, hps, hpw⟩ := hp.statements_clean? ht
  obtain ⟨s', f', hqs, hqw⟩ := hq.statements_clean? ht
  rw [hps, Option.some.injEq, Prod.mk.injEq] at hqs
  obtain ⟨body, position⟩ := p
  obtain ⟨body', position'⟩ := q
  rw [Program.mk.injEq]
  exact ⟨hqs.1, hpw.trans hqw.symm⟩

theorem programSpelled_iff {init : List Token} {fin : Token} (hf : fin.kind = .endOfInput)
    (p : Program) :
    ProgramSpelled (init ++ [fin]) p ↔
      ∃ w s rest, init = w :: rest ∧ w.kind = .keyword .wake ∧ s.kind = .keyword .sleep ∧
        (statements rest).clean? = some (p.body, [s]) ∧ p.position = w.position := by
  constructor
  · intro h
    generalize ht : init ++ [fin] = toks at h
    cases h with
    | @mk w s f body hw hb hs hfin =>
      have hj : init ++ [fin] = (w :: (spelling body ++ [s])) ++ [f] := by simp [ht]
      obtain ⟨rfl, -⟩ := List.append_inj' hj rfl
      have hend : endsStatements s.kind = true := by rw [hs]; rfl
      have hread := statements_complete (fun x hx => (hb x hx).readable) hend []
      exact ⟨w, s, _, rfl, hw, hs, hread, rfl⟩
  · rintro ⟨w, s, rest, rfl, hw, hs, hread, hp⟩
    obtain ⟨body, hrest, hspelled, hbody⟩ := statements_sound rest _ hread
    have hj : w :: rest ++ [fin] = w :: (spelling body ++ [s, fin]) := by
      rw [hrest]
      simp
    have hprogram : p = ⟨meanings body, w.position⟩ := by rw [← hp, ← hbody]
    rw [hj, hprogram]
    exact .mk hw hspelled hs hf

theorem toOption_eq_some {ε α : Type} {r : Except ε α} {a : α} :
    r.toOption = some a ↔ r = .ok a := by
  cases r <;> simp [Except.toOption]

theorem map_eq_error {ε α β : Type} {r : Except ε α} {f : α → β} {e : ε} :
    r.map f = .error e ↔ r = .error e := by
  cases r <;> simp [Except.map]

/-- **Main.** A token list that ends with its only end of input is read as a program if and only if
the grammar spells that program there; and no token list spells two. -/
theorem ofTokens_exact (toks : List Token) :
    (EndsOnce toks → ∀ p, Program.ofTokens toks = .ok p ↔ ProgramSpelled toks p) ∧
      ∀ p q, ProgramSpelled toks p → ProgramSpelled toks q → p = q := by
  refine ⟨?_, fun p q hp hq => hp.unique hq⟩
  rintro ⟨init, fin, rfl, hf, hi⟩ p
  rw [Program.ofTokens, TokenStream.ofList_ends hf hi, ← toOption_eq_some,
    TokenStream.program_iff, programSpelled_iff hf]

/-! `Wake Purr (x) { Meow(1 - 2 - x * 3) } Hiss { } Sleep` -/

/-- The tokens, one in each column. -/
def branchTokens : List Token :=
  [.keyword .wake, .keyword .purr, .delimiter .openParen, .identifier "x", .delimiter .closeParen,
    .delimiter .openBrace, .keyword .meow, .delimiter .openParen, .integer 1, .operator .sub,
    .integer 2, .operator .sub, .identifier "x", .operator .mul, .integer 3,
    .delimiter .closeParen, .delimiter .closeBrace, .keyword .hiss, .delimiter .openBrace,
    .delimiter .closeBrace, .keyword .sleep, .endOfInput].mapIdx fun i k => ⟨k, "", ⟨1, i + 1⟩⟩

/-- The tree, which leans to the left and has the product below the difference. -/
def branchProgram : Program :=
  let difference : Expr :=
    .binary .sub (.literal (.integer 1) ⟨1, 9⟩ .unknown) (.literal (.integer 2) ⟨1, 11⟩ .unknown)
      ⟨1, 10⟩ .unknown
  let product : Expr :=
    .binary .mul (.var "x" none ⟨1, 13⟩ .unknown) (.literal (.integer 3) ⟨1, 15⟩ .unknown)
      ⟨1, 14⟩ .unknown
  ⟨[.ifElse (.var "x" none ⟨1, 4⟩ .unknown)
    [.print (.binary .sub difference product ⟨1, 12⟩ .unknown) ⟨1, 7⟩] [] ⟨1, 2⟩], ⟨1, 1⟩⟩

/-- An operand stands in every row. -/
theorem ExprSpelled.loosen {toks : List Token} {e : Expr} (h : ExprSpelled [] toks e) :
    ∀ rows, ExprSpelled rows toks e
  | [] => h
  | _ :: rows => .tighter (h.loosen rows)

theorem ofTokens_exact_branch :
    EndsOnce branchTokens ∧ Program.ofTokens branchTokens = .ok branchProgram := by
  have hends : EndsOnce branchTokens :=
    ⟨branchTokens.dropLast, ⟨.endOfInput, "", ⟨1, 22⟩⟩, rfl, rfl, by decide⟩
  refine ⟨hends, ((ofTokens_exact branchTokens).1 hends branchProgram).mpr ?_⟩
  let tok (k : Kind) (column : Nat) : Token := ⟨k, "", ⟨1, column⟩⟩
  have var (column : Nat) := @ExprSpelled.var (tok (.identifier "x") column) "x" rfl
  have int (n : Int) (column : Nat) :=
    @ExprSpelled.literal (tok (.integer n) column) (.integer n) rfl
  have test := EnclosedSpelled.mk (o := tok (.delimiter .openParen) 3)
    (c := tok (.delimiter .closeParen) 5) rfl ((var 4).loosen operatorRows) rfl
  have difference := ExprSpelled.binary (t := tok (.operator .sub) 10)
    ((int 1 9).loosen ([.add, .sub] :: _)) rfl (by decide) ((int 2 11).loosen [[.mul, .div, .mod]])
  have product := ExprSpelled.binary (t := tok (.operator .mul) 14)
    ((var 13).loosen [[.mul, .div, .mod]]) rfl (by decide) (int 3 15)
  have whole := ExprSpelled.binary (t := tok (.operator .sub) 12) difference rfl (by decide) product
  have shown := EnclosedSpelled.mk (o := tok (.delimiter .openParen) 8)
    (c := tok (.delimiter .closeParen) 16) rfl (.tighter (.tighter (.tighter (.tighter whole)))) rfl
  have print := StmtSpelled.print (t := tok (.keyword .meow) 7) rfl shown
  have branch := StmtSpelled.ifElse (t := tok (.keyword .purr) 2) (h := tok (.keyword .hiss) 18)
    rfl test ((List.forall_mem_singleton (a := (_, _))).mpr print)
    (.mk (o := tok (.delimiter .openBrace) 6) (c := tok (.delimiter .closeBrace) 17) rfl rfl)
    rfl (List.forall_mem_nil _)
    (.mk (o := tok (.delimiter .openBrace) 19) (c := tok (.delimiter .closeBrace) 20) rfl rfl)
  exact ProgramSpelled.mk (w := tok (.keyword .wake) 1) (s := tok (.keyword .sleep) 21)
    (f := tok .endOfInput 22) rfl
    ((List.forall_mem_singleton (a := (_, _))).mpr branch) rfl rfl

end MeowScript
