import MeowScript.Proofs.Cursor.Statement

/-!
# A cursor reads programs

A call begins and ends with no faults kept. It answers what the list readers make of the tokens
ahead, and leaves the cursor before the tokens that they leave.

Results:
* `Tape.body_reads`: the statements of a program.
* `Tape.parseProgram_gives`: one call.
* `Tape.calls_gives`: any number of calls.
* `parse_eq`: a new cursor and the readers of lists agree.
-/
namespace MeowScript

open Attempt Recovered Cursor

namespace Tape

variable {T : Tape} {ahead : List Token}

theorem body_reads (stmts : List Stmt) (ahead : List Token) :
    T.Reads (Cursor.body · stmts) ahead ((topLevel ahead).account.map (stmts ++ ·)) := by
  refine .succ (fun _ => rfl) ?_
  rw [topLevel_account]
  have hlist := statementList_reads (T := T) [] ahead
  rw [Account.map_nil_append] at hlist
  rw [Account.map_andThen]
  refine hlist.bind fun more rest h => ?_
  have hfewer := rest_lt h
  rcases head_cases (· = .delimiter .closeBrace) rest with ⟨t, left, rfl, ht⟩ | hnone
  · have hshorter : left.length < (t :: left).length := Nat.lt_succ_self _
    have hrest := body_reads (stmts ++ more) left
    dsimp only
    rw [if_pos ht, Account.map_after, Account.map_map]
    simp only [List.append_assoc] at hrest
    exact .checked ht (.advance (.record hrest))
  · refine .unchecked (by decide) hnone ?_
    cases rest with
    | nil => exact .pure (stmts ++ more) []
    | cons t left =>
      dsimp only
      rw [if_neg (hnone t rfl)]
      exact .pure (stmts ++ more) (t :: left)
termination_by ahead.length
decreasing_by omega

/-! ## Start and end -/

/-- The stream of what is ahead. -/
def stream (T : Tape) (ahead : List Token) : TokenStream := ⟨ahead, T.finish.position⟩

theorem programStart_gives (h : ahead <:+ T.before) (faults : List (Located SyntaxFault)) :
    Gives (fun _ => programStart) (T.facing ahead faults) (T.stream ahead).peek.2
      (T.facing (T.stream ahead).start.2 (faults ++ (T.stream ahead).start.1)) := by
  refine (peek_gives h).bind ((check_gives h _).bind ?_)
  cases ahead with
  | nil =>
    rw [head_nil, T.ends]
    exact (record_gives _).bind (.pure _ _)
  | cons t rest =>
    rw [head_cons]
    by_cases ht : t.kind = .keyword .wake
    · have hstart : (T.stream (t :: rest)).start = ([], rest) := if_pos ht
      rw [hstart, List.append_nil, ht]
      exact (advance_gives h).bind (.pure _ _)
    · have hstart : (T.stream (t :: rest)).start =
          ([⟨.missingStart t.kind, t.position⟩], t :: rest) := if_neg ht
      rw [hstart, beq_eq_false_iff_ne.mpr ht]
      exact (record_gives _).bind (.pure _ _)

theorem programEnd_gives (h : ahead <:+ T.before) (faults : List (Located SyntaxFault)) :
    Gives (fun _ => programEnd) (T.facing ahead faults) ()
      (T.facing (TokenStream.close T.finish.position ahead).2
        (faults ++ (TokenStream.close T.finish.position ahead).1)) := by
  refine (check_gives h _).bind ?_
  cases ahead with
  | nil =>
    rw [head_nil, T.ends]
    refine (peek_gives h).bind ?_
    rw [head_nil, T.ends]
    exact record_gives _
  | cons t rest =>
    have hrest : rest <:+ T.before := (List.suffix_cons t rest).trans h
    rw [head_cons]
    by_cases ht : t.kind = .keyword .sleep
    · rw [ht]
      refine (advance_gives h).bind ((peek_gives hrest).bind ((check_gives hrest _).bind ?_))
      cases rest with
      | nil =>
        have hclose : TokenStream.close T.finish.position [t] = ([], []) := if_pos ht
        rw [hclose, List.append_nil, head_nil, T.ends]
        exact .pure _ _
      | cons u more =>
        have hclose : TokenStream.close T.finish.position (t :: u :: more) =
            ([⟨.trailingInput u.kind, u.position⟩], u :: more) := if_pos ht
        have hu : u.kind ≠ .endOfInput := T.unfinished u (hrest.subset List.mem_cons_self)
        rw [hclose, head_cons, beq_eq_false_iff_ne.mpr hu]
        exact record_gives _
    · have hclose : TokenStream.close T.finish.position (t :: rest) =
          ([⟨.missingEnd t.kind, t.position⟩], t :: rest) := if_neg ht
      rw [hclose, beq_eq_false_iff_ne.mpr ht]
      exact (peek_gives h).bind (record_gives _)

/-! ## Calls -/

theorem takeFaults_gives (c : Cursor) :
    Gives (fun _ => takeFaults) c c.faults { c with faults := [] } :=
  .step rfl

theorem stop_fault (e : Expected) (rest : List Token) :
    (T.stop e rest).fault = stopFault T.finish.position e rest := by
  cases rest <;> rfl

theorem program_gives (h : ahead <:+ T.before) :
    match (topLevel (T.stream ahead).start.2).account with
    | ⟨found, .error e, rest⟩ =>
      Gives (fun n => (program n).run) (T.facing ahead []) (.error (T.stop e rest))
        (T.facing rest ((T.stream ahead).start.1 ++ found))
    | ⟨found, .ok body, rest⟩ =>
      Gives (fun n => (program n).run) (T.facing ahead []) (.ok ⟨body, (T.stream ahead).peek.2⟩)
        (T.facing (TokenStream.close T.finish.position rest).2
          ((T.stream ahead).start.1 ++ found ++ (TokenStream.close T.finish.position rest).1)) := by
  have hstart := programStart_gives h []
  rw [List.nil_append] at hstart
  have hbehind : (T.stream ahead).start.2 <:+ T.before := (T.stream ahead).start_forward.1.trans h
  have hbody := body_reads (T := T) [] (T.stream ahead).start.2
  rw [Account.map_nil_append] at hbody
  generalize (topLevel (T.stream ahead).start.2).account = r at hbody ⊢
  obtain ⟨found, result, rest⟩ := r
  have hgives := hbody.gives hbehind (T.stream ahead).start.1
  cases result with
  | error e => exact hstart.lift.andThen hgives.stops
  | ok stmts =>
    have hend := programEnd_gives (hbody.left.trans hbehind) ((T.stream ahead).start.1 ++ found)
    exact hstart.lift.andThen (hgives.andThen (hend.lift.andThen (.pure _ _)))

theorem parseProgram_gives (h : ahead <:+ T.before) :
    Gives parseProgram (T.facing ahead []) (T.stream ahead).program.1
      (T.facing (T.stream ahead).program.2.ahead []) := by
  have hprogram := program_gives h
  rw [program_account, TokenStream.program_left]
  generalize (topLevel (T.stream ahead).start.2).account = r at hprogram ⊢
  obtain ⟨faults, result, rest⟩ := r
  cases result with
  | error e =>
    refine hprogram.bind ((record_gives _).bind ((takeFaults_gives _).bind ?_))
    rw [stop_fault]
    exact .pure _ _
  | ok stmts =>
    have hfinish : (T.stream ahead).finish = T.finish.position := rfl
    dsimp only at hprogram ⊢
    rw [hfinish]
    generalize (T.stream ahead).start.1 ++ faults ++
      (TokenStream.close T.finish.position rest).1 = reported at hprogram ⊢
    refine hprogram.bind (.bind (a := T.facing _ reported) (.step rfl) ?_)
    cases reported with
    | nil => exact .pure _ _
    | cons fault more => exact (takeFaults_gives _).bind (.pure _ _)

/-! ## Any number of calls -/

/-- Where the stream of this tape stands when `k` programs have been read from it. -/
def leftAfter (T : Tape) (k : Nat) : List Token := ((T.stream T.before).afterCalls k).ahead

/-- What the list readers answer, call by call. -/
def answers (T : Tape) (k : Nat) : List Answer :=
  (List.range k).map fun i => (T.stream (T.leftAfter i)).program.1

theorem stream_leftAfter (T : Tape) (k : Nat) :
    T.stream (T.leftAfter k) = (T.stream T.before).afterCalls k := by
  have hfinish := ((T.stream T.before).afterCalls_forward k).2
  exact congrArg (TokenStream.mk (T.leftAfter k)) hfinish.symm

theorem leftAfter_suffix (T : Tape) (k : Nat) : T.leftAfter k <:+ T.before :=
  ((T.stream T.before).afterCalls_forward k).1

theorem leftAfter_succ (T : Tape) (k : Nat) :
    T.leftAfter (k + 1) = (T.stream (T.leftAfter k)).program.2.ahead := by
  rw [stream_leftAfter]
  rfl

theorem answers_succ (T : Tape) (k : Nat) :
    T.answers (k + 1) = T.answers k ++ [(T.stream (T.leftAfter k)).program.1] := by
  rw [answers, List.range_succ, List.map_append]
  rfl

theorem of_answers (T : Tape) {k i : Nat} {answer : Answer} (h : (T.answers k)[i]? = some answer) :
    answer = (T.stream (T.leftAfter i)).program.1 := by
  rw [answers, List.getElem?_map, Option.map_eq_some_iff] at h
  obtain ⟨n, hn, rfl⟩ := h
  obtain ⟨hlt, rfl⟩ := List.getElem?_eq_some_iff.mp hn
  rw [List.getElem_range]

theorem calls_gives (T : Tape) (k : Nat) :
    Gives (calls · k) (T.facing T.before []) (T.answers k) (T.facing (T.leftAfter k) []) := by
  induction k with
  | zero => exact .pure _ _
  | succ k ih =>
    have hcall := parseProgram_gives (T.leftAfter_suffix k)
    rw [← leftAfter_succ] at hcall
    rw [answers_succ]
    exact ih.bind (hcall.bind (.pure _ _))

end Tape

/-! ## The tape of a list of tokens -/

/-- What is added to a list to end it stands behind it. -/
theorem ended_append (toks : List Token) : ∃ more, ended toks = toks ++ more := by
  unfold ended
  split
  · next h => exact ⟨[.finish .start], by rw [List.getLast?_eq_none_iff.mp h, List.nil_append]⟩
  · next t h =>
    split
    · exact ⟨[], (List.append_nil toks).symm⟩
    · exact ⟨[.finish t.position], rfl⟩

namespace Tape

theorem ofTokens_eq {T : Tape} {toks : List Token} (h : ended toks = T.tokens) :
    ofTokens toks = T.facing T.before [] := by
  rw [ofTokens, h, facing, Nat.sub_self]

/-- Other tokens behind the first end of input make another tape of the same stream. -/
theorem exists_behind (T : Tape) (more : List Token) : ∃ behind,
    ended (T.before ++ T.finish :: more) = ({ T with behind } : Tape).tokens := by
  obtain ⟨extra, hextra⟩ := ended_append (T.before ++ T.finish :: more)
  exact ⟨more ++ extra, by rw [hextra, List.append_assoc, List.cons_append]; rfl⟩

/-- A cursor on these tokens, not behind their first end of input, is on the tape. -/
theorem facing_drop {T : Tape} {c : Cursor} (htokens : c.tokens = T.tokens)
    (hplace : c.place ≤ T.before.length) : c = T.facing (T.before.drop c.place) c.faults := by
  rw [facing, List.length_drop, Nat.sub_sub_self hplace, ← htokens]

end Tape

theorem exists_tape (toks : List Token) : ∃ T : Tape, ended toks = T.tokens ∧
    firstEnd toks = T.before.length ∧ TokenStream.ofList toks = T.stream T.before := by
  obtain ⟨init, e, more, hsplit, he, hinit, hlist⟩ := ended_split toks
  exact ⟨⟨init, e, more, hinit, he⟩, hsplit, by rw [firstEnd_eq, hlist], hlist⟩

/-- **Main.** A new cursor answers what the list readers make of the tokens, if enough calls may be
under way, and asks for no token out of bounds with any number of them. -/
theorem parse_eq (toks : List Token) : ∃ enough, ∀ n,
    (parse n toks).run = if n < enough then none else some (.ok (Program.ofTokens toks)) := by
  obtain ⟨T, htokens, -, hlist⟩ := exists_tape toks
  obtain ⟨enough, hcall⟩ := T.parseProgram_gives (List.suffix_refl T.before)
  rw [← Tape.ofTokens_eq htokens] at hcall
  rw [Program.ofTokens, hlist]
  refine ⟨enough, fun n => ?_⟩
  rw [parse, StateT.run'_eq, ExceptT.run_map, hcall n]
  split <;> rfl

end MeowScript
