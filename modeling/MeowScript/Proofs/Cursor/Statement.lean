import MeowScript.Proofs.Cursor.Expression
import MeowScript.Proofs.Progress.Stream

/-!
# A cursor reads statements

Each method for a statement begins at its first token, which has told it apart; the readers of lists
begin behind it. A list of statements is read round by round: after a statement that failed and can
be recovered from, what is reported and where reading goes on is what the list reader reports and
skips to.

Results:
* `Tape.statement_reads`: one statement, as any token begins it.
* `Tape.statementList_reads`, `Tape.block_reads`: lists of statements, and those in braces.
-/
namespace MeowScript

open Attempt Recovered

variable {T : Tape} {t : Token} {rest : List Token}

namespace Tape

/-! ## Parts of statements -/

theorem enclosed_reads (ahead : List Token) :
    T.Reads Cursor.enclosed ahead (.of (enclosed ahead).reading) := by
  rw [enclosed_reading]
  exact .expectDelimiter _ fun _ rest _ =>
    (expression_reads rest).bindReading fun e left _ => .close .closeParen e left

/-- The loop over the parameters behind those read already, and the closing parenthesis. -/
theorem moreParams_reads (params : List Param) (ahead : List Token) :
    T.Reads (fun n => Cursor.moreParams n params >>= fun params =>
        Cursor.expectDelimiter .closeParen >>= fun _ => pure params) ahead
      (.of ((moreParameters ahead).reading.map (params ++ ·))) := by
  refine .succ (fun _ => rfl) ?_
  simp only [Cursor.moreParams, bind_assoc]
  rcases head_cases (· = .delimiter .comma) ahead with ⟨c, rest, rfl, hc⟩ | hend
  · rw [moreParameters_reading_comma hc, Reading.map_andThen]
    refine .checked hc ?_
    simp only [if_true, bind_assoc]
    refine .advance ((Reads.expectIdentifier _ rest).bindReading fun ⟨name, q⟩ left h => ?_)
    have hfewer := rest_lt h
    have hrest := moreParams_reads (params ++ [⟨name, q⟩]) left
    simp only [List.append_assoc, List.singleton_append] at hrest
    rw [Reading.map_map]
    exact hrest
  · rw [moreParameters_reading_end hend, Reading.map_map, List.append_nil]
    exact .unchecked (by decide) hend (.close .closeParen params ahead)
termination_by ahead.length
decreasing_by subst_vars; simp only [List.length_cons]; omega

theorem params_reads (ahead : List Token) : T.Reads Cursor.params ahead
    (.of ((delimiter .openParen ahead).reading.andThen fun _ rest =>
      (parameters rest).reading)) := by
  refine .expectDelimiter _ fun _ rest _ => .peek ?_
  rcases head_cases (∃ name, · = .identifier name) rest with ⟨t, more, rfl, name, ht⟩ | hnone
  · rw [parameters_reading_some ht, head_cons, ht]
    have hfirst := Reads.expectIdentifier (T := T) .parameterName (t :: more)
    rw [identifier_reading ht] at hfirst
    exact hfirst.next (moreParams_reads [⟨name, t.position⟩] more)
  · simp only [not_exists] at hnone
    rw [parameters_reading_none hnone]
    split
    · next name ht => exact absurd ht (head_not_identifier hnone name)
    · exact .close .closeParen [] rest

theorem signature_reads (ahead : List Token) :
    T.Reads Cursor.signature ahead (.of (signature ahead).reading) := by
  rw [signature_reading]
  refine (Reads.expectIdentifier _ ahead).bindReading fun ⟨name, q⟩ rest _ => ?_
  rw [← Reading.map_andThen]
  exact (params_reads rest).map _

/-! ## Statements without blocks -/

theorem varDeclaration_reads (t : Token) (rest : List Token) :
    T.Reads Cursor.varDeclaration (t :: rest) (.of (declaration t.position rest).reading) := by
  rw [declaration_reading]
  refine .advance ((Reads.expectIdentifier _ rest).bindReading fun ⟨name, q⟩ left _ => ?_)
  rw [paws_reading]
  exact .expect (k := .keyword .paws) nofun .paws fun _ behind _ => (expression_reads behind).map _

theorem identifierStatement_reads {name : String} (ht : t.kind = .identifier name)
    (rest : List Token) :
    T.Reads Cursor.identifierStatement (t :: rest) (.of (named name t.position rest).reading) := by
  have hname := Reads.expectIdentifier (T := T) .identifier (t :: rest)
  rw [identifier_reading ht] at hname
  refine hname.next ?_
  rcases head_cases (· = .keyword .paws) rest with ⟨u, more, rfl, hu⟩ | hpaws
  · rw [named_reading_assign hu]
    exact .checked hu (.advance ((expression_reads more).map _))
  · refine .unchecked (by decide) hpaws ?_
    rcases head_cases (· = .delimiter .openParen) rest with ⟨u, more, rfl, hu⟩ | hparen
    · rw [named_reading_call hu]
      exact .checked hu ((callArgs_reads hu more).map _)
    · rw [named_reading_none fun u hu => ⟨hpaws u hu, hparen u hu⟩]
      exact .unchecked (by decide) hparen (.unexpected _ rest)

theorem returnStatement_reads (t : Token) (rest : List Token) :
    T.Reads Cursor.returnStatement (t :: rest)
      (.of ((expression rest).reading.map (.bring · t.position))) :=
  .advance ((expression_reads rest).map _)

theorem printStatement_reads (t : Token) (rest : List Token) :
    T.Reads Cursor.printStatement (t :: rest)
      (.of ((enclosed rest).reading.map (.print · t.position))) :=
  .advance ((enclosed_reads rest).map _)

/-! ## Statements, and lists of them -/

mutual

theorem statement_reads (t : Token) (rest : List Token) :
    T.Reads Cursor.statement (t :: rest) (statementAt t rest) := by
  refine .succ (fun _ => rfl) (.peek ?_)
  rw [head_cons]
  unfold statementAt
  cases hs : Starter.ofKind? t.kind with
  | none =>
    split
    case h_8 => exact .unexpected _ _
    all_goals
      next h =>
        rw [h] at hs
        cases hs
  | some s =>
    have ht := starter_kind hs
    cases s with
    | declaration =>
      rw [ht]
      dsimp only
      rw [statement, account_ofAttempt]
      exact varDeclaration_reads t rest
    | named name =>
      rw [ht]
      dsimp only
      rw [statement, account_ofAttempt]
      exact identifierStatement_reads ht rest
    | bring =>
      rw [ht]
      dsimp only
      rw [statement, account_ofAttempt, reading_map]
      exact returnStatement_reads t rest
    | print =>
      rw [ht]
      dsimp only
      rw [statement, account_ofAttempt, reading_map]
      exact printStatement_reads t rest
    | definition =>
      rw [ht]
      dsimp only
      rw [statement_account_definition]
      refine .succ (fun _ => rfl) (.advance ?_)
      refine (signature_reads rest).bind fun ⟨name, params⟩ left h => ?_
      have hfewer := rest_lt h
      exact (block_reads left).map _
    | loop =>
      rw [ht]
      dsimp only
      rw [statement_account_loop]
      refine .succ (fun _ => rfl) (.advance ?_)
      refine (enclosed_reads rest).bind fun condition left h => ?_
      have hfewer := rest_lt h
      exact (block_reads left).map _
    | branch =>
      rw [ht]
      dsimp only
      rw [statement_account_branch]
      refine .succ (fun _ => rfl) (.advance ?_)
      refine (enclosed_reads rest).bind fun condition left h => ?_
      have hfewer := rest_lt h
      refine (block_reads left).bind fun body behind hbody => ?_
      have hfewer' := rest_lt hbody
      rcases head_cases (· = .keyword .hiss) behind with ⟨u, more, rfl, hu⟩ | hnone
      · rw [otherwiseAccount, if_pos hu]
        have hshorter : more.length < (u :: more).length := Nat.lt_succ_self _
        exact .checked hu (.advance ((block_reads more).map _))
      · have hthen : otherwiseAccount condition body t.position behind =
            .of ⟨.ok (.ifThen condition body t.position), behind⟩ := by
          cases behind with
          | nil => rfl
          | cons u more => rw [otherwiseAccount, if_neg (hnone u rfl)]
        rw [hthen]
        exact .unchecked (by decide) hnone (.pure _ behind)
termination_by 2 * rest.length + 1
decreasing_by all_goals omega

theorem block_reads (ahead : List Token) :
    T.Reads Cursor.block ahead (block ahead).account := by
  refine .succ (fun _ => rfl) ?_
  rcases head_cases (· = .delimiter .openBrace) ahead with ⟨o, rest, rfl, ho⟩ | hnone
  · rw [block_account ho]
    refine (Reads.expect_taken ho _ rest).next ?_
    have hlist := statementList_reads [] rest
    rw [Account.map_nil_append] at hlist
    exact hlist.bind fun body left _ => .close .closeBrace body left
  · rw [block_account_none hnone]
    exact (Reads.expect_missing (k := .delimiter .openBrace) nofun hnone _).fails
termination_by 2 * ahead.length
decreasing_by subst_vars; simp only [List.length_cons]; omega

theorem statementList_reads (stmts : List Stmt) (ahead : List Token) :
    T.Reads (Cursor.statementList · stmts) ahead
      ((statements ahead).account.map (stmts ++ ·)) := by
  refine .succ (fun _ => rfl) ?_
  rcases head_cases (¬ endsStatements · = true) ahead with ⟨t, rest, rfl, he⟩ | hend
  · -- the token is no end of input, which `synchronize` would not pass
    refine .of_unfinished (statements_forward (t :: rest)).map.left fun hunfinished => ?_
    have ht := hunfinished t List.mem_cons_self
    refine .listGoesOn he ?_
    rw [statements_round he ht, Account.map_recover]
    refine .recover (statement_reads t rest) (fun _ _ => rfl) (fun _ _ => rfl)
      (fun first left h => ?_) fun e left h => ?_
    · have hfewer := (statementAt_left h).length_le
      have hnext := statementList_reads (stmts ++ [first]) left
      rw [Account.map_map]
      simp only [List.append_assoc, List.singleton_append] at hnext
      exact hnext
    · have hskipped := (statementAt_forward he ht rest).2.length_le
      rw [h] at hskipped
      exact statementList_reads stmts (skip left)
  · simp only [not_not] at hend
    rw [statements_account_end hend]
    refine .listEnd hend ?_
    show T.Reads (fun _ => pure stmts) ahead (.of ⟨.ok (stmts ++ []), ahead⟩)
    rw [List.append_nil]
    exact .pure stmts ahead
termination_by 2 * ahead.length
decreasing_by all_goals grind

end

end Tape
end MeowScript
