import MeowScript.Proofs.Grammar.Exact
import MeowScript.Proofs.Prefix.Deciding

/-!
# Every reader decides early

What a rule of the grammar spells, whatever the tree, is a language; each reader decides early in
the language of its rule. The induction is on the number of tokens, as the readers' own recursion.

Results:
* `operand_decides`, `expression_decides`, `arguments_decides`: expressions.
* `statement_decides`, `block_decides`, `statements_decides`: statements, up to the first mistake.
-/
namespace MeowScript

open Account Recovered

/-! ## The language of each rule -/

namespace Phrase

def operand : Language Token := {w | ∃ e, ExprSpelled [] w e}

def expression : Language Token := {w | ∃ e, ExprSpelled operatorRows w e}

def links : Language Token := {w | ∃ ks, LinksSpelled w ks}

/-- Items, joined in this way, and a closing parenthesis. -/
def closed {α : Type} (spelled : List Token → α → Prop)
    (joined : List (List Token × α) → List Token → Prop) : Language Token :=
  {w | ∃ items toks c, w = toks ++ [c] ∧ c.kind = .delimiter .closeParen ∧
    (∀ x ∈ items, spelled x.1 x.2) ∧ joined items toks}

def arguments : Language Token := closed (ExprSpelled operatorRows) Listed

def parameters : Language Token := closed ParamSpelled Listed

def enclosed : Language Token := {w | ∃ e, EnclosedSpelled w e}

def signature : Language Token :=
  oneToken (fun k => ∃ name, k = .identifier name) *
    (oneToken (· = .delimiter .openParen) * parameters)

def block : Language Token :=
  {w | ∃ body, (∀ x ∈ body, StmtSpelled x.1 x.2) ∧ Braced (spelling body) w}

/-- What can follow the first block of a branch. -/
def otherwise : Language Token := 1 + oneToken (· = .keyword .hiss) * block

/-- What completes a statement that begins with `t`. -/
def statement (t : Token) : Language Token := {w | ∃ s, StmtSpelled (t :: w) s}

def statements : Language Token :=
  {w | ∃ body, w = spelling body ∧ ∀ x ∈ body, StmtSpelled x.1 x.2}

/-! ## No language is empty -/

theorem operand_inhabited : ∃ w, w ∈ operand :=
  ⟨[⟨.integer 0, "", .start⟩], _, .literal (v := .integer 0) rfl⟩

theorem expression_inhabited : ∃ w, w ∈ expression := by
  obtain ⟨w, e, he⟩ := operand_inhabited
  exact ⟨w, e, he.loosen operatorRows⟩

theorem links_inhabited : ∃ w, w ∈ links := ⟨[], [], .nil⟩

theorem statements_inhabited : ∃ w, w ∈ statements := ⟨[], [], rfl, List.forall_mem_nil _⟩

theorem block_inhabited : ∃ w, w ∈ block :=
  ⟨_, [], List.forall_mem_nil _, .mk (o := ⟨.delimiter .openBrace, "", .start⟩)
    (c := ⟨.delimiter .closeBrace, "", .start⟩) rfl rfl⟩

/-! ## Longer words from shorter ones -/

theorem expression_of_operand {a b : List Token} (ha : a ∈ operand) (hb : b ∈ links) :
    a ++ b ∈ expression := by
  obtain ⟨e, he⟩ := ha
  obtain ⟨ks, hks⟩ := hb
  exact ⟨_, assemble_spelled he hks⟩

theorem links_cons {t : Token} {o : BinaryOp} (ht : t.kind = .operator o) {a b : List Token}
    (ha : a ∈ operand) (hb : b ∈ links) : t :: (a ++ b) ∈ links := by
  obtain ⟨e, he⟩ := ha
  obtain ⟨ks, hks⟩ := hb
  exact ⟨⟨o, t.position, e⟩ :: ks, .cons ht rfl he hks⟩

section

variable {α : Type} {spelled : List Token → α → Prop} {a b : List Token} {x : α}

theorem closed_none {c : Token} (hc : c.kind = .delimiter .closeParen) :
    [c] ∈ closed spelled Listed :=
  ⟨[], [], c, rfl, hc, List.forall_mem_nil _, .none⟩

theorem closed_some (ha : spelled a x) (hb : b ∈ closed spelled CommaEach) :
    a ++ b ∈ closed spelled Listed := by
  obtain ⟨items, toks, c, rfl, hc, hitems, hj⟩ := hb
  have hmem : ∀ y ∈ (a, x) :: items, spelled y.1 y.2 := List.forall_mem_cons.mpr ⟨ha, hitems⟩
  exact ⟨(a, x) :: items, a ++ toks, c, by simp, hc, hmem, .some hj⟩

theorem closed_end {c : Token} (hc : c.kind = .delimiter .closeParen) :
    [c] ∈ closed spelled CommaEach :=
  ⟨[], [], c, rfl, hc, List.forall_mem_nil _, .nil⟩

theorem closed_comma {t : Token} (ht : t.kind = .delimiter .comma) (ha : spelled a x)
    (hb : b ∈ closed spelled CommaEach) : t :: (a ++ b) ∈ closed spelled CommaEach := by
  obtain ⟨items, toks, c, rfl, hc, hitems, hj⟩ := hb
  have hmem : ∀ y ∈ (a, x) :: items, spelled y.1 y.2 := List.forall_mem_cons.mpr ⟨ha, hitems⟩
  exact ⟨(a, x) :: items, t :: (a ++ toks), c, by simp, hc, hmem, .cons ht hj⟩

theorem parameters_inhabited : ∃ w, w ∈ parameters :=
  ⟨_, closed_none (c := ⟨.delimiter .closeParen, "", .start⟩) rfl⟩

theorem closed_inhabited : ∃ w, w ∈ closed spelled CommaEach :=
  ⟨_, closed_end (c := ⟨.delimiter .closeParen, "", .start⟩) rfl⟩

end

theorem statements_cons {t : Token} {a b : List Token} (ha : a ∈ statement t)
    (hb : b ∈ statements) : t :: (a ++ b) ∈ statements := by
  obtain ⟨s, hs⟩ := ha
  obtain ⟨body, rfl, hbody⟩ := hb
  have hmem : ∀ y ∈ (t :: a, s) :: body, StmtSpelled y.1 y.2 :=
    List.forall_mem_cons.mpr ⟨hs, hbody⟩
  exact ⟨(t :: a, s) :: body, rfl, hmem⟩

end Phrase

/-! ## Expressions -/

/-- Only the closing parenthesis is left to read. -/
theorem close_decides {α : Type} {x : List Token → Account (List α)} {L : Language Token}
    {toks : List Token} (hx : ∀ toks', toks'.head? = toks.head? →
      (x toks') = .of ((delimiter .closeParen toks').reading.map fun _ => []))
    (hL : ∀ c : Token, c.kind = .delimiter .closeParen → [c] ∈ L) : Decides x L toks := by
  have hclose := (delimiter_decides .closeParen toks).map fun _ => ([] : List α)
  refine .mono (hclose.congr hx) ?_
  rintro w ⟨c, rfl, hc⟩
  exact hL c hc

mutual

theorem operand_decides (toks : List Token) :
    Decides (fun toks => .of (operand toks).reading) Phrase.operand toks := by
  cases toks with
  | nil =>
    refine .here (.error .expression) (fun toks hr => ?_) Phrase.operand_inhabited
    obtain rfl := List.head?_eq_none_iff.mp hr
    exact operand_reading_nil
  | cons t rest =>
    rcases begins_cases t.kind with ⟨op, ht⟩ | ⟨v, ht⟩ | ⟨name, ht⟩ | ht | ht
    · have he := (operand_decides rest).map (Expr.unary op · t.position .unknown)
      refine he.cons (fun rest => congrArg of (operand_reading_unary ht rest)) ?_
      rintro w ⟨e, he⟩
      exact ⟨_, .unary ht he⟩
    · exact ⟨[t], rest, .ok (.literal v t.position .unknown), rfl,
        fun rest _ => operand_reading_literal ht rest, _, .literal ht⟩
    · rcases head_cases (· = .delimiter .openParen) rest with ⟨o, more, rfl, ho⟩ | hnone
      · -- two tokens are taken, the name and the parenthesis
        have hargs := (arguments_decides more).map (Expr.call name · t.position .unknown)
        have hopen : Decides (fun rest => .of (operand (t :: rest)).reading)
            {w | t :: w ∈ Phrase.operand} (o :: more) := by
          refine hargs.cons (fun rest => congrArg of (operand_reading_call ht ho rest)) ?_
          rintro w ⟨args, toks, c, rfl, hc, ha, hl⟩
          exact ⟨_, .call ht ho ha hl hc⟩
        exact hopen.cons (fun rest => rfl) fun w hw => hw
      · refine ⟨[t], rest, .ok (.var name none t.position .unknown), rfl, fun rest' hr => ?_, _,
          .var ht⟩
        rw [← hr] at hnone
        exact operand_reading_var ht hnone
    · have hparens := (expression_decides rest).andThen
        (fun e left _ => (delimiter_decides .closeParen left).map fun _ => e)
        (oneToken_inhabited rfl)
      refine hparens.cons (fun rest => of_andThen (operand_reading_parens ht rest)) ?_
      rintro w ⟨toks, ⟨e, he⟩, b, ⟨c, rfl, hc⟩, rfl⟩
      exact ⟨_, .parens ht he hc⟩
    · refine .here (.error .expression) (fun toks hr => ?_) Phrase.operand_inhabited
      obtain ⟨rest, rfl⟩ := List.head?_eq_some_iff.mp hr
      exact operand_reading_none ht rest
termination_by 3 * toks.length
decreasing_by all_goals subst_vars; simp only [List.length_cons]; omega

theorem expression_decides (toks : List Token) :
    Decides (fun toks => .of (expression toks).reading) Phrase.expression toks := by
  have hchain : Decides (fun toks => (Account.of (operand toks).reading).andThen fun e rest =>
      .of ((links rest).reading.map (Chain.assemble Level.ladder e ·)))
      (Phrase.operand * Phrase.links) toks := by
    refine (operand_decides toks).andThen (fun e rest h => ?_) Phrase.links_inhabited
    have hfewer := Attempt.rest_lt (firstStop_of.mp h)
    exact (links_decides rest).map (Chain.assemble Level.ladder e ·)
  refine .mono (hchain.congr fun toks _ => of_andThen (expression_reading toks)) ?_
  rintro w ⟨a, ha, b, hb, rfl⟩
  exact Phrase.expression_of_operand ha hb
termination_by 3 * toks.length + 1
decreasing_by all_goals omega

theorem links_decides (toks : List Token) :
    Decides (fun toks => .of (links toks).reading) Phrase.links toks := by
  rcases head_cases (fun k => ∃ o, k = .operator o) toks with ⟨t, rest, rfl, o, ht⟩ | hnone
  · have hlink : Decides (fun rest => (Account.of (operand rest).reading).andThen fun e left =>
        .of ((links left).reading.map (⟨o, t.position, e⟩ :: ·)))
        (Phrase.operand * Phrase.links) rest := by
      refine (operand_decides rest).andThen (fun e left h => ?_) Phrase.links_inhabited
      have hfewer := Attempt.rest_lt (firstStop_of.mp h)
      exact (links_decides left).map (⟨o, t.position, e⟩ :: ·)
    refine hlink.cons (fun rest => of_andThen (links_reading_operator ht rest)) ?_
    rintro w ⟨a, ha, b, hb, rfl⟩
    exact Phrase.links_cons ht ha hb
  · refine .here (.ok []) (fun toks hr => ?_) ⟨[], .nil⟩
    rw [← hr] at hnone
    exact links_reading_end fun t ht o ho => hnone t ht ⟨o, ho⟩
termination_by 3 * toks.length
decreasing_by all_goals subst_vars; simp only [List.length_cons]; omega

theorem arguments_decides (toks : List Token) :
    Decides (fun toks => .of (arguments toks).reading) Phrase.arguments toks := by
  rcases head_cases (· = .delimiter .closeParen) toks with ⟨c, rest, rfl, hc⟩ | hnone
  · exact ⟨[c], rest, .ok [], rfl, fun rest _ => arguments_reading_none hc rest,
      Phrase.closed_none hc⟩
  · have hargs : Decides (fun toks => (Account.of (expression toks).reading).andThen fun e rest =>
        .of ((moreArguments rest).reading.map (e :: ·)))
        (Phrase.expression * Phrase.closed (ExprSpelled operatorRows) CommaEach) toks := by
      refine (expression_decides toks).andThen (fun e rest h => ?_) Phrase.closed_inhabited
      have hfewer := Attempt.rest_lt (firstStop_of.mp h)
      exact (moreArguments_decides rest).map (e :: ·)
    refine .mono (hargs.congr fun toks hr => ?_) ?_
    · rw [← hr] at hnone
      exact of_andThen (arguments_reading_some hnone)
    · rintro w ⟨a, ⟨e, he⟩, b, hb, rfl⟩
      exact Phrase.closed_some he hb
termination_by 3 * toks.length + 2
decreasing_by all_goals omega

theorem moreArguments_decides (toks : List Token) :
    Decides (fun toks => .of (moreArguments toks).reading)
      (Phrase.closed (ExprSpelled operatorRows) CommaEach) toks := by
  rcases head_cases (· = .delimiter .comma) toks with ⟨t, rest, rfl, ht⟩ | hnone
  · have hargs : Decides (fun rest => (Account.of (expression rest).reading).andThen fun e left =>
        .of ((moreArguments left).reading.map (e :: ·)))
        (Phrase.expression * Phrase.closed (ExprSpelled operatorRows) CommaEach) rest := by
      refine (expression_decides rest).andThen (fun e left h => ?_) Phrase.closed_inhabited
      have hfewer := Attempt.rest_lt (firstStop_of.mp h)
      exact (moreArguments_decides left).map (e :: ·)
    refine hargs.cons (fun rest => of_andThen (moreArguments_reading_comma ht rest)) ?_
    rintro w ⟨a, ⟨e, he⟩, b, hb, rfl⟩
    exact Phrase.closed_comma ht he hb
  · refine close_decides (fun toks hr => ?_) fun c hc => Phrase.closed_end hc
    rw [← hr] at hnone
    exact congrArg of (moreArguments_reading_end hnone)
termination_by 3 * toks.length
decreasing_by all_goals subst_vars; simp only [List.length_cons]; omega

end

/-! ## Parts of statements -/

theorem moreParameters_decides (toks : List Token) :
    Decides (fun toks => .of (moreParameters toks).reading)
      (Phrase.closed ParamSpelled CommaEach) toks := by
  rcases head_cases (· = .delimiter .comma) toks with ⟨t, rest, rfl, ht⟩ | hnone
  · have hparams := (identifier_decides .parameterName rest).andThen
      (f := fun x left => .of ((moreParameters left).reading.map (⟨x.1, x.2⟩ :: ·)))
      (M := Phrase.closed ParamSpelled CommaEach) (fun x left h => by
        have hfewer := Attempt.rest_lt (firstStop_of.mp h)
        exact (moreParameters_decides left).map (⟨x.1, x.2⟩ :: ·)) Phrase.closed_inhabited
    refine hparams.cons (fun rest => of_andThen (moreParameters_reading_comma ht rest)) ?_
    rintro w ⟨a, ⟨n, rfl, name, hn⟩, b, hb, rfl⟩
    exact Phrase.closed_comma ht (.mk hn) hb
  · refine close_decides (fun toks hr => ?_) fun c hc => Phrase.closed_end hc
    rw [← hr] at hnone
    exact congrArg of (moreParameters_reading_end hnone)
termination_by toks.length
decreasing_by subst_vars; simp only [List.length_cons]; omega

theorem parameters_decides (toks : List Token) :
    Decides (fun toks => .of (parameters toks).reading) Phrase.parameters toks := by
  rcases head_cases (fun k => ∃ name, k = .identifier name) toks with
    ⟨t, rest, rfl, name, ht⟩ | hnone
  · have hparams := (moreParameters_decides rest).map (⟨name, t.position⟩ :: ·)
    exact hparams.cons (fun rest => congrArg of (parameters_reading_some ht rest))
      fun w hw => Phrase.closed_some (.mk ht) hw
  · refine close_decides (fun toks hr => ?_) fun c hc => Phrase.closed_none hc
    rw [← hr] at hnone
    exact congrArg of (parameters_reading_none fun t ht name hname => hnone t ht ⟨name, hname⟩)

theorem enclosed_decides (toks : List Token) :
    Decides (fun toks => .of (enclosed toks).reading) Phrase.enclosed toks := by
  have hinner (rest : List Token) := (expression_decides rest).andThen
    (fun e left _ => (delimiter_decides .closeParen left).map fun _ => e) (oneToken_inhabited rfl)
  have houter := (delimiter_decides .openParen toks).andThen (fun _ rest _ => hinner rest)
    (mul_inhabited Phrase.expression_inhabited (oneToken_inhabited rfl))
  refine .mono (houter.congr fun toks _ => of_andThen_andThen (enclosed_reading toks)) ?_
  rintro w ⟨_, ⟨o, rfl, ho⟩, _, ⟨a, ⟨e, he⟩, _, ⟨c, rfl, hc⟩, rfl⟩, rfl⟩
  exact ⟨e, .mk ho he hc⟩

theorem signature_decides (toks : List Token) :
    Decides (fun toks => .of (signature toks).reading) Phrase.signature toks := by
  have hinner (name : String) (rest : List Token) := (delimiter_decides .openParen rest).andThen
    (fun _ left _ => (parameters_decides left).map (name, ·)) Phrase.parameters_inhabited
  have houter := (identifier_decides .functionName toks).andThen (fun x rest _ => hinner x.1 rest)
    (mul_inhabited (oneToken_inhabited rfl) Phrase.parameters_inhabited)
  exact houter.congr fun toks _ => of_andThen_andThen (signature_reading toks)

theorem declaration_decides {t : Token} (ht : t.kind = .keyword .box) (toks : List Token) :
    Decides (fun toks => .of (declaration t.position toks).reading) (Phrase.statement t) toks := by
  have hinner (name : String) (rest : List Token) := (paws_decides rest).andThen
    (fun _ left _ => (expression_decides left).map (Stmt.declare name · none t.position))
    Phrase.expression_inhabited
  have houter := (identifier_decides .variableName toks).andThen (fun x rest _ => hinner x.1 rest)
    (mul_inhabited (oneToken_inhabited rfl) Phrase.expression_inhabited)
  refine .mono (houter.congr fun toks _ =>
    of_andThen_andThen (declaration_reading t.position toks)) ?_
  rintro w ⟨_, ⟨n, rfl, name, hn⟩, _, ⟨_, ⟨p, rfl, hp⟩, a, ⟨e, he⟩, rfl⟩, rfl⟩
  exact ⟨_, .declare ht hn hp he⟩

theorem named_decides {t : Token} {name : String} (ht : t.kind = .identifier name)
    (toks : List Token) :
    Decides (fun toks => .of (named name t.position toks).reading) (Phrase.statement t) toks := by
  rcases head_cases (fun k => k = .keyword .paws ∨ k = .delimiter .openParen) toks with
    ⟨u, rest, rfl, hu | hu⟩ | hnone
  · have hvalue := (expression_decides rest).map (Stmt.assign name · none t.position)
    refine hvalue.cons (fun rest => congrArg of (named_reading_assign hu name t.position rest)) ?_
    rintro w ⟨e, he⟩
    exact ⟨_, .assign ht hu he⟩
  · have hargs := (arguments_decides rest).map (Stmt.call name · t.position)
    refine hargs.cons (fun rest => congrArg of (named_reading_call hu name t.position rest)) ?_
    rintro w ⟨args, toks, c, rfl, hc, ha, hl⟩
    exact ⟨_, .call ht hu ha hl hc⟩
  · refine .here (.error .pawsOrParen) (fun toks hr => ?_) ?_
    · rw [← hr] at hnone
      exact named_reading_none (fun u hu => not_or.mp (hnone u hu)) name t.position
    · -- an assignment would do
      obtain ⟨w, e, he⟩ := Phrase.expression_inhabited
      exact ⟨⟨.keyword .paws, "", .start⟩ :: w, _, .assign ht rfl he⟩

/-! ## Statements -/

mutual

theorem statement_decides (s : Starter) (t : Token) (ht : Starter.ofKind? t.kind = some s)
    (toks : List Token) :
    Decides (fun toks => (statement s t.position toks).account) (Phrase.statement t) toks := by
  have hk := starter_kind ht
  cases s with
  | declaration =>
    refine (declaration_decides hk toks).congr fun toks _ => ?_
    rw [statement, account_ofAttempt]
  | named name =>
    refine (named_decides hk toks).congr fun toks _ => ?_
    rw [statement, account_ofAttempt]
  | bring =>
    have hvalue := (expression_decides toks).map (Stmt.bring · t.position)
    refine .mono (hvalue.congr fun toks _ => ?_) ?_
    · rw [statement, account_ofAttempt, Attempt.reading_map]
      rfl
    · rintro w ⟨e, he⟩
      exact ⟨_, .bring hk he⟩
  | print =>
    have hvalue := (enclosed_decides toks).map (Stmt.print · t.position)
    refine .mono (hvalue.congr fun toks _ => ?_) ?_
    · rw [statement, account_ofAttempt, Attempt.reading_map]
      rfl
    · rintro w ⟨e, he⟩
      exact ⟨_, .print hk he⟩
  | definition =>
    have hbody : Decides (fun toks => (Account.of (signature toks).reading).andThen fun x rest =>
        (block rest).account.map (Stmt.define x.1 x.2 · t.position))
        (Phrase.signature * Phrase.block) toks := by
      refine (signature_decides toks).andThen (fun x rest h => ?_) Phrase.block_inhabited
      have hfewer := Attempt.rest_lt (firstStop_of.mp h)
      exact (block_decides rest).map (Stmt.define x.1 x.2 · t.position)
    refine .mono (hbody.congr fun toks _ => statement_account_definition t.position toks) ?_
    rintro w ⟨_, ⟨_, ⟨n, rfl, name, hn⟩, _, ⟨_, ⟨o, rfl, ho⟩, _, hp, rfl⟩, rfl⟩, b,
      ⟨body, hbody, hb⟩, rfl⟩
    obtain ⟨params, toks, c, rfl, hc, hp, hl⟩ := hp
    have hs := StmtSpelled.define hk hn ho hp hl hc hbody hb
    exact ⟨_, by simpa using hs⟩
  | loop =>
    have hbody : Decides (fun toks => (Account.of (enclosed toks).reading).andThen fun e rest =>
        (block rest).account.map (Stmt.loop e · t.position)) (Phrase.enclosed * Phrase.block)
        toks := by
      refine (enclosed_decides toks).andThen (fun e rest h => ?_) Phrase.block_inhabited
      have hfewer := Attempt.rest_lt (firstStop_of.mp h)
      exact (block_decides rest).map (Stmt.loop e · t.position)
    refine .mono (hbody.congr fun toks _ => statement_account_loop t.position toks) ?_
    rintro w ⟨a, ⟨e, he⟩, b, ⟨body, hbody, hb⟩, rfl⟩
    exact ⟨_, .loop hk he hbody hb⟩
  | branch =>
    have hbranch : Decides (fun toks => (Account.of (enclosed toks).reading).andThen fun e rest =>
        (block rest).account.andThen fun body left => otherwiseAccount e body t.position left)
        (Phrase.enclosed * (Phrase.block * Phrase.otherwise)) toks := by
      refine (enclosed_decides toks).andThen (fun e rest h => ?_)
        (mul_inhabited Phrase.block_inhabited ⟨[], .inl rfl⟩)
      have hfewer := Attempt.rest_lt (firstStop_of.mp h)
      refine (block_decides rest).andThen (fun body left h => ?_) ⟨[], .inl rfl⟩
      have hfewer' := Recovered.rest_lt h
      exact otherwise_decides e body t.position left
    refine .mono (hbranch.congr fun toks _ => statement_account_branch t.position toks) ?_
    rintro w ⟨a, ⟨e, he⟩, _, ⟨b, ⟨body, hbody, hb⟩, _, hother, rfl⟩, rfl⟩
    rcases hother with rfl | ⟨_, ⟨h, rfl, hh⟩, b', ⟨body', hbody', hb'⟩, rfl⟩
    · exact ⟨_, by simpa using StmtSpelled.ifThen hk he hbody hb⟩
    · exact ⟨_, by simpa using StmtSpelled.ifElse hk he hbody hb hh hbody' hb'⟩
termination_by 2 * toks.length
decreasing_by all_goals omega

theorem otherwise_decides (condition : Expr) (body : List Stmt) (p : Position)
    (toks : List Token) :
    Decides (otherwiseAccount condition body p) Phrase.otherwise toks := by
  rcases head_cases (· = .keyword .hiss) toks with ⟨h, rest, rfl, hh⟩ | hnone
  · have hblock := (block_decides rest).map (Stmt.ifElse condition body · p)
    refine hblock.cons (fun rest => if_pos hh) fun w hw => .inr ?_
    exact Language.append_mem_mul (a := [h]) ⟨h, rfl, hh⟩ hw
  · refine .here (.ok (.ifThen condition body p)) (fun toks hr => ?_) (.inl rfl)
    rw [← hr] at hnone
    cases toks with
    | nil => rfl
    | cons u more =>
      rw [otherwiseAccount, if_neg (hnone u rfl)]
      rfl
termination_by 2 * toks.length
decreasing_by subst_vars; simp only [List.length_cons]; omega

theorem block_decides (toks : List Token) :
    Decides (fun toks => (block toks).account) Phrase.block toks := by
  rcases head_cases (· = .delimiter .openBrace) toks with ⟨o, rest, rfl, ho⟩ | hnone
  · have hbody := (statements_decides rest).andThen
      (fun body left _ => (delimiter_decides .closeBrace left).map fun _ => body)
      (oneToken_inhabited rfl)
    refine hbody.cons (block_account ho) ?_
    rintro w ⟨_, ⟨body, rfl, hbody⟩, _, ⟨c, rfl, hc⟩, rfl⟩
    exact ⟨body, hbody, .mk ho hc⟩
  · refine .here (.error (.delimiter .openBrace)) (fun toks hr => ?_)
      Phrase.block_inhabited
    rw [← hr] at hnone
    rw [block_account_none hnone]
    rfl
termination_by 2 * toks.length
decreasing_by subst_vars; simp only [List.length_cons]; omega

theorem statements_decides (toks : List Token) :
    Decides (fun toks => (statements toks).account) Phrase.statements toks := by
  rcases head_cases (fun k => ∃ s, Starter.ofKind? k = some s) toks with
    ⟨t, rest, rfl, s, ht⟩ | hnone
  · have hfirst : Decides (fun toks => (statement s t.position toks).account.recover
        (fun first left => (statements left).account.map (first :: ·))
        fun left => (statements left).account) (Phrase.statement t * Phrase.statements) rest := by
      refine (statement_decides s t ht rest).recover _ (fun first left h => ?_)
        Phrase.statements_inhabited
      have hfewer := Recovered.rest_lt h
      exact (statements_decides left).map (first :: ·)
    refine hfirst.cons (statements_account ht) ?_
    rintro w ⟨a, ha, b, hb, rfl⟩
    exact Phrase.statements_cons ha hb
  · rcases head_cases (fun k => ¬ endsStatements k = true) toks with ⟨t, rest, rfl, he⟩ | hend
    · -- the mistake is at the first token, and is reported before reading goes on
      refine .here (.error .statement) (fun toks hr => ?_) Phrase.statements_inhabited
      obtain ⟨rest, rfl⟩ := List.head?_eq_some_iff.mp hr
      have hs : Starter.ofKind? t.kind = none :=
        Option.eq_none_iff_forall_ne_some.mpr fun s hs => hnone t rfl ⟨s, hs⟩
      rw [statements_account_none he hs]
      exact ⟨.statement, t, rest, rfl, rfl⟩
    · refine .here (.ok []) (fun toks hr => ?_) ⟨[], rfl, List.forall_mem_nil _⟩
      rw [← hr] at hend
      rw [statements_account_end fun t ht => not_not.mp (hend t ht)]
      rfl
termination_by 2 * toks.length + 1
decreasing_by all_goals subst_vars; simp only [List.length_cons]; omega

end

end MeowScript
