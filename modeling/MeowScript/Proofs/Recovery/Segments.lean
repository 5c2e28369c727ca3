import MeowScript.Proofs.Prefix.FirstFault
import MeowScript.Proofs.Progress.Forward
import MeowScript.Proofs.Recovery.Landmarks

/-!
# Recovery isolates mistakes

A program without blocks is cut into segments at the words that recovery goes on at. What a segment
is made of is decided within it, or at the first token behind it: if statements are spelled there,
they are read, whatever follows; if not, one fault is reported, and reading goes on behind the
segment as if it had not been there.

Results:
* `statement_within`: a statement ends, or fails, at the next landmark at the latest.
* `piece_account`: one segment.
* `segments_account`: all of them.
* `errors_isolated`: the faults of a program are those of its segments, one for each.
-/
namespace MeowScript

open Account Recovered

variable {α β : Type}

/-! ## Accounts -/

namespace Account

theorem faults_of_andThen {r : Reading α} {f : α → List Token → Account β}
    (h : ∀ a, (f a r.rest).faults = []) : ((of r).andThen f).faults = [] := by
  obtain ⟨result, rest⟩ := r
  cases result with
  | error e => rfl
  | ok a => exact h a

theorem recover_of_error (e : Expected) (u : Token) (more : List Token)
    (f : α → List Token → Account β) (g : List Token → Account β) :
    (of ⟨.error e, u :: more⟩).recover f g =
      (g (skip (u :: more))).after [⟨.expected e u.kind, u.position⟩] := rfl

end Account

theorem account_of_clean? {n : Nat} {r : Recovered α n} {a : α} {rest : List Token}
    (h : r.clean? = some (a, rest)) : r.account = .of ⟨.ok a, rest⟩ := by
  obtain ⟨faults, outcome⟩ := r
  cases faults with
  | cons f faults => cases h
  | nil =>
    cases outcome with
    | error f => cases h
    | ok r =>
      rw [clean?_nil, Attempt.result?_ok, Option.some.injEq, Prod.mk.injEq] at h
      obtain ⟨rfl, rfl⟩ := h
      rfl

/-! ## Statements that are spelled right -/

/-- What is spelled as statements is read, and reading goes on behind it. -/
theorem statements_account_append {body : List (List Token × Stmt)}
    (h : ∀ x ∈ body, StmtSpelled x.1 x.2) {rest : List Token} (hr : EndsStmt rest) :
    (statements (spelling body ++ rest)).account =
      (statements rest).account.map (meanings body ++ ·) := by
  induction body with
  | nil => exact (map_nil_append _).symm
  | cons x xs ih =>
    have hxs : ∀ y ∈ xs, StmtSpelled y.1 y.2 := fun y hy => h y (List.mem_cons_of_mem x hy)
    obtain ⟨t, more, s, hx, ht, hread⟩ := (h x List.mem_cons_self).readable
    have hends : EndsStmt (spelling xs ++ rest) :=
      .spelling (fun y hy => (hxs y hy).readable) hr
    rw [spelling_cons, hx, List.append_assoc, List.cons_append, statements_account ht,
      account_of_clean? (hread _ hends)]
    show (statements (spelling xs ++ rest)).account.map (x.2 :: ·) = _
    rw [ih hxs, map_map]
    rfl

/-! ## Without braces -/

/-- No token is an opening brace. -/
def Unbraced (toks : List Token) : Prop := ∀ t ∈ toks, t.kind ≠ .delimiter .openBrace

theorem Unbraced.head {toks : List Token} (h : Unbraced toks) :
    ∀ t ∈ toks.head?, t.kind ≠ .delimiter .openBrace :=
  fun t ht => h t (List.mem_of_mem_head? ht)

/-- Without a block nothing is reported before the statement itself fails. -/
theorem statement_faultless (s : Starter) (p : Position) {toks : List Token} (h : Unbraced toks) :
    (statement s p toks).account.faults = [] := by
  have hblock : ∀ {rest : List Token}, rest <:+ toks →
      (block rest).account = .of ⟨.error (.delimiter .openBrace), rest⟩ := by
    intro rest hrest
    apply block_account_none
    exact Unbraced.head fun t ht => h t (hrest.subset ht)
  cases s with
  | declaration | named | bring | print => rw [statement]; rfl
  | definition =>
    rw [statement_account_definition]
    exact faults_of_andThen fun x => by rw [hblock (signature_forward toks)]; rfl
  | loop =>
    rw [statement_account_loop]
    exact faults_of_andThen fun x => by rw [hblock (enclosed_forward toks)]; rfl
  | branch =>
    rw [statement_account_branch]
    exact faults_of_andThen fun x => by rw [hblock (enclosed_forward toks)]; rfl

/-- Neither a landmark nor an opening brace. -/
def Plain (toks : List Token) : Prop := Unmarked toks ∧ Unbraced toks

/-- A statement behind its first token, in front of a landmark: it is read up to there at most, or
fails there at the latest, and nothing else is reported. -/
theorem statement_within {t stop : Token} {s : Starter} {body more : List Token}
    (hs : Starter.ofKind? t.kind = some s) (hbody : Plain body)
    (hstop : stop.kind.isLandmark = true) (hmore : Unbraced (stop :: more)) :
    ∃ used left, body = used ++ left ∧
      ((∃ first, used ∈ Phrase.statement t ∧
          (statement s t.position (body ++ stop :: more)).account =
            .of ⟨.ok first, left ++ stop :: more⟩) ∨
        ∃ e, (statement s t.position (body ++ stop :: more)).account =
          .of ⟨.error e, left ++ stop :: more⟩) := by
  obtain ⟨used, rest, result, hsplit, hstops, hfits⟩ :=
    statement_decides s t hs (body ++ stop :: more)
  have hfaultless : (statement s t.position (body ++ stop :: more)).account.faults = [] :=
    statement_faultless s t.position (List.forall_mem_append.mpr ⟨hbody.2, hmore⟩)
  have hread : (statement s t.position (body ++ stop :: more)).account = .of ⟨result, rest⟩ := by
    have hfirst := hstops rest rfl
    rw [← hsplit, FirstStop, hfaultless] at hfirst
    rw [← hfirst, of, ← hfaultless]
  -- what is taken begins a statement, which has no landmark without a brace before it
  obtain ⟨word, st, hword⟩ : ∃ word st, StmtSpelled (t :: (used ++ word)) st := by
    cases result with
    | ok first =>
      obtain ⟨st, hst⟩ := hfits
      exact ⟨[], st, by simpa using hst⟩
    | error e =>
      obtain ⟨word, st, hst⟩ := hfits
      exact ⟨word, st, hst⟩
  have hused : ∃ left, body = used ++ left ∧ rest = left ++ stop :: more := by
    rcases List.append_eq_append_iff.mp hsplit with ⟨extra, rfl, hrest⟩ | ⟨left, rfl, hrest⟩
    · cases extra with
      | nil => exact ⟨[], by simp, hrest.symm⟩
      | cons u extra =>
        cases hrest
        obtain ⟨o, ho, hbrace⟩ := hword.behindBrace body stop (extra ++ word) (by simp) hstop
        exact absurd hbrace (hbody.2 o ho)
    · exact ⟨left, rfl, hrest⟩
  obtain ⟨left, rfl, rfl⟩ := hused
  refine ⟨used, left, rfl, ?_⟩
  cases result with
  | ok first => exact .inl ⟨first, hfits, hread⟩
  | error e => exact .inr ⟨e, hread⟩

/-- What becomes of a piece of a program in front of `stop`, where `inner` are its tokens behind the
first: if it is spelled right, statements; if not, a fault at one of these tokens or at `stop`. -/
inductive Verdict (piece inner : List Token) (stop : Token) :
    List (Located SyntaxFault) → Prop where
  | spelled : piece ∈ Phrase.statements → Verdict piece inner stop []
  | broken {what : Expected} {u : Token} : piece ∉ Phrase.statements → u ∈ inner ++ [stop] →
      Verdict piece inner stop [⟨.expected what u.kind, u.position⟩]

/-- Reading goes on at `stop` in either case. -/
theorem piece_account {t stop : Token} {s : Starter} {body more : List Token}
    (hs : Starter.ofKind? t.kind = some s) (hbody : Plain body)
    (hstop : stop.kind.isLandmark = true) (hmore : Unbraced (stop :: more)) :
    ∃ kept faults, (statements (t :: (body ++ stop :: more))).account =
        ((statements (stop :: more)).account.map (kept ++ ·)).after faults ∧
      Verdict (t :: body) body stop faults := by
  by_cases hspelled : t :: body ∈ Phrase.statements
  · obtain ⟨parts, hparts, hall⟩ := id hspelled
    refine ⟨meanings parts, [], ?_, .spelled hspelled⟩
    rw [← List.cons_append, hparts, after_nil]
    exact statements_account_append hall (endsStmt_of_landmark hstop more)
  · rw [statements_account hs]
    obtain ⟨used, left, rfl, ⟨first, hused, hread⟩ | ⟨e, hread⟩⟩ :=
      statement_within hs hbody hstop hmore
    · -- a statement is read, so the mistake is behind it
      rw [hread]
      show ∃ kept faults, ((statements (left ++ stop :: more)).account.map (first :: ·)) = _ ∧ _
      have hleft : Plain left :=
        ⟨(unmarked_append.mp hbody.1).2, (List.forall_mem_append.mp hbody.2).2⟩
      cases left with
      | nil =>
        refine absurd ?_ hspelled
        exact Phrase.statements_cons hused ⟨[], rfl, List.forall_mem_nil _⟩
      | cons u left =>
        have hu := unmarked_cons.mp hleft.1
        cases hs' : Starter.ofKind? u.kind with
        | none =>
          have hends : ¬ endsStatements u.kind = true := by
            intro he
            rw [isLandmark_of_ends he] at hu
            cases hu.1
          rw [List.cons_append, statements_account_none hends hs', skip_to hu.2 hstop]
          exact ⟨[first], _, rfl, .broken hspelled (by simp)⟩
        | some s' =>
          have hinner : Plain left := ⟨hu.2, (List.forall_mem_cons.mp hleft.2).2⟩
          obtain ⟨kept, faults, haccount, hverdict⟩ := piece_account hs' hinner hstop hmore
          rw [List.cons_append, haccount]
          refine ⟨first :: kept, faults, by rw [map_after, map_map]; rfl, ?_⟩
          cases hverdict with
          | spelled hrest => exact absurd (Phrase.statements_cons hused hrest) hspelled
          | broken _ hu => exact .broken hspelled (by simp_all)
    · -- the statement itself is broken, where it stops
      have hleft : Unmarked left := (unmarked_append.mp hbody.1).2
      obtain ⟨u, tail, hcons, hu⟩ : ∃ u tail, left ++ stop :: more = u :: tail ∧
          u ∈ left ++ [stop] := by
        cases left <;> simp
      refine ⟨[], [⟨.expected e u.kind, u.position⟩], ?_, .broken hspelled ?_⟩
      · rw [hread, hcons, recover_of_error, ← hcons, skip_to hleft hstop, map_nil_append]
      · rw [List.append_assoc]
        exact List.mem_append_right used hu
termination_by body.length
decreasing_by subst_vars; simp only [List.length_append, List.length_cons]; omega

/-! ## Segments -/

/-- The words that segments begin with. -/
def Kind.opensSegment : Kind → Bool
  | .keyword .box | .keyword .hunt | .keyword .purr | .keyword .chase | .keyword .bring
  | .keyword .meow => true
  | _ => false

theorem Kind.starts_of_opensSegment {k : Kind} (h : k.opensSegment = true) :
    k.isLandmark = true ∧ k ≠ .delimiter .openBrace ∧ ∃ s, Starter.ofKind? k = some s := by
  unfold opensSegment at h
  split at h <;> first | exact ⟨rfl, by decide, _, rfl⟩ | cases h

/-- A word that begins a statement, and tokens behind it that are no landmarks and no opening
braces. -/
structure Segment where
  first : Token
  inner : List Token
  opens : first.kind.opensSegment = true
  plain : Plain inner

namespace Segment

def tokens (s : Segment) : List Token := s.first :: s.inner

theorem unbraced (s : Segment) : Unbraced s.tokens :=
  List.forall_mem_cons.mpr ⟨(Kind.starts_of_opensSegment s.opens).2.1, s.plain.2⟩

theorem unfinished (s : Segment) : Unfinished s.tokens := by
  refine unfinished_cons.mpr ⟨fun he => ?_, fun t ht he => ?_⟩
  · have hopens := s.opens
    rw [he] at hopens
    cases hopens
  · have hnot := s.plain.1 t ht
    rw [he] at hnot
    cases hnot

end Segment

/-- The tokens of a program with this body. -/
def framed (wake sleep finish : Token) (body : List Token) : List Token :=
  wake :: (body ++ [sleep, finish])

/-- Whether the program that consists of the segment alone is rejected. -/
def Segment.rejected (wake sleep finish : Token) (s : Segment) : Bool :=
  (Program.ofTokens (framed wake sleep finish s.tokens)).toOption.isNone

/-- Each segment with the first token behind it, which is `sleep` behind the last one. -/
def following (sleep : Token) : List Segment → List (Segment × Token)
  | [] => []
  | s :: ss => (s, (ss.head?.map Segment.first).getD sleep) :: following sleep ss

theorem following_fst (sleep : Token) (segs : List Segment) :
    (following sleep segs).map Prod.fst = segs := by
  induction segs with
  | nil => rfl
  | cons s ss ih => rw [following, List.map_cons, ih]

/-- The fault tells what was expected at a token of the segment behind its first, or at the first
token behind the segment. -/
def BelongsTo (x : Segment × Token) (f : Located SyntaxFault) : Prop :=
  ∃ what, ∃ u ∈ x.1.inner ++ [x.2], f = ⟨.expected what u.kind, u.position⟩

section

variable {wake sleep finish : Token} (hwake : wake.kind = .keyword .wake)
  (hsleep : sleep.kind = .keyword .sleep) (hfinish : finish.kind = .endOfInput)

include hsleep in
theorem statements_account_sleep :
    (statements [sleep]).account = ⟨[], ⟨.ok [], [sleep]⟩⟩ := by
  refine statements_account_end fun t ht => ?_
  cases ht
  rw [hsleep]
  rfl

include hwake hsleep hfinish in
/-- What a program comes to when the account on its body is known. -/
theorem ofTokens_framed {body : List Token} (hbody : Unfinished body) {kept : List Stmt}
    {faults : List (Located SyntaxFault)}
    (h : (statements (body ++ [sleep])).account = ⟨faults, ⟨.ok kept, [sleep]⟩⟩) :
    Program.ofTokens (framed wake sleep finish body) =
      if faults = [] then .ok ⟨kept, wake.position⟩ else .error faults := by
  have hinit : Unfinished (wake :: (body ++ [sleep])) := by simp [hwake, hsleep, hbody]
  have hlist : TokenStream.ofList (framed wake sleep finish body) =
      ⟨wake :: (body ++ [sleep]), finish.position⟩ := by
    rw [← TokenStream.ofList_ends hfinish hinit]
    simp [framed]
  have hstart : TokenStream.start ⟨wake :: (body ++ [sleep]), finish.position⟩ =
      ([], body ++ [sleep]) := if_pos hwake
  rw [Program.ofTokens, hlist, program_account, hstart, topLevel_account, h]
  simp only [Account.andThen, Account.after, of, hsleep, reduceCtorEq, if_false, List.append_nil,
    List.nil_append, TokenStream.close, if_true]
  cases faults <;> rfl

include hsleep in
/-- What comes behind a segment: the first token there is a landmark, and no brace is opened. -/
theorem stop_behind (ss : List Segment) :
    ∃ stop more, ss.flatMap Segment.tokens ++ [sleep] = stop :: more ∧
      stop = (ss.head?.map Segment.first).getD sleep ∧ stop.kind.isLandmark = true ∧
      Unbraced (stop :: more) := by
  have hunbraced : Unbraced (ss.flatMap Segment.tokens ++ [sleep]) := by
    refine List.forall_mem_append.mpr ⟨fun t ht => ?_, by simp [hsleep]⟩
    obtain ⟨s, -, hs⟩ := List.mem_flatMap.mp ht
    exact s.unbraced t hs
  cases ss with
  | nil => exact ⟨sleep, [], rfl, rfl, by rw [hsleep]; rfl, hunbraced⟩
  | cons s ss =>
    exact ⟨s.first, _, rfl, rfl, (Kind.starts_of_opensSegment s.opens).1, hunbraced⟩

include hsleep in
/-- All segments, one after the other. -/
theorem segments_account {wrong : Segment → Bool}
    (hwrong : ∀ s, wrong s = true ↔ s.tokens ∉ Phrase.statements) (segs : List Segment) :
    ∃ kept faults, (statements (segs.flatMap Segment.tokens ++ [sleep])).account =
        ⟨faults, ⟨.ok kept, [sleep]⟩⟩ ∧
      List.Forall₂ BelongsTo ((following sleep segs).filter fun x => wrong x.1) faults := by
  induction segs with
  | nil => exact ⟨[], [], statements_account_sleep hsleep, .nil⟩
  | cons s ss ih =>
    obtain ⟨kept, faults, hread, hfaults⟩ := ih
    obtain ⟨stop, more, htail, hstop, hmark, hmore⟩ := stop_behind hsleep ss
    obtain ⟨-, -, _, hs⟩ := Kind.starts_of_opensSegment s.opens
    obtain ⟨first, own, haccount, hverdict⟩ := piece_account hs s.plain hmark hmore
    rw [← htail, hread] at haccount
    refine ⟨first ++ kept, own ++ faults, ?_, ?_⟩
    · rw [List.flatMap_cons, List.append_assoc]
      exact haccount
    · rw [following, ← hstop, List.filter_cons]
      cases hverdict with
      | spelled hright =>
        rw [if_neg fun h => (hwrong s).mp h hright]
        exact hfaults
      | broken hbroken hu =>
        rw [if_pos ((hwrong s).mpr hbroken)]
        exact .cons ⟨_, _, hu, rfl⟩ hfaults

include hwake hsleep hfinish in
theorem Segment.rejected_iff (s : Segment) :
    s.rejected wake sleep finish = true ↔ s.tokens ∉ Phrase.statements := by
  obtain ⟨-, -, _, hs⟩ := Kind.starts_of_opensSegment s.opens
  have hmark : sleep.kind.isLandmark = true := by rw [hsleep]; rfl
  have hlast : Unbraced [sleep] := by simp [Unbraced, hsleep]
  obtain ⟨kept, faults, haccount, hverdict⟩ := piece_account hs s.plain hmark hlast
  rw [statements_account_sleep hsleep] at haccount
  have hread : (statements (s.tokens ++ [sleep])).account =
      ⟨faults ++ [], ⟨.ok (kept ++ []), [sleep]⟩⟩ := haccount
  rw [Segment.rejected, ofTokens_framed hwake hsleep hfinish s.unfinished hread]
  cases hverdict with
  | spelled hright => simp [Segment.tokens, hright, Except.toOption]
  | broken hbroken _ => simp [Segment.tokens, hbroken, Except.toOption]

include hwake hsleep hfinish in
/-- **Main.** Recovery isolates mistakes. A program of segments is accepted if each of them is a
program by itself; otherwise there is one fault for each segment that is not, in their order, at a
token of the segment behind its first or at the first token behind the segment. -/
theorem errors_isolated (segs : List Segment) :
    ((∃ p, Program.ofTokens (framed wake sleep finish (segs.flatMap Segment.tokens)) = .ok p) ↔
        ∀ s ∈ segs, s.rejected wake sleep finish = false) ∧
      ∀ faults,
        Program.ofTokens (framed wake sleep finish (segs.flatMap Segment.tokens)) =
            .error faults →
          faults.length = segs.countP (·.rejected wake sleep finish) ∧
          List.Forall₂ BelongsTo
            ((following sleep segs).filter fun x => x.1.rejected wake sleep finish) faults := by
  obtain ⟨kept, faults, hread, hfaults⟩ :=
    segments_account hsleep (Segment.rejected_iff hwake hsleep hfinish) segs
  have hunfinished : Unfinished (segs.flatMap Segment.tokens) := by
    intro t ht
    obtain ⟨s, -, hs⟩ := List.mem_flatMap.mp ht
    exact s.unfinished t hs
  have hcount : faults.length = segs.countP (·.rejected wake sleep finish) := by
    rw [← hfaults.length_eq, ← List.countP_eq_length_filter]
    conv_rhs => rw [← following_fst sleep segs, List.countP_map]
    rfl
  rw [ofTokens_framed hwake hsleep hfinish hunfinished hread]
  refine ⟨?_, ?_⟩
  · have hnone : faults = [] ↔ ∀ s ∈ segs, s.rejected wake sleep finish = false := by
      rw [← List.length_eq_zero_iff, hcount, List.countP_eq_zero]
      simp
    rw [← hnone]
    split <;> simp_all
  · intro found hfound
    split at hfound
    · cases hfound
    · cases hfound
      exact ⟨hcount, hfaults⟩

end

/-! `Wake Box x paws 1 Box y Meow ( 2 Sleep` -/

/-- A token in this column. -/
def column (i : Nat) (k : Kind) : Token := ⟨k, "", ⟨1, i⟩⟩

def firstWord : Token := column 1 (.keyword .wake)

def lastWord : Token := column 11 (.keyword .sleep)

def inputEnd : Token := column 12 .endOfInput

/-- The first segment is right, and the other two stop too early. -/
def threeSegments : List Segment :=
  [{ first := column 2 (.keyword .box)
     inner := [column 3 (.identifier "x"), column 4 (.keyword .paws), column 5 (.integer 1)]
     opens := rfl
     plain := by simp [Plain, Unbraced, column, Kind.isLandmark] },
   { first := column 6 (.keyword .box)
     inner := [column 7 (.identifier "y")]
     opens := rfl
     plain := by simp [Plain, Unbraced, column, Kind.isLandmark] },
   { first := column 8 (.keyword .meow)
     inner := [column 9 (.delimiter .openParen), column 10 (.integer 2)]
     opens := rfl
     plain := by simp [Plain, Unbraced, column, Kind.isLandmark] }]

/-- The second segment fails at the first token of the third, which is read all the same and fails
at the token behind it. -/
theorem errors_isolated_twice :
    firstWord.kind = .keyword .wake ∧ lastWord.kind = .keyword .sleep ∧
      inputEnd.kind = .endOfInput ∧
      ∃ faults,
        Program.ofTokens (framed firstWord lastWord inputEnd
            (threeSegments.flatMap Segment.tokens)) = .error faults ∧
          faults.map Located.position = [⟨1, 8⟩, ⟨1, 11⟩] ∧
          faults.length = threeSegments.countP (·.rejected firstWord lastWord inputEnd) ∧
          List.Forall₂ BelongsTo
            ((following lastWord threeSegments).filter
              fun x => x.1.rejected firstWord lastWord inputEnd) faults := by
  have hwake : firstWord.kind = .keyword .wake := rfl
  have hsleep : lastWord.kind = .keyword .sleep := rfl
  have hfinish : inputEnd.kind = .endOfInput := rfl
  have hrejected : Program.ofTokens (framed firstWord lastWord inputEnd
      (threeSegments.flatMap Segment.tokens)) =
        .error [⟨.expected .paws (.keyword .meow), ⟨1, 8⟩⟩,
          ⟨.expected (.delimiter .closeParen) (.keyword .sleep), ⟨1, 11⟩⟩] := by
    with_unfolding_all rfl
  obtain ⟨-, hfaults⟩ := errors_isolated hwake hsleep hfinish threeSegments
  obtain ⟨hlength, hbelong⟩ := hfaults _ hrejected
  exact ⟨hwake, hsleep, hfinish, _, hrejected, rfl, hlength, hbelong⟩

end MeowScript
