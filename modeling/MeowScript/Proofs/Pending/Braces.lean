import MeowScript.Proofs.Growth.Extension
import MeowScript.Proofs.Lexing.Split
import MeowScript.Session.Pending

/-!
# Braces of a line and braces of its tokens

Pending input counts the braces among the characters of a line, wherever they stand. The tokens of
the line have braces of their own: those that are no part of a string or a comment. Piece by piece
the two counts go along with each other, except where a piece hides braces.

Results:
* `Piece.unclosed_text`: a piece that is no string and no comment counts as a token does.
* `unclosed_pieces`: the count of a line, piece by piece.
* `foldl_count_eq`: braces that each close an earlier one leave open what their numbers say.
* `unclosed_line`: without hidden braces a line leaves open what its tokens leave open.
* `push_agrees`: what becomes of a line, by its tokens, and when.
* `push_holds_back`: a line without braces that is held back.
-/
namespace MeowScript

/-! ## Counting -/

/-- No character of the text is a brace. -/
theorem unclosed_of_forall {p : Char → Bool} (hopen : p '\x7b' = false) (hclose : p '\x7d' = false)
    {cs : List Char} (h : ∀ c ∈ cs, p c = true) (n : Nat) : unclosed n cs = n := by
  induction cs with
  | nil => rfl
  | cons c cs ih =>
    obtain ⟨hc, hcs⟩ := List.forall_mem_cons.mp h
    have hne : c ≠ '\x7b' := by
      rintro rfl
      rw [hopen] at hc
      cases hc
    have hne' : c ≠ '\x7d' := by
      rintro rfl
      rw [hclose] at hc
      cases hc
    have hstep : unclosed n [c] = n := by simp [unclosed, hne, hne']
    rw [← List.singleton_append, unclosed_append, hstep, ih hcs]

/-- The braces open behind a token, when `n` are open before it. -/
def Kind.count (n : Nat) : Kind → Nat
  | .delimiter .openBrace => n + 1
  | .delimiter .closeBrace => n - 1
  | _ => n

theorem Kind.count_of_ne {k : Kind} (hopen : k ≠ .delimiter .openBrace)
    (hclose : k ≠ .delimiter .closeBrace) (n : Nat) : k.count n = n := by
  unfold count
  split
  · exact absurd rfl hopen
  · exact absurd rfl hclose
  · rfl

namespace Piece

/-- A string or a comment. -/
def hides (x : Piece) : Bool :=
  match x.content, x.text with
  | .token (.string _), _ => true
  | .gap, '/' :: _ => true
  | _, _ => false

/-- The braces open behind a piece, when `n` are open before it. -/
def count (n : Nat) (x : Piece) : Nat :=
  if x.hides then unclosed n x.text else (x.kind?.map (Kind.count n)).getD n

/-- What the rule accepts counts as the token that it is. -/
theorem unclosed_means {r : Rule} {m : List Char} {content : Content} (hr : r.Matches m)
    (hm : r.Means m content) (hhides : hides ⟨m, content⟩ = false) (n : Nat) :
    unclosed n m = (kind? ⟨m, content⟩ |>.map (Kind.count n)).getD n := by
  cases hm with
  | blanks => exact unclosed_of_forall (p := isGapChar) (by decide) (by decide) hr.2 n
  | lineComment =>
    obtain ⟨body, rfl, -⟩ := hr
    cases hhides
  | @keyword k =>
    cases hr
    cases k <;> rfl
  | identifier =>
    obtain ⟨c, cs, rfl, hc, hcs⟩ := hr
    refine unclosed_of_forall (p := isWordChar) (by decide) (by decide) ?_ n
    exact List.forall_mem_cons.mpr ⟨isWordChar_of_isWordStart hc, hcs⟩
  | float hw hf =>
    refine unclosed_of_forall (p := fun c => c.isDigit || c == '.') (by decide) (by decide) ?_ n
    have hdigits : ∀ {ds : List Char}, Digits ds →
        ∀ c ∈ ds, (c.isDigit || c == '.') = true := by
      intro ds hds c hc
      rw [hds.2 c hc, Bool.true_or]
    exact List.forall_mem_append.mpr ⟨hdigits hw, List.forall_mem_cons.mpr ⟨rfl, hdigits hf⟩⟩
  | integer | outOfRange =>
    exact unclosed_of_forall (p := Char.isDigit) (by decide) (by decide) hr.2 n
  | @operator o =>
    cases hr
    cases o <;> rfl
  | bang =>
    cases hr
    rfl
  | @delimiter d =>
    cases hr
    cases d <;> rfl

/-- A piece that is no string and no comment counts as the token that it is. -/
theorem unclosed_text {x : Piece} {rest : List Char} (hx : StandsBefore x rest)
    (hfault : ∀ e, x.content ≠ .fault e) (hhides : x.hides = false) (n : Nat) :
    unclosed n x.text = (x.kind?.map (Kind.count n)).getD n := by
  cases hx with
  | accepted hr hy =>
    cases hy with
    | whole hm => exact unclosed_means hr.accepts hm hhides n
    | comment =>
      rw [hr.accepts] at hhides
      cases hhides
    | openComment => exact absurd rfl (hfault _)
    | string => cases hhides
    | openString => exact absurd rfl (hfault _)
  | invalid => exact absurd rfl (hfault _)

theorem unclosed_eq_count {x : Piece} {rest : List Char} (hx : StandsBefore x rest)
    (hfault : ∀ e, x.content ≠ .fault e) (n : Nat) : unclosed n x.text = x.count n := by
  unfold count
  split
  · rfl
  · next hhides => exact unclosed_text hx hfault (Bool.not_eq_true _ ▸ hhides) n

end Piece

/-- The count of a line, piece by piece. -/
theorem unclosed_pieces {cs : List Char} (h : Clean cs) (n : Nat) :
    unclosed n cs = (pieces cs).foldl Piece.count n := by
  have hsplits := pieces_split cs
  unfold Clean at h
  generalize pieces cs = xs at h hsplits
  induction hsplits generalizing n with
  | nil => rfl
  | cons hx _ ih =>
    obtain ⟨hfault, hrest⟩ := List.forall_mem_cons.mp h
    rw [unclosed_append, Piece.unclosed_eq_count hx hfault, List.foldl_cons]
    exact ih _ hrest

/-! ## Tokens -/

/-- The text has no effect on a count: its braces, if it has any, are paired. -/
def Neutral (cs : List Char) : Prop := ∀ n, unclosed n cs = n

theorem Piece.count_neutral {x : Piece} (h : x.hides = true → Neutral x.text) (n : Nat) :
    x.count n = (x.kind?.map (Kind.count n)).getD n := by
  unfold count
  split
  · next hhides =>
    rw [h hhides n]
    unfold hides at hhides
    split at hhides
    · next hstring => rw [kind?, hstring]; rfl
    · next hgap _ => rw [kind?, hgap]; rfl
    · cases hhides
  · rfl

/-- Without hidden braces the tokens alone are counted. -/
theorem foldl_count {xs : List Piece} (h : ∀ x ∈ xs, x.hides = true → Neutral x.text) (n : Nat) :
    xs.foldl Piece.count n = (xs.filterMap Piece.kind?).foldl Kind.count n := by
  induction xs generalizing n with
  | nil => rfl
  | cons x xs ih =>
    obtain ⟨hx, hxs⟩ := List.forall_mem_cons.mp h
    rw [List.foldl_cons, Piece.count_neutral hx, ih hxs, List.filterMap_cons]
    cases x.kind? <;> rfl

/-- Braces of which each closing one closes an earlier one leave open what their numbers say. -/
theorem foldl_count_eq (ks : List Kind) (n : Nat)
    (h : ∀ i, (ks.take i).count (.delimiter .closeBrace) ≤
      n + (ks.take i).count (.delimiter .openBrace)) :
    ks.foldl Kind.count n =
      n + ks.count (.delimiter .openBrace) - ks.count (.delimiter .closeBrace) := by
  induction ks generalizing n with
  | nil => simp
  | cons k ks ih =>
    have htake : ∀ i, ((k :: ks).take (i + 1)).count (.delimiter .closeBrace) ≤
        n + ((k :: ks).take (i + 1)).count (.delimiter .openBrace) := fun i => h (i + 1)
    simp only [List.take_succ_cons, List.count_cons] at htake
    rw [List.foldl_cons, List.count_cons, List.count_cons]
    by_cases hopen : k = .delimiter .openBrace
    · subst hopen
      have hcount : Kind.count n (.delimiter .openBrace) = n + 1 := rfl
      rw [hcount, ih (n + 1)]
      · simp; omega
      · intro i
        have hi := htake i
        simp at hi
        omega
    · by_cases hclose : k = .delimiter .closeBrace
      · subst hclose
        have hpos : 1 ≤ n := by simpa using htake 0
        have hcount : Kind.count n (.delimiter .closeBrace) = n - 1 := rfl
        rw [hcount, ih (n - 1)]
        · simp; omega
        · intro i
          have hi := htake i
          simp at hi
          omega
      · rw [Kind.count_of_ne hopen hclose, ih n]
        · simp [hopen, hclose]
        · intro i
          simpa [hopen, hclose] using htake i

/-- How many tokens open a block. -/
def openings (ks : List Kind) : Nat := ks.count (.delimiter .openBrace)

/-- How many tokens close a block. -/
def closings (ks : List Kind) : Nat := ks.count (.delimiter .closeBrace)

/-- Each closing brace closes an earlier opening one: nowhere there have been more of them. -/
def CloseEarlier (ks : List Kind) : Prop := ∀ i, closings (ks.take i) ≤ openings (ks.take i)

theorem closeEarlier_iff {ks : List Kind} : CloseEarlier ks ↔
    ∀ i < ks.length + 1, closings (ks.take i) ≤ openings (ks.take i) := by
  refine ⟨fun h i _ => h i, fun h i => ?_⟩
  by_cases hi : i < ks.length + 1
  · exact h i hi
  · have hall := h ks.length (by omega)
    rw [List.take_length] at hall
    rwa [List.take_of_length_le (by omega)]

instance (ks : List Kind) : Decidable (CloseEarlier ks) := decidable_of_iff' _ closeEarlier_iff

theorem CloseEarlier.all {ks : List Kind} (h : CloseEarlier ks) : closings ks ≤ openings ks := by
  have hall := h ks.length
  rwa [List.take_length] at hall

/-- The braces that the tokens leave open are the braces that the line leaves open, if strings and
comments hide none. -/
theorem unclosed_line {line : String} {toks : List Token} (h : tokensOf line = .ok toks)
    (hclose : CloseEarlier (toks.map Token.kind))
    (hhidden : ∀ x ∈ pieces line.toList, x.hides = true → Neutral x.text) :
    unclosed 0 line.toList =
      openings (toks.map Token.kind) - closings (toks.map Token.kind) := by
  have hkinds : (toks.map Token.kind).foldl Kind.count 0 = unclosed 0 line.toList := by
    rw [unclosed_pieces (tokensOf_eq_ok.mp h).1, foldl_count hhidden, tokensOf_kinds h,
      List.foldl_append]
    rfl
  rw [← hkinds, foldl_count_eq, Nat.zero_add]
  · rfl
  · intro i
    rw [Nat.zero_add]
    exact hclose i

/-! ## Lines -/

theorem trim_append_feed (cs : List Char) : Text.trim (cs ++ ['\n']) = Text.trim cs := by
  have hfeed : Text.isBlank '\n' = true := by decide
  unfold Text.trim
  rw [List.dropWhile_append]
  split
  · next hblank => rw [List.isEmpty_iff.mp hblank]; rfl
  · rw [List.reverse_append, List.reverse_singleton, List.singleton_append,
      List.dropWhile_cons_of_pos hfeed]

theorem trimmed_append_feed (line : String) :
    Text.trimmed (line ++ "\n") = Text.trimmed line := by
  unfold Text.trimmed
  rw [String.toList_append]
  exact congrArg String.ofList (trim_append_feed line.toList)

namespace Pending

/-- What becomes of a line that is the first of an input. -/
theorem push_start (line : String) : start.push line =
    if 0 < unclosed 0 line.toList then (none, ⟨line ++ "\n", unclosed 0 line.toList⟩)
    else (some (Text.trimmed line), start) := by
  unfold push
  dsimp only
  rw [show start.text ++ line = line from String.empty_append, trimmed_append_feed]
  rfl

/-- What becomes of the line if its tokens count: it is handed back, trimmed, if they close every
brace that they open, and kept otherwise. -/
def Follows (line : String) (ks : List Kind) : Prop :=
  (closings ks = openings ks → start.push line = (some (Text.trimmed line), start)) ∧
    (closings ks < openings ks →
      (start.push line).1 = none ∧ (start.push line).2.text = line ++ "\n")

theorem follows_iff {line : String} {ks : List Kind} (h : closings ks ≤ openings ks) :
    Follows line ks ↔ (unclosed 0 line.toList = 0 ↔ closings ks = openings ks) := by
  unfold Follows
  rw [push_start]
  by_cases hzero : unclosed 0 line.toList = 0
  · rw [if_neg (by omega)]
    constructor
    · intro hfollows
      refine ⟨fun _ => ?_, fun _ => hzero⟩
      by_contra hne
      cases (hfollows.2 (by omega)).1
    · intro hsame
      exact ⟨fun _ => rfl, fun hlt => absurd (hsame.mp hzero) (by omega)⟩
  · rw [if_pos (by omega)]
    constructor
    · intro hfollows
      refine ⟨fun h => absurd h hzero, fun heq => ?_⟩
      cases hfollows.1 heq
    · intro hsame
      exact ⟨fun heq => absurd (hsame.mpr heq) hzero, fun _ => ⟨rfl, rfl⟩⟩

/-- **Main.** Let a line split into tokens of which each closing brace closes an earlier one. Its
characters count as its pieces do: strings and comments brace by brace, all others as tokens. The
line is dealt with as its tokens say if and only if that count is zero just when they leave no brace
open. So it is whenever the braces in its strings and comments are paired; then the count is the
number of braces that the tokens leave open. -/
theorem push_agrees {line : String} {toks : List Token} (h : tokensOf line = .ok toks)
    (hclose : CloseEarlier (toks.map Token.kind)) :
    (Follows line (toks.map Token.kind) ↔
        ((pieces line.toList).foldl Piece.count 0 = 0 ↔
          closings (toks.map Token.kind) = openings (toks.map Token.kind))) ∧
      ((∀ x ∈ pieces line.toList, x.hides = true → Neutral x.text) →
        Follows line (toks.map Token.kind) ∧
          unclosed 0 line.toList =
            openings (toks.map Token.kind) - closings (toks.map Token.kind)) := by
  have hall := hclose.all
  have hiff : Follows line (toks.map Token.kind) ↔ _ := follows_iff hall
  rw [← unclosed_pieces (tokensOf_eq_ok.mp h).1]
  refine ⟨hiff, fun hhidden => ?_⟩
  have hcount := unclosed_line h hclose hhidden
  refine ⟨hiff.mpr ?_, hcount⟩
  omega

/-- A function that is left open, with paired braces in a string and in a comment. -/
def openLine : String := "Hunt f() \x7b Meow(\"\x7b\x7d\") // \x7b\x7d"

theorem push_agrees_openLine : ∃ toks, tokensOf openLine = .ok toks ∧
    CloseEarlier (toks.map Token.kind) ∧
    (∀ x ∈ pieces openLine.toList, x.hides = true → Neutral x.text) ∧
    Pending.start.push openLine = (none, ⟨openLine ++ "\n", 1⟩) := by
  have hread : (tokensOf openLine).toOption.map (List.map Token.kind) =
      some [.keyword .hunt, .identifier "f", .delimiter .openParen, .delimiter .closeParen,
        .delimiter .openBrace, .keyword .meow, .delimiter .openParen, .string "\x7b\x7d",
        .delimiter .closeParen, .endOfInput] := by
    decide +kernel
  obtain ⟨toks, htoks, hkinds⟩ := Option.map_eq_some_iff.mp hread
  have htext := toOption_eq_some.mp htoks
  have hclose : CloseEarlier (toks.map Token.kind) := by
    rw [hkinds]
    decide
  have htexts : ((pieces openLine.toList).filter Piece.hides).map Piece.text =
      ["\"\x7b\x7d\"".toList, "// \x7b\x7d".toList] := by
    decide +kernel
  have hhidden : ∀ x ∈ pieces openLine.toList, x.hides = true → Neutral x.text := by
    intro x hx hhides n
    have htext : x.text ∈ ["\"\x7b\x7d\"".toList, "// \x7b\x7d".toList] :=
      htexts ▸ List.mem_map_of_mem (List.mem_filter.mpr ⟨hx, hhides⟩)
    rcases List.mem_pair.mp htext with hstring | hcomment
    · rw [hstring]; rfl
    · rw [hcomment]; rfl
  obtain ⟨-, hfollows⟩ := push_agrees htext hclose
  obtain ⟨-, hcount⟩ := hfollows hhidden
  refine ⟨toks, htext, hclose, hhidden, ?_⟩
  rw [hkinds] at hcount
  rw [push_start, hcount]
  rfl

/-- A brace in a string. -/
def quotedLine : String := "Meow(\"\x7b\")"

/-- The line has no brace among its tokens and is held back. -/
theorem push_holds_back : ∃ toks, tokensOf quotedLine = .ok toks ∧
    CloseEarlier (toks.map Token.kind) ∧
    closings (toks.map Token.kind) = openings (toks.map Token.kind) ∧
    Pending.start.push quotedLine = (none, ⟨quotedLine ++ "\n", 1⟩) ∧
    ¬ Follows quotedLine (toks.map Token.kind) := by
  have hread : (tokensOf quotedLine).toOption.map (List.map Token.kind) =
      some [.keyword .meow, .delimiter .openParen, .string "\x7b", .delimiter .closeParen,
        .endOfInput] := by
    decide +kernel
  obtain ⟨toks, htoks, hkinds⟩ := Option.map_eq_some_iff.mp hread
  have hpush : Pending.start.push quotedLine = (none, ⟨quotedLine ++ "\n", 1⟩) := by
    rw [push_start]
    rfl
  have hnone : closings (toks.map Token.kind) = openings (toks.map Token.kind) := by
    rw [hkinds]
    rfl
  refine ⟨toks, toOption_eq_some.mp htoks, ?_, hnone, hpush, fun hfollows => ?_⟩
  · rw [hkinds]
    decide
  · have hback := hfollows.1 hnone
    rw [hpush] at hback
    cases hback

end Pending

end MeowScript
