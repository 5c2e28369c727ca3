import Mathlib.Algebra.Group.Nat.Defs
import MeowScript.Proofs.Lexing.Contents

/-!
# The rules that a text is split by

What stands at a place of a text, said without splitting it. Of all rules that accept characters
from there on, the one that accepts most applies, and a keyword goes before an identifier. What the
rule accepts is the piece; only behind a quote and the mark that opens a comment does the piece go
on, to where the string or the comment ends. A character with which no rule accepts anything is a
fault on its own.

Results:
* `Rule.Applies.unique`: one rule applies at a place, to one length.
* `StandsBefore.unique`: one piece stands at a place.
* `Splits.unique`: so there is at most one way to split a text.
-/
namespace MeowScript

open Piece (isGapChar isWordStart isWordChar)

/-- The patterns that begin a piece. -/
inductive Rule where
  | blanks | lineComment | openComment | quote
  | keyword (k : Keyword) | identifier | float | integer
  | operator (o : BinaryOp) | bang | delimiter (d : Delimiter)
  deriving DecidableEq, Repr

/-- At least one digit and nothing else. -/
def Digits (m : List Char) : Prop := m ≠ [] ∧ ∀ c ∈ m, c.isDigit = true

namespace Rule

/-- The texts that the rule accepts. -/
def Matches : Rule → List Char → Prop
  | blanks, m => m ≠ [] ∧ ∀ c ∈ m, isGapChar c = true
  | lineComment, m => ∃ body, m = '/' :: '/' :: body ∧ '\n' ∉ body
  | openComment, m => m = ['/', '*']
  | quote, m => m = ['"']
  | keyword k, m => m = k.text.toList
  | identifier, m => ∃ c cs, m = c :: cs ∧ isWordStart c = true ∧ ∀ d ∈ cs, isWordChar d = true
  | float, m => ∃ whole fraction, m = whole ++ '.' :: fraction ∧ Digits whole ∧ Digits fraction
  | integer, m => Digits m
  | operator o, m => m = o.symbol.toList
  | bang, m => m = ['!']
  | delimiter d, m => m = d.text.toList

/-- Among the rules that accept characters from the beginning of `m ++ rest`, this one accepts the
most of them, which are `m`; and only an identifier stands back behind it. -/
structure Applies (r : Rule) (m rest : List Char) : Prop where
  accepts : r.Matches m
  longest : ∀ (r' : Rule) m', r'.Matches m' → m' <+: m ++ rest → m'.length ≤ m.length
  preferred : ∀ r' : Rule, r'.Matches m → r' = r ∨ r' = identifier ∧ ∃ k, r = keyword k

/-- What a text is that the rule accepts, where the rule alone decides it. -/
inductive Means : Rule → List Char → Content → Prop where
  | blanks {m : List Char} : Means blanks m .gap
  | lineComment {m : List Char} : Means lineComment m .gap
  | keyword {k : Keyword} {m : List Char} : Means (keyword k) m (.token (.keyword k))
  | identifier {m : List Char} : Means identifier m (.token (.identifier (String.ofList m)))
  | float {whole fraction : List Char} : Digits whole → Digits fraction →
      Means float (whole ++ '.' :: fraction) (.token (.float
        (.ofDecimal false (Nat.ofDigitChars 10 (whole ++ fraction) 0) (-(fraction.length : Int)))))
  | integer {m : List Char} : Nat.ofDigitChars 10 m 0 ≤ 2 ^ 63 - 1 →
      Means integer m (.token (.integer (Nat.ofDigitChars 10 m 0)))
  | outOfRange {m : List Char} : 2 ^ 63 - 1 < Nat.ofDigitChars 10 m 0 →
      Means integer m (.fault .integerOutOfRange)
  | operator {o : BinaryOp} {m : List Char} : Means (operator o) m (.token (.operator o))
  | bang {m : List Char} : Means bang m (.token .bang)
  | delimiter {d : Delimiter} {m : List Char} : Means (delimiter d) m (.token (.delimiter d))

end Rule

/-- What a character behind a backslash stands for. -/
inductive StandsFor : Char → Char → Prop where
  | feed : StandsFor 'n' '\n'
  | tab : StandsFor 't' '\t'
  | self {c : Char} : c ≠ 'n' → c ≠ 't' → StandsFor c c

/-- The characters of a string as they are written, and those that they stand for. -/
inductive Unescapes : List Char → List Char → Prop where
  | nil : Unescapes [] []
  | plain {c : Char} {raw value : List Char} : c ≠ '"' → c ≠ '\\' → c ≠ '\n' →
      Unescapes raw value → Unescapes (c :: raw) (c :: value)
  | escape {c d : Char} {raw value : List Char} : c ≠ '\n' → StandsFor c d →
      Unescapes raw value → Unescapes ('\\' :: c :: raw) (d :: value)

/-- The piece with which a text begins where the rule accepts `m` and `more` follows, and the rest
of the text. -/
inductive Rule.Yields : Rule → List Char → List Char → Piece → List Char → Prop where
  | whole {r : Rule} {m more : List Char} {content : Content} : r.Means m content →
      Yields r m more ⟨m, content⟩ more
  | comment {m body rest : List Char} : ¬ ['*', '/'] <:+: body ++ ['*'] →
      Yields .openComment m (body ++ '*' :: '/' :: rest) ⟨m ++ body ++ ['*', '/'], .gap⟩ rest
  | openComment {m body : List Char} : ¬ ['*', '/'] <:+: body →
      Yields .openComment m body ⟨m ++ body, .fault .unterminatedComment⟩ []
  | string {m raw value rest : List Char} : Unescapes raw value →
      Yields .quote m (raw ++ '"' :: rest)
        ⟨m ++ raw ++ ['"'], .token (.string (String.ofList value))⟩ rest
  | openString {m body rest : List Char} : '\n' ∉ body →
      (rest = [] ∨ ∃ ds, rest = '\n' :: ds) →
      (∀ raw value, Unescapes raw value → ¬ raw ++ ['"'] <+: body ++ rest) →
      Yields .quote m (body ++ rest) ⟨m ++ body, .fault .unterminatedString⟩ rest

/-- The piece stands at a place of a text behind which the rest of the text is left. -/
inductive StandsBefore : Piece → List Char → Prop where
  | accepted {r : Rule} {m more rest : List Char} {x : Piece} : r.Applies m more →
      r.Yields m more x rest → StandsBefore x rest
  | invalid {c : Char} {rest : List Char} : (∀ (r : Rule) m, r.Matches m → ¬ m <+: c :: rest) →
      StandsBefore ⟨[c], .fault (.invalidCharacter c)⟩ rest

/-- The text splits into these pieces, each of which stands at its place. -/
inductive Splits : List Char → List Piece → Prop where
  | nil : Splits [] []
  | cons {x : Piece} {rest : List Char} {xs : List Piece} : StandsBefore x rest → Splits rest xs →
      Splits (x.text ++ rest) (x :: xs)

/-! ## Characters up to a place -/

/-- The text does not go on with such a character. -/
def Stops (p : Char → Bool) (rest : List Char) : Prop := ∀ c, rest.head? = some c → p c = false

section
variable {p : Char → Bool} {a b s t : List Char}

theorem Stops.dropWhile (p : Char → Bool) (cs : List Char) : Stops p (cs.dropWhile p) := by
  intro c hc
  have hhead := List.head?_dropWhile_not p cs
  rw [hc] at hhead
  exact hhead

theorem takeWhile_of_stops (ha : ∀ c ∈ a, p c = true) (hs : Stops p s) :
    (a ++ s).takeWhile p = a := by
  rw [List.takeWhile_append_of_pos ha]
  cases s with
  | nil => simp
  | cons c s => simp [hs c rfl]

/-- Characters up to where they stop are told apart from what follows. -/
theorem append_inj_of_stops (ha : ∀ c ∈ a, p c = true) (hb : ∀ c ∈ b, p c = true)
    (hs : Stops p s) (ht : Stops p t) (h : a ++ s = b ++ t) : a = b ∧ s = t := by
  have hab : a = b := by
    rw [← takeWhile_of_stops ha hs, h, takeWhile_of_stops hb ht]
  subst hab
  exact ⟨rfl, List.append_cancel_left h⟩

/-- No more such characters than up to where they stop. -/
theorem length_le_of_stops (ha : ∀ c ∈ a, p c = true) (hs : Stops p s) (h : a <+: b ++ s) :
    a.length ≤ b.length := by
  by_contra hlt
  obtain ⟨more, rfl⟩ : b <+: a := by
    refine List.prefix_of_prefix_length_le (List.prefix_append b s) h ?_
    omega
  cases more with
  | nil => simp at hlt
  | cons c more =>
    rw [List.prefix_append_right_inj, List.prefix_iff_exists_append_eq] at h
    obtain ⟨_, rfl⟩ := h
    have hc := ha c (by simp)
    rw [hs c rfl] at hc
    cases hc

end

/-! ## One rule applies -/

namespace Rule

theorem Applies.unique {r r' : Rule} {m m' more more' : List Char} (h : r.Applies m more)
    (h' : r'.Applies m' more') (he : m ++ more = m' ++ more') :
    r = r' ∧ m = m' ∧ more = more' := by
  have hle : m'.length ≤ m.length :=
    h.longest r' m' h'.accepts (he ▸ List.prefix_append m' more')
  have hge : m.length ≤ m'.length :=
    h'.longest r m h.accepts (he ▸ List.prefix_append m more)
  obtain ⟨rfl, rfl⟩ := List.append_inj he (by omega)
  refine ⟨?_, rfl, rfl⟩
  rcases h'.preferred r h.accepts with hr | ⟨hident, -⟩
  · exact hr
  · rcases h.preferred r' h'.accepts with hr | ⟨-, k, hk⟩
    · exact hr.symm
    · rw [hident] at hk
      cases hk

/-- A fraction has one point. -/
theorem fraction_inj {whole whole' fraction fraction' : List Char} (h : Digits whole)
    (h' : Digits whole') (he : whole ++ '.' :: fraction = whole' ++ '.' :: fraction') :
    whole = whole' ∧ fraction = fraction' := by
  have hpoint : ∀ ds : List Char, Stops Char.isDigit ('.' :: ds) := by
    intro ds c hc
    cases hc
    decide
  have hparts := append_inj_of_stops h.2 h'.2 (hpoint _) (hpoint _) he
  exact ⟨hparts.1, (List.cons.inj hparts.2).2⟩

theorem Means.unique {r : Rule} {m : List Char} {x y : Content} (h : r.Means m x)
    (h' : r.Means m y) : x = y := by
  cases h with
  | @float whole fraction hw hf =>
    generalize hm : whole ++ '.' :: fraction = m at h'
    cases h' with
    | float hw' hf' =>
      obtain ⟨rfl, rfl⟩ := fraction_inj hw hw' hm
      rfl
  | integer hle =>
    cases h' with
    | integer => rfl
    | outOfRange hlt => omega
  | outOfRange hlt =>
    cases h' with
    | integer hle => omega
    | outOfRange => rfl
  | _ => cases h'; rfl

end Rule

/-! ## One end of a comment and of a string -/

theorem comment?_of_first {body : List Char} (h : ¬ ['*', '/'] <:+: body ++ ['*'])
    (rest : List Char) :
    Piece.comment? (body ++ '*' :: '/' :: rest) = some (body ++ ['*', '/'], rest) := by
  induction body with
  | nil => rfl
  | cons c body ih =>
    have hne : ∀ ds, c = '*' → body ++ '*' :: '/' :: rest = '/' :: ds → False := by
      intro ds hstar hslash
      refine h ?_
      cases body with
      | nil => cases hslash
      | cons d body =>
        obtain ⟨rfl, -⟩ := List.cons.inj hslash
        exact ⟨[], body ++ ['*'], by simp [hstar]⟩
    rw [List.cons_append, Piece.comment?.eq_3 c _ hne, ih fun hin => h (List.infix_cons hin)]
    rfl

theorem comment?_eq_none {cs : List Char} (h : ¬ ['*', '/'] <:+: cs) :
    Piece.comment? cs = none := by
  fun_induction Piece.comment? cs with
  | case1 => rfl
  | case2 cs => exact absurd ⟨[], cs, rfl⟩ h
  | case3 c cs _ ih => rw [ih fun hin => h (List.infix_cons hin)]; rfl

theorem StandsFor.unescape {c d : Char} (h : StandsFor c d) : Piece.unescape c = d := by
  cases h with
  | feed | tab => rfl
  | self hn ht =>
    unfold Piece.unescape
    split <;> first | contradiction | rfl

theorem standsFor_unescape (c : Char) : StandsFor c (Piece.unescape c) := by
  unfold Piece.unescape
  split
  · exact .feed
  · exact .tab
  · next hn ht => exact .self hn ht

theorem Unescapes.stringBody {raw value : List Char} (h : Unescapes raw value)
    (rest : List Char) :
    Piece.stringBody (raw ++ '"' :: rest) = ⟨raw ++ ['"'], some value, rest⟩ := by
  induction h with
  | nil => simp [Piece.stringBody]
  | plain hquote hescape hline _ ih => simp [Piece.stringBody, Piece.Body.add, *]
  | escape hline hd _ ih => simp [Piece.stringBody, Piece.Body.add, hd.unescape, *]

theorem ne_line {cs : List Char} (h : '\n' ∉ cs) : ∀ c ∈ cs, (c != '\n') = true := by
  intro c hc
  exact bne_iff_ne.mpr fun he => h (he ▸ hc)

theorem stops_line {rest : List Char} (h : rest = [] ∨ ∃ ds, rest = '\n' :: ds) :
    Stops (· != '\n') rest := by
  intro c hc
  rcases h with rfl | ⟨ds, rfl⟩
  · cases hc
  · cases hc
    rfl

theorem Rule.Yields.unique {r : Rule} {m more rest rest' : List Char} {x y : Piece}
    (h : r.Yields m more x rest) (h' : r.Yields m more y rest') : x = y ∧ rest = rest' := by
  cases h with
  | whole hm =>
    cases h' with
    | whole hm' => exact ⟨by rw [hm.unique hm'], rfl⟩
    | comment | openComment | string | openString => cases hm
  | @comment _ body _ hfirst =>
    generalize hmore : body ++ '*' :: '/' :: rest = more at h'
    cases h' with
    | whole hm' => cases hm'
    | comment hfirst' =>
      have hread := comment?_of_first hfirst rest
      rw [hmore, comment?_of_first hfirst'] at hread
      simp_all
    | openComment hopen =>
      have hread := comment?_of_first hfirst rest
      rw [hmore, comment?_eq_none hopen] at hread
      cases hread
  | openComment hopen =>
    cases h' with
    | whole hm' => cases hm'
    | comment hfirst' =>
      have hread := comment?_eq_none hopen
      rw [comment?_of_first hfirst'] at hread
      cases hread
    | openComment => exact ⟨rfl, rfl⟩
  | @string _ raw value _ hraw =>
    generalize hmore : raw ++ '"' :: rest = more at h'
    cases h' with
    | whole hm' => cases hm'
    | string hraw' =>
      have hread := hraw.stringBody rest
      rw [hmore, hraw'.stringBody] at hread
      simp_all
    | openString _ _ hopen => exact absurd ⟨rest, by simp [← hmore]⟩ (hopen raw value hraw)
  | @openString _ body _ hline hrest hopen =>
    generalize hmore : body ++ rest = more at h' hopen
    cases h' with
    | whole hm' => cases hm'
    | string hraw' => exact absurd ⟨rest', by simp⟩ (hopen _ _ hraw')
    | openString hline' hrest' _ =>
      obtain ⟨rfl, rfl⟩ := append_inj_of_stops (ne_line hline) (ne_line hline') (stops_line hrest)
        (stops_line hrest') hmore
      exact ⟨rfl, rfl⟩

/-- What a rule yields is what it accepts and some of what follows. -/
theorem Rule.Yields.text {r : Rule} {m more rest : List Char} {x : Piece}
    (h : r.Yields m more x rest) : x.text ++ rest = m ++ more := by
  cases h <;> simp

/-! ## How a rule can begin -/

/-- What the first character of a piece says about it. -/
inductive Lead where
  | blank | letter | digit | quote | slash | mark
  deriving DecidableEq

def leadOf (c : Char) : Lead :=
  if isGapChar c then .blank
  else if isWordStart c then .letter
  else if c.isDigit then .digit
  else if c = '"' then .quote
  else if c = '/' then .slash
  else .mark

def Rule.lead : Rule → Lead
  | blanks => .blank
  | keyword _ | identifier => .letter
  | float | integer => .digit
  | quote => .quote
  | lineComment | openComment | operator .div => .slash
  | operator _ | bang | delimiter _ => .mark

theorem isGapChar_cases {c : Char} (h : isGapChar c = true) :
    c = ' ' ∨ c = '\t' ∨ c = '\r' ∨ c = '\n' ∨ c = '\x0c' := by
  simpa [isGapChar, or_assoc] using h

theorem leadOf_letter {c : Char} (h : isWordStart c = true) : leadOf c = .letter := by
  have hgap : isGapChar c = false := by
    by_contra hc
    rcases isGapChar_cases (by simpa using hc) with rfl | rfl | rfl | rfl | rfl <;>
      exact absurd h (by decide)
  simp [leadOf, hgap, h]

theorem leadOf_digit {c : Char} (h : c.isDigit = true) : leadOf c = .digit := by
  have hgap : isGapChar c = false := by
    by_contra hc
    rcases isGapChar_cases (by simpa using hc) with rfl | rfl | rfl | rfl | rfl <;>
      exact absurd h (by decide)
  simp [leadOf, hgap, h, Piece.isWordStart_of_isDigit h]

namespace Rule

theorem lead_blank {r : Rule} (h : r.lead = .blank) : r = blanks := by
  cases r with
  | blanks => rfl
  | operator o => cases o <;> cases h
  | _ => cases h

theorem lead_letter {r : Rule} (h : r.lead = .letter) : (∃ k, r = keyword k) ∨ r = identifier := by
  cases r with
  | keyword k => exact .inl ⟨k, rfl⟩
  | identifier => exact .inr rfl
  | operator o => cases o <;> cases h
  | _ => cases h

theorem lead_digit {r : Rule} (h : r.lead = .digit) : r = float ∨ r = integer := by
  cases r with
  | float => exact .inl rfl
  | integer => exact .inr rfl
  | operator o => cases o <;> cases h
  | _ => cases h

theorem lead_quote {r : Rule} (h : r.lead = .quote) : r = quote := by
  cases r with
  | quote => rfl
  | operator o => cases o <;> cases h
  | _ => cases h

theorem lead_slash {r : Rule} (h : r.lead = .slash) :
    r = lineComment ∨ r = openComment ∨ r = operator .div := by
  cases r with
  | lineComment => exact .inl rfl
  | openComment => exact .inr (.inl rfl)
  | operator o =>
    cases o with
    | div => exact .inr (.inr rfl)
    | _ => cases h
  | _ => cases h

theorem Matches.ne_nil {r : Rule} {m : List Char} (h : r.Matches m) : m ≠ [] := by
  rintro rfl
  cases r with
  | blanks | integer => exact h.1 rfl
  | lineComment => obtain ⟨body, hm, -⟩ := h; cases hm
  | openComment | quote | bang => cases h
  | keyword k =>
    have hk : [] = k.text.toList := h
    cases k <;> exact absurd hk (by decide)
  | identifier => obtain ⟨c, cs, hm, -⟩ := h; cases hm
  | float => obtain ⟨whole, fraction, hm, -⟩ := h; simp at hm
  | operator o =>
    have ho : [] = o.symbol.toList := h
    cases o <;> exact absurd ho (by decide)
  | delimiter d =>
    have hd : [] = d.text.toList := h
    cases d <;> exact absurd hd (by decide)

/-- The first character tells which rules can accept. -/
theorem Matches.lead {r : Rule} {c : Char} {m : List Char} (h : r.Matches (c :: m)) :
    r.lead = leadOf c := by
  have hhead : ∀ s : String, c :: m = s.toList → s.toList.head? = some c := by
    intro s hs
    rw [← hs]
    rfl
  cases r with
  | blanks => simp [leadOf, h.2 c List.mem_cons_self, Rule.lead]
  | lineComment => obtain ⟨body, hm, -⟩ := h; cases hm; decide
  | openComment | quote | bang => cases h; decide
  | keyword k =>
    have hk := hhead _ h
    cases k <;> cases hk <;> decide
  | identifier => obtain ⟨d, ds, hm, hd, -⟩ := h; cases hm; exact (leadOf_letter hd).symm
  | float =>
    obtain ⟨whole, fraction, hm, hw, -⟩ := h
    cases whole with
    | nil => exact absurd rfl hw.1
    | cons d whole =>
      cases hm
      exact (leadOf_digit (hw.2 c List.mem_cons_self)).symm
  | integer => exact (leadOf_digit (h.2 c List.mem_cons_self)).symm
  | operator o =>
    have ho := hhead _ h
    cases o <;> cases ho <;> decide
  | delimiter d =>
    have hd := hhead _ h
    cases d <;> cases hd <;> decide

end Rule

/-! ## One piece, one way to split -/

theorem StandsBefore.unique {x y : Piece} {rest rest' : List Char} (h : StandsBefore x rest)
    (h' : StandsBefore y rest') (he : x.text ++ rest = y.text ++ rest') : x = y ∧ rest = rest' := by
  cases h with
  | accepted happly hyield =>
    cases h' with
    | accepted happly' hyield' =>
      rw [hyield.text, hyield'.text] at he
      obtain ⟨rfl, rfl, rfl⟩ := happly.unique happly' he
      exact hyield.unique hyield'
    | invalid hnone =>
      rw [hyield.text] at he
      exact absurd ⟨_, he⟩ (hnone _ _ happly.accepts)
  | invalid hnone =>
    cases h' with
    | accepted happly' hyield' =>
      rw [hyield'.text] at he
      exact absurd ⟨_, he.symm⟩ (hnone _ _ happly'.accepts)
    | invalid =>
      obtain ⟨rfl, rfl⟩ := List.cons.inj he
      exact ⟨rfl, rfl⟩

theorem StandsBefore.text_ne_nil {x : Piece} {rest : List Char} (h : StandsBefore x rest) :
    x.text ≠ [] := by
  cases h with
  | accepted happly hyield =>
    have hm := happly.accepts.ne_nil
    cases hyield with
    | whole => exact hm
    | _ => simp [hm]
  | invalid => exact List.cons_ne_nil _ _

theorem Splits.unique {cs : List Char} {xs ys : List Piece} (h : Splits cs xs)
    (h' : Splits cs ys) : xs = ys := by
  induction h generalizing ys with
  | nil =>
    generalize hcs : [] = cs at h'
    cases h' with
    | nil => rfl
    | cons hy _ => exact absurd (List.append_eq_nil_iff.mp hcs.symm).1 hy.text_ne_nil
  | @cons x rest xs hx _ ih =>
    generalize hcs : x.text ++ rest = cs at h'
    cases h' with
    | nil => exact absurd (List.append_eq_nil_iff.mp hcs).1 hx.text_ne_nil
    | cons hy hys =>
      obtain ⟨rfl, rfl⟩ := hx.unique hy hcs
      rw [ih hys]

end MeowScript
