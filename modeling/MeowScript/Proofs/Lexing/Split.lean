import Mathlib.Data.List.TakeWhile
import Mathlib.Order.Defs.PartialOrder
import MeowScript.Proofs.Lexing.Rules

/-!
# Splitting follows the rules

Each piece that is split off stands at its place by the rules, and so the pieces of a text are the
one way to split it. The first character of a text leaves few rules to compare.

Results:
* `first_stands`: what is split off stands before the rest.
* `splits_iff`: a text splits into its pieces and in no other way.
-/
namespace MeowScript

open Piece (isGapChar isWordStart isWordChar)

namespace Rule

variable {m rest : List Char}

/-- A rule has to be compared only with those that can begin like it. -/
theorem applies_of {r : Rule} (accepts : r.Matches m)
    (h : ∀ (r' : Rule) m', r'.lead = r.lead → r'.Matches m' → m' <+: m ++ rest →
      m'.length ≤ m.length ∧ (m' = m → r' = r ∨ r' = identifier ∧ ∃ k, r = keyword k)) :
    r.Applies m rest := by
  have hlead : ∀ (r' : Rule) m', r'.Matches m' → m' <+: m ++ rest → r'.lead = r.lead := by
    intro r' m' hm' hpre
    cases m with
    | nil => exact absurd rfl accepts.ne_nil
    | cons c m =>
      cases m' with
      | nil => exact absurd rfl hm'.ne_nil
      | cons d m' =>
        obtain ⟨rfl, -⟩ := List.cons_prefix_cons.mp hpre
        rw [hm'.lead, accepts.lead]
  refine ⟨accepts, fun r' m' hm' hpre => ?_, fun r' hm' => ?_⟩
  · exact (h r' m' (hlead r' m' hm' hpre) hm' hpre).1
  · have hpre : m <+: m ++ rest := List.prefix_append m rest
    exact (h r' m (hlead r' m hm' hpre) hm' hpre).2 rfl

/-! ## Blanks -/

theorem blanks_applies (hm : blanks.Matches m) (hrest : Stops isGapChar rest) :
    blanks.Applies m rest := by
  refine applies_of hm fun r' m' hlead hm' hpre => ?_
  obtain rfl := lead_blank hlead
  exact ⟨length_le_of_stops hm'.2 hrest hpre, fun _ => .inl rfl⟩

/-! ## Words -/

/-- A keyword is written like an identifier. -/
theorem identifier_keyword (k : Keyword) : identifier.Matches k.text.toList := by
  have hword : ∀ cs : List Char, cs.head?.any isWordStart = true → cs.all isWordChar = true →
      identifier.Matches cs := by
    intro cs hstart hchars
    cases cs with
    | nil => cases hstart
    | cons c cs =>
      rw [List.all_eq_true] at hchars
      exact ⟨c, cs, rfl, hstart, fun d hd => hchars d (List.mem_cons_of_mem c hd)⟩
  exact hword _ (by cases k <;> decide) (by cases k <;> decide)

theorem identifier_chars (h : identifier.Matches m) : ∀ c ∈ m, isWordChar c = true := by
  obtain ⟨c, cs, rfl, hc, hcs⟩ := h
  intro d hd
  rcases List.mem_cons.mp hd with rfl | hd
  · exact Piece.isWordChar_of_isWordStart hc
  · exact hcs d hd

/-- A word is a keyword if it is written like one, and an identifier otherwise. -/
theorem word_applies (hm : identifier.Matches m) (hrest : Stops isWordChar rest) :
    (∀ k : Keyword, m = k.text.toList → (keyword k).Applies m rest) ∧
      ((∀ k : Keyword, m ≠ k.text.toList) → identifier.Applies m rest) := by
  have hle : ∀ (r' : Rule) m', r'.lead = .letter → r'.Matches m' → m' <+: m ++ rest →
      m'.length ≤ m.length := by
    intro r' m' hlead hm' hpre
    have hword : identifier.Matches m' := by
      rcases lead_letter hlead with ⟨k, rfl⟩ | rfl
      · exact (show m' = k.text.toList from hm') ▸ identifier_keyword k
      · exact hm'
    exact length_le_of_stops (identifier_chars hword) hrest hpre
  refine ⟨fun k hk => applies_of hk fun r' m' hlead hm' hpre => ?_,
    fun hnone => applies_of hm fun r' m' hlead hm' hpre => ?_⟩
  · refine ⟨hle r' m' hlead hm' hpre, fun he => ?_⟩
    rcases lead_letter hlead with ⟨k', rfl⟩ | rfl
    · have htext : k'.text = k.text := by
        rw [← String.toList_inj, ← hk, ← he]
        exact hm'.symm
      have hread := Keyword.ofText?_text k'
      rw [htext, Keyword.ofText?_text] at hread
      exact .inl (congrArg _ (Option.some.inj hread).symm)
    · exact .inr ⟨rfl, k, rfl⟩
  · refine ⟨hle r' m' hlead hm' hpre, fun he => ?_⟩
    rcases lead_letter hlead with ⟨k', rfl⟩ | rfl
    · exact absurd (he ▸ hm') (hnone k')
    · exact .inl rfl

/-! ## Numbers -/

theorem stops_point (ds : List Char) : Stops Char.isDigit ('.' :: ds) := by
  intro c hc
  cases hc
  decide

theorem float_applies {whole fraction : List Char} (hw : Digits whole) (hf : Digits fraction)
    (hrest : Stops Char.isDigit rest) : float.Applies (whole ++ '.' :: fraction) rest := by
  refine applies_of ⟨whole, fraction, rfl, hw, hf⟩ fun r' m' hlead hm' hpre => ?_
  rcases lead_digit hlead with rfl | rfl
  · obtain ⟨whole', fraction', rfl, hw', hf'⟩ := hm'
    obtain ⟨more, he⟩ := hpre
    simp only [List.append_assoc, List.cons_append] at he
    obtain ⟨rfl, htail⟩ :=
      append_inj_of_stops hw'.2 hw.2 (stops_point _) (stops_point _) he
    have hle := length_le_of_stops hf'.2 hrest ⟨more, (List.cons.inj htail).2⟩
    simpa using hle
  · have hle := length_le_of_stops hm'.2 (stops_point (fraction ++ rest)) (by simpa using hpre)
    refine ⟨by simp; omega, fun he => ?_⟩
    rw [he, List.length_append, List.length_cons] at hle
    omega

theorem integer_applies (hm : Digits m) (hrest : Stops Char.isDigit rest)
    (hpoint : ∀ d ds, rest = '.' :: d :: ds → d.isDigit = false) : integer.Applies m rest := by
  refine applies_of hm fun r' m' hlead hm' hpre => ?_
  rcases lead_digit hlead with rfl | rfl
  · obtain ⟨whole', fraction', rfl, hw', hf'⟩ := hm'
    obtain ⟨more, he⟩ := hpre
    simp only [List.append_assoc, List.cons_append] at he
    obtain ⟨-, he⟩ := append_inj_of_stops hw'.2 hm.2 (stops_point _) hrest he
    cases fraction' with
    | nil => exact absurd rfl hf'.1
    | cons d ds =>
      have hd := hpoint d (ds ++ more) he.symm
      rw [hf'.2 d List.mem_cons_self] at hd
      cases hd
  · exact ⟨length_le_of_stops hm'.2 hrest hpre, fun _ => .inl rfl⟩

/-! ## Comments, strings and the slash -/

theorem lineComment_applies {body : List Char} (hbody : '\n' ∉ body)
    (hrest : Stops (· != '\n') rest) : lineComment.Applies ('/' :: '/' :: body) rest := by
  refine applies_of ⟨body, rfl, hbody⟩ fun r' m' hlead hm' hpre => ?_
  rcases lead_slash hlead with rfl | rfl | rfl
  · obtain ⟨body', rfl, hbody'⟩ := hm'
    have hle := length_le_of_stops (ne_line hbody') hrest (by simpa using hpre)
    exact ⟨by simpa using hle, fun _ => .inl rfl⟩
  · cases (show m' = ['/', '*'] from hm')
    simp at hpre
  · cases (show m' = ['/'] from hm')
    exact ⟨by simp, fun he => by cases he⟩

theorem openComment_applies : openComment.Applies ['/', '*'] rest := by
  refine applies_of rfl fun r' m' hlead hm' hpre => ?_
  rcases lead_slash hlead with rfl | rfl | rfl
  · obtain ⟨body', rfl, -⟩ := hm'
    simp at hpre
  · cases (show m' = ['/', '*'] from hm')
    exact ⟨le_rfl, fun _ => .inl rfl⟩
  · cases (show m' = ['/'] from hm')
    exact ⟨by simp, fun he => by cases he⟩

theorem div_applies (hline : ∀ ds, rest ≠ '/' :: ds) (hopen : ∀ ds, rest ≠ '*' :: ds) :
    (operator .div).Applies ['/'] rest := by
  refine applies_of rfl fun r' m' hlead hm' hpre => ?_
  rcases lead_slash hlead with rfl | rfl | rfl
  · obtain ⟨body', rfl, -⟩ := hm'
    obtain ⟨more, he⟩ := hpre
    exact absurd (List.cons.inj he).2.symm (hline _)
  · cases (show m' = ['/', '*'] from hm')
    obtain ⟨more, he⟩ := hpre
    exact absurd (List.cons.inj he).2.symm (hopen _)
  · cases (show m' = ['/'] from hm')
    exact ⟨le_rfl, fun _ => .inl rfl⟩

theorem quote_applies : quote.Applies ['"'] rest := by
  refine applies_of rfl fun r' m' hlead hm' hpre => ?_
  obtain rfl := lead_quote hlead
  cases (show m' = ['"'] from hm')
  exact ⟨le_rfl, fun _ => .inl rfl⟩

/-! ## Operators and delimiters -/

/-- The rule of the operator or delimiter that is written like this, the slash apart. -/
def ofMark? : List Char → Option Rule
  | ['=', '='] => some (operator .eq)
  | ['!', '='] => some (operator .ne)
  | ['<', '='] => some (operator .le)
  | ['>', '='] => some (operator .ge)
  | ['&', '&'] => some (operator .and)
  | ['|', '|'] => some (operator .or)
  | ['+'] => some (operator .add)
  | ['-'] => some (operator .sub)
  | ['*'] => some (operator .mul)
  | ['%'] => some (operator .mod)
  | ['<'] => some (operator .lt)
  | ['>'] => some (operator .gt)
  | ['!'] => some bang
  | ['('] => some (delimiter .openParen)
  | [')'] => some (delimiter .closeParen)
  | ['{'] => some (delimiter .openBrace)
  | ['}'] => some (delimiter .closeBrace)
  | [','] => some (delimiter .comma)
  | [';'] => some (delimiter .semicolon)
  | _ => none

theorem ofMark?_of_matches {r : Rule} (hlead : r.lead = .mark) (h : r.Matches m) :
    ofMark? m = some r := by
  cases r with
  | operator o =>
    obtain rfl : m = o.symbol.toList := h
    cases o with
    | div => cases hlead
    | _ => decide
  | bang =>
    obtain rfl : m = ['!'] := h
    decide
  | delimiter d =>
    obtain rfl : m = d.text.toList := h
    cases d <;> decide
  | _ => cases hlead

theorem matches_of_ofMark? {r : Rule} (h : ofMark? m = some r) : r.lead = .mark ∧ r.Matches m := by
  unfold ofMark? at h
  split at h <;> cases h <;> exact ⟨rfl, rfl⟩

theorem length_of_ofMark? {r : Rule} (h : ofMark? m = some r) : m.length = 1 ∨ m.length = 2 := by
  unfold ofMark? at h
  split at h <;> cases h <;> decide

theorem mark_applies {r : Rule} (hr : ofMark? m = some r)
    (hlong : ∀ c d ds, m ++ rest = c :: d :: ds → ofMark? [c, d] ≠ none → m.length = 2) :
    r.Applies m rest := by
  obtain ⟨hmark, haccepts⟩ := matches_of_ofMark? hr
  refine applies_of haccepts fun r' m' hlead hm' hpre => ⟨?_, fun he => ?_⟩
  · have hr' := ofMark?_of_matches (hlead.trans hmark) hm'
    have hlen := length_of_ofMark? hr
    rcases length_of_ofMark? hr' with hone | htwo
    · omega
    · obtain ⟨c, d, rfl⟩ := List.length_eq_two.mp htwo
      obtain ⟨ds, hds⟩ := hpre
      have hm := hlong c d ds hds.symm (by rw [hr']; exact Option.some_ne_none r')
      omega
  · have hr' := ofMark?_of_matches (hlead.trans hmark) hm'
    rw [he, hr] at hr'
    exact .inl (Option.some.inj hr').symm

end Rule

namespace Piece

variable (c : Char) (cs : List Char)

/-- Two characters are taken before one. -/
theorem mark_eq :
    (∃ d ds r content, cs = d :: ds ∧ Rule.ofMark? [c, d] = some r ∧ r.Means [c, d] content ∧
      mark c cs = (⟨[c, d], content⟩, ds)) ∨
    (∀ d ds, cs = d :: ds → Rule.ofMark? [c, d] = none) ∧
      ((∃ r content, Rule.ofMark? [c] = some r ∧ r.Means [c] content ∧
        mark c cs = (⟨[c], content⟩, cs)) ∨
      Rule.ofMark? [c] = none ∧ mark c cs = (⟨[c], .fault (.invalidCharacter c)⟩, cs)) := by
  have hnone : ∀ {c d : Char}, d ≠ '=' → c ≠ '&' → c ≠ '|' → Rule.ofMark? [c, d] = none := by
    intro c d hd hand hor
    unfold Rule.ofMark?
    split <;> simp_all
  fun_cases mark c cs with
  | case1 cs | case2 cs | case3 cs | case4 cs | case5 cs | case6 cs =>
    exact .inl ⟨_, cs, _, _, rfl, rfl, .operator, rfl⟩
  | case7 cs | case8 cs | case9 cs | case10 cs =>
    exact .inr ⟨fun d ds _ => rfl, .inl ⟨_, _, rfl, .operator, rfl⟩⟩
  | case11 cs hlong | case12 cs hlong =>
    exact .inr ⟨fun d ds he => hnone (fun hd => hlong ds (hd ▸ he)) (by decide) (by decide),
      .inl ⟨_, _, rfl, .operator, rfl⟩⟩
  | case13 cs hlong =>
    exact .inr ⟨fun d ds he => hnone (fun hd => hlong ds (hd ▸ he)) (by decide) (by decide),
      .inl ⟨_, _, rfl, .bang, rfl⟩⟩
  | case14 cs | case15 cs | case16 cs | case17 cs | case18 cs | case19 cs =>
    exact .inr ⟨fun d ds _ => rfl, .inl ⟨_, _, rfl, .delimiter, rfl⟩⟩
  | case20 c cs =>
    refine .inr ⟨fun d ds he => ?_, .inr ⟨?_, rfl⟩⟩
    all_goals
      unfold Rule.ofMark?
      split <;> first | rfl | (rename_i hm; cases hm <;> grind)

theorem mark_stands (hc : leadOf c = .mark) :
    StandsBefore (mark c cs).1 (mark c cs).2 := by
  rcases mark_eq c cs with ⟨d, ds, r, content, rfl, hr, hm, he⟩ | ⟨hshort, hone⟩
  · rw [he]
    exact .accepted (Rule.mark_applies hr fun _ _ _ _ _ => rfl) (.whole hm)
  · rcases hone with ⟨r, content, hr, hm, he⟩ | ⟨hr, he⟩
    · rw [he]
      refine .accepted (Rule.mark_applies hr fun a d ds hds hne => ?_) (.whole hm)
      obtain ⟨rfl, htail⟩ := List.cons.inj hds
      exact absurd (hshort d ds htail) hne
    · rw [he]
      refine .invalid fun r m hm hpre => ?_
      cases m with
      | nil => exact absurd rfl hm.ne_nil
      | cons a m =>
        obtain ⟨rfl, hpre⟩ := List.cons_prefix_cons.mp hpre
        have hmark := Rule.ofMark?_of_matches (hm.lead.trans hc) hm
        rcases Rule.length_of_ofMark? hmark with hlen | hlen
        · rw [List.length_eq_zero_iff.mp (Nat.succ.inj hlen), hr] at hmark
          cases hmark
        · obtain ⟨d, rfl⟩ := List.length_eq_one_iff.mp (Nat.succ.inj hlen)
          obtain ⟨ds, hds⟩ := hpre
          rw [hshort d ds hds.symm] at hmark
          cases hmark

theorem word_stands (hc : isWordStart c = true) :
    StandsBefore (word c cs).1 (word c cs).2 := by
  have hword : Rule.identifier.Matches (c :: cs.takeWhile isWordChar) :=
    ⟨c, _, rfl, hc, fun d hd => List.mem_takeWhile_imp hd⟩
  have happly := Rule.word_applies hword (Stops.dropWhile isWordChar cs)
  unfold word wordKind
  dsimp only
  split
  · next k hk =>
    have htext : c :: cs.takeWhile isWordChar = k.text.toList := by
      rw [Keyword.text_of_ofText? hk, String.toList_ofList]
    exact .accepted (happly.1 k htext) (.whole .keyword)
  · next hnone =>
    have hplain : ∀ k : Keyword, c :: cs.takeWhile isWordChar ≠ k.text.toList := by
      intro k hk
      rw [hk, String.ofList_toList, Keyword.ofText?_text] at hnone
      cases hnone
    exact .accepted (happly.2 hplain) (.whole .identifier)

theorem integerContent_means (m : List Char) : Rule.integer.Means m (integerContent m) := by
  unfold integerContent
  dsimp only
  split
  · next hle => exact .integer hle
  · next hle => exact .outOfRange (Nat.lt_of_not_le hle)

theorem number_stands (hc : c.isDigit = true) :
    StandsBefore (number c cs).1 (number c cs).2 := by
  have hdigits : ∀ (d : Char) (ds : List Char), d.isDigit = true →
      Digits (d :: ds.takeWhile Char.isDigit) := by
    intro d ds hd
    refine ⟨List.cons_ne_nil _ _, List.forall_mem_cons.mpr ⟨hd, fun a ha => ?_⟩⟩
    exact List.mem_takeWhile_imp ha
  have hstops := Stops.dropWhile Char.isDigit cs
  unfold number
  dsimp only
  split
  · next d rest hrest =>
    split
    · next hd =>
      exact .accepted (Rule.float_applies (hdigits c cs hc) (hdigits d rest hd)
        (Stops.dropWhile Char.isDigit rest)) (.whole (.float (hdigits c cs hc) (hdigits d rest hd)))
    · next hd =>
      rw [hrest] at hstops
      refine .accepted (Rule.integer_applies (hdigits c cs hc) hstops fun a ds ha => ?_)
        (.whole (integerContent_means _))
      cases ha
      simpa using hd
  · next hpoint =>
    exact .accepted (Rule.integer_applies (hdigits c cs hc) hstops
      fun a ds ha => absurd ha (hpoint a ds)) (.whole (integerContent_means _))

/-- The first mark that closes a comment is found. -/
theorem comment?_eq_some {r : List Char × List Char} (h : comment? cs = some r) :
    ∃ body, r.1 = body ++ ['*', '/'] ∧ ¬ ['*', '/'] <:+: body ++ ['*'] := by
  fun_induction comment? cs generalizing r with
  | case1 => cases h
  | case2 cs =>
    cases h
    exact ⟨[], rfl, by decide⟩
  | case3 c cs hc ih =>
    obtain ⟨s, hs, rfl⟩ := Option.map_eq_some_iff.mp h
    obtain ⟨body, hbody, hfirst⟩ := ih hs
    refine ⟨c :: body, by rw [hbody]; rfl, fun hin => ?_⟩
    rcases List.infix_cons_iff.mp hin with hpre | hin
    · obtain ⟨hstar, hslash⟩ := List.cons_prefix_cons.mp hpre
      have happend := comment?_append hs
      rw [hbody] at happend
      cases body with
      | nil => simp at hslash
      | cons d body =>
        obtain ⟨rfl, -⟩ := List.cons_prefix_cons.mp hslash
        exact hc _ hstar.symm happend.symm
    · exact hfirst hin

theorem comment?_none_closed (h : comment? cs = none) : ¬ ['*', '/'] <:+: cs := by
  fun_induction comment? cs with
  | case1 => decide
  | case2 => cases h
  | case3 c cs hc ih =>
    intro hin
    rcases List.infix_cons_iff.mp hin with hpre | hin
    · obtain ⟨rfl, ds, rfl⟩ := List.cons_prefix_cons.mp hpre
      exact hc ds rfl rfl
    · exact ih (Option.map_eq_none_iff.mp h) hin

theorem slash_stands : StandsBefore (slash cs).1 (slash cs).2 := by
  fun_cases slash cs with
  | case1 cs =>
    have hbody : '\n' ∉ cs.takeWhile (· != '\n') := by
      intro hmem
      exact absurd (List.mem_takeWhile_imp hmem) (by decide)
    exact .accepted (Rule.lineComment_applies hbody (Stops.dropWhile _ cs)) (.whole .lineComment)
  | case2 cs body rest h =>
    obtain ⟨inner, rfl, hfirst⟩ := comment?_eq_some _ h
    exact .accepted Rule.openComment_applies (.comment hfirst)
  | case3 cs h =>
    exact .accepted Rule.openComment_applies (.openComment (comment?_none_closed _ h))
  | case4 cs hline hopen => exact .accepted (Rule.div_applies hline hopen) (.whole .operator)

theorem stringBody_closed {value : List Char} (h : (stringBody cs).value = some value) :
    ∃ raw, Unescapes raw value ∧ (stringBody cs).text = raw ++ ['"'] := by
  fun_induction stringBody cs generalizing value with
  | case2 cs =>
    cases h
    exact ⟨[], .nil, rfl⟩
  | case6 c cs hc ih =>
    obtain ⟨v, hv, rfl⟩ := Option.map_eq_some_iff.mp h
    obtain ⟨raw, hraw, htext⟩ := ih hv
    exact ⟨'\\' :: c :: raw, .escape hc (standsFor_unescape c) hraw, by simp [Body.add, htext]⟩
  | case7 c cs hquote hline hend _ hescape ih =>
    obtain ⟨v, hv, rfl⟩ := Option.map_eq_some_iff.mp h
    obtain ⟨raw, hraw, htext⟩ := ih hv
    have hc : c ≠ '\\' := by
      intro hb
      cases cs with
      | nil => exact hend hb rfl
      | cons d cs => exact hescape d cs hb rfl
    exact ⟨c :: raw, .plain hquote hc hline hraw, by simp [Body.add, htext]⟩
  | _ => cases h

theorem stringBody_open (h : (stringBody cs).value = none) :
    '\n' ∉ (stringBody cs).text ∧
      ((stringBody cs).rest = [] ∨ ∃ ds, (stringBody cs).rest = '\n' :: ds) := by
  fun_induction stringBody cs with
  | case1 | case4 => exact ⟨by simp, .inl rfl⟩
  | case2 cs => cases h
  | case3 cs | case5 cs => exact ⟨by simp, .inr ⟨cs, rfl⟩⟩
  | case6 c cs hc ih =>
    obtain ⟨htext, hrest⟩ := ih (Option.map_eq_none_iff.mp h)
    exact ⟨by simpa [Body.add, eq_comm] using ⟨hc, htext⟩, hrest⟩
  | case7 c cs _ hline _ _ _ ih =>
    obtain ⟨htext, hrest⟩ := ih (Option.map_eq_none_iff.mp h)
    exact ⟨by simpa [Body.add, eq_comm] using ⟨hline, htext⟩, hrest⟩

theorem string_stands : StandsBefore (string cs).1 (string cs).2 := by
  have hsplit := stringBody_append cs
  unfold string
  dsimp only
  split
  · next value hvalue =>
    obtain ⟨raw, hraw, htext⟩ := stringBody_closed cs hvalue
    rw [htext]
    exact .accepted Rule.quote_applies (.string hraw)
  · next hvalue =>
    obtain ⟨hline, hrest⟩ := stringBody_open cs hvalue
    refine .accepted Rule.quote_applies (.openString hline hrest fun raw value hraw hpre => ?_)
    rw [hsplit] at hpre
    obtain ⟨ds, rfl⟩ := hpre
    rw [List.append_assoc] at hvalue
    rw [show raw ++ (['"'] ++ ds) = raw ++ '"' :: ds from rfl, hraw.stringBody] at hvalue
    cases hvalue

/-- What is split off a text stands before the rest. -/
theorem first_stands : StandsBefore (first c cs).1 (first c cs).2 := by
  unfold first
  split
  · next hc =>
    refine .accepted (Rule.blanks_applies ⟨List.cons_ne_nil _ _, ?_⟩ (Stops.dropWhile isGapChar cs))
      (.whole .blanks)
    exact List.forall_mem_cons.mpr ⟨hc, fun d hd => List.mem_takeWhile_imp hd⟩
  split
  · next hc => exact word_stands c cs hc
  split
  · next hc => exact number_stands c cs hc
  split
  · exact string_stands cs
  split
  · exact slash_stands cs
  · next hgap hword hdigit hquote hslash =>
    refine mark_stands c cs ?_
    rw [leadOf, if_neg hgap, if_neg hword, if_neg hdigit, if_neg hquote, if_neg hslash]

end Piece

/-! ## The pieces of a text -/

theorem pieces_split (cs : List Char) : Splits cs (pieces cs) := by
  fun_induction pieces cs with
  | case1 => exact .nil
  | case2 c cs ih =>
    have h := Splits.cons (Piece.first_stands c cs) ih
    rw [Piece.first_append] at h
    exact h

/-- A text splits into its pieces and in no other way. -/
theorem splits_iff {cs : List Char} {xs : List Piece} : Splits cs xs ↔ xs = pieces cs := by
  refine ⟨fun h => h.unique (pieces_split cs), ?_⟩
  rintro rfl
  exact pieces_split cs

end MeowScript
