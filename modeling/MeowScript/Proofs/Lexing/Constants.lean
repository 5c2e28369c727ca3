import Mathlib.Algebra.Group.Int.Defs
import MeowScript.Code.Instr
import MeowScript.Proofs.Lexing.Split

/-!
# Constants that read back

A listing writes constants the way a program does. A string is escaped so that its characters are
found again up to the closing quote, whatever they are; and an integer that a program can have is
written in its digits. Read as a text of its own, such a constant is one token.

Results:
* `escaped_unescapes`: an escaped string stands for the string.
* `tokensOf_alone`: a text that is one token.
* `constant_reads_back`: every string, and every integer in range.
-/
namespace MeowScript

/-- An escaped string stands for the string. -/
theorem escaped_unescapes (cs : List Char) : Unescapes (cs.flatMap escapeConstant) cs := by
  induction cs with
  | nil => exact .nil
  | cons c cs ih =>
    rw [List.flatMap_cons]
    fun_cases escapeConstant c with
    | case1 => exact .escape (by decide) .feed ih
    | case2 => exact .escape (by decide) .tab ih
    | case3 | case4 => exact .escape (by decide) (.self (by decide) (by decide)) ih
    | case5 c hline _ hquote hback => exact .plain hquote hback hline ih

theorem string_stands_alone (s : String) :
    StandsBefore ⟨(Operand.constant (.string s)).text.toList, .token (.string s)⟩ [] := by
  have hyields := @Rule.Yields.string ['"'] _ _ [] (escaped_unescapes s.toList)
  rw [String.ofList_toList] at hyields
  rw [Operand.toList_text_string]
  exact .accepted Rule.quote_applies hyields

theorem integer_stands_alone {n : Nat} (h : n ≤ 2 ^ 63 - 1) :
    StandsBefore ⟨(Operand.constant (.integer n)).text.toList, .token (.integer n)⟩ [] := by
  have hdigits : Digits (Nat.toDigits 10 n) :=
    ⟨Nat.toDigits_ne_nil, fun c hc => Nat.isDigit_of_mem_toDigits (by decide) (by decide) hc⟩
  have hend : Stops Char.isDigit [] := fun c hc => by cases hc
  have hvalue : Nat.ofDigitChars 10 (Nat.toDigits 10 n) 0 = n := by simp
  have hmeans := Rule.Means.integer (m := Nat.toDigits 10 n) (by rwa [hvalue])
  rw [hvalue] at hmeans
  rw [Operand.toList_text_integer]
  exact .accepted (Rule.integer_applies hdigits hend fun d ds hd => by cases hd) (.whole hmeans)

/-- A text in which one token stands and nothing else. -/
theorem tokensOf_alone {text : String} {k : Kind}
    (h : StandsBefore ⟨text.toList, .token k⟩ []) :
    tokensOf text = .ok [⟨k, text, .start⟩, .finish (Position.start.after text.toList)] := by
  have hpieces : pieces text.toList = [⟨text.toList, .token k⟩] := by
    have hsplits := Splits.cons h .nil
    rw [List.append_nil] at hsplits
    exact (splits_iff.mp hsplits).symm
  rw [tokensOf, hpieces]
  change Except.ok [Token.mk k (String.ofList text.toList) .start, _] = _
  rw [String.ofList_toList]

/-- **Main.** What a listing writes for a string, whatever characters it has, is one token, which is
that string; and so with every integer that a program can have. The token is all of the text, and
the end of the input follows. -/
theorem constant_reads_back :
    (∀ s : String, let text := (Operand.constant (.string s)).text
      tokensOf text =
        .ok [⟨.string s, text, .start⟩, .finish (Position.start.after text.toList)]) ∧
    ∀ n : Int, 0 ≤ n → n ≤ 2 ^ 63 - 1 → let text := (Operand.constant (.integer n)).text
      tokensOf text =
        .ok [⟨.integer n, text, .start⟩, .finish (Position.start.after text.toList)] := by
  refine ⟨fun s => tokensOf_alone (string_stands_alone s), fun n hn hmax => tokensOf_alone ?_⟩
  obtain ⟨n, rfl⟩ := Int.eq_ofNat_of_zero_le hn
  exact integer_stands_alone (by omega)

/-- The largest integer, and a string of the characters that are escaped. -/
theorem constant_reads_back_largest :
    tokensOf "9223372036854775807" =
      .ok [⟨.integer 9223372036854775807, "9223372036854775807", ⟨1, 1⟩⟩, .finish ⟨1, 20⟩] ∧
    tokensOf "\"\\\\\\\"\\n\\\\\"" =
      .ok [⟨.string "\\\"\n\\", "\"\\\\\\\"\\n\\\\\"", ⟨1, 1⟩⟩, .finish ⟨1, 11⟩] :=
  ⟨constant_reads_back.2 9223372036854775807 (by decide) (by decide),
    constant_reads_back.1 "\\\"\n\\"⟩

end MeowScript
