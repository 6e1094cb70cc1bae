/-
# A text that was written is read back

Every character of a text is written as itself, as an escape of one letter, or as `\u00`
and two digits.  `text_encodeChar` reads one character back, whatever comes behind it, and
`text_encode` reads the whole text with its closing quote.
-/

import Retarget.Json.Text
import Mathlib.Tactic.SplitIfs

namespace Retarget
namespace Json

theorem hexValue?_hexDigit : ∀ n < 16, hexValue? (hexDigit n) = some n := by decide

/-- After a backslash comes the character that the escape stands for. -/
theorem text_backslash {cs rest : List Char} {c : Char}
    (h : escape cs = .ok (c, rest)) (read : List Char) :
    text read ('\\' :: cs) = text (c :: read) rest := by
  rw [text, if_neg (by decide), if_pos rfl]
  split
  · rename_i e he
    rw [h] at he
    cases he
  · rename_i d r he
    obtain ⟨rfl, rfl⟩ : c = d ∧ rest = r := by simpa [h] using he
    rfl

/-- An escape of one letter stands for one character. -/
theorem escape_letter {d c : Char} (h : escaped? d = some c) (rest : List Char) :
    escape (d :: rest) = .ok (c, rest) := by
  simp only [escape, h]

/-- The escape of a control character stands for it. -/
theorem escape_number {c : Char} (h : c.toNat < 0x20) (rest : List Char) :
    escape ('u' :: '0' :: '0' :: hexDigit (c.toNat / 16) :: hexDigit (c.toNat % 16) :: rest) =
      .ok (c, rest) := by
  have h0 : hexValue? '0' = some 0 := by decide
  have h1 := hexValue?_hexDigit (c.toNat / 16) (by omega)
  have h2 := hexValue?_hexDigit (c.toNat % 16) (by omega)
  have hn : ((0 * 16 + 0) * 16 + c.toNat / 16) * 16 + c.toNat % 16 = c.toNat := by omega
  have hd : fourDigits ('0' :: '0' :: hexDigit (c.toNat / 16) :: hexDigit (c.toNat % 16) :: rest) =
      .ok (c.toNat, rest) := by
    simp only [fourDigits, fourDigits?, h0, h1, h2, hn]
  have hs : isSecondHalf c.toNat = false := by
    rw [isSecondHalf, decide_eq_false (by omega), Bool.false_and]
  have hf : isFirstHalf c.toNat = false := by
    rw [isFirstHalf, decide_eq_false (by omega), Bool.false_and]
  have hu : escaped? 'u' = none := rfl
  simp only [escape, hu, if_true, numbered, hd, hs, hf, Bool.false_eq_true, if_false,
    Char.ofNat_toNat]

/-- A character that was written is read as itself. -/
theorem text_encodeChar (read : List Char) (c : Char) (rest : List Char) :
    text read (encodeChar c ++ rest) = text (c :: read) rest := by
  unfold encodeChar
  split_ifs with h1 h2 h3 h4 h5 h6 h7 h8
  · subst c; exact text_backslash (escape_letter rfl rest) read
  · subst c; exact text_backslash (escape_letter rfl rest) read
  · subst c; exact text_backslash (escape_letter rfl rest) read
  · subst c; exact text_backslash (escape_letter rfl rest) read
  · subst c; exact text_backslash (escape_letter rfl rest) read
  · subst c; exact text_backslash (escape_letter rfl rest) read
  · subst c; exact text_backslash (escape_letter rfl rest) read
  · exact text_backslash (escape_number h8 rest) read
  · rw [List.singleton_append, text, if_neg h1, if_neg h2, if_neg h8]

/-- **A text that was written is read back**, up to its closing quote and no further. -/
theorem text_encode (read cs rest : List Char) :
    text read (cs.flatMap encodeChar ++ '"' :: rest) =
      .ok (String.ofList (read.reverse ++ cs), rest) := by
  induction cs generalizing read with
  | nil => rw [List.flatMap_nil, List.nil_append, text, if_pos rfl, List.append_nil]
  | cons c cs ih =>
    rw [List.flatMap_cons, List.append_assoc, text_encodeChar, ih, List.reverse_cons,
      List.append_assoc, List.singleton_append]

end Json
end Retarget
