/-
# Quoted scalars

Between single quotes a quote is written twice and nothing else is special.  Between
double quotes a backslash starts an escape:

| escape | stands for |
| --- | --- |
| `\0` `\a` `\b` `\t` `\n` `\v` `\f` `\r` `\e` | the control characters 0, 7 to 13, 27 |
| `\N` `\_` `\L` `\P` | `U+0085`, `U+00A0`, `U+2028`, `U+2029` |
| `\"` `\/` `\\`, and a backslash before a space or a tab | the second character |
| `\x`, `\u`, `\U` | the character with the number of 2, 4 or 8 hexadecimal digits |
| a backslash at the end of a line | nothing; the line break is not folded to a space |

A quoted scalar may not reach over a line that starts with a document mark.
-/

import Retarget.Yaml.Scalar.Gap

namespace Retarget
namespace Yaml
namespace Quoted

/-- The two kinds of quotes. -/
inductive Quote where
  | single
  | double
  deriving DecidableEq, Repr

/-- The quote itself. -/
def Quote.sign : Quote → Char
  | .single => '\''
  | .double => '"'

/-- The characters with an escape of one letter. -/
def shortEscapes : List (Char × Char) := [
  ('0', '\x00'), ('a', '\x07'), ('b', '\x08'), ('t', '\t'), ('\t', '\t'), ('n', '\n'), ('v', '\x0b'),
  ('f', '\x0c'), ('r', '\r'), ('e', '\x1b'), (' ', ' '), ('"', '"'), ('/', '/'), ('\\', '\\'),
  ('N', '\u0085'), ('_', '\u00a0'), ('L', '\u2028'), ('P', '\u2029')]

/-- The number of digits of a numbered escape. -/
def codeLength? (c : Char) : Option Nat :=
  if c = 'x' then some 2 else if c = 'u' then some 4 else if c = 'U' then some 8 else none

/-- The value of a hexadecimal digit. -/
def hexValue? (c : Char) : Option Nat :=
  if c.isDigit then some (c.toNat - 48)
  else if 'a' ≤ c && c ≤ 'f' then some (c.toNat - 87)
  else if 'A' ≤ c && c ≤ 'F' then some (c.toNat - 55)
  else none

/-- The number that so many hexadecimal digits at the front of the text write. -/
def code? (value : Nat) : (digits : Nat) → List Char → Option Nat
  | 0, _ => some value
  | _ + 1, [] => none
  | digits + 1, c :: cs =>
    match hexValue? c with
    | some d => code? (16 * value + d) digits cs
    | none => none

/-- The number belongs to a character. -/
def isCharacter (n : Nat) : Bool := n < 0xD800 || (0xDFFF < n && n ≤ 0x10FFFF)

/-- The character that an escape stands for and the number of characters after the
backslash that it takes; the backslash is at `m`. -/
def escape (start m : Mark) : List Char → Except Flaw (Char × Nat)
  | [] => flawedWhile .escape start .unknownEscape m
  | c :: cs =>
    match shortEscapes.lookup c, codeLength? c with
    | some d, _ => .ok (d, 1)
    | none, some digits =>
      match code? 0 digits cs with
      | none => flawedWhile .escape start .noHexNumber (m.right 2)
      | some n =>
        if isCharacter n then .ok (Char.ofNat n, digits + 1)
        else flawedWhile .escape start .noCharacterCode (m.right 2)
    | none, none => flawedWhile .escape start .unknownEscape m

/-- A word, up to a gap or the closing quote, last character first; the gap is broken if
the word ends with an escaped line break. -/
def word (quote : Quote) (start : Mark) (read : List Char) (m : Mark) :
    List Char → Except Flaw (List Char × Gap × Cursor)
  | [] => .ok (read, .empty, ⟨m, []⟩)
  | c :: cs =>
    if isGap c then .ok (read, .empty, ⟨m, c :: cs⟩)
    else if quote = .single && c = '\'' && cs.head? = some '\'' then
      word quote start ('\'' :: read) (m.right 2) (cs.drop 1)
    else if c = quote.sign then .ok (read, .empty, ⟨m, c :: cs⟩)
    else if quote = .double && c = '\\' then
      if (cs.head?.map isBreak).getD false then .ok (read, .breaks none [], ⟨m.down, cs.tail⟩)
      else
        match escape start m cs with
        | .error e => .error e
        | .ok (d, n) => word quote start (d :: read) (m.right (n + 1)) (cs.drop n)
    else word quote start (c :: read) (m.right 1) cs
termination_by cs => cs.length

theorem length_of_word {quote : Quote} {start m : Mark} {read w : List Char} {cs : List Char}
    {gap : Gap} {c : Cursor} (h : word quote start read m cs = .ok (w, gap, c)) :
    c.rest.length ≤ cs.length := by
  fun_induction word quote start read m cs with
  | case1 => cases h; simp
  | case2 => cases h; simp
  | case3 _ _ _ _ _ _ ih => have := ih h; simp at this ⊢; omega
  | case4 => cases h; simp
  | case5 => cases h; simp; omega
  | case6 => simp at h
  | case7 _ _ _ _ _ _ _ _ _ _ _ _ ih => have := ih h; simp at this ⊢; omega
  | case8 _ _ _ _ _ _ _ _ ih => have := ih h; simp at this ⊢; omega

/-- A word that comes before neither a gap nor the closing quote is at the end of the text or
moves on. -/
theorem length_of_word_lt {quote : Quote} {start m : Mark} {read w : List Char} {cs : List Char}
    {gap : Gap} {c : Cursor} (h : word quote start read m cs = .ok (w, gap, c)) (hn : cs ≠ [])
    (hg : startsGap cs = false) (hq : c.head? ≠ some quote.sign) : c.rest.length < cs.length := by
  cases cs with
  | nil => exact absurd rfl hn
  | cons d cs =>
    have hd : isGap d = false := by simpa [startsGap] using hg
    unfold word at h
    simp only [hd, Bool.false_eq_true, if_false] at h
    split at h
    · have := length_of_word h; simp at this ⊢; omega
    · split at h
      · rename_i hs
        cases h
        simp [Cursor.head?, hs] at hq
      · split at h
        · split at h
          · cases h; exact Nat.lt_succ_of_le (by simp)
          · split at h
            · simp at h
            · have := length_of_word h; simp at this ⊢; omega
        · have := length_of_word h; simp at this ⊢; omega

/-- A word and the gap behind it move on, unless the closing quote comes next. -/
theorem length_of_more {quote : Quote} {start : Mark} {edge : Nat} {read w : List Char} {gap g : Gap}
    {c d e : Cursor} (hn : c.rest ≠ []) (hw : word quote start read c.mark c.rest = .ok (w, gap, d))
    (hq : d.head? ≠ some quote.sign) (hg : gap.read edge d.mark d.rest = .ok (g, e)) :
    e.rest.length < c.rest.length := by
  have h1 := length_of_word hw
  have h2 := Gap.length_of_read hg
  cases hc : startsGap c.rest with
  | false =>
    have := length_of_word_lt hw hn hc hq
    omega
  | true =>
    have hd : startsGap d.rest := by
      cases hr : c.rest with
      | nil => exact absurd hr hn
      | cons a cs =>
        have ha : isGap a = true := by simpa [startsGap, hr] using hc
        rw [hr] at hw
        unfold word at hw
        simp only [ha, if_true, Except.ok.injEq, Prod.mk.injEq] at hw
        rw [← hw.2.2]
        simpa [startsGap] using ha
    have := Gap.length_of_read_lt hg hd
    omega

/-- The scalar of which `read` has been read, last character first. -/
def more (quote : Quote) (start : Mark) (read : List Char) (c : Cursor) :
    Except Flaw (List Char × Cursor) :=
  if c.atDocumentMark then flawedWhile .quotedScalar start .documentMarkInQuoted c.mark
  else if _hn : c.rest = [] then flawedWhile .quotedScalar start .endInQuoted c.mark
  else
    match _hw : word quote start read c.mark c.rest with
    | .error e => .error e
    | .ok (read, gap, d) =>
      if _hq : d.head? = some quote.sign then .ok (read.reverse, d.right 1)
      else
        match _hg : gap.read 0 d.mark d.rest with
        | .error m => flawedWhile .quotedScalar start .endInQuoted m
        | .ok (gap, e) => more quote start (gap.folded ++ read) e
termination_by c.rest.length
decreasing_by exact length_of_more _hn _hw _hq _hg

/-- The quoted scalar at the cursor, with what comes after it. -/
def scan (quote : Quote) (c : Cursor) : Except Flaw (List Char × Cursor) :=
  more quote c.mark [] (c.right 1)

end Quoted
end Yaml
end Retarget
