/-
# Texts in JSON

A text stands between double quotes.  Written, a quote and a backslash get a backslash
before them, and the characters below the space become escapes:

| character | written |
| --- | --- |
| backspace, tab, line feed, form feed, carriage return | `\b`, `\t`, `\n`, `\f`, `\r` |
| any other below the space | `\u00` and two small hexadecimal digits |
| any other | itself |

Read, the escape `\/` and any `\u` with four hexadecimal digits are known besides; a
character above `U+FFFF` is escaped as two halves, one after the other.  Characters below
the space have to be escaped.
-/

import Retarget.Json.Fault

namespace Retarget
namespace Json

/-- The hexadecimal digit of a number below 16. -/
def hexDigit (n : Nat) : Char := Nat.digitChar n

/-- The character as it is written between quotes. -/
def encodeChar (c : Char) : List Char :=
  if c = '"' then ['\\', '"']
  else if c = '\\' then ['\\', '\\']
  else if c = '\x08' then ['\\', 'b']
  else if c = '\t' then ['\\', 't']
  else if c = '\n' then ['\\', 'n']
  else if c = '\x0c' then ['\\', 'f']
  else if c = '\r' then ['\\', 'r']
  else if c.toNat < 0x20 then ['\\', 'u', '0', '0', hexDigit (c.toNat / 16), hexDigit (c.toNat % 16)]
  else [c]

/-- The text with its quotes. -/
def encode (s : String) : List Char := '"' :: s.toList.flatMap encodeChar ++ ['"']

/-- The value of a hexadecimal digit. -/
def hexValue? (c : Char) : Option Nat :=
  if c.isDigit then some (c.toNat - 48)
  else if 'a' ≤ c && c ≤ 'f' then some (c.toNat - 87)
  else if 'A' ≤ c && c ≤ 'F' then some (c.toNat - 55)
  else none

/-- The number that four hexadecimal digits write, and the text behind them. -/
def fourDigits? : List Char → Option (Nat × List Char)
  | a :: b :: c :: d :: cs =>
    match hexValue? a, hexValue? b, hexValue? c, hexValue? d with
    | some a, some b, some c, some d => some (((a * 16 + b) * 16 + c) * 16 + d, cs)
    | _, _, _, _ => none
  | _ => none

theorem length_of_fourDigits? {cs rest : List Char} {n : Nat} (h : fourDigits? cs = some (n, rest)) :
    rest.length < cs.length := by
  match cs, h with
  | a :: b :: c :: d :: cs, h =>
    simp only [fourDigits?] at h
    split at h
    · obtain ⟨-, rfl⟩ : _ ∧ cs = rest := by simpa using h
      simp only [List.length_cons]; omega
    · simp at h

/-- The number of the four hexadecimal digits that have to come next. -/
def fourDigits (cs : List Char) : Reading Nat :=
  match fourDigits? cs with
  | some r => .ok r
  | none =>
    if bytes cs < 4 then fail .endInText []
    else .error (.broken .badEscape (bytes cs - 4))

theorem length_of_fourDigits {cs rest : List Char} {n : Nat} (h : fourDigits cs = .ok (n, rest)) :
    rest.length < cs.length := by
  unfold fourDigits at h
  split at h
  · rename_i r hr
    cases h
    exact length_of_fourDigits? hr
  · split at h <;> simp [fail] at h

/-- The number is the first half of an escaped character above `U+FFFF`. -/
def isFirstHalf (n : Nat) : Bool := 0xD800 ≤ n && n ≤ 0xDBFF

/-- The number is the second half of such a character. -/
def isSecondHalf (n : Nat) : Bool := 0xDC00 ≤ n && n ≤ 0xDFFF

/-- The character of two halves. -/
def ofHalves (first second : Nat) : Char :=
  Char.ofNat ((first - 0xD800) * 0x400 + (second - 0xDC00) + 0x10000)

/-- The second half of a character, after its `\u`. -/
def secondDigits (first : Nat) (cs : List Char) : Reading Char :=
  match fourDigits cs with
  | .error e => .error e
  | .ok (second, rest) =>
    if isSecondHalf second then .ok (ofHalves first second, rest) else fail .loneSurrogate rest

theorem length_of_secondDigits {first : Nat} {cs rest : List Char} {c : Char}
    (h : secondDigits first cs = .ok (c, rest)) : rest.length < cs.length := by
  unfold secondDigits at h
  split at h
  · simp at h
  · rename_i hd
    split at h
    · simp only [Except.ok.injEq, Prod.mk.injEq] at h
      exact h.2 ▸ length_of_fourDigits hd
    · simp [fail] at h

/-- The text after one character that has to come next. -/
def expect (c : Char) : List Char → Except Fault (List Char)
  | [] => fail .endInText []
  | d :: cs => if d = c then .ok cs else stop .unfinishedEscape (d :: cs)

theorem length_of_expect {c : Char} {cs rest : List Char} (h : expect c cs = .ok rest) :
    rest.length < cs.length := by
  unfold expect at h
  split at h
  · simp [fail] at h
  · split at h
    · cases h; simp
    · simp [stop] at h

/-- The second half of a character of which the first has been read. -/
def secondHalf (first : Nat) (cs : List Char) : Reading Char :=
  match expect '\\' cs with
  | .error e => .error e
  | .ok cs =>
    match expect 'u' cs with
    | .error e => .error e
    | .ok cs => secondDigits first cs

theorem length_of_secondHalf {first : Nat} {cs rest : List Char} {c : Char}
    (h : secondHalf first cs = .ok (c, rest)) : rest.length < cs.length := by
  unfold secondHalf at h
  split at h
  · simp at h
  · rename_i h1
    split at h
    · simp at h
    · rename_i h2
      have := length_of_expect h1
      have := length_of_expect h2
      have := length_of_secondDigits h
      omega

/-- The character that an escape stands for, after `\u`. -/
def numbered (cs : List Char) : Reading Char :=
  match fourDigits cs with
  | .error e => .error e
  | .ok (n, rest) =>
    if isSecondHalf n then fail .loneSurrogate rest
    else if isFirstHalf n then secondHalf n rest
    else .ok (Char.ofNat n, rest)

theorem length_of_numbered {cs rest : List Char} {c : Char} (h : numbered cs = .ok (c, rest)) :
    rest.length < cs.length := by
  unfold numbered at h
  split at h
  · simp at h
  · rename_i hd
    have := length_of_fourDigits hd
    split at h
    · simp [fail] at h
    · split at h
      · have := length_of_secondHalf h
        omega
      · simp only [Except.ok.injEq, Prod.mk.injEq] at h
        exact h.2 ▸ this

/-- The character that a letter after a backslash stands for. -/
def escaped? : Char → Option Char
  | '"' => some '"'
  | '\\' => some '\\'
  | '/' => some '/'
  | 'b' => some '\x08'
  | 'f' => some '\x0c'
  | 'n' => some '\n'
  | 'r' => some '\r'
  | 't' => some '\t'
  | _ => none

/-- The character that an escape stands for, after the backslash. -/
def escape : List Char → Reading Char
  | [] => fail .endInText []
  | c :: cs =>
    match escaped? c with
    | some d => .ok (d, cs)
    | none => if c = 'u' then numbered cs else stop .badEscape (c :: cs)

theorem length_of_escape {cs rest : List Char} {c : Char} (h : escape cs = .ok (c, rest)) :
    rest.length < cs.length := by
  unfold escape at h
  split at h
  · simp [fail] at h
  · split at h
    · cases h; simp
    · split at h
      · have := length_of_numbered h
        simp only [List.length_cons]; omega
      · simp [stop] at h

/-- The text up to its closing quote; `read` holds what came before, last character first. -/
def text (read : List Char) : List Char → Reading String
  | [] => fail .endInText []
  | c :: cs =>
    if c = '"' then .ok (String.ofList read.reverse, cs)
    else if c = '\\' then
      match _h : escape cs with
      | .error e => .error e
      | .ok (d, rest) => text (d :: read) rest
    else if c.toNat < 0x20 then fail .controlCharacter cs
    else text (c :: read) cs
termination_by cs => cs.length
decreasing_by
  · have := length_of_escape _h
    simp only [List.length_cons]; omega
  · simp

end Json
end Retarget
