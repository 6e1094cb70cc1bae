/-
# Values that are passed over

The value of an unknown member is not kept.  It is checked less strictly than a value that
is read: brackets may nest to any depth, numbers may be of any size, and the halves of an
escaped character need not fit together.
-/

import Retarget.Json.Text
import Retarget.Json.Token

namespace Retarget
namespace Json

/-- The text after four hexadecimal digits. -/
def skipFourDigits (cs : List Char) : Except Fault (List Char) :=
  match fourDigits cs with
  | .error e => .error e
  | .ok (_, rest) => .ok rest

/-- The text after an escape, which follows a backslash. -/
def skipEscape : List Char → Except Fault (List Char)
  | [] => fail .endInText []
  | c :: cs =>
    if (escaped? c).isSome then .ok cs
    else if c = 'u' then skipFourDigits cs
    else stop .badEscape (c :: cs)

theorem length_of_skipEscape {cs rest : List Char} (h : skipEscape cs = .ok rest) :
    rest.length < cs.length := by
  unfold skipEscape at h
  split at h
  · simp [fail] at h
  · split at h
    · cases h; simp
    · split at h
      · unfold skipFourDigits at h
        split at h
        · simp at h
        · rename_i hd
          cases h
          have := length_of_fourDigits hd
          simp only [List.length_cons]; omega
      · simp [stop] at h

/-- The text after a closing quote. -/
def skipText : List Char → Except Fault (List Char)
  | [] => fail .endInText []
  | c :: cs =>
    if c = '"' then .ok cs
    else if c = '\\' then
      match _h : skipEscape cs with
      | .error e => .error e
      | .ok rest => skipText rest
    else if c.toNat < 0x20 then fail .controlCharacter (c :: cs)
    else skipText cs
termination_by cs => cs.length
decreasing_by
  · have := length_of_skipEscape _h
    simp only [List.length_cons]; omega
  · simp

theorem length_of_skipText {cs rest : List Char} (h : skipText cs = .ok rest) : rest.length < cs.length := by
  fun_induction skipText cs with
  | case1 => simp [fail] at h
  | case2 => cases h; simp
  | case3 => simp at h
  | case4 _ _ hr _ ih => have := ih h; have := length_of_skipEscape hr; simp; omega
  | case5 => simp [fail] at h
  | case6 _ _ _ _ _ ih => have := ih h; simp; omega

/-- The text after the digits that have to come next. -/
def skipDigits (cs : List Char) : Except Fault (List Char) :=
  match cs with
  | [] => fail .badNumber []
  | c :: cs => if c.isDigit then .ok (cs.dropWhile Char.isDigit) else stop .badNumber (c :: cs)

/-- The text after an exponent, which follows its letter. -/
def skipExponent (cs : List Char) : Except Fault (List Char) :=
  match cs with
  | '+' :: rest => skipDigits rest
  | '-' :: rest => skipDigits rest
  | rest => skipDigits rest

/-- The text after what may follow the digits of a number. -/
def skipAfterDigits (cs : List Char) : Except Fault (List Char) :=
  match cs with
  | 'e' :: rest => skipExponent rest
  | 'E' :: rest => skipExponent rest
  | rest => .ok rest

/-- The text after a number, which follows its sign. -/
def skipNumber (cs : List Char) : Except Fault (List Char) :=
  match skipDigits cs with
  | .error e => .error e
  | .ok rest =>
    if cs.head? = some '0' && (cs.tail.head?.map Char.isDigit).getD false then
      stop .badNumber cs.tail
    else
      match rest with
      | '.' :: rest =>
        match skipDigits rest with
        | .error e => .error e
        | .ok rest => skipAfterDigits rest
      | rest => skipAfterDigits rest

theorem length_dropWhile_le (p : Char → Bool) (cs : List Char) : (cs.dropWhile p).length ≤ cs.length :=
  (List.dropWhile_sublist p).length_le

theorem length_of_skipDigits {cs rest : List Char} (h : skipDigits cs = .ok rest) :
    rest.length < cs.length := by
  unfold skipDigits at h
  split at h
  · simp [fail] at h
  · rename_i c cs
    split at h
    · cases h
      have := length_dropWhile_le Char.isDigit cs
      simp only [List.length_cons]; omega
    · simp [stop] at h

theorem length_of_skipExponent {cs rest : List Char} (h : skipExponent cs = .ok rest) :
    rest.length < cs.length := by
  unfold skipExponent at h
  split at h <;> have := length_of_skipDigits h <;> simp at this ⊢ <;> omega

theorem length_of_skipAfterDigits {cs rest : List Char} (h : skipAfterDigits cs = .ok rest) :
    rest.length ≤ cs.length := by
  unfold skipAfterDigits at h
  split at h
  · have := length_of_skipExponent h; simp; omega
  · have := length_of_skipExponent h; simp; omega
  · cases h; simp

theorem length_of_skipNumber {cs rest : List Char} (h : skipNumber cs = .ok rest) :
    rest.length < cs.length := by
  unfold skipNumber at h
  split at h
  · simp at h
  · rename_i r hr
    have h1 := length_of_skipDigits hr
    split at h
    · simp [stop] at h
    · split at h
      · split at h
        · simp at h
        · rename_i hr'
          have h2 := length_of_skipDigits hr'
          have := length_of_skipAfterDigits h
          simp only [List.length_cons] at h1; omega
      · have := length_of_skipAfterDigits h; omega

/-- The text after a text, a number or a word that starts with the character. -/
def skipScalar (c : Char) (rest : List Char) : Except Fault (List Char) :=
  if c = '"' then skipText rest
  else if c = 'n' then word ['u', 'l', 'l'] rest
  else if c = 't' then word ['r', 'u', 'e'] rest
  else if c = 'f' then word ['a', 'l', 's', 'e'] rest
  else if c = '-' then skipNumber rest
  else if c.isDigit then skipNumber (c :: rest)
  else stop .noValue (c :: rest)

theorem length_of_skipScalar {c : Char} {cs rest : List Char} (h : skipScalar c cs = .ok rest) :
    rest.length ≤ cs.length := by
  unfold skipScalar at h
  split at h
  · exact Nat.le_of_lt (length_of_skipText h)
  · split at h
    · exact length_of_word h
    · split at h
      · exact length_of_word h
      · split at h
        · exact length_of_word h
        · split at h
          · exact Nat.le_of_lt (length_of_skipNumber h)
          · split at h
            · exact Nat.le_of_lt_succ (length_of_skipNumber h)
            · simp [stop] at h

/-- The text after the name of a member and its colon. -/
def skipName (cs : List Char) : Except Fault (List Char) := (skipText cs).bind colon

theorem length_of_skipName {cs rest : List Char} (h : skipName cs = .ok rest) : rest.length < cs.length := by
  unfold skipName at h
  cases hs : skipText cs with
  | error e => simp [hs, Except.bind] at h
  | ok r =>
    have h1 := length_of_skipText hs
    have h2 := length_of_colon (by simpa [hs, Except.bind] using h)
    omega

/-- What is to be passed over next, inside the open brackets. -/
inductive Awaited where
  | value
  | member
  | more

/-- The text after a value, with the brackets that are open around it, innermost first. -/
def skip (awaited : Awaited) (around : List Bracket) (cs : List Char) : Except Fault (List Char) :=
  match awaited, around with
  | .value, around =>
    match _hs : skipBlank cs with
    | [] => fail .endInValue []
    | c :: rest =>
      if c = '[' then
        match _hr : skipBlank rest with
        | [] => fail .endInList []
        | d :: more =>
          if d = ']' then skip .more around more else skip .value (.list :: around) (d :: more)
      else if c = '\x7b' then
        match _hr : skipBlank rest with
        | [] => fail .endInObject []
        | d :: more =>
          if d = '\x7d' then skip .more around more else skip .member (.object :: around) (d :: more)
      else
        match _ha : skipScalar c rest with
        | .error e => .error e
        | .ok more => skip .more around more
  | .member, around =>
    match _hs : skipBlank cs with
    | [] => fail .endInObject []
    | c :: rest =>
      if c = '"' then
        match _hn : skipName rest with
        | .error e => .error e
        | .ok more => skip .value around more
      else stop .keyNotText (c :: rest)
  | .more, [] => .ok cs
  | .more, b :: around =>
    match _hs : skipBlank cs with
    | [] => fail b.unclosed []
    | c :: rest =>
      if c = b.closing then skip .more around rest
      else if c = ',' then skip (if b = .list then .value else .member) (b :: around) rest
      else stop b.noEnd (c :: rest)
termination_by cs.length
decreasing_by
  · exact Nat.lt_trans (length_of_skipBlank_cons _hr) (length_of_skipBlank_cons _hs)
  · exact Nat.lt_of_le_of_lt (length_of_skipBlank _hr) (length_of_skipBlank_cons _hs)
  · exact Nat.lt_trans (length_of_skipBlank_cons _hr) (length_of_skipBlank_cons _hs)
  · exact Nat.lt_of_le_of_lt (length_of_skipBlank _hr) (length_of_skipBlank_cons _hs)
  · exact Nat.lt_of_le_of_lt (length_of_skipScalar _ha) (length_of_skipBlank_cons _hs)
  · exact Nat.lt_trans (length_of_skipName _hn) (length_of_skipBlank_cons _hs)
  · exact length_of_skipBlank_cons _hs
  · exact length_of_skipBlank_cons _hs

/-- The text after the next value. -/
def skipValue (cs : List Char) : Except Fault (List Char) := skip .value [] cs

end Json
end Retarget
