/-
# Blanks, words and punctuation of JSON

What stands between values: blanks (space, tab, line feed, carriage return), the words
`null`, `true` and `false`, and the commas, colons and brackets of lists and objects.

After the last member that is asked for, a list or object is *closed*.  The closing also
gives a loose misfit of a member its place: the text is read on to the closing bracket if
it is next, and otherwise over the blanks and, in a list, a comma that come first.
-/

import Retarget.Json.Fault

namespace Retarget
namespace Json

/-- The character may stand anywhere between values. -/
def isBlank (c : Char) : Bool := c = ' ' || c = '\t' || c = '\n' || c = '\r'

/-- The text without the blanks at its front. -/
def skipBlank (cs : List Char) : List Char := cs.dropWhile isBlank

theorem length_of_skipBlank {cs rest : List Char} (h : skipBlank cs = rest) : rest.length ≤ cs.length :=
  h ▸ (List.dropWhile_sublist isBlank).length_le

theorem length_of_skipBlank_cons {c : Char} {cs rest : List Char} (h : skipBlank cs = c :: rest) :
    rest.length < cs.length :=
  Nat.lt_of_succ_le (length_of_skipBlank h)

/-- The text after a word of which the first letter has been read. -/
def word : List Char → List Char → Except Fault (List Char)
  | [], cs => .ok cs
  | _ :: _, [] => fail .endInValue []
  | w :: ws, c :: cs => if w = c then word ws cs else stop .badLiteral (c :: cs)

theorem length_of_word {w cs rest : List Char} (h : word w cs = .ok rest) : rest.length ≤ cs.length := by
  fun_induction word w cs with
  | case1 => cases h; simp
  | case2 => simp [fail] at h
  | case3 _ _ _ ih => simpa using Nat.le_succ_of_le (ih h)
  | case4 => simp [stop] at h

/-- The two kinds of brackets. -/
inductive Bracket where
  | list
  | object
  deriving DecidableEq, Repr

namespace Bracket

/-- The bracket that opens. -/
def opening : Bracket → Char
  | list => '['
  | object => '\x7b'

/-- The bracket that closes. -/
def closing : Bracket → Char
  | list => ']'
  | object => '\x7d'

/-- The text ends before the closing bracket. -/
def unclosed : Bracket → Problem
  | list => .endInList
  | object => .endInObject

/-- Neither a comma nor the closing bracket follows a member. -/
def noEnd : Bracket → Problem
  | list => .noListEnd
  | object => .noObjectEnd

/-- The text after the closing bracket, which has to come next. -/
def close (b : Bracket) (cs : List Char) : Except Fault (List Char) :=
  match skipBlank cs with
  | [] => fail b.unclosed []
  | c :: rest =>
    if c = b.closing then .ok rest
    else if c = ',' then
      match b with
      | object => stop .trailingComma (c :: rest)
      | list =>
        if (skipBlank rest).head? = some ']' then stop .trailingComma (skipBlank rest)
        else stop .trailingText (skipBlank rest)
    else stop .trailingText (c :: rest)

/-- Where the closing has read to, whether it succeeds or not. -/
def landing (b : Bracket) (cs : List Char) : List Char :=
  match skipBlank cs with
  | [] => []
  | c :: rest =>
    if c = b.closing then rest
    else if c = ',' && b = list then skipBlank rest
    else c :: rest

/-- The members of a list or object, closed. -/
def closed {α : Type} (b : Bracket) (members : Reading α) : Reading α :=
  match members with
  | .error e => .error (e.placed b.landing)
  | .ok (x, cs) => (b.close cs).map ((x, ·))

end Bracket

/-- The text of the next item of a list, or the text from its closing bracket on. -/
def nextItem (first : Bool) (cs : List Char) : Except Fault (Bool × List Char) :=
  match skipBlank cs with
  | [] => fail .endInList []
  | c :: rest =>
    if c = ']' then .ok (false, c :: rest)
    else if first then .ok (true, c :: rest)
    else if c = ',' then
      match skipBlank rest with
      | [] => fail .endInValue []
      | d :: rest => if d = ']' then stop .trailingComma (d :: rest) else .ok (true, d :: rest)
    else stop .noListEnd (c :: rest)

/-- The text of the next member of an object, after the quote of its name, or the text
from the closing bracket on. -/
def nextMember (first : Bool) (cs : List Char) : Except Fault (Bool × List Char) :=
  match skipBlank cs with
  | [] => fail .endInObject []
  | c :: rest =>
    if c = '\x7d' then .ok (false, c :: rest)
    else if first then
      if c = '"' then .ok (true, rest) else stop .keyNotText (c :: rest)
    else if c = ',' then
      match skipBlank rest with
      | [] => fail .endInValue []
      | d :: rest =>
        if d = '"' then .ok (true, rest)
        else if d = '\x7d' then stop .trailingComma (d :: rest)
        else stop .keyNotText (d :: rest)
    else stop .noObjectEnd (c :: rest)

/-- The text after the colon, which has to come next. -/
def colon (cs : List Char) : Except Fault (List Char) :=
  match skipBlank cs with
  | [] => fail .endInObject []
  | c :: rest => if c = ':' then .ok rest else stop .noColon (c :: rest)

theorem length_of_colon {cs rest : List Char} (h : colon cs = .ok rest) : rest.length < cs.length := by
  unfold colon at h
  split at h
  · simp [fail] at h
  · rename_i hs
    have h1 := length_of_skipBlank hs
    split at h
    · cases h; simp only [List.length_cons] at h1; omega
    · simp [stop] at h

/-- The items of a list, each read by `item`, up to the closing bracket. -/
def items {α : Type} (item : List Char → Reading α) :
    (fuel : Nat) → (read : List α) → List Char → Reading (List α)
  | 0, _, _ => fail .endInList []
  | fuel + 1, read, cs =>
    match nextItem read.isEmpty cs with
    | .error e => .error e
    | .ok (false, cs) => .ok (read.reverse, cs)
    | .ok (true, cs) =>
      match item cs with
      | .error e => .error e
      | .ok (x, cs) => items item fuel (x :: read) cs

/-- The members of an object, each read by `member` from its name on, up to the closing
bracket. -/
def members {σ : Type} (member : σ → List Char → Reading σ) :
    (fuel : Nat) → (first : Bool) → σ → List Char → Reading σ
  | 0, _, _, _ => fail .endInObject []
  | fuel + 1, first, read, cs =>
    match nextMember first cs with
    | .error e => .error e
    | .ok (false, cs) => .ok (read, cs)
    | .ok (true, cs) =>
      match member read cs with
      | .error e => .error e
      | .ok (read, cs) => members member fuel false read cs

end Json
end Retarget
