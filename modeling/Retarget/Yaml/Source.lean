/-
# The characters of a YAML text

A YAML text may hold the tab, the line breaks, and every character from the space on
except `U+007F` to `U+009F`, `U+FFFE` and `U+FFFF`; `U+0085` is allowed all the same.

Line breaks are carriage return, line feed, both in a row, `U+0085`, `U+2028` and
`U+2029`.  Before anything else is read, all but the last two are replaced by one line
feed each (`unify`).
-/

import Retarget.Yaml.Flaw

namespace Retarget
namespace Yaml

/-- The character may stand in a YAML text. -/
def isAllowed (c : Char) : Bool :=
  let n := c.toNat
  n == 0x09 || n == 0x0A || n == 0x0D || (0x20 ≤ n && n ≤ 0x7E) || n == 0x85 ||
    (0xA0 ≤ n && n ≤ 0xFFFD) || 0x10000 ≤ n

/-- The character breaks a line. -/
def isBreak (c : Char) : Bool :=
  c = '\n' || c = '\r' || c = '\u0085' || c = '\u2028' || c = '\u2029'

/-- The character separates words within a line. -/
def isBlank (c : Char) : Bool := c = ' ' || c = '\t'

/-- The character is a blank or a break. -/
def isGap (c : Char) : Bool := isBlank c || isBreak c

/-- The character may stand in the name of an anchor, a directive or a tag handle. -/
def isWordChar (c : Char) : Bool := c.isAlphanum || c = '_' || c = '-'

/-- The text with its line breaks replaced by line feeds, those that are plain ones. -/
def unify : List Char → List Char
  | [] => []
  | '\r' :: '\n' :: cs => '\n' :: unify cs
  | c :: cs => (if c = '\r' || c = '\u0085' then '\n' else c) :: unify cs

/-- The number of bytes before the first character that is not allowed. -/
def forbidden? (before : Nat) : List Char → Option Nat
  | [] => none
  | c :: cs => if isAllowed c then forbidden? (before + c.utf8Size) cs else some before

/-- A place in a text and the text from there on. -/
structure Cursor where
  mark : Mark
  rest : List Char
  deriving Repr

namespace Cursor

/-- The start of a text. -/
def ofText (cs : List Char) : Cursor := ⟨.origin, cs⟩

/-- The next character. -/
def head? (c : Cursor) : Option Char := c.rest.head?

/-- So many characters further on in the line. -/
def right (c : Cursor) (n : Nat) : Cursor := ⟨c.mark.right n, c.rest.drop n⟩

/-- After the characters of a class that come next; no break is in the class. -/
def skip (p : Char → Bool) (c : Cursor) : Cursor :=
  ⟨c.mark.right (c.rest.takeWhile p).length, c.rest.dropWhile p⟩

/-- The characters of a class that come next. -/
def span (p : Char → Bool) (c : Cursor) : List Char := c.rest.takeWhile p

/-- After the line break that comes next, if one does. -/
def down (c : Cursor) : Cursor :=
  match c.rest with
  | [] => c
  | d :: rest => if isBreak d then ⟨c.mark.down, rest⟩ else c

end Cursor

/-- The text is at an end or at a line break. -/
def atLineEnd (cs : List Char) : Bool := (cs.head?.map isBreak).getD true

/-- The text is at an end, a line break or a blank. -/
def atGap (cs : List Char) : Bool := (cs.head?.map isGap).getD true

namespace Cursor

/-- After a comment and the blanks before it, if they come next. -/
def skipComment (c : Cursor) : Cursor :=
  let c := c.skip isBlank
  if c.head? = some '#' then c.skip (!isBreak ·) else c

/-- Three characters `sign` at the start of a line, standing alone. -/
def atMark (sign : Char) (c : Cursor) : Bool :=
  c.mark.column == 0 && c.rest.take 3 == [sign, sign, sign] && atGap (c.rest.drop 3)

/-- The sign that a document starts or ends here. -/
def atDocumentMark (c : Cursor) : Bool := c.atMark '-' || c.atMark '.'

end Cursor
end Yaml
end Retarget
