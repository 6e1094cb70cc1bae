/-
# Writing scalars

A text is written in the first of these styles that is allowed for it:

| text | styles in order |
| --- | --- |
| with a line feed | literal, double-quoted |
| empty, or one that would not be read back as a text, or with a needless leading zero | single-quoted, double-quoted |
| any other | plain, single-quoted, double-quoted |

What a style forbids:

* *literal*: a space at the end or before a break, and unprintable characters, of which a tab
  is one;
* *single-quoted*: a space before or after a break, and unprintable characters;
* *plain*: all that single quotes forbid, breaks, a space at either end, document marks at
  the start, an indicator at the start, `: ` or a colon at the end, and ` #`.

Lines are never folded.
-/

import Retarget.Yaml.Scalar.Resolve

namespace Retarget
namespace Yaml
namespace Written

/-- The character can be written as it is; a tab cannot. -/
def isPrintable (c : Char) : Bool :=
  let n := c.toNat
  n == 0x0A || (0x20 ≤ n && n ≤ 0x7E) || (0xA0 ≤ n && n ≤ 0xFFFD && n ≠ 0xFEFF) || 0x10000 ≤ n

/-- The character separates words where indicators matter; so does a zero. -/
def separates (c : Char) : Bool := isGap c || c = '\x00'

/-- The text is at an end or at a character that separates words. -/
def atSeparator (cs : List Char) : Bool := (cs.head?.map separates).getD true

/-- Some character of the first class stands directly before one of the second. -/
def adjacent (p q : Char → Bool) : List Char → Bool
  | a :: b :: cs => (p a && q b) || adjacent p q (b :: cs)
  | _ => false

/-- The character starts something other than a plain scalar. -/
def isLeadIndicator (c : Char) : Bool :=
  ['#', ',', '[', ']', '\x7b', '\x7d', '&', '*', '!', '|', '>', '\'', '"', '%', '@', '\x60'].contains c

/-- A character after the first one would end a plain scalar; `gap` tells whether the
character before it separates words. -/
def hasInnerIndicator (gap : Bool) : List Char → Bool
  | [] => false
  | c :: cs =>
    (c = ':' && atSeparator cs) || (c = '#' && gap) || hasInnerIndicator (separates c) cs

/-- The text would not be read as one plain scalar because of its indicators. -/
def hasIndicator (cs : List Char) : Bool :=
  match cs with
  | [] => false
  | c :: rest =>
    cs.take 3 = ['-', '-', '-'] || cs.take 3 = ['.', '.', '.'] || isLeadIndicator c ||
      ((c = '?' || c = ':' || c = '-') && atSeparator rest) || hasInnerIndicator (separates c) rest

/-- The character is a space. -/
def isSpace (c : Char) : Bool := c = ' '

/-- The text begins or ends with a character of the class. -/
def atAnEnd (p : Char → Bool) (cs : List Char) : Bool :=
  (cs.head?.map p).getD false || (cs.getLast?.map p).getD false

/-- Single quotes can hold the text. -/
def singleAllowed (cs : List Char) : Bool :=
  !adjacent isBreak isSpace cs && !adjacent isSpace isBreak cs && cs.all isPrintable

/-- The text can stand without quotes. -/
def plainAllowed (cs : List Char) : Bool :=
  singleAllowed cs && !cs.any isBreak && !atAnEnd isSpace cs && !hasIndicator cs

/-- The text can stand in lines of its own. -/
def literalAllowed (cs : List Char) : Bool :=
  !adjacent isSpace isBreak cs && cs.all isPrintable && cs.getLast? ≠ some ' '

/-- The text would be read back as something else, or has a needless leading zero. -/
def isAmbiguous (s : String) : Bool :=
  !(Resolve.untagged s).isText || Resolve.hasNeedlessZero s.toList

/-- The style in which a text is written. -/
def style (s : String) : Style :=
  let cs := s.toList
  if cs.contains '\n' then if literalAllowed cs then .literal else .doubleQuoted
  else if !isAmbiguous s && plainAllowed cs then .plain
  else if singleAllowed cs then .singleQuoted
  else .doubleQuoted

/-- The indentation of a line. -/
def spaces (indent : Nat) : List Char := List.replicate indent ' '

/-- The characters, with an indentation where a line begins; `atStart` tells whether one
does. -/
def indented (indent : Nat) (write : Char → List Char) (atStart : Bool) : List Char → List Char
  | [] => []
  | c :: cs =>
    if isBreak c then c :: indented indent write true cs
    else (if atStart then spaces indent else []) ++ write c ++ indented indent write false cs

/-- A quote inside single quotes is doubled. -/
def singleChar (c : Char) : List Char := if c = '\'' then ['\'', '\''] else [c]

/-- The text in single quotes. -/
def single (indent : Nat) (cs : List Char) : List Char :=
  let closing := if (cs.getLast?.map isBreak).getD false then spaces indent else []
  '\'' :: indented indent singleChar false cs ++ closing ++ ['\'']

/-- The letters of escapes that have one. -/
def letters : List (Char × Char) := [
  ('\x00', '0'), ('\x07', 'a'), ('\x08', 'b'), ('\t', 't'), ('\n', 'n'), ('\x0b', 'v'), ('\x0c', 'f'),
  ('\r', 'r'), ('\x1b', 'e'), ('"', '"'), ('\\', '\\'), ('\u0085', 'N'), ('\u2028', 'L'),
  ('\u2029', 'P')]

/-- So many hexadecimal digits of a number, in capitals. -/
def hexDigits (n : Nat) : (count : Nat) → List Char
  | 0 => []
  | count + 1 => hexDigits (n / 16) count ++ [(Nat.digitChar (n % 16)).toUpper]

/-- A character as an escape. -/
def escaped (c : Char) : List Char :=
  match letters.lookup c with
  | some d => ['\\', d]
  | none =>
    let n := c.toNat
    if n ≤ 0xFF then '\\' :: 'x' :: hexDigits n 2
    else if n ≤ 0xFFFF then '\\' :: 'u' :: hexDigits n 4
    else '\\' :: 'U' :: hexDigits n 8

/-- A character inside double quotes. -/
def doubleChar (c : Char) : List Char :=
  if !isPrintable c || isBreak c || c = '"' || c = '\\' then escaped c else [c]

/-- The text in double quotes. -/
def double (cs : List Char) : List Char := '"' :: cs.flatMap doubleChar ++ ['"']

/-- The sign for the breaks at the end of a text: none if there is one break after other
characters. -/
def chompingSign (cs : List Char) : List Char :=
  match cs.reverse with
  | [] => ['-']
  | c :: rest =>
    if !isBreak c then ['-']
    else if (rest.head?.map isBreak).getD true then ['+']
    else []

/-- The text in lines of its own; the header has a digit if the text begins with a space or
a break. -/
def literal (indent : Nat) (cs : List Char) : List Char :=
  let digit := if (cs.head?.map fun c => isSpace c || isBreak c).getD false then ['2'] else []
  '|' :: digit ++ chompingSign cs ++ '\n' :: indented indent (fun c => [c]) true cs

/-- The text as a scalar, with its later lines indented. -/
def scalar (indent : Nat) (s : String) : List Char :=
  match style s with
  | .plain => s.toList
  | .singleQuoted => single indent s.toList
  | .literal => literal indent s.toList
  | _ => double s.toList

end Written
end Yaml
end Retarget
