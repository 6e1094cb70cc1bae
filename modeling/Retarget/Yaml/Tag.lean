/-
# Tags and anchors

    anchor    =  "&" name        alias  =  "*" name
    tag       =  "!<" uri ">"  |  handle uri  |  "!" uri  |  "!"
    handle    =  "!" name "!"  |  "!!"

In a `uri` an octet may be written as `%` and two hexadecimal digits.  Such octets must
follow each other as the octets of UTF-8 do; whether they are the octets of a character is
not checked.  Nothing counts from a zero octet on.
-/

import Retarget.Yaml.Scalar.Quoted
import Retarget.Yaml.Token

namespace Retarget
namespace Yaml
namespace Tag

/-- The character may stand in a tag; commas and square brackets only where the tag is
between `<` and `>`, or in a directive. -/
def isUriChar (brackets : Bool) (c : Char) : Bool :=
  isWordChar c || [';', '/', '?', ':', '@', '&', '=', '+', '$', '.', '%', '!', '~', '*', '\'', '(', ')'].contains c ||
    (brackets && (c = ',' || c = '[' || c = ']'))

/-- The octet written at the front of the text. -/
def octet? : List Char → Option Nat
  | '%' :: a :: b :: _ =>
    match Quoted.hexValue? a, Quoted.hexValue? b with
    | some a, some b => some (16 * a + b)
    | _, _ => none
  | _ => none

/-- How many octets a character takes whose first octet this is. -/
def width? (octet : Nat) : Option Nat :=
  if octet < 0x80 then some 1
  else if 0xC0 ≤ octet && octet < 0xE0 then some 2
  else if 0xE0 ≤ octet && octet < 0xF0 then some 3
  else if 0xF0 ≤ octet && octet < 0xF8 then some 4
  else none

/-- So many octets that continue a character. -/
def laterOctets (context : Context) (start m : Mark) : (count : Nat) → List Char → Except Flaw Octets
  | 0, _ => .ok []
  | count + 1, cs =>
    match octet? cs with
    | none => flawedWhile context start .noOctet m
    | some n =>
      if n / 64 = 2 then
        (laterOctets context start (m.right 3) count (cs.drop 3)).map (n.toUInt8 :: ·)
      else flawedWhile context start .badLaterOctet m

/-- The octets of an escaped character at the front of the text. -/
def escaped (context : Context) (start m : Mark) (cs : List Char) : Except Flaw Octets :=
  match octet? cs with
  | none => flawedWhile context start .noOctet m
  | some n =>
    match width? n with
    | none => flawedWhile context start .badFirstOctet m
    | some w => (laterOctets context start (m.right 3) (w - 1) (cs.drop 3)).map (n.toUInt8 :: ·)

/-- The octets of a tag, last first, and what comes after them. -/
def uriOctets (context : Context) (start : Mark) (brackets : Bool) (read : Octets) (m : Mark) :
    List Char → Except Flaw (Octets × Cursor)
  | [] => .ok (read, ⟨m, []⟩)
  | c :: cs =>
    if !isUriChar brackets c then .ok (read, ⟨m, c :: cs⟩)
    else if c = '%' then
      match escaped context start m (c :: cs) with
      | .error e => .error e
      | .ok os =>
        uriOctets context start brackets (os.reverse ++ read) (m.right (3 * os.length))
          (cs.drop (3 * os.length - 1))
    else uriOctets context start brackets ((octets (String.singleton c)).reverse ++ read) (m.right 1) cs
termination_by cs => cs.length

/-- The octets up to the first zero. -/
def upToZero (os : Octets) : Octets := os.takeWhile (· != 0)

/-- The octets of a tag, of which `head` has been read. -/
def uri (context : Context) (start : Mark) (brackets : Bool) (head : Octets) (c : Cursor) :
    Except Flaw (Octets × Cursor) :=
  match uriOctets context start brackets [] c.mark c.rest with
  | .error e => .error e
  | .ok (read, c) => .ok (upToZero (head ++ read.reverse), c)

/-- The octets of a tag, of which there has to be one. -/
def someUri (context : Context) (start : Mark) (brackets : Bool) (c : Cursor) :
    Except Flaw (Octets × Cursor) :=
  if (c.head?.map (isUriChar brackets)).getD false then uri context start brackets [] c
  else flawedWhile context start .noTagUri c.mark

/-- A handle, or as much of a tag as could belong to one. -/
def handle (context : Context) (start : Mark) (c : Cursor) : Except Flaw (List Char × Cursor) :=
  if c.head? = some '!' then
    let c := c.right 1
    let name := c.span isWordChar
    let c := c.skip isWordChar
    if c.head? = some '!' then .ok ('!' :: name ++ ['!'], c.right 1)
    else .ok ('!' :: name, c)
  else flawedWhile context start .noTagStart c.mark

/-- The text read as a handle is one. -/
def isHandle (h : List Char) : Bool := 1 < h.length && h.getLast? = some '!'

/-- A tag without angle brackets: its handle and what follows it. -/
def short (start : Mark) (c : Cursor) : Except Flaw (Sign × Cursor) :=
  match handle .tag start c with
  | .error e => .error e
  | .ok (h, c) =>
    if isHandle h then
      (someUri .tagUri start false c).map fun (suffix, c) => (.tag (String.ofList h) suffix, c)
    else
      (uri .tagUri start false (octets (String.ofList h.tail)) c).map fun (suffix, c) =>
        (if suffix.isEmpty then .tag "" (octets "!") else .tag "!" suffix, c)

/-- A tag between angle brackets. -/
def verbatim (start : Mark) (c : Cursor) : Except Flaw (Sign × Cursor) :=
  match someUri .tagUri start true (c.right 2) with
  | .error e => .error e
  | .ok (suffix, c) =>
    if c.head? = some '>' then .ok (.tag "" suffix, c.right 1)
    else flawedWhile .tag start .noTagEnd c.mark

/-- The tag at the cursor. -/
def scan (flow : Bool) (c : Cursor) : Except Flaw (Sign × Cursor) :=
  let start := c.mark
  match (if c.rest[1]? = some '<' then verbatim start c else short start c) with
  | .error e => .error e
  | .ok (sign, c) =>
    if atGap c.rest || (flow && c.head? = some ',') then .ok (sign, c)
    else flawedWhile .tag start .noBlankOrBreak c.mark

/-- The character may follow the name of an anchor. -/
def endsAnchor (c : Char) : Bool := isGap c || ['?', ':', ',', ']', '\x7d', '%', '@', '\x60'].contains c

/-- The name of the anchor or alias at the cursor. -/
def anchorName (context : Context) (c : Cursor) : Except Flaw (String × Cursor) :=
  let start := c.mark
  let c := c.right 1
  let name := c.span isWordChar
  let c := c.skip isWordChar
  if !name.isEmpty && (c.head?.map endsAnchor).getD true then .ok (String.ofList name, c)
  else flawedWhile context start .noAnchorName c.mark

end Tag
end Yaml
end Retarget
