/-
# Flaws of a YAML text

A flaw is a reason why a text is not YAML: the problem, the place where it shows, and
what was being read, with the place where that began.  Lines and columns are counted from
0 and shown from 1.  A place at the very start of the text is not shown, nor is the place
of a context that began where the problem lies.
-/

namespace Retarget
namespace Yaml

/-- A place in a text. -/
structure Mark where
  line : Nat
  column : Nat
  deriving DecidableEq, Repr, Inhabited

namespace Mark

/-- The place at the start of a text. -/
def origin : Mark := ⟨0, 0⟩

/-- The place so many characters further on in the line. -/
def right (m : Mark) (n : Nat) : Mark := ⟨m.line, m.column + n⟩

/-- The place at the start of the next line. -/
def down (m : Mark) : Mark := ⟨m.line + 1, 0⟩

/-- The place, as messages show it. -/
def shown (m : Mark) : String :=
  if m = origin then ""
  else " at line " ++ toString (m.line + 1) ++ " column " ++ toString (m.column + 1)

end Mark

/-- What is wrong. -/
inductive Problem where
  | controlCharacter
  | noKeyEnd
  | noToken
  | noBlockEntryHere
  | noKeyHere
  | noValueHere
  | unknownDirective
  | noDirectiveName
  | badDirectiveName
  | noLineEnd
  | noVersionDigit
  | noVersion
  | longVersion
  | noBlank
  | noBlankOrBreak
  | noAnchorName
  | noTagEnd
  | noTagStart
  | noTagUri
  | noOctet
  | badFirstOctet
  | badLaterOctet
  | zeroIndent
  | tabIndent
  | tabInPlain
  | documentMarkInQuoted
  | endInQuoted
  | unknownEscape
  | noHexNumber
  | noCharacterCode
  | colonInPlain
  | noDocumentStart
  | repeatedVersion
  | otherVersion
  | repeatedTag
  | unknownTagHandle
  | noNode
  | noEntry
  | noKey
  | noSequenceEnd
  | noMappingEnd
  deriving DecidableEq, Repr

/-- The text of the problem. -/
def Problem.message : Problem → String
  | controlCharacter => "control characters are not allowed"
  | noKeyEnd => "could not find expected ':'"
  | noToken => "found character that cannot start any token"
  | noBlockEntryHere => "block sequence entries are not allowed in this context"
  | noKeyHere => "mapping keys are not allowed in this context"
  | noValueHere => "mapping values are not allowed in this context"
  | unknownDirective => "found unknown directive name"
  | noDirectiveName => "could not find expected directive name"
  | badDirectiveName => "found unexpected non-alphabetical character"
  | noLineEnd => "did not find expected comment or line break"
  | noVersionDigit => "did not find expected digit or '.' character"
  | noVersion => "did not find expected version number"
  | longVersion => "found extremely long version number"
  | noBlank => "did not find expected whitespace"
  | noBlankOrBreak => "did not find expected whitespace or line break"
  | noAnchorName => "did not find expected alphabetic or numeric character"
  | noTagEnd => "did not find the expected '>'"
  | noTagStart => "did not find expected '!'"
  | noTagUri => "did not find expected tag URI"
  | noOctet => "did not find URI escaped octet"
  | badFirstOctet => "found an incorrect leading UTF-8 octet"
  | badLaterOctet => "found an incorrect trailing UTF-8 octet"
  | zeroIndent => "found an indentation indicator equal to 0"
  | tabIndent => "found a tab character where an indentation space is expected"
  | tabInPlain => "found a tab character that violates indentation"
  | documentMarkInQuoted => "found unexpected document indicator"
  | endInQuoted => "found unexpected end of stream"
  | unknownEscape => "found unknown escape character"
  | noHexNumber => "did not find expected hexdecimal number"
  | noCharacterCode => "found invalid Unicode character escape code"
  | colonInPlain => "found unexpected ':'"
  | noDocumentStart => "did not find expected <document start>"
  | repeatedVersion => "found duplicate %YAML directive"
  | otherVersion => "found incompatible YAML document"
  | repeatedTag => "found duplicate %TAG directive"
  | unknownTagHandle => "found undefined tag handle"
  | noNode => "did not find expected node content"
  | noEntry => "did not find expected '-' indicator"
  | noKey => "did not find expected key"
  | noSequenceEnd => "did not find expected ',' or ']'"
  | noMappingEnd => "did not find expected ',' or '\x7d'"

/-- What was being read. -/
inductive Context where
  | simpleKey
  | nextToken
  | directive
  | versionDirective
  | tagDirective
  | tagDirectiveHandle
  | tagDirectiveHandleEnd
  | tagDirectiveUri
  | anchor
  | aliased
  | tag
  | tagUri
  | blockScalar
  | quotedScalar
  | escape
  | plainScalar
  | node
  | blockNode
  | flowNode
  | blockCollection
  | blockMapping
  | flowSequence
  | flowMapping
  deriving DecidableEq, Repr

/-- What was being read, in words. -/
def Context.message : Context → String
  | simpleKey => "while scanning a simple key"
  | nextToken => "while scanning for the next token"
  | directive => "while scanning a directive"
  | versionDirective => "while scanning a %YAML directive"
  | tagDirective => "while scanning a %TAG directive"
  | tagDirectiveHandle => "while scanning a tag directive"
  | tagDirectiveHandleEnd => "while parsing a tag directive"
  | tagDirectiveUri => "while parsing a %TAG directive"
  | anchor => "while scanning an anchor"
  | aliased => "while scanning an alias"
  | tag => "while scanning a tag"
  | tagUri => "while parsing a tag"
  | blockScalar => "while scanning a block scalar"
  | quotedScalar => "while scanning a quoted scalar"
  | escape => "while parsing a quoted scalar"
  | plainScalar => "while scanning a plain scalar"
  | node => "while parsing a node"
  | blockNode => "while parsing a block node"
  | flowNode => "while parsing a flow node"
  | blockCollection => "while parsing a block collection"
  | blockMapping => "while parsing a block mapping"
  | flowSequence => "while parsing a flow sequence"
  | flowMapping => "while parsing a flow mapping"

/-- Where a problem shows: a place, or for a character that no YAML text may hold the
number of bytes before it. -/
inductive Spot where
  | mark (m : Mark)
  | offset (bytes : Nat)
  deriving DecidableEq, Repr

/-- The spot, as messages show it. -/
def Spot.shown : Spot → String
  | mark m => m.shown
  | offset n => if n = 0 then "" else " at position " ++ toString n

/-- Why a text is not YAML. -/
structure Flaw where
  problem : Problem
  spot : Spot
  context : Option (Context × Mark)
  deriving DecidableEq, Repr

namespace Flaw

/-- What was being read, and since where. -/
def contextShown (f : Flaw) : String :=
  match f.context with
  | none => ""
  | some (c, m) => ", " ++ c.message ++ (if f.spot = .mark m then "" else m.shown)

/-- The text of the flaw. -/
def message (f : Flaw) : String := f.problem.message ++ f.spot.shown ++ f.contextShown

end Flaw

/-- A problem at a place. -/
def flawed {α : Type} (problem : Problem) (place : Mark) : Except Flaw α :=
  .error ⟨problem, .mark place, none⟩

/-- A problem at a place, while something was read that began earlier. -/
def flawedWhile {α : Type} (context : Context) (start : Mark) (problem : Problem) (place : Mark) :
    Except Flaw α :=
  .error ⟨problem, .mark place, some (context, start)⟩

end Yaml
end Retarget
