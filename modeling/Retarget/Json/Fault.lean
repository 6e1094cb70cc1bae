/-
# What can be wrong with a JSON text

A *broken* text is not JSON; a *misfit* is JSON of another shape than asked for.  The
place of a fault is kept as the number of bytes that are left behind it, and becomes a
line and a column only when the message is written: lines count from 1, and a column is
the number of bytes of its line before the place.

A *loose* misfit is one found between two values.  The list or object around it gives it
a place, namely where that list or object has been read to.
-/

import Retarget.Data.Mismatch

namespace Retarget
namespace Json

/-- Why a text is not JSON. -/
inductive Problem where
  | endInList
  | endInObject
  | endInText
  | endInValue
  | noColon
  | noListEnd
  | noObjectEnd
  | badLiteral
  | noValue
  | badEscape
  | badNumber
  | numberTooLarge
  | controlCharacter
  | keyNotText
  | loneSurrogate
  | trailingComma
  | trailingText
  | unfinishedEscape
  | tooDeep
  deriving DecidableEq, Repr, Inhabited

/-- The text of the problem. -/
def Problem.message : Problem → String
  | endInList => "EOF while parsing a list"
  | endInObject => "EOF while parsing an object"
  | endInText => "EOF while parsing a string"
  | endInValue => "EOF while parsing a value"
  | noColon => "expected `:`"
  | noListEnd => "expected `,` or `]`"
  | noObjectEnd => "expected `,` or `\x7d`"
  | badLiteral => "expected ident"
  | noValue => "expected value"
  | badEscape => "invalid escape"
  | badNumber => "invalid number"
  | numberTooLarge => "number out of range"
  | controlCharacter => "control character (\\u0000-\\u001F) found while parsing a string"
  | keyNotText => "key must be a string"
  | loneSurrogate => "lone leading surrogate in hex escape"
  | trailingComma => "trailing comma"
  | trailingText => "trailing characters"
  | unfinishedEscape => "unexpected end of hex escape"
  | tooDeep => "recursion limit exceeded"

/-- What is wrong with a text, and where. -/
inductive Fault where
  | broken (problem : Problem) (left : Nat)
  | misfit (mismatch : Mismatch) (left : Nat)
  | loose (mismatch : Mismatch) (rest : List Char)
  deriving DecidableEq, Repr

/-- The number of bytes of a text. -/
def bytes (cs : List Char) : Nat := cs.foldl (fun n c => n + c.utf8Size) 0

/-- A place in a text. -/
structure Place where
  line : Nat
  column : Nat
  deriving DecidableEq, Repr

/-- The place so many bytes further on. -/
def Place.after (p : Place) : (count : Nat) → List Char → Place
  | _, [] => p
  | 0, _ :: _ => p
  | count, c :: cs =>
    if count < c.utf8Size then ⟨p.line, p.column + count⟩
    else (if c = '\n' then ⟨p.line + 1, 0⟩ else ⟨p.line, p.column + c.utf8Size⟩ : Place).after
      (count - c.utf8Size) cs

namespace Fault

/-- The place with so many bytes left, as messages show it. -/
def located (text : List Char) (left : Nat) : String :=
  let p := (Place.mk 1 0).after (bytes text - left) text
  " at line " ++ toString p.line ++ " column " ++ toString p.column

/-- How this format speaks of null and of floating-point numbers. -/
def wording : Wording := ⟨"null", Binary64.marked⟩

/-- The text of the fault. -/
def message (text : List Char) : Fault → String
  | broken problem left => problem.message ++ located text left
  | misfit mismatch left => mismatch.message wording ++ located text left
  | loose mismatch _ => mismatch.message wording

/-- The text is not JSON at all. -/
def isBroken : Fault → Bool
  | broken _ _ => true
  | _ => false

/-- A loose misfit gets its place. -/
def placed (landing : List Char → List Char) : Fault → Fault
  | loose mismatch rest => misfit mismatch (bytes (landing rest))
  | fault => fault

end Fault

/-- A value read from the front of a text, with the rest of the text. -/
abbrev Reading (α : Type) := Except Fault (α × List Char)

/-- The problem is the next character, or the end of the text. -/
def stop {α : Type} (problem : Problem) (cs : List Char) : Except Fault α :=
  .error (.broken problem (bytes cs - 1))

/-- The problem lies directly before the rest. -/
def fail {α : Type} (problem : Problem) (rest : List Char) : Except Fault α :=
  .error (.broken problem (bytes rest))

/-- The value read so far does not fit. -/
def misfit {α : Type} (mismatch : Mismatch) (rest : List Char) : Except Fault α :=
  .error (.misfit mismatch (bytes rest))

end Json
end Retarget
