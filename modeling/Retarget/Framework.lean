/-
# Target framework monikers

With `D` a decimal digit of any script and `a` a letter `a` … `z`:

    moniker   =  "net" version [ "-" a a… [ version ] ]
              |  "netstandard" D… "." D…
              |  "netcoreapp" D… "." D…
    version   =  D… ( "." D… )…

The whole text has to be of this form.  The check is only used for warnings: a
framework that is not recognised is applied all the same.  The choices of the grammar
start with different characters, so it is read from left to right without trying again.
-/

import Retarget.Text.Digit

namespace Retarget
namespace Moniker

open Text (isDecimalDigit)

/-- The text after the word, if it starts with it. -/
def after? : (word text : List Char) → Option (List Char)
  | [], text => some text
  | _ :: _, [] => none
  | w :: word, c :: text => if w = c then after? word text else none

/-- The text after one or more digits. -/
def afterDigits? : List Char → Option (List Char)
  | [] => none
  | c :: cs => if isDecimalDigit c then some (cs.dropWhile isDecimalDigit) else none

/-- The text after the rest of a version, of which a digit has just been read. -/
def afterVersionTail : List Char → List Char
  | [] => []
  | [c] => if isDecimalDigit c then [] else [c]
  | c :: d :: cs =>
    if isDecimalDigit c then afterVersionTail (d :: cs)
    else if c = '.' && isDecimalDigit d then afterVersionTail cs
    else c :: d :: cs

/-- The text after a version. -/
def afterVersion? : List Char → Option (List Char)
  | [] => none
  | c :: cs => if isDecimalDigit c then some (afterVersionTail cs) else none

/-- The letters of a platform name. -/
def isPlatformLetter (c : Char) : Bool := 'a' ≤ c && c ≤ 'z'

/-- The text is a platform name with an optional version. -/
def isPlatform : List Char → Bool
  | [] => false
  | c :: cs =>
    isPlatformLetter c &&
      match cs.dropWhile isPlatformLetter with
      | [] => true
      | rest => afterVersion? rest == some []

/-- The text is two numbers with a point between them. -/
def isNumberPair (cs : List Char) : Bool :=
  match afterDigits? cs with
  | some ('.' :: rest) => afterDigits? rest == some []
  | _ => false

/-- The text is a version with an optional platform. -/
def isVersioned (cs : List Char) : Bool :=
  match afterVersion? cs with
  | some [] => true
  | some ('-' :: rest) => isPlatform rest
  | _ => false

/-- The text is a target framework moniker. -/
def recognized (framework : String) : Bool :=
  match after? "net".toList framework.toList with
  | none => false
  | some rest =>
    match after? "standard".toList rest, after? "coreapp".toList rest with
    | some numbers, _ => isNumberPair numbers
    | none, some numbers => isNumberPair numbers
    | none, none => isVersioned rest

/-- The frameworks of the list that are not recognised, in order. -/
def unrecognized (frameworks : List String) : List String :=
  frameworks.filter fun f => !recognized f

end Moniker
end Retarget
