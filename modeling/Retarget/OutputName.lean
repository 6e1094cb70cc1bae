/-
# The name of the output file

The migrated project is written beside the file it was read from.  For `stem.ext` the
candidates are

    stem.migrated.ext, stem.migrated-1.ext, stem.migrated-2.ext, …

and the first that does not exist is taken.  Without an extension `ext` is `yaml`, and
without a name `stem` is `project`.
-/

import Retarget.FilePath

namespace Retarget
namespace OutputName

/-- What stands between the stem and the extension of a candidate. -/
def tag (k : Nat) : List Char :=
  if k = 0 then ".migrated.".toList else ".migrated-".toList ++ Nat.toDigits 10 k ++ ['.']

/-- The candidate with a number. -/
def candidate (input : String) (k : Nat) : String :=
  let path := input.toList
  let stem := (FilePath.stem? path).getD "project".toList
  let ext := (FilePath.extension? path).getD "yaml".toList
  String.ofList (FilePath.withName path (stem ++ tag k ++ ext))

/-- How many candidates are tried at most.  A name with a number of 255 digits is too long for
a file, so the search never comes so far. -/
def limit : Nat := Nat.pow 10 255

/-- The first candidate from number `k` on that does not exist. -/
def firstFree {m : Type → Type} [Monad m] (taken : String → m Bool) (input : String) :
    (fuel : Nat) → (k : Nat) → m String
  | 0, k => pure (candidate input k)
  | fuel + 1, k => do
    if ← taken (candidate input k) then firstFree taken input fuel (k + 1)
    else pure (candidate input k)

/-- The name under which the output is written. -/
def unique {m : Type → Type} [Monad m] (taken : String → m Bool) (input : String) : m String :=
  firstFree taken input limit 0

end OutputName
end Retarget
