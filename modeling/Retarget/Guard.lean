/-
# The guard: kinds of project that cannot be migrated

A project may declare its kinds in an element `ProjectTypeGuids` of its namespace, as
GUIDs separated by semicolons.  The guard reads the first such element in document
order and no other, cuts its value at the semicolons, removes the white space around
each piece, and looks the pieces up in the list of unsupported kinds, without regard to
the case of ASCII letters.  The leftmost piece that is in the list decides.
-/

import Retarget.Project
import Retarget.Text.Blank
import Retarget.Text.Caseless
import Retarget.Text.Joined

namespace Retarget

/-- A kind of project that cannot be migrated. -/
structure ProjectKind where
  guid : String
  description : String
  deriving DecidableEq, Repr, Inhabited

/-- A GUID in its canonical form, between braces. -/
def braced (digits : String) : String := "\x7b" ++ digits ++ "\x7d"

/-- The kinds that cannot be migrated, each under its GUID in capital letters. -/
def denylist : List ProjectKind := [
  ⟨braced "8BB2217D-0F2D-49D1-97BC-3654ED321F3B", "ASP.NET 5"⟩,
  ⟨braced "603C0E0B-DB56-11DC-BE95-000D561079B0", "ASP.NET MVC 1"⟩,
  ⟨braced "F85E285D-A4E0-4152-9332-AB1D724D3325", "ASP.NET MVC 2"⟩,
  ⟨braced "E53F8FEA-EAE0-44A6-8774-FFD645390401", "ASP.NET MVC 3"⟩,
  ⟨braced "E3E379DF-F4C6-4180-9B81-6769533ABE47", "ASP.NET MVC 4"⟩,
  ⟨braced "349C5851-65DF-11DA-9384-00065B846F21", "ASP.NET MVC 5"⟩]

/-- The local name of the element that declares a project's kinds. -/
def kindsElement : String := "ProjectTypeGuids"

/-- The unsupported kind with this GUID, up to the case of ASCII letters. -/
def unsupportedKind? (guid : List Char) : Option ProjectKind :=
  denylist.find? fun kind => Text.agrees kind.guid.toList guid

/-- The unsupported kind that the leftmost piece of the declaration names. -/
def kindDeclaredBy (declared : String) : Option ProjectKind :=
  ((Text.pieces ';' declared.toList).map Text.trim).findSome? unsupportedKind?

namespace Project

/-- The text of the first declaration of the project's kinds. -/
def declaredKinds (p : Project) : Option String := (p.findElement kindsElement).map Element.value

/-- The unsupported kind that the project declares, if any. -/
def unsupportedKind (p : Project) : Option ProjectKind := p.declaredKinds.bind kindDeclaredBy

/-- The project declares a kind that cannot be migrated. -/
def isUnsupported (p : Project) : Bool := p.unsupportedKind.isSome

end Project

/-- What can be wrong with a request to the guard. -/
inductive GuardError where
  | missingProject
  deriving DecidableEq, Repr

/-- The text of the error. -/
def GuardError.message : GuardError → String
  | .missingProject => "No project given to the compatibility check"

/-- The guard's answer for a project that may be absent. -/
def checkSupport : Option Project → Except GuardError Bool
  | none => .error .missingProject
  | some p => .ok p.isUnsupported

end Retarget
