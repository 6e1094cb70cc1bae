/-
# Projects

A project is what a migration works on: the two settings that steps change, the
namespace in which its elements are looked up, and the document that it was read from.
The target frameworks are ordered and may repeat; the first one is the primary one.
-/

import Retarget.Document

namespace Retarget

/-- A project: settings, namespace and document. -/
structure Project where
  frameworks : List String
  appendFramework : Bool
  document : Document
  space : Namespace
  deriving DecidableEq, Repr, Inhabited

namespace Project

/-- The project of a document, with default settings. -/
def ofDocument (document : Document) (space : Namespace) : Project :=
  ⟨[], true, document, space⟩

/-- The project whose document is an empty `Project` element of the namespace. -/
def empty (space : Namespace) : Project := ofDocument ⟨⟨⟨space, "Project"⟩, []⟩⟩ space

/-- The first element with the local name in the project's own namespace. -/
def findElement (p : Project) (localName : String) : Option Element :=
  p.document.first? ⟨p.space, localName⟩

/-- The first target framework. -/
def primaryFramework (p : Project) : Option String := p.frameworks.head?

end Project

end Retarget
