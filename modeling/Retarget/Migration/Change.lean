/-
# Settings and their changes

The two settings of a project that steps may set, and the record of what a step
changed.  A change shows the old and the new value as texts: the frameworks joined with
semicolons, the flag as `true` or `false`.  The frameworks are compared as lists, before
they are joined, and are listed before the flag.
-/

import Retarget.Project
import Retarget.Text.Joined

namespace Retarget

/-- A setting of a project that steps may set. -/
inductive Setting where
  | frameworks
  | appendFramework
  deriving DecidableEq, Repr, Inhabited

namespace Setting

/-- The setting's name in reports and files. -/
def label : Setting → String
  | frameworks => "TargetFrameworks"
  | appendFramework => "AppendTargetFrameworkToOutputPath"

/-- Every setting, in the order in which changes are listed. -/
def all : List Setting := [frameworks, appendFramework]

/-- The setting of this name. -/
def ofLabel? (s : String) : Option Setting := all.find? fun f => f.label == s

theorem ofLabel?_label (f : Setting) : ofLabel? f.label = some f := by cases f <;> decide

end Setting

/-- A flag as reports show it. -/
def flagText (b : Bool) : String := if b then "true" else "false"

/-- The setting's value in the project, as a text. -/
def Project.shown (p : Project) : Setting → String
  | .frameworks => Text.joined p.frameworks
  | .appendFramework => flagText p.appendFramework

/-- What a step did to one setting. -/
structure Change where
  field : Setting
  oldValue : String
  newValue : String
  deriving DecidableEq, Repr, Inhabited

/-- The setting has different values in the two projects. -/
def Setting.differs (before after : Project) : Setting → Bool
  | .frameworks => before.frameworks != after.frameworks
  | .appendFramework => before.appendFramework != after.appendFramework

/-- The changes from one state of a project to another. -/
def changes (before after : Project) : List Change :=
  (Setting.all.filter (Setting.differs before after)).map fun f =>
    ⟨f, before.shown f, after.shown f⟩

/-- What a step that succeeded changed. -/
structure Applied where
  name : String
  changes : List Change
  deriving DecidableEq, Repr, Inhabited

end Retarget
