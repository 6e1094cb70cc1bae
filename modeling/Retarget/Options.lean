/-
# Migration options

What the user asks for: replacement frameworks, where the empty list keeps those of the
project, and the append flag.  Settings from the command line go before those of an
options file: a non-empty list of frameworks replaces the file's list as a whole, and a
flag that is given replaces the file's flag.
-/

import Retarget.Framework
import Retarget.Migration.Pipeline

namespace Retarget

/-- What a migration is to set. -/
structure Options where
  frameworks : List String
  appendFramework : Bool
  deriving DecidableEq, Repr

namespace Options

/-- Keep the frameworks, append to the output path. -/
def standard : Options := ⟨[], true⟩

instance : Inhabited Options := ⟨standard⟩

/-- The options with those of the command line put over them. -/
def override (o : Options) (frameworks : List String) (append : Option Bool) : Options where
  frameworks := if frameworks.isEmpty then o.frameworks else frameworks
  appendFramework := append.getD o.appendFramework

/-- The frameworks that do not look like monikers, in order. -/
def unrecognized (o : Options) : List String := Moniker.unrecognized o.frameworks

/-- The pipeline that carries the options out. -/
def pipeline (o : Options) : Pipeline := [.setFrameworks o.frameworks o.appendFramework]

end Options

end Retarget
