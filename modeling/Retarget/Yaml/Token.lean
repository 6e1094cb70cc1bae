/-
# Tokens of YAML

The signs, scalars and properties that a text is cut into.  The structure that a text
shows by indentation is made explicit: `blockSequence` and `blockMapping` stand where a
collection begins, `blockEnd` where it ends, and `key` before every key, also where the
text has no sign for it.
-/

import Retarget.Yaml.Source

namespace Retarget
namespace Yaml

/-- How a scalar is written. -/
inductive Style where
  | plain
  | singleQuoted
  | doubleQuoted
  | literal
  | folded
  deriving DecidableEq, Repr, Inhabited

/-- Bytes of a tag, which may hold any bytes by way of escapes. -/
abbrev Octets := List UInt8

/-- The bytes of a text. -/
def octets (s : String) : Octets := s.toUTF8.toList

/-- What a token is. -/
inductive Sign where
  | streamStart
  | streamEnd
  | version (major minor : Nat)
  | tagHandle (handle : String) (start : Octets)
  | documentStart
  | documentEnd
  | blockSequence
  | blockMapping
  | blockEnd
  | flowSequence
  | flowSequenceEnd
  | flowMapping
  | flowMappingEnd
  | blockEntry
  | flowEntry
  | key
  | value
  | aliased (name : String)
  | anchor (name : String)
  | tag (handle : String) (suffix : Octets)
  | scalar (content : String) (style : Style)
  deriving DecidableEq, Repr, Inhabited

/-- A token: what it is, where it starts and where it stops. -/
structure Token where
  sign : Sign
  start : Mark
  stop : Mark
  deriving DecidableEq, Repr, Inhabited

end Yaml
end Retarget
