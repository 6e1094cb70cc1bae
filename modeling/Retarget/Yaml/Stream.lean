/-
# The first document of a YAML text

A text should hold one document.  Its events are kept as pieces, in which an alias names
its anchor by a number.  The number of an anchor is the number of different names before
it; so an anchor whose name was used before shares its number with the next new one, and
the later of the two is what both stand for.

The piece at which an alias goes on is looked up by number once the whole document has
been read, so it may lie behind the alias.
-/

import Retarget.Yaml.Event

namespace Retarget
namespace Yaml

/-- A piece of a document; `nothing` stands for the content of an empty text. -/
inductive Piece where
  | nothing
  | aliased (number : Nat)
  | scalar (tag : Option Octets) (content : String) (style : Style)
  | sequenceStart (tag : Option Octets)
  | sequenceEnd
  | mappingStart (tag : Option Octets)
  | mappingEnd
  deriving DecidableEq, Repr, Inhabited

/-- Pieces with their places. -/
abbrev Pieces := List (Piece × Mark)

/-- What keeps the events of a text from being a document. -/
inductive Break where
  | flaw (f : Flaw)
  | unknownAnchor (m : Mark)
  deriving DecidableEq, Repr

/-- The first document of a text: its pieces and their number, what is behind each anchor,
how the pieces break off early, and whether something follows the document. -/
structure Stream where
  pieces : Pieces
  count : Nat
  anchors : List (Nat × Pieces)
  broken : Option Break
  followed : Bool
  deriving Repr

/-- A document of which some events have been read.  `pieces` are listed last first;
`names` maps names of anchors to numbers, and `places` numbers to the count of pieces
before the anchor, in both the latest entry first. -/
structure Loading where
  pieces : Pieces
  count : Nat
  names : List (String × Nat)
  places : List (Nat × Nat)

namespace Loading

/-- Nothing has been read. -/
def start : Loading := ⟨[], 0, [], []⟩

/-- One more piece. -/
def push (x : Loading) (p : Piece) (m : Mark) : Loading :=
  { x with pieces := (p, m) :: x.pieces, count := x.count + 1 }

/-- One more piece, perhaps with an anchor. -/
def anchored (x : Loading) (anchor : Option String) (p : Piece) (m : Mark) : Loading :=
  match anchor with
  | none => x.push p m
  | some name =>
    let number := x.names.length
    { x with names := (name, number) :: x.names.filter (·.1 != name)
             places := (number, x.count) :: x.places }.push p m

/-- The document, with what comes after its pieces. -/
def stream (x : Loading) (broken : Option Break) (followed : Bool) : Stream :=
  let pieces := x.pieces.reverse
  ⟨pieces, x.count, x.places.map fun (number, before) => (number, pieces.drop before), broken, followed⟩

/-- The document read to its end. -/
def read (flaw : Option Flaw) : Loading → List (Event × Mark) → Stream
  | x, [] => x.stream (flaw.map .flaw) false
  | x, (e, m) :: es =>
    match e with
    | .streamEnd => (if x.count = 0 then x.push .nothing m else x).stream none false
    | .documentStart => read flaw x es
    | .documentEnd => x.stream none (es.head?.map (·.1) != some .streamEnd)
    | .aliased name =>
      match x.names.lookup name with
      | some number => read flaw (x.push (.aliased number) m) es
      | none => x.stream (some (.unknownAnchor m)) false
    | .scalar anchor tag content style => read flaw (x.anchored anchor (.scalar tag content style) m) es
    | .sequenceStart anchor tag => read flaw (x.anchored anchor (.sequenceStart tag) m) es
    | .sequenceEnd => read flaw (x.push .sequenceEnd m) es
    | .mappingStart anchor tag => read flaw (x.anchored anchor (.mappingStart tag) m) es
    | .mappingEnd => read flaw (x.push .mappingEnd m) es

end Loading

namespace Stream

/-- The first document of a text. -/
def ofText (text : String) : Stream :=
  let events := Events.ofText text
  Loading.start.read events.flaw events.events

/-- The text is YAML with one document. -/
def isSound (s : Stream) : Bool := s.broken.isNone && !s.followed

end Stream
end Yaml
end Retarget
