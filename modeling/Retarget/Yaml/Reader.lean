/-
# Reading YAML

`Yaml.read shape text` reads the document of a text as a value of the shape.  Sequences
and mappings may nest 128 levels deep, and aliases may be followed a hundred times as
often as the document has pieces.

Where a text is expected any scalar will do, with its own characters; where a value has
to be buffered a scalar is resolved first.  An empty plain scalar is an empty list or a
record without members where one of these is expected.  Records are mappings; an unknown
member is passed over without following aliases.

A mismatch is placed at the value where it shows.  One that is about several members of a
collection is placed at the start of the collection.
-/

import Retarget.Data.Shape
import Retarget.Yaml.Fault
import Retarget.Yaml.Scalar.Resolve
import Retarget.Yaml.Stream

namespace Retarget
namespace Yaml

/-- How many levels of sequences and mappings there may be. -/
def depthLimit : Nat := 128

/-- What is left of a document, and how often aliases have been followed. -/
structure Ahead where
  rest : Pieces
  jumps : Nat

/-- A value read from the front of what is left, with what is left after it. -/
abbrev Reading (α : Type) := Except Fault (α × Ahead)

/-- A mismatch that has a place. -/
def misfit {α : Type} (x : Mismatch) (m : Mark) (path : Path) : Except Fault α :=
  .error (.mismatch x (some (m, path)))

/-- A mismatch that has no place yet. -/
def loose {α : Type} (x : Mismatch) : Except Fault α := .error (.mismatch x none)

/-- The reading with a mismatch that has no place yet placed. -/
def placing {α : Type} (m : Mark) (path : Path) (r : Except Fault α) : Except Fault α :=
  match r with
  | .ok x => .ok x
  | .error e => .error (e.placed m path)

/-- The next piece, its place, and what is left behind it. -/
def take (s : Stream) (a : Ahead) : Except Fault (Piece × Mark × Ahead) :=
  match a.rest, s.broken with
  | (p, m) :: rest, _ => .ok (p, m, ⟨rest, a.jumps⟩)
  | [], some (.flaw f) => .error (.flaw f)
  | [], some (.unknownAnchor m) => .error (.unknownAnchor m)
  | [], none => .error .endOfText

/-- The first piece of a value, after an alias has been followed: the piece, its place and
path, and what is left before and behind it; for an alias also its own place, and what is
left behind that. -/
structure Opened where
  piece : Piece
  mark : Mark
  path : Path
  before : Ahead
  inner : Ahead
  outer : Option (Mark × Pieces)

/-- What is left after the value that was opened. -/
def Opened.back (o : Opened) (a : Ahead) : Ahead :=
  match o.outer with
  | none => a
  | some (_, rest) => ⟨rest, a.jumps⟩

/-- The next value, which may be an alias. -/
def opened (s : Stream) (path : Path) (a : Ahead) : Except Fault Opened := do
  let (p, m, b) ← take s a
  match p with
  | .aliased number =>
    let jumps := a.jumps + 1
    if 100 * s.count < jumps then throw .tooManyAliases
    let before : Ahead := ⟨(s.anchors.lookup number).getD [], jumps⟩
    let (p, n, c) ← take s before
    return ⟨p, n, .aliased path, before, c, some (m, b.rest)⟩
  | _ => return ⟨p, m, path, a, b, none⟩

/-- What is left after a value, while so many collections of it are open. -/
def skipPieces (s : Stream) (jumps : Nat) : (openings : Nat) → Pieces → Except Fault Ahead
  | _, [] => (take s ⟨[], jumps⟩).map fun (_, _, b) => b
  | openings, (p, _) :: rest =>
    let now := match p with
      | .sequenceStart _ | .mappingStart _ => openings + 1
      | .sequenceEnd | .mappingEnd => openings - 1
      | _ => openings
    if now = 0 then .ok ⟨rest, jumps⟩ else skipPieces s jumps now rest

/-- The items of a sequence, each read by `item`, up to the end of the sequence. -/
def items {α : Type} (s : Stream) (path : Path) (item : Path → Ahead → Reading α) :
    (fuel : Nat) → (read : List α) → (place : Nat) → Ahead → Except Fault (List α × Ahead)
  | 0, _, _, _ => .error .endOfText
  | fuel + 1, read, place, a => do
    let (p, _, b) ← take s a
    if p = .sequenceEnd then return (read.reverse, b)
    else
      let (x, a) ← item (path.item place) a
      items s path item fuel (x :: read) (place + 1) a

/-- The path of a member, by the first piece of its key. -/
def memberPath (path : Path) (key : Piece) : Path :=
  match key with
  | .scalar _ content _ => path.member content
  | _ => path.strange

/-- The members of a mapping, each read by `member` from its key on, up to the end of the
mapping. -/
def members {σ : Type} (s : Stream) (path : Path) (member : σ → (valuePath : Path) → Ahead → Reading σ) :
    (fuel : Nat) → σ → Ahead → Except Fault (σ × Ahead)
  | 0, _, _ => .error .endOfText
  | fuel + 1, read, a => do
    let (p, _, b) ← take s a
    if p = .mappingEnd then return (read, b)
    else
      let (read, a) ← member read (memberPath path p) a
      members s path member fuel read a

/-- The size of a document, which bounds the length of its collections. -/
def Stream.size (s : Stream) : Nat := s.count + 1

/-- A value of whatever kind. -/
def value (s : Stream) : (levels : Nat) → Path → Ahead → Except Fault (Value × Ahead)
  | levels, path, a => do
    let o ← opened s path a
    match o.piece with
    | .scalar tag content style =>
      if (Resolve.ownTag? tag).isSome then misfit .taggedAlternative o.mark o.path
      else
        match (Resolve.scalar tag content style).bind Meaning.value with
        | .error x => misfit x o.mark o.path
        | .ok v => return (v, o.back o.inner)
    | .sequenceStart tag =>
      if (Resolve.ownTag? tag).isSome then misfit .taggedAlternative o.mark o.path
      else
        match levels with
        | 0 => .error (.tooDeep o.mark)
        | levels + 1 =>
          let (vs, b) ← items s o.path (value s levels) s.size [] 0 o.inner
          return (.list vs, o.back b)
    | .mappingStart tag =>
      if (Resolve.ownTag? tag).isSome then misfit .taggedAlternative o.mark o.path
      else
        match levels with
        | 0 => .error (.tooDeep o.mark)
        | levels + 1 =>
          let member (read : List (Value × Value)) (valuePath : Path) (a : Ahead) :
              Except Fault (List (Value × Value) × Ahead) := do
            let (k, a) ← value s levels o.path a
            let (v, a) ← value s levels valuePath a
            return ((k, v) :: read, a)
          let (ms, b) ← members s o.path member s.size [] o.inner
          return (.map ms.reverse, o.back b)
    | _ => return (.null, o.back o.inner)

/-- The value that was opened is of the wrong kind. -/
def wrongKind {α : Type} (expected : String) (o : Opened) : Except Fault α :=
  match o.piece with
  | .scalar tag content style =>
    match Resolve.scalar tag content style with
    | .ok meaning => misfit (.wrongType meaning.found expected) o.mark o.path
    | .error x => misfit x o.mark o.path
  | .sequenceStart _ => misfit (.wrongType .list expected) o.mark o.path
  | .mappingStart _ => misfit (.wrongType .map expected) o.mark o.path
  | _ => .error .endOfText

/-- The characters of a scalar. -/
def textValue (s : Stream) (expected : String) (path : Path) (a : Ahead) :
    Except Fault ((String × Opened) × Ahead) := do
  let o ← opened s path a
  match o.piece with
  | .scalar _ content _ => return ((content, o), o.back o.inner)
  | _ => wrongKind expected o

/-- A flag: a plain scalar, or a literal one with the tag of a flag. -/
def flagValue (s : Stream) (path : Path) (a : Ahead) : Except Fault (Bool × Ahead) := do
  let o ← opened s path a
  match o.piece with
  | .scalar tag content style =>
    let plain := style = .plain || (style = .literal && tag = some (Resolve.standardTag "bool"))
    match (if plain then Resolve.flag? content else none) with
    | some b => return (b, o.back o.inner)
    | none => wrongKind Shape.flag.expectation o
  | _ => wrongKind Shape.flag.expectation o

/-- The scalar has nothing in it. -/
def isEmptyPlain (content : String) (style : Style) : Bool := content.isEmpty && style = .plain

/-- The value that was opened has no members: an empty text, or an empty plain scalar. -/
def isVoid (p : Piece) : Bool :=
  match p with
  | .nothing => true
  | .scalar _ content style => isEmptyPlain content style
  | _ => false

/-- The value that was opened stands for null, where null may stand. -/
def isNullPiece (p : Piece) : Except Fault Bool :=
  match p with
  | .nothing => .ok true
  | .scalar tag content style =>
    if style ≠ .plain then .ok false
    else
      match tag with
      | some t =>
        if t = Resolve.standardTag "null" then
          if Resolve.isNull content then .ok true else loose (.wrongValue (.text content) "null")
        else .ok false
      | none => .ok (content.isEmpty || Resolve.isNull content)
  | _ => .ok false

/-- Nothing but null may follow the tag that names a choice. -/
def nullAfterTag (o : Opened) : Reading Unit :=
  match o.piece with
  | .scalar _ content style =>
    if style = .plain && (content.isEmpty || Resolve.isNull content) then .ok ((), o.back o.inner)
    else misfit (.wrongValue (.text content) "null") o.mark o.path
  | _ => wrongKind "unit" o

/-- A choice: its name as a scalar, or as a tag before null. -/
def choiceValue {α : Type} (s : Stream) (choices : List (String × α)) (path : Path) (a : Ahead) :
    Except Fault (α × Ahead) := do
  let o ← opened s path a
  let tagged (tag : Option Octets) (otherwise : Reading α) : Reading α :=
    match Resolve.ownTag? tag with
    | none => otherwise
    | some name =>
      match chosen choices name with
      | .error x =>
        match o.outer with
        | some (m, _) => misfit x m path
        | none => loose x
      | .ok x => (nullAfterTag o).map fun (_, a) => (x, a)
  match o.piece with
  | .scalar tag content _ =>
    tagged tag
      (match chosen choices content with
      | .error x => misfit x o.mark o.path
      | .ok x => .ok (x, o.back o.inner))
  | .sequenceStart tag =>
    tagged tag (misfit (.wrongType .list "a YAML tag starting with '!'") o.mark o.path)
  | .mappingStart tag =>
    tagged tag (misfit (.wrongType .map "a YAML tag starting with '!'") o.mark o.path)
  | _ => .error .endOfText

/-- A member put into the first slot, unless the slot is taken. -/
def fillFirst {α σ : Type} (name : String) (slots : Option α × σ) (read : Ahead → Reading α) (a : Ahead) :
    Reading (Option α × σ) :=
  match slots.1 with
  | some _ => loose (.repeated name)
  | none => (read a).map fun (x, a) => ((some x, slots.2), a)

/-- A change to the later slots. -/
def under {α σ : Type} (slot : Option α) : Option (Reading σ) → Option (Reading (Option α × σ))
  | none => none
  | some r => some (r.map fun (slots, a) => ((slot, slots), a))

mutual

/-- A value of the shape. -/
def Shape.read (s : Stream) : {α : Type} → Shape α → (levels : Nat) → Path → Ahead → Reading α
  | _, .text, _, path, a => (textValue s Shape.text.expectation path a).map fun ((t, _), a) => (t, a)
  | _, .flag, _, path, a => flagValue s path a
  | _, .choice _ choices, _, path, a => choiceValue s choices path a
  | _, .made shape make, levels, path, a =>
    (Shape.read s shape levels path a).map fun (x, a) => (make x, a)
  | _, .buffered title ofValue?, levels, path, a =>
    match value s levels path a with
    | .error e => .error e
    | .ok (v, a) =>
      match ofValue? v with
      | some x => .ok (x, a)
      | none => loose (.noAlternative title)
  | _, .nullable shape, levels, path, a =>
    match opened s path a with
    | .error e => .error e
    | .ok o =>
      match isNullPiece o.piece with
      | .error e => .error e
      | .ok true => .ok (none, o.back o.inner)
      | .ok false => (Shape.read s shape levels o.path o.before).map fun (x, a) => (some x, o.back a)
  | _, .list item, levels, path, a =>
    match opened s path a with
    | .error e => .error e
    | .ok o =>
      match o.piece with
      | .sequenceStart _ =>
        match levels with
        | 0 => .error (.tooDeep o.mark)
        | levels + 1 =>
          (placing o.mark o.path (items s o.path (Shape.read s item levels) s.size [] 0 o.inner)).map
            fun (xs, a) => (xs, o.back a)
      | p => if isVoid p then .ok ([], o.back o.inner) else wrongKind "a sequence" o
  | _, .record title isClosed fields make, levels, path, a =>
    match opened s path a with
    | .error e => .error e
    | .ok o =>
      let finished (read : Reading fields.Slots) : Reading _ :=
        placing o.mark o.path
          (match read with
          | .error e => .error e
          | .ok (slots, a) =>
            match fields.finish slots with
            | .ok x => .ok (make x, o.back a)
            | .error x => loose x)
      match o.piece with
      | .mappingStart _ =>
        match levels with
        | 0 => .error (.tooDeep o.mark)
        | levels + 1 =>
          let member (slots : fields.Slots) (valuePath : Path) (a : Ahead) : Reading fields.Slots :=
            match textValue s "field identifier" o.path a with
            | .error e => .error e
            | .ok ((key, k), a) =>
              match Fields.put s fields key slots levels valuePath a with
              | some r => r
              | none =>
                if isClosed then misfit (.unknownMember key fields.keys) k.mark k.path
                else (skipPieces s a.jumps 0 a.rest).map ((slots, ·))
          finished (members s o.path member s.size fields.blank o.inner)
      | p =>
        if isVoid p then finished (.ok (fields.blank, o.inner)) else wrongKind ("struct " ++ title) o

/-- The slots after the member of this name, whose value comes next; nothing if no member
has the name. -/
def Fields.put (s : Stream) : {σ : Type} → (fields : Fields σ) → (key : String) → fields.Slots →
    (levels : Nat) → Path → Ahead → Option (Reading fields.Slots)
  | _, .done, _, _, _, _, _ => none
  | _, .required name shape rest, key, slots, levels, path, a =>
    if key = name then some (fillFirst name slots (Shape.read s shape levels path) a)
    else under slots.1 (Fields.put s rest key slots.2 levels path a)
  | _, .defaulted name shape _ rest, key, slots, levels, path, a =>
    if key = name then some (fillFirst name slots (Shape.read s shape levels path) a)
    else under slots.1 (Fields.put s rest key slots.2 levels path a)

end

/-- The document of a text as a value of the shape. -/
def Stream.read {α : Type} (s : Stream) (shape : Shape α) : Except Fault α :=
  match Shape.read s shape depthLimit .root ⟨s.pieces, 0⟩ with
  | .error e => .error e
  | .ok (x, _) =>
    match s.broken with
    | some (.flaw f) => .error (.flaw f)
    | some (.unknownAnchor m) => .error (.unknownAnchor m)
    | none => if s.followed then .error .severalDocuments else .ok x

/-- The whole text as a value of the shape. -/
def read {α : Type} (shape : Shape α) (text : String) : Except Fault α := (Stream.ofText text).read shape

/-- The text is YAML with one document, whatever it holds. -/
def isSound (text : String) : Bool := (Stream.ofText text).isSound

end Yaml
end Retarget
