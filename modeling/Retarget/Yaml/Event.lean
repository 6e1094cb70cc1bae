/-
# The structure of a YAML text

The tokens of a text are read as a sequence of events: documents, sequences and mappings
begin and end, with scalars and aliases between.  In a mapping keys and values alternate;
where the text leaves one out there is an empty plain scalar.

The reader of events is a pushdown automaton.  Its state says what comes next and, for a
collection, where that began; the states to return to lie on a stack.
-/

import Retarget.Yaml.Lexer

namespace Retarget
namespace Yaml

/-- A piece of the structure of a text. -/
inductive Event where
  | streamEnd
  | documentStart
  | documentEnd
  | aliased (name : String)
  | scalar (anchor : Option String) (tag : Option Octets) (content : String) (style : Style)
  | sequenceStart (anchor : Option String) (tag : Option Octets)
  | sequenceEnd
  | mappingStart (anchor : Option String) (tag : Option Octets)
  | mappingEnd
  deriving DecidableEq, Repr, Inhabited

/-- What comes next; `start` is where the collection around it began. -/
inductive Next where
  | document (implicit : Bool)
  | content
  | documentEnd
  | blockNode
  | blockEntry (start : Mark)
  | bareEntry
  | blockKey (start : Mark)
  | blockValue (start : Mark)
  | flowEntry (start : Mark) (first : Bool)
  | pairKey (start : Mark)
  | pairValue (start : Mark)
  | pairEnd (start : Mark)
  | flowKey (start : Mark) (first : Bool)
  | flowValue (start : Mark) (empty : Bool)
  deriving DecidableEq, Repr

/-- A reader of events: the tokens that are left, the flaw behind them, what comes next,
what comes after that, and what the tag handles stand for. -/
structure EventReader where
  tokens : List Token
  flaw : Option Flaw
  next : Next
  stack : List Next
  handles : List (String × Octets)

/-- An event, the place where it begins, and the reader after it. -/
abbrev Stepped := Except Flaw (Event × Mark × EventReader)

namespace EventReader

/-- The handles that are known without a directive. -/
def standardHandles : List (String × Octets) := [("!", octets "!"), ("!!", octets "tag:yaml.org,2002:")]

/-- The next token. -/
def peek (r : EventReader) : Except Flaw Token :=
  match r.tokens, r.flaw with
  | t :: _, _ => .ok t
  | [], some f => .error f
  | [], none => flawed .noNode .origin

/-- The reader behind the next token. -/
def skip (r : EventReader) : EventReader := { r with tokens := r.tokens.tail }

/-- The reader for which something else comes next. -/
def expecting (r : EventReader) (next : Next) : EventReader := { r with next }

/-- The reader that returns to what is on top of the stack. -/
def back (r : EventReader) : EventReader :=
  match r.stack with
  | [] => r
  | next :: stack => { r with next, stack }

/-- The reader that returns to a state later. -/
def saving (r : EventReader) (later : Next) : EventReader := { r with stack := later :: r.stack }

/-- An empty scalar in the place of one that was left out. -/
def empty (r : EventReader) (m : Mark) (next : Next) : Stepped :=
  .ok (.scalar none none "" .plain, m, r.expecting next)

/-- The anchor and the tag before a node, and where the node begins. -/
structure Properties where
  anchor : Option String
  tag : Option (String × Octets × Mark)
  start : Mark

/-- The properties of a node, in either order, with the reader behind them. -/
def properties (r : EventReader) (t : Token) : Except Flaw (Properties × EventReader) := do
  match t.sign with
  | .anchor name =>
    let r := r.skip
    let u ← r.peek
    match u.sign with
    | .tag handle suffix => return (⟨some name, some (handle, suffix, u.start), t.start⟩, r.skip)
    | _ => return (⟨some name, none, t.start⟩, r)
  | .tag handle suffix =>
    let r := r.skip
    let u ← r.peek
    match u.sign with
    | .anchor name => return (⟨some name, some (handle, suffix, t.start), t.start⟩, r.skip)
    | _ => return (⟨none, some (handle, suffix, t.start), t.start⟩, r)
  | _ => return (⟨none, none, t.start⟩, r)

/-- The tag in full. -/
def fullTag (r : EventReader) (p : Properties) : Except Flaw (Option Octets) :=
  match p.tag with
  | none => .ok none
  | some (handle, suffix, m) =>
    if handle = "" then .ok (some suffix)
    else
      match r.handles.lookup handle with
      | some start => .ok (some (start ++ suffix))
      | none => flawedWhile .node p.start .unknownTagHandle m

/-- A node.  Outside brackets it may be a block collection; a sequence without
indentation of its own is allowed in a mapping only. -/
def node (r : EventReader) (block bare : Bool) : Stepped := do
  let t ← r.peek
  match t.sign with
  | .aliased name => return (.aliased name, t.start, r.skip.back)
  | _ =>
    let (p, r) ← r.properties t
    let t ← r.peek
    let tag ← r.fullTag p
    match t.sign, block with
    | .scalar content style, _ =>
      return (.scalar p.anchor (if tag = some (octets "!") then none else tag) content style, p.start,
        r.skip.back)
    | .flowSequence, _ =>
      return (.sequenceStart p.anchor tag, p.start, r.skip.expecting (.flowEntry t.start true))
    | .flowMapping, _ =>
      return (.mappingStart p.anchor tag, p.start, r.skip.expecting (.flowKey t.start true))
    | .blockSequence, true =>
      return (.sequenceStart p.anchor tag, p.start, r.skip.expecting (.blockEntry t.start))
    | .blockMapping, true =>
      return (.mappingStart p.anchor tag, p.start, r.skip.expecting (.blockKey t.start))
    | sign, _ =>
      if bare && sign = .blockEntry then
        return (.sequenceStart p.anchor tag, p.start, r.expecting .bareEntry)
      else if p.anchor.isSome || tag.isSome then
        return (.scalar p.anchor tag "" .plain, p.start, r.back)
      else flawedWhile (if block then .blockNode else .flowNode) p.start .noNode t.start

/-- The directives before a document, with the tokens behind them; `seen` tells whether
there was a version and which handles there were. -/
def directives (version : Bool) (seen : List (String × Octets)) :
    List Token → Except Flaw (List (String × Octets) × List Token)
  | [] => .ok (seen, [])
  | t :: ts =>
    match t.sign with
    | .version major minor =>
      if version then flawed .repeatedVersion t.start
      else if major = 1 && (minor = 1 || minor = 2) then directives true seen ts
      else flawed .otherVersion t.start
    | .tagHandle handle start =>
      if (seen.lookup handle).isSome then flawed .repeatedTag t.start
      else directives version (seen ++ [(handle, start)]) ts
    | _ => .ok (seen, t :: ts)

/-- The tokens behind the signs that a document has ended. -/
def afterDocumentEnds (ts : List Token) : List Token := ts.dropWhile (·.sign == .documentEnd)

/-- The next document, or the end of the text.  A document without a sign at its start may
only be the first one. -/
def document (r : EventReader) (implicit : Bool) : Stepped := do
  let r := if implicit then r else { r with tokens := afterDocumentEnds r.tokens }
  let t ← r.peek
  match t.sign with
  | .streamEnd => return (.streamEnd, t.start, r.skip)
  | sign =>
    let explicit := match sign with
      | .version _ _ | .tagHandle _ _ | .documentStart => true
      | _ => !implicit
    if explicit then
      let (seen, tokens) ← directives false [] r.tokens
      let r := { r with tokens, handles := seen ++ standardHandles }
      let u ← r.peek
      if u.sign = .documentStart then
        return (.documentStart, t.start, (r.skip.saving .documentEnd).expecting .content)
      else flawed .noDocumentStart u.start
    else
      return (.documentStart, t.start,
        ({ r with handles := standardHandles }.saving .documentEnd).expecting .blockNode)

/-- The content of a document after its start; it may be left out. -/
def content (r : EventReader) : Stepped := do
  let t ← r.peek
  match t.sign with
  | .version _ _ | .tagHandle _ _ | .documentStart | .documentEnd | .streamEnd =>
    let r := r.back
    r.empty t.start r.next
  | _ => r.node true false

/-- The end of a document. -/
def documentEnd (r : EventReader) : Stepped := do
  let t ← r.peek
  let r := if t.sign = .documentEnd then r.skip else r
  return (.documentEnd, t.start, r.expecting (.document false))

/-- An item of a block sequence, or its end. -/
def blockEntry (r : EventReader) (start : Mark) : Stepped := do
  let t ← r.peek
  match t.sign with
  | .blockEntry =>
    let r := r.skip
    let u ← r.peek
    match u.sign with
    | .blockEntry | .blockEnd => r.empty t.stop (.blockEntry start)
    | _ => (r.saving (.blockEntry start)).node true false
  | .blockEnd => return (.sequenceEnd, t.start, r.skip.back)
  | _ => flawedWhile .blockCollection start .noEntry t.start

/-- An item of a sequence without indentation of its own, or its end. -/
def bareEntry (r : EventReader) : Stepped := do
  let t ← r.peek
  match t.sign with
  | .blockEntry =>
    let r := r.skip
    let u ← r.peek
    match u.sign with
    | .blockEntry | .key | .value | .blockEnd => r.empty t.stop .bareEntry
    | _ => (r.saving .bareEntry).node true false
  | _ => return (.sequenceEnd, t.start, r.back)

/-- What stands after a sign of a block mapping, if anything does, and then `later`. -/
def blockPart (r : EventReader) (m : Mark) (later : Next) : Stepped := do
  let u ← r.peek
  match u.sign with
  | .key | .value | .blockEnd => r.empty m later
  | _ => (r.saving later).node true true

/-- A key of a block mapping, or its end. -/
def blockKey (r : EventReader) (start : Mark) : Stepped := do
  let t ← r.peek
  match t.sign with
  | .key => r.skip.blockPart t.stop (.blockValue start)
  | .blockEnd => return (.mappingEnd, t.start, r.skip.back)
  | _ => flawedWhile .blockMapping start .noKey t.start

/-- A value of a block mapping. -/
def blockValue (r : EventReader) (start : Mark) : Stepped := do
  let t ← r.peek
  match t.sign with
  | .value => r.skip.blockPart t.stop (.blockKey start)
  | _ => r.empty t.start (.blockKey start)

/-- The reader behind the comma that has to stand before every entry but the first. -/
def afterComma (r : EventReader) (context : Context) (start : Mark) (ending : Sign) (problem : Problem)
    (first : Bool) : Except Flaw EventReader := do
  let t ← r.peek
  if first || t.sign = ending then return r
  else if t.sign = .flowEntry then return r.skip
  else flawedWhile context start problem t.start

/-- An entry of a sequence in brackets, or its end.  A key makes the entry a mapping of
one pair. -/
def flowEntry (r : EventReader) (start : Mark) (first : Bool) : Stepped := do
  let r ← r.afterComma .flowSequence start .flowSequenceEnd .noSequenceEnd first
  let t ← r.peek
  match t.sign with
  | .flowSequenceEnd => return (.sequenceEnd, t.start, r.skip.back)
  | .key => return (.mappingStart none none, t.start, r.skip.expecting (.pairKey start))
  | _ => (r.saving (.flowEntry start false)).node false false

/-- The key of a pair in a sequence.  Where there is none, the token after it is passed
over. -/
def pairKey (r : EventReader) (start : Mark) : Stepped := do
  let t ← r.peek
  match t.sign with
  | .value | .flowEntry | .flowSequenceEnd => r.skip.empty t.stop (.pairValue start)
  | _ => (r.saving (.pairValue start)).node false false

/-- The value of a pair in a sequence. -/
def pairValue (r : EventReader) (start : Mark) : Stepped := do
  let t ← r.peek
  match t.sign with
  | .value =>
    let r := r.skip
    let u ← r.peek
    match u.sign with
    | .flowEntry | .flowSequenceEnd => r.empty u.start (.pairEnd start)
    | _ => (r.saving (.pairEnd start)).node false false
  | _ => r.empty t.start (.pairEnd start)

/-- The end of a pair in a sequence. -/
def pairEnd (r : EventReader) (start : Mark) : Stepped := do
  let t ← r.peek
  return (.mappingEnd, t.start, r.expecting (.flowEntry start false))

/-- A key of a mapping in brackets, or its end.  A node without a colon is a key without a
value. -/
def flowKey (r : EventReader) (start : Mark) (first : Bool) : Stepped := do
  let r ← r.afterComma .flowMapping start .flowMappingEnd .noMappingEnd first
  let t ← r.peek
  match t.sign with
  | .flowMappingEnd => return (.mappingEnd, t.start, r.skip.back)
  | .key =>
    let r := r.skip
    let u ← r.peek
    match u.sign with
    | .value | .flowEntry | .flowMappingEnd => r.empty u.start (.flowValue start false)
    | _ => (r.saving (.flowValue start false)).node false false
  | _ => (r.saving (.flowValue start true)).node false false

/-- A value of a mapping in brackets. -/
def flowValue (r : EventReader) (start : Mark) (empty : Bool) : Stepped := do
  let t ← r.peek
  if empty then r.empty t.start (.flowKey start false)
  else
    match t.sign with
    | .value =>
      let r := r.skip
      let u ← r.peek
      match u.sign with
      | .flowEntry | .flowMappingEnd => r.empty u.start (.flowKey start false)
      | _ => (r.saving (.flowKey start false)).node false false
    | _ => r.empty t.start (.flowKey start false)

/-- The next event. -/
def step (r : EventReader) : Stepped :=
  match r.next with
  | .document implicit => r.document implicit
  | .content => r.content
  | .documentEnd => r.documentEnd
  | .blockNode => r.node true false
  | .blockEntry start => r.blockEntry start
  | .bareEntry => r.bareEntry
  | .blockKey start => r.blockKey start
  | .blockValue start => r.blockValue start
  | .flowEntry start first => r.flowEntry start first
  | .pairKey start => r.pairKey start
  | .pairValue start => r.pairValue start
  | .pairEnd start => r.pairEnd start
  | .flowKey start first => r.flowKey start first
  | .flowValue start empty => r.flowValue start empty

/-- The reader at the start of a text. -/
def ofTokens (ts : Tokens) : EventReader := ⟨ts.tokens.drop 1, ts.flaw, .document true, [], []⟩

end EventReader

/-- The events of a text with their places, up to its first flaw if it has one. -/
structure Events where
  events : List (Event × Mark)
  flaw : Option Flaw

/-- Events read one after the other; `read` holds those so far, last first. -/
def EventReader.run : (fuel : Nat) → (read : List (Event × Mark)) → EventReader → Events
  | 0, read, _ => ⟨read.reverse, none⟩
  | fuel + 1, read, r =>
    match r.step with
    | .error f => ⟨read.reverse, some f⟩
    | .ok (.streamEnd, m, _) => ⟨((.streamEnd, m) :: read).reverse, none⟩
    | .ok (event, m, r) => r.run fuel ((event, m) :: read)

/-- The events of a text.  No more than eight events lie between two tokens. -/
def Events.ofText (text : String) : Events :=
  let ts := Tokens.ofText text.toList
  (EventReader.ofTokens ts).run (8 * ts.tokens.length + 8) []

end Yaml
end Retarget
