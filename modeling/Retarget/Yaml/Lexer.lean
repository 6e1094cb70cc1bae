/-
# Cutting a YAML text into tokens

Outside brackets the column of a token decides what it belongs to: a deeper column opens
a collection, a smaller one closes those that are deeper.

A key without the sign `?` is only known as a key once its colon has been read.  Until
then the token that might start it is a *candidate*; the colon puts a `key` before the
candidate, and perhaps the start of a mapping.  A candidate is given up at the end of its
line, or more than 1024 characters on.  One that stands where only a key can stand is
*needed*, and giving it up is an error.

Since a candidate may still turn out to be a key, a token is not *final* as long as it or
an earlier one is a candidate.  If the text has a flaw, the tokens that are not final when
it shows are lost.
-/

import Retarget.Yaml.Directive
import Retarget.Yaml.Scalar.Block
import Retarget.Yaml.Scalar.Plain
import Retarget.Yaml.Scalar.Quoted
import Retarget.Yaml.Tag

namespace Retarget
namespace Yaml

/-- A token that might start a key: its number, its place, and whether it has to. -/
structure Candidate where
  number : Nat
  mark : Mark
  needed : Bool
  deriving Repr

/-- A text cut into tokens up to some place.  `tokens` are listed last first.  `candidate`
belongs to the innermost pair of brackets and `outer` to those around it. -/
structure Lexer where
  cursor : Cursor
  tokens : List Token
  count : Nat
  indent : Int
  indents : List Int
  candidate : Option Candidate
  outer : List (Option Candidate)
  keyAllowed : Bool

namespace Lexer

/-- The start of a text. -/
def ofText (cs : List Char) : Lexer where
  cursor := .ofText cs
  tokens := [⟨.streamStart, .origin, .origin⟩]
  count := 1
  indent := -1
  indents := []
  candidate := none
  outer := []
  keyAllowed := true

/-- The cursor stands inside brackets. -/
def flow (x : Lexer) : Bool := !x.outer.isEmpty

/-- The place of the cursor. -/
def mark (x : Lexer) : Mark := x.cursor.mark

/-- The tokens that are final, in order. -/
def final (x : Lexer) : List Token :=
  let numbers := (x.candidate :: x.outer).filterMap fun k => k.map (·.number)
  x.tokens.reverse.take (numbers.foldl min x.count)

/-- One more token. -/
def push (x : Lexer) (t : Token) : Lexer := { x with tokens := t :: x.tokens, count := x.count + 1 }

/-- One more token, before the token of this number. -/
def insert (x : Lexer) (number : Nat) (t : Token) : Lexer :=
  let after := x.count - number
  { x with tokens := x.tokens.take after ++ t :: x.tokens.drop after, count := x.count + 1 }

/-- A token without extent where the cursor is. -/
def here (x : Lexer) (sign : Sign) : Token := ⟨sign, x.mark, x.mark⟩

/-- The candidate is too far away to be a key. -/
def isStale (m : Mark) (k : Candidate) : Bool :=
  k.mark.line < m.line || k.mark.column + 1024 < m.column

/-- The candidate, unless it is stale. -/
def fresh (m : Mark) : Option Candidate → Except Flaw (Option Candidate)
  | none => .ok none
  | some k =>
    if !isStale m k then .ok (some k)
    else if k.needed then flawedWhile .simpleKey k.mark .noKeyEnd m
    else .ok none

/-- Stale candidates are given up, the outermost first. -/
def dropStale (x : Lexer) : Except Flaw Lexer := do
  let outer ← x.outer.reverse.mapM (fresh x.mark)
  let candidate ← fresh x.mark x.candidate
  return { x with outer := outer.reverse, candidate }

/-- The candidate of the innermost brackets is given up. -/
def dropCandidate (x : Lexer) : Except Flaw Lexer :=
  match x.candidate with
  | some k =>
    if k.needed then flawedWhile .simpleKey k.mark .noKeyEnd x.mark
    else .ok { x with candidate := none }
  | none => .ok x

/-- The next token becomes the candidate, if a key may stand here. -/
def addCandidate (x : Lexer) : Except Flaw Lexer :=
  if x.keyAllowed then
    x.dropCandidate.map fun x =>
      { x with candidate := some ⟨x.count, x.mark, !x.flow && x.indent == x.mark.column⟩ }
  else .ok x

/-- A collection opens, if the column is deeper than the current one. -/
def deepen (x : Lexer) (column : Nat) (put : Lexer → Token → Lexer) (t : Token) : Lexer :=
  if !x.flow && x.indent < column then
    put { x with indent := column, indents := x.indent :: x.indents } t
  else x

/-- Collections deeper than the column close, each with the token. -/
def close (column : Int) (t : Token) : List Int → Lexer → Lexer
  | [], x => x
  | i :: is, x =>
    if column < x.indent then close column t is ({ x with indent := i, indents := is }.push t) else x

/-- Outside brackets, collections deeper than the column close. -/
def closeTo (x : Lexer) (column : Int) : Lexer :=
  if x.flow then x else close column (x.here .blockEnd) x.indents x

/-- One more token of so many characters, for which a key may or may not follow. -/
def sign (x : Lexer) (s : Sign) (width : Nat) (keyAllowed : Bool) : Lexer :=
  let c := x.cursor.right width
  { x.push ⟨s, x.mark, c.mark⟩ with cursor := c, keyAllowed }

/-- The cursor moved over blanks, comments and breaks to the next token, and whether a
key may stand there.  A tab may stand between tokens where no key may. -/
def toToken (flow : Bool) (comment allowed : Bool) (m : Mark) : List Char → Bool × Cursor
  | [] => (allowed, ⟨m, []⟩)
  | c :: cs =>
    if isBreak c then toToken flow false (allowed || !flow) m.down cs
    else if comment then toToken flow true allowed (m.right 1) cs
    else if m.column = 0 && c = '\ufeff' then toToken flow false allowed (m.right 1) cs
    else if c = ' ' || (c = '\t' && (flow || !allowed)) then toToken flow false allowed (m.right 1) cs
    else if c = '#' then toToken flow true allowed (m.right 1) cs
    else (allowed, ⟨m, c :: cs⟩)

/-- The cursor moved to the next token. -/
def advance (x : Lexer) : Lexer :=
  let (keyAllowed, cursor) := toToken x.flow false x.keyAllowed x.mark x.cursor.rest
  { x with keyAllowed, cursor }

/-- The end of the text. -/
def endStream (x : Lexer) : Except Flaw Lexer :=
  let m := if x.mark.column = 0 then x.mark else x.mark.down
  let x := ({ x with cursor := ⟨m, []⟩ }).closeTo (-1)
  x.dropCandidate.map fun x => { x.push (x.here .streamEnd) with keyAllowed := false }

/-- A directive. -/
def directive (x : Lexer) : Except Flaw Lexer := do
  let x ← (x.closeTo (-1)).dropCandidate
  let (s, stop, c) ← Directive.scan x.cursor
  return { x.push ⟨s, x.mark, stop⟩ with cursor := c, keyAllowed := false }

/-- The sign that a document starts or ends. -/
def documentMark (x : Lexer) (s : Sign) : Except Flaw Lexer :=
  (x.closeTo (-1)).dropCandidate.map fun x => x.sign s 3 false

/-- An opening bracket. -/
def openBracket (x : Lexer) (s : Sign) : Except Flaw Lexer :=
  x.addCandidate.map fun x =>
    { x with outer := x.candidate :: x.outer, candidate := none }.sign s 1 true

/-- A closing bracket. -/
def closeBracket (x : Lexer) (s : Sign) : Except Flaw Lexer :=
  x.dropCandidate.map fun x =>
    match x.outer with
    | [] => x.sign s 1 false
    | k :: outer => { x with outer, candidate := k }.sign s 1 false

/-- A comma inside brackets. -/
def flowEntry (x : Lexer) : Except Flaw Lexer := x.dropCandidate.map fun x => x.sign .flowEntry 1 true

/-- A dash before an item. -/
def blockEntry (x : Lexer) : Except Flaw Lexer :=
  if !x.flow && !x.keyAllowed then flawed .noBlockEntryHere x.mark
  else
    (x.deepen x.mark.column push (x.here .blockSequence)).dropCandidate.map fun x =>
      x.sign .blockEntry 1 true

/-- A question mark before a key. -/
def key (x : Lexer) : Except Flaw Lexer :=
  if !x.flow && !x.keyAllowed then flawed .noKeyHere x.mark
  else
    (x.deepen x.mark.column push (x.here .blockMapping)).dropCandidate.map fun x =>
      x.sign .key 1 (!x.flow)

/-- A colon: the candidate is a key, or a key with a question mark came before. -/
def value (x : Lexer) : Except Flaw Lexer :=
  match x.candidate with
  | some k =>
    let x := (x.insert k.number ⟨.key, k.mark, k.mark⟩).deepen k.mark.column (insert · k.number)
      ⟨.blockMapping, k.mark, k.mark⟩
    .ok ({ x with candidate := none }.sign .value 1 false)
  | none =>
    if !x.flow && !x.keyAllowed then flawed .noValueHere x.mark
    else
      let x := x.deepen x.mark.column push (x.here .blockMapping)
      .ok (x.sign .value 1 (!x.flow))

/-- A token that may start a key and after which no key may stand. -/
def word (x : Lexer) (read : Except Flaw (Sign × Cursor)) : Except Flaw Lexer := do
  let x ← x.addCandidate
  let (s, c) ← read
  return { x.push ⟨s, x.mark, c.mark⟩ with cursor := c, keyAllowed := false }

/-- A scalar in a block of its own. -/
def blockScalar (x : Lexer) (literal : Bool) : Except Flaw Lexer := do
  let x ← x.dropCandidate
  let (content, c) ← Block.scan literal x.indent x.cursor
  let s := Sign.scalar (String.ofList content) (if literal then .literal else .folded)
  return { x.push ⟨s, x.mark, c.mark⟩ with cursor := c, keyAllowed := true }

/-- A quoted scalar. -/
def quoted (x : Lexer) (quote : Quoted.Quote) (style : Style) : Except Flaw Lexer :=
  x.word ((Quoted.scan quote x.cursor).map fun (content, c) =>
    (.scalar (String.ofList content) style, c))

/-- A plain scalar; a key may follow it if it ended with a line break. -/
def plain (x : Lexer) : Except Flaw Lexer := do
  let x ← x.addCandidate
  let read ← Plain.scan x.flow (x.indent + 1).toNat x.cursor
  return { x.push ⟨.scalar (String.ofList read.content) .plain, x.mark, read.after.mark⟩ with
    cursor := read.after, keyAllowed := read.broken }

/-- The character may not start a plain scalar, except where a rule of its own lets it. -/
def isIndicator (c : Char) : Bool :=
  ['-', '?', ':', ',', '[', ']', '\x7b', '\x7d', '#', '&', '*', '!', '|', '>', '\'', '"', '%', '@',
    '\x60'].contains c

/-- A plain scalar may start here. -/
def startsPlain (flow : Bool) (c : Char) (next : List Char) : Bool :=
  (!isGap c && !isIndicator c) || (c = '-' && !(next.head?.map isBlank).getD false) ||
    (!flow && (c = '?' || c = ':') && !atGap next)

/-- The token at the cursor, which starts with `c`. -/
def token (x : Lexer) (c : Char) (next : List Char) : Except Flaw Lexer :=
  if x.mark.column = 0 && c = '%' then x.directive
  else if x.cursor.atMark '-' then x.documentMark .documentStart
  else if x.cursor.atMark '.' then x.documentMark .documentEnd
  else if c = '[' then x.openBracket .flowSequence
  else if c = '\x7b' then x.openBracket .flowMapping
  else if c = ']' then x.closeBracket .flowSequenceEnd
  else if c = '\x7d' then x.closeBracket .flowMappingEnd
  else if c = ',' then x.flowEntry
  else if c = '-' && atGap next then x.blockEntry
  else if c = '?' && (x.flow || atGap next) then x.key
  else if c = ':' && (x.flow || atGap next) then x.value
  else if c = '*' then x.word ((Tag.anchorName .aliased x.cursor).map fun (name, c) => (.aliased name, c))
  else if c = '&' then x.word ((Tag.anchorName .anchor x.cursor).map fun (name, c) => (.anchor name, c))
  else if c = '!' then x.word (Tag.scan x.flow x.cursor)
  else if c = '|' && !x.flow then x.blockScalar true
  else if c = '>' && !x.flow then x.blockScalar false
  else if c = '\'' then x.quoted .single .singleQuoted
  else if c = '"' then x.quoted .double .doubleQuoted
  else if startsPlain x.flow c next then x.plain
  else flawedWhile .nextToken x.mark .noToken x.mark

/-- The text cut one token further.  A candidate may be too far away already before the
token, or only after it. -/
def step (x : Lexer) : Except Flaw Lexer := do
  let x ← x.advance.dropStale
  let x := x.closeTo x.mark.column
  let x ← match x.cursor.rest with
    | [] => x.endStream
    | c :: next => x.token c next
  x.dropStale

/-- The whole text has been cut. -/
def isDone (x : Lexer) : Bool := (x.tokens.head?.map (·.sign)) == some .streamEnd

end Lexer

/-- The tokens of a text, up to its first flaw if it has one. -/
structure Tokens where
  tokens : List Token
  flaw : Option Flaw

/-- The text cut token by token. -/
def Lexer.run : (fuel : Nat) → Lexer → Tokens
  | 0, x => ⟨x.tokens.reverse, none⟩
  | fuel + 1, x =>
    match x.step with
    | .error f => ⟨x.final, some f⟩
    | .ok x => if x.isDone then ⟨x.tokens.reverse, none⟩ else x.run fuel

/-- The tokens of a text.  One that holds a character that is not allowed has none. -/
def Tokens.ofText (cs : List Char) : Tokens :=
  match forbidden? 0 cs with
  | some n => ⟨[], some ⟨.controlCharacter, .offset n, none⟩⟩
  | none =>
    let cs := unify cs
    (Lexer.ofText cs).run (cs.length + 2)

end Yaml
end Retarget
