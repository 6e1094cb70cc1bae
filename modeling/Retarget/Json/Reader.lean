/-
# Reading JSON

`Json.read shape text` reads the whole text as a value of the shape.  Lists and objects
may nest 127 levels deep.  A record may be written as an object, or as a list of its
members in the order of their description.

A value that is not of the shape is described by its kind, and for that it is read to its
end if it is a text, a number or a word; so a broken text is reported before a mismatch.
-/

import Retarget.Data.Shape
import Retarget.Json.Number
import Retarget.Json.Skip
import Retarget.Json.Text
import Retarget.Json.Token

namespace Retarget
namespace Json

/-- How many levels of lists and objects there may be. -/
def depthLimit : Nat := 127

/-- The inside of a bracket read with one level less; the text starts after the bracket. -/
def inside {α : Type} (levels : Nat) (read : Nat → Reading α) (rest : List Char) : Reading α :=
  match levels with
  | 0 => fail .tooDeep rest
  | levels + 1 => read levels

/-- A value of whatever kind. -/
def value (fuel : Nat) : (levels : Nat) → List Char → Reading Value
  | levels, cs =>
    match skipBlank cs with
    | [] => fail .endInValue []
    | c :: rest =>
      if c = '"' then (text [] rest).map fun (s, rest) => (.text s, rest)
      else if c = 'n' then (word ['u', 'l', 'l'] rest).map ((.null, ·))
      else if c = 't' then (word ['r', 'u', 'e'] rest).map ((.flag true, ·))
      else if c = 'f' then (word ['a', 'l', 's', 'e'] rest).map ((.flag false, ·))
      else if c = '-' then number true rest
      else if c.isDigit then number false (c :: rest)
      else if c = '[' then
        match levels with
        | 0 => fail .tooDeep rest
        | levels + 1 =>
          (Bracket.list.closed (items (value fuel levels) fuel [] rest)).map
            fun (vs, rest) => (.list vs, rest)
      else if c = '\x7b' then
        match levels with
        | 0 => fail .tooDeep rest
        | levels + 1 =>
          let member (read : List (Value × Value)) (cs : List Char) : Reading (List (Value × Value)) :=
            match text [] cs with
            | .error e => .error e
            | .ok (key, cs) =>
              match colon cs with
              | .error e => .error e
              | .ok cs =>
                match value fuel levels cs with
                | .error e => .error e
                | .ok (v, cs) => .ok ((.text key, v) :: read, cs)
          (Bracket.object.closed (members member fuel true [] rest)).map
            fun (ms, rest) => (.map ms.reverse, rest)
      else stop .noValue (c :: rest)

/-- The kind of a scalar that was found. -/
def Found.ofScalar : Value → Found
  | .flag b => .flag b
  | .unsigned n => .integer n
  | .signed i => .integer i
  | .real x => .real x
  | .text s => .text s
  | .list _ => .list
  | .map _ => .map
  | .null => .nothing

/-- The value at the front of the text is of the wrong kind; the text does not start with
a blank. -/
def wrongKind {α : Type} (expected : String) : List Char → Except Fault α
  | [] => stop .noValue []
  | c :: rest =>
    if c = '[' then misfit (.wrongType .list expected) (c :: rest)
    else if c = '\x7b' then misfit (.wrongType .map expected) (c :: rest)
    else
      match value 0 0 (c :: rest) with
      | .error e => .error e
      | .ok (v, rest) => misfit (.wrongType (Found.ofScalar v) expected) rest

/-- A text, if the next value is one. -/
def textValue (expected : String) (cs : List Char) : Reading String :=
  match skipBlank cs with
  | [] => fail .endInValue []
  | c :: rest => if c = '"' then text [] rest else wrongKind expected (c :: rest)

/-- `true` or `false`, if the next value is one. -/
def flagValue (cs : List Char) : Reading Bool :=
  match skipBlank cs with
  | [] => fail .endInValue []
  | c :: rest =>
    if c = 't' then (word ['r', 'u', 'e'] rest).map ((true, ·))
    else if c = 'f' then (word ['a', 'l', 's', 'e'] rest).map ((false, ·))
    else wrongKind Shape.flag.expectation (c :: rest)

/-- `null`, if the next value is one. -/
def nullValue (cs : List Char) : Except Fault (List Char) :=
  match skipBlank cs with
  | [] => fail .endInValue []
  | c :: rest => if c = 'n' then word ['u', 'l', 'l'] rest else wrongKind "unit" (c :: rest)

/-- The choice named by the next text. -/
def choiceName {α : Type} (choices : List (String × α)) (cs : List Char) : Reading α :=
  match textValue "variant identifier" cs with
  | .error e => .error e
  | .ok (name, rest) =>
    match chosen choices name with
    | .ok x => .ok (x, rest)
    | .error m => misfit m rest

/-- A choice: its name, or an object whose only member has that name and holds `null`. -/
def choiceValue {α : Type} (levels : Nat) (choices : List (String × α)) (cs : List Char) : Reading α :=
  match skipBlank cs with
  | [] => fail .endInValue []
  | c :: rest =>
    if c = '"' then choiceName choices (c :: rest)
    else if c = '\x7b' then
      if levels = 0 then fail .tooDeep rest
      else
        match choiceName choices rest with
        | .error e => .error e
        | .ok (x, rest) =>
          match (colon rest).bind nullValue with
          | .error e => .error e
          | .ok rest =>
            match skipBlank rest with
            | [] => fail .endInObject []
            | c :: rest => if c = '\x7d' then .ok (x, rest) else fail .noValue (c :: rest)
    else stop .noValue (c :: rest)

/-- The value of a member, after its name. -/
def memberValue {α : Type} (read : List Char → Reading α) (cs : List Char) : Reading α :=
  (colon cs).bind read

/-- A member put into the first slot, unless the slot is taken; the text starts after the
member's name. -/
def fillFirst {α σ : Type} (name : String) (read : List Char → Reading α) (slots : Option α × σ)
    (cs : List Char) : Reading (Option α × σ) :=
  match slots.1 with
  | some _ => .error (.loose (.repeated name) cs)
  | none => (memberValue read cs).map fun (x, cs) => ((some x, slots.2), cs)

/-- A change to the later slots. -/
def under {α σ : Type} (slot : Option α) : Option (Reading σ) → Option (Reading (Option α × σ))
  | none => none
  | some r => some (r.map fun (slots, cs) => ((slot, slots), cs))

mutual

/-- A value of the shape. -/
def Shape.read (fuel : Nat) : {α : Type} → Shape α → (levels : Nat) → List Char → Reading α
  | _, .text, _, cs => textValue Shape.text.expectation cs
  | _, .flag, _, cs => flagValue cs
  | _, .choice _ choices, levels, cs => choiceValue levels choices cs
  | _, .made shape make, levels, cs =>
    (Shape.read fuel shape levels cs).map fun (x, rest) => (make x, rest)
  | _, .buffered title ofValue?, levels, cs =>
    match value fuel levels cs with
    | .error e => .error e
    | .ok (v, rest) =>
      match ofValue? v with
      | some x => .ok (x, rest)
      | none => .error (.loose (.noAlternative title) rest)
  | _, .nullable shape, levels, cs =>
    match skipBlank cs with
    | 'n' :: rest => (word ['u', 'l', 'l'] rest).map ((none, ·))
    | cs => (Shape.read fuel shape levels cs).map fun (x, rest) => (some x, rest)
  | _, .list item, levels, cs =>
    match skipBlank cs with
    | [] => fail .endInValue []
    | c :: rest =>
      if c = '[' then
        inside levels (fun levels =>
          Bracket.list.closed (items (Shape.read fuel item levels) fuel [] rest)) rest
      else wrongKind "a sequence" (c :: rest)
  | _, .record title isClosed fields make, levels, cs =>
    match skipBlank cs with
    | [] => fail .endInValue []
    | c :: rest =>
      if c = '[' then
        inside levels (fun levels =>
          (Bracket.list.closed
            (Fields.readItems fuel fields (fields.counted title) 0 levels rest)).map
            fun (x, rest) => (make x, rest)) rest
      else if c = '\x7b' then
        inside levels (fun levels =>
          let member (slots : fields.Slots) (cs : List Char) : Reading fields.Slots :=
            match text [] cs with
            | .error e => .error e
            | .ok (key, cs) =>
              match Fields.put fuel fields key slots levels cs with
              | some r => r
              | none =>
                if isClosed then .error (.loose (.unknownMember key fields.keys) cs)
                else ((colon cs).bind skipValue).map ((slots, ·))
          let read :=
            match members member fuel true fields.blank rest with
            | .error e => .error e
            | .ok (slots, cs) =>
              match fields.finish slots with
              | .ok x => .ok (make x, cs)
              | .error m => .error (.loose m cs)
          Bracket.object.closed read) rest
      else wrongKind ("struct " ++ title) (c :: rest)

/-- The members that the items of a list stand for; `place` items have been read. -/
def Fields.readItems (fuel : Nat) : {σ : Type} → Fields σ → (expected : String) → (place : Nat) →
    (levels : Nat) → List Char → Reading σ
  | _, .done, _, _, _, cs => .ok ((), cs)
  | _, .required _ shape rest, expected, place, levels, cs =>
    match nextItem (place == 0) cs with
    | .error e => .error e
    | .ok (false, cs) => .error (.loose (.wrongLength place expected) cs)
    | .ok (true, cs) =>
      match Shape.read fuel shape levels cs with
      | .error e => .error e
      | .ok (x, cs) =>
        (Fields.readItems fuel rest expected (place + 1) levels cs).map fun (xs, cs) => ((x, xs), cs)
  | _, .defaulted _ shape fallback rest, expected, place, levels, cs =>
    match nextItem (place == 0) cs with
    | .error e => .error e
    | .ok (false, cs) =>
      (Fields.readItems fuel rest expected (place + 1) levels cs).map fun (xs, cs) => ((fallback, xs), cs)
    | .ok (true, cs) =>
      match Shape.read fuel shape levels cs with
      | .error e => .error e
      | .ok (x, cs) =>
        (Fields.readItems fuel rest expected (place + 1) levels cs).map fun (xs, cs) => ((x, xs), cs)

/-- The slots after the member of this name, whose value comes next; nothing if no member
has the name. -/
def Fields.put (fuel : Nat) : {σ : Type} → (fields : Fields σ) → (key : String) → fields.Slots →
    (levels : Nat) → List Char → Option (Reading fields.Slots)
  | _, .done, _, _, _, _ => none
  | _, .required name shape rest, key, slots, levels, cs =>
    if key = name then some (fillFirst name (Shape.read fuel shape levels) slots cs)
    else under slots.1 (Fields.put fuel rest key slots.2 levels cs)
  | _, .defaulted name shape _ rest, key, slots, levels, cs =>
    if key = name then some (fillFirst name (Shape.read fuel shape levels) slots cs)
    else under slots.1 (Fields.put fuel rest key slots.2 levels cs)

end

/-- The whole text as a value of the shape. -/
def read {α : Type} (shape : Shape α) (source : String) : Except Fault α :=
  let cs := source.toList
  match Shape.read (cs.length + 1) shape depthLimit cs with
  | .error e => .error e
  | .ok (x, rest) =>
    match skipBlank rest with
    | [] => .ok x
    | rest => stop .trailingText rest

end Json
end Retarget
