/-
# Shapes

A shape describes the values of a type as they stand in a file, independently of the
format.  Each format reads every shape in one and the same way:

| shape | in a file |
| --- | --- |
| `text`, `flag` | a text, `true` or `false` |
| `choice` | one of a few names |
| `list` | a list of values of one shape |
| `nullable` | null, or what another shape describes |
| `record` | members with names, in any order |
| `made` | what another shape describes, turned into a value of the type |
| `buffered` | any value, read whole before a function decides what it is |

A member of a record is `required` or `defaulted`: a defaulted one may be left out and
then has a value of its own, and a required one may be left out only if its shape is
nullable, which means null.  A closed record refuses unknown members, an open one passes
over them; no record takes a known member twice.

`Shape.ofValue?` reads a shape from a value that was buffered.  There a list is taken in
place of a record, its items standing for the members in the order of the description,
and a number in place of a member's name stands for the member at that place.
-/

import Retarget.Data.Mismatch
import Retarget.Data.Value

namespace Retarget

mutual

/-- A description of the values of a type. -/
inductive Shape : Type → Type 1 where
  | text : Shape String
  | flag : Shape Bool
  | choice {α : Type} (title : String) (choices : List (String × α)) : Shape α
  | list {α : Type} (item : Shape α) : Shape (List α)
  | nullable {α : Type} (shape : Shape α) : Shape (Option α)
  | record {σ α : Type} (title : String) (closed : Bool) (fields : Fields σ) (make : σ → α) : Shape α
  | made {α β : Type} (shape : Shape α) (make : α → β) : Shape β
  | buffered {α : Type} (title : String) (ofValue? : Value → Option α) : Shape α

/-- A description of the members of a record; the type lists what they hold. -/
inductive Fields : Type → Type 1 where
  | done : Fields Unit
  | required {α β : Type} (key : String) (shape : Shape α) (rest : Fields β) : Fields (α × β)
  | defaulted {α β : Type} (key : String) (shape : Shape α) (fallback : α) (rest : Fields β) :
      Fields (α × β)

end

/-- What is expected where a value of the shape has to stand. -/
def Shape.expectation : {α : Type} → Shape α → String
  | _, .text => "a string"
  | _, .flag => "a boolean"
  | _, .choice title _ => "enum " ++ title
  | _, .list _ => "a sequence"
  | _, .nullable _ => "option"
  | _, .record title _ _ _ => "struct " ++ title
  | _, .made shape _ => shape.expectation
  | _, .buffered _ _ => "any value"

/-- The value of a member that is left out, if its shape has one. -/
def Shape.absent? : {α : Type} → Shape α → Option α
  | _, .nullable _ => some none
  | _, _ => none

namespace Fields

/-- The names of the members, in order. -/
def keys : {σ : Type} → Fields σ → List String
  | _, .done => []
  | _, .required key _ rest => key :: rest.keys
  | _, .defaulted key _ _ rest => key :: rest.keys

/-- One slot for each member, to be filled while the record is read. -/
@[reducible] def Slots : {σ : Type} → Fields σ → Type
  | _, .done => Unit
  | _, @Fields.required α _ _ _ rest => Option α × rest.Slots
  | _, @Fields.defaulted α _ _ _ _ rest => Option α × rest.Slots

/-- The slots before any member has been read. -/
def blank : {σ : Type} → (fields : Fields σ) → fields.Slots
  | _, .done => ()
  | _, .required _ _ rest => (none, rest.blank)
  | _, .defaulted _ _ _ rest => (none, rest.blank)

/-- The members of a record of which no more are to come. -/
def finish : {σ : Type} → (fields : Fields σ) → fields.Slots → Except Mismatch σ
  | _, .done, _ => .ok ()
  | _, .required key shape rest, slots =>
    match slots.1.or shape.absent? with
    | none => .error (.missing key)
    | some x => (rest.finish slots.2).map ((x, ·))
  | _, .defaulted _ _ fallback rest, slots =>
    (rest.finish slots.2).map ((slots.1.getD fallback, ·))

/-- The record with the number of its members, as an expectation. -/
def counted {σ : Type} (fields : Fields σ) (title : String) : String :=
  "struct " ++ title ++ " with " ++ toString fields.keys.length ++
    (if fields.keys.length = 1 then " element" else " elements")

end Fields

/-- The choice of this name, or the mismatch that it is unknown. -/
def chosen {α : Type} (choices : List (String × α)) (name : String) : Except Mismatch α :=
  match choices.lookup name with
  | some x => .ok x
  | none => .error (.unknownChoice name (choices.map (·.1)))

/-- What stands for a member: its name, or the number of its place. -/
inductive Key where
  | named (name : String)
  | placed (place : Nat)
  deriving DecidableEq, Repr

namespace Key

/-- The key that a buffered value stands for. -/
def ofValue? : Value → Option Key
  | .text name => some (named name)
  | .unsigned n => some (placed n)
  | _ => none

/-- The key stands for a member of this name that comes first. -/
def isFor (key : Key) (name : String) : Bool :=
  match key with
  | named n => n == name
  | placed n => n == 0

/-- The key as seen from the second member on. -/
def next? : Key → Option Key
  | named n => some (named n)
  | placed 0 => none
  | placed (n + 1) => some (placed n)

end Key

/-- What putting a member into its slot came to. -/
inductive Put (σ : Type) where
  | done (slots : σ)
  | unknown
  | failed

namespace Put

/-- The slots with one more in front. -/
def under {α σ : Type} (slot : Option α) : Put σ → Put (Option α × σ)
  | done slots => done (slot, slots)
  | unknown => unknown
  | failed => failed

/-- The first slot filled, if the key stands for its member, else a later one. -/
def first {α σ : Type} (name : String) (value? : Unit → Option α) (later : Key → Put σ) (key : Key)
    (slots : Option α × σ) : Put (Option α × σ) :=
  if key.isFor name then
    match slots.1, value? () with
    | none, some x => done (some x, slots.2)
    | _, _ => failed
  else
    match key.next? with
    | some key => (later key).under slots.1
    | none => unknown

/-- The members of a map put into slots one after the other. -/
def all {σ : Type} (closed : Bool) (put : Key → σ → Value → Put σ) :
    List (Value × Value) → σ → Option σ
  | [], slots => some slots
  | (k, v) :: members, slots =>
    match Key.ofValue? k with
    | none => none
    | some key =>
      match put key slots v with
      | done slots => all closed put members slots
      | unknown => if closed then none else all closed put members slots
      | failed => none

end Put

/-- Two readings that both have to succeed. -/
def both? {α β : Type} : Option α → Option β → Option (α × β)
  | some a, some b => some (a, b)
  | _, _ => none

mutual

/-- The value of the shape that a buffered value stands for. -/
def Shape.ofValue? : {α : Type} → Shape α → Value → Option α
  | _, .text, v => match v with | .text s => some s | _ => none
  | _, .flag, v => match v with | .flag b => some b | _ => none
  | _, .choice _ choices, v => match v with | .text s => choices.lookup s | _ => none
  | _, .list item, v => match v with | .list items => items.mapM item.ofValue? | _ => none
  | _, .nullable shape, v => match v with | .null => some none | v => (shape.ofValue? v).map some
  | _, .made shape make, v => (shape.ofValue? v).map make
  | _, .buffered _ ofValue?, v => ofValue? v
  | _, .record _ closed fields make, v =>
    match v with
    | .list items => (fields.ofItems? items).map make
    | .map members =>
      match Put.all closed fields.putValue members fields.blank with
      | some slots => (fields.finish slots).toOption.map make
      | none => none
    | _ => none

/-- The members that the items of a list stand for. -/
def Fields.ofItems? : {σ : Type} → Fields σ → List Value → Option σ
  | _, .done, items => if items.isEmpty then some () else none
  | _, .required _ shape rest, items =>
    match items with
    | [] => none
    | v :: vs => both? (shape.ofValue? v) (rest.ofItems? vs)
  | _, .defaulted _ shape fallback rest, items =>
    match items with
    | [] => both? (some fallback) (rest.ofItems? [])
    | v :: vs => both? (shape.ofValue? v) (rest.ofItems? vs)

/-- The slots after a member has been read. -/
def Fields.putValue : {σ : Type} → (fields : Fields σ) → Key → fields.Slots → Value → Put fields.Slots
  | _, .done, _, _, _ => .unknown
  | _, .required name shape rest, key, slots, v =>
    Put.first name (fun _ => shape.ofValue? v) (fun key => rest.putValue key slots.2 v) key slots
  | _, .defaulted name shape _ rest, key, slots, v =>
    Put.first name (fun _ => shape.ofValue? v) (fun key => rest.putValue key slots.2 v) key slots

end

end Retarget
