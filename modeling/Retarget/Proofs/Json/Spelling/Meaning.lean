/-
# What a shape makes of a spelling

`Shape.ofSpelling? shape levels v` is what the shape makes of a spelled value where lists
and objects may nest so many levels deep.  It speaks of no text, no rest and no state: the
members of an object are looked up by name (`Fields.fill?`), so that it can be seen that
their order plays no part.  Members can as well be taken one after the other, as a reader
does (`Fields.fill?_cons`).
-/

import Retarget.Proofs.Data.Holds
import Retarget.Proofs.Json.Spelling.Value

namespace Retarget
namespace Json

/-! ### What a shape makes of a spelling -/

namespace Spelling

/-- The characters of a text. -/
def content? : Spelling → Option String
  | scalar (.text l) => l.text?
  | _ => none

/-- The value is null. -/
def isNull : Spelling → Bool
  | scalar .null => true
  | _ => false

/-- The values of the members with their names, if all the names can be read. -/
def named? (ms : List (Spaced Literal × Spaced Spelling)) : Option (List (String × Spelling)) :=
  ms.mapM fun m => m.1.value.text?.map (·, m.2.value)

end Spelling

/-- The choice that the only member of an object stands for. -/
def chosenMember? {α : Type} (choices : List (String × α)) :
    List (Spaced Literal × Spaced Spelling) → Option α
  | [m] => if m.2.value.isNull then m.1.value.text?.bind (choices.lookup ·) else none
  | _ => none

/-- A slot after all the members of its name. -/
def fillSlot {α : Type} (x? : Spelling → Option α) :
    Option α → List (String × Spelling) → Option (Option α)
  | slot, [] => some slot
  | none, [m] => (x? m.2).map some
  | _, _ => none

/-- The first slot after the members of its name, and the later slots after the others. -/
def fillNext {α σ : Type} (x? : Spelling → Option α)
    (later? : List (String × Spelling) → σ → Option σ) (key : String)
    (ms : List (String × Spelling)) (slots : Option α × σ) : Option (Option α × σ) :=
  both? (fillSlot x? slots.1 (ms.filter (·.1 == key))) (later? (ms.filter (·.1 != key)) slots.2)

mutual

/-- The value of the shape that is spelled, if there is one within the levels. -/
def Shape.ofSpelling? : {α : Type} → Shape α → (levels : Nat) → Spelling → Option α
  | _, .text, _, v => v.content?
  | _, .flag, _, v => match v with | .scalar (.flag b) => some b | _ => none
  | _, .choice _ choices, levels, v =>
    match v with
    | .object _ ms => deeper levels fun _ => chosenMember? choices ms
    | v => v.content?.bind (choices.lookup ·)
  | _, .list item, levels, v =>
    match v with
    | .list _ xs => deeper levels fun l => xs.mapM fun x => Shape.ofSpelling? item l x.value
    | _ => none
  | _, .nullable shape, levels, v =>
    if v.isNull then some none else (Shape.ofSpelling? shape levels v).map some
  | _, .made shape make, levels, v => (Shape.ofSpelling? shape levels v).map make
  | _, .buffered _ ofValue?, levels, v => (v.value? levels).bind ofValue?
  | _, .record _ isClosed fields make, levels, v =>
    match v with
    | .list _ xs => (deeper levels fun l => Fields.ofSpelledItems? fields l xs).map make
    | .object _ ms =>
      (deeper levels fun l =>
        (Spelling.named? ms).bind fun ms =>
          (Fields.fill? isClosed fields l ms fields.blank).bind fun slots =>
            (fields.finish slots).toOption).map make
    | _ => none

/-- The members that the items of a list stand for. -/
def Fields.ofSpelledItems? : {σ : Type} → Fields σ → (levels : Nat) → List (Spaced Spelling) → Option σ
  | _, .done, _, xs => if xs.isEmpty then some () else none
  | _, .required _ shape rest, levels, xs =>
    match xs with
    | [] => none
    | x :: xs => both? (Shape.ofSpelling? shape levels x.value) (Fields.ofSpelledItems? rest levels xs)
  | _, .defaulted _ shape fallback rest, levels, xs =>
    match xs with
    | [] => both? (some fallback) (Fields.ofSpelledItems? rest levels [])
    | x :: xs => both? (Shape.ofSpelling? shape levels x.value) (Fields.ofSpelledItems? rest levels xs)

/-- The slots after these members: each slot takes those of its name, and what is left over is
unknown. -/
def Fields.fill? (isClosed : Bool) : {σ : Type} → (fields : Fields σ) → (levels : Nat) →
    List (String × Spelling) → fields.Slots → Option fields.Slots
  | _, .done, _, ms, _ => if isClosed && !ms.isEmpty then none else some ()
  | _, .required key shape rest, levels, ms, slots =>
    fillNext (Shape.ofSpelling? shape levels) (Fields.fill? isClosed rest levels) key ms slots
  | _, .defaulted key shape _ rest, levels, ms, slots =>
    fillNext (Shape.ofSpelling? shape levels) (Fields.fill? isClosed rest levels) key ms slots

end

/-! ### Names of members -/

theorem mapM_eq_some_iff {α β : Type} {f : α → Option β} {xs : List α} {ys : List β} :
    xs.mapM f = some ys ↔ List.Forall₂ (fun x y => f x = some y) xs ys := by
  refine ⟨fun h => ?_, mapM_of_forall₂⟩
  induction xs generalizing ys with
  | nil => cases h; exact .nil
  | cons x xs ih =>
    rw [List.mapM_cons] at h
    obtain ⟨y, hy, h⟩ := Option.bind_eq_some_iff.1 h
    obtain ⟨zs, hzs, h⟩ := Option.bind_eq_some_iff.1 h
    cases h
    exact .cons hy (ih hzs)

theorem Spelling.named?_eq_some_iff {ms : List (Spaced Literal × Spaced Spelling)}
    {named : List (String × Spelling)} : Spelling.named? ms = some named ↔
      List.Forall₂ (fun m n => m.1.value.text? = some n.1 ∧ m.2.value = n.2) ms named := by
  rw [Spelling.named?, mapM_eq_some_iff]
  refine iff_of_eq (congrArg (fun R => List.Forall₂ R ms named) ?_)
  funext m n
  cases m.1.value.text? <;> simp [Prod.ext_iff]

/-! ### Members one after the other -/

theorem both?_some {α β : Type} (a : α) (b : Option β) : both? (some a) b = b.map (a, ·) := by
  cases b <;> rfl

section Slots

variable {α σ : Type} {x? : Spelling → Option α}
  {later? : List (String × Spelling) → σ → Option σ} {key : String}

/-- A slot takes the first member before the others. -/
theorem fillSlot_cons (slot : Option α) (m : String × Spelling) (ms : List (String × Spelling)) :
    fillSlot x? slot (m :: ms) = (fillSlot x? slot [m]).bind (fillSlot x? · ms) := by
  cases slot with
  | some x => cases ms <;> rfl
  | none =>
    cases hx : x? m.2 with
    | none => cases ms <;> simp [fillSlot, hx]
    | some x => cases ms <;> simp [fillSlot, hx]

/-- A member of the name goes to the first slot. -/
theorem fillNext_of_eq (hnil : ∀ s, later? [] s = some s) {m : String × Spelling} (hk : m.1 = key)
    (slots : Option α × σ) :
    fillNext x? later? key [m] slots = (fillSlot x? slots.1 [m]).map (·, slots.2) := by
  have h1 : [m].filter (·.1 == key) = [m] := by simp [hk]
  have h2 : [m].filter (·.1 != key) = [] := by simp [hk]
  rw [fillNext, h1, h2, hnil]
  cases fillSlot x? slots.1 [m] <;> rfl

theorem filter_of_forall_ne {ms : List (String × Spelling)} (hk : ∀ m ∈ ms, m.1 ≠ key) :
    ms.filter (·.1 == key) = [] ∧ ms.filter (·.1 != key) = ms :=
  ⟨List.filter_eq_nil_iff.2 (by simpa using hk), List.filter_eq_self.2 (by simpa using hk)⟩

/-- Members of other names go to the later slots. -/
theorem fillNext_of_forall_ne {ms : List (String × Spelling)} (hk : ∀ m ∈ ms, m.1 ≠ key)
    (slots : Option α × σ) :
    fillNext x? later? key ms slots = (later? ms slots.2).map (slots.1, ·) := by
  obtain ⟨h1, h2⟩ := filter_of_forall_ne hk
  rw [fillNext, h1, h2, fillSlot, both?_some]

theorem fillNext_of_ne {m : String × Spelling} (hk : m.1 ≠ key) (slots : Option α × σ) :
    fillNext x? later? key [m] slots = (later? [m] slots.2).map (slots.1, ·) :=
  fillNext_of_forall_ne (List.forall_mem_singleton.2 hk) slots

theorem fillNext_cons (hnil : ∀ s, later? [] s = some s)
    (hcons : ∀ m ms s, later? (m :: ms) s = (later? [m] s).bind (later? ms))
    (m : String × Spelling) (ms : List (String × Spelling)) (slots : Option α × σ) :
    fillNext x? later? key (m :: ms) slots =
      (fillNext x? later? key [m] slots).bind (fillNext x? later? key ms) := by
  by_cases hk : m.1 = key
  · have h1 : (m :: ms).filter (·.1 == key) = m :: ms.filter (·.1 == key) := by simp [hk]
    have h2 : (m :: ms).filter (·.1 != key) = ms.filter (·.1 != key) := by simp [hk]
    rw [fillNext_of_eq hnil hk, fillNext, h1, h2, fillSlot_cons]
    cases fillSlot x? slots.1 [m] <;> rfl
  · have h1 : (m :: ms).filter (·.1 == key) = ms.filter (·.1 == key) := by simp [hk]
    have h2 : (m :: ms).filter (·.1 != key) = m :: ms.filter (·.1 != key) := by simp [hk]
    rw [fillNext_of_ne hk, fillNext, h1, h2, hcons]
    cases later? [m] slots.2 with
    | none => cases fillSlot x? slots.1 (ms.filter (·.1 == key)) <;> rfl
    | some s => rfl

end Slots

namespace Fields

variable {isClosed : Bool}

theorem fill?_nil : {σ : Type} → (fields : Fields σ) → (levels : Nat) → (slots : fields.Slots) →
    Fields.fill? isClosed fields levels [] slots = some slots
  | _, .done, _, _ => by simp [Fields.fill?]
  | _, .required _ _ rest, levels, slots => by
    simp [Fields.fill?, fillNext, fillSlot, fill?_nil rest levels slots.2, both?]
  | _, .defaulted _ _ _ rest, levels, slots => by
    simp [Fields.fill?, fillNext, fillSlot, fill?_nil rest levels slots.2, both?]

/-- **Members can be taken one after the other.** -/
theorem fill?_cons : {σ : Type} → (fields : Fields σ) → (levels : Nat) → (m : String × Spelling) →
    (ms : List (String × Spelling)) → (slots : fields.Slots) →
      Fields.fill? isClosed fields levels (m :: ms) slots =
        (Fields.fill? isClosed fields levels [m] slots).bind (Fields.fill? isClosed fields levels ms)
  | _, .done, _, m, ms, _ => by cases isClosed <;> simp [Fields.fill?]
  | _, .required _ _ rest, levels, m, ms, slots =>
    fillNext_cons (fill?_nil rest levels) (fill?_cons rest levels) m ms slots
  | _, .defaulted _ _ _ rest, levels, m, ms, slots =>
    fillNext_cons (fill?_nil rest levels) (fill?_cons rest levels) m ms slots

end Fields

end Json
end Retarget
