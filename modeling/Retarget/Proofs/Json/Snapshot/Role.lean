/-
# What a value stands for in a snapshot

Each value in the text of a snapshot plays a role, which the value around it assigns: by
name to the members of an object, and by place to the items of a list that stands for a
record.  A role settles which members an object may have (`Role.member?`).

| role | members | items of a list |
| --- | --- | --- |
| project | frameworks, append flag, `document`, `namespace` | the same |
| document | `root` | the same |
| element, or a node that is one | `name`, `children` | the same |
| children | | nodes |
| name | `namespace`, `local_name` | the same |

Whatever else is read is a text, a flag, null or a list of texts, and no object
(`Shape.IsPlain`).  `role.Suits shape`: values of the role are read by the shape.  What the
records have in common is said once, for any record that is described by a role
(`Role.Describes`).
-/

import Retarget.Proofs.Data.Fits
import Retarget.Proofs.Json.Spelling.Buffered
import Retarget.Proofs.NodeValue

namespace Retarget

/-- What a value stands for in a snapshot. -/
inductive Role where
  | project
  | document
  | element
  | children
  | name
  | other
  deriving DecidableEq, Repr

namespace Role

/-- The roles of the members that an object may have. -/
def members : Role → List (String × Role)
  | project => [(frameworksKey, other), (appendKey, other), ("document", document), ("namespace", other)]
  | document => [("root", element)]
  | element => [("name", name), ("children", children)]
  | name => [("namespace", other), ("local_name", other)]
  | children => []
  | other => []

/-- The role of the member of this name, if it is known. -/
def member? (role : Role) (key : String) : Option Role := role.members.lookup key

/-- The role at this place of the members. -/
def memberAt (known : List (String × Role)) (place : Nat) : Role := ((known[place]?).map (·.2)).getD other

/-- The role of the item at this place of a list. -/
def item (role : Role) (place : Nat) : Role :=
  match role with
  | children => element
  | role => memberAt role.members place

end Role

namespace Json

/-- Values of the role are read by the shape. -/
inductive Suits : Role → {α : Type} → Shape α → Prop where
  | project : Suits .project Project.shape
  | document : Suits .document Document.shape
  | element : Suits .element Element.shape
  | node : Suits .element Node.shape
  | children : Suits .children (.list Node.shape)
  | name : Suits .name Name.shape
  | other {α : Type} {shape : Shape α} (h : shape.IsPlain) : Suits .other shape

/-- The members, from one of them on, are those of the role, in order. -/
def Fields.Have : {σ : Type} → Fields σ → List (String × Role) → Prop
  | _, .done, known => known = []
  | _, .required key shape rest, known =>
    ∃ role later, known = (key, role) :: later ∧ Suits role shape ∧ Fields.Have rest later
  | _, .defaulted key shape _ rest, known =>
    ∃ role later, known = (key, role) :: later ∧ Suits role shape ∧ Fields.Have rest later

theorem Fields.keys_eq_of_have : {σ : Type} → (fields : Fields σ) → {known : List (String × Role)} →
    Fields.Have fields known → fields.keys = known.map (·.1)
  | _, .done, _, h => by rw [h]; rfl
  | _, .required _ _ rest, _, h => by
    obtain ⟨r, later, rfl, -, hr⟩ := h
    rw [Fields.keys, Fields.keys_eq_of_have rest hr, List.map_cons]
  | _, .defaulted _ _ _ rest, _, h => by
    obtain ⟨r, later, rfl, -, hr⟩ := h
    rw [Fields.keys, Fields.keys_eq_of_have rest hr, List.map_cons]

/-- The record is read from values of the role, by name or by place. -/
structure Describes (role : Role) {σ : Type} (fields : Fields σ) : Prop where
  nodup : (role.members.map (·.1)).Nodup
  have_members : Fields.Have fields role.members
  item_eq : ∀ place, role.item place = Role.memberAt role.members place

theorem describes_element : Describes .element
    (.required "name" Name.shape (.defaulted "children" (.list Node.shape) [] .done)) where
  nodup := by decide
  have_members := ⟨_, _, rfl, .name, _, _, rfl, .children, rfl⟩
  item_eq _ := rfl

/-- What is to be shown of each shape that suits a role: of the records, of nodes, of lists
of nodes, and of what is no object. -/
@[elab_as_elim]
theorem Suits.elim
    {motive : (role : Role) → {α : Type} → (shape : Shape α) → Suits role shape → Prop}
    (record : ∀ {role : Role} {σ α : Type} {title : String} {fields : Fields σ} {make : σ → α}
      (_ : Describes role fields) (h : Suits role (.record title false fields make)),
        motive role (.record title false fields make) h)
    (node : motive .element Node.shape .node)
    (children : motive .children (.list Node.shape) .children)
    (other : ∀ {α : Type} {shape : Shape α} (h : shape.IsPlain), motive .other shape (.other h))
    {role : Role} {α : Type} {shape : Shape α} (h : Suits role shape) : motive role shape h := by
  have frameworks : Suits .other (.list .text) := .other trivial
  have flag : Suits .other .flag := .other trivial
  have space : Suits .other Namespace.shape := .other trivial
  have nullable : Suits .other (.nullable Namespace.shape) := .other trivial
  have text : Suits .other .text := .other trivial
  cases h with
  | project =>
    refine record ?_ Suits.project
    exact ⟨by decide, ⟨_, _, rfl, frameworks, _, _, rfl, flag, _, _, rfl, .document, _, _, rfl,
      nullable, rfl⟩, fun _ => rfl⟩
  | document =>
    refine record ?_ Suits.document
    exact ⟨by decide, ⟨_, _, rfl, .element, rfl⟩, fun _ => rfl⟩
  | element => exact record describes_element Suits.element
  | name =>
    refine record ?_ Suits.name
    exact ⟨by decide, ⟨_, _, rfl, space, _, _, rfl, text, rfl⟩, fun _ => rfl⟩
  | node => exact node
  | children => exact children
  | other h => exact other h

/-! ### Members and items of a record -/

/-- A shape that values of the role are read by makes something of the value. -/
def ReadsSome (role : Role) (levels : Nat) (v : Spelling) : Prop :=
  ∃ (α : Type) (shape : Shape α), Suits role shape ∧ (Shape.ofSpelling? shape levels v).isSome

/-- Every known member is the only one of its name and is read by a shape of its role. -/
def ReadMembers (known : List (String × Role)) (levels : Nat) (ms : List (String × Spelling)) : Prop :=
  ∀ m ∈ ms, ∀ role, known.lookup m.1 = some role →
    ms.filter (·.1 == m.1) = [m] ∧ ReadsSome role levels m.2

/-- Only one member of the name fills the slot, and it can be read. -/
theorem fillSlot_isSome {α : Type} {x? : Spelling → Option α} {slot : Option α}
    {ms : List (String × Spelling)} (h : (fillSlot x? slot ms).isSome) {m : String × Spelling}
    (hm : m ∈ ms) : ms = [m] ∧ (x? m.2).isSome := by
  rcases ms with _ | ⟨n, _ | ⟨n', ns⟩⟩
  · cases hm
  · obtain rfl := List.mem_singleton.1 hm
    cases slot with
    | some x => cases h
    | none => exact ⟨rfl, by simpa [fillSlot] using h⟩
  · cases slot <;> cases h

theorem readMembers_of_fillNext {α σ : Type} {shape : Shape α}
    {later? : List (String × Spelling) → σ → Option σ} {key : String} {role : Role}
    {later : List (String × Role)} {levels : Nat} {ms : List (String × Spelling)}
    {slots : Option α × σ} (hs : Suits role shape)
    (h : (fillNext (Shape.ofSpelling? shape levels) later? key ms slots).isSome)
    (hl : (later? (ms.filter (·.1 != key)) slots.2).isSome →
      ReadMembers later levels (ms.filter (·.1 != key))) :
    ReadMembers ((key, role) :: later) levels ms := by
  have hboth : (fillSlot (Shape.ofSpelling? shape levels) slots.1 (ms.filter (·.1 == key))).isSome ∧
      (later? (ms.filter (·.1 != key)) slots.2).isSome := by
    rw [fillNext] at h
    cases hf : fillSlot (Shape.ofSpelling? shape levels) slots.1 (ms.filter (·.1 == key)) with
    | none => rw [hf] at h; cases h
    | some slot =>
      rw [hf, both?_some, Option.isSome_map] at h
      exact ⟨rfl, h⟩
  intro m hm r hr
  by_cases hk : m.1 = key
  · subst hk
    obtain ⟨hone, hx⟩ := fillSlot_isSome hboth.1 (List.mem_filter.2 ⟨hm, beq_self_eq_true _⟩)
    rw [List.lookup_cons, beq_self_eq_true] at hr
    exact ⟨hone, _, shape, Option.some.inj hr ▸ hs, hx⟩
  · rw [List.lookup_cons, show (m.1 == key) = false by simpa using hk] at hr
    obtain ⟨hone, hread⟩ := hl hboth.2 m (List.mem_filter.2 ⟨hm, by simpa using hk⟩) r hr
    rw [List.filter_filter] at hone
    refine ⟨?_, hread⟩
    rw [← hone]
    refine List.filter_congr fun n _ => ?_
    by_cases hn : n.1 = m.1
    · simp [hn, hk]
    · simp [hn]

theorem Fields.readMembers_of_fill? {isClosed : Bool} : {σ : Type} → (fields : Fields σ) →
    {known : List (String × Role)} → Fields.Have fields known → {levels : Nat} →
    {ms : List (String × Spelling)} → {slots : fields.Slots} →
    (Fields.fill? isClosed fields levels ms slots).isSome → ReadMembers known levels ms
  | _, .done, _, h, _, _, _, _ => by
    obtain rfl := h
    exact fun _ _ _ hl => nomatch hl
  | _, .required _ _ rest, _, h, levels, ms, slots, hf => by
    obtain ⟨r, later, rfl, hs, hr⟩ := h
    exact readMembers_of_fillNext hs hf fun hf => Fields.readMembers_of_fill? rest hr hf
  | _, .defaulted _ _ _ rest, _, h, levels, ms, slots, hf => by
    obtain ⟨r, later, rfl, hs, hr⟩ := h
    exact readMembers_of_fillNext hs hf fun hf => Fields.readMembers_of_fill? rest hr hf

/-- Every item of a record that is read is read by a shape of its role. -/
def ReadItems (known : List (String × Role)) (levels : Nat) (xs : List (Spaced Spelling)) : Prop :=
  ∀ (i : Nat) (x : Spaced Spelling), xs[i]? = some x → ReadsSome (Role.memberAt known i) levels x.value

theorem readItems_nil {known : List (String × Role)} {levels : Nat} : ReadItems known levels [] :=
  fun _ _ h => nomatch h

theorem readItems_cons {role : Role} {later : List (String × Role)} {levels : Nat}
    {x : Spaced Spelling} {xs : List (Spaced Spelling)} {key : String}
    (hx : ReadsSome role levels x.value) (h : ReadItems later levels xs) :
    ReadItems ((key, role) :: later) levels (x :: xs) := by
  intro i y hy
  cases i with
  | zero => obtain rfl := Option.some.inj hy; exact hx
  | succ i => exact h i y hy

theorem isSome_of_both? {α β : Type} {a : Option α} {b : Option β} (h : (both? a b).isSome) :
    a.isSome ∧ b.isSome := by
  cases a <;> cases b <;> simp_all [both?]

theorem Fields.readItems_of_ofSpelledItems? : {σ : Type} → (fields : Fields σ) →
    {known : List (String × Role)} → Fields.Have fields known → {levels : Nat} →
    {xs : List (Spaced Spelling)} → (Fields.ofSpelledItems? fields levels xs).isSome →
    ReadItems known levels xs
  | _, .done, _, _, _, xs, hx => by
    cases xs with
    | nil => exact readItems_nil
    | cons x xs => cases hx
  | _, .required _ shape rest, _, h, levels, xs, hx => by
    obtain ⟨r, later, rfl, hs, hr⟩ := h
    cases xs with
    | nil => exact readItems_nil
    | cons x xs =>
      obtain ⟨hx, hxs⟩ := isSome_of_both? hx
      exact readItems_cons ⟨_, shape, hs, hx⟩ (Fields.readItems_of_ofSpelledItems? rest hr hxs)
  | _, .defaulted _ shape _ rest, _, h, levels, xs, hx => by
    obtain ⟨r, later, rfl, hs, hr⟩ := h
    cases xs with
    | nil => exact readItems_nil
    | cons x xs =>
      obtain ⟨hx, hxs⟩ := isSome_of_both? hx
      exact readItems_cons ⟨_, shape, hs, hx⟩ (Fields.readItems_of_ofSpelledItems? rest hr hxs)

section Records

variable {role : Role} {σ α : Type} {title : String} {fields : Fields σ} {make : σ → α} {levels : Nat}
  {inner : Gap}

/-- In a record that is read, a known member comes once and is read by a shape of its role. -/
theorem readMembers_of_record (hd : Describes role fields)
    {ms : List (Spaced Literal × Spaced Spelling)}
    (h : (Shape.ofSpelling? (.record title false fields make) levels (.object inner ms)).isSome) :
    ∃ named, Spelling.named? ms = some named ∧ ReadMembers role.members (levels - 1) named := by
  cases levels with
  | zero => cases h
  | succ l =>
    rw [Shape.ofSpelling?, Option.isSome_map, deeper] at h
    cases hn : Spelling.named? ms with
    | none => rw [hn] at h; cases h
    | some named =>
      rw [hn, Option.bind_some] at h
      have hf : (Fields.fill? false fields l named fields.blank).isSome := by
        cases hf : Fields.fill? false fields l named fields.blank with
        | none => rw [hf] at h; cases h
        | some slots => rfl
      exact ⟨named, rfl, Fields.readMembers_of_fill? _ hd.have_members hf⟩

theorem readItems_of_record (hd : Describes role fields) {xs : List (Spaced Spelling)}
    (h : (Shape.ofSpelling? (.record title false fields make) levels (.list inner xs)).isSome) :
    ReadItems role.members (levels - 1) xs := by
  cases levels with
  | zero => cases h
  | succ l =>
    rw [Shape.ofSpelling?, Option.isSome_map] at h
    exact Fields.readItems_of_ofSpelledItems? _ hd.have_members h

end Records

end Json
end Retarget
