/-
# Only texts that are spelled are accepted

Where a reader of a shape succeeds, it has taken a spelled value from the front of its source
(`Shape.read_leaves`), so whatever text is read as a whole is spelled
(`exists_text_of_read`).  Together with `read_text` this settles what every text is read as.
-/

import Retarget.Proofs.Json.Spelling.Accepted.Value

namespace Retarget
namespace Json

/-! ### Values of known kinds -/

section Scalars

variable {α : Type} {cs : List Char}

theorem wrongKind_leaves {P : List Char → Prop} (expected : String) (ds : List Char) :
    Leaves P (wrongKind expected ds : Reading α) := by
  obtain ⟨e, he⟩ := exists_wrongKind_eq_error (α := α × List Char) expected ds
  rw [he]
  exact .error e

theorem textValue_leaves (expected : String) (cs : List Char) :
    Leaves (fun rest => ∃ (g : Gap) (l : Literal), cs = g.spell (l.spell rest))
      (textValue expected cs) := by
  rw [textValue]
  split
  · exact .error _
  · rename_i c ds hs
    split
    · rename_i hc
      intro s rest h
      obtain ⟨l, rfl⟩ := exists_of_text h
      obtain ⟨g, hg⟩ := exists_gap_of_skipBlank hs
      exact ⟨g, l, by rw [hg, hc]; rfl⟩
    · exact wrongKind_leaves _ _

theorem flagValue_leaves (cs : List Char) : Leaves (ValueFirst cs) (flagValue cs) := by
  rw [flagValue]
  split
  · exact .error _
  · rename_i c ds hs
    split
    · rename_i hc
      exact word_leaves (hc ▸ hs) (.flag true) fun _ => rfl
    · split
      · rename_i hc
        exact word_leaves (hc ▸ hs) (.flag false) fun _ => rfl
      · exact wrongKind_leaves _ _

theorem valueFirst_of_nullValue {cs rest : List Char} (h : nullValue cs = .ok rest) :
    ValueFirst cs rest := by
  rw [nullValue] at h
  split at h
  · cases h
  · rename_i c ds hs
    split at h
    · rename_i hc
      refine valueFirst_of_skipBlank (v := .scalar .null) ?_
      rw [hs, hc, eq_of_word h]
      rfl
    · obtain ⟨e, he⟩ := exists_wrongKind_eq_error (α := List Char) "unit" (c :: ds)
      rw [he] at h
      cases h

theorem choiceName_leaves (choices : List (String × α)) (cs : List Char) :
    Leaves (fun rest => ∃ (g : Gap) (l : Literal), cs = g.spell (l.spell rest))
      (choiceName choices cs) := by
  have ht := textValue_leaves "variant identifier" cs
  rw [choiceName]
  split
  · exact .error _
  · rename_i name rest he
    split
    · exact .ok (ht name rest he) _
    · exact .error _

theorem choiceMember_leaves {choices : List (String × α)} {ds : List Char}
    (hs : skipBlank cs = '\x7b' :: ds) : Leaves (ValueFirst cs) (choiceMember choices ds) := by
  have hn := choiceName_leaves choices ds
  rw [choiceMember]
  split
  · exact .error _
  · rename_i x es he
    obtain ⟨b, l, rfl⟩ := hn x es he
    split
    · exact .error _
    · rename_i fs hc
      cases hcolon : colon es with
      | error e => rw [hcolon] at hc; cases hc
      | ok gs =>
        rw [hcolon] at hc
        obtain ⟨a, rfl⟩ := exists_of_colon hcolon
        obtain ⟨b', v, rfl⟩ := valueFirst_of_nullValue hc
        split
        · exact .error _
        · rename_i c rest hend
          split
          · rename_i hc
            obtain ⟨a', rfl⟩ := exists_gap_of_skipBlank (hc ▸ hend)
            exact .ok (valueFirst_of_skipBlank
              (v := .object [] [(⟨b, l, a⟩, ⟨b', v, a'⟩)]) hs) x
          · exact .error _

theorem choiceValue_leaves (levels : Nat) (choices : List (String × α)) (cs : List Char) :
    Leaves (ValueFirst cs) (choiceValue levels choices cs) := by
  rw [choiceValue]
  split
  · exact .error _
  · rename_i c ds hs
    split
    · refine (choiceName_leaves choices (c :: ds)).mono ?_
      rintro rest ⟨g, l, h⟩
      obtain ⟨g', rfl⟩ := exists_gap_of_skipBlank hs
      exact ⟨g' ++ g, .scalar (.text l), by rw [h]; simp [Gap.spell, Spelling.spell, Scalar.spell]⟩
    · split
      · rename_i hc
        subst hc
        split
        · exact .error _
        · exact choiceMember_leaves hs
      · exact .error _

end Scalars

/-- A colon and a value stand at the front of the text. -/
def ColonFirst (cs rest : List Char) : Prop :=
  ∃ (a : Gap) (ds : List Char), cs = a.spell (':' :: ds) ∧ ValueFirst ds rest

section Records

variable {α σ : Type} {fuel levels : Nat} {isClosed : Bool} {fields : Fields σ}

theorem fillFirst_leaves {read : List Char → Reading α} (h : ∀ cs, Leaves (ValueFirst cs) (read cs))
    (name : String) (slots : Option α × σ) (cs : List Char) :
    Leaves (ColonFirst cs) (fillFirst name read slots cs) := by
  rw [fillFirst]
  split
  · exact .error _
  · refine Leaves.map ?_ fun x => (some x, slots.2)
    rw [memberValue]
    cases hc : colon cs with
    | error e => exact .error e
    | ok ds =>
      obtain ⟨a, rfl⟩ := exists_of_colon hc
      exact (h ds).mono fun rest hv => ⟨a, ds, rfl, hv⟩

theorem under_leaves {P : List Char → Prop} {slot : Option α} {put : Option (Reading σ)}
    (h : ∀ r ∈ put, Leaves P r) : ∀ r ∈ under slot put, Leaves P r := by
  cases put with
  | none => simp [under]
  | some r =>
    rintro _ ⟨⟩
    exact (h r rfl).map fun slots => (slot, slots)

theorem recordMember_leaves (hput : ∀ key slots cs,
      ∀ r ∈ Fields.put fuel fields key slots levels cs, Leaves (ColonFirst cs) r)
    (slots : fields.Slots) (cs : List Char) :
    Leaves (MemberFirst cs) (recordMember fuel isClosed fields levels slots cs) := by
  have after {l : Literal} {ds rest : List Char} (h : ColonFirst ds rest) :
      MemberFirst (Literal.spellOpen l ds) rest := by
    obtain ⟨a, es, rfl, b, v, rfl⟩ := h
    exact ⟨l, a, b, v, rfl⟩
  rw [recordMember]
  split
  · exact .error _
  · rename_i key ds ht
    obtain ⟨l, rfl⟩ := exists_of_text ht
    split
    · rename_i r hr
      exact (hput key slots ds r hr).mono fun rest h => after h
    · split
      · exact .error _
      · cases hc : colon ds with
        | error e => exact .error e
        | ok es =>
          obtain ⟨a, rfl⟩ := exists_of_colon hc
          cases hv : skipValue es with
          | error e => simp only [Except.bind, hv]; exact .error e
          | ok rest =>
            simp only [Except.bind, hv]
            exact .ok (after ⟨a, es, rfl, valueFirst_of_skipValue hv⟩) slots

theorem recordMembers_leaves {make : σ → α} (hput : ∀ key slots cs,
      ∀ r ∈ Fields.put fuel fields key slots levels cs, Leaves (ColonFirst cs) r)
    (cs : List Char) :
    Leaves (MembersUpTo true cs) (recordMembers fuel isClosed fields make levels cs) := by
  have hm : Leaves (MembersUpTo true cs)
      (members (recordMember fuel isClosed fields levels) fuel true fields.blank cs) :=
    members_leaves (recordMember_leaves hput) fuel true fields.blank cs
  rw [recordMembers]
  split
  · exact .error _
  · rename_i slots rest he
    split
    · exact .ok (hm slots rest he) _
    · exact .error _

end Records

/-! ### Shapes -/

mutual

/-- **What a shape is read from is spelled.** -/
theorem Shape.read_leaves (fuel : Nat) : {α : Type} → (shape : Shape α) → (levels : Nat) →
    (cs : List Char) → Leaves (ValueFirst cs) (Shape.read fuel shape levels cs)
  | _, .text, _, cs => by
    rw [Shape.read]
    refine (textValue_leaves _ cs).mono ?_
    rintro rest ⟨g, l, rfl⟩
    exact ⟨g, .scalar (.text l), rfl⟩
  | _, .flag, _, cs => by
    rw [Shape.read]
    exact flagValue_leaves cs
  | _, .choice _ choices, levels, cs => by
    rw [Shape.read]
    exact choiceValue_leaves levels choices cs
  | _, .made shape make, levels, cs => by
    rw [Shape.read]
    exact (Shape.read_leaves fuel shape levels cs).map make
  | _, .buffered _ ofValue?, levels, cs => by
    have hv : Leaves (ValueFirst cs) (value fuel levels cs) := value_leaves cs
    rw [Shape.read]
    split
    · exact .error _
    · rename_i v rest he
      split
      · exact .ok (hv v rest he) _
      · exact .error _
  | _, .nullable shape, levels, cs => by
    rw [Shape.read]
    split
    · rename_i ds hs
      exact word_leaves hs .null fun _ => rfl
    · refine ((Shape.read_leaves fuel shape levels (skipBlank cs)).map some).mono ?_
      rintro rest ⟨g, v, hv⟩
      obtain ⟨g', hg⟩ := exists_gap cs
      exact ⟨g' ++ g, v, by rw [hg, hv]; simp [Gap.spell]⟩
  | _, .list item, levels, cs => by
    rw [Shape.read]
    split
    · exact .error _
    · rename_i c ds hs
      split
      · rename_i hc
        subst hc
        exact inside_leaves fun l _ =>
          list_leaves hs (items_leaves (Shape.read_leaves fuel item l) fuel [] ds)
      · exact wrongKind_leaves _ _
  | _, .record title isClosed fields make, levels, cs => by
    cases hs : skipBlank cs with
    | nil =>
      rw [Shape.read, hs]
      exact .error _
    | cons c ds =>
      by_cases ho : c = '\x7b'
      · subst ho
        rw [read_record hs]
        exact inside_leaves fun l _ => object_leaves hs (recordMembers_leaves
          (fun key slots cs => Fields.put_leaves fuel fields l key slots cs) ds)
      · rw [Shape.read, hs]
        simp only [ho, if_false]
        split
        · rename_i hc
          subst hc
          refine inside_leaves fun l _ => Leaves.map ?_ make
          exact list_leaves hs (Fields.readItems_leaves fuel fields l _ 0 ds)
        · exact wrongKind_leaves _ _

theorem Fields.readItems_leaves (fuel : Nat) : {σ : Type} → (fields : Fields σ) → (levels : Nat) →
    (expected : String) → (place : Nat) → (cs : List Char) →
      Leaves (ItemsUpTo (place == 0) cs) (Fields.readItems fuel fields expected place levels cs)
  | _, .done, _, _, place, cs => by
    rw [Fields.readItems]
    exact .ok (itemsUpTo_nil _ cs) _
  | _, .required _ shape later, levels, expected, place, cs => by
    rw [Fields.readItems]
    split
    · exact .error _
    · exact .error _
    · rename_i ds hn
      split
      · exact .error _
      · rename_i x es hx
        exact ((Fields.readItems_leaves fuel later levels expected (place + 1) es).map
          fun xs => (x, xs)).mono fun rest h =>
            itemsUpTo_cons hn (Shape.read_leaves fuel shape levels ds x es hx) h
  | _, .defaulted _ shape fallback later, levels, expected, place, cs => by
    rw [Fields.readItems]
    split
    · exact .error _
    · rename_i ds hn
      obtain ⟨es, rfl, hs⟩ := exists_of_nextItem_end hn
      exact ((Fields.readItems_leaves fuel later levels expected (place + 1) (']' :: es)).map
        fun xs => (fallback, xs)).mono fun rest h => itemsUpTo_of_end hs h
    · rename_i ds hn
      split
      · exact .error _
      · rename_i x es hx
        exact ((Fields.readItems_leaves fuel later levels expected (place + 1) es).map
          fun xs => (x, xs)).mono fun rest h =>
            itemsUpTo_cons hn (Shape.read_leaves fuel shape levels ds x es hx) h

theorem Fields.put_leaves (fuel : Nat) : {σ : Type} → (fields : Fields σ) → (levels : Nat) →
    (key : String) → (slots : fields.Slots) → (cs : List Char) →
      ∀ r ∈ Fields.put fuel fields key slots levels cs, Leaves (ColonFirst cs) r
  | _, .done, _, _, _, _ => by simp [Fields.put]
  | _, .required name shape later, levels, key, slots, cs => by
    rw [Fields.put]
    split
    · rintro _ ⟨⟩
      exact fillFirst_leaves (Shape.read_leaves fuel shape levels) name slots cs
    · exact under_leaves (Fields.put_leaves fuel later levels key slots.2 cs)
  | _, .defaulted name shape fallback later, levels, key, slots, cs => by
    rw [Fields.put]
    split
    · rintro _ ⟨⟩
      exact fillFirst_leaves (Shape.read_leaves fuel shape levels) name slots cs
    · exact under_leaves (Fields.put_leaves fuel later levels key slots.2 cs)

end

/-- **Every text that is read is spelled.** -/
theorem exists_text_of_read {α : Type} {shape : Shape α} {text : String} {x : α}
    (h : read shape text = .ok x) : ∃ t, Spelling.text t = text := by
  have hl := Shape.read_leaves (text.toList.length + 1) shape depthLimit text.toList
  rw [read] at h
  split at h
  · cases h
  · rename_i y rest hr
    split at h
    · rename_i hs
      obtain ⟨b, v, hv⟩ := hl y rest hr
      obtain ⟨a, rfl⟩ := exists_gap_of_skipBlank hs
      exact ⟨⟨b, v, a⟩, by rw [Spelling.text, ← hv, String.ofList_toList]⟩
    · cases h

/-- What a text is read as: what the shape makes of the value that is spelled in it. -/
theorem read_eq_ok_iff {α : Type} {shape : Shape α} {text : String} {x : α} :
    read shape text = .ok x ↔
      ∃ t, Spelling.text t = text ∧ Shape.ofSpelling? shape depthLimit t.value = some x := by
  constructor
  · intro h
    obtain ⟨t, rfl⟩ := exists_text_of_read h
    exact ⟨t, rfl, read_text_eq_ok_iff.1 h⟩
  · rintro ⟨t, rfl, h⟩
    exact read_text_eq_ok_iff.2 h

end Json
end Retarget
