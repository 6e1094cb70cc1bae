/-
# An element means the same at the root and as a child

The root of a document is read as an element at once; a child is buffered first, and the
buffered value is then tried as an element.  The two could only differ where a value cannot
be buffered although it can be passed over, and only values of unknown members are passed
over.  Without unknown members (`OnlyKnown`) everything that is read at once can be
buffered, and then both readings agree.
-/

import Retarget.Proofs.Json.Snapshot.Role
import Retarget.Proofs.Json.Spelling.Accepted
import Retarget.Proofs.Json.Spelling.Ordinary
import Retarget.Proofs.Json.Spelling.Tree

namespace Retarget
namespace Json

/-- No object in the value has a member that is unknown in its role. -/
inductive OnlyKnown : Role → Spelling → Prop where
  | scalar {role : Role} (s : Scalar) : OnlyKnown role (.scalar s)
  | list {role : Role} {inner : Gap} {xs : List (Spaced Spelling)}
      (h : ∀ i x, xs[i]? = some x → OnlyKnown (role.item i) x.value) :
      OnlyKnown role (.list inner xs)
  | object {role : Role} {inner : Gap} {ms : List (Spaced Literal × Spaced Spelling)}
      (known : ∀ m ∈ ms, ∀ key, m.1.value.text? = some key → (role.member? key).isSome)
      (h : ∀ m ∈ ms, ∀ key r, m.1.value.text? = some key → role.member? key = some r →
        OnlyKnown r m.2.value) :
      OnlyKnown role (.object inner ms)

/-! ### What can be buffered -/

namespace Spelling

/-- The names of members that are read can all be read. -/
theorem mem_named? {ms : List (Spaced Literal × Spaced Spelling)} {named : List (String × Spelling)}
    (h : named? ms = some named) {m : Spaced Literal × Spaced Spelling} (hm : m ∈ ms) :
    ∃ key, m.1.value.text? = some key ∧ (key, m.2.value) ∈ named := by
  rw [named?_eq_some_iff] at h
  induction h with
  | nil => cases hm
  | @cons n a ms named ha _ ih =>
    rcases List.mem_cons.1 hm with rfl | hm
    · exact ⟨a.1, ha.1, ha.2 ▸ List.mem_cons_self ..⟩
    · obtain ⟨key, hk, hmem⟩ := ih hm
      exact ⟨key, hk, List.mem_cons_of_mem _ hmem⟩

end Spelling

/-- A list can be buffered if its items can, once they are read. -/
theorem isSome_value?_of_list {α : Type} {item : Shape α} {levels : Nat} {inner : Gap}
    {xs : List (Spaced Spelling)}
    (hx : ∀ x ∈ xs, ∀ {levels : Nat}, (Shape.ofSpelling? item levels x.value).isSome →
      (x.value.value? levels).isSome)
    (h : (Shape.ofSpelling? (.list item) levels (.list inner xs)).isSome) :
    ((Spelling.list inner xs).value? levels).isSome := by
  cases levels with
  | zero => cases h
  | succ l =>
    have h : (xs.mapM fun x => Shape.ofSpelling? item l x.value).isSome := h
    rw [isSome_mapM_iff] at h
    exact Spelling.isSome_value?_list.2 fun x hm => hx x hm (h x hm)

/-- What a shape without objects is read from can be buffered. -/
theorem isSome_value?_of_plain : {α : Type} → (shape : Shape α) → shape.IsPlain →
    {v : Spelling} → {levels : Nat} → (Shape.ofSpelling? shape levels v).isSome →
      (v.value? levels).isSome
  | _, .text, _, v, levels, h => by
    cases v with
    | scalar s =>
      cases s with
      | text l => simpa [Spelling.value?, Scalar.value?, Shape.ofSpelling?, Spelling.content?] using h
      | _ => cases h
    | _ => cases h
  | _, .flag, _, v, levels, h => by
    cases v with
    | scalar s =>
      cases s with
      | flag b => rfl
      | _ => cases h
    | _ => cases h
  | _, .list item, hp, v, levels, h => by
    cases v with
    | list inner xs => exact isSome_value?_of_list (fun _ _ => isSome_value?_of_plain item hp) h
    | _ => cases h
  | _, .nullable shape, hp, v, levels, h => by
    rw [Shape.ofSpelling?] at h
    split at h
    · rename_i hn
      cases v with
      | scalar s =>
        cases s with
        | null => rfl
        | _ => cases hn
      | _ => cases hn
    · exact isSome_value?_of_plain shape hp (by simpa using h)
  | _, .made shape make, hp, v, levels, h =>
    isSome_value?_of_plain shape hp (by simpa [Shape.ofSpelling?] using h)
  | _, .choice _ _, hp, _, _, _ => hp.elim
  | _, .record _ _ _ _, hp, _, _, _ => hp.elim
  | _, .buffered _ _, hp, _, _, _ => hp.elim

/-- A node is buffered anyway. -/
theorem isSome_value?_of_node {v : Spelling} {levels : Nat}
    (h : (Shape.ofSpelling? Node.shape levels v).isSome) : (v.value? levels).isSome := by
  rw [Node.shape, Shape.ofSpelling?] at h
  cases hv : v.value? levels with
  | none =>
    rw [hv] at h
    cases h
  | some x => rfl

/-- Whatever is read at once from the value, as a shape of the role, can be buffered. -/
def BuffersWhatIsRead (role : Role) (v : Spelling) : Prop :=
  ∀ {α : Type} {shape : Shape α} {levels : Nat}, Suits role shape →
    (Shape.ofSpelling? shape levels v).isSome → (v.value? levels).isSome

section Records

variable {role : Role} {σ α : Type} {title : String} {fields : Fields σ} {make : σ → α} {levels : Nat}
  {inner : Gap}

theorem isSome_value?_of_record_list (hd : Describes role fields) {xs : List (Spaced Spelling)}
    (hx : ∀ i x, xs[i]? = some x → BuffersWhatIsRead (role.item i) x.value)
    (h : (Shape.ofSpelling? (.record title false fields make) levels (.list inner xs)).isSome) :
    ((Spelling.list inner xs).value? levels).isSome := by
  cases levels with
  | zero => cases h
  | succ l =>
    refine Spelling.isSome_value?_list.2 fun x hm => ?_
    obtain ⟨i, hi⟩ := List.mem_iff_getElem?.1 hm
    obtain ⟨β, shape, hs, hread⟩ := readItems_of_record hd h i x hi
    exact hx i x hi (hd.item_eq i ▸ hs) hread

/-- Unknown members would be passed over, and could then be something that cannot be buffered. -/
theorem isSome_value?_of_record_object (hd : Describes role fields)
    {ms : List (Spaced Literal × Spaced Spelling)}
    (known : ∀ m ∈ ms, ∀ key, m.1.value.text? = some key → (role.member? key).isSome)
    (hm : ∀ m ∈ ms, ∀ key r, m.1.value.text? = some key → role.member? key = some r →
      BuffersWhatIsRead r m.2.value)
    (h : (Shape.ofSpelling? (.record title false fields make) levels (.object inner ms)).isSome) :
    ((Spelling.object inner ms).value? levels).isSome := by
  cases levels with
  | zero => cases h
  | succ l =>
    obtain ⟨named, hn, hread⟩ := readMembers_of_record hd h
    refine Spelling.isSome_value?_object.2 fun m hmem => ?_
    obtain ⟨key, hkey, hnamed⟩ := Spelling.mem_named? hn hmem
    obtain ⟨r, hr⟩ := Option.isSome_iff_exists.1 (known m hmem key hkey)
    obtain ⟨-, β, shape, hs, hx⟩ := hread _ hnamed r hr
    exact ⟨hkey ▸ rfl, hm m hmem key r hkey hr hs hx⟩

end Records

/-- **Whatever is read at once can be buffered**, if there are no unknown members in it. -/
theorem OnlyKnown.buffersWhatIsRead {role : Role} {v : Spelling} (h : OnlyKnown role v) :
    BuffersWhatIsRead role v := by
  induction h with
  | scalar s =>
    intro α shape levels hs h
    induction hs using Suits.elim with
    | record hd => cases h
    | node => exact isSome_value?_of_node h
    | children => cases h
    | other hp => exact isSome_value?_of_plain _ hp h
  | list _ ih =>
    intro α shape levels hs h
    induction hs using Suits.elim with
    | record hd => exact isSome_value?_of_record_list hd ih h
    | node => exact isSome_value?_of_node h
    | children => exact isSome_value?_of_list (fun _ _ => isSome_value?_of_node) h
    | other hp => exact isSome_value?_of_plain _ hp h
  | object known _ ih =>
    intro α shape levels hs h
    induction hs using Suits.elim with
    | record hd => exact isSome_value?_of_record_object hd known ih h
    | node => exact isSome_value?_of_node h
    | children => cases h
    | other hp => exact isSome_value?_of_plain _ hp h

/-! ### Elements and nodes -/

/-- A node is what can be buffered, as an element if it is one and else as the text of a scalar. -/
theorem ofSpelling?_node (v : Spelling) (levels : Nat) :
    Shape.ofSpelling? Node.shape levels v = (v.value? levels).bind fun x =>
      match Shape.ofSpelling? Element.shape levels v with
      | some e => some e.node
      | none => x.scalarText?.map Node.text := by
  have hc : Shape.HasNoChoice Element.shape := ⟨⟨trivial, trivial, trivial⟩, trivial, trivial⟩
  rw [Node.shape, Shape.ofSpelling?]
  cases hv : v.value? levels with
  | none => rfl
  | some x =>
    rw [Option.bind_some, Option.bind_some, Node.ofValue?_eq]
    change (match Element.shape.ofValue? x with
      | some e => some e.node
      | none => x.scalarText?.map Node.text) = _
    rw [Shape.ofValue?_of_value? Element.shape hc hv]

/-- With any number of levels left, the same elements are read at once and as nodes. -/
theorem ofSpelling?_element_iff {v : Spelling} (known : OnlyKnown .element v) (levels : Nat)
    (e : Element) :
    Shape.ofSpelling? Element.shape levels v = some e ↔
      Shape.ofSpelling? Node.shape levels v = some e.node := by
  rw [ofSpelling?_node]
  constructor
  · intro h
    obtain ⟨x, hx⟩ := Option.isSome_iff_exists.1
      (known.buffersWhatIsRead .element (Option.isSome_of_eq_some h))
    rw [hx, h]
    rfl
  · intro h
    obtain ⟨x, -, h⟩ := Option.bind_eq_some_iff.1 h
    split at h
    · rename_i f hf
      have he := congrArg Node.element? (Option.some.inj h)
      rw [Node.element?_node, Node.element?_node] at he
      rw [hf, he]
    · obtain ⟨s, -, hs⟩ := Option.map_eq_some_iff.1 h
      cases hs

/-- Two readings that come to values that go with each other succeed together. -/
theorem Reads.ok_iff {α β : Type} {r : Reading α} {s : Reading β} {x? : Option α} {y? : Option β}
    {rest : List Char} (hr : Reads r x? rest) (hs : Reads s y? rest) {x : α} {y : β}
    (h : x? = some x ↔ y? = some y) : r = .ok (x, rest) ↔ s = .ok (y, rest) := by
  rcases hr.ends with ⟨x', rfl, rfl⟩ | ⟨rfl, e, rfl⟩
  · rcases hs.ends with ⟨y', rfl, rfl⟩ | ⟨rfl, e', rfl⟩
    · simpa using h
    · simpa using h
  · rcases hs.ends with ⟨y', rfl, rfl⟩ | ⟨rfl, e', rfl⟩
    · simpa using h
    · simp

/-- **An element means the same as the root of a document and as a child.**  A text without
unknown members is read as an element just if it is read as the node of that element.  The
same holds wherever the value stands in a longer text, with however many levels left. -/
theorem read_element_iff_read_node (t : Spaced Spelling) (known : OnlyKnown .element t.value)
    (e : Element) :
    (read Element.shape (Spelling.text t) = .ok e ↔
      read Node.shape (Spelling.text t) = .ok e.node) ∧
    ∀ (fuel levels : Nat) (cs rest : List Char), t.value.size ≤ fuel → Ends rest →
      skipBlank cs = t.value.spell rest →
        (Shape.read fuel Element.shape levels cs = .ok (e, rest) ↔
          Shape.read fuel Node.shape levels cs = .ok (e.node, rest)) := by
  refine ⟨?_, fun fuel levels cs rest hz hr h => ?_⟩
  · rw [read_text_eq_ok_iff, read_text_eq_ok_iff]
    exact ofSpelling?_element_iff known depthLimit e
  · exact (Shape.reads Element.shape t.value hz hr h).ok_iff (Shape.reads Node.shape t.value hz hr h)
      (ofSpelling?_element_iff known levels e)

/-- The text `[{"local_name": "A"}, ["b"]]`, with no blanks in it. -/
def listedElement : Spaced Spelling :=
  let text (s : String) : Spaced Spelling := ⟨[], .scalar (.text (.of s)), []⟩
  ⟨[], .list [] [⟨[], .object [] [(⟨[], .of "local_name", []⟩, text "A")], []⟩,
    ⟨[], .list [] [text "b"], []⟩], []⟩

theorem read_listedElement : OnlyKnown .element listedElement.value ∧
    read Element.shape (Spelling.text listedElement) = .ok ⟨⟨.none, "A"⟩, [.text "b"]⟩ ∧
    read Node.shape (Spelling.text listedElement) = .ok (.element ⟨.none, "A"⟩ [.text "b"]) := by
  have known : OnlyKnown .element listedElement.value := by
    refine .list fun i x h => ?_
    match i, h with
    | 0, h =>
      cases h
      refine .object (fun m hm key hk => ?_) fun m hm key r _ _ => ?_
      · obtain rfl := List.mem_singleton.1 hm
        rw [Literal.text?_of] at hk
        cases hk
        rfl
      · obtain rfl := List.mem_singleton.1 hm
        exact .scalar _
    | 1, h =>
      cases h
      refine .list fun i x h => ?_
      match i, h with
      | 0, h => cases h; exact .scalar _
  have h : read Element.shape (Spelling.text listedElement) = .ok ⟨⟨.none, "A"⟩, [.text "b"]⟩ :=
    read_text_eq_ok_iff.2 rfl
  exact ⟨known, h, (read_element_iff_read_node listedElement known _).1.1 h⟩

end Json
end Retarget
