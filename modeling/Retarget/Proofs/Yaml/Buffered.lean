/-
# Reading directly and by way of a value

The root of a text is read directly: where a text is expected, any scalar is taken with its
own characters.  A node is read by way of a value: its scalars are resolved first, and the
shape is read from what they mean.  The two ways pass over the same pieces, also where the
first one skips a member and the second one reads it, and come to the same where the scalars
that the shape takes for texts mean texts, and what it takes for a list is one (`Agrees`).
For elements this concerns the keys, the namespaces and the local names, and the children; an
element is read the same as a root and as a node exactly if these are what they should be
(`element_read_as_node`).
-/

import Retarget.Proofs.Json.Report
import Retarget.Proofs.NodeValue
import Retarget.Proofs.Yaml.InStep
import Retarget.Proofs.Yaml.Limit
import Retarget.Proofs.Yaml.RoundTrip

namespace Retarget
namespace Yaml

variable {s : Stream} {tail : Pieces} {levels : Nat} {path path' : Path} {a b : Ahead}

/-! ### Texts -/

theorem Resolve.eq_of_demanded {s what : String} {meaning : Option Meaning} {m : Meaning}
    (h : demanded s what meaning = .ok m) : meaning = some m := by
  cases meaning with
  | none => cases h
  | some x => cases h; rfl

theorem Resolve.eq_of_untagged_text {s t : String} (h : untagged s = .known (.text t)) : t = s := by
  have := (untagged_eq_of_isText (by rw [h]; rfl)).symm.trans h
  simpa using this.symm

/-- **A scalar that means a text means its own.** -/
theorem Resolve.eq_of_scalar_text {tag : Option Octets} {content t : String} {style : Style}
    (h : scalar tag content style = .ok (.known (.text t))) : t = content := by
  rw [scalar.eq_def] at h
  split at h
  · split at h
    · exact eq_of_untagged_text (Except.ok.inj h)
    · cases h; rfl
  · repeat' split at h
    · have := eq_of_demanded h
      simp at this
    · obtain ⟨w, -, hw⟩ := Option.bind_eq_some_iff.1 (eq_of_demanded h)
      rcases eq_of_wholeMeaning? hw with ⟨n, hm⟩ | ⟨i, hm⟩ | ⟨i, hm⟩ <;> simp at hm
    · have := eq_of_demanded h
      simp at this
    · have := eq_of_demanded h
      simp at this
    · cases eq_of_demanded h
    · exact eq_of_untagged_text (Except.ok.inj h)
    · cases h; rfl

/-- What is read as a text, where a value is read too, is the text that the value is. -/
theorem textValue_value {expected content : String} {k : Opened} {v : Value} {a' b' : Ahead}
    (ha : a.rest = a'.rest) (h : textValue s expected path a = .ok ((content, k), b))
    (h' : value s levels path' a' = .ok (v, b')) :
    b.rest = b'.rest ∧ ∀ t, v = .text t → t = content := by
  rw [textValue] at h
  obtain ⟨o, ho, h⟩ := exists_of_bind_eq_ok h
  obtain ⟨o', ho', hv⟩ := value_eq_ok h'
  obtain ⟨hp, hinner, hback⟩ := opened_same ha ho ho'
  split at h
  · rename_i tag content style hs
    cases h
    obtain ⟨hm, rfl⟩ := hv.of_scalar (hp.symm.trans hs)
    refine ⟨hback _ _ hinner, ?_⟩
    rintro t rfl
    exact Resolve.eq_of_scalar_text hm
  · exact (wrongKind_ne_ok _ _ _ h).elim

/-! ### Shapes -/

/-- A buffered value is read from the value. -/
theorem read_buffered_eq_ok_iff {α : Type} {title : String} {ofValue? : Value → Option α} {x : α} :
    Shape.read s (.buffered title ofValue?) levels path a = .ok (x, b) ↔
      ∃ v, value s levels path a = .ok (v, b) ∧ ofValue? v = some x := by
  rw [Shape.read]
  constructor
  · intro h
    split at h
    · cases h
    · rename_i v c hv
      split at h
      · rename_i y hy
        cases h
        exact ⟨v, hv, hy⟩
      · cases h
  · rintro ⟨v, hv, hx⟩
    rw [hv]
    dsimp only
    rw [hx]

/-- Wherever the shape is read directly, and also a value that has the property, the shape is read
from the value to the same effect. -/
def Agrees {α : Type} (shape : Shape α) (P : Value → Prop) : Prop :=
  ∀ ⦃s : Stream⦄ ⦃tail : Pieces⦄ (levels : Nat), s.Nested tail → InStep tail (Spans .node)
    (fun x v => shape.ofValue? v = some x) P (Shape.read s shape levels) (value s levels)

/-- Putting a member directly comes to what putting its value does, and to the same place: it is
unknown, or it fills its slot if it is read. -/
def SamePut {σ : Type} (b' : Ahead) : Option (Reading σ) → Put σ → Prop
  | none, put => put = .unknown
  | some r, put => ∀ slots b, r = .ok (slots, b) → put = .done slots ∧ b.rest = b'.rest

/-- The same for members with names and values that have the property. -/
def Fields.Agree {σ : Type} (fields : Fields σ) (P : String → Value → Prop) : Prop :=
  ∀ ⦃s : Stream⦄ ⦃tail : Pieces⦄ ⦃levels : Nat⦄ ⦃path' : Path⦄ ⦃a a' b' : Ahead⦄ ⦃rest : Pieces⦄
    ⦃key : String⦄ ⦃v : Value⦄ (slots : fields.Slots) (path : Path), s.Nested tail →
    a.rest = a'.rest → Spans .node (a.rest ++ tail) rest → value s levels path' a' = .ok (v, b') →
    P key v → SamePut b' (Fields.put s fields key slots levels path a)
      (fields.putValue (.named key) slots v)

/-- The value is a text. -/
def IsText (v : Value) : Prop := ∃ t, v = .text t

/-- The members have texts for keys, and the values that go with these. -/
def Named (R : String → Value → Prop) (ms : List (Value × Value)) : Prop :=
  ∀ m ∈ ms, ∃ key, m.1 = .text key ∧ R key m.2

section Shapes

variable {α β σ : Type} {P Q : Value → Prop} {R : String → Value → Prop}

theorem Agrees.mono {shape : Shape α} (h : Agrees shape Q) (hPQ : ∀ v, P v → Q v) :
    Agrees shape P :=
  fun _ _ levels hn _ _ _ _ _ _ _ v _ ha hs hx hv hP => h levels hn ha hs hx hv (hPQ v hP)

theorem agrees_text : Agrees .text IsText := by
  rintro s tail levels - path path' a a' b b' x v rest ha - h h' ⟨t, rfl⟩
  rw [Shape.read] at h
  obtain ⟨⟨⟨content, k⟩, c⟩, ht, he⟩ := exists_of_map_eq_ok h
  cases he
  obtain ⟨hb, htext⟩ := textValue_value ha ht h'
  exact ⟨by rw [htext t rfl]; rfl, hb⟩

theorem Agrees.made {shape : Shape α} (h : Agrees shape P) (make : α → β) :
    Agrees (.made shape make) P := by
  intro s tail levels hn path path' a a' b b' x v rest ha hs hx hv hP
  rw [Shape.read] at hx
  obtain ⟨⟨y, c⟩, hy, he⟩ := exists_of_map_eq_ok hx
  cases he
  obtain ⟨hy, hb⟩ := h levels hn ha hs hy hv hP
  exact ⟨by change (shape.ofValue? v).map make = _; rw [hy]; rfl, hb⟩

theorem agrees_buffered (title : String) (ofValue? : Value → Option α) :
    Agrees (.buffered title ofValue?) fun _ => True := by
  intro s tail levels hn path path' a a' b b' x v rest ha hs hx hv _
  obtain ⟨w, hw, hx⟩ := read_buffered_eq_ok_iff.1 hx
  obtain ⟨rfl, hb⟩ := value_unique hn levels ha hs hw hv trivial
  exact ⟨hx, hb⟩

theorem Agrees.list {item : Shape α} (h : Agrees item Q) :
    Agrees (.list item) fun v => ∃ vs, v = .list vs ∧ ∀ w ∈ vs, Q w := by
  rintro s tail levels hn path path' a a' b b' xs v rest ha hs hx hv ⟨vs, rfl, hQ⟩
  obtain ⟨o', ho', ht⟩ := value_eq_ok hv
  cases ht with
  | scalar _ _ hm => exact absurd (Resolve.scalar_isFlat hm) (by simp [Meaning.IsFlat, Value.depth])
  | @list l tag vs c hs' hi' =>
    cases ho : opened s path a with
    | error e => rw [Shape.read, ho] at hx; cases hx
    | ok o =>
      obtain ⟨hp, hinner, hback⟩ := opened_same ha ho ho'
      obtain ⟨qs, hq, -⟩ := exists_spans_of_opened hn hs ho
      rw [read_list ho, hp, hs'] at hx
      obtain ⟨⟨us, d⟩, hi, he⟩ := exists_of_map_eq_ok hx
      obtain ⟨l', hl, hi⟩ := exists_of_inside_eq_ok hi
      cases hl
      cases he
      obtain ⟨hr, hd⟩ := (h l hn).items (value_stops hn l) hinner (hq.items_of_list (hp.trans hs'))
        (ok_of_placing_eq_ok hi) hi' hQ .nil
      exact ⟨mapM_of_forall₂ hr.flip, hback _ _ hd⟩

/-! ### Members -/

theorem agree_done : Fields.Agree .done fun _ _ => True :=
  fun _ _ _ _ _ _ _ _ _ _ _ _ _ _ _ _ _ => rfl

section First

variable {name : String} {shape : Shape α} {rest : Fields σ} (h : Agrees shape Q)
  (hr : Fields.Agree rest R)
include h hr

/-- A member with the first name, or one of the later ones. -/
theorem agree_first {key : String} {v : Value} {slots : Option α × rest.Slots} {a' b' : Ahead}
    {later : Pieces} (hn : s.Nested tail) (ha : a.rest = a'.rest)
    (hs : Spans .node (a.rest ++ tail) later) (hv : value s levels path' a' = .ok (v, b'))
    (hP : if key = name then Q v else R key v) :
    SamePut b' (if key = name then some (fillFirst name slots (Shape.read s shape levels path) a)
        else under slots.1 (Fields.put s rest key slots.2 levels path a))
      (Put.first name (fun _ => shape.ofValue? v) (fun key => rest.putValue key slots.2 v)
        (.named key) slots) := by
  by_cases hk : key = name
  · rw [if_pos hk] at hP ⊢
    intro slots' b hf
    obtain ⟨slot, others⟩ := slots
    cases slot with
    | some x => cases hf
    | none =>
      obtain ⟨⟨x, c⟩, hx, he⟩ := exists_of_map_eq_ok hf
      cases he
      obtain ⟨hx, hb⟩ := h levels hn ha hs hx hv hP
      exact ⟨by simp [Put.first, Key.isFor, hk, hx], hb⟩
  · rw [if_neg hk] at hP ⊢
    have hlater := hr slots.2 path hn ha hs hv hP
    cases hput : Fields.put s rest key slots.2 levels path a with
    | none =>
      rw [hput] at hlater
      have hlater : rest.putValue (.named key) slots.2 v = .unknown := hlater
      change Put.first _ _ _ _ _ = _
      simp [Put.first, Key.isFor, hk, Key.next?, hlater, Put.under]
    | some r =>
      rw [hput] at hlater
      intro slots' b hf
      obtain ⟨⟨others, c⟩, hx, he⟩ := exists_of_map_eq_ok hf
      cases he
      obtain ⟨hd, hb⟩ := hlater _ _ hx
      exact ⟨by simp [Put.first, Key.isFor, hk, Key.next?, hd, Put.under], hb⟩

theorem Fields.Agree.required : Fields.Agree (.required name shape rest) fun key v =>
    if key = name then Q v else R key v := by
  intro s tail levels path' a a' b' later key v slots path hn ha hs hv hP
  rw [Fields.put]
  exact agree_first h hr hn ha hs hv hP

theorem Fields.Agree.defaulted {fallback : α} : Fields.Agree (.defaulted name shape fallback rest)
    fun key v => if key = name then Q v else R key v := by
  intro s tail levels path' a a' b' later key v slots path hn ha hs hv hP
  rw [Fields.put]
  exact agree_first h hr hn ha hs hv hP

end First

/-- Put one after the other into slots that are blank, the members that have been read, the last one
first, fill these slots. -/
def Fills (isClosed : Bool) (fields : Fields σ) (slots : fields.Slots)
    (read : List (Value × Value)) : Prop :=
  Put.all isClosed fields.putValue read.reverse fields.blank = some slots

/-- A member of a record is read directly, and as a key and a value. -/
theorem Fields.Agree.member {isClosed : Bool} {fields : Fields σ} (h : Fields.Agree fields R)
    (hn : s.Nested tail) {slots : fields.Slots} {read : List (Value × Value)}
    (hr : Fills isClosed fields slots read) :
    InStep tail SpansMember (Fills isClosed fields) (Named R)
      (recordMember s isClosed fields levels path slots) (valueMember s levels path' read) := by
  intro p p' a a' b b' slots' read' rest ha hs hrec hval hR
  obtain ⟨qs, hks, hvs⟩ := hs
  obtain ⟨k, v, c', hk, hv, rfl⟩ := valueMember_eq_ok hval
  obtain ⟨key, rfl, hRv⟩ := hR _ (List.mem_cons_self ..)
  rw [recordMember] at hrec
  split at hrec
  · cases hrec
  · rename_i name o c ht
    obtain ⟨hc, hname⟩ := textValue_value ha ht hk
    obtain rfl := hname key rfl
    have hspan : Spans .node (c.rest ++ tail) rest :=
      hc ▸ value_stops hn levels (ha ▸ hks) hk ▸ hvs
    have hput := h slots p hn hc hspan hv hRv
    rw [Fills, List.reverse_cons, Put.all_append, hr]
    split at hrec
    · rename_i r hr
      rw [hr] at hput
      obtain ⟨hd, hb⟩ := hput _ _ hrec
      exact ⟨by simp [Put.all, Key.ofValue?, hd], hb⟩
    · rename_i hnone
      rw [hnone] at hput
      have hput : fields.putValue (.named key) slots v = .unknown := hput
      split at hrec
      · cases hrec
      · rename_i hopen
        obtain ⟨d, hskip, he⟩ := exists_of_map_eq_ok hrec
        cases he
        have hb := rest_of_skipPieces (afterNode_of_spans hspan) hskip
        have hb' := value_stops hn levels (hc ▸ hspan) hv
        exact ⟨by simp [Put.all, Key.ofValue?, hput, hopen],
          List.append_cancel_right (hb.trans hb'.symm)⟩

theorem named_of_valueMember {read read' : List (Value × Value)} {valuePath : Path}
    (h : valueMember s levels path read valuePath a = .ok (read', b)) (hR : Named R read') :
    Named R read := by
  obtain ⟨k, v, c, -, -, rfl⟩ := valueMember_eq_ok h
  exact fun m hm => hR m (List.mem_cons_of_mem _ hm)

theorem Agrees.record {title : String} {isClosed : Bool} {fields : Fields σ} {make : σ → α}
    (h : Fields.Agree fields R) : Agrees (.record title isClosed fields make) fun v =>
      ∃ ms, v = .map ms ∧ Named R ms := by
  rintro s tail levels hn path path' a a' b b' x v rest ha hs hx hv ⟨ms, rfl, hR⟩
  obtain ⟨o', ho', ht⟩ := value_eq_ok hv
  cases ht with
  | scalar _ _ hm => exact absurd (Resolve.scalar_isFlat hm) (by simp [Meaning.IsFlat, Value.depth])
  | @map l tag ms c hs' hi' =>
    cases ho : opened s path a with
    | error e => rw [Shape.read, ho] at hx; cases hx
    | ok o =>
      obtain ⟨hp, hinner, hback⟩ := opened_same ha ho ho'
      obtain ⟨qs, hq, -⟩ := exists_spans_of_opened hn hs ho
      rw [read_record ho, hp, hs'] at hx
      obtain ⟨l', hl, hf⟩ := exists_of_inside_eq_ok hx
      cases hl
      have hf := ok_of_placing_eq_ok hf
      rw [finished.eq_def] at hf
      split at hf
      · cases hf
      · rename_i slots d hmem
        have hnamed : Named R ms := fun m hm => hR m (List.mem_reverse.2 hm)
        obtain ⟨hall, hd⟩ := InStep.members (fun _ _ => h.member hn)
          (valueMember_stops (value_stops hn l)) named_of_valueMember hinner
          (hq.members_of_map (hp.trans hs')) hmem hi' hnamed
          (rfl : Fills isClosed fields fields.blank [])
        split at hf
        · rename_i y hy
          cases hf
          refine ⟨?_, hback _ _ hd⟩
          rw [Fills] at hall
          simp only [Shape.ofValue?, hall, hy]
          rfl
        · cases hf

end Shapes

/-! ### Elements -/

/-- The value is a map in which the members of a name are texts. -/
def IsNameValue (v : Value) : Prop := ∃ ms, v = .map ms ∧
  Named (fun key v => key = "namespace" ∨ key = "local_name" → IsText v) ms

/-- The value is a map in which the members of an element are what they should be: a name whose
members are texts, and a list. -/
def IsElementValue (v : Value) : Prop := ∃ ms, v = .map ms ∧
  Named (fun key v => (key = "name" → IsNameValue v) ∧ (key = "children" → ∃ vs, v = .list vs)) ms

theorem agrees_name : Agrees Name.shape IsNameValue := by
  refine (Agrees.record (.defaulted (.made agrees_text _)
    (.required agrees_text agree_done))).mono ?_
  rintro v ⟨ms, rfl, h⟩
  refine ⟨ms, rfl, fun m hm => ?_⟩
  obtain ⟨key, hk, ht⟩ := h m hm
  refine ⟨key, hk, ?_⟩
  dsimp only
  split
  · rename_i hkey
    exact ht (.inl hkey)
  · split
    · rename_i hkey
      exact ht (.inr hkey)
    · trivial

theorem agrees_element : Agrees Element.shape IsElementValue := by
  refine (Agrees.record (.required agrees_name
    (.defaulted (.list (agrees_buffered _ _)) agree_done))).mono ?_
  rintro v ⟨ms, rfl, h⟩
  refine ⟨ms, rfl, fun m hm => ?_⟩
  obtain ⟨key, hk, hname, hchildren⟩ := h m hm
  refine ⟨key, hk, ?_⟩
  dsimp only
  split
  · rename_i hkey
    exact hname hkey
  · split
    · rename_i hkey
      obtain ⟨vs, hvs⟩ := hchildren hkey
      exact ⟨vs, hvs, fun _ _ => trivial⟩
    · trivial

theorem read_node_of_element {a' b' : Ahead} {rest : Pieces} {v : Value} {e : Element}
    (hn : s.Nested tail) (ha : a.rest = a'.rest) (hs : Spans .node (a.rest ++ tail) rest)
    (h : Shape.read s Element.shape levels path a = .ok (e, b))
    (hv : value s levels path' a' = .ok (v, b')) (he : IsElementValue v) :
    Shape.read s Node.shape levels path' a' = .ok (e.node, b') ∧ b.rest = b'.rest := by
  obtain ⟨hx, hb⟩ := agrees_element levels hn ha hs h hv he
  exact ⟨read_buffered_eq_ok_iff.2 ⟨v, hv, by rw [Node.ofValue?_eq, hx]⟩, hb⟩

theorem read_eq_ok_iff {α : Type} {shape : Shape α} {text : String} {x : α} :
    read shape text = .ok x ↔
      (∃ b, Shape.read (Stream.ofText text) shape depthLimit .root
        ⟨(Stream.ofText text).pieces, 0⟩ = .ok (x, b)) ∧ (Stream.ofText text).isSound = true := by
  rw [read, Stream.read, Stream.isSound]
  cases Shape.read (Stream.ofText text) shape depthLimit .root ⟨(Stream.ofText text).pieces, 0⟩ with
  | error e => simp
  | ok t =>
    obtain ⟨y, b⟩ := t
    cases (Stream.ofText text).broken with
    | none => cases (Stream.ofText text).followed <;> simp
    | some b => cases b <;> simp

/-! ### Elements that are refused as nodes -/

/-- No key is a natural number, which would stand for the member with that place. -/
def HasNoNumbers (ms : List (Value × Value)) : Prop := ∀ m ∈ ms, ∀ n, m.1 ≠ .unsigned n

/-- The value is a map, and so is the name in it, and the members of both go by their names. -/
def HasOwnKeys (v : Value) : Prop := ∃ ms, v = .map ms ∧ HasNoNumbers ms ∧
  ∀ w, (.text "name", w) ∈ ms → ∃ ns, w = .map ns ∧ HasNoNumbers ns

section Refused

variable {σ : Type} {isClosed : Bool} {put : Key → σ → Value → Put σ} {ms : List (Value × Value)}
  {u w : σ} {R : String → Value → Prop}

/-- If all members are put, their keys are texts, and their values can be put. -/
theorem named_of_all (h : Put.all isClosed put ms u = some w) (hn : HasNoNumbers ms)
    (hR : ∀ key v slots, (.text key, v) ∈ ms → put (.named key) slots v ≠ .failed → R key v) :
    Named R ms := by
  rintro ⟨k, v⟩ hm
  obtain ⟨key, slots, hk, hput⟩ := Put.exists_of_all h hm
  cases k with
  | text name => cases hk; exact ⟨name, rfl, hR name v slots hm hput⟩
  | unsigned n => exact (hn _ hm n rfl).elim
  | _ => cases hk

theorem isNameValue_of_ofValue? {ns : List (Value × Value)} (hn : HasNoNumbers ns)
    (h : Name.shape.ofValue? (.map ns) ≠ none) : IsNameValue (.map ns) := by
  rw [Name.shape] at h
  simp only [Shape.ofValue?] at h
  split at h
  · rename_i slots hall
    refine ⟨ns, rfl, named_of_all hall hn fun key v slots _ hput hk => ?_⟩
    by_contra ht
    refine hput ?_
    have htext : Shape.text.ofValue? v = none := by
      cases v with
      | text t => exact (ht ⟨t, rfl⟩).elim
      | _ => rfl
    have hspace : Namespace.shape.ofValue? v = none := by
      change (Shape.text.ofValue? v).map Namespace.mk = none
      rw [htext, Option.map_none]
    rcases hk with rfl | rfl
    · simp [Fields.putValue, Put.first, Key.isFor, hspace]
    · simp [Fields.putValue, Put.first, Key.isFor, Key.next?, Put.under, htext]
  · exact (h rfl).elim

theorem isElementValue_of_ofValue? {v : Value} (hk : HasOwnKeys v)
    (h : Element.shape.ofValue? v ≠ none) : IsElementValue v := by
  obtain ⟨ms, rfl, hn, hname⟩ := hk
  rw [Element.shape, Element.ofValue?_map, Element.membersOver] at h
  cases hall : Put.all false (Element.fieldsOver Node.ofValue?).putValue ms (none, none, ()) with
  | none => rw [hall] at h; exact (h rfl).elim
  | some slots =>
    refine ⟨ms, rfl, named_of_all hall hn fun key v slots hm hput => ⟨?_, ?_⟩⟩
    · rintro rfl
      obtain ⟨ns, rfl, hns⟩ := hname v hm
      refine isNameValue_of_ofValue? hns fun hnone => hput ?_
      simp [Fields.putValue, Put.first, Key.isFor, hnone]
    · rintro rfl
      cases v with
      | list vs => exact ⟨vs, rfl⟩
      | _ =>
        refine (hput ?_).elim
        simp [Fields.putValue, Put.first, Key.isFor, Key.next?, Put.under, Shape.ofValue?]

end Refused

/-- **An element is the same as a root and as a node exactly if its names are texts.**  Let a text
whose members go by their names be read as an element.  It is read as the node of this element
if it has a value, the keys, the namespace and the local name are texts there, and the children,
if there are any, a list; and not otherwise.  Wherever an element with such a value is read,
also within another one, it is read as the same node. -/
theorem element_read_as_node {text : String} {e : Element} (he : read Element.shape text = .ok e)
    (hk : ∀ v, read Json.anyValue text = .ok v → HasOwnKeys v) :
    (read Node.shape text = .ok e.node ↔
      ∃ v, read Json.anyValue text = .ok v ∧ IsElementValue v) ∧
    ∀ (levels : Nat) (path path' : Path) (a b b' : Ahead) (e : Element) (v : Value),
      (Stream.ofText text).BeginsNode a.rest →
      Shape.read (Stream.ofText text) Element.shape levels path a = .ok (e, b) →
      value (Stream.ofText text) levels path' a = .ok (v, b') → IsElementValue v →
      Shape.read (Stream.ofText text) Node.shape levels path' a = .ok (e.node, b') ∧
        b.rest = b'.rest := by
  obtain ⟨⟨b, he⟩, hs⟩ := read_eq_ok_iff.1 he
  refine ⟨⟨fun hn => ?_, ?_⟩, ?_⟩
  · obtain ⟨⟨c, hn⟩, -⟩ := read_eq_ok_iff.1 hn
    obtain ⟨v, hv, hx⟩ := read_buffered_eq_ok_iff.1 hn
    have hany : read Json.anyValue text = .ok v :=
      read_eq_ok_iff.2 ⟨⟨c, read_buffered_eq_ok_iff.2 ⟨v, hv, rfl⟩⟩, hs⟩
    refine ⟨v, hany, isElementValue_of_ofValue? (hk v hany) fun hnone => ?_⟩
    obtain ⟨ms, rfl, -⟩ := hk v hany
    rw [Node.ofValue?_eq, hnone] at hx
    cases hx
  · rintro ⟨v, hany, hi⟩
    obtain ⟨⟨b', hv⟩, -⟩ := read_eq_ok_iff.1 hany
    obtain ⟨w, hv, hw⟩ := read_buffered_eq_ok_iff.1 hv
    cases hw
    obtain ⟨tail, rest, hn, hspan⟩ := beginsNode_pieces text
    exact read_eq_ok_iff.2 ⟨⟨b', (read_node_of_element hn rfl hspan he hv hi).1⟩, hs⟩
  · rintro levels path path' a b b' e v ⟨tail, rest, hn, hspan⟩ h hv hi
    exact read_node_of_element hn rfl hspan h hv hi

/-- The tree of an element `A` with a text `4`. -/
def textTree : Tree :=
  .record [("name", .record [("local_name", .text "A")]), ("children", .list [.text "4"])]

theorem textTree_read_as_node :
    read Element.shape (render textTree) = .ok ⟨⟨.none, "A"⟩, [.text "4"]⟩ ∧
    (∀ v, read Json.anyValue (render textTree) = .ok v → HasOwnKeys v) ∧
    read Json.anyValue (render textTree) = .ok textTree.value ∧
    IsElementValue textTree.value ∧
    read Node.shape (render textTree) = .ok (.element ⟨.none, "A"⟩ [.text "4"]) := by
  have htext : textTree.Named := named_node (.element ⟨.none, "A"⟩ [.text "4"])
  have hany : Json.anyValue.Holds textTree textTree.value := rfl
  have he : read Element.shape (render textTree) = .ok ⟨⟨.none, "A"⟩, [.text "4"]⟩ :=
    (read_render_of_holds (Element.holds_tree ⟨⟨.none, "A"⟩, [.text "4"]⟩ fun n _ =>
      Node.ofValue?_tree n) htext).resolve_right fun ⟨hl, _⟩ => absurd hl (by decide)
  have hv : read Json.anyValue (render textTree) = .ok textTree.value :=
    (read_render_of_holds hany htext).resolve_right fun ⟨hl, _⟩ => absurd hl (by decide)
  have hi : IsElementValue textTree.value := by
    refine ⟨_, rfl, List.forall_mem_cons.2 ⟨⟨"name", rfl, fun _ => ⟨_, rfl, ?_⟩, nofun⟩,
      List.forall_mem_singleton.2 ⟨"children", rfl, nofun, fun _ => ⟨_, rfl⟩⟩⟩⟩
    exact List.forall_mem_singleton.2 ⟨"local_name", rfl, fun _ => ⟨"A", rfl⟩⟩
  have hk (v : Value) (h : read Json.anyValue (render textTree) = .ok v) : HasOwnKeys v := by
    cases hv.symm.trans h
    refine ⟨_, rfl, ?_, fun w hw => ?_⟩
    · exact List.forall_mem_cons.2 ⟨nofun, List.forall_mem_singleton.2 nofun⟩
    · obtain he | he := List.mem_cons.1 hw
      · cases he
        exact ⟨_, rfl, List.forall_mem_singleton.2 nofun⟩
      · exact absurd (congrArg Prod.fst (List.mem_singleton.1 he)) (by simp)
  exact ⟨he, hk, hv, hi, (element_read_as_node he hk).1.2 ⟨_, hv, hi⟩⟩

/-- Elements that are not the same as nodes: one with a number for its local name is refused, and so
is one with nothing for its children; one with a member `1`, which is unknown where an element is
read directly, has got the children from that member. -/
theorem element_not_read_as_node :
    (read Element.shape "name:\n  local_name: 4\n").toOption = some ⟨⟨.none, "4"⟩, []⟩ ∧
    (read Node.shape "name:\n  local_name: 4\n").toOption = none ∧
    (read Element.shape "name:\n  local_name: A\nchildren:\n").toOption = some ⟨⟨.none, "A"⟩, []⟩ ∧
    (read Node.shape "name:\n  local_name: A\nchildren:\n").toOption = none ∧
    (read Element.shape "name:\n  local_name: A\n1: [b]\n").toOption = some ⟨⟨.none, "A"⟩, []⟩ ∧
    (read Node.shape "name:\n  local_name: A\n1: [b]\n").toOption =
      some (.element ⟨.none, "A"⟩ [.text "b"]) := by
  refine ⟨?_, ?_, ?_, ?_, ?_, ?_⟩ <;> decide +kernel

end Yaml
end Retarget
