/-
# Members count, and not their order

The members of an object are looked up by name.  A text that reads as a project therefore
reads as the same project after the members of any of its objects have changed places and
unknown ordinary members have come in (`Varies`), in the objects that are read at once and
in those that are buffered first.  A known member that comes twice makes the reading fail,
wherever it is (`Repeats`).
-/

import Mathlib.Data.List.Perm.Basic
import Retarget.Proofs.Json.Snapshot.Alike

namespace Retarget
namespace Json

/-- The role of a member; that of an unknown one is of no account. -/
def roleOf (role : Role) (m : Spaced Literal × Spaced Spelling) : Role :=
  (m.1.value.text?.bind role.member?).getD .other

/-- The second value is the first one, with the members of objects in any order and with more
members, whose names are unknown in the role and whose values are ordinary; blanks may differ. -/
inductive Varies : Role → (levels : Nat) → Spelling → Spelling → Prop where
  | scalar {role : Role} {levels : Nat} (s : Scalar) : Varies role levels (.scalar s) (.scalar s)
  | list {role : Role} {levels : Nat} {inner inner' : Gap} {xs ys : List (Spaced Spelling)}
      (length_eq : xs.length = ys.length)
      (items : ∀ i x y, xs[i]? = some x → ys[i]? = some y →
        Varies (role.item i) (levels - 1) x.value y.value) :
      Varies role levels (.list inner xs) (.list inner' ys)
  | object {role : Role} {levels : Nat} {inner inner' : Gap}
      {ms kept added ns : List (Spaced Literal × Spaced Spelling)}
      (length_eq : ms.length = kept.length)
      (keys : ∀ (i : Nat) (m n : Spaced Literal × Spaced Spelling), ms[i]? = some m →
        kept[i]? = some n → m.1.value = n.1.value)
      (values : ∀ (i : Nat) (m n : Spaced Literal × Spaced Spelling), ms[i]? = some m →
        kept[i]? = some n → Varies (roleOf role m) (levels - 1) m.2.value n.2.value)
      (unknown : ∀ m ∈ added, ∃ key, m.1.value.text? = some key ∧ role.member? key = none)
      (ordinary : ∀ m ∈ added, Ordinary (levels - 1) m.2.value)
      (perm : ns.Perm (kept ++ added)) :
      Varies role levels (.object inner ms) (.object inner' ns)

/-- An object in the value has a known member twice. -/
inductive Repeats : Role → Spelling → Prop where
  | here {role : Role} {inner : Gap} {ms : List (Spaced Literal × Spaced Spelling)} {key : String}
      (known : (role.member? key).isSome)
      (twice : 2 ≤ ms.countP (·.1.value.text? == some key)) :
      Repeats role (.object inner ms)
  | member {role : Role} {inner : Gap} {ms : List (Spaced Literal × Spaced Spelling)}
      {m : Spaced Literal × Spaced Spelling} {key : String} {r : Role} (mem : m ∈ ms)
      (key_eq : m.1.value.text? = some key) (known : role.member? key = some r)
      (h : Repeats r m.2.value) : Repeats role (.object inner ms)
  | item {role : Role} {inner : Gap} {xs : List (Spaced Spelling)} {i : Nat} {x : Spaced Spelling}
      (get_eq : xs[i]? = some x) (h : Repeats (role.item i) x.value) : Repeats role (.list inner xs)

theorem getElem?_of_forall₂ {α : Type} {R : α → α → Prop} {xs ys : List α} (h : List.Forall₂ R xs ys)
    {i : Nat} {x y : α} (hx : xs[i]? = some x) (hy : ys[i]? = some y) : R x y := by
  obtain ⟨hi, rfl⟩ := List.getElem?_eq_some_iff.1 hx
  obtain ⟨hi', rfl⟩ := List.getElem?_eq_some_iff.1 hy
  exact (List.forall₂_iff_get.1 h).2 i hi hi'

/-- An object varies with its members, whatever order they are in. -/
theorem Varies.of_members {role : Role} {levels : Nat} {inner inner' : Gap}
    {ms ns : List (Spaced Literal × Spaced Spelling)}
    (kept added : List (Spaced Literal × Spaced Spelling))
    (h : List.Forall₂ (fun m n => m.1.value = n.1.value ∧
      Varies (roleOf role m) (levels - 1) m.2.value n.2.value) ms kept)
    (unknown : ∀ m ∈ added, (∃ key, m.1.value.text? = some key ∧ role.member? key = none) ∧
      Ordinary (levels - 1) m.2.value)
    (perm : ns.Perm (kept ++ added)) :
    Varies role levels (.object inner ms) (.object inner' ns) :=
  .object h.length_eq (fun _ _ _ hm hn => (getElem?_of_forall₂ h hm hn).1)
    (fun _ _ _ hm hn => (getElem?_of_forall₂ h hm hn).2)
    (fun m hm => (unknown m hm).1) (fun m hm => (unknown m hm).2) perm

theorem Varies.refl (v : Spelling) : ∀ (role : Role) (levels : Nat), Varies role levels v v := by
  induction v using Spelling.induct with
  | scalar s => exact fun _ _ => .scalar s
  | list inner xs ih =>
    refine fun role levels => .list rfl fun i x y hx hy => ?_
    obtain rfl := Option.some.inj (hx.symm.trans hy)
    exact ih x (List.mem_of_getElem? hx) _ _
  | object inner ms ih =>
    refine fun role levels => .of_members ms [] ?_ (fun _ h => nomatch h) (by simp)
    exact List.forall₂_same.2 fun m hm => ⟨rfl, ih m hm _ _⟩

/-! ### Slots -/

/-- A slot is filled alike by its members in any order: there is one of them at most. -/
theorem fillSlot_perm {α : Type} {x? : Spelling → Option α} {slot : Option α}
    {ms ns : List (String × Spelling)} (h : ms.Perm ns) :
    fillSlot x? slot ms = fillSlot x? slot ns := by
  rcases ms with _ | ⟨m, _ | ⟨m', ms⟩⟩
  · rw [h.nil_eq]
  · rw [List.singleton_perm.1 h]
  · obtain ⟨n, n', ns, rfl⟩ : ∃ n n' ns', ns = n :: n' :: ns' := by
      rcases ns with _ | ⟨n, _ | ⟨n', ns⟩⟩
      · cases h.length_eq
      · cases h.length_eq
      · exact ⟨n, n', ns, rfl⟩
    cases slot <;> rfl

namespace Fields

variable {levels : Nat} {ms ns : List (String × Spelling)}

/-- **The order of the members plays no part.** -/
theorem fill?_perm {isClosed : Bool} : {σ : Type} → (fields : Fields σ) →
    {ms ns : List (String × Spelling)} → {slots : fields.Slots} → ms.Perm ns →
    Fields.fill? isClosed fields levels ms slots = Fields.fill? isClosed fields levels ns slots
  | _, .done, ms, ns, slots, h => by
    have he : ms.isEmpty = ns.isEmpty := by
      rw [Bool.eq_iff_iff, List.isEmpty_iff, List.isEmpty_iff]
      exact ⟨fun hm => (hm ▸ h).nil_eq.symm, fun hn => (hn ▸ h).eq_nil⟩
    rw [Fields.fill?, Fields.fill?, he]
  | _, .required key shape rest, ms, ns, slots, h => by
    rw [Fields.fill?, Fields.fill?, fillNext, fillNext, fillSlot_perm (h.filter _),
      fill?_perm rest (h.filter _)]
  | _, .defaulted key shape _ rest, ms, ns, slots, h => by
    rw [Fields.fill?, Fields.fill?, fillNext, fillNext, fillSlot_perm (h.filter _),
      fill?_perm rest (h.filter _)]

/-- The first slot takes no member of another name. -/
theorem fillNext_append_unknown {α σ : Type} {x? : Spelling → Option α}
    {later? : List (String × Spelling) → σ → Option σ} {key : String} {slots : Option α × σ}
    (hu : ∀ n ∈ ns, n.1 ≠ key)
    (hl : ∀ ms, later? (ms ++ ns) slots.2 = later? ms slots.2) :
    fillNext x? later? key (ms ++ ns) slots = fillNext x? later? key ms slots := by
  obtain ⟨h1, h2⟩ := filter_of_forall_ne hu
  rw [fillNext, fillNext, List.filter_append, List.filter_append, h1, h2, List.append_nil, hl]

/-- **Unknown members play no part** in an open record. -/
theorem fill?_append_unknown : {σ : Type} → (fields : Fields σ) → {ms : List (String × Spelling)} →
    {slots : fields.Slots} → (∀ n ∈ ns, n.1 ∉ fields.keys) →
    Fields.fill? false fields levels (ms ++ ns) slots = Fields.fill? false fields levels ms slots
  | _, .done, ms, slots, _ => rfl
  | _, .required key shape rest, ms, slots, hu => by
    rw [Fields.keys] at hu
    exact fillNext_append_unknown (fun n hn => List.ne_of_not_mem_cons (hu n hn)) fun ms =>
      fill?_append_unknown rest fun n hn => List.not_mem_of_not_mem_cons (hu n hn)
  | _, .defaulted key shape _ rest, ms, slots, hu => by
    rw [Fields.keys] at hu
    exact fillNext_append_unknown (fun n hn => List.ne_of_not_mem_cons (hu n hn)) fun ms =>
      fill?_append_unknown rest fun n hn => List.not_mem_of_not_mem_cons (hu n hn)

end Fields

/-- Whatever a shape of the role makes of the first value it makes of the second one. -/
def Keeps (role : Role) (levels : Nat) (v w : Spelling) : Prop :=
  ∀ {α : Type} {shape : Shape α} {x : α}, Suits role shape →
    Shape.ofSpelling? shape levels v = some x → Shape.ofSpelling? shape levels w = some x

/-- The members have the same name, and if it is known the second value keeps the first. -/
def KeepsMember (known : List (String × Role)) (levels : Nat) (m n : String × Spelling) : Prop :=
  m.1 = n.1 ∧ ∀ role, known.lookup m.1 = some role → Keeps role levels m.2 n.2

/-- A slot takes the second member as it takes the first. -/
theorem fillSlot_keeps {α : Type} {role : Role} {shape : Shape α} {levels : Nat} {slot slot' : Option α}
    {m n : String × Spelling} (hs : Suits role shape) (hk : Keeps role levels m.2 n.2)
    (h : fillSlot (Shape.ofSpelling? shape levels) slot [m] = some slot') :
    fillSlot (Shape.ofSpelling? shape levels) slot [n] = some slot' := by
  cases slot with
  | some x => cases h
  | none =>
    obtain ⟨x, hx, rfl⟩ := Option.map_eq_some_iff.1 h
    rw [fillSlot, hk hs hx]
    rfl

theorem fillNext_keeps {α σ : Type} {shape : Shape α}
    {later? : List (String × Spelling) → σ → Option σ} {key : String} {role : Role}
    {later : List (String × Role)} {levels : Nat} {m n : String × Spelling}
    {slots slots' : Option α × σ} (hs : Suits role shape) (hnil : ∀ s, later? [] s = some s)
    (hk : KeepsMember ((key, role) :: later) levels m n)
    (hl : ∀ {s'}, KeepsMember later levels m n → later? [m] slots.2 = some s' →
      later? [n] slots.2 = some s')
    (h : fillNext (Shape.ofSpelling? shape levels) later? key [m] slots = some slots') :
    fillNext (Shape.ofSpelling? shape levels) later? key [n] slots = some slots' := by
  obtain ⟨hmn, hk⟩ := hk
  by_cases hm : m.1 = key
  · rw [fillNext_of_eq hnil hm] at h
    rw [fillNext_of_eq hnil (hmn ▸ hm)]
    obtain ⟨slot, hslot, rfl⟩ := Option.map_eq_some_iff.1 h
    have hrole : ((key, role) :: later).lookup m.1 = some role := by
      rw [hm, List.lookup_cons, beq_self_eq_true]
    rw [fillSlot_keeps hs (hk role hrole) hslot]
    rfl
  · rw [fillNext_of_ne hm] at h
    rw [fillNext_of_ne (hmn ▸ hm)]
    obtain ⟨s', hs', rfl⟩ := Option.map_eq_some_iff.1 h
    have hlater : KeepsMember later levels m n := by
      refine ⟨hmn, fun r hr => hk r ?_⟩
      rw [List.lookup_cons, show (m.1 == key) = false by simpa using hm]
      exact hr
    rw [hl hlater hs']
    rfl

namespace Fields

variable {isClosed : Bool} {levels : Nat}

theorem fill?_keeps_one : {σ : Type} → (fields : Fields σ) → {known : List (String × Role)} →
    Fields.Have fields known → {m n : String × Spelling} → {slots slots' : fields.Slots} →
    KeepsMember known levels m n → Fields.fill? isClosed fields levels [m] slots = some slots' →
    Fields.fill? isClosed fields levels [n] slots = some slots'
  | _, .done, _, _, _, _, _, _, _, h => h
  | _, .required key shape rest, _, hh, m, n, slots, slots', hk, h => by
    obtain ⟨r, later, rfl, hs, hr⟩ := hh
    exact fillNext_keeps hs (fill?_nil rest levels) hk (fill?_keeps_one rest hr) h
  | _, .defaulted key shape _ rest, _, hh, m, n, slots, slots', hk, h => by
    obtain ⟨r, later, rfl, hs, hr⟩ := hh
    exact fillNext_keeps hs (fill?_nil rest levels) hk (fill?_keeps_one rest hr) h

/-- **Members with values that are kept fill the same slots.** -/
theorem fill?_keeps {σ : Type} {fields : Fields σ} {known : List (String × Role)}
    (hh : Fields.Have fields known) {ms ns : List (String × Spelling)} {slots slots' : fields.Slots}
    (hk : List.Forall₂ (KeepsMember known levels) ms ns)
    (h : Fields.fill? isClosed fields levels ms slots = some slots') :
    Fields.fill? isClosed fields levels ns slots = some slots' := by
  induction hk generalizing slots with
  | nil => exact h
  | @cons m n ms ns hm _ ih =>
    rw [fill?_cons] at h ⊢
    obtain ⟨s, h1, h2⟩ := Option.bind_eq_some_iff.1 h
    rw [fill?_keeps_one fields hh hm h1, Option.bind_some]
    exact ih h2

theorem both?_keeps {α β : Type} {a a' : Option α} {b b' : Option β} {s : α × β}
    (h : both? a b = some s) (ha : ∀ x, a = some x → a' = some x)
    (hb : ∀ y, b = some y → b' = some y) : both? a' b' = some s := by
  cases a with
  | none => cases h
  | some x =>
    cases b with
    | none => cases h
    | some y => rw [ha x rfl, hb y rfl, h]

/-- The items are as many, and each of the second keeps that of the first. -/
def KeepsItems (known : List (String × Role)) (levels : Nat) (xs ys : List (Spaced Spelling)) : Prop :=
  xs.length = ys.length ∧ ∀ (i : Nat) (x y : Spaced Spelling), xs[i]? = some x → ys[i]? = some y →
    Keeps (Role.memberAt known i) levels x.value y.value

theorem keepsItems_cons {key : String} {role : Role} {later : List (String × Role)} {levels : Nat}
    {x : Spaced Spelling} {xs ys : List (Spaced Spelling)}
    (h : KeepsItems ((key, role) :: later) levels (x :: xs) ys) :
    ∃ y zs, ys = y :: zs ∧ Keeps role levels x.value y.value ∧ KeepsItems later levels xs zs := by
  obtain ⟨hl, h⟩ := h
  cases ys with
  | nil => cases hl
  | cons y ys =>
    exact ⟨y, ys, rfl, h 0 x y rfl rfl, Nat.succ.inj hl, fun i a b ha hb => h (i + 1) a b ha hb⟩

/-- **Items that are kept make the same record.** -/
theorem ofSpelledItems?_keeps : {σ : Type} → (fields : Fields σ) → {known : List (String × Role)} →
    Fields.Have fields known → {xs ys : List (Spaced Spelling)} → KeepsItems known levels xs ys →
    {s : σ} → Fields.ofSpelledItems? fields levels xs = some s →
    Fields.ofSpelledItems? fields levels ys = some s
  | _, .done, _, _, xs, ys, hk, s, h => by
    have hys : ys.isEmpty = xs.isEmpty := by
      have := hk.1
      cases xs <;> cases ys <;> simp_all
    rw [Fields.ofSpelledItems?, hys]
    exact h
  | _, .required key shape rest, _, hh, xs, ys, hk, s, h => by
    obtain ⟨r, later, rfl, hs, hr⟩ := hh
    cases xs with
    | nil => cases h
    | cons x xs =>
      obtain ⟨y, ys, rfl, hx, hxs⟩ := keepsItems_cons hk
      exact both?_keeps h (fun _ => hx hs) fun _ => ofSpelledItems?_keeps rest hr hxs
  | _, .defaulted key shape _ rest, _, hh, xs, ys, hk, s, h => by
    obtain ⟨r, later, rfl, hs, hr⟩ := hh
    cases xs with
    | nil =>
      obtain rfl := List.length_eq_zero_iff.1 hk.1.symm
      exact h
    | cons x xs =>
      obtain ⟨y, ys, rfl, hx, hxs⟩ := keepsItems_cons hk
      exact both?_keeps h (fun _ => hx hs) fun _ => ofSpelledItems?_keeps rest hr hxs

end Fields

/-! ### Values that vary -/

/-- **What varies from a value that can be buffered can be buffered.** -/
theorem Varies.isSome_value? {role : Role} {levels : Nat} {v w : Spelling} (h : Varies role levels v w)
    (hv : (v.value? levels).isSome) : (w.value? levels).isSome := by
  induction h with
  | scalar s => exact hv
  | @list role levels inner inner' xs ys hl _ ih =>
    cases levels with
    | zero => cases hv
    | succ l =>
      rw [Spelling.isSome_value?_list] at hv ⊢
      intro y hy
      obtain ⟨i, hi, rfl⟩ := List.mem_iff_getElem.1 hy
      exact ih i _ _ (List.getElem?_eq_getElem (hl ▸ hi)) (List.getElem?_eq_getElem hi)
        (hv _ (List.getElem_mem _))
  | @object role levels inner inner' ms kept added ns hl hkeys _ hu ho hp ih =>
    cases levels with
    | zero => cases hv
    | succ l =>
      rw [Spelling.isSome_value?_object] at hv ⊢
      intro n hn
      rcases List.mem_append.1 (hp.mem_iff.1 hn) with hn | hn
      · obtain ⟨i, hi, rfl⟩ := List.mem_iff_getElem.1 hn
        have hm := List.getElem?_eq_getElem (hl ▸ hi : i < ms.length)
        have hk := List.getElem?_eq_getElem hi
        obtain ⟨h1, h2⟩ := hv _ (List.getElem_mem (hl ▸ hi : i < ms.length))
        exact ⟨hkeys i _ _ hm hk ▸ h1, ih i _ _ hm hk h2⟩
      · obtain ⟨key, hkey, -⟩ := hu n hn
        exact ⟨hkey ▸ rfl, (ho n hn).isSome_value?⟩

theorem Varies.isNull_eq {role : Role} {levels : Nat} {v w : Spelling} (h : Varies role levels v w) :
    v.isNull = w.isNull := by
  cases h <;> rfl

theorem forall₂_of_getElem? {α : Type} {R : α → α → Prop} {xs ys : List α} (hl : xs.length = ys.length)
    (h : ∀ (i : Nat) (x y : α), xs[i]? = some x → ys[i]? = some y → R x y) : List.Forall₂ R xs ys := by
  refine List.forall₂_iff_get.2 ⟨hl, fun i hx hy => h i _ _ ?_ ?_⟩
  · exact List.getElem?_eq_getElem hx
  · exact List.getElem?_eq_getElem hy

theorem mapM_keeps {α β : Type} {f : α → Option β} {xs ys : List α} {zs : List β}
    (h : List.Forall₂ (fun x y => ∀ z, f x = some z → f y = some z) xs ys)
    (hx : xs.mapM f = some zs) : ys.mapM f = some zs := by
  rw [mapM_eq_some_iff] at hx ⊢
  induction hx generalizing ys with
  | nil => cases h; exact .nil
  | cons hx _ ih =>
    cases h with
    | cons hxy h => exact .cons (hxy _ hx) (ih h)

/-- A list is read item by item, so lists of items that are kept read alike. -/
theorem ofSpelling?_list_keeps {α : Type} {item : Shape α} {levels : Nat} {inner inner' : Gap}
    {xs ys : List (Spaced Spelling)} {zs : List α} (hl : xs.length = ys.length)
    (h : ∀ (i : Nat) (x y : Spaced Spelling), xs[i]? = some x → ys[i]? = some y → ∀ z,
      Shape.ofSpelling? item (levels - 1) x.value = some z →
        Shape.ofSpelling? item (levels - 1) y.value = some z)
    (hx : Shape.ofSpelling? (.list item) levels (.list inner xs) = some zs) :
    Shape.ofSpelling? (.list item) levels (.list inner' ys) = some zs := by
  cases levels with
  | zero => cases hx
  | succ l =>
    have hk : List.Forall₂ (fun x y : Spaced Spelling => ∀ z,
        Shape.ofSpelling? item l x.value = some z → Shape.ofSpelling? item l y.value = some z) xs ys :=
      forall₂_of_getElem? hl h
    exact mapM_keeps hk hx

/-- A shape without objects makes the same of what varies. -/
theorem ofSpelling?_varies_of_plain : {α : Type} → (shape : Shape α) → shape.IsPlain →
    {role : Role} → {levels : Nat} → {v w : Spelling} → Varies role levels v w → {x : α} →
    Shape.ofSpelling? shape levels v = some x → Shape.ofSpelling? shape levels w = some x
  | _, .text, _, role, levels, v, w, hw, x, h => by
    cases hw with
    | scalar s => exact h
    | list _ _ => cases h
    | object _ _ _ _ _ _ => cases h
  | _, .flag, _, role, levels, v, w, hw, x, h => by
    cases hw with
    | scalar s => exact h
    | list _ _ => cases h
    | object _ _ _ _ _ _ => cases h
  | _, .list item, hp, role, levels, v, w, hw, x, h => by
    cases hw with
    | scalar s => exact h
    | list hl hi =>
      exact ofSpelling?_list_keeps hl (fun i x y hx hy z hz =>
        ofSpelling?_varies_of_plain item hp (hi i x y hx hy) hz) h
    | object _ _ _ _ _ _ => cases h
  | _, .nullable shape, hp, role, levels, v, w, hw, x, h => by
    rw [Shape.ofSpelling?] at h ⊢
    rw [← hw.isNull_eq]
    split at h
    · rename_i hn
      rw [if_pos hn]
      exact h
    · rename_i hn
      rw [if_neg hn]
      obtain ⟨y, hy, rfl⟩ := Option.map_eq_some_iff.1 h
      rw [ofSpelling?_varies_of_plain shape hp hw hy]
      rfl
  | _, .made shape make, hp, role, levels, v, w, hw, x, h => by
    obtain ⟨y, hy, rfl⟩ := Option.map_eq_some_iff.1 h
    rw [Shape.ofSpelling?, ofSpelling?_varies_of_plain shape hp hw hy]
    rfl
  | _, .choice _ _, hp, _, _, _, _, _, _, _ => hp.elim
  | _, .record _ _ _ _, hp, _, _, _, _, _, _, _ => hp.elim
  | _, .buffered _ _, hp, _, _, _, _, _, _, _ => hp.elim

/-- A node that is no scalar is an element. -/
theorem exists_element_of_node {v : Spelling} {levels : Nat} {n : Node} (hv : ∀ s, v ≠ .scalar s)
    (h : Shape.ofSpelling? Node.shape levels v = some n) :
    ∃ e, Shape.ofSpelling? Element.shape levels v = some e ∧ e.node = n := by
  rw [ofSpelling?_node] at h
  obtain ⟨x, hx, h⟩ := Option.bind_eq_some_iff.1 h
  split at h
  · rename_i e he
    exact ⟨e, he, Option.some.inj h⟩
  · cases buffers_of_value? hx with
    | list _ => cases h
    | map _ => cases h
    | _ => exact (hv _ rfl).elim

/-! ### Members by name -/

theorem lookup_eq_roleOf {role r : Role} {m : Spaced Literal × Spaced Spelling} {key : String}
    (hk : m.1.value.text? = some key) (hr : role.members.lookup key = some r) : roleOf role m = r := by
  rw [roleOf, hk, Option.bind_some, Role.member?, hr]
  rfl

/-- Members of the same names, with values that are kept. -/
theorem exists_named?_kept {role : Role} {levels : Nat}
    {ms kept : List (Spaced Literal × Spaced Spelling)} {named : List (String × Spelling)}
    (h : List.Forall₂ (fun m n => m.1.value = n.1.value ∧
      Keeps (roleOf role m) levels m.2.value n.2.value) ms kept)
    (hn : Spelling.named? ms = some named) :
    ∃ named', Spelling.named? kept = some named' ∧
      List.Forall₂ (KeepsMember role.members levels) named named' := by
  simp only [Spelling.named?_eq_some_iff] at hn ⊢
  induction hn generalizing kept with
  | nil => cases h; exact ⟨[], .nil, .nil⟩
  | @cons m a ms named hm _ ih =>
    cases h with
    | @cons _ n _ kept hk h =>
      obtain ⟨named', hn, hks⟩ := ih h
      refine ⟨(a.1, n.2.value) :: named', .cons ⟨hk.1 ▸ hm.1, rfl⟩ hn, .cons ⟨rfl, fun r hr => ?_⟩ hks⟩
      rw [← lookup_eq_roleOf hm.1 hr, ← hm.2]
      exact hk.2

/-- Members that are unknown in the role are none of those that a record of the role has. -/
theorem exists_named?_unknown {role : Role} {σ : Type} {fields : Fields σ}
    (hf : Fields.Have fields role.members) {added : List (Spaced Literal × Spaced Spelling)}
    (h : ∀ m ∈ added, ∃ key, m.1.value.text? = some key ∧ role.member? key = none) :
    ∃ named, Spelling.named? added = some named ∧ ∀ n ∈ named, n.1 ∉ fields.keys := by
  simp only [Spelling.named?_eq_some_iff]
  induction added with
  | nil => exact ⟨[], .nil, fun _ hn => nomatch hn⟩
  | cons m added ih =>
    obtain ⟨key, hk, hr⟩ := h m (List.mem_cons_self ..)
    obtain ⟨named, hn, hu⟩ := ih fun m hm => h m (List.mem_cons_of_mem _ hm)
    refine ⟨(key, m.2.value) :: named, .cons ⟨hk, rfl⟩ hn, List.forall_mem_cons.2 ⟨?_, hu⟩⟩
    rw [Fields.keys_eq_of_have fields hf]
    rw [Role.member?, List.lookup_eq_none_iff] at hr
    intro hmem
    obtain ⟨p, hp, he⟩ := List.mem_map.1 hmem
    exact absurd he.symm (by simpa using hr p hp)

theorem exists_named?_perm {ms ns : List (Spaced Literal × Spaced Spelling)}
    {named : List (String × Spelling)} (h : ns.Perm ms) (hm : Spelling.named? ms = some named) :
    ∃ named', Spelling.named? ns = some named' ∧ named'.Perm named := by
  obtain ⟨named', hn, hp⟩ := List.perm_comp_forall₂ h (Spelling.named?_eq_some_iff.1 hm)
  exact ⟨named', Spelling.named?_eq_some_iff.2 hn, hp⟩

/-! ### Records -/

section Records

variable {role : Role} {σ α : Type} {title : String} {fields : Fields σ} {make : σ → α} {levels : Nat}
  {inner inner' : Gap}

/-- **A record reads the same from members that vary.** -/
theorem record_object_keeps (hd : Describes role fields)
    {ms kept added ns : List (Spaced Literal × Spaced Spelling)}
    (hk : List.Forall₂ (fun m n => m.1.value = n.1.value ∧
      Keeps (roleOf role m) (levels - 1) m.2.value n.2.value) ms kept)
    (hu : ∀ m ∈ added, ∃ key, m.1.value.text? = some key ∧ role.member? key = none)
    (hp : ns.Perm (kept ++ added)) {x : α}
    (h : Shape.ofSpelling? (.record title false fields make) levels (.object inner ms) = some x) :
    Shape.ofSpelling? (.record title false fields make) levels (.object inner' ns) = some x := by
  cases levels with
  | zero => cases h
  | succ l =>
    rw [Shape.ofSpelling?, deeper] at h ⊢
    obtain ⟨y, hy, rfl⟩ := Option.map_eq_some_iff.1 h
    obtain ⟨named, hn, hy⟩ := Option.bind_eq_some_iff.1 hy
    obtain ⟨slots, hs, hy⟩ := Option.bind_eq_some_iff.1 hy
    obtain ⟨named₁, hn₁, hk₁⟩ := exists_named?_kept hk hn
    obtain ⟨named₂, hn₂, hu₂⟩ := exists_named?_unknown hd.have_members hu
    have happ : Spelling.named? (kept ++ added) = some (named₁ ++ named₂) := by
      rw [Spelling.named?_eq_some_iff] at hn₁ hn₂ ⊢
      exact List.rel_append hn₁ hn₂
    obtain ⟨named₃, hn₃, hp₃⟩ := exists_named?_perm hp happ
    have hs₃ : Fields.fill? false fields l named₃ fields.blank = some slots := by
      rw [Fields.fill?_perm fields hp₃, Fields.fill?_append_unknown fields hu₂]
      exact Fields.fill?_keeps hd.have_members hk₁ hs
    rw [hn₃, Option.bind_some, hs₃, Option.bind_some, hy]
    rfl

theorem record_list_keeps (hd : Describes role fields) {xs ys : List (Spaced Spelling)}
    (hk : Fields.KeepsItems role.members (levels - 1) xs ys) {x : α}
    (h : Shape.ofSpelling? (.record title false fields make) levels (.list inner xs) = some x) :
    Shape.ofSpelling? (.record title false fields make) levels (.list inner' ys) = some x := by
  cases levels with
  | zero => cases h
  | succ l =>
    rw [Shape.ofSpelling?, deeper] at h ⊢
    obtain ⟨s, hs, rfl⟩ := Option.map_eq_some_iff.1 h
    have hs' : Fields.ofSpelledItems? fields l ys = some s :=
      Fields.ofSpelledItems?_keeps fields hd.have_members hk hs
    rw [hs']
    rfl

end Records

/-- A node that is no scalar is kept if it is kept as an element and can still be buffered. -/
theorem ofSpelling?_node_keeps {levels : Nat} {v w : Spelling} (hv : ∀ s, v ≠ .scalar s)
    (hw : (v.value? levels).isSome → (w.value? levels).isSome)
    (hk : ∀ e, Shape.ofSpelling? Element.shape levels v = some e →
      Shape.ofSpelling? Element.shape levels w = some e) {n : Node}
    (h : Shape.ofSpelling? Node.shape levels v = some n) :
    Shape.ofSpelling? Node.shape levels w = some n := by
  obtain ⟨e, he, rfl⟩ := exists_element_of_node hv h
  rw [ofSpelling?_node] at h ⊢
  obtain ⟨x, hx, -⟩ := Option.bind_eq_some_iff.1 h
  obtain ⟨y, hy⟩ := Option.isSome_iff_exists.1 (hw (Option.isSome_of_eq_some hx))
  rw [hy, Option.bind_some, hk e he]

/-- **A value means the same however it varies.** -/
theorem ofSpelling?_varies {role : Role} {levels : Nat} {v w : Spelling}
    (hw : Varies role levels v w) : Keeps role levels v w := by
  induction hw with
  | scalar s => exact fun _ h => h
  | @list role levels inner inner' xs ys hl hi ih =>
    intro α shape x hs
    have hw : Varies role levels (.list inner xs) (.list inner' ys) := .list hl hi
    induction hs using Suits.elim with
    | record hd =>
      exact record_list_keeps hd ⟨hl, fun i x y hx hy => hd.item_eq i ▸ ih i x y hx hy⟩
    | node =>
      exact ofSpelling?_node_keeps (by simp) hw.isSome_value? fun e =>
        record_list_keeps describes_element ⟨hl, ih⟩
    | children => exact ofSpelling?_list_keeps hl fun i x y hx hy z => ih i x y hx hy .node
    | other hp => exact ofSpelling?_varies_of_plain _ hp hw
  | @object role levels inner inner' ms kept added ns hl hkeys hvalues hu ho hp ih =>
    intro α shape x hs
    have hw : Varies role levels (.object inner ms) (.object inner' ns) :=
      .object hl hkeys hvalues hu ho hp
    have hk : List.Forall₂ (fun m n => m.1.value = n.1.value ∧
        Keeps (roleOf role m) (levels - 1) m.2.value n.2.value) ms kept :=
      forall₂_of_getElem? hl fun i m n hm hn => ⟨hkeys i m n hm hn, ih i m n hm hn⟩
    induction hs using Suits.elim with
    | record hd => exact record_object_keeps hd hk hu hp
    | node =>
      exact ofSpelling?_node_keeps (by simp) hw.isSome_value? fun e =>
        record_object_keeps describes_element hk hu hp
    | children => exact fun h => nomatch h
    | other h => exact ofSpelling?_varies_of_plain _ h hw

/-! ### Repeated members -/

/-- Nothing is repeated in what has no known members. -/
theorem not_repeats_other {v : Spelling} : ¬ Repeats .other v := by
  intro h
  generalize hr : Role.other = role at h
  induction h with
  | here known => subst hr; cases known
  | member _ _ known => subst hr; cases known
  | item _ _ ih => subst hr; exact ih rfl

theorem countP_named? {ms : List (Spaced Literal × Spaced Spelling)} {named : List (String × Spelling)}
    (h : Spelling.named? ms = some named) (key : String) :
    named.countP (·.1 == key) = ms.countP (·.1.value.text? == some key) := by
  rw [Spelling.named?_eq_some_iff] at h
  induction h with
  | nil => rfl
  | @cons m n ms named hm _ ih => rw [List.countP_cons, List.countP_cons, ih, hm.1]; rfl

section Records

variable {role : Role} {σ α : Type} {title : String} {fields : Fields σ} {make : σ → α} {levels : Nat}
  {inner : Gap} {ms : List (Spaced Literal × Spaced Spelling)}

/-- A record has no known member twice. -/
theorem record_of_twice (hd : Describes role fields) {key : String}
    (known : (role.member? key).isSome) (twice : 2 ≤ ms.countP (·.1.value.text? == some key)) :
    Shape.ofSpelling? (.record title false fields make) levels (.object inner ms) = none := by
  by_contra h
  obtain ⟨named, hn, hread⟩ := readMembers_of_record hd (Option.isSome_iff_ne_none.2 h)
  rw [← countP_named? hn] at twice
  obtain ⟨m, hm, hk⟩ := List.countP_pos_iff.1 (Nat.lt_of_lt_of_le Nat.two_pos twice)
  obtain rfl : m.1 = key := by simpa using hk
  obtain ⟨r, hr⟩ := Option.isSome_iff_exists.1 known
  rw [List.countP_eq_length_filter, (hread m hm r hr).1, List.length_singleton] at twice
  exact absurd twice (by decide)

/-- A record has no known member that cannot be read. -/
theorem record_of_member (hd : Describes role fields) {m : Spaced Literal × Spaced Spelling}
    {key : String} {r : Role} (mem : m ∈ ms) (hk : m.1.value.text? = some key)
    (known : role.member? key = some r)
    (hm : ∀ {α : Type} {shape : Shape α} {levels : Nat}, Suits r shape →
      Shape.ofSpelling? shape levels m.2.value = none) :
    Shape.ofSpelling? (.record title false fields make) levels (.object inner ms) = none := by
  by_contra h
  obtain ⟨named, hn, hread⟩ := readMembers_of_record hd (Option.isSome_iff_ne_none.2 h)
  obtain ⟨key', hk', hmem⟩ := Spelling.mem_named? hn mem
  obtain rfl := Option.some.inj (hk.symm.trans hk')
  obtain ⟨-, β, shape, hs, hx⟩ := hread _ hmem r known
  rw [hm hs] at hx
  cases hx

/-- A record has no item that cannot be read. -/
theorem record_of_item (hd : Describes role fields) {xs : List (Spaced Spelling)} {i : Nat}
    {x : Spaced Spelling} (hi : xs[i]? = some x)
    (hx : ∀ {α : Type} {shape : Shape α} {levels : Nat}, Suits (role.item i) shape →
      Shape.ofSpelling? shape levels x.value = none) :
    Shape.ofSpelling? (.record title false fields make) levels (.list inner xs) = none := by
  by_contra h
  obtain ⟨β, shape, hs, hx'⟩ := readItems_of_record hd (Option.isSome_iff_ne_none.2 h) i x hi
  rw [hx (hd.item_eq i ▸ hs)] at hx'
  cases hx'

end Records

/-- A list of nodes has no item that cannot be read. -/
theorem nodes_of_item {levels : Nat} {inner : Gap} {xs : List (Spaced Spelling)} {i : Nat}
    {x : Spaced Spelling} (hi : xs[i]? = some x)
    (hx : ∀ {levels : Nat}, Shape.ofSpelling? Node.shape levels x.value = none) :
    Shape.ofSpelling? (.list Node.shape) levels (.list inner xs) = none := by
  cases levels with
  | zero => rfl
  | succ l =>
    refine Option.eq_none_iff_forall_ne_some.2 fun ns hn => ?_
    have hall := isSome_mapM_iff.1 (Option.isSome_of_eq_some hn) x (List.mem_of_getElem? hi)
    rw [hx] at hall
    cases hall

/-- **Nothing is read from a value with a repeated member.** -/
theorem ofSpelling?_of_repeats {role : Role} {v : Spelling} (h : Repeats role v) :
    ∀ {α : Type} {shape : Shape α} {levels : Nat}, Suits role shape →
      Shape.ofSpelling? shape levels v = none := by
  -- a node is an element, since there are repeated members in no scalar
  have node {v : Spelling} {levels : Nat} (hv : ∀ s, v ≠ .scalar s)
      (h : Shape.ofSpelling? Element.shape levels v = none) :
      Shape.ofSpelling? Node.shape levels v = none := by
    refine Option.eq_none_iff_forall_ne_some.2 fun n hn => ?_
    obtain ⟨e, he, -⟩ := exists_element_of_node hv hn
    rw [h] at he
    cases he
  induction h with
  | @here role inner ms key known twice =>
    intro α shape levels hs
    induction hs using Suits.elim with
    | record hd => exact record_of_twice hd known twice
    | node => exact node (by simp) (record_of_twice describes_element known twice)
    | children => rfl
    | other hp => cases known
  | @member role inner ms m key r mem key_eq known h ih =>
    intro α shape levels hs
    induction hs using Suits.elim with
    | record hd => exact record_of_member hd mem key_eq known ih
    | node => exact node (by simp) (record_of_member describes_element mem key_eq known ih)
    | children => rfl
    | other hp => cases known
  | @item role inner xs i x get_eq h ih =>
    intro α shape levels hs
    induction hs using Suits.elim with
    | record hd => exact record_of_item hd get_eq ih
    | node => exact node (by simp) (record_of_item describes_element get_eq ih)
    | children => exact nodes_of_item get_eq (ih .node)
    | other hp => exact absurd h not_repeats_other

/-! ### Texts -/

section Texts

variable {role : Role} {α : Type} {shape : Shape α} {t w : Spaced Spelling}

/-- **A text reads the same however its value varies.** -/
theorem read_varies (hs : Suits role shape) (hw : Varies role depthLimit t.value w.value) {x : α}
    (h : read shape (Spelling.text t) = .ok x) : read shape (Spelling.text w) = .ok x := by
  rw [read_text_eq_ok_iff] at h ⊢
  exact ofSpelling?_varies hw hs h

/-- **A text with a repeated member is refused.** -/
theorem exists_read_eq_error_of_repeats (hs : Suits role shape) (h : Repeats role t.value) :
    ∃ e, read shape (Spelling.text t) = .error e := by
  cases hr : read shape (Spelling.text t) with
  | error e => exact ⟨e, rfl⟩
  | ok x =>
    rw [read_text_eq_ok_iff, ofSpelling?_of_repeats h hs] at hr
    cases hr

end Texts

end Json
end Retarget
