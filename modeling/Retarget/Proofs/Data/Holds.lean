/-
# What a tree holds

`shape.Holds t x`: the tree `t` is one that is written for `x`, with the members of every
record in the order of their description and defaulted members perhaps left out.  A reader
that undoes a writer reads `x` back from such a tree (`Json.Shape.read_write`,
`Yaml.Shape.read_pieces`); the reader of buffered values does so too
(`Shape.ofValue?_of_holds`).

A reader has a number of levels for what it may open, and fails where they are too few.
`ReadsWithin` is what is proved of a reader for any number of levels.
-/

import Retarget.Data.Shape
import Retarget.Proofs.Data.Tree

namespace Retarget

mutual

/-- The tree is written for the value. -/
def Shape.Holds : {α : Type} → Shape α → Tree → α → Prop
  | _, .text, t, x => t = .text x
  | _, .flag, t, x => t = .flag x
  | _, .choice _ choices, t, x => ∃ name, t = .text name ∧ choices.lookup name = some x
  | _, .list item, t, xs => ∃ ts, t = .list ts ∧ List.Forall₂ item.Holds ts xs
  | _, .nullable shape, t, x => ∃ y, shape.Holds t y ∧ x = some y
  | _, .made shape make, t, x => ∃ y, shape.Holds t y ∧ x = make y
  | _, .buffered _ ofValue?, t, x => ofValue? t.value = some x
  | _, .record _ _ fields make, t, x =>
    fields.keys.Nodup ∧ ∃ ms members, t = .record ms ∧ fields.Hold ms members ∧ x = make members

/-- The members are written for what the record holds, in order; a defaulted one that is
left out has its fallback. -/
def Fields.Hold : {σ : Type} → Fields σ → List (String × Tree) → σ → Prop
  | _, .done, ms, _ => ms = []
  | _, .required key shape rest, ms, x =>
    ∃ t later, ms = (key, t) :: later ∧ shape.Holds t x.1 ∧ rest.Hold later x.2
  | _, .defaulted key shape fallback rest, ms, x =>
    (∃ t later, ms = (key, t) :: later ∧ shape.Holds t x.1 ∧ rest.Hold later x.2) ∨
      x.1 = fallback ∧ rest.Hold ms x.2

end

/-- Trees that hold values one by one make a list that holds the values. -/
theorem Shape.holds_list {α : Type} {shape : Shape α} {tree : α → Tree} {xs : List α}
    (h : ∀ x ∈ xs, shape.Holds (tree x) x) : (Shape.list shape).Holds (.list (xs.map tree)) xs := by
  refine ⟨_, rfl, ?_⟩
  rw [List.forall₂_map_left_iff, List.forall₂_same]
  exact h

/-- The members, taken one after the other, lead from one state to another. -/
def Steps {σ μ : Type} (R : σ → μ → σ → Prop) : σ → List μ → σ → Prop
  | s, [], s' => s = s'
  | s, m :: ms, s' => ∃ u, R s m u ∧ Steps R u ms s'

/-- Pairs put in front one after the other are the members, last first. -/
theorem Tree.steps_memberValues (read : List (Value × Value)) (ms : List (String × Tree)) :
    Steps (fun s m s' => s' = (.text m.1, m.2.value) :: s) read ms
      ((memberValues ms).reverse ++ read) := by
  induction ms generalizing read with
  | nil => rfl
  | cons m ms ih =>
    refine ⟨_, rfl, ?_⟩
    rw [memberValues, List.reverse_cons, List.append_assoc]
    exact ih _

namespace Fields

/-- The member fills the slot of its name, which was blank, with what its tree holds. -/
def Fills : {σ : Type} → (fields : Fields σ) → fields.Slots → String × Tree → fields.Slots → Prop
  | _, .done, _, _, _ => False
  | _, .required key shape rest, s, m, s' =>
    (m.1 = key ∧ s.1 = none ∧ ∃ x, shape.Holds m.2 x ∧ s' = (some x, s.2)) ∨
      m.1 ≠ key ∧ ∃ u, rest.Fills s.2 m u ∧ s' = (s.1, u)
  | _, .defaulted key shape _ rest, s, m, s' =>
    (m.1 = key ∧ s.1 = none ∧ ∃ x, shape.Holds m.2 x ∧ s' = (some x, s.2)) ∨
      m.1 ≠ key ∧ ∃ u, rest.Fills s.2 m u ∧ s' = (s.1, u)

/-- Only known members are written. -/
theorem mem_keys_of_hold : {σ : Type} → (fields : Fields σ) →
    {ms : List (String × Tree)} → {x : σ} →
    fields.Hold ms x → ∀ m ∈ ms, m.1 ∈ fields.keys
  | _, .done, ms, _, h => by
    obtain rfl : ms = [] := h
    exact fun m hm => absurd hm List.not_mem_nil
  | _, .required key shape rest, _, _, h => by
    obtain ⟨t, later, rfl, -, hr⟩ := h
    exact List.forall_mem_cons.2 ⟨List.mem_cons_self ..,
      fun m hm => List.mem_cons_of_mem _ (mem_keys_of_hold rest hr m hm)⟩
  | _, .defaulted key shape fallback rest, _, _, h => by
    obtain ⟨t, later, rfl, -, hr⟩ | ⟨-, hr⟩ := h
    · exact List.forall_mem_cons.2 ⟨List.mem_cons_self ..,
        fun m hm => List.mem_cons_of_mem _ (mem_keys_of_hold rest hr m hm)⟩
    · exact fun m hm => List.mem_cons_of_mem _ (mem_keys_of_hold rest hr m hm)

/-- Steps that look the same from outside are steps outside. -/
theorem steps_under {σ τ : Type} {R : σ → String × Tree → σ → Prop}
    {Q : τ → String × Tree → τ → Prop}
    (wrap : σ → τ) {ms : List (String × Tree)} {s s' : σ}
    (h : ∀ m ∈ ms, ∀ u v, R u m v → Q (wrap u) m (wrap v)) (hs : Steps R s ms s') :
    Steps Q (wrap s) ms (wrap s') := by
  induction ms generalizing s with
  | nil => obtain rfl : s = s' := hs; rfl
  | cons m ms ih =>
    obtain ⟨u, hu, hs⟩ := hs
    exact ⟨wrap u, h m (List.mem_cons_self ..) s u hu,
      ih (fun n hn => h n (List.mem_cons_of_mem _ hn)) hs⟩

/-- **Members that are written for a record fill its slots**, and the filled slots give the
record back. -/
theorem exists_steps_of_hold : {σ : Type} → (fields : Fields σ) →
    {ms : List (String × Tree)} → {x : σ} →
    fields.Hold ms x → fields.keys.Nodup →
      ∃ slots, Steps fields.Fills fields.blank ms slots ∧ fields.finish slots = .ok x
  | _, .done, ms, x, h, _ => by
    obtain rfl : ms = [] := h
    exact ⟨(), rfl, rfl⟩
  | _, .required key shape rest, _, (a, b), h, hd => by
    obtain ⟨t, later, rfl, ha, hr⟩ := h
    obtain ⟨hn, hd⟩ := List.nodup_cons.1 hd
    obtain ⟨slots, hs, hf⟩ := exists_steps_of_hold rest hr hd
    have hk : ∀ m ∈ later, m.1 ≠ key := fun m hm he => hn (he ▸ mem_keys_of_hold rest hr m hm)
    refine ⟨(some a, slots), ⟨(some a, rest.blank), .inl ⟨rfl, rfl, a, ha, rfl⟩, ?_⟩, ?_⟩
    · exact steps_under (fun s => (some a, s)) (fun m hm u v h => .inr ⟨hk m hm, v, h, rfl⟩) hs
    · simp only [finish, Option.some_or, hf]; rfl
  | _, .defaulted key shape fallback rest, ms, (a, b), h, hd => by
    obtain ⟨hn, hd⟩ := List.nodup_cons.1 hd
    obtain ⟨t, later, rfl, ha, hr⟩ | ⟨ha, hr⟩ := h
    · obtain ⟨slots, hs, hf⟩ := exists_steps_of_hold rest hr hd
      have hk : ∀ m ∈ later, m.1 ≠ key := fun m hm he => hn (he ▸ mem_keys_of_hold rest hr m hm)
      refine ⟨(some a, slots), ⟨(some a, rest.blank), .inl ⟨rfl, rfl, a, ha, rfl⟩, ?_⟩, ?_⟩
      · exact steps_under (fun s => (some a, s)) (fun m hm u v h => .inr ⟨hk m hm, v, h, rfl⟩) hs
      · simp only [finish, hf]; rfl
    · obtain ⟨slots, hs, hf⟩ := exists_steps_of_hold rest hr hd
      have hk : ∀ m ∈ ms, m.1 ≠ key := fun m hm he => hn (he ▸ mem_keys_of_hold rest hr m hm)
      refine ⟨(none, slots),
        steps_under (fun s => (none, s)) (fun m hm u v h => .inr ⟨hk m hm, v, h, rfl⟩) hs, ?_⟩
      obtain rfl : a = fallback := ha
      simp only [finish, hf]; rfl

end Fields

theorem Tree.value_ne_null (t : Tree) : t.value ≠ .null := by
  cases t <;> simp [value]

/-- Values one by one with what they stand for stand for the list. -/
theorem mapM_of_forall₂ {α β : Type} {f : α → Option β} {xs : List α} {ys : List β}
    (h : List.Forall₂ (fun x y => f x = some y) xs ys) : xs.mapM f = some ys := by
  induction h with
  | nil => rfl
  | cons h _ ih => simp [h, ih]

/-- Members that are put into their slots one after the other lead to the last slots. -/
theorem Put.all_memberValues {σ : Type} {closed : Bool} {put : Key → σ → Value → Put σ}
    {R : σ → String × Tree → σ → Prop} {ms : List (String × Tree)} {s s' : σ}
    (hR : ∀ m ∈ ms, ∀ u v, R u m v → put (.named m.1) u m.2.value = .done v) (h : Steps R s ms s') :
    Put.all closed put (Tree.memberValues ms) s = some s' := by
  induction ms generalizing s with
  | nil => obtain rfl : s = s' := h; rfl
  | cons m ms ih =>
    obtain ⟨u, hu, h⟩ := h
    have hp := hR m (List.mem_cons_self ..) s u hu
    simp only [Tree.memberValues, all, Key.ofValue?, hp]
    exact ih (fun n hn => hR n (List.mem_cons_of_mem _ hn)) h

mutual

/-- **A buffered tree that a shape holds stands for what it holds.** -/
theorem Shape.ofValue?_of_holds : {α : Type} → (shape : Shape α) → {t : Tree} → {x : α} →
    shape.Holds t x → shape.ofValue? t.value = some x
  | _, .text, t, x, h => by
    obtain rfl : t = .text x := h
    rfl
  | _, .flag, t, x, h => by
    obtain rfl : t = .flag x := h
    rfl
  | _, .choice title choices, t, x, h => by
    obtain ⟨name, rfl, hx⟩ := h
    exact hx
  | _, .list item, t, xs, h => by
    obtain ⟨ts, rfl, h⟩ := h
    refine mapM_of_forall₂ ?_
    induction h with
    | nil => exact .nil
    | cons h _ ih => exact .cons (Shape.ofValue?_of_holds item h) ih
  | _, .nullable shape, t, x, h => by
    obtain ⟨y, hy, rfl⟩ := h
    have hv := Shape.ofValue?_of_holds shape hy
    rw [Shape.ofValue?, hv]
    · rfl
    · exact t.value_ne_null
  | _, .made shape make, t, x, h => by
    obtain ⟨y, hy, rfl⟩ := h
    rw [Shape.ofValue?, Shape.ofValue?_of_holds shape hy]; rfl
  | _, .buffered title ofValue?, t, x, h => h
  | _, .record title closed fields make, t, x, h => by
    obtain ⟨hd, ms, y, rfl, hm, rfl⟩ := h
    obtain ⟨slots, hs, hf⟩ := Fields.exists_steps_of_hold fields hm hd
    have hp : Put.all closed fields.putValue (Tree.memberValues ms) fields.blank = some slots :=
      Put.all_memberValues (fun m _ u v h => Fields.putValue_of_fills fields h) hs
    simp only [Tree.value, Shape.ofValue?, hp, hf]
    rfl

/-- A buffered member is put into the slot that it fills. -/
theorem Fields.putValue_of_fills : {σ : Type} → (fields : Fields σ) → {m : String × Tree} →
    {s s' : fields.Slots} → fields.Fills s m s' → fields.putValue
    (.named m.1) s m.2.value = .done s'
  | _, .done, _, _, _, h => absurd h id
  | _, .required key shape rest, m, s, s', h => by
    obtain ⟨hk, hs, x, hx, rfl⟩ | ⟨hk, u, hu, rfl⟩ := h
    · simp [Fields.putValue, Put.first, Key.isFor, hk, hs, Shape.ofValue?_of_holds shape hx]
    · simp [Fields.putValue, Put.first, Key.isFor, hk, Key.next?, Put.under,
        Fields.putValue_of_fills rest hu]
  | _, .defaulted key shape fallback rest, m, s, s', h => by
    obtain ⟨hk, hs, x, hx, rfl⟩ | ⟨hk, u, hu, rfl⟩ := h
    · simp [Fields.putValue, Put.first, Key.isFor, hk, hs, Shape.ofValue?_of_holds shape hx]
    · simp [Fields.putValue, Put.first, Key.isFor, hk, Key.next?, Put.under,
        Fields.putValue_of_fills rest hu]

end

/-! ### Levels -/

/-- The reading yields `x` and stops before `rest`, or the levels are too few for the depth and
it ends with that error. -/
def ReadsWithin {ε ι ρ α : Type} (tooDeep : ι → ε) (levels depth : Nat) (r : Except ε (α × ρ)) (x : α)
    (rest : ρ) : Prop :=
  r = .ok (x, rest) ∨ levels < depth ∧ ∃ i, r = .error (tooDeep i)

namespace ReadsWithin

variable {ε ι ρ α β : Type} {tooDeep : ι → ε} {levels depth : Nat} {r : Except ε (α × ρ)} {x : α}
  {y : β} {rest rest' : ρ}

theorem mono (h : ReadsWithin tooDeep levels depth r x rest) {deeper : Nat} (hd : depth ≤ deeper) :
    ReadsWithin tooDeep levels deeper r x rest :=
  h.imp_right fun ⟨hl, he⟩ => ⟨Nat.lt_of_lt_of_le hl hd, he⟩

/-- What comes after a success is read likewise. -/
theorem bind {f : α × ρ → Except ε (β × ρ)} (h : ReadsWithin tooDeep levels depth r x rest)
    (hf : ReadsWithin tooDeep levels depth (f (x, rest)) y rest') :
    ReadsWithin tooDeep levels depth (r.bind f) y rest' := by
  rcases h with rfl | ⟨hl, i, rfl⟩
  · exact hf
  · exact .inr ⟨hl, i, rfl⟩

theorem map (h : ReadsWithin tooDeep levels depth r x rest) (f : α × ρ → β × ρ)
    (hf : f (x, rest) = (y, rest')) : ReadsWithin tooDeep levels depth (r.map f) y rest' := by
  rcases h with rfl | ⟨hl, i, rfl⟩
  · exact .inl (congrArg Except.ok hf)
  · exact .inr ⟨hl, i, rfl⟩

theorem mapValue (h : ReadsWithin tooDeep levels depth r x rest) (f : α → β) :
    ReadsWithin tooDeep levels depth (r.map fun (x, rest) => (f x, rest)) (f x) rest :=
  h.map _ rfl

end ReadsWithin

end Retarget
