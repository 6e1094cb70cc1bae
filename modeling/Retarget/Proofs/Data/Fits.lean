/-
# What a reading can yield

`shape.Fits levels x`: the value `x` can be read where lists and records may nest `levels`
deep.  It bounds the depth of the buffered values in `x`, since a list or record on the way
to them takes one level each.  Both formats yield only values that fit their levels
(`Json.Shape.fits_of_read`, `Yaml.Shape.fits_of_read`), and so does a buffered value with
its depth (`Shape.fits_of_ofValue?`).
-/

import Retarget.Data.Shape

namespace Retarget

/-- There is one more level, and `P` holds of those behind it. -/
def Inward (levels : Nat) (P : Nat → Prop) : Prop := ∃ l, levels = l + 1 ∧ P l

namespace Inward

variable {levels : Nat} {P Q : Nat → Prop}

theorem intro {l : Nat} (h : P l) : Inward (l + 1) P := ⟨l, rfl, h⟩

theorem mono (h : Inward levels P) {more : Nat} (hl : levels ≤ more)
    (hP : ∀ l m, l ≤ m → P l → Q m) : Inward more Q := by
  obtain ⟨l, rfl, h⟩ := h
  exact ⟨more - 1, by omega, hP l _ (by omega) h⟩

end Inward

mutual

/-- The value can be read where collections may nest so many levels deep. -/
def Shape.Fits : {α : Type} → Shape α → (levels : Nat) → α → Prop
  | _, .list item, levels, xs => ∀ x ∈ xs, Inward levels fun l => item.Fits l x
  | _, .nullable shape, levels, x => ∀ y ∈ x, shape.Fits levels y
  | _, .made shape make, levels, x => ∃ y, shape.Fits levels y ∧ x = make y
  | _, .buffered _ ofValue?, levels, x => ∃ v : Value, v.depth ≤ levels ∧ ofValue? v = some x
  | _, .record _ _ fields make, levels, x => ∃ members, fields.Fit levels members ∧ x = make members
  | _, _, _, _ => True

/-- Every member can be read one level further in, or stands for one that was left out. -/
def Fields.Fit : {σ : Type} → Fields σ → (levels : Nat) → σ → Prop
  | _, .done, _, _ => True
  | _, .required _ shape rest, levels, x =>
    ((Inward levels fun l => shape.Fits l x.1) ∨ shape.absent? = some x.1) ∧ rest.Fit levels x.2
  | _, .defaulted _ shape fallback rest, levels, x =>
    ((Inward levels fun l => shape.Fits l x.1) ∨ x.1 = fallback) ∧ rest.Fit levels x.2

end

/-- Nothing of the shape is a record, a choice or a buffered value. -/
def Shape.IsPlain : {α : Type} → Shape α → Prop
  | _, .text => True
  | _, .flag => True
  | _, .list item => item.IsPlain
  | _, .nullable shape => shape.IsPlain
  | _, .made shape _ => shape.IsPlain
  | _, _ => False

namespace Fields

/-- Every slot that is filled holds a value that can be read one level further in. -/
def SlotsFit : {σ : Type} → (fields : Fields σ) → (levels : Nat) → fields.Slots → Prop
  | _, .done, _, _ => True
  | _, .required _ shape rest, levels, slots =>
    (∀ x ∈ slots.1, Inward levels fun l => shape.Fits l x) ∧ rest.SlotsFit levels slots.2
  | _, .defaulted _ shape _ rest, levels, slots =>
    (∀ x ∈ slots.1, Inward levels fun l => shape.Fits l x) ∧ rest.SlotsFit levels slots.2

theorem slotsFit_blank : {σ : Type} → (fields : Fields σ) → (levels : Nat) →
    fields.SlotsFit levels fields.blank
  | _, .done, _ => trivial
  | _, .required _ _ rest, levels => ⟨by simp [blank], slotsFit_blank rest levels⟩
  | _, .defaulted _ _ _ rest, levels => ⟨by simp [blank], slotsFit_blank rest levels⟩

/-- Slots that can be read give a record that can be read. -/
theorem fit_of_finish : {σ : Type} → (fields : Fields σ) → {levels : Nat} → {slots : fields.Slots} →
    {x : σ} → fields.SlotsFit levels slots → fields.finish slots = .ok x → fields.Fit levels x
  | _, .done, _, _, _, _, _ => trivial
  | _, .required key shape rest, levels, slots, x, hs, h => by
    simp only [finish] at h
    split at h
    · simp at h
    · rename_i a ha
      obtain ⟨y, hy, rfl⟩ : ∃ y, rest.finish slots.2 = .ok y ∧ (a, y) = x := by
        cases hr : rest.finish slots.2 <;> simp_all [Except.map]
      refine ⟨?_, fit_of_finish rest hs.2 hy⟩
      rcases Option.or_eq_some_iff.1 ha with ha | ⟨-, ha⟩
      · exact .inl (hs.1 a ha)
      · exact .inr ha
  | _, .defaulted key shape fallback rest, levels, slots, x, hs, h => by
    simp only [finish] at h
    obtain ⟨y, hy, rfl⟩ : ∃ y, rest.finish slots.2 = .ok y ∧ (slots.1.getD fallback, y) = x := by
      cases hr : rest.finish slots.2 <;> simp_all [Except.map]
    refine ⟨?_, fit_of_finish rest hs.2 hy⟩
    cases ha : slots.1 with
    | none => exact .inr rfl
    | some a => exact .inl (hs.1 a ha)

end Fields

mutual

/-- What can be read with some levels can be read with more. -/
theorem Shape.Fits.mono : {α : Type} → (shape : Shape α) → {x : α} → {levels more : Nat} →
    levels ≤ more → shape.Fits levels x → shape.Fits more x
  | _, .text, _, _, _, _, _ => trivial
  | _, .flag, _, _, _, _, _ => trivial
  | _, .choice _ _, _, _, _, _, _ => trivial
  | _, .list item, _, _, _, hl, h => fun x hx => (h x hx).mono hl fun _ _ hl =>
      Shape.Fits.mono item hl
  | _, .nullable shape, _, _, _, hl, h => fun y hy => Shape.Fits.mono shape hl (h y hy)
  | _, .made shape _, _, _, _, hl, h => by
    obtain ⟨y, hy, rfl⟩ := h
    exact ⟨y, Shape.Fits.mono shape hl hy, rfl⟩
  | _, .buffered _ _, _, _, _, hl, h => by
    obtain ⟨v, hv, hx⟩ := h
    exact ⟨v, Nat.le_trans hv hl, hx⟩
  | _, .record _ _ fields _, _, _, _, hl, h => by
    obtain ⟨y, hy, rfl⟩ := h
    exact ⟨y, Fields.Fit.mono fields hl hy, rfl⟩

theorem Fields.Fit.mono : {σ : Type} → (fields : Fields σ) → {x : σ} → {levels more : Nat} →
    levels ≤ more → fields.Fit levels x → fields.Fit more x
  | _, .done, _, _, _, _, _ => trivial
  | _, .required _ shape rest, _, _, _, hl, h =>
    ⟨h.1.imp_left fun h => h.mono hl fun _ _ hl => Shape.Fits.mono shape hl,
      Fields.Fit.mono rest hl h.2⟩
  | _, .defaulted _ shape _ rest, _, _, _, hl, h =>
    ⟨h.1.imp_left fun h => h.mono hl fun _ _ hl => Shape.Fits.mono shape hl,
      Fields.Fit.mono rest hl h.2⟩

end

/-- Whatever a reading yields, with what it leaves of its source, has the property. -/
structure Yields {ε ρ α : Type} (P : α → Prop) (r : Except ε (α × ρ)) : Prop where
  of_ok : ∀ x rest, r = .ok (x, rest) → P x

namespace Yields

variable {ε ρ α β : Type} {P : α → Prop} {Q : β → Prop} {r : Except ε (α × ρ)}

theorem error (e : ε) : Yields P (.error e : Except ε (α × ρ)) := ⟨fun _ _ h => nomatch h⟩

theorem ok {x : α} (h : P x) (rest : ρ) : Yields P (.ok (x, rest) : Except ε (α × ρ)) := by
  refine ⟨?_⟩
  rintro _ _ ⟨⟩
  exact h

theorem mono {P' : α → Prop} (h : Yields P r) (hP : ∀ x, P x → P' x) : Yields P' r :=
  ⟨fun x rest hx => hP x (h.of_ok x rest hx)⟩

/-- What is made of it has the other property. -/
theorem map {ρ' : Type} (h : Yields P r) {f : α × ρ → β × ρ'} (hf : ∀ y, P y.1 → Q (f y).1) :
    Yields Q (r.map f) := by
  cases r with
  | error e => exact error e
  | ok y => exact ok (hf y (h.of_ok y.1 y.2 rfl)) _

/-- So does what is read after it. -/
theorem bind {ρ' : Type} (h : Yields P r) {f : α × ρ → Except ε (β × ρ')}
    (hf : ∀ y, P y.1 → Yields Q (f y)) : Yields Q (r.bind f) := by
  cases r with
  | error e => exact error e
  | ok y => exact hf y (h.of_ok y.1 y.2 rfl)

end Yields

/-! ### Buffered values -/

namespace Value

theorem depthAll_le_iff {vs : List Value} {n : Nat} : depthAll vs ≤ n ↔ ∀ v ∈ vs, v.depth ≤ n := by
  induction vs with
  | nil => simp [depthAll]
  | cons v vs ih => rw [depthAll, Nat.max_le, ih, List.forall_mem_cons]

theorem depthMembers_le_iff {ms : List (Value × Value)} {n : Nat} :
    depthMembers ms ≤ n ↔ ∀ m ∈ ms, m.1.depth ≤ n ∧ m.2.depth ≤ n := by
  induction ms with
  | nil => simp [depthMembers]
  | cons m ms ih =>
    obtain ⟨k, v⟩ := m
    rw [depthMembers, Nat.max_le, Nat.max_le, ih, List.forall_mem_cons]

theorem depth_le_depthAll {v : Value} {vs : List Value} (h : v ∈ vs) : v.depth ≤ depthAll vs :=
  depthAll_le_iff.1 (Nat.le_refl _) v h

theorem depth_le_depthMembers {k v : Value} {ms : List (Value × Value)} (h : (k, v) ∈ ms) :
    v.depth ≤ depthMembers ms :=
  (depthMembers_le_iff.1 (Nat.le_refl _) (k, v) h).2

end Value

/-- What stands for a list comes from its values. -/
theorem exists_of_mapM {α β : Type} {f : α → Option β} {xs : List α} {ys : List β}
    (h : xs.mapM f = some ys) : ∀ y ∈ ys, ∃ x ∈ xs, f x = some y := by
  induction xs generalizing ys with
  | nil =>
    obtain rfl : [] = ys := by simpa using h
    exact fun y hy => absurd hy List.not_mem_nil
  | cons x xs ih =>
    obtain ⟨y, hy, zs, hz, rfl⟩ : ∃ y, f x = some y ∧ ∃ zs, xs.mapM f = some zs ∧ y :: zs = ys := by
      simpa [Option.bind_eq_some_iff] using h
    refine List.forall_mem_cons.2 ⟨⟨x, List.mem_cons_self .., hy⟩, fun z hm => ?_⟩
    obtain ⟨x, hx, hf⟩ := ih hz z hm
    exact ⟨x, List.mem_cons_of_mem _ hx, hf⟩

/-- An invariant of putting each member holds of all the slots. -/
theorem Put.all_induct {σ : Type} {closed : Bool} {put : Key → σ → Value → Put σ} {P : σ → Prop}
    {ms : List (Value × Value)} {s s' : σ}
    (hP : ∀ key u v u', (∃ k, (k, v) ∈ ms) → P u → put key u v = .done u' → P u') (hs : P s)
    (h : Put.all closed put ms s = some s') : P s' := by
  induction ms generalizing s with
  | nil =>
    obtain rfl : s = s' := by simpa [all] using h
    exact hs
  | cons m ms ih =>
    obtain ⟨k, v⟩ := m
    have hP' : ∀ key u v u', (∃ k, (k, v) ∈ ms) → P u → put key u v = .done u' → P u' :=
      fun key u v u' ⟨k, hk⟩ => hP key u v u' ⟨k, List.mem_cons_of_mem _ hk⟩
    rw [all] at h
    split at h
    · simp at h
    · rename_i key _
      split at h
      · rename_i u hu
        exact ih hP' (hP key s v u ⟨k, List.mem_cons_self ..⟩ hs hu) h
      · cases closed
        · exact ih hP' hs (by simpa using h)
        · simp at h
      · simp at h

/-- Members are put into their slots behind the others. -/
theorem Put.all_append {σ : Type} {isClosed : Bool} {put : Key → σ → Value → Put σ}
    (ms ns : List (Value × Value)) (u : σ) : Put.all isClosed put (ms ++ ns) u =
      (Put.all isClosed put ms u).bind (Put.all isClosed put ns) := by
  induction ms generalizing u with
  | nil => rfl
  | cons m ms ih =>
    rw [List.cons_append, Put.all, Put.all]
    split
    · rfl
    · split
      · exact ih _
      · split
        · rfl
        · exact ih u
      · rfl

/-- If all members are put into slots, no one has failed. -/
theorem Put.exists_of_all {σ : Type} {isClosed : Bool} {put : Key → σ → Value → Put σ}
    {ms : List (Value × Value)} {u w : σ} (h : Put.all isClosed put ms u = some w) {m : Value × Value}
    (hm : m ∈ ms) : ∃ key slots, Key.ofValue? m.1 = some key ∧ put key slots m.2 ≠ .failed := by
  induction ms generalizing u with
  | nil => cases hm
  | cons n ms ih =>
    rw [Put.all] at h
    split at h
    · cases h
    · rename_i key hk
      have hput : put key u n.2 ≠ .failed := by
        intro hp
        rw [hp] at h
        cases h
      obtain ⟨v, hv⟩ : ∃ v, Put.all isClosed put ms v = some w := by
        split at h
        · exact ⟨_, h⟩
        · split at h
          · cases h
          · exact ⟨u, h⟩
        · cases h
      rcases List.mem_cons.1 hm with rfl | hm
      · exact ⟨key, u, hk, hput⟩
      · exact ih hv hm

/-- A member that is put into the first slot was found there; else a later slot took it. -/
theorem Put.first_eq_done {α σ : Type} {name : String}
    {value? : Unit → Option α} {later : Key → Put σ}
    {key : Key} {slots slots' : Option α × σ}
    (h : Put.first name value? later key slots = .done slots') :
    (∃ x, value? () = some x ∧ slots' = (some x, slots.2)) ∨
      ∃ key s, later key = .done s ∧ slots' = (slots.1, s) := by
  rw [first] at h
  split at h
  · split at h
    · rename_i x _ hx
      exact .inl ⟨x, hx, by simpa using h.symm⟩
    · simp at h
  · split at h
    · rename_i key _
      cases hl : later key with
      | done s => exact .inr ⟨key, s, hl, by simpa [hl, under] using h.symm⟩
      | unknown => simp [hl, under] at h
      | failed => simp [hl, under] at h
    · simp at h

theorem both?_eq_some {α β : Type} {a : Option α} {b : Option β} {x : α} {y : β}
    (h : both? a b = some (x, y)) : a = some x ∧ b = some y := by
  cases a <;> cases b <;> simp_all [both?]

mutual

/-- **What a buffered value stands for can be read with as many levels as the value is
deep.** -/
theorem Shape.fits_of_ofValue? : {α : Type} → (shape : Shape α) → {v : Value} → {x : α} →
    shape.ofValue? v = some x → shape.Fits v.depth x
  | _, .text, _, _, _ => trivial
  | _, .flag, _, _, _ => trivial
  | _, .choice _ _, _, _, _ => trivial
  | _, .list item, v, xs, h => by
    cases v with
    | list items =>
      intro x hx
      obtain ⟨v, hv, hf⟩ := exists_of_mapM h x hx
      exact .intro ((Shape.fits_of_ofValue? item hf).mono _ (Value.depth_le_depthAll hv))
    | _ => simp [Shape.ofValue?] at h
  | _, .nullable shape, v, x, h => by
    intro y hy
    rw [Option.mem_def.1 hy] at h
    cases v <;> simp [Shape.ofValue?] at h <;> exact Shape.fits_of_ofValue? shape h
  | _, .made shape make, v, x, h => by
    obtain ⟨y, hy, rfl⟩ : ∃ y, shape.ofValue? v = some y ∧ make y = x := by
      simpa [Shape.ofValue?] using h
    exact ⟨y, Shape.fits_of_ofValue? shape hy, rfl⟩
  | _, .buffered _ _, v, _, h => ⟨v, Nat.le_refl _, h⟩
  | _, .record _ closed fields make, v, x, h => by
    cases v with
    | list items =>
      obtain ⟨y, hy, rfl⟩ : ∃ y, fields.ofItems? items = some y ∧ make y = x := by
        simpa [Shape.ofValue?] using h
      exact ⟨y, Fields.fit_of_ofItems? fields (Nat.le_refl _) hy, rfl⟩
    | map ms =>
      simp only [Shape.ofValue?] at h
      split at h
      · rename_i slots hs
        have hfit : fields.SlotsFit (Value.depthMembers ms + 1) slots := by
          refine Put.all_induct (fun key u v u' hv hu hp => ?_) (Fields.slotsFit_blank fields _) hs
          obtain ⟨k, hk⟩ := hv
          exact Fields.slotsFit_of_putValue fields (Value.depth_le_depthMembers hk) hu hp
        cases hf : fields.finish slots with
        | error m => simp [hf, Except.toOption] at h
        | ok y =>
          obtain rfl : make y = x := by simpa [hf, Except.toOption] using h
          exact ⟨y, Fields.fit_of_finish fields hfit hf, rfl⟩
      · simp at h
    | _ => simp [Shape.ofValue?] at h

theorem Fields.fit_of_ofItems? : {σ : Type} → (fields : Fields σ) → {vs : List Value} → {x : σ} →
    {depth : Nat} → Value.depthAll vs ≤ depth → fields.ofItems? vs = some x →
    fields.Fit (depth + 1) x
  | _, .done, _, _, _, _, _ => trivial
  | _, .required _ shape rest, vs, (x, y), depth, hd, h => by
    cases vs with
    | nil => simp [Fields.ofItems?] at h
    | cons v vs =>
      obtain ⟨hx, hy⟩ := both?_eq_some h
      have hv := Nat.le_trans (Nat.le_max_left ..) hd
      have hr := Nat.le_trans (Nat.le_max_right ..) hd
      exact ⟨.inl (.intro ((Shape.fits_of_ofValue? shape hx).mono _ hv)),
        Fields.fit_of_ofItems? rest hr hy⟩
  | _, .defaulted _ shape fallback rest, vs, (x, y), depth, hd, h => by
    cases vs with
    | nil =>
      obtain ⟨hx, hy⟩ := both?_eq_some h
      exact ⟨.inr (Option.some.inj hx).symm, Fields.fit_of_ofItems? rest hd hy⟩
    | cons v vs =>
      obtain ⟨hx, hy⟩ := both?_eq_some h
      have hv := Nat.le_trans (Nat.le_max_left ..) hd
      have hr := Nat.le_trans (Nat.le_max_right ..) hd
      exact ⟨.inl (.intro ((Shape.fits_of_ofValue? shape hx).mono _ hv)),
        Fields.fit_of_ofItems? rest hr hy⟩

theorem Fields.slotsFit_of_putValue : {σ : Type} → (fields : Fields σ) → {key : Key} → {v : Value} →
    {s s' : fields.Slots} → {depth : Nat} → v.depth ≤ depth → fields.SlotsFit (depth + 1) s →
      fields.putValue key s v = .done s' → fields.SlotsFit (depth + 1) s'
  | _, .done, _, _, _, _, _, _, _, _ => trivial
  | _, .required _ shape rest, _, v, s, _, depth, hd, hs, h => by
    rcases Put.first_eq_done h with ⟨x, hx, rfl⟩ | ⟨key, u, hu, rfl⟩
    · refine ⟨fun y hy => ?_, hs.2⟩
      obtain rfl : x = y := Option.some.inj (Option.mem_def.1 hy)
      exact .intro ((Shape.fits_of_ofValue? shape hx).mono _ hd)
    · exact ⟨hs.1, Fields.slotsFit_of_putValue rest hd hs.2 hu⟩
  | _, .defaulted _ shape _ rest, _, v, s, _, depth, hd, hs, h => by
    rcases Put.first_eq_done h with ⟨x, hx, rfl⟩ | ⟨key, u, hu, rfl⟩
    · refine ⟨fun y hy => ?_, hs.2⟩
      obtain rfl : x = y := Option.some.inj (Option.mem_def.1 hy)
      exact .intro ((Shape.fits_of_ofValue? shape hx).mono _ hd)
    · exact ⟨hs.1, Fields.slotsFit_of_putValue rest hd hs.2 hu⟩

end

end Retarget
