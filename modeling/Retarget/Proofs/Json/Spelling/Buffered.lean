/-
# Reading at once and reading a buffered value

A value can be read as a shape at once, or be buffered first and then be taken for the shape.
Where it can be buffered at all, both come to the same (`Shape.ofValue?_of_value?`).  Only
choices make a difference, since an object stands for a choice in a text alone, so the shapes
are to have none (`Shape.HasNoChoice`).
-/

import Retarget.Proofs.Json.Spelling.Meaning

namespace Retarget

namespace Put

variable {α σ : Type}

/-- The slots after the member, if there are any: an unknown member changes none. -/
def settled (isClosed : Bool) (slots : σ) : Put σ → Option σ
  | done slots => some slots
  | unknown => if isClosed then none else some slots
  | failed => none

theorem settled_under (isClosed : Bool) (slots : Option α × σ) (p : Put σ) :
    (p.under slots.1).settled isClosed slots = (p.settled isClosed slots.2).map (slots.1, ·) := by
  cases p with
  | done s => rfl
  | failed => rfl
  | unknown => cases isClosed <;> rfl

theorem all_cons (isClosed : Bool) (put : Key → σ → Value → Put σ) (key : String) (x : Value)
    (ns : List (Value × Value)) (slots : σ) :
    Put.all isClosed put ((.text key, x) :: ns) slots =
      ((put (.named key) slots x).settled isClosed slots).bind (Put.all isClosed put ns) := by
  rw [Put.all]
  simp only [Key.ofValue?]
  cases put (.named key) slots x with
  | done s => rfl
  | failed => rfl
  | unknown => cases isClosed <;> rfl

end Put

namespace Json

mutual

/-- There is no choice in the shape. -/
def Shape.HasNoChoice : {α : Type} → Shape α → Prop
  | _, .text => True
  | _, .flag => True
  | _, .choice _ _ => False
  | _, .list item => Shape.HasNoChoice item
  | _, .nullable shape => Shape.HasNoChoice shape
  | _, .record _ _ fields _ => Fields.HasNoChoice fields
  | _, .made shape _ => Shape.HasNoChoice shape
  | _, .buffered _ _ => True

/-- There is no choice in the shapes of the members. -/
def Fields.HasNoChoice : {σ : Type} → Fields σ → Prop
  | _, .done => True
  | _, .required _ shape rest => Shape.HasNoChoice shape ∧ Fields.HasNoChoice rest
  | _, .defaulted _ shape _ rest => Shape.HasNoChoice shape ∧ Fields.HasNoChoice rest

end

/-! ### What is buffered -/

/-- What a spelled value is buffered as. -/
inductive Buffers : (levels : Nat) → Spelling → Value → Prop where
  | null {levels : Nat} : Buffers levels (.scalar .null) .null
  | flag {levels : Nat} (b : Bool) : Buffers levels (.scalar (.flag b)) (.flag b)
  | unsigned {levels : Nat} (m : Numeral) (n : Nat) : Buffers levels (.scalar (.number m)) (.unsigned n)
  | signed {levels : Nat} (m : Numeral) (i : Int) : Buffers levels (.scalar (.number m)) (.signed i)
  | real {levels : Nat} (m : Numeral) (r : Binary64) : Buffers levels (.scalar (.number m)) (.real r)
  | text {levels : Nat} {l : Literal} {s : String} (h : l.text? = some s) :
      Buffers levels (.scalar (.text l)) (.text s)
  | list {levels : Nat} {inner : Gap} {xs : List (Spaced Spelling)} {vs : List Value}
      (h : Spelling.values? xs levels = some vs) : Buffers (levels + 1) (.list inner xs) (.list vs)
  | map {levels : Nat} {inner : Gap} {ms : List (Spaced Literal × Spaced Spelling)}
      {ns : List (Value × Value)} (h : Spelling.memberValues? ms levels = some ns) :
      Buffers (levels + 1) (.object inner ms) (.map ns)

theorem buffers_of_value? {v : Spelling} {levels : Nat} {x : Value} (h : v.value? levels = some x) :
    Buffers levels v x := by
  cases v with
  | scalar s =>
    cases s with
    | null => cases h; exact .null
    | flag b => cases h; exact .flag b
    | text l =>
      obtain ⟨s, hs, rfl⟩ := Option.map_eq_some_iff.1 h
      exact .text hs
    | number n =>
      have hn : Yields (Buffers levels (.scalar (.number n))) (number n.negative n.body) :=
        number_yields _ _ (.unsigned n) (.signed n) (.real n)
      obtain ⟨y, hy, rfl⟩ := Option.map_eq_some_iff.1 h
      cases hr : number n.negative n.body with
      | error e => rw [hr] at hy; cases hy
      | ok z =>
        rw [hr] at hy
        cases hy
        exact hn.of_ok y.1 y.2 hr
  | list inner xs =>
    cases levels with
    | zero => cases h
    | succ l =>
      obtain ⟨vs, hv, rfl⟩ := Option.map_eq_some_iff.1 h
      exact .list hv
  | object inner ms =>
    cases levels with
    | zero => cases h
    | succ l =>
      obtain ⟨ns, hn, rfl⟩ := Option.map_eq_some_iff.1 h
      exact .map hn

/-- The members of a map that are spelled, one by one. -/
theorem memberValues?_cons {m : Spaced Literal × Spaced Spelling}
    {ms : List (Spaced Literal × Spaced Spelling)} {levels : Nat} {ns : List (Value × Value)}
    (h : Spelling.memberValues? (m :: ms) levels = some ns) :
    ∃ key x later, m.1.value.text? = some key ∧ m.2.value.value? levels = some x ∧
      Spelling.memberValues? ms levels = some later ∧ ns = (.text key, x) :: later := by
  obtain ⟨⟨b, l, a⟩, ⟨b', v, a'⟩⟩ := m
  rw [Spelling.memberValues?] at h
  split at h
  · rename_i key x later hk hx hl
    cases h
    exact ⟨key, x, later, hk, hx, hl, rfl⟩
  · cases h

theorem values?_cons {x : Spaced Spelling} {xs : List (Spaced Spelling)} {levels : Nat}
    {vs : List Value} (h : Spelling.values? (x :: xs) levels = some vs) :
    ∃ y ys, x.value.value? levels = some y ∧ Spelling.values? xs levels = some ys ∧ vs = y :: ys := by
  obtain ⟨b, v, a⟩ := x
  rw [Spelling.values?] at h
  split at h
  · rename_i y ys hy hys
    cases h
    exact ⟨y, ys, hy, hys, rfl⟩
  · cases h

/-! ### Members put into their slots -/

/-- A buffered member is put where a spelled one goes. -/
theorem settled_first {α σ : Type} {isClosed : Bool} {x? : Spelling → Option α}
    {later? : List (String × Spelling) → σ → Option σ} (hnil : ∀ s, later? [] s = some s)
    {name key : String} {v : Spelling} {value? : Unit → Option α} {later : Key → Put σ}
    {slots : Option α × σ} (hv : value? () = x? v)
    (hl : (later (.named key)).settled isClosed slots.2 = later? [(key, v)] slots.2) :
    (Put.first name value? later (.named key) slots).settled isClosed slots =
      fillNext x? later? name [(key, v)] slots := by
  by_cases hk : key = name
  · rw [fillNext_of_eq hnil hk, Put.first, Key.isFor, if_pos (by simpa using hk), hv]
    obtain ⟨slot, s⟩ := slots
    cases slot with
    | some y => rfl
    | none =>
      rw [fillSlot]
      cases x? v <;> rfl
  · rw [fillNext_of_ne hk, Put.first, Key.isFor, if_neg (by simpa using hk), ← hl]
    exact Put.settled_under isClosed slots _

/-- Members that can be buffered are put into the same slots as spelled ones. -/
theorem all_eq_fill? {σ : Type} (isClosed : Bool) {fields : Fields σ} {levels : Nat}
    {ms : List (Spaced Literal × Spaced Spelling)} {ns : List (Value × Value)}
    (hput : ∀ m ∈ ms, ∀ key x slots, m.2.value.value? levels = some x →
      (fields.putValue (.named key) slots x).settled isClosed slots =
        Fields.fill? isClosed fields levels [(key, m.2.value)] slots)
    (h : Spelling.memberValues? ms levels = some ns) :
    ∃ named, Spelling.named? ms = some named ∧
      ∀ slots, Put.all isClosed fields.putValue ns slots =
        Fields.fill? isClosed fields levels named slots := by
  induction ms generalizing ns with
  | nil =>
    cases h
    exact ⟨[], rfl, fun slots => (Fields.fill?_nil fields levels slots).symm⟩
  | cons m ms ih =>
    obtain ⟨key, x, later, hk, hx, hl, rfl⟩ := memberValues?_cons h
    obtain ⟨named, hn, hall⟩ := ih (fun m hm => hput m (List.mem_cons_of_mem _ hm)) hl
    refine ⟨(key, m.2.value) :: named, ?_, fun slots => ?_⟩
    · rw [Spelling.named?, List.mapM_cons, hk]
      change ((Spelling.named? ms).bind fun ns => some ((key, m.2.value) :: ns)) = _
      rw [hn]
      rfl
    · rw [Put.all_cons, hput m (List.mem_cons_self ..) key x slots hx,
        Fields.fill?_cons fields levels (key, m.2.value) named]
      exact congrArg _ (funext hall)

/-! ### Shapes -/

mutual

/-- **A value that can be buffered is taken for what the shape makes of it at once.** -/
theorem Shape.ofValue?_of_value? : {α : Type} → (shape : Shape α) → Shape.HasNoChoice shape →
    {v : Spelling} → {levels : Nat} → {x : Value} → v.value? levels = some x →
      shape.ofValue? x = Shape.ofSpelling? shape levels v
  | _, .text, _, v, levels, x, h => by
    cases buffers_of_value? h with
    | text hs => exact hs.symm
    | _ => rfl
  | _, .flag, _, v, levels, x, h => by
    cases buffers_of_value? h with
    | _ => rfl
  | _, .choice _ _, hc, _, _, _, _ => hc.elim
  | _, .made shape make, hc, v, levels, x, h => by
    rw [Shape.ofValue?, Shape.ofSpelling?, Shape.ofValue?_of_value? shape hc h]
  | _, .buffered _ ofValue?, _, v, levels, x, h => by
    rw [Shape.ofValue?, Shape.ofSpelling?, h]
    rfl
  | _, .nullable shape, hc, v, levels, x, h => by
    have hs := Shape.ofValue?_of_value? shape hc h
    rw [Shape.ofSpelling?, ← hs]
    cases buffers_of_value? h <;> rfl
  | _, .list item, hc, v, levels, x, h => by
    cases buffers_of_value? h with
    | list hv =>
      rename_i l inner xs vs
      clear h
      change vs.mapM item.ofValue? = xs.mapM fun x => Shape.ofSpelling? item l x.value
      induction xs generalizing vs with
      | nil => cases hv; rfl
      | cons x xs ih =>
        obtain ⟨y, ys, hy, hys, rfl⟩ := values?_cons hv
        rw [List.mapM_cons, List.mapM_cons, ih hys, Shape.ofValue?_of_value? item hc hy]
    | _ => rfl
  | _, .record title isClosed fields make, hc, v, levels, x, h => by
    cases buffers_of_value? h with
    | list hv =>
      rename_i l inner xs vs
      rw [Shape.ofValue?, Shape.ofSpelling?, Fields.ofItems?_of_values? fields hc hv]
      rfl
    | map hn =>
      rename_i l inner ms ns
      obtain ⟨named, hm, hall⟩ := all_eq_fill? isClosed (fun m _ key x slots hx =>
        Fields.putValue_of_value? fields hc key slots hx) hn
      simp only [Shape.ofValue?, Shape.ofSpelling?, hall, hm, deeper, Option.bind_some]
      cases Fields.fill? isClosed fields l named fields.blank <;> rfl
    | _ => rfl

theorem Fields.ofItems?_of_values? : {σ : Type} → (fields : Fields σ) → Fields.HasNoChoice fields →
    {xs : List (Spaced Spelling)} → {levels : Nat} → {vs : List Value} →
      Spelling.values? xs levels = some vs →
        fields.ofItems? vs = Fields.ofSpelledItems? fields levels xs
  | _, .done, _, xs, levels, vs, h => by
    cases xs with
    | nil => cases h; rfl
    | cons x xs => obtain ⟨y, ys, -, -, rfl⟩ := values?_cons h; rfl
  | _, .required _ shape rest, hc, xs, levels, vs, h => by
    cases xs with
    | nil => cases h; rfl
    | cons x xs =>
      obtain ⟨y, ys, hy, hys, rfl⟩ := values?_cons h
      rw [Fields.ofItems?, Fields.ofSpelledItems?, Shape.ofValue?_of_value? shape hc.1 hy,
        Fields.ofItems?_of_values? rest hc.2 hys]
  | _, .defaulted _ shape fallback rest, hc, xs, levels, vs, h => by
    cases xs with
    | nil =>
      cases h
      rw [Fields.ofItems?, Fields.ofSpelledItems?,
        Fields.ofItems?_of_values? rest hc.2 (show Spelling.values? [] levels = some [] from rfl)]
    | cons x xs =>
      obtain ⟨y, ys, hy, hys, rfl⟩ := values?_cons h
      rw [Fields.ofItems?, Fields.ofSpelledItems?, Shape.ofValue?_of_value? shape hc.1 hy,
        Fields.ofItems?_of_values? rest hc.2 hys]

theorem Fields.putValue_of_value? {isClosed : Bool} : {σ : Type} → (fields : Fields σ) →
    Fields.HasNoChoice fields → (key : String) → (slots : fields.Slots) → {v : Spelling} →
    {levels : Nat} → {x : Value} → v.value? levels = some x →
      (fields.putValue (.named key) slots x).settled isClosed slots =
        Fields.fill? isClosed fields levels [(key, v)] slots
  | _, .done, _, key, slots, v, levels, x, h => by
    cases isClosed <;> rfl
  | _, .required name shape rest, hc, key, slots, v, levels, x, h => by
    rw [Fields.putValue]
    exact settled_first (Fields.fill?_nil rest levels) (Shape.ofValue?_of_value? shape hc.1 h)
      (Fields.putValue_of_value? rest hc.2 key slots.2 h)
  | _, .defaulted name shape fallback rest, hc, key, slots, v, levels, x, h => by
    rw [Fields.putValue]
    exact settled_first (Fields.fill?_nil rest levels) (Shape.ofValue?_of_value? shape hc.1 h)
      (Fields.putValue_of_value? rest hc.2 key slots.2 h)

end

end Json
end Retarget
