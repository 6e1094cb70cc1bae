/-
# What is read fits the levels

Each list or object that is read takes a level, so what comes of it is no deeper than the
levels that were left.  The statements are about whatever a reader yields (`Yields`), and
follow the reader: a loop over items or members keeps an invariant, and a bracket passes on
what is read inside it.
-/

import Retarget.Proofs.Data.Fits
import Retarget.Proofs.Json.Written

namespace Retarget
namespace Json

section Loops

variable {α σ : Type} {P : α → Prop} {I : σ → Prop} {levels : Nat}

theorem closed_yields {b : Bracket} {r : Reading α} (h : Yields P r) : Yields P (b.closed r) := by
  rcases r with e | ⟨x, cs⟩
  · exact .error _
  · rw [Bracket.closed]
    cases b.close cs with
    | error e => exact .error e
    | ok rest => exact .ok (h.of_ok x cs rfl) rest

theorem inside_yields {read : Nat → Reading α} {cs : List Char}
    (h : ∀ l, levels = l + 1 → Yields P (read l)) : Yields P (inside levels read cs) := by
  cases levels with
  | zero => exact .error _
  | succ l => exact h l rfl

theorem items_yields {item : List Char → Reading α} {fuel : Nat} {read : List α} {cs : List Char}
    (h : ∀ cs, Yields P (item cs)) (hr : ∀ x ∈ read, P x) :
    Yields (fun xs => ∀ x ∈ xs, P x) (items item fuel read cs) := by
  induction fuel generalizing read cs with
  | zero => exact .error _
  | succ fuel ih =>
    rw [items]
    split
    · exact .error _
    · exact .ok (fun x hx => hr x (List.mem_reverse.1 hx)) _
    · rename_i cs _
      have hi := h cs
      split
      · exact .error _
      · rename_i x rest he
        exact ih (List.forall_mem_cons.2 ⟨hi.of_ok x rest he, hr⟩)

theorem members_yields {member : σ → List Char → Reading σ} {fuel : Nat} {first : Bool} {s : σ}
    {cs : List Char} (h : ∀ s cs, I s → Yields I (member s cs)) (hs : I s) :
    Yields I (members member fuel first s cs) := by
  induction fuel generalizing first s cs with
  | zero => exact .error _
  | succ fuel ih =>
    rw [members]
    split
    · exact .error _
    · exact .ok hs _
    · rename_i cs _
      have hm := h s cs hs
      split
      · exact .error _
      · rename_i s rest he
        exact ih (hm.of_ok s rest he)

end Loops

/-! ### Values -/

section Numbers

variable {P : Value → Prop} (negative : Bool) (n : Nat) (e : Int) (cs : List Char)

theorem real_yields (hr : ∀ x, P (.real x)) : Yields P (real negative n e cs) := by
  rw [real]
  split
  · exact .error _
  · exact .ok (hr _) _

theorem withExponent_yields (hr : ∀ x, P (.real x)) : Yields P (withExponent negative n e cs) := by
  rw [withExponent]
  split
  · exact .error _
  · split
    · exact .error _
    · split
      · exact real_yields _ _ _ _ hr
      · split
        · exact .error _
        · exact .ok (hr _) _

theorem afterFraction_yields (hr : ∀ x, P (.real x)) : Yields P (afterFraction negative n e cs) := by
  rw [afterFraction.eq_def]
  split
  · exact withExponent_yields _ _ _ _ hr
  · exact withExponent_yields _ _ _ _ hr
  · exact real_yields _ _ _ _ hr

theorem withFraction_yields (hr : ∀ x, P (.real x)) : Yields P (withFraction negative n e cs) := by
  rw [withFraction]
  dsimp only
  split
  · exact .error _
  · exact afterFraction_yields _ _ _ _ hr

theorem afterWhole_yields (hu : ∀ n, P (.unsigned n)) (hs : ∀ i, P (.signed i))
    (hr : ∀ x, P (.real x)) : Yields P (afterWhole negative n cs) := by
  rw [afterWhole.eq_def]
  split
  · exact withFraction_yields _ _ _ _ hr
  · exact withExponent_yields _ _ _ _ hr
  · exact withExponent_yields _ _ _ _ hr
  · split
    · exact .ok (hu _) _
    · split
      · exact .ok (hs _) _
      · exact .ok (hr _) _

/-- A number is read as a value of one of the three kinds of numbers. -/
theorem number_yields (hu : ∀ n, P (.unsigned n)) (hs : ∀ i, P (.signed i))
    (hr : ∀ x, P (.real x)) : Yields P (number negative cs) := by
  cases cs with
  | nil => exact .error _
  | cons c cs =>
    rw [number]
    split
    · split
      · exact afterWhole_yields _ _ _ hu hs hr
      · exact .error _
    · split
      · dsimp only
        split
        · exact afterWhole_yields _ _ _ hu hs hr
        · split
          · exact withFraction_yields _ _ _ _ hr
          · exact afterFraction_yields _ _ _ _ hr
      · exact .error _

end Numbers

/-- A scalar has no depth. -/
def IsFlat (v : Value) : Prop := v.depth = 0

theorem isFlat_ok {v : Value} (h : v.depth = 0) (rest : List Char) :
    Yields IsFlat (.ok (v, rest) : Reading Value) := Yields.ok (P := IsFlat) h rest

theorem number_flat (negative : Bool) (cs : List Char) : Yields IsFlat (number negative cs) :=
  number_yields negative cs (fun _ => rfl) (fun _ => rfl) fun _ => rfl

theorem word_yields {α : Type} {P : α → Prop} {x : α} (h : P x) (w cs : List Char) :
    Yields P ((word w cs).map ((x, ·))) := by
  cases word w cs with
  | error e => exact .error e
  | ok rest => exact .ok h rest

/-- What a value that does not start with a bracket is read as. -/
theorem value_flat {fuel levels : Nat} {cs : List Char} {c : Char} {ds : List Char}
    (h : skipBlank cs = c :: ds) (hl : c ≠ '[') (ho : c ≠ '\x7b') :
    Yields IsFlat (value fuel levels cs) := by
  rw [value.eq_def]
  simp only [h, hl, ho, if_false]
  split
  · cases text [] ds with
    | error e => exact .error e
    | ok s => exact isFlat_ok rfl _
  · repeat' split
    · exact word_yields (P := IsFlat) (by rfl) ..
    · exact word_yields (P := IsFlat) (by rfl) ..
    · exact word_yields (P := IsFlat) (by rfl) ..
    · exact number_flat ..
    · exact number_flat ..
    · exact .error _

/-- The names and values of members nest no deeper than so many levels. -/
def MembersWithin (levels : Nat) (ms : List (Value × Value)) : Prop :=
  ∀ m ∈ ms, m.1.depth ≤ levels ∧ m.2.depth ≤ levels

theorem valueMember_yields {fuel l : Nat} {read : List (Value × Value)} {cs : List Char}
    (hv : ∀ cs, Yields (fun v => v.depth ≤ l) (value fuel l cs)) (hr : MembersWithin l read) :
    Yields (MembersWithin l) (valueMember fuel l read cs) := by
  rw [valueMember]
  split
  · exact .error _
  · split
    · exact .error _
    · rename_i cs _
      have h := hv cs
      split
      · exact .error _
      · rename_i v rest he
        exact .ok (List.forall_mem_cons.2 ⟨⟨Nat.zero_le _, h.of_ok v rest he⟩, hr⟩) rest

/-- **A value is no deeper than the levels that were left for it.** -/
theorem value_yields {fuel levels : Nat} {cs : List Char} :
    Yields (fun v => v.depth ≤ levels) (value fuel levels cs) := by
  induction levels using Nat.strongRecOn generalizing cs with
  | ind levels ih =>
    cases hs : skipBlank cs with
    | nil =>
      rw [value.eq_def]
      simp only [hs]
      exact .error _
    | cons c ds =>
      by_cases hl : c = '['
      · subst hl
        rw [value_list hs]
        refine Yields.map (inside_yields (P := fun vs => Value.depthAll vs + 1 ≤ levels)
          fun l h => ?_)
          fun y hy => hy
        subst h
        refine closed_yields ((items_yields (fun cs => ih l (Nat.lt_succ_self l))
          (by simp)).mono ?_)
        exact fun vs hvs => Nat.succ_le_succ (Value.depthAll_le_iff.2 hvs)
      · by_cases ho : c = '\x7b'
        · subst ho
          rw [value_object hs]
          refine Yields.map (inside_yields
            (P := fun ms => Inward levels fun l => MembersWithin l ms)
            fun l h => ?_) fun y hy => ?_
          · subst h
            refine closed_yields ((members_yields (fun ms cs => ?_) (by simp [MembersWithin])).mono
              fun ms => Inward.intro)
            exact valueMember_yields fun cs => ih l (Nat.lt_succ_self l)
          · obtain ⟨l, rfl, hm⟩ := hy
            exact Nat.succ_le_succ
              (Value.depthMembers_le_iff.2 fun m h => hm m (List.mem_reverse.1 h))
        · exact (value_flat hs hl ho).mono fun v hv => hv ▸ Nat.zero_le _

/-! ### Shapes -/

theorem wrongKind_yields {α : Type} {P : α → Prop} (expected : String) (cs : List Char) :
    Yields P (wrongKind expected cs : Reading α) := by
  rw [wrongKind.eq_def]
  split
  · exact .error _
  · split
    · exact .error _
    · split
      · exact .error _
      · split
        · exact .error _
        · exact .error _

theorem fillFirst_yields {α σ : Type} {P : α → Prop} {read : List Char → Reading α} {name : String}
    {slots : Option α × σ} {cs : List Char} (h : ∀ cs, Yields P (read cs)) :
    Yields (fun s => (∀ x ∈ s.1, P x) ∧ s.2 = slots.2) (fillFirst name read slots cs) := by
  rw [fillFirst]
  split
  · exact .error _
  · refine Yields.map (P := P) ?_ fun y hy => ⟨by simpa using hy, rfl⟩
    rw [memberValue]
    cases colon cs with
    | error e => exact .error e
    | ok cs => exact h cs

theorem under_yields {α σ : Type} {P : α → Prop} {Q : σ → Prop} {slot : Option α}
    {put : Option (Reading σ)} (hs : ∀ x ∈ slot, P x) (h : ∀ r ∈ put, Yields Q r) :
    ∀ r ∈ under slot put, Yields (fun s : Option α × σ => (∀ x ∈ s.1, P x) ∧ Q s.2) r := by
  cases put with
  | none => simp [under]
  | some r =>
    rintro _ ⟨⟩
    exact (h r rfl).map fun y hy => ⟨hs, hy⟩

section Records

variable {α σ : Type} {fields : Fields σ} {fuel levels l : Nat} {isClosed : Bool}

theorem recordMember_yields {slots : fields.Slots} {cs : List Char}
    (hs : fields.SlotsFit levels slots)
    (hp : ∀ slots key cs, fields.SlotsFit levels slots →
      ∀ r ∈ Fields.put fuel fields key slots l cs, Yields (fields.SlotsFit levels) r) :
    Yields (fields.SlotsFit levels) (recordMember fuel isClosed fields l slots cs) := by
  rw [recordMember]
  split
  · exact .error _
  · split
    · rename_i r hr
      exact hp _ _ _ hs r hr
    · split
      · exact .error _
      · generalize (colon _).bind skipValue = skipped
        cases skipped with
        | error e => exact .error e
        | ok rest => exact .ok hs rest

theorem recordMembers_yields {make : σ → α} {cs : List Char}
    (hp : ∀ slots key cs, fields.SlotsFit levels slots →
      ∀ r ∈ Fields.put fuel fields key slots l cs, Yields (fields.SlotsFit levels) r) :
    Yields (fun x => ∃ members, fields.Fit levels members ∧ x = make members)
      (recordMembers fuel isClosed fields make l cs) := by
  have hm : Yields (fields.SlotsFit levels)
      (members (recordMember fuel isClosed fields l) fuel true fields.blank cs) :=
    members_yields (fun slots cs hs => recordMember_yields hs hp) (fields.slotsFit_blank levels)
  rw [recordMembers]
  split
  · exact .error _
  · rename_i slots cs he
    split
    · rename_i x hf
      exact .ok ⟨x, fields.fit_of_finish (hm.of_ok slots cs he) hf, rfl⟩ cs
    · exact .error _

end Records

/-- What follows an item that is read is read behind it. -/
theorem item_yields {α σ : Type} {P : α → Prop} {Q : σ → Prop} {r : Reading α}
    {next : List Char → Reading σ}
    (hr : Yields P r) (hn : ∀ cs, Yields Q (next cs)) :
    Yields (fun s : α × σ => P s.1 ∧ Q s.2) (match r with
      | .error e => .error e
      | .ok (x, cs) => (next cs).map fun (xs, cs) => ((x, xs), cs)) := by
  split
  · exact .error _
  · rename_i x cs
    exact (hn cs).map fun y hy => ⟨hr.of_ok x cs rfl, hy⟩

mutual

/-- **What is read fits the levels that it was read with.** -/
theorem Shape.read_yields (fuel : Nat) : {α : Type} → (shape : Shape α) →
    (levels : Nat) → (cs : List Char) →
    Yields (shape.Fits levels) (Shape.read fuel shape levels cs)
  | _, .text, _, _ => ⟨fun _ _ _ => trivial⟩
  | _, .flag, _, _ => ⟨fun _ _ _ => trivial⟩
  | _, .choice _ _, _, _ => ⟨fun _ _ _ => trivial⟩
  | _, .made shape make, levels, cs => by
    rw [Shape.read]
    exact (Shape.read_yields fuel shape levels cs).map fun y hy => ⟨y.1, hy, rfl⟩
  | _, .buffered title ofValue?, levels, cs => by
    rw [Shape.read]
    have hv : Yields (fun v => v.depth ≤ levels) (value fuel levels cs) := value_yields
    split
    · exact .error _
    · rename_i v rest he
      split
      · rename_i x hx
        exact .ok ⟨v, hv.of_ok v rest he, hx⟩ rest
      · exact .error _
  | _, .nullable shape, levels, cs => by
    rw [Shape.read]
    split
    · exact word_yields (by simp [Shape.Fits]) ..
    · exact (Shape.read_yields fuel shape levels _).map fun y hy => by simpa [Shape.Fits] using hy
  | _, .list item, levels, cs => by
    rw [Shape.read]
    split
    · exact .error _
    · split
      · refine inside_yields fun l h => closed_yields ?_
        subst h
        refine (items_yields (fun cs => Shape.read_yields fuel item l cs) (by simp)).mono
          fun xs hxs x hx => ?_
        exact .intro (hxs x hx)
      · exact wrongKind_yields ..
  | _, .record title isClosed fields make, levels, cs => by
    rw [Shape.read]
    split
    · exact .error _
    · split
      · refine inside_yields fun l h => ?_
        subst h
        refine Yields.map (closed_yields ?_) fun y hy => ⟨y.1, hy, rfl⟩
        exact Fields.readItems_yields fuel fields l _ _ _
      · split
        · refine inside_yields fun l h => closed_yields ?_
          subst h
          exact recordMembers_yields fun slots key cs hs =>
            Fields.put_yields fuel fields l key slots cs hs
        · exact wrongKind_yields ..

theorem Fields.readItems_yields (fuel : Nat) : {σ : Type} → (fields : Fields σ) → (levels : Nat) →
    (expected : String) → (place : Nat) → (cs : List Char) →
      Yields (fields.Fit (levels + 1)) (Fields.readItems fuel fields expected place levels cs)
  | _, .done, _, _, _, _ => ⟨fun _ _ _ => trivial⟩
  | _, .required _ shape rest, levels, expected, place, cs => by
    rw [Fields.readItems]
    split
    · exact .error _
    · exact .error _
    · refine (item_yields (Shape.read_yields fuel shape levels _) fun cs =>
        Fields.readItems_yields fuel rest levels expected (place + 1) cs).mono fun x hx => ?_
      exact ⟨.inl (.intro hx.1), hx.2⟩
  | _, .defaulted _ shape fallback rest, levels, expected, place, cs => by
    rw [Fields.readItems]
    split
    · exact .error _
    · exact (Fields.readItems_yields fuel rest levels expected (place + 1) _).map fun y hy =>
        ⟨.inr rfl, hy⟩
    · refine (item_yields (Shape.read_yields fuel shape levels _) fun cs =>
        Fields.readItems_yields fuel rest levels expected (place + 1) cs).mono fun x hx => ?_
      exact ⟨.inl (.intro hx.1), hx.2⟩

theorem Fields.put_yields (fuel : Nat) : {σ : Type} → (fields : Fields σ) →
    (levels : Nat) → (key : String) →
    (slots : fields.Slots) → (cs : List Char) → fields.SlotsFit (levels + 1) slots →
      ∀ r ∈ Fields.put fuel fields key slots levels cs, Yields (fields.SlotsFit (levels + 1)) r
  | _, .done, _, _, _, _, _ => by simp [Fields.put]
  | _, .required _ shape rest, levels, key, slots, cs, hs => by
    rw [Fields.put]
    split
    · rintro _ ⟨⟩
      refine (fillFirst_yields fun cs => Shape.read_yields fuel shape levels cs).mono fun x hx => ?_
      exact ⟨fun y hy => .intro (hx.1 y hy), hx.2 ▸ hs.2⟩
    · exact under_yields hs.1 (Fields.put_yields fuel rest levels key slots.2 cs hs.2)
  | _, .defaulted _ shape fallback rest, levels, key, slots, cs, hs => by
    rw [Fields.put]
    split
    · rintro _ ⟨⟩
      refine (fillFirst_yields fun cs => Shape.read_yields fuel shape levels cs).mono fun x hx => ?_
      exact ⟨fun y hy => .intro (hx.1 y hy), hx.2 ▸ hs.2⟩
    · exact under_yields hs.1 (Fields.put_yields fuel rest levels key slots.2 cs hs.2)

end

end Json
end Retarget
