/-
# What is read fits the levels

Each sequence or mapping that is read takes a level, also one to which an alias leads, so
what comes of it is no deeper than the levels that were left.  The statements are about
whatever a reader yields (`Yields`), and follow the reader.
-/

import Retarget.Proofs.Data.Fits
import Retarget.Proofs.Yaml.Written

namespace Retarget
namespace Yaml

/-! ### Scalars -/

namespace Meaning

/-- A scalar means no list and no record. -/
def IsFlat : Meaning → Prop
  | known v => v.depth = 0
  | wide _ => True

end Meaning

namespace Resolve

theorem wholeMeaning?_isFlat {w : Bool × Nat} {m : Meaning} (h : wholeMeaning? w = some m) :
    m.IsFlat := by
  rcases eq_of_wholeMeaning? h with ⟨n, rfl⟩ | ⟨i, rfl⟩ | ⟨i, rfl⟩
  · rfl
  · rfl
  · trivial

theorem untagged_isFlat (s : String) : (untagged s).IsFlat := by
  rw [untagged]
  split
  · rfl
  · split
    · rfl
    · split
      · rename_i m hm
        obtain ⟨w, -, hw⟩ := Option.bind_eq_some_iff.1 hm
        exact wholeMeaning?_isFlat hw
      · split <;> rfl

theorem demanded_isFlat {s what : String} {meaning : Option Meaning} {m : Meaning}
    (hm : ∀ x ∈ meaning, x.IsFlat)
    (h : demanded s what meaning = .ok m) : m.IsFlat := by
  cases meaning with
  | none => simp [demanded] at h
  | some x =>
    obtain rfl : x = m := by simpa [demanded] using h
    exact hm x rfl

theorem scalar_isFlat {tag : Option Octets} {s : String} {style : Style} {m : Meaning}
    (h : scalar tag s style = .ok m) : m.IsFlat := by
  rw [scalar.eq_def] at h
  split at h
  · obtain rfl := Except.ok.inj h
    split
    · exact untagged_isFlat s
    · rfl
  · repeat' split at h
    · refine demanded_isFlat (fun x hx => ?_) h
      obtain ⟨b, -, rfl⟩ := Option.map_eq_some_iff.1 hx
      rfl
    · refine demanded_isFlat (fun x hx => ?_) h
      obtain ⟨w, -, hw⟩ := Option.bind_eq_some_iff.1 hx
      exact wholeMeaning?_isFlat hw
    · refine demanded_isFlat (fun x hx => ?_) h
      obtain ⟨b, -, rfl⟩ := Option.map_eq_some_iff.1 hx
      rfl
    · exact demanded_isFlat (by rintro x ⟨⟩; rfl) h
    · exact demanded_isFlat (by simp) h
    · obtain rfl := Except.ok.inj h
      exact untagged_isFlat s
    · obtain rfl := Except.ok.inj h
      rfl

end Resolve

section Loops

variable {s : Stream} {α σ : Type} {P : α → Prop} {I : σ → Prop} {levels : Nat} {path : Path}

theorem misfit_yields (x : Mismatch) (m : Mark) : Yields P (misfit x m path : Reading α) := .error _

theorem placing_yields {m : Mark} {r : Reading α} (h : Yields P r) :
    Yields P (placing m path r) := by
  cases r with
  | error e => exact .error _
  | ok x => exact h

theorem inside_yields {read : Nat → Reading α} {m : Mark}
    (h : ∀ l, levels = l + 1 → Yields P (read l)) :
    Yields P (inside levels m read) := by
  cases levels with
  | zero => exact .error _
  | succ l => exact h l rfl

theorem items_yields {item : Path → Ahead → Reading α} {fuel place : Nat}
    {read : List α} {a : Ahead}
    (h : ∀ path a, Yields P (item path a)) (hr : ∀ x ∈ read, P x) :
    Yields (fun xs => ∀ x ∈ xs, P x) (items s path item fuel read place a) := by
  induction fuel generalizing read place a with
  | zero => exact .error _
  | succ fuel ih =>
    rw [items]
    cases take s a with
    | error e => exact .error e
    | ok t =>
      change Yields _ (if t.1 = .sequenceEnd then .ok (read.reverse, t.2.2) else
        (item (path.item place) a).bind fun t =>
          items s path item fuel (t.1 :: read) (place + 1) t.2)
      split
      · exact .ok (fun x hx => hr x (List.mem_reverse.1 hx)) _
      · exact (h _ a).bind fun y hy => ih (List.forall_mem_cons.2 ⟨hy, hr⟩)

theorem members_yields {member : σ → Path → Ahead → Reading σ} {fuel : Nat} {u : σ} {a : Ahead}
    (h : ∀ u path a, I u → Yields I (member u path a)) (hu : I u) :
    Yields I (members s path member fuel u a) := by
  induction fuel generalizing u a with
  | zero => exact .error _
  | succ fuel ih =>
    rw [members]
    cases take s a with
    | error e => exact .error e
    | ok t =>
      change Yields _ (if t.1 = .mappingEnd then .ok (u, t.2.2) else
        (member u (memberPath path t.1) a).bind fun t => members s path member fuel t.1 t.2)
      split
      · exact .ok hu _
      · exact (h u _ a hu).bind fun y hy => ih hy

end Loops

/-! ### Values -/

theorem depth_of_scalar {tag : Option Octets} {content : String} {style : Style} {v : Value}
    (h : (Resolve.scalar tag content style).bind Meaning.value = .ok v) : v.depth = 0 := by
  cases hm : Resolve.scalar tag content style with
  | error e =>
    rw [hm] at h
    exact nomatch h
  | ok m =>
    rw [hm] at h
    have hf := Resolve.scalar_isFlat hm
    cases m with
    | known w =>
      obtain rfl := Except.ok.inj h
      exact hf
    | wide i => exact nomatch h

section Values

variable {s : Stream} {levels : Nat} {path : Path} {a : Ahead}

/-- The names and values of members nest no deeper than so many levels. -/
def MembersWithin (levels : Nat) (ms : List (Value × Value)) : Prop :=
  ∀ m ∈ ms, m.1.depth ≤ levels ∧ m.2.depth ≤ levels

theorem valueMember_yields {l : Nat} {read : List (Value × Value)} {valuePath : Path}
    (hv : ∀ path a, Yields (fun v => v.depth ≤ l) (value s l path a)) (hr : MembersWithin l read) :
    Yields (MembersWithin l) (valueMember s l path read valuePath a) :=
  (hv path a).bind fun k hk => (hv valuePath k.2).bind fun _ hv =>
    .ok (List.forall_mem_cons.2 ⟨⟨hk, hv⟩, hr⟩) _

/-- **A value is no deeper than the levels that were left for it.** -/
theorem value_yields : Yields (fun v => v.depth ≤ levels) (value s levels path a) := by
  induction levels using Nat.strongRecOn generalizing path a with
  | ind levels ih =>
    cases ho : opened s path a with
    | error e =>
      rw [value, ho]
      exact .error e
    | ok o =>
      rw [value_eq ho]
      split
      · split
        · exact misfit_yields ..
        · split
          · exact misfit_yields ..
          · rename_i hv
            have hd := depth_of_scalar hv
            exact .ok (P := fun v : Value => v.depth ≤ levels) (hd ▸ Nat.zero_le _) _
      · split
        · exact misfit_yields ..
        · refine Yields.map (inside_yields (P := fun vs => Value.depthAll vs + 1 ≤ levels)
            fun l h => ?_)
            fun y hy => hy
          subst h
          refine (items_yields (fun path a => ih l (Nat.lt_succ_self l)) (by simp)).mono
            fun vs hvs => ?_
          exact Nat.succ_le_succ (Value.depthAll_le_iff.2 hvs)
      · split
        · exact misfit_yields ..
        · refine Yields.map (inside_yields
            (P := fun ms => Inward levels fun l => MembersWithin l ms)
            fun l h => ?_) fun y hy => ?_
          · subst h
            refine (members_yields (fun ms valuePath a => ?_) (by simp [MembersWithin])).mono
              fun ms => Inward.intro
            exact valueMember_yields fun path a => ih l (Nat.lt_succ_self l)
          · obtain ⟨l, rfl, hm⟩ := hy
            exact Nat.succ_le_succ
              (Value.depthMembers_le_iff.2 fun m h => hm m (List.mem_reverse.1 h))
      · exact .ok (P := fun v : Value => v.depth ≤ levels) (Nat.zero_le _) _

end Values

/-! ### Shapes -/

theorem wrongKind_yields {α : Type} {P : α → Prop} (expected : String) (o : Opened) :
    Yields P (wrongKind expected o : Reading α) := by
  rw [wrongKind.eq_def]
  split
  · split
    · exact misfit_yields ..
    · exact misfit_yields ..
  · exact misfit_yields ..
  · exact misfit_yields ..
  · exact .error _

theorem fillFirst_yields {α σ : Type} {P : α → Prop} {read : Ahead → Reading α} {name : String}
    {slots : Option α × σ} {a : Ahead} (h : Yields P (read a)) :
    Yields (fun s => (∀ x ∈ s.1, P x) ∧ s.2 = slots.2) (fillFirst name slots read a) := by
  rw [fillFirst]
  split
  · exact .error _
  · exact h.map fun y hy => ⟨by simpa using hy, rfl⟩

theorem under_yields {α σ : Type} {P : α → Prop} {Q : σ → Prop} {slot : Option α}
    {put : Option (Reading σ)} (hs : ∀ x ∈ slot, P x) (h : ∀ r ∈ put, Yields Q r) :
    ∀ r ∈ under slot put, Yields (fun s : Option α × σ => (∀ x ∈ s.1, P x) ∧ Q s.2) r := by
  cases put with
  | none => simp [under]
  | some r =>
    rintro _ ⟨⟩
    exact (h r rfl).map fun y hy => ⟨hs, hy⟩

section Records

variable {α σ : Type} {s : Stream} {fields : Fields σ} {levels l : Nat} {isClosed : Bool}

theorem recordMember_yields {path valuePath : Path} {slots : fields.Slots} {a : Ahead}
    (hs : fields.SlotsFit levels slots)
    (hp : ∀ slots key path a, fields.SlotsFit levels slots →
      ∀ r ∈ Fields.put s fields key slots l path a, Yields (fields.SlotsFit levels) r) :
    Yields (fields.SlotsFit levels) (recordMember s isClosed fields l path slots valuePath a) := by
  rw [recordMember]
  split
  · exact .error _
  · split
    · rename_i r hr
      exact hp _ _ _ _ hs r hr
    · split
      · exact misfit_yields ..
      · generalize skipPieces s _ 0 _ = skipped
        cases skipped with
        | error e => exact .error e
        | ok rest => exact .ok hs rest

theorem finished_yields {make : σ → α} {o : Opened} {r : Reading fields.Slots}
    (h : Yields (fields.SlotsFit levels) r) :
    Yields (fun x => ∃ members, fields.Fit levels members ∧ x = make members)
      (finished fields make o r) := by
  rw [finished.eq_def]
  split
  · exact .error _
  · rename_i slots a
    split
    · rename_i x hf
      exact .ok ⟨x, fields.fit_of_finish (h.of_ok slots a rfl) hf, rfl⟩ _
    · exact .error _

end Records

mutual

/-- **What is read fits the levels that it was read with.** -/
theorem Shape.read_yields (s : Stream) : {α : Type} → (shape : Shape α) →
    (levels : Nat) → (path : Path) →
    (a : Ahead) → Yields (shape.Fits levels) (Shape.read s shape levels path a)
  | _, .text, _, _, _ => ⟨fun _ _ _ => trivial⟩
  | _, .flag, _, _, _ => ⟨fun _ _ _ => trivial⟩
  | _, .choice _ _, _, _, _ => ⟨fun _ _ _ => trivial⟩
  | _, .made shape make, levels, path, a => by
    rw [Shape.read]
    exact (Shape.read_yields s shape levels path a).map fun y hy => ⟨y.1, hy, rfl⟩
  | _, .buffered title ofValue?, levels, path, a => by
    rw [Shape.read]
    have hv : Yields (fun v => v.depth ≤ levels) (value s levels path a) := value_yields
    split
    · exact .error _
    · rename_i v rest he
      split
      · rename_i x hx
        exact .ok ⟨v, hv.of_ok v rest he, hx⟩ rest
      · exact .error _
  | _, .nullable shape, levels, path, a => by
    rw [Shape.read]
    split
    · exact .error _
    · split
      · exact .error _
      · exact .ok (by simp [Shape.Fits]) _
      · exact (Shape.read_yields s shape levels _ _).map fun y hy => by simpa [Shape.Fits] using hy
  | _, .list item, levels, path, a => by
    cases ho : opened s path a with
    | error e =>
      rw [Shape.read, ho]
      exact .error e
    | ok o =>
      rw [read_list ho]
      split
      · refine Yields.map (inside_yields fun l h => placing_yields ?_) fun y hy => hy
        subst h
        refine (items_yields (fun path a => Shape.read_yields s item l path a) (by simp)).mono
          fun xs hxs x hx => ?_
        exact .intro (hxs x hx)
      · split
        · exact .ok (by simp [Shape.Fits]) _
        · exact wrongKind_yields ..
  | _, .record title isClosed fields make, levels, path, a => by
    cases ho : opened s path a with
    | error e =>
      rw [Shape.read, ho]
      exact .error e
    | ok o =>
      rw [read_record ho]
      split
      · refine inside_yields fun l h => placing_yields (finished_yields ?_)
        subst h
        refine members_yields (fun slots valuePath a hs => recordMember_yields hs ?_)
          (fields.slotsFit_blank _)
        exact fun slots key path a hs => Fields.put_yields s fields l key slots path a hs
      · split
        · exact placing_yields (finished_yields (.ok (fields.slotsFit_blank levels) _))
        · exact wrongKind_yields ..

theorem Fields.put_yields (s : Stream) : {σ : Type} → (fields : Fields σ) →
    (levels : Nat) → (key : String) →
    (slots : fields.Slots) → (path : Path) → (a : Ahead) → fields.SlotsFit (levels + 1) slots →
      ∀ r ∈ Fields.put s fields key slots levels path a, Yields (fields.SlotsFit (levels + 1)) r
  | _, .done, _, _, _, _, _, _ => by simp [Fields.put]
  | _, .required _ shape rest, levels, key, slots, path, a, hs => by
    rw [Fields.put]
    split
    · rintro _ ⟨⟩
      refine (fillFirst_yields (Shape.read_yields s shape levels path a)).mono fun x hx => ?_
      exact ⟨fun y hy => .intro (hx.1 y hy), hx.2 ▸ hs.2⟩
    · exact under_yields hs.1 (Fields.put_yields s rest levels key slots.2 path a hs.2)
  | _, .defaulted _ shape fallback rest, levels, key, slots, path, a, hs => by
    rw [Fields.put]
    split
    · rintro _ ⟨⟩
      refine (fillFirst_yields (Shape.read_yields s shape levels path a)).mono fun x hx => ?_
      exact ⟨fun y hy => .intro (hx.1 y hy), hx.2 ▸ hs.2⟩
    · exact under_yields hs.1 (Fields.put_yields s rest levels key slots.2 path a hs.2)

end

end Yaml
end Retarget
