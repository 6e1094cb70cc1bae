/-
# Shapes are read as they are spelled

A reader of a shape comes to what the shape makes of the spelling (`Shape.reads`).  It takes
the items of a list and the members of an object one after the other, and is told by the
brackets where they end; so each kind of record has a loop of its own here.

A whole text is read as what is spelled in it (`read_text_eq_ok_iff`).
-/

import Retarget.Proofs.Json.Spelling.Meaning
import Retarget.Proofs.Json.Spelling.Skip

namespace Retarget
namespace Json

/-! ### Scalars -/

/-- A value of the wrong kind is an error, whatever it is. -/
theorem exists_wrongKind_eq_error {α : Type} (expected : String) (cs : List Char) :
    ∃ e, (wrongKind expected cs : Except Fault α) = .error e := by
  rw [wrongKind.eq_def]
  split
  · exact ⟨_, rfl⟩
  · split
    · exact ⟨_, rfl⟩
    · split
      · exact ⟨_, rfl⟩
      · split <;> exact ⟨_, rfl⟩

section Scalars

variable {cs rest : List Char}

/-- Only a text starts with a quote. -/
theorem Spelling.content_cases (v : Spelling) (rest : List Char) :
    (∃ l, v = .scalar (.text l)) ∨
      v.content? = none ∧ ∃ c cs, v.spell rest = c :: cs ∧ c ≠ '"' := by
  cases v with
  | scalar s =>
    obtain ⟨c, cs, h, -, -, -, hq, -⟩ := s.exists_spell_eq_cons rest
    by_cases hc : c = '"'
    · obtain ⟨l, rfl⟩ := hq hc
      exact .inl ⟨l, rfl⟩
    · refine .inr ⟨?_, c, cs, h, hc⟩
      cases s with
      | text l => exact absurd (List.cons.inj h).1.symm hc
      | _ => rfl
  | list inner xs =>
    obtain ⟨cs, h, -⟩ := Spelling.spell_list inner xs rest
    exact .inr ⟨rfl, '[', cs, h, by decide⟩
  | object inner ms =>
    obtain ⟨cs, h, -⟩ := Spelling.spell_object inner ms rest
    exact .inr ⟨rfl, '\x7b', cs, h, by decide⟩

theorem textValue_reads (v : Spelling) (h : skipBlank cs = v.spell rest) (expected : String) :
    Reads (textValue expected cs) v.content? rest := by
  rw [textValue, h]
  rcases v.content_cases rest with ⟨l, rfl⟩ | ⟨hn, c, ds, hs, hc⟩
  · exact Spelling.text_reads l rest
  · rw [hs, hn]
    simp only [hc, if_false]
    exact exists_wrongKind_eq_error ..

/-- Only a flag starts with a letter of a flag. -/
theorem Spelling.flag_cases (v : Spelling) (rest : List Char) :
    (∃ b, v = .scalar (.flag b)) ∨ Shape.ofSpelling? .flag 0 v = none ∧
      ∃ c cs, v.spell rest = c :: cs ∧ c ≠ 't' ∧ c ≠ 'f' := by
  cases v with
  | scalar s =>
    obtain ⟨c, cs, h, -, -, -, -, hw⟩ := s.exists_spell_eq_cons rest
    by_cases hc : c = 't' ∨ c = 'f'
    · obtain ⟨b, rfl⟩ := hw hc
      exact .inl ⟨b, rfl⟩
    · obtain ⟨ht, hf⟩ := not_or.1 hc
      refine .inr ⟨?_, c, cs, h, ht, hf⟩
      cases s with
      | flag b => cases b <;> cases (List.cons.inj h).1 <;> contradiction
      | _ => rfl
  | list inner xs =>
    obtain ⟨cs, h, -⟩ := Spelling.spell_list inner xs rest
    exact .inr ⟨rfl, '[', cs, h, by decide, by decide⟩
  | object inner ms =>
    obtain ⟨cs, h, -⟩ := Spelling.spell_object inner ms rest
    exact .inr ⟨rfl, '\x7b', cs, h, by decide, by decide⟩

theorem flagValue_reads (v : Spelling) (h : skipBlank cs = v.spell rest) (levels : Nat) :
    Reads (flagValue cs) (Shape.ofSpelling? .flag levels v) rest := by
  rw [flagValue, h]
  rcases v.flag_cases rest with ⟨b, rfl⟩ | ⟨hn, c, ds, hs, ht, hf⟩
  · cases b <;> rfl
  · rw [hs, show Shape.ofSpelling? .flag levels v = none from hn]
    simp only [ht, hf, if_false]
    exact exists_wrongKind_eq_error ..

/-- Only null starts with its letter. -/
theorem Spelling.null_cases (v : Spelling) (rest : List Char) :
    v = .scalar .null ∨ v.isNull = false ∧ ∃ c cs, v.spell rest = c :: cs ∧ c ≠ 'n' := by
  cases v with
  | scalar s =>
    obtain ⟨c, cs, h, -, -, hn, -⟩ := s.exists_spell_eq_cons rest
    by_cases hc : c = 'n'
    · exact .inl (congrArg _ (hn hc))
    · refine .inr ⟨?_, c, cs, h, hc⟩
      cases s with
      | null => exact absurd (List.cons.inj h).1.symm hc
      | _ => rfl
  | list inner xs =>
    obtain ⟨cs, h, -⟩ := Spelling.spell_list inner xs rest
    exact .inr ⟨rfl, '[', cs, h, by decide⟩
  | object inner ms =>
    obtain ⟨cs, h, -⟩ := Spelling.spell_object inner ms rest
    exact .inr ⟨rfl, '\x7b', cs, h, by decide⟩

theorem nullValue_reads (v : Spelling) (h : skipBlank cs = v.spell rest) :
    if v.isNull then nullValue cs = .ok rest else ∃ e, nullValue cs = .error e := by
  rw [nullValue, h]
  rcases v.null_cases rest with rfl | ⟨hn, c, ds, hs, hc⟩
  · rfl
  · rw [hs, hn]
    simp only [hc, if_false, Bool.false_eq_true]
    exact exists_wrongKind_eq_error ..

end Scalars

/-! ### Choices -/

section Choices

variable {α : Type} (choices : List (String × α)) {cs rest : List Char}

theorem choiceName_reads (v : Spelling) (h : skipBlank cs = v.spell rest) :
    Reads (choiceName choices cs) (v.content?.bind (choices.lookup ·)) rest := by
  rw [choiceName]
  rcases (textValue_reads v h "variant identifier").ends with ⟨name, hv, ht⟩ | ⟨hv, e, ht⟩
  · rw [hv, ht]
    simp only [chosen, Option.bind_some]
    cases choices.lookup name with
    | none => exact ⟨_, rfl⟩
    | some x => rfl
  · rw [hv, ht]
    exact Reads.error e rest

/-- What an object that stands for a choice is read as, after its bracket. -/
def choiceMember (cs : List Char) : Reading α :=
  match choiceName choices cs with
  | .error e => .error e
  | .ok (x, rest) =>
    match (colon rest).bind nullValue with
    | .error e => .error e
    | .ok rest =>
      match skipBlank rest with
      | [] => fail .endInObject []
      | c :: rest => if c = '\x7d' then .ok (x, rest) else fail .noValue (c :: rest)

theorem choiceMember_reads {inner : Gap} {ms : List (Spaced Literal × Spaced Spelling)}
    (h : (Spelling.object inner ms).spell rest = '\x7b' :: cs) :
    Reads (choiceMember choices cs) (chosenMember? choices ms) rest := by
  rcases ms with _ | ⟨⟨⟨b, l, a⟩, ⟨b', v, a'⟩⟩, ms⟩
  · obtain rfl := (List.cons.inj h).2
    have hs : skipBlank (inner.spell ('\x7d' :: rest)) = '\x7d' :: rest := by
      rw [skipBlank_gap, skipBlank_cons rfl]
    obtain ⟨e, he⟩ := exists_wrongKind_eq_error (α := String × List Char) "variant identifier"
      ('\x7d' :: rest)
    refine ⟨e, ?_⟩
    simp only [choiceMember, choiceName, textValue, hs, Char.reduceEq, if_false, he]
  · obtain rfl := (List.cons.inj h).2
    let tail := a'.spell (Spelling.spellMembers ms rest)
    have hl := choiceName_reads choices (.scalar (.text l))
      (Spelling.skipBlank_gap_spell b (.scalar (.text l))
        (a.spell (':' :: b'.spell (v.spell tail))))
    have hnull := nullValue_reads v (Spelling.skipBlank_gap_spell b' v tail)
    -- only the end of the object may follow the null
    have hend : ∃ c more, skipBlank tail = c :: more ∧ (c = '\x7d' → more = rest) ∧
        (c = '\x7d' ↔ ms = []) := by
      cases ms with
      | nil => exact ⟨_, _, by rw [skipBlank_gap]; exact skipBlank_cons rfl _, by simp, by simp⟩
      | cons m ms => exact ⟨_, _, by rw [skipBlank_gap]; exact skipBlank_cons rfl _, by simp, by simp⟩
    obtain ⟨c, more, hskip, hmore, hc⟩ := hend
    change Reads (choiceMember choices (b.spell ((Spelling.scalar (.text l)).spell
      (a.spell (':' :: b'.spell (v.spell tail)))))) _ _
    rw [choiceMember]
    rcases hl.ends with ⟨x, hx, hl⟩ | ⟨hx, e, hl⟩
    · rw [hl]
      dsimp only
      rw [colon_gap, Except.bind]
      split at hnull
      · rename_i hv
        rw [hnull]
        dsimp only
        rw [hskip]
        dsimp only
        by_cases he : ms = []
        · rw [if_pos (hc.2 he), hmore (hc.2 he), he, chosenMember?, if_pos hv]
          exact (congrArg (Reads _ · _) hx).mpr rfl
        · rw [if_neg (fun h => he (hc.1 h))]
          cases ms with
          | nil => exact absurd rfl he
          | cons m ms => exact ⟨_, rfl⟩
      · rename_i hv
        obtain ⟨e, he⟩ := hnull
        rw [he]
        cases ms with
        | nil => rw [chosenMember?, if_neg hv]; exact ⟨_, rfl⟩
        | cons m ms => exact ⟨_, rfl⟩
    · rw [hl]
      cases ms with
      | nil =>
        rw [chosenMember?, show l.text?.bind (choices.lookup ·) = none from hx, ite_self]
        exact ⟨_, rfl⟩
      | cons m ms => exact ⟨_, rfl⟩

theorem choiceValue_reads {levels : Nat} (title : String) (v : Spelling)
    (h : skipBlank cs = v.spell rest) :
    Reads (choiceValue levels choices cs) (Shape.ofSpelling? (.choice title choices) levels v)
      rest := by
  rcases v.content_cases rest with ⟨l, rfl⟩ | ⟨hn, c, ds, hs, hc⟩
  · have hl : Reads (choiceName choices (skipBlank cs)) (l.text?.bind (choices.lookup ·)) rest :=
      choiceName_reads choices (.scalar (.text l)) (by rw [h, Spelling.skipBlank_spell])
    rw [h] at hl
    rw [choiceValue, h]
    exact hl
  · cases v with
    | object inner ms =>
      obtain ⟨ds, hs, -⟩ := Spelling.spell_object inner ms rest
      have hm := choiceMember_reads choices hs
      rw [choiceValue, h, hs]
      simp only [Char.reduceEq, if_false, if_true]
      cases levels with
      | zero => exact ⟨_, rfl⟩
      | succ levels =>
        simp only [Nat.succ_ne_zero, if_false]
        exact hm
    | scalar s =>
      have hb : c ≠ '\x7b' := by
        obtain ⟨d, es, he, -, hne, -⟩ := s.exists_spell_eq_cons rest
        cases (he.symm.trans hs)
        exact hne _ (by simp)
      rw [choiceValue, h, hs, Shape.ofSpelling?, hn]
      simp only [hc, hb, if_false]
      · exact ⟨_, rfl⟩
      · simp
    | list inner xs =>
      obtain ⟨ds, hs, -⟩ := Spelling.spell_list inner xs rest
      rw [choiceValue, h, hs]
      exact ⟨_, rfl⟩

end Choices

/-! ### Records as lists -/

section Items

variable {α σ : Type} {cs rest : List Char}

/-- The text goes on with these items: after the opening bracket for the first ones, else after
an item. -/
def ItemsNext (first : Bool) (xs : List (Spaced Spelling)) (rest cs : List Char) : Prop :=
  if first then ∃ inner, (Spelling.list inner xs).spell rest = '[' :: cs
  else ∃ a : Gap, cs = a.spell (Spelling.spellItems xs rest)

theorem ItemsNext.nextItem {first : Bool} {xs : List (Spaced Spelling)}
    (h : ItemsNext first xs rest cs) :
    nextItem first cs = .ok (Spelling.itemsFrom rest xs) := by
  cases first with
  | false =>
    obtain ⟨a, rfl⟩ := h
    exact Spelling.nextItem_spellItems a xs rest
  | true =>
    obtain ⟨inner, h⟩ := h
    obtain ⟨ds, hs, hn⟩ := Spelling.spell_list inner xs rest
    exact (List.cons.inj (hs.symm.trans h)).2 ▸ hn

/-- A list may be closed only where no items are left. -/
theorem ItemsNext.close {first : Bool} {xs : List (Spaced Spelling)}
    (h : ItemsNext first xs rest cs) :
    if xs.isEmpty then Bracket.list.close cs = .ok rest
    else ∃ e, Bracket.list.close cs = .error e := by
  cases xs with
  | nil =>
    have hs : skipBlank cs = ']' :: rest := by
      cases first with
      | false =>
        obtain ⟨a, rfl⟩ := h
        rw [skipBlank_gap]
        exact skipBlank_cons rfl rest
      | true =>
        obtain ⟨inner, h⟩ := h
        rw [← (List.cons.inj h).2, skipBlank_gap]
        exact skipBlank_cons rfl rest
    rw [List.isEmpty_nil, if_pos rfl, Bracket.close, hs]
    rfl
  | cons x xs =>
    have hs : ∃ c ds, skipBlank cs = c :: ds ∧ c ≠ ']' := by
      cases first with
      | false =>
        obtain ⟨a, rfl⟩ := h
        exact ⟨',', _, by rw [skipBlank_gap]; exact skipBlank_cons rfl _, by decide⟩
      | true =>
        obtain ⟨inner, h⟩ := h
        obtain ⟨c, ds, hc, -, hne, -⟩ :=
          x.value.exists_spell_eq_cons (x.after.spell (Spelling.spellItems xs rest))
        refine ⟨c, ds, ?_, hne⟩
        rw [← (List.cons.inj h).2, ← hc]
        exact Spelling.skipBlank_gap_spell ..
    obtain ⟨c, ds, hs, hc⟩ := hs
    rw [List.isEmpty_cons, if_neg Bool.false_ne_true, Bracket.close, hs]
    simp only [Bracket.closing, hc, if_false]
    split
    · split <;> exact ⟨_, rfl⟩
    · exact ⟨_, rfl⟩

/-- What is made of the members makes no difference to how they are closed. -/
theorem Bracket.closed_map (b : Bracket) (r : Reading α) (f : α → σ) :
    (b.closed (r.map fun (x, cs) => (f x, cs))) = (b.closed r).map fun (x, cs) => (f x, cs) := by
  cases r with
  | error e => rfl
  | ok x =>
    simp only [Bracket.closed, Except.map]
    cases b.close x.2 <;> rfl

theorem Reads.closed_error {b : Bracket} (e : Fault) :
    Reads (b.closed (.error e : Reading α)) none rest := Reads.error _ rest

/-- An item is read, and then those that follow it. -/
theorem Reads.closed_item {β : Type} {r : Reading α} {x? : Option α} {y? : Option β}
    {later : List Char → Reading β} {cs : List Char} (hr : Reads r x? cs)
    (hl : Reads (Bracket.list.closed (later cs)) y? rest) :
    Reads (Bracket.list.closed (match r with
      | .error e => .error e
      | .ok (x, cs) => (later cs).map fun (y, cs) => ((x, y), cs))) (both? x? y?) rest := by
  rcases hr.ends with ⟨x, rfl, rfl⟩ | ⟨rfl, e, rfl⟩
  · dsimp only
    rw [both?_some, Bracket.closed_map]
    exact hl.map _
  · exact Reads.closed_error e

end Items

/-! ### Records as objects -/

section Members

variable {σ : Type} {cs ds rest : List Char}

/-- A member alone, put into its slot. -/
def recordStep? (isClosed : Bool) (fields : Fields σ) (levels : Nat) (slots : fields.Slots)
    (m : Spaced Literal × Spaced Spelling) : Option fields.Slots :=
  m.1.value.text?.bind fun key =>
    Fields.fill? isClosed fields levels [(key, m.2.value)] slots

theorem foldlM_recordStep? (isClosed : Bool) (fields : Fields σ) (levels : Nat)
    (ms : List (Spaced Literal × Spaced Spelling)) (slots : fields.Slots) :
    ms.foldlM (recordStep? isClosed fields levels) slots =
      (Spelling.named? ms).bind fun ms => Fields.fill? isClosed fields levels ms slots := by
  induction ms generalizing slots with
  | nil => exact (Fields.fill?_nil fields levels slots).symm
  | cons m ms ih =>
    rw [List.foldlM_cons, recordStep?, Spelling.named?, List.mapM_cons]
    cases m.1.value.text? with
    | none => rfl
    | some key =>
      change ((Fields.fill? isClosed fields levels [(key, m.2.value)] slots).bind
          fun s => ms.foldlM (recordStep? isClosed fields levels) s) =
        ((Spelling.named? ms).bind fun ns => some ((key, m.2.value) :: ns)).bind
          fun ms => Fields.fill? isClosed fields levels ms slots
      simp only [ih]
      cases Spelling.named? ms with
      | none => cases Fields.fill? isClosed fields levels [(key, m.2.value)] slots <;> rfl
      | some ns => exact (Fields.fill?_cons fields levels (key, m.2.value) ns slots).symm

/-- The value of a member is read into its slot, unless the slot is taken. -/
theorem fillFirst_reads {α : Type} {read : List Char → Reading α} {x? : Spelling → Option α}
    {name key : String} {v : Spelling} (hc : colon cs = .ok ds) (hv : Reads (read ds) (x? v) rest)
    (slots : Option α × σ) :
    Reads (fillFirst name read slots cs) ((fillSlot x? slots.1 [(key, v)]).map (·, slots.2))
      rest := by
  rw [fillFirst]
  cases slots.1 with
  | some x => exact Reads.error _ rest
  | none =>
    rw [memberValue, hc, fillSlot, Option.map_map]
    exact hv.map fun x => (some x, slots.2)

/-- A member that has a slot is read into it, and without a slot it is unknown. -/
def PutReads (isClosed : Bool) (slots : σ) (filled? : Option σ) (put : Option (Reading σ))
    (rest : List Char) : Prop :=
  match put with
  | some r => Reads r filled? rest
  | none => filled? = if isClosed then none else some slots

theorem fillNext_putReads {α : Type} {isClosed : Bool} {x? : Spelling → Option α}
    {later? : List (String × Spelling) → σ → Option σ} (hnil : ∀ s, later? [] s = some s)
    {name key : String} {v : Spelling} {slots : Option α × σ} {read : List Char → Reading α}
    {put : Option (Reading σ)} (hc : colon cs = .ok ds) (hv : Reads (read ds) (x? v) rest)
    (hput : PutReads isClosed slots.2 (later? [(key, v)] slots.2) put rest) :
    PutReads isClosed slots (fillNext x? later? name [(key, v)] slots)
      (if key = name then some (fillFirst name read slots cs) else under slots.1 put) rest := by
  by_cases hk : key = name
  · rw [if_pos hk, fillNext_of_eq hnil hk]
    exact fillFirst_reads hc hv slots
  · rw [if_neg hk, fillNext_of_ne hk]
    cases put with
    | none =>
      rw [PutReads] at hput
      rw [under, PutReads, hput]
      cases isClosed <;> rfl
    | some r => exact Reads.map hput _

theorem recordMember_reads {fuel levels : Nat} {isClosed : Bool} {fields : Fields σ}
    {m : Spaced Literal × Spaced Spelling} {slots : fields.Slots}
    (hput : ∀ key {cs ds}, colon cs = .ok ds → skipBlank ds = m.2.value.spell rest →
      PutReads isClosed slots (Fields.fill? isClosed fields levels [(key, m.2.value)] slots)
        (Fields.put fuel fields key slots levels cs) rest) (hr : Ends rest) :
    Reads (recordMember fuel isClosed fields levels slots (Spelling.memberFrom m rest))
      (recordStep? isClosed fields levels slots m) rest := by
  have hc := colon_gap m.1.after (m.2.before.spell (m.2.value.spell rest))
  have hs := Spelling.skipBlank_gap_spell m.2.before m.2.value rest
  rw [recordMember, Spelling.memberFrom, recordStep?]
  rcases (Spelling.text_reads m.1.value _).ends with ⟨key, hk, ht⟩ | ⟨hk, e, ht⟩
  · rw [ht, hk, Option.bind_some]
    dsimp only
    have hp := hput key hc hs
    split
    · rename_i r he
      rw [he] at hp
      exact hp
    · rename_i he
      rw [he, PutReads] at hp
      rw [hp]
      cases isClosed with
      | true => exact Reads.error _ rest
      | false =>
        rw [hc, Except.bind, skipValue_spell m.2.value hr hs]
        rfl
  · rw [ht, hk]
    exact Reads.error e rest

/-- The members of an object fill the slots of a record, and the slots make the record. -/
theorem recordMembers_reads {α : Type} {fuel levels : Nat} {isClosed : Bool} {fields : Fields σ}
    {make : σ → α} {ms : List (Spaced Literal × Spaced Spelling)} (hf : ms.length < fuel)
    (hn : nextMember true cs = .ok (Spelling.membersFrom rest ms))
    (hput : ∀ m ∈ ms, ∀ key slots {cs ds rest}, colon cs = .ok ds → Ends rest →
      skipBlank ds = m.2.value.spell rest →
        PutReads isClosed slots (Fields.fill? isClosed fields levels [(key, m.2.value)] slots)
          (Fields.put fuel fields key slots levels cs) rest) :
    Reads (recordMembers fuel isClosed fields make levels cs)
      (((Spelling.named? ms).bind fun ms =>
        (Fields.fill? isClosed fields levels ms fields.blank).bind fun slots =>
          (fields.finish slots).toOption).map make) ('\x7d' :: rest) := by
  have hm : Reads (members (recordMember fuel isClosed fields levels) fuel true fields.blank cs)
      (ms.foldlM (recordStep? isClosed fields levels) fields.blank) ('\x7d' :: rest) :=
    members_reads (fun m hm slots rest hr => recordMember_reads
      (fun key _ _ hc hs => hput m hm key slots hc hr hs) hr) hf hn
  rw [foldlM_recordStep?] at hm
  rw [recordMembers, ← Option.bind_assoc]
  rcases hm.ends with ⟨slots, hs, hm⟩ | ⟨hs, e, hm⟩
  · rw [hm, hs, Option.bind_some]
    dsimp only
    cases fields.finish slots with
    | error m => exact Reads.error _ _
    | ok x => rfl
  · rw [hm, hs]
    exact Reads.error e _

end Members

/-! ### Shapes -/

mutual

/-- **A value is read by a shape as it is spelled.** -/
theorem Shape.reads {fuel : Nat} : {α : Type} → (shape : Shape α) → (v : Spelling) →
    v.size ≤ fuel → ∀ {levels : Nat} {cs rest : List Char}, Ends rest →
      skipBlank cs = v.spell rest →
        Reads (Shape.read fuel shape levels cs) (Shape.ofSpelling? shape levels v) rest
  | _, .text, v, _, levels, cs, rest, _, h => by
    rw [Shape.read]
    exact textValue_reads v h _
  | _, .flag, v, _, levels, cs, rest, _, h => by
    rw [Shape.read]
    exact flagValue_reads v h levels
  | _, .choice title choices, v, _, levels, cs, rest, _, h => by
    rw [Shape.read]
    exact choiceValue_reads choices title v h
  | _, .made shape make, v, hz, levels, cs, rest, hr, h => by
    rw [Shape.read, Shape.ofSpelling?]
    exact (Shape.reads shape v hz hr h).map make
  | _, .buffered title ofValue?, v, hz, levels, cs, rest, hr, h => by
    rw [Shape.read, Shape.ofSpelling?]
    have hvalue : Reads (value fuel levels cs) (v.value? levels) rest := v.value_reads hz hr h
    rcases hvalue.ends with ⟨x, hx, hv⟩ | ⟨hx, e, hv⟩
    · rw [hv, hx]
      dsimp only [Option.bind_some]
      cases ofValue? x with
      | none => exact Reads.error _ rest
      | some y => rfl
    · rw [hv, hx]
      exact Reads.error e rest
  | _, .nullable shape, v, hz, levels, cs, rest, hr, h => by
    rw [Shape.read, Shape.ofSpelling?, h]
    rcases v.null_cases rest with rfl | ⟨hn, c, ds, hs, hc⟩
    · rfl
    · have hb : skipBlank (c :: ds) = v.spell rest := by rw [← hs, Spelling.skipBlank_spell]
      rw [hs, hn]
      split
      · rename_i he
        exact absurd (List.cons.inj he).1 hc
      · exact (Shape.reads shape v hz hr hb).map some
  | _, .list item, v, hz, levels, cs, rest, hr, h => by
    rw [Shape.read, h]
    cases v with
    | list inner xs =>
      obtain ⟨ds, hs, hn⟩ := Spelling.spell_list inner xs rest
      have hl := Spelling.length_le_sizeAll xs
      rw [Spelling.size] at hz
      rw [hs, Shape.ofSpelling?]
      simp only [if_true]
      refine Reads.inside fun l _ => Reads.closed ?_
      have hitem : ∀ x ∈ xs, ∀ {cs rest}, Ends rest → skipBlank cs = x.value.spell rest →
          Reads (Shape.read fuel item l cs) (Shape.ofSpelling? item l x.value) rest := fun x hx =>
        fun hr h => Shape.reads item x.value (by have := Spelling.size_le_sizeAll hx; omega) hr h
      simpa [Bracket.closing] using items_reads (Shape.ofSpelling? item l) [] hitem (by omega) hn
    | object inner ms =>
      obtain ⟨ds, hs, -⟩ := Spelling.spell_object inner ms rest
      rw [hs]
      simp only [Char.reduceEq, if_false]
      exact exists_wrongKind_eq_error ..
    | scalar s =>
      obtain ⟨c, ds, hs, -, hne, -⟩ := s.exists_spell_eq_cons rest
      rw [Spelling.spell, hs]
      simp only [hne '[' (by simp), if_false]
      exact exists_wrongKind_eq_error ..
  | _, .record title isClosed fields make, v, hz, levels, cs, rest, hr, h => by
    cases v with
    | list inner xs =>
      obtain ⟨ds, hs, -⟩ := Spelling.spell_list inner xs rest
      rw [Spelling.size] at hz
      rw [Shape.read, Shape.ofSpelling?, h, hs]
      simp only [if_true]
      have hi : Reads (inside levels (fun l => (Bracket.list.closed (Fields.readItems fuel fields
            (fields.counted title) 0 l ds)).map fun (x, rest) => (make x, rest)) ds)
          (deeper levels fun l => (Fields.ofSpelledItems? fields l xs).map make) rest :=
        Reads.inside fun l _ => (Fields.readItems_reads fields _ xs (by omega)
          (show ItemsNext (0 == 0) xs rest ds from ⟨inner, hs⟩)).map make
      convert hi using 1
      cases levels <;> rfl
    | object inner ms =>
      obtain ⟨ds, hs, hn⟩ := Spelling.spell_object inner ms rest
      have hl := Spelling.length_le_sizeMembers ms
      rw [Spelling.size] at hz
      rw [read_record (h.trans hs), Shape.ofSpelling?]
      have hi : Reads (inside levels (fun l => Bracket.object.closed
            (recordMembers fuel isClosed fields make l ds)) ds)
          (deeper levels fun l => ((Spelling.named? ms).bind fun ms =>
            (Fields.fill? isClosed fields l ms fields.blank).bind fun slots =>
              (fields.finish slots).toOption).map make) rest := by
        refine Reads.inside fun l _ => Reads.closed ?_
        refine recordMembers_reads (by omega) hn fun m hm key slots _ _ _ hc hr h => ?_
        have := Spelling.size_le_sizeMembers hm
        exact Fields.put_reads fields key m.2.value (by omega) slots hc hr h
      convert hi using 1
      cases levels <;> rfl
    | scalar s =>
      obtain ⟨c, ds, hs, -, hne, -⟩ := s.exists_spell_eq_cons rest
      rw [Shape.read, h, Spelling.spell, hs]
      simp only [hne '[' (by simp), hne '\x7b' (by simp), if_false]
      exact exists_wrongKind_eq_error ..

theorem Fields.readItems_reads {fuel : Nat} : {σ : Type} → (fields : Fields σ) →
    (expected : String) → (xs : List (Spaced Spelling)) → Spelling.sizeAll xs ≤ fuel →
    ∀ {place levels : Nat} {cs rest : List Char}, ItemsNext (place == 0) xs rest cs →
      Reads (Bracket.list.closed (Fields.readItems fuel fields expected place levels cs))
        (Fields.ofSpelledItems? fields levels xs) rest
  | _, .done, expected, xs, _, place, levels, cs, rest, h => by
    have hc := h.close
    rw [Fields.readItems, Fields.ofSpelledItems?, Bracket.closed]
    split
    · rename_i he
      rw [if_pos he] at hc
      rw [hc]
      rfl
    · rename_i he
      rw [if_neg he] at hc
      obtain ⟨e, hc⟩ := hc
      rw [hc]
      exact Reads.error e rest
  | _, .required key shape later, expected, xs, hz, place, levels, cs, rest, h => by
    rw [Fields.readItems, h.nextItem]
    rcases xs with _ | ⟨⟨b, v, a⟩, xs⟩
    · exact Reads.closed_error _
    · rw [Spelling.sizeAll] at hz
      exact Reads.closed_item
        (Shape.reads shape v (by omega) (ends_gap (Spelling.ends_spellItems xs rest) a)
          (v.skipBlank_spell _))
        (Fields.readItems_reads later expected xs (by omega)
          (show ItemsNext (place + 1 == 0) xs rest _ from ⟨a, rfl⟩))
  | _, .defaulted key shape fallback later, expected, xs, hz, place, levels, cs, rest, h => by
    rw [Fields.readItems, h.nextItem]
    rcases xs with _ | ⟨⟨b, v, a⟩, xs⟩
    · have hl : Reads (Bracket.list.closed
          (Fields.readItems fuel later expected (place + 1) levels (']' :: rest)))
          (Fields.ofSpelledItems? later levels []) rest :=
        Fields.readItems_reads later expected [] (by simp [Spelling.sizeAll])
          (show ItemsNext (place + 1 == 0) [] rest _ from ⟨[], rfl⟩)
      simp only [Spelling.itemsFrom]
      rw [Bracket.closed_map, Fields.ofSpelledItems?, both?_some]
      exact hl.map _
    · rw [Spelling.sizeAll] at hz
      exact Reads.closed_item
        (Shape.reads shape v (by omega) (ends_gap (Spelling.ends_spellItems xs rest) a)
          (v.skipBlank_spell _))
        (Fields.readItems_reads later expected xs (by omega)
          (show ItemsNext (place + 1 == 0) xs rest _ from ⟨a, rfl⟩))

theorem Fields.put_reads {fuel : Nat} {isClosed : Bool} : {σ : Type} → (fields : Fields σ) →
    (key : String) → (v : Spelling) → v.size ≤ fuel → (slots : fields.Slots) →
    ∀ {levels : Nat} {cs ds rest : List Char}, colon cs = .ok ds → Ends rest →
      skipBlank ds = v.spell rest →
        PutReads isClosed slots (Fields.fill? isClosed fields levels [(key, v)] slots)
          (Fields.put fuel fields key slots levels cs) rest
  | _, .done, key, v, _, slots, levels, cs, ds, rest, _, _, _ => by
    rw [Fields.put, PutReads, Fields.fill?]
    cases isClosed <;> rfl
  | _, .required name shape later, key, v, hz, slots, levels, cs, ds, rest, hc, hr, h => by
    rw [Fields.put]
    exact fillNext_putReads (Fields.fill?_nil later levels) hc (Shape.reads shape v hz hr h)
      (Fields.put_reads later key v hz slots.2 hc hr h)
  | _, .defaulted name shape fallback later, key, v, hz, slots, levels, cs, ds, rest, hc, hr, h => by
    rw [Fields.put]
    exact fillNext_putReads (Fields.fill?_nil later levels) hc (Shape.reads shape v hz hr h)
      (Fields.put_reads later key v hz slots.2 hc hr h)

end

/-! ### Whole texts -/

namespace Spelling

theorem size_le_length_scalar (s : Scalar) (rest : List Char) :
    rest.length + 1 ≤ (s.spell rest).length := by
  cases s with
  | null => simp [Scalar.spell]
  | flag b => cases b <;> simp [Scalar.spell]
  | text l =>
    simp only [Scalar.spell, Literal.spell, Literal.spellOpen, List.length_cons, List.length_append]
    omega
  | number n =>
    obtain ⟨d, cs, hb⟩ := n.exists_body_eq_cons
    rcases n.chars_eq with ⟨-, hc⟩ | ⟨-, hc⟩ <;>
    · simp only [Scalar.spell, hc, hb, List.length_cons, List.length_append]
      omega

theorem length_le_length_gap (g : Gap) (cs : List Char) : cs.length ≤ (g.spell cs).length := by
  simp [Gap.spell]

theorem length_le_length_member (b : Gap) (l : Literal) (a b' : Gap) (cs : List Char) :
    cs.length ≤ (b.spell (l.spell (a.spell (':' :: b'.spell cs)))).length := by
  have h1 := length_le_length_gap b (l.spell (a.spell (':' :: b'.spell cs)))
  have h2 := length_le_length_gap a (':' :: b'.spell cs)
  have h3 := length_le_length_gap b' cs
  simp only [Literal.spell, Literal.spellOpen, List.length_cons, List.length_append] at *
  omega

mutual

/-- Each value is spelled with at least one character. -/
theorem size_le_length_spell : ∀ (v : Spelling) (rest : List Char),
    v.size + rest.length ≤ (v.spell rest).length
  | scalar s, rest => by
    have := size_le_length_scalar s rest
    rw [size, spell]
    omega
  | list inner [], rest => by
    have := length_le_length_gap inner (']' :: rest)
    simp only [size, sizeAll, spell, List.length_cons] at *
    omega
  | list inner (⟨b, v, a⟩ :: xs), rest => by
    have h1 := length_le_length_gap b (v.spell (a.spell (spellItems xs rest)))
    have h2 := size_le_length_spell v (a.spell (spellItems xs rest))
    have h3 := length_le_length_gap a (spellItems xs rest)
    have h4 := sizeAll_le_length_spellItems xs rest
    simp only [size, sizeAll, spell, List.length_cons]
    omega
  | object inner [], rest => by
    have := length_le_length_gap inner ('\x7d' :: rest)
    simp only [size, sizeMembers, spell, List.length_cons] at *
    omega
  | object inner ((⟨b, l, a⟩, ⟨b', v, a'⟩) :: ms), rest => by
    have h1 := length_le_length_member b l a b' (v.spell (a'.spell (spellMembers ms rest)))
    have h2 := size_le_length_spell v (a'.spell (spellMembers ms rest))
    have h3 := length_le_length_gap a' (spellMembers ms rest)
    have h4 := sizeMembers_le_length_spellMembers ms rest
    simp only [size, sizeMembers, spell, List.length_cons]
    omega

theorem sizeAll_le_length_spellItems : ∀ (xs : List (Spaced Spelling)) (rest : List Char),
    sizeAll xs + rest.length ≤ (spellItems xs rest).length
  | [], rest => by simp [sizeAll, spellItems]
  | ⟨b, v, a⟩ :: xs, rest => by
    have h1 := length_le_length_gap b (v.spell (a.spell (spellItems xs rest)))
    have h2 := size_le_length_spell v (a.spell (spellItems xs rest))
    have h3 := length_le_length_gap a (spellItems xs rest)
    have h4 := sizeAll_le_length_spellItems xs rest
    simp only [sizeAll, spellItems, List.length_cons]
    omega

theorem sizeMembers_le_length_spellMembers :
    ∀ (ms : List (Spaced Literal × Spaced Spelling)) (rest : List Char),
    sizeMembers ms + rest.length ≤ (spellMembers ms rest).length
  | [], rest => by simp [sizeMembers, spellMembers]
  | (⟨b, l, a⟩, ⟨b', v, a'⟩) :: ms, rest => by
    have h1 := length_le_length_member b l a b' (v.spell (a'.spell (spellMembers ms rest)))
    have h2 := size_le_length_spell v (a'.spell (spellMembers ms rest))
    have h3 := length_le_length_gap a' (spellMembers ms rest)
    have h4 := sizeMembers_le_length_spellMembers ms rest
    simp only [sizeMembers, spellMembers, List.length_cons]
    omega

end

end Spelling

/-- **A text is read as what is spelled in it.** -/
theorem read_text {α : Type} (shape : Shape α) (t : Spaced Spelling) :
    match Shape.ofSpelling? shape depthLimit t.value with
    | some x => read shape (Spelling.text t) = .ok x
    | none => ∃ e, read shape (Spelling.text t) = .error e := by
  have hr : Ends (t.after.spell []) := ends_gap ends_nil t.after
  have hz : t.value.size ≤ (t.before.spell (t.value.spell (t.after.spell []))).length + 1 := by
    have h1 := Spelling.length_le_length_gap t.before (t.value.spell (t.after.spell []))
    have h2 := Spelling.size_le_length_spell t.value (t.after.spell [])
    omega
  have h : Reads _ (Shape.ofSpelling? shape depthLimit t.value) _ :=
    Shape.reads shape t.value hz hr (Spelling.skipBlank_gap_spell t.before t.value _)
  rw [read, Spelling.text, String.toList_ofList]
  rcases h.ends with ⟨x, hx, h⟩ | ⟨hx, e, h⟩
  · have hs : skipBlank (t.after.spell []) = [] := by rw [skipBlank_gap]; rfl
    simp only [hx, h, hs]
  · rw [hx]
    simp only [h]
    exact ⟨e, rfl⟩

theorem read_text_eq_ok_iff {α : Type} {shape : Shape α} {t : Spaced Spelling} {x : α} :
    read shape (Spelling.text t) = .ok x ↔
      Shape.ofSpelling? shape depthLimit t.value = some x := by
  have h := read_text shape t
  split at h
  · rename_i y hy
    rw [h, hy]
    simp
  · rename_i hy
    obtain ⟨e, h⟩ := h
    rw [h, hy]
    simp

end Json
end Retarget
