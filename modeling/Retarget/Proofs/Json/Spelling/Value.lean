/-
# Values are read as they are spelled

`Spelling.value? v levels` is the value that a spelling stands for where lists and objects
may nest so many levels deep; it is none if they nest deeper, or if a name, a text or a
number in it cannot be read.  The reader of values comes to that value, and to an error if
there is none (`Spelling.value_reads`).

The loops over items and over members come first, for any reader of a single one: the
items are read one by one, and the members lead from one state to the next.
-/

import Retarget.Proofs.Json.Limit
import Retarget.Proofs.Json.Spelling.Number

namespace Retarget
namespace Json

/-! ### What comes next -/

namespace Spelling

/-- A value starts with neither a blank nor the sign of an end. -/
theorem exists_spell_eq_cons (v : Spelling) (rest : List Char) :
    ∃ c cs, v.spell rest = c :: cs ∧ isBlank c = false ∧ c ≠ ']' ∧ c ≠ '\x7d' := by
  cases v with
  | scalar s =>
    obtain ⟨c, cs, h, hb, hc, -⟩ := s.exists_spell_eq_cons rest
    exact ⟨c, cs, h, hb, hc ']' (by simp), hc '\x7d' (by simp)⟩
  | list inner xs => cases xs <;> exact ⟨'[', _, rfl, by decide, by decide, by decide⟩
  | object inner ms => cases ms <;> exact ⟨'\x7b', _, rfl, by decide, by decide, by decide⟩

theorem skipBlank_spell (v : Spelling) (rest : List Char) :
    skipBlank (v.spell rest) = v.spell rest := by
  obtain ⟨c, cs, h, hb, -⟩ := v.exists_spell_eq_cons rest
  rw [h, skipBlank_cons hb]

/-- The blanks before a value are passed over. -/
theorem skipBlank_gap_spell (g : Gap) (v : Spelling) (rest : List Char) :
    skipBlank (g.spell (v.spell rest)) = v.spell rest := by
  rw [skipBlank_gap, skipBlank_spell]

/-- The items and members of a value end where a value can end. -/
theorem ends_spellItems (xs : List (Spaced Spelling)) (rest : List Char) :
    Ends (spellItems xs rest) := by
  cases xs <;> simp [Ends, spellItems]

theorem ends_spellMembers (ms : List (Spaced Literal × Spaced Spelling)) (rest : List Char) :
    Ends (spellMembers ms rest) := by
  cases ms <;> simp [Ends, spellMembers]

/-- The text from the next item on, or from the end of the list, and whether there is an item. -/
def itemsFrom (rest : List Char) : List (Spaced Spelling) → Bool × List Char
  | [] => (false, ']' :: rest)
  | ⟨_, v, a⟩ :: xs => (true, v.spell (a.spell (spellItems xs rest)))

/-- A member from its name on, after the first quote. -/
def memberFrom (m : Spaced Literal × Spaced Spelling) (rest : List Char) : List Char :=
  Literal.spellOpen m.1.value (m.1.after.spell (':' :: m.2.before.spell (m.2.value.spell rest)))

/-- The text from the next member on, after the first quote of its name, or from the end of
the object, and whether there is a member. -/
def membersFrom (rest : List Char) : List (Spaced Literal × Spaced Spelling) → Bool × List Char
  | [] => (false, '\x7d' :: rest)
  | m :: ms => (true, memberFrom m (m.2.after.spell (spellMembers ms rest)))

/-- A list is spelled as its bracket, with all its items to come. -/
theorem spell_list (inner : Gap) (xs : List (Spaced Spelling)) (rest : List Char) :
    ∃ cs, (list inner xs).spell rest = '[' :: cs ∧ nextItem true cs = .ok (itemsFrom rest xs) := by
  rcases xs with _ | ⟨⟨b, v, a⟩, xs⟩
  · refine ⟨_, rfl, ?_⟩
    rw [nextItem, skipBlank_gap, skipBlank_cons rfl]
    rfl
  · obtain ⟨c, cs, h, -, hc, -⟩ := v.exists_spell_eq_cons (a.spell (spellItems xs rest))
    refine ⟨_, rfl, ?_⟩
    rw [nextItem, skipBlank_gap_spell, itemsFrom, h]
    simp only [hc, if_true, if_false]

theorem nextItem_spellItems (a : Gap) (xs : List (Spaced Spelling)) (rest : List Char) :
    nextItem false (a.spell (spellItems xs rest)) = .ok (itemsFrom rest xs) := by
  rcases xs with _ | ⟨⟨b, v, a'⟩, xs⟩
  · rw [nextItem, skipBlank_gap, spellItems, skipBlank_cons rfl]
    rfl
  · obtain ⟨c, cs, h, -, hc, -⟩ := v.exists_spell_eq_cons (a'.spell (spellItems xs rest))
    have hs := skipBlank_gap_spell b v (a'.spell (spellItems xs rest))
    rw [h] at hs
    rw [nextItem, skipBlank_gap, spellItems, skipBlank_cons rfl, itemsFrom, h]
    simp only [Bool.false_eq_true, if_false, if_true, hs, hc, Char.reduceEq]

/-- An object is spelled as its bracket, with all its members to come. -/
theorem spell_object (inner : Gap) (ms : List (Spaced Literal × Spaced Spelling))
    (rest : List Char) :
    ∃ cs, (object inner ms).spell rest = '\x7b' :: cs ∧
      nextMember true cs = .ok (membersFrom rest ms) := by
  rcases ms with _ | ⟨⟨⟨b, l, a⟩, ⟨b', v, a'⟩⟩, ms⟩
  · refine ⟨_, rfl, ?_⟩
    rw [nextMember, skipBlank_gap, skipBlank_cons rfl]
    rfl
  · refine ⟨_, rfl, ?_⟩
    rw [nextMember, skipBlank_gap, Literal.spell, skipBlank_cons rfl]
    rfl

theorem nextMember_spellMembers (a : Gap) (ms : List (Spaced Literal × Spaced Spelling))
    (rest : List Char) :
    nextMember false (a.spell (spellMembers ms rest)) = .ok (membersFrom rest ms) := by
  rcases ms with _ | ⟨⟨⟨b, l, a'⟩, ⟨b', v, a''⟩⟩, ms⟩
  · rw [nextMember, skipBlank_gap, spellMembers, skipBlank_cons rfl]
    rfl
  · rw [nextMember, skipBlank_gap, spellMembers, skipBlank_cons rfl]
    simp only [Char.reduceEq, Bool.false_eq_true, if_false, if_true, skipBlank_gap, Literal.spell,
      skipBlank_cons (c := '"') rfl]
    rfl

end Spelling

theorem colon_gap (a : Gap) (cs : List Char) : colon (a.spell (':' :: cs)) = .ok cs := by
  rw [colon, skipBlank_gap, skipBlank_cons rfl]
  exact if_pos rfl

/-! ### Loops -/

section Loops

variable {α σ : Type} {fuel : Nat} {cs rest : List Char}

/-- Items are read one after the other. -/
theorem items_reads {item : List Char → Reading α} (x? : Spelling → Option α) (read : List α)
    {xs : List (Spaced Spelling)}
    (hx : ∀ x ∈ xs, ∀ {cs rest}, Ends rest → skipBlank cs = x.value.spell rest →
      Reads (item cs) (x? x.value) rest)
    (hf : xs.length < fuel) (hn : nextItem read.isEmpty cs = .ok (Spelling.itemsFrom rest xs)) :
    Reads (items item fuel read cs) ((xs.mapM (x? ·.value)).map (read.reverse ++ ·))
      (']' :: rest) := by
  induction xs generalizing fuel read cs with
  | nil =>
    obtain ⟨fuel, rfl⟩ := Nat.exists_eq_add_one_of_ne_zero (Nat.ne_zero_of_lt hf)
    simp [items, hn, Spelling.itemsFrom, Reads]
  | cons x xs ih =>
    obtain ⟨b, v, a⟩ := x
    obtain ⟨fuel, rfl⟩ := Nat.exists_eq_add_one_of_ne_zero (Nat.ne_zero_of_lt hf)
    have h1 := hx _ (List.mem_cons_self ..) (ends_gap (Spelling.ends_spellItems xs rest) a)
      (v.skipBlank_spell _)
    simp only [items, hn, Spelling.itemsFrom]
    rcases h1.ends with ⟨x, hx', h1⟩ | ⟨hx', e, h1⟩
    · have h2 := ih (x :: read) (fun y hy => hx y (List.mem_cons_of_mem _ hy)) (by simpa using hf)
        (Spelling.nextItem_spellItems a xs rest)
      rw [h1, List.mapM_cons, hx']
      convert h2 using 1
      cases xs.mapM (x? ·.value) <;> simp
    · rw [h1, List.mapM_cons, hx']
      exact Reads.error e _

/-- Members are read one after the other, each from the state that the one before led to. -/
theorem members_reads {member : σ → List Char → Reading σ}
    {step? : σ → Spaced Literal × Spaced Spelling → Option σ} {first : Bool} {s : σ}
    {ms : List (Spaced Literal × Spaced Spelling)}
    (hm : ∀ m ∈ ms, ∀ s {rest}, Ends rest →
      Reads (member s (Spelling.memberFrom m rest)) (step? s m) rest)
    (hf : ms.length < fuel) (hn : nextMember first cs = .ok (Spelling.membersFrom rest ms)) :
    Reads (members member fuel first s cs) (ms.foldlM step? s) ('\x7d' :: rest) := by
  induction ms generalizing fuel first s cs with
  | nil =>
    obtain ⟨fuel, rfl⟩ := Nat.exists_eq_add_one_of_ne_zero (Nat.ne_zero_of_lt hf)
    simp [members, hn, Spelling.membersFrom, Reads]
  | cons m ms ih =>
    obtain ⟨fuel, rfl⟩ := Nat.exists_eq_add_one_of_ne_zero (Nat.ne_zero_of_lt hf)
    have h1 := hm m (List.mem_cons_self ..) s
      (ends_gap (Spelling.ends_spellMembers ms rest) m.2.after)
    simp only [members, hn, Spelling.membersFrom]
    rcases h1.ends with ⟨u, hu, h1⟩ | ⟨hu, e, h1⟩
    · rw [h1, List.foldlM_cons, hu]
      exact ih (s := u) (fun n hn => hm n (List.mem_cons_of_mem _ hn)) (by simpa using hf)
        (Spelling.nextMember_spellMembers _ ms rest)
    · rw [h1, List.foldlM_cons, hu]
      exact Reads.error e _

end Loops

/-! ### Values -/

namespace Spelling

mutual

/-- The value that is spelled, if it can be read where lists and objects may nest so many
levels deep. -/
def value? : Spelling → (levels : Nat) → Option Value
  | scalar s, _ => s.value?
  | list _ xs, levels => deeper levels fun l => (values? xs l).map .list
  | object _ ms, levels => deeper levels fun l => (memberValues? ms l).map .map

/-- The values of the items. -/
def values? : List (Spaced Spelling) → (levels : Nat) → Option (List Value)
  | [], _ => some []
  | ⟨_, v, _⟩ :: xs, levels =>
    match value? v levels, values? xs levels with
    | some x, some ys => some (x :: ys)
    | _, _ => none

/-- The names and values of the members. -/
def memberValues? : List (Spaced Literal × Spaced Spelling) → (levels : Nat) →
    Option (List (Value × Value))
  | [], _ => some []
  | (⟨_, l, _⟩, ⟨_, v, _⟩) :: ms, levels =>
    match l.text?, value? v levels, memberValues? ms levels with
    | some key, some x, some ys => some ((.text key, x) :: ys)
    | _, _, _ => none

end

theorem values?_eq_mapM (xs : List (Spaced Spelling)) (levels : Nat) :
    values? xs levels = xs.mapM fun x => x.value.value? levels := by
  induction xs with
  | nil => rfl
  | cons x xs ih =>
    obtain ⟨b, v, a⟩ := x
    rw [values?, ih, List.mapM_cons]
    cases value? v levels with
    | none => rfl
    | some x => cases xs.mapM fun x => x.value.value? levels <;> rfl

/-- A member read before those that have been read. -/
def valueStep? (levels : Nat) (read : List (Value × Value))
    (m : Spaced Literal × Spaced Spelling) : Option (List (Value × Value)) :=
  match m.1.value.text?, m.2.value.value? levels with
  | some key, some x => some ((.text key, x) :: read)
  | _, _ => none

theorem foldlM_valueStep? (levels : Nat) (read : List (Value × Value))
    (ms : List (Spaced Literal × Spaced Spelling)) :
    ms.foldlM (valueStep? levels) read = (memberValues? ms levels).map (·.reverse ++ read) := by
  induction ms generalizing read with
  | nil => rfl
  | cons m ms ih =>
    obtain ⟨⟨b, l, a⟩, ⟨b', v, a'⟩⟩ := m
    rw [List.foldlM_cons, memberValues?, valueStep?]
    dsimp only
    cases l.text? with
    | none => rfl
    | some key =>
      cases value? v levels with
      | none => rfl
      | some x =>
        change ms.foldlM _ _ = _
        rw [ih]
        cases memberValues? ms levels <;> simp

/-- The name of a member is read up to its quote. -/
theorem text_reads (l : Literal) (rest : List Char) :
    Reads (Json.text [] (Literal.spellOpen l rest)) l.text? rest :=
  text_spellOpen l [] rest

theorem valueMember_reads {fuel levels : Nat} {m : Spaced Literal × Spaced Spelling}
    (h : ∀ {cs rest}, Ends rest → skipBlank cs = m.2.value.spell rest →
      Reads (value fuel levels cs) (m.2.value.value? levels) rest)
    (read : List (Value × Value)) {rest : List Char} (hr : Ends rest) :
    Reads (valueMember fuel levels read (memberFrom m rest)) (valueStep? levels read m) rest := by
  rw [valueMember, memberFrom, valueStep?]
  rcases (text_reads m.1.value _).ends with ⟨key, hk, ht⟩ | ⟨hk, e, ht⟩
  · rw [ht, hk]
    dsimp only
    rw [colon_gap]
    dsimp only
    rcases (h hr (skipBlank_gap_spell m.2.before m.2.value rest)).ends with
      ⟨x, hx, hv⟩ | ⟨hx, e, hv⟩
    · rw [hv, hx]
      rfl
    · rw [hv, hx]
      exact Reads.error e rest
  · rw [ht, hk]
    exact Reads.error e rest

theorem value_scalar {fuel levels : Nat} (s : Scalar) {cs rest : List Char} (hr : Ends rest)
    (h : skipBlank cs = s.spell rest) : Reads (value fuel levels cs) s.value? rest := by
  rw [value.eq_def]
  cases s with
  | null =>
    rw [Scalar.spell] at h
    simp [h, word, Except.map, Scalar.value?, Reads]
  | flag b =>
    cases b <;>
    · rw [Scalar.spell] at h
      simp [h, word, Except.map, Scalar.value?, Reads]
  | text l =>
    rw [Scalar.spell, Literal.spell] at h
    simp only [h, if_true]
    exact (text_reads l rest).map Value.text
  | number n =>
    have hn := n.number_body hr
    rcases n.chars_eq with ⟨hs, hc⟩ | ⟨hs, hc⟩
    · rw [Scalar.spell, hc, List.cons_append] at h
      simp only [h, Char.reduceEq, if_false, if_true]
      exact hs ▸ hn
    · obtain ⟨d, ds, hb⟩ := n.exists_body_eq_cons
      rw [hs, hb, List.cons_append] at hn
      rw [Scalar.spell, hc, hb, List.cons_append] at h
      simp only [h, d.ne (c := '"') rfl, d.ne (c := 'n') rfl, d.ne (c := 't') rfl,
        d.ne (c := 'f') rfl, d.ne (c := '-') rfl, d.isDigit, if_false, if_true]
      exact hn

/-- **A value is read as it is spelled.** -/
theorem value_reads (v : Spelling) : ∀ {fuel levels : Nat} {cs rest : List Char},
    v.size ≤ fuel → Ends rest → skipBlank cs = v.spell rest →
      Reads (value fuel levels cs) (v.value? levels) rest := by
  induction v using Spelling.induct with
  | scalar s => exact fun _ hr h => value_scalar s hr h
  | list inner xs ih =>
    intro fuel levels cs rest hz hr h
    obtain ⟨ds, hs, hn⟩ := spell_list inner xs rest
    have hl := length_le_sizeAll xs
    rw [size] at hz
    have hi : Reads (inside levels (fun l => Bracket.list.closed (items (value fuel l) fuel [] ds)) ds)
        (deeper levels fun l => values? xs l) rest := by
      refine Reads.inside fun l _ => Reads.closed ?_
      have hitem : ∀ x ∈ xs, ∀ {cs rest}, Ends rest → skipBlank cs = x.value.spell rest →
          Reads (value fuel l cs) (x.value.value? l) rest := fun x hx => fun hr h =>
        ih x hx (by have := size_le_sizeAll hx; omega) hr h
      rw [values?_eq_mapM]
      simpa [Bracket.closing] using items_reads (value? · l) [] hitem (by omega) hn
    rw [value_list (h.trans hs), value?]
    convert hi.map Value.list using 1
    cases levels <;> rfl
  | object inner ms ih =>
    intro fuel levels cs rest hz hr h
    obtain ⟨ds, hs, hn⟩ := spell_object inner ms rest
    have hl := length_le_sizeMembers ms
    rw [size] at hz
    have hi : Reads (inside levels (fun l => Bracket.object.closed
          (members (valueMember fuel l) fuel true [] ds)) ds)
        (deeper levels fun l => (memberValues? ms l).map List.reverse) rest := by
      refine Reads.inside fun l _ => Reads.closed ?_
      have hmembers : Reads (members (valueMember fuel l) fuel true [] ds)
          (ms.foldlM (valueStep? l) []) ('\x7d' :: rest) :=
        members_reads (fun m hm read _ hr => valueMember_reads
          (fun hr h => ih m hm (by have := size_le_sizeMembers hm; omega) hr h) read hr) (by omega) hn
      rw [foldlM_valueStep?] at hmembers
      simpa [Bracket.closing, Function.comp_def] using hmembers
    rw [value_object (h.trans hs), value?]
    convert hi.map fun ms => Value.map ms.reverse using 1
    cases levels with
    | zero => rfl
    | succ l => simp [deeper, Function.comp_def]

end Spelling

end Json
end Retarget
