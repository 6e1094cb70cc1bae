/-
# Only values that are spelled are accepted

A reader of values, where it succeeds, has taken a spelled value from the front of its
source, and so has the walk that passes over one.

The walk keeps a stack of open brackets.  What it still asks of the text is written down for
each stack (`Closes`), and an accepting walk got it.  The loops of the reader stop before a
closing bracket; they have taken items or members *up to* there, if the bracket comes
(`ItemsUpTo`, `MembersUpTo`).
-/

import Retarget.Proofs.Json.Spelling.Accepted.Scalar
import Retarget.Proofs.Json.Spelling.Shape

namespace Retarget
namespace Json

/-- A value, with blanks before it, stands at the front of the text. -/
def ValueFirst (cs rest : List Char) : Prop :=
  ∃ (g : Gap) (v : Spelling), cs = g.spell (v.spell rest)

/-- A member without the first quote of its name stands at the front of the text. -/
def MemberFirst (cs rest : List Char) : Prop :=
  ∃ (l : Literal) (a b : Gap) (v : Spelling),
    cs = Literal.spellOpen l (a.spell (':' :: b.spell (v.spell rest)))

/-- The value starts at the first character that is no blank. -/
theorem valueFirst_of_skipBlank {cs rest : List Char} {v : Spelling}
    (h : skipBlank cs = v.spell rest) : ValueFirst cs rest := by
  obtain ⟨g, hg⟩ := exists_gap cs
  exact ⟨g, v, h ▸ hg⟩

theorem exists_gap_of_skipBlank {cs ds : List Char} (h : skipBlank cs = ds) :
    ∃ g : Gap, cs = g.spell ds := h ▸ exists_gap cs

theorem exists_of_colon {cs rest : List Char} (h : colon cs = .ok rest) :
    ∃ a : Gap, cs = a.spell (':' :: rest) := by
  rw [colon] at h
  split at h
  · cases h
  · rename_i c ds hs
    split at h
    · rename_i hc
      cases h
      exact exists_gap_of_skipBlank (hc ▸ hs)
    · cases h

theorem eq_of_word {w cs rest : List Char} (h : word w cs = .ok rest) : cs = w ++ rest := by
  fun_induction word w cs with
  | case1 => exact Except.ok.inj h
  | case2 => cases h
  | case3 w cs c ih => rw [ih h, List.cons_append]
  | case4 => cases h

/-! ### Values that are passed over -/

/-- What a scalar that is passed over is. -/
theorem exists_of_skipScalar {c : Char} {cs rest : List Char} (h : skipScalar c cs = .ok rest) :
    ∃ s : Scalar, c :: cs = s.spell rest := by
  rw [skipScalar] at h
  split at h
  · rename_i hc
    obtain ⟨l, rfl⟩ := exists_of_skipText h
    exact ⟨.text l, hc ▸ rfl⟩
  · split at h
    · rename_i hc
      exact ⟨.null, by rw [hc, eq_of_word h]; rfl⟩
    · split at h
      · rename_i hc
        exact ⟨.flag true, by rw [hc, eq_of_word h]; rfl⟩
      · split at h
        · rename_i hc
          exact ⟨.flag false, by rw [hc, eq_of_word h]; rfl⟩
        · split at h
          · rename_i hc
            obtain ⟨n, hn, rfl⟩ := exists_of_skipNumber h true
            exact ⟨.number n, by rw [Scalar.spell, Numeral.chars, if_pos hn, hc]; rfl⟩
          · split at h
            · obtain ⟨n, hn, hb⟩ := exists_of_skipNumber h false
              exact ⟨.number n, by rw [Scalar.spell, Numeral.chars, hn, hb]; rfl⟩
            · cases h

theorem exists_of_skipName {cs rest : List Char} (h : skipName cs = .ok rest) :
    ∃ (l : Literal) (a : Gap), cs = Literal.spellOpen l (a.spell (':' :: rest)) := by
  rw [skipName] at h
  cases hs : skipText cs with
  | error e => rw [hs] at h; cases h
  | ok more =>
    rw [hs] at h
    obtain ⟨l, rfl⟩ := exists_of_skipText hs
    obtain ⟨a, rfl⟩ := exists_of_colon h
    exact ⟨l, a, rfl⟩

/-- The text goes on with items and members until all the open brackets are closed. -/
def Closes : List Bracket → (cs rest : List Char) → Prop
  | [], cs, rest => cs = rest
  | .list :: around, cs, rest => ∃ (a : Gap) (xs : List (Spaced Spelling)) (more : List Char),
    cs = a.spell (Spelling.spellItems xs more) ∧ Closes around more rest
  | .object :: around, cs, rest =>
    ∃ (a : Gap) (ms : List (Spaced Literal × Spaced Spelling)) (more : List Char),
      cs = a.spell (Spelling.spellMembers ms more) ∧ Closes around more rest

/-- What a walk still asks of the text. -/
def Asks : Awaited → List Bracket → (cs rest : List Char) → Prop
  | .value, around, cs, rest => ∃ more, ValueFirst cs more ∧ Closes around more rest
  | .member, around, cs, rest => ∃ (g : Gap) (ds more : List Char),
    cs = g.spell ('"' :: ds) ∧ MemberFirst ds more ∧ Closes around more rest
  | .more, around, cs, rest => Closes around cs rest

/-- A walk that succeeds got what it asked for. -/
theorem asks_of_skip {awaited : Awaited} {around : List Bracket} {cs rest : List Char}
    (h : skip awaited around cs = .ok rest) : Asks awaited around cs rest := by
  fun_induction skip awaited around cs with
  | case1 => cases h
  | case2 => cases h
  | case3 cs around ds more hs hd ih =>
    obtain ⟨g, hg⟩ := exists_gap_of_skipBlank hd
    exact ⟨more, valueFirst_of_skipBlank (v := .list g []) (by rw [hs, hg]; rfl), ih h⟩
  | case4 cs around ds d more hd _ hs ih =>
    obtain ⟨_, ⟨g, v, hv⟩, a, xs, rest', rfl, hc⟩ := ih h
    obtain ⟨g', hg⟩ := exists_gap_of_skipBlank hd
    refine ⟨rest', valueFirst_of_skipBlank (v := .list [] (⟨g' ++ g, v, a⟩ :: xs)) ?_, hc⟩
    rw [hs, hg, hv]
    simp [Spelling.spell, Gap.spell]
  | case5 => cases h
  | case6 cs around ds more hs _ hd ih =>
    obtain ⟨g, hg⟩ := exists_gap_of_skipBlank hd
    exact ⟨more, valueFirst_of_skipBlank (v := .object g []) (by rw [hs, hg]; rfl), ih h⟩
  | case7 cs around ds d more hd _ hs _ ih =>
    obtain ⟨g, es, _, hes, ⟨l, a, b, v, rfl⟩, a', ms, rest', rfl, hc⟩ := ih h
    obtain ⟨g', hg⟩ := exists_gap_of_skipBlank hd
    refine ⟨rest', valueFirst_of_skipBlank
      (v := .object [] ((⟨g' ++ g, l, a⟩, ⟨b, v, a'⟩) :: ms)) ?_, hc⟩
    rw [hs, hg, hes]
    simp [Spelling.spell, Gap.spell, Literal.spell]
  | case8 => cases h
  | case9 cs around d more hs _ _ rest' ha ih =>
    obtain ⟨s, hd⟩ := exists_of_skipScalar ha
    exact ⟨rest', valueFirst_of_skipBlank (v := .scalar s) (hs.trans hd), ih h⟩
  | case10 => cases h
  | case11 => cases h
  | case12 cs around ds rest' hn hs ih =>
    obtain ⟨l, a, rfl⟩ := exists_of_skipName hn
    obtain ⟨more, ⟨b, v, rfl⟩, hc⟩ := ih h
    obtain ⟨g, hg⟩ := exists_gap_of_skipBlank hs
    exact ⟨g, _, more, hg, ⟨l, a, b, v, rfl⟩, hc⟩
  | case13 => cases h
  | case14 => exact Except.ok.inj h
  | case15 => cases h
  | case16 cs b around more hs ih =>
    obtain ⟨g, hg⟩ := exists_gap_of_skipBlank hs
    cases b with
    | list => exact ⟨g, [], more, hg, ih h⟩
    | object => exact ⟨g, [], more, hg, ih h⟩
  | case17 cs b around more hs _ ih =>
    obtain ⟨g, hg⟩ := exists_gap_of_skipBlank hs
    cases b with
    | list =>
      obtain ⟨_, ⟨b, v, rfl⟩, a, xs, rest', rfl, hc⟩ := ih h
      exact ⟨g, ⟨b, v, a⟩ :: xs, rest', hg, hc⟩
    | object =>
      obtain ⟨b, _, _, rfl, ⟨l, a, b', v, rfl⟩, a', ms, rest', rfl, hc⟩ := ih h
      exact ⟨g, (⟨b, l, a⟩, ⟨b', v, a'⟩) :: ms, rest', hg, hc⟩
  | case18 => cases h

/-- **A value that is passed over is spelled.** -/
theorem valueFirst_of_skipValue {cs rest : List Char} (h : skipValue cs = .ok rest) :
    ValueFirst cs rest := by
  obtain ⟨_, hv, rfl⟩ := asks_of_skip h
  exact hv

/-! ### Items and members that are read -/

/-- The text from here to before `rest` is items of a list, if the list ends there. -/
def ItemsUpTo (first : Bool) (cs rest : List Char) : Prop :=
  ∀ more, skipBlank rest = ']' :: more → ∃ xs, ItemsNext first xs more cs

/-- The text goes on with these members: after the opening bracket for the first ones, else
after a member. -/
def MembersNext (first : Bool) (ms : List (Spaced Literal × Spaced Spelling))
    (rest cs : List Char) : Prop :=
  if first then ∃ inner, (Spelling.object inner ms).spell rest = '\x7b' :: cs
  else ∃ a : Gap, cs = a.spell (Spelling.spellMembers ms rest)

/-- The text from here to before `rest` is members of an object, if the object ends there. -/
def MembersUpTo (first : Bool) (cs rest : List Char) : Prop :=
  ∀ more, skipBlank rest = '\x7d' :: more → ∃ ms, MembersNext first ms more cs

theorem itemsUpTo_nil (first : Bool) (cs : List Char) : ItemsUpTo first cs cs := by
  intro more h
  obtain ⟨g, rfl⟩ := exists_gap_of_skipBlank h
  cases first with
  | false => exact ⟨[], g, rfl⟩
  | true => exact ⟨[], g, rfl⟩

theorem membersUpTo_nil (first : Bool) (cs : List Char) : MembersUpTo first cs cs := by
  intro more h
  obtain ⟨g, rfl⟩ := exists_gap_of_skipBlank h
  cases first with
  | false => exact ⟨[], g, rfl⟩
  | true => exact ⟨[], g, rfl⟩

/-- What comes before an item: nothing but blanks before the first one, else a comma too. -/
theorem exists_of_nextItem {first : Bool} {cs ds : List Char} (h : nextItem first cs = .ok (true, ds)) :
    if first then ∃ b : Gap, cs = b.spell ds
    else ∃ a b : Gap, cs = a.spell (',' :: b.spell ds) := by
  rw [nextItem] at h
  split at h
  · cases h
  · rename_i c es hs
    split at h
    · cases h
    · split at h
      · rename_i hf
        cases h
        rw [if_pos hf]
        exact exists_gap_of_skipBlank hs
      · rename_i hf
        rw [if_neg hf]
        split at h
        · rename_i hc
          split at h
          · cases h
          · rename_i hd
            split at h
            · cases h
            · cases h
              obtain ⟨a, ha⟩ := exists_gap_of_skipBlank hs
              obtain ⟨b, hb⟩ := exists_gap_of_skipBlank hd
              exact ⟨a, b, by rw [ha, hc, hb]⟩
        · cases h

/-- Where no item comes, the list ends. -/
theorem exists_of_nextItem_end {first : Bool} {cs ds : List Char}
    (h : nextItem first cs = .ok (false, ds)) : ∃ es, ds = ']' :: es ∧ skipBlank cs = ds := by
  rw [nextItem] at h
  split at h
  · cases h
  · rename_i hs
    split at h
    · rename_i hc
      cases h
      exact ⟨_, by rw [hc], hs⟩
    · split at h
      · cases h
      · split at h
        · split at h
          · cases h
          · split at h <;> cases h
        · cases h

theorem exists_of_nextMember {first : Bool} {cs ds : List Char}
    (h : nextMember first cs = .ok (true, ds)) :
    if first then ∃ b : Gap, cs = b.spell ('"' :: ds)
    else ∃ a b : Gap, cs = a.spell (',' :: b.spell ('"' :: ds)) := by
  rw [nextMember] at h
  split at h
  · cases h
  · rename_i c es hs
    split at h
    · cases h
    · split at h
      · rename_i hf
        rw [if_pos hf]
        split at h
        · rename_i hc
          cases h
          exact exists_gap_of_skipBlank (hc ▸ hs)
        · cases h
      · rename_i hf
        rw [if_neg hf]
        split at h
        · rename_i hc
          split at h
          · cases h
          · rename_i hd
            split at h
            · rename_i hq
              cases h
              obtain ⟨a, ha⟩ := exists_gap_of_skipBlank hs
              obtain ⟨b, hb⟩ := exists_gap_of_skipBlank hd
              exact ⟨a, b, by rw [ha, hc, hb, hq]⟩
            · split at h <;> cases h
        · cases h

theorem exists_of_nextMember_end {first : Bool} {cs ds : List Char}
    (h : nextMember first cs = .ok (false, ds)) : ∃ es, ds = '\x7d' :: es ∧ skipBlank cs = ds := by
  rw [nextMember] at h
  split at h
  · cases h
  · rename_i hs
    split at h
    · rename_i hc
      cases h
      exact ⟨_, by rw [hc], hs⟩
    · split at h
      · split at h <;> cases h
      · split at h
        · split at h
          · cases h
          · split at h
            · cases h
            · split at h <;> cases h
        · cases h

/-- Where no item comes, there are none up to the end. -/
theorem itemsUpTo_of_end {first : Bool} {cs es rest : List Char} (hs : skipBlank cs = ']' :: es)
    (h : ItemsUpTo false (']' :: es) rest) : ItemsUpTo first cs rest := by
  intro more hm
  obtain ⟨xs, a, ha⟩ := h more hm
  have hs' := congrArg skipBlank ha
  rw [skipBlank_cons rfl, skipBlank_gap] at hs'
  cases xs with
  | nil => exact itemsUpTo_nil first cs more (hs.trans (hs'.trans (skipBlank_cons rfl more)))
  | cons x xs => cases hs'.trans (skipBlank_cons rfl _)

/-- An item goes before the items that follow it. -/
theorem itemsUpTo_cons {first : Bool} {cs ds es rest : List Char}
    (hn : nextItem first cs = .ok (true, ds)) (hv : ValueFirst ds es)
    (h : ItemsUpTo false es rest) : ItemsUpTo first cs rest := by
  intro more hm
  obtain ⟨g, v, rfl⟩ := hv
  obtain ⟨xs, a, rfl⟩ := h more hm
  have hn := exists_of_nextItem hn
  cases first with
  | true =>
    obtain ⟨b, rfl⟩ := hn
    exact ⟨⟨b ++ g, v, a⟩ :: xs, [], by simp [Spelling.spell, Gap.spell]⟩
  | false =>
    obtain ⟨a', b, rfl⟩ := hn
    exact ⟨⟨b ++ g, v, a⟩ :: xs, a', by simp [Spelling.spellItems, Gap.spell]⟩

theorem membersUpTo_cons {first : Bool} {cs ds es rest : List Char}
    (hn : nextMember first cs = .ok (true, ds)) (hm : MemberFirst ds es)
    (h : MembersUpTo false es rest) : MembersUpTo first cs rest := by
  intro more hmore
  obtain ⟨l, a, b', v, rfl⟩ := hm
  obtain ⟨ms, a', rfl⟩ := h more hmore
  have hn := exists_of_nextMember hn
  cases first with
  | true =>
    obtain ⟨b, rfl⟩ := hn
    exact ⟨(⟨b, l, a⟩, ⟨b', v, a'⟩) :: ms, [], rfl⟩
  | false =>
    obtain ⟨a'', b, rfl⟩ := hn
    exact ⟨(⟨b, l, a⟩, ⟨b', v, a'⟩) :: ms, a'', rfl⟩

section Loops

variable {α σ : Type}

theorem items_leaves {item : List Char → Reading α} (hi : ∀ cs, Leaves (ValueFirst cs) (item cs))
    (fuel : Nat) (read : List α) (cs : List Char) :
    Leaves (ItemsUpTo read.isEmpty cs) (items item fuel read cs) := by
  induction fuel generalizing read cs with
  | zero => exact .error _
  | succ fuel ih =>
    rw [items]
    split
    · exact .error _
    · rename_i ds hn
      obtain ⟨es, rfl, hs⟩ := exists_of_nextItem_end hn
      exact .ok (itemsUpTo_of_end hs (itemsUpTo_nil false _)) _
    · rename_i ds hn
      split
      · exact .error _
      · rename_i x es he
        exact (ih (x :: read) es).mono fun rest h => itemsUpTo_cons hn (hi ds x es he) h

theorem members_leaves {member : σ → List Char → Reading σ}
    (hm : ∀ s cs, Leaves (MemberFirst cs) (member s cs)) (fuel : Nat) (first : Bool) (s : σ)
    (cs : List Char) : Leaves (MembersUpTo first cs) (members member fuel first s cs) := by
  induction fuel generalizing first s cs with
  | zero => exact .error _
  | succ fuel ih =>
    rw [members]
    split
    · exact .error _
    · rename_i ds hn
      obtain ⟨es, rfl, hs⟩ := exists_of_nextMember_end hn
      refine .ok (fun more hm => ?_) _
      rw [skipBlank_cons rfl] at hm
      exact membersUpTo_nil first cs more (hs.trans hm)
    · rename_i ds hn
      split
      · exact .error _
      · rename_i u es he
        exact (ih false u es).mono fun rest h => membersUpTo_cons hn (hm s ds u es he) h

/-- The closing bracket comes next. -/
theorem eq_of_close {b : Bracket} {cs rest : List Char} (h : b.close cs = .ok rest) :
    skipBlank cs = b.closing :: rest := by
  rw [Bracket.close] at h
  split at h
  · cases h
  · rename_i c ds hs
    split at h
    · rename_i hc
      cases h
      rw [hs, hc]
    · split at h
      · cases b with
        | object => cases h
        | list => dsimp only at h; split at h <;> cases h
      · cases h

theorem closed_leaves {b : Bracket} {P Q : List Char → Prop} {r : Reading α} (h : Leaves P r)
    (hQ : ∀ cs rest, P cs → skipBlank cs = b.closing :: rest → Q rest) : Leaves Q (b.closed r) := by
  rcases r with e | ⟨x, cs⟩
  · exact .error _
  · rw [Bracket.closed]
    cases hc : b.close cs with
    | error e => exact .error e
    | ok rest => exact .ok (hQ cs rest (h x cs rfl) (eq_of_close hc)) x

theorem inside_leaves {P : List Char → Prop} {levels : Nat} {read : Nat → Reading α}
    {cs : List Char} (h : ∀ l, levels = l + 1 → Leaves P (read l)) :
    Leaves P (inside levels read cs) := by
  cases levels with
  | zero => exact .error _
  | succ l => exact h l rfl

/-- A list is a value, once its items are closed. -/
theorem list_leaves {cs ds : List Char} {r : Reading α} (hs : skipBlank cs = '[' :: ds)
    (h : Leaves (ItemsUpTo true ds) r) : Leaves (ValueFirst cs) (Bracket.list.closed r) := by
  refine closed_leaves h fun es rest he hc => ?_
  obtain ⟨xs, inner, hx⟩ := he rest hc
  exact valueFirst_of_skipBlank (hs.trans hx.symm)

theorem object_leaves {cs ds : List Char} {r : Reading α} (hs : skipBlank cs = '\x7b' :: ds)
    (h : Leaves (MembersUpTo true ds) r) : Leaves (ValueFirst cs) (Bracket.object.closed r) := by
  refine closed_leaves h fun es rest he hc => ?_
  obtain ⟨xs, inner, hx⟩ := he rest hc
  exact valueFirst_of_skipBlank (hs.trans hx.symm)

end Loops

/-! ### Values -/

theorem text_leaves {cs ds : List Char} (hs : skipBlank cs = '"' :: ds) :
    Leaves (ValueFirst cs) (text [] ds) := by
  intro s rest h
  obtain ⟨l, rfl⟩ := exists_of_text h
  exact valueFirst_of_skipBlank (v := .scalar (.text l)) hs

theorem word_leaves {α : Type} {w cs ds : List Char} {c : Char} {x : α}
    (hs : skipBlank cs = c :: ds) (s : Scalar) (hw : ∀ rest, c :: (w ++ rest) = s.spell rest) :
    Leaves (ValueFirst cs) ((word w ds).map ((x, ·))) := by
  cases h : word w ds with
  | error e => exact .error e
  | ok rest =>
    refine .ok (valueFirst_of_skipBlank (v := .scalar s) ?_) x
    rw [hs, eq_of_word h, hw]
    rfl

theorem number_leaves_first (negative : Bool) {cs ds : List Char}
    (hs : skipBlank cs = if negative then '-' :: ds else ds) :
    Leaves (ValueFirst cs) (number negative ds) := by
  refine (number_leaves negative ds).mono ?_
  rintro rest ⟨n, rfl, rfl⟩
  refine valueFirst_of_skipBlank (v := .scalar (.number n)) ?_
  rw [hs, Spelling.spell, Scalar.spell, Numeral.chars]
  cases n.negative <;> rfl

theorem valueMember_leaves {fuel levels : Nat}
    (h : ∀ cs, Leaves (ValueFirst cs) (value fuel levels cs)) (read : List (Value × Value))
    (cs : List Char) : Leaves (MemberFirst cs) (valueMember fuel levels read cs) := by
  rw [valueMember]
  split
  · exact .error _
  · rename_i key ds ht
    obtain ⟨l, rfl⟩ := exists_of_text ht
    split
    · exact .error _
    · rename_i es hc
      obtain ⟨a, rfl⟩ := exists_of_colon hc
      split
      · exact .error _
      · rename_i v rest hv
        obtain ⟨b, w, rfl⟩ := h es v rest hv
        exact .ok ⟨l, a, b, w, rfl⟩ _

theorem value_leaves_scalar {fuel levels : Nat} {cs ds : List Char} {c : Char}
    (hs : skipBlank cs = c :: ds) (hl : c ≠ '[') (ho : c ≠ '\x7b') :
    Leaves (ValueFirst cs) (value fuel levels cs) := by
  rw [value.eq_def]
  simp only [hs, hl, ho, if_false]
  split
  · rename_i hc
    exact (text_leaves (hc ▸ hs)).map Value.text
  · split
    · rename_i hc
      exact word_leaves (hc ▸ hs) .null fun _ => rfl
    · split
      · rename_i hc
        exact word_leaves (hc ▸ hs) (.flag true) fun _ => rfl
      · split
        · rename_i hc
          exact word_leaves (hc ▸ hs) (.flag false) fun _ => rfl
        · split
          · rename_i hc
            exact number_leaves_first true (hc ▸ hs)
          · split
            · exact number_leaves_first false hs
            · exact .error _

/-- **A value that is read is spelled.** -/
theorem value_leaves {fuel levels : Nat} (cs : List Char) :
    Leaves (ValueFirst cs) (value fuel levels cs) := by
  induction levels using Nat.strongRecOn generalizing cs with
  | ind levels ih =>
    cases hs : skipBlank cs with
    | nil =>
      rw [value.eq_def]
      simp only [hs]
      exact .error _
    | cons c ds =>
      by_cases hl : c = '['
      · subst hl
        rw [value_list hs]
        refine Leaves.map (inside_leaves fun l h => ?_) _
        subst h
        exact list_leaves hs (items_leaves (ih l (Nat.lt_succ_self l)) fuel [] ds)
      · by_cases ho : c = '\x7b'
        · subst ho
          rw [value_object hs]
          refine Leaves.map (inside_leaves fun l h => ?_) fun ms : List (Value × Value) => Value.map ms.reverse
          subst h
          exact object_leaves hs (members_leaves (valueMember_leaves (ih l (Nat.lt_succ_self l)))
            fuel true [] ds)
        · exact value_leaves_scalar hs hl ho

end Json
end Retarget
