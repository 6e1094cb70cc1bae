/-
# A tree that was written is read back

A reading of what was written for a tree comes to one of two ends (`ReadsAs`): it yields
what was written and stops where the tree ends, or it meets more open brackets than it
has levels.  The second needs a tree that is deeper than the levels.

The statements leave open what the text goes on with, and blanks may stand before the
value.  `value_write` reads a tree as a value; `Shape.read_write` reads a tree that a shape
holds.
-/

import Retarget.Json.Printer
import Retarget.Json.Reader
import Retarget.Proofs.Data.Holds
import Retarget.Proofs.Json.Text

namespace Retarget
namespace Json

/-- The reading yields `x` and stops before `rest`, or it ends with too many open brackets. -/
abbrev ReadsAs {α : Type} (levels depth : Nat) (r : Reading α) (x : α) (rest : List Char) : Prop :=
  ReadsWithin (Fault.broken .tooDeep) levels depth r x rest

/-- Where all members are read, the closing bracket is read with them. -/
theorem ReadsAs.closed {α : Type} {levels depth : Nat} {r : Reading α} {x : α} {rest : List Char}
    {b : Bracket} (h : ReadsAs levels depth r x (b.closing :: rest)) :
    ReadsAs levels depth (b.closed r) x rest := by
  rcases h with rfl | ⟨hl, left, rfl⟩
  · have hb : isBlank b.closing = false := by cases b <;> decide
    have hs : skipBlank (b.closing :: rest) = b.closing :: rest :=
      List.dropWhile_cons_of_neg (by simp [hb])
    left
    simp only [Bracket.closed, Bracket.close, hs, if_true]
    rfl
  · exact .inr ⟨hl, left, rfl⟩

theorem skipBlank_cons {c : Char} (h : isBlank c = false) (cs : List Char) :
    skipBlank (c :: cs) = c :: cs :=
  List.dropWhile_cons_of_neg (by simp [h])

theorem skipBlank_space (cs : List Char) : skipBlank (' ' :: cs) = skipBlank cs :=
  List.dropWhile_cons_of_pos rfl

theorem skipBlank_newline (level : Nat) (cs : List Char) :
    skipBlank (newline level ++ cs) = skipBlank cs := by
  refine List.dropWhile_append_of_pos fun c hc => ?_
  rcases List.mem_cons.1 hc with rfl | hc
  · rfl
  · rw [List.eq_of_mem_replicate hc]; rfl

theorem encode_append (s : String) (rest : List Char) :
    encode s ++ rest = '"' :: (s.toList.flatMap encodeChar ++ '"' :: rest) := by
  rw [encode, List.cons_append, List.cons_append, List.append_assoc, List.singleton_append]

/-- The character can start a value that was written. -/
def startsValue (c : Char) : Bool := c = '"' || c = 't' || c = 'f' || c = '[' || c = '\x7b'

theorem exists_write_eq_cons (level : Nat) (t : Tree) (rest : List Char) :
    ∃ c cs, write level t rest = c :: cs ∧ startsValue c := by
  cases t with
  | text s => exact ⟨_, _, rfl, rfl⟩
  | flag b => cases b <;> exact ⟨_, _, rfl, rfl⟩
  | list ts => cases ts <;> exact ⟨_, _, rfl, rfl⟩
  | record ms =>
    cases ms with
    | nil => exact ⟨_, _, rfl, rfl⟩
    | cons m ms => exact ⟨_, _, rfl, rfl⟩

/-- What can start a value is neither a blank nor the sign of an end or of a null. -/
theorem startsValue_iff {c : Char} (h : startsValue c) :
    isBlank c = false ∧ c ≠ ']' ∧ c ≠ '\x7d' ∧ c ≠ 'n' := by
  simp only [startsValue, Bool.or_eq_true, decide_eq_true_eq] at h
  rcases h with (((rfl | rfl) | rfl) | rfl) | rfl <;> decide

theorem skipBlank_write (level : Nat) (t : Tree) (rest : List Char) :
    skipBlank (write level t rest) = write level t rest := by
  obtain ⟨c, cs, he, hc⟩ := exists_write_eq_cons level t rest
  rw [he, skipBlank_cons (startsValue_iff hc).1]

/-! ### Lists -/

/-- What comes next where items are still to be read: the next one, or the end. -/
def itemsAhead (level : Nat) (rest : List Char) : List Tree → Bool × List Char
  | [] => (false, ']' :: rest)
  | t :: ts => (true, write (level + 1) t (writeItems level ts rest))

theorem nextItem_writeItems (level : Nat) (ts : List Tree) (rest : List Char) :
    nextItem false (writeItems level ts rest) = .ok (itemsAhead level rest ts) := by
  cases ts with
  | nil => rw [nextItem, writeItems, skipBlank_newline]; rfl
  | cons t ts =>
    obtain ⟨c, cs, he, hc⟩ := exists_write_eq_cons (level + 1) t (writeItems level ts rest)
    have hs : skipBlank (newline (level + 1) ++ c :: cs) = c :: cs := by
      rw [skipBlank_newline, skipBlank_cons (startsValue_iff hc).1]
    rw [nextItem, writeItems, List.cons_append, skipBlank_cons rfl, he, itemsAhead, he]
    simp only [Bool.false_eq_true, if_false, if_true, hs, (startsValue_iff hc).2.1, Char.reduceEq]

/-- A list is written as its bracket, with all its items ahead. -/
theorem write_list (level : Nat) (ts : List Tree) (rest : List Char) :
    ∃ cs, write level (.list ts) rest = '[' :: cs ∧
      nextItem true cs = .ok (itemsAhead level rest ts) := by
  cases ts with
  | nil => exact ⟨_, rfl, rfl⟩
  | cons t ts =>
    obtain ⟨c, cs, he, hc⟩ := exists_write_eq_cons (level + 1) t (writeItems level ts rest)
    refine ⟨newline (level + 1) ++ write (level + 1) t (writeItems level ts rest), rfl, ?_⟩
    rw [he, nextItem, skipBlank_newline, skipBlank_cons (startsValue_iff hc).1, itemsAhead, he]
    simp only [(startsValue_iff hc).2.1, if_true, if_false]

/-- Items are read one after the other, if each is read as what it was written for. -/
theorem items_readsAs {α : Type} {R : Tree → α → Prop} {item : List Char → Reading α}
    {level levels fuel : Nat} {ts : List Tree} {xs : List α} (read : List α) {cs rest : List Char}
    (hR : ∀ t ∈ ts, ∀ x, R t x → ∀ cs rest, skipBlank cs = write (level + 1) t rest →
      ReadsAs levels t.depth (item cs) x rest)
    (h : List.Forall₂ R ts xs) (hf : ts.length < fuel)
    (hn : nextItem read.isEmpty cs = .ok (itemsAhead level rest ts)) :
    ReadsAs levels (Tree.depthAll ts) (items item fuel read cs)
      (read.reverse ++ xs) (']' :: rest) := by
  induction h generalizing fuel read cs with
  | nil =>
    obtain ⟨fuel, rfl⟩ := Nat.exists_eq_add_one_of_ne_zero (Nat.ne_zero_of_lt hf)
    left
    simp only [items, hn, itemsAhead, List.append_nil]
  | @cons t x ts xs hx _ ih =>
    obtain ⟨fuel, rfl⟩ := Nat.exists_eq_add_one_of_ne_zero (Nat.ne_zero_of_lt hf)
    have h1 := hR t (List.mem_cons_self ..) x hx _ _
      (skipBlank_write (level + 1) t (writeItems level ts rest))
    simp only [items, hn, itemsAhead]
    rcases h1 with h1 | ⟨hl, left, h1⟩
    · have h2 : ReadsAs levels (Tree.depthAll ts)
          (items item fuel (x :: read) (writeItems level ts rest))
            ((x :: read).reverse ++ xs) (']' :: rest) :=
        ih _ (fun u hu => hR u (List.mem_cons_of_mem _ hu)) (by simpa using hf)
          (nextItem_writeItems level ts rest)
      rw [List.reverse_cons, List.append_assoc, List.singleton_append] at h2
      simp only [h1]
      exact h2.mono (Nat.le_max_right ..)
    · simp only [h1]
      exact .inr ⟨Nat.lt_of_lt_of_le hl (Nat.le_max_left ..), left, rfl⟩

/-! ### Records -/

/-- What comes next where members are still to be read: the name of the next one without
its first quote, or the end. -/
def membersAhead (level : Nat) (rest : List Char) : List (String × Tree) → Bool × List Char
  | [] => (false, '\x7d' :: rest)
  | (key, t) :: ms =>
    (true, key.toList.flatMap encodeChar ++ '"' :: ':' :: ' ' ::
      write (level + 1) t (writeMembers level ms rest))

theorem nextMember_writeMembers (level : Nat) (ms : List (String × Tree)) (rest : List Char) :
    nextMember false (writeMembers level ms rest) = .ok (membersAhead level rest ms) := by
  rcases ms with _ | ⟨⟨key, t⟩, ms⟩
  · rw [nextMember, writeMembers, skipBlank_newline]; rfl
  · rw [nextMember, writeMembers, List.append_assoc, encode_append, List.cons_append,
      skipBlank_cons rfl]
    simp only [Char.reduceEq, if_false, if_true, Bool.false_eq_true, skipBlank_newline,
      skipBlank_cons (c := '"') rfl, membersAhead]

/-- A record is written as its bracket, with all its members ahead. -/
theorem write_record (level : Nat) (ms : List (String × Tree)) (rest : List Char) :
    ∃ cs, write level (.record ms) rest = '\x7b' :: cs ∧
      nextMember true cs = .ok (membersAhead level rest ms) := by
  rcases ms with _ | ⟨⟨key, t⟩, ms⟩
  · exact ⟨_, rfl, rfl⟩
  · refine ⟨newline (level + 1) ++ (encode key ++ ':' :: ' ' ::
      write (level + 1) t (writeMembers level ms rest)), ?_, ?_⟩
    · rw [write, List.append_assoc, List.cons_append]
    · rw [encode_append, nextMember, skipBlank_newline, skipBlank_cons rfl]
      simp only [Char.reduceEq, if_false, if_true, membersAhead]

/-- Members are read one after the other, if each one takes the state on as `R` says. -/
theorem members_readsAs {σ : Type} {R : σ → String × Tree → σ → Prop}
    {member : σ → List Char → Reading σ} {level levels fuel : Nat}
    {ms : List (String × Tree)} {s s' : σ}
    {first : Bool} {cs rest : List Char}
    (hR : ∀ m ∈ ms, ∀ u v, R u m v → ∀ rest, ReadsAs levels m.2.depth
      (member u (m.1.toList.flatMap encodeChar ++ '"' :: ':' :: ' ' :: write (level + 1) m.2 rest))
        v rest)
    (h : Steps R s ms s') (hf : ms.length < fuel)
    (hn : nextMember first cs = .ok (membersAhead level rest ms)) :
    ReadsAs levels (Tree.depthMembers ms) (members member fuel first s cs) s' ('\x7d' :: rest) := by
  induction ms generalizing fuel first s cs with
  | nil =>
    obtain ⟨fuel, rfl⟩ := Nat.exists_eq_add_one_of_ne_zero (Nat.ne_zero_of_lt hf)
    obtain rfl : s = s' := h
    left
    simp only [members, hn, membersAhead]
  | cons m ms ih =>
    obtain ⟨fuel, rfl⟩ := Nat.exists_eq_add_one_of_ne_zero (Nat.ne_zero_of_lt hf)
    obtain ⟨u, hu, h⟩ := h
    have h1 := hR m (List.mem_cons_self ..) s u hu (writeMembers level ms rest)
    simp only [members, hn, membersAhead]
    rcases h1 with h1 | ⟨hl, left, h1⟩
    · have h2 : ReadsAs levels (Tree.depthMembers ms)
          (members member fuel false u (writeMembers level ms rest)) s' ('\x7d' :: rest) :=
        ih (fun n hn => hR n (List.mem_cons_of_mem _ hn)) h (by simpa using hf)
          (nextMember_writeMembers level ms rest)
      simp only [h1]
      exact h2.mono (Nat.le_max_right ..)
    · simp only [h1]
      exact .inr ⟨Nat.lt_of_lt_of_le hl (Nat.le_max_left ..), left, rfl⟩

theorem colon_cons (cs : List Char) : colon (':' :: cs) = .ok cs := by
  rw [colon, skipBlank_cons rfl]; simp only [if_true]

theorem skipBlank_space_write (level : Nat) (t : Tree) (rest : List Char) :
    skipBlank (' ' :: write level t rest) = write level t rest := by
  rw [skipBlank_space, skipBlank_write]

/-! ### Values -/

/-- The inside of a bracket is read if there is a level left for it. -/
theorem inside_readsAs {α : Type} {read : Nat → Reading α} {levels depth : Nat}
    {cs : List Char} {x : α}
    {rest : List Char} (h : ∀ l, levels = l + 1 → ReadsAs l depth (read l) x rest) :
    ReadsAs levels (depth + 1) (inside levels read cs) x rest := by
  cases levels with
  | zero => exact .inr ⟨Nat.succ_pos _, _, rfl⟩
  | succ l =>
    rcases h l rfl with h | ⟨hl, he⟩
    · exact .inl h
    · exact .inr ⟨Nat.succ_lt_succ hl, he⟩

/-- A value that starts with a bracket is a list, read inside it. -/
theorem value_list {fuel levels : Nat} {cs ds : List Char} (h : skipBlank cs = '[' :: ds) :
    value fuel levels cs =
      (inside levels (fun l => Bracket.list.closed (items (value fuel l) fuel [] ds)) ds).map
        fun (vs, cs) => (.list vs, cs) := by
  rw [value.eq_def]
  cases levels <;> simp [h, inside, fail, Except.map]

/-- A member of an object, with its value, put before those that have been read. -/
def valueMember (fuel levels : Nat) (read : List (Value × Value)) (cs : List Char) :
    Reading (List (Value × Value)) :=
  match text [] cs with
  | .error e => .error e
  | .ok (key, cs) =>
    match colon cs with
    | .error e => .error e
    | .ok cs =>
      match value fuel levels cs with
      | .error e => .error e
      | .ok (v, cs) => .ok ((.text key, v) :: read, cs)

/-- A value that starts with a brace is an object, read inside it. -/
theorem value_object {fuel levels : Nat} {cs ds : List Char} (h : skipBlank cs = '\x7b' :: ds) :
    value fuel levels cs =
      (inside levels (fun l => Bracket.object.closed
        (members (valueMember fuel l) fuel true [] ds)) ds).map
        fun (ms, cs) => (.map ms.reverse, cs) := by
  rw [value.eq_def]
  cases levels
  · simp [h, inside, fail, Except.map]
  · simp only [h, Char.reduceEq, if_false, if_true, inside]
    simp
    rfl

/-- **Every tree that was written is read back as a value.** -/
theorem value_write {fuel : Nat} (t : Tree) : ∀ {levels level : Nat} {cs rest : List Char},
    t.size ≤ fuel → skipBlank cs = write level t rest →
      ReadsAs levels t.depth (value fuel levels cs) t.value rest := by
  induction t using Tree.induct with
  | text s =>
    intro levels level cs rest _ hs
    left
    rw [write, encode_append] at hs
    rw [value.eq_def]
    simp only [hs, if_true, text_encode]
    simp [Except.map, Tree.value]
  | flag b =>
    intro levels level cs rest _ hs
    left
    rw [write] at hs
    rw [value.eq_def]
    cases b <;> simp [hs, word, Except.map, Tree.value]
  | list ts ih =>
    intro levels level cs rest hz hs
    obtain ⟨ds, hw, hn⟩ := write_list level ts rest
    have hl := Tree.length_le_sizeAll ts
    rw [Tree.size] at hz
    have hi : ReadsAs levels (Tree.depthAll ts + 1)
        (inside levels (fun l => Bracket.list.closed (items (value fuel l) fuel [] ds)) ds)
        (Tree.values ts) rest := by
      refine inside_readsAs fun l _ => ReadsAs.closed ?_
      refine items_readsAs (R := fun t v => v = t.value) [] (fun t ht v hv cs rest hs => ?_)
        (Tree.forall₂_values ts) (by omega) hn
      have := Tree.size_le_sizeAll ht
      exact hv ▸ ih t ht (by omega) hs
    rw [value_list (hs.trans hw)]
    exact hi.mapValue _
  | record ms ih =>
    intro levels level cs rest hz hs
    obtain ⟨ds, hw, hn⟩ := write_record level ms rest
    have hl := Tree.length_le_sizeMembers ms
    rw [Tree.size] at hz
    have hi : ReadsAs levels (Tree.depthMembers ms + 1)
        (inside levels (fun l => Bracket.object.closed
          (members (valueMember fuel l) fuel true [] ds)) ds)
        ((Tree.memberValues ms).reverse ++ []) rest := by
      refine inside_readsAs fun l _ => ReadsAs.closed ?_
      refine members_readsAs (fun m hm u v hv rest => ?_)
        (Tree.steps_memberValues [] ms) (by omega) hn
      have := Tree.size_le_sizeMembers hm
      rw [valueMember, text_encode]
      simp only [colon_cons]
      have hv' : ReadsAs l m.2.depth (value fuel l _) m.2.value rest :=
        ih m hm (by omega) (skipBlank_space_write (level + 1) m.2 rest)
      rcases hv' with h | ⟨hd, left, h⟩
      · left
        simp only [h, hv, List.reverse_nil, List.nil_append, String.ofList_toList]
      · exact .inr ⟨hd, left, by simp only [h]⟩
    rw [value_object (hs.trans hw)]
    simpa [Tree.value, Tree.depth] using hi.mapValue fun ms => Value.map ms.reverse

/-! ### Shapes -/

theorem textValue_write {expected : String} {level : Nat} {name : String} {cs rest : List Char}
    (h : skipBlank cs = write level (.text name) rest) :
    textValue expected cs = .ok (name, rest) := by
  rw [write, encode_append] at h
  simp only [textValue, h, if_true, text_encode, List.reverse_nil, List.nil_append,
    String.ofList_toList]

/-- A member of a record, put into its slot if it has one. -/
def recordMember {σ : Type} (fuel : Nat) (isClosed : Bool) (fields : Fields σ) (levels : Nat)
    (slots : fields.Slots) (cs : List Char) : Reading fields.Slots :=
  match text [] cs with
  | .error e => .error e
  | .ok (key, cs) =>
    match Fields.put fuel fields key slots levels cs with
    | some r => r
    | none =>
      if isClosed then .error (.loose (.unknownMember key fields.keys) cs)
      else ((colon cs).bind skipValue).map ((slots, ·))

/-- The members of a record, with what they make together. -/
def recordMembers {σ α : Type} (fuel : Nat) (isClosed : Bool) (fields : Fields σ) (make : σ → α)
    (levels : Nat) (cs : List Char) : Reading α :=
  match members (recordMember fuel isClosed fields levels) fuel true fields.blank cs with
  | .error e => .error e
  | .ok (slots, cs) =>
    match fields.finish slots with
    | .ok x => .ok (make x, cs)
    | .error m => .error (.loose m cs)

/-- A record that starts with a brace is read member by member. -/
theorem read_record {σ α : Type} {title : String} {isClosed : Bool}
    {fields : Fields σ} {make : σ → α}
    {fuel levels : Nat} {cs ds : List Char} (h : skipBlank cs = '\x7b' :: ds) :
    Shape.read fuel (.record title isClosed fields make) levels cs =
      inside levels (fun l => Bracket.object.closed
        (recordMembers fuel isClosed fields make l ds)) ds := by
  rw [Shape.read]
  simp only [h, Char.reduceEq, if_false, if_true]
  rfl

/-- The value of a member is read after its colon. -/
theorem fillFirst_readsAs {α σ : Type} {read : List Char → Reading α}
    {name : String} {levels level : Nat}
    {t : Tree} {x : α} {later : σ} {rest : List Char}
    (h : ReadsAs levels t.depth (read (' ' :: write level t rest)) x rest) :
    ReadsAs levels t.depth
      (fillFirst name read (none, later) (':' :: ' ' :: write level t rest))
        (some x, later) rest := by
  rcases h with h | ⟨hl, left, h⟩
  · left
    simp only [fillFirst, memberValue, colon_cons, Except.bind, h]
    rfl
  · refine .inr ⟨hl, left, ?_⟩
    simp only [fillFirst, memberValue, colon_cons, Except.bind, h]
    rfl

mutual

/-- **A tree that a shape holds is read back as what it holds.** -/
theorem Shape.read_write {fuel : Nat} : {α : Type} → (shape : Shape α) → {t : Tree} → {x : α} →
    shape.Holds t x → t.size ≤ fuel → ∀ {levels level : Nat} {cs rest : List Char},
      skipBlank cs = write level t rest → ReadsAs levels t.depth
        (Shape.read fuel shape levels cs) x rest
  | _, .text, t, x, h, _, levels, level, cs, rest, hs => by
    obtain rfl : t = .text x := h
    exact .inl (by rw [Shape.read, textValue_write hs])
  | _, .flag, t, x, h, _, levels, level, cs, rest, hs => by
    obtain rfl : t = .flag x := h
    rw [write] at hs
    left
    rw [Shape.read, flagValue]
    cases x <;> simp [hs, word, Except.map]
  | _, .choice title choices, t, x, h, _, levels, level, cs, rest, hs => by
    obtain ⟨name, rfl, hx⟩ := h
    left
    have hw := hs
    rw [write, encode_append] at hw
    have hb : skipBlank (skipBlank cs) = write level (.text name) rest := by
      rw [hs, skipBlank_write]
    have hc : choiceName choices (skipBlank cs) = .ok (x, rest) := by
      simp only [choiceName, textValue_write hb, chosen, hx]
    rw [hw] at hc
    simp only [Shape.read, choiceValue, hw, if_true, hc]
  | _, .made shape make, t, x, h, hz, levels, level, cs, rest, hs => by
    obtain ⟨y, hy, rfl⟩ := h
    rw [Shape.read]
    exact (Shape.read_write shape hy hz hs).mapValue make
  | _, .buffered title ofValue?, t, x, h, hz, levels, level, cs, rest, hs => by
    rw [Shape.read]
    have hr : ReadsAs levels t.depth (value fuel levels cs) t.value rest := value_write t hz hs
    rcases hr with hv | ⟨hl, left, hv⟩
    · left
      have hx : ofValue? t.value = some x := h
      simp only [hv, hx]
    · exact .inr ⟨hl, left, by simp only [hv]⟩
  | _, .nullable shape, t, x, h, hz, levels, level, cs, rest, hs => by
    obtain ⟨y, hy, rfl⟩ := h
    obtain ⟨c, ds, he, hc⟩ := exists_write_eq_cons level t rest
    have hn : c ≠ 'n' := (startsValue_iff hc).2.2.2
    have hb : skipBlank (c :: ds) = write level t rest := by rw [← he, skipBlank_write]
    rw [Shape.read, hs, he]
    split
    · rename_i h
      exact absurd (List.cons.inj h).1 hn
    · exact (Shape.read_write shape hy hz hb).mapValue some
  | _, .list item, t, xs, h, hz, levels, level, cs, rest, hs => by
    obtain ⟨ts, rfl, h⟩ := h
    obtain ⟨ds, hw, hn⟩ := write_list level ts rest
    have hl := Tree.length_le_sizeAll ts
    rw [Tree.size] at hz
    rw [Shape.read, hs, hw]
    simp only [if_true]
    refine inside_readsAs fun l _ => ReadsAs.closed ?_
    refine items_readsAs [] (fun t ht x hx cs rest hs => ?_) h (by omega) hn
    have := Tree.size_le_sizeAll ht
    exact Shape.read_write item hx (by omega) hs
  | _, .record title isClosed fields make, t, x, h, hz, levels, level, cs, rest, hs => by
    obtain ⟨hd, ms, y, rfl, hm, rfl⟩ := h
    obtain ⟨ds, hw, hn⟩ := write_record level ms rest
    obtain ⟨slots, hsteps, hf⟩ := Fields.exists_steps_of_hold fields hm hd
    have hl := Tree.length_le_sizeMembers ms
    rw [Tree.size] at hz
    rw [read_record (hs.trans hw)]
    refine inside_readsAs fun l _ => ReadsAs.closed ?_
    have hr : ReadsAs l (Tree.depthMembers ms)
        (members (recordMember fuel isClosed fields l) fuel true fields.blank ds) slots
          ('\x7d' :: rest) := by
      refine members_readsAs (fun m hm u v hv rest => ?_) hsteps (by omega) hn
      have := Tree.size_le_sizeMembers hm
      obtain ⟨r, hr, hv⟩ := Fields.put_write fields fuel hv (by omega) l (level + 1) rest
      rw [recordMember, text_encode]
      simp only [List.reverse_nil, List.nil_append, String.ofList_toList]
      rw [hr]
      exact hv
    rw [recordMembers]
    rcases hr with hr | ⟨hl, left, hr⟩
    · left
      simp only [hr, hf]
      rfl
    · exact .inr ⟨hl, left, by simp only [hr]⟩

/-- A member that fills a slot is read into it. -/
theorem Fields.put_write : {σ : Type} → (fields : Fields σ) → (fuel : Nat) → {m : String × Tree} →
    {s s' : fields.Slots} → fields.Fills s m s' → m.2.size ≤ fuel →
    ∀ (levels level : Nat) (rest : List Char),
      ∃ r, Fields.put fuel fields m.1 s levels (':' :: ' ' :: write level m.2 rest) = some r ∧
        ReadsAs levels m.2.depth r s' rest
  | _, .done, _, _, _, _, h, _, _, _, _ => absurd h id
  | _, .required key shape later, fuel, m, s, s', h, hz, levels, level, rest => by
    obtain ⟨hk, hs, x, hx, rfl⟩ | ⟨hk, u, hu, rfl⟩ := h
    · have hr : ReadsAs levels m.2.depth (Shape.read fuel shape levels _) x rest :=
        Shape.read_write shape hx hz (skipBlank_space_write level m.2 rest)
      refine ⟨_, by rw [Fields.put, if_pos hk], ?_⟩
      rw [show s = (none, s.2) from Prod.ext hs rfl]
      exact fillFirst_readsAs hr
    · obtain ⟨r, hr, hu⟩ := Fields.put_write later fuel hu hz levels level rest
      refine ⟨_, by rw [Fields.put, if_neg hk, hr]; rfl, ?_⟩
      exact hu.mapValue fun u => (s.1, u)
  | _, .defaulted key shape fallback later, fuel, m, s, s', h, hz, levels, level, rest => by
    obtain ⟨hk, hs, x, hx, rfl⟩ | ⟨hk, u, hu, rfl⟩ := h
    · have hr : ReadsAs levels m.2.depth (Shape.read fuel shape levels _) x rest :=
        Shape.read_write shape hx hz (skipBlank_space_write level m.2 rest)
      refine ⟨_, by rw [Fields.put, if_pos hk], ?_⟩
      rw [show s = (none, s.2) from Prod.ext hs rfl]
      exact fillFirst_readsAs hr
    · obtain ⟨r, hr, hu⟩ := Fields.put_write later fuel hu hz levels level rest
      refine ⟨_, by rw [Fields.put, if_neg hk, hr]; rfl, ?_⟩
      exact hu.mapValue fun u => (s.1, u)

end

end Json
end Retarget
