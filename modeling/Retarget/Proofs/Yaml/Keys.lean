/-
# The keys of a mapping

A mapping is a row of nodes, in turn a key and its value, up to the end of the mapping
(`Keys`).  Which keys there are can be told without reading the values: a node ends where as
many collections are open as before it (`afterNode`), and a key is named by a scalar, which
may stand behind an alias (`nodeName?`).

A closed record whose members are no records themselves reads a key as the name of one of its
members and then a single node as its value.  So all the keys of a mapping that is read are
names of members, and no two are the same (`keys_of_read`).
-/

import Retarget.Proofs.Data.Fits
import Retarget.Proofs.Yaml.Written

namespace Retarget
namespace Yaml

/-! ### Nodes -/

/-- How many collections are open after a piece; nothing if it ends one that was not open. -/
def openAfter? (openings : Nat) : Piece → Option Nat
  | .sequenceStart _ => some (openings + 1)
  | .mappingStart _ => some (openings + 1)
  | .sequenceEnd => if openings = 0 then none else some (openings - 1)
  | .mappingEnd => if openings = 0 then none else some (openings - 1)
  | _ => some openings

/-- What is behind the node in which so many collections are open, if it has an end. -/
def afterNode (openings : Nat) : Pieces → Option Pieces
  | [] => none
  | (p, _) :: rest =>
    match openAfter? openings p with
    | none => none
    | some 0 => some rest
    | some (n + 1) => afterNode (n + 1) rest

/-- The characters of the scalar at the front, or of the one that the alias there stands for. -/
def nodeName? (s : Stream) (ps : Pieces) : Option String :=
  match ps with
  | (.scalar _ content _, _) :: _ => some content
  | (.aliased number, _) :: _ =>
    match s.anchors.lookup number with
    | some ((.scalar _ content _, _) :: _) => some content
    | _ => none
  | _ => none

/-- The keys of a mapping from one of them on, by name; a key that is no scalar has none. -/
inductive Keys (s : Stream) : Pieces → List (Option String) → Prop where
  | done {m : Mark} {rest : Pieces} : Keys s ((.mappingEnd, m) :: rest) []
  | more {ps vs rest : Pieces} {names : List (Option String)} (key : afterNode 0 ps = some vs)
      (value : afterNode 0 vs = some rest) (h : Keys s rest names) :
      Keys s ps (nodeName? s ps :: names)

/-- The text is a mapping with these keys, in order. -/
def IsMapping (text : String) (names : List (Option String)) : Prop :=
  ∃ tag m inner, (Stream.ofText text).pieces = (.mappingStart tag, m) :: inner ∧
    Keys (Stream.ofText text) inner names

theorem openAfter?_add {openings n : Nat} {p : Piece} (h : openAfter? openings p = some n) (k : Nat) :
    openAfter? (openings + k) p = some (n + k) := by
  cases p with
  | sequenceEnd =>
    rw [openAfter?] at h ⊢
    split at h
    · cases h
    · cases h
      rw [if_neg (by omega)]
      exact congrArg some (by omega)
  | mappingEnd =>
    rw [openAfter?] at h ⊢
    split at h
    · cases h
    · cases h
      rw [if_neg (by omega)]
      exact congrArg some (by omega)
  | sequenceStart tag => cases h; exact congrArg some (by omega)
  | mappingStart tag => cases h; exact congrArg some (by omega)
  | _ => cases h; rfl

/-- A node inside of a collection is passed over on the way to the end of the collection. -/
theorem afterNode_add {ps rest : Pieces} {openings : Nat} (h : afterNode openings ps = some rest)
    (k : Nat) : afterNode (openings + (k + 1)) ps = afterNode (k + 1) rest := by
  induction ps generalizing openings with
  | nil => cases h
  | cons x ps ih =>
    obtain ⟨p, m⟩ := x
    rw [afterNode] at h ⊢
    split at h
    · cases h
    · rename_i hp
      cases h
      rw [openAfter?_add hp, Nat.zero_add]
    · rename_i n hp
      rw [openAfter?_add hp, ← Nat.add_assoc]
      exact ih h

/-- No collection is open after a piece that is no part of one. -/
theorem afterNode_cons {p : Piece} {m : Mark} {rest : Pieces} (h : openAfter? 0 p = some 0) :
    afterNode 0 ((p, m) :: rest) = some rest := by
  rw [afterNode, h]

/-! ### What a reading passes over -/

section Passing

variable {s : Stream} {path : Path} {a b : Ahead} {o : Opened}

theorem take_eq_ok {p : Piece} {m : Mark} (h : take s a = .ok (p, m, b)) :
    a.rest = (p, m) :: b.rest ∧ b.jumps = a.jumps := by
  obtain ⟨rest, jumps⟩ := a
  rw [take.eq_def] at h
  split at h <;> first | cases h; exact ⟨by assumption, rfl⟩ | cases h

/-- A value is opened at its first piece, or behind the alias that stands for it. -/
theorem opened_cases (h : opened s path a = .ok o) :
    (a.rest = (o.piece, o.mark) :: o.inner.rest ∧ (∀ n, o.piece ≠ .aliased n) ∧ o.before = a ∧
      o.outer = none) ∨
    ∃ n m rest, a.rest = (.aliased n, m) :: rest ∧ o.outer = some (m, rest) ∧
      (s.anchors.lookup n).getD [] = (o.piece, o.mark) :: o.inner.rest := by
  rw [opened] at h
  cases ht : take s a with
  | error e => rw [ht] at h; cases h
  | ok t =>
    obtain ⟨p, m, b⟩ := t
    rw [ht] at h
    have hp := (take_eq_ok ht).1
    cases p with
    | aliased number =>
      right
      change (if 100 * s.count < a.jumps + 1 then _ else _) = _ at h
      split at h
      · cases h
      · change (take s ⟨(s.anchors.lookup number).getD [], a.jumps + 1⟩).bind _ = _ at h
        cases ht' : take s ⟨(s.anchors.lookup number).getD [], a.jumps + 1⟩ with
        | error e => rw [ht'] at h; cases h
        | ok t =>
          rw [ht'] at h
          cases h
          exact ⟨number, m, b.rest, hp, rfl, (take_eq_ok ht').1⟩
    | _ => cases h; exact .inl ⟨hp, by simp, rfl, rfl⟩

/-- Behind a value that was opened is what follows its node, also if an alias stands for it. -/
theorem afterNode_back (ho : opened s path a = .ok o)
    (h : a.rest = (o.piece, o.mark) :: o.inner.rest → o.before = a →
      afterNode 0 a.rest = some b.rest) : afterNode 0 a.rest = some (o.back b).rest := by
  rcases opened_cases ho with ⟨ha, -, hb, hn⟩ | ⟨n, m, rest, ha, hs, -⟩
  · rw [Opened.back, hn]
    exact h ha hb
  · rw [Opened.back, hs, ha, afterNode_cons rfl]

/-- A value of one piece is a node. -/
theorem afterNode_of_piece (ho : opened s path a = .ok o) (hp : openAfter? 0 o.piece = some 0) :
    afterNode 0 a.rest = some (o.back o.inner).rest :=
  afterNode_back ho fun ha _ => by rw [ha, afterNode_cons hp]

theorem wrongKind_ne_ok {α : Type} (expected : String) (o : Opened) (x : α) :
    wrongKind expected o ≠ .ok x := by
  rw [wrongKind.eq_def]
  split
  · split <;> exact nofun
  all_goals exact nofun

/-- The key that is read is the name of the node at the front. -/
theorem textValue_eq_ok {expected content : String} {k : Opened}
    (h : textValue s expected path a = .ok ((content, k), b)) :
    nodeName? s a.rest = some content ∧ afterNode 0 a.rest = some b.rest := by
  rw [textValue] at h
  cases ho : opened s path a with
  | error e => rw [ho] at h; cases h
  | ok o =>
    rw [ho] at h
    dsimp only [bind, Except.bind] at h
    split at h
    · rename_i tag content style hp
      cases h
      refine ⟨?_, afterNode_of_piece ho (by rw [hp]; rfl)⟩
      rcases opened_cases ho with ⟨ha, -⟩ | ⟨n, m, rest, ha, -, hl⟩
      · rw [ha, hp, nodeName?]
      · rw [ha, nodeName?]
        cases hn : s.anchors.lookup n with
        | none => rw [hn] at hl; cases hl
        | some ps =>
          rw [hn, Option.getD_some, hp] at hl
          rw [hl]
    · exact (wrongKind_ne_ok _ _ _ h).elim

theorem exists_of_map_eq_ok {α β : Type} {r : Except Fault α} {f : α → β} {y : β}
    (h : r.map f = .ok y) : ∃ x, r = .ok x ∧ f x = y := by
  cases r with
  | error e => cases h
  | ok x => cases h; exact ⟨x, rfl, rfl⟩

theorem exists_of_bind_eq_ok {ε α β : Type} {r : Except ε α} {f : α → Except ε β} {y : β}
    (h : r.bind f = .ok y) : ∃ x, r = .ok x ∧ f x = .ok y := by
  cases r with
  | error e => cases h
  | ok x => exact ⟨x, rfl, h⟩

theorem ok_of_placing_eq_ok {α : Type} {m : Mark} {r : Except Fault α} {x : α}
    (h : placing m path r = .ok x) : r = .ok x := by
  cases r with
  | error e => cases h
  | ok y => exact h

theorem openAfter?_of_isVoid {p : Piece} (h : isVoid p = true) : openAfter? 0 p = some 0 := by
  cases p <;> first | rfl | cases h

theorem openAfter?_of_isNullPiece {p : Piece} (h : isNullPiece p = .ok true) :
    openAfter? 0 p = some 0 := by
  cases p <;> first | rfl | cases h

theorem afterNode_of_flagValue {x : Bool} (h : flagValue s path a = .ok (x, b)) :
    afterNode 0 a.rest = some b.rest := by
  rw [flagValue] at h
  cases ho : opened s path a with
  | error e => rw [ho] at h; cases h
  | ok o =>
    rw [ho] at h
    dsimp only [bind, Except.bind] at h
    split at h
    · rename_i tag content style hp
      split at h
      · cases h
        exact afterNode_of_piece ho (by rw [hp]; rfl)
      · exact (wrongKind_ne_ok _ _ _ h).elim
    · exact (wrongKind_ne_ok _ _ _ h).elim

/-- The items are at their end, or one of them is read and then the others. -/
theorem items_eq_ok {α : Type} {item : Path → Ahead → Reading α} {read xs : List α}
    {fuel place : Nat}
    (h : items s path item fuel read place a = .ok (xs, b)) :
    ∃ l p m c, fuel = l + 1 ∧ take s a = .ok (p, m, c) ∧
      (p = .sequenceEnd ∧ xs = read.reverse ∧ b = c ∨
        p ≠ .sequenceEnd ∧ ∃ x d, item (path.item place) a = .ok (x, d) ∧
          items s path item l (x :: read) (place + 1) d = .ok (xs, b)) := by
  cases fuel with
  | zero => cases h
  | succ fuel =>
    cases ht : take s a with
    | error e => rw [items, ht] at h; cases h
    | ok t =>
      obtain ⟨p, m, c⟩ := t
      refine ⟨fuel, p, m, c, rfl, rfl, ?_⟩
      rw [items, ht] at h
      change (if p = .sequenceEnd then Except.ok (read.reverse, c) else
        (item (path.item place) a).bind fun t =>
          items s path item fuel (t.1 :: read) (place + 1) t.2) = Except.ok (xs, b) at h
      split at h
      · rename_i hp
        cases h
        exact .inl ⟨hp, rfl, rfl⟩
      · rename_i hp
        obtain ⟨⟨x, d⟩, hx, h⟩ := exists_of_bind_eq_ok h
        exact .inr ⟨hp, x, d, hx, h⟩

/-- Items that each pass over a node pass over what is left of their sequence. -/
theorem afterNode_of_items {α : Type} {item : Path → Ahead → Reading α} {fuel place : Nat}
    {read xs : List α}
    (hi : ∀ {path a x b}, item path a = .ok (x, b) → afterNode 0 a.rest = some b.rest)
    (h : items s path item fuel read place a = .ok (xs, b)) : afterNode 1 a.rest = some b.rest := by
  induction fuel generalizing read place a with
  | zero => cases h
  | succ fuel ih =>
    obtain ⟨l, p, m, c, hl, ht, ⟨hp, -, rfl⟩ | ⟨-, x, d, hx, h⟩⟩ := items_eq_ok h
    · rw [(take_eq_ok ht).1, hp]
      rfl
    · cases hl
      rw [← Nat.zero_add 1, afterNode_add (hi hx) 0]
      exact ih h

/-- **A value that is no record is read from a single node.** -/
theorem afterNode_of_read : {α : Type} → (shape : Shape α) → shape.IsPlain → {levels : Nat} →
    {path : Path} → {a b : Ahead} → {x : α} → Shape.read s shape levels path a = .ok (x, b) →
    afterNode 0 a.rest = some b.rest
  | _, .text, _, levels, path, a, b, x, h => by
    rw [Shape.read] at h
    obtain ⟨⟨⟨content, o⟩, c⟩, ht, he⟩ := exists_of_map_eq_ok h
    cases he
    exact (textValue_eq_ok ht).2
  | _, .flag, _, levels, path, a, b, x, h => by
    rw [Shape.read] at h
    exact afterNode_of_flagValue h
  | _, .made shape make, hp, levels, path, a, b, x, h => by
    rw [Shape.read] at h
    obtain ⟨⟨y, c⟩, hy, he⟩ := exists_of_map_eq_ok h
    cases he
    exact afterNode_of_read shape hp hy
  | _, .nullable shape, hp, levels, path, a, b, x, h => by
    rw [Shape.read] at h
    split at h
    · cases h
    · rename_i o ho
      split at h
      · cases h
      · rename_i hn
        cases h
        exact afterNode_of_piece ho (openAfter?_of_isNullPiece hn)
      · obtain ⟨⟨y, c⟩, hy, he⟩ := exists_of_map_eq_ok h
        cases he
        exact afterNode_back ho fun _ hb => hb ▸ afterNode_of_read shape hp hy
  | _, .list item, hp, levels, path, a, b, x, h => by
    cases ho : opened s path a with
    | error e => rw [Shape.read, ho] at h; cases h
    | ok o =>
      rw [read_list ho] at h
      split at h
      · rename_i tag hs
        cases levels with
        | zero => cases h
        | succ l =>
          obtain ⟨⟨xs, c⟩, hi, he⟩ := exists_of_map_eq_ok h
          cases he
          have hitems := ok_of_placing_eq_ok hi
          refine afterNode_back ho fun ha _ => ?_
          rw [ha, hs]
          exact afterNode_of_items (fun hx => afterNode_of_read item hp hx) hitems
      · split at h
        · rename_i hv
          cases h
          exact afterNode_of_piece ho (openAfter?_of_isVoid hv)
        · exact (wrongKind_ne_ok _ _ _ h).elim
  | _, .choice _ _, hp, _, _, _, _, _, _ => hp.elim
  | _, .record _ _ _ _, hp, _, _, _, _, _, _ => hp.elim
  | _, .buffered _ _, hp, _, _, _, _, _, _ => hp.elim

end Passing

/-! ### Members of a closed record -/

/-- No member is a record, a choice or a buffered value. -/
def Fields.ArePlain : {σ : Type} → Fields σ → Prop
  | _, .done => True
  | _, .required _ shape rest => shape.IsPlain ∧ Fields.ArePlain rest
  | _, .defaulted _ shape _ rest => shape.IsPlain ∧ Fields.ArePlain rest

/-- The slot of the key is free: the first one if it has the name, or a later one. -/
def FreeIn {α σ : Type} (name : String) (later : σ → String → Prop) (slots : Option α × σ)
    (key : String) : Prop :=
  if key = name then slots.1 = none else later slots.2 key

/-- The slot of the key, if there is one, has not been filled. -/
def Fields.Free : {σ : Type} → (fields : Fields σ) → fields.Slots → String → Prop
  | _, .done => fun _ _ => True
  | _, .required name _ rest => FreeIn name (Fields.Free rest)
  | _, .defaulted name _ _ rest => FreeIn name (Fields.Free rest)

/-- A member has filled its slot, which was free, and no other. -/
structure Filled {σ : Type} (keys : List String) (free : σ → String → Prop) (slots slots' : σ)
    (key : String) : Prop where
  mem_keys : key ∈ keys
  was_free : free slots key
  is_taken : ¬ free slots' key
  others : ∀ name, free slots' name → free slots name

section Put

variable {α σ : Type} {later : σ → String → Prop} {name key : String} {keys : List String}
  {slots slots' : Option α × σ} {a b : Ahead}

theorem filled_of_fillFirst {read : Ahead → Reading α}
    (h : fillFirst name slots read a = .ok (slots', b)) :
    Filled (name :: keys) (FreeIn name later) slots slots' name ∧ ∃ x, read a = .ok (x, b) := by
  obtain ⟨slot, rest⟩ := slots
  cases slot with
  | some x => cases h
  | none =>
    obtain ⟨⟨x, c⟩, hx, he⟩ := exists_of_map_eq_ok h
    cases he
    refine ⟨⟨List.mem_cons_self .., ?_, ?_, fun other ho => ?_⟩, x, hx⟩
    · exact (if_pos rfl).mpr rfl
    · simp [FreeIn]
    · by_cases hn : other = name
      · simp [FreeIn, hn]
      · simpa [FreeIn, hn] using ho

theorem filled_of_under (hn : key ≠ name) {put : Option (Reading σ)}
    (h : under slots.1 put = some (.ok (slots', b))) :
    ∃ rest, put = some (.ok (rest, b)) ∧ (Filled keys later slots.2 rest key →
      Filled (name :: keys) (FreeIn name later) slots slots' key) := by
  cases put with
  | none => cases h
  | some r =>
    obtain ⟨⟨rest, c⟩, rfl, he⟩ := exists_of_map_eq_ok (Option.some.inj h)
    cases he
    refine ⟨rest, rfl, fun hf => ⟨List.mem_cons_of_mem _ hf.mem_keys, ?_, ?_, fun other ho => ?_⟩⟩
    · simpa [FreeIn, hn] using hf.was_free
    · simpa [FreeIn, hn] using hf.is_taken
    · by_cases hn : other = name
      · simpa [FreeIn, hn] using ho
      · simpa [FreeIn, hn] using hf.others other (by simpa [FreeIn, hn] using ho)

/-- A member goes to the first slot or to a later one. -/
theorem filled_of_first {P : Prop} {read : Ahead → Reading α} {put : Option (Reading σ)}
    (h : (if key = name then some (fillFirst name slots read a) else under slots.1 put) =
      some (.ok (slots', b)))
    (hr : ∀ x, read a = .ok (x, b) → P)
    (hl : ∀ rest, put = some (.ok (rest, b)) → Filled keys later slots.2 rest key ∧ P) :
    Filled (name :: keys) (FreeIn name later) slots slots' key ∧ P := by
  split at h
  · rename_i hk
    subst hk
    obtain ⟨hf, x, hx⟩ := filled_of_fillFirst (Option.some.inj h)
    exact ⟨hf, hr x hx⟩
  · rename_i hk
    obtain ⟨rest, hput, hf⟩ := filled_of_under hk h
    obtain ⟨hfl, hp⟩ := hl rest hput
    exact ⟨hf hfl, hp⟩

end Put

section Records

variable {s : Stream} {levels : Nat} {path : Path} {a b : Ahead}

/-- A member is put into its slot by a reading that passes over its value. -/
theorem Fields.filled_of_put : {σ : Type} → (fields : Fields σ) → Fields.ArePlain fields →
    {key : String} → {slots slots' : fields.Slots} →
    Fields.put s fields key slots levels path a = some (.ok (slots', b)) →
      Filled fields.keys (Fields.Free fields) slots slots' key ∧ afterNode 0 a.rest = some b.rest
  | _, .done, _, key, slots, slots', h => by cases h
  | _, .required name shape rest, hp, key, slots, slots', h => by
    rw [Fields.put] at h
    exact filled_of_first h (fun _ => afterNode_of_read shape hp.1) fun _ =>
      Fields.filled_of_put rest hp.2
  | _, .defaulted name shape _ rest, hp, key, slots, slots', h => by
    rw [Fields.put] at h
    exact filled_of_first h (fun _ => afterNode_of_read shape hp.1) fun _ =>
      Fields.filled_of_put rest hp.2

variable {σ : Type} {fields : Fields σ} {slots slots' : fields.Slots}

/-- A member of a closed record passes over its key and its value. -/
theorem filled_of_recordMember (hp : Fields.ArePlain fields) {valuePath : Path}
    (h : recordMember s true fields levels path slots valuePath a = .ok (slots', b)) :
    ∃ key vs, nodeName? s a.rest = some key ∧ afterNode 0 a.rest = some vs ∧
      afterNode 0 vs = some b.rest ∧ Filled fields.keys (Fields.Free fields) slots slots' key := by
  rw [recordMember] at h
  split at h
  · cases h
  · rename_i key k c ht
    obtain ⟨hn, hk⟩ := textValue_eq_ok ht
    split at h
    · rename_i r hr
      subst h
      obtain ⟨hf, hv⟩ := Fields.filled_of_put fields hp hr
      exact ⟨key, c.rest, hn, hk, hv, hf⟩
    · cases h

/-- **The keys of the members that are read are known and different**, and none of them has
been read before. -/
theorem keys_of_members (hp : Fields.ArePlain fields) {names : List (Option String)} {ps : Pieces}
    (hk : Keys s ps names) : ∀ {fuel : Nat} {slots : fields.Slots} {a : Ahead}, a.rest = ps →
      members s path (recordMember s true fields levels path) fuel slots a = .ok (slots', b) →
        (∀ name ∈ names, ∃ key ∈ fields.keys, name = some key ∧ Fields.Free fields slots key) ∧
          names.Nodup := by
  induction hk with
  | done => exact fun _ _ => ⟨fun _ h => (List.not_mem_nil h).elim, List.nodup_nil⟩
  | @more ps vs rest names hkey hvalue _ ih =>
    intro fuel slots a ha h
    cases fuel with
    | zero => cases h
    | succ fuel =>
      obtain ⟨ps', jumps⟩ := a
      obtain rfl : ps' = ps := ha
      rcases ps' with _ | ⟨⟨p, m⟩, tail⟩
      · cases hkey
      · have hp' : p ≠ .mappingEnd := by rintro rfl; cases hkey
        rw [members_cons slots m hp'] at h
        cases hm : recordMember s true fields levels path slots (memberPath path p)
            ⟨(p, m) :: tail, jumps⟩ with
        | error e => rw [hm] at h; cases h
        | ok t =>
          obtain ⟨slots₁, a₁⟩ := t
          rw [hm] at h
          obtain ⟨key, vs', hn, hk', hv', hf⟩ := filled_of_recordMember hp hm
          obtain rfl := Option.some.inj (hkey.symm.trans hk')
          have hrest := Option.some.inj (hvalue.symm.trans hv')
          obtain ⟨hall, hnodup⟩ := ih hrest.symm h
          rw [hn]
          refine ⟨List.forall_mem_cons.2 ⟨⟨key, hf.mem_keys, rfl, hf.was_free⟩, fun name h => ?_⟩,
            List.nodup_cons.2 ⟨fun hmem => ?_, hnodup⟩⟩
          · obtain ⟨k, hk, rfl, hfree⟩ := hall name h
            exact ⟨k, hk, rfl, hf.others k hfree⟩
          · obtain ⟨k, -, he, hfree⟩ := hall _ hmem
            cases he
            exact hf.is_taken hfree

/-- **In a mapping that is read as a closed record all keys are known and different.** -/
theorem keys_of_read {α : Type} {title : String} {make : σ → α} (hp : Fields.ArePlain fields)
    {text : String} {x : α} {names : List (Option String)}
    (h : read (.record title true fields make) text = .ok x) (hk : IsMapping text names) :
    (∀ name ∈ names, ∃ key ∈ fields.keys, name = some key) ∧ names.Nodup := by
  obtain ⟨tag, m, inner, hs, hk⟩ := hk
  rw [read, Stream.read] at h
  cases hr : Shape.read (Stream.ofText text) (.record title true fields make) depthLimit .root
      ⟨(Stream.ofText text).pieces, 0⟩ with
  | error e => rw [hr] at h; cases h
  | ok t =>
    obtain ⟨y, c⟩ := t
    rw [hs, read_record (opened_cons (by simp))] at hr
    have hr := ok_of_placing_eq_ok hr
    rw [finished.eq_def] at hr
    split at hr
    · cases hr
    · rename_i slots b hm
      obtain ⟨hall, hnodup⟩ := keys_of_members hp hk rfl hm
      exact ⟨fun name hn => (hall name hn).imp fun key h => ⟨h.1, h.2.1⟩, hnodup⟩

end Records

/-! ### Mappings that were written -/

mutual

/-- A tree is written as a single node. -/
theorem afterNode_pieces : ∀ (t : Tree) {l rest : Pieces}, l.map (·.1) = pieces t →
    afterNode 0 (l ++ rest) = some rest
  | .text _, l, rest, h => by
    obtain ⟨m, rfl⟩ := exists_eq_singleton h
    exact afterNode_cons rfl
  | .flag _, l, rest, h => by
    obtain ⟨m, rfl⟩ := exists_eq_singleton h
    exact afterNode_cons rfl
  | .list ts, l, rest, h => by
    obtain ⟨m, l, rfl, hl⟩ := exists_eq_cons h
    obtain ⟨l₁, l₂, rfl, h₁, h₂⟩ := List.map_eq_append_iff.1 hl
    obtain ⟨n, rfl⟩ := exists_eq_singleton h₂
    rw [List.cons_append, List.append_assoc]
    exact (afterNode_itemPieces ts h₁).trans rfl
  | .record ms, l, rest, h => by
    obtain ⟨m, l, rfl, hl⟩ := exists_eq_cons h
    obtain ⟨l₁, l₂, rfl, h₁, h₂⟩ := List.map_eq_append_iff.1 hl
    obtain ⟨n, rfl⟩ := exists_eq_singleton h₂
    rw [List.cons_append, List.append_assoc]
    exact (afterNode_memberPieces ms h₁).trans rfl

theorem afterNode_itemPieces : ∀ (ts : List Tree) {l rest : Pieces}, l.map (·.1) = itemPieces ts →
    afterNode 1 (l ++ rest) = afterNode 1 rest
  | [], l, rest, h => by rw [List.map_eq_nil_iff.1 h, List.nil_append]
  | t :: ts, l, rest, h => by
    obtain ⟨l₁, l₂, rfl, h₁, h₂⟩ := List.map_eq_append_iff.1 h
    rw [List.append_assoc]
    exact (afterNode_add (afterNode_pieces t h₁) 0).trans (afterNode_itemPieces ts h₂)

theorem afterNode_memberPieces : ∀ (ms : List (String × Tree)) {l rest : Pieces},
    l.map (·.1) = memberPieces ms → afterNode 1 (l ++ rest) = afterNode 1 rest
  | [], l, rest, h => by rw [List.map_eq_nil_iff.1 h, List.nil_append]
  | (key, t) :: ms, l, rest, h => by
    obtain ⟨m, l, rfl, hl⟩ := exists_eq_cons h
    obtain ⟨l₁, l₂, rfl, h₁, h₂⟩ := List.map_eq_append_iff.1 hl
    rw [List.cons_append, List.append_assoc]
    exact (afterNode_add (afterNode_pieces t h₁) 0).trans (afterNode_memberPieces ms h₂)

end

theorem keys_memberPieces {s : Stream} {ms : List (String × Tree)} {l : Pieces}
    (h : l.map (·.1) = memberPieces ms ++ [.mappingEnd]) : Keys s l (ms.map fun m => some m.1) := by
  induction ms generalizing l with
  | nil =>
    obtain ⟨m, rfl⟩ := exists_eq_singleton h
    exact .done
  | cons n ms ih =>
    rw [memberPieces, List.cons_append, List.append_assoc] at h
    obtain ⟨m, l, rfl, hl⟩ := exists_eq_cons h
    obtain ⟨l₁, l₂, rfl, h₁, h₂⟩ := List.map_eq_append_iff.1 hl
    exact .more (afterNode_cons rfl) (afterNode_pieces n.2 h₁) (ih h₂)

/-- **A record is written as a mapping whose keys are the names of its members.** -/
theorem isMapping_render {m : String × Tree} {ms : List (String × Tree)}
    (h : (Tree.record (m :: ms)).Named) :
    IsMapping (render (.record (m :: ms))) ((m :: ms).map fun m => some m.1) := by
  obtain ⟨l, hl, hs⟩ := ofText_render h
  obtain ⟨n, l, rfl, hms⟩ := exists_eq_cons hl
  exact ⟨none, n, l, by rw [hs], keys_memberPieces hms⟩

end Yaml
end Retarget
