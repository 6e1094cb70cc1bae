/-
# A tree is read back from its pieces

A reading of the pieces of a tree comes to one of two ends (`ReadsAs`): it yields what was
written and stops behind the tree, or it meets more collections in each other than it has
levels.  The second needs a tree that is deeper than the levels.  `value_pieces` reads a
tree as a value; `Shape.read_pieces` reads a tree that a shape holds.
-/

import Retarget.Proofs.Yaml.Event
import Retarget.Yaml.Reader

namespace Retarget
namespace Yaml

/-- The reading yields `x` and stops before `rest`, or it ends with too many open collections. -/
abbrev ReadsAs {α : Type} (levels depth : Nat) (r : Reading α) (x : α) (rest : Ahead) : Prop :=
  ReadsWithin Fault.tooDeep levels depth r x rest

/-- The inside of a collection, if there is a level left for it. -/
def inside {α : Type} (levels : Nat) (m : Mark) (read : Nat → Reading α) : Reading α :=
  match levels with
  | 0 => .error (.tooDeep m)
  | l + 1 => read l

namespace ReadsAs

variable {α : Type} {levels depth : Nat} {r : Reading α} {x : α} {rest : Ahead}

/-- A place is given only to a mismatch. -/
theorem placing {m : Mark} {path : Path} (h : ReadsAs levels depth r x rest) :
    ReadsAs levels depth (placing m path r) x rest := by
  rcases h with rfl | ⟨hl, n, rfl⟩
  · exact .inl rfl
  · exact .inr ⟨hl, n, rfl⟩

theorem inside {read : Nat → Reading α} {m : Mark}
    (h : ∀ l, levels = l + 1 → ReadsAs l depth (read l) x rest) :
    ReadsAs levels (depth + 1) (inside levels m read) x rest := by
  cases levels with
  | zero => exact .inr ⟨Nat.succ_pos _, m, rfl⟩
  | succ l =>
    rcases h l rfl with h | ⟨hl, he⟩
    · exact .inl h
    · exact .inr ⟨Nat.succ_lt_succ hl, he⟩

end ReadsAs

variable {s : Stream} {l rest : Pieces} {jumps : Nat} {levels : Nat} {path : Path}

/-- What a tree begins with. -/
theorem exists_pieces_eq_cons (t : Tree) :
    ∃ p ps, pieces t = p :: ps ∧ (∀ n, p ≠ .aliased n) ∧ p ≠ .sequenceEnd ∧ p ≠ .mappingEnd := by
  cases t <;> exact ⟨_, _, by rw [pieces], by simp⟩

/-- Of the first piece, only the place is not known. -/
theorem exists_eq_cons {p : Piece} {ps : List Piece} (h : l.map (·.1) = p :: ps) :
    ∃ m k, l = (p, m) :: k ∧ k.map (·.1) = ps := by
  obtain ⟨⟨q, m⟩, k, rfl, hq, hk⟩ := List.map_eq_cons_iff.1 h
  obtain rfl : q = p := hq
  exact ⟨m, k, rfl, hk⟩

theorem exists_eq_singleton {p : Piece} (h : l.map (·.1) = [p]) : ∃ m, l = [(p, m)] := by
  obtain ⟨⟨q, m⟩, rfl, hq⟩ := List.map_eq_singleton_iff.1 h
  obtain rfl : q = p := hq
  exact ⟨m, rfl⟩

theorem take_cons (p : Piece) (m : Mark) :
    take s ⟨(p, m) :: rest, jumps⟩ = .ok (p, m, ⟨rest, jumps⟩) := by
  rw [take]

theorem opened_cons {p : Piece} {m : Mark} (h : ∀ n, p ≠ .aliased n) :
    opened s path ⟨(p, m) :: rest, jumps⟩ =
      .ok ⟨p, m, path, ⟨(p, m) :: rest, jumps⟩, ⟨rest, jumps⟩, none⟩ := by
  rw [opened, take_cons]
  cases p <;> first | rfl | exact absurd rfl (h _)

/-! ### Collections -/

section Items

variable {α : Type} {item : Path → Ahead → Reading α} {fuel place : Nat}

theorem items_end (read : List α) (m : Mark) :
    items s path item (fuel + 1) read place ⟨(.sequenceEnd, m) :: rest, jumps⟩ =
      .ok (read.reverse, ⟨rest, jumps⟩) := rfl

theorem items_cons (read : List α) {p : Piece} (m : Mark) (h : p ≠ .sequenceEnd) :
    items s path item (fuel + 1) read place ⟨(p, m) :: rest, jumps⟩ =
      (item (path.item place) ⟨(p, m) :: rest, jumps⟩).bind fun (x, a) =>
        items s path item fuel (x :: read) (place + 1) a := by
  rw [items, take_cons]
  exact if_neg h

/-- Items are read one after the other, if each is read as what it was written for. -/
theorem items_readsAs {R : Tree → α → Prop} {ts : List Tree} {xs : List α} (read : List α)
    (hR : ∀ t ∈ ts, ∀ x, R t x → ∀ path (l rest : Pieces), l.map (·.1) = pieces t →
      ReadsAs levels t.depth (item path ⟨l ++ rest, jumps⟩) x ⟨rest, jumps⟩)
    (h : List.Forall₂ R ts xs) (hf : ts.length < fuel)
    (hl : l.map (·.1) = itemPieces ts ++ [.sequenceEnd]) :
    ReadsAs levels (Tree.depthAll ts) (items s path item fuel read place ⟨l ++ rest, jumps⟩)
      (read.reverse ++ xs)
      ⟨rest, jumps⟩ := by
  induction h generalizing fuel read place l with
  | nil =>
    obtain ⟨fuel, rfl⟩ := Nat.exists_eq_add_one_of_ne_zero (Nat.ne_zero_of_lt hf)
    obtain ⟨m, rfl⟩ := exists_eq_singleton hl
    rw [List.append_nil]
    exact .inl (items_end read m)
  | @cons t x ts xs hx _ ih =>
    obtain ⟨fuel, rfl⟩ := Nat.exists_eq_add_one_of_ne_zero (Nat.ne_zero_of_lt hf)
    rw [itemPieces, List.append_assoc] at hl
    obtain ⟨k, l, rfl, hk, hl⟩ := List.map_eq_append_iff.1 hl
    have h1 := hR t (List.mem_cons_self ..) x hx (path.item place) k (l ++ rest) hk
    have h2 : ReadsAs levels (Tree.depthAll ts)
      (items s path item fuel (x :: read) (place + 1) ⟨l ++ rest, jumps⟩)
        ((x :: read).reverse ++ xs) ⟨rest, jumps⟩ :=
      ih _ (fun u hu => hR u (List.mem_cons_of_mem _ hu)) (by simpa using hf) hl
    rw [List.reverse_cons, List.append_assoc, List.singleton_append] at h2
    obtain ⟨p, ps, hp, -, he, -⟩ := exists_pieces_eq_cons t
    obtain ⟨m, k, rfl, -⟩ := exists_eq_cons (hk.trans hp)
    rw [List.append_assoc] at *
    rw [List.cons_append, items_cons read m he]
    exact (h1.mono (Nat.le_max_left ..)).bind (h2.mono (Nat.le_max_right ..))

end Items

section Members

variable {σ : Type} {member : σ → Path → Ahead → Reading σ} {fuel : Nat}

theorem members_end (u : σ) (m : Mark) :
    members s path member (fuel + 1) u ⟨(.mappingEnd, m) :: rest, jumps⟩ =
      .ok (u, ⟨rest, jumps⟩) := rfl

theorem members_cons (u : σ) {p : Piece} (m : Mark) (h : p ≠ .mappingEnd) :
    members s path member (fuel + 1) u ⟨(p, m) :: rest, jumps⟩ =
      (member u (memberPath path p) ⟨(p, m) :: rest, jumps⟩).bind fun (v, a) =>
        members s path member fuel v a := by
  rw [members, take_cons]
  exact if_neg h

/-- Members are read one after the other, if each one takes the state on as `R` says. -/
theorem members_readsAs {R : σ → String × Tree → σ → Prop} {ms : List (String × Tree)} {u v : σ}
    (hR : ∀ m ∈ ms, ∀ u v, R u m v → ∀ path n (l rest : Pieces), l.map (·.1) = pieces m.2 →
      ReadsAs levels m.2.depth (member u path ⟨(.scalar none m.1 .plain, n) :: (l ++ rest), jumps⟩)
        v ⟨rest, jumps⟩)
    (h : Steps R u ms v) (hf : ms.length < fuel)
    (hl : l.map (·.1) = memberPieces ms ++ [.mappingEnd]) :
    ReadsAs levels (Tree.depthMembers ms) (members s path member fuel u ⟨l ++ rest, jumps⟩) v
      ⟨rest, jumps⟩ := by
  induction ms generalizing fuel u l with
  | nil =>
    obtain ⟨fuel, rfl⟩ := Nat.exists_eq_add_one_of_ne_zero (Nat.ne_zero_of_lt hf)
    obtain ⟨m, rfl⟩ := exists_eq_singleton hl
    obtain rfl : u = v := h
    exact .inl (members_end u m)
  | cons m ms ih =>
    obtain ⟨fuel, rfl⟩ := Nat.exists_eq_add_one_of_ne_zero (Nat.ne_zero_of_lt hf)
    obtain ⟨w, hw, h⟩ := h
    rw [memberPieces, List.cons_append, List.append_assoc] at hl
    obtain ⟨n, l, rfl, hms⟩ := exists_eq_cons hl
    obtain ⟨k, l, rfl, hk, hl⟩ := List.map_eq_append_iff.1 hms
    have h1 := hR m (List.mem_cons_self ..) u w hw
      (memberPath path (.scalar none m.1 .plain)) n k (l ++ rest) hk
    have h2 : ReadsAs levels (Tree.depthMembers ms)
      (members s path member fuel w ⟨l ++ rest, jumps⟩) v
        ⟨rest, jumps⟩ :=
      ih (fun m hm => hR m (List.mem_cons_of_mem _ hm)) h (by simpa using hf) hl
    rw [List.cons_append, List.append_assoc, members_cons u n (by simp)]
    exact (h1.mono (Nat.le_max_left ..)).bind (h2.mono (Nat.le_max_right ..))

end Members

/-! ### Values -/

/-- A member of a map, with its value, put before those that have been read. -/
def valueMember (s : Stream) (levels : Nat) (path : Path)
    (read : List (Value × Value)) (valuePath : Path)
    (a : Ahead) : Reading (List (Value × Value)) :=
  (value s levels path a).bind fun (k, a) => (value s levels valuePath a).bind fun (v, a) =>
    .ok ((k, v) :: read, a)

/-- A value is read by its first piece; a list or a map is read inside it. -/
theorem value_eq {a : Ahead} {o : Opened} (h : opened s path a = .ok o) :
    value s levels path a = match o.piece with
      | .scalar tag content style =>
        if (Resolve.ownTag? tag).isSome then misfit .taggedAlternative o.mark o.path
        else
          match (Resolve.scalar tag content style).bind Meaning.value with
          | .error x => misfit x o.mark o.path
          | .ok v => .ok (v, o.back o.inner)
      | .sequenceStart tag =>
        if (Resolve.ownTag? tag).isSome then misfit .taggedAlternative o.mark o.path
        else
          (inside levels o.mark fun l => items s o.path (value s l) s.size [] 0 o.inner).map
            fun (vs, b) => (.list vs, o.back b)
      | .mappingStart tag =>
        if (Resolve.ownTag? tag).isSome then misfit .taggedAlternative o.mark o.path
        else
          (inside levels o.mark fun l => members s o.path
            (valueMember s l o.path) s.size [] o.inner).map
            fun (ms, b) => (.map ms.reverse, o.back b)
      | _ => .ok (.null, o.back o.inner) := by
  obtain ⟨p, m, path', before, inner, outer⟩ := o
  rw [value, h]
  cases p <;> cases levels <;> rfl

/-- A scalar that means a value is read as the value. -/
theorem value_scalar {content : String} {style : Style} {v : Value} {m : Mark}
    (h : Resolve.scalar none content style = .ok (.known v)) :
    value s levels path ⟨(.scalar none content style, m) :: rest, jumps⟩ =
      .ok (v, ⟨rest, jumps⟩) := by
  rw [value_eq (opened_cons (by simp))]
  simp only [Resolve.ownTag?, h]
  rfl

theorem scalar_flag (b : Bool) : Resolve.scalar none (flagText b) .plain =
    .ok (.known (.flag b)) := by
  cases b <;> rfl

/-- **Every tree that was written is read back as a value.** -/
theorem value_pieces {t : Tree} (h : t.Named) : ∀ {levels : Nat} {path : Path} {l rest : Pieces},
    l.map (·.1) = pieces t → t.size < s.size →
      ReadsAs levels t.depth (value s levels path ⟨l ++ rest, jumps⟩) t.value ⟨rest, jumps⟩ := by
  induction h with
  | text t =>
    intro levels path l rest hl _
    obtain ⟨m, rfl⟩ := exists_eq_singleton hl
    exact .inl (value_scalar (Written.scalar_means_text t))
  | flag b =>
    intro levels path l rest hl _
    obtain ⟨m, rfl⟩ := exists_eq_singleton hl
    exact .inl (value_scalar (scalar_flag b))
  | @list ts _ ih =>
    intro levels path l rest hl hz
    rw [pieces] at hl
    obtain ⟨m, l, rfl, hts⟩ := exists_eq_cons hl
    have hlen := Tree.length_le_sizeAll ts
    rw [Tree.size] at hz
    have hi : ReadsAs levels (Tree.depthAll ts + 1)
        (inside levels m fun k => items s path (value s k) s.size [] 0 ⟨l ++ rest, jumps⟩)
          (Tree.values ts)
        ⟨rest, jumps⟩ := by
      refine ReadsAs.inside fun k _ => ?_
      refine items_readsAs (R := fun t v => v = t.value) [] (fun t ht v hv path l rest hl => ?_)
        (Tree.forall₂_values ts) (by omega) hts
      have := Tree.size_le_sizeAll ht
      exact hv ▸ ih t ht hl (by omega)
    rw [List.cons_append, value_eq (opened_cons (by simp))]
    exact hi.map _ rfl
  | @record ms hk _ ih =>
    intro levels path l rest hl hz
    rw [pieces] at hl
    obtain ⟨m, l, rfl, hms⟩ := exists_eq_cons hl
    have hlen := Tree.length_le_sizeMembers ms
    rw [Tree.size] at hz
    have hi : ReadsAs levels (Tree.depthMembers ms + 1)
        (inside levels m fun k => members s path (valueMember s k path) s.size
          [] ⟨l ++ rest, jumps⟩)
        ((Tree.memberValues ms).reverse ++ []) ⟨rest, jumps⟩ := by
      refine ReadsAs.inside fun k _ => ?_
      refine members_readsAs (fun n hn u v hv valuePath mark l rest hl => ?_)
        (Tree.steps_memberValues [] ms)
        (by omega) hms
      have := Tree.size_le_sizeMembers hn
      have hkey : Resolve.scalar none n.1 .plain = .ok (.known (.text n.1)) := by
        rw [Resolve.scalar, if_pos rfl, Resolve.untagged_eq_of_isText (hk n hn).text]
      rw [valueMember, value_scalar hkey]
      exact (ih n hn hl (by omega)).bind (.inl (by rw [hv]))
    rw [List.cons_append, value_eq (opened_cons (by simp))]
    exact hi.map _ (by simp [Tree.value, Opened.back])

/-! ### Shapes -/

theorem textValue_scalar {expected content : String} {style : Style} {m : Mark} :
    textValue s expected path ⟨(.scalar none content style, m) :: rest, jumps⟩ =
      .ok ((content, ⟨.scalar none content style, m, path,
        ⟨(.scalar none content style, m) :: rest, jumps⟩,
        ⟨rest, jumps⟩, none⟩), ⟨rest, jumps⟩) := by
  rw [textValue, opened_cons (by simp)]
  rfl

theorem flagValue_scalar {b : Bool} {m : Mark} :
    flagValue s path ⟨(.scalar none (flagText b) .plain, m) :: rest, jumps⟩ =
      .ok (b, ⟨rest, jumps⟩) := by
  rw [flagValue, opened_cons (by simp)]
  cases b <;> rfl

theorem choiceValue_scalar {α : Type} {choices : List (String × α)} {x : α}
    {content : String} {style : Style}
    {m : Mark} (h : choices.lookup content = some x) :
    choiceValue s choices path ⟨(.scalar none content style, m) :: rest, jumps⟩ =
      .ok (x, ⟨rest, jumps⟩) := by
  rw [choiceValue, opened_cons (by simp)]
  simp [Resolve.ownTag?, chosen, h, bind, Except.bind, Opened.back]

theorem isNull_of_isText {t : String} (h : (Resolve.untagged t).isText = true) :
    (t.isEmpty || Resolve.isNull t) = false := by
  rw [Resolve.untagged] at h
  split at h
  · exact absurd h (by decide)
  · rename_i hn
    simpa using hn

/-- What a tree begins with does not stand for null. -/
theorem isNullPiece_of_pieces {t : Tree} {p : Piece} {ps : List Piece} (h : pieces t = p :: ps) :
    isNullPiece p = .ok false := by
  cases t with
  | text t =>
    obtain rfl : .scalar none t (Written.style t) = p := (List.cons.inj h).1
    simp only [isNullPiece]
    split
    · rfl
    · rename_i hs
      rw [isNull_of_isText (Written.style_eq_plain (not_not.1 hs)).1]
  | flag b =>
    obtain rfl : .scalar none (flagText b) .plain = p := (List.cons.inj h).1
    cases b <;> rfl
  | list ts =>
    obtain rfl : .sequenceStart none = p := (List.cons.inj h).1
    rfl
  | record ms =>
    obtain rfl : .mappingStart none = p := (List.cons.inj h).1
    rfl

/-- A member of a record, put into its slot if it has one. -/
def recordMember {σ : Type} (s : Stream) (isClosed : Bool) (fields : Fields σ)
    (levels : Nat) (path : Path)
    (slots : fields.Slots) (valuePath : Path) (a : Ahead) : Reading fields.Slots :=
  match textValue s "field identifier" path a with
  | .error e => .error e
  | .ok ((key, k), a) =>
    match Fields.put s fields key slots levels valuePath a with
    | some r => r
    | none =>
      if isClosed then misfit (.unknownMember key fields.keys) k.mark k.path
      else (skipPieces s a.jumps 0 a.rest).map ((slots, ·))

/-- What the members of a record make together. -/
def finished {σ α : Type} (fields : Fields σ) (make : σ → α) (o : Opened)
    (read : Reading fields.Slots) :
    Reading α :=
  match read with
  | .error e => .error e
  | .ok (slots, a) =>
    match fields.finish slots with
    | .ok x => .ok (make x, o.back a)
    | .error x => loose x

/-- A list is read inside its sequence. -/
theorem read_list {α : Type} {item : Shape α} {a : Ahead} {o : Opened}
    (h : opened s path a = .ok o) :
    Shape.read s (.list item) levels path a = match o.piece with
      | .sequenceStart _ =>
        (inside levels o.mark fun l =>
          placing o.mark o.path (items s o.path (Shape.read s item l) s.size [] 0 o.inner)).map
            fun (xs, b) => (xs, o.back b)
      | p => if isVoid p then .ok ([], o.back o.inner) else wrongKind "a sequence" o := by
  obtain ⟨p, m, path', before, inner, outer⟩ := o
  rw [Shape.read, h]
  cases p <;> cases levels <;> rfl

/-- A record is read member by member. -/
theorem read_record {σ α : Type} {title : String} {isClosed : Bool} {fields : Fields σ}
    {make : σ → α} {a : Ahead}
    {o : Opened} (h : opened s path a = .ok o) :
    Shape.read s (.record title isClosed fields make) levels path a = match o.piece with
      | .mappingStart _ =>
        inside levels o.mark fun l => placing o.mark o.path (finished fields make o
          (members s o.path (recordMember s isClosed fields l o.path) s.size fields.blank o.inner))
      | p =>
        if isVoid p then placing o.mark o.path
          (finished fields make o (.ok (fields.blank, o.inner)))
        else wrongKind ("struct " ++ title) o := by
  obtain ⟨p, m, path', before, inner, outer⟩ := o
  rw [Shape.read, h]
  cases p <;> cases levels <;> rfl

/-- A nullable value that is not null is read as what it is. -/
theorem read_nullable {α : Type} {shape : Shape α} {p : Piece} {m : Mark} (h : ∀ n, p ≠ .aliased n)
    (hn : isNullPiece p = .ok false) :
    Shape.read s (.nullable shape) levels path ⟨(p, m) :: rest, jumps⟩ =
      (Shape.read s shape levels path ⟨(p, m) :: rest, jumps⟩).map fun (x, a) => (some x, a) := by
  rw [Shape.read, opened_cons h]
  simp only [hn]
  rfl

/-- The value of a member fills a slot that was blank. -/
theorem fillFirst_readsAs {α σ : Type} {read : Ahead → Reading α} {name : String}
    {depth : Nat} {x : α} {later : σ}
    {a b : Ahead} (h : ReadsAs levels depth (read a) x b) :
    ReadsAs levels depth (fillFirst name (none, later) read a) (some x, later) b :=
  h.map _ rfl

mutual

/-- **A tree that a shape holds is read back as what it holds.** -/
theorem Shape.read_pieces : {α : Type} → (shape : Shape α) → {t : Tree} → {x : α} →
    shape.Holds t x → t.Named →
    t.size < s.size → ∀ {levels : Nat} {path : Path} {l rest : Pieces}, l.map (·.1) = pieces t →
      ReadsAs levels t.depth (Shape.read s shape levels path ⟨l ++ rest, jumps⟩) x ⟨rest, jumps⟩
  | _, .text, t, x, h, _, _, levels, path, l, rest, hl => by
    obtain rfl : t = .text x := h
    obtain ⟨m, rfl⟩ := exists_eq_singleton hl
    left
    rw [Shape.read, List.singleton_append, textValue_scalar]
    rfl
  | _, .flag, t, x, h, _, _, levels, path, l, rest, hl => by
    obtain rfl : t = .flag x := h
    obtain ⟨m, rfl⟩ := exists_eq_singleton hl
    left
    rw [Shape.read]
    exact flagValue_scalar
  | _, .choice title choices, t, x, h, _, _, levels, path, l, rest, hl => by
    obtain ⟨name, rfl, hx⟩ := h
    obtain ⟨m, rfl⟩ := exists_eq_singleton hl
    left
    rw [Shape.read]
    exact choiceValue_scalar hx
  | _, .made shape make, t, x, h, hn, hz, levels, path, l, rest, hl => by
    obtain ⟨y, hy, rfl⟩ := h
    rw [Shape.read]
    exact (Shape.read_pieces shape hy hn hz hl).map _ rfl
  | _, .buffered title ofValue?, t, x, h, hn, hz, levels, path, l, rest, hl => by
    rw [Shape.read]
    have hr : ReadsAs levels t.depth (value s levels path ⟨l ++ rest, jumps⟩) t.value
      ⟨rest, jumps⟩ :=
      value_pieces hn hl hz
    rcases hr with hv | ⟨hd, m, hv⟩
    · left
      have hx : ofValue? t.value = some x := h
      simp only [hv, hx]
    · exact .inr ⟨hd, m, by simp only [hv]⟩
  | _, .nullable shape, t, x, h, hn, hz, levels, path, l, rest, hl => by
    obtain ⟨y, hy, rfl⟩ := h
    obtain ⟨p, ps, hp, ha, -, -⟩ := exists_pieces_eq_cons t
    have hr : ReadsAs levels t.depth (Shape.read s shape levels path ⟨l ++ rest, jumps⟩) y
      ⟨rest, jumps⟩ :=
      Shape.read_pieces shape hy hn hz hl
    obtain ⟨m, l, rfl, -⟩ := exists_eq_cons (hl.trans hp)
    rw [List.cons_append, read_nullable ha (isNullPiece_of_pieces hp)]
    exact hr.map _ rfl
  | _, .list item, t, xs, h, hn, hz, levels, path, l, rest, hl => by
    obtain ⟨ts, rfl, h⟩ := h
    rw [pieces] at hl
    obtain ⟨m, l, rfl, hts⟩ := exists_eq_cons hl
    have hlen := Tree.length_le_sizeAll ts
    rw [Tree.size] at hz
    rw [List.cons_append, read_list (opened_cons (by simp))]
    refine ReadsWithin.map (ReadsAs.inside fun k _ => ReadsAs.placing ?_) _ rfl
    refine items_readsAs [] (fun t ht x hx path l rest hl => ?_) h (by omega) hts
    have := Tree.size_le_sizeAll ht
    exact Shape.read_pieces item hx (hn.item ht) (by omega) hl
  | _, .record title isClosed fields make, t, x, h, hn, hz, levels, path, l, rest, hl => by
    obtain ⟨hd, ms, y, rfl, hm, rfl⟩ := h
    obtain ⟨slots, hsteps, hf⟩ := Fields.exists_steps_of_hold fields hm hd
    rw [pieces] at hl
    obtain ⟨m, l, rfl, hms⟩ := exists_eq_cons hl
    have hlen := Tree.length_le_sizeMembers ms
    rw [Tree.size] at hz
    rw [List.cons_append, read_record (opened_cons (by simp))]
    refine ReadsAs.inside fun k _ => ReadsAs.placing ?_
    have hr : ReadsAs k (Tree.depthMembers ms)
        (members s path (recordMember s isClosed fields k path) s.size fields.blank
          ⟨l ++ rest, jumps⟩) slots
        ⟨rest, jumps⟩ := by
      refine members_readsAs (fun n hm u v hv valuePath mark l rest hl => ?_) hsteps (by omega) hms
      have := Tree.size_le_sizeMembers hm
      obtain ⟨r, hr, hv⟩ := Fields.put_pieces fields hv (hn.member hm)
        (by omega) k valuePath rest hl
      rw [recordMember, textValue_scalar]
      simp only [hr]
      exact hv
    rcases hr with hr | ⟨hl, m, hr⟩
    · left
      simp only [finished, hr, hf, Opened.back]
    · exact .inr ⟨hl, m, by simp only [finished, hr]⟩

/-- A member that fills a slot is read into it. -/
theorem Fields.put_pieces : {σ : Type} → (fields : Fields σ) →
    {m : String × Tree} → {u v : fields.Slots} →
    fields.Fills u m v → m.2.Named → m.2.size < s.size →
      ∀ (levels : Nat) (path : Path) {l : Pieces} (rest : Pieces),
      l.map (·.1) = pieces m.2 →
        ∃ r, Fields.put s fields m.1 u levels path ⟨l ++ rest, jumps⟩ = some r ∧
          ReadsAs levels m.2.depth r v ⟨rest, jumps⟩
  | _, .done, _, _, _, h, _, _, _, _, _, _, _ => absurd h id
  | _, .required key shape later, m, u, v, h, hn, hz, levels, path, l, rest, hl => by
    obtain ⟨hk, hs, x, hx, rfl⟩ | ⟨hk, w, hw, rfl⟩ := h
    · have hr : ReadsAs levels m.2.depth (Shape.read s shape levels path ⟨l ++ rest, jumps⟩) x
        ⟨rest, jumps⟩ :=
        Shape.read_pieces shape hx hn hz hl
      refine ⟨_, by rw [Fields.put, if_pos hk], ?_⟩
      rw [show u = (none, u.2) from Prod.ext hs rfl]
      exact fillFirst_readsAs hr
    · obtain ⟨r, hr, hw⟩ := Fields.put_pieces later hw hn hz levels path rest hl
      refine ⟨_, by rw [Fields.put, if_neg hk, hr]; rfl, ?_⟩
      exact hw.map _ rfl
  | _, .defaulted key shape fallback later, m, u, v, h, hn, hz, levels, path, l, rest, hl => by
    obtain ⟨hk, hs, x, hx, rfl⟩ | ⟨hk, w, hw, rfl⟩ := h
    · have hr : ReadsAs levels m.2.depth (Shape.read s shape levels path ⟨l ++ rest, jumps⟩) x
        ⟨rest, jumps⟩ :=
        Shape.read_pieces shape hx hn hz hl
      refine ⟨_, by rw [Fields.put, if_pos hk], ?_⟩
      rw [show u = (none, u.2) from Prod.ext hs rfl]
      exact fillFirst_readsAs hr
    · obtain ⟨r, hr, hw⟩ := Fields.put_pieces later hw hn hz levels path rest hl
      refine ⟨_, by rw [Fields.put, if_neg hk, hr]; rfl, ?_⟩
      exact hw.map _ rfl

end

end Yaml
end Retarget
