/-
# Two readings of the same pieces

A value that is read stops behind the node that it was read from (`value_stops`).  Another
reader that takes the node for something else may stop there too; then what the two yield is
related as the parts are (`InStep`).  So the items of a sequence and the members of a mapping
are read in step if each one is, and a value depends neither on the path, which serves for
mismatches only, nor on how many aliases have been followed (`value_unique`).
-/

import Retarget.Proofs.Yaml.Nesting

namespace Retarget
namespace Yaml

variable {s : Stream} {tail : Pieces} {levels fuel place : Nat} {path path' : Path} {a b : Ahead}

/-! ### What readings do when they succeed -/

theorem exists_of_inside_eq_ok {α : Type} {m : Mark} {read : Nat → Reading α} {x : α × Ahead}
    (h : inside levels m read = .ok x) : ∃ l, levels = l + 1 ∧ read l = .ok x := by
  cases levels with
  | zero => cases h
  | succ l => exact ⟨l, rfl, h⟩

/-- The members are at their end, or one of them is read and then the others. -/
theorem members_eq_ok {σ : Type} {member : σ → Path → Ahead → Reading σ} {u v : σ}
    (h : members s path member fuel u a = .ok (v, b)) :
    ∃ l p m c, fuel = l + 1 ∧ take s a = .ok (p, m, c) ∧
      (p = .mappingEnd ∧ v = u ∧ b = c ∨
        p ≠ .mappingEnd ∧ ∃ w d, member u (memberPath path p) a = .ok (w, d) ∧
          members s path member l w d = .ok (v, b)) := by
  cases fuel with
  | zero => cases h
  | succ fuel =>
    cases ht : take s a with
    | error e => rw [members, ht] at h; cases h
    | ok t =>
      obtain ⟨p, m, c⟩ := t
      refine ⟨fuel, p, m, c, rfl, rfl, ?_⟩
      rw [members, ht] at h
      change (if p = .mappingEnd then Except.ok (u, c) else
        (member u (memberPath path p) a).bind fun t => members s path member fuel t.1 t.2) =
          Except.ok (v, b) at h
      split at h
      · rename_i hp
        cases h
        exact .inl ⟨hp, rfl, rfl⟩
      · rename_i hp
        obtain ⟨⟨w, d⟩, hw, h⟩ := exists_of_bind_eq_ok h
        exact .inr ⟨hp, w, d, hw, h⟩

/-- How a value comes from what was opened. -/
inductive Taken (s : Stream) (o : Opened) : (levels : Nat) → Value → Ahead → Prop where
  | scalar {levels : Nat} {tag : Option Octets} {content : String} {style : Style} {v : Value}
      (piece : o.piece = .scalar tag content style) (no_tag : Resolve.ownTag? tag = none)
      (means : Resolve.scalar tag content style = .ok (.known v)) :
      Taken s o levels v (o.back o.inner)
  | list {l : Nat} {tag : Option Octets} {vs : List Value} {c : Ahead}
      (piece : o.piece = .sequenceStart tag)
      (inner : items s o.path (value s l) s.size [] 0 o.inner = .ok (vs, c)) :
      Taken s o (l + 1) (.list vs) (o.back c)
  | map {l : Nat} {tag : Option Octets} {ms : List (Value × Value)} {c : Ahead}
      (piece : o.piece = .mappingStart tag)
      (inner : members s o.path (valueMember s l o.path) s.size [] o.inner = .ok (ms, c)) :
      Taken s o (l + 1) (.map ms.reverse) (o.back c)
  | null {levels : Nat} (no_scalar : ∀ tag content style, o.piece ≠ .scalar tag content style)
      (no_list : ∀ tag, o.piece ≠ .sequenceStart tag)
      (no_map : ∀ tag, o.piece ≠ .mappingStart tag) :
      Taken s o levels .null (o.back o.inner)

/-- **A value that is read is taken from what was opened.** -/
theorem value_eq_ok {v : Value} (h : value s levels path a = .ok (v, b)) :
    ∃ o, opened s path a = .ok o ∧ Taken s o levels v b := by
  cases ho : opened s path a with
  | error e => rw [value, ho] at h; cases h
  | ok o =>
    refine ⟨o, rfl, ?_⟩
    rw [value_eq ho] at h
    split at h
    · rename_i tag content style hp
      split at h
      · cases h
      · rename_i ht
        split at h
        · cases h
        · rename_i w hw
          cases h
          cases hm : Resolve.scalar tag content style with
          | error e => rw [hm] at hw; cases hw
          | ok m =>
            rw [hm] at hw
            cases m with
            | wide i => cases hw
            | known v =>
              cases hw
              exact .scalar hp (by simpa using ht) hm
    · rename_i tag hp
      split at h
      · cases h
      · obtain ⟨⟨vs, c⟩, hi, he⟩ := exists_of_map_eq_ok h
        obtain ⟨l, rfl, hi⟩ := exists_of_inside_eq_ok hi
        cases he
        exact .list hp hi
    · rename_i tag hp
      split at h
      · cases h
      · obtain ⟨⟨ms, c⟩, hi, he⟩ := exists_of_map_eq_ok h
        obtain ⟨l, rfl, hi⟩ := exists_of_inside_eq_ok hi
        cases he
        exact .map hp hi
    · rename_i hs hl hm
      cases h
      exact .null hs hl hm

namespace Taken

variable {o : Opened} {v : Value} {tag : Option Octets}

/-! A value is taken in the way of its first piece. -/

theorem of_scalar {content : String} {style : Style} (h : Taken s o levels v b)
    (hp : o.piece = .scalar tag content style) :
    Resolve.scalar tag content style = .ok (.known v) ∧ b = o.back o.inner := by
  cases h with
  | scalar hs _ hm => cases hs.symm.trans hp; exact ⟨hm, rfl⟩
  | list hs => cases hs.symm.trans hp
  | map hs => cases hs.symm.trans hp
  | null hs => exact (hs _ _ _ hp).elim

theorem of_list (h : Taken s o levels v b) (hp : o.piece = .sequenceStart tag) :
    ∃ l vs c, levels = l + 1 ∧ items s o.path (value s l) s.size [] 0 o.inner = .ok (vs, c) ∧
      v = .list vs ∧ b = o.back c := by
  cases h with
  | list hs hi => exact ⟨_, _, _, rfl, hi, rfl, rfl⟩
  | scalar hs => cases hs.symm.trans hp
  | map hs => cases hs.symm.trans hp
  | null _ hs => exact (hs _ hp).elim

theorem of_map (h : Taken s o levels v b) (hp : o.piece = .mappingStart tag) :
    ∃ l ms c, levels = l + 1 ∧
      members s o.path (valueMember s l o.path) s.size [] o.inner = .ok (ms, c) ∧
      v = .map ms.reverse ∧ b = o.back c := by
  cases h with
  | map hs hi => exact ⟨_, _, _, rfl, hi, rfl, rfl⟩
  | scalar hs => cases hs.symm.trans hp
  | list hs => cases hs.symm.trans hp
  | null _ _ hs => exact (hs _ hp).elim

end Taken

theorem valueMember_eq_ok {l : Nat} {valuePath : Path} {read read' : List (Value × Value)}
    (h : valueMember s l path read valuePath a = .ok (read', b)) :
    ∃ k v c, value s l path a = .ok (k, c) ∧ value s l valuePath c = .ok (v, b) ∧
      read' = (k, v) :: read := by
  obtain ⟨⟨k, c⟩, hk, h⟩ := exists_of_bind_eq_ok h
  obtain ⟨⟨v, d⟩, hv, h⟩ := exists_of_bind_eq_ok h
  cases h
  exact ⟨k, v, c, hk, hv, rfl⟩

/-! ### Where readings stop -/

/-- A key and its value come first. -/
def SpansMember (ps rest : Pieces) : Prop := ∃ qs, Spans .node ps qs ∧ Spans .node qs rest

namespace Spans

variable {rest : Pieces} {p : Piece} {m : Mark}

theorem ne_end {ps : Pieces} (h : Spans .node ((p, m) :: ps) rest) :
    p ≠ .sequenceEnd ∧ p ≠ .mappingEnd := by
  cases h with
  | single h => constructor <;> rintro rfl <;> exact h
  | list => exact ⟨nofun, nofun⟩
  | map => exact ⟨nofun, nofun⟩

theorem items_of_list {ps : Pieces} {tag : Option Octets} (h : Spans .node ((p, m) :: ps) rest)
    (hp : p = .sequenceStart tag) : Spans .items ps rest := by
  subst hp
  cases h with
  | single h => exact h.elim
  | list h => exact h

theorem members_of_map {ps : Pieces} {tag : Option Octets} (h : Spans .node ((p, m) :: ps) rest)
    (hp : p = .mappingStart tag) : Spans .members ps rest := by
  subst hp
  cases h with
  | single h => exact h.elim
  | map h => exact h

theorem eq_of_isSingle {ps : Pieces} (h : Spans .node ((p, m) :: ps) rest) (hp : p.IsSingle) :
    ps = rest := by
  cases h with
  | single => rfl
  | list => exact hp.elim
  | map => exact hp.elim

theorem items_end (h : Spans .items (a.rest ++ tail) rest)
    (ht : take s a = .ok (.sequenceEnd, m, b)) : b.rest ++ tail = rest := by
  rw [(take_eq_ok ht).1] at h
  cases h with
  | itemsEnd => rfl
  | item h => exact (h.ne_end.1 rfl).elim

theorem items_more (h : Spans .items (a.rest ++ tail) rest) (ht : take s a = .ok (p, m, b))
    (hp : p ≠ .sequenceEnd) : ∃ qs, Spans .node (a.rest ++ tail) qs ∧ Spans .items qs rest := by
  rw [(take_eq_ok ht).1] at h ⊢
  cases h with
  | itemsEnd => exact (hp rfl).elim
  | item h hi => exact ⟨_, h, hi⟩

theorem members_end (h : Spans .members (a.rest ++ tail) rest)
    (ht : take s a = .ok (.mappingEnd, m, b)) : b.rest ++ tail = rest := by
  rw [(take_eq_ok ht).1] at h
  cases h with
  | membersEnd => rfl
  | key h => exact (h.ne_end.2 rfl).elim

theorem members_more (h : Spans .members (a.rest ++ tail) rest) (ht : take s a = .ok (p, m, b))
    (hp : p ≠ .mappingEnd) : ∃ qs, SpansMember (a.rest ++ tail) qs ∧ Spans .members qs rest := by
  rw [(take_eq_ok ht).1] at h ⊢
  cases h with
  | membersEnd => exact (hp rfl).elim
  | key h hv =>
    cases hv with
    | value hv hm => exact ⟨_, ⟨_, h, hv⟩, hm⟩

end Spans

/-- Wherever the reading succeeds it stops behind what comes first there. -/
def Stops {α : Type} (tail : Pieces) (spans : Pieces → Pieces → Prop)
    (read : Path → Ahead → Reading α) : Prop :=
  ∀ ⦃path : Path⦄ ⦃a b : Ahead⦄ ⦃x : α⦄ ⦃rest : Pieces⦄, spans (a.rest ++ tail) rest →
    read path a = .ok (x, b) → b.rest ++ tail = rest

section Stopping

variable {α σ : Type} {rest : Pieces}

theorem Stops.items {item : Path → Ahead → Reading α} (hi : Stops tail (Spans .node) item)
    {read xs : List α} (hs : Spans .items (a.rest ++ tail) rest)
    (h : items s path item fuel read place a = .ok (xs, b)) : b.rest ++ tail = rest := by
  induction fuel generalizing read place a with
  | zero => cases h
  | succ fuel ih =>
    obtain ⟨l, p, m, c, hl, ht, ⟨rfl, -, rfl⟩ | ⟨hp, x, d, hx, h⟩⟩ := items_eq_ok h
    · exact hs.items_end ht
    · cases hl
      obtain ⟨qs, hq, hs⟩ := hs.items_more ht hp
      exact ih (hi hq hx ▸ hs) h

theorem Stops.members {member : σ → Path → Ahead → Reading σ}
    (hm : ∀ u, Stops tail SpansMember (member u)) {u v : σ}
    (hs : Spans .members (a.rest ++ tail) rest)
    (h : members s path member fuel u a = .ok (v, b)) : b.rest ++ tail = rest := by
  induction fuel generalizing u a with
  | zero => cases h
  | succ fuel ih =>
    obtain ⟨l, p, m, c, hl, ht, ⟨rfl, -, rfl⟩ | ⟨hp, w, d, hw, h⟩⟩ := members_eq_ok h
    · exact hs.members_end ht
    · cases hl
      obtain ⟨qs, hq, hs⟩ := hs.members_more ht hp
      exact ih (hm u hq hw ▸ hs) h

/-- What is opened begins with a node, and behind that node goes on what follows. -/
theorem exists_spans_of_opened (hn : s.Nested tail) (hs : Spans .node (a.rest ++ tail) rest)
    {o : Opened} (ho : opened s path a = .ok o) :
    ∃ qs, Spans .node ((o.piece, o.mark) :: (o.inner.rest ++ tail)) qs ∧
      ∀ b, b.rest ++ tail = qs → (o.back b).rest ++ tail = rest := by
  obtain ⟨ha, -, -, hout⟩ | ⟨n, m, later, ha, hout, hl⟩ := opened_cases ho
  · rw [ha] at hs
    exact ⟨rest, hs, fun b hb => by rw [Opened.back, hout]; exact hb⟩
  · rw [ha] at hs
    cases hlook : s.anchors.lookup n with
    | none => rw [hlook] at hl; cases hl
    | some ps =>
      rw [hlook, Option.getD_some] at hl
      subst hl
      obtain ⟨l₁, l₂, he, -⟩ := List.lookup_eq_some_iff.1 hlook
      obtain ⟨qs, hq⟩ := hn.anchors _ (he ▸ List.mem_append_right _ (List.mem_cons_self ..))
      refine ⟨qs, hq, fun b _ => ?_⟩
      rw [Opened.back, hout]
      cases hs
      rfl

theorem valueMember_stops (h : Stops tail (Spans .node) (value s levels))
    (read : List (Value × Value)) : Stops tail SpansMember (valueMember s levels path read) := by
  intro p a b x rest hs hx
  obtain ⟨vs, hk, hv⟩ := hs
  obtain ⟨k, w, d, hkey, hvalue, -⟩ := valueMember_eq_ok hx
  exact h (h hk hkey ▸ hv) hvalue

/-- **A value stops behind its node.** -/
theorem value_stops (hn : s.Nested tail) (levels : Nat) :
    Stops tail (Spans .node) (value s levels) := by
  induction levels using Nat.strongRecOn with
  | ind levels ih =>
    intro path a b v rest hs h
    obtain ⟨o, ho, ht⟩ := value_eq_ok h
    obtain ⟨qs, hq, hback⟩ := exists_spans_of_opened hn hs ho
    cases ht with
    | scalar hp => exact hback _ (hq.eq_of_isSingle (hp ▸ trivial))
    | @list l tag vs c hp hi =>
      exact hback c ((ih l (Nat.lt_succ_self l)).items (hq.items_of_list hp) hi)
    | @map l tag ms c hp hi =>
      have hm (read : List (Value × Value)) :
          Stops tail SpansMember (valueMember s l o.path read) :=
        valueMember_stops (ih l (Nat.lt_succ_self l)) read
      exact hback c (Stops.members hm (hq.members_of_map hp) hi)
    | null h1 h2 h3 =>
      refine hback _ (hq.eq_of_isSingle ?_)
      cases hp : o.piece with
      | scalar tag content style => exact (h1 _ _ _ hp).elim
      | sequenceStart tag => exact (h2 _ hp).elim
      | mappingStart tag => exact (h3 _ hp).elim
      | sequenceEnd => exact (hq.ne_end.1 hp).elim
      | mappingEnd => exact (hq.ne_end.2 hp).elim
      | nothing => trivial
      | aliased n => trivial

/-- How many collections are open around what the frame says. -/
def Frame.openings : Frame → Nat
  | .node => 0
  | .items | .members | .value => 1

theorem afterNode_of_spans {f : Frame} {ps : Pieces} (h : Spans f ps rest) :
    afterNode f.openings ps = some rest := by
  induction h with
  | single h =>
    rename_i p m rest
    refine afterNode_cons ?_
    cases p <;> first | rfl | exact h.elim
  | list _ ih => exact ih
  | map _ ih => exact ih
  | itemsEnd => rfl
  | item _ _ ih ih' => exact (afterNode_add ih 0).trans ih'
  | membersEnd => rfl
  | key _ _ ih ih' => exact (afterNode_add ih 0).trans ih'
  | value _ _ ih ih' => exact (afterNode_add ih 0).trans ih'

theorem skipPieces_cons {p : Piece} {jumps openings n : Nat} (h : openAfter? openings p = some n)
    (m : Mark) (ps : Pieces) : skipPieces s jumps openings ((p, m) :: ps) =
      if n = 0 then .ok ⟨ps, jumps⟩ else skipPieces s jumps n ps := by
  cases p with
  | sequenceEnd =>
    rw [openAfter?] at h
    split at h
    · cases h
    · cases h
      rfl
  | mappingEnd =>
    rw [openAfter?] at h
    split at h
    · cases h
    · cases h
      rfl
  | _ => cases h; rfl

/-- What is passed over without being read is a node. -/
theorem rest_of_skipPieces {ps : Pieces} {jumps openings : Nat}
    (hs : afterNode openings (ps ++ tail) = some rest)
    (h : skipPieces s jumps openings ps = .ok b) : b.rest ++ tail = rest := by
  induction ps generalizing openings with
  | nil =>
    obtain ⟨⟨p, m, c⟩, ht, -⟩ := exists_of_map_eq_ok h
    cases (take_eq_ok ht).1
  | cons x ps ih =>
    obtain ⟨p, m⟩ := x
    rw [List.cons_append, afterNode] at hs
    split at hs
    · cases hs
    · rename_i hn
      rw [skipPieces_cons hn, if_pos rfl] at h
      cases h
      exact Option.some.inj hs
    · rename_i n hn
      rw [skipPieces_cons hn, if_neg (Nat.succ_ne_zero n)] at h
      exact ih hs h

end Stopping

/-! ### Two readings in step -/

/-- Wherever both readings succeed and the second one yields something in `Q`, what they yield is
related and they stop at the same place. -/
def InStep {α β : Type} (tail : Pieces) (spans : Pieces → Pieces → Prop) (R : α → β → Prop)
    (Q : β → Prop) (read : Path → Ahead → Reading α) (read' : Path → Ahead → Reading β) : Prop :=
  ∀ ⦃path path' : Path⦄ ⦃a a' b b' : Ahead⦄ ⦃x : α⦄ ⦃y : β⦄ ⦃rest : Pieces⦄, a.rest = a'.rest →
    spans (a.rest ++ tail) rest → read path a = .ok (x, b) → read' path' a' = .ok (y, b') → Q y →
      R x y ∧ b.rest = b'.rest

section Loops

variable {α β σ τ : Type} {place' : Nat} {a' b' : Ahead} {rest : Pieces}

/-- The same piece comes next. -/
theorem take_same {p p' : Piece} {m m' : Mark} {c c' : Ahead} (ha : a.rest = a'.rest)
    (h : take s a = .ok (p, m, c)) (h' : take s a' = .ok (p', m', c')) :
    p = p' ∧ c.rest = c'.rest := by
  have he : (p, m) :: c.rest = (p', m') :: c'.rest :=
    ((take_eq_ok h).1.symm.trans ha).trans (take_eq_ok h').1
  obtain ⟨hp, hc⟩ := List.cons.inj he
  exact ⟨congrArg Prod.fst hp, hc⟩

theorem mem_of_items {item : Path → Ahead → Reading α} {read xs : List α} {x : α} (hx : x ∈ read)
    (h : items s path item fuel read place a = .ok (xs, b)) : x ∈ xs := by
  induction fuel generalizing read place a with
  | zero => cases h
  | succ fuel ih =>
    obtain ⟨l, p, m, c, hl, -, ⟨-, rfl, -⟩ | ⟨-, y, d, -, h⟩⟩ := items_eq_ok h
    · exact List.mem_reverse.2 hx
    · cases hl
      exact ih (List.mem_cons_of_mem _ hx) h

/-- **Items that are read in step one by one are read in step together.** -/
theorem InStep.items {R : α → β → Prop} {Q : β → Prop} {item : Path → Ahead → Reading α}
    {item' : Path → Ahead → Reading β} (hi : InStep tail (Spans .node) R Q item item')
    (hstop : Stops tail (Spans .node) item') {us xs : List α} {vs ys : List β}
    (ha : a.rest = a'.rest) (hs : Spans .items (a.rest ++ tail) rest)
    (h : items s path item fuel us place a = .ok (xs, b))
    (h' : items s path' item' fuel vs place' a' = .ok (ys, b')) (hQ : ∀ y ∈ ys, Q y)
    (hR : List.Forall₂ R us vs) : List.Forall₂ R xs ys ∧ b.rest = b'.rest := by
  induction fuel generalizing us vs place place' a a' with
  | zero => cases h
  | succ fuel ih =>
    obtain ⟨l, p, m, c, hl, ht, hx⟩ := items_eq_ok h
    obtain ⟨l', p', m', c', hl', ht', hy⟩ := items_eq_ok h'
    cases hl
    cases hl'
    obtain ⟨rfl, hc⟩ := take_same ha ht ht'
    rcases hx with ⟨hp, rfl, rfl⟩ | ⟨hp, x, d, hx, h⟩ <;>
      rcases hy with ⟨hp', rfl, rfl⟩ | ⟨hp', y, d', hy, h'⟩
    · exact ⟨List.rel_reverse hR, hc⟩
    · exact (hp' hp).elim
    · exact (hp hp').elim
    · obtain ⟨qs, hq, hs⟩ := hs.items_more ht hp
      obtain ⟨hxy, hd⟩ := hi ha hq hx hy (hQ y (mem_of_items (List.mem_cons_self ..) h'))
      have hrest : d.rest ++ tail = qs := hd ▸ hstop (ha ▸ hq) hy
      exact ih hd (hrest ▸ hs) h h' (.cons hxy hR)

/-- What holds behind the members holds before them, if it does so for each. -/
theorem before_of_members {member : σ → Path → Ahead → Reading σ} {Q : σ → Prop}
    (hQ : ∀ {u v path a b}, member u path a = .ok (v, b) → Q v → Q u) {u v : σ}
    (h : members s path member fuel u a = .ok (v, b)) (hv : Q v) : Q u := by
  induction fuel generalizing u a with
  | zero => cases h
  | succ fuel ih =>
    obtain ⟨l, p, m, c, hl, -, ⟨-, rfl, -⟩ | ⟨-, w, d, hw, h⟩⟩ := members_eq_ok h
    · exact hv
    · cases hl
      exact hQ hw (ih h)

/-- **So are members**, if the second reader only adds to what it has read. -/
theorem InStep.members {R : σ → τ → Prop} {Q : τ → Prop} {member : σ → Path → Ahead → Reading σ}
    {member' : τ → Path → Ahead → Reading τ}
    (hm : ∀ u v, R u v → InStep tail SpansMember R Q (member u) (member' v))
    (hstop : ∀ v, Stops tail SpansMember (member' v))
    (hQ : ∀ {u v path a b}, member' u path a = .ok (v, b) → Q v → Q u) {u w : σ} {v x : τ}
    (ha : a.rest = a'.rest) (hs : Spans .members (a.rest ++ tail) rest)
    (h : members s path member fuel u a = .ok (w, b))
    (h' : members s path' member' fuel v a' = .ok (x, b')) (hx : Q x) (hR : R u v) :
    R w x ∧ b.rest = b'.rest := by
  induction fuel generalizing u v a a' with
  | zero => cases h
  | succ fuel ih =>
    obtain ⟨l, p, m, c, hl, ht, hu⟩ := members_eq_ok h
    obtain ⟨l', p', m', c', hl', ht', hv⟩ := members_eq_ok h'
    cases hl
    cases hl'
    obtain ⟨rfl, hc⟩ := take_same ha ht ht'
    rcases hu with ⟨hp, rfl, rfl⟩ | ⟨hp, w', d, hu, h⟩ <;>
      rcases hv with ⟨hp', rfl, rfl⟩ | ⟨hp', x', d', hv, h'⟩
    · exact ⟨hR, hc⟩
    · exact (hp' hp).elim
    · exact (hp hp').elim
    · obtain ⟨qs, hq, hs⟩ := hs.members_more ht hp
      obtain ⟨hr, hd⟩ := hm u v hR ha hq hu hv (before_of_members hQ h' hx)
      have hrest : d.rest ++ tail = qs := hd ▸ hstop v (ha ▸ hq) hv
      exact ih hd (hrest ▸ hs) h h' hr

end Loops

/-- The same value is opened, whatever the path and however many aliases have been followed. -/
theorem opened_same {a' : Ahead} {o o' : Opened} (ha : a.rest = a'.rest)
    (h : opened s path a = .ok o) (h' : opened s path' a' = .ok o') :
    o.piece = o'.piece ∧ o.inner.rest = o'.inner.rest ∧
      ∀ b b', b.rest = b'.rest → (o.back b).rest = (o'.back b').rest := by
  obtain ⟨hp, hn, -, ho⟩ | ⟨n, m, rest, hp, ho, hl⟩ := opened_cases h <;>
    obtain ⟨hp', hn', -, ho'⟩ | ⟨n', m', rest', hp', ho', hl'⟩ := opened_cases h' <;>
    obtain ⟨he, hrest⟩ := List.cons.inj ((hp.symm.trans ha).trans hp')
  · refine ⟨congrArg Prod.fst he, hrest, fun b b' hb => ?_⟩
    rw [Opened.back, Opened.back, ho, ho']
    exact hb
  · exact (hn n' (congrArg Prod.fst he)).elim
  · exact (hn' n (congrArg Prod.fst he).symm).elim
  · obtain rfl : n = n' := Piece.aliased.inj (congrArg Prod.fst he)
    obtain ⟨he, hinner⟩ := List.cons.inj (hl.symm.trans hl')
    refine ⟨congrArg Prod.fst he, hinner, fun b b' _ => ?_⟩
    rw [Opened.back, Opened.back, ho, ho']
    exact hrest

theorem InStep.valueMember {l : Nat} (hn : s.Nested tail)
    (h : InStep tail (Spans .node) Eq (fun _ => True) (value s l) (value s l))
    (read : List (Value × Value)) : InStep tail SpansMember Eq (fun _ => True)
      (Yaml.valueMember s l path read) (Yaml.valueMember s l path' read) := by
  intro p p' a a' b b' u v rest ha ⟨qs, hk, hv⟩ hu hv' _
  obtain ⟨k, x, c, hkey, hx, rfl⟩ := valueMember_eq_ok hu
  obtain ⟨k', x', c', hkey', hx', rfl⟩ := valueMember_eq_ok hv'
  obtain ⟨rfl, hc⟩ := h ha hk hkey hkey' trivial
  obtain ⟨rfl, hb⟩ := h hc (value_stops hn l hk hkey ▸ hv) hx hx' trivial
  exact ⟨rfl, hb⟩

/-- **Neither the path nor the aliases that have been followed matter to a value** that is read. -/
theorem value_unique (hn : s.Nested tail) (levels : Nat) :
    InStep tail (Spans .node) Eq (fun _ => True) (value s levels) (value s levels) := by
  induction levels using Nat.strongRecOn with
  | ind levels ih =>
    intro path path' a a' b b' v v' rest ha hs h h' _
    obtain ⟨o, ho, hv⟩ := value_eq_ok h
    obtain ⟨o', ho', hv'⟩ := value_eq_ok h'
    obtain ⟨hp, hinner, hback⟩ := opened_same ha ho ho'
    obtain ⟨qs, hq, -⟩ := exists_spans_of_opened hn hs ho
    -- Both values are taken from the same piece, so in the same way.
    cases hv with
    | scalar hs _ hm =>
      obtain ⟨hm', rfl⟩ := hv'.of_scalar (hp.symm.trans hs)
      cases hm.symm.trans hm'
      exact ⟨rfl, hback _ _ hinner⟩
    | list hs hi =>
      obtain ⟨l, vs, c, hl, hi', rfl, rfl⟩ := hv'.of_list (hp.symm.trans hs)
      cases hl
      obtain ⟨hvs, hc⟩ := (ih _ (Nat.lt_succ_self _)).items (value_stops hn _) hinner
        (hq.items_of_list hs) hi hi' (fun _ _ => trivial) .nil
      exact ⟨congrArg Value.list (List.forall₂_eq_eq_eq ▸ hvs), hback _ _ hc⟩
    | map hs hi =>
      obtain ⟨l, ms, c, hl, hi', rfl, rfl⟩ := hv'.of_map (hp.symm.trans hs)
      cases hl
      obtain ⟨rfl, hc⟩ := InStep.members (Q := fun _ => True)
        (by rintro u _ rfl; exact (ih _ (Nat.lt_succ_self _)).valueMember hn u)
        (valueMember_stops (value_stops hn _)) (fun _ _ => trivial) hinner
        (hq.members_of_map hs) hi hi' trivial rfl
      exact ⟨rfl, hback _ _ hc⟩
    | null h1 h2 h3 =>
      cases hv' with
      | null => exact ⟨rfl, hback _ _ hinner⟩
      | scalar hs' => exact absurd (hp.trans hs') (h1 _ _ _)
      | list hs' => exact absurd (hp.trans hs') (h2 _)
      | map hs' => exact absurd (hp.trans hs') (h3 _)

end Yaml
end Retarget
