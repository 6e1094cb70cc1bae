/-
# Nesting

The pieces of a document are well nested: a sequence is a row of nodes up to its end, and a
mapping one of keys and values in turn (`Spans`).  A text may break off anywhere, so this is
so for its pieces with some more of them behind (`exists_nested`).

The reader of events is a pushdown automaton.  Each state on its stack stands for what is
still to come of a collection (`frames`), and one step puts one piece in front of what is to
come after it (`closes_of_step`).  So the run is taken from its end: where the events stop
everything that is open is closed, and from there on backwards each step keeps the pieces
nested (`goesOn_read`).
-/

import Retarget.Proofs.Yaml.Keys

namespace Retarget
namespace Yaml

/-! ### Nodes and rows of them -/

/-- What the pieces at a place go on with: a node, the items of a sequence, the members of a
mapping, or a value and then the other members. -/
inductive Frame where
  | node
  | items
  | members
  | value

/-- What is still to come after a node. -/
def Frame.after : Frame → List Frame
  | .node => []
  | .items => [.items]
  | .members => [.value]
  | .value => [.members]

/-- The piece is a node of its own. -/
def Piece.IsSingle : Piece → Prop
  | .nothing | .aliased _ | .scalar _ _ _ => True
  | _ => False

/-- The pieces begin with what the frame says, and this is what is behind it. -/
inductive Spans : Frame → Pieces → Pieces → Prop where
  | single {p : Piece} {m : Mark} {rest : Pieces} (h : p.IsSingle) :
      Spans .node ((p, m) :: rest) rest
  | list {tag : Option Octets} {m : Mark} {ps rest : Pieces} (inner : Spans .items ps rest) :
      Spans .node ((.sequenceStart tag, m) :: ps) rest
  | map {tag : Option Octets} {m : Mark} {ps rest : Pieces} (inner : Spans .members ps rest) :
      Spans .node ((.mappingStart tag, m) :: ps) rest
  | itemsEnd {m : Mark} {rest : Pieces} : Spans .items ((.sequenceEnd, m) :: rest) rest
  | item {ps qs rest : Pieces} (item : Spans .node ps qs) (others : Spans .items qs rest) :
      Spans .items ps rest
  | membersEnd {m : Mark} {rest : Pieces} : Spans .members ((.mappingEnd, m) :: rest) rest
  | key {ps qs rest : Pieces} (key : Spans .node ps qs) (others : Spans .value qs rest) :
      Spans .members ps rest
  | value {ps qs rest : Pieces} (value : Spans .node ps qs) (others : Spans .members qs rest) :
      Spans .value ps rest

/-- The pieces begin with what the frames say, one after the other. -/
def Closes : List Frame → Pieces → Prop
  | [], _ => True
  | f :: fs, ps => ∃ rest, Spans f ps rest ∧ Closes fs rest

/-- A node, and then what comes after it. -/
theorem Closes.node {f : Frame} {fs : List Frame} {ps rest : Pieces} (h : Spans .node ps rest)
    (hc : Closes (f.after ++ fs) rest) : Closes (f :: fs) ps := by
  cases f with
  | node => exact ⟨rest, h, hc⟩
  | items => obtain ⟨qs, hi, hc⟩ := hc; exact ⟨qs, .item h hi, hc⟩
  | members => obtain ⟨qs, hi, hc⟩ := hc; exact ⟨qs, .key h hi, hc⟩
  | value => obtain ⟨qs, hi, hc⟩ := hc; exact ⟨qs, .value h hi, hc⟩

/-- What is open can be closed. -/
theorem exists_closes (fs : List Frame) : ∃ ps, Closes fs ps := by
  induction fs with
  | nil => exact ⟨[], trivial⟩
  | cons f fs ih =>
    obtain ⟨ps, hc⟩ := ih
    cases f with
    | node => exact ⟨(.nothing, .origin) :: ps, ps, .single trivial, hc⟩
    | items => exact ⟨(.sequenceEnd, .origin) :: ps, ps, .itemsEnd, hc⟩
    | members => exact ⟨(.mappingEnd, .origin) :: ps, ps, .membersEnd, hc⟩
    | value =>
      exact ⟨(.nothing, .origin) :: (.mappingEnd, .origin) :: ps, ps,
        .value (.single trivial) .membersEnd, hc⟩

/-! ### Steps of the reader -/

/-- The event adds these pieces to a document. -/
inductive Event.Adds (m : Mark) : Event → Pieces → Prop where
  | documentStart : Adds m .documentStart []
  | aliased (name : String) (number : Nat) : Adds m (.aliased name) [(.aliased number, m)]
  | scalar (anchor : Option String) (tag : Option Octets) (content : String) (style : Style) :
      Adds m (.scalar anchor tag content style) [(.scalar tag content style, m)]
  | sequenceStart (anchor : Option String) (tag : Option Octets) :
      Adds m (.sequenceStart anchor tag) [(.sequenceStart tag, m)]
  | sequenceEnd : Adds m .sequenceEnd [(.sequenceEnd, m)]
  | mappingStart (anchor : Option String) (tag : Option Octets) :
      Adds m (.mappingStart anchor tag) [(.mappingStart tag, m)]
  | mappingEnd : Adds m .mappingEnd [(.mappingEnd, m)]

/-- What is still to come in a document, by the state of the reader and those it returns to. -/
def frames : List Next → List Frame
  | [] => []
  | next :: stack =>
    match next with
    | .documentEnd => []
    | .document _ => [.node]
    | .content | .blockNode => .node :: frames stack
    | .blockEntry _ | .bareEntry | .flowEntry _ _ => .items :: frames stack
    | .blockKey _ | .flowKey _ _ => .members :: frames stack
    | .blockValue _ | .flowValue _ _ => .value :: frames stack
    | .pairKey _ | .pairEnd _ => .members :: .items :: frames stack
    | .pairValue _ => .value :: .items :: frames stack

namespace EventReader

variable {r r' : EventReader} {e : Event} {m n : Mark} {l ps : Pieces}

/-- What is still to come for the reader. -/
def ahead (r : EventReader) : List Frame := frames (r.next :: r.stack)

/-- To return to a state is to go on with what it stands for. -/
theorem closes_of_back (h : Closes r.back.ahead ps) : Closes (frames r.stack) ps := by
  rw [back] at h
  cases hs : r.stack with
  | nil => trivial
  | cons next stack => rw [hs] at h; exact h

theorem stack_properties {t : Token} {q : Properties} (h : r.properties t = .ok (q, r')) :
    r'.stack = r.stack := by
  rw [properties.eq_def] at h
  simp only [bind, Except.bind, pure, Except.pure] at h
  repeat' split at h
  all_goals first | cases h; rfl | cases h

/-- A node is read up to its end, or it is opened. -/
theorem closes_of_node {block bare : Bool} (h : r.node block bare = .ok (e, m, r'))
    (hp : e.Adds n l) (hc : Closes r'.ahead ps) :
    ∃ rest, Spans .node (l ++ ps) rest ∧ Closes (frames r.stack) rest := by
  rw [node] at h
  obtain ⟨t, -, h⟩ := exists_of_bind_eq_ok h
  split at h
  · cases h
    cases hp
    exact ⟨ps, .single trivial, closes_of_back (r := r.skip) hc⟩
  · obtain ⟨⟨q, u⟩, hq, h⟩ := exists_of_bind_eq_ok h
    rw [← stack_properties hq]
    obtain ⟨t, -, h⟩ := exists_of_bind_eq_ok h
    obtain ⟨tag, -, h⟩ := exists_of_bind_eq_ok h
    split at h
    · cases h
      cases hp
      exact ⟨ps, .single trivial, closes_of_back (r := u.skip) hc⟩
    · cases h
      cases hp
      exact hc.imp fun rest h => ⟨.list h.1, h.2⟩
    · cases h
      cases hp
      exact hc.imp fun rest h => ⟨.map h.1, h.2⟩
    · cases h
      cases hp
      exact hc.imp fun rest h => ⟨.list h.1, h.2⟩
    · cases h
      cases hp
      exact hc.imp fun rest h => ⟨.map h.1, h.2⟩
    · split at h
      · cases h
        cases hp
        exact hc.imp fun rest h => ⟨.list h.1, h.2⟩
      · split at h
        · cases h
          cases hp
          exact ⟨ps, .single trivial, closes_of_back (r := u) hc⟩
        · cases h

section Steps

variable {f : Frame} {fs : List Frame} {later : Next} (hp : e.Adds n l) (hc : Closes r'.ahead ps)
include hp hc

/-- A node, and then what was saved. -/
theorem closes_of_saved {block bare : Bool} (h : (r.saving later).node block bare = .ok (e, m, r'))
    (hl : frames (later :: r.stack) = f.after ++ fs) : Closes (f :: fs) (l ++ ps) := by
  obtain ⟨rest, hs, hc⟩ := closes_of_node h hp hc
  exact .node hs (hl ▸ hc)

theorem closes_of_empty {k : Mark} (h : r.empty k later = .ok (e, m, r'))
    (hl : frames (later :: r.stack) = f.after ++ fs) : Closes (f :: fs) (l ++ ps) := by
  cases h
  cases hp
  exact .node (.single trivial) (hl ▸ hc)

theorem closes_of_content (h : r.content = .ok (e, m, r')) :
    Closes (.node :: frames r.stack) (l ++ ps) := by
  rw [content] at h
  obtain ⟨t, -, h⟩ := exists_of_bind_eq_ok h
  split at h
  -- what ends a document leaves its content out
  iterate 5
    cases h
    cases hp
    exact ⟨ps, .single trivial, closes_of_back hc⟩
  exact closes_of_node h hp hc

theorem closes_of_blockEntry {start : Mark} (h : r.blockEntry start = .ok (e, m, r')) :
    Closes (.items :: frames r.stack) (l ++ ps) := by
  rw [blockEntry] at h
  obtain ⟨t, -, h⟩ := exists_of_bind_eq_ok h
  split at h
  · obtain ⟨u, -, h⟩ := exists_of_bind_eq_ok h
    split at h
    · exact closes_of_empty hp hc h rfl
    · exact closes_of_empty hp hc h rfl
    · exact closes_of_saved hp hc h rfl
  · cases h
    cases hp
    exact ⟨ps, .itemsEnd, closes_of_back (r := r.skip) hc⟩
  · cases h

theorem closes_of_bareEntry (h : r.bareEntry = .ok (e, m, r')) :
    Closes (.items :: frames r.stack) (l ++ ps) := by
  rw [bareEntry] at h
  obtain ⟨t, -, h⟩ := exists_of_bind_eq_ok h
  split at h
  · obtain ⟨u, -, h⟩ := exists_of_bind_eq_ok h
    split at h
    iterate 4 exact closes_of_empty hp hc h rfl
    exact closes_of_saved hp hc h rfl
  · cases h
    cases hp
    exact ⟨ps, .itemsEnd, closes_of_back hc⟩

theorem closes_of_blockPart {k : Mark} (h : r.blockPart k later = .ok (e, m, r'))
    (hl : frames (later :: r.stack) = f.after ++ fs) : Closes (f :: fs) (l ++ ps) := by
  rw [blockPart] at h
  obtain ⟨u, -, h⟩ := exists_of_bind_eq_ok h
  split at h
  iterate 3 exact closes_of_empty hp hc h hl
  exact closes_of_saved hp hc h hl

theorem closes_of_blockKey {start : Mark} (h : r.blockKey start = .ok (e, m, r')) :
    Closes (.members :: frames r.stack) (l ++ ps) := by
  rw [blockKey] at h
  obtain ⟨t, -, h⟩ := exists_of_bind_eq_ok h
  split at h
  · exact closes_of_blockPart hp hc h rfl
  · cases h
    cases hp
    exact ⟨ps, .membersEnd, closes_of_back (r := r.skip) hc⟩
  · cases h

theorem closes_of_blockValue {start : Mark} (h : r.blockValue start = .ok (e, m, r')) :
    Closes (.value :: frames r.stack) (l ++ ps) := by
  rw [blockValue] at h
  obtain ⟨t, -, h⟩ := exists_of_bind_eq_ok h
  split at h
  · exact closes_of_blockPart hp hc h rfl
  · exact closes_of_empty hp hc h rfl

omit hp hc in
theorem stack_afterComma {context : Context} {start : Mark} {ending : Sign} {problem : Problem}
    {first : Bool} (h : r.afterComma context start ending problem first = .ok r') :
    r'.stack = r.stack := by
  rw [afterComma] at h
  obtain ⟨t, -, h⟩ := exists_of_bind_eq_ok h
  repeat' split at h
  all_goals first | cases h; rfl | cases h

theorem closes_of_flowEntry {start : Mark} {first : Bool}
    (h : r.flowEntry start first = .ok (e, m, r')) :
    Closes (.items :: frames r.stack) (l ++ ps) := by
  rw [flowEntry] at h
  obtain ⟨u, hu, h⟩ := exists_of_bind_eq_ok h
  rw [← stack_afterComma hu]
  obtain ⟨t, -, h⟩ := exists_of_bind_eq_ok h
  split at h
  · cases h
    cases hp
    exact ⟨ps, .itemsEnd, closes_of_back (r := u.skip) hc⟩
  · -- a key: the entry is a mapping of one pair
    cases h
    cases hp
    obtain ⟨rest, hm, hc⟩ := hc
    exact .node (.map hm) hc
  · exact closes_of_saved hp hc h rfl

theorem closes_of_pairKey {start : Mark} (h : r.pairKey start = .ok (e, m, r')) :
    Closes (.members :: .items :: frames r.stack) (l ++ ps) := by
  rw [pairKey] at h
  obtain ⟨t, -, h⟩ := exists_of_bind_eq_ok h
  split at h
  iterate 3 exact closes_of_empty hp hc h rfl
  exact closes_of_saved hp hc h rfl

theorem closes_of_pairValue {start : Mark} (h : r.pairValue start = .ok (e, m, r')) :
    Closes (.value :: .items :: frames r.stack) (l ++ ps) := by
  rw [pairValue] at h
  obtain ⟨t, -, h⟩ := exists_of_bind_eq_ok h
  split at h
  · obtain ⟨u, -, h⟩ := exists_of_bind_eq_ok h
    split at h
    iterate 2 exact closes_of_empty hp hc h rfl
    exact closes_of_saved hp hc h rfl
  · exact closes_of_empty hp hc h rfl

theorem closes_of_pairEnd {start : Mark} (h : r.pairEnd start = .ok (e, m, r')) :
    Closes (.members :: .items :: frames r.stack) (l ++ ps) := by
  rw [pairEnd] at h
  obtain ⟨t, -, h⟩ := exists_of_bind_eq_ok h
  cases h
  cases hp
  exact ⟨ps, .membersEnd, hc⟩

theorem closes_of_flowKey {start : Mark} {first : Bool}
    (h : r.flowKey start first = .ok (e, m, r')) :
    Closes (.members :: frames r.stack) (l ++ ps) := by
  rw [flowKey] at h
  obtain ⟨u, hu, h⟩ := exists_of_bind_eq_ok h
  rw [← stack_afterComma hu]
  obtain ⟨t, -, h⟩ := exists_of_bind_eq_ok h
  split at h
  · cases h
    cases hp
    exact ⟨ps, .membersEnd, closes_of_back (r := u.skip) hc⟩
  · obtain ⟨v, -, h⟩ := exists_of_bind_eq_ok h
    split at h
    iterate 3 exact closes_of_empty hp hc h rfl
    exact closes_of_saved hp hc h rfl
  · exact closes_of_saved hp hc h rfl

theorem closes_of_flowValue {start : Mark} {empty : Bool}
    (h : r.flowValue start empty = .ok (e, m, r')) :
    Closes (.value :: frames r.stack) (l ++ ps) := by
  rw [flowValue] at h
  obtain ⟨t, -, h⟩ := exists_of_bind_eq_ok h
  split at h
  · exact closes_of_empty hp hc h rfl
  · split at h
    · obtain ⟨u, -, h⟩ := exists_of_bind_eq_ok h
      split at h
      iterate 2 exact closes_of_empty hp hc h rfl
      exact closes_of_saved hp hc h rfl
    · exact closes_of_empty hp hc h rfl

theorem closes_of_document {implicit : Bool} (h : r.document implicit = .ok (e, m, r')) :
    Closes [.node] (l ++ ps) := by
  rw [document] at h
  obtain ⟨t, -, h⟩ := exists_of_bind_eq_ok h
  split at h
  · cases h
    cases hp
  · extract_lets explicit at h
    split at h
    · obtain ⟨⟨seen, tokens⟩, -, h⟩ := exists_of_bind_eq_ok h
      obtain ⟨u, -, h⟩ := exists_of_bind_eq_ok h
      split at h
      · cases h
        cases hp
        exact hc
      · cases h
    · cases h
      cases hp
      exact hc

/-- **One step puts one piece in front.** -/
theorem closes_of_step (h : r.step = .ok (e, m, r')) : Closes r.ahead (l ++ ps) := by
  rw [step] at h
  rw [ahead]
  cases hn : r.next <;> rw [hn] at h
  case document => exact closes_of_document hp hc h
  case documentEnd => trivial
  case content => exact closes_of_content hp hc h
  case blockNode => exact closes_of_node h hp hc
  case blockEntry => exact closes_of_blockEntry hp hc h
  case bareEntry => exact closes_of_bareEntry hp hc h
  case blockKey => exact closes_of_blockKey hp hc h
  case blockValue => exact closes_of_blockValue hp hc h
  case flowEntry => exact closes_of_flowEntry hp hc h
  case pairKey => exact closes_of_pairKey hp hc h
  case pairValue => exact closes_of_pairValue hp hc h
  case pairEnd => exact closes_of_pairEnd hp hc h
  case flowKey => exact closes_of_flowKey hp hc h
  case flowValue => exact closes_of_flowValue hp hc h

end Steps

/-- A document that is at its end adds nothing. -/
theorem ahead_ne_nil (h : r.step = .ok (e, m, r')) (hp : e.Adds n l) : r.ahead ≠ [] := by
  rw [step] at h
  rw [ahead]
  cases hn : r.next <;> rw [hn] at h
  case documentEnd =>
    dsimp only at h
    rw [documentEnd] at h
    obtain ⟨t, -, h⟩ := exists_of_bind_eq_ok h
    cases h
    cases hp
  all_goals exact List.cons_ne_nil _ _

end EventReader

/-- A piece that ends nothing begins a node. -/
theorem Closes.spans {fs : List Frame} {p : Piece} {m : Mark} {ps : Pieces}
    (h : Closes fs ((p, m) :: ps)) (hf : fs ≠ []) (hs : p ≠ .sequenceEnd) (hm : p ≠ .mappingEnd) :
    ∃ rest, Spans .node ((p, m) :: ps) rest := by
  cases fs with
  | nil => exact (hf rfl).elim
  | cons f fs =>
    obtain ⟨qs, h, -⟩ := h
    cases h with
    | itemsEnd => exact (hs rfl).elim
    | membersEnd => exact (hm rfl).elim
    | item h => exact ⟨_, h⟩
    | key h => exact ⟨_, h⟩
    | value h => exact ⟨_, h⟩
    | single h => exact ⟨_, .single h⟩
    | list h => exact ⟨_, .list h⟩
    | map h => exact ⟨_, .map h⟩

/-! ### Documents -/

/-- The events are read one after the other. -/
inductive EventReader.Reads : EventReader → List (Event × Mark) → Prop where
  | stop (r : EventReader) : Reads r []
  | more {r r' : EventReader} {e : Event} {m : Mark} {es : List (Event × Mark)}
      (first : r.step = .ok (e, m, r')) (others : Reads r' es) : Reads r ((e, m) :: es)

/-- The events of a run are read one after the other. -/
theorem EventReader.exists_reads (fuel : Nat) (read : List (Event × Mark)) (r : EventReader) :
    ∃ es, (r.run fuel read).events = read.reverse ++ es ∧ r.Reads es := by
  induction fuel generalizing read r with
  | zero => exact ⟨[], (List.append_nil _).symm, .stop r⟩
  | succ fuel ih =>
    rw [run]
    split
    · exact ⟨[], (List.append_nil _).symm, .stop r⟩
    · rename_i m r' h
      exact ⟨[(.streamEnd, m)], List.reverse_cons, .more h (.stop r')⟩
    · rename_i e m r' _ h
      obtain ⟨es, he, hs⟩ := ih ((e, m) :: read) r'
      exact ⟨(e, m) :: es, by rw [he, List.reverse_cons, List.append_assoc]; rfl, .more h hs⟩

/-- With these pieces behind it the stream is well nested: it begins with a node, and so does what
is behind an anchor. -/
structure Stream.Nested (s : Stream) (tail : Pieces) : Prop where
  pieces : ∃ rest, Spans .node (s.pieces ++ tail) rest
  anchors : ∀ a ∈ s.anchors, ∃ rest, Spans .node (a.2 ++ tail) rest

/-- The document that has been read goes on as the frames say, with some more pieces behind it, and
its new anchors stand before nodes. -/
def Loading.GoesOn (x : Loading) (fs : List Frame) (s : Stream) : Prop :=
  ∃ later tail, s.pieces = x.pieces.reverse ++ later ∧ Closes fs (later ++ tail) ∧
    ∀ a ∈ s.anchors, (∃ before, (a.1, before) ∈ x.places ∧ a.2 = s.pieces.drop before) ∨
      ∃ rest, Spans .node (a.2 ++ tail) rest

namespace Loading

variable {x : Loading} {fs : List Frame} {r r' : EventReader} {e : Event} {m : Mark} {s : Stream}

theorem mem_anchors_stream {b : Option Break} {followed : Bool} {a : Nat × Pieces}
    (h : a ∈ (x.stream b followed).anchors) :
    ∃ before, (a.1, before) ∈ x.places ∧ a.2 = (x.stream b followed).pieces.drop before := by
  obtain ⟨⟨number, before⟩, hmem, rfl⟩ := List.mem_map.1 h
  exact ⟨before, hmem, rfl⟩

theorem goesOn_stream (x : Loading) (fs : List Frame) (b : Option Break) (followed : Bool) :
    x.GoesOn fs (x.stream b followed) := by
  obtain ⟨tail, h⟩ := exists_closes fs
  exact ⟨[], tail, (List.append_nil _).symm, h, fun a ha => .inl (mem_anchors_stream ha)⟩

/-- In the place of a document that holds nothing a single piece is kept. -/
theorem goesOn_stream_push (x : Loading) (fs : List Frame) {p : Piece} (hp : p.IsSingle) (m : Mark)
    (b : Option Break) (followed : Bool) : x.GoesOn fs ((x.push p m).stream b followed) := by
  have hpieces : ((x.push p m).stream b followed).pieces = x.pieces.reverse ++ [(p, m)] :=
    List.reverse_cons
  cases fs with
  | nil => exact ⟨_, [], hpieces, trivial, fun a ha => .inl (mem_anchors_stream ha)⟩
  | cons f fs =>
    obtain ⟨tail, h⟩ := exists_closes (f.after ++ fs)
    exact ⟨_, tail, hpieces, .node (.single hp) h, fun a ha => .inl (mem_anchors_stream ha)⟩

/-- The number of pieces has been kept. -/
def Counted (x : Loading) : Prop := x.count = x.pieces.length

theorem Counted.push (h : x.Counted) (p : Piece) (m : Mark) : (x.push p m).Counted :=
  congrArg (· + 1) h

theorem Counted.anchored (h : x.Counted) (anchor : Option String) (p : Piece) (m : Mark) :
    (x.anchored anchor p m).Counted := by
  cases anchor <;> exact congrArg (· + 1) h

/-- One piece goes before what follows. -/
theorem GoesOn.push {p : Piece} (h : (x.push p m).GoesOn r'.ahead s)
    (hs : r.step = .ok (e, m, r')) (ha : e.Adds m [(p, m)]) : x.GoesOn r.ahead s := by
  obtain ⟨later, tail, hp, hc, hanchors⟩ := h
  have hc : Closes r.ahead ([(p, m)] ++ (later ++ tail)) := EventReader.closes_of_step ha hc hs
  exact ⟨(p, m) :: later, tail, by rw [hp, Loading.push, List.reverse_cons, List.append_assoc]; rfl,
    hc, hanchors⟩

/-- So does one with an anchor, which begins a node. -/
theorem GoesOn.anchored {anchor : Option String} {p : Piece}
    (h : (x.anchored anchor p m).GoesOn r'.ahead s) (hx : x.Counted)
    (hs : r.step = .ok (e, m, r')) (ha : e.Adds m [(p, m)]) (h1 : p ≠ .sequenceEnd)
    (h2 : p ≠ .mappingEnd) : x.GoesOn r.ahead s := by
  cases anchor with
  | none => exact GoesOn.push h hs ha
  | some name =>
    obtain ⟨later, tail, hp, hc, hanchors⟩ := h
    have hpieces : s.pieces = x.pieces.reverse ++ (p, m) :: later := by
      rw [hp]
      simp [Loading.anchored, Loading.push]
    have hc : Closes r.ahead ([(p, m)] ++ (later ++ tail)) := EventReader.closes_of_step ha hc hs
    refine ⟨(p, m) :: later, tail, hpieces, hc, fun a hmem => ?_⟩
    obtain ⟨before, hb, hdrop⟩ | hn := hanchors a hmem
    · obtain he | hb := List.mem_cons.1 hb
      · refine .inr ?_
        have hd : s.pieces.drop x.count = (p, m) :: later := by
          rw [hpieces, hx, ← List.length_reverse, List.drop_left]
        obtain rfl : before = x.count := congrArg Prod.snd he
        rw [hdrop, hd]
        exact hc.spans (EventReader.ahead_ne_nil hs ha) h1 h2
      · exact .inl ⟨before, hb, hdrop⟩
    · exact .inr hn

/-- **A document goes on as its reader says.** -/
theorem goesOn_read {es : List (Event × Mark)} (flaw : Option Flaw) (h : r.Reads es)
    (hx : x.Counted) : x.GoesOn r.ahead (x.read flaw es) := by
  induction h generalizing x with
  | stop r => exact goesOn_stream x _ _ _
  | @more r r' e m es hs _ ih =>
    cases e with
    | streamEnd =>
      rw [read]
      split
      · exact goesOn_stream_push x _ (p := .nothing) trivial _ _ _
      · exact goesOn_stream x _ _ _
    | documentStart =>
      obtain ⟨later, tail, hp, hc, ha⟩ := ih hx
      have hc : Closes r.ahead ([] ++ (later ++ tail)) :=
        EventReader.closes_of_step (n := m) .documentStart hc hs
      exact ⟨later, tail, hp, hc, ha⟩
    | documentEnd => exact goesOn_stream x _ _ _
    | aliased name =>
      rw [read]
      cases x.names.lookup name with
      | none => exact goesOn_stream x _ _ _
      | some number => exact (ih (hx.push _ _)).push hs (.aliased name number)
    | scalar anchor tag content style =>
      exact (ih (hx.anchored anchor _ m)).anchored hx hs (.scalar anchor tag content style)
        (by simp) (by simp)
    | sequenceStart anchor tag =>
      exact (ih (hx.anchored anchor _ m)).anchored hx hs (.sequenceStart anchor tag) (by simp)
        (by simp)
    | sequenceEnd => exact (ih (hx.push _ m)).push hs .sequenceEnd
    | mappingStart anchor tag =>
      exact (ih (hx.anchored anchor _ m)).anchored hx hs (.mappingStart anchor tag) (by simp)
        (by simp)
    | mappingEnd => exact (ih (hx.push _ m)).push hs .mappingEnd

end Loading

/-- **The pieces of every text are well nested.** -/
theorem exists_nested (text : String) : ∃ tail, (Stream.ofText text).Nested tail := by
  obtain ⟨es, he, hr⟩ := EventReader.exists_reads
    (8 * (Tokens.ofText text.toList).tokens.length + 8) [] (.ofTokens (Tokens.ofText text.toList))
  obtain ⟨later, tail, hp, hc, ha⟩ :=
    Loading.goesOn_read (x := .start) (Events.ofText text).flaw hr rfl
  have hs : Loading.start.read (Events.ofText text).flaw es = Stream.ofText text := by
    rw [Stream.ofText, Events.ofText, he]
    rfl
  rw [hs] at hp ha
  refine ⟨tail, ?_, fun a hmem => ?_⟩
  · obtain ⟨rest, h, -⟩ := hc
    exact ⟨rest, hp ▸ h⟩
  · obtain ⟨_, h, -⟩ | h := ha a hmem
    · exact (List.not_mem_nil h).elim
    · exact h

/-- Where this is left of the document a node begins. -/
def Stream.BeginsNode (s : Stream) (ps : Pieces) : Prop :=
  ∃ tail rest, s.Nested tail ∧ Spans .node (ps ++ tail) rest

theorem beginsNode_pieces (text : String) :
    (Stream.ofText text).BeginsNode (Stream.ofText text).pieces := by
  obtain ⟨tail, hn⟩ := exists_nested text
  obtain ⟨rest, hs⟩ := hn.pieces
  exact ⟨tail, rest, hn, hs⟩

end Yaml
end Retarget
