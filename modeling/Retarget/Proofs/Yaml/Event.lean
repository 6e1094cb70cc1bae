/-
# The events of a tree that was written

The tokens of a tree are read as its pieces (`Tree.pieces`), one event for each, wherever a
node may stand, and the reader returns to what comes next (`EventReader.node_tree`).  So a
text that was written for a record is one sound document with these pieces
(`Stream.ofText_render`).
-/

import Retarget.Proofs.Data.Holds
import Retarget.Proofs.Yaml.Tokens
import Retarget.Yaml.Stream

namespace Retarget
namespace Yaml

mutual

/-- The pieces of a tree. -/
def pieces : Tree → List Piece
  | .text s => [.scalar none s (Written.style s)]
  | .flag b => [.scalar none (flagText b) .plain]
  | .list ts => .sequenceStart none :: (itemPieces ts ++ [.sequenceEnd])
  | .record ms => .mappingStart none :: (memberPieces ms ++ [.mappingEnd])

/-- The pieces of the items of a list. -/
def itemPieces : List Tree → List Piece
  | [] => []
  | t :: ts => pieces t ++ itemPieces ts

/-- The pieces of the members of a record. -/
def memberPieces : List (String × Tree) → List Piece
  | [] => []
  | (key, t) :: ms => .scalar none key .plain :: (pieces t ++ memberPieces ms)

end

/-- The event without an anchor that a piece stands for. -/
inductive Piece.Shows : Piece → Event → Prop
  | scalar (tag : Option Octets) (content : String) (style : Style) :
      Shows (.scalar tag content style) (.scalar none tag content style)
  | sequenceStart (tag : Option Octets) : Shows (.sequenceStart tag) (.sequenceStart none tag)
  | sequenceEnd : Shows .sequenceEnd .sequenceEnd
  | mappingStart (tag : Option Octets) : Shows (.mappingStart tag) (.mappingStart none tag)
  | mappingEnd : Shows .mappingEnd .mappingEnd

namespace EventReader

/-- The reader gives the piece, and then it is another one. -/
def Gives (r : EventReader) (p : Piece × Mark) (r' : EventReader) : Prop :=
  ∃ e, p.1.Shows e ∧ r.step = .ok (e, p.2, r')

/-- Step by step the reader gives these pieces. -/
def Goes (r : EventReader) (ps : List Piece) (r' : EventReader) : Prop :=
  ∃ l : Pieces, l.map (·.1) = ps ∧ Steps Gives r l r'

namespace Goes

variable {r r' r'' : EventReader} {ps ps' : List Piece}

theorem refl (r : EventReader) : Goes r [] r := ⟨[], rfl, rfl⟩

theorem cons {p : Piece} {e : Event} {m : Mark} (hp : p.Shows e) (hs : r.step = .ok (e, m, r'))
    (h : Goes r' ps r'') : Goes r (p :: ps) r'' := by
  obtain ⟨l, rfl, h⟩ := h
  exact ⟨(p, m) :: l, rfl, r', ⟨e, hp, hs⟩, h⟩

theorem trans (h : Goes r ps r') (h' : Goes r' ps' r'') : Goes r (ps ++ ps') r'' := by
  obtain ⟨l, rfl, h⟩ := h
  induction l generalizing r with
  | nil =>
    obtain rfl : r = r' := h
    exact h'
  | cons p l ih =>
    obtain ⟨u, ⟨e, hp, hu⟩, h⟩ := h
    exact cons hp hu (ih h)

end Goes

/-- A first event and the steps after it give these pieces. -/
def Opens (first : Stepped) (ps : List Piece) (r' : EventReader) : Prop :=
  ∃ p e m r later, ps = p :: later ∧ p.Shows e ∧ first = .ok (e, m, r) ∧ Goes r later r'

theorem Opens.goes {r r' : EventReader} {ps : List Piece} (h : Opens r.step ps r') :
    Goes r ps r' := by
  obtain ⟨p, e, m, u, later, rfl, hp, hs, h⟩ := h
  exact h.cons hp hs

/-- A reader of tokens behind which there is no flaw. -/
def reading (ts : List Token) (next : Next) (stack : List Next)
    (handles : List (String × Octets)) : EventReader :=
  ⟨ts, none, next, stack, handles⟩

variable {t u : Token} {ts us : List Token} {next later : Next} {stack : List Next}
  {handles : List (String × Octets)} {block bare : Bool} {m : Mark}

/-! ### Nodes -/

theorem node_scalar {content : String} {style : Style} (h : t.sign = .scalar content style) :
    (reading (t :: ts) next (later :: stack) handles).node block bare =
      .ok (.scalar none none content style, t.start, reading ts later stack handles) := by
  simp [node, reading, peek, properties, fullTag, h, skip, back, bind, Except.bind, pure,
    Except.pure]

theorem node_blockSequence (h : t.sign = .blockSequence) :
    (reading (t :: ts) next stack handles).node true bare =
      .ok (.sequenceStart none none, t.start, reading ts (.blockEntry t.start) stack handles) := by
  simp [node, reading, peek, properties, fullTag, h, skip, expecting, bind, Except.bind, pure,
    Except.pure]

theorem node_bareEntry (h : t.sign = .blockEntry) :
    (reading (t :: ts) next stack handles).node block true =
      .ok (.sequenceStart none none, t.start, reading (t :: ts) .bareEntry stack handles) := by
  cases block <;>
    simp [node, reading, peek, properties, fullTag, h, expecting, bind, Except.bind, pure,
      Except.pure]

theorem node_blockMapping (h : t.sign = .blockMapping) :
    (reading (t :: ts) next stack handles).node true bare =
      .ok (.mappingStart none none, t.start, reading ts (.blockKey t.start) stack handles) := by
  simp [node, reading, peek, properties, fullTag, h, skip, expecting, bind, Except.bind, pure,
    Except.pure]

theorem node_flowSequence (h : t.sign = .flowSequence) :
    (reading (t :: ts) next stack handles).node block bare =
      .ok (.sequenceStart none none, t.start, reading ts
        (.flowEntry t.start true) stack handles) := by
  simp [node, reading, peek, properties, fullTag, h, skip, expecting, bind, Except.bind, pure,
    Except.pure]

theorem node_flowMapping (h : t.sign = .flowMapping) :
    (reading (t :: ts) next stack handles).node block bare =
      .ok (.mappingStart none none, t.start, reading ts (.flowKey t.start true) stack handles) := by
  simp [node, reading, peek, properties, fullTag, h, skip, expecting, bind, Except.bind, pure,
    Except.pure]

/-! ### Steps -/

/-- The sign neither separates nor ends the nodes of a block collection. -/
def StartsNode (s : Sign) : Prop := s ≠ .blockEntry ∧ s ≠ .blockEnd ∧ s ≠ .key ∧ s ≠ .value

theorem step_blockEntry (h : t.sign = .blockEntry) (hu : u.sign ≠ .blockEntry)
    (hu' : u.sign ≠ .blockEnd) :
    (reading (t :: u :: us) (.blockEntry m) stack handles).step =
      (reading (u :: us) (.blockEntry m) (.blockEntry m :: stack) handles).node true false := by
  simp only [step, blockEntry, reading, peek, h, skip, saving, bind, Except.bind, List.tail_cons]

theorem step_blockEntry_end (h : t.sign = .blockEnd) :
    (reading (t :: ts) (.blockEntry m) (later :: stack) handles).step =
      .ok (.sequenceEnd, t.start, reading ts later stack handles) := by
  simp [step, blockEntry, reading, peek, h, skip, back, bind, Except.bind, pure, Except.pure]

theorem step_bareEntry (h : t.sign = .blockEntry) (hu : StartsNode u.sign) :
    (reading (t :: u :: us) .bareEntry stack handles).step =
      (reading (u :: us) .bareEntry (.bareEntry :: stack) handles).node true false := by
  simp only [step, bareEntry, reading, peek, h, skip, saving, bind, Except.bind, List.tail_cons]
  obtain ⟨h1, h2, h3, h4⟩ := hu
  split <;> simp_all

theorem step_bareEntry_end (h : t.sign ≠ .blockEntry) :
    (reading (t :: ts) .bareEntry (later :: stack) handles).step =
      .ok (.sequenceEnd, t.start, reading (t :: ts) later stack handles) := by
  simp only [step, bareEntry, reading, peek, back, bind, Except.bind]
  rfl

theorem step_blockKey {content : String} {style : Style} (h : t.sign = .key)
    (hu : u.sign = .scalar content style) :
    (reading (t :: u :: us) (.blockKey m) stack handles).step =
      .ok (.scalar none none content style, u.start, reading us (.blockValue m) stack handles) := by
  have hn : (reading (u :: us) (.blockKey m) (.blockValue m :: stack) handles).node true true =
      .ok (.scalar none none content style, u.start, reading us (.blockValue m) stack handles) :=
        node_scalar hu
  rw [← hn]
  simp only [step, blockKey, reading, peek, h, blockPart, skip, saving, bind, Except.bind,
    List.tail_cons, hu]

theorem step_blockKey_end (h : t.sign = .blockEnd) :
    (reading (t :: ts) (.blockKey m) (later :: stack) handles).step =
      .ok (.mappingEnd, t.start, reading ts later stack handles) := by
  simp [step, blockKey, reading, peek, h, skip, back, bind, Except.bind, pure, Except.pure]

theorem step_blockValue (h : t.sign = .value) (hu : u.sign ≠ .key) (hu' : u.sign ≠ .value)
    (hu'' : u.sign ≠ .blockEnd) :
    (reading (t :: u :: us) (.blockValue m) stack handles).step =
      (reading (u :: us) (.blockValue m) (.blockKey m :: stack) handles).node true true := by
  simp only [step, blockValue, reading, peek, h, blockPart, skip, saving, bind, Except.bind,
    List.tail_cons]

theorem step_flowEntry_end (h : t.sign = .flowSequenceEnd) :
    (reading (t :: ts) (.flowEntry m true) (later :: stack) handles).step =
      .ok (.sequenceEnd, t.start, reading ts later stack handles) := by
  simp [step, flowEntry, afterComma, reading, peek, h, skip, back, bind, Except.bind, pure,
    Except.pure]

theorem step_flowKey_end (h : t.sign = .flowMappingEnd) :
    (reading (t :: ts) (.flowKey m true) (later :: stack) handles).step =
      .ok (.mappingEnd, t.start, reading ts later stack handles) := by
  simp [step, flowKey, afterComma, reading, peek, h, skip, back, bind, Except.bind, pure,
    Except.pure]

/-! ### Trees -/

theorem signs_list_bare (t : Tree) (ts : List Tree) :
    signs true (.list (t :: ts)) = itemSigns (t :: ts) := by
  rw [signs, if_pos rfl, itemSigns]

theorem signs_list (t : Tree) (ts : List Tree) :
    signs false (.list (t :: ts)) = .blockSequence :: (itemSigns (t :: ts) ++ [.blockEnd]) := by
  rw [signs, if_neg Bool.false_ne_true, itemSigns]
  rfl

theorem signs_record (bare : Bool) (m : String × Tree) (ms : List (String × Tree)) :
    signs bare (.record (m :: ms)) = .blockMapping :: (memberSigns (m :: ms) ++ [.blockEnd]) := by
  rw [signs, memberSigns]
  rfl

/-- What a tree begins with. -/
theorem exists_signs_eq_cons (bare : Bool) (t : Tree) :
    ∃ s ss, signs bare t = s :: ss ∧ s ≠ .blockEnd ∧ s ≠ .key ∧ s ≠ .value ∧
      (bare = false → s ≠ .blockEntry) := by
  cases t with
  | text s => exact ⟨_, _, by rw [signs], by simp⟩
  | flag b => exact ⟨_, _, by rw [signs], by simp⟩
  | list ts =>
    cases ts with
    | nil => exact ⟨_, _, by rw [signs], by simp⟩
    | cons t ts => cases bare <;> exact ⟨_, _, by rw [signs]; rfl, by simp⟩
  | record ms =>
    cases ms with
    | nil => exact ⟨_, _, by rw [signs], by simp⟩
    | cons m ms => exact ⟨_, _, signs_record bare m ms, by simp⟩

/-- The tree is read where a node may stand, if what follows does not go on the list of a
member. -/
def ReadsNode (t : Tree) : Prop :=
  ∀ {bare : Bool} {ts us : List Token} {next later : Next} {stack : List Next}
    {handles : List (String × Octets)},
    ts.map (·.sign) = signs bare t → (bare = true → ∃ v vs, us = v :: vs ∧ v.sign ≠ .blockEntry) →
      Opens ((reading (ts ++ us) next (later :: stack) handles).node true bare) (pieces t)
        (reading us later stack handles)

/-- Items are read one after the other where a dash leads to a node. -/
theorem goes_items {items : List Tree} {next : Next} (h : ∀ t ∈ items, ReadsNode t)
    (hs : ∀ {t u : Token} {us : List Token}, t.sign = .blockEntry → StartsNode u.sign →
      (reading (t :: u :: us) next stack handles).step =
        (reading (u :: us) next (next :: stack) handles).node true false)
    {ts us : List Token} (ht : ts.map (·.sign) = itemSigns items) :
    Goes (reading (ts ++ us) next stack handles) (itemPieces items)
      (reading us next stack handles) := by
  induction items generalizing ts with
  | nil =>
    obtain rfl : ts = [] := List.map_eq_nil_iff.1 ht
    exact .refl _
  | cons item items ih =>
    obtain ⟨h, hh⟩ := List.forall_mem_cons.1 h
    rw [itemSigns] at ht
    obtain ⟨e, ts, rfl, he, ht⟩ := List.map_eq_cons_iff.1 ht
    obtain ⟨l, l', rfl, hl, hl'⟩ := List.map_eq_append_iff.1 ht
    obtain ⟨s, ss, hsigns, h1, h2, h3, h4⟩ := exists_signs_eq_cons false item
    obtain ⟨u, k, rfl, hu, -⟩ := List.map_eq_cons_iff.1 (hl.trans hsigns)
    refine Goes.trans (Opens.goes ?_) (ih hh hl')
    have hc : e :: (u :: k ++ l') ++ us = e :: u :: (k ++ (l' ++ us)) := by simp
    rw [hc, hs he ⟨hu ▸ h4 rfl, hu ▸ h1, hu ▸ h2, hu ▸ h3⟩]
    exact h hl fun hb => absurd hb Bool.false_ne_true

/-- Members are read one after the other, up to the end of their record. -/
theorem goes_members {ms : List (String × Tree)} (h : ∀ m ∈ ms, ReadsNode m.2) {ts us : List Token}
    (ht : ts.map (·.sign) = memberSigns ms) (hu : u.sign = .blockEnd) :
    Goes (reading (ts ++ u :: us) (.blockKey m) stack handles) (memberPieces ms)
      (reading (u :: us) (.blockKey m) stack handles) := by
  induction ms generalizing ts with
  | nil =>
    obtain rfl : ts = [] := List.map_eq_nil_iff.1 ht
    exact .refl _
  | cons member ms ih =>
    obtain ⟨key, t⟩ := member
    obtain ⟨h, hh⟩ := List.forall_mem_cons.1 h
    rw [memberSigns] at ht
    obtain ⟨k, ts, rfl, hk, ht⟩ := List.map_eq_cons_iff.1 ht
    obtain ⟨n, ts, rfl, hn, ht⟩ := List.map_eq_cons_iff.1 ht
    obtain ⟨v, ts, rfl, hv, ht⟩ := List.map_eq_cons_iff.1 ht
    obtain ⟨l, l', rfl, hl, hl'⟩ := List.map_eq_append_iff.1 ht
    obtain ⟨s, ss, hsigns, h1, h2, h3, -⟩ := exists_signs_eq_cons true t
    obtain ⟨w, l, rfl, hw, -⟩ := List.map_eq_cons_iff.1 (hl.trans hsigns)
    have hc : k :: n :: v :: (w :: l ++ l') ++ u :: us =
        k :: n :: v :: w :: (l ++ (l' ++ u :: us)) := by simp
    have hnext : ∃ x xs, l' ++ u :: us = x :: xs ∧ x.sign ≠ .blockEntry := by
      cases ms with
      | nil =>
        obtain rfl : l' = [] := List.map_eq_nil_iff.1 hl'
        exact ⟨u, us, rfl, by simp [hu]⟩
      | cons member ms =>
        rw [memberSigns] at hl'
        obtain ⟨x, xs, rfl, hx, -⟩ := List.map_eq_cons_iff.1 hl'
        exact ⟨x, _, rfl, by simp [hx]⟩
    rw [hc]
    refine Goes.cons (.scalar none key .plain) (step_blockKey hk hn)
      (Goes.trans (Opens.goes ?_) (ih hh hl'))
    rw [step_blockValue hv (hw ▸ h2) (hw ▸ h3) (hw ▸ h1)]
    exact h hl fun _ => hnext

theorem readsNode_list {items : List Tree} (h : ∀ t ∈ items, ReadsNode t) :
    ReadsNode (.list items) := by
  intro bare ts us next later stack handles ht hus
  cases items with
  | nil =>
    rw [signs] at ht
    obtain ⟨o, ts, rfl, ho, ht⟩ := List.map_eq_cons_iff.1 ht
    obtain ⟨e, rfl, he⟩ := List.map_eq_singleton_iff.1 ht
    exact ⟨_, _, _, _, _, rfl, .sequenceStart none, node_flowSequence ho,
      (Goes.refl _).cons .sequenceEnd (step_flowEntry_end he)⟩
  | cons item items =>
    cases bare with
    | true =>
      obtain ⟨v, vs, rfl, hv⟩ := hus rfl
      rw [signs_list_bare] at ht
      have hd : ∃ d ds, ts = d :: ds ∧ d.sign = .blockEntry := by
        rw [itemSigns] at ht
        obtain ⟨d, ds, rfl, hd, -⟩ := List.map_eq_cons_iff.1 ht
        exact ⟨d, ds, rfl, hd⟩
      have hend : Goes (reading (ts ++ v :: vs) .bareEntry (later :: stack) handles)
          (itemPieces (item :: items) ++ [.sequenceEnd]) (reading (v :: vs) later stack handles) :=
        (goes_items h step_bareEntry ht).trans
          ((Goes.refl _).cons .sequenceEnd (step_bareEntry_end hv))
      obtain ⟨d, ds, rfl, hd⟩ := hd
      exact ⟨_, _, _, _, _, rfl, .sequenceStart none, node_bareEntry hd, hend⟩
    | false =>
      rw [signs_list] at ht
      obtain ⟨o, ts, rfl, ho, ht⟩ := List.map_eq_cons_iff.1 ht
      obtain ⟨l, l', rfl, hl, hl'⟩ := List.map_eq_append_iff.1 ht
      obtain ⟨e, rfl, he⟩ := List.map_eq_singleton_iff.1 hl'
      have hc : o :: (l ++ [e]) ++ us = o :: (l ++ e :: us) := by simp
      rw [hc]
      refine ⟨_, _, _, _, _, rfl, .sequenceStart none, node_blockSequence ho, ?_⟩
      exact (goes_items h (fun ht hu => step_blockEntry ht hu.1 hu.2.1) hl).trans
        ((Goes.refl _).cons .sequenceEnd (step_blockEntry_end he))

theorem readsNode_record {ms : List (String × Tree)} (h : ∀ m ∈ ms, ReadsNode m.2) :
    ReadsNode (.record ms) := by
  intro bare ts us next later stack handles ht hus
  cases ms with
  | nil =>
    rw [signs] at ht
    obtain ⟨o, ts, rfl, ho, ht⟩ := List.map_eq_cons_iff.1 ht
    obtain ⟨e, rfl, he⟩ := List.map_eq_singleton_iff.1 ht
    exact ⟨_, _, _, _, _, rfl, .mappingStart none, node_flowMapping ho,
      (Goes.refl _).cons .mappingEnd (step_flowKey_end he)⟩
  | cons member ms =>
    rw [signs_record] at ht
    obtain ⟨o, ts, rfl, ho, ht⟩ := List.map_eq_cons_iff.1 ht
    obtain ⟨l, l', rfl, hl, hl'⟩ := List.map_eq_append_iff.1 ht
    obtain ⟨e, rfl, he⟩ := List.map_eq_singleton_iff.1 hl'
    have hc : o :: (l ++ [e]) ++ us = o :: (l ++ e :: us) := by simp
    rw [hc]
    refine ⟨_, _, _, _, _, rfl, .mappingStart none, node_blockMapping ho, ?_⟩
    exact (goes_members h hl he).trans ((Goes.refl _).cons .mappingEnd (step_blockKey_end he))

/-- **A tree is read as its pieces.** -/
theorem node_tree (t : Tree) : ReadsNode t := by
  induction t using Tree.induct with
  | text s =>
    intro bare ts us next later stack handles ht _
    rw [signs] at ht
    obtain ⟨o, rfl, ho⟩ := List.map_eq_singleton_iff.1 ht
    exact ⟨_, _, _, _, _, rfl, .scalar none s _, node_scalar ho, .refl _⟩
  | flag b =>
    intro bare ts us next later stack handles ht _
    rw [signs] at ht
    obtain ⟨o, rfl, ho⟩ := List.map_eq_singleton_iff.1 ht
    exact ⟨_, _, _, _, _, rfl, .scalar none (flagText b) _, node_scalar ho, .refl _⟩
  | list ts ih => exact readsNode_list ih
  | record ms ih => exact readsNode_record ih

/-! ### The whole text -/

theorem step_document (h : t.sign = .blockMapping) :
    (reading (t :: ts) (.document true) [] []).step =
      .ok (.documentStart, t.start, reading (t :: ts) .blockNode
        [.documentEnd] standardHandles) := by
  simp [step, document, reading, peek, h, saving, expecting, bind, Except.bind, pure, Except.pure]

theorem step_documentEnd (h : t.sign = .streamEnd) :
    (reading (t :: ts) .documentEnd stack handles).step =
      .ok (.documentEnd, t.start, reading (t :: ts) (.document false) stack handles) := by
  simp [step, documentEnd, reading, peek, h, expecting, bind, Except.bind, pure, Except.pure]

theorem step_streamEnd (h : t.sign = .streamEnd) :
    (reading (t :: ts) (.document false) stack handles).step =
      .ok (.streamEnd, t.start, reading ts (.document false) stack handles) := by
  simp [step, document, afterDocumentEnds, reading, peek, h, skip, bind, Except.bind, pure,
    Except.pure]

/-- The events that the pieces stand for. -/
def Shown (ps : Pieces) (es : List (Event × Mark)) : Prop :=
  List.Forall₂ (fun p e => p.1.Shows e.1 ∧ p.2 = e.2) ps es

theorem run_goes {r r' : EventReader} {ps : List Piece} (h : Goes r ps r') :
    ∃ l es, l.map (·.1) = ps ∧ Shown l es ∧
      ∀ fuel read, r.run (fuel + es.length) read = r'.run fuel (es.reverse ++ read) := by
  obtain ⟨l, rfl, h⟩ := h
  refine ⟨l, ?_⟩
  induction l generalizing r with
  | nil =>
    obtain rfl : r = r' := h
    exact ⟨[], rfl, .nil, fun _ _ => rfl⟩
  | cons p l ih =>
    obtain ⟨p, m⟩ := p
    obtain ⟨u, ⟨e, hp, hu⟩, h⟩ := h
    obtain ⟨es, -, hs, hrun⟩ := ih h
    refine ⟨(e, m) :: es, rfl, .cons ⟨hp, rfl⟩ hs, fun fuel read => ?_⟩
    rw [List.length_cons, ← Nat.add_assoc, run, hu, List.reverse_cons, List.append_assoc]
    cases hp <;> exact hrun fuel _

/-- The pieces of a document go to the stream one by one. -/
theorem read_shown {l : Pieces} {es : List (Event × Mark)} (h : Shown l es) (flaw : Option Flaw)
    (later : List (Event × Mark)) (read : Pieces) (count : Nat) :
    Loading.read flaw ⟨read, count, [], []⟩ (es ++ later) =
      Loading.read flaw ⟨l.reverse ++ read, count + l.length, [], []⟩ later := by
  induction h generalizing read count with
  | nil => rfl
  | @cons p e ps es hp _ ih =>
    obtain ⟨p, m⟩ := p
    obtain ⟨e, m'⟩ := e
    obtain ⟨hp, rfl⟩ := hp
    have hlen : count + (ps.length + 1) = count + 1 + ps.length := by omega
    rw [List.reverse_cons, List.append_assoc, List.length_cons, hlen]
    cases hp <;> exact ih _ _

end EventReader

mutual

/-- There are at most twice as many pieces as signs. -/
theorem length_pieces_le (bare : Bool) : ∀ t : Tree, (pieces t).length ≤ 2 * (signs bare t).length
  | .text s => by simp [pieces, signs]
  | .flag b => by simp [pieces, signs]
  | .list [] => by simp [pieces, itemPieces, signs]
  | .list (t :: ts) => by
    have := length_itemPieces_le (t :: ts)
    cases bare
    · simp only [pieces, EventReader.signs_list, List.length_cons, List.length_append,
        List.length_nil] at this ⊢
      omega
    · simp only [pieces, EventReader.signs_list_bare, List.length_cons, List.length_append,
        List.length_nil] at this ⊢
      omega
  | .record [] => by simp [pieces, memberPieces, signs]
  | .record (m :: ms) => by
    have := length_memberPieces_le (m :: ms)
    simp only [pieces, EventReader.signs_record, List.length_cons, List.length_append,
      List.length_nil]
    omega

theorem length_itemPieces_le : ∀ ts : List Tree, (itemPieces ts).length + 2 * ts.length ≤
    2 * (itemSigns ts).length
  | [] => by simp [itemPieces, itemSigns]
  | t :: ts => by
    have := length_pieces_le false t
    have := length_itemPieces_le ts
    simp only [itemPieces, itemSigns, List.length_cons, List.length_append]
    omega

theorem length_memberPieces_le : ∀ ms : List (String × Tree),
    (memberPieces ms).length ≤ 2 * (memberSigns ms).length
  | [] => by simp [memberPieces, memberSigns]
  | (key, t) :: ms => by
    have := length_pieces_le true t
    have := length_memberPieces_le ms
    simp only [memberPieces, memberSigns, List.length_cons, List.length_append]
    omega

end

namespace EventReader

/-- The tokens of a document give the events of its pieces, with those of a document around
them. -/
theorem run_document {e o : Token} {k : List Token} {ps : List Piece} (ho : o.sign = .blockMapping)
    (he : e.sign = .streamEnd)
    (h : Goes (reading (o :: k ++ [e]) .blockNode [.documentEnd] standardHandles) ps
      (reading [e] .documentEnd [] standardHandles)) (fuel : Nat) (hf : ps.length + 3 ≤ fuel) :
    ∃ l es, l.map (·.1) = ps ∧ Shown l es ∧
      (reading (o :: k ++ [e]) (.document true) [] []).run fuel [] =
        ⟨(.documentStart, o.start) :: (es ++ [(.documentEnd, e.start), (.streamEnd, e.start)]),
          none⟩ := by
  obtain ⟨l, es, hl, hs, hrun⟩ := run_goes h
  have hlen : es.length = ps.length := by rw [← hl, List.length_map, hs.length_eq]
  obtain ⟨n, rfl⟩ : ∃ n, fuel = n + 2 + es.length + 1 := ⟨fuel - (es.length + 3), by omega⟩
  refine ⟨l, es, hl, hs, ?_⟩
  have hd : (reading (o :: k ++ [e]) (.document true) [] []).step =
      .ok (.documentStart, o.start, reading (o :: k ++ [e]) .blockNode
        [.documentEnd] standardHandles) :=
    step_document ho
  rw [run, hd]
  change run (n + 2 + es.length) [(.documentStart, o.start)] _ = _
  rw [hrun, run, step_documentEnd he]
  change run (n + 1) ((.documentEnd, e.start) :: (es.reverse ++ [(.documentStart, o.start)])) _ = _
  rw [run, step_streamEnd he]
  simp

end EventReader

/-- **A record that was written is one document of its pieces.** -/
theorem ofText_render {m : String × Tree} {ms : List (String × Tree)}
    (h : (Tree.record (m :: ms)).Named) :
    ∃ l : Pieces, l.map (·.1) = pieces (.record (m :: ms)) ∧
      Stream.ofText (render (.record (m :: ms))) = ⟨l, l.length, [], none, false⟩ := by
  obtain ⟨ts, ht, hs⟩ := ofText_write h
  obtain ⟨start, ts, rfl, -, hs⟩ := List.map_eq_cons_iff.1 hs
  obtain ⟨ts, l', rfl, hl, hl'⟩ := List.map_eq_append_iff.1 hs
  obtain ⟨e, rfl, he⟩ := List.map_eq_singleton_iff.1 hl'
  have hlen : (pieces (.record (m :: ms))).length ≤ 2 * ts.length := by
    have := length_pieces_le false (.record (m :: ms))
    rwa [← hl, List.length_map] at this
  have hopens : EventReader.Opens
      (EventReader.reading (ts ++ [e]) .blockNode [.documentEnd] EventReader.standardHandles).step
      (pieces (.record (m :: ms))) (.reading [e] .documentEnd [] EventReader.standardHandles) :=
    EventReader.node_tree _ hl nofun
  rw [EventReader.signs_record] at hl
  obtain ⟨o, k, rfl, ho, -⟩ := List.map_eq_cons_iff.1 hl
  obtain ⟨ps, es, hps, hshown, hrun⟩ := EventReader.run_document ho he hopens.goes
    (8 * (start :: (o :: k ++ [e])).length + 8) (by simp at hlen ⊢; omega)
  refine ⟨ps, hps, ?_⟩
  have hev : Events.ofText (render (.record (m :: ms))) =
      ⟨(.documentStart, o.start) :: (es ++ [(.documentEnd, e.start), (.streamEnd, e.start)]),
        none⟩ := by
    rw [Events.ofText, render, String.toList_ofList, ht]
    exact hrun
  rw [Stream.ofText, hev]
  change Loading.read none ⟨[], 0, [], []⟩
    (es ++ [(.documentEnd, e.start), (.streamEnd, e.start)]) = _
  rw [EventReader.read_shown hshown]
  simp [Loading.read, Loading.stream]

end Yaml
end Retarget
