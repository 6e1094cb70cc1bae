/-
# The walk yields the elements of a name in document order

The *place* of a node below an element is the list of child numbers on the way down to it;
texts are counted like elements, and the element itself has the empty place.  Places are
compared like words in a dictionary:

    []  <  [1]  <  [1, 0]  <  [1, 0, 3]  <  [1, 2]  <  [2]

So a node comes before everything below it, and what is below an earlier sibling comes before a
later one.  Increasing places are document order, and they tell apart elements that look the
same.  `Node.places` lists the places of the elements (`mem_places`) in this order
(`pairwise_places`), and the elements that stand there are `Node.preorder`
(`map_nodeAt?_places`).

The walk yields what is to come and has the name (`Walk.found_eq_filter`).  Called as often as
one likes, it answers with these elements one after the other and then with nothing for ever
(`Walk.answers_eq`).
-/

import Retarget.Proofs.DocumentOrder
import Mathlib.Data.List.Basic

namespace Retarget

/-! ### Places -/

namespace Node

/-- The node at a place below a node. -/
def nodeAt? : Node → List Nat → Option Node
  | n, [] => some n
  | .element _ children, i :: place => children[i]?.bind fun n => nodeAt? n place
  | .text _, _ :: _ => none

mutual

/-- The places of the elements of a node, the node itself included. -/
def places : Node → List (List Nat)
  | .element _ children => [] :: placesFrom 0 children
  | .text _ => []

/-- The places of the elements of nodes that are children from number `i` on. -/
def placesFrom : (i : Nat) → List Node → List (List Nat)
  | _, [] => []
  | i, n :: ns => (places n).map (i :: ·) ++ placesFrom (i + 1) ns

end

/-- What stands among nodes, numbered from `i` on, stands below the first of them or below one of the
others. -/
theorem exists_numbered_cons {Q : List Nat → Node → Prop} {i : Nat} {n : Node} {ns : List Node}
    {place : List Nat} :
    (∃ j m below, (n :: ns)[j]? = some m ∧ place = (i + j) :: below ∧ Q below m) ↔
      (∃ below, place = i :: below ∧ Q below n) ∨
        ∃ j m below, ns[j]? = some m ∧ place = (i + 1 + j) :: below ∧ Q below m := by
  constructor
  · rintro ⟨j, m, below, hm, rfl, hb⟩
    cases j with
    | zero =>
      obtain rfl : n = m := by simpa using hm
      exact .inl ⟨below, rfl, hb⟩
    | succ j =>
      refine .inr ⟨j, m, below, by simpa using hm, ?_, hb⟩
      rw [show i + 1 + j = i + (j + 1) by omega]
  · rintro (⟨below, rfl, hb⟩ | ⟨j, m, below, hm, rfl, hb⟩)
    · exact ⟨0, n, below, rfl, rfl, hb⟩
    · refine ⟨j + 1, m, below, hm, ?_, hb⟩
      rw [show i + 1 + j = i + (j + 1) by omega]

/-- Places below one child come before places below later children. -/
theorem pairwise_numbered {i : Nat} {below later : List (List Nat)} (hb : below.Pairwise (· < ·))
    (hl : later.Pairwise (· < ·)) (h : ∀ place ∈ later, ∃ j rest, place = (i + 1 + j) :: rest) :
    (below.map (i :: ·) ++ later).Pairwise (· < ·) := by
  rw [List.pairwise_append]
  refine ⟨hb.map _ fun a b h => List.cons_lt_cons_iff.2 (.inr ⟨rfl, h⟩), hl, fun a ha b hb => ?_⟩
  obtain ⟨below, -, rfl⟩ := List.mem_map.1 ha
  obtain ⟨j, rest, rfl⟩ := h b hb
  exact List.cons_lt_cons_iff.2 (.inl (by omega))

/-- The place of an element among children begins with the number of a child. -/
theorem mem_placesFrom {i : Nat} {ns : List Node} {place : List Nat} :
    place ∈ placesFrom i ns ↔
      ∃ j n below, ns[j]? = some n ∧ place = (i + j) :: below ∧ below ∈ n.places := by
  induction ns generalizing i with
  | nil => simp [placesFrom]
  | cons n ns ih =>
    rw [placesFrom, List.mem_append, List.mem_map, ih, exists_numbered_cons]
    refine or_congr_left (exists_congr fun below => ?_)
    rw [and_comm, eq_comm]

/-- **The places are those where elements stand.** -/
theorem mem_places {n : Node} {place : List Nat} :
    place ∈ n.places ↔ ∃ e : Element, n.nodeAt? place = some e.node := by
  induction place generalizing n with
  | nil =>
    cases n with
    | element name children =>
      exact iff_of_true List.mem_cons_self ⟨⟨name, children⟩, rfl⟩
    | text content => simp [places, nodeAt?, Element.node]
  | cons i below ih =>
    cases n with
    | element name children =>
      simp only [places, List.mem_cons, reduceCtorEq, false_or, mem_placesFrom, nodeAt?,
        Option.bind_eq_some_iff]
      constructor
      · rintro ⟨j, m, below', hm, he, hb⟩
        obtain ⟨rfl, rfl⟩ : i = j ∧ below = below' := by simpa using he
        obtain ⟨e, he⟩ := ih.1 hb
        exact ⟨e, m, hm, he⟩
      · rintro ⟨e, m, hm, he⟩
        exact ⟨i, m, below, hm, by simp, ih.2 ⟨e, he⟩⟩
    | text content => simp [places, nodeAt?]

mutual

/-- **The places are increasing.** -/
theorem pairwise_places : ∀ n : Node, n.places.Pairwise (· < ·)
  | .element _ children => by
    rw [places, List.pairwise_cons]
    refine ⟨fun place h => ?_, pairwise_placesFrom 0 children⟩
    obtain ⟨j, n, below, -, rfl, -⟩ := mem_placesFrom.1 h
    exact List.nil_lt_cons ..
  | .text _ => .nil

/-- The places among children are increasing. -/
theorem pairwise_placesFrom : ∀ (i : Nat) (ns : List Node), (placesFrom i ns).Pairwise (· < ·)
  | _, [] => .nil
  | i, n :: ns => by
    refine pairwise_numbered (pairwise_places n) (pairwise_placesFrom (i + 1) ns) fun place h => ?_
    obtain ⟨j, m, rest, -, rfl, -⟩ := mem_placesFrom.1 h
    exact ⟨j, rest, rfl⟩

end

mutual

/-- **The elements at the places are those of document order.** -/
theorem map_nodeAt?_places : ∀ n : Node,
    n.places.map n.nodeAt? = n.preorder.map fun e => some e.node
  | .element name children => by
    rw [places, preorder, List.map_cons, List.map_cons, nodeAt?]
    exact congrArg _ (map_nodeAt?_placesFrom name [] children)
  | .text _ => rfl

/-- The elements at the places among the later children. -/
theorem map_nodeAt?_placesFrom : ∀ (name : Name) (before ns : List Node),
    (placesFrom before.length ns).map (nodeAt? (.element name (before ++ ns))) =
      (preorderAll ns).map fun e => some e.node
  | _, _, [] => rfl
  | name, before, n :: ns => by
    have hn : nodeAt? (.element name (before ++ n :: ns)) ∘ (before.length :: ·) = n.nodeAt? := by
      funext place
      simp [nodeAt?]
    have hs : before ++ n :: ns = (before ++ [n]) ++ ns := by simp
    rw [placesFrom, preorderAll, List.map_append, List.map_append, List.map_map, hn,
      map_nodeAt?_places n, hs, ← map_nodeAt?_placesFrom name (before ++ [n]) ns,
      List.length_append, List.length_singleton]

end

/-- The node is an element of the name. -/
def isNamed (name : Name) (n : Node) : Bool := n.element?.any (·.name = name)

end Node

/-! ### What the walk yields -/

namespace Walk

/-- A step of the walk takes the first element of the name from what is to come. -/
theorem filter_upcoming (name : Name) (pending : List Element) :
    (upcoming pending).filter (·.name = name) =
      match next? name pending with
      | none => []
      | some (e, after) => e :: (upcoming after).filter (·.name = name) := by
  fun_induction next? name pending with
  | case1 => rfl
  | case2 e rest hn => rw [upcoming_cons, List.filter_cons_of_pos (by simpa using hn)]
  | case3 e rest hn ih => rw [upcoming_cons, List.filter_cons_of_neg (by simpa using hn), ih]

/-- **The walk yields what is to come and has the name**, in order. -/
theorem found_eq_filter (name : Name) (pending : List Element) :
    found name pending = (upcoming pending).filter (·.name = name) := by
  fun_induction found name pending with
  | case1 pending h => rw [filter_upcoming, h]
  | case2 pending e after h ih => rw [filter_upcoming, h, ih]

/-- What the walk answers to a call, and what it has then still to visit.  It answers nothing
when all is visited. -/
def answer (name : Name) (pending : List Element) : Option Element × List Element :=
  match next? name pending with
  | none => (none, [])
  | some (e, after) => (some e, after)

/-- What the walk answers to calls one after the other. -/
def answers (name : Name) : (calls : Nat) → (pending : List Element) → List (Option Element)
  | 0, _ => []
  | calls + 1, pending => (answer name pending).1 :: answers name calls (answer name pending).2

/-- A walk that has visited all answers nothing for ever. -/
theorem answers_nil (name : Name) (calls : Nat) :
    answers name calls [] = .replicate calls none := by
  induction calls with
  | zero => rfl
  | succ calls ih =>
    have ha : answer name [] = (none, []) := by simp only [answer, next?]
    rw [answers, ha, ih, List.replicate_succ]

/-- **The answers of the walk** are the elements that it finds, and then nothing for ever. -/
theorem answers_eq (name : Name) (pending : List Element) (more : Nat) :
    answers name ((found name pending).length + more) pending =
      (found name pending).map some ++ .replicate more none := by
  fun_induction found name pending with
  | case1 pending h =>
    cases more with
    | zero => rfl
    | succ more =>
      have ha : answer name pending = (none, []) := by simp only [answer, h]
      rw [List.length_nil, Nat.zero_add, answers, ha, answers_nil]
      rfl
  | case2 pending e after h ih =>
    have ha : answer name pending = (some e, after) := by simp only [answer, h]
    rw [List.length_cons, Nat.add_right_comm, answers, ha, ih]
    rfl

end Walk

namespace Element

/-- What is to come below an element is what stands below it. -/
theorem upcoming_elements (e : Element) : Walk.upcoming e.elements = Node.preorderAll e.children :=
  (Node.preorderAll_eq_flatMap e.children).symm

/-- The places strictly below an element. -/
theorem mem_placesFrom_children {e : Element} {place : List Nat} :
    place ∈ Node.placesFrom 0 e.children ↔
      place ≠ [] ∧ ∃ f : Element, e.node.nodeAt? place = some f.node := by
  have hp : e.node.places = [] :: Node.placesFrom 0 e.children := rfl
  rw [← Node.mem_places, hp, List.mem_cons]
  constructor
  · intro h
    obtain ⟨j, n, below, -, rfl, -⟩ := Node.mem_placesFrom.1 h
    exact ⟨List.cons_ne_nil _ _, .inr h⟩
  · rintro ⟨hn, rfl | h⟩
    · exact absurd rfl hn
    · exact h

/-- The places of the elements of a name strictly below an element, in document order. -/
theorem exists_places (e : Element) (name : Name) :
    ∃ places : List (List Nat), places.Pairwise (· < ·) ∧
      (∀ place, place ∈ places ↔
        place ≠ [] ∧ ∃ f : Element, e.node.nodeAt? place = some f.node ∧ f.name = name) ∧
      places.map e.node.nodeAt? =
        ((Node.preorderAll e.children).filter (·.name = name)).map fun f => some f.node := by
  have hm : (Node.placesFrom 0 e.children).map e.node.nodeAt? =
      (Node.preorderAll e.children).map fun f => some f.node :=
    Node.map_nodeAt?_placesFrom e.name [] e.children
  refine ⟨(Node.placesFrom 0 e.children).filter fun place =>
    (e.node.nodeAt? place).any (Node.isNamed name), ?_, fun place => ?_, ?_⟩
  · exact (Node.pairwise_placesFrom 0 e.children).filter _
  · rw [List.mem_filter, mem_placesFrom_children]
    constructor
    · rintro ⟨⟨hn, f, hf⟩, hname⟩
      rw [hf] at hname
      exact ⟨hn, f, hf, by simpa [Node.isNamed] using hname⟩
    · rintro ⟨hn, f, hf, hname⟩
      exact ⟨⟨hn, f, hf⟩, by simpa [hf, Node.isNamed] using hname⟩
  · have hq : ((fun o : Option Node => o.any (Node.isNamed name)) ∘ fun f : Element => some f.node) =
        fun f => decide (f.name = name) := by
      funext f
      simp [Node.isNamed]
    calc ((Node.placesFrom 0 e.children).filter fun place =>
          (e.node.nodeAt? place).any (Node.isNamed name)).map e.node.nodeAt?
        = ((Node.placesFrom 0 e.children).map e.node.nodeAt?).filter (·.any (Node.isNamed name)) := by
          rw [List.filter_map]
          rfl
      _ = ((Node.preorderAll e.children).map fun f => some f.node).filter
            (·.any (Node.isNamed name)) := by rw [hm]
      _ = ((Node.preorderAll e.children).filter (·.name = name)).map fun f => some f.node := by
          rw [List.filter_map, hq]

/-- The descendants of a name are the elements of the name below, in document order. -/
theorem descendants_eq_filter (e : Element) (name : Name) :
    e.descendants name = (Node.preorderAll e.children).filter (·.name = name) := by
  rw [descendants, Walk.found_eq_filter, upcoming_elements]

end Element

/-- The elements of a name in a document are its root, if that has the name, and the root's
descendants of the name. -/
theorem Document.descendants_eq (d : Document) (name : Name) :
    d.descendants name =
      (if d.root.name = name then [d.root] else []) ++ d.root.descendants name := by
  have hp : Walk.upcoming [d.root] = d.root :: Node.preorderAll d.root.children :=
    List.flatMap_singleton ..
  rw [descendants, Walk.found_eq_filter, hp, List.filter_cons, Element.descendants_eq_filter]
  by_cases hr : d.root.name = name
  · rw [if_pos (decide_eq_true hr), if_pos hr]
    rfl
  · rw [if_neg (by simpa using hr), if_neg hr]
    rfl

/-- **The walk yields the descendants of a name in document order.**  There is one for each place
strictly below the element where an element of the name stands, in the order of the places: an
element before what is below it, and an earlier sibling's subtree before a later one's.  They are
what filtering the recursive preorder gives.  In a document the root comes first, if it has the
name.  A walk that is called again when it has yielded all answers nothing, and so for ever. -/
theorem descendants_in_document_order (e : Element) (name : Name) :
    (∃ places : List (List Nat), places.Pairwise (· < ·) ∧
      (∀ place, place ∈ places ↔
        place ≠ [] ∧ ∃ f : Element, e.node.nodeAt? place = some f.node ∧ f.name = name) ∧
      places.map e.node.nodeAt? = (e.descendants name).map fun f => some f.node) ∧
    e.descendants name = (Node.preorderAll e.children).filter (·.name = name) ∧
    (Document.mk e).descendants name =
      (if e.name = name then [e] else []) ++ e.descendants name ∧
    (∀ more, Walk.answers name ((e.descendants name).length + more) e.elements =
      (e.descendants name).map some ++ .replicate more none) ∧
    (∀ more, Walk.answers name (((Document.mk e).descendants name).length + more) [e] =
      ((Document.mk e).descendants name).map some ++ .replicate more none) := by
  have hd := e.descendants_eq_filter name
  refine ⟨?_, hd, Document.descendants_eq ⟨e⟩ name, Walk.answers_eq name e.elements,
    Walk.answers_eq name [e]⟩
  rw [hd]
  exact e.exists_places name

end Retarget
