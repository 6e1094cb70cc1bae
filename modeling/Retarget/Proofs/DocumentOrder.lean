/-
# The walk visits a document in document order

`Walk.next?` keeps a list of subtrees that are still to be visited, and puts the child
elements of an element before the others.  So what it has still to visit is the
concatenation of the document orders of these subtrees (`Walk.upcoming`), and one step of
the walk takes the head of that list away.  The search for a name is therefore
`List.find?` in document order (`Walk.next?_eq_find?`).

The value of an element is likewise tied to the list of the texts below it
(`Node.toList_valueAll`).
-/

import Retarget.Document

namespace Retarget
namespace Node

/-- Elements below a list of nodes are found in its elements alone. -/
theorem preorderAll_eq_flatMap (ns : List Node) :
    preorderAll ns = (ns.filterMap element?).flatMap fun e => e.node.preorder := by
  induction ns with
  | nil => rfl
  | cons n ns ih =>
    cases n with
    | element name children =>
      simp only [preorderAll, ih, List.filterMap_cons, element?, List.flatMap_cons]
      rfl
    | text content => simpa [preorderAll, preorder, List.filterMap_cons, element?] using ih

theorem preorderAll_append (ns ms : List Node) :
    preorderAll (ns ++ ms) = preorderAll ns ++ preorderAll ms := by
  simp only [preorderAll_eq_flatMap, List.filterMap_append, List.flatMap_append]

mutual

/-- Every text in the node, in document order. -/
def texts : Node → List String
  | .element _ children => textsAll children
  | .text content => [content]

/-- Every text in the nodes, in document order. -/
def textsAll : List Node → List String
  | [] => []
  | n :: ns => texts n ++ textsAll ns

end

mutual

/-- The value of a node is the concatenation of its texts. -/
theorem toList_value : ∀ n : Node, n.value.toList = n.texts.flatMap String.toList
  | .element _ children => by rw [value, texts, toList_valueAll children]
  | .text content => by simp [value, texts]

/-- The value of a list of nodes is the concatenation of their texts. -/
theorem toList_valueAll : ∀ ns : List Node,
    (valueAll ns).toList = (textsAll ns).flatMap String.toList
  | [] => rfl
  | n :: ns => by
    rw [valueAll, textsAll, String.toList_append, toList_value n, toList_valueAll ns,
      List.flatMap_append]

end

theorem textsAll_append (ns ms : List Node) : textsAll (ns ++ ms) = textsAll ns ++ textsAll ms := by
  induction ns with
  | nil => rfl
  | cons n ns ih => rw [List.cons_append, textsAll, textsAll, ih, List.append_assoc]

theorem valueAll_append (ns ms : List Node) : valueAll (ns ++ ms) = valueAll ns ++ valueAll ms := by
  rw [← String.toList_inj, String.toList_append]
  simp only [toList_valueAll, textsAll_append, List.flatMap_append]

end Node

namespace Walk

/-- What a search has still to visit, in order. -/
def upcoming (pending : List Element) : List Element := pending.flatMap fun e => e.node.preorder

/-- A visit takes the element itself from what is to come, and nothing else. -/
theorem upcoming_cons (e : Element) (rest : List Element) :
    upcoming (e :: rest) = e :: upcoming (e.elements ++ rest) := by
  rw [upcoming, upcoming, List.flatMap_cons, List.flatMap_append, Element.elements,
    ← Node.preorderAll_eq_flatMap]
  rfl

/-- **The search is a search in document order.** -/
theorem next?_eq_find? (name : Name) (pending : List Element) :
    (next? name pending).map (·.1) = (upcoming pending).find? (·.name = name) := by
  fun_induction next? name pending with
  | case1 => rfl
  | case2 e rest hn => rw [upcoming_cons, List.find?_cons_of_pos (by simpa using hn)]; rfl
  | case3 e rest hn ih => rw [upcoming_cons, List.find?_cons_of_neg (by simpa using hn), ih]

end Walk

/-- **The first element of a name is the first one in document order**, the root
included. -/
theorem Document.first?_eq_find? (d : Document) (name : Name) :
    d.first? name = d.root.node.preorder.find? (·.name = name) := by
  rw [Document.first?, Walk.next?_eq_find?, Walk.upcoming, List.flatMap_singleton]

end Retarget
