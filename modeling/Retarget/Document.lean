/-
# The element tree of a project

A document is a tree of elements.  An element has a qualified name and child nodes,
each an element again or a text:

    document  =  element
    element   =  name, node, node, …
    node      =  element | text
    name      =  namespace, local name

A name is displayed as `{namespace}local`, and as `local` alone in the empty
namespace.  The *value* of an element is the concatenation of every text below it, in
document order.  *Document order* (`Node.preorder`) lists an element before what is
below it and an earlier sibling's subtree before a later one's.
-/

namespace Retarget

/-- A namespace, named by its address.  The empty address is the empty namespace. -/
structure Namespace where
  uri : String
  deriving DecidableEq, Repr, Inhabited

namespace Namespace

/-- The empty namespace. -/
def none : Namespace := ⟨""⟩

/-- The namespace of the classic project schema. -/
def classic : Namespace := ⟨"http://schemas.microsoft.com/developer/msbuild/2003"⟩

/-- The namespace is the empty one. -/
def isNone (space : Namespace) : Bool := space.uri.isEmpty

theorem isNone_iff {space : Namespace} : space.isNone = true ↔ space = none := by
  cases space; simp [isNone, none]

end Namespace

/-- A qualified name: a namespace and a local name in it. -/
structure Name where
  space : Namespace
  localName : String
  deriving DecidableEq, Repr, Inhabited

/-- The name as messages show it. -/
def Name.display (name : Name) : String :=
  if name.space.isNone then name.localName
  else "\x7b" ++ name.space.uri ++ "\x7d" ++ name.localName

/-- A node of the tree: an element with its children, or a text. -/
inductive Node where
  | element (name : Name) (children : List Node)
  | text (content : String)
  deriving Repr, Inhabited

/-- An element: its name and its child nodes in order. -/
structure Element where
  name : Name
  children : List Node
  deriving Repr, Inhabited

/-- A document is its root element. -/
structure Document where
  root : Element
  deriving Repr, Inhabited

/-- The element as a node of a larger tree. -/
def Element.node (e : Element) : Node := .element e.name e.children

namespace Node

/-- The element that the node is, if it is one. -/
def element? : Node → Option Element
  | .element name children => some ⟨name, children⟩
  | .text _ => Option.none

@[simp] theorem element?_node (e : Element) : element? e.node = some e := rfl

mutual

/-- Every text in the node, in document order, run together. -/
def value : Node → String
  | .element _ children => valueAll children
  | .text content => content

/-- Every text in the nodes, in document order, run together. -/
def valueAll : List Node → String
  | [] => ""
  | n :: ns => value n ++ valueAll ns

end

mutual

/-- The elements of the node in document order, the node itself included. -/
def preorder : Node → List Element
  | .element name children => ⟨name, children⟩ :: preorderAll children
  | .text _ => []

/-- The elements of the nodes in document order. -/
def preorderAll : List Node → List Element
  | [] => []
  | n :: ns => preorder n ++ preorderAll ns

end

mutual

/-- The number of elements in the node, the node itself included. -/
def weight : Node → Nat
  | .element _ children => weightAll children + 1
  | .text _ => 0

/-- The number of elements in the nodes. -/
def weightAll : List Node → Nat
  | [] => 0
  | n :: ns => weight n + weightAll ns

end

mutual

/-- Equality of nodes is decidable. -/
def decEq : (a b : Node) → Decidable (a = b)
  | .text s, .text t =>
    if h : s = t then isTrue (by rw [h]) else isFalse fun e => h (by injection e)
  | .text _, .element _ _ => isFalse fun e => by cases e
  | .element _ _, .text _ => isFalse fun e => by cases e
  | .element n xs, .element m ys =>
    if h : n = m then
      match decEqAll xs ys with
      | isTrue h' => isTrue (by rw [h, h'])
      | isFalse h' => isFalse fun e => h' (by injection e)
    else isFalse fun e => h (by injection e)

/-- Equality of lists of nodes is decidable. -/
def decEqAll : (xs ys : List Node) → Decidable (xs = ys)
  | [], [] => isTrue rfl
  | [], _ :: _ => isFalse fun e => by cases e
  | _ :: _, [] => isFalse fun e => by cases e
  | x :: xs, y :: ys =>
    match decEq x y with
    | isTrue h =>
      match decEqAll xs ys with
      | isTrue h' => isTrue (by rw [h, h'])
      | isFalse h' => isFalse fun e => h' (by injection e)
    | isFalse h => isFalse fun e => h (by injection e)

end

instance : DecidableEq Node := decEq

end Node

deriving instance DecidableEq for Element
deriving instance DecidableEq for Document

namespace Element

/-- The child elements, in order. -/
def elements (e : Element) : List Element := e.children.filterMap Node.element?

/-- Every text below the element, in document order, run together. -/
def value (e : Element) : String := Node.valueAll e.children

/-- The number of elements in the element's tree, itself included. -/
def weight (e : Element) : Nat := e.node.weight

end Element

namespace Walk

/-- The number of elements in the subtrees that a search has still to visit. -/
def weight : (pending : List Element) → Nat
  | [] => 0
  | e :: rest => e.weight + weight rest

@[simp] theorem weight_append (es fs : List Element) : weight (es ++ fs) = weight es + weight fs := by
  induction es with
  | nil => simp [weight]
  | cons e es ih => simp [weight, ih, Nat.add_assoc]

theorem weight_children (ns : List Node) :
    weight (ns.filterMap Node.element?) = Node.weightAll ns := by
  induction ns with
  | nil => rfl
  | cons n ns ih =>
    cases n with
    | element name children =>
      simp [Node.element?, weight, Node.weightAll, Node.weight, Element.weight, Element.node, ih]
    | text content => simp [List.filterMap_cons, Node.element?, Node.weightAll, Node.weight, ih]

/-- What stands below an element weighs one less than the element. -/
theorem weight_elements (e : Element) : weight e.elements + 1 = e.weight := by
  simp [Element.weight, Element.node, Node.weight, Element.elements, weight_children]

theorem weight_descend (e : Element) (rest : List Element) :
    weight (e.elements ++ rest) < weight (e :: rest) := by
  have := weight_elements e
  simp only [weight_append, weight]
  omega

/-- The next element of the name, with what is still to visit after it; the subtrees
`pending` are to be visited, the first one first. -/
def next? (name : Name) (pending : List Element) : Option (Element × List Element) :=
  match pending with
  | [] => none
  | e :: rest =>
    if e.name = name then some (e, e.elements ++ rest) else next? name (e.elements ++ rest)
termination_by weight pending
decreasing_by exact weight_descend e rest

/-- A step of the search visits at least the element that it finds. -/
theorem weight_next? {name : Name} {pending after : List Element} {e : Element}
    (h : next? name pending = some (e, after)) : weight after < weight pending := by
  fun_induction next? name pending with
  | case1 => simp at h
  | case2 e' rest hn =>
    obtain ⟨rfl, rfl⟩ : e' = e ∧ e'.elements ++ rest = after := by simpa using h
    exact weight_descend e' rest
  | case3 e' rest _ ih => exact Nat.lt_trans (ih h) (weight_descend e' rest)

/-- The elements that the search still finds, in order. -/
def found (name : Name) (pending : List Element) : List Element :=
  match _h : next? name pending with
  | none => []
  | some (e, after) => e :: found name after
termination_by weight pending
decreasing_by exact weight_next? _h

end Walk

/-- The elements of the name strictly below the element, found by visiting the tree
with a list of subtrees still to visit. -/
def Element.descendants (e : Element) (name : Name) : List Element := Walk.found name e.elements

/-- The elements of the name in the document, its root included. -/
def Document.descendants (d : Document) (name : Name) : List Element := Walk.found name [d.root]

/-- The first element of the name in document order, the root included. -/
def Document.first? (d : Document) (name : Name) : Option Element :=
  (Walk.next? name [d.root]).map (·.1)

end Retarget
