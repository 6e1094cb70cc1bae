/-
# What a lookup passes on its way

The lookup of a name finds the first element of the name in document order.  On the way down to
it, level by level, it passes an ancestor and the subtrees of earlier siblings; the later siblings
are still to come when it stops:

| level | passed | not looked at |
| --- | --- | --- |
| root | its name, its children before the way | its children after the way |
| … | … | … |
| parent of the element | its name, its children before the element | its children after it |

The *surroundings* of an element are these levels.  An element is found exactly if it stands in
surroundings in which nothing passed has the name (`Document.first?_eq_some_iff`), and then it
is found in all surroundings that agree with them in what is passed.
-/

import Retarget.Proofs.Guard
import Mathlib.Data.List.Forall2

namespace Retarget

/-- One level on the way down to an element: the name of an ancestor, and its children before and
after the one on the way. -/
structure Level where
  name : Name
  before : List Node
  after : List Node

/-- The levels above an element, the root's first. -/
abbrev Surroundings := List Level

namespace Surroundings

variable {ls ls' : Surroundings} {e : Element} {name : Name}

/-- The whole tree, with the element in these surroundings. -/
def around : Surroundings → Element → Element
  | [], e => e
  | l :: ls, e => ⟨l.name, l.before ++ (around ls e).node :: l.after⟩

/-- Nothing that is passed has the name: no ancestor, and no element in the subtree of an earlier
sibling. -/
def Passes (ls : Surroundings) (name : Name) : Prop :=
  ∀ l ∈ ls, l.name ≠ name ∧ ∀ f ∈ Node.preorderAll l.before, f.name ≠ name

instance : Decidable (ls.Passes name) :=
  inferInstanceAs <| Decidable <|
    ∀ l ∈ ls, l.name ≠ name ∧ ∀ f ∈ Node.preorderAll l.before, f.name ≠ name

/-- The surroundings agree in what is passed; the later siblings may be any. -/
def SamePassed : Surroundings → Surroundings → Prop :=
  List.Forall₂ fun l l' => l.name = l'.name ∧ l.before = l'.before

theorem Passes.congr (h : ls.Passes name) (hs : SamePassed ls ls') : ls'.Passes name := by
  induction hs with
  | nil => exact h
  | cons hl _ ih =>
    rw [Passes, List.forall_mem_cons] at h ⊢
    rw [← hl.1, ← hl.2]
    exact ⟨h.1, ih h.2⟩

/-- Where nothing passed has the name of the element, the element is the first of its name. -/
theorem find?_around (h : ls.Passes e.name) :
    (ls.around e).node.preorder.find? (·.name = e.name) = some e := by
  induction ls with
  | nil => exact List.find?_cons_of_pos (decide_eq_true rfl)
  | cons l ls ih =>
    obtain ⟨⟨hn, hb⟩, hls⟩ := List.forall_mem_cons.1 h
    have hbefore : (Node.preorderAll l.before).find? (·.name = e.name) = none :=
      List.find?_eq_none.2 fun f hf => by simpa using hb f hf
    rw [around, Element.node, Node.preorder, List.find?_cons_of_neg (by simpa using hn),
      Node.preorderAll_append, List.find?_append, hbefore, Option.none_or, Node.preorderAll,
      List.find?_append, ih hls, Option.some_or]

mutual

/-- The first element of a name in a node stands in surroundings where nothing passed has the
name. -/
theorem exists_around : ∀ n : Node, n.preorder.find? (·.name = name) = some e →
    ∃ ls : Surroundings, ls.Passes name ∧ n = (ls.around e).node
  | .text _, h => by simp [Node.preorder] at h
  | .element root children, h => by
    by_cases hr : root = name
    · rw [Node.preorder, List.find?_cons_of_pos (by simpa using hr)] at h
      obtain rfl := Option.some.inj h
      exact ⟨[], by simp [Passes], rfl⟩
    · rw [Node.preorder, List.find?_cons_of_neg (by simpa using hr)] at h
      obtain ⟨before, ls, after, rfl, hb, hls⟩ := exists_around_all children h
      exact ⟨⟨root, before, after⟩ :: ls, List.forall_mem_cons.2 ⟨⟨hr, hb⟩, hls⟩, rfl⟩

/-- Among nodes, it stands below one of them, and no element below an earlier one has the name. -/
theorem exists_around_all : ∀ ns : List Node,
    (Node.preorderAll ns).find? (·.name = name) = some e →
    ∃ (before : List Node) (ls : Surroundings) (after : List Node),
      ns = before ++ (ls.around e).node :: after ∧
        (∀ f ∈ Node.preorderAll before, f.name ≠ name) ∧ ls.Passes name
  | [], h => by simp [Node.preorderAll] at h
  | n :: ns, h => by
    rw [Node.preorderAll, List.find?_append] at h
    cases hn : n.preorder.find? (·.name = name) with
    | some found =>
      -- the way goes down into the first node
      rw [hn, Option.some_or] at h
      obtain ⟨ls, hls, rfl⟩ := exists_around n (hn.trans h)
      exact ⟨[], ls, ns, rfl, by simp [Node.preorderAll], hls⟩
    | none =>
      -- the first node is passed with all that is below it
      rw [hn, Option.none_or] at h
      obtain ⟨before, ls, after, rfl, hb, hls⟩ := exists_around_all ns h
      refine ⟨n :: before, ls, after, rfl, fun f hf => ?_, hls⟩
      rcases List.mem_append.1 hf with hf | hf
      · simpa using List.find?_eq_none.1 hn f hf
      · exact hb f hf

end

end Surroundings

/-- The element stands in these surroundings in the document, as the first one of its name. -/
structure Document.FirstAt (d : Document) (ls : Surroundings) (e : Element) : Prop where
  stands : d.root = ls.around e
  passes : ls.Passes e.name

/-- **The element found is the first of its name**, on the way down to it and at every level
of the way. -/
theorem Document.first?_eq_some_iff {d : Document} {name : Name} {e : Element} :
    d.first? name = some e ↔ e.name = name ∧ ∃ ls, d.FirstAt ls e := by
  rw [Document.first?_eq_find?]
  constructor
  · intro h
    obtain rfl : e.name = name := by simpa using List.find?_some h
    obtain ⟨ls, hp, hs⟩ := Surroundings.exists_around _ h
    have hroot : d.root = ls.around e := by
      have := congrArg Node.element? hs
      rwa [Node.element?_node, Node.element?_node, Option.some.injEq] at this
    exact ⟨rfl, ls, hroot, hp⟩
  · rintro ⟨rfl, ls, hs, hp⟩
    rw [hs]
    exact Surroundings.find?_around hp

namespace Project

variable {p : Project} {localName : String} {e : Element} {ls ls' : Surroundings}

/-- The project with another root element. -/
def withRoot (p : Project) (root : Element) : Project := { p with document := ⟨root⟩ }

/-- The project with nodes appended to the children of its root element. -/
def appending (p : Project) (ns : List Node) : Project :=
  p.withRoot { p.document.root with children := p.document.root.children ++ ns }

/-- Appended nodes are searched last, unless the root is what is looked for. -/
theorem findElement_appending (h : p.document.root.name ≠ ⟨p.space, localName⟩) (ns : List Node) :
    (p.appending ns).findElement localName =
      (p.findElement localName).or
        ((Node.preorderAll ns).find? (·.name = ⟨p.space, localName⟩)) := by
  have hroot : ∀ children : List Node, (p.withRoot ⟨p.document.root.name, children⟩).findElement
      localName = (Node.preorderAll children).find? (·.name = ⟨p.space, localName⟩) := fun _ => by
    rw [findElement, Document.first?_eq_find?]
    exact List.find?_cons_of_neg fun hd => h (of_decide_eq_true hd)
  rw [appending, hroot, Node.preorderAll_append, List.find?_append, ← hroot]
  rfl

/-- What comes after an element that is found could be anything else. -/
theorem findElement_of_samePassed (hn : e.name = ⟨p.space, localName⟩)
    (h : p.document.FirstAt ls e) (hs : ls.SamePassed ls') :
    (p.withRoot (ls'.around e)).findElement localName = some e :=
  Document.first?_eq_some_iff.2 ⟨hn, ls', rfl, h.passes.congr hs⟩

/-- **A lookup ignores what follows the first match.**  Nodes appended to the children of the root
are searched when nothing was found before, unless the root itself is the match.  An element is
found exactly if it stands somewhere as the first of its name; it is found again when all the
siblings that follow it or one of its ancestors are replaced by any others, and if it is the
declaration of the project's kinds, the guard answers the same. -/
theorem lookup_ignores_what_follows (p : Project) (localName : String) :
    (p.document.root.name ≠ ⟨p.space, localName⟩ → ∀ ns, (p.appending ns).findElement localName =
      (p.findElement localName).or
        ((Node.preorderAll ns).find? (·.name = ⟨p.space, localName⟩))) ∧
    (∀ e, p.findElement localName = some e ↔
      e.name = ⟨p.space, localName⟩ ∧ ∃ ls, p.document.FirstAt ls e) ∧
    (∀ (e : Element) (ls ls' : Surroundings), e.name = ⟨p.space, localName⟩ →
      p.document.FirstAt ls e → ls.SamePassed ls' →
        (p.withRoot (ls'.around e)).findElement localName = some e ∧
        (localName = kindsElement →
          (p.withRoot (ls'.around e)).unsupportedKind = p.unsupportedKind)) := by
  refine ⟨findElement_appending, fun e => Document.first?_eq_some_iff,
    fun e ls ls' hn h hs => ?_⟩
  have hfound := findElement_of_samePassed hn h hs
  refine ⟨hfound, ?_⟩
  rintro rfl
  rw [unsupportedKind_of_findElement hfound,
    unsupportedKind_of_findElement (Document.first?_eq_some_iff.2 ⟨hn, ls, h⟩)]

/-- An unsupported kind that is declared after the first declaration, below the root or below its
child, makes no difference. -/
theorem lookup_ignores_what_follows_declared :
    let declaration : Element := ⟨⟨.classic, kindsElement⟩, [.text "A;B"]⟩
    let later : Node := .element ⟨.classic, kindsElement⟩
      [.text (braced "603C0E0B-DB56-11DC-BE95-000D561079B0")]
    let under (more less : List Node) : Surroundings :=
      [⟨⟨.classic, "Project"⟩, [.text " "], less⟩, ⟨⟨.classic, "PropertyGroup"⟩, [], more⟩]
    let p : Project := .ofDocument ⟨(under [] []).around declaration⟩ .classic
    let q := p.withRoot ((under [later] [later]).around declaration)
    (p.appending [later]).findElement kindsElement = some declaration ∧
      q.findElement kindsElement = some declaration ∧ q.unsupportedKind = none := by
  intro declaration later under p q
  obtain ⟨happ, hfirst, hsame⟩ := lookup_ignores_what_follows p kindsElement
  have hp : p.document.FirstAt (under [] []) declaration := ⟨rfl, by decide⟩
  have hfound : p.findElement kindsElement = some declaration := (hfirst _).2 ⟨rfl, _, hp⟩
  obtain ⟨hq, hg⟩ := hsame declaration (under [] []) (under [later] [later]) rfl hp
    (.cons ⟨rfl, rfl⟩ (.cons ⟨rfl, rfl⟩ .nil))
  refine ⟨?_, hq, (hg rfl).trans ?_⟩
  · rw [happ (by decide), hfound]
    rfl
  · rw [unsupportedKind_of_findElement hfound]
    decide +kernel

end Project

end Retarget
