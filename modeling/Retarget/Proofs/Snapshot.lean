/-
# What is written for a project holds the project

The trees that are written hold what they are written for, whatever the strings in it and
however deep its elements nest.  So do the buffered values that they are read back as
(`Node.ofValue?_tree`): an element is not taken for a text, nor a text for an element, and
no child is lost.

An element takes two levels of lists and records, one for itself and one for its children
or its name, so a project takes two more than twice the nesting of its elements
(`Project.depth_tree`).  What has been read with some number of levels is written with no
more (`Project.depth_le_of_fits`).
-/

import Retarget.Proofs.Data.Fits
import Retarget.Proofs.Data.Holds
import Retarget.Snapshot

namespace Retarget

namespace Node

mutual

/-- How deep elements are nested in the node: `1` for an element without any below it. -/
def nesting : Node → Nat
  | .element _ children => nestingAll children + 1
  | .text _ => 0

/-- The greatest nesting among the nodes. -/
def nestingAll : List Node → Nat
  | [] => 0
  | n :: ns => max (nesting n) (nestingAll ns)

end

theorem nestingAll_le {ns : List Node} {m : Nat} (h : ∀ n ∈ ns, n.nesting ≤ m) :
    nestingAll ns ≤ m := by
  induction ns with
  | nil => exact Nat.zero_le _
  | cons n ns ih =>
    obtain ⟨hn, hns⟩ := List.forall_mem_cons.1 h
    exact Nat.max_le.2 ⟨hn, ih hns⟩

end Node

/-- How deep elements are nested in the element, itself included. -/
def Element.nesting (e : Element) : Nat := e.node.nesting

theorem Name.depth_tree (name : Name) : name.tree.depth = 1 := by
  rw [tree, Tree.member]
  split <;> rfl

namespace Node

mutual

/-- An element takes two levels. -/
theorem depth_tree : ∀ n : Node, n.tree.depth = 2 * n.nesting
  | .text _ => rfl
  | .element name [] => by
    simp [tree, nesting, nestingAll, Tree.member, Tree.depth, Tree.depthMembers, Name.depth_tree]
  | .element name (n :: ns) => by
    have h := depthAll_trees (n :: ns)
    simp [tree, nesting, Tree.member, Tree.depth, Tree.depthMembers, Name.depth_tree, h]
    omega

theorem depthAll_trees : ∀ ns : List Node, Tree.depthAll (trees ns) = 2 * nestingAll ns
  | [] => rfl
  | n :: ns => by
    rw [trees, Tree.depthAll, nestingAll, depth_tree n, depthAll_trees ns]
    omega

end

theorem trees_eq_map (ns : List Node) : trees ns = ns.map tree := by
  induction ns with
  | nil => rfl
  | cons n ns ih => rw [trees, List.map_cons, ih]

end Node

theorem Namespace.holds_tree (space : Namespace) : shape.Holds space.tree space :=
    ⟨space.uri, rfl, rfl⟩

/-- The empty namespace is left out, and read from a name without one. -/
theorem Name.holds_tree (name : Name) : shape.Holds name.tree name := by
  refine ⟨by decide, _, (name.space, name.localName, ()), rfl, ?_, rfl⟩
  by_cases h : name.space.isNone
  · right
    refine ⟨Namespace.isNone_iff.1 h, .text name.localName, [], ?_, rfl, rfl⟩
    rw [Tree.member, if_pos h, List.nil_append]
  · left
    refine ⟨name.space.tree, _, ?_, name.space.holds_tree, .text name.localName, [], rfl, rfl, rfl⟩
    rw [Tree.member, if_neg h, List.singleton_append]

/-- An element is held by what is written for it, if every child is read back. -/
theorem Element.holds_tree {node? : Value → Option Node} (e : Element)
    (h : ∀ n ∈ e.children, node? n.tree.value = some n) :
    (shapeOver node?).Holds e.tree e := by
  obtain ⟨name, children⟩ := e
  have hd : ["name", "children"].Nodup := by decide
  have hc : List.Forall₂ (fun t n => node? t.value = some n) (Node.trees children) children := by
    rw [Node.trees_eq_map, List.forall₂_map_left_iff, List.forall₂_same]
    exact h
  refine ⟨hd, _, (name, children, ()), rfl, ?_, rfl⟩
  refine ⟨name.tree, _, rfl, name.holds_tree, ?_⟩
  cases children with
  | nil => exact .inr ⟨rfl, rfl⟩
  | cons n ns => exact .inl ⟨_, [], rfl, ⟨_, rfl, hc⟩, rfl⟩

namespace Node

theorem nesting_le_nestingAll {n : Node} {ns : List Node} (h : n ∈ ns) :
    n.nesting ≤ nestingAll ns := by
  induction ns with
  | nil => exact absurd h List.not_mem_nil
  | cons m ns ih =>
    rcases List.mem_cons.1 h with rfl | h
    · exact Nat.le_max_left ..
    · exact Nat.le_trans (ih h) (Nat.le_max_right ..)

/-- A text written in place of an element is not read as one. -/
theorem ofValueWithin_text (depth : Nat) (s : String) :
    ofValueWithin depth (.text s) = some (.text s) := by
  cases depth <;> rfl

/-- A node is read back wherever its elements may nest as deep as they do. -/
theorem ofValueWithin_tree (depth : Nat) (n : Node) (h : n.nesting ≤ depth) :
    ofValueWithin depth n.tree.value = some n := by
  induction depth generalizing n with
  | zero =>
    cases n with
    | text s => rfl
    | element name children => simp [nesting] at h
  | succ depth ih =>
    cases n with
    | text s => exact ofValueWithin_text _ s
    | element name children =>
      rw [nesting] at h
      have hc : ∀ n ∈ children, ofValueWithin depth n.tree.value = some n := fun n hn =>
        ih n (Nat.le_trans (nesting_le_nestingAll hn) (Nat.le_of_succ_le_succ h))
      have he := Shape.ofValue?_of_holds _ (Element.holds_tree ⟨name, children⟩ hc)
      rw [Element.tree, Element.node] at he
      rw [ofValueWithin, he]
      rfl

/-- **A node is read back from what is written for it.** -/
theorem ofValue?_tree (n : Node) : ofValue? n.tree.value = some n := by
  refine ofValueWithin_tree _ n ?_
  rw [Tree.depth_value, depth_tree]
  omega

end Node

/-- An element that is read takes two levels for each element that nests in it, if its
children do. -/
theorem Element.nesting_le_of_fits {node? : Value → Option Node} {levels : Nat} {e : Element}
    (hn : ∀ v n, node? v = some n → 2 * n.nesting ≤ v.depth) (h : (shapeOver node?).Fits levels e) :
    2 * e.nesting ≤ levels := by
  obtain ⟨⟨name, children, _⟩, ⟨hname, hchildren, -⟩, rfl⟩ := h
  obtain ⟨l, rfl, _, ⟨-, hlocal, -⟩, -⟩ :=
    hname.resolve_right (by simp [Shape.absent?, Name.shape])
  obtain ⟨k, rfl, -⟩ := hlocal.resolve_right (by simp [Shape.absent?])
  have hc : Node.nestingAll children ≤ k / 2 := by
    refine Node.nestingAll_le fun n hm => ?_
    rcases hchildren with ⟨_, he, hchildren⟩ | rfl
    · obtain rfl := Nat.succ.inj he
      obtain ⟨_, he, v, hv, hvn⟩ := hchildren n hm
      obtain rfl := Nat.succ.inj he
      have := hn v n hvn
      omega
    · exact absurd hm List.not_mem_nil
  change 2 * (Node.nestingAll children + 1) ≤ k + 1 + 1
  omega

namespace Node

/-- A node that a value stands for nests at most half as deep as the value. -/
theorem nesting_le_of_ofValueWithin {depth : Nat} {v : Value} {n : Node}
    (h : ofValueWithin depth v = some n) : 2 * n.nesting ≤ v.depth := by
  induction depth generalizing v n with
  | zero =>
    obtain ⟨s, -, rfl⟩ := Option.map_eq_some_iff.1 h
    exact Nat.zero_le _
  | succ depth ih =>
    rw [ofValueWithin] at h
    split at h
    · rename_i e he
      obtain rfl := Option.some.inj h
      exact Element.nesting_le_of_fits (fun v n => ih) (Shape.fits_of_ofValue? _ he)
    · obtain ⟨s, -, rfl⟩ := Option.map_eq_some_iff.1 h
      exact Nat.zero_le _

end Node

theorem Document.holds_tree (d : Document) : shape.Holds d.tree d := by
  have he := Element.holds_tree d.root fun n _ => Node.ofValue?_tree n
  exact ⟨by decide, _, (d.root, ()), rfl, ⟨_, [], rfl, he, rfl⟩, rfl⟩

theorem holds_texts (ss : List String) : (Shape.list .text).Holds (Tree.texts ss) ss :=
  Shape.holds_list fun _ _ => rfl

theorem depth_texts (ss : List String) : (Tree.texts ss).depth = 1 := by
  have h : Tree.depthAll (ss.map .text) ≤ 0 := Tree.depthAll_map_le (fun _ => Nat.le_refl 0) ss
  rw [Tree.texts, Tree.depth, Nat.le_zero.1 h]

namespace Project

/-- **What is written for a project holds the project**: its namespace is written even if it
is empty or that of the root element. -/
theorem holds_tree (p : Project) : shape.Holds p.tree p := by
  refine ⟨by decide, _, (p.frameworks, p.appendFramework, p.document, some p.space, ()),
    rfl, ?_, rfl⟩
  refine .inl ⟨_, _, rfl, holds_texts p.frameworks, .inl ⟨_, _, rfl, rfl, ?_⟩⟩
  exact ⟨_, _, rfl, p.document.holds_tree, _, [], rfl, ⟨_, p.space.holds_tree, rfl⟩, rfl⟩

theorem depth_tree (p : Project) : p.tree.depth = 2 * p.document.root.nesting + 2 := by
  simp only [tree, Document.tree, Element.tree, Tree.depth, Tree.depthMembers, depth_texts,
    Node.depth_tree, Namespace.tree]
  change max 1 (max 0 (max (max (2 * p.document.root.nesting) 0 + 1) (max 0 0))) + 1 = _
  omega

/-- **A project that was read is written with no more levels than it was read with.** -/
theorem depth_le_of_fits {levels : Nat} {p : Project} (h : shape.Fits levels p) :
    p.tree.depth ≤ levels := by
  obtain ⟨⟨frameworks, append, document, space, _⟩, ⟨-, -, hdocument, -⟩, rfl⟩ := h
  obtain ⟨l, rfl, ⟨root, _⟩, ⟨hroot, -⟩, rfl⟩ :=
    hdocument.resolve_right (by simp [Shape.absent?, Document.shape])
  obtain ⟨k, rfl, he⟩ :=
    hroot.resolve_right (by simp [Shape.absent?, Element.shape, Element.shapeOver])
  have : 2 * root.nesting ≤ k :=
    Element.nesting_le_of_fits (fun v n => Node.nesting_le_of_ofValueWithin) he
  rw [depth_tree]
  change 2 * root.nesting + 2 ≤ k + 1 + 1
  omega

/-- A project with much in it that a file could lose: elements in elements, texts between them,
empty texts and texts that look like other values, elements outside the namespace of the root, and
a namespace of its own, in which it declares a kind. -/
def layered : Project where
  frameworks := ["net45", "", "1.0"]
  appendFramework := true
  space := ⟨"urn:own"⟩
  document := ⟨⟨⟨.classic, "Project"⟩, [
    .text "\n  ",
    .element ⟨.classic, "PropertyGroup"⟩ [
      .element ⟨.classic, "TargetFrameworkVersion"⟩ [.text "4.10", .text "", .text "null"],
      .element ⟨⟨"urn:own"⟩, "ProjectTypeGuids"⟩ [
        .text " \x7bFAE04EC0-301F-11D3-BF4B-00C04F79EFBC\x7d; "]],
    .text "~ \"quoted\"",
    .element ⟨.none, "ItemGroup"⟩ [.element ⟨.none, "Compile"⟩ []],
    .text ""]⟩⟩

end Project

theorem Options.holds_tree (o : Options) : shape.Holds o.tree o := by
  refine ⟨by decide, _, (o.frameworks, o.appendFramework, ()), rfl, ?_, rfl⟩
  exact .inl ⟨_, _, rfl, holds_texts o.frameworks, .inl ⟨_, [], rfl, rfl, rfl⟩⟩

/-- Options are flat. -/
theorem Options.depth_tree (o : Options) : o.tree.depth = 2 := by
  simp [tree, Tree.depth, Tree.depthMembers, depth_texts]

end Retarget
