/-
# The value of an element ignores markup

The value of an element is made of the texts below it, in the order of their places
(`Node.placedTexts`), and of nothing else.  So it stays the same when the texts are marked up in
another way:

| edit, anywhere below the element | texts before | texts after |
| --- | --- | --- |
| a text is split in two | `ab` | `a`, `b` |
| nodes next to one another are put into a new element | `a`, `b` | `a`, `b` |
| an element is inserted that holds no text, or only empty ones | `a` | `a` |
| one of these edits is taken back | | |

The guard reads the value of the first declaration.  An edit below the declaration leaves it the
first one, since a document lists an element before what is below it; so a declaration may even be
inserted there.
-/

import Retarget.Proofs.Descendants
import Retarget.Proofs.FirstMatch
import Mathlib.Logic.Relation

namespace Retarget
namespace Node

/-! ### The texts and their places -/

mutual

/-- The texts of a node, each with its place, in document order. -/
def placedTexts : Node → List (List Nat × String)
  | .element _ children => placedTextsFrom 0 children
  | .text content => [([], content)]

/-- The texts of nodes that are children from number `i` on, each with its place. -/
def placedTextsFrom : (i : Nat) → List Node → List (List Nat × String)
  | _, [] => []
  | i, n :: ns => (placedTexts n).map (.map (i :: ·) id) ++ placedTextsFrom (i + 1) ns

end

/-- The place of a text among children begins with the number of a child. -/
theorem mem_placedTextsFrom {i : Nat} {ns : List Node} {place : List Nat} {s : String} :
    (place, s) ∈ placedTextsFrom i ns ↔
      ∃ j n below, ns[j]? = some n ∧ place = (i + j) :: below ∧ (below, s) ∈ n.placedTexts := by
  induction ns generalizing i with
  | nil => simp [placedTextsFrom]
  | cons n ns ih =>
    rw [placedTextsFrom, List.mem_append, List.mem_map, ih, exists_numbered_cons]
    refine or_congr_left ⟨fun ⟨⟨below, t⟩, hb, he⟩ => ?_, fun ⟨below, hp, hb⟩ => ?_⟩
    · obtain ⟨rfl, rfl⟩ := Prod.mk.inj he
      exact ⟨below, rfl, hb⟩
    · exact ⟨(below, s), hb, Prod.ext hp.symm rfl⟩

/-- **The placed texts are those that stand in the tree.** -/
theorem mem_placedTexts {n : Node} {place : List Nat} {s : String} :
    (place, s) ∈ n.placedTexts ↔ n.nodeAt? place = some (.text s) := by
  induction place generalizing n with
  | nil =>
    cases n with
    | element name children => simp [placedTexts, nodeAt?, mem_placedTextsFrom]
    | text content => simp [placedTexts, nodeAt?, eq_comm]
  | cons i below ih =>
    cases n with
    | element name children =>
      simp only [placedTexts, mem_placedTextsFrom, nodeAt?, Option.bind_eq_some_iff, Nat.zero_add,
        List.cons.injEq]
      constructor
      · rintro ⟨j, m, below', hm, ⟨rfl, rfl⟩, hb⟩
        exact ⟨m, hm, ih.1 hb⟩
      · rintro ⟨m, hm, hs⟩
        exact ⟨i, m, below, hm, ⟨rfl, rfl⟩, ih.2 hs⟩
    | text content => simp [placedTexts, nodeAt?]

mutual

/-- **The placed texts are in document order.** -/
theorem pairwise_placedTexts : ∀ n : Node, (n.placedTexts.map Prod.fst).Pairwise (· < ·)
  | .element _ children => pairwise_placedTextsFrom 0 children
  | .text _ => .cons nofun .nil

/-- The texts below children are in document order. -/
theorem pairwise_placedTextsFrom : ∀ (i : Nat) (ns : List Node),
    ((placedTextsFrom i ns).map Prod.fst).Pairwise (· < ·)
  | _, [] => .nil
  | i, n :: ns => by
    have hmap : ((placedTexts n).map (.map (i :: ·) id)).map Prod.fst =
        ((placedTexts n).map Prod.fst).map (i :: ·) := by
      rw [List.map_map, List.map_map]
      rfl
    rw [placedTextsFrom, List.map_append, hmap]
    refine pairwise_numbered (pairwise_placedTexts n) (pairwise_placedTextsFrom (i + 1) ns)
      fun place h => ?_
    obtain ⟨⟨_, s⟩, ht, rfl⟩ := List.mem_map.1 h
    obtain ⟨j, m, rest, -, hp, -⟩ := mem_placedTextsFrom.1 ht
    exact ⟨j, rest, hp⟩

end

mutual

/-- Without their places, the placed texts are the texts. -/
theorem map_snd_placedTexts : ∀ n : Node, n.placedTexts.map Prod.snd = n.texts
  | .element _ children => map_snd_placedTextsFrom 0 children
  | .text _ => rfl

theorem map_snd_placedTextsFrom : ∀ (i : Nat) (ns : List Node),
    (placedTextsFrom i ns).map Prod.snd = textsAll ns
  | _, [] => rfl
  | i, n :: ns => by
    rw [placedTextsFrom, textsAll, List.map_append, List.map_map, map_snd_placedTextsFrom,
      ← map_snd_placedTexts]
    rfl

end

/-! ### Edits of the markup -/

/-- Nodes with empty texts only have no value. -/
theorem valueAll_eq_empty {ns : List Node} (h : ∀ s ∈ textsAll ns, s = "") : valueAll ns = "" := by
  rw [← String.toList_inj, toList_valueAll]
  exact List.flatMap_eq_nil_iff.2 fun s hs => by rw [h s hs]; rfl

/-- The second list of nodes is the first one with one edit of its markup, at any depth. -/
inductive MarkedUp : List Node → List Node → Prop
  /-- A text is split in two. -/
  | split (before after : List Node) (s t : String) :
    MarkedUp (before ++ .text (s ++ t) :: after) (before ++ .text s :: .text t :: after)
  /-- Nodes next to one another are put into a new element. -/
  | wrap (before run after : List Node) (name : Name) :
    MarkedUp (before ++ run ++ after) (before ++ .element name run :: after)
  /-- An element without text is inserted. -/
  | insert (before after : List Node) (name : Name) (children : List Node)
    (h : ∀ s ∈ textsAll children, s = "") :
    MarkedUp (before ++ after) (before ++ .element name children :: after)
  /-- The edit is inside one of the nodes. -/
  | inside (before after : List Node) (name : Name) {children children' : List Node}
    (h : MarkedUp children children') :
    MarkedUp (before ++ .element name children :: after)
      (before ++ .element name children' :: after)

/-- The nodes differ in their markup only: any number of edits leads from the ones to the others,
each made or taken back. -/
def SameText : List Node → List Node → Prop := Relation.EqvGen MarkedUp

/-- An edit of the markup keeps the value. -/
theorem MarkedUp.valueAll_eq {ns ms : List Node} (h : MarkedUp ns ms) :
    valueAll ns = valueAll ms := by
  induction h with
  | split before after s t => simp only [valueAll_append, valueAll, value, String.append_assoc]
  | wrap before run after name =>
    simp only [valueAll_append, valueAll, value, String.append_assoc]
  | insert before after name children h =>
    simp only [valueAll_append, valueAll, value, valueAll_eq_empty h, String.empty_append]
  | inside before after name h ih => simp only [valueAll_append, valueAll, value, ih]

/-- **Nodes that differ in their markup only have the same value.** -/
theorem SameText.valueAll_eq {ns ms : List Node} (h : SameText ns ms) :
    valueAll ns = valueAll ms :=
  congrArg (Quot.lift valueAll fun _ _ h => h.valueAll_eq) (Quot.eqvGen_sound h)

end Node

/-- **The value of an element ignores markup, and so does the guard.**  The value is made of the
texts below the element, in the order of their places.  It stays the same when texts are split or
run together, when nodes are put into new elements or taken out of them, and when elements without
text come or go, anywhere below the element and with any names.  Such edits below the first
declaration of a project's kinds do not change what the guard finds. -/
theorem value_ignores_markup :
    (∀ e : Element, ∃ found : List (List Nat × String), (found.map Prod.fst).Pairwise (· < ·) ∧
      (∀ place s, (place, s) ∈ found ↔ e.node.nodeAt? place = some (.text s)) ∧
      e.value = String.join (found.map Prod.snd)) ∧
    (∀ (e : Element) (children : List Node), Node.SameText e.children children →
      (Element.mk e.name children).value = e.value) ∧
    (∀ (p : Project) (ls : Surroundings) (e : Element) (children : List Node),
      p.document.FirstAt ls e → e.name = ⟨p.space, kindsElement⟩ →
      Node.SameText e.children children →
        (p.withRoot (ls.around ⟨e.name, children⟩)).unsupportedKind = p.unsupportedKind) := by
  have hvalue : ∀ (e : Element) (children : List Node), Node.SameText e.children children →
      (Element.mk e.name children).value = e.value := fun e children h => h.valueAll_eq.symm
  refine ⟨fun e => ⟨e.node.placedTexts, e.node.pairwise_placedTexts,
    fun place s => Node.mem_placedTexts, ?_⟩, hvalue, fun p ls e children h hn hs => ?_⟩
  · rw [← String.toList_inj, String.toList_join, Node.map_snd_placedTexts, Element.value,
      Node.toList_valueAll]
    rfl
  · have hp : p.findElement kindsElement = some e := Document.first?_eq_some_iff.2 ⟨hn, ls, h⟩
    -- what is passed on the way does not depend on what is below the declaration
    have hq : (p.withRoot (ls.around ⟨e.name, children⟩)).findElement kindsElement =
        some ⟨e.name, children⟩ :=
      Document.first?_eq_some_iff.2 ⟨hn, ls, rfl, h.passes⟩
    rw [Project.unsupportedKind_of_findElement hp, Project.unsupportedKind_of_findElement hq,
      hvalue e children hs]

/-- A declared GUID is cut in two, its second half is put into a declaration of its own, and an
element is inserted in front. -/
theorem value_ignores_markup_nested :
    let kinds : Name := ⟨.classic, kindsElement⟩
    let left := "\x7b603C0E0B-DB56-"
    let right := "11DC-BE95-000D561079B0\x7d"
    let e : Element := ⟨kinds, [.text (left ++ right)]⟩
    let edited : Element :=
      ⟨kinds, [.element ⟨.none, "Note"⟩ [], .text left, .element kinds [.text right]]⟩
    let ls : Surroundings := [⟨⟨.classic, "Project"⟩, [], []⟩]
    let p : Project := .ofDocument ⟨ls.around e⟩ .classic
    edited.value = left ++ right ∧
      (p.withRoot (ls.around edited)).unsupportedKind =
        some ⟨braced "603C0E0B-DB56-11DC-BE95-000D561079B0", "ASP.NET MVC 1"⟩ := by
  intro kinds left right e edited ls p
  obtain ⟨-, hv, hg⟩ := value_ignores_markup
  have hs : Node.SameText e.children edited.children :=
    .trans _ _ _ (.rel _ _ (.split [] [] left right))
      (.trans _ _ _ (.rel _ _ (.wrap [.text left] [.text right] [] kinds))
        (.rel _ _ (.insert [] _ ⟨.none, "Note"⟩ [] nofun)))
  have hp : p.document.FirstAt ls e := ⟨rfl, by decide⟩
  have hk : p.unsupportedKind =
      some ⟨braced "603C0E0B-DB56-11DC-BE95-000D561079B0", "ASP.NET MVC 1"⟩ := by decide +kernel
  exact ⟨(hv e _ hs).trans (String.append_empty ..), (hg p ls e _ hp rfl hs).trans hk⟩

end Retarget
