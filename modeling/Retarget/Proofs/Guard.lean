/-
# The guard decides its specification

What it means that a project declares an unsupported kind, said without the walk, the
cutting, the trimming and the search that the guard consists of (`Project.Declares`):

* of the elements in document order, the root included, the first one named
  `ProjectTypeGuids` in the project's namespace is the declaration;
* its text, every text below it run together, is cut at every semicolon into tokens;
* a token names a kind of the denylist if, without the white space at its ends, it is the
  kind's GUID letter by letter up to ASCII case (`NamesKind`);
* the leftmost token that names any kind decides.

A project declares at most one kind, since the GUIDs of the denylist differ in more than
letter case.
-/

import Retarget.Guard
import Retarget.Proofs.DocumentOrder
import Retarget.Proofs.Text
import Mathlib.Data.List.Nodup

namespace Retarget

/-- The token is, but for white space around it and ASCII letter case, the GUID of the
kind, which is one of the denylist. -/
def NamesKind (token : List Char) (kind : ProjectKind) : Prop :=
  kind ∈ denylist ∧ ∃ core, Text.IsCore token core ∧
    List.Forall₂ Text.SameLetter kind.guid.toList core

/-- The element is the first one in document order with the name that declares kinds. -/
def Project.IsDeclaration (p : Project) (e : Element) : Prop :=
  ∃ before after, p.document.root.node.preorder = before ++ e :: after ∧
    e.name = ⟨p.space, kindsElement⟩ ∧ ∀ f ∈ before, f.name ≠ ⟨p.space, kindsElement⟩

/-- The leftmost token of the project's declaration that names a kind names this one. -/
def Project.Declares (p : Project) (kind : ProjectKind) : Prop :=
  ∃ e, p.IsDeclaration e ∧ ∃ tokens,
    Text.IsCut ';' ((Node.textsAll e.children).flatMap String.toList) tokens ∧
      ∃ before token after, tokens = before ++ token :: after ∧ NamesKind token kind ∧
        ∀ t ∈ before, ∀ k, ¬ NamesKind t k

/-- No two GUIDs of the denylist are the same up to letter case. -/
theorem nodup_denylist_fold : (denylist.map fun k => k.guid.toList.map Text.fold).Nodup := by decide

/-- Kinds with agreeing GUIDs are the same kind. -/
theorem eq_of_agrees {k l : ProjectKind} (hk : k ∈ denylist) (hl : l ∈ denylist) {guid : List Char}
    (h : Text.agrees k.guid.toList guid) (h' : Text.agrees l.guid.toList guid) : k = l :=
  List.inj_on_of_nodup_map nodup_denylist_fold hk hl
    ((Text.agrees_iff.1 h).trans (Text.agrees_iff.1 h').symm)

/-- **The lookup finds the kind whose GUID agrees**, and there is at most one. -/
theorem unsupportedKind?_eq_some_iff {guid : List Char} {kind : ProjectKind} :
    unsupportedKind? guid = some kind ↔ kind ∈ denylist ∧ Text.agrees kind.guid.toList guid := by
  constructor
  · intro h
    exact ⟨List.mem_of_find?_eq_some h,
      List.find?_some (p := fun k : ProjectKind => Text.agrees k.guid.toList guid) h⟩
  · rintro ⟨hk, ha⟩
    obtain ⟨l, hl⟩ := Option.isSome_iff_exists.1
      ((List.find?_isSome (p := fun k : ProjectKind => Text.agrees k.guid.toList guid)).2
        ⟨kind, hk, ha⟩)
    have hp := List.find?_some (p := fun k : ProjectKind => Text.agrees k.guid.toList guid) hl
    rw [unsupportedKind?, hl, eq_of_agrees (List.mem_of_find?_eq_some hl) hk hp ha]

/-- The lookup of a trimmed token finds the kind that the token names. -/
theorem unsupportedKind?_trim_iff {token : List Char} {kind : ProjectKind} :
    unsupportedKind? (Text.trim token) = some kind ↔ NamesKind token kind := by
  rw [unsupportedKind?_eq_some_iff, NamesKind]
  refine and_congr_right fun _ => ?_
  constructor
  · exact fun h => ⟨_, Text.isCore_trim token, Text.agrees_iff_forall₂.1 h⟩
  · rintro ⟨core, hc, hs⟩
    rw [← Text.isCore_iff.1 hc]
    exact Text.agrees_iff_forall₂.2 hs

/-- **The leftmost token that names a kind decides**, whatever its place in the
denylist. -/
theorem kindDeclaredBy_eq_some_iff {declared : String} {kind : ProjectKind} :
    kindDeclaredBy declared = some kind ↔ ∃ before token after,
      Text.pieces ';' declared.toList = before ++ token :: after ∧ NamesKind token kind ∧
        ∀ t ∈ before, ∀ k, ¬ NamesKind t k := by
  rw [kindDeclaredBy, List.findSome?_map, List.findSome?_eq_some_iff]
  simp only [Function.comp_apply, ← unsupportedKind?_trim_iff, Option.eq_none_iff_forall_ne_some,
    ne_eq]

/-- The lookup of a declaration finds the first one in document order. -/
theorem Project.findElement_kindsElement_iff {p : Project} {e : Element} :
    p.findElement kindsElement = some e ↔ p.IsDeclaration e := by
  rw [findElement, Document.first?_eq_find?, List.find?_eq_some_iff_append, IsDeclaration]
  simp only [decide_eq_true_eq, Bool.not_eq_true', decide_eq_false_iff_not]
  exact ⟨fun ⟨hn, as, bs, he, ha⟩ => ⟨as, bs, he, hn, ha⟩,
    fun ⟨as, bs, he, hn, ha⟩ => ⟨hn, as, bs, he, ha⟩⟩

/-- The declared text is that of the first declaration in document order. -/
theorem Project.declaredKinds_eq_some_iff {p : Project} {s : String} :
    p.declaredKinds = some s ↔ ∃ e, p.IsDeclaration e ∧ e.value = s := by
  rw [declaredKinds, Option.map_eq_some_iff]
  simp only [findElement_kindsElement_iff]

/-- For a project with a declaration the guard's answer depends on the declared text alone. -/
theorem Project.unsupportedKind_of_findElement {p : Project} {e : Element}
    (h : p.findElement kindsElement = some e) : p.unsupportedKind = kindDeclaredBy e.value := by
  rw [unsupportedKind, declaredKinds, h]
  rfl

/-- The guard finds a kind exactly where one is declared. -/
theorem Project.unsupportedKind_eq_some_iff {p : Project} {kind : ProjectKind} :
    p.unsupportedKind = some kind ↔ p.Declares kind := by
  rw [unsupportedKind, Option.bind_eq_some_iff]
  simp only [declaredKinds_eq_some_iff, kindDeclaredBy_eq_some_iff, Declares]
  constructor
  · rintro ⟨s, ⟨e, he, rfl⟩, before, token, after, ht, h⟩
    refine ⟨e, he, _, Text.isCut_iff.2 rfl, before, token, after, ?_, h⟩
    rw [← ht, Element.value, Node.toList_valueAll]
  · rintro ⟨e, he, tokens, hc, before, token, after, ht, h⟩
    refine ⟨_, ⟨e, he, rfl⟩, before, token, after, ?_, h⟩
    rw [← ht, Text.isCut_iff.1 hc, Element.value, Node.toList_valueAll]

/-- **The guard decides its specification.**  It finds a kind exactly where the project
declares one, finds none in every other case, and the check of a project that is present
says the same. -/
theorem guard_decides (p : Project) :
    (∀ kind, p.unsupportedKind = some kind ↔ p.Declares kind) ∧
      (p.unsupportedKind = none ↔ ∀ kind, ¬ p.Declares kind) ∧
      (checkSupport (some p) = .ok true ↔ ∃ kind, p.Declares kind) ∧
      (checkSupport (some p) = .ok false ↔ p.unsupportedKind = none) := by
  have h : ∀ kind, p.unsupportedKind = some kind ↔ p.Declares kind := fun kind =>
    Project.unsupportedKind_eq_some_iff
  refine ⟨h, ?_, ?_, ?_⟩
  · rw [Option.eq_none_iff_forall_ne_some]
    simp only [ne_eq, h]
  · simp only [← h, checkSupport, Project.isUnsupported, Except.ok.injEq, Option.isSome_iff_exists]
  · simp only [checkSupport, Project.isUnsupported, Except.ok.injEq, Option.isSome_eq_false_iff,
      Option.isNone_iff_eq_none]

end Retarget
