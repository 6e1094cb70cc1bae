/-
# Snapshots and options in YAML are read back

What is written for options is read back as the options.  What is written for a project is
read back as the project, or nests too deep to be read at all; `63` elements may nest, since
a project takes two levels more than twice the nesting of its elements and there are `128`.
Nothing that was read from a text comes near the bound from the wrong side.
-/

import Retarget.Proofs.Snapshot
import Retarget.Proofs.Yaml.Limit

namespace Retarget
namespace Yaml

/-! ### Names -/

/-- The names of all members that are written for projects and options. -/
def memberNames : List String :=
  [frameworksKey, appendKey, "document", "root", "name", "children", "namespace", "local_name"]

/-- Names of word characters, none of them too long, are names. -/
theorem isName_of_forall {names : List String} (hn : ∀ k ∈ names, k.toList ≠ [])
    (hk : ∀ k ∈ names, k.toList.all (fun c => c.isAlphanum || c = '_') = true)
    (hl : ∀ k ∈ names, k.toList.length ≤ 1024)
    (ht : ∀ k ∈ names, (Resolve.untagged k).isText = true) {key : String} (h : key ∈ names) :
    IsName key :=
  ⟨⟨hn key h, List.all_eq_true.1 (hk key h), hl key h⟩, ht key h⟩

theorem isName_of_mem {key : String} (h : key ∈ memberNames) : IsName key :=
  isName_of_forall (by decide) (by decide) (by decide) (by decide) h

theorem named_record {ms : List (String × Tree)} (h : ∀ m ∈ ms, m.1 ∈ memberNames ∧ m.2.Named) :
    (Tree.record ms).Named :=
  .record (fun m hm => isName_of_mem (h m hm).1) fun m hm => (h m hm).2

theorem named_name (name : Name) : name.tree.Named := by
  rw [Name.tree, Tree.member]
  split
  · exact named_record (by simp [memberNames, Tree.Named.text])
  · exact named_record (by simp [memberNames, Tree.Named.text, Namespace.tree])

mutual

theorem named_node : ∀ n : Node, n.tree.Named
  | .text s => .text s
  | .element name [] => named_record (by simp [memberNames, Tree.member, named_name])
  | .element name (n :: ns) => named_record (by
      simp [memberNames, Tree.member, named_name, Tree.Named.list (named_nodes (n :: ns))])

theorem named_nodes : ∀ ns : List Node, ∀ t ∈ Node.trees ns, t.Named
  | [] => fun _ h => absurd h List.not_mem_nil
  | n :: ns => List.forall_mem_cons.2 ⟨named_node n, named_nodes ns⟩

end

theorem named_texts (ss : List String) : (Tree.texts ss).Named := by
  refine .list fun t ht => ?_
  obtain ⟨s, -, rfl⟩ := List.mem_map.1 ht
  exact .text s

theorem named_project (p : Project) : p.tree.Named := by
  have hd : p.document.tree.Named := named_record (by simp [memberNames, named_node, Element.tree])
  exact named_record (by
    simp [memberNames, named_texts, Tree.Named.flag, hd, Namespace.tree, Tree.Named.text])

theorem named_options (o : Options) : o.tree.Named :=
  named_record (by simp [memberNames, named_texts, Tree.Named.flag])

/-! ### Documents -/

mutual

/-- Each value has at least one piece. -/
theorem size_le_length_pieces : ∀ t : Tree, t.size ≤ (pieces t).length
  | .text s => Nat.le_refl _
  | .flag b => Nat.le_refl _
  | .list ts => by
    have := sizeAll_le_length_itemPieces ts
    simp only [pieces, Tree.size, List.length_cons, List.length_append, List.length_nil]
    omega
  | .record ms => by
    have := sizeMembers_le_length_memberPieces ms
    simp only [pieces, Tree.size, List.length_cons, List.length_append, List.length_nil]
    omega

theorem sizeAll_le_length_itemPieces : ∀ ts : List Tree, Tree.sizeAll ts ≤ (itemPieces ts).length
  | [] => Nat.le_refl _
  | t :: ts => by
    have := size_le_length_pieces t
    have := sizeAll_le_length_itemPieces ts
    simp only [itemPieces, Tree.sizeAll, List.length_append]
    omega

theorem sizeMembers_le_length_memberPieces : ∀ ms : List (String × Tree),
    Tree.sizeMembers ms ≤ (memberPieces ms).length
  | [] => Nat.le_refl _
  | (key, t) :: ms => by
    have := size_le_length_pieces t
    have := sizeMembers_le_length_memberPieces ms
    simp only [memberPieces, Tree.sizeMembers, List.length_append, List.length_cons]
    omega

end

/-- A record that a shape holds is read back from its text, unless it is too deep. -/
theorem read_render_of_holds {α : Type} {shape : Shape α} {m : String × Tree}
    {ms : List (String × Tree)} {x : α}
    (h : shape.Holds (.record (m :: ms)) x) (hn : (Tree.record (m :: ms)).Named) :
    read shape (render (.record (m :: ms))) = .ok x ∨
      depthLimit < (Tree.record (m :: ms)).depth ∧
        ∃ mark, read shape (render (.record (m :: ms))) = .error (.tooDeep mark) := by
  obtain ⟨l, hl, hs⟩ := ofText_render hn
  have hz : (Tree.record (m :: ms)).size < (Stream.mk l l.length [] none false).size := by
    have := size_le_length_pieces (.record (m :: ms))
    rw [← hl, List.length_map] at this
    exact Nat.lt_succ_of_le this
  have hr : ReadsAs depthLimit (Tree.record (m :: ms)).depth
      (Shape.read ⟨l, l.length, [], none, false⟩ shape depthLimit .root ⟨l ++ [], 0⟩) x ⟨[], 0⟩ :=
    Shape.read_pieces shape h hn hz hl
  rw [List.append_nil] at hr
  rw [read, hs, Stream.read]
  rcases hr with hr | ⟨hd, mark, hr⟩
  · left
    simp only [hr]
    rfl
  · exact .inr ⟨hd, mark, by simp only [hr]⟩

/-- What is read from a text fits the levels at its start. -/
theorem fits_of_read {α : Type} {shape : Shape α} {text : String} {x : α}
    (h : read shape text = .ok x) :
    shape.Fits depthLimit x := by
  have hy := Shape.read_yields (Stream.ofText text) shape depthLimit .root
    ⟨(Stream.ofText text).pieces, 0⟩
  rw [read, Stream.read] at h
  split at h
  · exact nomatch h
  · rename_i y rest hr
    split at h
    · exact nomatch h
    · exact nomatch h
    · split at h
      · exact nomatch h
      · obtain rfl := Except.ok.inj h
        exact hy.of_ok y rest hr

/-- Options are read back from their text: they never nest too deep. -/
theorem read_render_options (o : Options) : read Options.shape (render o.tree) = .ok o := by
  refine (read_render_of_holds o.holds_tree (named_options o)).resolve_right fun ⟨hl, _⟩ => ?_
  have hl : 128 < o.tree.depth := hl
  rw [o.depth_tree] at hl
  omega

theorem read_render_project_or (p : Project) :
    read Project.shape (render p.tree) = .ok p ∨
      depthLimit < p.tree.depth ∧ ∃ mark, read Project.shape (render p.tree) =
        .error (.tooDeep mark) :=
  read_render_of_holds p.holds_tree (named_project p)

/-- No more than `63` elements nest in what was read. -/
theorem nesting_le_of_read {text : String} {p : Project} (h : read Project.shape text = .ok p) :
    p.document.root.nesting ≤ 63 := by
  have hl : p.tree.depth ≤ 128 := Project.depth_le_of_fits (fits_of_read h)
  have hd := p.depth_tree
  omega

/-- A project is read back from its text just if no more than `63` of its elements nest. -/
theorem read_render_eq_ok_iff (p : Project) :
    read Project.shape (render p.tree) = .ok p ↔ p.document.root.nesting ≤ 63 := by
  refine ⟨nesting_le_of_read, fun h => ?_⟩
  refine (read_render_project_or p).resolve_right fun ⟨hl, _⟩ => ?_
  have hl : 128 < p.tree.depth := hl
  have := p.depth_tree
  omega

/-- **Options that are written as YAML are read back**, and so is a project, whatever their
texts and however elements and texts are mixed in it; or its elements nest too deep for any
reading.  A project is read back if it was read from some text before, and if at most `50`
of its elements nest. -/
theorem read_render_options_project (o : Options) (p : Project) :
    read Options.shape (render o.tree) = .ok o ∧
    (read Project.shape (render p.tree) = .ok p ∨
      ∃ mark, read Project.shape (render p.tree) = .error (.tooDeep mark)) ∧
    ((∃ text, read Project.shape text = .ok p) → read Project.shape (render p.tree) = .ok p) ∧
    (p.document.root.nesting ≤ 50 → read Project.shape (render p.tree) = .ok p) := by
  refine ⟨read_render_options o, (read_render_project_or p).imp_right (·.2), ?_, fun h => ?_⟩
  · rintro ⟨text, h⟩
    refine (read_render_project_or p).resolve_right fun ⟨hl, _⟩ => ?_
    exact absurd (Project.depth_le_of_fits (fits_of_read h)) (Nat.not_le.2 hl)
  · exact (read_render_eq_ok_iff p).2 (Nat.le_trans h (by decide))

theorem read_render_options_layered_project :
    let o : Options := ⟨["net8.0", "1e3", "- x\ny"], false⟩
    read Options.shape (render o.tree) = .ok o ∧
      Project.layered.document.root.nesting = 3 ∧
      read Project.shape (render Project.layered.tree) = .ok .layered := by
  intro o
  obtain ⟨ho, -, -, hp⟩ := read_render_options_project o .layered
  exact ⟨ho, by decide, hp (by decide)⟩

end Yaml
end Retarget
