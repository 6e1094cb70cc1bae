/-
# Snapshots in JSON are read back

What is written for a project is read back as the project, or nests too deep to be read at
all.  The bound is exact: `62` elements may nest, since a project takes two levels more
than twice the nesting of its elements and `127` are left at the start of a text.  Nothing
that was read from a text comes near it from the wrong side.
-/

import Retarget.Proofs.Json.Limit
import Retarget.Proofs.Snapshot

namespace Retarget
namespace Json

mutual

/-- Each value is written with at least one character. -/
theorem size_le_length_write : ∀ (t : Tree) (level : Nat) (rest : List Char),
    t.size + rest.length ≤ (write level t rest).length
  | .text s, level, rest => by
    rw [write, encode_append]
    simp only [Tree.size, List.length_cons, List.length_append]
    omega
  | .flag b, level, rest => by
    cases b <;> simp [write, Tree.size] <;> omega
  | .list [], level, rest => by
    simp [write, Tree.size, Tree.sizeAll]
    omega
  | .list (t :: ts), level, rest => by
    have h1 := size_le_length_write t (level + 1) (writeItems level ts rest)
    have h2 := sizeAll_le_length_writeItems ts level rest
    simp only [write, Tree.size, Tree.sizeAll, List.length_cons, List.length_append]
    omega
  | .record [], level, rest => by
    simp [write, Tree.size, Tree.sizeMembers]
    omega
  | .record ((key, t) :: ms), level, rest => by
    have h1 := size_le_length_write t (level + 1) (writeMembers level ms rest)
    have h2 := sizeMembers_le_length_writeMembers ms level rest
    simp only [write, Tree.size, Tree.sizeMembers, List.length_cons, List.length_append]
    omega

theorem sizeAll_le_length_writeItems : ∀ (ts : List Tree) (level : Nat) (rest : List Char),
    Tree.sizeAll ts + rest.length ≤ (writeItems level ts rest).length
  | [], level, rest => by
    simp only [writeItems, Tree.sizeAll, List.length_append, List.length_cons]
    omega
  | t :: ts, level, rest => by
    have h1 := size_le_length_write t (level + 1) (writeItems level ts rest)
    have h2 := sizeAll_le_length_writeItems ts level rest
    simp only [writeItems, Tree.sizeAll, List.length_append, List.length_cons]
    omega

theorem sizeMembers_le_length_writeMembers :
    ∀ (ms : List (String × Tree)) (level : Nat) (rest : List Char),
    Tree.sizeMembers ms + rest.length ≤ (writeMembers level ms rest).length
  | [], level, rest => by
    simp only [writeMembers, Tree.sizeMembers, List.length_append, List.length_cons]
    omega
  | (key, t) :: ms, level, rest => by
    have h1 := size_le_length_write t (level + 1) (writeMembers level ms rest)
    have h2 := sizeMembers_le_length_writeMembers ms level rest
    simp only [writeMembers, Tree.sizeMembers, List.length_append, List.length_cons]
    omega

end

/-- A tree that a shape holds is read back from its text, unless it is too deep. -/
theorem read_render_of_holds {α : Type} {shape : Shape α} {t : Tree} {x : α} (h : shape.Holds t x) :
    read shape (render t) = .ok x ∨
      depthLimit < t.depth ∧ ∃ left, read shape (render t) = .error (.broken .tooDeep left) := by
  have hz := size_le_length_write t 0 []
  have hr : ReadsAs depthLimit t.depth
      (Shape.read ((write 0 t []).length + 1) shape depthLimit (write 0 t [])) x [] :=
    Shape.read_write shape h (by simpa using Nat.le_succ_of_le hz) (skipBlank_write 0 t [])
  rw [read, render, String.toList_ofList]
  rcases hr with hr | ⟨hl, left, hr⟩
  · left
    simp only [hr]
    rfl
  · exact .inr ⟨hl, left, by simp only [hr]⟩

/-- A tree that is not too deep is read back. -/
theorem read_render_of_depth {α : Type} {shape : Shape α} {t : Tree} {x : α} (h : shape.Holds t x)
    (hd : t.depth ≤ depthLimit) : read shape (render t) = .ok x :=
  (read_render_of_holds h).resolve_right fun ⟨hl, _⟩ => absurd hd (Nat.not_le.2 hl)

/-- What is read from a text fits the levels at its start. -/
theorem fits_of_read {α : Type} {shape : Shape α} {text : String} {x : α}
    (h : read shape text = .ok x) :
    shape.Fits depthLimit x := by
  have hy := Shape.read_yields (text.toList.length + 1) shape depthLimit text.toList
  simp only [read] at h
  split at h
  · simp at h
  · rename_i y rest hr
    split at h
    · obtain rfl : y = x := by simpa using h
      exact hy.of_ok y rest hr
    · simp [stop] at h

/-- No more than `62` elements nest in what was read. -/
theorem nesting_le_of_read {text : String} {p : Project} (h : read Project.shape text = .ok p) :
    p.document.root.nesting ≤ 62 := by
  have hl : p.tree.depth ≤ 127 := Project.depth_le_of_fits (fits_of_read h)
  have hd := p.depth_tree
  omega

/-- A project is read back from its text just if no more than `62` of its elements nest. -/
theorem read_render_eq_ok_iff (p : Project) :
    read Project.shape (render p.tree) = .ok p ↔ p.document.root.nesting ≤ 62 := by
  refine ⟨nesting_le_of_read, fun h => read_render_of_depth p.holds_tree ?_⟩
  have hd := p.depth_tree
  have hl : depthLimit = 127 := rfl
  omega

/-- **A project that is written as JSON is read back**, whatever its texts and however its
elements and texts are mixed, or its elements nest too deep for any reading.  It is read
back if it was read from some text before, and if at most `50` elements nest. -/
theorem read_render_project (p : Project) :
    (read Project.shape (render p.tree) = .ok p ∨
      ∃ left, read Project.shape (render p.tree) = .error (.broken .tooDeep left)) ∧
    ((∃ text, read Project.shape text = .ok p) → read Project.shape (render p.tree) = .ok p) ∧
    (p.document.root.nesting ≤ 50 → read Project.shape (render p.tree) = .ok p) := by
  refine ⟨(read_render_of_holds p.holds_tree).imp_right (·.2), ?_, fun h => ?_⟩
  · rintro ⟨text, h⟩
    refine (read_render_of_holds p.holds_tree).resolve_right fun ⟨hl, _⟩ => ?_
    exact absurd (Project.depth_le_of_fits (fits_of_read h)) (Nat.not_le.2 hl)
  · exact (read_render_eq_ok_iff p).2 (Nat.le_trans h (by decide))

theorem read_render_layered_project :
    Project.layered.document.root.nesting = 3 ∧
      read Project.shape (render Project.layered.tree) = .ok .layered :=
  ⟨by decide, (read_render_project .layered).2.2 (by decide)⟩

end Json
end Retarget
