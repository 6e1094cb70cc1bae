/-
# Trees of data and the values they are read back as

A tree that is written and read as a value of whatever kind is read as `Tree.value`, which
is as deep as the tree (`Tree.depth_value`).  The size of a tree bounds how often a reader
calls itself on it.
-/

import Retarget.Data.Tree
import Retarget.Data.Value
import Mathlib.Data.List.Forall2

namespace Retarget
namespace Tree

mutual

/-- What is read when the tree has been written. -/
def value : Tree → Value
  | text s => .text s
  | flag b => .flag b
  | list items => .list (values items)
  | record members => .map (memberValues members)

/-- What is read when the trees have been written. -/
def values : List Tree → List Value
  | [] => []
  | t :: ts => value t :: values ts

/-- What is read when the members have been written. -/
def memberValues : List (String × Tree) → List (Value × Value)
  | [] => []
  | (key, t) :: ms => (.text key, value t) :: memberValues ms

end

mutual

/-- How deep lists and records are nested in the tree. -/
def depth : Tree → Nat
  | text _ => 0
  | flag _ => 0
  | list items => depthAll items + 1
  | record members => depthMembers members + 1

/-- The greatest depth among the trees. -/
def depthAll : List Tree → Nat
  | [] => 0
  | t :: ts => max (depth t) (depthAll ts)

/-- The greatest depth among the members. -/
def depthMembers : List (String × Tree) → Nat
  | [] => 0
  | (_, t) :: ms => max (depth t) (depthMembers ms)

end

mutual

/-- Writing and reading keeps the depth. -/
theorem depth_value : ∀ t : Tree, t.value.depth = t.depth
  | text _ => rfl
  | flag _ => rfl
  | list items => by rw [value, depth, Value.depth, depthAll_values items]
  | record members => by rw [value, depth, Value.depth, depthMembers_memberValues members]

theorem depthAll_values : ∀ ts : List Tree, Value.depthAll (values ts) = depthAll ts
  | [] => rfl
  | t :: ts => by rw [values, depthAll, Value.depthAll, depth_value t, depthAll_values ts]

theorem depthMembers_memberValues : ∀ ms : List (String × Tree),
    Value.depthMembers (memberValues ms) = depthMembers ms
  | [] => rfl
  | (key, t) :: ms => by
    rw [memberValues, depthMembers, Value.depthMembers, depth_value t, depthMembers_memberValues ms]
    exact congrArg (max · (depthMembers ms)) (Nat.zero_max _)

end

/-- The names in a value that was read are those that were written. -/
theorem map_fst_memberValues (ms : List (String × Tree)) :
    (memberValues ms).map Prod.fst = (ms.map Prod.fst).map Value.text := by
  induction ms with
  | nil => rfl
  | cons m ms ih => rw [memberValues, List.map_cons, ih]; rfl

/-- A bound on the depth of each tree bounds that of all. -/
theorem depthAll_map_le {α : Type} {tree : α → Tree} {depth : Nat}
    (h : ∀ x, (tree x).depth ≤ depth) (xs : List α) : depthAll (xs.map tree) ≤ depth := by
  induction xs with
  | nil => exact Nat.zero_le _
  | cons x xs ih => exact Nat.max_le.2 ⟨h x, ih⟩

mutual

/-- How many lists, records, texts and flags there are in the tree. -/
def size : Tree → Nat
  | text _ => 1
  | flag _ => 1
  | list items => sizeAll items + 1
  | record members => sizeMembers members + 1

/-- How many there are in the trees. -/
def sizeAll : List Tree → Nat
  | [] => 0
  | t :: ts => size t + sizeAll ts

/-- How many there are in the members. -/
def sizeMembers : List (String × Tree) → Nat
  | [] => 0
  | (_, t) :: ms => size t + sizeMembers ms

end

theorem size_pos : ∀ t : Tree, 0 < t.size
  | text _ => Nat.one_pos
  | flag _ => Nat.one_pos
  | list _ => Nat.succ_pos _
  | record _ => Nat.succ_pos _

theorem length_le_sizeAll (ts : List Tree) : ts.length ≤ sizeAll ts := by
  induction ts with
  | nil => exact Nat.le_refl _
  | cons t ts ih => have := t.size_pos; simp only [sizeAll, List.length_cons]; omega

theorem length_le_sizeMembers (ms : List (String × Tree)) : ms.length ≤ sizeMembers ms := by
  induction ms with
  | nil => exact Nat.le_refl _
  | cons m ms ih => have := m.2.size_pos; simp only [sizeMembers, List.length_cons]; omega

theorem size_le_sizeAll {t : Tree} {ts : List Tree} (h : t ∈ ts) : t.size ≤ sizeAll ts := by
  induction ts with
  | nil => exact absurd h List.not_mem_nil
  | cons u ts ih =>
    rcases List.mem_cons.1 h with rfl | h
    · exact Nat.le_add_right ..
    · exact Nat.le_trans (ih h) (Nat.le_add_left ..)

theorem size_le_sizeMembers {m : String × Tree} {ms : List (String × Tree)} (h : m ∈ ms) :
    m.2.size ≤ sizeMembers ms := by
  induction ms with
  | nil => exact absurd h List.not_mem_nil
  | cons n ms ih =>
    rcases List.mem_cons.1 h with rfl | h
    · exact Nat.le_add_right ..
    · exact Nat.le_trans (ih h) (Nat.le_add_left ..)

/-- The trees one by one with what is read. -/
theorem forall₂_values (ts : List Tree) : List.Forall₂ (fun t v => v = t.value) ts (values ts) := by
  induction ts with
  | nil => exact .nil
  | cons t ts ih => exact .cons rfl ih

mutual

/-- What holds of a list or record once it holds of everything directly inside, and of
texts and flags, holds of every tree. -/
@[elab_as_elim]
theorem induct {P : Tree → Prop} (text : ∀ s, P (.text s)) (flag : ∀ b, P (.flag b))
    (list : ∀ ts, (∀ t ∈ ts, P t) → P (.list ts))
    (record : ∀ ms, (∀ m ∈ ms, P m.2) → P (.record ms)) : ∀ t, P t
  | .text s => text s
  | .flag b => flag b
  | .list ts => list ts (inductAll text flag list record ts)
  | .record ms => record ms (inductMembers text flag list record ms)

theorem inductAll {P : Tree → Prop} (text : ∀ s, P (.text s)) (flag : ∀ b, P (.flag b))
    (list : ∀ ts, (∀ t ∈ ts, P t) → P (.list ts))
    (record : ∀ ms, (∀ m ∈ ms, P m.2) → P (.record ms)) : ∀ ts : List Tree, ∀ t ∈ ts, P t
  | [] => fun _ h => absurd h List.not_mem_nil
  | t :: ts => List.forall_mem_cons.2
    ⟨induct text flag list record t, inductAll text flag list record ts⟩

theorem inductMembers {P : Tree → Prop} (text : ∀ s, P (.text s)) (flag : ∀ b, P (.flag b))
    (list : ∀ ts, (∀ t ∈ ts, P t) → P (.list ts))
    (record : ∀ ms, (∀ m ∈ ms, P m.2) → P (.record ms)) :
    ∀ ms : List (String × Tree), ∀ m ∈ ms, P m.2
  | [] => fun _ h => absurd h List.not_mem_nil
  | (_, t) :: ms => List.forall_mem_cons.2
    ⟨induct text flag list record t, inductMembers text flag list record ms⟩

end

end Tree

end Retarget
