/-
# Writing and reading files

A text that was written to a path is read back from the path.  Writing puts a file where no
directory is, so every directory that a path leads through stays one, and a path that leads
somewhere before leads there afterwards.
-/

import Retarget.FileTree

namespace Retarget
namespace FileTree

/-! ### Entries -/

theorem entry?_nil (t : FileTree) : t.entry? [] = some .directory := rfl

theorem entry?_of_ne (t : FileTree) {l : Location} (h : l ≠ []) : t.entry? l = t.entries.lookup l :=
  if_neg h

/-- What lies at a location after something was put there. -/
theorem entry?_put_self (t : FileTree) {l : Location} (e : FileEntry) (h : l ≠ []) :
    entry? (t.put l e) l = some e := by
  have hl : (t.entries.filter (·.1 != l)).lookup l = none := by
    refine List.lookup_eq_none_iff.2 fun x hx => ?_
    rw [bne_comm]
    exact (List.mem_filter.1 hx).2
  rw [entry?_of_ne _ h, put]
  simp [List.lookup_append, hl]

theorem lookup_filter_of_ne {l l' : Location} (h : l' ≠ l) :
    ∀ entries : List (Location × FileEntry),
      (entries.filter (·.1 != l)).lookup l' = entries.lookup l'
  | [] => rfl
  | (k, e) :: entries => by
    have ih := lookup_filter_of_ne h entries
    rw [List.lookup_cons]
    by_cases hk : k = l
    · have hkl : (l' == k) = false := beq_eq_false_iff_ne.2 (hk ▸ h)
      rw [List.filter_cons_of_neg (by simp [hk]), ih, hkl]
    · rw [List.filter_cons_of_pos (by simpa using hk), List.lookup_cons, ih]

/-- Nothing else changes when something is put at a location. -/
theorem entry?_put_of_ne (t : FileTree) {l l' : Location} (e : FileEntry) (h : l' ≠ l) :
    entry? (t.put l e) l' = t.entry? l' := by
  have hl : (l' == l) = false := beq_eq_false_iff_ne.2 h
  by_cases hn : l' = []
  · rw [hn, entry?_nil, entry?_nil]
  · rw [entry?_of_ne _ hn, entry?_of_ne _ hn, put]
    simp [List.lookup_append, lookup_filter_of_ne h, List.lookup_cons, hl]

/-- The second tree holds what the first holds, and one file more. -/
structure Adds (t t' : FileTree) (l : Location) (content : Bytes) : Prop where
  start : t'.workingDirectory = t.workingDirectory
  free : t.entry? l = none
  added : t'.entry? l = some (.file content)
  others : ∀ l', l' ≠ l → t'.entry? l' = t.entry? l'

theorem adds_put {t : FileTree} {l : Location} (h : t.entry? l = none) (content : Bytes) :
    t.Adds (t.put l (.file content)) l content := by
  have hl : l ≠ [] := by
    rintro rfl
    cases h
  exact ⟨rfl, h, t.entry?_put_self _ hl, fun _ => t.entry?_put_of_ne _⟩

/-- The second tree holds what the first holds, and one works in the same directory. -/
structure Keeps (t t' : FileTree) : Prop where
  start : t'.workingDirectory = t.workingDirectory
  entries : ∀ l e, t.entry? l = some e → t'.entry? l = some e

theorem Keeps.refl (t : FileTree) : t.Keeps t := ⟨rfl, fun _ _ => id⟩

/-- What was there stays. -/
theorem Adds.keeps {t t' : FileTree} {l : Location} {content : Bytes}
    (h : t.Adds t' l content) : t.Keeps t' := by
  refine ⟨h.start, fun l' e he => ?_⟩
  have hl : l' ≠ l := by
    rintro rfl
    rw [h.free] at he
    cases he
  rw [h.others l' hl, he]

/-! ### Paths -/

/-- The second tree has the directories of the first, and one works in the same one. -/
structure KeepsDirectories (t t' : FileTree) : Prop where
  start : t'.workingDirectory = t.workingDirectory
  directories : ∀ l, t.entry? l = some .directory → t'.entry? l = some .directory

theorem Keeps.keepsDirectories {t t' : FileTree} (h : t.Keeps t') : t.KeepsDirectories t' :=
  ⟨h.start, fun l => h.entries l .directory⟩

/-- A file can be put where no directory is. -/
theorem keepsDirectories_put {t : FileTree} {l : Location} (h : t.entry? l ≠ some .directory)
    (content : Bytes) : t.KeepsDirectories (t.put l (.file content)) := by
  refine ⟨rfl, fun l' hl' => ?_⟩
  have hn : l' ≠ l := by
    rintro rfl
    exact h hl'
  rw [entry?_put_of_ne t _ hn, hl']

theorem directory_eq_ok_iff {t : FileTree} {l : Location} :
    t.directory l = .ok () ↔ t.entry? l = some .directory := by
  rw [directory]
  split <;> simp_all

/-- One name further: nowhere, to the directory above, or to a name in the directory. -/
theorem descend_eq_ok_iff {t : FileTree} {l l' : Location} {name : String} :
    t.descend l name = .ok l' ↔ t.directory l = .ok () ∧
      if name = "" ∨ name = "." then l' = l
      else if name = ".." then t.directory l.dropLast = .ok () ∧ l' = l.dropLast
      else name.utf8ByteSize ≤ 255 ∧ l' = l ++ [name] := by
  have hok (d : Location) : (Except.ok d : Except FileError Location) = .ok l' ↔ l' = d := by
    rw [Except.ok.injEq, eq_comm]
  rw [descend]
  cases t.directory l with
  | error e => simp [bind, Except.bind]
  | ok u =>
    simp only [bind, Except.bind, Bool.or_eq_true, decide_eq_true_eq, true_and]
    split
    · exact hok l
    split
    · cases t.directory l.dropLast with
      | error e => simp
      | ok u => exact (hok l.dropLast).trans (and_iff_right rfl).symm
    split
    · exact ⟨(nomatch ·), fun h => absurd h.1 (by omega)⟩
    · rw [and_iff_right (by omega)]
      exact hok (l ++ [name])

/-- A path leads where its walk does, unless the path holds a zero character or nothing at all, or
is too long. -/
theorem follow_eq_ok_iff {t : FileTree} {l : Location} {path : String} :
    t.follow path = .ok l ↔ '\x00' ∉ path.toList ∧ path.toList ≠ [] ∧ path.utf8ByteSize ≤ 4095 ∧
      t.walk (t.start path.toList) path.toList = .ok l := by
  simp only [follow, List.contains_eq_mem, decide_eq_true_eq]
  split
  · simp_all
  split
  · simp_all
  split
  · exact ⟨(nomatch ·), fun h => absurd h.2.2.1 (by omega)⟩
  · rw [and_iff_right (by assumption), and_iff_right (by assumption), and_iff_right (by omega)]

/-- At the root, `..` stays. -/
example (l : Location) : FileTree.follow ⟨l, []⟩ "/../." = .ok [] := by rfl

namespace KeepsDirectories

variable {t t' : FileTree} {l l' : Location}

theorem directory (h : t.KeepsDirectories t') (hl : t.directory l = .ok ()) :
    t'.directory l = .ok () :=
  directory_eq_ok_iff.2 (h.directories l (directory_eq_ok_iff.1 hl))

theorem descend (h : t.KeepsDirectories t') {name : String} (hl : t.descend l name = .ok l') :
    t'.descend l name = .ok l' := by
  obtain ⟨hd, hl⟩ := descend_eq_ok_iff.1 hl
  refine descend_eq_ok_iff.2 ⟨h.directory hd, ?_⟩
  split at hl
  · rwa [if_pos (by assumption)]
  rw [if_neg (by assumption)]
  split at hl
  · rw [if_pos (by assumption)]
    exact ⟨h.directory hl.1, hl.2⟩
  · rwa [if_neg (by assumption)]

theorem walk (h : t.KeepsDirectories t') {path : List Char} (hl : t.walk l path = .ok l') :
    t'.walk l path = .ok l' := by
  rw [FileTree.walk] at hl ⊢
  generalize Text.pieces '/' path = names at hl ⊢
  induction names generalizing l with
  | nil => exact hl
  | cons name names ih =>
    rw [List.foldlM_cons] at hl ⊢
    cases hd : t.descend l (String.ofList name) with
    | error e => rw [hd] at hl; cases hl
    | ok next =>
      rw [hd] at hl
      rw [h.descend hd]
      exact ih hl

/-- A path leads where it led as long as directories stay. -/
theorem follow (h : t.KeepsDirectories t') {path : String} (hl : t.follow path = .ok l) :
    t'.follow path = .ok l := by
  have hs : t'.start path.toList = t.start path.toList := by
    rw [FileTree.start, FileTree.start, h.start]
  obtain ⟨h0, hn, hsize, hw⟩ := follow_eq_ok_iff.1 hl
  exact follow_eq_ok_iff.2 ⟨h0, hn, hsize, hs ▸ h.walk hw⟩

end KeepsDirectories

/-- The second tree holds what the first holds, and at the path a file that is new, in the
directory of the input. -/
def AddsBeside (t t' : FileTree) (input path : String) (content : Bytes) : Prop :=
  ∃ dir name new, t.follow input = .ok (dir ++ [name]) ∧ t.follow path = .ok (dir ++ [new]) ∧
    t.Adds t' (dir ++ [new]) content

/-! ### Files -/

theorem toList_loop (bytes : ByteArray) (i : Nat) (r : List UInt8) :
    ByteArray.toList.loop bytes i r = r.reverse ++ bytes.data.toList.drop i := by
  induction i, r using ByteArray.toList.loop.induct bytes with
  | case1 i r h ih =>
    have hi : i < bytes.data.toList.length := h
    have hg : bytes.get! i = bytes.data.toList[i] := by
      simp [ByteArray.get!, getElem!_pos bytes.data i h]
    rw [ByteArray.toList.loop, if_pos h, ih, List.drop_eq_getElem_cons hi, hg]
    simp
  | case2 i r h =>
    have hi : bytes.data.toList.length ≤ i := Nat.not_lt.1 h
    rw [ByteArray.toList.loop, if_neg h, List.drop_eq_nil_of_le hi, List.append_nil]

/-- The bytes of a text are those of the text. -/
theorem fromUTF8?_bytesOf (s : String) : String.fromUTF8? ⟨(bytesOf s).toArray⟩ = some s := by
  have hb : ByteArray.mk (bytesOf s).toArray = s.toUTF8 := by
    rw [bytesOf, ByteArray.toList, toList_loop]
    simp
  rw [hb, String.fromUTF8?]
  exact dif_pos s.isValidUTF8

/-- A file that holds a text is read as that text. -/
theorem read_of_file {t : FileTree} {l : Location} {path text : String}
    (hf : t.follow path = .ok l) (he : t.entry? l = some (.file (bytesOf text))) :
    t.read path = .ok text := by
  rw [read, hf]
  simp only [bind, Except.bind, he, fromUTF8?_bytesOf]
  rfl

/-- Writing to a path that does not end in a separator. -/
theorem write_eq (t : FileTree) {path : String} (hs : path.toList.getLast? ≠ some '/')
    (text : String) : t.write path text =
      match t.follow path with
      | .error e => .error e
      | .ok l =>
        if t.entry? l = some .directory then .error .isDirectory
        else .ok (t.put l (.file (bytesOf text))) := by
  simp only [write, hs, decide_false, Bool.false_and, Bool.false_or, Bool.false_eq_true,
    if_false, decide_eq_true_eq, bind, Except.bind]
  cases t.follow path <;> rfl

/-- What writing does: it puts a file where the path leads, and no directory is there. -/
theorem write_eq_ok {t t' : FileTree} {path text : String} (h : t.write path text = .ok t') :
    ∃ l, t.follow path = .ok l ∧ t.entry? l ≠ some .directory ∧
      t' = t.put l (.file (bytesOf text)) := by
  by_cases hs : path.toList.getLast? = some '/'
  · simp only [write, hs, decide_true, Bool.true_and, Bool.true_or, if_true, bind, Except.bind] at h
    split at h <;> cases h
  · rw [write_eq t hs] at h
    split at h
    · cases h
    · rename_i l hf
      split at h
      · cases h
      · rename_i hl
        exact ⟨l, hf, hl, (Except.ok.inj h).symm⟩

/-- What can be read is a file. -/
theorem exists_file_of_read {t : FileTree} {path text : String} (h : t.read path = .ok text) :
    ∃ l content, t.follow path = .ok l ∧ t.entry? l = some (.file content) := by
  rw [read] at h
  cases hf : t.follow path with
  | error e => rw [hf] at h; cases h
  | ok l =>
    rw [hf] at h
    cases he : t.entry? l with
    | none => simp only [he, bind, Except.bind] at h; cases h
    | some e =>
      cases e with
      | directory => simp only [he, bind, Except.bind] at h; cases h
      | file content => exact ⟨l, content, rfl, he⟩

/-- **A text that was written is read back.** -/
theorem read_write {t t' : FileTree} {path text : String} (h : t.write path text = .ok t') :
    t'.read path = .ok text := by
  obtain ⟨l, hf, hl, rfl⟩ := write_eq_ok h
  have hn : l ≠ [] := fun hn => hl (hn ▸ t.entry?_nil)
  exact read_of_file ((keepsDirectories_put hl _).follow hf) (t.entry?_put_self _ hn)

/-- A text is read as before while everything that was there stays. -/
theorem Keeps.read {t t' : FileTree} (h : t.Keeps t') {path text : String}
    (hr : t.read path = .ok text) : t'.read path = .ok text := by
  obtain ⟨l, content, hf, he⟩ := exists_file_of_read hr
  rw [FileTree.read, hf] at hr
  rw [FileTree.read, h.keepsDirectories.follow hf]
  simpa only [bind, Except.bind, he, h.entries l _ he] using hr

/-- What exists goes on to exist. -/
theorem Keeps.exists? {t t' : FileTree} (h : t.Keeps t') {path : String}
    (he : t.exists? path = true) : t'.exists? path = true := by
  rw [FileTree.exists?] at he ⊢
  cases hf : t.follow path with
  | error e => rw [hf] at he; cases he
  | ok l =>
    simp only [hf] at he
    obtain ⟨e, hl⟩ := Option.isSome_iff_exists.1 he
    simp only [h.keepsDirectories.follow hf, h.entries l e hl, Option.isSome_some]

end FileTree
end Retarget
