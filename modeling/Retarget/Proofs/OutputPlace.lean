/-
# The output file lies beside the project file

A path to a file is a directory's path with a name behind it.  A candidate for the output is
another name behind the same directory, written without the empty names and the names `.` at
the directory's end:

    project file            candidate
    a/./b/.//legacy.json    a/./b/legacy.migrated.json
    ../legacy.json          ../legacy.migrated.json
    /./legacy.json          /legacy.migrated.json

Both paths lead from the same location, the root or the working directory.  So where the one
path leads to a file, the other leads to a name in the same directory, unless it is too long
for any path (`follow_candidate`).  A path is walked name by name; the walk is taken apart at
a separator (`walk_append_sep`), and what is left out at a directory's end does not move it
(`walk_of_idle`).

A candidate whose name is too long does not exist, so the search for a free one does not give
up before it has found one (`exists_free`).
-/

import Retarget.Proofs.FileTree
import Retarget.Proofs.OutputName
import Retarget.Proofs.Text

namespace Retarget
namespace FileTree

variable {t : FileTree} {d l l' : Location}

/-! ### Steps of a walk -/

/-- An empty name and the name `.` lead nowhere else. -/
theorem descend_idle {name : String} (hn : name = "" ∨ name = ".")
    (h : t.descend l name = .ok l') : l' = l := by
  obtain ⟨-, h⟩ := descend_eq_ok_iff.1 h
  rwa [if_pos hn] at h

/-- A name that leads to a file is the last one of its location: all other names lead to
directories. -/
theorem descend_file {name : String} {content : Bytes} (h : t.descend d name = .ok l)
    (he : t.entry? l = some (.file content)) :
    l = d ++ [name] ∧ t.directory d = .ok () ∧ name ≠ "" ∧ name ≠ "." ∧ name ≠ ".." := by
  have hfile : t.directory l ≠ .ok () := fun hl => by
    rw [directory_eq_ok_iff, he] at hl
    cases hl
  obtain ⟨hd, h⟩ := descend_eq_ok_iff.1 h
  split at h
  · exact absurd (h ▸ hd) hfile
  rename_i hidle
  rw [not_or] at hidle
  split at h
  · exact absurd (h.2 ▸ h.1) hfile
  · rename_i hup
    exact ⟨h.2, hd, hidle.1, hidle.2, hup⟩

/-- A name too long leads nowhere. -/
theorem descend_long {name : String} (h : 255 < name.utf8ByteSize) :
    ∃ e, t.descend l name = .error e := by
  cases hn : t.descend l name with
  | error e => exact ⟨e, rfl⟩
  | ok l' =>
    have hne : name ≠ "" ∧ name ≠ "." ∧ name ≠ ".." := by
      refine ⟨?_, ?_, ?_⟩ <;> rintro rfl <;> exact absurd h (by decide)
    obtain ⟨-, hl⟩ := descend_eq_ok_iff.1 hn
    rw [if_neg (not_or.2 ⟨hne.1, hne.2.1⟩), if_neg hne.2.2] at hl
    omega

/-! ### Walks -/

/-- A walk ends where its first part and its second part lead to, one after the other. -/
theorem walk_append_sep (t : FileTree) (l : Location) (as bs : List Char) :
    t.walk l (as ++ '/' :: bs) = t.walk l as >>= fun d => t.walk d bs := by
  rw [walk, Text.pieces_append_sep, List.foldlM_append]
  rfl

theorem walk_name (t : FileTree) (l : Location) {name : List Char} (h : '/' ∉ name) :
    t.walk l name = t.descend l (String.ofList name) := by
  rw [walk, Text.pieces_of_not_mem h, List.foldlM_cons]
  simp only [List.foldlM_nil, bind_pure]

theorem exists_of_walk_sep {as bs : List Char} (h : t.walk l (as ++ '/' :: bs) = .ok l') :
    ∃ d, t.walk l as = .ok d ∧ t.walk d bs = .ok l' := by
  rw [walk_append_sep] at h
  cases hd : t.walk l as with
  | error e => rw [hd] at h; cases h
  | ok d => exact ⟨d, rfl, by rwa [hd] at h⟩

theorem walk_sep_of_ok {as : List Char} (h : t.walk l as = .ok d) (bs : List Char) :
    t.walk l (as ++ '/' :: bs) = t.walk d bs := by
  rw [walk_append_sep, h]
  rfl

theorem walk_nil (h : t.directory l = .ok ()) : t.walk l [] = .ok l := by
  rw [walk_name t l List.not_mem_nil, descend, h]
  rfl

/-- A name that leads to a file is one of a directory. -/
theorem isName_of_walk_file {name : List Char} {content : Bytes} (hs : '/' ∉ name)
    (h : t.walk d name = .ok l) (he : t.entry? l = some (.file content)) :
    l = d ++ [String.ofList name] ∧ t.directory d = .ok () ∧ FilePath.IsName name := by
  rw [walk_name t d hs] at h
  obtain ⟨hl, hd, h1, h2, h3⟩ := descend_file h he
  refine ⟨hl, hd, hs, ?_, ?_, ?_⟩ <;> rintro rfl
  · exact h1 rfl
  · exact h2 rfl
  · exact h3 rfl

/-- A walk to a file: a name behind the path of a directory, or in the directory where the walk
starts. -/
theorem exists_of_walk_file {path : List Char} {content : Bytes} (h : t.walk l path = .ok l')
    (he : t.entry? l' = some (.file content)) :
    ∃ before name d, path = before ++ name ∧ FilePath.IsName name ∧
      l' = d ++ [String.ofList name] ∧ t.directory d = .ok () ∧
      (before = [] ∧ d = l ∨ before.getLast? = some '/' ∧ t.walk l before = .ok d) := by
  by_cases hs : '/' ∈ path
  · obtain ⟨rest, before, hr, hf⟩ := List.eq_append_cons_of_mem (List.mem_reverse.2 hs)
    have hc : path = before.reverse ++ '/' :: rest.reverse := by
      rw [← List.reverse_reverse path, hr]
      simp
    rw [hc] at h
    obtain ⟨d, hb, hw⟩ := exists_of_walk_sep h
    obtain ⟨hl, hd, hname⟩ := isName_of_walk_file (mt List.mem_reverse.1 hf) hw he
    exact ⟨before.reverse ++ ['/'], rest.reverse, d, by simp [hc], hname, hl, hd,
      .inr ⟨by simp, (walk_sep_of_ok hb []).trans (walk_nil hd)⟩⟩
  · obtain ⟨hl, hd, hname⟩ := isName_of_walk_file hs h he
    exact ⟨[], path, l, rfl, hname, hl, hd, .inl ⟨rfl, rfl⟩⟩

end FileTree

/-! ### What a path may be written without -/

namespace FilePath

/-- Text at the end of a path that holds only empty names and the name `.`. -/
inductive Idle : List Char → Prop
  | nil : Idle []
  | name {tail name : List Char} (h : Idle tail) (hn : name = [] ∨ name = ['.']) :
      Idle (tail ++ '/' :: name)

theorem Idle.head? {tail : List Char} (h : Idle tail) (hn : tail ≠ []) :
    tail.head? = some '/' := by
  induction h with
  | nil => exact absurd rfl hn
  | @name tail name h' hname ih =>
    rw [List.head?_append]
    by_cases ht : tail = []
    · rw [ht]
      rfl
    · rw [ih ht]
      rfl

theorem exists_idle_ofReversed {r : List Char} (hn : r ≠ []) :
    ∃ dir tail, r.reverse = dir ++ tail ∧ Idle tail ∧
      (trimmed.ofReversed r = dir ∧ dir ≠ [] ∧ dir.getLast? ≠ some '/' ∨
        trimmed.ofReversed r = ['/'] ∧ dir = []) := by
  fun_induction trimmed.ofReversed r with
  | case1 => exact absurd rfl hn
  | case2 => exact ⟨[], [] ++ '/' :: [], rfl, .name .nil (.inl rfl), .inr ⟨rfl, rfl⟩⟩
  | case3 cs hc ih =>
    obtain ⟨dir, tail, ht, hi, h⟩ := ih fun h => hc h
    exact ⟨dir, tail ++ '/' :: [], by simp [ht], .name hi (.inl rfl), h⟩
  | case4 => exact ⟨[], [] ++ '/' :: ['.'], rfl, .name .nil (.inr rfl), .inr ⟨rfl, rfl⟩⟩
  | case5 cs hc ih =>
    obtain ⟨dir, tail, ht, hi, h⟩ := ih fun h => hc h
    exact ⟨dir, tail ++ '/' :: ['.'], by simp [ht], .name hi (.inr rfl), h⟩
  | case6 cs h1 h2 h3 h4 h5 =>
    refine ⟨cs.reverse, [], by simp, .nil, .inl ⟨rfl, by simpa using hn, fun h => ?_⟩⟩
    rw [List.getLast?_reverse] at h
    cases cs with
    | nil => cases h
    | cons c cs =>
      obtain rfl := Option.some.inj h
      exact h3 cs rfl

/-- Trimming takes idle text off a path, and leaves a path that does not end in a separator, or the
root. -/
theorem exists_idle {path : List Char} (hn : path ≠ []) :
    ∃ dir tail, path = dir ++ tail ∧ Idle tail ∧
      (trimmed path = dir ∧ dir ≠ [] ∧ dir.getLast? ≠ some '/' ∨
        trimmed path = ['/'] ∧ dir = []) := by
  have h := exists_idle_ofReversed (r := path.reverse) (by simpa using hn)
  rwa [List.reverse_reverse] at h

theorem mem_of_mem_ofReversed {r : List Char} {c : Char} (h : c ∈ trimmed.ofReversed r) :
    c ∈ r := by
  fun_induction trimmed.ofReversed r with
  | case1 => exact h
  | case2 => exact h
  | case3 cs hc ih => exact List.mem_cons_of_mem _ (ih h)
  | case4 => exact List.mem_cons_of_mem _ h
  | case5 cs hc ih => exact List.mem_cons_of_mem _ (List.mem_cons_of_mem _ (ih h))
  | case6 cs => exact List.mem_reverse.1 h

theorem mem_of_mem_trimmed {path : List Char} {c : Char} (h : c ∈ trimmed path) : c ∈ path :=
  List.mem_reverse.1 (mem_of_mem_ofReversed h)

/-- The two parts of a path are taken from it. -/
theorem mem_of_mem_lastName {path : List Char} {c : Char}
    (h : c ∈ (lastName path).1 ∨ c ∈ (lastName path).2) : c ∈ path := by
  refine mem_of_mem_trimmed (List.mem_reverse.1 ?_)
  rcases h with h | h
  · exact (List.takeWhile_prefix _).subset (List.mem_reverse.1 h)
  · exact (List.dropWhile_suffix _).subset (List.mem_reverse.1 h)

theorem mem_of_mem_name? {path name : List Char} (h : name? path = some name) {c : Char}
    (hc : c ∈ name) : c ∈ path := by
  rw [name?] at h
  split at h
  · cases h
  · exact mem_of_mem_lastName (.inl (Option.some.inj h ▸ hc))

/-- A path with another name in it holds nothing else. -/
theorem mem_of_mem_withName {path name : List Char} {c : Char} (h : c ∈ withName path name) :
    c ∈ path ∨ c = '/' ∨ c ∈ name := by
  have hb : ∀ c ∈ (if (name? path).isSome then trimmed (lastName path).2 else path), c ∈ path := by
    intro c hc
    split at hc
    · exact mem_of_mem_lastName (.inr (mem_of_mem_trimmed hc))
    · exact hc
  rw [withName] at h
  generalize (if (name? path).isSome then trimmed (lastName path).2 else path) = base at h hb
  split at h
  · rcases List.mem_append.1 h with h | h
    · exact .inl (hb c h)
    · exact .inr (.inr h)
  · rcases List.mem_append.1 h with h | h
    · exact .inl (hb c h)
    · exact .inr (List.mem_cons.1 h)

theorem withName_of_append {before name : List Char} (hn : IsName name)
    (hb : before = [] ∨ before.getLast? = some '/') (other : List Char) :
    withName (before ++ name) other =
      if trimmed before = [] || (trimmed before).getLast? = some '/' then trimmed before ++ other
      else trimmed before ++ '/' :: other := by
  rw [withName, name?_append hn hb, lastName_append hn hb]
  rfl

/-- Another name in place of a name alone. -/
theorem withName_name {name : List Char} (hn : IsName name) (other : List Char) :
    withName name other = other := by
  simpa [trimmed, trimmed.ofReversed] using withName_of_append hn (.inl rfl) other

/-- Another name behind the same directory, less what is idle at the directory's end. -/
theorem withName_append {before name : List Char} (hn : IsName name)
    (hb : before.getLast? = some '/') (other : List Char) :
    ∃ dir tail, before = dir ++ tail ∧ Idle tail ∧
      withName (before ++ name) other = dir ++ '/' :: other := by
  have hne : before ≠ [] := by
    rintro rfl
    cases hb
  have hw := withName_of_append hn (.inr hb) other
  obtain ⟨dir, tail, ht, hi, ⟨htrim, h1, h2⟩ | ⟨htrim, rfl⟩⟩ := exists_idle hne
  · exact ⟨dir, tail, ht, hi, by simp [hw, htrim, h1, h2]⟩
  · exact ⟨[], tail, ht, hi, by simp [hw, htrim]⟩

/-- A path with another name in it leads from where the path does. -/
theorem isAbsolute_withName {before name other : List Char} (hn : IsName name) (ho : IsName other)
    (hb : before = [] ∨ before.getLast? = some '/') :
    isAbsolute (withName (before ++ name) other) = isAbsolute (before ++ name) := by
  have hrelative {name : List Char} (hn : IsName name) : isAbsolute name = false :=
    decide_eq_false fun h => hn.noSlash (List.mem_of_head? h)
  rcases hb with rfl | hb
  · rw [List.nil_append, withName_name hn, hrelative hn, hrelative ho]
  · obtain ⟨dir, tail, rfl, hi, hw⟩ := withName_append hn hb other
    rw [hw, isAbsolute, isAbsolute, List.append_assoc]
    by_cases hd : dir = []
    · have ht : tail ≠ [] := by
        rintro rfl
        rw [hd] at hb
        cases hb
      rw [hd, List.nil_append, List.nil_append, List.head?_append, hi.head? ht]
      rfl
    · rw [List.head?_append_of_ne_nil _ hd, List.head?_append_of_ne_nil _ hd]

/-- The path, and the file's name in it, are short enough for a file. -/
def fits (path : String) : Bool :=
  path.utf8ByteSize ≤ 4095 &&
    (name? path.toList).all fun name => (String.ofList name).utf8ByteSize ≤ 255

theorem fits_iff {path : String} {name : List Char} (h : name? path.toList = some name) :
    fits path = true ↔ path.utf8ByteSize ≤ 4095 ∧ (String.ofList name).utf8ByteSize ≤ 255 := by
  rw [fits, h, Option.all_some, Bool.and_eq_true, decide_eq_true_eq, decide_eq_true_eq]

/-- A path with another name in it ends in that name. -/
theorem withName_eq_append (path name : List Char) :
    withName path name = name ∨ ∃ dir, withName path name = dir ++ '/' :: name := by
  rw [withName]
  generalize (if (name? path).isSome then trimmed (lastName path).2 else path) = base
  split
  · rename_i hb
    rcases List.eq_nil_or_concat base with rfl | ⟨dir, c, rfl⟩
    · exact .inl rfl
    · obtain rfl : c = '/' := by simpa using hb
      exact .inr ⟨dir, by simp⟩
  · exact .inr ⟨base, rfl⟩

end FilePath

namespace FileTree

variable {t : FileTree} {d l l' : Location}

/-- Idle text at the end of a path does not move its walk. -/
theorem walk_of_idle {dir tail : List Char} (hi : FilePath.Idle tail)
    (h : t.walk l (dir ++ tail) = .ok l') : t.walk l dir = .ok l' := by
  induction hi generalizing l' with
  | nil => rwa [List.append_nil] at h
  | @name tail name hi hn ih =>
    rw [← List.append_assoc] at h
    obtain ⟨d, hd, hl⟩ := exists_of_walk_sep h
    have hs : '/' ∉ name := by rcases hn with rfl | rfl <;> decide
    rw [walk_name t d hs] at hl
    obtain rfl : l' = d := by
      refine descend_idle ?_ hl
      rcases hn with rfl | rfl
      · exact .inl rfl
      · exact .inr rfl
    exact ih hd

/-- A path without a zero character leads where its walk does, unless it is too long. -/
theorem follow_eq_walk {path : String} (h0 : '\x00' ∉ path.toList) (hn : path.toList ≠ []) :
    t.follow path =
      if 4095 < path.utf8ByteSize then .error .nameTooLong
      else t.walk (t.start path.toList) path.toList := by
  simp only [follow, List.contains_eq_mem, h0, decide_false, Bool.false_eq_true, if_false, hn]

/-- A name leads to what has it in the directory, unless it is too long. -/
theorem descend_isName {name : List Char} (hd : t.directory l = .ok ())
    (hn : FilePath.IsName name) : t.descend l (String.ofList name) =
      if 255 < (String.ofList name).utf8ByteSize then .error .nameTooLong
      else .ok (l ++ [String.ofList name]) := by
  have hne (s : String) (h : name ≠ s.toList) : String.ofList name ≠ s := by
    rintro rfl
    exact h String.toList_ofList.symm
  rw [descend, hd]
  simp only [bind, Except.bind, hne "" hn.nonempty, hne "." hn.notHere, hne ".." hn.notUp,
    decide_false, Bool.or_false, Bool.false_eq_true, if_false]
  rfl

/-- A name alone leads into the working directory. -/
theorem follow_name {name : List Char} (hd : t.directory t.workingDirectory = .ok ())
    (hn : FilePath.IsName name) (h0 : '\x00' ∉ name)
    (hf : FilePath.fits (String.ofList name) = true) :
    t.follow (String.ofList name) = .ok (t.workingDirectory ++ [String.ofList name]) := by
  have hl : (String.ofList name).toList = name := String.toList_ofList
  have hstart : t.start name = t.workingDirectory :=
    if_neg fun h => hn.noSlash (List.mem_of_head? (of_decide_eq_true h))
  have hsize := (FilePath.fits_iff (by rw [hl]; exact FilePath.name?_of_isName hn)).1 hf
  rw [follow_eq_walk (by rwa [hl]) (by rw [hl]; exact hn.nonempty), hl, hstart,
    walk_name t _ hn.noSlash, descend_isName hd hn, if_neg (by omega), if_neg (by omega)]

/-- Another name behind the path of a directory is looked up in that directory. -/
theorem walk_withName {before name other : List Char} (hn : FilePath.IsName name)
    (ho : '/' ∉ other)
    (hb : before = [] ∧ d = l ∨ before.getLast? = some '/' ∧ t.walk l before = .ok d) :
    t.walk l (FilePath.withName (before ++ name) other) =
      t.descend d (String.ofList other) := by
  rcases hb with ⟨rfl, rfl⟩ | ⟨hb, hd⟩
  · rw [List.nil_append, FilePath.withName_name hn, walk_name t _ ho]
  · obtain ⟨dir, tail, rfl, hi, hw⟩ := FilePath.withName_append hn hb other
    rw [hw, walk_sep_of_ok (walk_of_idle hi hd), walk_name t _ ho]

end FileTree

/-! ### Candidates -/

namespace OutputName

open FilePath FileTree

variable {t : FileTree} {l : Location}

/-- A candidate for a name alone is a name alone. -/
theorem candidate_of_isName {stem ext : List Char} (hn : IsName (stem ++ '.' :: ext))
    (hs : stem ≠ []) (he : '.' ∉ ext) (k : Nat) :
    candidate (String.ofList (stem ++ '.' :: ext)) k = String.ofList (stem ++ tag k ++ ext) := by
  simp only [candidate, String.toList_ofList, stem?, extension?, name?_of_isName hn,
    Option.map_some, Option.bind_some, split_append hs he, Option.getD_some, withName_name hn]

/-- A candidate holds no zero character if the input does not. -/
theorem noZero_candidate {input : String} (h : '\x00' ∉ input.toList) (k : Nat) :
    '\x00' ∉ (candidate input k).toList := by
  intro hm
  rw [toList_candidate] at hm
  rcases mem_of_mem_withName hm with hm | hm | hm
  · exact h hm
  · exact absurd hm (by decide)
  obtain ⟨cs, ht, -, hcs⟩ := tag_eq k
  have hk : '\x00' ∉ tag k := by
    rw [ht]
    simpa using fun hz => absurd (hcs _ hz) (by decide)
  cases hn : name? input.toList with
  | none =>
    have hp : '\x00' ∉ "project".toList ∧ '\x00' ∉ "yaml".toList := by decide
    simp only [stem, ext, stem?, extension?, hn, Option.map_none, Option.bind_none,
      Option.getD_none, List.mem_append, hp, hk, or_self] at hm
  | some name =>
    have hz : '\x00' ∉ name := fun hz => h (mem_of_mem_name? hn hz)
    rcases List.mem_append.1 hm with hm | hm
    · rcases List.mem_append.1 hm with hm | hm
      · exact hz (mem_of_mem_stem hn hm)
      · exact hk hm
    · rcases mem_of_mem_ext hn hm with hm | hm
      · exact hz hm
      · exact absurd hm (by decide)

/-- **Where the project file is in a directory, so is a candidate**, unless its name or its path
is too long. -/
theorem follow_candidate {input : String} {content : Bytes}
    (hf : t.follow input = .ok l) (he : t.entry? l = some (.file content)) (k : Nat) :
    t.follow (candidate input k) =
      if fits (candidate input k) then
        .ok (l.dropLast ++ [String.ofList (stem input ++ tag k ++ ext input)])
      else .error .nameTooLong := by
  obtain ⟨h0, -, -, hw⟩ := follow_eq_ok_iff.1 hf
  obtain ⟨before, name, d, hpath, hname, rfl, hd, hb⟩ := exists_of_walk_file hw he
  obtain ⟨-, -, -, hother⟩ := exists_name_eq input k
  have hc := toList_candidate input k
  have hname' := name?_candidate input k
  generalize stem input ++ tag k ++ ext input = other at hc hother hname' ⊢
  rw [hpath] at hc hb
  -- The candidate is looked up from where the project file is.
  have hstart : t.start (candidate input k).toList = t.start (before ++ name) := by
    rw [start, start, hc, isAbsolute_withName hname hother (hb.imp And.left And.left)]
  have hwalk : t.walk (t.start (candidate input k).toList) (candidate input k).toList =
      t.descend d (String.ofList other) := by
    rw [hstart, hc, walk_withName hname hother.noSlash hb]
  have hne : (candidate input k).toList ≠ [] := by
    intro h
    rw [h] at hname'
    cases hname'
  rw [follow_eq_walk (noZero_candidate h0 k) hne, hwalk, descend_isName hd hother,
    List.dropLast_concat]
  simp only [fits_iff hname']
  by_cases h1 : 4095 < (candidate input k).utf8ByteSize
  · rw [if_pos h1, if_neg (by omega)]
  · by_cases h2 : 255 < (String.ofList other).utf8ByteSize
    · rw [if_neg h1, if_pos h2, if_neg (by omega)]
    · rw [if_neg h1, if_neg h2, if_pos (by omega)]

/-- A candidate too long for a file does not exist. -/
theorem not_exists_of_not_fits {input : String} {content : Bytes} {k : Nat}
    (hf : t.follow input = .ok l) (he : t.entry? l = some (.file content))
    (h : fits (candidate input k) = false) : t.exists? (candidate input k) = false := by
  rw [exists?, follow_candidate hf he, h, if_neg Bool.false_ne_true]

/-- Each character of a name takes at least one byte. -/
theorem length_le_utf8ByteSize (cs : List Char) : cs.length ≤ (String.ofList cs).utf8ByteSize := by
  induction cs with
  | nil => exact Nat.zero_le _
  | cons c cs ih =>
    have hc := c.utf8Size_pos
    rw [String.ofList_cons, String.utf8ByteSize_append, String.utf8ByteSize_singleton,
      List.length_cons]
    omega

/-- A text takes as many bytes as characters if each takes one. -/
theorem utf8ByteSize_ofList {cs : List Char} (h : ∀ c ∈ cs, c.utf8Size = 1) :
    (String.ofList cs).utf8ByteSize = cs.length := by
  induction cs with
  | nil => rfl
  | cons c cs ih =>
    obtain ⟨hc, hcs⟩ := List.forall_mem_cons.1 h
    rw [String.ofList_cons, String.utf8ByteSize_append, String.utf8ByteSize_singleton,
      List.length_cons, hc, ih hcs]
    omega

/-- The name of the last candidate is too long for a file. -/
theorem long_name (input : String) :
    255 < (String.ofList (stem input ++ tag (limit - 1) ++ ext input)).utf8ByteSize := by
  have hd : 254 < (Nat.toDigits 10 (limit - 1)).length :=
    Nat.lt_of_not_le fun h => absurd ((Nat.length_toDigits_le_iff (by decide) (by decide)).1 h)
      (by decide)
  have ht : (tag (limit - 1)).length = 11 + (Nat.toDigits 10 (limit - 1)).length := by
    have hm : ".migrated-".toList.length = 10 := rfl
    rw [tag, if_neg (by decide), List.length_append, List.length_append, hm,
      List.length_singleton]
    omega
  have hl := length_le_utf8ByteSize (stem input ++ tag (limit - 1) ++ ext input)
  simp only [List.length_append] at hl
  omega

/-- A path that ends in a name too long does not exist. -/
theorem not_exists_of_long {path : String} {base name : List Char}
    (hp : path.toList = withName base name) (hn : '/' ∉ name)
    (hl : 255 < (String.ofList name).utf8ByteSize) : t.exists? path = false := by
  have hw : ∀ l, ∃ e, t.walk l path.toList = .error e := by
    intro l
    rw [hp]
    rcases withName_eq_append base name with hw | ⟨dir, hw⟩
    · rw [hw, walk_name t l hn]
      exact descend_long hl
    · rw [hw, walk_append_sep]
      cases t.walk l dir with
      | error e => exact ⟨e, rfl⟩
      | ok d =>
        obtain ⟨e, he⟩ := descend_long (t := t) (l := d) hl
        exact ⟨e, (walk_name t d hn).trans he⟩
  rw [exists?]
  cases hf : t.follow path with
  | error e => rfl
  | ok l =>
    obtain ⟨-, -, -, h⟩ := follow_eq_ok_iff.1 hf
    obtain ⟨e, he⟩ := hw (t.start path.toList)
    rw [he] at h
    cases h

/-- The candidate with this number is the first that does not exist. -/
structure IsFirstFree (t : FileTree) (input : String) (k : Nat) : Prop where
  taken : ∀ i < k, t.exists? (candidate input i) = true
  free : t.exists? (candidate input k) = false

/-- There is one first candidate that does not exist. -/
theorem IsFirstFree.unique {input : String} {j k : Nat} (hj : IsFirstFree t input j)
    (hk : IsFirstFree t input k) : j = k := by
  have hjk : ¬ j < k := fun h => absurd ((hk.taken j h).symm.trans hj.free) (by simp)
  have hkj : ¬ k < j := fun h => absurd ((hj.taken k h).symm.trans hk.free) (by simp)
  omega

/-- A candidate that does not exist is none of the paths that do. -/
theorem IsFirstFree.ne_of_exists {input path : String} {k : Nat} (hk : IsFirstFree t input k)
    (h : t.exists? path = true) : candidate input k ≠ path := by
  rintro rfl
  exact absurd (hk.free.symm.trans h) (by simp)

theorem isFirstFree_zero {input : String} (h : t.exists? (candidate input 0) = false) :
    IsFirstFree t input 0 :=
  ⟨fun i hi => absurd hi (Nat.not_lt_zero i), h⟩

/-- **The search finds the first candidate that does not exist.** -/
theorem exists_free (t : FileTree) (input : String) :
    ∃ k, Id.run (unique (pure ∘ t.exists?) input) = candidate input k ∧ IsFirstFree t input k := by
  obtain ⟨k, hk, hb, hf⟩ := unique_eq t.exists? input
  refine ⟨k, hk, hb, hf (Nat.lt_of_not_le fun hl => ?_)⟩
  obtain ⟨-, -, -, hname⟩ := exists_name_eq input (limit - 1)
  have hlast := hb (limit - 1) (Nat.lt_of_lt_of_le (by decide) hl)
  rw [not_exists_of_long (toList_candidate input _) hname.noSlash (long_name input)] at hlast
  cases hlast

/-- A candidate does not end in a separator. -/
theorem getLast?_candidate (input : String) (k : Nat) :
    (candidate input k).toList.getLast? ≠ some '/' := by
  obtain ⟨-, -, -, hname⟩ := exists_name_eq input k
  have hl : (stem input ++ tag k ++ ext input).getLast? ≠ some '/' := fun h =>
    hname.noSlash (List.mem_of_getLast? h)
  rw [toList_candidate]
  rcases withName_eq_append input.toList (stem input ++ tag k ++ ext input) with h | ⟨dir, h⟩
  · rwa [h]
  · rwa [h, List.getLast?_append_of_ne_nil _ (List.cons_ne_nil _ _),
      List.getLast?_cons_of_ne_nil hname.nonempty]

/-- **Writing to a candidate that does not exist creates a file beside the project file**, if the
candidate is short enough for a file. -/
theorem write_candidate {input name : String} {dir : Location} {content : Bytes}
    (hf : t.follow input = .ok (dir ++ [name]))
    (he : t.entry? (dir ++ [name]) = some (.file content)) {k : Nat}
    (hk : t.exists? (candidate input k) = false) :
    (fits (candidate input k) = true ∧ ∃ new, t.entry? (dir ++ [new]) = none ∧
      t.follow (candidate input k) = .ok (dir ++ [new]) ∧
      ∀ text, t.write (candidate input k) text =
        .ok (t.put (dir ++ [new]) (.file (bytesOf text)))) ∨
    fits (candidate input k) = false ∧
      ∀ text, t.write (candidate input k) text = .error .nameTooLong := by
  have h := follow_candidate hf he k
  cases hfits : fits (candidate input k) with
  | true =>
    rw [hfits, if_pos rfl, List.dropLast_concat] at h
    have hn : t.entry? (dir ++ [String.ofList (stem input ++ tag k ++ ext input)]) = none := by
      rw [exists?, h] at hk
      exact Option.not_isSome_iff_eq_none.1 (by simpa using hk)
    refine .inl ⟨rfl, _, hn, h, fun text => ?_⟩
    simp only [write_eq t (getLast?_candidate input k), h, hn, reduceCtorEq, if_false]
  | false =>
    rw [hfits, if_neg Bool.false_ne_true] at h
    refine .inr ⟨rfl, fun text => ?_⟩
    simp only [write_eq t (getLast?_candidate input k), h]

end OutputName
end Retarget
