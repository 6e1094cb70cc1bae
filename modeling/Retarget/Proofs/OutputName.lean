/-
# The name of the output file keeps the format

A candidate is the input's path with another name in it: the stem, a tag that ends in a
point, and the extension.  The last point of the new name is the tag's, so the candidate has
the input's extension again, or `yaml` if there was none, and both paths are of the same
format.

The search stops at the first candidate that is not taken.  It would give up after `limit`
candidates, with the next one; among files it never comes to that (`exists_free`, where paths
are followed).
-/

import Retarget.OutputName
import Mathlib.Data.List.TakeWhile

namespace Retarget
namespace FilePath

/-! ### Names -/

/-- What can stand as the last name of a path. -/
structure IsName (name : List Char) : Prop where
  noSlash : '/' ∉ name
  nonempty : name ≠ []
  notHere : name ≠ ['.']
  notUp : name ≠ ['.', '.']

/-- There is nothing more to trim. -/
theorem ofReversed_ofReversed (r : List Char) :
    trimmed.ofReversed (trimmed.ofReversed r).reverse = trimmed.ofReversed r := by
  fun_induction trimmed.ofReversed r with
  | case1 => rfl
  | case2 => rfl
  | case3 cs hc ih => exact ih
  | case4 => rfl
  | case5 cs hc ih => exact ih
  | case6 cs h1 h2 h3 h4 h5 => rw [List.reverse_reverse, trimmed.ofReversed] <;> assumption

theorem trimmed_trimmed (path : List Char) : trimmed (trimmed path) = trimmed path :=
  ofReversed_ofReversed path.reverse

theorem not_mem_lastName (path : List Char) : '/' ∉ (lastName path).1 := by
  intro h
  have := List.mem_takeWhile_imp (List.mem_reverse.1 h)
  simp at this

theorem isName_of_name? {path name : List Char} (h : name? path = some name) : IsName name := by
  simp only [name?] at h
  split at h
  · cases h
  · rename_i hn
    obtain rfl := Option.some.inj h
    simp only [Bool.or_eq_true, decide_eq_true_eq, not_or] at hn
    exact ⟨not_mem_lastName path, hn.1.1, hn.1.2, hn.2⟩

theorem ofReversed_of_isName {name rest : List Char} (h : IsName name.reverse) :
    trimmed.ofReversed (name ++ rest) = (name ++ rest).reverse := by
  have hs : '/' ∉ name := fun hm => h.noSlash (List.mem_reverse.2 hm)
  match name, h with
  | [], h => exact absurd rfl h.nonempty
  | [c], h =>
    have hc : c ≠ '/' := fun hc => hs (by simp [hc])
    have hp : c ≠ '.' := fun hp => h.notHere (by simp [hp])
    rw [List.cons_append, trimmed.ofReversed] <;> simp [hc, hp]
  | c :: d :: name, h =>
    have hc : c ≠ '/' := fun hc => hs (by simp [hc])
    have hd : d ≠ '/' := fun hd => hs (by simp [hd])
    rw [List.cons_append, List.cons_append, trimmed.ofReversed] <;> simp [hc, hd]

/-- The last name of a path in which a name follows a separator or stands alone. -/
theorem lastName_append {before name : List Char} (hn : IsName name)
    (hb : before = [] ∨ before.getLast? = some '/') :
    lastName (before ++ name) = (name, before) := by
  have ht : trimmed (before ++ name) = before ++ name := by
    rw [trimmed, List.reverse_append, ofReversed_of_isName (by rwa [List.reverse_reverse])]
    simp
  have hd : before.reverse.takeWhile (· ≠ '/') = [] ∧
      before.reverse.dropWhile (· ≠ '/') = before.reverse := by
    rcases hb with rfl | hb
    · exact ⟨rfl, rfl⟩
    · rw [← List.head?_reverse] at hb
      cases hr : before.reverse with
      | nil => exact ⟨rfl, rfl⟩
      | cons c cs =>
        rw [hr] at hb
        obtain rfl : c = '/' := by simpa using hb
        exact ⟨rfl, rfl⟩
  have hp : ∀ c ∈ name.reverse, (c ≠ '/' : Bool) = true := fun c hc => by
    simpa using fun h : c = '/' => hn.noSlash (h ▸ List.mem_reverse.1 hc)
  simp only [lastName, ht, List.reverse_append, List.takeWhile_append_of_pos hp,
    List.dropWhile_append_of_pos hp, hd, List.append_nil, List.reverse_reverse]

theorem name?_append {before name : List Char} (hn : IsName name)
    (hb : before = [] ∨ before.getLast? = some '/') : name? (before ++ name) = some name := by
  simp [name?, lastName_append hn hb, hn.nonempty, hn.notHere, hn.notUp]

/-- A name alone is a path that has that name. -/
theorem name?_of_isName {name : List Char} (hn : IsName name) : name? name = some name := by
  have h : name? ([] ++ name) = some name := name?_append hn (.inl rfl)
  exact h

/-- A path that was given another name has that name. -/
theorem name?_withName {name : List Char} (hn : IsName name) (path : List Char) :
    name? (withName path name) = some name := by
  unfold withName
  generalize (if (name? path).isSome then trimmed (lastName path).2 else path) = base
  simp only
  split
  · rename_i hb
    exact name?_append hn (by simpa using hb)
  · rw [show base ++ '/' :: name = base ++ ['/'] ++ name by simp]
    exact name?_append hn (.inr (by simp))

/-! ### Extensions -/

/-- The extension follows the last point. -/
theorem split_append {stem ext : List Char} (hs : stem ≠ []) (he : '.' ∉ ext) :
    split (stem ++ '.' :: ext) = (stem, some ext) := by
  have hp : ∀ c ∈ ext.reverse, (c ≠ '.' : Bool) = true := fun c hc => by
    simpa using fun h : c = '.' => he (h ▸ List.mem_reverse.1 hc)
  have hr : (stem ++ '.' :: ext).reverse = ext.reverse ++ '.' :: stem.reverse := by simp
  simp only [split, hr, List.takeWhile_append_of_pos hp, List.dropWhile_append_of_pos hp]
  have hn : stem.reverse ≠ [] := fun h => hs (List.reverse_eq_nil_iff.1 h)
  obtain ⟨c, cs, hc⟩ := List.exists_cons_of_ne_nil hn
  rw [hc, List.takeWhile_cons_of_neg (by simp), List.dropWhile_cons_of_neg (by simp)]
  simp [← hc]

/-- A name is its stem, a point and its extension, or its stem alone. -/
theorem eq_append_of_split (name : List Char) :
    (split name).2 = none ∧ (split name).1 = name ∨
      ∃ ext, (split name).2 = some ext ∧ name = (split name).1 ++ '.' :: ext ∧ '.' ∉ ext := by
  have hw := List.takeWhile_append_dropWhile (p := fun c => decide (c ≠ '.')) (l := name.reverse)
  have hh := List.head?_dropWhile_not (fun c => decide (c ≠ '.')) name.reverse
  cases hd : name.reverse.dropWhile (· ≠ '.') with
  | nil => exact .inl (by simp only [split, hd, and_self])
  | cons c stem =>
    cases stem with
    | nil => exact .inl (by simp only [split, hd, and_self])
    | cons d stem =>
      rw [hd] at hw hh
      obtain rfl : c = '.' := by simpa using hh
      refine .inr ⟨(name.reverse.takeWhile (· ≠ '.')).reverse, by simp only [split, hd], ?_,
        fun h => ?_⟩
      · have hn := congrArg List.reverse hw
        rw [List.reverse_reverse, List.reverse_append, List.reverse_cons, List.append_assoc] at hn
        simp only [split, hd]
        exact hn.symm
      · have := List.mem_takeWhile_imp (List.mem_reverse.1 h)
        simp at this

end FilePath

namespace OutputName

open FilePath

/-- The stem of a candidate. -/
def stem (input : String) : List Char := (stem? input.toList).getD "project".toList

/-- The extension of a candidate. -/
def ext (input : String) : List Char := (extension? input.toList).getD "yaml".toList

/-- The stem is taken from the input's name. -/
theorem mem_of_mem_stem {input : String} {name : List Char} (h : name? input.toList = some name)
    {c : Char} (hc : c ∈ stem input) : c ∈ name := by
  have hs : stem input = (split name).1 := by simp [stem, stem?, h]
  rw [hs] at hc
  rcases eq_append_of_split name with ⟨-, hw⟩ | ⟨ext, -, hw, -⟩
  · rwa [hw] at hc
  · exact hw ▸ List.mem_append_left _ hc

/-- The extension is taken from the input's name, if that has one. -/
theorem mem_of_mem_ext {input : String} {name : List Char} (h : name? input.toList = some name)
    {c : Char} (hc : c ∈ ext input) : c ∈ name ∨ c ∈ "yaml".toList := by
  rcases eq_append_of_split name with ⟨he, -⟩ | ⟨e, he, hw, -⟩
  · exact .inr (by simpa [ext, extension?, h, he] using hc)
  · have hx : ext input = e := by simp [ext, extension?, h, he]
    exact .inl (hw ▸ List.mem_append_right _ (List.mem_cons_of_mem _ (hx ▸ hc)))

theorem noSlash_stem (input : String) : '/' ∉ stem input := by
  cases h : name? input.toList with
  | none => simp [stem, stem?, h]
  | some name => exact fun hm => (isName_of_name? h).noSlash (mem_of_mem_stem h hm)

theorem ext_free (input : String) : '/' ∉ ext input ∧ '.' ∉ ext input := by
  cases h : name? input.toList with
  | none => simp [ext, extension?, h]
  | some name =>
    refine ⟨fun hm => ?_, ?_⟩
    · rcases mem_of_mem_ext h hm with hm | hm
      · exact (isName_of_name? h).noSlash hm
      · exact absurd hm (by decide)
    · rcases eq_append_of_split name with ⟨he, -⟩ | ⟨e, he, -, hp⟩
      · simp [ext, extension?, h, he]
      · simpa [ext, extension?, h, he] using hp

/-- What stands in a tag between its points. -/
def isTagChar (c : Char) : Bool := c.isAlphanum || c = '-'

/-- A tag is some text between two points. -/
theorem tag_eq (k : Nat) :
    ∃ cs, tag k = '.' :: cs ++ ['.'] ∧ cs ≠ [] ∧ ∀ c ∈ cs, isTagChar c = true := by
  have hw : "migrated-".toList.all isTagChar = true := by rfl
  by_cases hk : k = 0
  · refine ⟨"migrated".toList, by simp [tag, hk], by simp, fun c h => List.all_eq_true.1 hw c ?_⟩
    exact List.mem_append_left ['-'] h
  · refine ⟨"migrated-".toList ++ Nat.toDigits 10 k, by simp [tag, hk], by simp, fun c h => ?_⟩
    rcases List.mem_append.1 h with h | h
    · exact List.all_eq_true.1 hw c h
    · have hd := Nat.isDigit_of_mem_toDigits (by decide) (by decide) h
      simp [isTagChar, Char.isAlphanum, hd]

/-- A candidate's name ends in a tag and the extension, and can stand in a path. -/
theorem exists_name_eq (input : String) (k : Nat) :
    ∃ before, before ≠ [] ∧ stem input ++ tag k ++ ext input = before ++ '.' :: ext input ∧
      IsName (stem input ++ tag k ++ ext input) := by
  obtain ⟨cs, ht, hm, hcs⟩ := tag_eq k
  have hc : '/' ∉ cs := fun h => absurd (hcs _ h) (by decide)
  have hs := (ext_free input).1
  have hw : stem input ++ tag k ++ ext input = stem input ++ '.' :: cs ++ '.' :: ext input := by
    simp [ht]
  have hl : 3 ≤ (stem input ++ '.' :: cs ++ '.' :: ext input).length := by
    have := List.length_pos_iff.2 hm
    simp only [List.length_append, List.length_cons]
    omega
  refine ⟨stem input ++ '.' :: cs, by simp, hw, ?_⟩
  rw [hw]
  refine ⟨by simp [noSlash_stem input, hc, hs], by simp, fun h => ?_, fun h => ?_⟩ <;>
  · rw [h] at hl
    exact absurd hl (by decide)

/-- The characters of a candidate. -/
theorem toList_candidate (input : String) (k : Nat) : (candidate input k).toList =
    withName input.toList (stem input ++ tag k ++ ext input) := String.toList_ofList

/-- The name of a candidate is stem, tag and extension. -/
theorem name?_candidate (input : String) (k : Nat) :
    name? (candidate input k).toList = some (stem input ++ tag k ++ ext input) := by
  obtain ⟨-, -, -, hn⟩ := exists_name_eq input k
  rw [toList_candidate, name?_withName hn]

/-- A candidate has the extension that candidates have. -/
theorem extension?_candidate (input : String) (k : Nat) :
    extension? (candidate input k).toList = some (ext input) := by
  obtain ⟨before, hb, hw, -⟩ := exists_name_eq input k
  rw [extension?, name?_candidate, Option.bind_some, hw, split_append hb (ext_free input).2]

/-- **A candidate is of the input's format.** -/
theorem isJson_candidate (input : String) (k : Nat) :
    isJson (candidate input k) = isJson input := by
  rw [isJson, isJson, extension?_candidate, ext]
  cases extension? input.toList with
  | none => decide
  | some e => rfl

/-! ### The search -/

/-- What the search finds: a candidate before which all are taken, and which is free unless
the search gave up. -/
theorem firstFree_eq (taken : String → Bool) (input : String) : ∀ fuel k : Nat,
    ∃ n, k ≤ n ∧ Id.run (firstFree (pure ∘ taken) input fuel k) = candidate input n ∧
      (∀ i, k ≤ i → i < n → taken (candidate input i) = true) ∧
      (n < k + fuel → taken (candidate input n) = false)
  | 0, k => ⟨k, Nat.le_refl k, rfl, by omega, by omega⟩
  | fuel + 1, k => by
    cases ht : taken (candidate input k) with
    | false => exact ⟨k, Nat.le_refl k, by simp [firstFree, ht], by omega, fun _ => ht⟩
    | true =>
      obtain ⟨n, hn, hr, hb, hf⟩ := firstFree_eq taken input fuel (k + 1)
      refine ⟨n, by omega, by simp [firstFree, ht, hr], fun i hi hl => ?_, fun hl => hf (by omega)⟩
      rcases Nat.eq_or_lt_of_le hi with rfl | hi
      · exact ht
      · exact hb i hi hl

/-- The name that is found: the first candidate that is not taken, if there is one below the
limit. -/
theorem unique_eq (taken : String → Bool) (input : String) :
    ∃ n, Id.run (unique (pure ∘ taken) input) = candidate input n ∧
      (∀ i < n, taken (candidate input i) = true) ∧
        (n < limit → taken (candidate input n) = false) := by
  obtain ⟨n, -, hr, hb, hf⟩ := firstFree_eq taken input limit 0
  exact ⟨n, hr, fun i => hb i (Nat.zero_le i), fun hn => hf (by omega)⟩

end OutputName
end Retarget
