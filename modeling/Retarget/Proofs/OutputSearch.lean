/-
# The search for a free name ends

The candidates for the output stand in the directory of the input and differ in their numbers
alone, and a number can be read off its digits: different numbers give different paths
(`candidate_injective`).  Of the first `n + 1` candidates at least one is therefore not among `n`
existing paths (`exists_free_le`), and the search asks for one path more than it finds taken:

    probes       candidate 0, candidate 1, …, candidate k
    answers      taken,       taken,       …, free

A test for existence that keeps a list of the paths it is asked for (`probing`) shows the probes of
a search.  The limit of the search plays no part in this: with any limit above the number of
existing paths it asks for the same paths and comes to the same one (`run_firstFree_probing`).
-/

import Retarget.Proofs.OutputName
import Mathlib.Data.Finset.Card
import Mathlib.Data.Finset.Image
import Mathlib.Data.Finset.Range
import Mathlib.Data.Nat.Find

namespace Retarget
namespace FilePath

/-! ### The directory of a file -/

/-- The directory that a path names its file in. -/
def directory (path : List Char) : List Char := trimmed (lastName path).2

/-- A separator at the end of a path counts for nothing. -/
theorem trimmed_concat_sep {path : List Char} (h : path ≠ []) :
    trimmed (path ++ ['/']) = trimmed path := by
  have hr : path.reverse ≠ [] := by simpa using h
  rw [trimmed, trimmed, List.reverse_append, List.reverse_singleton, List.singleton_append,
    trimmed.ofReversed]
  exact hr

/-- A path with another name in it names a file of the same directory. -/
theorem directory_withName {path name other : List Char} (hn : name? path = some name)
    (ho : IsName other) : directory (withName path other) = directory path := by
  have hb : directory path = (if (name? path).isSome then trimmed (lastName path).2 else path) := by
    rw [hn]
    rfl
  have ht : trimmed (directory path) = directory path := trimmed_trimmed _
  rw [withName, ← hb]
  generalize directory path = base at ht ⊢
  split
  · rename_i he
    rw [directory, lastName_append ho (by simpa using he), ht]
  · rename_i he
    have hne : base ≠ [] := fun h => he (by simp [h])
    have hc : base ++ '/' :: other = base ++ ['/'] ++ other := by simp
    rw [hc, directory, lastName_append ho (.inr (by simp)), trimmed_concat_sep hne, ht]

end FilePath

namespace OutputName

open FilePath

/-! ### Candidates with different numbers -/

/-- Different numbers have different tags. -/
theorem tag_injective : Function.Injective tag := by
  have hw : ".migrated.".toList = ".migrated".toList ++ ['.'] := rfl
  have hd : ".migrated-".toList = ".migrated".toList ++ ['-'] := rfl
  intro i j h
  by_cases hi : i = 0 <;> by_cases hj : j = 0
  · rw [hi, hj]
  · simp [tag, hi, hj, hw, hd] at h
  · simp [tag, hi, hj, hw, hd] at h
  · have hdigits : Nat.toDigits 10 i = Nat.toDigits 10 j := by simpa [tag, hi, hj] using h
    calc i = Nat.ofDigitChars 10 (Nat.toDigits 10 i) 0 := Nat.ofDigitChars_ten_toDigits.symm
      _ = Nat.ofDigitChars 10 (Nat.toDigits 10 j) 0 := by rw [hdigits]
      _ = j := Nat.ofDigitChars_ten_toDigits

/-- **Different numbers give different paths.** -/
theorem candidate_injective (input : String) : Function.Injective (candidate input) := by
  intro i j h
  have hn := name?_candidate input i
  rw [h, name?_candidate, Option.some.injEq] at hn
  exact tag_injective (List.append_cancel_left (List.append_cancel_right hn.symm))

/-! ### The search among existing paths -/

/-- One of the first candidates is not among the existing paths: there are more candidates. -/
theorem exists_free_le (input : String) (existing : Finset String) :
    ∃ k ≤ existing.card, candidate input k ∉ existing := by
  have hc : existing.card < ((Finset.range (existing.card + 1)).image (candidate input)).card := by
    rw [Finset.card_image_of_injective _ (candidate_injective input), Finset.card_range]
    omega
  obtain ⟨path, hp, hn⟩ := Finset.exists_mem_notMem_of_card_lt_card hc
  obtain ⟨k, hk, rfl⟩ := Finset.mem_image.1 hp
  exact ⟨k, by have := Finset.mem_range.1 hk; omega, hn⟩

/-- A test for existence that keeps a list of the paths it is asked for. -/
def probing (existing : Finset String) (path : String) : StateM (List String) Bool := do
  modify (· ++ [path])
  return path ∈ existing

/-- One probe: the search goes on behind a path that is taken, and ends with one that is free. -/
theorem run_firstFree_succ (existing : Finset String) (input : String) (fuel start : Nat)
    (asked : List String) :
    (firstFree (probing existing) input (fuel + 1) start).run asked =
      if candidate input start ∈ existing then
        (firstFree (probing existing) input fuel (start + 1)).run
          (asked ++ [candidate input start])
      else (candidate input start, asked ++ [candidate input start]) := by
  have hb : (firstFree (probing existing) input (fuel + 1) start).run asked =
      (if decide (candidate input start ∈ existing) = true then
          firstFree (probing existing) input fuel (start + 1)
        else pure (candidate input start)).run (asked ++ [candidate input start]) := rfl
  rw [hb]
  by_cases h : candidate input start ∈ existing
  · rw [if_pos (decide_eq_true h), if_pos h]
  · rw [if_neg (by simpa using h), if_neg h]
    rfl

/-- **The search asks for the candidates in order, up to the first that is free.** -/
theorem run_firstFree_probing {input : String} {existing : Finset String} {k : Nat}
    (hfree : candidate input k ∉ existing) {fuel start : Nat} (hs : start ≤ k)
    (hf : k < start + fuel) (ht : ∀ i, start ≤ i → i < k → candidate input i ∈ existing)
    (asked : List String) :
    (firstFree (probing existing) input fuel start).run asked =
      (candidate input k,
        asked ++ (List.range' start (k + 1 - start)).map (candidate input)) := by
  induction fuel generalizing start asked with
  | zero => omega
  | succ fuel ih =>
    rw [run_firstFree_succ]
    rcases Nat.eq_or_lt_of_le hs with rfl | hlt
    · rw [if_neg hfree, Nat.add_sub_cancel_left]
      rfl
    · have hr : List.range' start (k + 1 - start) =
          start :: List.range' (start + 1) (k + 1 - (start + 1)) := by
        rw [show k + 1 - start = k + 1 - (start + 1) + 1 by omega, List.range'_succ]
      have hrest : ∀ i, start + 1 ≤ i → i < k → candidate input i ∈ existing :=
        fun i hi => ht i (by omega)
      rw [if_pos (ht start (Nat.le_refl start) hlt), ih hlt (by omega) hrest, hr, List.map_cons,
        List.append_assoc, List.singleton_append]

/-- **The first free candidate is found**, and it is one of the first. -/
theorem exists_first_free (input : String) (existing : Finset String) :
    ∃ k ≤ existing.card, candidate input k ∉ existing ∧
      ∀ i < k, candidate input i ∈ existing := by
  obtain ⟨n, hn, hfree⟩ := exists_free_le input existing
  have hex : ∃ k, candidate input k ∉ existing := ⟨n, hfree⟩
  refine ⟨Nat.find hex, (Nat.find_min' hex hfree).trans hn, Nat.find_spec hex, fun i hi => ?_⟩
  exact not_not.1 (Nat.find_min hex hi)

/-- The parts of a candidate's name, for an input that names a file. -/
theorem name?_candidate_eq {input : String} {name : List Char}
    (hn : name? input.toList = some name) (k : Nat) :
    name? (candidate input k).toList = some ((split name).1 ++
      (if k = 0 then ".migrated.".toList
        else ".migrated-".toList ++ (toString k).toList ++ ['.']) ++
      (split name).2.getD "yaml".toList) := by
  have hs : stem input = (split name).1 := by simp [stem, stem?, hn]
  have he : ext input = (split name).2.getD "yaml".toList := by simp [ext, extension?, hn]
  have hd : (toString k).toList = Nat.toDigits 10 k := by simp
  rw [name?_candidate, hs, he, hd, tag]

/-- **The search takes the first name that is free, and ends.**  Every candidate is a path of the
input's directory whose name is made of the stem, the tag with the number in decimal digits, and
the extension, and no two are the same.  Among `n` existing paths the search comes to a candidate
that is not one of them, with all earlier ones taken.  It asks for the candidates in order and for
at most `n + 1` of them, which any limit above `n` allows for. -/
theorem unique_takes_first_free (input : String) (name : List Char) (existing : Finset String)
    (hname : name? input.toList = some name) (hsize : existing.card < Nat.pow 2 31) :
    Function.Injective (candidate input) ∧
    (∀ i, directory (candidate input i).toList = directory input.toList ∧
      name? (candidate input i).toList = some ((split name).1 ++
        (if i = 0 then ".migrated.".toList
          else ".migrated-".toList ++ (toString i).toList ++ ['.']) ++
        (split name).2.getD "yaml".toList)) ∧
    ∃ k, candidate input k ∉ existing ∧ (∀ i < k, candidate input i ∈ existing) ∧
      let found := (unique (probing existing) input).run []
      found.1 = candidate input k ∧
      found.2 = (List.range (k + 1)).map (candidate input) ∧
      found.2.length ≤ existing.card + 1 ∧
      ∀ fuel > existing.card, (firstFree (probing existing) input fuel 0).run [] = found := by
  refine ⟨candidate_injective input, fun i => ⟨?_, name?_candidate_eq hname i⟩, ?_⟩
  · obtain ⟨-, -, -, hn⟩ := exists_name_eq input i
    rw [toList_candidate, directory_withName hname hn]
  · obtain ⟨k, hk, hfree, htaken⟩ := exists_first_free input existing
    have hrun : ∀ fuel > existing.card, (firstFree (probing existing) input fuel 0).run [] =
        (candidate input k, (List.range (k + 1)).map (candidate input)) := by
      intro fuel hf
      rw [run_firstFree_probing hfree (Nat.zero_le k) (by omega) (fun i _ => htaken i),
        List.nil_append, List.range_eq_range']
      rfl
    have hlimit : existing.card < limit := hsize.trans (by decide)
    have hfound : (unique (probing existing) input).run [] = _ := hrun limit hlimit
    refine ⟨k, hfree, htaken, ?_⟩
    simp only [hfound]
    refine ⟨trivial, trivial, ?_, hrun⟩
    rw [List.length_map, List.length_range]
    omega

/-- Two names are taken, and the search asks for three. -/
theorem unique_takes_first_free_third :
    let existing : Finset String := {"old/a.b.migrated.yaml", "old/a.b.migrated-1.yaml", "old/a.b"}
    let found := (unique (probing existing) "old/./a.b.yaml").run []
    name? "old/./a.b.yaml".toList = some "a.b.yaml".toList ∧ existing.card < Nat.pow 2 31 ∧
      found.1 = "old/a.b.migrated-2.yaml" ∧
      found.2 = ["old/a.b.migrated.yaml", "old/a.b.migrated-1.yaml", "old/a.b.migrated-2.yaml"] := by
  intro existing found
  have hn : name? "old/./a.b.yaml".toList = some "a.b.yaml".toList := by decide
  have hs : existing.card < Nat.pow 2 31 := by decide
  obtain ⟨-, -, k, hfree, htaken, hpath, hprobes, -, -⟩ :=
    unique_takes_first_free "old/./a.b.yaml" _ existing hn hs
  have h0 : candidate "old/./a.b.yaml" 0 = "old/a.b.migrated.yaml" := by decide
  have h1 : candidate "old/./a.b.yaml" 1 = "old/a.b.migrated-1.yaml" := by decide
  have h2 : candidate "old/./a.b.yaml" 2 = "old/a.b.migrated-2.yaml" := by decide
  obtain rfl : k = 2 := by
    have hk0 : k ≠ 0 := by
      rintro rfl
      exact absurd hfree (by rw [h0]; decide)
    have hk1 : k ≠ 1 := by
      rintro rfl
      exact absurd hfree (by rw [h1]; decide)
    have hk2 : ¬ 2 < k := fun h => absurd (htaken 2 h) (by rw [h2]; decide)
    omega
  refine ⟨hn, hs, hpath.trans h2, hprobes.trans ?_⟩
  rw [← h0, ← h1, ← h2]
  rfl

end OutputName
end Retarget
