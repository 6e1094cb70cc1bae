/-
# The output is in the format of the input

The format of a file is decided by the extension of its path, three times over: when the
project is read, when the name of the output is put together, and when the output is
written.  The last point of a name and the points at its front decide what its extension
is:

| input | stem | extension | first candidate | format |
| --- | --- | --- | --- | --- |
| `a.json`, `a.JSON` | `a` | `json`, `JSON` | `a.migrated.json`, `a.migrated.JSON` | JSON |
| `a.b.json` | `a.b` | `json` | `a.b.migrated.json` | JSON |
| `a` | `a` | none | `a.migrated.yaml` | YAML |
| `.json` | `.json` | none | `.json.migrated.yaml` | YAML |
| `a.json.` | `a.json` | empty | `a.json.migrated.` | YAML |

A candidate has the extension of the input or `yaml`, so all three agree; and it is longer
than the input's name by its tag, so it is another name.
-/

import Retarget.Proofs.OutputName
import Retarget.Run

namespace Retarget
namespace OutputName

open FilePath

/-- A candidate's name is longer than the name of the input. -/
theorem length_lt_of_name? {input : String} {name : List Char} (h : name? input.toList = some name)
    (k : Nat) : name.length < (stem input ++ tag k ++ ext input).length := by
  obtain ⟨cs, ht, -, -⟩ := tag_eq k
  have hs : stem input = (split name).1 := by simp [stem, stem?, h]
  have hl : (stem input ++ tag k ++ ext input).length =
      (split name).1.length + (cs.length + 2) + (ext input).length := by
    simp [hs, ht]
    omega
  rw [hl]
  rcases eq_append_of_split name with ⟨-, hw⟩ | ⟨e, he, hw, -⟩
  · rw [hw]
    omega
  · have hx : ext input = e := by simp [ext, extension?, h, he]
    have hn := congrArg List.length hw
    rw [List.length_append, List.length_cons] at hn
    rw [hx]
    omega

/-- A candidate does not have the input's name. -/
theorem name?_candidate_ne (input : String) (k : Nat) :
    name? (candidate input k).toList ≠ name? input.toList := by
  intro h
  rw [name?_candidate] at h
  exact Nat.lt_irrefl _ (length_lt_of_name? h.symm k)

/-- **The output is written in the format that the input is read in, under another name**,
whatever the path of the input and whichever paths exist. -/
theorem unique_keeps_format (taken : String → Bool) (input : String) :
    ∃ output, Id.run (unique (pure ∘ taken) input) = output ∧
      isJson output = isJson input ∧
      (∀ text, Project.ofText output text = Project.ofText input text) ∧
      (∀ p : Project, p.toText output =
        if isJson input then Json.render p.tree else Yaml.render p.tree) ∧
      ∃ name, name? output.toList = some name ∧ name? input.toList ≠ some name := by
  obtain ⟨k, hk, -, -⟩ := unique_eq taken input
  have hj : isJson (candidate input k) = isJson input := isJson_candidate input k
  refine ⟨candidate input k, hk, hj, fun text => ?_, fun p => ?_, _, name?_candidate input k,
    fun h => ?_⟩
  · rw [Project.ofText, Project.ofText, hj]
  · rw [Project.toText, hj]
  · exact name?_candidate_ne input k (by rw [h, name?_candidate])

example : (["d.d/a", ".json", "a.json.", "a.b.JSON"].map fun input => candidate input 0) =
    ["d.d/a.migrated.yaml", ".json.migrated.yaml", "a.json.migrated.", "a.b.migrated.JSON"] := by
  decide +kernel

end OutputName
end Retarget
