/-
# The style of a scalar that was written

What is known of a text by the style in which it is written (`Written.style_eq_*`), and the
two facts for which the styles are made: a scalar that was written means its text
(`Written.scalar_means_text`), and all of its characters are printable.
-/

import Retarget.Proofs.Yaml.Characters

namespace Retarget
namespace Yaml

namespace Resolve

/-- A whole number means one. -/
theorem eq_of_wholeMeaning? {w : Bool × Nat} {m : Meaning} (h : wholeMeaning? w = some m) :
    (∃ n, m = .known (.unsigned n)) ∨ (∃ i, m = .known (.signed i)) ∨ ∃ i, m = .wide i := by
  have wide {p : Prop} [Decidable p] {i : Int}
      (h : (if p then some (Meaning.wide i) else none) = some m) : m = .wide i := by
    split at h
    · exact (Option.some.inj h).symm
    · simp at h
  rw [wholeMeaning?.eq_def] at h
  split at h
  · split at h
    · exact .inl ⟨_, (Option.some.inj h).symm⟩
    · exact .inr (.inr ⟨_, wide h⟩)
  · split at h
    · exact .inr (.inl ⟨_, (Option.some.inj h).symm⟩)
    · exact .inr (.inr ⟨_, wide h⟩)

/-- What means some text means itself. -/
theorem untagged_eq_of_isText {s : String} (h : (untagged s).isText = true) :
    untagged s = .known (.text s) := by
  rw [untagged] at h ⊢
  split
  · rename_i he
    rw [if_pos he] at h
    exact absurd h (by decide)
  · rename_i he
    rw [if_neg he] at h
    split
    · rename_i hf
      simp only [hf] at h
      exact absurd h Bool.false_ne_true
    · rename_i hf
      simp only [hf] at h
      split
      · rename_i m hm
        simp only [hm] at h
        obtain ⟨w, -, hw⟩ := Option.bind_eq_some_iff.1 hm
        rcases eq_of_wholeMeaning? hw with ⟨n, rfl⟩ | ⟨i, rfl⟩ | ⟨i, rfl⟩ <;>
          exact absurd h Bool.false_ne_true
      · rename_i hm
        simp only [hm] at h
        split
        · rename_i x hx
          simp only [hx] at h
          exact absurd h Bool.false_ne_true
        · rfl

theorem ne_nil_of_isText {s : String} (h : (untagged s).isText = true) : s.toList ≠ [] := by
  intro he
  rw [String.toList_eq_nil_iff.1 he] at h
  exact absurd h (by decide)

end Resolve

namespace Written

variable {s : String}

theorem style_eq_plain (h : style s = .plain) :
    (Resolve.untagged s).isText = true ∧ plainAllowed s.toList = true := by
  rw [style] at h
  split at h
  · split at h <;> simp at h
  · split at h
    · rename_i hp
      simp only [isAmbiguous, Bool.not_or, Bool.not_not, Bool.and_eq_true] at hp
      exact ⟨hp.1.1, hp.2⟩
    · split at h <;> simp at h

theorem style_eq_single (h : style s = .singleQuoted) :
    s.toList.contains '\n' = false ∧ singleAllowed s.toList = true := by
  rw [style] at h
  split at h
  · split at h <;> simp at h
  · rename_i hn
    split at h
    · simp at h
    · split at h
      · rename_i hs
        exact ⟨by simpa using hn, hs⟩
      · simp at h

theorem style_eq_literal (h : style s = .literal) :
    s.toList.contains '\n' = true ∧ literalAllowed s.toList = true := by
  rw [style] at h
  split at h
  · rename_i hn
    split at h
    · rename_i hl
      exact ⟨hn, hl⟩
    · simp at h
  · split at h
    · simp at h
    · split at h <;> simp at h

theorem style_ne_folded : style s ≠ .folded := by
  rw [style]
  split
  · split <;> simp
  · split
    · simp
    · split <;> simp

/-- **A scalar that was written means its text.** -/
theorem scalar_means_text (s : String) :
    Resolve.scalar none s (style s) = .ok (.known (.text s)) := by
  rw [Resolve.scalar]
  split
  · rename_i h
    rw [Resolve.untagged_eq_of_isText (style_eq_plain h).1]
  · rfl

theorem printable_of_singleAllowed {cs : List Char} (h : singleAllowed cs = true) :
    Printable cs := by
  simp only [singleAllowed, Bool.and_eq_true, List.all_eq_true] at h
  exact h.2

theorem printable_of_plainAllowed {cs : List Char} (h : plainAllowed cs = true) : Printable cs := by
  simp only [plainAllowed, Bool.and_eq_true] at h
  exact printable_of_singleAllowed h.1.1.1

theorem noBreak_of_plainAllowed {cs : List Char} (h : plainAllowed cs = true) :
    ∀ c ∈ cs.getLast?, isBreak c = false := by
  intro c hc
  simp only [plainAllowed, Bool.and_eq_true, Bool.not_eq_true'] at h
  simpa using List.any_eq_false.1 h.1.1.2 c (List.mem_of_getLast? hc)

theorem printable_of_literalAllowed {cs : List Char} (h : literalAllowed cs = true) :
    Printable cs := by
  simp only [literalAllowed, Bool.and_eq_true, List.all_eq_true] at h
  exact h.1.2

theorem printable_scalar (indent : Nat) (s : String) : Printable (scalar indent s) := by
  rw [scalar]
  split
  · rename_i h
    exact printable_of_plainAllowed (style_eq_plain h).2
  · rename_i h
    exact printable_single (printable_of_singleAllowed (style_eq_single h).2)
  · rename_i h
    exact printable_literal (printable_of_literalAllowed (style_eq_literal h).2)
  · exact printable_double _

end Written

/-- A line feed is added unless the text ends in a break. -/
theorem ended_eq {cs : List Char} (h : ∀ c ∈ cs.getLast?, isBreak c = false) :
    ended cs = cs ++ ['\n'] := by
  rw [ended]
  cases hl : cs.getLast? with
  | none => rfl
  | some c => simp [h c hl]

end Yaml
end Retarget
