/-
# Characters of a YAML text that was written

Everything that is written is printable: the styles without escapes are chosen only for
texts of printable characters, and an escape consists of such.  A text of printable
characters may be read, and its line breaks are left as they are (`Tokens.ofText_eq`).
-/

import Retarget.Yaml.Lexer
import Retarget.Yaml.Printer

namespace Retarget
namespace Yaml

open Written (isPrintable)

/-- Every character can be written as it is. -/
def Printable (cs : List Char) : Prop := ∀ c ∈ cs, isPrintable c = true

namespace Printable

variable {c : Char} {cs ds : List Char}

theorem nil : Printable [] := fun _ h => absurd h List.not_mem_nil

theorem cons (hc : isPrintable c = true) (h : Printable cs) : Printable (c :: cs) :=
  List.forall_mem_cons.2 ⟨hc, h⟩

theorem append (h : Printable cs) (h' : Printable ds) : Printable (cs ++ ds) :=
  fun c hc => (List.mem_append.1 hc).elim (h c) (h' c)

theorem spaces (n : Nat) : Printable (Written.spaces n) := by
  intro c hc
  rw [List.eq_of_mem_replicate hc]
  rfl

end Printable

theorem isAllowed_of_isPrintable {c : Char} (h : isPrintable c = true) : isAllowed c = true := by
  simp only [isPrintable, isAllowed, Bool.or_eq_true, Bool.and_eq_true, beq_iff_eq,
    decide_eq_true_eq] at h ⊢
  omega

/-- A printable character is neither a tab nor one of the breaks that are replaced. -/
theorem ne_of_isPrintable {c : Char} (h : isPrintable c = true) :
    c ≠ '\t' ∧ c ≠ '\r' ∧ c ≠ '\u0085' := by
  refine ⟨?_, ?_, ?_⟩ <;> rintro rfl <;> exact absurd h (by decide)

theorem forbidden?_eq_none {cs : List Char} (h : Printable cs) (n : Nat) :
    forbidden? n cs = none := by
  induction cs generalizing n with
  | nil => rfl
  | cons c cs ih =>
    obtain ⟨hc, hcs⟩ := List.forall_mem_cons.1 h
    rw [forbidden?, if_pos (isAllowed_of_isPrintable hc), ih hcs]

theorem unify_eq_self {cs : List Char} (h : Printable cs) : unify cs = cs := by
  induction cs with
  | nil => rfl
  | cons c cs ih =>
    obtain ⟨hc, hcs⟩ := List.forall_mem_cons.1 h
    obtain ⟨-, hr, hn⟩ := ne_of_isPrintable hc
    rw [unify, ih hcs]
    · simp [hr, hn]
    · rintro ds rfl rfl
      exact hr rfl

/-- The tokens of a text of printable characters are those of its characters. -/
theorem Tokens.ofText_eq {cs : List Char} (h : Printable cs) :
    Tokens.ofText cs = (Lexer.ofText cs).run (cs.length + 2) := by
  rw [ofText, forbidden?_eq_none h]
  simp only [unify_eq_self h]

/-! ### Scalars -/

/-- A digit of a number in an escape. -/
def hexDigit (n : Nat) : Char := (Nat.digitChar (n % 16)).toUpper

theorem isPrintable_hexDigit (n : Nat) : isPrintable (hexDigit n) = true := by
  have h : ∀ k < 16, isPrintable (Nat.digitChar k).toUpper = true := by decide
  exact h _ (Nat.mod_lt n (by decide))

theorem printable_hexDigits (n count : Nat) : Printable (Written.hexDigits n count) := by
  induction count generalizing n with
  | zero => exact .nil
  | succ count ih => exact (ih _).append (.cons (isPrintable_hexDigit n) .nil)

theorem printable_escaped (c : Char) : Printable (Written.escaped c) := by
  rw [Written.escaped]
  split
  · rename_i d hd
    have h : ∀ e ∈ Written.letters, isPrintable e.2 = true := by decide
    obtain ⟨l₁, l₂, he, -⟩ := List.lookup_eq_some_iff.1 hd
    have hm : (c, d) ∈ Written.letters := by rw [he]; simp
    exact .cons rfl (.cons (h _ hm) .nil)
  · dsimp only
    split
    · exact .cons rfl (.cons rfl (printable_hexDigits _ _))
    · split
      · exact .cons rfl (.cons rfl (printable_hexDigits _ _))
      · exact .cons rfl (.cons rfl (printable_hexDigits _ _))

theorem printable_double (cs : List Char) : Printable (Written.double cs) := by
  refine .append (.cons rfl fun c hc => ?_) (.cons rfl .nil)
  obtain ⟨d, -, hd⟩ := List.mem_flatMap.1 hc
  rw [Written.doubleChar] at hd
  split at hd
  · exact printable_escaped d c hd
  · rename_i hp
    obtain rfl := List.mem_singleton.1 hd
    simp only [Bool.or_eq_true, not_or, Bool.not_eq_true', Bool.not_eq_false] at hp
    exact hp.1.1.1

theorem printable_indented {indent : Nat} {write : Char → List Char}
    {cs : List Char} (atStart : Bool)
    (hw : ∀ c ∈ cs, Printable (write c)) (h : Printable cs) :
    Printable (Written.indented indent write atStart cs) := by
  induction cs generalizing atStart with
  | nil => exact .nil
  | cons c cs ih =>
    obtain ⟨hc, hcs⟩ := List.forall_mem_cons.1 h
    obtain ⟨hwc, hwcs⟩ := List.forall_mem_cons.1 hw
    rw [Written.indented]
    split
    · exact .cons hc (ih _ hwcs hcs)
    · refine .append (.append ?_ hwc) (ih _ hwcs hcs)
      split
      · exact .spaces _
      · exact .nil

theorem printable_single {indent : Nat} {cs : List Char} (h : Printable cs) :
    Printable (Written.single indent cs) := by
  have hw : ∀ c ∈ cs, Printable (Written.singleChar c) := by
    intro c hc
    rw [Written.singleChar]
    split
    · exact .cons rfl (.cons rfl .nil)
    · exact .cons (h c hc) .nil
  refine .append (.append (.cons rfl (printable_indented _ hw h)) ?_) (.cons rfl .nil)
  split
  · exact .spaces _
  · exact .nil

theorem printable_literal {indent : Nat} {cs : List Char} (h : Printable cs) :
    Printable (Written.literal indent cs) := by
  have hs : Printable (Written.chompingSign cs) := by
    rw [Written.chompingSign]
    split
    · exact .cons rfl .nil
    · split
      · exact .cons rfl .nil
      · split
        · exact .cons rfl .nil
        · exact .nil
  refine .append (.append (.cons rfl ?_) hs) (.cons rfl (printable_indented _ (fun c hc => ?_) h))
  · split
    · exact .cons rfl .nil
    · exact .nil
  · exact .cons (h c hc) .nil

end Yaml
end Retarget
