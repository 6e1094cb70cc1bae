/-
# Texts and numbers are read as they are spelled

A reading of something that is spelled comes to what the spelling alone decides: to its
value, with what follows in the text left, or to an error (`Reads`).  For a text that is
`Literal.text?`.  For a number it is whatever the reader makes of the number alone
(`Numeral.value?`); what follows a number does not change it, as long as it cannot go on
with a number (`Ends`).
-/

import Retarget.Proofs.Json.Spelling
import Retarget.Proofs.Json.Written

namespace Retarget
namespace Json

/-- The reading yields the value and stops before `rest`, or there is no value and it ends
with an error. -/
def Reads {α : Type} (r : Reading α) (x? : Option α) (rest : List Char) : Prop :=
  match x? with
  | some x => r = .ok (x, rest)
  | none => ∃ e, r = .error e

namespace Reads

variable {α β : Type} {r : Reading α} {x? : Option α} {rest : List Char}

theorem error (e : Fault) (rest : List Char) : Reads (.error e : Reading α) none rest := ⟨e, rfl⟩

/-- The two ends of a reading. -/
theorem ends (h : Reads r x? rest) :
    (∃ x, x? = some x ∧ r = .ok (x, rest)) ∨ x? = none ∧ ∃ e, r = .error e := by
  cases x? with
  | none => exact .inr ⟨rfl, h⟩
  | some x => exact .inl ⟨x, rfl, h⟩

theorem map (h : Reads r x? rest) (f : α → β) :
    Reads (r.map fun (x, rest) => (f x, rest)) (x?.map f) rest := by
  rcases h.ends with ⟨x, rfl, rfl⟩ | ⟨rfl, e, rfl⟩
  · rfl
  · exact error e rest

/-- What is read after a value is read after it. -/
theorem bind (h : Reads r x? rest) {k : α × List Char → Reading β} {y? : α → Option β}
    {rest' : List Char} (hk : ∀ x, Reads (k (x, rest)) (y? x) rest') :
    Reads (r.bind k) (x?.bind y?) rest' := by
  rcases h.ends with ⟨x, rfl, rfl⟩ | ⟨rfl, e, rfl⟩
  · exact hk x
  · exact error e rest'

/-- Where all members are read, the closing bracket is read with them. -/
theorem closed {b : Bracket} (h : Reads r x? (b.closing :: rest)) : Reads (b.closed r) x? rest := by
  rcases h.ends with ⟨x, rfl, rfl⟩ | ⟨rfl, e, rfl⟩
  · have hb : isBlank b.closing = false := by cases b <;> decide
    have hs : skipBlank (b.closing :: rest) = b.closing :: rest := skipBlank_cons hb rest
    simp only [Reads, Bracket.closed, Bracket.close, hs, if_true]
    rfl
  · exact error _ rest

end Reads

/-- What is found one level further in, if there is a level left. -/
def deeper {α : Type} (levels : Nat) (x? : Nat → Option α) : Option α :=
  match levels with
  | 0 => none
  | l + 1 => x? l

theorem Reads.inside {α : Type} {read : Nat → Reading α} {levels : Nat} {cs rest : List Char}
    {x? : Nat → Option α} (h : ∀ l, levels = l + 1 → Reads (read l) (x? l) rest) :
    Reads (inside levels read cs) (deeper levels x?) rest := by
  cases levels with
  | zero => exact Reads.error _ rest
  | succ l => exact h l rfl

theorem skipBlank_gap (g : Gap) (cs : List Char) : skipBlank (g.spell cs) = skipBlank cs := by
  refine List.dropWhile_append_of_pos fun c hc => ?_
  obtain ⟨b, -, rfl⟩ := List.mem_map.1 hc
  exact b.isBlank_char

/-! ### Texts -/

theorem HexDigit.fourDigits (a b c d : HexDigit) (rest : List Char) :
    fourDigits (a.char :: b.char :: c.char :: d.char :: rest) = .ok (Letter.number a b c d, rest) := by
  simp only [Json.fourDigits, fourDigits?, a.isHex, b.isHex, c.isHex, d.isHex, Letter.number]

/-- The text fails if the escape at its front does. -/
theorem text_of_escape_error {cs : List Char} {e : Fault} (h : escape cs = .error e)
    (read : List Char) : text read ('\\' :: cs) = .error e := by
  rw [text, if_neg (by decide), if_pos rfl]
  split
  · rename_i e' he
    rw [h] at he
    rw [Except.error.inj he]
  · rename_i he
    rw [h] at he
    cases he

theorem escape_numbered (a b c d : HexDigit) (rest : List Char) :
    escape ('u' :: a.char :: b.char :: c.char :: d.char :: rest) =
      (let n := Letter.number a b c d
      if isSecondHalf n then fail .loneSurrogate rest
      else if isFirstHalf n then secondHalf n rest
      else .ok (Char.ofNat n, rest)) := by
  have hu : escaped? 'u' = none := rfl
  simp only [escape, hu, if_true, numbered, HexDigit.fourDigits]

/-- A second half is read after its own escape. -/
theorem secondHalf_numbered (n : Nat) (a b c d : HexDigit) (rest : List Char) :
    secondHalf n ('\\' :: 'u' :: a.char :: b.char :: c.char :: d.char :: rest) =
      if isSecondHalf (Letter.number a b c d) then .ok (ofHalves n (Letter.number a b c d), rest)
      else fail .loneSurrogate rest := by
  simp only [secondHalf, expect, if_true, secondDigits, HexDigit.fourDigits]

/-- A first half fails without an escape of four digits after it. -/
theorem exists_secondHalf_eq_error (n : Nat) {l : Literal} (rest : List Char)
    (h : ∀ a b c d l', l = .numbered a b c d :: l' → False) :
    ∃ e, secondHalf n (Literal.spellOpen l rest) = .error e := by
  rcases l with _ | ⟨x, l⟩
  · exact ⟨_, rfl⟩
  · cases x with
    | plain c hc =>
      have hc' : c ≠ '\\' := by rintro rfl; cases hc
      simp [secondHalf, Letter.chars, expect, hc', stop]
    | short mark c hc =>
      have hm : mark ≠ 'u' := by rintro rfl; cases hc
      simp [secondHalf, Letter.chars, expect, hm, stop]
    | numbered a b c d => exact (h a b c d l rfl).elim

/-- **A text is read as it is spelled**, up to its closing quote. -/
theorem text_spellOpen (l : Literal) (read rest : List Char) :
    Reads (text read (Literal.spellOpen l rest))
      (l.decode?.map fun cs => String.ofList (read.reverse ++ cs)) rest := by
  -- what is left to read after a character is read with that character kept
  have step {l : Literal} {c : Char} {read : List Char} {cs : List Char}
      (h : text read cs = text (c :: read) (Literal.spellOpen l rest))
      (ih : Reads (text (c :: read) (Literal.spellOpen l rest))
        (l.decode?.map fun cs => String.ofList ((c :: read).reverse ++ cs)) rest) :
      Reads (text read cs) ((l.decode?.map (c :: ·)).map fun cs => String.ofList (read.reverse ++ cs))
        rest := by
    rw [h, Option.map_map]
    simpa [Function.comp_def] using ih
  fun_induction Literal.decode? l generalizing read with
  | case1 =>
    rw [Literal.spellOpen_nil, text, if_pos rfl]
    simp [Reads]
  | case2 c hc l ih =>
    have h := isPlain_iff.1 hc
    refine step ?_ (ih (c :: read))
    rw [Literal.spellOpen_cons, Letter.chars, List.singleton_append, text, if_neg h.1, if_neg h.2.1,
      if_neg h.2.2]
  | case3 mark c hc l ih =>
    exact step (text_backslash (escape_letter hc _) read) (ih (c :: read))
  | case4 a b c d l n hn =>
    have he := escape_numbered a b c d (Literal.spellOpen l rest)
    rw [if_pos hn] at he
    exact ⟨_, text_of_escape_error he read⟩
  | case5 a b c d n hn hf a' b' c' d' l m hm ih =>
    have he := escape_numbered a b c d (Literal.spellOpen (.numbered a' b' c' d' :: l) rest)
    have hs := secondHalf_numbered n a' b' c' d' (Literal.spellOpen l rest)
    rw [if_pos hm] at hs
    rw [if_neg hn, if_pos hf] at he
    exact step (text_backslash (he.trans hs) read) (ih (ofHalves n m :: read))
  | case6 a b c d n hn hf a' b' c' d' l m hm =>
    have he := escape_numbered a b c d (Literal.spellOpen (.numbered a' b' c' d' :: l) rest)
    have hs := secondHalf_numbered n a' b' c' d' (Literal.spellOpen l rest)
    rw [if_neg hm] at hs
    rw [if_neg hn, if_pos hf] at he
    exact ⟨_, text_of_escape_error (he.trans hs) read⟩
  | case7 a b c d l n hn hf hl =>
    have he := escape_numbered a b c d (Literal.spellOpen l rest)
    obtain ⟨e, hs⟩ := exists_secondHalf_eq_error n rest hl
    rw [if_neg hn, if_pos hf] at he
    exact ⟨e, text_of_escape_error (he.trans hs) read⟩
  | case8 a b c d l n hn hf ih =>
    have he := escape_numbered a b c d (Literal.spellOpen l rest)
    rw [if_neg hn, if_neg hf] at he
    exact step (text_backslash he read) (ih (Char.ofNat n :: read))

end Json
end Retarget
