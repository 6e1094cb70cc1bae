/-
# What is written is spelled

`Tree.spelling` is the spelling that the writer chooses for a tree: a line for each member
and each item, and escapes only where a text needs them.  The text of a tree is spelled like
that (`render_eq_text`), so what holds of every spelling holds of the writer's.
-/

import Retarget.Proofs.Json.Spelling.Shape
import Retarget.Proofs.Data.Tree

namespace Retarget
namespace Json

/-! ### Texts -/

/-- A control character has two hexadecimal digits. -/
theorem digits_lt {n : Nat} (h : n < 0x20) : n / 16 < 16 ∧ n % 16 < 16 := by
  omega

/-- The letter that is written for a character. -/
def Letter.of (c : Char) : Letter :=
  if h1 : c = '"' then .short '"' '"' rfl
  else if h2 : c = '\\' then .short '\\' '\\' rfl
  else if c = '\x08' then .short 'b' '\x08' rfl
  else if c = '\t' then .short 't' '\t' rfl
  else if c = '\n' then .short 'n' '\n' rfl
  else if c = '\x0c' then .short 'f' '\x0c' rfl
  else if c = '\r' then .short 'r' '\r' rfl
  else if h3 : c.toNat < 0x20 then
    .numbered ⟨'0', 0, rfl⟩ ⟨'0', 0, rfl⟩
      ⟨_, _, hexValue?_hexDigit _ (digits_lt h3).1⟩
      ⟨_, _, hexValue?_hexDigit _ (digits_lt h3).2⟩
  else .plain c (isPlain_iff.2 ⟨h1, h2, h3⟩)

theorem Letter.chars_of (c : Char) : (Letter.of c).chars = encodeChar c := by
  unfold encodeChar
  fun_cases Letter.of c <;> simp only [Letter.chars, if_true, if_false, Char.reduceEq, *]

namespace Literal

/-- The text as it is written. -/
def of (s : String) : Literal := s.toList.map Letter.of

theorem spellOpen_of (s : String) (rest : List Char) :
    spellOpen (of s) rest = s.toList.flatMap encodeChar ++ '"' :: rest := by
  rw [spellOpen, of, List.flatMap_map]
  simp only [Letter.chars_of]

theorem spell_of (s : String) (rest : List Char) : (of s).spell rest = encode s ++ rest := by
  rw [spell, spellOpen_of, encode_append]

/-- What is written for a text spells it. -/
@[simp] theorem text?_of (s : String) : (of s).text? = some s := by
  have h := Spelling.text_reads (of s) []
  rw [spellOpen_of, text_encode, List.reverse_nil, List.nil_append, String.ofList_toList] at h
  rcases h.ends with ⟨x, hx, h⟩ | ⟨-, e, h⟩
  · rw [hx, (Prod.mk.inj (Except.ok.inj h)).1]
  · cases h

end Literal

/-! ### Trees -/

/-- The blanks that start a line of a level. -/
def Gap.line (level : Nat) : Gap := .lineFeed :: List.replicate (2 * level) .space

theorem Gap.spell_line (level : Nat) (rest : List Char) :
    (Gap.line level).spell rest = newline level ++ rest := by
  simp [line, spell, newline, Blank.char]

/-- The blanks after an item or member: the closing bracket has a line of its own. -/
def Gap.lastLine {α : Type} (level : Nat) (later : List α) : Gap :=
  if later.isEmpty then line level else []

namespace Tree

mutual

/-- The tree as it is written at a level. -/
def spelling (level : Nat) : Tree → Spelling
  | .text s => .scalar (.text (.of s))
  | .flag b => .scalar (.flag b)
  | .list ts => .list [] (spellings level ts)
  | .record ms => .object [] (memberSpellings level ms)

/-- The items as they are written. -/
def spellings (level : Nat) : List Tree → List (Spaced Spelling)
  | [] => []
  | t :: ts => ⟨.line (level + 1), spelling (level + 1) t, .lastLine level ts⟩ :: spellings level ts

/-- The members as they are written. -/
def memberSpellings (level : Nat) : List (String × Tree) → List (Spaced Literal × Spaced Spelling)
  | [] => []
  | (key, t) :: ms =>
    (⟨.line (level + 1), .of key, []⟩, ⟨[.space], spelling (level + 1) t, .lastLine level ms⟩) ::
      memberSpellings level ms

end

mutual

theorem spell_spelling : ∀ (t : Tree) (level : Nat) (rest : List Char),
    (spelling level t).spell rest = write level t rest
  | .text s, level, rest => by
    rw [spelling, Spelling.spell, Scalar.spell, Literal.spell_of, write]
  | .flag b, level, rest => by cases b <;> rfl
  | .list [], level, rest => rfl
  | .list (t :: ts), level, rest => by
    rw [spelling, spellings, Spelling.spell, Gap.spell_line, spell_spelling t,
      spellItems_spellings ts, write]
    rfl
  | .record [], level, rest => rfl
  | .record ((key, t) :: ms), level, rest => by
    rw [spelling, memberSpellings, Spelling.spell, Gap.spell_line, Literal.spell_of,
      Gap.spell_nil, Gap.spell_cons, Gap.spell_nil, spell_spelling t,
      spellMembers_memberSpellings ms, write]
    simp [Blank.char]

theorem spellItems_spellings : ∀ (ts : List Tree) (level : Nat) (rest : List Char),
    (Gap.lastLine level ts).spell (Spelling.spellItems (spellings level ts) rest) =
      writeItems level ts rest
  | [], level, rest => by
    rw [Gap.lastLine, List.isEmpty_nil, if_pos rfl, Gap.spell_line]
    rfl
  | t :: ts, level, rest => by
    rw [spellings, Spelling.spellItems, Gap.spell_line, spell_spelling t,
      spellItems_spellings ts, writeItems]
    rfl

theorem spellMembers_memberSpellings : ∀ (ms : List (String × Tree)) (level : Nat)
    (rest : List Char),
    (Gap.lastLine level ms).spell (Spelling.spellMembers (memberSpellings level ms) rest) =
      writeMembers level ms rest
  | [], level, rest => by
    rw [Gap.lastLine, List.isEmpty_nil, if_pos rfl, Gap.spell_line]
    rfl
  | (key, t) :: ms, level, rest => by
    rw [memberSpellings, Spelling.spellMembers, Gap.spell_line, Literal.spell_of,
      Gap.spell_nil, Gap.spell_cons, Gap.spell_nil, spell_spelling t,
      spellMembers_memberSpellings ms, writeMembers]
    simp [Gap.lastLine, Blank.char]

end

/-- **What is written for a tree is spelled.** -/
theorem render_eq_text (t : Tree) : render t = Spelling.text ⟨[], spelling 0 t, []⟩ := by
  rw [render, Spelling.text, Gap.spell_nil, Gap.spell_nil, spell_spelling]

end Tree

/-- A member with no blanks in it. -/
def tightMember (key : String) (v : Spelling) : Spaced Literal × Spaced Spelling :=
  (⟨[], .of key, []⟩, ⟨[], v, []⟩)

end Json
end Retarget
