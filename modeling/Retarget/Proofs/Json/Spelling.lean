/-
# JSON texts taken apart

A spelling is a value as it stands in a JSON text: every blank, every escape and every
digit is kept, so that the text can be put together again.

    value    =  "null" | "true" | "false" | number | text
              | "[" [ item { "," item } ] "]"  |  "{" [ member { "," member } ] "}"
    item     =  blanks value blanks
    member   =  blanks text blanks ":" item
    number   =  [ "-" ] whole [ "." digits ] [ ( "e" | "E" ) [ "+" | "-" ] digits ]
    whole    =  "0" | a digit other than 0 { digit }
    text     =  '"' { letter } '"'
    letter   =  a character from the space on, other than '"' and "\"
              | "\" and one of  " \ / b f n r t  |  "\u" and four hexadecimal digits

A whole text is an item.  Nothing is said here of what a spelling means: `"\ud800"` is the
spelling of a text that no reader takes, and `1e999` that of a number that is too large.
-/

import Retarget.Json.Text
import Retarget.Json.Token

namespace Retarget
namespace Json

/-! ### Blanks -/

/-- A blank of a text. -/
inductive Blank where
  | space
  | tab
  | lineFeed
  | carriageReturn
  deriving DecidableEq, Repr

/-- The blank itself. -/
def Blank.char : Blank → Char
  | space => ' '
  | tab => '\t'
  | lineFeed => '\n'
  | carriageReturn => '\r'

theorem Blank.isBlank_char (b : Blank) : isBlank b.char = true := by
  cases b <;> rfl

/-- Blanks between two signs of a text. -/
abbrev Gap := List Blank

/-- The blanks before the rest of a text. -/
def Gap.spell (g : Gap) (rest : List Char) : List Char := g.map Blank.char ++ rest

@[simp] theorem Gap.spell_nil (rest : List Char) : Gap.spell [] rest = rest := rfl

@[simp] theorem Gap.spell_cons (b : Blank) (g : Gap) (rest : List Char) :
    Gap.spell (b :: g) rest = b.char :: Gap.spell g rest := rfl

/-- Something with the blanks around it. -/
structure Spaced (α : Type) where
  before : Gap
  value : α
  after : Gap
  deriving Repr

/-! ### Texts -/

/-- A hexadecimal digit with its value. -/
structure HexDigit where
  char : Char
  value : Nat
  isHex : hexValue? char = some value

/-- The character can stand for itself in a text. -/
def isPlain (c : Char) : Bool := c ≠ '"' && c ≠ '\\' && 0x20 ≤ c.toNat

/-- A character that is neither a sign of its own nor a control character is plain. -/
theorem isPlain_iff {c : Char} : isPlain c = true ↔ ¬c = '"' ∧ ¬c = '\\' ∧ ¬c.toNat < 0x20 := by
  simp [isPlain, and_assoc]

/-- A character of a text, as it is spelled. -/
inductive Letter where
  | plain (c : Char) (isPlain : isPlain c = true)
  | short (mark c : Char) (isEscape : escaped? mark = some c)
  | numbered (a b c d : HexDigit)

namespace Letter

/-- The characters that spell it. -/
def chars : Letter → List Char
  | plain c _ => [c]
  | short mark _ _ => ['\\', mark]
  | numbered a b c d => ['\\', 'u', a.char, b.char, c.char, d.char]

/-- The number that four hexadecimal digits write. -/
def number (a b c d : HexDigit) : Nat := ((a.value * 16 + b.value) * 16 + c.value) * 16 + d.value

end Letter

/-- A text as it is spelled. -/
abbrev Literal := List Letter

namespace Literal

/-- The letters and the closing quote, before the rest of a text. -/
def spellOpen (l : Literal) (rest : List Char) : List Char := l.flatMap Letter.chars ++ '"' :: rest

/-- The text with its quotes, before the rest of a text. -/
def spell (l : Literal) (rest : List Char) : List Char := '"' :: l.spellOpen rest

@[simp] theorem spellOpen_nil (rest : List Char) : spellOpen [] rest = '"' :: rest := rfl

@[simp] theorem spellOpen_cons (x : Letter) (l : Literal) (rest : List Char) :
    spellOpen (x :: l) rest = x.chars ++ spellOpen l rest := by
  simp [spellOpen]

/-- The characters of the text.  An escaped half of a character is none without the other half. -/
def decode? : Literal → Option (List Char)
  | [] => some []
  | .plain c _ :: l => (decode? l).map (c :: ·)
  | .short _ c _ :: l => (decode? l).map (c :: ·)
  | .numbered a b c d :: l =>
    let n := Letter.number a b c d
    if isSecondHalf n then none
    else if isFirstHalf n then
      match l with
      | .numbered a b c d :: l =>
        let m := Letter.number a b c d
        if isSecondHalf m then (decode? l).map (ofHalves n m :: ·) else none
      | _ => none
    else (decode? l).map (Char.ofNat n :: ·)

/-- The text that is spelled, if there is one. -/
def text? (l : Literal) : Option String := l.decode?.map String.ofList

end Literal

/-! ### Numbers -/

/-- A decimal digit. -/
structure Digit where
  char : Char
  isDigit : char.isDigit = true
  deriving DecidableEq

/-- At least one digit. -/
structure Digits where
  first : Digit
  more : List Digit
  deriving DecidableEq

namespace Digits

/-- The digits, in order. -/
def chars (ds : Digits) : List Char := ds.first.char :: ds.more.map Digit.char

end Digits

/-- The part of a number before its point. -/
inductive Whole where
  | zero
  | positive (digits : Digits) (notZero : digits.first.char ≠ '0')
  deriving DecidableEq

/-- The digits before the point. -/
def Whole.chars : Whole → List Char
  | zero => ['0']
  | positive digits _ => digits.chars

/-- The exponent of a number; its sign is `some true` for a minus sign. -/
structure Exponent where
  capital : Bool
  sign : Option Bool
  digits : Digits
  deriving DecidableEq

namespace Exponent

/-- The sign and the digits. -/
def tail (x : Exponent) : List Char :=
  (match x.sign with
  | none => []
  | some down => [if down then '-' else '+']) ++ x.digits.chars

/-- The exponent with its letter. -/
def chars (x : Exponent) : List Char := (if x.capital then 'E' else 'e') :: x.tail

end Exponent

/-- A number as it is spelled. -/
structure Numeral where
  negative : Bool
  whole : Whole
  fraction : Option Digits
  exponent : Option Exponent
  deriving DecidableEq

namespace Numeral

/-- What follows the part before the point. -/
def tail (n : Numeral) : List Char :=
  (match n.fraction with
  | none => []
  | some ds => '.' :: ds.chars) ++
  (match n.exponent with
  | none => []
  | some x => x.chars)

/-- The number without its sign. -/
def body (n : Numeral) : List Char := n.whole.chars ++ n.tail

/-- The number. -/
def chars (n : Numeral) : List Char := if n.negative then '-' :: n.body else n.body

end Numeral

/-! ### Values -/

/-- A value without brackets, as it is spelled. -/
inductive Scalar where
  | null
  | flag (b : Bool)
  | number (n : Numeral)
  | text (l : Literal)

/-- The scalar before the rest of a text. -/
def Scalar.spell : Scalar → (rest : List Char) → List Char
  | null, rest => 'n' :: 'u' :: 'l' :: 'l' :: rest
  | flag true, rest => 't' :: 'r' :: 'u' :: 'e' :: rest
  | flag false, rest => 'f' :: 'a' :: 'l' :: 's' :: 'e' :: rest
  | number n, rest => n.chars ++ rest
  | text l, rest => l.spell rest

/-- A value as it is spelled; `inner` are the blanks between empty brackets. -/
inductive Spelling where
  | scalar (s : Scalar)
  | list (inner : Gap) (items : List (Spaced Spelling))
  | object (inner : Gap) (members : List (Spaced Literal × Spaced Spelling))

namespace Spelling

mutual

/-- The value before the rest of a text. -/
def spell : Spelling → (rest : List Char) → List Char
  | scalar s, rest => s.spell rest
  | list inner [], rest => '[' :: inner.spell (']' :: rest)
  | list _ (⟨b, v, a⟩ :: xs), rest => '[' :: b.spell (spell v (a.spell (spellItems xs rest)))
  | object inner [], rest => '\x7b' :: inner.spell ('\x7d' :: rest)
  | object _ ((⟨b, l, a⟩, ⟨b', v, a'⟩) :: ms), rest =>
    '\x7b' :: b.spell (l.spell (a.spell (':' ::
      b'.spell (spell v (a'.spell (spellMembers ms rest))))))

/-- The further items of a list, and its end. -/
def spellItems : List (Spaced Spelling) → (rest : List Char) → List Char
  | [], rest => ']' :: rest
  | ⟨b, v, a⟩ :: xs, rest => ',' :: b.spell (spell v (a.spell (spellItems xs rest)))

/-- The further members of an object, and its end. -/
def spellMembers : List (Spaced Literal × Spaced Spelling) → (rest : List Char) → List Char
  | [], rest => '\x7d' :: rest
  | (⟨b, l, a⟩, ⟨b', v, a'⟩) :: ms, rest =>
    ',' :: b.spell (l.spell (a.spell (':' ::
      b'.spell (spell v (a'.spell (spellMembers ms rest))))))

end

mutual

/-- How many lists, objects and scalars there are in the value. -/
def size : Spelling → Nat
  | scalar _ => 1
  | list _ xs => sizeAll xs + 1
  | object _ ms => sizeMembers ms + 1

/-- How many there are in the items. -/
def sizeAll : List (Spaced Spelling) → Nat
  | [] => 0
  | ⟨_, v, _⟩ :: xs => size v + sizeAll xs

/-- How many there are in the members. -/
def sizeMembers : List (Spaced Literal × Spaced Spelling) → Nat
  | [] => 0
  | (_, ⟨_, v, _⟩) :: ms => size v + sizeMembers ms

end

theorem size_pos : ∀ v : Spelling, 0 < v.size
  | scalar _ => Nat.one_pos
  | list _ _ => Nat.succ_pos _
  | object _ _ => Nat.succ_pos _

theorem length_le_sizeAll (xs : List (Spaced Spelling)) : xs.length ≤ sizeAll xs := by
  induction xs with
  | nil => exact Nat.le_refl _
  | cons x xs ih => have := x.value.size_pos; simp only [sizeAll, List.length_cons]; omega

theorem length_le_sizeMembers (ms : List (Spaced Literal × Spaced Spelling)) :
    ms.length ≤ sizeMembers ms := by
  induction ms with
  | nil => exact Nat.le_refl _
  | cons m ms ih =>
    obtain ⟨k, b, v, a⟩ := m
    have := v.size_pos
    simp only [sizeMembers, List.length_cons]
    omega

theorem size_le_sizeAll {x : Spaced Spelling} {xs : List (Spaced Spelling)} (h : x ∈ xs) :
    x.value.size ≤ sizeAll xs := by
  induction xs with
  | nil => exact absurd h List.not_mem_nil
  | cons y xs ih =>
    rcases List.mem_cons.1 h with rfl | h
    · exact Nat.le_add_right ..
    · exact Nat.le_trans (ih h) (Nat.le_add_left ..)

theorem size_le_sizeMembers {m : Spaced Literal × Spaced Spelling}
    {ms : List (Spaced Literal × Spaced Spelling)} (h : m ∈ ms) :
    m.2.value.size ≤ sizeMembers ms := by
  induction ms with
  | nil => exact absurd h List.not_mem_nil
  | cons n ms ih =>
    rcases List.mem_cons.1 h with rfl | h
    · exact Nat.le_add_right ..
    · exact Nat.le_trans (ih h) (Nat.le_add_left ..)

mutual

/-- What holds of a list or object once it holds of everything directly inside, and of
scalars, holds of every value. -/
@[elab_as_elim]
theorem induct {P : Spelling → Prop} (scalar : ∀ s, P (.scalar s))
    (list : ∀ inner xs, (∀ x ∈ xs, P x.value) → P (.list inner xs))
    (object : ∀ inner ms, (∀ m ∈ ms, P m.2.value) → P (.object inner ms)) : ∀ v, P v
  | .scalar s => scalar s
  | .list inner xs => list inner xs (inductAll scalar list object xs)
  | .object inner ms => object inner ms (inductMembers scalar list object ms)

theorem inductAll {P : Spelling → Prop} (scalar : ∀ s, P (.scalar s))
    (list : ∀ inner xs, (∀ x ∈ xs, P x.value) → P (.list inner xs))
    (object : ∀ inner ms, (∀ m ∈ ms, P m.2.value) → P (.object inner ms)) :
    ∀ xs : List (Spaced Spelling), ∀ x ∈ xs, P x.value
  | [] => fun _ h => absurd h List.not_mem_nil
  | ⟨_, v, _⟩ :: xs => List.forall_mem_cons.2
    ⟨induct scalar list object v, inductAll scalar list object xs⟩

theorem inductMembers {P : Spelling → Prop} (scalar : ∀ s, P (.scalar s))
    (list : ∀ inner xs, (∀ x ∈ xs, P x.value) → P (.list inner xs))
    (object : ∀ inner ms, (∀ m ∈ ms, P m.2.value) → P (.object inner ms)) :
    ∀ ms : List (Spaced Literal × Spaced Spelling), ∀ m ∈ ms, P m.2.value
  | [] => fun _ h => absurd h List.not_mem_nil
  | (_, ⟨_, v, _⟩) :: ms => List.forall_mem_cons.2
    ⟨induct scalar list object v, inductMembers scalar list object ms⟩

end

/-- A value with blanks around it as a whole text. -/
def text (v : Spaced Spelling) : String :=
  String.ofList (v.before.spell (v.value.spell (v.after.spell [])))

end Spelling

example : Spelling.text ⟨[.tab], .list [] [⟨[], .scalar (.flag true), [.space]⟩,
    ⟨[], .object [.lineFeed] [], []⟩], []⟩ = "\t[true ,\x7b\n\x7d]" := rfl

end Json
end Retarget
