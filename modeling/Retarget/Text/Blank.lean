/-
# White space

The characters with the Unicode property `White_Space`, and trimming by them:

| code points | what |
| --- | --- |
| `U+0009` … `U+000D`, `U+0020` | tab, line feed, vertical tab, form feed, carriage return, space |
| `U+0085`, `U+00A0` | next line, no-break space |
| `U+1680`, `U+2000` … `U+200A`, `U+202F`, `U+205F`, `U+3000` | the other spaces |
| `U+2028`, `U+2029` | line and paragraph separator |

`trim` takes the longest run of such characters off both ends of a text and
nothing else.
-/

namespace Retarget
namespace Text

/-- The character has the property `White_Space`. -/
def isBlank (c : Char) : Bool :=
  let n := c.toNat
  (0x09 ≤ n && n ≤ 0x0D) || n == 0x20 || n == 0x85 || n == 0xA0 || n == 0x1680 ||
    (0x2000 ≤ n && n ≤ 0x200A) || n == 0x2028 || n == 0x2029 || n == 0x202F ||
    n == 0x205F || n == 0x3000

/-- The text without the white space at its start. -/
def trimStart (cs : List Char) : List Char := cs.dropWhile isBlank

/-- The text without the white space at its end. -/
def trimEnd (cs : List Char) : List Char := (cs.reverse.dropWhile isBlank).reverse

/-- The text without the white space at either end. -/
def trim (cs : List Char) : List Char := trimEnd (trimStart cs)

@[simp] theorem trim_nil : trim [] = [] := rfl

end Text
end Retarget
