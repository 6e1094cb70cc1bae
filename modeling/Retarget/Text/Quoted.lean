/-
# Quoted texts in messages

Error messages and log fields show a text between double quotes:

| character | written |
| --- | --- |
| `"`, `\` | a backslash and the character |
| NUL, tab, line feed, carriage return | `\0`, `\t`, `\n`, `\r` |
| another that is not shown | `\u` and its code point in small hexadecimal digits between braces |
| any other | itself |
-/

import Retarget.Text.Printable

namespace Retarget
namespace Text

/-- The number in hexadecimal digits, small letters, without leading zeros. -/
def hexadecimal (n : Nat) : List Char := Nat.toDigits 16 n

/-- The character as it stands between quotes. -/
def quotedChar (c : Char) : List Char :=
  if c = '"' then ['\\', '"']
  else if c = '\\' then ['\\', '\\']
  else if c = '\x00' then ['\\', '0']
  else if c = '\t' then ['\\', 't']
  else if c = '\n' then ['\\', 'n']
  else if c = '\r' then ['\\', 'r']
  else if isShown c then [c]
  else ['\\', 'u', '\x7b'] ++ hexadecimal c.toNat ++ ['\x7d']

/-- The text between double quotes, with every character visible. -/
def quoted (s : String) : String :=
  String.ofList ('"' :: s.toList.flatMap quotedChar ++ ['"'])

end Text
end Retarget
