import TensorGraph.Text.Combining
import TensorGraph.Text.Unassigned

/-!
# Quoting texts in messages

A text that a message quotes is put between double quotes.  Double quotes, backslashes and
characters that cannot be seen are written as escapes.
-/

namespace TensorGraph

/-- The characters beyond ASCII that leave nothing to see: controls, spaces, separators, format
characters and fillers (the categories Cc, Cf, Zs, Zl and Zp of Unicode 17, and the property
Default_Ignorable_Code_Point).  Those that combine with the character before are left out. -/
def CharacterSet.blank : CharacterSet := ⟨
  [(0x7f, 0xa0), (0xad, 0xad), (0x600, 0x605), (0x61c, 0x61c), (0x6dd, 0x6dd), (0x70f, 0x70f),
    (0x890, 0x891), (0x8e2, 0x8e2), (0x115f, 0x1160), (0x1680, 0x1680), (0x180e, 0x180e),
    (0x2000, 0x200b), (0x200d, 0x200f), (0x2028, 0x202f), (0x205f, 0x2064), (0x2066, 0x206f),
    (0x3000, 0x3000), (0x3164, 0x3164), (0xfeff, 0xfeff), (0xffa0, 0xffa0), (0xfff9, 0xfffb),
    (0x110bd, 0x110bd), (0x110cd, 0x110cd), (0x13430, 0x1343f), (0x1bca0, 0x1bca3),
    (0x1d173, 0x1d17a), (0xe0001, 0xe0001)]⟩

/-- Whether a character can be seen by itself. -/
def isVisible (c : Char) : Bool :=
  if c.toNat < 0x7f then 0x20 ≤ c.toNat
  else !(CharacterSet.blank.contains c || CharacterSet.combining.contains c ||
    CharacterSet.unassigned.contains c)

/-- The hexadecimal digits of a number. -/
def hexadecimal (n : Nat) : String := String.ofList (Nat.toDigits 16 n)

/-- The written form of a character inside quotes. -/
def escapeChar (c : Char) : String :=
  if c = '"' then "\\\""
  else if c = '\\' then "\\\\"
  else if c = '\n' then "\\n"
  else if c = '\r' then "\\r"
  else if c = '\t' then "\\t"
  else if c = '\x00' then "\\0"
  else if isVisible c then c.toString
  else "\\u\x7b" ++ hexadecimal c.toNat ++ "\x7d"

/-- A text between double quotes, with escapes. -/
def escaped (s : String) : String := "\"" ++ String.join (s.toList.map escapeChar) ++ "\""

end TensorGraph
