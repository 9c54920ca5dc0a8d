/-!
# Blank characters

Blank characters are those with the Unicode property White_Space. Scripts, argument lists and
variable references are trimmed of them at both ends.

## Main definitions

* `Text.isBlank` — membership in White_Space
* `Text.trimStart`, `Text.trimEnd`, `Text.trim` — removal of blank characters at the ends
-/

namespace Novella.Text

/-- Whether the character has the property White_Space. -/
def isBlank (c : Char) : Bool :=
  (0x9 ≤ c.toNat && c.toNat ≤ 0xD) || c.toNat = 0x20 || c.toNat = 0x85 || c.toNat = 0xA0
    || c.toNat = 0x1680 || (0x2000 ≤ c.toNat && c.toNat ≤ 0x200A) || c.toNat = 0x2028
    || c.toNat = 0x2029 || c.toNat = 0x202F || c.toNat = 0x205F || c.toNat = 0x3000

/-- The characters from the first one that is not blank. -/
def trimStart (cs : List Char) : List Char := cs.dropWhile isBlank

/-- The characters up to the last one that is not blank. -/
def trimEnd (cs : List Char) : List Char := (cs.reverse.dropWhile isBlank).reverse

/-- The characters between the blank ends. -/
def trim (cs : List Char) : List Char := trimEnd (trimStart cs)

/-- The text between its blank ends. -/
def trimmed (s : String) : String := String.ofList (trim s.toList)

end Novella.Text
