import Novella.Json.Basic

/-!
# Writing JSON

The compact form has no blanks. The pretty form has one item a line, indented by two spaces for each
level, a blank after the colon, and nothing between the brackets of an empty array or object.
Strings escape the double quote, the backslash and the control characters below U+0020, of which
five have a short escape and the others four lower-case hexadecimal digits.

## Main definitions

* `Json.compact`, `Json.pretty` — the two forms of a document
* `Json.quote` — the form of a string
-/

namespace Novella.Json

/-- How a character stands in a string. -/
def escape (c : Char) : List Char :=
  match c with
  | '"' => ['\\', '"']
  | '\\' => ['\\', '\\']
  | '\n' => ['\\', 'n']
  | '\r' => ['\\', 'r']
  | '\t' => ['\\', 't']
  | '\x08' => ['\\', 'b']
  | '\x0c' => ['\\', 'f']
  | c =>
    if c.toNat < 0x20 then
      ['\\', 'u', '0', '0', Numeral.hexDigit (c.toNat / 16), Numeral.hexDigit (c.toNat % 16)]
    else [c]

/-- The string with its quotes. -/
def quote (s : String) : List Char := '"' :: s.toList.flatMap escape ++ ['"']

mutual

/-- The compact form. -/
def compact : Written → List Char
  | .null => "null".toList
  | .bool b => (if b then "true" else "false").toList
  | .number t => t
  | .string s => quote s
  | .array xs => '[' :: compactItems xs ++ [']']
  | .object ms => '\x7b' :: compactMembers ms ++ ['\x7d']
termination_by structural x => x

/-- The items of an array with commas between them. -/
def compactItems : List Written → List Char
  | [] => []
  | [x] => compact x
  | x :: y :: xs => compact x ++ ',' :: compactItems (y :: xs)
termination_by structural x => x

/-- The members of an object with commas between them. -/
def compactMembers : List (String × Written) → List Char
  | [] => []
  | [m] => compactMember m
  | m :: n :: ms => compactMember m ++ ',' :: compactMembers (n :: ms)
termination_by structural x => x

/-- A member: its name, a colon, its value. -/
def compactMember : String × Written → List Char
  | (k, v) => quote k ++ ':' :: compact v
termination_by structural x => x

end

/-- A line break and the indentation of a level. -/
def newline (level : Nat) : List Char := '\n' :: List.replicate (2 * level) ' '

mutual

/-- The pretty form of a value at a level. -/
def prettyAt (level : Nat) : Written → List Char
  | .null => "null".toList
  | .bool b => (if b then "true" else "false").toList
  | .number t => t
  | .string s => quote s
  | .array [] => ['[', ']']
  | .array (x :: xs) => '[' :: prettyItems (level + 1) (x :: xs) ++ newline level ++ [']']
  | .object [] => ['\x7b', '\x7d']
  | .object (m :: ms) =>
    '\x7b' :: prettyMembers (level + 1) (m :: ms) ++ newline level ++ ['\x7d']
termination_by structural x => x

/-- The items of an array, each on a line of its own. -/
def prettyItems (level : Nat) : List Written → List Char
  | [] => []
  | [x] => newline level ++ prettyAt level x
  | x :: y :: xs => newline level ++ prettyAt level x ++ ',' :: prettyItems level (y :: xs)
termination_by structural x => x

/-- The members of an object, each on a line of its own. -/
def prettyMembers (level : Nat) : List (String × Written) → List Char
  | [] => []
  | [m] => newline level ++ prettyMember level m
  | m :: n :: ms => newline level ++ prettyMember level m ++ ',' :: prettyMembers level (n :: ms)
termination_by structural x => x

/-- A member: its name, a colon and a blank, its value. -/
def prettyMember (level : Nat) : String × Written → List Char
  | (k, v) => quote k ++ ':' :: ' ' :: prettyAt level v
termination_by structural x => x

end

/-- The pretty form. -/
def pretty (j : Written) : List Char := prettyAt 0 j

end Novella.Json
