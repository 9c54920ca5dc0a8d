import Novella.Text.Blank
import Novella.Text.Numeral

/-!
# Arguments of commands

An argument list is divided at its commas, except for those between double quotes. Quotes are
removed and each argument is trimmed. Blank text holds no argument at all.

## Main definitions

* `Arguments.split` — the arguments of a list
* `Arguments.millis?` — a duration in milliseconds
* `SpritePosition.read?` — one of the three places for a sprite
-/

namespace Novella

namespace Arguments

/-- The state of the scan: the argument so far, last character first, and whether a quote is
open. -/
structure Scan where
  /-- The arguments already closed by a comma, last one first. -/
  closed : List (List Char) := []
  /-- The characters of the open argument, last one first. -/
  current : List Char := []
  /-- Whether the number of quotes so far is odd. -/
  quoted : Bool := false

/-- Takes one character into the scan. -/
def Scan.next (s : Scan) (c : Char) : Scan :=
  if c = '"' then { s with quoted := !s.quoted }
  else if c = ',' ∧ s.quoted = false then
    { s with closed := Text.trim s.current.reverse :: s.closed, current := [] }
  else { s with current := c :: s.current }

/-- The arguments of the list scanned so far. -/
def Scan.arguments (s : Scan) : List (List Char) :=
  let last := Text.trim s.current.reverse
  if last = [] ∧ s.closed = [] then [] else (last :: s.closed).reverse

/-- The arguments of a comma-separated list. -/
def split (argument : String) : List String :=
  ((argument.toList.foldl Scan.next {}).arguments).map String.ofList

/-- A number of milliseconds, after any number of percent signs. -/
def millis? (argument : String) : Option UInt64 :=
  Numeral.uint64? ((Text.trim argument.toList).dropWhile (· = '%'))

end Arguments

/-- Where a sprite stands. -/
inductive SpritePosition where
  /-- On the left. -/
  | left
  /-- In the middle. -/
  | center
  /-- On the right. -/
  | right
deriving DecidableEq, Repr

/-- The position that a letter stands for. -/
def SpritePosition.read? (s : String) : Option SpritePosition :=
  match Text.trim s.toList with
  | ['l'] => some .left
  | ['c'] => some .center
  | ['r'] => some .right
  | _ => none

end Novella
