import Novella.Text.Blank
import Novella.Text.Numeral

/-!
# Script values

A value is a 64-bit integer or a text. A text that reads as an integer, blank ends apart, also
counts as that integer wherever one is asked for.

## Main definitions

* `Value.int?` — the integer view of a value
* `Value.isTruthy` — whether a condition accepts the value
* `Value.text` — how the value is shown
-/

namespace Novella

/-- A value that scripts can hold. -/
inductive Value where
  /-- An integer. -/
  | int (n : Int64)
  /-- A text. -/
  | str (s : String)
deriving DecidableEq, Repr

namespace Value

instance : Inhabited Value := ⟨.str ""⟩

/-- The value as an integer, if it is one or reads as one. -/
def int? : Value → Option Int64
  | int n => some n
  | str s => Numeral.int64? (Text.trim s.toList)

/-- Whether the value counts as true: an integer other than zero, a text other than the empty
one. -/
def isTruthy : Value → Bool
  | int n => n ≠ 0
  | str s => s ≠ ""

/-- The text of the value. -/
def text : Value → String
  | int n => String.ofList (Numeral.ofInt n.toInt)
  | str s => s

/-- The value of a yes-or-no answer. -/
def ofBool (b : Bool) : Value := .int (if b then 1 else 0)

end Value

end Novella
