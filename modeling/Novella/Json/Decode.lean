import Novella.Json.Reader

/-!
# Values from JSON

Each reader here takes a document as read and gives a value, if the document stands for one.

A record is written as an object or as an array. In an object its fields may come in any order,
other members are passed over, and no field may come twice. An array lists the fields in their own
order and may end early. Either way a field can be missing, and the reader of the record decides
what that means.

## Main definitions

* `Json.toInt?`, `Json.toInt64?`, `Json.toUInt64?`, `Json.toText?` — numbers and texts
* `Json.fields?` — the fields of a record
* `Json.entries?` — the members of a map
-/

namespace Novella.Json

/-- The integer that a document is. It has no fraction and no exponent, and zero has no sign. -/
def toInt? : Read → Option Int
  | .number t => if t = ['-', '0'] then none else
    if t.all (fun c => c.isDigit || c = '-') then Numeral.integer? t else none
  | _ => none

/-- The signed 64-bit integer that a document is. -/
def toInt64? (j : Read) : Option Int64 := (toInt? j).bind Numeral.toInt64?

/-- The unsigned 64-bit integer that a document is. -/
def toUInt64? (j : Read) : Option UInt64 :=
  (toInt? j).bind (fun n => if n < 0 then none else Numeral.toUInt64? n.toNat)

/-- The text that a document is. -/
def toText? : Read → Option String
  | .string s => s.text
  | _ => none

/-- The items of an array, each read by `f`. -/
def toList? {α : Type} (f : Read → Option α) : Read → Option (List α)
  | .array xs => xs.mapM f
  | _ => none

/-- The members of an object whose names are read by `k` and whose values are read by `f`. -/
def entries? {α β : Type} (k : Quoted → Option α) (f : Read → Option β) :
    Read → Option (List (α × β))
  | .object ms => ms.mapM (fun m => do return (← k m.1, ← f m.2))
  | _ => none

/-- The values of the members with a name. -/
def valuesOf (name : String) (ms : List (Quoted × Read)) : List Read :=
  (ms.filter (fun m => m.1.text = some name)).map (·.2)

/-- The fields of a record with these names, in their order; `none` stands for a missing one. -/
def fields? (names : List String) : Read → Option (List (Option Read))
  | .object ms =>
    if ms.all (fun m => m.1.text.isSome) then
      names.mapM (fun name =>
        match valuesOf name ms with
        | [] => some none
        | [v] => some (some v)
        | _ => none)
    else none
  | .array xs =>
    if xs.length ≤ names.length then
      some (xs.map some ++ List.replicate (names.length - xs.length) none)
    else none
  | _ => none

/-- A field that may not be missing. -/
def required {α : Type} (f : Read → Option α) : Option Read → Option α
  | some j => f j
  | none => none

/-- A field that is `d` when it is missing. -/
def withDefault {α : Type} (d : α) (f : Read → Option α) : Option Read → Option α
  | some j => f j
  | none => some d

/-- A field that may be missing or null. -/
def optional {α : Type} (f : Read → Option α) : Option Read → Option (Option α)
  | none => some none
  | some .null => some none
  | some j => (f j).map some

end Novella.Json
