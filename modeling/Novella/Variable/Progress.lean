import Novella.SortedMap
import Novella.Variable.Reference
import Novella.Variable.Value

/-!
# Progress

The progress of a game is the state of its variables: the flags that are set, the counters with
their numbers, and the temporaries with their values.

## Main definitions

* `Progress.get` — the value of a variable
* `Progress.set` — a change of one variable, refused where an integer is needed and none is given
-/

namespace Novella

/-- The values of all variables. -/
structure Progress where
  /-- The flags that are set. -/
  flags : SortedSet String := ∅
  /-- The counters that were set, with their numbers. -/
  counters : SortedMap String Int64 := ∅
  /-- The temporaries that were set, with their values. -/
  temporaries : SortedMap String Value := ∅
deriving DecidableEq

namespace Progress

instance : Inhabited Progress := ⟨{}⟩

/-- The value of a variable: a flag is 1 or 0, a counter is 0 and a temporary is empty until set. -/
def get (p : Progress) : Variable → Value
  | .flag id => .ofBool (p.flags.contains id)
  | .counter name => .int ((p.counters.get? name).getD 0)
  | .temporary name => (p.temporaries.get? name).getD (.str "")

/-- The integer view of a value for the variable `v`. -/
def requireInt (v : Variable) (x : Value) : Except VariableError Int64 :=
  match x.int? with
  | some n => .ok n
  | none => .error (.notAnInteger v.text x.text)

/-- Gives a variable a new value. A flag is set by any integer but zero. -/
def set (p : Progress) (v : Variable) (x : Value) : Except VariableError Progress :=
  match v with
  | .flag id => do
    let n ← requireInt v x
    return { p with flags := if n = 0 then p.flags.erase id else p.flags.insert id () }
  | .counter name => do
    let n ← requireInt v x
    return { p with counters := p.counters.insert name n }
  | .temporary name => return { p with temporaries := p.temporaries.insert name x }

end Progress

end Novella
