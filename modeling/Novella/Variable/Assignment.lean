import Novella.Script.Condition
import Novella.Variable.Progress

/-!
# Assignments

The commands on variables take a variable, a comma and an operand, which is a whole condition. They
compute with 64-bit integers and clamp a result that does not fit. Adding to a text, or a text to a
number, joins the two texts.

## Main definitions

* `Operation` — how the new value comes from the old one and the operand
* `Assignment.apply` — `variable,operand`, as `mov` and the arithmetic commands take it
* `Assignment.step` — one up or one down
* `AssignmentError` — why nothing was changed
-/

namespace Novella

/-- How a command on variables makes the new value. -/
inductive Operation where
  /-- The operand is the new value. -/
  | assign
  /-- Sum, or joined text. -/
  | add
  /-- Difference. -/
  | subtract
  /-- Product. -/
  | multiply
  /-- Quotient, rounded toward zero. -/
  | divide
  /-- Remainder, with the sign of the old value. -/
  | modulo
deriving DecidableEq, Repr

/-- Why a command on variables changed nothing. -/
inductive AssignmentError where
  /-- There is no comma in the argument. -/
  | missingOperand (argument : String)
  /-- Something follows the operand. -/
  | trailing (rest : String)
  /-- The variable refuses the change. -/
  | refused (e : VariableError)
  /-- The operand has no value. -/
  | condition (e : ConditionError)
deriving DecidableEq, Repr

/-- The text of the error for the script's author. -/
def AssignmentError.message : AssignmentError → String
  | missingOperand argument => s!"Expected '<var>,<operand>', got '{argument}'"
  | trailing rest => s!"Unexpected trailing input '{rest}'"
  | refused e => e.message
  | condition e => e.message

/-- The result of an operation on two integers, before it is clamped. -/
def Operation.onInts (op : Operation) (a b : Int) : Int :=
  match op with
  | assign => b
  | add => a + b
  | subtract => a - b
  | multiply => a * b
  | divide => a.tdiv b
  | modulo => a.tmod b

namespace Assignment

/-- The new value of `v`, which holds `current`. -/
def combine (v : Variable) (op : Operation) (current operand : Value) :
    Except VariableError Value :=
  match op, current.int?, operand.int? with
  | .assign, _, _ => .ok operand
  | .add, none, _ => .ok (.str (current.text ++ operand.text))
  | .add, _, none => .ok (.str (current.text ++ operand.text))
  | .divide, some _, some 0 => .error (.divisionByZero v.text)
  | .modulo, some _, some 0 => .error (.divisionByZero v.text)
  | op, some a, some b => .ok (.int (Int64.ofIntClamp (op.onInts a.toInt b.toInt)))
  | _, none, _ => .error (.notAnInteger v.text current.text)
  | _, _, none => .error (.notAnInteger v.text operand.text)

/-- The value of an operand, which is to be the whole text. -/
def operand (p : Progress) (cs : List Char) : Except AssignmentError Value := do
  let (e, rest) ← (Condition.read cs).mapError .condition
  if rest ≠ [] then throw (.trailing (String.ofList rest))
  (e.eval p.get).mapError .condition

/-- The outcome of an assignment: the variable, its new value as computed, and the progress that
holds it. -/
structure Outcome where
  /-- The variable that changes. -/
  target : Variable
  /-- The value it was given. -/
  value : Value
  /-- The progress after the change. -/
  progress : Progress

/-- Stores the combination of a variable's value with an operand. -/
def store (p : Progress) (v : Variable) (op : Operation) (operand : Value) :
    Except AssignmentError Outcome := do
  let x ← (combine v op (p.get v) operand).mapError .refused
  let p ← (p.set v x).mapError .refused
  return ⟨v, x, p⟩

/-- Carries out `variable,operand`. -/
def apply (p : Progress) (op : Operation) (argument : String) : Except AssignmentError Outcome := do
  match argument.toList.dropWhile (· ≠ ',') with
  | [] => throw (.missingOperand argument)
  | _ :: rest =>
    let v ← (Variable.read (argument.toList.takeWhile (· ≠ ','))).mapError .refused
    store p v op (← operand p rest)

/-- Adds `delta` to the variable that the argument names. -/
def step (p : Progress) (delta : Int64) (argument : String) : Except AssignmentError Outcome := do
  let v ← (Variable.read argument.toList).mapError .refused
  store p v .add (.int delta)

end Assignment

end Novella
