import Novella.Text.Blank
import Novella.Text.WordChar

/-!
# References to variables

A reference begins with a sigil. After a percent sign stands a counter or, if the name goes on
after the letters `flg`, a flag; after a dollar sign stands a temporary. Names are made of word
characters and are not empty.

## Main definitions

* `Variable` — a flag, a counter or a temporary, with its name
* `Variable.ofChars?`, `Variable.read` — the variable that a token refers to
* `Variable.text` — the reference as scripts write it
* `VariableError` — why a variable could not be read or changed
-/

namespace Novella

/-- A variable of a script. -/
inductive Variable where
  /-- A flag, set or not. -/
  | flag (id : String)
  /-- A counter, zero until it is first set. -/
  | counter (name : String)
  /-- A temporary, empty until it is first set. -/
  | temporary (name : String)
deriving DecidableEq, Repr

/-- Why a variable could not be referred to or changed. -/
inductive VariableError where
  /-- The token is no reference. -/
  | invalidReference (token : String)
  /-- The variable takes integers and the value is none. -/
  | notAnInteger (name value : String)
  /-- The variable was to be divided by zero. -/
  | divisionByZero (name : String)
deriving DecidableEq, Repr

/-- The text of the error for the script's author. -/
def VariableError.message : VariableError → String
  | invalidReference token => s!"Invalid variable reference '{token}'"
  | notAnInteger name value => s!"Variable '{name}' expects an integer, got '{value}'"
  | divisionByZero name => s!"Division by zero while updating '{name}'"

namespace Variable

/-- The reference as scripts write it. -/
def text : Variable → String
  | flag id => "%flg" ++ id
  | counter name => "%" ++ name
  | temporary name => "$" ++ name

/-- Whether the characters can name a variable. -/
def isName (cs : List Char) : Bool := cs ≠ [] && cs.all Text.isWordChar

/-- The flag or counter with the name after a percent sign. -/
def flagOrCounter : List Char → Variable
  | 'f' :: 'l' :: 'g' :: c :: cs => flag (String.ofList (c :: cs))
  | cs => counter (String.ofList cs)

/-- The variable that a trimmed token refers to. -/
def ofChars? : List Char → Option Variable
  | '%' :: cs => if isName cs then some (flagOrCounter cs) else none
  | '$' :: cs => if isName cs then some (temporary (String.ofList cs)) else none
  | _ => none

/-- The variable that a token refers to, blank ends apart. -/
def read (token : List Char) : Except VariableError Variable :=
  match ofChars? (Text.trim token) with
  | some v => .ok v
  | none => .error (.invalidReference (String.ofList (Text.trim token)))

end Variable

end Novella
