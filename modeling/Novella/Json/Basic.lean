import Novella.Text.Numeral

/-!
# JSON documents

A document is a tree of values. Numbers are kept as they are written. What a string holds is a
parameter: a document to be written holds texts, a document as read holds quoted texts, some of
which may be unreadable.

## Main definitions

* `Json` — documents, with `Json.map` on their strings
* `Json.Written` — a document to be written
* `Json.lastWins` — a document whose objects name each member once
-/

namespace Novella

/-- A JSON document whose strings are of type `σ`. -/
inductive Json (σ : Type) where
  /-- The absent value. -/
  | null
  /-- True or false. -/
  | bool (b : Bool)
  /-- A number, as it is written. -/
  | number (token : List Char)
  /-- A string. -/
  | string (s : σ)
  /-- A list of values. -/
  | array (items : List (Json σ))
  /-- Named values, in order. -/
  | object (members : List (σ × Json σ))

namespace Json

/-- A document to be written. -/
abbrev Written := Json String

/-- The number `n`. -/
def ofInt {σ : Type} (n : Int) : Json σ := .number (Numeral.ofInt n)

section Map

variable {σ ρ : Type} (f : σ → ρ)

mutual

/-- The document with `f` applied to every string and every name. -/
def map : Json σ → Json ρ
  | .null => .null
  | .bool b => .bool b
  | .number t => .number t
  | .string s => .string (f s)
  | .array xs => .array (mapItems xs)
  | .object ms => .object (mapMembers ms)
termination_by structural x => x

/-- `map` on the items of an array. -/
def mapItems : List (Json σ) → List (Json ρ)
  | [] => []
  | x :: xs => map x :: mapItems xs
termination_by structural x => x

/-- `map` on the members of an object. -/
def mapMembers : List (σ × Json σ) → List (ρ × Json ρ)
  | [] => []
  | m :: ms => mapMember m :: mapMembers ms
termination_by structural x => x

/-- `map` on a member. -/
def mapMember : σ × Json σ → ρ × Json ρ
  | (k, v) => (f k, map v)
termination_by structural x => x

end

end Map

/-- The members without those whose name occurs again later. -/
def keepLast {σ α : Type} [DecidableEq σ] : List (σ × α) → List (σ × α)
  | [] => []
  | m :: ms => if ms.any (fun n => n.1 = m.1) then keepLast ms else m :: keepLast ms

mutual

/-- The document in which, of several members of an object with one name, the last one stays. -/
def lastWins : Written → Written
  | .array xs => .array (lastWinsItems xs)
  | .object ms => .object (keepLast (lastWinsMembers ms))
  | x => x
termination_by structural x => x

/-- `lastWins` on the items of an array. -/
def lastWinsItems : List Written → List Written
  | [] => []
  | x :: xs => lastWins x :: lastWinsItems xs
termination_by structural x => x

/-- `lastWins` on the members of an object. -/
def lastWinsMembers : List (String × Written) → List (String × Written)
  | [] => []
  | m :: ms => lastWinsMember m :: lastWinsMembers ms
termination_by structural x => x

/-- `lastWins` on a member. -/
def lastWinsMember : String × Written → String × Written
  | (k, v) => (k, lastWins v)
termination_by structural x => x

end

end Json

end Novella
