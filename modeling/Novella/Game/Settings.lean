/-!
# Player settings

What the player of a game chooses: how fast text appears, how many pages the history keeps, and how
long auto-play waits.
-/

namespace Novella

/-- How fast text is revealed. -/
inductive TextSpeed where
  /-- Everything up to the next pause at once. -/
  | instant
  /-- A character every 10 milliseconds. -/
  | fast
  /-- A character every 30 milliseconds. -/
  | normal
  /-- A character every 60 milliseconds. -/
  | slow
deriving DecidableEq, Repr

/-- The time between two characters, in milliseconds. -/
def TextSpeed.charDelay : TextSpeed → Nat
  | instant => 0
  | fast => 10
  | normal => 30
  | slow => 60

/-- The settings that are stored beside the save slots. -/
structure Settings where
  /-- The speed of text. -/
  textSpeed : TextSpeed := .normal
  /-- The number of pages kept in the history. -/
  historyLimit : UInt64 := 20
  /-- The time after which auto-play goes on, in milliseconds. -/
  autoPlayDelay : UInt64 := 1500
deriving DecidableEq, Repr

instance : Inhabited Settings := ⟨{}⟩

end Novella
