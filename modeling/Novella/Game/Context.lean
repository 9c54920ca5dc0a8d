import Novella.Variable.Progress

/-!
# Context

The context of a game is everything but its variables: the place in the script, what is heard and
what is seen. Together with the progress it is a position that a save can bring back.
-/

namespace Novella

/-- What is heard. Empty names stand for silence. -/
structure Audio where
  /-- The music. -/
  track : String := ""
  /-- The sound that repeats. -/
  loopedEffect : String := ""
deriving DecidableEq, Repr

/-- What is seen. Empty names stand for nothing shown. -/
structure Graphics where
  /-- The picture behind the sprites. -/
  background : String := ""
  /-- The sprite on the left. -/
  left : String := ""
  /-- The sprite in the middle. -/
  center : String := ""
  /-- The sprite on the right. -/
  right : String := ""
deriving DecidableEq, Repr

/-- The place in the script, with what is heard and seen there. -/
structure Context where
  /-- The name of the scene. -/
  scene : String := ""
  /-- The index of the line. -/
  index : UInt64 := 0
  /-- What is heard. -/
  audio : Audio := {}
  /-- What is seen. -/
  graphics : Graphics := {}
deriving DecidableEq, Repr

instance : Inhabited Context := ⟨{}⟩

end Novella
