import Novella.Cell.Basic
import Novella.Game.Context
import Novella.Game.Settings

/-!
# The stage

The stage is the live state of a game: one observable cell for each thing that a presentation may
want to follow. The scene and the line are cells too, and the player of a script follows them to
know what to run next.

## Main definitions

* `CellName`, `CellName.Value` — the cells and what each holds
* `Stage` — the cells themselves, with `Stage.cell` and `Stage.withCell`
* `Stage.context`, `Stage.progress` — a snapshot
-/

namespace Novella

/-- The names of the cells. -/
inductive CellName where
  /-- The name of the scene. -/
  | scene
  /-- The index of the line. -/
  | index
  /-- The music. -/
  | track
  /-- The sound that repeats. -/
  | loopedEffect
  /-- The picture behind the sprites. -/
  | background
  /-- The sprite on the left. -/
  | left
  /-- The sprite in the middle. -/
  | center
  /-- The sprite on the right. -/
  | right
  /-- The variables. -/
  | vars
  /-- The last sound played once. -/
  | soundEffect
  /-- The settings of the player. -/
  | settings
deriving DecidableEq, Repr

namespace CellName

/-- What a cell holds. -/
abbrev Value : CellName → Type
  | scene => String
  | index => UInt64
  | track => String
  | loopedEffect => String
  | background => String
  | left => String
  | center => String
  | right => String
  | vars => Progress
  | soundEffect => Option String
  | settings => Settings

instance : (c : CellName) → DecidableEq c.Value
  | scene => inferInstanceAs (DecidableEq String)
  | index => inferInstanceAs (DecidableEq UInt64)
  | track => inferInstanceAs (DecidableEq String)
  | loopedEffect => inferInstanceAs (DecidableEq String)
  | background => inferInstanceAs (DecidableEq String)
  | left => inferInstanceAs (DecidableEq String)
  | center => inferInstanceAs (DecidableEq String)
  | right => inferInstanceAs (DecidableEq String)
  | vars => inferInstanceAs (DecidableEq Progress)
  | soundEffect => inferInstanceAs (DecidableEq (Option String))
  | settings => inferInstanceAs (DecidableEq Settings)

end CellName

/-- The cells of a game, whose observers react by data of type `κ`. -/
structure Stage (κ : Type) where
  /-- The name of the scene. -/
  scene : Cell String κ := { value := "" }
  /-- The index of the line. -/
  index : Cell UInt64 κ := { value := 0 }
  /-- The music. -/
  track : Cell String κ := { value := "" }
  /-- The sound that repeats. -/
  loopedEffect : Cell String κ := { value := "" }
  /-- The picture behind the sprites. -/
  background : Cell String κ := { value := "" }
  /-- The sprite on the left. -/
  left : Cell String κ := { value := "" }
  /-- The sprite in the middle. -/
  center : Cell String κ := { value := "" }
  /-- The sprite on the right. -/
  right : Cell String κ := { value := "" }
  /-- The variables. -/
  vars : Cell Progress κ := { value := {} }
  /-- The last sound played once. -/
  soundEffect : Cell (Option String) κ := { value := none }
  /-- The settings of the player. -/
  settings : Cell Settings κ := { value := {} }

namespace Stage

variable {κ : Type}

instance : Inhabited (Stage κ) := ⟨{}⟩

/-- The cell with a name. -/
def cell (s : Stage κ) : (c : CellName) → Cell c.Value κ
  | .scene => s.scene
  | .index => s.index
  | .track => s.track
  | .loopedEffect => s.loopedEffect
  | .background => s.background
  | .left => s.left
  | .center => s.center
  | .right => s.right
  | .vars => s.vars
  | .soundEffect => s.soundEffect
  | .settings => s.settings

/-- The stage with another cell under a name. -/
def withCell (s : Stage κ) : (c : CellName) → Cell c.Value κ → Stage κ
  | .scene, x => { s with scene := x }
  | .index, x => { s with index := x }
  | .track, x => { s with track := x }
  | .loopedEffect, x => { s with loopedEffect := x }
  | .background, x => { s with background := x }
  | .left, x => { s with left := x }
  | .center, x => { s with center := x }
  | .right, x => { s with right := x }
  | .vars, x => { s with vars := x }
  | .soundEffect, x => { s with soundEffect := x }
  | .settings, x => { s with settings := x }

@[simp] theorem cell_withCell_self (s : Stage κ) (c : CellName) (x : Cell c.Value κ) :
    (s.withCell c x).cell c = x := by
  cases c <;> rfl

theorem cell_withCell_of_ne (s : Stage κ) {c d : CellName} (h : d ≠ c) (x : Cell c.Value κ) :
    (s.withCell c x).cell d = s.cell d := by
  cases c <;> cases d <;> first | rfl | exact absurd rfl h

/-- What is heard. -/
def audio (s : Stage κ) : Audio := ⟨s.track.value, s.loopedEffect.value⟩

/-- What is seen. -/
def graphics (s : Stage κ) : Graphics :=
  ⟨s.background.value, s.left.value, s.center.value, s.right.value⟩

/-- The place in the script, with what is heard and seen there. -/
def context (s : Stage κ) : Context := ⟨s.scene.value, s.index.value, s.audio, s.graphics⟩

/-- The variables. -/
def progress (s : Stage κ) : Progress := s.vars.value

end Stage

end Novella
