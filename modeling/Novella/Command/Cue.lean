import Novella.Script.Arguments
import Novella.Stage.Basic

/-!
# Cues

Commands for pictures and sounds only say what should be seen and heard: they write cells of the
stage, and the presentation follows. Their meaning is a *cue*, the list of what is to be written
together with the time that the change is given. A malformed argument gives no cue at all, so such a
command changes nothing.

## Main definitions

* `Cue` — writes to the stage, a sound to play, and a wait
* `CueCommand` — the commands for pictures and sounds
* `CueCommand.cue` — the cue that a command gives for an argument
* `CueError` — why an argument gives no cue
-/

namespace Novella

/-- A new value for a cell of the stage. -/
structure CellWrite where
  /-- The cell. -/
  cell : CellName
  /-- Its new value. -/
  value : cell.Value

/-- What a picture or sound command asks for. -/
structure Cue where
  /-- The cells that change, in this order. -/
  writes : List CellWrite := []
  /-- The sound that is played once. -/
  effect : Option String := none
  /-- How long the script waits for the change, in milliseconds. -/
  wait : Nat := 0

/-- The commands for pictures and sounds. -/
inductive CueCommand where
  /-- Show another background, without sprites. -/
  | background
  /-- Show a sprite. -/
  | sprite
  /-- Take away one sprite or all of them. -/
  | clear
  /-- Play music. -/
  | music
  /-- Stop the music. -/
  | stopMusic
  /-- Play a sound once. -/
  | sound
  /-- Play a sound again and again. -/
  | loopSound
  /-- Stop the repeated sound. -/
  | stopSound
deriving DecidableEq, Repr

/-- Why an argument gives no cue. -/
inductive CueError where
  /-- There is no image for the background. -/
  | missingImage (argument : String)
  /-- There is no position or no image for a sprite. -/
  | malformedSprite (argument : String)
  /-- It is not said which sprites are to go. -/
  | malformedClear (argument : String)
  /-- There is no name of a track for the command. -/
  | missingTrack (opcode : String)
  /-- There is no name of a sound for the command. -/
  | missingSound (opcode : String)
deriving DecidableEq, Repr

/-- The text of the error for the script's author. -/
def CueError.message : CueError → String
  | missingImage argument => s!"bg: missing image in '{argument}'"
  | malformedSprite argument => s!"ld: expected '<l|c|r>,<image>', got '{argument}'"
  | malformedClear argument => s!"cl: expected '<l|c|r|a>', got '{argument}'"
  | missingTrack opcode => s!"{opcode}: missing track name"
  | missingSound opcode => s!"{opcode}: missing sound name"

namespace Cue

/-- The write that puts an image at the position of a sprite. -/
def spriteWrite (image : String) : SpritePosition → CellWrite
  | .left => ⟨.left, image⟩
  | .center => ⟨.center, image⟩
  | .right => ⟨.right, image⟩

/-- The writes that take away all sprites. -/
def clearAll : List CellWrite := [.left, .center, .right].map (spriteWrite "")

/-- The argument at a position, unless it is missing or empty. -/
def named? (args : List String) (i : Nat) : Option String := args[i]?.filter (· ≠ "")

/-- The duration at a position among the arguments; none given is no wait. -/
def transition (args : List String) (i : Nat) : Nat :=
  ((args[i]?.bind Arguments.millis?).map UInt64.toNat).getD 0

end Cue

namespace CueCommand

open Cue

/-- The sprites that the first argument of a clearing command names. -/
def cleared (args : List String) : List CellWrite :=
  match args[0]? with
  | none => []
  | some "a" => clearAll
  | some p => ((SpritePosition.read? p).map (spriteWrite "")).toList

/-- The cue that a command gives for an argument. -/
def cue (c : CueCommand) (opcode argument : String) : Except CueError Cue :=
  let args := Arguments.split argument
  match c with
  | background =>
    match named? args 0 with
    | some image => .ok { writes := ⟨.background, image⟩ :: clearAll, wait := transition args 2 }
    | none => .error (.missingImage argument)
  | sprite =>
    match args[0]?.bind SpritePosition.read?, named? args 1 with
    | some p, some image => .ok { writes := [spriteWrite image p], wait := transition args 3 }
    | _, _ => .error (.malformedSprite argument)
  | clear =>
    match cleared args with
    | [] => .error (.malformedClear argument)
    | writes => .ok { writes, wait := transition args 2 }
  | music =>
    match named? args 0 with
    | some track => .ok { writes := [⟨.track, track⟩] }
    | none => .error (.missingTrack opcode)
  | stopMusic => .ok { writes := [⟨.track, ""⟩] }
  | sound =>
    match named? args 0 with
    | some name => .ok { effect := some name }
    | none => .error (.missingSound opcode)
  | loopSound =>
    match named? args 0 with
    | some name => .ok { writes := [⟨.loopedEffect, name⟩] }
    | none => .error (.missingSound opcode)
  | stopSound => .ok { writes := [⟨.loopedEffect, ""⟩] }

end CueCommand

end Novella
