import Novella.Terminal.CommandLine
import Std.Time.DateTime.Timestamp

/-!
# The program

The outer layer of the program: it reads files, the clock and lines of input, and prints what the
terminal says.
-/

namespace Novella.Program

/-- Reads what stands at a path. -/
def readPath (path : String) : IO Files.Found := do
  try
    return .file (← IO.FS.readBinFile path).toList
  catch e =>
    match e with
    | .noFileOrDirectory .. => return .missing
    | .inappropriateType _ code _ => return if code = 21 then .directory else .notADirectory
    | _ => return .missing

/-- Reads the clock. -/
def readClock : IO Instant := do
  let nanos := (← Std.Time.Timestamp.now).toNanosecondsSinceUnixEpoch.val.toNat
  return .ofEpoch (nanos / 1000000000) (nanos % 1000000000)

/-- Reads the paths that a game in a directory may look at: its saves, its scene, and the scenes of
its saves. -/
def readGame (directory scene : String) : IO (String → Files.Found) := do
  let savesPath := Storage.pathIn (CommandLine.saves directory)
  let saved ← readPath savesPath
  let storage := Storage.inDirectory (fun _ => saved) (CommandLine.saves directory)
  let states := match storage.read with
    | .ok (some d) => d.saveStates.entries.map Prod.snd
    | _ => []
  let paths := (scene :: states.map (fun x => x.context.scene)).map (SceneSource.pathIn directory)
  let scenes ← paths.mapM (fun path => do return (path, ← readPath path))
  return fun path => (((savesPath, saved) :: scenes).lookup path).getD .missing

/-- Prints a complaint and its reason. -/
def complain (complaint : String) (reason : Option String) : IO Unit := do
  IO.eprintln s!"Error: {complaint}"
  if let some reason := reason then IO.eprintln s!"Reason: {reason}"

/-- Writes the stored document if it is not the one that was there before. -/
def writeSaves (directory : String) (before after : Storage) : IO Unit := do
  if let some text := after.raw? then
    if before.raw? ≠ some text then
      IO.FS.createDirAll (CommandLine.saves directory)
      IO.FS.writeFile (Storage.pathIn (CommandLine.saves directory)) text

/-- Prints what the terminal has printed and writes its saves. -/
def display (directory : String) (before : Storage) (t : Terminal) : IO Terminal := do
  IO.print t.printed
  (← IO.getStdout).flush
  writeSaves directory before t.session.slots.storage
  return { t with printed := "" }

/-- A line of input that is being waited for. -/
def readLine : IO (Task (Except IO.Error String)) := do
  IO.asTask (← IO.getStdin).getLine .dedicated

/-- Waits for a line of input or for the time to go on, whichever comes first. -/
partial def await (started : Nat) (deadline : Option Nat)
    (line : Task (Except IO.Error String)) : IO Terminal.Input := do
  if ← IO.hasFinished line then
    match line.get with
    | .ok "" => return .ended
    | .ok s => return .line s
    | .error e => throw e
  else
    let now ← IO.monoMsNow
    if deadline.any (fun d => started + d ≤ now) then return .waited
    IO.sleep 5
    await started deadline line

/-- Plays a game to its end. -/
partial def loop (directory : String) (started : Nat) (line : Task (Except IO.Error String))
    (t : Terminal) : IO Terminal := do
  if t.closed then return t
  let elapsed := (← IO.monoMsNow) - started
  let input ← await started (t.patience?.map (elapsed + ·)) line
  let line ← match input with
    | .line _ => readLine
    | _ => pure line
  let t := { t with session := t.session.setClock (← readClock) }
  let after := t.respond ((← IO.monoMsNow) - started) input
  loop directory started line (← display directory t.session.slots.storage after)

/-- Plays a scene and gives the exit code. -/
def play (directory scene : String) (debug : Bool) : IO UInt32 := do
  if (← readPath directory) ≠ .directory then
    complain (CommandLine.notADirectory directory) none
    return 1
  match CommandLine.open? (← readGame directory scene) directory debug (← readClock) with
  | .error e =>
    complain CommandLine.failed (some e.message)
    return 1
  | .ok t =>
    let started ← IO.monoMsNow
    let t ← display directory t.session.slots.storage (t.begin scene)
    let t ← loop directory started (← readLine) t
    match t.failure with
    | some e =>
      complain CommandLine.failed (some e.message)
      return 1
    | none =>
      if debug then IO.print t.finalState
      return 0

/-- Does what a call asks for and gives the exit code. -/
def run (args : List String) : IO UInt32 := do
  match Invocation.read args with
  | .help =>
    IO.print CommandLine.usage
    return 0
  | .misuse complaint =>
    if let some s := complaint then
      complain s none
      IO.eprintln ""
    IO.print CommandLine.usage
    return 1
  | .play directory scene debug =>
    try play directory scene debug
    catch e =>
      complain CommandLine.failed (some (toString e))
      return 1

end Novella.Program

/-- The program. -/
def main (args : List String) : IO UInt32 := Novella.Program.run args
