import Novella.Terminal.Basic

/-!
# Command line

The program is called with a command and its arguments. It plays a scene of a directory, whose saves
lie in a directory below it, or tells how it is to be called.

## Main definitions

* `Invocation` — what is asked for, with `Invocation.read`
* `CommandLine.run` — a whole call of the program on a tree of files
-/

namespace Novella

/-- What a call of the program asks for. -/
inductive Invocation where
  /-- Tell how the program is called. -/
  | help
  /-- Tell it because the call was wrong, with this complaint if there was anything to complain. -/
  | misuse (complaint : Option String)
  /-- Play a scene of a directory. -/
  | play (directory scene : String) (debug : Bool)
deriving DecidableEq, Repr

/-- The option that traces a game and prints its last position. -/
def Invocation.debugOption : String := "--debug"

/-- Whether an argument is an option. -/
def Invocation.isOption (s : String) : Bool := "--".toList.isPrefixOf s.toList

/-- Reads the arguments of a call. -/
def Invocation.read : List String → Invocation
  | [] => .misuse none
  | "play" :: args =>
    match args.filter (fun a => !isOption a) with
    | [directory, scene] => .play directory scene (args.contains debugOption)
    | _ => .misuse (some "Expected a scene directory and a scene name")
  | command :: _ =>
    if command = "--help" ∨ command = "-h" then .help
    else .misuse (some s!"Unknown command '{command}'")

namespace CommandLine

/-- How the program is called. -/
def usage : String :=
  "shiori - Visual Novel Script Player\n\nUSAGE:\n" ++
    "    shiori play <scene-dir> <scene> [--debug]\n\nCOMMANDS:\n" ++
    "    play <scene-dir> <scene> [--debug]    Play <scene-dir>/<scene>.txt in the terminal\n" ++
    "    --help, -h                            Show this help message\n\nOPTIONS:\n" ++
    "    --debug    Trace script execution and dump the final state\n\nEXAMPLES:\n" ++
    "    shiori play scenes prologue\n    shiori play scenes prologue --debug\n"

/-- The directory of saves in a directory of scenes. -/
def saves (directory : String) : String := Files.join directory "saves"

/-- What a game keeps of its log. -/
def filterFor (debug : Bool) : DebugFilter := if debug then .verbose else {}

/-- The terminal for the scenes and saves of a directory, where `find` says what stands at a
path. -/
def open? (find : String → Files.Found) (directory : String) (debug : Bool) (clock : Instant) :
    Except StorageError Terminal := do
  let source := SceneSource.inDirectory find directory
  let storage := Storage.inDirectory find (saves directory)
  return .ofSession (← Session.open? source (filterFor debug) storage clock)

/-- The complaint about a path that is no directory. -/
def notADirectory (path : String) : String := s!"'{path}' is not a directory"

/-- The complaint about a game that had to be given up. -/
def failed : String := "Player failed"

/-- What a call of the program leaves behind. -/
structure Outcome where
  /-- The exit code. -/
  code : Nat
  /-- What was printed. -/
  printed : String := ""
  /-- The complaint. -/
  complaint : Option String := none
  /-- The reason for it. -/
  reason : Option String := none
  /-- The files. -/
  files : Files

/-- The files with the document that the storage of a terminal holds. -/
def storedFiles (files : Files) (directory : String) (t : Terminal) : Files :=
  match t.session.slots.storage.raw? with
  | some s => files.write (Storage.pathIn (saves directory)) (Utf8.encode s)
  | none => files

/-- Calls the program on a tree of files, with lines of input that come before any time passes. -/
def run (args : List String) (files : Files) (lines : List String) (keepOpen : Bool)
    (clock : Instant) : Outcome :=
  match Invocation.read args with
  | .help => { code := 0, printed := usage, files }
  | .misuse complaint => { code := 1, printed := usage, complaint, files }
  | .play directory scene debug =>
    if files.isDirectory directory = false then
      { code := 1, complaint := some (notADirectory directory), files }
    else
      match open? files.find directory debug clock with
      | .error e => { code := 1, complaint := some failed, reason := some e.message, files }
      | .ok t =>
        let t := t.playThrough scene lines keepOpen
        let files := storedFiles files directory t
        match t.failure with
        | some e =>
          { code := 1, printed := t.printed, complaint := some failed, reason := some e.message,
            files }
        | none =>
          { code := 0, printed := t.printed ++ (if debug then t.finalState else ""), files }

end CommandLine

end Novella
