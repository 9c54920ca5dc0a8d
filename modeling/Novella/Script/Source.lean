import Novella.Script.Line
import Novella.Text.Utf8

/-!
# Sources of scenes

A source delivers the script lines of a scene by name. Scenes may be given as texts, or lie in files
of a directory, each named like its scene with the extension `txt`.

## Main definitions

* `SceneSource` — a source, with `SceneSource.ofTexts` and `SceneSource.inDirectory`
* `Files` — a tree of files
* `SourceError` — why a scene could not be delivered
-/

namespace Novella

/-- Why a scene could not be delivered. -/
inductive SourceError where
  /-- There is no such scene. -/
  | notFound (scene : String)
  /-- The file at the path could not be read. -/
  | unreadable (path reason : String)
deriving DecidableEq, Repr

/-- The text of the error. -/
def SourceError.message : SourceError → String
  | notFound scene => s!"Scene not found: {scene}"
  | unreadable path reason => s!"Failed to read scene {path}: {reason}"

/-- A source of scenes: the lines of each scene, or why there are none. -/
abbrev SceneSource := String → Except SourceError (List String)

namespace SceneSource

/-- The source of the scenes whose lines are listed. -/
def ofLines (scenes : List (String × List String)) : SceneSource := fun scene =>
  match scenes.lookup scene with
  | some lines => .ok lines
  | none => .error (.notFound scene)

/-- The source of the scenes whose texts are listed. -/
def ofTexts (scenes : List (String × String)) : SceneSource :=
  ofLines (scenes.map (fun s => (s.1, Scene.lines s.2)))

end SceneSource

/-! ### Files -/

/-- A tree of files: the contents of each file by its path, and the directories that hold none. A
path is the list of its parts. -/
structure Files where
  /-- The files and their bytes. -/
  files : List (List String × List UInt8) := []
  /-- Further directories. -/
  directories : List (List String) := []

/-- What is found at a path. -/
inductive Files.Found where
  /-- A file. -/
  | file (bytes : List UInt8)
  /-- A directory. -/
  | directory
  /-- Nothing. -/
  | missing
  /-- A file stands where a directory would have to. -/
  | notADirectory
deriving DecidableEq, Repr

namespace Files

/-- The parts of a path, as it is written with slashes. -/
def parts (path : String) : List String := ((path.toList.splitOn '/').map String.ofList)

/-- A path followed by another one, unless that starts at the root. -/
def join (a b : String) : String :=
  if a = "" ∨ b.toList.head? = some '/' then b
  else if a.toList.getLast? = some '/' then a ++ b
  else a ++ "/" ++ b

/-- What stands at a path whose parts are all names. -/
def entry (t : Files) (path : List String) : Found :=
  match t.files.lookup path with
  | some bytes => .file bytes
  | none =>
    let holdsFile := t.files.any (fun f => path.isPrefixOf f.1)
    if path = [] ∨ t.directories.any path.isPrefixOf ∨ holdsFile then .directory else .missing

/-- Follows the parts of a path from a directory. -/
def walk (t : Files) (directory : List String) : List String → Found
  | [] => .directory
  | p :: ps =>
    if p = "" ∨ p = "." then t.walk directory ps
    else if p = ".." then
      if directory = [] then .missing else t.walk directory.dropLast ps
    else
      match t.entry (directory ++ [p]) with
      | .directory => t.walk (directory ++ [p]) ps
      | .file bytes => if ps = [] then .file bytes else .notADirectory
      | found => found

/-- What is found at a path. Nothing is at the empty path, and nothing outside the tree. -/
def find (t : Files) (path : String) : Found :=
  if path = "" ∨ path.toList.head? = some '/' then .missing else t.walk [] (parts path)

/-- The reason why a directory cannot be read as a file. -/
def isADirectory : String := "Is a directory (os error 21)"

/-- The reason why nothing can be read below a file. -/
def belowAFile : String := "Not a directory (os error 20)"

/-- The reason why bytes cannot be read as text. -/
def notText : String := "stream did not contain valid UTF-8"

/-- Whether there is a directory at a path. -/
def isDirectory (t : Files) (path : String) : Bool := t.find path = .directory

/-- The names on the way to a path from the root of the tree. -/
def resolve (path : String) : List String :=
  (parts path).foldl (fun done p =>
    if p = "" ∨ p = "." then done else if p = ".." then done.dropLast else done ++ [p]) []

/-- The tree with other bytes in the file at a path. -/
def write (t : Files) (path : String) (bytes : List UInt8) : Files :=
  let path := resolve path
  { t with files := (path, bytes) :: t.files.filter (fun f => f.1 ≠ path) }

end Files

namespace SceneSource

/-- The extension of scene files. -/
def fileExtension : String := "txt"

/-- The path of a scene in a directory. -/
def pathIn (directory scene : String) : String :=
  Files.join directory (scene ++ "." ++ fileExtension)

/-- The source of the scenes that lie in a directory, where `find` says what stands at a path. -/
def inDirectory (find : String → Files.Found) (directory : String) : SceneSource := fun scene =>
  let path := pathIn directory scene
  match find path with
  | .file bytes =>
    match Utf8.decode? bytes with
    | some text => .ok (Scene.lines text)
    | none => .error (.unreadable path Files.notText)
  | .directory => .error (.unreadable path Files.isADirectory)
  | .notADirectory => .error (.unreadable path Files.belowAFile)
  | .missing => .error (.notFound scene)

end SceneSource

end Novella
