import Novella.Log
import Novella.Save.Archive
import Novella.Script.Source

/-!
# Save slots

Slots and settings are kept in storage, which every change writes anew. A change counts only once
it has been written, so a failed one leaves the slots as they were. Any type can be the storage that
can be read and written; the one that games use holds a JSON document.

## Main definitions

* `SaveStorage` — what can be read and written
* `Storage` — a place that holds a document, with `Storage.read` and `Storage.write`
* `Slots` — the slots and settings with their storage
* `Slots.store`, `Slots.delete`, `Slots.setSettings`, `Slots.importText` — changes
* `Slots.lastSave?` — the slot saved last
-/

namespace Novella

/-- The states of a storage for the data that is kept between two runs. -/
class SaveStorage (σ : Type) where
  /-- The stored data, if any was stored. -/
  read : σ → Except StorageError (Option StoredData)
  /-- Writes data in the place of what was stored. A write that fails may leave another state. -/
  write : σ → StoredData → Except StorageError Unit × σ

/-- What a place for storage holds. -/
inductive StoredContent where
  /-- Nothing yet. -/
  | absent
  /-- A document, whose characters may not all be readable. -/
  | document (cs : Json.Source)
  /-- Something that can neither be read nor replaced, for this reason. -/
  | blocked (reason : String)

/-- How a place for storage behaves. -/
inductive StorageKind where
  /-- It holds documents in the compact form. -/
  | memory
  /-- It is a file at this path, for documents in the pretty form. -/
  | file (path : String)
  /-- It takes no documents. -/
  | readOnly
deriving DecidableEq, Repr

/-- A place that holds the stored data. -/
structure Storage where
  /-- How it behaves. -/
  kind : StorageKind := .memory
  /-- What it holds. -/
  content : StoredContent := .absent
  /-- Whether it refuses documents for the time being. -/
  failing : Bool := false

namespace Storage

instance : Inhabited Storage := ⟨{}⟩

/-- The name of the stored document. -/
def key : String := "shiori"

/-- The path of the stored document in a directory. -/
def pathIn (directory : String) : String := Files.join directory (key ++ ".json")

/-- Where the storage is, for messages. -/
def path (s : Storage) : String :=
  match s.kind with
  | .file path => path
  | _ => "memory"

/-- The stored data, if any was stored. -/
def read (s : Storage) : Except StorageError (Option StoredData) :=
  match s.content with
  | .absent => .ok none
  | .blocked reason => .error (.inaccessible s.path reason)
  | .document cs =>
    match (Json.read cs).bind StoredData.ofJson? with
    | some d => .ok (some d)
    | none => .error .format

/-- The document that is written for some data. -/
def documentOf (s : Storage) (d : StoredData) : List Char :=
  match s.kind with
  | .file _ => Json.pretty d.toJson
  | _ => Json.compact d.toJson

/-- The storage after the data has been written. -/
def write (s : Storage) (d : StoredData) : Except StorageError Storage :=
  if s.failing ∨ s.kind = .readOnly then
    .error (.inaccessible "readonly" "read-only storage")
  else
    match s.content with
    | .blocked reason => .error (.inaccessible s.path reason)
    | _ => .ok { s with content := .document ((s.documentOf d).map some) }

/-- What is stored in the form of what stands at a path. -/
def contentOf : Files.Found → StoredContent
  | .file bytes => .document (Utf8.decode bytes)
  | .directory => .blocked Files.isADirectory
  | .notADirectory => .blocked Files.belowAFile
  | .missing => .absent

/-- The storage in a directory, where `find` says what stands at a path. -/
def inDirectory (find : String → Files.Found) (directory : String) : Storage :=
  { kind := .file (pathIn directory), content := contentOf (find (pathIn directory)) }

/-- The text that is stored. -/
def raw? (s : Storage) : Option String :=
  match s.content with
  | .document cs => some (String.ofList (cs.map (fun c => c.getD '\uFFFD')))
  | _ => none

end Storage

/-- A write that fails leaves the storage as it was. -/
instance : SaveStorage Storage where
  read := Storage.read
  write s d :=
    match s.write d with
    | .ok s => (.ok (), s)
    | .error e => (.error e, s)

/-- Slots and settings with their storage. -/
structure Slots (σ : Type) where
  /-- Where they are kept. -/
  storage : σ
  /-- The slots and settings. -/
  data : StoredData

namespace Slots

/-- The slot of quick saves. -/
def quickSave : SlotId := 0

/-- The entry that the log gets when storage is opened. It passes every filter. -/
def openedEntry (d : StoredData) : LogEntry :=
  ⟨.debug, some .storage, s!"Opened save storage with {d.saveStates.size} slot(s)"⟩

variable {σ : Type}

/-- The settings. -/
def settings (s : Slots σ) : Settings := s.data.settings

/-- The save state in a slot. -/
def get? (s : Slots σ) (id : SlotId) : Option SaveState := s.data.saveStates.get? id

/-! ### Changes -/

/-- What a change gives, and the slots it leaves. -/
abbrev Change (σ α : Type) := Except StorageError α × Slots σ

section Write

variable [SaveStorage σ]

/-- The slots that a storage holds. -/
def open? (s : σ) : Except StorageError (Slots σ) := do
  let d ← SaveStorage.read s
  return ⟨s, d.getD {}⟩

/-- Writes the data, and takes it over once it is written. -/
def commit (s : Slots σ) (d : StoredData) : Change σ Unit :=
  match SaveStorage.write s.storage d with
  | (.ok (), storage) => (.ok (), ⟨storage, d⟩)
  | (.error e, storage) => (.error e, { s with storage })

/-- Fills a slot. -/
def store (s : Slots σ) (id : SlotId) (x : SaveState) : Change σ Unit :=
  s.commit { s.data with saveStates := s.data.saveStates.insert id x }

/-- Empties a slot, and says whether it was filled. -/
def delete (s : Slots σ) (id : SlotId) : Change σ Bool :=
  if s.data.saveStates.contains id then
    let (r, s) := s.commit { s.data with saveStates := s.data.saveStates.erase id }
    (r.map (fun _ => true), s)
  else (.ok false, s)

/-- Replaces the settings. -/
def setSettings (s : Slots σ) (x : Settings) : Change σ Unit :=
  if s.data.settings = x then (.ok (), s) else s.commit { s.data with settings := x }

/-- Takes over what an exported text holds: its settings, and its slots in the place of those with
the same numbers. -/
def importText (s : Slots σ) (text : String) : Change σ Unit :=
  match SaveFile.importText text with
  | .ok f => s.commit {
      settings := f.settings.getD s.data.settings
      saveStates := s.data.saveStates.union (f.saveStates.getD ∅) }
  | .error e => (.error e, s)

end Write

/-! ### Reports -/

/-- The text of an export. -/
def exportText (s : Slots σ) (withSettings : Bool) (filter : Option (List SlotId)) : String :=
  SaveFile.exportText (if withSettings then some s.data.settings else none) s.data.saveStates filter

/-- The later of two dated slots; of two with the same date, the second one. -/
def later (a b : SlotId × Instant) : SlotId × Instant := if b.2.precedes a.2 then a else b

/-- The slot with the latest date, and the last one of several with that date. -/
def lastSave? (s : Slots σ) : Option SlotId :=
  let dated := s.data.saveStates.entries.filterMap (fun e => e.2.date.map (fun t => (e.1, t)))
  match dated with
  | [] => none
  | a :: rest => some (rest.foldl later a).1

end Slots

end Novella
