import Novella.Save.State

/-!
# Archives of saves

All that is kept between two runs are the settings and the save slots. An export is a document with
the settings, or some slots, or both; an import reads such a document.

## Main definitions

* `StoredData` — the settings and the slots
* `SaveFile` — what an export holds
* `SaveFile.exportText`, `SaveFile.importText` — the written form and back
* `StorageError` — why data could not be stored or read
-/

namespace Novella

/-- The number of a save slot. -/
abbrev SlotId := UInt32

/-- The slots that are filled, in the order of their numbers. -/
abbrev SlotMap := SortedMap SlotId SaveState

/-- What is kept between two runs. -/
structure StoredData where
  /-- The settings. -/
  settings : Settings := {}
  /-- The slots. -/
  saveStates : SlotMap := ∅
deriving DecidableEq

/-- What an export holds. -/
structure SaveFile where
  /-- The settings, if they are exported. -/
  settings : Option Settings := none
  /-- The slots, if any are exported. -/
  saveStates : Option SlotMap := none
deriving DecidableEq

/-- Why data could not be stored or read. -/
inductive StorageError where
  /-- The place where data is kept could not be reached. -/
  | inaccessible (path reason : String)
  /-- The document is no JSON, or not of the right form. -/
  | format
  /-- The import is no JSON object. -/
  | notAnObject
deriving DecidableEq, Repr

/-- The text of the error, up to what a reader of documents might add. -/
def StorageError.message : StorageError → String
  | inaccessible path reason => s!"Failed to access {path}: {reason}"
  | format => "Invalid save data"
  | notAnObject => "Save file must be a JSON object"

namespace SlotMap

/-- The document of the slots. -/
def toJson (m : SlotMap) : Json.Written :=
  .object (m.entries.map (fun e =>
    (String.ofList (Numeral.ofNat e.1.toNat), e.2.toJson)))

/-- The number of a slot from its name, which is the number without escapes and leading zeros. -/
def idOf? (k : Quoted) : Option SlotId := do
  let cs := (← k.text).toList
  let id ← Numeral.uint32? cs
  if k.plain ∧ cs = Numeral.ofNat id.toNat then some id else none

/-- The slots that a document holds. -/
def ofJson? (j : Json.Read) : Option SlotMap :=
  (Json.entries? idOf? SaveState.ofJson? j).map .ofList

end SlotMap

namespace StoredData

/-- The document of stored data. -/
def toJson (d : StoredData) : Json.Written :=
  .object [("settings", d.settings.toJson), ("saveStates", d.saveStates.toJson)]

/-- The stored data that a document holds; what is missing is as in a first run. -/
def ofJson? (j : Json.Read) : Option StoredData := do
  match ← Json.fields? ["settings", "saveStates"] j with
  | [settings, saveStates] =>
    return {
      settings := ← Json.withDefault {} Settings.ofJson? settings
      saveStates := ← Json.withDefault ∅ SlotMap.ofJson? saveStates }
  | _ => none

end StoredData

namespace SaveFile

/-- The extension of exported files. -/
def fileExtension : String := "shiori-save"

/-- The name of an exported file. -/
def fileName (stem : String) : String := stem ++ "." ++ fileExtension

/-- The document of an export. -/
def toJson (f : SaveFile) : Json.Written :=
  .object (SaveState.present "settings" (f.settings.map Settings.toJson) ++
    SaveState.present "saveStates" (f.saveStates.map SlotMap.toJson))

/-- The export that a document holds. -/
def ofJson? (j : Json.Read) : Option SaveFile := do
  match ← Json.fields? ["settings", "saveStates"] j with
  | [settings, saveStates] =>
    return {
      settings := ← Json.optional Settings.ofJson? settings
      saveStates := ← Json.optional SlotMap.ofJson? saveStates }
  | _ => none

/-- The slots that a filter picks: all of them without a filter, no map at all for an empty one. -/
def pick (slots : SlotMap) : Option (List SlotId) → Option SlotMap
  | none => some slots
  | some [] => none
  | some ids => some (slots.filter (fun id _ => ids.contains id))

/-- The text of an export of the settings, if given, and of the slots that the filter picks. -/
def exportText (settings : Option Settings) (slots : SlotMap) (filter : Option (List SlotId)) :
    String :=
  String.ofList (Json.pretty (toJson ⟨settings, pick slots filter⟩))

/-- The export that a text holds. Where a name comes twice in an object, the last one counts. -/
def importText (s : String) : Except StorageError SaveFile :=
  match (Json.readText s).bind Json.validated with
  | none => .error .format
  | some (.object ms) =>
    match ofJson? ((Json.lastWins (.object ms)).map Quoted.ofText) with
    | some f => .ok f
    | none => .error .format
  | some _ => .error .notAnObject

end SaveFile

end Novella
