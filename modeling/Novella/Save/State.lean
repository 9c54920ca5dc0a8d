import Novella.Date.Instant
import Novella.Digest.Md5
import Novella.Game.Context
import Novella.Game.Settings
import Novella.Json.Decode
import Novella.Json.Writer
import Novella.Text.Utf8

/-!
# Save states

A save state is a position of a game, with a preview of its text and the date at which it was
taken. It is written as JSON, and so are the settings. Records are written with their fields in a
fixed order. On reading, fields may be missing where there is a value to take instead; only the
context and the progress of a save state have to be there.

The fingerprint of a save state is the digest of its position alone, written with all members in
the order of their names. Save states of the same position have the same fingerprint, whatever
their text and date.

## Main definitions

* `SaveState` — a position with its preview and date
* `SaveState.text`, `SaveState.read?` — the pretty document of a save state
* `SaveState.canonical`, `SaveState.fingerprint` — the identity of a position
-/

namespace Novella

/-- A snapshot of a game. -/
structure SaveState where
  /-- The place, with what is heard and seen there. -/
  context : Context
  /-- The variables. -/
  progress : Progress
  /-- The text shown with the save. -/
  preview : Option String := none
  /-- When the snapshot was taken. -/
  date : Option Instant := none
deriving DecidableEq

/-! ### Settings -/

/-- The name of a speed. -/
def TextSpeed.name : TextSpeed → String
  | instant => "instant"
  | fast => "fast"
  | normal => "normal"
  | slow => "slow"

/-- The speed with a name. -/
def TextSpeed.ofName? (s : String) : Option TextSpeed :=
  [instant, fast, normal, slow].find? (fun t => t.name = s)

/-- The speed that a document names: its name, or an object with the name and null. -/
def TextSpeed.ofJson? : Json.Read → Option TextSpeed
  | .string s => s.text.bind ofName?
  | .object [(k, .null)] => k.text.bind ofName?
  | _ => none

/-- The document of settings. -/
def Settings.toJson (s : Settings) : Json.Written :=
  .object [
    ("textSpeed", .string s.textSpeed.name),
    ("historyLimit", .ofInt s.historyLimit.toNat),
    ("autoPlayDelayMs", .ofInt s.autoPlayDelay.toNat)]

/-- The settings that a document holds; a missing one has its default. -/
def Settings.ofJson? (j : Json.Read) : Option Settings := do
  match ← Json.fields? ["textSpeed", "historyLimit", "autoPlayDelayMs"] j with
  | [speed, limit, delay] =>
    let d : Settings := {}
    return {
      textSpeed := ← Json.withDefault d.textSpeed TextSpeed.ofJson? speed
      historyLimit := ← Json.withDefault d.historyLimit Json.toUInt64? limit
      autoPlayDelay := ← Json.withDefault d.autoPlayDelay Json.toUInt64? delay }
  | _ => none

/-- The settings that a text holds. -/
def Settings.read? (s : String) : Option Settings := (Json.readText s).bind ofJson?

/-! ### Positions -/

/-- The document of a value. -/
def Value.toJson : Value → Json.Written
  | int n => .ofInt n.toInt
  | str s => .string s

/-- The value that a document is. -/
def Value.ofJson? : Json.Read → Option Value
  | .string s => s.text.map str
  | j => (Json.toInt64? j).map int

/-- The flags, counters and temporaries of a progress as documents. -/
def Progress.parts (p : Progress) : Json.Written × Json.Written × Json.Written :=
  (.array (p.flags.toList.map .string),
    .object (p.counters.entries.map (fun e => (e.1, .ofInt e.2.toInt))),
    .object (p.temporaries.entries.map (fun e => (e.1, e.2.toJson))))

/-- The document of a progress. -/
def Progress.toJson (p : Progress) : Json.Written :=
  let (flags, counters, temporaries) := p.parts
  .object [("flags", flags), ("counters", counters), ("temporaries", temporaries)]

/-- The progress that a document holds; what is missing is empty. -/
def Progress.ofJson? (j : Json.Read) : Option Progress := do
  match ← Json.fields? ["flags", "counters", "temporaries"] j with
  | [flags, counters, temporaries] =>
    let flags ← Json.withDefault [] (Json.toList? Json.toText?) flags
    let counters ← Json.withDefault [] (Json.entries? Quoted.text Json.toInt64?) counters
    let temporaries ← Json.withDefault [] (Json.entries? Quoted.text Value.ofJson?) temporaries
    return ⟨.ofList flags, .ofList counters, .ofList temporaries⟩
  | _ => none

/-- The document of what is heard. -/
def Audio.toJson (a : Audio) : Json.Written :=
  .object [("track", .string a.track), ("loopedEffect", .string a.loopedEffect)]

/-- What is heard, from a document. -/
def Audio.ofJson? (j : Json.Read) : Option Audio := do
  match ← Json.fields? ["track", "loopedEffect"] j with
  | [track, loopedEffect] =>
    return {
      track := ← Json.withDefault "" Json.toText? track
      loopedEffect := ← Json.withDefault "" Json.toText? loopedEffect }
  | _ => none

/-- The document of what is seen. -/
def Graphics.toJson (g : Graphics) : Json.Written :=
  .object [
    ("background", .string g.background),
    ("left", .string g.left),
    ("center", .string g.center),
    ("right", .string g.right)]

/-- What is seen, from a document. -/
def Graphics.ofJson? (j : Json.Read) : Option Graphics := do
  match ← Json.fields? ["background", "left", "center", "right"] j with
  | [background, left, center, right] =>
    return {
      background := ← Json.withDefault "" Json.toText? background
      left := ← Json.withDefault "" Json.toText? left
      center := ← Json.withDefault "" Json.toText? center
      right := ← Json.withDefault "" Json.toText? right }
  | _ => none

/-- The document of a context. -/
def Context.toJson (c : Context) : Json.Written :=
  .object [
    ("scene", .string c.scene),
    ("index", .ofInt c.index.toNat),
    ("audio", c.audio.toJson),
    ("graphics", c.graphics.toJson)]

/-- The context that a document holds; what is missing is empty, and the first line is meant. -/
def Context.ofJson? (j : Json.Read) : Option Context := do
  match ← Json.fields? ["scene", "index", "audio", "graphics"] j with
  | [scene, index, audio, graphics] =>
    return {
      scene := ← Json.withDefault "" Json.toText? scene
      index := ← Json.withDefault 0 Json.toUInt64? index
      audio := ← Json.withDefault {} Audio.ofJson? audio
      graphics := ← Json.withDefault {} Graphics.ofJson? graphics }
  | _ => none

namespace SaveState

/-! ### Documents of save states -/

/-- A member that is written only if there is a value. -/
def present (name : String) : Option Json.Written → List (String × Json.Written)
  | some j => [(name, j)]
  | none => []

/-- The document of a save state. -/
def toJson (s : SaveState) : Json.Written :=
  .object ([("context", s.context.toJson), ("progress", s.progress.toJson)] ++
    present "text" (s.preview.map .string) ++
    present "date" (s.date.map (fun t => .string (String.ofList t.text))))

/-- The date that a document is. -/
def dateOfJson? (j : Json.Read) : Option Instant := (Json.toText? j).bind Instant.read?

/-- The save state that a document holds. -/
def ofJson? (j : Json.Read) : Option SaveState := do
  match ← Json.fields? ["context", "progress", "text", "date"] j with
  | [context, progress, preview, date] =>
    return {
      context := ← Json.required Context.ofJson? context
      progress := ← Json.required Progress.ofJson? progress
      preview := ← Json.optional Json.toText? preview
      date := ← Json.optional dateOfJson? date }
  | _ => none

/-- The written form of a save state. -/
def text (s : SaveState) : String := String.ofList (Json.pretty s.toJson)

/-- The save state that a text holds. -/
def read? (s : String) : Option SaveState := (Json.readText s).bind ofJson?

/-- Why some bytes hold no save state. -/
inductive BytesError where
  /-- They are no text. -/
  | notText
  /-- The text is no save state. -/
  | notASaveState
deriving DecidableEq, Repr

/-- The save state that some bytes hold. -/
def ofBytes (bytes : List UInt8) : Except BytesError SaveState :=
  match Utf8.decode? bytes with
  | none => .error .notText
  | some s =>
    match read? s with
    | none => .error .notASaveState
    | some x => .ok x

/-- The save state with another preview. -/
def withPreview (s : SaveState) (preview : String) : SaveState := { s with preview := some preview }

/-! ### Identity of positions -/

/-- The position, with all members in the order of their names. -/
def canonical (s : SaveState) : Json.Written :=
  let c := s.context
  let (flags, counters, temporaries) := s.progress.parts
  .object [
    ("context", .object [
      ("audio", .object [
        ("loopedEffect", .string c.audio.loopedEffect),
        ("track", .string c.audio.track)]),
      ("graphics", .object [
        ("background", .string c.graphics.background),
        ("center", .string c.graphics.center),
        ("left", .string c.graphics.left),
        ("right", .string c.graphics.right)]),
      ("index", .ofInt c.index.toNat),
      ("scene", .string c.scene)]),
    ("progress", .object [
      ("counters", counters),
      ("flags", flags),
      ("temporaries", temporaries)])]

/-- The text that the fingerprint is the digest of. -/
def canonicalText (s : SaveState) : String := String.ofList (Json.compact s.canonical)

/-- The identity of the position. -/
def fingerprint (s : SaveState) : String := Md5.hex (Utf8.encode s.canonicalText)

end SaveState

end Novella
