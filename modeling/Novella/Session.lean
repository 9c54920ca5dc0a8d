import Novella.Player.World
import Novella.Save.Slots

/-!
# Sessions

A session is a running game with its book and its save slots. The player follows its cells, and the
book listens before it: a page that is due begins when the index is delivered, with a snapshot taken
before the line runs. Settings are stored first and take effect after that.

What a session does for its host is a *move*, the session with the orders that its player still has
to carry out; `Session.run` carries them out.

## Main definitions

* `Session` — a player with its slots, opened by `Session.open?`
* `Session.Move`, `Session.run` — what is under way, and its end
* `Session.Change` — what may fail, and what it leaves in either case
* `Session.start`, `Session.next`, `Session.advance`, `Session.syncClock` — the course of a game
* `Session.save`, `Session.load`, `Session.loadState` — saves
* `Session.setSettings`, `Session.importText` — settings
-/

namespace Novella

/-- A running game. -/
structure Session where
  /-- The player, with the book. -/
  player : Player
  /-- The save slots and the stored settings. -/
  slots : Slots Storage

/-- Why a session could not do what it was asked for. -/
inductive SessionError where
  /-- There is nothing in the slot. -/
  | emptySlot (id : SlotId)
  /-- Data could not be stored or read. -/
  | storage (e : StorageError)
deriving DecidableEq, Repr

/-- The text of the error. -/
def SessionError.message : SessionError → String
  | emptySlot id => s!"Save slot {id.toNat} is empty"
  | storage e => e.message

namespace Session

/-- A session and what its player still has to do. -/
abbrev Move := Session × Player.Orders

/-- What a change gives, and the session it leaves. -/
abbrev Change (α : Type) := Except SessionError α × Session

/-- The session after a change of its slots, or after one that failed. -/
def change {α : Type} (s : Session) (c : Slots.Change Storage α) (done : Slots Storage → Session) :
    Change α :=
  match c with
  | (.ok a, slots) => (.ok a, done slots)
  | (.error e, slots) => (.error (.storage e), { s with slots })

section Change

variable {α : Type} {s s' : Session} {c : Slots.Change Storage α} {done : Slots Storage → Session}

theorem eq_of_change_ok {a : α} (h : s.change c done = (.ok a, s')) :
    c.1 = .ok a ∧ s' = done c.2 := by
  obtain ⟨x, slots⟩ := c
  cases x with
  | ok a =>
    cases h
    exact ⟨rfl, rfl⟩
  | error e => cases h

theorem eq_of_change_error {e : SessionError} (h : s.change c done = (.error e, s')) :
    (∃ e, c.1 = .error e) ∧ s'.player = s.player ∧ s'.slots = c.2 := by
  obtain ⟨x, slots⟩ := c
  cases x with
  | ok a => cases h
  | error e =>
    cases h
    exact ⟨⟨_, rfl⟩, rfl, rfl⟩

end Change

/-! ### Beginning -/

/-- The player of a session with these settings, whose clock shows `clock`. -/
def playerOf (source : SceneSource) (filter : DebugFilter) (settings : Settings)
    (clock : Instant) : Player :=
  let stage : Stage Reaction := { settings := { value := settings } }
  let book : Book := { history := History.ofLimit settings.historyLimit.toNat, clock }
  let p : Player := { source, filter, stage, book }
  let p := p.observe .index .openPage (fun _ => true) false
  let p := p.observe .settings .limitHistory (fun _ => true) false
  p.following.connectBook

/-- Opens the storage and begins a session with its settings. -/
def open? (source : SceneSource) (filter : DebugFilter) (storage : Storage) (clock : Instant) :
    Except StorageError Session := do
  let slots ← Slots.open? storage
  let player := playerOf source filter slots.settings clock
  return ⟨player.note (.log (Slots.openedEntry slots.data)), slots⟩

/-! ### Moves -/

/-- Carries out a move, within a number of steps. -/
def run (steps : Nat) (m : Move) : Session :=
  { m.1 with player := (Machine.run steps ⟨m.1.player, m.2⟩).world }

/-- Orders the player to answer a call without telling anybody. -/
def silently (c : HostCall) : Order Player.Task := .perform (.call .nobody c)

/-- The order to run what is due and to load scenes as long as any are asked for. -/
def serve : Order Player.Task := silently .serve

/-- The session without the events of earlier moves. -/
def listening (s : Session) : Session := { s with player := s.player.listening }

/-- The session in which the next line begins a page. -/
def withPageDue (s : Session) : Session :=
  { s with player := { s.player with book := { s.player.book with pageDue := true } } }

/-- Starts a scene from its first line. -/
def start (s : Session) (scene : String) : Move :=
  (s.withPageDue, [silently (.goto scene 0), serve])

/-- Input. -/
def next (s : Session) : Move := (s, [silently .next, serve])

/-- Runs what is due. -/
def settle (s : Session) : Move := (s, [serve])

/-- Moves time forward. -/
def advance (s : Session) (d : Nat) : Move := (s, [serve, .advance d, serve])

/-- The time since the session began. -/
def now (s : Session) : Nat := s.player.loop.now

/-- Moves time forward to `elapsed`, unless it is later already. -/
def syncClock (s : Session) (elapsed : Nat) : Move := s.advance (elapsed - s.now)

/-- The time until something is due. -/
def nextDeadline? (s : Session) : Option Nat := s.player.loop.nextDeadline?.map (· - s.now)

/-- Whether nothing is left to do. -/
def isFinished (s : Session) : Bool := s.player.phase = .idle && s.player.loop.isIdle

/-! ### Book -/

/-- The pages. -/
def history (s : Session) : History := s.player.book.history

/-- The session with other pages. -/
def withHistory (s : Session) (history : History) : Session :=
  { s with player := { s.player with book := { s.player.book with history } } }

/-- Says what the last page is about. -/
def setPageContent (s : Session) (c : PageContent) : Session :=
  s.withHistory (s.history.modifyLast (fun page => { page with content := c }))

/-- Reads the clock. -/
def readClock (s : Session) : Session × Instant :=
  let clock := s.player.book.clock.tick
  ({ s with player := { s.player with book := { s.player.book with clock } } }, clock)

/-- Puts the clock forward. -/
def setClock (s : Session) (clock : Instant) : Session :=
  if s.player.book.clock.precedes clock then
    { s with player := { s.player with book := { s.player.book with clock } } }
  else s

/-- A snapshot of the position that is dated by the clock. -/
def capture (s : Session) : Session × SaveState :=
  let (s, date) := s.readClock
  (s, ⟨s.player.stage.context, s.player.stage.progress, none, some date⟩)

/-! ### Saves -/

/-- Logs a step of the session, if the filter keeps it. -/
def trace (s : Session) (l : LogLevel) (text : String) : Session :=
  { s with player := s.player.trace .storage l text }

/-- What a slot gets: the snapshot of the last page, with its text as the preview, or the current
position if there is no such snapshot. -/
def pageState (s : Session) : SaveState :=
  let page := s.history.last?
  let position : SaveState := ⟨s.player.stage.context, s.player.stage.progress, none, none⟩
  let state := (page.bind Page.saveState).getD position
  match Text.trim ((page.map Page.text).getD "").toList with
  | [] => state
  | preview => state.withPreview (String.ofList preview)

/-- Saves to a slot. -/
def save (s : Session) (id : SlotId) : Change Unit :=
  let (s, date) := s.readClock
  s.change (s.slots.store id { s.pageState with date := some date }) fun slots =>
    { s with slots }.trace .info s!"Saved to slot {id.toNat}"

/-- Goes back to a save state: the history is rewound, and the restored line begins a page. -/
def loadState (s : Session) (x : SaveState) : Move :=
  let s := (s.withHistory (s.history.rewindTo x)).trace .debug
    s!"Restoring {x.context.scene}:{x.context.index.toNat}"
  (s.withPageDue, [silently (.restore x.context x.progress), serve])

/-- Goes back to the save state in a slot. -/
def load (s : Session) (id : SlotId) : Except SessionError Move :=
  match s.slots.get? id with
  | some x => .ok (s.loadState x)
  | none => .error (.emptySlot id)

/-- Empties a slot, and says whether it was filled. -/
def delete (s : Session) (id : SlotId) : Change Bool :=
  s.change (s.slots.delete id) fun slots => { s with slots }

/-! ### Settings -/

/-- Stores other slots and lets their settings take effect. -/
def takeOver (s : Session) (slots : Slots Storage) : Session :=
  ⟨s.player.write .settings slots.settings, slots⟩

/-- Chooses settings. -/
def setSettings (s : Session) (x : Settings) : Change Unit :=
  s.change (s.slots.setSettings x) s.takeOver

/-- The text of an export. -/
def exportText (s : Session) (withSettings : Bool) (filter : Option (List SlotId)) : String :=
  s.slots.exportText withSettings filter

/-- Takes over what an exported text holds. -/
def importText (s : Session) (text : String) : Change Unit :=
  s.change (s.slots.importText text) s.takeOver

end Session

end Novella
