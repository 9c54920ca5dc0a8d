import Novella.Command.Table
import Novella.Loop.Machine
import Novella.Loop.Timer
import Novella.Reveal.Cursor
import Novella.Save.History
import Novella.Script.Source

/-!
# Players

A player runs the lines of a scene. Each line is a queue of instructions, and an instruction runs
until its *ticket* is given back: at once, when a timer rings, on input, or when the host says so.
Only then does the next instruction run, and after the last one the index moves on, which in turn
brings the next line. Whoever writes the index or the scene moves the script.

A ticket is good for one finish. Tickets of instructions carry the generation of the instruction,
which every dispatch and every interruption raises, so a late finish of an old instruction is told
from a finish of the running one.

The player is the world of a `Machine`. What it does is cut into tasks wherever a host may come
between: at a call of the host's own, at a signal, and where a cell is heard.

## Main definitions

* `Player` — the state of a player
* `Ticket`, `Handler`, `Completion` — the life of an instruction
* `Player.Task` — the tasks of the machine
-/

namespace Novella

/-- What a finish is accounted to. -/
inductive Ticket where
  /-- The instruction of a generation. -/
  | instruction (generation : Nat)
  /-- A call from outside, by its number. -/
  | call (k : Nat)
deriving DecidableEq, Repr

/-- Who takes the input and the cancellation while an instruction waits. -/
inductive Handler where
  /-- Input finishes the instruction. -/
  | finish (t : Ticket)
  /-- Input does nothing. -/
  | stuck
  /-- Input ends the wait of a timer. -/
  | timer (k : Nat)
  /-- A text that is being shown. -/
  | reveal (r : Nat)
  /-- A command of the host. -/
  | host (b : Behavior) (t : Ticket)
deriving DecidableEq, Repr

/-- What a command leaves behind. -/
inductive Completion where
  /-- It is done. -/
  | completed
  /-- It waits. -/
  | pending (h : Handler)
deriving DecidableEq, Repr

/-- Where a player is. -/
inductive Phase where
  /-- There is no scene, or it has ended. -/
  | idle
  /-- The scene has been asked for. -/
  | loading
  /-- An instruction runs. -/
  | executing
  /-- An instruction waits for a timer, for input or for the host. -/
  | awaiting
deriving DecidableEq, Repr

/-! ### Shown texts -/

/-- Where a text is that is being shown. -/
inductive Reveal.Mode where
  /-- On the way to the next pause. -/
  | running
  /-- Between two characters. -/
  | ticking
  /-- At a pause that ends with input. -/
  | awaitingInput
  /-- At the end of its page. -/
  | pageEnd
  /-- At a timed pause. -/
  | waiting
  /-- Over. -/
  | done
deriving DecidableEq, Repr

/-- A text that is being shown. -/
structure Reveal where
  /-- What has not been shown yet. -/
  rest : List Char
  /-- The time between two characters. -/
  delay : Nat
  /-- The ticket of its instruction. -/
  ticket : Ticket
  /-- Where it is. -/
  mode : Reveal.Mode := .running
  /-- The timer of the current stretch or pause. -/
  timer : Option Nat := none
  /-- How many tasks under way keep it. It is kept, too, as long as it is the active handler;
  otherwise its timers find it gone. -/
  holds : Nat := 1

/-- The acts of a shown text. -/
inductive Reveal.Act where
  /-- Go on to the next pause, whatever the mode. -/
  | run
  /-- Go on to the next pause, if still on the way. -/
  | resume
  /-- The timer of the stretch rings. -/
  | tick
  /-- A character has been shown. -/
  | ticked
  /-- The timer of a pause rings. -/
  | wake
  /-- A task no longer keeps the text. -/
  | release
deriving DecidableEq, Repr

/-! ### Hooks and observers -/

/-- A host's standing order: calls to make when something happens. -/
structure Listener where
  /-- What it is for. -/
  trigger : Occurrence → Bool
  /-- How often it may still be carried out. -/
  remaining : Nat
  /-- The calls. -/
  body : List HostCall

/-- Passes signals on to a receiver of type `ρ`. Until there is one, the last signal is kept. -/
structure Relay (ρ : Type) where
  /-- The receiver. -/
  receiver : Option ρ := none
  /-- The last signal that nobody received. -/
  pending : Option Signal := none

/-- A relay for each hook. -/
structure Hooks (ρ : Type) where
  /-- For text. -/
  text : Relay ρ := {}
  /-- For page breaks. -/
  page : Relay ρ := {}
  /-- For returns. -/
  exit : Relay ρ := {}

namespace Hooks

variable {ρ : Type}

instance : Inhabited (Hooks ρ) := ⟨{}⟩

/-- The relay of a hook. -/
def relay (hooks : Hooks ρ) : Hook → Relay ρ
  | .text => hooks.text
  | .page => hooks.page
  | .exit => hooks.exit

/-- The hooks with another relay. -/
def withRelay (hooks : Hooks ρ) : Hook → Relay ρ → Hooks ρ
  | .text, x => { hooks with text := x }
  | .page, x => { hooks with page := x }
  | .exit, x => { hooks with exit := x }

@[simp] theorem relay_withRelay_self (hooks : Hooks ρ) (h : Hook) (x : Relay ρ) :
    (hooks.withRelay h x).relay h = x := by
  cases h <;> rfl

end Hooks

/-- Who receives the signals of a script. -/
inductive Receiver where
  /-- A listener, by its number. -/
  | listener (k : Nat)
  /-- The book of the session, which passes them on. -/
  | book
deriving DecidableEq, Repr

/-- What is done when a cell is heard. -/
inductive Reaction where
  /-- Ask for the lines of the scene. -/
  | loadScene
  /-- Run the line. -/
  | runLine
  /-- Begin a page, if one is due. -/
  | openPage
  /-- Let the history keep as many pages as the settings say. -/
  | limitHistory
  /-- Turn to a listener of the host. -/
  | listener (k : Nat)
deriving DecidableEq, Repr

/-- Who learns what a call answers. -/
inductive Audience where
  /-- The caller. -/
  | caller
  /-- The events, unless there is no answer. -/
  | events
  /-- Nobody. -/
  | nobody
deriving DecidableEq, Repr

/-! ### The player -/

/-- What a session keeps of a running script. -/
structure Book where
  /-- The pages. -/
  history : History := default
  /-- Whether the next line begins a page. -/
  pageDue : Bool := true
  /-- The last reading of the clock. Each reading is later than the one before. -/
  clock : Instant := default
  /-- Where the signals go on to. -/
  hooks : Hooks Nat := {}

namespace Player

/-- The tasks of a player. -/
inductive Task where
  /-- Deliver the value of a cell. -/
  | deliver (c : CellName)
  /-- Let one observer of a cell hear a value. -/
  | hear (c : CellName) (id : Nat) (v : c.Value)
  /-- The timeout of a timer is due. -/
  | ring (timer : Nat)
  /-- A ticket is given back. -/
  | finish (t : Ticket)
  /-- A command has started and leaves this behind. -/
  | conclude (t : Ticket) (c : Completion)
  /-- A shown text acts. -/
  | reveal (r : Nat) (a : Reveal.Act)
  /-- A host calls. -/
  | call (a : Audience) (c : HostCall)
  /-- A call has been carried out. -/
  | report (a : Audience) (x : Answer)
  /-- Something is noted. -/
  | note (e : Event)
  /-- A scene is loaded if one is asked for, and then all that follows is run. -/
  | load

end Player

/-- A player. -/
structure Player where
  /-- The event loop and the timers. -/
  schedule : Schedule Player.Task := {}
  /-- The cells that a presentation follows. -/
  stage : Stage Reaction := {}
  /-- What of the log is kept. -/
  filter : DebugFilter := {}
  /-- The meaning of opcodes. -/
  commands : CommandTable := .standard
  /-- Where scenes come from. -/
  source : SceneSource
  /-- The lines of the scene, once it is loaded. -/
  lines : Option (List String) := none
  /-- Where the player is. -/
  phase : Phase := .idle
  /-- The instructions of the line that are still to run. -/
  queue : List Instruction := []
  /-- The handler of the instruction that waits. -/
  active : Option Handler := none
  /-- The generation of the last instruction, raised by each interruption too. -/
  generation : Nat := 0
  /-- The tickets not given back. -/
  live : List Ticket := []
  /-- The number of scenes asked for. -/
  loadVersion : Nat := 0
  /-- The request for a scene, until it is taken. -/
  loadRequest : Option LoadRequest := none
  /-- The delay between characters that the script has set. -/
  delay : Option Nat := none
  /-- The shown texts, numbered in the order in which they began. -/
  reveals : Array Reveal := #[]
  /-- Where the signals go. -/
  hooks : Hooks Receiver := {}
  /-- What a session keeps. -/
  book : Book := {}
  /-- The listeners of the host. -/
  listeners : Array Listener := #[]
  /-- For each observer of the host, the number of its subscription. -/
  subscriptions : Array Nat := #[]
  /-- The tickets that commands of the host were given. -/
  tickets : Array Ticket := #[]
  /-- The requests that the host has taken. -/
  requests : Array LoadRequest := #[]
  /-- What has been noted. -/
  events : Array Event := #[]
  /-- The answer to the last call from outside. -/
  answer : Answer := .none
  /-- The opcode that was registered twice, which stops everything. -/
  fault : Option String := none

namespace Player

/-- Orders for the machine of a player. -/
abbrev Orders := List (Order Task)

/-- Notes an event. -/
def note (p : Player) (e : Event) : Player := { p with events := p.events.push e }

/-- Logs a problem. -/
def logError (p : Player) (text : String) : Player := p.note (.log ⟨.error, none, text⟩)

/-- Logs a step of the script, if the filter keeps it. -/
def trace (p : Player) (c : LogCategory) (l : LogLevel) (text : String) : Player :=
  (p.filter.entry c l text).foldl (fun p e => p.note (.log e)) p

/-- The loop of the player. -/
def loop (p : Player) : Loop Task := p.schedule.loop

/-- Stores a changed cell and queues its delivery if one is asked for. -/
def store (p : Player) (c : CellName) (r : Cell c.Value Reaction × Bool) : Player :=
  { p with
    stage := p.stage.withCell c r.1
    schedule := if r.2 then p.schedule.queueMicrotask (.deliver c) else p.schedule }

/-- Writes a cell. -/
def write (p : Player) (c : CellName) (v : c.Value) : Player := p.store c ((p.stage.cell c).set v)

@[simp] theorem value_cell_write (p : Player) (c : CellName) (v : c.Value) :
    ((p.write c v).stage.cell c).value = v := by
  simp [write, store]

/-- Asks for a delivery of the value of a cell. -/
def notify (p : Player) (c : CellName) : Player := p.store c (p.stage.cell c).notify

/-- Subscribes to a cell. -/
def observe (p : Player) (c : CellName) (r : Reaction) (accepts : c.Value → Bool) (once : Bool) :
    Player :=
  p.store c ((p.stage.cell c).observe r accepts once, false)

/-- Plays a sound: it is heard even if it is the same as the last one. -/
def playEffect (p : Player) (name : String) : Player :=
  (p.write .soundEffect (some name)).notify .soundEffect

/-- Makes a timer and starts it. Its number is the number of timers before it. -/
def startTimer (p : Player) (duration : Nat) (repeats : Bool) (callback : Task) : Player :=
  let k := p.schedule.timers.size
  { p with schedule := (p.schedule.addTimer { duration, repeats, callback }).start .ring k }

/-- Halts a timer. -/
def cancelTimer (p : Player) (k : Nat) : Player := { p with schedule := p.schedule.cancel k }

/-- Changes a shown text. -/
def modifyReveal (p : Player) (r : Nat) (f : Reveal → Reveal) : Player :=
  { p with reveals := p.reveals.modify r f }

/-- The time between two characters. -/
def charDelay (p : Player) : Nat := p.delay.getD p.stage.settings.value.textSpeed.charDelay

end Player

end Novella
