import Novella.Player.World

/-!
# Trying commands

On a bench, commands are called one at a time, without a script. Each call gets a ticket of its own.
What a command leaves behind stays on the bench, to be given input or cancelled there.

## Main definitions

* `Bench` — a player whose commands are called from outside
* `Bench.call` — a call of a command
* `Bench.next`, `Bench.cancel`, `Bench.finish` — what may happen to it then
-/

namespace Novella

/-- A player whose commands are called from outside. -/
structure Bench where
  /-- The player. -/
  player : Player
  /-- The number of calls. -/
  calls : Nat := 0
  /-- The handlers that calls left behind. -/
  handlers : Array Handler := #[]

/-- What becomes of a call. -/
inductive Bench.Result where
  /-- The opcode is reserved. -/
  | reserved
  /-- The opcode is unknown. -/
  | unknown
  /-- The command is done. -/
  | completed
  /-- The command left this handler behind. -/
  | pending (h : Nat)
deriving DecidableEq, Repr

namespace Bench

/-- A bench with a table of commands, where the sounds played are noted. -/
def ofTable (commands : CommandTable) (filter : DebugFilter) : Bench :=
  let p : Player := { commands, filter, source := SceneSource.ofTexts [] }
  let p := p.addListener ⟨fun _ => false, 0, []⟩
  ⟨p.observe .soundEffect (.listener 0) (fun _ => true) false, 0, #[]⟩

/-- The bench without the events of earlier calls. -/
def listening (b : Bench) : Bench := { b with player := b.player.listening }

/-- Carries out what a player still has to do, within a number of steps. -/
def carryOut (b : Bench) (steps : Nat) (r : Player × Player.Orders) : Bench :=
  { b with player := (Machine.run steps ⟨r.1, r.2⟩).world }

/-- Calls a command, within a number of steps. -/
def call (b : Bench) (steps : Nat) (opcode argument : String) : Bench × Result :=
  match b.player.commands.get? opcode with
  | none => (b, .unknown)
  | some none => (b, .reserved)
  | some (some command) =>
    let t := Ticket.call b.calls
    let p := { b.player with live := t :: b.player.live }
    let (p, orders, c) := p.execute command opcode argument t
    let b := { b.carryOut steps (p, orders) with calls := b.calls + 1 }
    match c with
    | .completed => (b, .completed)
    | .pending h => ({ b with handlers := b.handlers.push h }, .pending b.handlers.size)

/-- Gives input to a handler, within a number of steps. -/
def next (b : Bench) (steps : Nat) (h : Nat) : Bench :=
  match b.handlers[h]? with
  | some x => b.carryOut steps (b.player.advanceHandler x)
  | none => b

/-- Cancels a handler. -/
def cancel (b : Bench) (h : Nat) : Bench :=
  match b.handlers[h]? with
  | some x => { b with player := b.player.cancelHandler x }
  | none => b

/-- Whether a call is finished. -/
def isFinished (b : Bench) (k : Nat) : Bool := decide (Ticket.call k ∉ b.player.live)

/-- Finishes a call, within a number of steps. -/
def finish (b : Bench) (steps : Nat) (k : Nat) : Bench :=
  b.carryOut steps (b.player.finish (.call k))

/-- Moves time forward, within a number of steps. -/
def advance (b : Bench) (steps : Nat) (d : Nat) : Bench := b.carryOut steps (b.player, [.advance d])

/-- Gives an opcode a meaning, in the place of any other, or reserves it. -/
def define (b : Bench) (opcode : String) (c : Option Command) : Bench :=
  { b with player := { b.player with commands := b.player.commands.insert opcode c } }

/-- Merges another table into that of the bench, unless an opcode is in both. -/
def merge? (b : Bench) (t : CommandTable) : Except String Bench :=
  (b.player.commands.merge? t).map
    (fun commands => { b with player := { b.player with commands } })

end Bench

end Novella
