import Novella.Command.Cue
import Novella.Log
import Novella.Variable.Assignment

/-!
# What a host may ask of a player

A host drives a player by calls. It may also leave calls with the player, to be made when something
happens: when text appears, when a cell changes, or when the script runs a command that the host has
registered. What happens is noted as a list of events, which is all that a host hears.

## Main definitions

* `HostCall` — a call, with the calls that it leaves behind
* `Answer`, `Event` — what a call answers and what is noted
* `Signal`, `Occurrence` — what a host can react to
-/

namespace Novella

/-- The connections from a script to its presentation. -/
inductive Hook where
  /-- Text is shown. -/
  | text
  /-- A page ends. -/
  | page
  /-- The script returns to its host. -/
  | exit
deriving DecidableEq, Repr

/-- What goes through a hook. -/
inductive Signal where
  /-- A piece of text is shown. -/
  | text (token : String)
  /-- A page ends. -/
  | page
  /-- The script returns to its host. -/
  | exit
deriving DecidableEq, Repr

/-- The hook that a signal goes through. -/
def Signal.hook : Signal → Hook
  | text _ => .text
  | page => .page
  | exit => .exit

/-- What a host can react to. -/
inductive Occurrence where
  /-- A signal came. -/
  | signal (s : Signal)
  /-- A cell has a new value. -/
  | cell (c : CellName) (v : c.Value)

/-- How a command of the host goes on after it has made its calls. -/
inductive Behavior where
  /-- It is done. -/
  | complete
  /-- It waits to be finished. -/
  | hold
  /-- It waits to be finished and notes when it is cancelled. -/
  | cancellable
  /-- It waits for input. -/
  | onNext
  /-- It finishes, and then waits. -/
  | finishThenHold
  /-- It finishes, and is then done. -/
  | finishThenComplete
deriving DecidableEq, Repr

/-- A call by a host. -/
inductive HostCall where
  /-- Give input. -/
  | next
  /-- Run what is due. -/
  | settle
  /-- Move time forward. -/
  | advance (d : Nat)
  /-- Run the microtasks. -/
  | runMicrotasks
  /-- Jump to a line. -/
  | goto (scene : String) (index : UInt64)
  /-- Jump to a position. -/
  | restore (context : Context) (progress : Progress)
  /-- Run what is due, and load scenes as long as any are asked for. -/
  | serve
  /-- Take the request for a scene. -/
  | take
  /-- Answer the request taken as number `k`, or say that there is no such scene. -/
  | complete (k : Nat) (lines : Option (List String))
  /-- Write a cell. -/
  | set (c : CellName) (v : c.Value)
  /-- Have the value of a cell delivered. -/
  | notify (c : CellName)
  /-- Play a sound. -/
  | effect (name : String)
  /-- Write a variable. -/
  | setVariable (token : String) (v : Value)
  /-- Read a variable. -/
  | getVariable (token : String)
  /-- Follow a cell: note each value that is accepted, and make the calls on those that the trigger
  picks, at most `times` times. -/
  | observe (c : CellName) (accepts : c.Value → Bool) (once : Bool)
      (trigger : Occurrence → Bool) (times : Nat) (body : List HostCall)
  /-- Remove from a cell the subscription numbered like that of the host's observer `k`. -/
  | unobserve (c : CellName) (k : Nat)
  /-- Choose the speed of text, in the cell of the settings only. -/
  | speed (s : TextSpeed)
  /-- Register a command, or reserve its opcode. -/
  | register (opcode : String) (b : Option Behavior) (body : List HostCall)
  /-- Finish the command call of number `k`. -/
  | finish (k : Nat)

instance : Inhabited HostCall := ⟨.settle⟩

/-- A request for the lines of a scene. -/
structure LoadRequest where
  /-- The scene. -/
  scene : String
  /-- The number of scenes asked for until then. -/
  version : Nat
deriving DecidableEq, Repr

/-- What a call answers. -/
inductive Answer where
  /-- Nothing. -/
  | none
  /-- Whether the call did something. -/
  | flag (b : Bool)
  /-- Whether there was something to finish. It is finished in any case. -/
  | finished (first : Bool)
  /-- The request taken. -/
  | request (r : LoadRequest)
  /-- The value read. -/
  | value (v : Value)
  /-- The variable was not read or written. -/
  | refused (e : VariableError)
deriving DecidableEq, Repr

/-- What a player notes. -/
inductive Event where
  /-- A line of the log. -/
  | log (e : LogEntry)
  /-- Something that the host listens to. -/
  | occurred (o : Occurrence)
  /-- A command of the host was called. -/
  | called (opcode argument : String)
  /-- A command of the host got input, and answers whether it then finished if it waits for that. -/
  | advanced (finished : Option Bool)
  /-- A command of the host was cancelled. -/
  | cancelled
  /-- A call left with the player had an answer. -/
  | answered (a : Answer)
  /-- A call of a command from outside is finished. -/
  | done (k : Nat)

end Novella
