import Novella.Loop.Machine
import Novella.Loop.Timer

/-!
# Programs on an event loop

A program is a list of calls on an event loop and its timers. Tasks are labelled: when one runs it
notes its label and then makes calls of its own, which may schedule, clear, advance and settle like
any other. Timeouts and timers are numbered in the order in which they are made.

## Main definitions

* `LoopProgram.Call` — a call, with the calls that its task makes
* `LoopProgram.Desk` — the world that programs run in
* `LoopProgram.Desk.request` — a call from outside, for `Machine.run` to carry out
-/

namespace Novella.LoopProgram

/-- A call on an event loop. -/
inductive Call where
  /-- Queue a task. -/
  | microtask (label : String) (body : List Call)
  /-- Schedule a task. -/
  | timeout (delay : Nat) (label : String) (body : List Call)
  /-- Take back the timeout made as number `k`. -/
  | clear (k : Nat)
  /-- Move time forward. -/
  | advance (d : Nat)
  /-- Run what is due now. -/
  | settle
  /-- Run the microtasks. -/
  | runMicrotasks
  /-- Make a timer. -/
  | timer (duration : Nat) (repeats : Bool) (body : List Call)
  /-- Start timer `k`. -/
  | start (k : Nat)
  /-- Pause timer `k`. -/
  | pause (k : Nat)
  /-- Cancel timer `k`. -/
  | cancel (k : Nat)
  /-- Skip timer `k`. -/
  | skip (k : Nat)

instance : Inhabited Call := ⟨.settle⟩

/-- What a call answers. -/
inductive Answer where
  /-- Nothing. -/
  | none
  /-- Whether the call did something. -/
  | flag (b : Bool)
  /-- A time that was left. -/
  | time (d : Nat)
deriving DecidableEq, Repr

/-- What is noted while a program runs. -/
inductive Event where
  /-- A task ran. -/
  | fired (label : String)
  /-- A call made by a task had an answer. -/
  | answered (a : Answer)
deriving DecidableEq, Repr

/-- A task of the loop. -/
inductive Task where
  /-- Note the label and make the calls. -/
  | body (label : String) (calls : List Call)
  /-- The timeout of a timer is due. -/
  | ring (timer : Nat)
  /-- Make a call for a task. -/
  | call (c : Call)
  /-- Make a call from outside. -/
  | request (c : Call)

/-- The world that programs run in. -/
structure Desk where
  /-- The loop and its timers. -/
  schedule : Schedule Task := {}
  /-- The loop's numbers of the timeouts, in the order in which they were made. -/
  timeouts : Array Nat := #[]
  /-- What has been noted. -/
  events : Array Event := #[]
  /-- The answer to the last call from outside. -/
  answer : Answer := .none

namespace Desk

instance : Inhabited Desk := ⟨{}⟩

/-- The label of a timer's task. -/
def timerLabel (k : Nat) : String := s!"t{k}"

/-- Makes a call: the world after it, its answer and what remains to be done. -/
def call (d : Desk) : Call → Desk × Answer × List (Order Task)
  | .microtask label body =>
    ({ d with schedule := d.schedule.queueMicrotask (.body label body) }, .none, [])
  | .timeout delay label body =>
    let l := d.schedule.loop
    ({ d with
        schedule := { d.schedule with loop := l.setTimeout delay (.body label body) }
        timeouts := d.timeouts.push l.nextId }, .none, [])
  | .clear k =>
    match d.timeouts[k]? with
    | some id =>
      let l := d.schedule.loop
      ({ d with schedule := { d.schedule with loop := l.clearTimeout id } },
        .flag (l.isWaiting id), [])
    | none => (d, .flag false, [])
  | .advance t => (d, .none, [.advance t])
  | .settle => (d, .none, [.settle])
  | .runMicrotasks => (d, .none, [.drain])
  | .timer duration repeats body =>
    let callback := .body (timerLabel d.schedule.timers.size) body
    let timer : Timer Task := { duration, repeats, callback }
    ({ d with schedule := d.schedule.addTimer timer }, .none, [])
  | .start k => ({ d with schedule := d.schedule.start .ring k }, .none, [])
  | .pause k =>
    let (s, left) := d.schedule.pause k
    ({ d with schedule := s }, (left.map .time).getD .none, [])
  | .cancel k => ({ d with schedule := d.schedule.cancel k }, .none, [])
  | .skip k =>
    let (s, done) := d.schedule.skip k
    ({ d with schedule := s }, .flag done, [])

/-- Notes an event. -/
def note (d : Desk) (e : Event) : Desk := { d with events := d.events.push e }

/-- Carries out a task. -/
def perform : Task → Desk → Desk × List (Order Task)
  | .body label calls, d => (d.note (.fired label), calls.map (fun c => .perform (.call c)))
  | .ring k, d =>
    let (s, callback) := d.schedule.ring .ring k
    ({ d with schedule := s }, callback.toList.map .perform)
  | .call c, d =>
    let (d, a, orders) := d.call c
    (if a = .none then d else d.note (.answered a), orders)
  | .request c, d =>
    let (d, a, orders) := d.call c
    ({ d with answer := a }, orders)

instance : World Desk Task where
  loop d := d.schedule.loop
  withLoop d l := { d with schedule := { d.schedule with loop := l } }
  perform := perform
  loop_withLoop _ _ := rfl
  withLoop_loop _ := rfl
  withLoop_withLoop _ _ _ := rfl

/-- The machine that makes a call from outside, in a world without events. -/
def request (d : Desk) (c : Call) : Machine Desk Task :=
  ⟨{ d with events := #[] }, [.perform (.request c)]⟩

end Desk

end Novella.LoopProgram
