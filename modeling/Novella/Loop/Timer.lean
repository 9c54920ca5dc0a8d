import Novella.Loop.Basic

/-!
# Timers

A timer runs a task once after its duration, or again and again at that interval. While it runs it
holds one timeout of its loop. A paused timer is not taken up again: a new one is made from the time
that was left.

Timers are numbered and kept beside their loop in a `Schedule`. The timeout of timer `k` carries the
task `ring k`, which the owner of the schedule answers with `Schedule.ring`.

## Main definitions

* `Timer`, `TimerState` — a timer and where it is in its life
* `Schedule` — an event loop with its timers
* `Schedule.start`, `Schedule.pause`, `Schedule.cancel`, `Schedule.skip`, `Schedule.ring`
-/

namespace Novella

/-- Where a timer is in its life. -/
inductive TimerState where
  /-- Not started yet. -/
  | idle
  /-- Waiting to ring. -/
  | running
  /-- Halted with this much time left. -/
  | paused (remaining : Nat)
  /-- Halted for good. -/
  | cancelled
  /-- Rung for the last time, or skipped. -/
  | finished
deriving DecidableEq, Repr

/-- A timer that performs tasks of a type `τ`. -/
structure Timer (τ : Type) where
  /-- The time from the start to the ring, or between two rings. -/
  duration : Nat
  /-- Whether it rings again and again. -/
  repeats : Bool
  /-- What is performed when it rings. -/
  callback : τ
  /-- Where it is in its life. -/
  state : TimerState := .idle
  /-- The number of its timeout, while it has one. -/
  handle : Option Nat := none
  /-- When its timeout was scheduled. -/
  scheduledAt : Nat := 0

namespace Timer

variable {τ : Type}

/-- Whether the timer waits to ring. -/
def isPending (t : Timer τ) : Bool := t.state = .running

/-- The time left at `now`, for a timer that runs or is paused. -/
def remaining? (t : Timer τ) (now : Nat) : Option Nat :=
  match t.state with
  | .running => some (t.duration - (now - t.scheduledAt))
  | .paused r => some r
  | _ => none

end Timer

/-- An event loop and the timers on it, numbered in the order in which they were made. -/
structure Schedule (τ : Type) where
  /-- The loop. -/
  loop : Loop τ := {}
  /-- The timers. -/
  timers : Array (Timer τ) := #[]

namespace Schedule

variable {τ : Type}

instance : Inhabited (Schedule τ) := ⟨{}⟩

/-- Queues a task behind the other microtasks. -/
def queueMicrotask (s : Schedule τ) (t : τ) : Schedule τ :=
  { s with loop := s.loop.queueMicrotask t }

/-- Makes a timer, whose number is the number of timers before it. -/
def addTimer (s : Schedule τ) (t : Timer τ) : Schedule τ := { s with timers := s.timers.push t }

/-- Puts a timer in the place of timer `k`. -/
def setTimer (s : Schedule τ) (k : Nat) (t : Timer τ) : Schedule τ :=
  { s with timers := s.timers.setIfInBounds k t }

/-- Gives timer `k`, which is `t`, a timeout after its duration. -/
def arm (ring : Nat → τ) (s : Schedule τ) (k : Nat) (t : Timer τ) : Schedule τ :=
  let armed :=
    { t with state := .running, handle := some s.loop.nextId, scheduledAt := s.loop.now }
  { s.setTimer k armed with loop := s.loop.setTimeout t.duration (ring k) }

/-- Starts timer `k`, unless it is running. -/
def start (ring : Nat → τ) (s : Schedule τ) (k : Nat) : Schedule τ :=
  match s.timers[k]? with
  | some t => if t.isPending then s else s.arm ring k t
  | none => s

/-- Takes back the timeout of timer `k`, which is `t`, and leaves it in another state. -/
def disarm (s : Schedule τ) (k : Nat) (t : Timer τ) (state : TimerState) : Schedule τ :=
  let loop := match t.handle with
    | some id => s.loop.clearTimeout id
    | none => s.loop
  { s.setTimer k { t with state, handle := none } with loop }

/-- Halts timer `k` if it is running, and gives the time that was left. -/
def pause (s : Schedule τ) (k : Nat) : Schedule τ × Option Nat :=
  match s.timers[k]? with
  | some t =>
    if t.isPending then
      let left := t.duration - (s.loop.now - t.scheduledAt)
      (s.disarm k t (.paused left), some left)
    else (s, none)
  | none => (s, none)

/-- Halts timer `k` for good. -/
def cancel (s : Schedule τ) (k : Nat) : Schedule τ :=
  match s.timers[k]? with
  | some t => s.disarm k t (if t.state = .finished then .finished else .cancelled)
  | none => s

/-- Ends the wait of timer `k` and has its callback performed as soon as the loop turns. Says
whether there was a wait to end. -/
def skip (s : Schedule τ) (k : Nat) : Schedule τ × Bool :=
  match s.timers[k]? with
  | some t =>
    match t.state with
    | .running | .paused _ =>
      let s := s.disarm k t .finished
      ({ s with loop := s.loop.setTimeout 0 t.callback }, true)
    | _ => (s, false)
  | none => (s, false)

/-- The timeout of timer `k` is due. A running timer has its callback performed; if it repeats it
is armed again before that, and otherwise it is finished. -/
def ring (ring : Nat → τ) (s : Schedule τ) (k : Nat) : Schedule τ × Option τ :=
  match s.timers[k]? with
  | some t =>
    if t.isPending then
      let s := if t.repeats then s.arm ring k { t with handle := none }
        else s.setTimer k { t with handle := none, state := .finished }
      (s, some t.callback)
    else (s, none)
  | none => (s, none)

end Schedule

end Novella
