import Novella.Cell.Basic
import Novella.Loop.Machine

/-!
# Programs on cells

A program is a list of calls on a row of integer cells that share one event loop. Observers note
the value they hear and then make calls of their own on the same cells. Observers are numbered in
the order in which they subscribe, whatever their cell; the number of a subscription within its cell
is kept beside that.

## Main definitions

* `CellProgram.Call` — a call, with what an observer does
* `CellProgram.Board` — the world that programs run in
* `CellProgram.Board.request` — a call from outside, for `Machine.run` to carry out
-/

namespace Novella.CellProgram

/-- A call on the cells. -/
inductive Call where
  /-- Write a value. -/
  | set (c : Nat) (v : Int64)
  /-- Add to the value. -/
  | add (c : Nat) (d : Int64)
  /-- Read the value. -/
  | get (c : Nat)
  /-- Ask for a delivery. -/
  | notify (c : Nat)
  /-- Subscribe; on each value wanted, make the calls of the body. -/
  | observe (c : Nat) (accepts : Int64 → Bool) (once : Bool) (body : List Call)
  /-- Remove from cell `c` the subscription numbered like that of observer `k`. -/
  | unobserve (c k : Nat)
  /-- Run the microtasks. -/
  | run
  /-- Make a call if the value heard passes the test. -/
  | when (accepts : Int64 → Bool) (c : Call)

instance : Inhabited Call := ⟨.run⟩

/-- What a call answers. -/
inductive Answer where
  /-- Nothing. -/
  | none
  /-- Whether the call did something. -/
  | flag (b : Bool)
  /-- A value. -/
  | value (v : Int64)
  /-- A value read in two ways. -/
  | values (v w : Int64)
deriving DecidableEq, Repr

/-- An observer heard a value. -/
structure Event where
  /-- The number of the observer. -/
  observer : Nat
  /-- The cell. -/
  cell : Nat
  /-- The value. -/
  value : Int64
deriving DecidableEq, Repr

/-- What an observer does with a value. -/
structure Reaction where
  /-- The number of the observer. -/
  observer : Nat
  /-- The calls it makes. -/
  body : List Call

/-- A task of the loop. -/
inductive Task where
  /-- Deliver the value of a cell. -/
  | deliver (c : Nat)
  /-- Let one observer of a cell hear a value. -/
  | hear (c id : Nat) (v : Int64)
  /-- Make a call for an observer that heard a value. -/
  | call (heard : Int64) (c : Call)
  /-- Make a call from outside. -/
  | request (c : Call)

/-- The world that programs run in. -/
structure Board where
  /-- The loop. -/
  loop : Loop Task := {}
  /-- The cells. -/
  cells : Array (Cell Int64 Reaction) := #[]
  /-- For each observer, the number of its subscription. -/
  subscriptions : Array Nat := #[]
  /-- What has been heard. -/
  events : Array Event := #[]
  /-- The answer to the last call from outside. -/
  answer : Answer := .none

namespace Board

instance : Inhabited Board := ⟨{}⟩

/-- The board with these values in its cells. -/
def ofValues (l : List Int64) : Board :=
  { cells := (l.map (fun v => { value := v })).toArray }

/-- Stores a changed cell and queues its delivery if one is asked for. -/
def store (b : Board) (c : Nat) (r : Cell Int64 Reaction × Bool) : Board :=
  { b with
    cells := b.cells.setIfInBounds c r.1
    loop := if r.2 then b.loop.queueMicrotask (.deliver c) else b.loop }

/-- Writes a value to a cell. -/
def write (b : Board) (c : Nat) (v : Int64) : Board :=
  match b.cells[c]? with
  | some x => b.store c (x.set v)
  | none => b

/-- Makes a call, for an observer that heard `heard` if it is made by one: the world after the
call, its answer and what remains to be done. -/
def call (b : Board) (heard : Int64) : Call → Board × Answer × List (Order Task)
  | .set c v => (b.write c v, .none, [])
  | .add c d =>
    match b.cells[c]? with
    | some x => (b.write c (x.value + d), .value (x.value + d), [])
    | none => (b, .none, [])
  | .get c =>
    match b.cells[c]? with
    | some x => (b, .values x.value x.value, [])
    | none => (b, .none, [])
  | .notify c =>
    match b.cells[c]? with
    | some x => (b.store c x.notify, .none, [])
    | none => (b, .none, [])
  | .observe c accepts once body =>
    match b.cells[c]? with
    | some x =>
      let reaction : Reaction := ⟨b.subscriptions.size, body⟩
      ({ b.store c (x.observe reaction accepts once, false) with
          subscriptions := b.subscriptions.push x.nextId }, .none, [])
    | none => (b, .none, [])
  | .unobserve c k =>
    match b.cells[c]?, b.subscriptions[k]? with
    | some x, some id => (b.store c (x.unobserve id, false), .flag (x.isSubscribed id), [])
    | _, _ => (b, .flag false, [])
  | .run => (b, .none, [.drain])
  | .when accepts c => (b, .none, if accepts heard then [.perform (.call heard c)] else [])

/-- Carries out a task. -/
def perform : Task → Board → Board × List (Order Task)
  | .deliver c, b =>
    match b.cells[c]? with
    | some x =>
      let (y, ids) := x.beginDelivery
      (b.store c (y, false), ids.map (fun id => .perform (.hear c id x.value)))
    | none => (b, [])
  | .hear c id v, b =>
    match b.cells[c]? with
    | some x =>
      match x.hear id v with
      | (y, some r) =>
        ({ b.store c (y, false) with events := b.events.push ⟨r.observer, c, v⟩ },
          r.body.map (fun s => .perform (.call v s)))
      | (_, none) => (b, [])
    | none => (b, [])
  | .call heard c, b =>
    let (b, _, orders) := b.call heard c
    (b, orders)
  | .request c, b =>
    let (b, a, orders) := b.call 0 c
    ({ b with answer := a }, orders)

instance : World Board Task where
  loop b := b.loop
  withLoop b l := { b with loop := l }
  perform := perform
  loop_withLoop _ _ := rfl
  withLoop_loop _ := rfl
  withLoop_withLoop _ _ _ := rfl

/-- The machine that makes a call from outside, in a world without events. -/
def request (b : Board) (c : Call) : Machine Board Task :=
  ⟨{ b with events := #[] }, [.perform (.request c)]⟩

end Board

end Novella.CellProgram
