/-!
# Observable cells

A cell holds a value and tells its observers when the value changes. Telling is put off: a change
asks for one delivery, and further changes before that delivery ask for none, so that observers hear
the value that the cell holds when the delivery starts. Observers are numbered in the order in which
they subscribe.

The operations here say whether a delivery is to be queued; the owner of the cell queues it. A
delivery begins with `Cell.beginDelivery` and then calls `Cell.hear` for each observer in turn.

## Main definitions

* `Cell`, `Observer` — a cell over values of type `α` whose observers react by data of type `κ`
* `Cell.set`, `Cell.notify` — changes, with the answer whether to queue a delivery
* `Cell.observe`, `Cell.unobserve` — subscriptions
* `Cell.beginDelivery`, `Cell.hear` — deliveries
-/

namespace Novella

/-- A subscription to a cell. -/
structure Observer (α κ : Type) where
  /-- The number of the subscription. -/
  id : Nat
  /-- What is done with a value. -/
  reaction : κ
  /-- Which values are wanted. -/
  accepts : α → Bool
  /-- Whether the first value wanted is the last. -/
  once : Bool

/-- A value with observers. -/
structure Cell (α κ : Type) where
  /-- The value. -/
  value : α
  /-- The observers, oldest first. -/
  observers : List (Observer α κ) := []
  /-- The number of the next subscription. -/
  nextId : Nat := 0
  /-- Whether a delivery is queued. -/
  scheduled : Bool := false

namespace Cell

variable {α κ : Type}

/-- Asks for a delivery of the current value. None is to be queued when one is already, or when
there is nobody to hear it. -/
def notify (c : Cell α κ) : Cell α κ × Bool :=
  if c.scheduled || c.observers.isEmpty then (c, false) else ({ c with scheduled := true }, true)

/-- Replaces the value. An equal value changes nothing. -/
def set [DecidableEq α] (c : Cell α κ) (v : α) : Cell α κ × Bool :=
  if c.value = v then (c, false) else { c with value := v }.notify

@[simp] theorem value_notify (c : Cell α κ) : c.notify.1.value = c.value := by
  unfold notify
  split <;> rfl

@[simp] theorem value_set [DecidableEq α] (c : Cell α κ) (v : α) : (c.set v).1.value = v := by
  unfold set
  split
  · assumption
  · simp

@[simp] theorem observers_notify (c : Cell α κ) : c.notify.1.observers = c.observers := by
  unfold notify
  split <;> rfl

@[simp] theorem nextId_notify (c : Cell α κ) : c.notify.1.nextId = c.nextId := by
  unfold notify
  split <;> rfl

@[simp] theorem observers_set [DecidableEq α] (c : Cell α κ) (v : α) :
    (c.set v).1.observers = c.observers := by
  unfold set
  split
  · rfl
  · exact observers_notify _

@[simp] theorem nextId_set [DecidableEq α] (c : Cell α κ) (v : α) :
    (c.set v).1.nextId = c.nextId := by
  unfold set
  split
  · rfl
  · exact nextId_notify _

/-- Adds an observer, whose number is the cell's `nextId`. -/
def observe (c : Cell α κ) (reaction : κ) (accepts : α → Bool) (once : Bool) : Cell α κ :=
  { c with
    observers := c.observers ++ [⟨c.nextId, reaction, accepts, once⟩]
    nextId := c.nextId + 1 }

/-- Whether the observer with this number is subscribed. -/
def isSubscribed (c : Cell α κ) (id : Nat) : Bool := c.observers.any (fun o => o.id = id)

/-- Removes the observer with this number. -/
def unobserve (c : Cell α κ) (id : Nat) : Cell α κ :=
  { c with observers := c.observers.filter (fun o => o.id ≠ id) }

/-- Starts the queued delivery: from now on a change asks for another one. Gives the numbers of the
observers that are to hear the current value. -/
def beginDelivery (c : Cell α κ) : Cell α κ × List Nat :=
  ({ c with scheduled := false }, c.observers.map Observer.id)

/-- Lets one observer hear a value. It does not react if it has unsubscribed since the delivery
started, or if it does not want the value. -/
def hear (c : Cell α κ) (id : Nat) (v : α) : Cell α κ × Option κ :=
  match c.observers.find? (fun o => o.id = id) with
  | some o =>
    if o.accepts v then (if o.once then c.unobserve id else c, some o.reaction) else (c, none)
  | none => (c, none)

end Cell

end Novella
