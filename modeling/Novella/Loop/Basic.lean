/-!
# Event loops

An event loop holds work for later: microtasks, which run in the order in which they were queued,
and timeouts, which run in the order of their deadlines and, at one deadline, in the order in which
they were scheduled. Time is virtual and counted in milliseconds. The loop only keeps the work; the
tasks themselves are data, and `Machine` performs them.

## Implementation notes

The timeouts stand in one list, in the order of their deadlines, and each carries its number. A loop
that looks timeouts up by their numbers may keep two tables instead, one from deadlines and numbers
to tasks and one from numbers to deadlines. Since scheduling, taking back and starting a timeout
write both, the two tables always hold the same timeouts, and the list is what they hold: its order
is that of the first table, because numbers are given in order and a new timeout goes behind those
with its deadline, and to look a number up is to search the list for it.

Times and numbers are natural numbers, without a largest one. A loop whose times and numbers are
words of a machine does the same until one of them overflows, for which it would have to run for
ages. No operation divides or rounds a time, so that the unit makes no difference either.

## Main definitions

* `Loop` — the state of an event loop over tasks of a type `τ`
* `Loop.queueMicrotask`, `Loop.setTimeout`, `Loop.clearTimeout` — scheduling
* `Loop.popMicrotask?`, `Loop.popDue?` — the next task to run, taken off the loop

## Main results

* `Loop.pairwise_insertTimeout` — timeouts stay in the order of their deadlines
* `Loop.eq_of_popMicrotask?`, `Loop.eq_of_popDue?` — what is taken off a loop, and what is left
-/

namespace Novella

/-- A task with the time at which it is due. -/
structure Timeout (τ : Type) where
  /-- When the task is due. -/
  deadline : Nat
  /-- The number under which it was scheduled. -/
  id : Nat
  /-- The task. -/
  task : τ

/-- An event loop: the current time and the work that waits. -/
structure Loop (τ : Type) where
  /-- The current time. -/
  now : Nat := 0
  /-- The microtasks, first one first. -/
  microtasks : List τ := []
  /-- The timeouts in the order in which they run. -/
  timeouts : List (Timeout τ) := []
  /-- The number of the next timeout. -/
  nextId : Nat := 0

namespace Loop

variable {τ : Type}

instance : Inhabited (Loop τ) := ⟨{}⟩

/-- Puts a timeout behind all that are due no later. -/
def insertTimeout (t : Timeout τ) : List (Timeout τ) → List (Timeout τ)
  | [] => [t]
  | u :: us => if t.deadline < u.deadline then t :: u :: us else u :: insertTimeout t us

@[simp] theorem mem_insertTimeout {t u : Timeout τ} {us : List (Timeout τ)} :
    u ∈ insertTimeout t us ↔ u = t ∨ u ∈ us := by
  induction us with
  | nil => simp [insertTimeout]
  | cons a us ih =>
    simp only [insertTimeout]
    split
    · simp
    · simp only [List.mem_cons, ih]
      exact or_left_comm

/-- Timeouts stay in the order of their deadlines. -/
theorem pairwise_insertTimeout {t : Timeout τ} {us : List (Timeout τ)}
    (h : us.Pairwise (fun a b => a.deadline ≤ b.deadline)) :
    (insertTimeout t us).Pairwise (fun a b => a.deadline ≤ b.deadline) := by
  induction us with
  | nil => simp [insertTimeout]
  | cons a us ih =>
    have ⟨ha, hus⟩ := List.pairwise_cons.1 h
    simp only [insertTimeout]
    split
    · -- the new timeout is the first
      rename_i hlt
      refine List.pairwise_cons.2 ⟨fun b hb => ?_, h⟩
      rcases List.mem_cons.1 hb with rfl | hb
      · exact Nat.le_of_lt hlt
      · exact Nat.le_trans (Nat.le_of_lt hlt) (ha b hb)
    · rename_i hle
      refine List.pairwise_cons.2 ⟨fun b hb => ?_, ih hus⟩
      rcases mem_insertTimeout.1 hb with rfl | hb
      · exact Nat.le_of_not_lt hle
      · exact ha b hb

/-- Queues a task behind the other microtasks. -/
def queueMicrotask (l : Loop τ) (t : τ) : Loop τ :=
  { l with microtasks := l.microtasks ++ [t] }

/-- Schedules a task `delay` milliseconds from now. Its number is the loop's `nextId`. -/
def setTimeout (l : Loop τ) (delay : Nat) (t : τ) : Loop τ :=
  { l with
    timeouts := insertTimeout ⟨l.now + delay, l.nextId, t⟩ l.timeouts
    nextId := l.nextId + 1 }

/-- Whether the timeout with this number still waits. -/
def isWaiting (l : Loop τ) (id : Nat) : Bool := l.timeouts.any (fun t => t.id = id)

/-- Takes back the timeout with this number, if it still waits. -/
def clearTimeout (l : Loop τ) (id : Nat) : Loop τ :=
  { l with timeouts := l.timeouts.filter (fun t => t.id ≠ id) }

/-- When the next timeout is due. -/
def nextDeadline? (l : Loop τ) : Option Nat := l.timeouts.head?.map Timeout.deadline

/-- Whether microtasks wait. -/
def hasMicrotasks (l : Loop τ) : Bool := !l.microtasks.isEmpty

/-- Whether nothing waits. -/
def isIdle (l : Loop τ) : Bool := l.microtasks.isEmpty && l.timeouts.isEmpty

/-- The next microtask, and the loop without it. -/
def popMicrotask? (l : Loop τ) : Option (τ × Loop τ) :=
  match l.microtasks with
  | [] => none
  | t :: ts => some (t, { l with microtasks := ts })

/-- The next timeout that is due by `target`, and the loop at its deadline without it. -/
def popDue? (l : Loop τ) (target : Nat) : Option (τ × Loop τ) :=
  match l.timeouts with
  | [] => none
  | t :: ts =>
    if t.deadline ≤ target then some (t.task, { l with now := t.deadline, timeouts := ts })
    else none

variable {l l' : Loop τ} {t : τ}

theorem eq_of_popMicrotask? (h : l.popMicrotask? = some (t, l')) :
    ∃ ts, l.microtasks = t :: ts ∧ l' = { l with microtasks := ts } := by
  rw [popMicrotask?] at h
  split at h
  · cases h
  · next u us hl =>
    cases h
    exact ⟨us, hl, rfl⟩

/-- What falls due is the task of the first timeout, and the loop is at its deadline without it. -/
theorem eq_of_popDue? {target : Nat} (h : l.popDue? target = some (t, l')) :
    ∃ u us, l.timeouts = u :: us ∧ u.deadline ≤ target ∧ t = u.task ∧
      l' = { l with now := u.deadline, timeouts := us } := by
  rw [popDue?] at h
  split at h
  · cases h
  · next u us hl =>
    split at h
    · next hu =>
      cases h
      exact ⟨u, us, hl, hu, rfl, rfl⟩
    · cases h

end Loop

end Novella
