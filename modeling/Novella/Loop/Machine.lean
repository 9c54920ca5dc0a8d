import Novella.Loop.Basic

/-!
# Machines

A machine is a world with an event loop and an agenda, the list of what is still to be done in the
current turn, first things first. Performing a task changes the world and may put further orders in
front of the rest, so what a task asks for is finished before the agenda goes on. In this way
callbacks that call back into the loop need no recursion: a machine is run one step at a time.

To advance time is to drain the microtasks, to fix the target, and then to perform every timeout
that falls due until the target, each followed by the microtasks it left behind.

## Main definitions

* `Order` — one item of an agenda
* `World` — a type of worlds with a loop, and the meaning of tasks in them
* `Machine`, `Machine.step`, `Machine.run` — a world with an agenda, and its runs
-/

namespace Novella

/-- One item of an agenda, over tasks of a type `τ`. -/
inductive Order (τ : Type) where
  /-- Perform a task. -/
  | perform (t : τ)
  /-- Run microtasks until none is left. -/
  | drain
  /-- Move time forward by `d`. -/
  | advance (d : Nat)
  /-- Move time forward by `d`, the microtasks having been drained. -/
  | depart (d : Nat)
  /-- Perform what is due by `target`, and be there. -/
  | runUntil (target : Nat)
  /-- Give up everything still to be done. -/
  | halt

namespace Order

variable {τ : Type}

/-- The orders that run what is due now, without moving time. -/
def settle : Order τ := .advance 0

end Order

/-- A type of worlds that hold an event loop and give each task its meaning: the world after the
task, and the orders that the task leaves behind. -/
class World (σ : Type) (τ : outParam Type) where
  /-- The loop of a world. -/
  loop : σ → Loop τ
  /-- The world with another loop. -/
  withLoop : σ → Loop τ → σ
  /-- Carries out a task. -/
  perform : τ → σ → σ × List (Order τ)
  loop_withLoop : ∀ s l, loop (withLoop s l) = l
  withLoop_loop : ∀ s, withLoop s (loop s) = s
  withLoop_withLoop : ∀ s l l', withLoop (withLoop s l) l' = withLoop s l'

attribute [simp] World.loop_withLoop World.withLoop_loop World.withLoop_withLoop

/-- A world and what is still to be done in it. -/
structure Machine (σ τ : Type) where
  /-- The world. -/
  world : σ
  /-- What is to be done, first things first. -/
  agenda : List (Order τ) := []

namespace Machine

variable {σ τ : Type} [World σ τ]

/-- Carries out the first order of the agenda. A machine without orders stays as it is. -/
def step (m : Machine σ τ) : Machine σ τ :=
  match m.agenda with
  | [] => m
  | .perform t :: rest =>
    let (w, orders) := World.perform t m.world
    ⟨w, orders ++ rest⟩
  | .drain :: rest =>
    match (World.loop m.world).popMicrotask? with
    | some (t, l) => ⟨World.withLoop m.world l, .perform t :: .drain :: rest⟩
    | none => ⟨m.world, rest⟩
  | .advance d :: rest => ⟨m.world, .drain :: .depart d :: rest⟩
  | .depart d :: rest => ⟨m.world, .runUntil ((World.loop m.world).now + d) :: rest⟩
  | .runUntil target :: rest =>
    match (World.loop m.world).popDue? target with
    | some (t, l) =>
      ⟨World.withLoop m.world l, .perform t :: .drain :: .runUntil target :: rest⟩
    | none => ⟨World.withLoop m.world { World.loop m.world with now := target }, rest⟩
  | .halt :: _ => ⟨m.world, []⟩

/-- Runs the machine until its agenda is empty, but for at most `n` steps. -/
def run : Nat → Machine σ τ → Machine σ τ
  | 0, m => m
  | n + 1, m =>
    match m.agenda with
    | [] => m
    | _ :: _ => run n m.step

theorem step_of_agenda_eq_nil {m : Machine σ τ} (h : m.agenda = []) : m.step = m := by
  simp [step, h]

theorem run_of_agenda_eq_nil {m : Machine σ τ} (h : m.agenda = []) (n : Nat) : m.run n = m := by
  cases n with
  | zero => rfl
  | succ n => rw [run]; simp [h]

theorem run_succ (m : Machine σ τ) (n : Nat) : m.run (n + 1) = m.step.run n := by
  rw [run]
  cases h : m.agenda with
  | nil => simp [step_of_agenda_eq_nil h, run_of_agenda_eq_nil h]
  | cons a l => rfl

/-- A run may be cut in two. -/
theorem run_add (k n : Nat) (m : Machine σ τ) : m.run (k + n) = (m.run k).run n := by
  induction k generalizing m with
  | zero => rw [Nat.zero_add]; rfl
  | succ k ih => rw [Nat.succ_add, run_succ, run_succ, ih]

end Machine

end Novella
