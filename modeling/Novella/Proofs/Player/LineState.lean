import Novella.Proofs.Player.PendingCalls
import Novella.Proofs.Player.Signals
import Novella.Proofs.Script.LineExpansion

/-!
# What a player has at hand for a line

What an instruction does depends on little: on the cells, on the opcodes and on what is left of the
line. With the last generation, the tickets and the microtasks this is the *desk* of the player,
where it works on a line. The tasks of a player touch the desk in three ways only. Most leave it as
it is. A ticket may be given back, and if it is the one of the instruction under way, the next
instruction is run from there.

So a line takes its course whoever gives the tickets back, and whatever the host has a hand in.

## Main definitions

* `Desk`, `Player.desk` — what a player has at hand for a line
* `Desk.Proceeds` — what a task does there of its own accord

## Main results

* `Desk.finish`, `Desk.actReveal`, `Desk.next` — tasks only proceed
-/

namespace Novella

open Player

/-- What a player has at hand for a line. -/
structure Desk where
  /-- The cells. -/
  stage : Stage Reaction
  /-- What the loop does next. -/
  microtasks : List Task
  /-- The meaning of opcodes. -/
  commands : CommandTable
  /-- The instructions of the line that are still to run. -/
  queue : List Instruction
  /-- The generation of the last instruction. -/
  generation : Nat
  /-- The tickets not given back. -/
  live : List Ticket

namespace Desk

/-- The ticket of the last instruction. -/
def current (d : Desk) : Ticket := .instruction d.generation

/-- An instruction is under way. -/
def Busy (d : Desk) : Prop := d.current ∈ d.live

instance (d : Desk) : Decidable d.Busy := inferInstanceAs (Decidable (_ ∈ _))

/-- A ticket is given back. -/
def spend (d : Desk) (t : Ticket) : Desk := { d with live := d.live.erase t }

end Desk

namespace Player

/-- The desk of a player. -/
def desk (p : Player) : Desk :=
  ⟨p.stage, p.loop.microtasks, p.commands, p.queue, p.generation, p.live⟩

variable {p q : Player}

/-! ### What the desk does not depend on -/

theorem desk_of_inside (h : q.inside = p.inside) : q.desk = p.desk := by
  change q.inside.desk = p.inside.desk
  rw [h]

@[simp] theorem desk_note (p : Player) (e : Event) : (p.note e).desk = p.desk := rfl

@[simp] theorem desk_logError (p : Player) (s : String) : (p.logError s).desk = p.desk := rfl

@[simp] theorem desk_trace (p : Player) (c : LogCategory) (l : LogLevel) (s : String) :
    (p.trace c l s).desk = p.desk := desk_of_inside (inside_trace ..)

@[simp] theorem desk_react (p : Player) (k : Nat) (o : Occurrence) :
    (p.react k o).1.desk = p.desk := desk_of_inside (inside_react ..)

@[simp] theorem desk_emit (p : Player) (s : Signal) : (p.emit s).1.desk = p.desk :=
  desk_of_inside (inside_emit ..)

@[simp] theorem desk_report (p : Player) (x : Answer) (a : Audience) :
    (p.report x a).desk = p.desk := desk_of_inside (inside_report ..)

/-- Timers are no part of the desk, as long as the microtasks stay. -/
theorem desk_withSchedule (p : Player) {s : Schedule Task}
    (h : s.loop.microtasks = p.loop.microtasks) : { p with schedule := s }.desk = p.desk := by
  simp only [desk, loop] at h ⊢
  rw [h]

@[simp] theorem desk_startTimer (p : Player) (d : Nat) (repeats : Bool) (t : Task) :
    (p.startTimer d repeats t).desk = p.desk := desk_withSchedule p (Schedule.microtasks_start ..)

@[simp] theorem desk_cancelTimer (p : Player) (k : Nat) : (p.cancelTimer k).desk = p.desk :=
  desk_withSchedule p (Schedule.microtasks_cancel ..)

theorem desk_skipTimer (p : Player) (k : Nat) :
    { p with schedule := (p.schedule.skip k).1 }.desk = p.desk :=
  desk_withSchedule p (Schedule.microtasks_skip ..)

theorem desk_ringTimer (p : Player) (ring : Nat → Task) (k : Nat) :
    { p with schedule := (p.schedule.ring ring k).1 }.desk = p.desk :=
  desk_withSchedule p (Schedule.microtasks_ring ..)

@[simp] theorem desk_modifyReveal (p : Player) (r : Nat) (f : Reveal → Reveal) :
    (p.modifyReveal r f).desk = p.desk := rfl

@[simp] theorem desk_stopReveal (p : Player) (r : Nat) (v : Reveal) (mode : Reveal.Mode) :
    (p.stopReveal r v mode).desk = p.desk := by
  rw [stopReveal]
  split <;> simp

@[simp] theorem desk_armReveal (p : Player) (r : Nat) (mode : Reveal.Mode) (d : Nat)
    (repeats : Bool) (a : Reveal.Act) : (p.armReveal r mode d repeats a).desk = p.desk := by
  simp [armReveal]

@[simp] theorem desk_waitFor (p : Player) (d : Nat) (t : Ticket) :
    (p.waitFor d t).1.desk = p.desk := by
  rw [waitFor]
  split <;> simp

@[simp] theorem desk_cancelHandler (p : Player) (x : Handler) :
    (p.cancelHandler x).desk = p.desk := by
  cases x with
  | timer k => exact desk_cancelTimer ..
  | reveal r =>
    rw [cancelHandler]
    split
    · exact desk_stopReveal ..
    · rfl
  | host b t => cases b <;> rfl
  | _ => rfl

@[simp] theorem desk_interrupt (p : Player) :
    p.interrupt.desk = { p.desk with generation := p.generation + 1, queue := [] } := by
  rw [interrupt]
  dsimp only
  split
  · exact desk_cancelHandler ..
  · rfl

/-- A condition that holds puts its body in front of the queue. -/
theorem desk_branch (p : Player) (argument : String) :
    (p.branch argument).desk = { p.desk with
      queue := (⟨Instruction.ifOpcode, argument⟩ : Instruction).taken p.stage.progress.get ++
        p.queue } := by
  unfold branch Instruction.taken Instruction.body?
  rw [if_pos rfl]
  dsimp only
  cases Condition.read argument.toList with
  | error e => rfl
  | ok r =>
    obtain ⟨condition, rest⟩ := r
    dsimp only
    split
    · rfl
    · cases condition.isTrue p.stage.progress.get with
      | error e => rfl
      | ok b =>
        cases b with
        | false => exact desk_trace ..
        | true =>
          have ht := desk_trace p .flow .debug
            s!"if: taken, running '{String.ofList (Text.trim rest)}'"
          generalize p.trace .flow .debug
            s!"if: taken, running '{String.ofList (Text.trim rest)}'" = q at ht ⊢
          rw [← ht, show p.queue = q.queue from congrArg Desk.queue ht.symm]
          rfl

end Player

/-! ### What tasks do of their own accord -/

namespace Desk

/-- What a task does at the desk of its own accord: nothing, or a ticket is given back. If it is
that of the instruction under way, the next one is run. -/
inductive Proceeds (d : Desk) (r : Player × Orders) : Prop where
  /-- Nothing. -/
  | stay : r.1.desk = d → Proceeds d r
  /-- A ticket is given back that is not the current one. -/
  | spend (t : Ticket) : t ≠ d.current → r.1.desk = d.spend t → Proceeds d r
  /-- The line goes on. -/
  | goOn {q : Player} {more : Orders} : d.Busy → q.desk = d.spend d.current →
      r = (q.runNext.1, q.runNext.2 ++ more) → Proceeds d r

variable {p : Player} {d : Desk} {r : Player × Orders}

theorem Proceeds.append (h : Proceeds d r) (orders : Orders) :
    Proceeds d (r.1, r.2 ++ orders) := by
  cases h with
  | stay hd => exact .stay hd
  | spend t ht hd => exact .spend t ht hd
  | @goOn q more hb hd hr =>
    have heq : (r.1, r.2 ++ orders) = (q.runNext.1, q.runNext.2 ++ (more ++ orders)) := by
      rw [hr, List.append_assoc]
    exact .goOn hb hd heq

theorem finish (p : Player) (t : Ticket) : Proceeds p.desk (p.finish t) := by
  rw [Player.finish]
  split
  · next hm =>
    dsimp only
    cases t with
    | call k => exact .spend (.call k) (by simp [current]) rfl
    | instruction g =>
      dsimp only
      split
      · next hg =>
        subst hg
        let q := { p with live := p.live.erase (.instruction p.generation), active := none }
        have heq : q.runNext = (q.runNext.1, q.runNext.2 ++ []) := by rw [List.append_nil]
        exact .goOn (q := q) hm rfl heq
      · next hg =>
        refine .spend (.instruction g) (fun h => hg ?_) (desk_trace ..)
        exact Ticket.instruction.inj h
  · exact .stay rfl

theorem conclude (p : Player) (t : Ticket) (x : Completion) :
    Proceeds p.desk (p.conclude t x) := by
  cases x with
  | completed => exact finish p t
  | pending h =>
    refine .stay ?_
    unfold Player.conclude
    dsimp only
    cases h <;>
    · dsimp only
      split <;> rfl

theorem proceed (p : Player) (r : Nat) (v : Reveal) : Proceeds p.desk (p.proceed r v) := by
  rw [Player.proceed]
  dsimp only
  split
  · have hf := finish ((p.modifyReveal r fun v => { v with rest := [], mode := .done }).trace .text
      .trace "text finished") v.ticket
    rwa [desk_trace] at hf
  · exact .stay (by simp)
  · exact .stay (by simp)
  · exact .stay (by simp)
  · exact .stay (by simp)
  · exact .stay (by simp)
  · exact .stay (by simp)

theorem runReveal (p : Player) (r : Nat) : Proceeds p.desk (p.runReveal r) := by
  unfold Player.runReveal
  dsimp only
  split
  · exact proceed (p.modifyReveal r fun v => { v with mode := .running }) ..
  · exact .stay rfl

theorem keeping (p : Player) (r : Nat) {f : Player → Player × Orders}
    (hf : ∀ q : Player, Proceeds q.desk (f q)) : Proceeds p.desk (p.keeping r f) :=
  (hf (p.modifyReveal r fun v => { v with holds := v.holds + 1 })).append _

theorem tickReveal (p : Player) (r : Nat) (v : Reveal) : Proceeds p.desk (p.tickReveal r v) := by
  rw [Player.tickReveal]
  split
  · exact .stay rfl
  · dsimp only
    split
    · exact .stay rfl
    · exact .stay (by simp)

theorem nudgeReveal (p : Player) (r : Nat) (v : Reveal) :
    Proceeds p.desk (p.nudgeReveal r v) := by
  rw [Player.nudgeReveal]
  split
  · dsimp only
    split <;> exact .stay (by simp)
  · exact runReveal ..
  · exact finish (p.modifyReveal r fun v => { v with mode := .done }) _
  · split
    · exact .stay (desk_skipTimer ..)
    · exact .stay rfl
  · exact .stay rfl
  · exact .stay rfl

theorem actReveal (p : Player) (r : Nat) (a : Reveal.Act) : Proceeds p.desk (p.actReveal r a) := by
  rw [Player.actReveal]
  split
  · exact .stay rfl
  · next v _ =>
    cases a with
    | run => exact runReveal ..
    | resume =>
      dsimp only
      split
      · exact proceed ..
      · exact .stay rfl
    | tick =>
      dsimp only
      split
      · exact keeping p r fun q => tickReveal q r v
      · exact .stay rfl
    | ticked =>
      dsimp only
      split
      · have hr := runReveal (p.stopReveal r v .running) r
        rwa [desk_stopReveal] at hr
      · exact .stay rfl
    | wake =>
      dsimp only
      split
      · exact keeping p r fun q => runReveal q r
      · exact .stay rfl
    | release => exact .stay rfl

theorem advanceHandler (p : Player) (x : Handler) : Proceeds p.desk (p.advanceHandler x) := by
  cases x with
  | finish t => exact finish p t
  | stuck => exact .stay rfl
  | timer k => exact .stay (desk_skipTimer ..)
  | reveal r =>
    rw [Player.advanceHandler]
    split
    · exact keeping p r fun q => nudgeReveal q r _
    · exact .stay rfl
  | host b t =>
    cases b <;> first
      | exact .stay rfl
      | exact (finish p t).append _

theorem next (p : Player) : Proceeds p.desk p.next := by
  rw [Player.next]
  split
  · exact advanceHandler ..
  · exact .stay rfl

end Desk

end Novella
