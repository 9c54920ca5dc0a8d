import Novella.Proofs.Player.Signals
import Novella.Proofs.Player.TimersAndTexts
import Novella.Proofs.Script.LineExpansion

/-!
# The agenda of a script that is only watched

A host that only records what it hears has no part in what is under way. Then the agenda of the
player is laid out in few ways. At its end stands what comes *later*: to turn the loop, to load a
scene, to report, and to let the host record. Before that there may be orders that let a text go or
let its command wait, the *hands* that hold on to the script; and in front of them at most one text
that acts, or one command that is done.

So at most one text may say anything, and it is the first one in hand or the one that takes the
input. When the page ends this text has said all it says, and nothing follows in its line but
further ends of the page. The script is *hushed* until it is moved or given input, and even then it
says nothing before the next line starts.

## Main definitions

* `Player.Speaks` — a text that may go on
* `Arranged` — how an agenda is laid out
* `Hush` — a player that says nothing before a line starts
* `Closes`, `Starts`, `Finishes` — what comes of running the next instruction

## Main results

* `Player.runNext_starts`, `Player.finish_finishes` — the next instruction
-/

namespace Novella

open Player

/-! ### Commands -/

/-- The command is one of the host. -/
def Command.isHosts : Command → Bool
  | host _ _ => true
  | _ => false

namespace CommandTable

theorem isHosts_of_get?_standard {o : String} {c : Command}
    (h : standard.get? o = some (some c)) : c.isHosts = false := by
  have hmem := SortedMap.mem_of_get?_eq_some h
  cases c with
  | host b body => simp [entries_standard] at hmem
  | _ => rfl

theorem get?_pageOpcode : standard.get? Instruction.pageOpcode = some (some .pageBreak) :=
  SortedMap.get?_of_mem (by simp [entries_standard, Instruction.pageOpcode])

end CommandTable

/-! ### Orders -/

namespace Order

/-- The text that the order is going to let go. -/
def holder? : Order Task → Option Nat
  | perform (.conclude _ (.pending (.reveal r))) => some r
  | perform (.reveal r .release) => some r
  | _ => none

/-- The order lets a command wait, or lets a text go. -/
def IsHand : Order Task → Prop
  | perform (.conclude _ (.pending _)) => True
  | perform (.reveal _ .release) => True
  | _ => False

/-- The order comes later than what is under way: the loop turns, a scene is loaded, a call of the
session is made, reported or noted, or an observer hears a cell that the player has heard. -/
def IsLater : Order Task → Prop
  | perform (.hear c id _) => c.IsPlace → c.rank 1 < id
  | perform (.call a c) => a = .nobody ∧ (c = .next ∨ c = .serve)
  | perform (.report a _) => a = .nobody
  | perform (.note _) => True
  | perform .load => True
  | perform _ => False
  | halt => False
  | _ => True

theorem owes_eq (r : Nat) (o : Order Task) : o.owes r = if o.holder? = some r then 1 else 0 := by
  unfold owes holder?
  split <;> simp

variable {o : Order Task}

theorem IsLater.holder? (h : o.IsLater) : o.holder? = none := by
  cases o with
  | perform t =>
    cases t with
    | conclude t c => exact h.elim
    | reveal r a => exact h.elim
    | _ => rfl
  | _ => rfl

end Order

/-- Orders that come later hold no text. -/
theorem owed_later {later : Orders} (h : ∀ o ∈ later, o.IsLater) (r : Nat) : owed r later = 0 := by
  refine owed_eq_zero fun o ho => ?_
  rw [Order.owes_eq, (h o ho).holder?]
  rfl

namespace Player

/-- The text has begun and is neither over nor at the end of its page. -/
def Speaks (p : Player) (r : Nat) : Prop :=
  ∃ v, p.reveals[r]? = some v ∧ v.mode ≠ .done ∧ v.mode ≠ .pageEnd

/-- The orders let commands wait and let texts go that have nothing more to say. -/
def Quiet (p : Player) (hands : Orders) : Prop :=
  ∀ o ∈ hands, o.IsHand ∧ ∀ r, o.holder? = some r → r < p.reveals.size ∧ ¬ p.Speaks r

/-- An instruction is under way. -/
abbrev Busy (p : Player) : Prop := p.seat.Busy

/-- The order by which a command is done that has just started. -/
def doneOrder (p : Player) : Order Task :=
  .perform (.conclude (.instruction p.generation) .completed)

end Player

/-- The act takes a text further without the loop. -/
def Reveal.Act.Drives (a : Reveal.Act) : Prop := a = .run ∨ a = .resume ∨ a = .ticked

/-- How the agenda of a player is laid out. -/
inductive Arranged (p : Player) : Orders → Prop where
  /-- Nothing is under way. -/
  | later {later : Orders} : (∀ o ∈ later, o.IsLater) → Closing p.queue → Arranged p later
  /-- A task has been taken from the loop. -/
  | loose {t : Task} {later : Orders} :
      (∃ c, t = .deliver c) ∨ t.IsTimed → (∀ o ∈ later, o.IsLater) → Closing p.queue →
        Arranged p (.perform t :: later)
  /-- Some hands are left. The text of the first one may go on. -/
  | hand {o : Order Task} {hands later : Orders} :
      o.IsHand → (∀ r, o.holder? = some r → r < p.reveals.size) → p.Quiet hands →
        (∀ o ∈ later, o.IsLater) → Closing p.queue → Arranged p (o :: (hands ++ later))
  /-- A text acts. -/
  | text {r : Nat} {a : Reveal.Act} {o : Order Task} {hands later : Orders} :
      a.Drives → (∃ v, p.reveals[r]? = some v ∧ (a = .run → v.mode = .running)) →
        o.IsHand → o.holder? = some r → (p.active = none ∨ p.active = some (.reveal r)) →
          p.Quiet hands → (∀ o ∈ later, o.IsLater) → Closing p.queue →
            Arranged p (.perform (.reveal r a) :: o :: (hands ++ later))
  /-- A command is done. -/
  | done {hands later : Orders} :
      p.Busy → p.active = none → p.Quiet hands → (∀ o ∈ later, o.IsLater) →
        Closing p.queue.tail → Arranged p (p.doneOrder :: (hands ++ later))
  /-- The book is going to hear the index. -/
  | page {later : Orders} (v : UInt64) :
      (∀ o ∈ later, o.IsLater) → Closing p.queue →
        Arranged p (.perform (.hear .index 0 v) :: .perform (.hear .index 1 v) :: later)
  /-- The player is going to hear the index. Its page has begun. -/
  | line {later : Orders} (v : UInt64) :
      p.book.pageDue = false → (∀ o ∈ later, o.IsLater) → Closing p.queue →
        Arranged p (.perform (.hear .index 1 v) :: later)
  /-- The player is going to hear the scene. -/
  | scene {later : Orders} (v : String) :
      (∀ o ∈ later, o.IsLater) → Closing p.queue →
        Arranged p (.perform (.hear .scene 0 v) :: later)
  /-- The script is going to be moved. Then a page begins. -/
  | jump {c : HostCall} {later : Orders} :
      p.book.pageDue = true → (∃ s i, c = .goto s i) ∨ (∃ x v, c = .restore x v) →
        (∀ o ∈ later, o.IsLater) → Closing p.queue →
          Arranged p (.perform (.call .nobody c) :: later)

/-- Neither the text that takes the input nor a text in hand may go on, and nothing but page breaks
is still to run. -/
structure Hush (p : Player) (orders : Orders) : Prop where
  /-- The text that takes the input. -/
  active {r : Nat} : p.active = some (.reveal r) → ¬ p.Speaks r
  /-- The texts in hand. -/
  hands {o : Order Task} {r : Nat} : o ∈ orders → o.holder? = some r → ¬ p.Speaks r
  /-- The rest of the line. -/
  queue : Closing p.queue

/-! ### The next instruction -/

namespace Player

variable {p q : Player}

/-- What comes of the end of a line, or of a page break: with this signal the player waits.
The texts are those of before. -/
inductive Closes (rs : Array Reveal) : Option Signal → Player × Orders → Prop where
  /-- The index moves on. -/
  | leave {q : Player} : q.reveals = rs → q.active = none → Closing q.queue →
      Closes rs none (q, [])
  /-- An instruction waits that is no text. -/
  | wait {q : Player} {s : Option Signal} {t : Ticket} {x : Handler} :
      q.reveals = rs → q.active = none → Closing q.queue → (∀ r, x ≠ .reveal r) →
        (∀ token, s ≠ some (.text token)) →
          Closes rs s (q, [.perform (.conclude t (.pending x))])

/-- What comes of the next instruction, with the signal that it sends. -/
inductive Starts (rs : Array Reveal) : Option Signal → Player × Orders → Prop where
  /-- The line ends or waits. -/
  | closes {s : Option Signal} {x : Player × Orders} : Closes rs s x → Starts rs s x
  /-- An instruction is done. -/
  | done {q : Player} {s : Option Signal} :
      q.reveals = rs → q.active = none → Closing q.queue.tail → q.Busy →
        s ≠ some .page → Starts rs s (q, [q.doneOrder])
  /-- A text begins. -/
  | text {q : Player} {v : Reveal} {t : Ticket} :
      q.reveals = rs.push v → v.mode = .running → q.active = none → Closing q.queue →
        Starts rs none (q, [.perform (.reveal rs.size .run),
          .perform (.conclude t (.pending (.reveal rs.size)))])

/-! Most operations leave the texts alone. -/

theorem reveals_of_inside (h : q.inside = p.inside) : q.reveals = p.reveals := by
  change q.inside.reveals = p.inside.reveals
  rw [h]

@[simp] theorem reveals_trace (p : Player) (c : LogCategory) (l : LogLevel) (s : String) :
    (p.trace c l s).reveals = p.reveals := reveals_of_inside (inside_trace ..)

@[simp] theorem reveals_write (p : Player) (c : CellName) (v : c.Value) :
    (p.write c v).reveals = p.reveals := rfl

theorem reveals_foldl_write (ws : List CellWrite) (p : Player) :
    (ws.foldl (fun p w => p.write w.cell w.value) p).reveals = p.reveals := by
  induction ws generalizing p with
  | nil => rfl
  | cons w ws ih => exact ih _

@[simp] theorem reveals_storeOutcome (p : Player) (opcode argument : String)
    (r : Except AssignmentError Assignment.Outcome) :
    (p.storeOutcome opcode argument r).reveals = p.reveals := by
  cases r with
  | ok o => rw [storeOutcome, reveals_trace, reveals_write]
  | error e => rfl

@[simp] theorem reveals_skip (p : Player) (argument : String) :
    (p.skip argument).reveals = p.reveals := by
  rw [skip]
  split
  · rfl
  · rfl
  · dsimp only
    rw [reveals_write, reveals_trace]

@[simp] theorem reveals_branch (p : Player) (argument : String) :
    (p.branch argument).reveals = p.reveals := by
  obtain ⟨events, queue, hq, -⟩ := p.branch_eq argument
  rw [hq]

theorem queue_trace (p : Player) (c : LogCategory) (l : LogLevel) (s : String) :
    (p.trace c l s).queue = p.queue := congrArg Seat.queue (seat_trace p c l s)

/-- The instructions of a body are put before the rest. -/
theorem closing_tail_branch (h : Closing p.queue) (argument : String) :
    Closing (p.branch argument).queue.tail := by
  obtain ⟨events, queue, hq, hqueue⟩ := p.branch_eq argument
  have hqueue' : (p.branch argument).queue = queue := congrArg Player.queue hq
  rw [hqueue']
  rcases hqueue with rfl | ⟨condition, rest, -, rfl⟩
  · exact h.tail
  · exact .append (Line.closing_tail_instructions _) h

/-! ### Commands -/

/-- A player whose instruction has just begun. -/
structure Begun (p : Player) : Prop where
  /-- The host only watches. -/
  listeners : ∀ l ∈ p.listeners, l.body = []
  /-- The instruction is under way. -/
  busy : p.Busy
  /-- Nobody takes the input. -/
  active : p.active = none
  /-- Only page breaks are left. -/
  queue : Closing p.queue

namespace Begun

variable {orders : Orders} {s : Option Signal}

/-- A command is done at once. -/
theorem done (h : p.Begun) (hr : q.reveals = p.reveals) (hs : q.seat = p.seat) (ho : orders = [])
    (hn : s ≠ some .page) : Starts p.reveals s
      (q, orders ++ [.perform (.conclude (.instruction p.generation) .completed)]) := by
  have hg : q.generation = p.generation := congrArg Seat.generation hs
  have hq : q.queue = p.queue := congrArg Seat.queue hs
  have hd := Starts.done (s := s) hr ((congrArg Seat.active hs).trans h.active) (hq ▸ h.queue.tail)
    (by rw [Busy, hs]; exact h.busy) hn
  rw [doneOrder, hg] at hd
  rwa [ho]

/-- A command waits. -/
theorem wait (h : p.Begun) (hr : q.reveals = p.reveals) (hs : q.seat = p.seat) (ho : orders = [])
    {x : Handler} (hx : ∀ r, x ≠ .reveal r) (hn : ∀ token, s ≠ some (.text token)) (t : Ticket) :
    Closes p.reveals s (q, orders ++ [.perform (.conclude t (.pending x))]) := by
  have hq : q.queue = p.queue := congrArg Seat.queue hs
  rw [ho]
  exact .wait hr ((congrArg Seat.active hs).trans h.active) (hq ▸ h.queue) hx hn

/-- A command waits for a time, if for any. -/
theorem waitFor (h : p.Begun) {x : Player × Completion} (hr : q.reveals = p.reveals)
    (hs : q.seat = p.seat) {d : Nat} (hx : x = q.waitFor d (.instruction p.generation)) :
    Starts p.reveals none (x.1, [] ++ [.perform (.conclude (.instruction p.generation) x.2)]) := by
  rw [hx, Player.waitFor]
  split
  · exact h.done hr hs rfl (by simp)
  · refine .closes (h.wait ?_ ?_ rfl ?_ ?_ _)
    · exact hr
    · exact hs
    · simp
    · simp

/-- The command of an instruction that has just begun. -/
theorem execute (h : p.Begun) {command : Command} (hc : command.isHosts = false)
    (opcode argument : String) :
    Starts p.reveals command.signal?
      ((p.execute command opcode argument (.instruction p.generation)).1,
        (p.execute command opcode argument (.instruction p.generation)).2.1 ++
          [.perform (.conclude (.instruction p.generation)
            (p.execute command opcode argument (.instruction p.generation)).2.2)]) := by
  have silent : (none : Option Signal) ≠ some .page := by simp
  cases command with
  | text => exact .text rfl rfl h.active h.queue
  | pageBreak =>
    exact .closes (h.wait (reveals_of_inside (inside_emit ..)) (seat_emit ..)
      (orders_emit h.listeners _) (by simp) (by simp [Command.signal?]) _)
  | lineBreak =>
    exact h.done (reveals_of_inside (inside_emit ..)) (seat_emit ..) (orders_emit h.listeners _)
      (by simp [Command.signal?])
  | click => exact .closes (h.wait rfl rfl rfl (by simp) (by simp [Command.signal?]) _)
  | wait =>
    simp only [Player.execute]
    split
    · exact h.waitFor rfl rfl rfl
    · refine h.done ?_ ?_ rfl silent <;> rfl
  | setDelay =>
    simp only [Player.execute]
    split
    · refine h.done ?_ ?_ rfl silent <;> rfl
    · refine h.done ?_ ?_ rfl silent <;> rfl
  | resetDelay => refine h.done ?_ ?_ rfl silent <;> rfl
  | branch =>
    obtain ⟨queue, hs⟩ := seat_branch p argument
    have ha : (p.branch argument).active = none := (congrArg Seat.active hs).trans h.active
    have hg : (p.branch argument).generation = p.generation := congrArg Seat.generation hs
    have hb : (p.branch argument).Busy := by
      rw [Busy, hs]
      exact h.busy
    have hd := Starts.done (reveals_branch p argument) ha (closing_tail_branch h.queue argument) hb
      silent
    rwa [doneOrder, hg] at hd
  | skip => exact h.done (reveals_skip ..) (seat_skip ..) rfl silent
  | exit =>
    have ht : ∀ l ∈ (p.trace .flow .debug "return").listeners, l.body = [] := by
      rcases p.trace_eq .flow .debug "return" with h' | ⟨e, h'⟩ <;> rw [h'] <;> exact h.listeners
    exact .closes (h.wait ((reveals_of_inside (inside_emit ..)).trans (reveals_trace ..))
      ((seat_emit ..).trans (seat_trace ..)) (orders_emit ht _) (by simp)
      (by simp [Command.signal?]) _)
  | cue c =>
    simp only [Player.execute]
    split
    · next cue _ =>
      refine h.waitFor (x := p.carryOut cue _) ?_ ?_ rfl
      · split <;> exact reveals_foldl_write ..
      · split
        · rw [seat_playEffect, seat_foldl_write]
        · rw [seat_foldl_write]
    · refine h.done ?_ ?_ rfl silent <;> rfl
  | assign op => exact h.done (reveals_storeOutcome ..) (seat_storeOutcome ..) rfl silent
  | step delta => exact h.done (reveals_storeOutcome ..) (seat_storeOutcome ..) rfl silent
  | host b body => cases hc

end Begun

/-! ### Running on -/

/-- The player of a session whose host only watches. -/
structure Watched (p : Player) : Prop where
  /-- Listeners make no calls. -/
  listeners : ∀ l ∈ p.listeners, l.body = []
  /-- The commands are those of every script. -/
  commands : p.commands = .standard

/-- The next instruction begins. -/
theorem dispatch_starts (h : p.Watched) (ha : p.active = none) (hq : Closing p.queue)
    (i : Instruction) : Starts p.reveals (p.instructionSignal? i) (p.dispatch i) := by
  have hb : Begun { p with
      generation := p.generation + 1
      phase := .executing
      live := .instruction (p.generation + 1) :: p.live } :=
    ⟨h.listeners, List.mem_cons_self, ha, hq⟩
  have silent : (none : Option Signal) ≠ some .page := by simp
  rw [dispatch, instructionSignal?]
  dsimp only
  split
  · next command hget =>
    rw [hget]
    exact hb.execute (CommandTable.isHosts_of_get?_standard (h.commands ▸ hget)) ..
  · next hget =>
    rw [hget]
    exact hb.done rfl rfl rfl silent
  · next hget =>
    rw [hget]
    refine hb.done ?_ ?_ rfl silent <;> rfl

/-- At the end of a line the index moves on. -/
theorem runNext_of_nil (hq : p.queue = []) :
    p.runNext = (p.write .index (p.stage.index.value + 1), []) := by
  rw [runNext, hq]

/-- Nothing follows but the end of the line. -/
theorem runNext_closes (h : p.Watched) (ha : p.active = none) (hq : Closing p.queue) :
    Closes p.reveals p.nextSignal? p.runNext := by
  cases hqueue : p.queue with
  | nil =>
    rw [runNext_of_nil hqueue, nextSignal?, hqueue]
    exact .leave rfl ha (by rw [show (p.write .index _).queue = p.queue from rfl]; exact hq)
  | cons i rest =>
    rw [hqueue] at hq
    obtain rfl := hq i List.mem_cons_self
    have hb : Begun { p with
        queue := rest
        generation := p.generation + 1
        phase := .executing
        live := .instruction (p.generation + 1) :: p.live } :=
      ⟨h.listeners, List.mem_cons_self, ha, fun j hj => hq j (List.mem_cons_of_mem _ hj)⟩
    have hget : p.commands.get? Instruction.pageBreak.opcode = some (some .pageBreak) :=
      h.commands ▸ CommandTable.get?_pageOpcode
    have hs : p.nextSignal? = some .page := by
      rw [nextSignal?, hqueue]
      exact congrArg (fun c => (Option.join c).bind Command.signal?) hget
    rw [hs, runNext, hqueue]
    simp only [dispatch, hget]
    exact hb.wait (reveals_of_inside (inside_emit ..)) (seat_emit ..)
      (orders_emit hb.listeners _) (by simp) (by simp) _

/-- The next instruction, or the end of the line. -/
theorem runNext_starts (h : p.Watched) (ha : p.active = none) (hq : Closing p.queue.tail) :
    Starts p.reveals p.nextSignal? p.runNext := by
  cases hqueue : p.queue with
  | nil => exact .closes (p.runNext_closes h ha (hqueue ▸ closing_nil))
  | cons i rest =>
    have hr : Closing rest := by rwa [hqueue] at hq
    rw [runNext, nextSignal?, hqueue]
    exact dispatch_starts (p := { p with queue := rest }) ⟨h.listeners, h.commands⟩ ha hr i

/-- What comes of a ticket that is given back: nothing, or the next instruction with an outcome. -/
inductive Finishes (p : Player) (C : Option Signal → Player × Orders → Prop) :
    Option Signal → Player × Orders → Prop where
  /-- The ticket is not that of the instruction under way. -/
  | idle {q : Player} : q.reveals = p.reveals → q.queue = p.queue → q.active = p.active →
      Finishes p C none (q, [])
  /-- The next instruction begins. -/
  | next {s : Option Signal} {x : Player × Orders} : C s x → Finishes p C s x

theorem finish_finishes {C : Option Signal → Player × Orders → Prop} (t : Ticket)
    (h : t = .instruction p.generation → t ∈ p.live →
      C p.nextSignal? { p with live := p.live.erase t, active := none }.runNext) :
    Finishes p C (p.finishSignal? t) (p.finish t) := by
  unfold finish finishSignal?
  by_cases ht : t ∈ p.live
  · rw [if_pos ht]
    cases t with
    | call k =>
      rw [if_neg fun h => (by cases h.2)]
      exact .idle rfl rfl rfl
    | instruction g =>
      dsimp only
      by_cases hg : g = p.generation
      · subst hg
        rw [if_pos rfl, if_pos ⟨ht, rfl⟩]
        exact .next (h rfl ht)
      · rw [if_neg hg, if_neg fun h => hg (Ticket.instruction.inj h.2)]
        refine .idle (reveals_trace ..) (queue_trace ..) ?_
        exact congrArg Seat.active (seat_trace ..)
  · rw [if_neg ht, if_neg fun h => ht h.1]
    exact .idle rfl rfl rfl

/-! ### Hands -/

namespace Quiet

variable {hands : Orders}

theorem nil : p.Quiet [] := fun _ ho => absurd ho List.not_mem_nil

theorem cons {o : Order Task} (ho : o.IsHand)
    (hr : ∀ r, o.holder? = some r → r < p.reveals.size ∧ ¬ p.Speaks r) (h : p.Quiet hands) :
    p.Quiet (o :: hands) :=
  List.forall_mem_cons.2 ⟨⟨ho, hr⟩, h⟩

/-- Texts stay as quiet as they are. -/
theorem mono (h : p.Quiet hands) (hsize : p.reveals.size ≤ q.reveals.size)
    (hs : ∀ {r}, r < p.reveals.size → q.Speaks r → p.Speaks r) : q.Quiet hands :=
  fun o ho => ⟨(h o ho).1, fun r hr =>
    have hp := (h o ho).2 r hr
    ⟨Nat.lt_of_lt_of_le hp.1 hsize, fun hq => hp.2 (hs hp.1 hq)⟩⟩

theorem of_reveals (h : p.Quiet hands) (hr : q.reveals = p.reveals) : q.Quiet hands := by
  refine h.mono (Nat.le_of_eq (congrArg Array.size hr).symm) fun {r} _ hq => ?_
  rwa [Speaks, hr] at hq

theorem push (h : p.Quiet hands) {v : Reveal} (hr : q.reveals = p.reveals.push v) :
    q.Quiet hands := by
  refine h.mono ?_ fun {r} hlt hq => ?_
  · rw [hr, Array.size_push]
    exact Nat.le_succ _
  · rwa [Speaks, hr, Array.getElem?_push, if_neg (Nat.ne_of_lt hlt)] at hq

end Quiet

/-- What comes later has nothing to do with texts. -/
theorem holder?_of_mem_later {hands later : Orders} (hl : ∀ o ∈ later, o.IsLater) {o : Order Task}
    {r : Nat} (ho : o ∈ hands ++ later) (hr : o.holder? = some r) : o ∈ hands := by
  rcases List.mem_append.1 ho with ho | ho
  · exact ho
  · cases (hl o ho).holder?.symm.trans hr

/-- Quiet hands are all that is left. -/
theorem Quiet.arranged {hands later : Orders} (h : p.Quiet hands) (hl : ∀ o ∈ later, o.IsLater)
    (hq : Closing p.queue) : Arranged p (hands ++ later) := by
  cases hands with
  | nil => exact .later hl hq
  | cons o hands =>
    obtain ⟨⟨ho, hr⟩, hh⟩ := List.forall_mem_cons.1 h
    exact .hand ho (fun r hh => (hr r hh).1) hh hl hq

theorem Quiet.hush {hands later : Orders} (h : p.Quiet hands) (hl : ∀ o ∈ later, o.IsLater)
    (ha : ∀ {r}, p.active = some (.reveal r) → ¬ p.Speaks r) (hq : Closing p.queue) :
    Hush p (hands ++ later) :=
  ⟨ha, fun ho hr => ((h _ (holder?_of_mem_later hl ho hr)).2 _ hr).2, hq⟩

end Player

namespace Player

variable {p q : Player} {hands later : Orders} {s : Option Signal} {x : Player × Orders}

namespace Closes

theorem arranged (h : Closes p.reveals s x) (hh : p.Quiet hands) (hl : ∀ o ∈ later, o.IsLater) :
    Arranged x.1 (x.2 ++ (hands ++ later)) ∧ Hush x.1 (x.2 ++ (hands ++ later)) ∧
      ∀ token, s ≠ some (.text token) := by
  cases h with
  | @leave q hr ha hq =>
    have hh := hh.of_reveals hr
    exact ⟨hh.arranged hl hq, hh.hush hl (fun h => by rw [ha] at h; cases h) hq, by simp⟩
  | @wait q s t x hr ha hq hx hn =>
    have hw : q.Quiet (.perform (.conclude t (.pending x)) :: hands) := by
      refine .cons trivial (fun r h => ?_) (hh.of_reveals hr)
      cases x with
      | reveal n => exact absurd rfl (hx n)
      | _ => cases h
    refine ⟨?_, ?_, hn⟩
    · exact hw.arranged hl hq
    · exact hw.hush hl (fun h => by rw [ha] at h; cases h) hq

end Closes

theorem Starts.arranged (h : Starts p.reveals s x) (hh : p.Quiet hands)
    (hl : ∀ o ∈ later, o.IsLater) :
    Arranged x.1 (x.2 ++ (hands ++ later)) ∧
      (s = some .page → Hush x.1 (x.2 ++ (hands ++ later))) := by
  cases h with
  | closes h =>
    obtain ⟨ha, hu, -⟩ := h.arranged hh hl
    exact ⟨ha, fun _ => hu⟩
  | @done q s hr ha hq hb hn =>
    refine ⟨?_, fun hs => absurd hs hn⟩
    show Arranged q (q.doneOrder :: (hands ++ later))
    exact .done hb ha (hh.of_reveals hr) hl hq
  | @text q v t hr hv ha hq =>
    refine ⟨?_, fun hs => by cases hs⟩
    have hlast : q.reveals[p.reveals.size]? = some v := by
      rw [hr, Array.getElem?_push_size]
    show Arranged q (.perform (.reveal p.reveals.size .run) ::
      .perform (.conclude t (.pending (.reveal p.reveals.size))) :: (hands ++ later))
    exact .text (.inl rfl) ⟨v, hlast, fun _ => hv⟩ trivial rfl (.inl ha) (hh.push hr) hl hq

end Player

end Novella
