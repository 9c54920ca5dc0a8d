import Novella.Proofs.Player.ScriptCourse

/-!
# Calls and tasks that are left behind

A host may leave calls with a player: listeners make them when something happens, and commands of
the host when a script runs them. Tasks are left behind as well, in the loop, in timers and on the
agenda. What a player may come to do is bounded by all of these.

Here a test on the calls of a host is carried along. Of a *tame* player, whatever is left behind
passes the test: microtasks only deliver cells, timers only ring, finish instructions and move shown
texts on, and every call that is still to be made is one that the host was allowed to leave. No task
of a player makes it lose that property.

## Main definitions

* `HostCall.Within` — a call that passes a test with all the calls that it leaves behind
* `HostCall.KeepsPlace` — calls that move the script by jumps only
* `Player.Task.Passes`, `Player.Tame` — the test carried to tasks and players
* `Player.Leaves` — a player that is tame, with orders that pass

## Main results

* `Player.Tame.actReveal`, `Player.Tame.call`, `Player.Tame.reactTo` — players stay tame
-/

namespace Novella

/-! ### Calls of a host -/

namespace HostCall

/-- The calls that a call leaves behind. -/
def body : HostCall → List HostCall
  | observe _ _ _ _ _ body => body
  | register _ _ body => body
  | _ => []

/-- The call passes the test, and so does every call that it leaves behind. -/
inductive Within (P : HostCall → Prop) : HostCall → Prop where
  /-- A call with what it leaves behind. -/
  | intro {c : HostCall} : P c → (∀ d ∈ c.body, Within P d) → Within P c

variable {P : HostCall → Prop} {c : HostCall}

theorem Within.holds (h : c.Within P) : P c := by
  cases h with
  | intro h _ => exact h

theorem Within.of_mem_body (h : c.Within P) {d : HostCall} (hd : d ∈ c.body) : d.Within P := by
  cases h with
  | intro _ h => exact h d hd

/-- A call that leaves nothing behind. -/
theorem Within.of_body_eq_nil (h : P c) (hb : c.body = []) : c.Within P :=
  .intro h fun d hd => by rw [hb] at hd; cases hd

/-- The call leaves the cells alone that say where the script is. Observing them is no harm. -/
def KeepsPlace : HostCall → Prop
  | set c _ => ¬ c.IsPlace
  | notify c => ¬ c.IsPlace
  | unobserve c _ => ¬ c.IsPlace
  | _ => True

end HostCall

/-! ### Commands and tasks -/

/-- The command is known under the opcode, and one of the host makes calls that pass the test. -/
def Command.Passes (P : HostCall → Prop) (opcode : String) : Command → Prop
  | .host _ body => ∀ c ∈ body, c.Within P
  | .skip => opcode = "skip"
  | .branch => opcode = "if"
  | _ => True

namespace CommandTable

variable {P : HostCall → Prop} {o : String} {c : Command}

theorem passes_of_mem_ofCommands {l : List (String × Command)} (hl : ∀ e ∈ l, e.2.Passes P e.1)
    (h : (o, some c) ∈ (ofCommands l).entries) : c.Passes P o := by
  obtain ⟨⟨o', x⟩, hx, he⟩ := List.mem_map.1 (SortedMap.mem_of_mem_ofList h)
  cases he
  exact hl _ hx

/-- The opcodes of every script pass any test: none of them is a command of the host. -/
theorem passes_of_get?_standard (h : standard.get? o = some (some c)) : c.Passes P o := by
  rcases SortedMap.mem_of_mem_union (SortedMap.mem_of_get?_eq_some h) with h | h
  · rcases SortedMap.mem_of_mem_union h with h | h
    · rcases SortedMap.mem_of_mem_union h with h | h
      · rcases SortedMap.mem_of_mem_union h with h | h
        · exact passes_of_mem_ofCommands (by simp [Command.Passes]) h
        · simpa using SortedMap.mem_of_mem_ofList h
      · exact passes_of_mem_ofCommands (by simp [Command.Passes]) h
    · exact passes_of_mem_ofCommands (by simp [Command.Passes]) h
  · exact passes_of_mem_ofCommands (by simp [Command.Passes]) h

end CommandTable

namespace Player

/-- What a timer may do: ring, finish an instruction, or move a shown text on. -/
def Task.IsTimed : Task → Prop
  | .ring _ => True
  | .finish _ => True
  | .reveal _ a => a = .tick ∨ a = .wake
  | _ => False

/-- The task is no part of a delivery, and a call passes the test. -/
def Task.Passes (P : HostCall → Prop) : Task → Prop
  | .deliver _ => False
  | .hear _ _ _ => False
  | .call _ c => c.Within P
  | _ => True

theorem Task.IsTimed.passes {t : Task} (h : t.IsTimed) : t.Passes P := by
  cases t <;> trivial

end Player

open Player

/-- The order passes the test if its task does. -/
def Order.Passes (P : HostCall → Prop) : Order Task → Prop
  | .perform t => t.Passes P
  | _ => True

namespace Player

variable {P : HostCall → Prop} {p q : Player}

theorem passes_of_mem_calls {a : Audience} {body : List HostCall} (h : ∀ c ∈ body, c.Within P) :
    ∀ o ∈ body.map (fun c => Order.perform (.call a c)), o.Passes P := by
  intro o ho
  obtain ⟨c, hc, rfl⟩ := List.mem_map.1 ho
  exact h c hc

/-! ### Tame players -/

/-- Whatever is left with the player passes the test. -/
structure Tame (P : HostCall → Prop) (p : Player) : Prop where
  /-- Microtasks deliver cells. -/
  microtasks : ∀ t ∈ p.loop.microtasks, ∃ c, t = .deliver c
  /-- The loop keeps time. -/
  timeouts : ∀ t ∈ p.loop.timeouts, t.task.IsTimed
  /-- So do timers. -/
  timers : ∀ t ∈ p.schedule.timers, t.callback.IsTimed
  /-- Listeners make calls that pass. -/
  listeners : ∀ l ∈ p.listeners, ∀ c ∈ l.body, c.Within P
  /-- So do commands of the host. -/
  commands : ∀ {o c}, p.commands.get? o = some (some c) → c.Passes P o

/-- The player is tame, and what is to be done passes the test. -/
structure Leaves (P : HostCall → Prop) (r : Player × Orders) : Prop where
  /-- The player is tame. -/
  tame : r.1.Tame P
  /-- The orders pass. -/
  orders : ∀ o ∈ r.2, o.Passes P

namespace Leaves

theorem nil (h : p.Tame P) : Leaves P (p, []) := ⟨h, fun _ ho => absurd ho List.not_mem_nil⟩

theorem single (h : p.Tame P) {o : Order Task} (ho : o.Passes P) : Leaves P (p, [o]) := by
  refine ⟨h, fun x hx => ?_⟩
  rw [List.mem_singleton.1 hx]
  exact ho

theorem append {r : Player × Orders} (h : Leaves P r) {orders : Orders}
    (ho : ∀ o ∈ orders, o.Passes P) : Leaves P (r.1, r.2 ++ orders) := by
  refine ⟨h.tame, fun o hmem => ?_⟩
  rcases List.mem_append.1 hmem with hr | hr
  · exact h.orders o hr
  · exact ho o hr

theorem concat {r : Player × Orders} (h : Leaves P r) {o : Order Task} (ho : o.Passes P) :
    Leaves P (r.1, r.2 ++ [o]) := by
  refine h.append fun x hx => ?_
  rw [List.mem_singleton.1 hx]
  exact ho

end Leaves

namespace Tame

/-- A change that leaves the schedule and the commands alone. -/
theorem of_eq (h : p.Tame P) (hs : q.schedule = p.schedule) (hc : q.commands = p.commands)
    (hl : ∀ l ∈ q.listeners, ∀ c ∈ l.body, c.Within P) : q.Tame P where
  microtasks := by rw [loop, hs]; exact h.microtasks
  timeouts := by rw [loop, hs]; exact h.timeouts
  timers := by rw [hs]; exact h.timers
  listeners := hl
  commands := by rw [hc]; exact h.commands

/-- A change of the schedule alone. -/
theorem withSchedule (h : p.Tame P) {s : Schedule Task}
    (hm : ∀ t ∈ s.loop.microtasks, ∃ c, t = .deliver c) (ht : ∀ t ∈ s.loop.timeouts, t.task.IsTimed)
    (hk : ∀ t ∈ s.timers, t.callback.IsTimed) : { p with schedule := s }.Tame P :=
  ⟨hm, ht, hk, h.listeners, h.commands⟩

/-! ### Notes and signals -/

theorem note (h : p.Tame P) (e : Event) : (p.note e).Tame P := h.of_eq rfl rfl h.listeners

theorem logError (h : p.Tame P) (s : String) : (p.logError s).Tame P := h.note _

theorem trace (h : p.Tame P) (c : LogCategory) (l : LogLevel) (s : String) :
    (p.trace c l s).Tame P := by
  rw [Player.trace, DebugFilter.entry]
  split
  · exact h.note _
  · exact h

theorem react (h : p.Tame P) (k : Nat) (o : Occurrence) : Leaves P (p.react k o) := by
  rw [Player.react]
  dsimp only
  split
  · next l hl =>
    have hb := h.listeners l (Array.mem_of_getElem? hl)
    split
    · refine ⟨(h.note (.occurred o)).of_eq rfl rfl fun x hx => ?_, passes_of_mem_calls hb⟩
      rcases Array.mem_or_eq_of_mem_setIfInBounds hx with hx | rfl
      · exact h.listeners x hx
      · exact hb
    · exact .nil (h.note _)
  · exact .nil (h.note _)

theorem enter (h : p.Tame P) (s : Signal) : (p.enter s).Tame P := by
  cases s <;> exact h.of_eq rfl rfl h.listeners

theorem passOn (h : p.Tame P) (s : Signal) : Leaves P (p.passOn s) := by
  rw [Player.passOn]
  split
  · exact h.react ..
  · exact .nil (h.of_eq rfl rfl h.listeners)

theorem receive (h : p.Tame P) (s : Signal) (r : Receiver) : Leaves P (p.receive s r) := by
  cases r with
  | listener k => exact h.react ..
  | book => exact (h.enter s).passOn s

theorem emit (h : p.Tame P) (s : Signal) : Leaves P (p.emit s) := by
  rw [Player.emit]
  split
  · exact h.receive ..
  · exact .nil (h.of_eq rfl rfl h.listeners)

theorem addListener (h : p.Tame P) {l : Listener} (hl : ∀ c ∈ l.body, c.Within P) :
    (p.addListener l).Tame P := by
  refine h.of_eq rfl rfl fun x hx => ?_
  rcases Array.mem_push.1 hx with hx | rfl
  · exact h.listeners x hx
  · exact hl

theorem connect (h : p.Tame P) (k : Hook) {l : Listener} (hl : ∀ c ∈ l.body, c.Within P) :
    Leaves P (p.connect k l) := by
  have ht := h.addListener hl
  unfold Player.connect connectReceiver
  dsimp only
  split
  · refine Tame.receive ?_ ..
    exact ht.of_eq rfl rfl ht.listeners
  · exact .nil (ht.of_eq rfl rfl ht.listeners)

theorem connectToBook (h : p.Tame P) (k : Hook) {l : Listener} (hl : ∀ c ∈ l.body, c.Within P) :
    Leaves P (p.connectToBook k l) := by
  have ht := h.addListener hl
  rw [Player.connectToBook]
  dsimp only
  split
  · refine Tame.react ?_ ..
    exact ht.of_eq rfl rfl ht.listeners
  · exact .nil (ht.of_eq rfl rfl ht.listeners)

/-! ### Cells -/

theorem store (h : p.Tame P) (c : CellName) (r : Cell c.Value Reaction × Bool) :
    (p.store c r).Tame P := by
  rw [Player.store]
  split
  · refine ⟨fun t ht => ?_, h.timeouts, h.timers, h.listeners, h.commands⟩
    rcases List.mem_append.1 ht with ht | ht
    · exact h.microtasks t ht
    · exact ⟨c, List.mem_singleton.1 ht⟩
  · exact h.of_eq rfl rfl h.listeners

theorem write (h : p.Tame P) (c : CellName) (v : c.Value) : (p.write c v).Tame P := h.store ..

theorem notify (h : p.Tame P) (c : CellName) : (p.notify c).Tame P := h.store ..

theorem observe (h : p.Tame P) (c : CellName) (r : Reaction) (accepts : c.Value → Bool)
    (once : Bool) : (p.observe c r accepts once).Tame P := h.store ..

theorem playEffect (h : p.Tame P) (name : String) : (p.playEffect name).Tame P :=
  (h.write ..).notify ..

theorem present (h : p.Tame P) (c : Context) (v : Progress) : (p.present c v).Tame P := by
  unfold Player.present
  dsimp only
  repeat' first | exact h | apply Tame.write

theorem foldl_write (h : p.Tame P) (ws : List CellWrite) :
    (ws.foldl (fun p w => p.write w.cell w.value) p).Tame P := by
  induction ws generalizing p with
  | nil => exact h
  | cons w ws ih => exact ih (h.write ..)

theorem storeOutcome (h : p.Tame P) (opcode argument : String)
    (r : Except AssignmentError Assignment.Outcome) :
    (p.storeOutcome opcode argument r).Tame P := by
  cases r with
  | ok o => exact (h.write ..).trace ..
  | error e => exact h.logError _

/-! ### Timers -/

theorem mem_setTimer {s : Schedule Task} {k : Nat} {t x : Timer Task}
    (hx : x ∈ (s.setTimer k t).timers) : x ∈ s.timers ∨ x = t :=
  Array.mem_or_eq_of_mem_setIfInBounds hx

/-- A timer gets a timeout. -/
theorem arm (h : p.Tame P) (k : Nat) {t : Timer Task} (ht : t.callback.IsTimed) :
    { p with schedule := p.schedule.arm .ring k t }.Tame P := by
  refine h.withSchedule h.microtasks (fun x hx => ?_) fun x hx => ?_
  · rcases Loop.mem_insertTimeout.1 hx with rfl | hx
    · trivial
    · exact h.timeouts x hx
  · rcases mem_setTimer hx with hx | rfl
    · exact h.timers x hx
    · exact ht

/-- A timer loses its timeout. -/
theorem disarm (h : p.Tame P) (k : Nat) {t : Timer Task} (ht : t.callback.IsTimed)
    (x : TimerState) : { p with schedule := p.schedule.disarm k t x }.Tame P := by
  refine h.withSchedule ?_ ?_ fun u hu => ?_
  · rw [Schedule.microtasks_disarm]
    exact h.microtasks
  · intro u hu
    refine h.timeouts u ?_
    revert hu
    rw [Schedule.disarm]
    dsimp only
    split
    · exact fun hu => (List.mem_filter.1 hu).1
    · exact id
  · rcases mem_setTimer hu with hu | rfl
    · exact h.timers u hu
    · exact ht

theorem startTimer (h : p.Tame P) (d : Nat) (repeats : Bool) {t : Task} (ht : t.IsTimed) :
    (p.startTimer d repeats t).Tame P := by
  have hp : { p with schedule := p.schedule.addTimer ⟨d, repeats, t, .idle, none, 0⟩ }.Tame P := by
    refine h.withSchedule h.microtasks h.timeouts fun x hx => ?_
    rcases Array.mem_push.1 hx with hx | rfl
    · exact h.timers x hx
    · exact ht
  unfold Player.startTimer Schedule.start
  dsimp only
  split
  · next x hx =>
    split
    · exact hp
    · exact hp.arm _ (hp.timers x (Array.mem_of_getElem? hx))
  · exact hp

theorem cancelTimer (h : p.Tame P) (k : Nat) : (p.cancelTimer k).Tame P := by
  rw [Player.cancelTimer, Schedule.cancel]
  split
  · next t ht => exact h.disarm k (h.timers t (Array.mem_of_getElem? ht)) _
  · exact h

theorem skipTimer (h : p.Tame P) (k : Nat) :
    { p with schedule := (p.schedule.skip k).1 }.Tame P := by
  rw [Schedule.skip]
  split
  · next t ht =>
    have htimed := h.timers t (Array.mem_of_getElem? ht)
    have hd := h.disarm k htimed .finished
    split
    all_goals first
      | exact h
      | refine hd.withSchedule hd.microtasks (fun x hx => ?_) hd.timers
        rcases Loop.mem_insertTimeout.1 hx with rfl | hx
        · exact htimed
        · exact hd.timeouts x hx
  · exact h

theorem ringTimer (h : p.Tame P) (k : Nat) :
    Leaves P ({ p with schedule := (p.schedule.ring .ring k).1 },
      (p.schedule.ring .ring k).2.toList.map .perform) := by
  rw [Schedule.ring]
  split
  · next t ht =>
    have htimed := h.timers t (Array.mem_of_getElem? ht)
    split
    · dsimp only
      split
      · exact .single (h.arm k htimed) htimed.passes
      · refine .single (o := .perform t.callback) ?_ htimed.passes
        refine h.withSchedule h.microtasks h.timeouts fun x hx => ?_
        rcases mem_setTimer hx with hx | rfl
        · exact h.timers x hx
        · exact htimed
    · exact .nil h
  · exact .nil h

theorem deliver_of_popMicrotask? (h : p.Tame P) {t : Task} {l : Loop Task}
    (ht : p.loop.popMicrotask? = some (t, l)) : ∃ c, t = .deliver c := by
  obtain ⟨ts, hl, -⟩ := Loop.eq_of_popMicrotask? ht
  exact h.microtasks t (hl ▸ List.mem_cons_self)

theorem isTimed_of_popDue? (h : p.Tame P) {target : Nat} {t : Task} {l : Loop Task}
    (ht : p.loop.popDue? target = some (t, l)) : t.IsTimed := by
  obtain ⟨u, us, hl, -, rfl, -⟩ := Loop.eq_of_popDue? ht
  exact h.timeouts u (hl ▸ List.mem_cons_self)

/-- What a timer has performed keeps time. -/
theorem isTimed_of_ring (h : p.Tame P) {k : Nat} {t : Task}
    (ht : (p.schedule.ring .ring k).2 = some t) : t.IsTimed := by
  unfold Schedule.ring at ht
  split at ht
  · next x hx =>
    split at ht
    · cases ht
      exact h.timers x (Array.mem_of_getElem? hx)
    · cases ht
  · cases ht

theorem waitFor (h : p.Tame P) (d : Nat) (t : Ticket) : (p.waitFor d t).1.Tame P := by
  rw [Player.waitFor]
  split
  · exact h
  · exact h.startTimer _ _ trivial

theorem carryOut (h : p.Tame P) (cue : Cue) (t : Ticket) : (p.carryOut cue t).1.Tame P := by
  unfold Player.carryOut
  dsimp only
  refine Tame.waitFor ?_ ..
  split
  · exact (h.foldl_write _).playEffect _
  · exact h.foldl_write _

/-! ### Instructions -/

theorem modifyReveal (h : p.Tame P) (r : Nat) (f : Reveal → Reveal) :
    (p.modifyReveal r f).Tame P := h.of_eq rfl rfl h.listeners

theorem stopReveal (h : p.Tame P) (r : Nat) (v : Reveal) (mode : Reveal.Mode) :
    (p.stopReveal r v mode).Tame P := by
  unfold Player.stopReveal
  dsimp only
  split
  · exact (h.cancelTimer _).modifyReveal ..
  · exact h.modifyReveal ..

theorem armReveal (h : p.Tame P) (r : Nat) (mode : Reveal.Mode) (d : Nat) (repeats : Bool)
    {a : Reveal.Act} (ha : a = .tick ∨ a = .wake) : (p.armReveal r mode d repeats a).Tame P := by
  have ht : Task.IsTimed (.reveal r a) := ha
  exact (h.startTimer d repeats ht).modifyReveal ..

theorem cancelHandler (h : p.Tame P) (x : Handler) : (p.cancelHandler x).Tame P := by
  cases x with
  | finish t => exact h
  | stuck => exact h
  | timer k => exact h.cancelTimer k
  | reveal r =>
    rw [Player.cancelHandler]
    split
    · exact h.stopReveal ..
    · exact h
  | host b t => cases b <;> first | exact h | exact h.note _

theorem interrupt (h : p.Tame P) : p.interrupt.Tame P := by
  unfold Player.interrupt
  dsimp only
  split
  · refine Tame.cancelHandler ?_ _
    exact h.of_eq rfl rfl h.listeners
  · exact h.of_eq rfl rfl h.listeners

theorem branch (h : p.Tame P) (argument : String) : (p.branch argument).Tame P := by
  obtain ⟨events, queue, hq, -⟩ := p.branch_eq argument
  rw [hq]
  exact h.of_eq rfl rfl h.listeners

theorem skip (h : p.Tame P) (argument : String) : (p.skip argument).Tame P := by
  rw [Player.skip]
  split
  · exact h.logError _
  · exact h.logError _
  · exact (h.trace ..).write ..

theorem execute (h : p.Tame P) {command : Command}
    (hc : ∀ {b body}, command = .host b body → ∀ c ∈ body, c.Within P) (opcode argument : String)
    (t : Ticket) :
    Leaves P ((p.execute command opcode argument t).1,
      (p.execute command opcode argument t).2.1) := by
  cases command with
  | text =>
    refine .single ?_ trivial
    exact h.of_eq rfl rfl h.listeners
  | pageBreak => exact h.emit _
  | lineBreak => exact h.emit _
  | click => exact .nil h
  | wait =>
    simp only [Player.execute]
    split
    · exact .nil (h.waitFor ..)
    · exact .nil (h.logError _)
  | setDelay =>
    simp only [Player.execute]
    split
    · exact .nil (h.of_eq rfl rfl h.listeners)
    · exact .nil (h.logError _)
  | resetDelay => exact .nil (h.of_eq rfl rfl h.listeners)
  | branch => exact .nil (h.branch _)
  | skip => exact .nil (h.skip _)
  | exit => exact (h.trace ..).emit _
  | cue c =>
    simp only [Player.execute]
    split
    · exact .nil (h.carryOut ..)
    · exact .nil (h.logError _)
  | assign op => exact .nil (h.storeOutcome ..)
  | step delta => exact .nil (h.storeOutcome ..)
  | host b body =>
    have hp : Leaves P ({ p.note (.called opcode argument) with tickets := p.tickets.push t },
        body.map (fun c => Order.perform (.call .nobody c))) :=
      ⟨(h.note (.called opcode argument)).of_eq rfl rfl h.listeners, passes_of_mem_calls (hc rfl)⟩
    cases b <;> first | exact hp | exact hp.concat (o := .perform (.finish t)) trivial

theorem dispatch (h : p.Tame P) (i : Instruction) : Leaves P (p.dispatch i) := by
  rw [Player.dispatch]
  dsimp only
  split
  · next command hget =>
    refine Leaves.concat (Tame.execute ?_ ?_ ..) trivial
    · exact h.of_eq rfl rfl h.listeners
    · rintro b body rfl
      exact h.commands hget
  · refine .single ?_ trivial
    exact h.of_eq rfl rfl h.listeners
  · refine .single (Tame.logError ?_ _) trivial
    exact h.of_eq rfl rfl h.listeners

theorem runNext (h : p.Tame P) : Leaves P p.runNext := by
  rw [Player.runNext]
  split
  · refine Tame.dispatch ?_ _
    exact h.of_eq rfl rfl h.listeners
  · exact .nil (h.write ..)

theorem finish (h : p.Tame P) (t : Ticket) : Leaves P (p.finish t) := by
  rw [Player.finish]
  split
  · dsimp only
    split
    · split
      · refine Tame.runNext ?_
        exact h.of_eq rfl rfl h.listeners
      · refine .nil (Tame.trace ?_ ..)
        exact h.of_eq rfl rfl h.listeners
    · refine .nil (Tame.note ?_ _)
      exact h.of_eq rfl rfl h.listeners
  · exact .nil h

theorem conclude (h : p.Tame P) (t : Ticket) (c : Completion) : Leaves P (p.conclude t c) := by
  cases c with
  | completed => exact h.finish t
  | pending x =>
    unfold Player.conclude
    dsimp only
    cases x <;>
    · dsimp only
      split
      · exact .nil (h.of_eq rfl rfl h.listeners)
      · first | exact .nil h | exact .nil (h.modifyReveal ..)

/-! ### Shown texts -/

theorem proceed (h : p.Tame P) (r : Nat) (v : Reveal) : Leaves P (p.proceed r v) := by
  rw [Player.proceed]
  dsimp only
  split
  · exact ((h.modifyReveal ..).trace ..).finish _
  · exact .nil (((h.modifyReveal ..).trace ..).armReveal _ _ _ _ (.inr rfl))
  · exact .nil ((h.modifyReveal ..).trace ..)
  · exact ((h.modifyReveal ..).trace ..).emit _
  · exact ((h.modifyReveal ..).trace ..).emit _
  · exact ((h.modifyReveal ..).emit _).concat (o := .perform _) trivial
  · exact .nil (h.armReveal _ _ _ _ (.inl rfl))

theorem runReveal (h : p.Tame P) (r : Nat) : Leaves P (p.runReveal r) := by
  unfold Player.runReveal
  dsimp only
  split
  · exact (h.modifyReveal ..).proceed ..
  · exact .nil (h.modifyReveal ..)

theorem tickReveal (h : p.Tame P) (r : Nat) (v : Reveal) : Leaves P (p.tickReveal r v) := by
  rw [Player.tickReveal]
  split
  · exact .single (o := .perform _) h trivial
  · dsimp only
    split
    · exact .single (o := .perform _) h trivial
    · exact ((h.modifyReveal ..).emit _).concat (o := .perform _) trivial

theorem keeping (h : p.Tame P) (r : Nat) {f : Player → Player × Orders}
    (hf : ∀ q : Player, q.Tame P → Leaves P (f q)) : Leaves P (p.keeping r f) :=
  (hf _ (h.modifyReveal ..)).concat (o := .perform _) trivial

theorem nudgeReveal (h : p.Tame P) (r : Nat) (v : Reveal) : Leaves P (p.nudgeReveal r v) := by
  rw [Player.nudgeReveal]
  split
  · dsimp only
    split
    · exact .single (o := .perform _) ((h.stopReveal ..).modifyReveal ..) trivial
    · exact (((h.stopReveal ..).modifyReveal ..).emit _).concat (o := .perform _) trivial
  · exact h.runReveal r
  · exact (h.modifyReveal ..).finish _
  · split
    · exact .nil (h.skipTimer _)
    · exact .nil h
  · exact .nil h
  · exact .nil h

theorem actReveal (h : p.Tame P) (r : Nat) (a : Reveal.Act) : Leaves P (p.actReveal r a) := by
  rw [Player.actReveal]
  split
  · exact .nil h
  · cases a with
    | run => exact h.runReveal r
    | resume =>
      dsimp only
      split
      · exact h.proceed ..
      · exact .nil h
    | tick =>
      dsimp only
      split
      · exact h.keeping r fun q hq => hq.tickReveal r _
      · exact .nil h
    | ticked =>
      dsimp only
      split
      · exact (h.stopReveal ..).runReveal r
      · exact .nil h
    | wake =>
      dsimp only
      split
      · exact h.keeping r fun q hq => hq.runReveal r
      · exact .nil h
    | release => exact .nil (h.modifyReveal ..)

/-! ### Calls -/

theorem advanceHandler (h : p.Tame P) (x : Handler) : Leaves P (p.advanceHandler x) := by
  cases x with
  | finish t => exact h.finish t
  | stuck => exact .nil h
  | timer k => exact .nil (h.skipTimer k)
  | reveal r =>
    rw [Player.advanceHandler]
    split
    · exact h.keeping r fun q hq => hq.nudgeReveal r _
    · exact .nil h
  | host b t =>
    cases b <;> first
      | exact .nil (h.note _)
      | exact (h.finish t).concat (o := .perform _) trivial

theorem next (h : p.Tame P) : Leaves P p.next := by
  rw [Player.next]
  split
  · exact h.advanceHandler _
  · exact .nil h

theorem loadScene (h : p.Tame P) (scene : String) : (p.loadScene scene).Tame P := by
  rw [Player.loadScene]
  dsimp only
  split
  · exact h.interrupt.of_eq rfl rfl h.interrupt.listeners
  · refine Tame.trace ?_ ..
    exact h.interrupt.of_eq rfl rfl h.interrupt.listeners

theorem runLine (h : p.Tame P) (index : UInt64) : Leaves P (p.runLine index) := by
  rw [Player.runLine]
  split
  · exact .nil (h.trace ..)
  · dsimp only
    split
    · refine .nil (Tame.logError ?_ _)
      exact h.interrupt.of_eq rfl rfl h.interrupt.listeners
    · split
      · refine .nil (Tame.note ?_ _)
        exact h.interrupt.of_eq rfl rfl h.interrupt.listeners
      · refine Tame.runNext ?_
        exact (h.interrupt.trace ..).of_eq rfl rfl (h.interrupt.trace ..).listeners

theorem goto (h : p.Tame P) (scene : String) (index : UInt64) : (p.goto scene index).Tame P := by
  rw [Player.goto]
  dsimp only
  split
  · exact (h.interrupt.write ..).write ..
  · split
    · exact ((h.interrupt.notify ..).write ..).notify ..
    · exact (h.interrupt.write ..).notify ..

theorem completeLoad (h : p.Tame P) (r : LoadRequest) (x : Except SourceError (List String)) :
    (p.completeLoad r x).1.Tame P := by
  unfold Player.completeLoad
  split
  · exact h.trace ..
  · split
    · refine Tame.notify ?_ _
      exact (h.trace ..).of_eq rfl rfl (h.trace ..).listeners
    · refine Tame.logError ?_ _
      exact h.of_eq rfl rfl h.listeners

theorem load (h : p.Tame P) : Leaves P p.load := by
  unfold Player.load takeRequest
  cases p.loadRequest with
  | none => exact .nil (h.of_eq rfl rfl h.listeners)
  | some r =>
    refine ⟨Tame.completeLoad ?_ .., fun o ho => ?_⟩
    · exact h.of_eq rfl rfl h.listeners
    · rcases List.mem_cons.1 ho with rfl | ho
      · trivial
      · rw [List.mem_singleton.1 ho]
        trivial

/-- A command of the host joins the others. -/
theorem register (h : p.Tame P) {opcode : String} {b : Option Behavior} {body : List HostCall}
    (hb : ∀ c ∈ body, c.Within P) {commands : CommandTable}
    (hm : p.commands.merge? (.ofList [(opcode, b.map (fun b => .host b body))]) = .ok commands) :
    { p with commands }.Tame P := by
  refine ⟨h.microtasks, h.timeouts, h.timers, h.listeners, @fun o c hc => ?_⟩
  have hins : commands = p.commands.insert opcode (b.map (fun b => .host b body)) := by
    unfold CommandTable.merge? at hm
    split at hm
    · cases hm
    · cases hm
      rfl
  subst hins
  by_cases ho : o = opcode
  · subst ho
    rw [SortedMap.get?_insert_self] at hc
    obtain ⟨b, -, rfl⟩ := Option.map_eq_some_iff.1 (Option.some.inj hc)
    exact hb
  · rw [SortedMap.get?_insert_of_ne _ ho] at hc
    exact h.commands hc

theorem call (h : p.Tame P) {c : HostCall} (hc : c.Within P) :
    Leaves P ((p.call c).1, (p.call c).2.2) := by
  cases c with
  | next => exact h.next
  | settle => exact .single h trivial
  | advance d => exact .single h trivial
  | runMicrotasks => exact .single h trivial
  | goto scene index => exact .nil (h.goto ..)
  | restore c v => exact .nil ((h.present c v).goto ..)
  | serve =>
    refine ⟨h, fun o ho => ?_⟩
    rcases List.mem_cons.1 ho with rfl | ho
    · trivial
    · rw [List.mem_singleton.1 ho]
      trivial
  | take =>
    rw [Player.call, takeRequest]
    cases p.loadRequest <;> exact .nil (h.of_eq rfl rfl h.listeners)
  | complete k lines =>
    simp only [Player.call]
    split
    · exact .nil (h.completeLoad ..)
    · exact .nil h
  | set c v => exact .nil (h.write c v)
  | notify c => exact .nil (h.notify c)
  | effect name => exact .nil (h.playEffect name)
  | setVariable token v =>
    simp only [Player.call]
    split
    · exact .nil (h.write ..)
    · exact .nil h
  | getVariable token =>
    simp only [Player.call]
    split <;> exact .nil h
  | observe c accepts once trigger times body =>
    refine .nil (Tame.observe ?_ ..)
    have hl := h.addListener (l := ⟨trigger, times, body⟩) fun d hd => hc.of_mem_body hd
    exact hl.of_eq rfl rfl hl.listeners
  | unobserve c k =>
    simp only [Player.call]
    split
    · exact .nil (h.store ..)
    · exact .nil h
  | speed s => exact .nil (h.write ..)
  | register opcode b body =>
    simp only [Player.call]
    split
    · next hm => exact .nil (h.register (fun d hd => hc.of_mem_body hd) hm)
    · refine .single ?_ trivial
      exact h.of_eq rfl rfl h.listeners
  | finish k =>
    simp only [Player.call]
    split
    · exact h.finish _
    · exact .nil h

theorem report (h : p.Tame P) (x : Answer) (a : Audience) : (p.report x a).Tame P := by
  cases a with
  | caller => exact h.of_eq rfl rfl h.listeners
  | events =>
    rw [Player.report]
    split
    · exact h
    · exact h.note _
  | nobody => exact h

/-! ### Tasks -/

theorem reactTo (h : p.Tame P) (r : Reaction) (c : CellName) (v : c.Value) :
    Leaves P (p.reactTo r c v) := by
  unfold Player.reactTo
  split
  · exact .nil (h.loadScene _)
  · exact h.runLine _
  · refine .nil ?_
    rw [openPage]
    split
    · exact h.of_eq rfl rfl h.listeners
    · exact h
  · exact .nil (h.of_eq rfl rfl h.listeners)
  · exact h.react ..
  · exact .nil h

theorem hear (h : p.Tame P) (c : CellName) (k : Nat) (v : c.Value) :
    Leaves P (perform (.hear c k v) p) := by
  unfold perform
  dsimp only
  split
  · exact (h.store ..).reactTo ..
  · exact .nil h

/-- A task that passes leaves nothing behind that does not. -/
theorem perform (h : p.Tame P) {t : Task} (ht : t.Passes P) : Leaves P (perform t p) := by
  cases t with
  | deliver c => exact ht.elim
  | hear c k v => exact ht.elim
  | ring k => exact h.ringTimer k
  | finish t => exact h.finish t
  | conclude t c => exact h.conclude t c
  | reveal r a => exact h.actReveal r a
  | call a c => exact (h.call ht).concat (o := .perform _) trivial
  | report a x => exact .nil (h.report x a)
  | note e => exact .nil (h.note e)
  | load => exact h.load

/-! ### Beginnings -/

/-- A player with nothing left behind. -/
theorem of_empty (hs : p.schedule = {}) (hl : p.listeners = #[]) (hc : p.commands = .standard) :
    p.Tame P where
  microtasks := by simp [loop, hs]
  timeouts := by simp [loop, hs]
  timers := by simp [hs]
  listeners := by simp [hl]
  commands h := by
    rw [hc] at h
    exact CommandTable.passes_of_get?_standard h

theorem following (h : p.Tame P) : p.following.Tame P := (h.observe ..).observe ..

end Tame

end Player

end Novella
