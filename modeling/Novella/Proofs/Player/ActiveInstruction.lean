import Novella.Proofs.Player.ScriptCourse

/-!
# The instruction under way

Of all that a player holds, only a part says which instruction is under way and who takes the input:
the phase, the queue, the active handler, and the tickets with the last generation. This is the
*seat* of the player. Few operations touch it, and each in one of a few ways: an instruction begins,
it goes on to wait, its ticket is given back, or it is interrupted.

When an instruction begins its command may leave tasks behind that are carried out at once, before
the command is concluded. They are *light*: none of them makes the event loop turn, so no delivery
comes in between. The host has a part in this, for it may be called back in the meantime, and
whatever it calls then has to be over at once, too.

## Main definitions

* `Seat`, `Player.seat` — who takes the input
* `Order.IsLight` — what may be done while a command starts
* `Seat.Shift` — what may happen to a seat without a delivery

## Main results

* `Seat.finish`, `Seat.actReveal`, `Seat.next`, `Seat.call` — what operations do to the seat
* `Seat.runLine` — a line is run
-/

namespace Novella

open Player

/-- Who takes the input of a player. -/
structure Seat where
  /-- Where the player is. -/
  phase : Phase
  /-- The instructions of the line that are still to run. -/
  queue : List Instruction
  /-- The handler of the instruction that waits. -/
  active : Option Handler
  /-- The generation of the last instruction. -/
  generation : Nat
  /-- The tickets not given back. -/
  live : List Ticket

namespace Seat

/-- The ticket of the last instruction. -/
def current (s : Seat) : Ticket := .instruction s.generation

/-- An instruction is under way. -/
def Busy (s : Seat) : Prop := s.current ∈ s.live

instance (s : Seat) : Decidable s.Busy := inferInstanceAs (Decidable (_ ∈ _))

/-- A ticket is given back. -/
def spend (s : Seat) (t : Ticket) : Seat := { s with live := s.live.erase t }

/-- The instruction and those after it are dropped. -/
def interrupt (s : Seat) : Seat :=
  { s with generation := s.generation + 1, queue := [], active := none }

/-- An instruction begins, and these are left. -/
def begin (s : Seat) (queue : List Instruction) : Seat :=
  { s with
    phase := .executing
    queue
    generation := s.generation + 1
    live := .instruction (s.generation + 1) :: s.live }

end Seat

namespace Player

/-- The seat of a player. -/
def seat (p : Player) : Seat := ⟨p.phase, p.queue, p.active, p.generation, p.live⟩

variable {p q : Player}

theorem seat_of_inside (h : q.inside = p.inside) : q.seat = p.seat := by
  change q.inside.seat = p.inside.seat
  rw [h]

/-! ### What the seat does not depend on -/

@[simp] theorem seat_note (p : Player) (e : Event) : (p.note e).seat = p.seat := rfl

@[simp] theorem seat_logError (p : Player) (s : String) : (p.logError s).seat = p.seat := rfl

@[simp] theorem seat_trace (p : Player) (c : LogCategory) (l : LogLevel) (s : String) :
    (p.trace c l s).seat = p.seat := seat_of_inside (inside_trace ..)

@[simp] theorem seat_react (p : Player) (k : Nat) (o : Occurrence) :
    (p.react k o).1.seat = p.seat := seat_of_inside (inside_react ..)

@[simp] theorem seat_emit (p : Player) (s : Signal) : (p.emit s).1.seat = p.seat :=
  seat_of_inside (inside_emit ..)

@[simp] theorem seat_write (p : Player) (c : CellName) (v : c.Value) :
    (p.write c v).seat = p.seat := rfl

@[simp] theorem seat_notify (p : Player) (c : CellName) : (p.notify c).seat = p.seat := rfl

@[simp] theorem seat_playEffect (p : Player) (name : String) :
    (p.playEffect name).seat = p.seat := rfl

@[simp] theorem seat_present (p : Player) (c : Context) (v : Progress) :
    (p.present c v).seat = p.seat := rfl

@[simp] theorem seat_startTimer (p : Player) (d : Nat) (repeats : Bool) (t : Task) :
    (p.startTimer d repeats t).seat = p.seat := rfl

@[simp] theorem seat_cancelTimer (p : Player) (k : Nat) : (p.cancelTimer k).seat = p.seat := rfl

@[simp] theorem seat_modifyReveal (p : Player) (r : Nat) (f : Reveal → Reveal) :
    (p.modifyReveal r f).seat = p.seat := rfl

@[simp] theorem seat_armReveal (p : Player) (r : Nat) (mode : Reveal.Mode) (d : Nat)
    (repeats : Bool) (a : Reveal.Act) : (p.armReveal r mode d repeats a).seat = p.seat := rfl

@[simp] theorem seat_stopReveal (p : Player) (r : Nat) (v : Reveal) (mode : Reveal.Mode) :
    (p.stopReveal r v mode).seat = p.seat := by
  unfold stopReveal
  dsimp only
  split <;> rfl

@[simp] theorem seat_cancelHandler (p : Player) (x : Handler) :
    (p.cancelHandler x).seat = p.seat := by
  cases x with
  | reveal r =>
    rw [cancelHandler]
    split
    · exact seat_stopReveal ..
    · rfl
  | host b t => cases b <;> rfl
  | _ => rfl

@[simp] theorem seat_interrupt (p : Player) : p.interrupt.seat = p.seat.interrupt := by
  unfold interrupt
  dsimp only
  split
  · exact seat_cancelHandler ..
  · rfl

@[simp] theorem seat_waitFor (p : Player) (d : Nat) (t : Ticket) :
    (p.waitFor d t).1.seat = p.seat := by
  rw [waitFor]
  split <;> rfl

@[simp] theorem seat_storeOutcome (p : Player) (opcode argument : String)
    (r : Except AssignmentError Assignment.Outcome) :
    (p.storeOutcome opcode argument r).seat = p.seat := by
  cases r with
  | ok o => rw [storeOutcome, seat_trace, seat_write]
  | error e => rfl

theorem seat_foldl_write (ws : List CellWrite) (p : Player) :
    (ws.foldl (fun p w => p.write w.cell w.value) p).seat = p.seat := by
  induction ws generalizing p with
  | nil => rfl
  | cons w ws ih => rw [List.foldl_cons, ih, seat_write]

@[simp] theorem seat_carryOut (p : Player) (c : Cue) (t : Ticket) :
    (p.carryOut c t).1.seat = p.seat := by
  unfold carryOut
  dsimp only
  rw [seat_waitFor]
  split
  · rw [seat_playEffect, seat_foldl_write]
  · rw [seat_foldl_write]

@[simp] theorem seat_skip (p : Player) (argument : String) : (p.skip argument).seat = p.seat := by
  rw [skip]
  split
  · rfl
  · rfl
  · rw [seat_write, seat_trace]

/-- A condition may put further instructions in front of those that wait. -/
theorem seat_branch (p : Player) (argument : String) :
    ∃ queue, (p.branch argument).seat = { p.seat with queue } := by
  obtain ⟨events, queue, hq, -⟩ := p.branch_eq argument
  exact ⟨queue, congrArg seat hq⟩

@[simp] theorem seat_goto (p : Player) (s : String) (i : UInt64) :
    (p.goto s i).seat = p.seat.interrupt := by
  rw [goto]
  dsimp only
  split
  · exact seat_interrupt p
  · split <;> exact seat_interrupt p

@[simp] theorem seat_report (p : Player) (x : Answer) (a : Audience) :
    (p.report x a).seat = p.seat := seat_of_inside (inside_report ..)

end Player

/-! ### Light orders -/

/-- The call makes the event loop turn, or it may put an end to everything. -/
def HostCall.turns : HostCall → Bool
  | settle => true
  | advance _ => true
  | runMicrotasks => true
  | serve => true
  | register _ _ _ => true
  | _ => false

/-- The order concludes the start of a command. -/
def Order.Concludes (o : Order Task) : Prop := ∃ t x, o = .perform (.conclude t x)

/-- The order may be carried out while a command starts. Calls of the host are not its own then, but
ones that it has left with the player. -/
def Order.IsLight : Order Task → Prop
  | .perform (.ring _) => True
  | .perform (.finish _) => True
  | .perform (.reveal _ _) => True
  | .perform (.report _ _) => True
  | .perform (.note _) => True
  | .perform (.call a _) => a ≠ .caller
  | _ => False

theorem Order.IsLight.not_concludes {o : Order Task} (h : o.IsLight) : ¬ o.Concludes := by
  rintro ⟨t, x, rfl⟩
  exact h

/-- All the orders are light. -/
structure Light (orders : Orders) : Prop where
  /-- Each one is. -/
  all : ∀ o ∈ orders, o.IsLight

namespace Light

variable {orders : Orders}

theorem nil : Light [] := ⟨fun _ ho => absurd ho List.not_mem_nil⟩

theorem single {o : Order Task} (h : o.IsLight) : Light [o] := by
  refine ⟨fun x hx => ?_⟩
  rw [List.mem_singleton.1 hx]
  exact h

theorem append {more : Orders} (h : Light orders) (h' : Light more) : Light (orders ++ more) :=
  ⟨fun o ho => (List.mem_append.1 ho).elim (h.all o) (h'.all o)⟩

theorem concat {o : Order Task} (h : Light orders) (ho : o.IsLight) : Light (orders ++ [o]) :=
  h.append (.single ho)

theorem calls {a : Audience} (ha : a ≠ .caller) (body : List HostCall) :
    Light (body.map (fun c => .perform (.call a c))) := by
  refine ⟨fun o ho => ?_⟩
  obtain ⟨c, -, rfl⟩ := List.mem_map.1 ho
  exact ha

theorem react (p : Player) (k : Nat) (o : Occurrence) : Light (p.react k o).2 := by
  rw [Player.react]
  dsimp only
  split
  · split
    · exact .calls (by simp) _
    · exact .nil
  · exact .nil

theorem receive (p : Player) (s : Signal) (r : Receiver) : Light (p.receive s r).2 := by
  cases r with
  | listener k => exact .react ..
  | book =>
    rw [Player.receive, passOn]
    split
    · exact .react ..
    · exact .nil

theorem emit (p : Player) (s : Signal) : Light (p.emit s).2 := by
  rw [Player.emit]
  split
  · exact .receive ..
  · exact .nil

theorem connect (p : Player) (k : Hook) (l : Listener) : Light (p.connect k l).2 := by
  unfold Player.connect connectReceiver
  dsimp only
  split
  · exact .receive ..
  · exact .nil

theorem connectToBook (p : Player) (k : Hook) (l : Listener) :
    Light (p.connectToBook k l).2 := by
  rw [Player.connectToBook]
  dsimp only
  split
  · exact .react ..
  · exact .nil

end Light

/-! ### Shifts of a seat -/

namespace Seat

/-- An instruction has begun at the seat. Its command is going to be concluded before anything but
light orders is carried out. -/
structure Begins (s : Seat) (r : Player × Orders) : Prop where
  /-- The instruction is the one under way. -/
  seat : ∃ queue, r.1.seat = s.begin queue
  /-- It is concluded. -/
  orders : ∃ before x after,
    r.2 = before ++ .perform (.conclude (.instruction (s.generation + 1)) x) :: after ∧
      Light before ∧ Light after

/-- What may happen to a seat without a delivery. -/
inductive Shift (s : Seat) (r : Player × Orders) : Prop where
  /-- Nothing. -/
  | stay : r.1.seat = s → Light r.2 → Shift s r
  /-- A ticket is given back that is not the current one. -/
  | spend (t : Ticket) : t ≠ s.current → r.1.seat = s.spend t → Light r.2 → Shift s r
  /-- The last instruction of a line is finished. -/
  | leave : s.Busy → s.queue = [] → r.1.seat = { s.spend s.current with active := none } →
      Light r.2 → Shift s r
  /-- An instruction is finished and the next one begins. -/
  | next : s.Busy → Begins { s.spend s.current with active := none } r → Shift s r
  /-- The script jumps. -/
  | jump : r.1.seat = s.interrupt → Light r.2 → Shift s r
  /-- The lines of a scene have come, or are not to be had. -/
  | answer (phase : Phase) : s.phase = .loading → phase = .executing ∨ phase = .idle →
      r.1.seat = { s with phase } → Light r.2 → Shift s r

variable {p : Player} {s : Seat} {r : Player × Orders}

theorem Begins.append (h : Begins s r) {orders : Orders} (ho : Light orders) :
    Begins s (r.1, r.2 ++ orders) := by
  obtain ⟨before, x, after, heq, hb, ha⟩ := h.orders
  exact ⟨h.seat, before, x, after ++ orders, by simp [heq], hb, ha.append ho⟩

theorem Shift.append (h : Shift s r) {orders : Orders} (ho : Light orders) :
    Shift s (r.1, r.2 ++ orders) := by
  cases h with
  | stay hs hl => exact .stay hs (hl.append ho)
  | spend t ht hs hl => exact .spend t ht hs (hl.append ho)
  | leave hb hq hs hl => exact .leave hb hq hs (hl.append ho)
  | next hb h => exact .next hb (h.append ho)
  | jump hs hl => exact .jump hs (hl.append ho)
  | answer phase hp hc hs hl => exact .answer phase hp hc hs (hl.append ho)

theorem Shift.concat (h : Shift s r) {o : Order Task} (ho : o.IsLight) :
    Shift s (r.1, r.2 ++ [o]) := h.append (.single ho)

theorem Shift.nil (h : p.seat = s) : Shift s (p, []) := .stay h .nil

theorem Shift.emit (h : p.seat = s) (x : Signal) : Shift s (p.emit x) :=
  .stay ((seat_emit p x).trans h) (.emit p x)

/-! ### Instructions -/

/-- A command leaves the seat alone, but it may add to the queue. -/
theorem execute (p : Player) (command : Command) (opcode argument : String) (t : Ticket) :
    (∃ queue, (p.execute command opcode argument t).1.seat = { p.seat with queue }) ∧
      Light (p.execute command opcode argument t).2.1 := by
  have plain {q : Player} (h : q.seat = p.seat) : ∃ queue, q.seat = { p.seat with queue } :=
    ⟨p.queue, h⟩
  cases command with
  | text => exact ⟨plain rfl, .single trivial⟩
  | pageBreak => exact ⟨plain (seat_emit ..), .emit ..⟩
  | lineBreak => exact ⟨plain (seat_emit ..), .emit ..⟩
  | click => exact ⟨plain rfl, .nil⟩
  | wait =>
    simp only [Player.execute]
    split
    · exact ⟨plain (seat_waitFor ..), .nil⟩
    · exact ⟨plain rfl, .nil⟩
  | setDelay =>
    simp only [Player.execute]
    split <;> exact ⟨plain rfl, .nil⟩
  | resetDelay => exact ⟨plain rfl, .nil⟩
  | branch => exact ⟨seat_branch .., .nil⟩
  | skip => exact ⟨plain (seat_skip ..), .nil⟩
  | exit => exact ⟨plain ((seat_emit ..).trans (seat_trace ..)), .emit ..⟩
  | cue c =>
    simp only [Player.execute]
    split
    · exact ⟨plain (seat_carryOut ..), .nil⟩
    · exact ⟨plain rfl, .nil⟩
  | assign op => exact ⟨plain (seat_storeOutcome ..), .nil⟩
  | step delta => exact ⟨plain (seat_storeOutcome ..), .nil⟩
  | host b body =>
    have hc : Light (body.map (fun c => Order.perform (.call .nobody c))) := .calls (by simp) _
    cases b <;> first
      | exact ⟨plain rfl, hc⟩
      | exact ⟨plain rfl, hc.concat (o := .perform (.finish t)) trivial⟩

theorem dispatch (p : Player) (i : Instruction) : Begins p.seat (p.dispatch i) := by
  unfold Player.dispatch
  dsimp only
  split
  · next command _ =>
    obtain ⟨⟨queue, hs⟩, hl⟩ := execute { p with
      generation := p.generation + 1
      phase := .executing
      live := .instruction (p.generation + 1) :: p.live } command i.opcode i.argument
        (.instruction (p.generation + 1))
    exact ⟨⟨queue, hs⟩, _, _, [], rfl, hl, .nil⟩
  · exact ⟨⟨p.queue, rfl⟩, [], _, [], rfl, .nil, .nil⟩
  · exact ⟨⟨p.queue, rfl⟩, [], _, [], rfl, .nil, .nil⟩

/-- The next instruction begins, unless the line is at its end. -/
theorem runNext (p : Player) :
    (p.queue = [] ∧ p.runNext.1.seat = p.seat ∧ Light p.runNext.2) ∨ Begins p.seat p.runNext := by
  rw [Player.runNext]
  split
  · next i rest hq =>
    obtain ⟨⟨queue, hs⟩, ho⟩ := dispatch { p with queue := rest } i
    exact .inr ⟨⟨queue, hs⟩, ho⟩
  · next hq => exact .inl ⟨hq, rfl, .nil⟩

/-- The instruction under way is finished. -/
theorem finish_current (h : p.seat.Busy) :
    (p.queue = [] ∧
        (p.finish p.seat.current).1.seat = { p.seat.spend p.seat.current with active := none } ∧
        Light (p.finish p.seat.current).2) ∨
      Begins { p.seat.spend p.seat.current with active := none } (p.finish p.seat.current) := by
  have hf : p.finish p.seat.current =
      { p with live := p.live.erase p.seat.current, active := none }.runNext := by
    have hm : p.seat.current ∈ p.live := h
    rw [Player.finish, if_pos hm]
    exact if_pos rfl
  rw [hf]
  exact runNext { p with live := p.live.erase p.seat.current, active := none }

theorem finish (p : Player) (t : Ticket) : Shift p.seat (p.finish t) := by
  by_cases ht : t = p.seat.current ∧ p.seat.Busy
  · obtain ⟨rfl, hb⟩ := ht
    rcases finish_current hb with ⟨hq, hs, hl⟩ | h
    · exact .leave hb hq hs hl
    · exact .next hb h
  · rw [Player.finish]
    split
    · next hm =>
      have hne : t ≠ p.seat.current := by
        rintro rfl
        exact ht ⟨rfl, hm⟩
      dsimp only
      cases t with
      | call k => exact .spend (.call k) hne rfl .nil
      | instruction g =>
        dsimp only
        split
        · next hg => exact absurd (congrArg Ticket.instruction hg) hne
        · exact .spend (.instruction g) hne (seat_trace ..) .nil
    · exact .nil rfl

/-- A finished command is done with. -/
theorem not_mem_finish_current (hn : p.live.Nodup) (hb : p.seat.Busy) :
    p.seat.current ∉ (p.finish p.seat.current).1.live := by
  have he : p.seat.current ∉ p.live.erase p.seat.current := hn.not_mem_erase
  rcases finish_current hb with ⟨-, hs, -⟩ | ⟨⟨queue, hs⟩, -⟩
  · have hl := congrArg Seat.live hs
    change (p.finish p.seat.current).1.live = _ at hl
    rw [hl]
    exact he
  · have hl := congrArg Seat.live hs
    change (p.finish p.seat.current).1.live = _ at hl
    rw [hl]
    intro hm
    rcases List.mem_cons.1 hm with heq | hm
    · exact Nat.ne_of_lt (Nat.lt_succ_self _) (Ticket.instruction.inj heq)
    · exact he hm

/-- A command goes on to wait, unless its ticket has been given back in the meantime. -/
theorem conclude_pending (p : Player) (t : Ticket) (x : Handler) :
    (p.conclude t (.pending x)).2 = [] ∧
      (p.conclude t (.pending x)).1.seat =
        if t ∈ p.live then { p.seat with active := some x, phase := .awaiting } else p.seat := by
  obtain ⟨q, hq, heq⟩ : ∃ q : Player, q.seat = p.seat ∧ p.conclude t (.pending x) =
      if t ∈ p.live then ({ q with active := some x, phase := .awaiting }, []) else (q, []) := by
    cases x with
    | reveal r => exact ⟨p.modifyReveal r fun v => { v with holds := v.holds - 1 }, rfl, rfl⟩
    | _ => exact ⟨p, rfl, rfl⟩
  rw [heq]
  split
  · refine ⟨rfl, ?_⟩
    rw [← hq]
    rfl
  · exact ⟨rfl, hq⟩

/-! ### Shown texts -/

theorem proceed (p : Player) (r : Nat) (v : Reveal) : Shift p.seat (p.proceed r v) := by
  rw [Player.proceed]
  dsimp only
  split
  · have hf := finish ((p.modifyReveal r fun v => { v with rest := [], mode := .done }).trace .text
      .trace "text finished") v.ticket
    rwa [seat_trace] at hf
  · exact .nil (by simp)
  · exact .nil (by simp)
  · exact .emit (by simp) _
  · exact .emit (by simp) _
  · exact (Shift.emit (by simp) _).concat (o := .perform _) trivial
  · exact .nil (by simp)

theorem runReveal (p : Player) (r : Nat) : Shift p.seat (p.runReveal r) := by
  unfold Player.runReveal
  dsimp only
  split
  · exact proceed (p.modifyReveal r fun v => { v with mode := .running }) ..
  · exact .nil rfl

theorem keeping (p : Player) (r : Nat) {f : Player → Player × Orders}
    (hf : ∀ q : Player, Shift q.seat (f q)) : Shift p.seat (p.keeping r f) :=
  (hf (p.modifyReveal r fun v => { v with holds := v.holds + 1 })).concat (o := .perform _) trivial

theorem tickReveal (p : Player) (r : Nat) (v : Reveal) : Shift p.seat (p.tickReveal r v) := by
  rw [Player.tickReveal]
  split
  · exact .stay rfl (.single trivial)
  · dsimp only
    split
    · exact .stay rfl (.single trivial)
    · exact (Shift.emit (by simp) _).concat (o := .perform _) trivial

theorem nudgeReveal (p : Player) (r : Nat) (v : Reveal) : Shift p.seat (p.nudgeReveal r v) := by
  rw [Player.nudgeReveal]
  split
  · dsimp only
    split
    · exact .stay (by simp) (.single trivial)
    · exact (Shift.emit (by simp) _).concat (o := .perform _) trivial
  · exact runReveal ..
  · exact finish (p.modifyReveal r fun v => { v with mode := .done }) _
  · split <;> exact .nil rfl
  · exact .nil rfl
  · exact .nil rfl

theorem actReveal (p : Player) (r : Nat) (a : Reveal.Act) : Shift p.seat (p.actReveal r a) := by
  rw [Player.actReveal]
  split
  · exact .nil rfl
  · next v _ =>
    cases a with
    | run => exact runReveal ..
    | resume =>
      dsimp only
      split
      · exact proceed ..
      · exact .nil rfl
    | tick =>
      dsimp only
      split
      · exact keeping p r fun q => tickReveal q r v
      · exact .nil rfl
    | ticked =>
      dsimp only
      split
      · have hr := runReveal (p.stopReveal r v .running) r
        rwa [seat_stopReveal] at hr
      · exact .nil rfl
    | wake =>
      dsimp only
      split
      · exact keeping p r fun q => runReveal q r
      · exact .nil rfl
    | release => exact .nil rfl

/-! ### Calls -/

theorem advanceHandler (p : Player) (x : Handler) : Shift p.seat (p.advanceHandler x) := by
  cases x with
  | finish t => exact finish p t
  | stuck => exact .nil rfl
  | timer k => exact .nil rfl
  | reveal r =>
    rw [Player.advanceHandler]
    split
    · exact keeping p r fun q => nudgeReveal q r _
    · exact .nil rfl
  | host b t =>
    cases b <;> first
      | exact .nil rfl
      | exact (finish p t).concat (o := .perform _) trivial

theorem next (p : Player) : Shift p.seat p.next := by
  rw [Player.next]
  split
  · exact advanceHandler ..
  · exact .nil rfl

theorem completeLoad (p : Player) (r : LoadRequest) (x : Except SourceError (List String)) :
    Shift p.seat ((p.completeLoad r x).1, []) := by
  unfold Player.completeLoad
  split
  · exact .nil (seat_trace ..)
  · next hn =>
    have hp : p.phase = .loading := Decidable.byContradiction fun h => hn (.inr h)
    cases x with
    | ok lines =>
      refine .answer .executing hp (.inl rfl) ?_ .nil
      dsimp only
      rw [seat_notify, ← seat_trace p .engine .info]
      rfl
    | error e => exact .answer .idle hp (.inr rfl) rfl .nil

theorem call (p : Player) {c : HostCall} (hc : c.turns = false) :
    Shift p.seat ((p.call c).1, (p.call c).2.2) := by
  cases c with
  | next => exact next p
  | settle => cases hc
  | advance d => cases hc
  | runMicrotasks => cases hc
  | goto s i => exact .jump (seat_goto ..) .nil
  | restore x v => exact .jump (seat_goto (p.present x v) ..) .nil
  | serve => cases hc
  | take =>
    rw [Player.call, takeRequest]
    cases p.loadRequest <;> exact .nil rfl
  | complete k lines =>
    simp only [Player.call]
    split
    · exact completeLoad ..
    · exact .nil rfl
  | set x v => exact .nil rfl
  | notify x => exact .nil rfl
  | effect name => exact .nil rfl
  | setVariable token v =>
    simp only [Player.call]
    split <;> exact .nil rfl
  | getVariable token =>
    simp only [Player.call]
    split <;> exact .nil rfl
  | observe x accepts once trigger times body => exact .nil rfl
  | unobserve x k =>
    simp only [Player.call]
    split <;> exact .nil rfl
  | speed s => exact .nil rfl
  | register opcode b body => cases hc
  | finish k =>
    simp only [Player.call]
    split
    · exact finish ..
    · exact .nil rfl

/-- A call that makes the loop turn leaves the seat to what happens then. -/
theorem call_of_turns (p : Player) {c : HostCall} (hc : c.turns = true) :
    (p.call c).1.seat = p.seat ∧ ∀ o ∈ (p.call c).2.2, ¬ o.Concludes := by
  cases c with
  | settle => exact ⟨rfl, by simp [Player.call, Order.settle, Order.Concludes]⟩
  | advance d => exact ⟨rfl, by simp [Player.call, Order.Concludes]⟩
  | runMicrotasks => exact ⟨rfl, by simp [Player.call, Order.Concludes]⟩
  | serve => exact ⟨rfl, by simp [Player.call, Order.settle, Order.Concludes]⟩
  | register opcode b body =>
    simp only [Player.call]
    split <;> exact ⟨rfl, by simp [Order.Concludes]⟩
  | _ => cases hc

/-! ### Deliveries -/

/-- What may happen to a seat when a cell is heard. -/
inductive Hearing (s : Seat) (r : Player × Orders) : Prop where
  /-- Nothing. -/
  | stay : r.1.seat = s → Light r.2 → Hearing s r
  /-- The script comes to an end, or to a scene that has to be loaded. -/
  | stop (phase : Phase) : phase = .idle ∨ phase = .loading →
      r.1.seat = { s.interrupt with phase } → Light r.2 → Hearing s r
  /-- There is nothing in the line. -/
  | leave : s.phase ≠ .loading → r.1.seat = { s.interrupt with phase := .executing } →
      Light r.2 → Hearing s r
  /-- The first instruction of the line begins. -/
  | start : s.phase ≠ .loading → Begins s.interrupt r → Hearing s r

theorem loadScene (p : Player) (scene : String) : Hearing p.seat (p.loadScene scene, []) := by
  have hs := seat_interrupt p
  rw [Player.loadScene]
  dsimp only
  split
  · refine .stop .idle (.inl rfl) ?_ .nil
    rw [← hs]
    rfl
  · refine .stop .loading (.inr rfl) ?_ .nil
    dsimp only
    rw [seat_trace, ← hs]
    rfl

theorem runLine (p : Player) (i : UInt64) : Hearing p.seat (p.runLine i) := by
  have hs := seat_interrupt p
  rw [Player.runLine]
  split
  · exact .stay (seat_trace ..) .nil
  · next hp =>
    dsimp only
    split
    · refine .stop .idle (.inl rfl) ?_ .nil
      rw [← hs]
      rfl
    · split
      · refine .stop .idle (.inl rfl) ?_ .nil
        rw [← hs]
        rfl
      · next line _ =>
        have ht := (seat_trace p.interrupt .engine .trace s!"[{i.toNat}] {line}").trans hs
        generalize p.interrupt.trace .engine .trace s!"[{i.toNat}] {line}" = q at ht ⊢
        have hq : { q with phase := .executing, queue := q.queue ++ Line.instructions line }.seat =
            { p.seat.interrupt with
              phase := .executing
              queue := q.queue ++ Line.instructions line } := by
          rw [← ht]
          rfl
        rcases runNext { q with
            phase := .executing, queue := q.queue ++ Line.instructions line } with
          ⟨hnil, hr, hl⟩ | hb
        · refine .leave hp (hr.trans (hq.trans ?_)) hl
          dsimp only at hnil
          rw [hnil]
          rfl
        · rw [hq] at hb
          exact .start hp ⟨hb.seat, hb.orders⟩

theorem reactTo (p : Player) (r : Reaction) (c : CellName) (v : c.Value) :
    Hearing p.seat (p.reactTo r c v) := by
  unfold Player.reactTo
  split
  · exact loadScene ..
  · exact runLine ..
  · exact .stay (seat_of_inside (inside_openPage _)) .nil
  · exact .stay rfl .nil
  · exact .stay (seat_react ..) (.react ..)
  · exact .stay rfl .nil

theorem hear (p : Player) (c : CellName) (k : Nat) (v : c.Value) :
    Hearing p.seat (perform (.hear c k v) p) := by
  unfold perform
  dsimp only
  split
  · exact reactTo (p.store c _) ..
  · exact .stay rfl .nil

/-- The answer of the player's own source. -/
theorem load (p : Player) : Shift p.seat (p.load.1, []) ∧ ∀ o ∈ p.load.2, ¬ o.Concludes := by
  unfold Player.load takeRequest
  cases p.loadRequest with
  | none => exact ⟨.nil rfl, fun o ho => absurd ho List.not_mem_nil⟩
  | some r =>
    refine ⟨completeLoad { p with loadRequest := none } .., fun o ho => ?_⟩
    rcases List.mem_cons.1 ho with rfl | ho
    · simp [Order.Concludes, Order.settle]
    · simp [List.mem_singleton.1 ho, Order.Concludes]

end Seat

end Novella
