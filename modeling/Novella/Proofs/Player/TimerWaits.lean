import Novella.Proofs.Player.KnownNumberSteps

/-!
# Waits for a timer

A command may have its instruction wait for a timer. It starts the timer, whose callback is going to
finish the instruction, and leaves it behind as the handler of input. Nobody else knows the timer or
its timeout, and nobody else can give the ticket of the instruction back. So the wait goes its way
whatever happens around it: it is over when the timer rings, or in the first turn of the loop after
the first input, and then the instruction is finished, once. Only an interruption breaks it off.

## Main definitions

* `Wait` — an instruction and the timer that it waits for
* `Wait.others` — the realm of all that is not about the wait
* `Wait.due` — when the wait is over
* `Wait.Stage` — how far it has come

## Main results

* `Wait.Stage.begins` — how a wait begins
* `Wait.Stage.run` — a wait goes from stage to stage in every run
* `Wait.Stage.punctual`, `Wait.Stage.patient` — when the instruction is finished
-/

namespace Novella

open Player

/-! ### Waits -/

/-- The wait of an instruction for a timer. -/
structure Wait where
  /-- The generation of the instruction. -/
  generation : Nat
  /-- The number of the timer. -/
  timer : Nat

namespace Machine

/-- The ticket that is given back next. -/
def finish? (m : Machine Player Task) : Option Ticket :=
  match m.agenda with
  | .perform (.finish t) :: _ => some t
  | _ => none

/-- The timer whose wait ends with the input that comes next. -/
def hurry? (m : Machine Player Task) : Option Nat :=
  match m.agenda, m.world.active with
  | .perform (.call _ .next) :: _, some (.timer k) => some k
  | _, _ => none

/-- The time to which the machine was to run, if all that is due by then has been done. -/
def arrival? (m : Machine Player Task) : Option Nat :=
  match m.agenda with
  | .runUntil target :: _ =>
    if ∀ u ∈ m.world.schedule.loop.timeouts.head?, target < u.deadline then some target else none
  | _ => none

variable {m : Machine Player Task}

/-- A machine that arrives passes no timeout. -/
theorem lt_of_arrival? {target : Nat} (hn : m.world.schedule.Neat)
    (ha : m.arrival? = some target) {u : Timeout Task}
    (hu : u ∈ m.world.schedule.loop.timeouts) : target < u.deadline := by
  unfold Machine.arrival? at ha
  split at ha
  · split at ha
    · next hidle =>
      cases ha
      exact hn.lt_deadline hidle hu
    · cases ha
  · cases ha

theorem arrival?_of_perform {t : Task} {rest : Orders} (hag : m.agenda = .perform t :: rest) :
    m.arrival? = none := by
  unfold Machine.arrival?
  rw [hag]

end Machine

namespace Wait

variable (w : Wait)

/-- The ticket of the instruction. -/
def ticket : Ticket := .instruction w.generation

/-- All that is not about the wait, while the number of its timeout is `id`. -/
def others (id : Nat) : Realm := ⟨(· ≠ w.ticket), (· ≠ w.timer), (· ≠ id), fun _ => True⟩

/-- When the wait is over: at the first input for it, and without any at the given time. -/
def due (d : Nat) (h : List (Machine Player Task)) : Nat :=
  ((h.filter (fun n => n.hurry? = some w.timer)).getLast?.map Machine.now).getD d

/-- The numbers of the wait have been given out. -/
structure Given (id : Nat) (p : Player) : Prop where
  /-- The instruction has begun. -/
  generation : w.generation ≤ p.generation
  /-- The timer exists. -/
  timer : w.timer < p.schedule.timers.size
  /-- The timeout has been scheduled. -/
  timeout : id < p.schedule.loop.nextId

/-- The timer is at rest. -/
def Rests (p : Player) : Prop := ∃ x, p.schedule.timers[w.timer]? = some x ∧ x.handle = none ∧
  (x.state = .finished ∨ x.state = .cancelled)

/-- The timer runs and is going to finish the instruction. -/
def Runs (id : Nat) (p : Player) : Prop := ∃ x, p.schedule.timers[w.timer]? = some x ∧
  x.repeats = false ∧ x.callback = .finish w.ticket ∧ x.state = .running ∧ x.handle = some id

variable {w} {id : Nat} {p q : Player} {d : Nat} {h : List (Machine Player Task)}
  {m : Machine Player Task}

/-! #### When it is over -/

theorem due_eq_of_forall (hn : ∀ n ∈ h, n.hurry? ≠ some w.timer) : w.due d h = d := by
  have hf : h.filter (fun n => n.hurry? = some w.timer) = [] :=
    List.filter_eq_nil_iff.2 fun n hm => by simp [hn n hm]
  rw [due, hf]
  rfl

theorem due_cons_of_ne (hm : m.hurry? ≠ some w.timer) : w.due d (m :: h) = w.due d h := by
  rw [due, List.filter_cons_of_neg (by simp [hm]), due]

/-- The first input counts. -/
theorem due_cons_of_exists (hx : ∃ n ∈ h, n.hurry? = some w.timer) :
    w.due d (m :: h) = w.due d h := by
  by_cases hm : m.hurry? = some w.timer
  · obtain ⟨n, hn, hk⟩ := hx
    have hne : h.filter (fun n => n.hurry? = some w.timer) ≠ [] :=
      List.ne_nil_of_mem (List.mem_filter.2 ⟨hn, by simp [hk]⟩)
    rw [due, List.filter_cons_of_pos (by simp [hm]), List.getLast?_cons_of_ne_nil hne, due]
  · exact due_cons_of_ne hm

theorem due_cons (hm : m.hurry? = some w.timer) (hn : ∀ n ∈ h, n.hurry? ≠ some w.timer) :
    w.due d (m :: h) = m.now := by
  have hf : h.filter (fun n => n.hurry? = some w.timer) = [] :=
    List.filter_eq_nil_iff.2 fun n hm => by simp [hn n hm]
  rw [due, List.filter_cons_of_pos (by simp [hm]), hf]
  rfl

/-! #### What others leave alone -/

theorem Given.takes (hg : w.Given id p) (q : Player) : (w.others id).Takes p q := by
  refine ⟨⟨fun hle _ => ?_, fun hle _ => ?_⟩, fun hlt _ => ?_, fun _ _ => trivial⟩
  · exact Nat.ne_of_gt (Nat.lt_of_lt_of_le hg.timer hle)
  · exact Nat.ne_of_gt (Nat.lt_of_lt_of_le hg.timeout hle)
  · intro heq
    have hgen := Ticket.instruction.inj heq
    have hle := hg.generation
    omega

theorem Given.later (hg : w.Given id p) (h : p.Precedes q) : w.Given id q :=
  ⟨Nat.le_trans hg.generation h.generation, Nat.lt_of_lt_of_le hg.timer h.size,
    Nat.lt_of_lt_of_le hg.timeout h.nextId⟩

theorem Given.abides (hg : w.Given id p) (h : p.Abides (w.others id) q) : w.Given id q :=
  hg.later h.toPrecedes

theorem Given.timer_eq (hg : w.Given id p) (h : p.Abides (w.others id) q) :
    q.schedule.timers[w.timer]? = p.schedule.timers[w.timer]? :=
  h.apart.schedule.timer hg.timer fun hn => hn rfl

theorem Given.mem_iff (hg : w.Given id p) (h : p.Abides (w.others id) q) {u : Timeout Task}
    (hu : u.id = id) : u ∈ q.schedule.loop.timeouts ↔ u ∈ p.schedule.loop.timeouts := by
  subst hu
  exact h.apart.schedule.timeout hg.timeout fun hn => hn rfl

theorem Given.live_eq (h : p.Abides (w.others id) q) :
    q.live.count w.ticket = p.live.count w.ticket :=
  h.apart.live fun hn => hn rfl

/-- All handlers are among the others but the timer of the wait. -/
theorem eq_of_not_has {x : Handler} (h : ¬ (w.others id).Has p x) : x = .timer w.timer := by
  cases x with
  | timer k => exact congrArg _ (Decidable.not_not.1 (Classical.not_imp.1 h).2)
  | reveal r => exact absurd (fun _ => trivial) h
  | _ => exact absurd trivial h

/-! #### How far it has come -/

/-- The instruction has not been finished, and all others mind their own business. -/
structure Open (w : Wait) (id : Nat) (h : List (Machine Player Task)) (p : Player)
    (agenda : Orders) : Prop where
  /-- The others do. -/
  within : Machine.In (w.others id) ⟨p, agenda⟩
  /-- The numbers have been given out. -/
  given : w.Given id p
  /-- The ticket is there, and only once. -/
  live : p.live.count w.ticket = 1
  /-- It has not been given back. -/
  unfinished : ∀ n ∈ h, n.finish? ≠ some w.ticket

/-- How far the wait has come. Without input it is over at the time `d`. -/
inductive Stage (w : Wait) (d : Nat) (h : List (Machine Player Task)) (m : Machine Player Task) :
    Prop where
  /-- The timer runs. -/
  | counting {id : Nat} : w.Open id h m.world m.agenda → w.Runs id m.world →
      ⟨d, id, .ring w.timer⟩ ∈ m.world.schedule.loop.timeouts → m.now ≤ d →
      (∀ n ∈ h, n.hurry? ≠ some w.timer) → Stage w d h m
  /-- It is about to ring. -/
  | ringing {id : Nat} {rest : Orders} : m.agenda = .perform (.ring w.timer) :: rest →
      w.Open id h m.world rest → w.Runs id m.world →
      (∀ u ∈ m.world.schedule.loop.timeouts, u.id ≠ id) → m.now = d →
      (∀ n ∈ h, n.hurry? ≠ some w.timer) → Stage w d h m
  /-- Input has come. -/
  | hurried {id : Nat} : w.Open id h m.world m.agenda → w.Rests m.world →
      ⟨w.due d h, id, .finish w.ticket⟩ ∈ m.world.schedule.loop.timeouts → m.now ≤ w.due d h →
      (∃ n ∈ h, n.hurry? = some w.timer) → Stage w d h m
  /-- The instruction is about to be finished. -/
  | finishing {id : Nat} {rest : Orders} : m.agenda = .perform (.finish w.ticket) :: rest →
      w.Open id h m.world rest → w.Rests m.world →
      (∀ u ∈ m.world.schedule.loop.timeouts, u.id ≠ id) → m.now = w.due d h → Stage w d h m
  /-- It has been finished, or the wait has been broken off. -/
  | past {id : Nat} : m.In (w.others id) → w.Given id m.world → w.Rests m.world →
      (∀ u ∈ m.world.schedule.loop.timeouts, u.id ≠ id) →
      (∃ n ∈ h, n.finish? = some w.ticket) ∨ w.generation < m.world.generation → Stage w d h m

/-! #### What happens to the timer -/

theorem Runs.abides (hr : w.Runs id p) (hg : w.Given id p) (h : p.Abides (w.others id) q) :
    w.Runs id q := by
  obtain ⟨x, hx, hx'⟩ := hr
  exact ⟨x, (hg.timer_eq h).trans hx, hx'⟩

theorem Rests.abides (hr : w.Rests p) (hg : w.Given id p) (h : p.Abides (w.others id) q) :
    w.Rests q := by
  obtain ⟨x, hx, hx'⟩ := hr
  exact ⟨x, (hg.timer_eq h).trans hx, hx'⟩

/-- The timer rings. -/
theorem Runs.ring (hr : w.Runs id p) : ∃ x, p.schedule.timers[w.timer]? = some x ∧
    p.schedule.ring .ring w.timer =
      (p.schedule.setTimer w.timer (x.stopped .finished), some (.finish w.ticket)) := by
  obtain ⟨x, hx, hrep, hc, hs, -⟩ := hr
  refine ⟨x, hx, ?_⟩
  simp [Schedule.ring, hx, Timer.isPending, Timer.stopped, hs, hrep, hc]

/-- Input ends the wait of the timer. -/
theorem Runs.skip (hr : w.Runs id p) : ∃ x, p.schedule.timers[w.timer]? = some x ∧
    (p.schedule.skip w.timer).1 =
      { p.schedule.setTimer w.timer (x.stopped .finished) with
        loop := (p.schedule.loop.clearTimeout id).setTimeout 0 (.finish w.ticket) } := by
  obtain ⟨x, hx, -, hc, hs, hid⟩ := hr
  refine ⟨x, hx, ?_⟩
  simp [Schedule.skip, Schedule.disarm, Timer.stopped, hx, hs, hc, hid]

/-- The timer is cancelled. -/
theorem Runs.cancel (hr : w.Runs id p) : ∃ x, p.schedule.timers[w.timer]? = some x ∧
    p.schedule.cancel w.timer =
      { p.schedule.setTimer w.timer (x.stopped .cancelled) with
        loop := p.schedule.loop.clearTimeout id } := by
  obtain ⟨x, hx, -, -, hs, hid⟩ := hr
  refine ⟨x, hx, ?_⟩
  simp [Schedule.cancel, Schedule.disarm, Timer.stopped, hx, hs, hid]

/-! #### Steps -/

theorem hurry?_eq {k : Nat} (hk : m.hurry? = some k) :
    (∃ a rest, m.agenda = .perform (.call a .next) :: rest) ∧ m.world.active = some (.timer k) := by
  unfold Machine.hurry? at hk
  split at hk
  · next a rest j hag hact =>
    cases hk
    exact ⟨⟨a, rest, hag⟩, hact⟩
  · cases hk

theorem hurry?_of_next {a : Audience} {rest : Orders} {k : Nat}
    (hag : m.agenda = .perform (.call a .next) :: rest) (hact : m.world.active = some (.timer k)) :
    m.hurry? = some k := by
  simp only [Machine.hurry?, hag, hact]

/-- Input for a timer. -/
theorem step_of_next {a : Audience} {rest : Orders} {k : Nat}
    (hag : m.agenda = .perform (.call a .next) :: rest) (hact : m.world.active = some (.timer k)) :
    m.step = ⟨{ m.world with schedule := (m.world.schedule.skip k).1 },
      .perform (.report a .none) :: rest⟩ := by
  rw [Machine.step_of_perform hag]
  simp only [Player.perform, Player.call, Player.next, hact, Player.advanceHandler]
  rfl

/-- The others do not finish the instruction. -/
theorem finish?_ne (hin : m.In (w.others id)) : m.finish? ≠ some w.ticket := by
  intro hf
  unfold Machine.finish? at hf
  split at hf
  · next t rest hag =>
    cases hf
    have hout : (Order.perform (.finish w.ticket)).In (w.others id) :=
      hin.agenda (hag ▸ List.mem_cons_self)
    exact hout rfl
  · cases hf

namespace Open

variable {agenda : Orders}

theorem cons (ho : w.Open id h p agenda) (hn : m.finish? ≠ some w.ticket) :
    w.Open id (m :: h) p agenda :=
  ⟨ho.within, ho.given, ho.live, List.forall_mem_cons.2 ⟨hn, ho.unfinished⟩⟩

/-- The others go on. -/
theorem abides (ho : w.Open id h p agenda) (ha : p.Abides (w.others id) q) {orders : Orders}
    (hin : ∀ o ∈ orders, o.In (w.others id)) : w.Open id h q orders :=
  ⟨⟨ha.neat, ha.within, hin _⟩, ho.given.abides ha, (Given.live_eq ha).trans ho.live, ho.unfinished⟩

theorem step (ho : w.Open id h m.world m.agenda) (ha : m.Abides (w.others id)) :
    w.Open id (m :: h) m.step.world m.step.agenda :=
  (ho.cons (finish?_ne ho.within)).abides ha.world fun _ => ha.agenda

theorem reorder (ho : w.Open id h p agenda) {orders : Orders}
    (hin : ∀ o ∈ orders, o.In (w.others id)) : w.Open id h p orders :=
  ⟨⟨ho.within.neat, ho.within.world, hin _⟩, ho.given, ho.live, ho.unfinished⟩

/-- The timeout of the wait is due. -/
theorem due (ho : w.Open id h m.world m.agenda) {u : Timeout Task} {us : List (Timeout Task)}
    {target : Nat} {rest : Orders} (hag : m.agenda = .runUntil target :: rest)
    (hs : m.world.schedule.loop.timeouts = u :: us) (hle : u.deadline ≤ target) (hid : u.id = id) :
    m.step.agenda = .perform u.task :: .drain :: .runUntil target :: rest ∧
      w.Open id (m :: h) m.step.world (.drain :: .runUntil target :: rest) ∧
      (∀ v ∈ m.step.world.schedule.loop.timeouts, v.id ≠ id) ∧ m.step.now = u.deadline ∧
      m.step.world.schedule.timers = m.world.schedule.timers := by
  obtain ⟨hag', hin, hother, hworld⟩ := ho.within.due hag hs hle
  have hn := (ho.cons (finish?_ne ho.within)).unfinished
  rw [hworld] at hother hin ⊢
  exact ⟨hag', ⟨hin, ⟨ho.given.generation, ho.given.timer, ho.given.timeout⟩, ho.live, hn⟩,
    hid ▸ hother, congrArg (·.schedule.loop.now) hworld, rfl⟩

end Open

theorem rests_setTimer {s : Schedule Task} {x : Timer Task} {l : Loop Task}
    (hx : p.schedule.timers[w.timer]? = some x) {st : TimerState}
    (hst : st = .finished ∨ st = .cancelled) (hs : s = { p.schedule.setTimer w.timer
      (x.stopped st) with loop := l }) : w.Rests { p with schedule := s } := by
  subst hs
  exact ⟨_, Schedule.getElem?_setTimer_self hx _, rfl, hst⟩

/-- An interruption breaks the wait off. -/
theorem Runs.interrupt (hr : w.Runs id p) (ha : p.active = some (.timer w.timer)) :
    w.Rests p.interrupt ∧ ∀ u ∈ p.interrupt.schedule.loop.timeouts, u.id ≠ id := by
  obtain ⟨x, hx, hc⟩ := hr.cancel
  rw [interrupt_of_timer ha, hc]
  refine ⟨⟨_, Schedule.getElem?_setTimer_self hx _, rfl, .inr rfl⟩, fun u hu => ?_⟩
  simpa using (List.mem_filter.1 hu).2

/-- With input the wait gets another timeout, which is due at once. -/
theorem Open.skip {agenda : Orders} (ho : w.Open id h p agenda) (hr : w.Runs id p) :
    w.Open p.schedule.loop.nextId h { p with schedule := (p.schedule.skip w.timer).1 } agenda ∧
      w.Rests { p with schedule := (p.schedule.skip w.timer).1 } ∧
      ⟨p.schedule.loop.now, p.schedule.loop.nextId, .finish w.ticket⟩ ∈
        (p.schedule.skip w.timer).1.loop.timeouts := by
  have ha := Schedule.Alters.skip p.schedule w.timer
  obtain ⟨x, hx, hs⟩ := hr.skip
  have hw := ho.within.world
  have hneat := (Schedule.Alters.clearTimeout _ id).neat
    (ho.within.neat.setTimer hx (y := x.stopped .finished) rfl)
  have hin : (p.schedule.skip w.timer).1.In (w.others p.schedule.loop.nextId) := by
    have hrest := ((hw.schedule.setTimer hx (fun hn => hn rfl)
      (x.stopped .finished)).clearTimeout id).renumber hneat
        fun u hu => (by simpa using (List.mem_filter.1 hu).2 : u.id ≠ id)
    rw [hs]
    exact hrest.setTimeout (fun hn => hn rfl) 0 (.finish w.ticket)
  have hnext : p.schedule.loop.nextId < (p.schedule.skip w.timer).1.loop.nextId := by
    rw [hs]
    exact Nat.lt_succ_self _
  refine ⟨⟨⟨ha.neat ho.within.neat, ⟨hin, hw.reveal, hw.ticket, fun {x} hh => ?_⟩,
      fun hm => (ho.within.agenda hm).renumber _⟩,
    ⟨ho.given.generation, Nat.lt_of_lt_of_le ho.given.timer ha.size, hnext⟩, ho.live,
    ho.unfinished⟩, rests_setTimer hx (.inl rfl) hs, ?_⟩
  · have hholds : (Order.perform (.conclude w.ticket (.pending x))).In (w.others id) :=
      hw.active hh
    exact hholds.renumber _
  · rw [hs]
    exact Loop.mem_insertTimeout.2 (.inl rfl)

/-- The timer runs on, or it is about to ring, or input has come, or it is cancelled. -/
theorem Stage.counting_step (ho : w.Open id h m.world m.agenda) (hr : w.Runs id m.world)
    (hu : ⟨d, id, .ring w.timer⟩ ∈ m.world.schedule.loop.timeouts) (hnow : m.now ≤ d)
    (hn : ∀ n ∈ h, n.hurry? ≠ some w.timer) : w.Stage d (m :: h) m.step := by
  have hf := finish?_ne ho.within
  by_cases hh : m.hurry? = some w.timer
  · obtain ⟨⟨a, rest, hag⟩, hact⟩ := hurry?_eq hh
    have hstep := step_of_next hag hact
    obtain ⟨hskip, hrest, hmem⟩ := (ho.cons hf).skip hr
    have hdue : w.due d (m :: h) = m.now := due_cons hh hn
    have hsnow : m.step.now = m.now := by
      rw [hstep]
      exact (Schedule.Alters.skip m.world.schedule w.timer).now
    have hopen : w.Open m.world.schedule.loop.nextId (m :: h) m.step.world m.step.agenda := by
      rw [hstep]
      refine hskip.reorder fun o ho => ?_
      rcases List.mem_cons.1 ho with rfl | ho
      · trivial
      · exact hskip.within.agenda (hag ▸ List.mem_cons_of_mem _ ho)
    refine .hurried hopen ?_ ?_ (hdue ▸ Nat.le_of_eq hsnow) ⟨m, List.mem_cons_self, hh⟩
    · rw [hstep]
      exact hrest
    · rw [hstep, hdue]
      exact hmem
  · have hn' : ∀ n ∈ m :: h, n.hurry? ≠ some w.timer := List.forall_mem_cons.2 ⟨hh, hn⟩
    cases ho.within.outing ho.given.takes with
    | home ha =>
      exact .counting (ho.step ha) (hr.abides ho.given ha.world)
        ((ho.given.mem_iff ha.world rfl).2 hu) (ha.now hu hnow) hn'
    | skips hag hact hx =>
      obtain rfl := eq_of_not_has hx
      exact absurd (hurry?_of_next hag hact) hh
    | ticked _ _ hr => exact absurd trivial hr
    | @breaks q x hq hqnow hact hx hx' hnow' horders =>
      obtain rfl := eq_of_not_has hx
      have hi := Dwells.interrupt q
      obtain ⟨hrest, hnone⟩ := (hr.abides ho.given hq).interrupt hact
      have hg := (ho.given.abides hq).later hi.toPrecedes
      have hgen : q.generation < q.interrupt.generation := by
        rw [interrupt_of_timer hact]
        exact Nat.lt_succ_self _
      refine .past ⟨hx'.neat, hx'.within, horders⟩ (hg.abides hx') (hrest.abides hg hx')
        (fun u hu hid => ?_) (.inr ?_)
      · exact hnone u ((hg.mem_iff hx' hid).1 hu) hid
      · exact Nat.lt_of_le_of_lt ho.given.generation (Nat.lt_of_le_of_lt hq.generation
          (Nat.lt_of_lt_of_le hgen hx'.generation))
    | @due u us target rest hag hs hle hid =>
      have hid : u.id = id := Decidable.not_not.1 hid
      obtain ⟨hag', ho', hnone, hnow', htimers⟩ := ho.due hag hs hle hid
      obtain rfl : u = ⟨d, id, .ring w.timer⟩ := Loop.InOrder.eq_of_id_eq ho.within.neat.distinct
        (hs ▸ List.mem_cons_self) hu hid
      refine .ringing hag' ho' ?_ hnone hnow' hn'
      rw [Wait.Runs, htimers]
      exact hr

/-- The timer rings. -/
theorem Stage.ringing_step {rest : Orders} (hag : m.agenda = .perform (.ring w.timer) :: rest)
    (ho : w.Open id h m.world rest) (hr : w.Runs id m.world)
    (hnone : ∀ u ∈ m.world.schedule.loop.timeouts, u.id ≠ id) (hnow : m.now = d)
    (hn : ∀ n ∈ h, n.hurry? ≠ some w.timer) : w.Stage d (m :: h) m.step := by
  have hh : m.hurry? ≠ some w.timer := by
    unfold Machine.hurry?
    rw [hag]
    exact nofun
  have hf : m.finish? ≠ some w.ticket := by
    unfold Machine.finish?
    rw [hag]
    exact nofun
  obtain ⟨x, hx, hring⟩ := hr.ring
  have hstep : m.step =
      ⟨{ m.world with schedule := m.world.schedule.setTimer w.timer (x.stopped .finished) },
        .perform (.finish w.ticket) :: rest⟩ := by
    rw [Machine.step_of_perform hag]
    simp only [Player.perform, hring]
    rfl
  have hdue : w.due d (m :: h) = d := due_eq_of_forall (List.forall_mem_cons.2 ⟨hh, hn⟩)
  have hw := ho.within.world
  rw [hstep]
  have hin : { m.world with
      schedule := m.world.schedule.setTimer w.timer (x.stopped .finished) }.In (w.others id) :=
    ⟨hw.schedule.setTimer hx (fun hn => hn rfl) _, hw.reveal, hw.ticket, hw.active⟩
  refine .finishing rfl ⟨⟨ho.within.neat.setTimer hx rfl, hin, ho.within.agenda⟩,
    ⟨ho.given.generation, ?_, ho.given.timeout⟩, ho.live, (ho.cons hf).unfinished⟩
    (rests_setTimer hx (.inl rfl) rfl) hnone (hnow.trans hdue.symm)
  rw [Schedule.size_setTimer]
  exact ho.given.timer

/-- The instruction is finished. -/
theorem Stage.finishing_step {rest : Orders} (hag : m.agenda = .perform (.finish w.ticket) :: rest)
    (ho : w.Open id h m.world rest) (hr : w.Rests m.world)
    (hnone : ∀ u ∈ m.world.schedule.loop.timeouts, u.id ≠ id) : w.Stage d (m :: h) m.step := by
  have hf : m.finish? = some w.ticket := by
    unfold Machine.finish?
    rw [hag]
  have hmem : w.ticket ∈ m.world.live := List.count_pos_iff.1 (ho.live ▸ Nat.zero_lt_one)
  have hw := ho.within.world
  -- once the ticket is gone what follows is no business of the wait
  let p := { m.world with live := m.world.live.erase w.ticket }
  have hp : p.In (w.others id) := ⟨hw.schedule, hw.reveal, hw.ticket, hw.active⟩
  have hg : w.Given id p := ⟨ho.given.generation, ho.given.timer, ho.given.timeout⟩
  have hends : Ends (fun _ => True) p (m.world.finish w.ticket) := .finish_of_mem hmem (.refl _)
  obtain ⟨ha, horders⟩ := hends.remains.abides trivial (hg.takes _) ho.within.neat hp
  rw [Machine.step_of_perform hag]
  refine .past ⟨ha.neat, ha.within, fun hm => ?_⟩ (hg.abides ha) (Rests.abides (p := p) hr hg ha)
    (fun u hu hid => ?_) (.inl ⟨m, List.mem_cons_self, hf⟩)
  · rcases List.mem_append.1 hm with hm | hm
    · exact horders _ hm
    · exact ho.within.agenda hm
  · exact hnone u ((hg.mem_iff ha hid).1 hu) hid

/-- A timer at rest is no concern of an interruption. -/
theorem Rests.interrupt (hr : w.Rests p) (hn : p.schedule.Neat) (hin : p.In (w.others id))
    (ha : p.active = some (.timer w.timer)) : p.Abides (w.others id) p.interrupt := by
  obtain ⟨x, hx, hh, hs⟩ := hr
  have hi := interrupt_of_timer ha
  rw [Schedule.cancel_of_rest hx hh hs] at hi
  have hwithin := hin.interrupt
  rw [hi] at hwithin ⊢
  exact ⟨⟨Nat.le_refl _, Nat.le_refl _, Nat.le_succ _, Nat.le_refl _⟩, hn, hwithin,
    ⟨⟨fun _ _ => rfl, fun _ _ => Iff.rfl⟩, fun _ => rfl, fun _ _ => rfl⟩⟩

/-- Nor is it one of input. -/
theorem Rests.step_of_hurry (hr : w.Rests m.world) {a : Audience} {rest : Orders}
    (hag : m.agenda = .perform (.call a .next) :: rest)
    (hact : m.world.active = some (.timer w.timer)) :
    m.step = ⟨m.world, .perform (.report a .none) :: rest⟩ := by
  obtain ⟨x, hx, -, hs⟩ := hr
  rw [step_of_next hag hact, Schedule.skip_of_rest hx hs]

/-- What a step does when the timer is at rest. -/
inductive AtRest (w : Wait) (id : Nat) (m : Machine Player Task) : Prop where
  /-- The others go on. -/
  | abides : m.Abides (w.others id) → AtRest w id m
  /-- The timeout of the wait is due. -/
  | due {u : Timeout Task} {us : List (Timeout Task)} {target : Nat} {rest : Orders} :
      m.agenda = .runUntil target :: rest → m.world.schedule.loop.timeouts = u :: us →
      u.deadline ≤ target → u.id = id → AtRest w id m

theorem Rests.step (hr : w.Rests m.world) (hin : m.In (w.others id)) (hg : w.Given id m.world) :
    w.AtRest id m := by
  cases hin.outing hg.takes with
  | home ha => exact .abides ha
  | ticked _ _ hr => exact absurd trivial hr
  | @skips x a rest hag hact hx =>
    obtain rfl := eq_of_not_has hx
    have hstep := hr.step_of_hurry hag hact
    have hself : m.world.Abides (w.others id) m.step.world := by
      rw [hstep]
      exact .take hin.neat hin.world m.now (fun _ ht => ht) (List.Sublist.refl _) fun _ hu _ => hu
    refine .abides ⟨hself, fun ho => ?_, fun _ hle => ?_⟩
    · rw [hstep] at ho
      rcases List.mem_cons.1 ho with rfl | ho
      · trivial
      · exact hin.agenda (hag ▸ List.mem_cons_of_mem _ ho)
    · rw [hstep]
      exact hle
  | @breaks q x hq hqnow hact hx hx' hnow horders =>
    obtain rfl := eq_of_not_has hx
    have hi := (hr.abides hg hq).interrupt hq.neat hq.within hact
    exact .abides ⟨(hq.trans hi).trans hx', horders,
      fun _ hle => Nat.le_trans (Nat.le_of_eq hnow) hle⟩
  | due hag hs hle hid => exact .due hag hs hle (Decidable.not_not.1 hid)

/-- Once input has come the instruction is finished as soon as the loop turns. -/
theorem Stage.hurried_step (ho : w.Open id h m.world m.agenda) (hr : w.Rests m.world)
    (hu : ⟨w.due d h, id, .finish w.ticket⟩ ∈ m.world.schedule.loop.timeouts)
    (hnow : m.now ≤ w.due d h) (hx : ∃ n ∈ h, n.hurry? = some w.timer) :
    w.Stage d (m :: h) m.step := by
  have hdue : w.due d (m :: h) = w.due d h := due_cons_of_exists hx
  cases hr.step ho.within ho.given with
  | abides ha =>
    refine .hurried (ho.step ha) (hr.abides ho.given ha.world) ?_ (hdue ▸ ha.now hu hnow) ?_
    · rw [hdue]
      exact (ho.given.mem_iff ha.world rfl).2 hu
    · obtain ⟨n, hn, hk⟩ := hx
      exact ⟨n, List.mem_cons_of_mem _ hn, hk⟩
  | @due u us target rest hag hs hle hid =>
    obtain ⟨hag', ho', hnone, hnow', htimers⟩ := ho.due hag hs hle hid
    obtain rfl : u = ⟨w.due d h, id, .finish w.ticket⟩ :=
      Loop.InOrder.eq_of_id_eq ho.within.neat.distinct (hs ▸ List.mem_cons_self) hu hid
    refine .finishing hag' ho' ?_ hnone (hnow'.trans hdue.symm)
    rw [Wait.Rests, htimers]
    exact hr

/-- What is over stays so. -/
theorem Stage.past_step (hin : m.In (w.others id)) (hg : w.Given id m.world) (hr : w.Rests m.world)
    (hnone : ∀ u ∈ m.world.schedule.loop.timeouts, u.id ≠ id)
    (ho : (∃ n ∈ h, n.finish? = some w.ticket) ∨ w.generation < m.world.generation) :
    w.Stage d (m :: h) m.step := by
  cases hr.step hin hg with
  | abides ha =>
    refine .past ⟨ha.world.neat, ha.world.within, ha.agenda⟩ (hg.abides ha.world)
      (hr.abides hg ha.world) (fun u hu hid => hnone u ((hg.mem_iff ha.world hid).1 hu) hid) ?_
    rcases ho with ⟨n, hn, hf⟩ | hlt
    · exact .inl ⟨n, List.mem_cons_of_mem _ hn, hf⟩
    · exact .inr (Nat.lt_of_lt_of_le hlt ha.world.generation)
  | due _ hs _ hid => exact absurd hid (hnone _ (hs ▸ List.mem_cons_self))

/-- **One step.** The wait goes from stage to stage. -/
theorem Stage.step (hs : w.Stage d h m) : w.Stage d (m :: h) m.step := by
  cases hs with
  | counting ho hr hu hnow hn => exact counting_step ho hr hu hnow hn
  | ringing hag ho hr hnone hnow hn => exact ringing_step hag ho hr hnone hnow hn
  | hurried ho hr hu hnow hx => exact hurried_step ho hr hu hnow hx
  | finishing hag ho hr hnone _ => exact finishing_step hag ho hr hnone
  | past hin hg hr hnone ho => exact past_step hin hg hr hnone ho

/-- The host has its turn. -/
theorem Stage.turn {x : Player × Orders} (hs : w.Stage d h ⟨p, []⟩) (ht : p.Turn x) :
    w.Stage d h (continuing x) := by
  have abides {id : Nat} (hg : w.Given id p) (hn : p.schedule.Neat) (hp : p.In (w.others id)) :
      p.Abides (w.others id) x.1 ∧ ∀ o ∈ x.2, o.In (w.others id) :=
    ht.toRemains.abides trivial (hg.takes _) hn hp
  cases hs with
  | counting ho hr hu hle hn =>
    obtain ⟨ha, hin⟩ := abides ho.given ho.within.neat ho.within.world
    exact .counting (ho.abides ha hin) (hr.abides ho.given ha) ((ho.given.mem_iff ha rfl).2 hu)
      (Nat.le_trans (Nat.le_of_eq ht.now) hle) hn
  | ringing hag => cases hag
  | finishing hag => cases hag
  | hurried ho hr hu hle hx =>
    obtain ⟨ha, hin⟩ := abides ho.given ho.within.neat ho.within.world
    exact .hurried (ho.abides ha hin) (hr.abides ho.given ha) ((ho.given.mem_iff ha rfl).2 hu)
      (Nat.le_trans (Nat.le_of_eq ht.now) hle) hx
  | past hw hg hr hnone ho =>
    obtain ⟨ha, hin⟩ := abides hg hw.neat hw.world
    exact .past ⟨ha.neat, ha.within, hin _⟩ (hg.abides ha) (hr.abides hg ha)
      (fun u hu hid => hnone u ((hg.mem_iff ha hid).1 hu) hid)
      (ho.imp_right fun hlt => Nat.lt_of_lt_of_le hlt ha.generation)

/-- **Runs.** So it does in every run. -/
theorem Stage.run {P : HostCall → Prop} {h' : List (Machine Player Task)} {n : Machine Player Task}
    (hs : w.Stage d [] m) (r : Run P m h' n) : w.Stage d h' n :=
  r.preserves hs (fun _ ih => ih.step) fun ih ht => ih.turn ht

/-! #### What is known of it -/

/-- **When it ends.** The instruction is finished once at most, while its ticket is still there, and
that is when the wait is over. -/
theorem Stage.punctual (hs : w.Stage d h m) (hf : m.finish? = some w.ticket) :
    (∀ n ∈ h, n.finish? ≠ some w.ticket) ∧ w.ticket ∈ m.world.live ∧ m.now = w.due d h := by
  cases hs with
  | counting ho => exact absurd hf (finish?_ne ho.within)
  | ringing hag =>
    unfold Machine.finish? at hf
    rw [hag] at hf
    cases hf
  | hurried ho => exact absurd hf (finish?_ne ho.within)
  | finishing _ ho _ _ hnow =>
    exact ⟨ho.unfinished, List.count_pos_iff.1 (ho.live ▸ Nat.zero_lt_one), hnow⟩
  | past hin => exact absurd hf (finish?_ne hin)

/-- **It does end.** As long as nobody has broken it off time does not get past its end. -/
theorem Stage.patient (hs : w.Stage d h m) (hn : ∀ n ∈ h, n.finish? ≠ some w.ticket)
    (hg : m.world.generation = w.generation) :
    m.now ≤ w.due d h ∧ ∀ target, m.arrival? = some target → target < w.due d h := by
  cases hs with
  | counting ho hr hu hnow hx =>
    rw [due_eq_of_forall hx]
    exact ⟨hnow, fun _ ha => Machine.lt_of_arrival? ho.within.neat ha hu⟩
  | ringing hag ho hr hnone hnow hx =>
    rw [due_eq_of_forall hx]
    refine ⟨Nat.le_of_eq hnow, fun _ ha => ?_⟩
    rw [Machine.arrival?_of_perform hag] at ha
    cases ha
  | hurried ho hr hu hnow hx =>
    exact ⟨hnow, fun _ ha => Machine.lt_of_arrival? ho.within.neat ha hu⟩
  | finishing hag ho hr hnone hnow =>
    refine ⟨Nat.le_of_eq hnow, fun _ ha => ?_⟩
    rw [Machine.arrival?_of_perform hag] at ha
    cases ha
  | past hin hgiven hr hnone ho =>
    rcases ho with ⟨n, hm, hf⟩ | hlt
    · exact absurd hf (hn n hm)
    · exact absurd hg (Nat.ne_of_gt hlt)

end Wait

/-! ### How a wait begins -/

/-- Only cells have changed, and what is delivered of them. -/
def Player.Stages (p q : Player) : Prop :=
  q = { p with
    stage := q.stage
    schedule := { p.schedule with
      loop := { p.schedule.loop with microtasks := q.schedule.loop.microtasks } } }

namespace Player

variable {p q u : Player}

theorem Stages.refl (p : Player) : p.Stages p := rfl

theorem Stages.trans (h : p.Stages q) (h' : q.Stages u) : p.Stages u := by
  rw [Stages] at h h'
  rw [Stages, h', h]

theorem stages_store (p : Player) (c : CellName) (r : Cell c.Value Reaction × Bool) :
    p.Stages (p.store c r) := by
  rw [Stages, store]
  split <;> rfl

theorem stages_write (p : Player) (c : CellName) (v : c.Value) : p.Stages (p.write c v) :=
  stages_store ..

theorem stages_foldl_write (p : Player) (ws : List CellWrite) :
    p.Stages (ws.foldl (fun p w => p.write w.cell w.value) p) := by
  induction ws generalizing p with
  | nil => exact .refl p
  | cons w ws ih => exact (stages_write p w.cell w.value).trans (ih _)

theorem stages_playEffect (p : Player) (name : String) : p.Stages (p.playEffect name) :=
  (stages_write p .soundEffect (some name)).trans (stages_store ..)

namespace Stages

theorem timers (h : p.Stages q) : q.schedule.timers = p.schedule.timers := by
  rw [h]

theorem nextId (h : p.Stages q) : q.schedule.loop.nextId = p.schedule.loop.nextId := by
  rw [h]

theorem now (h : p.Stages q) : q.schedule.loop.now = p.schedule.loop.now := by
  rw [h]

theorem generation (h : p.Stages q) : q.generation = p.generation := by
  rw [h]

theorem live (h : p.Stages q) : q.live = p.live := by
  rw [h]

end Stages

/-- The cells of a cue are written, and its sound is played. -/
def shown (p : Player) (cue : Cue) : Player :=
  cue.effect.elim (cue.writes.foldl (fun p w => p.write w.cell w.value) p)
    (cue.writes.foldl (fun p w => p.write w.cell w.value) p).playEffect

theorem carryOut_eq (p : Player) (cue : Cue) (t : Ticket) :
    p.carryOut cue t = (p.shown cue).waitFor cue.wait t := by
  rw [carryOut, shown]
  cases cue.effect <;> rfl

theorem stages_shown (p : Player) (cue : Cue) : p.Stages (p.shown cue) := by
  have hw := stages_foldl_write p cue.writes
  rw [shown]
  cases cue.effect with
  | none => exact hw
  | some name => exact hw.trans (stages_playEffect _ name)

theorem Dwells.shown {C : Realm → Prop} (p : Player) (cue : Cue) :
    Dwells C p (p.shown cue, []) := by
  have hw := (Dwells.refl (C := C) p).foldl_write cue.writes
  rw [Player.shown]
  cases cue.effect with
  | none => exact hw
  | some name => exact hw.playEffect name

theorem waitFor_of_pos (p : Player) {d : Nat} (hd : d ≠ 0) (t : Ticket) :
    p.waitFor d t = (p.startTimer d false (.finish t), .pending (.timer p.schedule.timers.size)) :=
  if_neg hd

/-- A command that waits for a timer has started it in the end. -/
theorem execute_of_timer {command : Command} {opcode argument : String} {t : Ticket} {k : Nat}
    (h : (p.execute command opcode argument t).2.2 = .pending (.timer k)) :
    ∃ u d, p.Stages u ∧ Dwells (fun _ => True) p (u, []) ∧ k = p.schedule.timers.size ∧
      p.execute command opcode argument t =
        (u.startTimer d false (.finish t), [], .pending (.timer k)) := by
  have wait {u : Player} {d : Nat} (hu : p.Stages u) (hb : Dwells (fun _ => True) p (u, []))
      (hw : (u.waitFor d t).2 = .pending (.timer k)) : ∃ u' d', p.Stages u' ∧
        Dwells (fun _ => True) p (u', []) ∧ k = p.schedule.timers.size ∧
          ((u.waitFor d t).1, ([] : Orders), (u.waitFor d t).2) =
            (u'.startTimer d' false (.finish t), [], .pending (.timer k)) := by
    by_cases hd : d = 0
    · subst hd
      cases hw
    · rw [waitFor_of_pos u hd] at hw ⊢
      have hk := Handler.timer.inj (Completion.pending.inj hw)
      rw [hu.timers] at hk
      exact ⟨u, d, hu, hb, hk.symm, by rw [hw]⟩
  cases command with
  | wait =>
    simp only [execute] at h ⊢
    split at h
    · exact wait (.refl p) (.refl p) h
    · cases h
  | cue c =>
    simp only [execute] at h ⊢
    split at h
    · next cue _ =>
      rw [carryOut_eq] at h ⊢
      exact wait (stages_shown p cue) (.shown p cue) h
    · cases h
  | setDelay =>
    simp only [execute] at h
    split at h <;> cases h
  | host b body => cases b <;> cases h
  | _ => cases h

end Player

namespace Wait

variable {q u : Player} {m : Machine Player Task} {t : Ticket} {k : Nat} {more rest : Orders}

/-- A timer that is started runs. -/
theorem runs_startTimer (u : Player) (d g : Nat) :
    Runs ⟨g, u.schedule.timers.size⟩ u.schedule.loop.nextId
        (u.startTimer d false (.finish (.instruction g))) ∧
      ((u.startTimer d false (.finish (.instruction g))).schedule.timers[
        u.schedule.timers.size]?).map Timer.duration = some d ∧
      ⟨u.schedule.loop.now + d, u.schedule.loop.nextId, .ring u.schedule.timers.size⟩ ∈
        (u.startTimer d false (.finish (.instruction g))).schedule.loop.timeouts := by
  have hx := Schedule.getElem?_start u.schedule d false (.finish (.instruction g))
  exact ⟨⟨_, hx, rfl, rfl, rfl, rfl⟩, (congrArg (Option.map _) hx).trans rfl,
    Schedule.mem_timeouts_start u.schedule d false _⟩

/-- What has been given out before is not about the wait. -/
theorem sub_others (q : Player) : (Realm.upTo q).Sub
    (others ⟨q.generation + 1, q.schedule.timers.size⟩ q.schedule.loop.nextId) := by
  refine ⟨fun {t} ht heq => ?_, fun hk => Nat.ne_of_lt hk, fun hid => Nat.ne_of_lt hid,
    fun _ => trivial⟩
  subst heq
  exact Nat.not_succ_le_self _ ht

/-- A wait begins when its timer is started. -/
theorem Stage.start (hq : q.Numbered) (hu : q.begin.Stages u)
    (hb : Dwells (fun _ => True) q.begin (u, [])) (d : Nat) {orders : Orders}
    (ho : ∀ o ∈ orders,
      o.In (others ⟨q.generation + 1, q.schedule.timers.size⟩ q.schedule.loop.nextId))
    (hlive : u.live.count (.instruction (q.generation + 1)) = 1) :
    Stage ⟨q.generation + 1, q.schedule.timers.size⟩ (q.schedule.loop.now + d) []
      ⟨u.startTimer d false (.finish (.instruction (q.generation + 1))), orders⟩ := by
  have hsize : u.schedule.timers.size = q.schedule.timers.size := congrArg Array.size hu.timers
  have hid : u.schedule.loop.nextId = q.schedule.loop.nextId := hu.nextId
  have hnow : u.schedule.loop.now = q.schedule.loop.now := hu.now
  have hgen : u.generation = q.generation + 1 := hu.generation
  obtain ⟨hruns, -, htimeout⟩ := runs_startTimer u d (q.generation + 1)
  rw [hsize, hid] at hruns htimeout
  rw [hnow] at htimeout
  have hin := hq.2.of_upTo hq.1 (sub_others q)
  have hbegin : q.begin.In _ := ⟨hin.schedule, hin.reveal, hin.ticket, hin.active⟩
  obtain ⟨hin, -⟩ := hb.within trivial ⟨⟨fun hle hlt => absurd hlt (Nat.not_lt_of_le (hsize ▸ hle)),
    fun hle hlt => absurd hlt (Nat.not_lt_of_le (hid ▸ hle))⟩,
      fun hlt hle => absurd (Nat.lt_of_lt_of_le hlt hle) (by
        rw [hu.generation]
        exact Nat.lt_irrefl _), fun _ _ => trivial⟩ hbegin
  have hrun : Dwells (fun R => R.Admits (.finish (.instruction (q.generation + 1)))) u
      (u.startTimer d false (.finish (.instruction (q.generation + 1))), []) :=
    (Dwells.refl u).startTimer d false id
  have hv : (u.startTimer d false (.finish (.instruction (q.generation + 1)))).In
      (others ⟨q.generation + 1, q.schedule.timers.size⟩ q.schedule.loop.nextId) :=
    hin.startTimer (fun hn => hn hsize) (fun hn => hn hid) ..
  have hgiven : Given ⟨q.generation + 1, q.schedule.timers.size⟩ q.schedule.loop.nextId
      (u.startTimer d false (.finish (.instruction (q.generation + 1)))) := by
    refine ⟨Nat.le_of_eq hgen.symm, ?_, ?_⟩
    · rw [startTimer, Schedule.size_start, hsize]
      exact Nat.lt_succ_self _
    · rw [startTimer, Schedule.nextId_start, hid]
      exact Nat.lt_succ_self _
  refine .counting ⟨⟨hrun.neat (hb.neat hq.1), hv, ho _⟩, hgiven, hlive,
    fun _ hn => absurd hn List.not_mem_nil⟩ hruns htimeout ?_
    fun _ hn => absurd hn List.not_mem_nil
  exact Nat.le_trans (Nat.le_of_eq (hrun.now.trans hnow)) (Nat.le_add_right ..)

/-- A wait begins with an instruction. -/
theorem Stage.dispatch {i : Instruction} (hq : q.Numbered) (hmore : ∀ o ∈ more, o.In (.upTo q))
    (hn : (q.dispatch i).1.live.Nodup)
    (hag : (q.dispatch i).2 ++ more = .perform (.conclude t (.pending (.timer k))) :: rest) :
    t = .instruction (q.dispatch i).1.generation ∧ ∃ d,
      ((q.dispatch i).1.schedule.timers[k]?).map Timer.duration = some d ∧
        Stage ⟨(q.dispatch i).1.generation, k⟩ (q.schedule.loop.now + d) []
          ⟨(q.dispatch i).1, (q.dispatch i).2 ++ more⟩ := by
  by_cases hget : ∃ command, q.commands.get? i.opcode = some (some command)
  · obtain ⟨command, hget⟩ := hget
    rw [dispatch_of_command hget] at hag hn ⊢
    dsimp only at hag hn ⊢
    have hlight := (Seat.execute q.begin command i.opcode i.argument
      (.instruction (q.generation + 1))).2
    have hhead : (q.begin.execute command i.opcode i.argument
        (.instruction (q.generation + 1))).2.1 = [] := by
      cases horders : (q.begin.execute command i.opcode i.argument
          (.instruction (q.generation + 1))).2.1 with
      | nil => rfl
      | cons o os =>
        rw [horders] at hag hlight
        obtain rfl := (List.cons.inj hag).1
        exact absurd ⟨_, _, rfl⟩ (hlight.all _ List.mem_cons_self).not_concludes
    rw [hhead] at hag
    injection Order.perform.inj (List.cons.inj hag).1 with ht hc
    obtain ⟨u, d, hu, hb, rfl, hx⟩ := execute_of_timer hc
    rw [hx] at hn ⊢
    have hsize : u.schedule.timers.size = q.schedule.timers.size := congrArg Array.size hu.timers
    have hgen : (u.startTimer d false (.finish (.instruction (q.generation + 1)))).generation =
        q.generation + 1 := hu.generation
    have hlive : u.live.count (.instruction (q.generation + 1)) = 1 :=
      List.count_eq_one_of_mem hn (hu.live ▸ List.mem_cons_self)
    rw [hgen]
    refine ⟨ht.symm, d, ?_, Stage.start hq hu hb d (fun o hm => ?_) hlive⟩
    · have hdur := (runs_startTimer u d (q.generation + 1)).2.1
      rwa [hsize] at hdur
    · rcases List.mem_cons.1 hm with rfl | hm
      · trivial
      · exact (sub_others q).order (hmore o hm)
  · obtain ⟨v, -, hd⟩ := dispatch_of_no_command fun c hc => hget ⟨c, hc⟩
    rw [hd] at hag
    injection Order.perform.inj (List.cons.inj hag).1 with _ hc
    cases hc

/-- **How it begins.** An instruction whose command has to wait for a timer has begun its wait. -/
theorem Stage.begins (hm : m.Numbered) (ho : m.world.desk.InOrder)
    (hag : m.step.agenda = .perform (.conclude t (.pending (.timer k))) :: rest)
    (hnew : t ∈ m.step.world.live) (hold : t ∉ m.world.live) :
    t = .instruction m.step.world.generation ∧ ∃ d,
      (m.step.world.schedule.timers[k]?).map Timer.duration = some d ∧
        Stage ⟨m.step.world.generation, k⟩ (m.now + d) [] m.step := by
  have hn : m.step.world.live.Nodup := ho.step.nodup
  obtain ⟨q, i, more, hq, hmore, hnow, hstep⟩ := hm.exists_begins hnew hold
  rw [hstep] at hag hn ⊢
  change _ ∧ ∃ d, _ ∧ Stage _ (m.world.schedule.loop.now + d) [] _
  rw [← hnow]
  exact Stage.dispatch hq hmore hn hag

end Wait

end Novella
