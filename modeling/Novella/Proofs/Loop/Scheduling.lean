import Novella.Loop.Program

/-!
# Scheduling

What an event loop promises to those who schedule on it. Tasks are arbitrary: a task may look at its
world and make any calls on the loop, one after another, and leave further tasks to be performed
before the loop goes on. A *usage* says which calls those are, so that a run of the machine has a
list of events: what was scheduled, what was taken back and with which answer, which timeouts were
started and what the loop was like then.

An event is *lawful* after the events before it if it is what the promise allows there. Two
invariants carry the promise along a run. The *ledger* compares the timeouts that wait with the
events: they are those that were scheduled and neither started nor taken back, they are sorted, and
none of them is overdue. The *pace* of an agenda says that at most one advance is under way and that
the microtasks are drained whenever it goes on.

## Main definitions

* `Loop.Call`, `Loop.Event` — the calls on a loop, and what is to be seen of a loop
* `Loop.Event.Lawful` — what an event may be after the events before it
* `Usage` — the calls that the tasks of a world make
* `Usage.Run`, `Usage.events` — runs of tasks and of the host, and their events

## Main results

* `Usage.Run.events_lawful` — every event of a run is lawful after those before it
-/

namespace Novella

/-! ### Calls and events -/

namespace Timeout

variable {τ : Type} {x y z : Timeout τ}

/-- The first timeout is due first; of two that are due together it was scheduled first. -/
def Before (x y : Timeout τ) : Prop :=
  x.deadline < y.deadline ∨ x.deadline = y.deadline ∧ x.id < y.id

theorem Before.deadline_le (h : x.Before y) : x.deadline ≤ y.deadline := by
  rcases h with h | ⟨h, -⟩
  · exact Nat.le_of_lt h
  · exact Nat.le_of_eq h

end Timeout

namespace Loop

variable {τ : Type} {l : Loop τ} {x y : Timeout τ}

/-- A call on a loop. -/
inductive Call (τ : Type) where
  /-- Queue a microtask. -/
  | queue (t : τ)
  /-- Schedule a timeout. -/
  | schedule (delay : Nat) (t : τ)
  /-- Take back a timeout. -/
  | clear (id : Nat)

/-- The task that the call gives to the loop. -/
def Call.task? : Call τ → Option τ
  | queue t | schedule _ t => some t
  | clear _ => none

/-- The loop after a call. -/
def make (l : Loop τ) : Call τ → Loop τ
  | .queue t => l.queueMicrotask t
  | .schedule delay t => l.setTimeout delay t
  | .clear id => l.clearTimeout id

/-- What is to be seen of a loop. -/
inductive Event (τ : Type) where
  /-- A microtask was queued. -/
  | queued (t : τ)
  /-- A timeout was scheduled. -/
  | scheduled (x : Timeout τ)
  /-- A timeout was to be taken back, and this was the answer. -/
  | cleared (id : Nat) (answer : Bool)
  /-- A timeout is started. Its task finds this loop. -/
  | started (x : Timeout τ) (l : Loop τ)
  /-- An advance has come to its end, with this loop. -/
  | arrived (l : Loop τ)

/-- What is to be seen of a call. -/
def event (l : Loop τ) : Call τ → Event τ
  | .queue t => .queued t
  | .schedule delay t => .scheduled ⟨l.now + delay, l.nextId, t⟩
  | .clear id => .cleared id (l.isWaiting id)

/-- Writes down what is to be seen of some calls, the last one first. -/
def record : Loop τ → List (Call τ) → List (Event τ) → List (Event τ)
  | _, [], events => events
  | l, c :: cs, events => record (l.make c) cs (l.event c :: events)

/-- What an event may be after the events before it. -/
def Event.Lawful (before : List (Event τ)) : Event τ → Prop
  | queued _ => True
  | scheduled x => ∀ y, scheduled y ∈ before → y.id < x.id
  | cleared id answer =>
    answer = true ↔ (∃ x, scheduled x ∈ before ∧ x.id = id) ∧
      (∀ x l, started x l ∈ before → x.id ≠ id) ∧ cleared id true ∉ before
  | started x l =>
    scheduled x ∈ before ∧ (∀ y k, started y k ∈ before → y.id ≠ x.id ∧ y.Before x) ∧
      cleared x.id true ∉ before ∧ l.now = x.deadline ∧ l.microtasks = []
  | arrived l => ∀ x ∈ l.timeouts, l.now < x.deadline

/-- Every event is lawful after those before it. The last one stands first. -/
def Orderly (events : List (Event τ)) : Prop :=
  ∀ after e before, events = after ++ e :: before → Event.Lawful before e

theorem Orderly.nil : Orderly ([] : List (Event τ)) := fun after e before h => by
  cases after <;> cases h

theorem Orderly.cons {events : List (Event τ)} {e : Event τ} (h : Orderly events)
    (he : e.Lawful events) : Orderly (e :: events) := fun after e' before heq => by
  cases after with
  | nil => cases heq; exact he
  | cons a after => exact h after e' before (List.cons.inj heq).2

/-! ### The next task -/

theorem popMicrotask?_eq_none : l.popMicrotask? = none ↔ l.microtasks = [] := by
  rw [popMicrotask?]
  cases l.microtasks <;> simp

/-- Taking a microtask takes no time. -/
theorem now_of_popMicrotask? {t : τ} {l' : Loop τ} (h : l.popMicrotask? = some (t, l')) :
    l'.now = l.now := by
  obtain ⟨ts, -, rfl⟩ := eq_of_popMicrotask? h
  rfl

/-- Calls take no time. -/
theorem now_foldl_make (calls : List (Call τ)) (l : Loop τ) :
    (calls.foldl make l).now = l.now := by
  induction calls generalizing l with
  | nil => rfl
  | cons c cs ih =>
    rw [List.foldl_cons, ih]
    cases c <;> rfl

/-- The next timeout, if it is due by `target`. -/
def due? (l : Loop τ) (target : Nat) : Option (Timeout τ) :=
  l.timeouts.head?.filter (fun x => x.deadline ≤ target)

/-- The loop at the deadline of its next timeout, without it. -/
def leave (l : Loop τ) (x : Timeout τ) : Loop τ :=
  { l with now := x.deadline, timeouts := l.timeouts.tail }

theorem popDue?_eq (l : Loop τ) (target : Nat) :
    l.popDue? target = (l.due? target).map (fun x => (x.task, l.leave x)) := by
  rw [popDue?, due?]
  cases h : l.timeouts with
  | nil => rfl
  | cons x xs =>
    by_cases hx : x.deadline ≤ target
    · simp [hx, Option.filter, leave, h]
    · simp [hx, Option.filter]

theorem due?_eq_some {target : Nat} (h : l.due? target = some x) :
    l.timeouts = x :: l.timeouts.tail ∧ x.deadline ≤ target := by
  obtain ⟨hx, hd⟩ := Option.filter_eq_some_iff.1 h
  exact ⟨(List.head?_eq_some_iff.1 hx).elim fun xs hxs => by rw [hxs, List.tail_cons],
    of_decide_eq_true hd⟩

/-! ### Deadlines ahead -/

/-- No timeout of the loop is overdue. -/
structure Timely (l : Loop τ) : Prop where
  /-- The timeouts are sorted. -/
  sorted : l.timeouts.Pairwise (fun a b => a.deadline ≤ b.deadline)
  /-- Their time has not gone by. -/
  ahead : ∀ x ∈ l.timeouts, l.now ≤ x.deadline

namespace Timely

theorem make (k : l.Timely) (c : Call τ) : (l.make c).Timely := by
  cases c with
  | queue t => exact ⟨k.sorted, k.ahead⟩
  | schedule delay t =>
    refine ⟨pairwise_insertTimeout k.sorted, fun x hx => ?_⟩
    rcases mem_insertTimeout.1 hx with rfl | hx
    · exact Nat.le_add_right ..
    · exact k.ahead x hx
  | clear id => exact ⟨k.sorted.filter _, fun x hx => k.ahead x (List.mem_filter.1 hx).1⟩

theorem foldl_make (k : l.Timely) (calls : List (Call τ)) : (calls.foldl Loop.make l).Timely := by
  induction calls generalizing l with
  | nil => exact k
  | cons c cs ih => exact ih (k.make c)

theorem popMicrotask (k : l.Timely) {t : τ} {l' : Loop τ} (h : l.popMicrotask? = some (t, l')) :
    l'.Timely := by
  obtain ⟨ts, -, rfl⟩ := eq_of_popMicrotask? h
  exact ⟨k.sorted, k.ahead⟩

/-- The next timeout is due first. -/
theorem le_deadline (k : l.Timely) {target : Nat} (h : l.due? target = some x) :
    ∀ y ∈ l.timeouts.tail, x.deadline ≤ y.deadline := by
  have hsorted := k.sorted
  rw [(due?_eq_some h).1] at hsorted
  exact (List.pairwise_cons.1 hsorted).1

/-- Time may be set to the deadline of the next timeout. -/
theorem leave (k : l.Timely) {target : Nat} (h : l.due? target = some x) : (l.leave x).Timely :=
  ⟨k.sorted.sublist (List.tail_sublist _), k.le_deadline h⟩

/-- If nothing is due, all that waits is due later. -/
theorem lt_deadline (k : l.Timely) {target : Nat} (h : l.due? target = none) :
    ∀ x ∈ l.timeouts, target < x.deadline := by
  intro x hx
  have hsorted := k.sorted
  cases hl : l.timeouts with
  | nil => rw [hl] at hx; cases hx
  | cons y ys =>
    have hy : target < y.deadline := by simpa [due?, hl, Option.filter] using h
    rw [hl] at hx hsorted
    rcases List.mem_cons.1 hx with rfl | hx
    · exact hy
    · exact Nat.lt_of_lt_of_le hy ((List.pairwise_cons.1 hsorted).1 x hx)

/-- Time may be set to where nothing is due. -/
theorem arrive (k : l.Timely) {target : Nat} (h : l.due? target = none) :
    { l with now := target }.Timely :=
  ⟨k.sorted, fun x hx => Nat.le_of_lt (k.lt_deadline h x hx)⟩

end Timely

/-! ### The ledger -/

/-- A timeout scheduled last keeps its place among those that are due at the same time. -/
theorem before_insertTimeout {us : List (Timeout τ)} (h : us.Pairwise Timeout.Before)
    (hid : ∀ u ∈ us, u.id < x.id) : (insertTimeout x us).Pairwise Timeout.Before := by
  induction us with
  | nil => simp [insertTimeout]
  | cons a us ih =>
    obtain ⟨ha, hus⟩ := List.pairwise_cons.1 h
    simp only [insertTimeout]
    split
    · -- the new timeout is the first
      rename_i hlt
      refine List.pairwise_cons.2 ⟨fun b hb => .inl ?_, h⟩
      rcases List.mem_cons.1 hb with rfl | hb
      · exact hlt
      · exact Nat.lt_of_lt_of_le hlt (ha b hb).deadline_le
    · rename_i hle
      refine List.pairwise_cons.2
        ⟨fun b hb => ?_, ih hus fun u hu => hid u (List.mem_cons_of_mem a hu)⟩
      rcases mem_insertTimeout.1 hb with rfl | hb
      · rcases Nat.lt_or_eq_of_le (Nat.le_of_not_lt hle) with hlt | heq
        · exact .inl hlt
        · exact .inr ⟨heq, hid a List.mem_cons_self⟩
      · exact ha b hb

theorem isWaiting_iff {id : Nat} : l.isWaiting id = true ↔ ∃ x ∈ l.timeouts, x.id = id := by
  simp [isWaiting]

/-- The timeouts of a loop, compared with the events that led to it. -/
structure Ledger (l : Loop τ) (events : List (Event τ)) : Prop where
  /-- The timeouts are sorted. -/
  sorted : l.timeouts.Pairwise Timeout.Before
  /-- No timeout is overdue. -/
  timely : l.Timely
  /-- Those that wait were scheduled, and neither started nor taken back. -/
  waits {x : Timeout τ} : x ∈ l.timeouts ↔
    .scheduled x ∈ events ∧ (∀ k, .started x k ∉ events) ∧ .cleared x.id true ∉ events
  /-- Numbers are given in order. -/
  numbered {x : Timeout τ} : .scheduled x ∈ events → x.id < l.nextId
  /-- No number is given twice. -/
  distinct {x y : Timeout τ} : .scheduled x ∈ events → .scheduled y ∈ events → x.id = y.id → x = y
  /-- Those that were started come before all that wait. -/
  started {x : Timeout τ} {k : Loop τ} : .started x k ∈ events →
    .scheduled x ∈ events ∧ x.deadline ≤ l.now ∧ ∀ y ∈ l.timeouts, x.Before y
  /-- What was taken back had been scheduled. -/
  cleared {id : Nat} : .cleared id true ∈ events → id < l.nextId
  /-- The events are what they may be. -/
  orderly : Orderly events

namespace Ledger

variable {events : List (Event τ)}

/-- Nothing has happened on a new loop. -/
theorem fresh : Ledger ({} : Loop τ) [] where
  sorted := .nil
  timely := ⟨.nil, by simp⟩
  waits := by simp
  numbered h := absurd h List.not_mem_nil
  distinct h := absurd h List.not_mem_nil
  started h := absurd h List.not_mem_nil
  cleared h := absurd h List.not_mem_nil
  orderly := .nil

theorem id_lt (k : l.Ledger events) (h : x ∈ l.timeouts) : x.id < l.nextId :=
  k.numbered (k.waits.1 h).1

theorem queue (k : l.Ledger events) (t : τ) :
    (l.queueMicrotask t).Ledger (.queued t :: events) where
  sorted := k.sorted
  timely := k.timely.make (.queue t)
  waits {x} := by simpa [queueMicrotask] using k.waits (x := x)
  numbered h := k.numbered (by simpa using h)
  distinct hx hy := k.distinct (by simpa using hx) (by simpa using hy)
  started h := by
    obtain ⟨hs, hd, hb⟩ := k.started (by simpa using h)
    exact ⟨List.mem_cons_of_mem _ hs, hd, hb⟩
  cleared h := k.cleared (by simpa using h)
  orderly := k.orderly.cons trivial

/-- The new timeout has a number of its own, and waits behind all that were started. -/
theorem schedule (k : l.Ledger events) (delay : Nat) (t : τ) :
    (l.setTimeout delay t).Ledger (.scheduled ⟨l.now + delay, l.nextId, t⟩ :: events) where
  sorted := before_insertTimeout k.sorted fun u hu => k.id_lt hu
  timely := k.timely.make (.schedule delay t)
  waits {x} := by
    have hnew : (∀ j, Event.started ⟨l.now + delay, l.nextId, t⟩ j ∉ events) ∧
        Event.cleared l.nextId true ∉ events :=
      ⟨fun j hj => Nat.lt_irrefl _ (k.numbered (k.started hj).1),
        fun hj => Nat.lt_irrefl _ (k.cleared hj)⟩
    simp only [setTimeout, mem_insertTimeout, k.waits, List.mem_cons, reduceCtorEq, false_or,
      Event.scheduled.injEq]
    constructor
    · rintro (rfl | h)
      · exact ⟨.inl rfl, hnew⟩
      · exact ⟨.inr h.1, h.2⟩
    · rintro ⟨h | h, hx⟩
      · exact .inl h
      · exact .inr ⟨h, hx⟩
  numbered {x} h := by
    rcases List.mem_cons.1 h with h | h
    · cases h; exact Nat.lt_succ_self _
    · exact Nat.lt_succ_of_lt (k.numbered h)
  distinct {x y} hx hy hxy := by
    rcases List.mem_cons.1 hx with hx | hx <;> rcases List.mem_cons.1 hy with hy | hy
    · cases hx; cases hy; rfl
    · cases hx; exact absurd hxy (Nat.ne_of_gt (k.numbered hy))
    · cases hy; exact absurd hxy (Nat.ne_of_lt (k.numbered hx))
    · exact k.distinct hx hy hxy
  started {x j} h := by
    obtain ⟨hs, hd, hb⟩ := k.started (x := x) (k := j) (by simpa using h)
    refine ⟨List.mem_cons_of_mem _ hs, hd, fun y hy => ?_⟩
    rcases mem_insertTimeout.1 hy with rfl | hy
    · rcases Nat.lt_or_eq_of_le (Nat.le_trans hd (Nat.le_add_right l.now delay)) with hlt | heq
      · exact .inl hlt
      · exact .inr ⟨heq, k.numbered hs⟩
    · exact hb y hy
  cleared h := Nat.lt_succ_of_lt (k.cleared (by simpa using h))
  orderly := k.orderly.cons fun y hy => k.numbered hy

/-- The answer says whether the timeout waits. -/
theorem lawful_clear (k : l.Ledger events) (id : Nat) :
    (Event.cleared id (l.isWaiting id)).Lawful events := by
  rw [Event.Lawful, isWaiting_iff]
  constructor
  · rintro ⟨x, hx, rfl⟩
    obtain ⟨hs, hn, hc⟩ := k.waits.1 hx
    refine ⟨⟨x, hs, rfl⟩, fun y j hy hid => hn j ?_, hc⟩
    rwa [k.distinct (k.started hy).1 hs hid] at hy
  · rintro ⟨⟨x, hs, rfl⟩, hn, hc⟩
    exact ⟨x, k.waits.2 ⟨hs, fun j hj => hn x j hj rfl, hc⟩, rfl⟩

theorem clear (k : l.Ledger events) (id : Nat) :
    (l.clearTimeout id).Ledger (.cleared id (l.isWaiting id) :: events) where
  sorted := k.sorted.filter _
  timely := k.timely.make (.clear id)
  waits {x} := by
    simp only [clearTimeout, List.mem_filter, decide_eq_true_eq, List.mem_cons, reduceCtorEq,
      false_or, Event.cleared.injEq, not_or]
    constructor
    · rintro ⟨hx, hid⟩
      obtain ⟨hs, hn, hc⟩ := k.waits.1 hx
      exact ⟨hs, hn, fun h => hid h.1, hc⟩
    · rintro ⟨hs, hn, hid, hc⟩
      have hx := k.waits.2 ⟨hs, hn, hc⟩
      exact ⟨hx, fun h => hid ⟨h, (isWaiting_iff.2 ⟨x, hx, h⟩).symm⟩⟩
  numbered h := k.numbered (by simpa using h)
  distinct hx hy := k.distinct (by simpa using hx) (by simpa using hy)
  started {x j} h := by
    obtain ⟨hs, hd, hb⟩ := k.started (x := x) (k := j) (by simpa using h)
    exact ⟨List.mem_cons_of_mem _ hs, hd, fun y hy => hb y (List.mem_filter.1 hy).1⟩
  cleared {j} h := by
    rcases List.mem_cons.1 h with h | h
    · obtain ⟨rfl, h⟩ := Event.cleared.inj h
      obtain ⟨x, hx, rfl⟩ := isWaiting_iff.1 h.symm
      exact k.id_lt hx
    · exact k.cleared h
  orderly := k.orderly.cons (k.lawful_clear id)

theorem make (k : l.Ledger events) (c : Call τ) : (l.make c).Ledger (l.event c :: events) := by
  cases c with
  | queue t => exact k.queue t
  | schedule delay t => exact k.schedule delay t
  | clear id => exact k.clear id

theorem record (k : l.Ledger events) (calls : List (Call τ)) :
    (calls.foldl Loop.make l).Ledger (l.record calls events) := by
  induction calls generalizing l events with
  | nil => exact k
  | cons c cs ih => exact ih (k.make c)

/-- Taking a microtask is nothing that a ledger sees. -/
theorem popMicrotask (k : l.Ledger events) {t : τ} {l' : Loop τ}
    (h : l.popMicrotask? = some (t, l')) : l'.Ledger events := by
  have hl := k.timely.popMicrotask h
  obtain ⟨ts, -, rfl⟩ := eq_of_popMicrotask? h
  exact ⟨k.sorted, hl, k.waits, k.numbered, k.distinct, k.started, k.cleared, k.orderly⟩

/-- The next timeout is started at its deadline. -/
theorem leave (k : l.Ledger events) (hm : l.microtasks = []) {target : Nat}
    (h : l.due? target = some x) : (l.leave x).Ledger (.started x (l.leave x) :: events) := by
  obtain ⟨hl, -⟩ := due?_eq_some h
  have hmem : x ∈ l.timeouts := by rw [hl]; exact List.mem_cons_self
  obtain ⟨hs, hn, hc⟩ := k.waits.1 hmem
  have hsorted := k.sorted
  rw [hl] at hsorted
  obtain ⟨hfirst, hrest⟩ := List.pairwise_cons.1 hsorted
  have hbefore : ∀ {y j}, .started y j ∈ events → y.Before x := fun hy => (k.started hy).2.2 x hmem
  refine ⟨hrest, k.timely.leave h, @fun y => ?_, fun hy => ?_, fun hy hz => ?_,
    @fun y j hy => ?_, fun hy => ?_,
    k.orderly.cons ⟨hs, fun y j hy => ⟨?_, hbefore hy⟩, hc, rfl, hm⟩⟩
  · -- all that wait but the first
    have hne : y ∈ l.timeouts.tail → y ≠ x := fun hy he => by
      rcases hfirst y hy with hlt | ⟨-, hlt⟩ <;> rw [he] at hlt <;> exact Nat.lt_irrefl _ hlt
    have hy : y ∈ l.timeouts ↔ y = x ∨ y ∈ l.timeouts.tail := by rw [← List.mem_cons, ← hl]
    simp only [Loop.leave, List.mem_cons, reduceCtorEq, false_or, Event.started.injEq, not_or,
      not_and]
    constructor
    · intro ht
      obtain ⟨hys, hyn, hyc⟩ := k.waits.1 (hy.2 (.inr ht))
      exact ⟨hys, fun j => ⟨fun he => absurd he (hne ht), hyn j⟩, hyc⟩
    · rintro ⟨hys, hyn, hyc⟩
      rcases hy.1 (k.waits.2 ⟨hys, fun j => (hyn j).2, hyc⟩) with he | ht
      · exact absurd rfl ((hyn (l.leave x)).1 he)
      · exact ht
  · exact k.numbered (by simpa using hy)
  · exact k.distinct (by simpa using hy) (by simpa using hz)
  · rcases List.mem_cons.1 hy with hy | hy
    · cases hy
      exact ⟨List.mem_cons_of_mem _ hs, Nat.le_refl _, hfirst⟩
    · obtain ⟨hys, hyd, hyb⟩ := k.started hy
      exact ⟨List.mem_cons_of_mem _ hys, Nat.le_trans hyd (k.timely.ahead x hmem),
        fun z hz => hyb z (by rw [hl]; exact List.mem_cons_of_mem x hz)⟩
  · exact k.cleared (by simpa using hy)
  · intro hid
    have he := k.distinct (k.started hy).1 hs hid
    exact hn j (he ▸ hy)

/-- Time moves on to where nothing is due. -/
theorem arrive (k : l.Ledger events) {target : Nat} (hle : l.now ≤ target)
    (h : l.due? target = none) :
    Ledger { l with now := target } (.arrived { l with now := target } :: events) := by
  refine ⟨k.sorted, k.timely.arrive h, @fun x => by simpa using k.waits (x := x),
    fun hx => k.numbered (by simpa using hx),
    fun hx hy => k.distinct (by simpa using hx) (by simpa using hy), fun hx => ?_,
    fun hx => k.cleared (by simpa using hx), k.orderly.cons (k.timely.lt_deadline h)⟩
  obtain ⟨hs, hd, hb⟩ := k.started (by simpa using hx)
  exact ⟨List.mem_cons_of_mem _ hs, Nat.le_trans hd hle, hb⟩

end Ledger

end Loop

/-! ### Usages and runs -/

namespace Order

variable {τ : Type}

/-- What may be asked of a machine: tasks of a kind, the microtasks, and time to pass. -/
def IsRequest (P : τ → Prop) : Order τ → Prop
  | perform t => P t
  | drain => True
  | advance _ => True
  | _ => False

/-- A request that moves no time. -/
def IsBrief (P : τ → Prop) : Order τ → Prop
  | perform t => P t
  | drain => True
  | _ => False

end Order

section

variable {σ τ : Type} [World σ τ]

/-- The current time. -/
def Machine.now (m : Machine σ τ) : Nat := (World.loop m.world).now

namespace Machine

variable {s : σ} {rest : List (Order τ)} {target : Nat}

theorem step_of_popMicrotask? {t : τ} {l : Loop τ}
    (h : (World.loop s).popMicrotask? = some (t, l)) :
    step ⟨s, .drain :: rest⟩ = ⟨World.withLoop s l, .perform t :: .drain :: rest⟩ := by
  simp only [step, h]

theorem step_of_popMicrotask?_eq_none (h : (World.loop s).popMicrotask? = none) :
    step ⟨s, .drain :: rest⟩ = ⟨s, rest⟩ := by
  simp only [step, h]

/-- A timeout is started: the machine performs its task next, and the loop is what it finds. -/
theorem step_of_due {x : Timeout τ} (h : (World.loop s).due? target = some x) :
    step ⟨s, .runUntil target :: rest⟩ = ⟨World.withLoop s ((World.loop s).leave x),
      .perform x.task :: .drain :: .runUntil target :: rest⟩ := by
  have hpop := (World.loop s).popDue?_eq target
  rw [h, Option.map_some] at hpop
  simp only [step, hpop]

/-- Nothing is due any more: an advance is at its end. -/
theorem step_of_due_eq_none (h : (World.loop s).due? target = none) :
    step ⟨s, .runUntil target :: rest⟩ =
      ⟨World.withLoop s { World.loop s with now := target }, rest⟩ := by
  have hpop := (World.loop s).popDue?_eq target
  rw [h, Option.map_none] at hpop
  simp only [step, hpop]

end Machine

variable (σ) in
/-- How the tasks of a world use its loop. -/
structure Usage {τ : Type} [World σ τ] where
  /-- The tasks that the host may ask for. -/
  Asked : τ → Prop
  /-- The tasks that the loop may hold. -/
  Held : τ → Prop
  /-- The calls that a task makes on the loop, one after another. -/
  calls : τ → σ → List (Loop.Call τ)
  asked {t : τ} : Held t → Asked t
  loop_perform {t : τ} (s : σ) : Asked t →
    World.loop (World.perform t s).1 = (calls t s).foldl Loop.make (World.loop s)
  held {t u : τ} {s : σ} {c : Loop.Call τ} : Asked t → c ∈ calls t s → c.task? = some u → Held u
  requests {t : τ} {s : σ} : Asked t → ∀ o ∈ (World.perform t s).2, o.IsRequest Asked

namespace Usage

variable {u : Usage σ} {h : List (Machine σ τ)} {m : Machine σ τ} {past : List (Loop.Event τ)}

/-- The tasks that the loop holds move no time. -/
def Brief (u : Usage σ) : Prop :=
  ∀ (t : τ) (s : σ), u.Held t → ∀ o ∈ (World.perform t s).2, o.IsBrief u.Held

/-- Writes down what is to be seen of the loop when the machine takes a step. -/
def record (u : Usage σ) (m : Machine σ τ) (events : List (Loop.Event τ)) :
    List (Loop.Event τ) :=
  let l := World.loop m.world
  match m.agenda with
  | .perform t :: _ => l.record (u.calls t m.world) events
  | .runUntil target :: _ =>
    match l.due? target with
    | some x => .started x (l.leave x) :: events
    | none => .arrived { l with now := target } :: events
  | _ => events

/-- The events of a history, the last one first. -/
def events (u : Usage σ) : List (Machine σ τ) → List (Loop.Event τ)
  | [] => []
  | m :: h => u.record m (u.events h)

/-- A machine is reached from a new loop by its own steps and by turns of the host, who may do what
it likes with the world, but asks the machine for what it wants of the loop. The list holds the
machines that took a step, the last one first. -/
inductive Run (u : Usage σ) : List (Machine σ τ) → Machine σ τ → Prop where
  /-- Nothing has happened yet. -/
  | start {s : σ} : World.loop s = {} → Run u [] ⟨s, []⟩
  /-- The machine takes a step. -/
  | step {h : List (Machine σ τ)} {m : Machine σ τ} : Run u h m → Run u (m :: h) m.step
  /-- The host has its turn. -/
  | turn {h : List (Machine σ τ)} {s s' : σ} {orders : List (Order τ)} :
      Run u h ⟨s, []⟩ → World.loop s' = World.loop s → (∀ o ∈ orders, o.IsRequest u.Asked) →
      Run u h ⟨s', orders⟩

/-- The machine takes some steps. -/
theorem Run.steps (r : u.Run h m) (n : Nat) :
    u.Run ((List.range n).reverse.map (fun i => m.run i) ++ h) (m.run n) := by
  induction n with
  | zero => exact r
  | succ n ih =>
    rw [List.range_succ, List.reverse_append, Machine.run_add, Machine.run_succ]
    exact ih.step

/-! ### The pace of an agenda -/

/-- Every task that the loop holds is one that it may hold. -/
structure Holds (u : Usage σ) (l : Loop τ) : Prop where
  /-- The microtasks. -/
  microtasks : ∀ t ∈ l.microtasks, u.Held t
  /-- The timeouts. -/
  timeouts : ∀ x ∈ l.timeouts, u.Held x.task

namespace Holds

variable {l : Loop τ}

theorem make (hl : u.Holds l) {c : Loop.Call τ} (hc : ∀ t, c.task? = some t → u.Held t) :
    u.Holds (l.make c) := by
  cases c with
  | queue t =>
    refine ⟨fun v hv => ?_, hl.timeouts⟩
    rcases List.mem_append.1 hv with hv | hv
    · exact hl.microtasks v hv
    · exact List.mem_singleton.1 hv ▸ hc t rfl
  | schedule delay t =>
    refine ⟨hl.microtasks, fun x hx => ?_⟩
    rcases Loop.mem_insertTimeout.1 hx with rfl | hx
    · exact hc t rfl
    · exact hl.timeouts x hx
  | clear id => exact ⟨hl.microtasks, fun x hx => hl.timeouts x (List.mem_filter.1 hx).1⟩

theorem foldl_make {calls : List (Loop.Call τ)} (hl : u.Holds l)
    (hc : ∀ c ∈ calls, ∀ t, c.task? = some t → u.Held t) : u.Holds (calls.foldl Loop.make l) := by
  induction calls generalizing l with
  | nil => exact hl
  | cons c cs ih =>
    exact ih (hl.make (hc c List.mem_cons_self)) fun d hd => hc d (List.mem_cons_of_mem c hd)

theorem perform (hl : u.Holds (World.loop m.world)) {t : τ} (ht : u.Asked t) :
    u.Holds (World.loop (World.perform t m.world).1) := by
  rw [u.loop_perform m.world ht]
  exact hl.foldl_make fun c hc v hv => u.held ht hc hv

theorem leave (hl : u.Holds l) (x : Timeout τ) : u.Holds (l.leave x) :=
  ⟨hl.microtasks, fun y hy => hl.timeouts y (List.mem_of_mem_tail hy)⟩

theorem popMicrotask (hl : u.Holds l) {t : τ} {l' : Loop τ} (h : l.popMicrotask? = some (t, l')) :
    u.Held t ∧ u.Holds l' := by
  obtain ⟨ts, heq, rfl⟩ := Loop.eq_of_popMicrotask? h
  exact ⟨hl.microtasks t (heq ▸ List.mem_cons_self),
    fun w hw => hl.microtasks w (heq ▸ List.mem_cons_of_mem t hw), hl.timeouts⟩

end Holds

/-- The order goes on with an advance whose target is not behind. -/
def GoesOn (l : Loop τ) : Order τ → Prop
  | .depart _ => True
  | .runUntil target => l.now ≤ target
  | _ => False

/-- How the agenda is laid out when tasks move no time. -/
inductive Paced (u : Usage σ) (l : Loop τ) : List (Order τ) → Prop where
  /-- No advance is under way. -/
  | free {rest : List (Order τ)} : (∀ o ∈ rest, o.IsRequest u.Asked) → Paced u l rest
  /-- An advance is under way, and will go on when tasks are done and no microtask is left. -/
  | under (turn : List (Order τ)) {rest : List (Order τ)} {o : Order τ} :
      (∀ a ∈ turn, a.IsBrief u.Held) → GoesOn l o → (∀ a ∈ rest, a.IsRequest u.Asked) →
        Paced u l (turn ++ .drain :: o :: rest)
  /-- An advance goes on. -/
  | next {rest : List (Order τ)} {o : Order τ} :
      l.microtasks = [] → GoesOn l o → (∀ a ∈ rest, a.IsRequest u.Asked) → Paced u l (o :: rest)

/-- A machine between its steps, with its events. -/
structure Keeps (u : Usage σ) (past : List (Loop.Event τ)) (m : Machine σ τ) : Prop where
  /-- The events account for what waits. -/
  ledger : (World.loop m.world).Ledger past
  /-- The loop holds what it may hold. -/
  holds : u.Holds (World.loop m.world)
  /-- One advance at a time is under way. -/
  paced : u.Paced (World.loop m.world) m.agenda

theorem GoesOn.of_now {l l' : Loop τ} {o : Order τ} (ho : GoesOn l o) (h : l'.now = l.now) :
    GoesOn l' o := by
  cases o with
  | runUntil target => exact Nat.le_trans (Nat.le_of_eq h) ho
  | _ => exact ho

namespace Keeps

variable {s : σ} {t : τ} {turn rest : List (Order τ)} {o : Order τ}

/-- A task is performed. -/
theorem perform (k : u.Keeps past ⟨s, .perform t :: turn⟩) (ht : u.Asked t)
    (hp : u.Paced (World.loop (World.perform t s).1) ((World.perform t s).2 ++ turn)) :
    u.Keeps (u.record ⟨s, .perform t :: turn⟩ past) (Machine.step ⟨s, .perform t :: turn⟩) := by
  refine ⟨?_, k.holds.perform ht, hp⟩
  have hl := k.ledger.record (u.calls t s)
  rwa [← u.loop_perform s ht] at hl

/-- The next microtask is taken, if there is one. -/
theorem drain (k : u.Keeps past ⟨s, .drain :: turn⟩)
    (hnone : (World.loop s).microtasks = [] → u.Paced (World.loop s) turn)
    (hsome : ∀ {t l}, l.now = (World.loop s).now → u.Held t →
      u.Paced l (.perform t :: .drain :: turn)) :
    u.Keeps past (Machine.step ⟨s, .drain :: turn⟩) := by
  cases hpop : (World.loop s).popMicrotask? with
  | none =>
    rw [Machine.step_of_popMicrotask?_eq_none hpop]
    exact ⟨k.ledger, k.holds, hnone (Loop.popMicrotask?_eq_none.1 hpop)⟩
  | some x =>
    obtain ⟨t, l⟩ := x
    obtain ⟨ht, hl⟩ := k.holds.popMicrotask hpop
    rw [Machine.step_of_popMicrotask? hpop]
    refine ⟨?_, ?_, ?_⟩ <;> simp only [World.loop_withLoop]
    · exact k.ledger.popMicrotask hpop
    · exact hl
    · exact hsome (Loop.now_of_popMicrotask? hpop) ht

/-- Time moves to the next timeout, or to the target. -/
theorem runUntil {target : Nat} (k : u.Keeps past ⟨s, .runUntil target :: rest⟩)
    (hm : (World.loop s).microtasks = []) (hle : (World.loop s).now ≤ target)
    (hrest : ∀ a ∈ rest, a.IsRequest u.Asked) :
    u.Keeps (u.record ⟨s, .runUntil target :: rest⟩ past)
      (Machine.step ⟨s, .runUntil target :: rest⟩) := by
  simp only [record]
  cases hdue : (World.loop s).due? target with
  | none =>
    rw [Machine.step_of_due_eq_none hdue]
    refine ⟨?_, ?_, ?_⟩ <;> simp only [World.loop_withLoop]
    · exact k.ledger.arrive hle hdue
    · exact ⟨k.holds.microtasks, k.holds.timeouts⟩
    · exact .free hrest
  | some x =>
    obtain ⟨hl, hd⟩ := Loop.due?_eq_some hdue
    have ht : u.Held x.task := k.holds.timeouts x (hl ▸ List.mem_cons_self)
    rw [Machine.step_of_due hdue]
    refine ⟨?_, ?_, ?_⟩ <;> simp only [World.loop_withLoop]
    · exact k.ledger.leave hm hdue
    · exact k.holds.leave x
    · exact .under [.perform x.task] (List.forall_mem_singleton.2 ht) hd hrest

/-- **Every step keeps the ledger and the pace.** -/
theorem step (hb : u.Brief) (k : u.Keeps past m) : u.Keeps (u.record m past) m.step := by
  obtain ⟨s, agenda⟩ := m
  have hp : u.Paced (World.loop s) agenda := k.paced
  cases hp with
  | free hrest =>
    cases agenda with
    | nil => exact k
    | cons o rest =>
      obtain ⟨ho, hmore⟩ := List.forall_mem_cons.1 hrest
      cases o with
      | perform t =>
        exact k.perform ho (.free (List.forall_mem_append.2 ⟨u.requests ho, hmore⟩))
      | drain =>
        exact k.drain (fun _ => .free hmore) fun _ ht =>
          .free (List.forall_mem_cons.2 ⟨u.asked ht, List.forall_mem_cons.2 ⟨trivial, hmore⟩⟩)
      | advance d =>
        exact ⟨k.ledger, k.holds, .under [] (by simp) trivial hmore⟩
      | depart d => exact ho.elim
      | runUntil target => exact ho.elim
      | halt => exact ho.elim
  | @under turn rest o hturn ho hrest =>
    cases turn with
    | nil =>
      exact k.drain (fun hm => .next hm ho hrest) fun hl ht =>
        .under [.perform _] (List.forall_mem_singleton.2 ht) (ho.of_now hl) hrest
    | cons a turn =>
      obtain ⟨ha, hmore⟩ := List.forall_mem_cons.1 hturn
      cases a with
      | perform t =>
        refine k.perform (u.asked ha) ?_
        change u.Paced _ (_ ++ (turn ++ _))
        rw [← List.append_assoc]
        refine .under _ (List.forall_mem_append.2 ⟨hb t s ha, hmore⟩) (ho.of_now ?_) hrest
        rw [u.loop_perform s (u.asked ha), Loop.now_foldl_make]
      | drain =>
        refine k.drain (fun _ => .under turn hmore ho hrest) fun hl ht => ?_
        exact .under (.perform _ :: .drain :: turn)
          (List.forall_mem_cons.2 ⟨ht, List.forall_mem_cons.2 ⟨trivial, hmore⟩⟩) (ho.of_now hl)
          hrest
      | advance d => exact ha.elim
      | depart d => exact ha.elim
      | runUntil target => exact ha.elim
      | halt => exact ha.elim
  | @next rest o hm ho hrest =>
    cases o with
    | depart d => exact ⟨k.ledger, k.holds, .next hm (Nat.le_add_right ..) hrest⟩
    | runUntil target => exact k.runUntil hm ho hrest
    | _ => exact ho.elim

end Keeps

/-- Every run keeps the ledger and the pace. -/
theorem Run.keeps (hb : u.Brief) (r : u.Run h m) : u.Keeps (u.events h) m := by
  induction r with
  | start hl =>
    exact ⟨hl ▸ .fresh, hl ▸ ⟨by simp, by simp⟩, .free (by simp)⟩
  | step _ ih => exact ih.step hb
  | turn _ hl ho ih => exact ⟨hl ▸ ih.ledger, hl ▸ ih.holds, .free ho⟩

/-- **An event loop keeps its promise.** Tasks are arbitrary, but move no time while an advance is
under way. Every event of a run is lawful after those before it: timeouts are started in the order
of their deadlines and numbers, each once at most, at its deadline, with no microtask left, and
never after it was taken back; they are taken back if they wait, and only then; and no advance ends
with a timeout that is due. -/
theorem Run.events_lawful (r : u.Run h m) (after : List (Loop.Event τ)) (hb : u.Brief)
    {before : List (Loop.Event τ)} {e : Loop.Event τ} (he : u.events h = after ++ e :: before) :
    e.Lawful before :=
  (r.keeps hb).ledger.orderly after e before he

end Usage

end

/-! ### Programs -/

namespace LoopProgram

/-- The calls that the task of a call makes. -/
def Call.body : Call → List Call
  | microtask _ body | timeout _ _ body | timer _ _ body => body
  | _ => []

/-- The call passes the test, and so does every call that its task comes to make. -/
inductive Call.Within (P : Call → Prop) : Call → Prop where
  /-- A call with those of its task. -/
  | intro {c : Call} : P c → (∀ d ∈ c.body, Within P d) → Within P c

/-- The call has to do with the loop alone. -/
def Call.OnLoop : Call → Prop
  | timer _ _ _ | start _ | pause _ | cancel _ | skip _ => False
  | _ => True

/-- The call has to do with the loop alone, and moves no time. -/
def Call.Brief : Call → Prop
  | advance _ | settle => False
  | c => c.OnLoop

/-- The task makes calls that pass the test. -/
def Task.Held (P : Call → Prop) : Task → Prop
  | body _ calls => ∀ c ∈ calls, c.Within P
  | call c => c.Within P
  | _ => False

/-- The task is a call on the loop from outside, or makes calls that pass the test. -/
def Task.Asked (P : Call → Prop) : Task → Prop
  | request c => c.OnLoop ∧ ∀ d ∈ c.body, d.Within P
  | t => t.Held P

/-- The calls on the loop that a call of a program makes. -/
def Desk.loopCalls (d : Desk) : Call → List (Loop.Call Task)
  | .microtask label body => [.queue (.body label body)]
  | .timeout delay label body => [.schedule delay (.body label body)]
  | .clear k => d.timeouts[k]?.toList.map .clear
  | _ => []

namespace Desk

variable {P : Call → Prop} {c : Call}

theorem loop_call (d : Desk) (h : c.OnLoop) :
    (d.call c).1.schedule.loop = (d.loopCalls c).foldl Loop.make d.schedule.loop := by
  cases c with
  | clear k =>
    simp only [call, loopCalls]
    cases d.timeouts[k]? <;> rfl
  | timer => exact h.elim
  | start => exact h.elim
  | pause => exact h.elim
  | cancel => exact h.elim
  | skip => exact h.elim
  | _ => rfl

theorem held_loopCalls (d : Desk) (h : ∀ e ∈ c.body, e.Within P) {x : Loop.Call Task}
    (hx : x ∈ d.loopCalls c) {t : Task} (ht : x.task? = some t) : t.Held P := by
  cases c with
  | microtask label body => cases List.mem_singleton.1 hx; cases ht; exact h
  | timeout delay label body => cases List.mem_singleton.1 hx; cases ht; exact h
  | clear k => obtain ⟨id, -, rfl⟩ := List.mem_map.1 hx; cases ht
  | _ => exact absurd hx List.not_mem_nil

/-- A call leaves time to pass, if anything. -/
theorem orders_call (d : Desk) (c : Call) (Q : Task → Prop) :
    ∀ o ∈ (d.call c).2.2, o.IsRequest Q ∧ (c.Brief → o.IsBrief Q) := by
  cases c with
  | clear k =>
    simp only [call]
    cases d.timeouts[k]? <;> simp
  | advance t => exact fun o ho => List.mem_singleton.1 ho ▸ ⟨trivial, False.elim⟩
  | settle => exact fun o ho => List.mem_singleton.1 ho ▸ ⟨trivial, False.elim⟩
  | runMicrotasks => exact fun o ho => List.mem_singleton.1 ho ▸ ⟨trivial, fun _ => trivial⟩
  | _ => exact fun o ho => absurd ho List.not_mem_nil

end Desk

/-- How programs use their loop whose tasks only make calls that pass a test. -/
def usage (P : Call → Prop) (hP : ∀ c, P c → c.OnLoop) : Usage Desk where
  Asked := Task.Asked P
  Held := Task.Held P
  calls t d := match t with
    | .call c | .request c => d.loopCalls c
    | _ => []
  asked {t} h := by
    cases t with
    | request => exact h.elim
    | _ => exact h
  loop_perform {t} d h := by
    cases t with
    | body label calls => rfl
    | ring k => exact h.elim
    | call c =>
      cases h with
      | intro hc _ =>
        refine Eq.trans ?_ (d.loop_call (hP c hc))
        simp only [World.loop, World.perform, Desk.perform]
        split <;> rfl
    | request c => exact d.loop_call h.1
  held {t v d x} h hx hv := by
    cases t with
    | call c =>
      cases h with
      | intro _ hb => exact d.held_loopCalls hb hx hv
    | request c => exact d.held_loopCalls h.2 hx hv
    | _ => exact absurd hx List.not_mem_nil
  requests {t d} h o ho := by
    cases t with
    | body label calls =>
      obtain ⟨c, hc, rfl⟩ := List.mem_map.1 ho
      exact h c hc
    | ring k => exact h.elim
    | call c => exact (d.orders_call c _ o ho).1
    | request c => exact (d.orders_call c _ o ho).1

theorem Call.Brief.onLoop {c : Call} (h : c.Brief) : c.OnLoop := by
  cases c with
  | advance | settle => exact h.elim
  | _ => exact h

/-- How programs use their loop whose tasks move no time. -/
def briefUsage : Usage Desk := usage Call.Brief fun _ h => h.onLoop

theorem brief_briefUsage : briefUsage.Brief := by
  intro t d h o ho
  cases t with
  | body label calls =>
    obtain ⟨c, hc, rfl⟩ := List.mem_map.1 ho
    exact h c hc
  | call c =>
    cases h with
    | intro hc _ => exact (d.orders_call c _ o ho).2 hc
  | _ => exact h.elim

/-- A program whose first task takes back a timeout, schedules another one and queues a task. -/
def errands : List Call :=
  [.timeout 20 "late" [],
    .timeout 10 "first" [.clear 0, .clear 0, .timeout 0 "soon" [], .microtask "then" []],
    .timeout 10 "second" [], .advance 20]

/-- The machine that makes the calls of a program from outside, one after the other. -/
def given (calls : List Call) : Machine Desk Task :=
  ⟨{}, calls.map (fun c => .perform (.request c))⟩

theorem run_given {P : Call → Prop} {hP : ∀ c, P c → c.OnLoop} {calls : List Call}
    (hc : ∀ c ∈ calls, (Task.request c).Asked P) (n : Nat) :
    (usage P hP).Run ((List.range n).reverse.map fun i => (given calls).run i)
      ((given calls).run n) := by
  have hr : (usage P hP).Run [] (given calls) := by
    refine Usage.Run.turn (s := {}) (.start rfl) rfl fun o ho => ?_
    obtain ⟨c, hm, rfl⟩ := List.mem_map.1 ho
    exact hc c hm
  have hs := hr.steps n
  rwa [List.append_nil] at hs

theorem asked_errands : ∀ c ∈ errands, (Task.request c).Asked Call.Brief := by
  simp only [errands, List.forall_mem_cons]
  refine ⟨⟨trivial, by simp [Call.body]⟩, ⟨trivial, ?_⟩, ⟨trivial, by simp [Call.body]⟩,
    ⟨trivial, by simp [Call.body]⟩, by simp⟩
  simp only [Call.body, List.forall_mem_cons]
  exact ⟨.intro trivial (by simp [Call.body]), .intro trivial (by simp [Call.body]),
    .intro trivial (by simp [Call.body]), .intro trivial (by simp [Call.body]), by simp⟩

/-- The timeout that the first task of `errands` schedules is started last, behind the one that was
scheduled before it for the same time. -/
theorem errand_events_lawful : briefUsage.Brief ∧ ∃ h after before x l,
    briefUsage.Run h ((given errands).run 23) ∧
      briefUsage.events h = after ++ .started x l :: before ∧
      after.length = 1 ∧ x.id = 3 ∧ l.now = 10 ∧ (Loop.Event.started x l).Lawful before :=
  ⟨brief_briefUsage, _, [_], _, _, _, run_given asked_errands 23, rfl, rfl, rfl, rfl,
    (run_given asked_errands 23).events_lawful [_] brief_briefUsage rfl⟩

end LoopProgram

end Novella
