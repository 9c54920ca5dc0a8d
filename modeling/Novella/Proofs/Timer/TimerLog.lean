import Mathlib.Algebra.GroupWithZero.Nat
import Novella.Proofs.Timer.Cancellation

/-!
# Timers and the log of their loop

A timer and its loop are two accounts of one thing. The timer knows whether it runs, since when, and
under which number; the loop holds the timeouts, among them one for each timer that runs. Here it is
shown that the two agree at any time, whatever is asked of timers and loop and in whatever order.

What is asked is written down as a *log*, each entry with the schedule that it found. A schedule
with its log and with the timer that is about to ring is a *chronicle*: timeouts are started when
they are due, a timer rings when its timeout has been started, and whoever uses the loop leaves the
timeouts of timers alone.

## Main definitions

* `Bell` — the tasks of the timeouts of timers
* `Schedule.Deed`, `Schedule.Entry` — what happens to a schedule, and the log of it
* `Schedule.Chronicle` — a schedule with the log that led to it
* `Schedule.Tuned` — timers and loop agree
* `Schedule.Passage` — what a deed makes of one timer

## Main results

* `Schedule.passage` — what becomes of a timer
* `Schedule.Chronicle.tuned` — timers and loop agree in every chronicle
-/

namespace Novella

/-- The tasks of the timeouts of timers, which ring them. -/
structure Bell (τ : Type) where
  /-- The task that rings a timer. -/
  ring : Nat → τ
  /-- The timer that the task rings. -/
  ring? : τ → Option Nat
  ring?_eq_some {t : τ} {k : Nat} : ring? t = some k ↔ t = ring k

@[simp] theorem Bell.ring?_ring {τ : Type} (b : Bell τ) (k : Nat) : b.ring? (b.ring k) = some k :=
  b.ring?_eq_some.2 rfl

/-! ### The timeouts of timers -/

namespace Loop

variable {τ : Type} {b : Bell τ} {l : Loop τ} {x : Timeout τ} {us : List (Timeout τ)}
  {p : Timeout τ → Bool} {t : τ} {d id j k target : Nat}

theorem filter_insertTimeout_of_not (h : p x = false) :
    (insertTimeout x us).filter p = us.filter p := by
  induction us with
  | nil => simp [insertTimeout, h]
  | cons u us ih =>
    rw [insertTimeout]
    split
    · rw [List.filter_cons_of_neg (by simp [h])]
    · rw [List.filter_cons, List.filter_cons, ih]

theorem filter_insertTimeout (h : p x = true) (hu : us.filter p = []) :
    (insertTimeout x us).filter p = [x] := by
  induction us with
  | nil => simp [insertTimeout, h]
  | cons u us ih =>
    rw [insertTimeout]
    split
    · rw [List.filter_cons_of_pos h, hu]
    · have hp : p u = false := by
        simpa using List.filter_eq_nil_iff.1 hu u List.mem_cons_self
      rw [List.filter_cons_of_neg (by simp [hp])] at hu ⊢
      exact ih hu

/-- The timeouts that ring timer `k`. -/
def rings (b : Bell τ) (l : Loop τ) (k : Nat) : List (Timeout τ) :=
  l.timeouts.filter (fun x => b.ring? x.task = some k)

theorem mem_rings : x ∈ l.rings b k ↔ x ∈ l.timeouts ∧ x.task = b.ring k := by
  rw [rings, List.mem_filter, decide_eq_true_eq, b.ring?_eq_some]

theorem rings_setTimeout_of_ne (h : b.ring? t ≠ some k) :
    (l.setTimeout d t).rings b k = l.rings b k :=
  filter_insertTimeout_of_not (decide_eq_false h)

theorem rings_setTimeout (h : l.rings b k = []) :
    (l.setTimeout d (b.ring k)).rings b k = [⟨l.now + d, l.nextId, b.ring k⟩] :=
  filter_insertTimeout (decide_eq_true (b.ring?_ring k)) h

theorem rings_clearTimeout :
    (l.clearTimeout id).rings b k = (l.rings b k).filter (fun x => x.id ≠ id) := by
  rw [rings, rings, clearTimeout, List.filter_filter, List.filter_filter]
  exact congrArg (List.filter · _) (funext fun x => Bool.and_comm ..)

theorem rings_eq_cons (h : l.due? target = some x) (hk : b.ring? x.task = some k) :
    l.rings b k = x :: (l.leave x).rings b k := by
  have hl := (due?_eq_some h).1
  rw [rings, hl, List.filter_cons_of_pos (by simpa using hk)]
  rfl

theorem rings_leave_of_ne (h : l.due? target = some x) (hk : b.ring? x.task ≠ some k) :
    (l.leave x).rings b k = l.rings b k := by
  have hl := (due?_eq_some h).1
  rw [rings, rings, hl, List.filter_cons_of_neg (by simpa using hk)]
  rfl

/-- The loop is in order: no timeout is overdue, all are numbered, no number is given twice, and no
microtask rings a timer. -/
structure InOrder (b : Bell τ) (l : Loop τ) : Prop where
  /-- No timeout is overdue. -/
  timely : l.Timely
  /-- All timeouts have been numbered. -/
  numbered : l.Numbered
  /-- No number is given twice. -/
  distinct : l.timeouts.Pairwise (fun x y => x.id ≠ y.id)
  /-- Microtasks do not ring timers. -/
  microtasks : ∀ t ∈ l.microtasks, b.ring? t = none

namespace InOrder

theorem queueMicrotask (h : l.InOrder b) (ht : b.ring? t = none) :
    (l.queueMicrotask t).InOrder b := by
  refine ⟨h.timely.make (.queue t), h.numbered, h.distinct, fun u hu => ?_⟩
  rcases List.mem_append.1 hu with hu | hu
  · exact h.microtasks u hu
  · rw [List.mem_singleton.1 hu, ht]

theorem pairwise_insertTimeout (h : us.Pairwise fun x y => x.id ≠ y.id)
    (hx : ∀ u ∈ us, u.id ≠ x.id) : (insertTimeout x us).Pairwise fun x y => x.id ≠ y.id := by
  induction us with
  | nil => simp [insertTimeout]
  | cons u us ih =>
    obtain ⟨hu, hus⟩ := List.pairwise_cons.1 h
    obtain ⟨hux, hmore⟩ := List.forall_mem_cons.1 hx
    rw [insertTimeout]
    split
    · exact List.pairwise_cons.2
        ⟨List.forall_mem_cons.2 ⟨hux.symm, fun v hv => (hmore v hv).symm⟩, h⟩
    · refine List.pairwise_cons.2 ⟨fun v hv => ?_, ih hus hmore⟩
      rcases mem_insertTimeout.1 hv with rfl | hv
      · exact hux
      · exact hu v hv

theorem setTimeout (h : l.InOrder b) (d : Nat) (t : τ) : (l.setTimeout d t).InOrder b :=
  ⟨h.timely.make (.schedule d t), (Precedes.setTimeout l d t).numbered h.numbered,
    pairwise_insertTimeout h.distinct fun u hu => Nat.ne_of_lt (h.numbered u hu), h.microtasks⟩

theorem clearTimeout (h : l.InOrder b) (id : Nat) : (l.clearTimeout id).InOrder b :=
  ⟨h.timely.make (.clear id), (Precedes.clearTimeout l id).numbered h.numbered,
    h.distinct.filter _, h.microtasks⟩

theorem tail (h : l.InOrder b) : { l with microtasks := l.microtasks.tail }.InOrder b :=
  ⟨⟨h.timely.sorted, h.timely.ahead⟩, h.numbered, h.distinct,
    fun t ht => h.microtasks t (List.mem_of_mem_tail ht)⟩

theorem leave (h : l.InOrder b) (hx : l.due? target = some x) : (l.leave x).InOrder b :=
  ⟨h.timely.leave hx, (Precedes.leave l x).numbered h.numbered,
    h.distinct.sublist (List.tail_sublist _), h.microtasks⟩

theorem arrive (h : l.InOrder b) (hn : l.due? target = none) : { l with now := target }.InOrder b :=
  ⟨h.timely.arrive hn, h.numbered, h.distinct, h.microtasks⟩

/-- A number says which timeout is meant. -/
theorem eq_of_id_eq {y : Timeout τ} (h : us.Pairwise fun x y => x.id ≠ y.id) (hx : x ∈ us)
    (hy : y ∈ us) (hid : x.id = y.id) : x = y := by
  induction us with
  | nil => cases hx
  | cons u us ih =>
    obtain ⟨hu, hus⟩ := List.pairwise_cons.1 h
    rcases List.mem_cons.1 hx with rfl | hx' <;> rcases List.mem_cons.1 hy with rfl | hy'
    · rfl
    · exact absurd hid (hu y hy')
    · exact absurd hid.symm (hu x hx')
    · exact ih hus hx' hy'

/-- A number says which timer a timeout rings. -/
theorem ring_unique (h : l.InOrder b) {y : Timeout τ} (hx : x ∈ l.rings b j) (hy : y ∈ l.rings b k)
    (hid : x.id = y.id) : j = k := by
  obtain ⟨hx, hj⟩ := mem_rings.1 hx
  obtain ⟨hy, hk⟩ := mem_rings.1 hy
  rw [← eq_of_id_eq h.distinct hx hy hid] at hk
  exact Option.some.inj ((b.ring?_eq_some.2 hj).symm.trans (b.ring?_eq_some.2 hk))

end InOrder

end Loop

namespace Timer

variable {τ : Type}

/-- The timeouts that timer `k` has, when it is `t`. -/
def timeouts (b : Bell τ) (k : Nat) (t : Timer τ) : List (Timeout τ) :=
  t.handle.toList.map fun id => ⟨t.scheduledAt + t.duration, id, b.ring k⟩

/-- The timer as it is when it has been armed. -/
def armed (t : Timer τ) (l : Loop τ) : Timer τ :=
  { t with state := .running, handle := some l.nextId, scheduledAt := l.now }

/-- The timer as it is when it has been stopped. -/
def stopped (t : Timer τ) (x : TimerState) : Timer τ := { t with state := x, handle := none }

/-- A timer that has been cancelled does not run. -/
@[simp] theorem isPending_cancelled (t : Timer τ) :
    (t.stopped (if t.state = .finished then .finished else .cancelled)).isPending = false := by
  rw [stopped, isPending]
  split <;> rfl

end Timer

/-! ### Deeds -/

namespace Schedule

variable {τ : Type} {b : Bell τ}

/-- What happens to a schedule. -/
inductive Deed (τ : Type) where
  /-- A call is made. -/
  | call (c : Call τ)
  /-- A microtask is taken off the loop. -/
  | take
  /-- Time is going to be moved. -/
  | advance (d : Nat)
  /-- A timeout is started. -/
  | leave (x : Timeout τ)
  /-- A timer rings. -/
  | ring (k : Nat)
  /-- An advance comes to its end. -/
  | arrive (target : Nat)

/-- A deed with the schedule that it found. -/
structure Entry (τ : Type) where
  /-- The schedule before. -/
  found : Schedule τ
  /-- The deed. -/
  deed : Deed τ

/-- The schedule after a deed. -/
def follow (b : Bell τ) (s : Schedule τ) : Deed τ → Schedule τ
  | .call c => s.make b.ring c
  | .take => { s with loop := { s.loop with microtasks := s.loop.microtasks.tail } }
  | .advance _ => s
  | .leave x => { s with loop := s.loop.leave x }
  | .ring k => (s.ring b.ring k).1
  | .arrive target => { s with loop := { s.loop with now := target } }

namespace Deed

/-- How far time is going to be moved. -/
def distance : Deed τ → Nat
  | advance d => d
  | _ => 0

/-- The timer that is going to ring after the deed. -/
def due? (b : Bell τ) : Deed τ → Option Nat
  | leave x => b.ring? x.task
  | _ => none

end Deed

/-- How far time is to be moved in all. -/
def elapsed (log : List (Entry τ)) : Nat := (log.map fun e => e.deed.distance).sum

theorem elapsed_append (log log' : List (Entry τ)) :
    elapsed (log ++ log') = elapsed log + elapsed log' := by
  rw [elapsed, List.map_append, List.sum_append]
  rfl

/-- Time is being moved: an advance has begun and not come to its end. -/
def underWay : List (Entry τ) → Bool
  | [] => false
  | e :: log =>
    match e.deed with
    | .advance _ => true
    | .arrive _ => false
    | _ => underWay log

/-- The call leaves the timeouts of timers alone. -/
def Fair (b : Bell τ) (s : Schedule τ) : Call τ → Prop
  | .loop (.queue t) | .loop (.schedule _ t) | .add _ _ t => b.ring? t = none
  | .loop (.clear id) => ∀ x ∈ s.loop.timeouts, x.id = id → b.ring? x.task = none
  | _ => True

/-- What may happen after a log. Timer `due` is about to ring, if it is a timer. -/
def May (b : Bell τ) (log : List (Entry τ)) (s : Schedule τ) (due : Option Nat) : Deed τ → Prop
  | .call c => due = none ∧ s.Fair b c
  | .take => due = none
  | .advance _ => due = none ∧ s.loop.now = elapsed log
  | .leave x => due = none ∧ s.loop.due? (elapsed log) = some x
  | .ring k => due = some k
  | .arrive target => due = none ∧ target = elapsed log ∧ s.loop.due? target = none

/-- The log leads to the schedule. Timer `due` is about to ring, if it is a timer. -/
inductive Chronicle (b : Bell τ) : List (Entry τ) → Schedule τ → Option Nat → Prop
  /-- Nothing has happened yet. -/
  | start : Chronicle b [] {} none
  /-- One thing more happens. -/
  | next {log : List (Entry τ)} {s : Schedule τ} {due : Option Nat} {d : Deed τ} :
    Chronicle b log s due → May b log s due d →
      Chronicle b (⟨s, d⟩ :: log) (s.follow b d) (d.due? b)

/-! ### Timers and loop agree -/

/-- Timers and loop agree. Timer `due` is about to ring, if it is a timer: it still runs, but its
timeout has been taken off the loop. -/
structure Tuned (b : Bell τ) (s : Schedule τ) (due : Option Nat) : Prop where
  /-- The loop is in order. -/
  loop : s.loop.InOrder b
  /-- Callbacks do not ring timers. -/
  callback {k : Nat} {t : Timer τ} : s.timers[k]? = some t → b.ring? t.callback = none
  /-- A timer has the number of a timeout while it runs. -/
  handle {k : Nat} {t : Timer τ} : s.timers[k]? = some t → t.isPending = t.handle.isSome
  /-- It has not been armed in the future. -/
  armed {k : Nat} {t : Timer τ} : s.timers[k]? = some t → t.scheduledAt ≤ s.loop.now
  /-- Each timer that runs has its timeout on the loop, and no other. -/
  rings (k : Nat) : s.loop.rings b k =
    if due = some k then [] else (s.timers[k]?.map (Timer.timeouts b k)).getD []
  /-- A timer rings while it runs, at the time that it was armed for. -/
  due {k : Nat} : due = some k → ∃ t, s.timers[k]? = some t ∧ t.isPending = true ∧
    s.loop.now = t.scheduledAt + t.duration

namespace Tuned

variable {s : Schedule τ} {due : Option Nat} {j k : Nat} {t t' u : Timer τ} {l : Loop τ}
  {x : Timeout τ}

theorem start : ({} : Schedule τ).Tuned b none where
  loop := ⟨⟨.nil, nofun⟩, nofun, .nil, nofun⟩
  callback h := by simp at h
  handle h := by simp at h
  armed h := by simp at h
  rings k := rfl
  due h := by cases h

theorem rings_of_ne (h : s.Tuned b due) (hk : due ≠ some k) (ht : s.timers[k]? = some t) :
    s.loop.rings b k = t.timeouts b k := by
  rw [h.rings, if_neg hk, ht]
  rfl

/-- The loop goes on, and the timers stay as they are. -/
theorem withLoop (h : s.Tuned b none) (hl : l.InOrder b) (hnow : s.loop.now ≤ l.now)
    (hrings : ∀ k, l.rings b k = s.loop.rings b k) : { s with loop := l }.Tuned b none where
  loop := hl
  callback := h.callback
  handle := h.handle
  armed ht := Nat.le_trans (h.armed ht) hnow
  rings k := (hrings k).trans (h.rings k)
  due hd := by cases hd

/-- One timer is replaced, and its timeouts with it. -/
theorem setTimer (h : s.Tuned b due) (hd : ∀ k, due = some k → k = j)
    (ht : s.timers[j]? = some t) (hc : u.callback = t.callback)
    (hp : u.isPending = u.handle.isSome) (ha : u.scheduledAt ≤ l.now) (hl : l.InOrder b)
    (hnow : l.now = s.loop.now) (hj : l.rings b j = u.timeouts b j)
    (hrings : ∀ k, k ≠ j → l.rings b k = s.loop.rings b k) :
    { s.setTimer j u with loop := l }.Tuned b none := by
  have hget {k : Nat} {v : Timer τ} (hu : (s.setTimer j u).timers[k]? = some v) :
      k = j ∧ v = u ∨ k ≠ j ∧ s.timers[k]? = some v := by
    by_cases hk : k = j
    · subst hk
      exact .inl ⟨rfl, Option.some.inj (hu.symm.trans (getElem?_setTimer_self ht u))⟩
    · exact .inr ⟨hk, (getElem?_setTimer_of_ne (Ne.symm hk) u).symm.trans hu⟩
  refine ⟨hl, fun hu => ?_, fun hu => ?_, fun hu => ?_, fun k => ?_, nofun⟩
  · rcases hget hu with ⟨-, rfl⟩ | ⟨-, hu⟩
    · rw [hc]
      exact h.callback ht
    · exact h.callback hu
  · rcases hget hu with ⟨-, rfl⟩ | ⟨-, hu⟩
    · exact hp
    · exact h.handle hu
  · rcases hget hu with ⟨-, rfl⟩ | ⟨-, hu⟩
    · exact ha
    · exact Nat.le_trans (h.armed hu) (Nat.le_of_eq hnow.symm)
  · rw [if_neg nofun]
    by_cases hk : k = j
    · subst hk
      exact hj.trans (by rw [getElem?_setTimer_self ht]; rfl)
    · have hdue : due ≠ some k := fun he => hk (hd k he)
      rw [hrings k hk, h.rings, if_neg hdue, getElem?_setTimer_of_ne (Ne.symm hk)]

/-- A timer that runs has its timeout on the loop, unless it is about to ring. -/
theorem exists_rings_eq (h : s.Tuned b due) (hk : due ≠ some k) (ht : s.timers[k]? = some t)
    (hp : t.isPending = true) :
    ∃ id, s.loop.rings b k = [⟨t.scheduledAt + t.duration, id, b.ring k⟩] := by
  have hh := h.handle ht
  rw [hp] at hh
  obtain ⟨id, hid⟩ := Option.isSome_iff_exists.1 hh.symm
  refine ⟨id, ?_⟩
  rw [h.rings_of_ne hk ht, Timer.timeouts, hid]
  rfl

/-- A timeout that rings a timer is the only one, and the timer runs. -/
theorem timer_of_mem_rings (h : s.Tuned b due) (hx : x ∈ s.loop.rings b k) : ∃ t,
    s.timers[k]? = some t ∧ t.isPending = true ∧ x = ⟨t.scheduledAt + t.duration, x.id, b.ring k⟩ ∧
      s.loop.rings b k = [x] ∧ due ≠ some k := by
  have hk := h.rings k
  split at hk
  · rw [hk] at hx
    cases hx
  · next hd =>
    cases ht : s.timers[k]? with
    | none =>
      rw [hk, ht] at hx
      cases hx
    | some t =>
      have hp := h.handle ht
      rw [ht, Option.map_some, Option.getD_some, Timer.timeouts] at hk
      cases hh : t.handle with
      | none =>
        rw [hk, hh] at hx
        cases hx
      | some id =>
        rw [hh] at hk hp
        rw [hk] at hx
        have hx : x = ⟨t.scheduledAt + t.duration, id, b.ring k⟩ := List.mem_singleton.1 hx
        exact ⟨t, rfl, hp, by rw [hx], hk.trans (by rw [hx]; rfl), hd⟩

/-! ### Operations -/

theorem queueMicrotask (h : s.Tuned b none) {v : τ} (hv : b.ring? v = none) :
    { s with loop := s.loop.queueMicrotask v }.Tuned b none :=
  h.withLoop (h.loop.queueMicrotask hv) (Nat.le_refl _) fun _ => rfl

theorem setTimeout (h : s.Tuned b none) (d : Nat) {v : τ} (hv : b.ring? v = none) :
    { s with loop := s.loop.setTimeout d v }.Tuned b none :=
  h.withLoop (h.loop.setTimeout d v) (Nat.le_refl _) fun k =>
    Loop.rings_setTimeout_of_ne (by simp [hv])

/-- Timeouts that ring no timer may be taken back. -/
theorem clearTimeout (h : s.Tuned b none) {id : Nat}
    (hid : ∀ x ∈ s.loop.timeouts, x.id = id → b.ring? x.task = none) :
    { s with loop := s.loop.clearTimeout id }.Tuned b none := by
  refine h.withLoop (h.loop.clearTimeout id) (Nat.le_refl _) fun k => ?_
  rw [Loop.rings_clearTimeout, List.filter_eq_self]
  intro x hx
  obtain ⟨hx, hk⟩ := Loop.mem_rings.1 hx
  refine decide_eq_true fun he => ?_
  have hnone := hid x hx he
  rw [hk, b.ring?_ring] at hnone
  cases hnone

theorem addTimer (h : s.Tuned b none) {t : Timer τ} (hc : b.ring? t.callback = none)
    (hs : t.isPending = false) (hh : t.handle = none) (ha : t.scheduledAt = 0) :
    (s.addTimer t).Tuned b none := by
  have hget {k : Nat} {u : Timer τ} (hu : (s.addTimer t).timers[k]? = some u) :
      u = t ∨ s.timers[k]? = some u := by
    rw [Schedule.addTimer, Array.getElem?_push] at hu
    split at hu
    · exact .inl (Option.some.inj hu).symm
    · exact .inr hu
  refine ⟨h.loop, fun hu => ?_, fun hu => ?_, fun hu => ?_, fun k => ?_, nofun⟩
  · rcases hget hu with rfl | hu
    · exact hc
    · exact h.callback hu
  · rcases hget hu with rfl | hu
    · rw [hs, hh]
      rfl
    · exact h.handle hu
  · rcases hget hu with rfl | hu
    · exact ha ▸ Nat.zero_le _
    · exact h.armed hu
  · -- the new timer has no timeout, as it had none when there was no such timer
    have hk := h.rings k
    rw [if_neg nofun] at hk ⊢
    rw [Schedule.addTimer, Array.getElem?_push]
    split
    · next heq =>
      rw [heq, Array.getElem?_size] at hk
      rw [heq, hk]
      simp [Timer.timeouts, hh]
    · exact hk

/-- A timer that has no timeout is armed. -/
theorem arm (h : s.Tuned b due) (hd : ∀ k, due = some k → k = j) (ht : s.timers[j]? = some t)
    (hu : u.callback = t.callback) (hn : s.loop.rings b j = []) :
    (s.arm b.ring j u).Tuned b none := by
  refine h.setTimer (u := u.armed s.loop) hd ht hu rfl (Nat.le_refl _)
    (h.loop.setTimeout u.duration (b.ring j)) rfl (Loop.rings_setTimeout hn) fun k hk => ?_
  refine Loop.rings_setTimeout_of_ne fun he => hk ?_
  exact (Option.some.inj ((b.ring?_ring j).symm.trans he)).symm

/-- A timer is stopped, and its timeout taken back. -/
theorem disarm (h : s.Tuned b none) (ht : s.timers[j]? = some t) {x : TimerState}
    (hx : x ≠ .running) : (s.disarm j t x).Tuned b none := by
  have hrings := h.rings_of_ne nofun ht
  have ha := h.armed ht
  have hstop (l : Loop τ) := h.setTimer (u := t.stopped x) (l := l) nofun ht rfl
    (by simp [Timer.stopped, Timer.isPending, hx])
  rw [Schedule.disarm]
  cases hh : t.handle with
  | none =>
    refine hstop s.loop ha h.loop rfl ?_ fun _ _ => rfl
    rw [hrings, Timer.timeouts, hh]
    rfl
  | some id =>
    refine hstop (s.loop.clearTimeout id) ha (h.loop.clearTimeout id) rfl ?_ fun k hk => ?_
    · rw [Loop.rings_clearTimeout, hrings, Timer.timeouts, hh]
      simp [Timer.timeouts, Timer.stopped]
    · -- the number is that of another timer's timeout
      rw [Loop.rings_clearTimeout, List.filter_eq_self]
      intro y hy
      refine decide_eq_true fun he => hk ?_
      have hid : ⟨t.scheduledAt + t.duration, id, b.ring j⟩ ∈ s.loop.rings b j := by
        rw [hrings, Timer.timeouts, hh]
        exact List.mem_singleton_self _
      exact h.loop.ring_unique hy hid he

theorem startTimer (h : s.Tuned b none) (j : Nat) : (s.start b.ring j).Tuned b none := by
  rw [Schedule.start]
  split
  · next t ht =>
    split
    · exact h
    · next hp =>
      refine h.arm (by simp) ht rfl ?_
      rw [h.rings_of_ne (by simp) ht, Timer.timeouts]
      have hn : t.handle = none := by simpa [hp] using h.handle ht
      rw [hn]
      rfl
  · exact h

theorem pause (h : s.Tuned b none) (j : Nat) : (s.pause j).1.Tuned b none := by
  rw [Schedule.pause]
  split
  · next t ht =>
    split
    · exact h.disarm ht (by simp)
    · exact h
  · exact h

theorem cancel (h : s.Tuned b none) (j : Nat) : (s.cancel j).Tuned b none := by
  rw [Schedule.cancel]
  split
  · next t ht =>
    refine h.disarm ht ?_
    split <;> simp
  · exact h

theorem skip (h : s.Tuned b none) (j : Nat) : (s.skip j).1.Tuned b none := by
  rw [Schedule.skip]
  split
  · next t ht =>
    have hs := (h.disarm ht (x := .finished) (by simp)).setTimeout 0 (h.callback ht)
    split
    · exact hs
    · exact hs
    · exact h
  · exact h

/-- A fair call keeps timers and loop in agreement. -/
theorem make (h : s.Tuned b none) {c : Call τ} (hf : s.Fair b c) :
    (s.make b.ring c).Tuned b none := by
  cases c with
  | loop c =>
    cases c with
    | queue t => exact h.queueMicrotask hf
    | schedule d t => exact h.setTimeout d hf
    | clear id => exact h.clearTimeout hf
  | add d repeats callback => exact h.addTimer hf rfl rfl rfl
  | start k => exact h.startTimer k
  | pause k => exact h.pause k
  | cancel k => exact h.cancel k
  | skip k => exact h.skip k

/-- A timer rings whose timeout has been started. -/
theorem ring (h : s.Tuned b (some j)) : (s.ring b.ring j).1.Tuned b none := by
  obtain ⟨t, ht, hp, -⟩ := h.due rfl
  have hn : s.loop.rings b j = [] := (h.rings j).trans (if_pos rfl)
  have hd (k : Nat) (he : some j = some k) : k = j := (Option.some.inj he).symm
  have ha := h.armed ht
  simp only [Schedule.ring, ht, hp, if_true]
  split
  · exact h.arm hd ht rfl hn
  · exact h.setTimer (u := t.stopped .finished) hd ht rfl rfl ha h.loop rfl hn
      fun _ _ => rfl

/-- The next timeout is started. If it rings a timer, the timer is about to ring. -/
theorem leave (h : s.Tuned b none) {target : Nat} (hx : s.loop.due? target = some x) :
    { s with loop := s.loop.leave x }.Tuned b (b.ring? x.task) := by
  have hnow : s.loop.now ≤ x.deadline :=
    h.loop.timely.ahead x ((Loop.due?_eq_some hx).1 ▸ List.mem_cons_self)
  refine ⟨h.loop.leave hx, h.callback, h.handle, fun ht => Nat.le_trans (h.armed ht) hnow,
    fun k => ?_, fun {k} hk => ?_⟩
  · split
    · next hk =>
      have hcons := Loop.rings_eq_cons hx hk
      obtain ⟨-, -, -, -, hone, -⟩ := h.timer_of_mem_rings (hcons ▸ List.mem_cons_self)
      exact (List.cons.inj (hcons.symm.trans hone)).2
    · next hk =>
      rw [Loop.rings_leave_of_ne hx hk, h.rings, if_neg nofun]
  · have hcons := Loop.rings_eq_cons hx hk
    obtain ⟨t, ht, hp, hxt, -, -⟩ := h.timer_of_mem_rings (hcons ▸ List.mem_cons_self)
    exact ⟨t, ht, hp, congrArg Timeout.deadline hxt⟩

end Tuned

/-! ### Time and numbers -/

section

/-- Whatever happens, old numbers stay with their timeouts. -/
theorem precedes_follow (s : Schedule τ) (d : Deed τ) : s.loop.Precedes (s.follow b d).loop := by
  cases d with
  | call c =>
    cases c with
    | loop c => exact .make s.loop c
    | add d repeats callback => exact .refl s.loop
    | start k => exact (Changes.start s k).precedes
    | pause k => exact (Changes.pause s k).precedes
    | cancel k => exact (Changes.cancel s k).precedes
    | skip k => exact (Changes.skip s k).precedes
  | ring k => exact (Changes.rings s k).precedes
  | leave x => exact .leave s.loop x
  | _ => exact .of_subset rfl (List.Subset.refl _)

variable {f : Nat → τ} {s : Schedule τ}

theorem now_disarm (s : Schedule τ) (k : Nat) (t : Timer τ) (x : TimerState) :
    (s.disarm k t x).loop.now = s.loop.now := by
  rw [disarm]
  cases t.handle <;> rfl

/-- Calls take no time. -/
theorem now_make (s : Schedule τ) (c : Call τ) : (s.make f c).loop.now = s.loop.now := by
  cases c with
  | loop c => cases c <;> rfl
  | add d repeats callback => rfl
  | start k =>
    simp only [make, start]
    split
    · split <;> rfl
    · rfl
  | pause k =>
    simp only [make, pause]
    split
    · split
      · exact now_disarm ..
      · rfl
    · rfl
  | cancel k =>
    simp only [make, cancel]
    split
    · exact now_disarm ..
    · rfl
  | skip k =>
    simp only [make, skip]
    split
    · split
      · exact now_disarm ..
      · exact now_disarm ..
      · rfl
    · rfl

/-- It takes no time to ring. -/
theorem now_ring (s : Schedule τ) (k : Nat) : (s.ring f k).1.loop.now = s.loop.now := by
  rw [ring]
  split
  · split
    · dsimp only
      split <;> rfl
    · rfl
  · rfl

end

namespace Chronicle

variable {log : List (Entry τ)} {s : Schedule τ} {due : Option Nat}

@[simp] theorem elapsed_cons (e : Entry τ) (log : List (Entry τ)) :
    elapsed (e :: log) = e.deed.distance + elapsed log := List.sum_cons

/-- Time does not move further than it is to be moved. -/
theorem now_le_elapsed (h : Chronicle b log s due) : s.loop.now ≤ elapsed log := by
  induction h with
  | start => exact Nat.le_refl _
  | @next log s due d _ hd ih =>
    rw [elapsed_cons]
    cases d with
    | call c => exact Nat.le_trans (Nat.le_of_eq (now_make s c)) (Nat.le_add_left_of_le ih)
    | take => exact Nat.le_add_left_of_le ih
    | advance d => exact Nat.le_add_left_of_le ih
    | leave x => exact Nat.le_add_left_of_le (Loop.due?_eq_some hd.2).2
    | ring k => exact Nat.le_trans (Nat.le_of_eq (now_ring s k)) (Nat.le_add_left_of_le ih)
    | arrive target => exact Nat.le_add_left_of_le (Nat.le_of_eq hd.2.1)

/-- **Timers and loop agree in every chronicle.** -/
theorem tuned (h : Chronicle b log s due) : s.Tuned b due := by
  induction h with
  | start => exact .start
  | @next log s due d h hd ih =>
    cases d with
    | call c =>
      obtain ⟨rfl, hf⟩ := hd
      exact ih.make hf
    | take =>
      obtain rfl := hd
      exact ih.withLoop ih.loop.tail (Nat.le_refl _) fun _ => rfl
    | advance d =>
      obtain ⟨rfl, -⟩ := hd
      exact ih
    | leave x =>
      obtain ⟨rfl, hx⟩ := hd
      exact ih.leave hx
    | ring k =>
      obtain rfl := hd
      exact ih.ring
    | arrive target =>
      obtain ⟨rfl, rfl, hn⟩ := hd
      exact ih.withLoop (ih.loop.arrive hn) h.now_le_elapsed fun _ => rfl

/-- Time has been moved as far as it was to be moved, unless it is being moved. -/
theorem now_eq_elapsed (h : Chronicle b log s due) (hu : underWay log = false) :
    s.loop.now = elapsed log := by
  refine Nat.le_antisymm h.now_le_elapsed ?_
  induction h with
  | start => exact Nat.le_refl _
  | @next log s due d h hd ih =>
    rw [elapsed_cons]
    cases d with
    | call c => simpa [follow, Deed.distance, now_make] using ih hu
    | take => simpa [follow, Deed.distance] using ih hu
    | advance d => cases hu
    | leave x =>
      have hnow : s.loop.now ≤ x.deadline :=
        h.tuned.loop.timely.ahead x ((Loop.due?_eq_some hd.2).1 ▸ List.mem_cons_self)
      simpa [follow, Deed.distance, Loop.leave] using Nat.le_trans (ih hu) hnow
    | ring k => simpa [follow, Deed.distance, now_ring] using ih hu
    | arrive target => simp [follow, Deed.distance, hd.2.1]

end Chronicle

/-! ### Timeouts that ring no timer -/

section

variable {s : Schedule τ} {k : Nat} {t : Timer τ} {x : Timeout τ}

theorem mem_arm (hx : x ∈ s.loop.timeouts) (k : Nat) (t : Timer τ) :
    x ∈ (s.arm b.ring k t).loop.timeouts :=
  Loop.mem_insertTimeout.2 (.inr hx)

/-- To stop a timer takes back no timeout but its own. -/
theorem Tuned.mem_disarm (h : s.Tuned b none) (ht : s.timers[k]? = some t)
    (hx : x ∈ s.loop.timeouts) (hr : b.ring? x.task = none) (state : TimerState) :
    x ∈ (s.disarm k t state).loop.timeouts := by
  rw [Schedule.disarm]
  cases hh : t.handle with
  | none => exact hx
  | some id =>
    refine List.mem_filter.2 ⟨hx, decide_eq_true fun hid => ?_⟩
    have hown : ⟨t.scheduledAt + t.duration, id, b.ring k⟩ ∈ s.loop.rings b k := by
      rw [h.rings_of_ne (by simp) ht, Timer.timeouts, hh]
      exact List.mem_singleton_self _
    obtain rfl := Loop.InOrder.eq_of_id_eq h.loop.distinct hx (Loop.mem_rings.1 hown).1 hid
    rw [b.ring?_ring] at hr
    cases hr

/-- A call leaves a timeout that rings no timer where it is, unless it takes it back. -/
theorem Tuned.mem_make (h : s.Tuned b none) (hx : x ∈ s.loop.timeouts)
    (hr : b.ring? x.task = none) (c : Call τ) :
    x ∈ (s.make b.ring c).loop.timeouts ∨ c = .loop (.clear x.id) := by
  cases c with
  | loop c =>
    cases c with
    | queue t => exact .inl hx
    | schedule d t => exact .inl (Loop.mem_insertTimeout.2 (.inr hx))
    | clear id =>
      by_cases hid : x.id = id
      · exact .inr (by rw [hid])
      · exact .inl (List.mem_filter.2 ⟨hx, decide_eq_true hid⟩)
  | add d repeats callback => exact .inl hx
  | start k =>
    refine .inl ?_
    simp only [Schedule.make, Schedule.start]
    split
    · split
      · exact hx
      · exact mem_arm hx ..
    · exact hx
  | pause k =>
    refine .inl ?_
    simp only [Schedule.make, Schedule.pause]
    split
    · next t ht =>
      split
      · exact h.mem_disarm ht hx hr _
      · exact hx
    · exact hx
  | cancel k =>
    refine .inl ?_
    simp only [Schedule.make, Schedule.cancel]
    split
    · next t ht => exact h.mem_disarm ht hx hr _
    · exact hx
  | skip k =>
    refine .inl ?_
    simp only [Schedule.make, Schedule.skip]
    split
    · next t ht =>
      have hm := h.mem_disarm ht hx hr .finished
      split
      · exact Loop.mem_insertTimeout.2 (.inr hm)
      · exact Loop.mem_insertTimeout.2 (.inr hm)
      · exact hx
    · exact hx

/-- A timeout that rings no timer stays where it is, unless it is started or taken back. -/
theorem Chronicle.mem_follow {log : List (Entry τ)} {due : Option Nat} {d : Deed τ}
    (h : Chronicle b log s due) (hd : May b log s due d) (hx : x ∈ s.loop.timeouts)
    (hr : b.ring? x.task = none) :
    x ∈ (s.follow b d).loop.timeouts ∨ d = .leave x ∨ d = .call (.loop (.clear x.id)) := by
  cases d with
  | call c =>
    obtain ⟨rfl, -⟩ := hd
    exact (h.tuned.mem_make hx hr c).imp_right fun hc => .inr (by rw [hc])
  | leave y =>
    obtain ⟨rfl, hy⟩ := hd
    rw [(Loop.due?_eq_some hy).1] at hx
    rcases List.mem_cons.1 hx with rfl | hx
    · exact .inr (.inl rfl)
    · exact .inl hx
  | ring k =>
    refine .inl ?_
    simp only [follow, ring]
    split
    · split
      · dsimp only
        split
        · exact mem_arm hx ..
        · exact hx
      · exact hx
    · exact hx
  | _ => exact .inl hx

end

/-! ### One timer -/

namespace Entry

variable (k : Nat) (e : Entry τ)

/-- Timer `k` is started, and did not run. -/
def starts : Bool :=
  match e.deed with
  | .call (.start j) => j = k && e.found.timers[k]?.any fun t => !t.isPending
  | _ => false

/-- Timer `k` rings. -/
def rings : Bool :=
  match e.deed with
  | .ring j => j = k
  | _ => false

/-- Timer `k` is skipped, and there was something to skip. -/
def skips : Bool :=
  match e.deed with
  | .call (.skip j) => j = k && (e.found.skip k).2
  | _ => false

/-- Timer `k` is to be paused, cancelled or skipped. -/
def stops : Bool :=
  match e.deed with
  | .call (.pause j) | .call (.cancel j) | .call (.skip j) => j = k
  | _ => false

variable {k e}

theorem starts_eq_true : e.starts k = true ↔
    e.deed = .call (.start k) ∧ ∃ t, e.found.timers[k]? = some t ∧ t.isPending = false := by
  rw [starts]
  split
  · next j hd =>
    rw [hd, Bool.and_eq_true, decide_eq_true_eq, Option.any_eq_true]
    constructor
    · rintro ⟨rfl, t, ht, hp⟩
      exact ⟨rfl, t, ht, by simpa using hp⟩
    · rintro ⟨hj, t, ht, hp⟩
      cases hj
      exact ⟨rfl, t, ht, by simpa using hp⟩
  · next hd => exact ⟨nofun, fun h => absurd h.1 (hd k)⟩

theorem rings_eq_true : e.rings k = true ↔ e.deed = .ring k := by
  rw [rings]
  split
  · next j hd =>
    rw [hd, decide_eq_true_eq]
    exact ⟨fun h => h ▸ rfl, fun h => by cases h; rfl⟩
  · next hd => exact ⟨nofun, fun h => absurd h (hd k)⟩

theorem skips_eq_true : e.skips k = true ↔
    e.deed = .call (.skip k) ∧ (e.found.skip k).2 = true := by
  rw [skips]
  split
  · next j hd =>
    rw [hd, Bool.and_eq_true, decide_eq_true_eq]
    constructor
    · rintro ⟨rfl, h⟩
      exact ⟨rfl, h⟩
    · rintro ⟨hj, h⟩
      cases hj
      exact ⟨rfl, h⟩
  · next hd => exact ⟨nofun, fun h => absurd h.1 (hd k)⟩

theorem stops_of_skips (h : e.skips k = true) : e.stops k = true := by
  simp [stops, (skips_eq_true.1 h).1]

end Entry

/-- What a deed makes of timer `k`. -/
inductive Passage (k : Nat) (e : Entry τ) : Option (Timer τ) → Option (Timer τ) → Prop
  /-- It stays as it is, if there is such a timer. -/
  | stays {o : Option (Timer τ)} : e.starts k = false → e.rings k = false → e.skips k = false →
    (∀ t ∈ o, t.isPending = true → e.stops k = false) → Passage k e o o
  /-- It is made. -/
  | made {d : Nat} {repeats : Bool} {callback : τ} : e.deed = .call (.add d repeats callback) →
    e.found.timers.size = k → Passage k e none (some { duration := d, repeats, callback })
  /-- It is started. -/
  | started {t : Timer τ} : e.starts k = true → t.isPending = false →
    Passage k e (some t) (some (t.armed e.found.loop))
  /-- It is paused. -/
  | paused {t : Timer τ} : e.deed = .call (.pause k) → t.isPending = true →
    Passage k e (some t)
      (some (t.stopped (.paused (t.duration - (e.found.loop.now - t.scheduledAt)))))
  /-- It is cancelled. -/
  | cancelled {t : Timer τ} : e.deed = .call (.cancel k) →
    Passage k e (some t) (some (t.stopped (if t.state = .finished then .finished else .cancelled)))
  /-- It is skipped. -/
  | skipped {t : Timer τ} : e.skips k = true →
    (t.isPending = true ∨ ∃ left, t.state = .paused left) →
    Passage k e (some t) (some (t.stopped .finished))
  /-- It rings for the only time. -/
  | finished {t : Timer τ} : e.rings k = true → t.isPending = true → t.repeats = false →
    Passage k e (some t) (some (t.stopped .finished))
  /-- It rings, and is armed again. -/
  | beaten {t : Timer τ} : e.rings k = true → t.isPending = true → t.repeats = true →
    Passage k e (some t) (some (t.armed e.found.loop))

section

variable {s : Schedule τ} {j k : Nat} {t : Timer τ}

/-- The deed has to do with another timer, if with any. -/
theorem Passage.of_eq {e : Entry τ} {o o' : Option (Timer τ)} (ho : o' = o)
    (hs : e.starts k = false) (hr : e.rings k = false) (hk : e.skips k = false)
    (hp : e.stops k = false) : Passage k e o o' := by
  subst ho
  exact .stays hs hr hk fun _ _ _ => hp

/-- A timer runs or is paused if there is something to skip. -/
theorem skip_eq_true_iff (ht : s.timers[k]? = some t) :
    (s.skip k).2 = true ↔ t.isPending = true ∨ ∃ left, t.state = .paused left := by
  rw [skip, ht]
  cases hs : t.state <;> simp [Timer.isPending, hs]

theorem skip_eq_false (h : (s.skip k).2 = false) : (s.skip k).1 = s := by
  rw [skip] at h ⊢
  cases ht : s.timers[k]? with
  | none => rfl
  | some t =>
    rw [ht] at h
    cases hs : t.state <;> simp_all

theorem passage_start (s : Schedule τ) (k : Nat) :
    Passage k ⟨s, .call (.start k)⟩ s.timers[k]? (s.start b.ring k).timers[k]? := by
  cases ht : s.timers[k]? with
  | none => exact .of_eq (by simp [start, ht]) (by simp [Entry.starts, ht]) rfl rfl rfl
  | some t =>
    cases hp : t.isPending with
    | true =>
      exact .of_eq (by simp [start, ht, hp]) (by simp [Entry.starts, ht, hp]) rfl rfl rfl
    | false =>
      have harm : (s.start b.ring k).timers[k]? = some (t.armed s.loop) := by
        simp only [start, ht, hp]
        exact getElem?_setTimer_self ht _
      rw [harm]
      exact .started (by simp [Entry.starts, ht, hp]) hp

theorem passage_pause (s : Schedule τ) (k : Nat) :
    Passage k ⟨s, .call (.pause k)⟩ s.timers[k]? (s.pause k).1.timers[k]? := by
  cases ht : s.timers[k]? with
  | none =>
    have hnone : (s.pause k).1.timers[k]? = none := by simp [pause, ht]
    rw [hnone]
    exact .stays rfl rfl rfl (by simp)
  | some t =>
    cases hp : t.isPending with
    | true =>
      have hstop : (s.pause k).1.timers[k]? =
          some (t.stopped (.paused (t.duration - (s.loop.now - t.scheduledAt)))) := by
        simp only [pause, ht, hp, if_true]
        exact getElem?_setTimer_self ht _
      rw [hstop]
      exact .paused rfl hp
    | false =>
      have hstay : (s.pause k).1.timers[k]? = some t := by simp [pause, ht, hp]
      rw [hstay]
      refine .stays rfl rfl rfl fun u hu hp' => ?_
      rw [← Option.some.inj hu, hp] at hp'
      cases hp'

theorem passage_cancel (s : Schedule τ) (k : Nat) :
    Passage k ⟨s, .call (.cancel k)⟩ s.timers[k]? (s.cancel k).timers[k]? := by
  cases ht : s.timers[k]? with
  | none =>
    have hnone : (s.cancel k).timers[k]? = none := by simp [cancel, ht]
    rw [hnone]
    exact .stays rfl rfl rfl (by simp)
  | some t =>
    have hstop : (s.cancel k).timers[k]? =
        some (t.stopped (if t.state = .finished then .finished else .cancelled)) := by
      simp only [cancel, ht]
      exact getElem?_setTimer_self ht _
    rw [hstop]
    exact .cancelled rfl

theorem passage_skip (s : Schedule τ) (k : Nat) :
    Passage k ⟨s, .call (.skip k)⟩ s.timers[k]? (s.skip k).1.timers[k]? := by
  cases hk : (s.skip k).2 with
  | true =>
    obtain ⟨t, ht, hskip⟩ := skip_eq_true hk
    have hstop : (s.skip k).1.timers[k]? = some (t.stopped .finished) := by
      rw [hskip]
      exact getElem?_setTimer_self ht _
    rw [hstop, ht]
    exact .skipped (by simp [Entry.skips, hk]) ((skip_eq_true_iff ht).1 hk)
  | false =>
    rw [skip_eq_false hk]
    refine .stays rfl rfl (by simp [Entry.skips, hk]) fun t ht hp => ?_
    rw [(skip_eq_true_iff ht).2 (.inl hp)] at hk
    cases hk

/-- What a call makes of a timer. -/
theorem passage_make (s : Schedule τ) (c : Call τ) (k : Nat) :
    Passage k ⟨s, .call c⟩ s.timers[k]? (s.make b.ring c).timers[k]? := by
  cases c with
  | loop c => exact .of_eq rfl rfl rfl rfl rfl
  | add d repeats callback =>
    rw [make, addTimer, Array.getElem?_push]
    split
    · next hk =>
      rw [hk, Array.getElem?_size]
      exact .made rfl rfl
    · exact .of_eq rfl rfl rfl rfl rfl
  | start j =>
    by_cases hj : k = j
    · exact hj ▸ passage_start s k
    · exact .of_eq ((Changes.start s j).others hj) (by simp [Entry.starts, Ne.symm hj]) rfl rfl rfl
  | pause j =>
    by_cases hj : k = j
    · exact hj ▸ passage_pause s k
    · exact .of_eq ((Changes.pause s j).others hj) rfl rfl rfl (by simp [Entry.stops, Ne.symm hj])
  | cancel j =>
    by_cases hj : k = j
    · exact hj ▸ passage_cancel s k
    · exact .of_eq ((Changes.cancel s j).others hj) rfl rfl rfl (by simp [Entry.stops, Ne.symm hj])
  | skip j =>
    by_cases hj : k = j
    · exact hj ▸ passage_skip s k
    · exact .of_eq ((Changes.skip s j).others hj) rfl rfl (by simp [Entry.skips, Ne.symm hj])
        (by simp [Entry.stops, Ne.symm hj])

theorem passage_ring (ht : s.timers[k]? = some t) (hp : t.isPending = true) :
    Passage k ⟨s, .ring k⟩ s.timers[k]? (s.ring b.ring k).1.timers[k]? := by
  have he : Entry.rings k (⟨s, .ring k⟩ : Entry τ) = true := by simp [Entry.rings]
  rw [ht]
  cases hr : t.repeats with
  | true =>
    have harm : (s.ring b.ring k).1.timers[k]? = some (t.armed s.loop) := by
      simp only [ring, ht, hp, if_true]
      rw [if_pos hr]
      exact getElem?_setTimer_self ht _
    rw [harm]
    exact .beaten he hp hr
  | false =>
    have hstop : (s.ring b.ring k).1.timers[k]? = some (t.stopped .finished) := by
      simp only [ring, ht, hp, if_true]
      rw [if_neg (by simp [hr])]
      exact getElem?_setTimer_self ht _
    rw [hstop]
    exact .finished he hp hr

/-- **What a deed makes of a timer**, which rings only while it runs. -/
theorem passage (s : Schedule τ) (d : Deed τ) (k : Nat)
    (hd : d = .ring k → ∃ t, s.timers[k]? = some t ∧ t.isPending = true) :
    Passage k ⟨s, d⟩ s.timers[k]? (s.follow b d).timers[k]? := by
  cases d with
  | call c => exact passage_make s c k
  | ring j =>
    by_cases hj : k = j
    · obtain ⟨t, ht, hp⟩ := hd (hj ▸ rfl)
      exact hj ▸ passage_ring ht hp
    · exact .of_eq ((Changes.rings s j).others hj) rfl (by simp [Entry.rings, Ne.symm hj]) rfl rfl
  | _ => exact .of_eq rfl rfl rfl rfl rfl

/-- What a deed of a chronicle makes of a timer. -/
theorem Chronicle.passage {log : List (Entry τ)} {due : Option Nat} {d : Deed τ}
    (h : Chronicle b log s due) (hd : May b log s due d) (k : Nat) :
    Passage k ⟨s, d⟩ s.timers[k]? (s.follow b d).timers[k]? := by
  refine Schedule.passage s d k fun he => ?_
  subst he
  obtain ⟨t, ht, hp, -⟩ := h.tuned.due hd
  exact ⟨t, ht, hp⟩

end

end Schedule

end Novella
