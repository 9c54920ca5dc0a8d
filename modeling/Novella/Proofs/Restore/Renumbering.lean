import Novella.Proofs.Player.Position
import Novella.Proofs.Player.WatchedAgenda

/-!
# Players that differ by their past

What a player does next does not depend on how it has come to where it is. But its past has left
traces. Timers, shown texts, instructions and requests are numbered, and the numbers go on from
there. Old timers and old texts are still there, and so are the timeouts of old timers, although
none of them has a part in the script any more. They are *strays*.

Here a player with a past is compared with one without. The first *carries* the second if it is the
same but for a shift of the numbers and for strays.

## Main definitions

* `Shift` — the numbers at which a past has ended
* `Laced` — a list that holds another one, with strays in between
* `Shift.Schedules` — a schedule that carries another one
* `Player.Carries`, `Player.Matches` — a player that carries another one, and at the same time

## Main results

* `Player.Matches.write`, `Player.Matches.startTimer`, `Player.Matches.modifyReveal` — what is done
  to both keeps them alike
-/

namespace Novella

open Player

/-! ### Lists with strays -/

/-- The first list holds what the second one holds, in its order and in the form that `f` gives it,
and strays in between. -/
inductive Laced {α : Type} (f : α → α) (Own Stray : α → Prop) : List α → List α → Prop where
  /-- Nothing is left. -/
  | nil : Laced f Own Stray [] []
  /-- Both have an item. -/
  | own {a : α} {l l' : List α} : Own a → Laced f Own Stray l l' →
      Laced f Own Stray (f a :: l) (a :: l')
  /-- The first list has a stray. -/
  | stray {a : α} {l l' : List α} : Stray a → Laced f Own Stray l l' →
      Laced f Own Stray (a :: l) l'

namespace Laced

variable {α : Type} {f g : α → α} {Own Own' Stray Stray' : α → Prop} {l l' k k' : List α} {a : α}

theorem append (h : Laced f Own Stray l l') (h' : Laced f Own Stray k k') :
    Laced f Own Stray (l ++ k) (l' ++ k') := by
  induction h with
  | nil => exact h'
  | own ha _ ih => exact ih.own ha
  | stray ha _ ih => exact ih.stray ha

/-- A list without strays. -/
theorem map (h : ∀ a ∈ l, Own a) : Laced f Own Stray (l.map f) l := by
  induction l with
  | nil => exact .nil
  | cons a l ih =>
    obtain ⟨ha, hl⟩ := List.forall_mem_cons.1 h
    exact (ih hl).own ha

/-- A list with strays only. -/
theorem strays (h : ∀ a ∈ l, Stray a) : Laced f Own Stray l [] := by
  induction l with
  | nil => exact .nil
  | cons a l ih =>
    obtain ⟨ha, hl⟩ := List.forall_mem_cons.1 h
    exact (ih hl).stray ha

theorem own_of_mem (h : Laced f Own Stray l l') : ∀ a ∈ l', Own a ∧ f a ∈ l := by
  induction h with
  | nil => exact fun _ ha => absurd ha List.not_mem_nil
  | own ha _ ih =>
    refine List.forall_mem_cons.2 ⟨⟨ha, List.mem_cons_self⟩, fun b hb => ?_⟩
    exact (ih b hb).imp_right (List.mem_cons_of_mem _)
  | stray _ _ ih => exact fun b hb => (ih b hb).imp_right (List.mem_cons_of_mem _)

/-- What is true of both kinds of items is true of all. -/
theorem forall_mem (h : Laced f Own Stray l l') {P : α → Prop} (ho : ∀ {a}, Own a → P (f a))
    (hs : ∀ {a}, Stray a → P a) : ∀ a ∈ l, P a := by
  induction h with
  | nil => exact fun _ ha => absurd ha List.not_mem_nil
  | own ha _ ih => exact List.forall_mem_cons.2 ⟨ho ha, ih⟩
  | stray ha _ ih => exact List.forall_mem_cons.2 ⟨hs ha, ih⟩

theorem imp (h : Laced f Own Stray l l') (ho : ∀ {a}, Own a → Own' a) :
    Laced f Own' Stray l l' := by
  induction h with
  | nil => exact .nil
  | own ha _ ih => exact ih.own (ho ha)
  | stray ha _ ih => exact ih.stray ha

/-- Both lists change alike, and strays stay strays. -/
theorem congr (h : Laced f Own Stray l l') (hf : ∀ a ∈ l', f a = g a)
    (hs : ∀ {a}, Stray a → Stray' a) : Laced g Own Stray' l l' := by
  induction h with
  | nil => exact .nil
  | own ha _ ih =>
    obtain ⟨hfa, hl⟩ := List.forall_mem_cons.1 hf
    rw [hfa]
    exact (ih hl).own ha
  | stray ha _ ih => exact (ih hf).stray (hs ha)

/-- Items are taken out of both lists, and no stray is among them. -/
theorem filter (h : Laced f Own Stray l l') {p q : α → Bool} (hp : ∀ a ∈ l', p (f a) = q a)
    (hs : ∀ {a}, Stray a → p a = true) : Laced f Own Stray (l.filter p) (l'.filter q) := by
  induction h with
  | nil => exact .nil
  | @own a l l' ha _ ih =>
    obtain ⟨hpa, hl⟩ := List.forall_mem_cons.1 hp
    cases hq : q a with
    | false =>
      rw [List.filter_cons_of_neg (by simp [hpa, hq]), List.filter_cons_of_neg (by simp [hq])]
      exact ih hl
    | true =>
      rw [List.filter_cons_of_pos (hpa.trans hq), List.filter_cons_of_pos hq]
      exact (ih hl).own ha
  | stray ha _ ih =>
    rw [List.filter_cons_of_pos (hs ha)]
    exact (ih hp).stray ha

end Laced

/-! ### Shifts -/

theorem CellName.IsPlace.ne_soundEffect {c : CellName} (h : c.IsPlace) : c ≠ .soundEffect := by
  rintro rfl
  rcases h with h | h <;> cases h

/-- The numbers at which a past has ended. -/
structure Shift where
  /-- The time. -/
  time : Nat
  /-- The number of timers. -/
  timer : Nat
  /-- The number of shown texts. -/
  reveal : Nat
  /-- The last generation. -/
  generation : Nat
  /-- The number of scenes asked for. -/
  request : Nat
  /-- The number of the player among the observers of the index. -/
  rank : Nat
  /-- The numbers of the timeouts that came later. -/
  timeout : Nat → Nat

namespace Player

/-- A task of a script that goes on by itself or by plain input. -/
def Task.IsOngoing : Task → Prop
  | .deliver c => c.IsPlace
  | .hear c id _ => c.IsPlace ∧ id = 0
  | .call a c => a = .nobody ∧ (c = .next ∨ c = .serve)
  | .report a _ => a = .nobody
  | _ => True

end Player

/-- The order is one that a task of such a script leaves behind. -/
def Order.IsOngoing : Order Task → Prop
  | .perform t => t.IsOngoing
  | .advance _ => True
  | _ => False

/-- The order is of such a script, or one that it has turned into. -/
def Order.IsPending : Order Task → Prop
  | .perform t => t.IsOngoing
  | .halt => False
  | _ => True

theorem Order.IsOngoing.isPending {o : Order Task} (h : o.IsOngoing) : o.IsPending := by
  cases o <;> first | exact h | trivial

theorem Player.now_disarm (s : Schedule Task) (k : Nat) (x : Timer Task) (state : TimerState) :
    (s.disarm k x state).loop.now = s.loop.now := by
  rw [Schedule.disarm]
  dsimp only
  split <;> rfl

namespace Shift

variable (σ : Shift)

/-- The ticket after the past. -/
def ticket : Ticket → Ticket
  | .instruction g => .instruction (g + σ.generation)
  | .call k => .call k

/-- The handler after the past. -/
def handler : Handler → Handler
  | .finish t => .finish (σ.ticket t)
  | .stuck => .stuck
  | .timer k => .timer (k + σ.timer)
  | .reveal r => .reveal (r + σ.reveal)
  | .host b t => .host b (σ.ticket t)

/-- What a command leaves behind after the past. -/
def completion : Completion → Completion
  | .completed => .completed
  | .pending h => .pending (σ.handler h)

/-- The text after the past. -/
def text (v : Reveal) : Reveal :=
  { v with ticket := σ.ticket v.ticket, timer := v.timer.map (· + σ.timer) }

/-- The task after the past. -/
def task : Task → Task
  | .hear c _ v => .hear c (c.rank σ.rank) v
  | .ring k => .ring (k + σ.timer)
  | .finish t => .finish (σ.ticket t)
  | .conclude t c => .conclude (σ.ticket t) (σ.completion c)
  | .reveal r a => .reveal (r + σ.reveal) a
  | t => t

/-- The order after the past. -/
def order : Order Task → Order Task
  | .perform t => .perform (σ.task t)
  | .runUntil target => .runUntil (target + σ.time)
  | o => o

/-- The timeout after the past. -/
def due (u : Timeout Task) : Timeout Task :=
  ⟨u.deadline + σ.time, σ.timeout u.id, σ.task u.task⟩

/-- A callback of a timer of the past. -/
def IsOld : Task → Prop
  | .finish (.instruction g) => g < σ.generation
  | .reveal r a => r < σ.reveal ∧ (a = .tick ∨ a = .wake)
  | _ => False

/-- A task without a part in the script: it is left from the past, or delivers a cell to others than
the player. -/
def IsStray : Task → Prop
  | .ring k => k < σ.timer
  | .deliver c => ¬ c.IsPlace
  | .hear c id _ => c.IsPlace → id ≠ c.rank σ.rank
  | t => σ.IsOld t

theorem IsOld.isStray {σ : Shift} {t : Task} (h : σ.IsOld t) : σ.IsStray t := by
  cases t <;> first | exact h | exact h.elim

/-- An order to perform a stray. -/
def StraysBy (o : Order Task) : Prop := ∃ t, o = .perform t ∧ σ.IsStray t

variable {σ : Shift}

@[simp] theorem ticket_inj {t u : Ticket} : σ.ticket t = σ.ticket u ↔ t = u := by
  cases t <;> cases u <;> simp [ticket]

@[simp] theorem handler_inj {x y : Handler} : σ.handler x = σ.handler y ↔ x = y := by
  cases x <;> cases y <;> simp [handler]

/-! ### Schedules -/

/-- The timer is the other one after the past. -/
structure Timers (σ : Shift) (x y : Timer Task) : Prop where
  /-- How long it runs. -/
  duration : x.duration = y.duration
  /-- Whether it rings again. -/
  repeats : x.repeats = y.repeats
  /-- What it does. -/
  callback : x.callback = σ.task y.callback
  /-- It does what scripts do. -/
  ongoing : y.callback.IsOngoing
  /-- Where it is in its life. -/
  state : x.state = y.state
  /-- Its timeout. -/
  handle : x.handle = y.handle.map σ.timeout

/-- The schedule is the other one after the past, with strays. -/
structure Schedules (σ : Shift) (s t : Schedule Task) : Prop where
  /-- Timers are numbered from the past on. -/
  size : s.timers.size = t.timers.size + σ.timer
  /-- They are those of the other schedule. -/
  timers {k : Nat} {y : Timer Task} : t.timers[k]? = some y →
    ∃ x, s.timers[k + σ.timer]? = some x ∧ σ.Timers x y ∧ ∀ id ∈ y.handle, id < t.loop.nextId
  /-- Timers of the past have old callbacks, and leave time between two rings. -/
  old {k : Nat} {x : Timer Task} : k < σ.timer → s.timers[k]? = some x →
    σ.IsOld x.callback ∧ (x.repeats = true → 0 < x.duration)
  /-- All timeouts are those of the other schedule, or strays with numbers of their own. -/
  timeouts : Laced σ.due (fun u => u.task.IsOngoing)
    (fun u => σ.IsStray u.task ∧ ∀ i, u.id ≠ σ.timeout i) s.loop.timeouts t.loop.timeouts
  /-- They stand in the order of their deadlines. -/
  sorted : s.loop.timeouts.Pairwise (fun u v => u.deadline ≤ v.deadline)
  /-- The timeouts of the other schedule have been numbered. -/
  numbered : ∀ u ∈ t.loop.timeouts, u.id < t.loop.nextId
  /-- Later timeouts have later numbers. -/
  mono {i j : Nat} : i < j → σ.timeout i < σ.timeout j
  /-- The next timeouts are numbered alike. -/
  next (i : Nat) : σ.timeout (t.loop.nextId + i) = s.loop.nextId + i
  /-- All microtasks are those of the other schedule, or strays. -/
  microtasks : Laced σ.task Task.IsOngoing σ.IsStray s.loop.microtasks t.loop.microtasks

namespace Schedules

variable {s t : Schedule Task} {x y : Timer Task} {k : Nat}

theorem getElem?_eq_none (h : σ.Schedules s t) (hk : t.timers[k]? = none) :
    s.timers[k + σ.timer]? = none := by
  rw [Array.getElem?_eq_none_iff] at hk ⊢
  have := h.size
  omega

theorem timeout_inj (h : σ.Schedules s t) {i j : Nat} : σ.timeout i = σ.timeout j ↔ i = j := by
  refine ⟨fun heq => ?_, congrArg _⟩
  rcases Nat.lt_trichotomy i j with hlt | heq' | hlt
  · exact absurd heq (Nat.ne_of_lt (h.mono hlt))
  · exact heq'
  · exact absurd heq.symm (Nat.ne_of_lt (h.mono hlt))

/-- A timer is put in the place of another one. -/
theorem setTimer (h : σ.Schedules s t) (hx : σ.Timers x y)
    (hid : ∀ id ∈ y.handle, id < t.loop.nextId) :
    σ.Schedules (s.setTimer (k + σ.timer) x) (t.setTimer k y) where
  size := by
    simp only [Schedule.setTimer, Array.size_setIfInBounds]
    exact h.size
  timers := @fun i z hz => by
    have hsize := h.size
    simp only [Schedule.setTimer, Array.getElem?_setIfInBounds] at hz ⊢
    by_cases hik : k = i
    · subst hik
      rw [if_pos rfl] at hz ⊢
      split at hz
      · cases hz
        rw [if_pos (by omega)]
        exact ⟨x, rfl, hx, hid⟩
      · cases hz
    · rw [if_neg hik] at hz
      rw [if_neg (by omega)]
      exact h.timers hz
  old := @fun i z hi hz => by
    simp only [Schedule.setTimer, Array.getElem?_setIfInBounds] at hz
    rw [if_neg (by omega)] at hz
    exact h.old hi hz
  timeouts := h.timeouts
  sorted := h.sorted
  numbered := h.numbered
  mono := h.mono
  next := h.next
  microtasks := h.microtasks

/-- A timer is made. -/
theorem addTimer (h : σ.Schedules s t) (hx : σ.Timers x y)
    (hid : ∀ id ∈ y.handle, id < t.loop.nextId) :
    σ.Schedules (s.addTimer x) (t.addTimer y) where
  size := by
    simp only [Schedule.addTimer, Array.size_push]
    have := h.size
    omega
  timers := @fun i z hz => by
    have hsize := h.size
    simp only [Schedule.addTimer, Array.getElem?_push] at hz ⊢
    split at hz
    · next hi =>
      cases hz
      rw [if_pos (by omega)]
      exact ⟨x, rfl, hx, hid⟩
    · next hi =>
      rw [if_neg (by omega)]
      exact h.timers hz
  old := @fun i z hi hz => by
    have hsize := h.size
    simp only [Schedule.addTimer, Array.getElem?_push] at hz
    rw [if_neg (by omega)] at hz
    exact h.old hi hz
  timeouts := h.timeouts
  sorted := h.sorted
  numbered := h.numbered
  mono := h.mono
  next := h.next
  microtasks := h.microtasks

end Schedules

/-- A timeout that is scheduled in both stands at the same place. -/
theorem laced_insertTimeout {Own Stray : Timeout Task → Prop} {l l' : List (Timeout Task)}
    {u : Timeout Task} (h : Laced σ.due Own Stray l l')
    (hs : l.Pairwise (fun u v => u.deadline ≤ v.deadline)) (hu : Own u) :
    Laced σ.due Own Stray (Loop.insertTimeout (σ.due u) l) (Loop.insertTimeout u l') := by
  induction h with
  | nil => exact .own hu .nil
  | @own a l l' ha hl ih =>
    have hd : (σ.due u).deadline < (σ.due a).deadline ↔ u.deadline < a.deadline :=
      Nat.add_lt_add_iff_right
    rw [Loop.insertTimeout, Loop.insertTimeout]
    by_cases hlt : u.deadline < a.deadline
    · rw [if_pos hlt, if_pos (hd.2 hlt)]
      exact (hl.own ha).own hu
    · rw [if_neg hlt, if_neg (mt hd.1 hlt)]
      exact (ih (List.pairwise_cons.1 hs).2).own ha
  | @stray a l l' ha hl ih =>
    obtain ⟨hle, hs⟩ := List.pairwise_cons.1 hs
    rw [Loop.insertTimeout]
    split
    · -- the timeout comes before the stray, and so before all that the other list holds
      next hlt =>
      have hfirst : Loop.insertTimeout u l' = u :: l' := by
        cases l' with
        | nil => rfl
        | cons b l' =>
          have hb : a.deadline ≤ b.deadline + σ.time :=
            hle _ (hl.own_of_mem b List.mem_cons_self).2
          have hu : u.deadline + σ.time < a.deadline := hlt
          rw [Loop.insertTimeout, if_pos (by omega)]
      rw [hfirst]
      exact (hl.stray ha).own hu
    · exact (ih hs).stray ha

/-- A stray may stand anywhere. -/
theorem laced_insertTimeout_stray {f : Timeout Task → Timeout Task}
    {Own Stray : Timeout Task → Prop} {l l' : List (Timeout Task)} {u : Timeout Task}
    (h : Laced f Own Stray l l') (hu : Stray u) :
    Laced f Own Stray (Loop.insertTimeout u l) l' := by
  induction h with
  | nil => exact .stray hu .nil
  | own ha hl ih =>
    rw [Loop.insertTimeout]
    split
    · exact (hl.own ha).stray hu
    · exact ih.own ha
  | stray ha hl ih =>
    rw [Loop.insertTimeout]
    split
    · exact (hl.stray ha).stray hu
    · exact ih.stray ha

namespace Schedules

variable {s t : Schedule Task} {x y : Timer Task} {k : Nat}

/-- A task is scheduled at the same time. -/
theorem setTimeout (h : σ.Schedules s t) (hn : s.loop.now = t.loop.now + σ.time) (d : Nat)
    {a : Task} (ha : a.IsOngoing) :
    σ.Schedules { s with loop := s.loop.setTimeout d (σ.task a) }
      { t with loop := t.loop.setTimeout d a } where
  size := h.size
  timers hy := by
    obtain ⟨x, hx, hxy, hid⟩ := h.timers hy
    exact ⟨x, hx, hxy, fun id hi => Nat.lt_succ_of_lt (hid id hi)⟩
  old := h.old
  timeouts := by
    have hu : σ.due ⟨t.loop.now + d, t.loop.nextId, a⟩ =
        ⟨s.loop.now + d, s.loop.nextId, σ.task a⟩ := by
      have hid : σ.timeout t.loop.nextId = s.loop.nextId := h.next 0
      simp only [due, hid, hn, Timeout.mk.injEq, and_true]
      omega
    have hl := laced_insertTimeout (u := ⟨t.loop.now + d, t.loop.nextId, a⟩) h.timeouts h.sorted ha
    rw [hu] at hl
    exact hl
  sorted := Loop.pairwise_insertTimeout h.sorted
  numbered u hu := by
    rcases Loop.mem_insertTimeout.1 hu with rfl | hu
    · exact Nat.lt_succ_self _
    · exact Nat.lt_succ_of_lt (h.numbered u hu)
  mono := h.mono
  next i := by
    show σ.timeout (t.loop.nextId + 1 + i) = s.loop.nextId + 1 + i
    have hi := h.next (1 + i)
    rwa [← Nat.add_assoc, ← Nat.add_assoc] at hi
  microtasks := h.microtasks

/-- A timeout is taken back. -/
theorem clearTimeout (h : σ.Schedules s t) (id : Nat) :
    σ.Schedules { s with loop := s.loop.clearTimeout (σ.timeout id) }
      { t with loop := t.loop.clearTimeout id } where
  size := h.size
  timers := h.timers
  old := h.old
  timeouts := by
    refine h.timeouts.filter (fun u _ => ?_) fun hu => ?_
    · simp only [due, ne_eq, h.timeout_inj]
    · simp [hu.2]
  sorted := h.sorted.sublist List.filter_sublist
  numbered u hu := h.numbered u (List.mem_filter.1 hu).1
  mono := h.mono
  next := h.next
  microtasks := h.microtasks

/-- A timer gets a timeout. -/
theorem arm (h : σ.Schedules s t) (hn : s.loop.now = t.loop.now + σ.time) (hx : σ.Timers x y) :
    σ.Schedules (s.arm .ring (k + σ.timer) x) (t.arm .ring k y) := by
  have hid : σ.timeout t.loop.nextId = s.loop.nextId := h.next 0
  -- the number of the timeout is taken with the timeout itself, so the timer is put there after it
  have ht := h.setTimeout hn y.duration (a := .ring k) trivial
  have hs := ht.setTimer (k := k)
    (x := { x with state := .running, handle := some s.loop.nextId, scheduledAt := s.loop.now })
    (y := { y with state := .running, handle := some t.loop.nextId, scheduledAt := t.loop.now })
    ⟨hx.duration, hx.repeats, hx.callback, hx.ongoing, rfl, by simp [hid]⟩
    (fun id hi => by
      cases hi
      exact Nat.lt_succ_self _)
  have hl : s.loop.setTimeout x.duration (.ring (k + σ.timer)) =
      s.loop.setTimeout y.duration (.ring (k + σ.timer)) := by rw [hx.duration]
  unfold Schedule.arm
  dsimp only
  rw [hl]
  exact hs

/-- A new timer is started. -/
theorem start (h : σ.Schedules s t) (hn : s.loop.now = t.loop.now + σ.time)
    (hk : t.timers[k]? = some y) :
    σ.Schedules (s.start .ring (k + σ.timer)) (t.start .ring k) := by
  obtain ⟨x, hx, hxy, -⟩ := h.timers hk
  rw [Schedule.start, Schedule.start, hx, hk]
  dsimp only
  rw [show x.isPending = y.isPending by rw [Timer.isPending, Timer.isPending, hxy.state]]
  split
  · exact h
  · exact h.arm hn hxy

/-- The timeout of a timer is taken back. -/
theorem disarm (h : σ.Schedules s t) (hx : σ.Timers x y) (state : TimerState) :
    σ.Schedules (s.disarm (k + σ.timer) x state) (t.disarm k y state) := by
  have hs (s' t' : Schedule Task) (h : σ.Schedules s' t') :=
    h.setTimer (k := k) (x := { x with state, handle := none })
      (y := { y with state, handle := none })
      ⟨hx.duration, hx.repeats, hx.callback, hx.ongoing, rfl, rfl⟩ fun _ hi => nomatch hi
  rw [Schedule.disarm, Schedule.disarm, hx.handle]
  cases y.handle with
  | none => exact hs s t h
  | some id => exact hs _ _ (h.clearTimeout id)

theorem cancel (h : σ.Schedules s t) (k : Nat) :
    σ.Schedules (s.cancel (k + σ.timer)) (t.cancel k) := by
  rw [Schedule.cancel, Schedule.cancel]
  cases hk : t.timers[k]? with
  | none =>
    rw [h.getElem?_eq_none hk]
    exact h
  | some y =>
    obtain ⟨x, hx, hxy, -⟩ := h.timers hk
    rw [hx]
    dsimp only
    rw [hxy.state]
    exact h.disarm hxy _

theorem skip (h : σ.Schedules s t) (hn : s.loop.now = t.loop.now + σ.time) (k : Nat) :
    σ.Schedules (s.skip (k + σ.timer)).1 (t.skip k).1 := by
  rw [Schedule.skip, Schedule.skip]
  cases hk : t.timers[k]? with
  | none =>
    rw [h.getElem?_eq_none hk]
    exact h
  | some y =>
    obtain ⟨x, hx, hxy, -⟩ := h.timers hk
    rw [hx]
    dsimp only
    rw [hxy.state, hxy.callback]
    have hd := (h.disarm (k := k) hxy .finished).setTimeout
      (by rw [now_disarm, now_disarm, hn]) 0 hxy.ongoing
    split
    · exact hd
    · exact hd
    · exact h

/-- The timeout of a timer is due. -/
theorem ring (h : σ.Schedules s t) (hn : s.loop.now = t.loop.now + σ.time) (k : Nat) :
    σ.Schedules (s.ring .ring (k + σ.timer)).1 (t.ring .ring k).1 ∧
      (s.ring .ring (k + σ.timer)).2 = (t.ring .ring k).2.map σ.task ∧
        ∀ a ∈ (t.ring .ring k).2, a.IsOngoing := by
  rw [Schedule.ring, Schedule.ring]
  cases hk : t.timers[k]? with
  | none =>
    rw [h.getElem?_eq_none hk]
    exact ⟨h, rfl, fun _ ha => absurd ha (Option.not_mem_none _)⟩
  | some y =>
    obtain ⟨x, hx, hxy, -⟩ := h.timers hk
    rw [hx]
    dsimp only
    rw [show x.isPending = y.isPending by rw [Timer.isPending, Timer.isPending, hxy.state]]
    split
    · refine ⟨?_, congrArg some hxy.callback, fun a ha => ?_⟩
      · dsimp only
        by_cases hr : y.repeats = true
        · rw [if_pos (hxy.repeats.trans hr), if_pos hr]
          exact h.arm hn ⟨hxy.duration, hxy.repeats, hxy.callback, hxy.ongoing, hxy.state, rfl⟩
        · rw [if_neg (hxy.repeats ▸ hr), if_neg hr]
          exact h.setTimer ⟨hxy.duration, hxy.repeats, hxy.callback, hxy.ongoing, rfl, rfl⟩
            fun _ hi => by cases hi
      · cases ha
        exact hxy.ongoing
    · exact ⟨h, rfl, fun _ ha => absurd ha (Option.not_mem_none _)⟩

/-- A delivery that both have asked for. -/
theorem queueMicrotask (h : σ.Schedules s t) {a : Task} (ha : a.IsOngoing) :
    σ.Schedules (s.queueMicrotask (σ.task a)) (t.queueMicrotask a) :=
  { h with microtasks := h.microtasks.append (.own ha .nil) }

/-- A delivery to others than the player. -/
theorem queueStray (h : σ.Schedules s t) {a : Task} (ha : σ.IsStray a) :
    σ.Schedules (s.queueMicrotask a) t :=
  { h with
    microtasks := by
      have hm := h.microtasks.append (Laced.nil.stray ha)
      rwa [List.append_nil] at hm }

end Schedules

/-! ### Cells -/

/-- The cell has the value of the other one. The player hears it if it hears the other one, which
nobody else does. -/
structure Cells (σ : Shift) (c : CellName) (d e : Cell c.Value Reaction) : Prop where
  /-- The value, but for the last sound that was played. -/
  value : c ≠ .soundEffect → d.value = e.value
  /-- The player hears the cell. -/
  attended : c.IsPlace → Attended c.reaction (c.rank σ.rank) d
  /-- It hears the other one. -/
  heard : c.IsPlace → Attended c.reaction 0 e
  /-- It is alone there. -/
  alone : c.IsPlace → e.observers.length = 1
  /-- Both wait to be delivered. -/
  scheduled : c.IsPlace → d.scheduled = e.scheduled
  /-- Nobody hears the rest. -/
  unheard : ¬ c.IsPlace → e.observers = []

/-- What is stored in both is alike, and the delivery of a place is queued in both. -/
structure Stores (σ : Shift) (c : CellName) (x y : Cell c.Value Reaction × Bool) : Prop where
  /-- The cells. -/
  cells : σ.Cells c x.1 y.1
  /-- The deliveries. -/
  place : c.IsPlace → x.2 = y.2
  /-- Nobody is to hear the rest. -/
  other : ¬ c.IsPlace → y.2 = false

namespace Cells

variable {c : CellName} {d e : Cell c.Value Reaction}

theorem notify (h : σ.Cells c d e) : σ.Stores c d.notify e.notify := by
  have hother (hc : ¬ c.IsPlace) : e.notify = (e, false) := by
    simp [Cell.notify, h.unheard hc]
  refine ⟨⟨fun hc => ?_, fun hc => ?_, fun hc => ?_, fun hc => ?_, fun hc => ?_, fun hc => ?_⟩,
    fun hc => ?_, fun hc => ?_⟩
  · rw [Cell.value_notify, Cell.value_notify, h.value hc]
  · exact (h.attended hc).of_eq (Cell.observers_notify _) (Cell.nextId_notify _)
  · exact (h.heard hc).of_eq (Cell.observers_notify _) (Cell.nextId_notify _)
  · rw [Cell.observers_notify, h.alone hc]
  · rw [(h.attended hc).notify_eq, (h.heard hc).notify_eq]
  · rw [Cell.observers_notify, h.unheard hc]
  · rw [(h.attended hc).notify_eq, (h.heard hc).notify_eq, h.scheduled hc]
  · rw [hother hc]

/-- Both get a value. -/
theorem withValue (h : σ.Cells c d e) (v : c.Value) :
    σ.Cells c { d with value := v } { e with value := v } :=
  ⟨fun _ => rfl, fun hc => (h.attended hc).of_eq rfl rfl, fun hc => (h.heard hc).of_eq rfl rfl,
    h.alone, h.scheduled, h.unheard⟩

theorem set (h : σ.Cells c d e) (v : c.Value) : σ.Stores c (d.set v) (e.set v) := by
  by_cases hc : c = .soundEffect
  · -- the last sound may be another one, but nobody is to hear of the next one
    have hp : ¬ c.IsPlace := by
      rw [hc]
      decide
    refine ⟨⟨fun hn => absurd hc hn, fun h => absurd h hp, fun h => absurd h hp,
      fun h => absurd h hp, fun h => absurd h hp, fun hp => ?_⟩, fun h => absurd h hp, fun _ => ?_⟩
    · rw [Cell.observers_set, h.unheard hp]
    · rw [Cell.set]
      split
      · rfl
      · simp [Cell.notify, h.unheard hp]
  · rw [Cell.set, Cell.set, h.value hc]
    split
    · exact ⟨h, fun _ => rfl, fun _ => rfl⟩
    · exact (h.withValue v).notify

end Cells

end Shift

/-! ### Players -/

namespace Player

variable {p q : Player}

/-- A player differs from another one with the same inside in what only the host sees. -/
theorem eq_of_inside (h : q.inside = p.inside) :
    q = { p with
      events := q.events
      hooks := q.hooks
      book := q.book
      listeners := q.listeners
      answer := q.answer } := by
  cases p
  cases q
  simp only [inside, Player.mk.injEq] at h ⊢
  simp [h]

/-! Time only passes when the loop goes on. -/

theorem now_store (p : Player) (c : CellName) (x : Cell c.Value Reaction × Bool) :
    (p.store c x).loop.now = p.loop.now := by
  rw [store, loop]
  dsimp only
  split <;> rfl

theorem now_start (s : Schedule Task) (k : Nat) : (s.start .ring k).loop.now = s.loop.now := by
  rw [Schedule.start]
  split
  · split <;> rfl
  · rfl

theorem now_cancel (s : Schedule Task) (k : Nat) : (s.cancel k).loop.now = s.loop.now := by
  rw [Schedule.cancel]
  split
  · exact now_disarm ..
  · rfl

theorem now_skip (s : Schedule Task) (k : Nat) : (s.skip k).1.loop.now = s.loop.now := by
  rw [Schedule.skip]
  split
  · split
    · exact now_disarm ..
    · exact now_disarm ..
    · rfl
  · rfl

theorem now_ring (s : Schedule Task) (k : Nat) : (s.ring .ring k).1.loop.now = s.loop.now := by
  rw [Schedule.ring]
  split
  · split
    · dsimp only
      split <;> rfl
    · rfl
  · rfl

/-- The player is the other one after a past, with strays. The host of the other one is not there,
and that of the first one only watches. -/
structure Carries (σ : Shift) (p q : Player) : Prop where
  /-- The schedule. -/
  schedule : σ.Schedules p.schedule q.schedule
  /-- The cells. -/
  stage (c : CellName) : σ.Cells c (p.stage.cell c) (q.stage.cell c)
  /-- Texts are numbered from the past on. -/
  size : p.reveals.size = q.reveals.size + σ.reveal
  /-- They are those of the other player. -/
  reveals (r : Nat) : p.reveals[r + σ.reveal]? = q.reveals[r]?.map σ.text
  /-- Nothing under way keeps a text of the past. -/
  spent {r : Nat} {v : Reveal} : r < σ.reveal → p.reveals[r]? = some v → v.holds = 0
  /-- The lines of the scene. -/
  lines : p.lines = q.lines
  /-- What is left of the line. -/
  queue : p.queue = q.queue
  /-- The delay that the script has set. -/
  delay : p.delay = q.delay
  /-- The source of the scenes. -/
  source : p.source = q.source
  /-- The commands. -/
  commands : p.commands = q.commands
  /-- They are those of every script. -/
  standard : q.commands = .standard
  /-- Both load a scene. -/
  loading : p.phase = .loading ↔ q.phase = .loading
  /-- The number of scenes asked for. -/
  loadVersion : p.loadVersion = q.loadVersion + σ.request
  /-- The request for a scene. -/
  loadRequest : p.loadRequest = q.loadRequest.map (fun r => ⟨r.scene, r.version + σ.request⟩)
  /-- Who takes the input. -/
  active : p.active = q.active.map σ.handler
  /-- The last generation. -/
  generation : p.generation = q.generation + σ.generation
  /-- The tickets that count. -/
  live (t : Ticket) : p.live.count (σ.ticket t) = q.live.count t
  /-- The host only watches. -/
  listeners : ∀ l ∈ p.listeners, l.body = []
  /-- There is none, or it only watches, too. -/
  listeners' : ∀ l ∈ q.listeners, l.body = []

/-- The player is the other one after a past, at the same time. -/
structure Matches (σ : Shift) (p q : Player) : Prop extends Carries σ p q where
  /-- The same time has passed. -/
  now : p.loop.now = q.loop.now + σ.time

namespace Carries

variable {σ : Shift} {p q : Player}

theorem value (h : Carries σ p q) {c : CellName} (hc : c ≠ .soundEffect) :
    (p.stage.cell c).value = (q.stage.cell c).value := (h.stage c).value hc

/-- The position is the same. -/
theorem position (h : Carries σ p q) : p.position = q.position := by
  have value (c : CellName) (hc : c ≠ .soundEffect) := h.value hc
  have hscene : p.stage.scene.value = q.stage.scene.value := value .scene (by decide)
  have hindex : p.stage.index.value = q.stage.index.value := value .index (by decide)
  have htrack : p.stage.track.value = q.stage.track.value := value .track (by decide)
  have heffect : p.stage.loopedEffect.value = q.stage.loopedEffect.value :=
    value .loopedEffect (by decide)
  have hback : p.stage.background.value = q.stage.background.value :=
    value .background (by decide)
  have hleft : p.stage.left.value = q.stage.left.value := value .left (by decide)
  have hcenter : p.stage.center.value = q.stage.center.value := value .center (by decide)
  have hright : p.stage.right.value = q.stage.right.value := value .right (by decide)
  have hvars : p.stage.vars.value = q.stage.vars.value := value .vars (by decide)
  simp only [Player.position, Stage.context, Stage.audio, Stage.graphics, Stage.progress, hscene,
    hindex, htrack, heffect, hback, hleft, hcenter, hright, hvars]

theorem mem_live (h : Carries σ p q) {t : Ticket} : σ.ticket t ∈ p.live ↔ t ∈ q.live := by
  rw [← List.count_pos_iff, h.live, List.count_pos_iff]

end Carries

namespace Matches

variable {σ : Shift} {p p' q q' : Player}

/-! ### What only the host sees -/

/-- What only the host sees may change on either side. -/
theorem congr_inside (h : Matches σ p q) (hp : p'.inside = p.inside) (hq : q'.inside = q.inside)
    (hl : ∀ l ∈ p'.listeners, l.body = []) (hl' : ∀ l ∈ q'.listeners, l.body = []) :
    Matches σ p' q' := by
  rw [eq_of_inside hp, eq_of_inside hq]
  exact ⟨{ h.toCarries with listeners := hl, listeners' := hl' }, h.now⟩

theorem note (h : Matches σ p q) (e e' : Event) : Matches σ (p.note e) (q.note e') :=
  h.congr_inside rfl rfl h.listeners h.listeners'

theorem logError (h : Matches σ p q) (s s' : String) : Matches σ (p.logError s) (q.logError s') :=
  h.note _ _

theorem trace (h : Matches σ p q) (c : LogCategory) (l : LogLevel) (s s' : String) :
    Matches σ (p.trace c l s) (q.trace c l s') :=
  h.congr_inside (inside_trace ..) (inside_trace ..)
    (fun _ hl => h.listeners _ (listeners_trace p c l s ▸ hl))
    fun _ hl => h.listeners' _ (listeners_trace q c l s' ▸ hl)

/-! ### Cells -/

theorem store (h : Matches σ p q) {c : CellName} {x y : Cell c.Value Reaction × Bool}
    (hx : σ.Stores c x y) : Matches σ (p.store c x) (q.store c y) := by
  have hs : σ.Schedules (if x.2 then p.schedule.queueMicrotask (.deliver c) else p.schedule)
      (if y.2 then q.schedule.queueMicrotask (.deliver c) else q.schedule) := by
    by_cases hc : c.IsPlace
    · rw [hx.place hc]
      split
      · exact h.schedule.queueMicrotask (a := .deliver c) hc
      · exact h.schedule
    · rw [hx.other hc]
      split
      · exact h.schedule.queueStray hc
      · exact h.schedule
  refine ⟨{ h.toCarries with schedule := hs, stage := fun d => ?_ }, ?_⟩
  · by_cases hd : d = c
    · subst hd
      rw [Player.store, Player.store, Stage.cell_withCell_self, Stage.cell_withCell_self]
      exact hx.cells
    · rw [Player.store, Player.store, Stage.cell_withCell_of_ne _ hd,
        Stage.cell_withCell_of_ne _ hd]
      exact h.stage d
  · rw [now_store, now_store]
    exact h.now

theorem write (h : Matches σ p q) (c : CellName) (v : c.Value) :
    Matches σ (p.write c v) (q.write c v) := h.store ((h.stage c).set v)

theorem notify (h : Matches σ p q) (c : CellName) : Matches σ (p.notify c) (q.notify c) :=
  h.store (h.stage c).notify

theorem playEffect (h : Matches σ p q) (name : String) :
    Matches σ (p.playEffect name) (q.playEffect name) := (h.write ..).notify _

theorem foldl_write (h : Matches σ p q) (ws : List CellWrite) :
    Matches σ (ws.foldl (fun p w => p.write w.cell w.value) p)
      (ws.foldl (fun p w => p.write w.cell w.value) q) := by
  induction ws generalizing p q with
  | nil => exact h
  | cons w ws ih => exact ih (h.write ..)

/-- Both go over to a phase in which no scene is loaded. -/
theorem withPhase (h : Matches σ p q) {x : Phase} (hx : x ≠ .loading) :
    Matches σ { p with phase := x } { q with phase := x } :=
  ⟨{ h.toCarries with loading := by simp [hx] }, h.now⟩

/-! ### Timers -/

/-- Timers come and go in both. -/
theorem withSchedule (h : Matches σ p q) {s t : Schedule Task} (hs : σ.Schedules s t)
    (hn : s.loop.now = p.loop.now) (hn' : t.loop.now = q.loop.now) :
    Matches σ { p with schedule := s } { q with schedule := t } :=
  ⟨{ h.toCarries with schedule := hs }, hn.trans (h.now.trans (by rw [← hn']; rfl))⟩

theorem startTimer (h : Matches σ p q) (d : Nat) (repeats : Bool) {a : Task} (ha : a.IsOngoing) :
    Matches σ (p.startTimer d repeats (σ.task a)) (q.startTimer d repeats a) := by
  have hadd := h.schedule.addTimer (x := { duration := d, repeats, callback := σ.task a })
    (y := { duration := d, repeats, callback := a }) ⟨rfl, rfl, rfl, ha, rfl, rfl⟩
      fun _ hi => nomatch hi
  have hstart := hadd.start h.now (k := q.schedule.timers.size)
    (y := { duration := d, repeats, callback := a }) (by simp [Schedule.addTimer])
  rw [← h.schedule.size] at hstart
  exact h.withSchedule hstart (now_start ..) (now_start ..)

theorem cancelTimer (h : Matches σ p q) (k : Nat) :
    Matches σ (p.cancelTimer (k + σ.timer)) (q.cancelTimer k) :=
  h.withSchedule (h.schedule.cancel k) (now_cancel ..) (now_cancel ..)

theorem skipTimer (h : Matches σ p q) (k : Nat) :
    Matches σ { p with schedule := (p.schedule.skip (k + σ.timer)).1 }
      { q with schedule := (q.schedule.skip k).1 } :=
  h.withSchedule (h.schedule.skip h.now k) (now_skip ..) (now_skip ..)

/-! ### Texts -/

theorem modifyReveal (h : Matches σ p q) (r : Nat) {f g : Reveal → Reveal}
    (hf : ∀ v, f (σ.text v) = σ.text (g v)) :
    Matches σ (p.modifyReveal (r + σ.reveal) f) (q.modifyReveal r g) := by
  refine ⟨{ h.toCarries with size := ?_, reveals := fun s => ?_, spent := @fun s v hs hv => ?_ },
    h.now⟩
  · simp only [Player.modifyReveal, Array.size_modify]
    exact h.size
  · simp only [Player.modifyReveal, Array.getElem?_modify, Nat.add_right_cancel_iff, h.reveals]
    split
    · rw [Option.map_map, Option.map_map]
      exact congrArg (Option.map · _) (funext hf)
    · rfl
  · simp only [Player.modifyReveal, Array.getElem?_modify] at hv
    rw [if_neg (by omega)] at hv
    exact h.spent hs hv

/-- A text begins. -/
theorem pushReveal (h : Matches σ p q) (v : Reveal) :
    Matches σ { p with reveals := p.reveals.push (σ.text v) }
      { q with reveals := q.reveals.push v } := by
  have hsize := h.size
  refine ⟨{ h.toCarries with size := ?_, reveals := fun s => ?_, spent := @fun s w hs hw => ?_ },
    h.now⟩
  · simp only [Array.size_push]
    omega
  · simp only [Array.getElem?_push, hsize, Nat.add_right_cancel_iff, h.reveals]
    split <;> rfl
  · simp only [Array.getElem?_push] at hw
    rw [if_neg (by omega)] at hw
    exact h.spent hs hw

/-! ### Tickets -/

/-- A ticket is given back. -/
theorem count_erase (h : Matches σ p q) (t u : Ticket) :
    (p.live.erase (σ.ticket t)).count (σ.ticket u) = (q.live.erase t).count u := by
  rw [List.count_erase, List.count_erase, h.live]
  simp [Shift.ticket_inj]

end Matches

/-- The players are alike, and so is what is to be done next. -/
structure Pairs (σ : Shift) (x y : Player × Orders) : Prop where
  /-- The players. -/
  world : Matches σ x.1 y.1
  /-- The orders. -/
  orders : x.2 = y.2.map σ.order
  /-- They are those of scripts. -/
  ongoing : ∀ o ∈ y.2, o.IsOngoing

/-- The players are alike, and so is what is to be done next, but for strays. -/
structure Strides (σ : Shift) (x y : Player × Orders) : Prop where
  /-- The players. -/
  world : Matches σ x.1 y.1
  /-- The orders. -/
  orders : Laced σ.order Order.IsOngoing σ.StraysBy x.2 y.2

end Player

end Novella
