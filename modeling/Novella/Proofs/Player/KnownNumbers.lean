import Mathlib.Data.List.Nodup
import Novella.Proofs.Player.ActiveInstruction
import Novella.Proofs.Player.LineSteps
import Novella.Proofs.Player.TimersAndTexts
import Novella.Proofs.Timer.TimerLog

/-!
# Numbers that may be referred to

Tickets, timers, timeouts and shown texts are numbers, and whoever knows a number can use what it
stands for. A *realm* says which of them may be referred to. A player is within a realm if whatever
it keeps there refers to nothing outside: shown texts and callbacks, commands of the host, the
active handler and the orders that are still to be carried out. A text that has just shown a
character may be referred to from anywhere, since this takes it no further before its stretch ends.

What a player does from within a realm leaves all alone that is outside, whichever task it performs,
and keeps it within the realm, provided that the realm has room for the numbers that are given out
meanwhile. There are two exceptions: input and interruptions reach the timer or the text of the
active handler, whether it belongs to the realm or not, and the end of a stretch its text.

## Main definitions

* `Realm` — what may be referred to
* `Schedule.In`, `Player.In`, `Order.In` — nothing outside is referred to
* `Schedule.Apart`, `Player.Apart` — nothing outside has changed
* `Player.Ends`, `Player.Responds` — what comes of a player that does something

## Main results

* `Player.perform_responds` — a task does nothing outside, but it may cut the active handler off
* `Player.perform_ends` — it does nothing outside at all if that handler is inside
-/

namespace Novella

open Player

/-- The act comes after a character, and takes the text no further before its stretch ends. -/
def Reveal.Act.Trails : Reveal.Act → Prop
  | ticked | release => True
  | _ => False

/-- What may be referred to. -/
structure Realm where
  /-- The tickets that may be given back. -/
  ticket : Ticket → Prop
  /-- The timers that may be touched. -/
  timer : Nat → Prop
  /-- The timeouts that may be taken back. -/
  timeout : Nat → Prop
  /-- The texts that may be moved on. -/
  reveal : Nat → Prop

namespace Realm

variable (R : Realm)

/-- The handler holds no ticket from outside. -/
def Holds : Handler → Prop
  | .finish t => R.ticket t
  | .host _ t => R.ticket t
  | _ => True

/-- The task refers to nothing outside. A loop does not hold the end of a start. -/
def Admits : Task → Prop
  | .ring k => R.timer k
  | .finish t => R.ticket t
  | .reveal r a => a.Trails ∨ R.reveal r
  | .conclude _ _ => False
  | _ => True

/-- The numbers that a schedule gave out belong to the realm. -/
structure Covers (s s' : Schedule Task) : Prop where
  /-- New timers belong to it. -/
  timer {k : Nat} : s.timers.size ≤ k → k < s'.timers.size → R.timer k
  /-- New timeouts belong to it. -/
  timeout {id : Nat} : s.loop.nextId ≤ id → id < s'.loop.nextId → R.timeout id

end Realm

/-- The order refers to nothing outside the realm. -/
def Order.In (R : Realm) : Order Task → Prop
  | .perform (.conclude t .completed) => R.ticket t
  | .perform (.conclude _ (.pending h)) => R.Holds h
  | .perform t => R.Admits t
  | _ => True

/-- What a loop holds may be carried out. -/
theorem Realm.Admits.order {R : Realm} {t : Task} (h : R.Admits t) : (Order.perform t).In R := by
  cases t with
  | conclude => exact h.elim
  | _ => exact h

/-- The realm with other timeouts. -/
def Realm.renumber (R : Realm) (timeout : Nat → Prop) : Realm := { R with timeout }

/-- Tasks do not know timeouts. -/
theorem Realm.Admits.renumber {R : Realm} {t : Task} (h : R.Admits t) (f : Nat → Prop) :
    (R.renumber f).Admits t := by
  cases t <;> exact h

/-- Nor do orders. -/
theorem Order.In.renumber {R : Realm} {o : Order Task} (h : o.In R) (f : Nat → Prop) :
    o.In (R.renumber f) := by
  cases o with
  | perform t =>
    cases t with
    | conclude t c =>
      cases c with
      | completed => exact h
      | pending x => cases x <;> exact h
    | _ => exact h
  | _ => trivial

/-! ### Schedules -/

namespace Schedule

variable {R : Realm} {s s' s'' : Schedule Task} {k : Nat} {x : Timer Task}

/-- What belongs to the realm refers to nothing outside. -/
structure In (R : Realm) (s : Schedule Task) : Prop where
  /-- Callbacks do not. -/
  callback {k : Nat} {x : Timer Task} : s.timers[k]? = some x → R.timer k → R.Admits x.callback
  /-- Timers do not take back timeouts from outside. -/
  handle {k id : Nat} {x : Timer Task} : s.timers[k]? = some x → R.timer k → x.handle = some id →
    R.timeout id
  /-- Timeouts do not. -/
  timeout {u : Timeout Task} : u ∈ s.loop.timeouts → R.timeout u.id → R.Admits u.task
  /-- Microtasks do not. -/
  microtask {t : Task} : t ∈ s.loop.microtasks → R.Admits t

/-- Nothing outside the realm has changed. -/
structure Apart (R : Realm) (s s' : Schedule Task) : Prop where
  /-- Timers have not. -/
  timer {k : Nat} : k < s.timers.size → ¬ R.timer k → s'.timers[k]? = s.timers[k]?
  /-- Timeouts have not. -/
  timeout {u : Timeout Task} : u.id < s.loop.nextId → ¬ R.timeout u.id →
    (u ∈ s'.loop.timeouts ↔ u ∈ s.loop.timeouts)

theorem Apart.trans (h : s.Apart R s') (h' : s'.Apart R s'')
    (hs : s.timers.size ≤ s'.timers.size) (hn : s.loop.nextId ≤ s'.loop.nextId) : s.Apart R s'' :=
  ⟨fun hlt hout => (h'.timer (Nat.lt_of_lt_of_le hlt hs) hout).trans (h.timer hlt hout),
    fun hlt hout => (h'.timeout (Nat.lt_of_lt_of_le hlt hn) hout).trans (h.timeout hlt hout)⟩

/-- Timeouts stand in their order and are numbered, each with a number of its own, and timers know
numbers that have been given out. -/
structure Neat (s : Schedule Task) : Prop where
  /-- Timeouts stand in the order of their deadlines. -/
  sorted : s.loop.timeouts.Pairwise (fun u v => u.deadline ≤ v.deadline)
  /-- No number is given twice. -/
  distinct : s.loop.timeouts.Pairwise (fun u v => u.id ≠ v.id)
  /-- Timeouts have been numbered. -/
  numbered {u : Timeout Task} : u ∈ s.loop.timeouts → u.id < s.loop.nextId
  /-- Timers know numbers that have been given out. -/
  handle {k id : Nat} {x : Timer Task} : s.timers[k]? = some x → x.handle = some id →
    id < s.loop.nextId

/-- The first timeout is due before all others. -/
theorem Neat.deadline_le (h : s.Neat) {u v : Timeout Task} {us : List (Timeout Task)}
    (hs : s.loop.timeouts = u :: us) (hv : v ∈ s.loop.timeouts) : u.deadline ≤ v.deadline := by
  have hsorted := h.sorted
  rw [hs] at hsorted hv
  rcases List.mem_cons.1 hv with rfl | hv
  · exact Nat.le_refl _
  · exact (List.pairwise_cons.1 hsorted).1 v hv

/-- If the first timeout is not due no other one is. -/
theorem Neat.lt_deadline (h : s.Neat) {target : Nat}
    (hn : ∀ u ∈ s.loop.timeouts.head?, target < u.deadline) {v : Timeout Task}
    (hv : v ∈ s.loop.timeouts) : target < v.deadline := by
  cases hs : s.loop.timeouts with
  | nil => exact absurd (hs ▸ hv) List.not_mem_nil
  | cons u us => exact Nat.lt_of_lt_of_le (hn u (by rw [hs]; rfl)) (h.deadline_le hs hv)

/-- The later schedule comes of the earlier one. Realms that pass the test are not left. -/
structure Alters (C : Realm → Prop) (s s' : Schedule Task) : Prop where
  /-- Time stands still. -/
  now : s'.loop.now = s.loop.now
  /-- No timer is lost. -/
  size : s.timers.size ≤ s'.timers.size
  /-- No number is given twice. -/
  nextId : s.loop.nextId ≤ s'.loop.nextId
  /-- All stays neat. -/
  neat : s.Neat → s'.Neat
  /-- The realm is not left. -/
  within {R : Realm} : C R → R.Covers s s' → s.In R → s'.In R ∧ s.Apart R s'

/-- A timer has changed. -/
theorem getElem?_setTimer (ht : s.timers[k]? = some x) {y z : Timer Task} {j : Nat}
    (hz : (s.setTimer k y).timers[j]? = some z) :
    j = k ∧ z = y ∨ j ≠ k ∧ s.timers[j]? = some z := by
  by_cases hj : j = k
  · subst hj
    exact .inl ⟨rfl, Option.some.inj (hz.symm.trans (getElem?_setTimer_self ht y))⟩
  · exact .inr ⟨hj, (getElem?_setTimer_of_ne (Ne.symm hj) y).symm.trans hz⟩

theorem size_setTimer (s : Schedule Task) (k : Nat) (y : Timer Task) :
    (s.setTimer k y).timers.size = s.timers.size := Array.size_setIfInBounds

/-- A new timer is put behind the others. -/
theorem size_start (s : Schedule Task) (t : Timer Task) (k : Nat) :
    ((s.addTimer t).start .ring k).timers.size = s.timers.size + 1 := by
  have hadd : (s.addTimer t).timers.size = s.timers.size + 1 := Array.size_push ..
  rw [Schedule.start]
  split
  · split
    · exact hadd
    · exact (size_setTimer ..).trans hadd
  · exact hadd

namespace Alters

variable {C C' : Realm → Prop}

theorem refl (s : Schedule Task) : Alters C s s :=
  ⟨rfl, Nat.le_refl _, Nat.le_refl _, id, fun _ _ h => ⟨h, fun _ _ => rfl, fun _ _ => Iff.rfl⟩⟩

/-- One thing after another. -/
theorem trans (h : Alters C s s') (h' : Alters C' s' s'')
    (hc : ∀ {R : Realm}, C R → R.Covers s s' → s.In R → s'.In R → C' R) : Alters C s s'' := by
  refine ⟨h'.now.trans h.now, Nat.le_trans h.size h'.size, Nat.le_trans h.nextId h'.nextId,
    h'.neat ∘ h.neat, fun {R} hR hcov hs => ?_⟩
  have hfirst : R.Covers s s' :=
    ⟨fun hle hlt => hcov.timer hle (Nat.lt_of_lt_of_le hlt h'.size),
      fun hle hlt => hcov.timeout hle (Nat.lt_of_lt_of_le hlt h'.nextId)⟩
  have hsecond : R.Covers s' s'' :=
    ⟨fun hle hlt => hcov.timer (Nat.le_trans h.size hle) hlt,
      fun hle hlt => hcov.timeout (Nat.le_trans h.nextId hle) hlt⟩
  obtain ⟨hin, hapart⟩ := h.within hR hfirst hs
  obtain ⟨hin', hapart'⟩ := h'.within (hc hR hfirst hs hin) hsecond hin
  exact ⟨hin', hapart.trans hapart' h.size h.nextId⟩

/-- A narrower test. -/
theorem of_imp (h : Alters C' s s') (hc : ∀ {R : Realm}, C R → s.In R → C' R) : Alters C s s' :=
  (refl s).trans h fun hR _ hs _ => hc hR hs

theorem queueMicrotask (s : Schedule Task) (t : Task) :
    Alters (fun R => R.Admits t) s (s.queueMicrotask t) := by
  refine ⟨rfl, Nat.le_refl _, Nat.le_refl _, fun h => ⟨h.sorted, h.distinct, h.numbered, h.handle⟩,
    fun ht _ hs => ⟨⟨hs.callback, hs.handle, hs.timeout, fun hu => ?_⟩,
      fun _ _ => rfl, fun _ _ => Iff.rfl⟩⟩
  rcases List.mem_append.1 hu with hu | hu
  · exact hs.microtask hu
  · exact List.mem_singleton.1 hu ▸ ht

theorem addTimer (s : Schedule Task) {t : Timer Task} (hn : t.handle = none) :
    Alters (fun R => R.Admits t.callback) s (s.addTimer t) := by
  have hget {j : Nat} {z : Timer Task} (hz : (s.addTimer t).timers[j]? = some z) :
      z = t ∨ s.timers[j]? = some z := by
    rw [Schedule.addTimer, Array.getElem?_push] at hz
    split at hz
    · exact .inl (Option.some.inj hz).symm
    · exact .inr hz
  refine ⟨rfl, ?_, Nat.le_refl _, fun h => ⟨h.sorted, h.distinct, h.numbered, fun hz hid => ?_⟩,
    fun ht _ hs => ⟨⟨fun hz hR => ?_, fun hz hR hid => ?_, hs.timeout, hs.microtask⟩,
      fun hlt _ => ?_, fun _ _ => Iff.rfl⟩⟩
  · rw [Schedule.addTimer, Array.size_push]
    exact Nat.le_succ _
  · rcases hget hz with rfl | hz
    · rw [hn] at hid
      cases hid
    · exact h.handle hz hid
  · rcases hget hz with rfl | hz
    · exact ht
    · exact hs.callback hz hR
  · rcases hget hz with rfl | hz
    · rw [hn] at hid
      cases hid
    · exact hs.handle hz hR hid
  · rw [Schedule.addTimer, Array.getElem?_push, if_neg (Nat.ne_of_lt hlt)]

/-- A timer takes the place of one with the same callback. -/
theorem setTimer (ht : s.timers[k]? = some x) {y : Timer Task} (hc : y.callback = x.callback)
    (hy : ∀ {id}, y.handle = some id → id < s.loop.nextId) :
    Alters (fun R => R.timer k ∧ ∀ {id}, y.handle = some id → R.timeout id) s (s.setTimer k y) := by
  refine ⟨rfl, Nat.le_of_eq (size_setTimer ..).symm, Nat.le_refl _,
    fun h => ⟨h.sorted, h.distinct, h.numbered, fun hz hid => ?_⟩,
    fun {R} hk _ hs => ⟨⟨fun hz hR => ?_, fun hz hR hid => ?_, hs.timeout, hs.microtask⟩,
      fun {j} _ hout => ?_, fun _ _ => Iff.rfl⟩⟩
  · rcases getElem?_setTimer ht hz with ⟨-, rfl⟩ | ⟨-, hz⟩
    · exact hy hid
    · exact h.handle hz hid
  · rcases getElem?_setTimer ht hz with ⟨rfl, rfl⟩ | ⟨-, hz⟩
    · exact hc ▸ hs.callback ht hR
    · exact hs.callback hz hR
  · rcases getElem?_setTimer ht hz with ⟨-, rfl⟩ | ⟨-, hz⟩
    · exact hk.2 hid
    · exact hs.handle hz hR hid
  · exact getElem?_setTimer_of_ne (fun heq : k = j => hout (heq ▸ hk.1)) y

theorem clearTimeout (s : Schedule Task) (id : Nat) :
    Alters (fun R => R.timeout id) s { s with loop := s.loop.clearTimeout id } := by
  refine ⟨rfl, Nat.le_refl _, Nat.le_refl _,
    fun h => ⟨h.sorted.filter _, h.distinct.filter _, fun hu => h.numbered (List.mem_filter.1 hu).1,
      h.handle⟩,
    fun hid _ hs => ⟨⟨hs.callback, hs.handle, fun hu => hs.timeout (List.mem_filter.1 hu).1,
      hs.microtask⟩, fun _ _ => rfl, fun {u} _ hout => ?_⟩⟩
  have hne : u.id ≠ id := fun heq => hout (heq ▸ hid)
  simp [Loop.clearTimeout, hne]

theorem setTimeout (s : Schedule Task) (d : Nat) (t : Task) :
    Alters (fun R => R.Admits t) s { s with loop := s.loop.setTimeout d t } := by
  refine ⟨rfl, Nat.le_refl _, Nat.le_succ _, fun h => ⟨Loop.pairwise_insertTimeout h.sorted,
      Loop.InOrder.pairwise_insertTimeout h.distinct fun u hu => Nat.ne_of_lt (h.numbered hu),
      fun hu => ?_, fun hz hid => Nat.lt_succ_of_lt (h.handle hz hid)⟩,
    fun ht _ hs => ⟨⟨hs.callback, hs.handle, fun hu hR => ?_, hs.microtask⟩,
      fun _ _ => rfl, fun {u} hlt _ => ?_⟩⟩
  · rcases Loop.mem_insertTimeout.1 hu with rfl | hu
    · exact Nat.lt_succ_self _
    · exact Nat.lt_succ_of_lt (h.numbered hu)
  · rcases Loop.mem_insertTimeout.1 hu with rfl | hu
    · exact ht
    · exact hs.timeout hu hR
  · refine Loop.mem_insertTimeout.trans (or_iff_right ?_)
    rintro rfl
    exact Nat.lt_irrefl _ hlt

/-- A timer is put to rest. -/
theorem stop (ht : s.timers[k]? = some x) (st : TimerState) :
    Alters (fun R => R.timer k) s (s.setTimer k { x with state := st, handle := none }) :=
  (setTimer ht (y := { x with state := st, handle := none }) rfl fun h => nomatch h).of_imp
    fun hk _ => ⟨hk, fun h => nomatch h⟩

/-- So is one that has a timeout. -/
theorem disarm (ht : s.timers[k]? = some x) (st : TimerState) :
    Alters (fun R => R.timer k) s (s.disarm k x st) := by
  rw [Schedule.disarm]
  cases hid : x.handle with
  | none => exact stop ht st
  | some id =>
    -- the timeout goes while the timer still knows its number
    have hclear : Alters (fun R => R.timer k) s { s with loop := s.loop.clearTimeout id } :=
      (clearTimeout s id).of_imp fun hk hs => hs.handle ht hk hid
    exact hclear.trans (stop (s := { s with loop := s.loop.clearTimeout id }) ht st)
      fun hk _ _ _ => hk

/-- A timer gets a timeout. -/
theorem arm (ht : s.timers[k]? = some x) {y : Timer Task} (hc : y.callback = x.callback) :
    Alters (fun R => R.timer k) s (s.arm .ring k y) := by
  have hring : Alters (fun R => R.timer k) s
      { s with loop := s.loop.setTimeout y.duration (.ring k) } :=
    (setTimeout s y.duration (.ring k)).of_imp fun hk _ => hk
  refine hring.trans (setTimer (s := { s with loop := s.loop.setTimeout y.duration (.ring k) }) ht
    (y := { y with state := .running, handle := some s.loop.nextId, scheduledAt := s.loop.now })
    hc ?_) ?_
  · rintro _ ⟨⟩
    exact Nat.lt_succ_self _
  · refine fun hk hcov _ _ => ⟨hk, ?_⟩
    rintro _ ⟨⟩
    exact hcov.timeout (Nat.le_refl _) (Nat.lt_succ_self _)

theorem cancel (s : Schedule Task) (k : Nat) : Alters (fun R => R.timer k) s (s.cancel k) := by
  rw [Schedule.cancel]
  split
  · next x hx => exact disarm hx _
  · exact refl s

/-- A timer that does not exist need not belong to the realm. -/
theorem cancel_of_lt (s : Schedule Task) (k : Nat) :
    Alters (fun R => k < s.timers.size → R.timer k) s (s.cancel k) := by
  by_cases hk : k < s.timers.size
  · exact (cancel s k).of_imp fun h _ => h hk
  · rw [Schedule.cancel, Array.getElem?_eq_none (Nat.le_of_not_lt hk)]
    exact refl s

theorem skip (s : Schedule Task) (k : Nat) : Alters (fun R => R.timer k) s (s.skip k).1 := by
  rw [Schedule.skip]
  split
  · next x hx =>
    have hskip : Alters (fun R => R.timer k) s { s.disarm k x .finished with
        loop := (s.disarm k x .finished).loop.setTimeout 0 x.callback } :=
      (disarm hx .finished).trans (setTimeout _ 0 x.callback) fun hk _ hs _ => hs.callback hx hk
    split
    · exact hskip
    · exact hskip
    · exact refl s
  · exact refl s

/-- A timer that does not exist need not belong to the realm. -/
theorem skip_of_lt (s : Schedule Task) (k : Nat) :
    Alters (fun R => k < s.timers.size → R.timer k) s (s.skip k).1 := by
  by_cases hk : k < s.timers.size
  · exact (skip s k).of_imp fun h _ => h hk
  · rw [Schedule.skip, Array.getElem?_eq_none (Nat.le_of_not_lt hk)]
    exact refl s

theorem ring (s : Schedule Task) (k : Nat) : Alters (fun R => R.timer k) s (s.ring .ring k).1 := by
  rw [Schedule.ring]
  split
  · next x hx =>
    split
    · dsimp only
      split
      · exact arm hx rfl
      · exact stop hx .finished
    · exact refl s
  · exact refl s

/-- A new timer is started. -/
theorem start (s : Schedule Task) (d : Nat) (repeats : Bool) (t : Task) :
    Alters (fun R => R.Admits t) s
      ((s.addTimer { duration := d, repeats, callback := t }).start .ring s.timers.size) := by
  have hnew : (s.addTimer { duration := d, repeats, callback := t }).timers[s.timers.size]? =
      some { duration := d, repeats, callback := t } := by simp [Schedule.addTimer]
  rw [Schedule.start, hnew]
  refine (addTimer s rfl).trans (arm hnew rfl) fun _ hcov _ _ => hcov.timer (Nat.le_refl _) ?_
  rw [Schedule.addTimer, Array.size_push]
  exact Nat.lt_succ_self _

end Alters

/-- Nothing is referred to by a timer that is cancelled. -/
theorem In.cancel (h : s.In R) (k : Nat) : (s.cancel k).In R := by
  rw [Schedule.cancel]
  split
  · next x hx =>
    refine ⟨fun hz hR => ?_, fun hz hR hid => ?_, fun hu => h.timeout ?_, fun hu => h.microtask ?_⟩
    · rcases getElem?_setTimer hx hz with ⟨rfl, rfl⟩ | ⟨-, hz⟩
      · have hcallback := h.callback hx hR
        exact hcallback
      · exact h.callback hz hR
    · rcases getElem?_setTimer hx hz with ⟨-, rfl⟩ | ⟨-, hz⟩
      · cases hid
      · exact h.handle hz hR hid
    · exact timeouts_disarm_subset _ _ _ _ hu
    · rwa [microtasks_disarm] at hu
  · exact h

/-- What is outside may become another timer. -/
theorem In.setTimer (h : s.In R) (ht : s.timers[k]? = some x) (hk : ¬ R.timer k) (y : Timer Task) :
    (s.setTimer k y).In R := by
  refine ⟨fun {j z} hz hR => ?_, fun {j i z} hz hR => ?_, h.timeout, h.microtask⟩
  · rcases getElem?_setTimer ht hz with ⟨rfl, -⟩ | ⟨-, hz⟩
    · exact absurd hR hk
    · exact h.callback hz hR
  · rcases getElem?_setTimer ht hz with ⟨rfl, -⟩ | ⟨-, hz⟩
    · exact absurd hR hk
    · exact h.handle hz hR

theorem In.clearTimeout (h : s.In R) (id : Nat) :
    { s with loop := s.loop.clearTimeout id }.In R :=
  ⟨h.callback, h.handle, fun hu => h.timeout (List.mem_filter.1 hu).1, h.microtask⟩

/-- A timeout outside may have any task. -/
theorem In.setTimeout (h : s.In R) (hid : ¬ R.timeout s.loop.nextId) (d : Nat) (t : Task) :
    { s with loop := s.loop.setTimeout d t }.In R := by
  refine ⟨h.callback, h.handle, fun hu hR => ?_, h.microtask⟩
  rcases Loop.mem_insertTimeout.1 hu with rfl | hu
  · exact absurd hR hid
  · exact h.timeout hu hR

/-- If nothing on the loop is from outside the next number may be left outside instead. -/
theorem In.renumber (h : s.In R) (hn : s.Neat) (hu : ∀ u ∈ s.loop.timeouts, R.timeout u.id) :
    s.In (R.renumber (· ≠ s.loop.nextId)) :=
  ⟨fun hx hk => (h.callback hx hk).renumber _, fun hx _ hi => Nat.ne_of_lt (hn.handle hx hi),
    fun hm _ => (h.timeout hm (hu _ hm)).renumber _, fun ht => (h.microtask ht).renumber _⟩

/-- A timer that has been made is armed. -/
theorem start_addTimer (s : Schedule Task) (d : Nat) (repeats : Bool) (t : Task) :
    (s.addTimer { duration := d, repeats, callback := t }).start .ring s.timers.size =
      (s.addTimer { duration := d, repeats, callback := t }).arm .ring s.timers.size
        { duration := d, repeats, callback := t } := by
  rw [Schedule.start, show (s.addTimer _).timers[s.timers.size]? = some _ by simp [addTimer]; rfl]
  rfl

/-- A timer that has been made and started runs. -/
theorem getElem?_start (s : Schedule Task) (d : Nat) (repeats : Bool) (t : Task) :
    ((s.addTimer { duration := d, repeats, callback := t }).start .ring
      s.timers.size).timers[s.timers.size]? =
        some (Timer.armed { duration := d, repeats, callback := t } s.loop) := by
  have hnew : (s.addTimer { duration := d, repeats, callback := t }).timers[s.timers.size]? =
      some { duration := d, repeats, callback := t } := by simp [addTimer]
  rw [start_addTimer]
  exact getElem?_setTimer_self hnew _

/-- Its timeout waits. -/
theorem mem_timeouts_start (s : Schedule Task) (d : Nat) (repeats : Bool) (t : Task) :
    ⟨s.loop.now + d, s.loop.nextId, .ring s.timers.size⟩ ∈
      ((s.addTimer { duration := d, repeats, callback := t }).start .ring
        s.timers.size).loop.timeouts := by
  rw [start_addTimer]
  exact Loop.mem_insertTimeout.2 (.inl rfl)

theorem nextId_start (s : Schedule Task) (d : Nat) (repeats : Bool) (t : Task) :
    ((s.addTimer { duration := d, repeats, callback := t }).start .ring
      s.timers.size).loop.nextId = s.loop.nextId + 1 := by
  rw [start_addTimer]
  rfl

/-- What is outside may be given to another timer. -/
theorem In.start (h : s.In R) (hk : ¬ R.timer s.timers.size) (hid : ¬ R.timeout s.loop.nextId)
    (d : Nat) (repeats : Bool) (t : Task) :
    ((s.addTimer { duration := d, repeats, callback := t }).start .ring s.timers.size).In R := by
  have hnew : (s.addTimer { duration := d, repeats, callback := t }).timers[s.timers.size]? =
      some { duration := d, repeats, callback := t } := by simp [addTimer]
  have hget {j : Nat} {z : Timer Task} (hR : R.timer j) :
      (s.addTimer { duration := d, repeats, callback := t }).timers[j]? = some z →
        s.timers[j]? = some z := by
    intro hz
    have hj : j ≠ s.timers.size := by
      rintro rfl
      exact hk hR
    rwa [addTimer, Array.getElem?_push, if_neg hj] at hz
  have hadd : (s.addTimer { duration := d, repeats, callback := t }).In R :=
    ⟨fun hz hR => h.callback (hget hR hz) hR, fun hz hR => h.handle (hget hR hz) hR, h.timeout,
      h.microtask⟩
  rw [start_addTimer]
  exact (hadd.setTimer hnew hk _).setTimeout hid _ _

theorem Neat.setTimer (h : s.Neat) (ht : s.timers[k]? = some x) {y : Timer Task}
    (hy : y.handle = none) : (s.setTimer k y).Neat := by
  refine ⟨h.sorted, h.distinct, h.numbered, fun hz hid => ?_⟩
  rcases getElem?_setTimer ht hz with ⟨-, rfl⟩ | ⟨-, hz⟩
  · rw [hy] at hid
    cases hid
  · exact h.handle hz hid

theorem setTimer_self (ht : s.timers[k]? = some x) : s.setTimer k x = s := by
  have hset : (s.setTimer k x).timers = s.timers := by
    refine Array.ext_getElem? fun j => ?_
    by_cases hj : k = j
    · subst hj
      exact (getElem?_setTimer_self ht x).trans ht.symm
    · exact getElem?_setTimer_of_ne hj x
  exact congrArg (fun timers => { s with timers }) hset

/-- A timer at rest is left alone by those who cancel it. -/
theorem cancel_of_rest (ht : s.timers[k]? = some x) (hn : x.handle = none)
    (hs : x.state = .finished ∨ x.state = .cancelled) : s.cancel k = s := by
  have hx : { x with
      state := if x.state = .finished then .finished else .cancelled, handle := none } = x := by
    cases x
    cases hn
    rcases hs with hs | hs <;> cases hs <;> rfl
  rw [Schedule.cancel, ht]
  dsimp only
  rw [Schedule.disarm, hn]
  dsimp only
  rw [hx]
  exact setTimer_self ht

/-- So it is with input. -/
theorem skip_of_rest (ht : s.timers[k]? = some x)
    (hs : x.state = .finished ∨ x.state = .cancelled) : (s.skip k).1 = s := by
  unfold Schedule.skip
  rw [ht]
  dsimp only
  rcases hs with hs | hs <;> rw [hs]

/-- The callback of a timer that rings. -/
theorem In.admits_ring (h : s.In R) (hk : R.timer k) {t : Task}
    (ht : t ∈ (s.ring .ring k).2) : R.Admits t := by
  unfold Schedule.ring at ht
  split at ht
  · next x hx =>
    split at ht
    · cases ht
      exact h.callback hx hk
    · cases ht
  · cases ht

end Schedule

/-! ### Players -/

/-- The shown text refers to nothing outside the realm. -/
def Realm.Shows (R : Realm) (v : Reveal) : Prop :=
  R.ticket v.ticket ∧ ∀ {k}, v.timer = some k → R.timer k

/-- The text, whoever keeps it. -/
def Reveal.bare (v : Reveal) : Reveal := { v with holds := 0 }

/-- If the handler is a timer or a text of the player it belongs to the realm. -/
def Realm.Has (R : Realm) (p : Player) : Handler → Prop
  | .timer k => k < p.schedule.timers.size → R.timer k
  | .reveal r => r < p.reveals.size → R.reveal r
  | _ => True

/-- The active handler belongs to the realm. -/
def Realm.Serves (R : Realm) (p : Player) : Prop := ∀ x, p.active = some x → R.Has p x

/-- If the task may take a text past its stretch the text belongs to the realm. -/
def Realm.Follows (R : Realm) (p : Player) : Task → Prop
  | .reveal r .ticked => r < p.reveals.size → R.reveal r
  | _ => True

theorem Realm.exists_of_not_follows {R : Realm} {p : Player} {t : Task} (h : ¬ R.Follows p t) :
    ∃ r, t = .reveal r .ticked ∧ r < p.reveals.size ∧ ¬ R.reveal r := by
  unfold Follows at h
  split at h
  · exact ⟨_, rfl, Classical.not_imp.1 h⟩
  · exact absurd trivial h

/-- The numbers that a player gave out belong to the realm. -/
structure Realm.Takes (R : Realm) (p q : Player) : Prop extends R.Covers p.schedule q.schedule where
  /-- New tickets belong to it. -/
  ticket {g : Nat} : p.generation < g → g ≤ q.generation → R.ticket (.instruction g)
  /-- So do new texts. -/
  reveal {r : Nat} : p.reveals.size ≤ r → r < q.reveals.size → R.reveal r

namespace Player

variable {R : Realm} {C C' : Realm → Prop} {p q q' : Player} {x : Player × Orders}

/-- Whatever belongs to the realm refers to nothing outside. The active handler may be a timer or a
text from outside. -/
structure In (R : Realm) (p : Player) : Prop where
  /-- The schedule does not. -/
  schedule : p.schedule.In R
  /-- Shown texts do not. -/
  reveal {r : Nat} {v : Reveal} : p.reveals[r]? = some v → R.reveal r → R.Shows v
  /-- Tickets of the host's commands belong to the realm. -/
  ticket {t : Ticket} : t ∈ p.tickets → R.ticket t
  /-- The active handler holds no ticket from outside. -/
  active {h : Handler} : p.active = some h → R.Holds h

/-- Nothing outside the realm has changed. -/
structure Apart (R : Realm) (p q : Player) : Prop where
  /-- Timers and timeouts have not. -/
  schedule : p.schedule.Apart R q.schedule
  /-- Tickets have not been given back. -/
  live {t : Ticket} : ¬ R.ticket t → q.live.count t = p.live.count t
  /-- Texts have not been taken further. -/
  reveal {r : Nat} : r < p.reveals.size → ¬ R.reveal r →
    q.reveals[r]?.map Reveal.bare = p.reveals[r]?.map Reveal.bare

/-- The later player has given out all numbers that the earlier one has. -/
structure Precedes (p q : Player) : Prop where
  /-- No timer is lost. -/
  size : p.schedule.timers.size ≤ q.schedule.timers.size
  /-- No number is given twice. -/
  nextId : p.schedule.loop.nextId ≤ q.schedule.loop.nextId
  /-- Tickets are numbered on. -/
  generation : p.generation ≤ q.generation
  /-- No text is lost. -/
  texts : p.reveals.size ≤ q.reveals.size

namespace Precedes

theorem refl (p : Player) : p.Precedes p :=
  ⟨Nat.le_refl _, Nat.le_refl _, Nat.le_refl _, Nat.le_refl _⟩

theorem trans (h : p.Precedes q) (h' : q.Precedes q') : p.Precedes q' :=
  ⟨Nat.le_trans h.size h'.size, Nat.le_trans h.nextId h'.nextId,
    Nat.le_trans h.generation h'.generation, Nat.le_trans h.texts h'.texts⟩

/-- Some of the numbers had been given out before. -/
theorem takes (h : p.Precedes q) (ht : R.Takes p q') : R.Takes q q' :=
  ⟨⟨fun hle => ht.timer (Nat.le_trans h.size hle),
      fun hle => ht.timeout (Nat.le_trans h.nextId hle)⟩,
    fun hlt => ht.ticket (Nat.lt_of_le_of_lt h.generation hlt),
    fun hle => ht.reveal (Nat.le_trans h.texts hle)⟩

/-- Some of the numbers are given out only later. -/
theorem takes_before (h : q.Precedes q') (ht : R.Takes p q') : R.Takes p q :=
  ⟨⟨fun hle hlt => ht.timer hle (Nat.lt_of_lt_of_le hlt h.size),
    fun hle hlt => ht.timeout hle (Nat.lt_of_lt_of_le hlt h.nextId)⟩,
    fun hlt hle => ht.ticket hlt (Nat.le_trans hle h.generation),
    fun hle hlt => ht.reveal hle (Nat.lt_of_lt_of_le hlt h.texts)⟩

end Precedes

theorem Apart.trans (h : p.Apart R q) (h' : q.Apart R q') (hp : p.Precedes q) : p.Apart R q' :=
  ⟨h.schedule.trans h'.schedule hp.size hp.nextId, fun hout => (h'.live hout).trans (h.live hout),
    fun hlt hout => (h'.reveal (Nat.lt_of_lt_of_le hlt hp.texts) hout).trans (h.reveal hlt hout)⟩

/-- What comes of a player, with orders. Realms that pass the test are not left. -/
structure Remains (C : Realm → Prop) (p : Player) (x : Player × Orders) : Prop
    extends Precedes p x.1 where
  /-- Time stands still. -/
  now : x.1.schedule.loop.now = p.schedule.loop.now
  /-- All stays neat. -/
  neat : p.schedule.Neat → x.1.schedule.Neat
  /-- The realm is not left. -/
  within {R : Realm} : C R → R.Takes p x.1 → p.In R →
    x.1.In R ∧ (∀ o ∈ x.2, o.In R) ∧ p.Apart R x.1

/-- What comes of a player where no instruction begins. -/
structure Dwells (C : Realm → Prop) (p : Player) (x : Player × Orders) : Prop
    extends Remains C p x where
  /-- No ticket is new. -/
  live {t : Ticket} : t ∈ x.1.live → t ∈ p.live

/-- The later texts come of the earlier ones. Realms that pass the test are not left. -/
structure Retells (C : Realm → Prop) (p q : Player) : Prop where
  /-- No text is lost. -/
  size : p.reveals.size ≤ q.reveals.size
  /-- Texts of the realm refer to nothing outside. -/
  shows {R : Realm} : C R → p.In R → ∀ {r : Nat} {v : Reveal}, q.reveals[r]? = some v →
    R.reveal r → R.Shows v
  /-- Texts from outside are not taken further. -/
  apart {R : Realm} : C R → ∀ {r : Nat}, r < p.reveals.size → ¬ R.reveal r →
    q.reveals[r]?.map Reveal.bare = p.reveals[r]?.map Reveal.bare

namespace Retells

theorem of_eq (h : q.reveals = p.reveals) : Retells C p q :=
  ⟨Nat.le_of_eq (by rw [h]), fun _ hp _ _ hv => hp.reveal (h ▸ hv), fun _ _ _ _ => by rw [h]⟩

/-- A text is changed. -/
theorem modify (p : Player) (r : Nat) (f : Reveal → Reveal) :
    Retells (fun R => (∀ v, R.reveal r → R.Shows v → R.Shows (f v)) ∧
      (R.reveal r ∨ ∀ v, (f v).bare = v.bare)) p (p.modifyReveal r f) := by
  have hget (s : Nat) : (p.modifyReveal r f).reveals[s]? =
      if r = s then p.reveals[s]?.map f else p.reveals[s]? := Array.getElem?_modify ..
  refine ⟨Nat.le_of_eq (Array.size_modify ..).symm, fun hR hp s v hv hs => ?_,
    fun hR s _ hs => ?_⟩
  · rw [hget] at hv
    split at hv
    · next heq =>
      obtain ⟨w, hw, rfl⟩ := Option.map_eq_some_iff.1 hv
      exact hR.1 w (heq ▸ hs) (hp.reveal hw hs)
    · exact hp.reveal hv hs
  · rw [hget]
    split
    · next heq =>
      have hf : Reveal.bare ∘ f = Reveal.bare :=
        funext (hR.2.resolve_left fun hr => hs (heq ▸ hr))
      rw [Option.map_map, hf]
    · rfl

/-- A new text has a ticket of the realm. -/
theorem begin (p : Player) (text : String) (t : Ticket) :
    Retells (fun R => R.ticket t) p (p.beginReveal text t) := by
  have hget {r : Nat} {v : Reveal} (hv : (p.beginReveal text t).reveals[r]? = some v) :
      v.ticket = t ∧ v.timer = none ∨ p.reveals[r]? = some v := by
    rw [beginReveal, Array.getElem?_push] at hv
    split at hv
    · cases hv
      exact .inl ⟨rfl, rfl⟩
    · exact .inr hv
  refine ⟨?_, fun hR hp _ _ hv hr => ?_, fun _ r hlt _ => ?_⟩
  · rw [beginReveal, Array.size_push]
    exact Nat.le_succ _
  · rcases hget hv with ⟨rfl, hn⟩ | hv
    · refine ⟨hR, fun hk => ?_⟩
      rw [hn] at hk
      cases hk
    · exact hp.reveal hv hr
  · rw [beginReveal, Array.getElem?_push, if_neg (Nat.ne_of_lt hlt)]

end Retells

namespace Remains

theorem refl (p : Player) : Remains C p (p, []) :=
  ⟨.refl p, rfl, id, fun _ _ h => ⟨h, fun _ ho => absurd ho List.not_mem_nil,
    ⟨⟨fun _ _ => rfl, fun _ _ => Iff.rfl⟩, fun _ => rfl, fun _ _ => rfl⟩⟩⟩

/-- One thing after another, with orders that are left for later. -/
theorem before {more : Orders} (h : Remains C p (q, more)) (h' : Remains C' q x)
    (hc : ∀ {R : Realm}, C R → R.Takes p q → p.In R → q.In R → C' R) :
    Remains C p (x.1, x.2 ++ more) := by
  refine ⟨h.toPrecedes.trans h'.toPrecedes, h'.now.trans h.now, h'.neat ∘ h.neat,
    fun {R} hR htake hp => ?_⟩
  have hfirst : R.Takes p q := h'.toPrecedes.takes_before htake
  obtain ⟨hin, hmore, hapart⟩ := h.within hR hfirst hp
  obtain ⟨hin', horders, hapart'⟩ :=
    h'.within (hc hR hfirst hp hin) (h.toPrecedes.takes htake) hin
  exact ⟨hin', List.forall_mem_append.2 ⟨horders, hmore⟩, hapart.trans hapart' h.toPrecedes⟩

/-- One thing after another. -/
theorem trans (h : Remains C p (q, [])) (h' : Remains C' q x)
    (hc : ∀ {R : Realm}, C R → R.Takes p q → p.In R → q.In R → C' R) : Remains C p x := by
  have hx := h.before h' hc
  rwa [List.append_nil] at hx

/-- Further orders are left. -/
theorem append (h : Remains C p x) {orders : Orders}
    (ho : ∀ {R : Realm}, C R → R.Takes p x.1 → p.In R → ∀ o ∈ orders, o.In R) :
    Remains C p (x.1, x.2 ++ orders) := by
  refine ⟨h.toPrecedes, h.now, h.neat, fun hR htake hp => ?_⟩
  obtain ⟨hin, horders, hapart⟩ := h.within hR htake hp
  exact ⟨hin, List.forall_mem_append.2 ⟨horders, ho hR htake hp⟩, hapart⟩

end Remains

namespace Dwells

theorem refl (p : Player) : Dwells C p (p, []) := ⟨.refl p, id⟩

theorem trans (h : Dwells C p (q, [])) (h' : Dwells C' q x)
    (hc : ∀ {R : Realm}, C R → R.Takes p q → p.In R → q.In R → C' R) : Dwells C p x :=
  ⟨h.toRemains.trans h'.toRemains hc, h.live ∘ h'.live⟩

/-- What comes next has no demands. -/
theorem also (h : Dwells C p (q, [])) (h' : Dwells (fun _ => True) q x) : Dwells C p x :=
  h.trans h' fun _ _ _ _ => trivial

theorem append (h : Dwells C p x) {orders : Orders}
    (ho : ∀ {R : Realm}, C R → R.Takes p x.1 → p.In R → ∀ o ∈ orders, o.In R) :
    Dwells C p (x.1, x.2 ++ orders) := ⟨h.toRemains.append ho, h.live⟩

theorem concat (h : Dwells C p x) {o : Order Task} (ho : ∀ {R : Realm}, C R → o.In R) :
    Dwells C p (x.1, x.2 ++ [o]) :=
  h.append fun hR _ _ _ hm => List.mem_singleton.1 hm ▸ ho hR

theorem single (h : Dwells C p (q, [])) {o : Order Task} (ho : ∀ {R : Realm}, C R → o.In R) :
    Dwells C p (q, [o]) := h.concat ho

theorem calls (h : Dwells C p (q, [])) (a : Audience) (body : List HostCall) :
    Dwells C p (q, body.map (fun c => .perform (.call a c))) := by
  refine h.append fun _ _ _ o ho => ?_
  obtain ⟨c, -, rfl⟩ := List.mem_map.1 ho
  trivial

/-- What has changed, part by part. -/
theorem of_parts (hs : Schedule.Alters C p.schedule q.schedule) (hr : Retells C p q)
    (ht : ∀ {R : Realm}, C R → ∀ {t}, t ∈ q.tickets → t ∈ p.tickets ∨ R.ticket t)
    (ha : ∀ {R : Realm}, C R → ∀ {h}, q.active = some h → p.active = some h ∨ R.Holds h)
    (hg : p.generation ≤ q.generation) (hsub : ∀ {t}, t ∈ q.live → t ∈ p.live)
    (hl : ∀ {R : Realm}, C R → ∀ {t}, ¬ R.ticket t → q.live.count t = p.live.count t) :
    Dwells C p (q, []) := by
  refine ⟨⟨⟨hs.size, hs.nextId, hg, hr.size⟩, hs.now, hs.neat, fun hR htake hp => ?_⟩, hsub⟩
  obtain ⟨hin, hapart⟩ := hs.within hR htake.toCovers hp.schedule
  exact ⟨⟨hin, hr.shows hR hp, fun hm => (ht hR hm).elim hp.ticket id,
    fun hh => (ha hR hh).elim hp.active id⟩, fun _ ho => absurd ho List.not_mem_nil,
    ⟨hapart, hl hR, hr.apart hR⟩⟩

/-- The schedule changes, and texts, but no ticket and no handler is new. -/
theorem of_alters (hs : Schedule.Alters C p.schedule q.schedule) (hr : Retells C p q)
    (ht : q.tickets = p.tickets) (ha : ∀ h, q.active = some h → p.active = some h)
    (hg : p.generation ≤ q.generation) (hl : q.live = p.live) : Dwells C p (q, []) :=
  of_parts hs hr (fun _ _ hm => .inl (ht ▸ hm)) (fun _ _ hh => .inl (ha _ hh)) hg
    (fun hm => hl ▸ hm) fun _ _ _ => by rw [hl]

/-- Nothing that could refer to anything changes. -/
theorem of_eq (h : Dwells C p (q, [])) (hs : q'.schedule = q.schedule) (hr : q'.reveals = q.reveals)
    (ht : q'.tickets = q.tickets) (ha : q'.active = q.active)
    (hg : q'.generation = q.generation) (hl : q'.live = q.live) : Dwells C p (q', []) :=
  h.also (of_alters (hs ▸ .refl _) (.of_eq hr) ht (fun _ hh => ha ▸ hh) (Nat.le_of_eq hg.symm) hl)

theorem of_inside (h : Dwells C p (q, [])) (hq : q'.inside = q.inside) : Dwells C p (q', []) := by
  have hs := congrArg Player.schedule hq
  have hr := congrArg Player.reveals hq
  have ht := congrArg Player.tickets hq
  have ha := congrArg Player.active hq
  have hg := congrArg Player.generation hq
  have hl := congrArg Player.live hq
  exact h.of_eq hs hr ht ha hg hl

/-- The schedule changes, and nothing else does. -/
theorem withSchedule (h : Dwells C p (q, [])) {s : Schedule Task} {C' : Realm → Prop}
    (hs : Schedule.Alters C' q.schedule s) (hc : ∀ {R : Realm}, C R → q.In R → C' R) :
    Dwells C p ({ q with schedule := s }, []) :=
  h.trans (of_alters hs (.of_eq rfl) rfl (fun _ => id) (Nat.le_refl _) rfl)
    fun hR _ _ hq => hc hR hq

/-! ### Signals and cells -/

theorem note (h : Dwells C p (q, [])) (e : Event) : Dwells C p (q.note e, []) := h.of_inside rfl

theorem logError (h : Dwells C p (q, [])) (s : String) : Dwells C p (q.logError s, []) := h.note _

theorem trace (h : Dwells C p (q, [])) (c : LogCategory) (l : LogLevel) (s : String) :
    Dwells C p (q.trace c l s, []) := h.of_inside (inside_trace ..)

theorem react (h : Dwells C p (q, [])) (k : Nat) (o : Occurrence) : Dwells C p (q.react k o) := by
  rw [Player.react]
  dsimp only
  split
  · split
    · refine calls ?_ _ _
      exact h.of_inside rfl
    · exact h.note _
  · exact h.note _

theorem passOn (h : Dwells C p (q, [])) (s : Signal) : Dwells C p (q.passOn s) := by
  rw [Player.passOn]
  split
  · exact h.react ..
  · exact h.of_inside rfl

theorem receive (h : Dwells C p (q, [])) (s : Signal) (r : Receiver) :
    Dwells C p (q.receive s r) := by
  cases r with
  | listener k => exact h.react ..
  | book => exact (h.of_inside (inside_enter q s)).passOn s

theorem emit (h : Dwells C p (q, [])) (s : Signal) : Dwells C p (q.emit s) := by
  rw [Player.emit]
  split
  · exact h.receive ..
  · exact h.of_inside rfl

theorem connect (h : Dwells C p (q, [])) (k : Hook) (l : Listener) :
    Dwells C p (q.connect k l) := by
  unfold Player.connect connectReceiver
  dsimp only
  split
  · refine receive ?_ ..
    exact h.of_inside rfl
  · exact h.of_inside rfl

theorem connectToBook (h : Dwells C p (q, [])) (k : Hook) (l : Listener) :
    Dwells C p (q.connectToBook k l) := by
  rw [Player.connectToBook]
  dsimp only
  split
  · refine react ?_ ..
    exact h.of_inside rfl
  · exact h.of_inside rfl

theorem store (h : Dwells C p (q, [])) (c : CellName) (r : Cell c.Value Reaction × Bool) :
    Dwells C p (q.store c r, []) := by
  rw [Player.store]
  split
  · have hs := h.withSchedule (.queueMicrotask q.schedule (.deliver c)) fun _ _ => trivial
    exact hs.of_eq rfl rfl rfl rfl rfl rfl
  · exact h.of_eq rfl rfl rfl rfl rfl rfl

theorem write (h : Dwells C p (q, [])) (c : CellName) (v : c.Value) :
    Dwells C p (q.write c v, []) :=
  h.store ..

theorem notify (h : Dwells C p (q, [])) (c : CellName) : Dwells C p (q.notify c, []) := h.store ..

theorem observe (h : Dwells C p (q, [])) (c : CellName) (r : Reaction) (accepts : c.Value → Bool)
    (once : Bool) : Dwells C p (q.observe c r accepts once, []) := h.store ..

theorem playEffect (h : Dwells C p (q, [])) (name : String) : Dwells C p (q.playEffect name, []) :=
  (h.write ..).notify ..

theorem present (h : Dwells C p (q, [])) (c : Context) (v : Progress) :
    Dwells C p (q.present c v, []) := by
  unfold Player.present
  dsimp only
  repeat' first | exact h | apply Dwells.write

theorem foldl_write (h : Dwells C p (q, [])) (ws : List CellWrite) :
    Dwells C p (ws.foldl (fun q w => q.write w.cell w.value) q, []) := by
  induction ws generalizing q with
  | nil => exact h
  | cons w ws ih => exact ih (h.write ..)

theorem storeOutcome (h : Dwells C p (q, [])) (opcode argument : String)
    (r : Except AssignmentError Assignment.Outcome) :
    Dwells C p (q.storeOutcome opcode argument r, []) := by
  cases r with
  | ok o => exact (h.write ..).trace ..
  | error e => exact h.logError _

/-! ### Timers and texts -/

theorem startTimer (h : Dwells C p (q, [])) (d : Nat) (repeats : Bool) {t : Task}
    (ht : ∀ {R : Realm}, C R → R.Admits t) : Dwells C p (q.startTimer d repeats t, []) :=
  h.withSchedule (.start q.schedule d repeats t) fun hR _ => ht hR

theorem cancelTimer (h : Dwells C p (q, [])) {k : Nat}
    (hk : ∀ {R : Realm}, C R → q.In R → R.timer k) : Dwells C p (q.cancelTimer k, []) :=
  h.withSchedule (.cancel q.schedule k) hk

theorem skipTimer (h : Dwells C p (q, [])) {k : Nat}
    (hk : ∀ {R : Realm}, C R → q.In R → R.timer k) :
    Dwells C p ({ q with schedule := (q.schedule.skip k).1 }, []) :=
  h.withSchedule (.skip q.schedule k) hk

theorem waitFor (h : Dwells C p (q, [])) (d : Nat) {t : Ticket}
    (ht : ∀ {R : Realm}, C R → R.ticket t) : Dwells C p ((q.waitFor d t).1, []) := by
  rw [Player.waitFor]
  split
  · exact h
  · exact h.startTimer _ _ ht

/-- A text of the realm is changed, or one from outside as far as it is kept. -/
theorem changeReveal (h : Dwells C p (q, [])) (r : Nat) {f : Reveal → Reveal}
    (hf : ∀ {R : Realm}, C R → (∀ v, R.reveal r → R.Shows v → R.Shows (f v)) ∧
      (R.reveal r ∨ ∀ v, (f v).bare = v.bare)) : Dwells C p (q.modifyReveal r f, []) :=
  h.trans (of_alters (.refl _) (.modify q r f) rfl (fun _ => id) (Nat.le_refl _) rfl)
    fun hR _ _ _ => hf hR

/-- A text of the realm is changed, but it keeps its ticket and gets no other timer. -/
theorem modifyReveal (h : Dwells C p (q, [])) {r : Nat} (hr : ∀ {R : Realm}, C R → R.reveal r)
    {f : Reveal → Reveal} (ht : ∀ v, (f v).ticket = v.ticket)
    (hk : ∀ v k, (f v).timer = some k → v.timer = some k) :
    Dwells C p (q.modifyReveal r f, []) :=
  h.changeReveal r fun hR => ⟨fun v _ hv => ⟨(ht v).symm ▸ hv.1, fun heq => hv.2 (hk v _ heq)⟩,
    .inl (hr hR)⟩

/-- A text is kept, or let go, wherever it belongs. -/
theorem holdReveal (h : Dwells C p (q, [])) (r : Nat) (f : Nat → Nat) :
    Dwells C p (q.modifyReveal r fun v => { v with holds := f v.holds }, []) :=
  h.changeReveal r fun _ => ⟨fun _ _ hv => hv, .inr fun _ => rfl⟩

theorem stopReveal (h : Dwells C p (q, [])) {r : Nat} (hr : ∀ {R : Realm}, C R → R.reveal r)
    {v : Reveal} (hv : ∀ {R : Realm}, C R → q.In R → R.Shows v) (mode : Reveal.Mode) :
    Dwells C p (q.stopReveal r v mode, []) := by
  have hstop {u : Player} (hu : Dwells C p (u, [])) :
      Dwells C p (u.modifyReveal r fun v => { v with mode, timer := none }, []) :=
    hu.modifyReveal hr (fun _ => rfl) fun _ _ heq => nomatch heq
  unfold Player.stopReveal
  dsimp only
  split
  · next k hk => exact hstop (h.cancelTimer fun hR hq => (hv hR hq).2 hk)
  · exact hstop h

theorem armReveal (h : Dwells C p (q, [])) {r : Nat} (hr : ∀ {R : Realm}, C R → R.reveal r)
    (mode : Reveal.Mode) (d : Nat) (repeats : Bool) (a : Reveal.Act) :
    Dwells C p (q.armReveal r mode d repeats a, []) := by
  have hsize : q.schedule.timers.size <
      (q.startTimer d repeats (.reveal r a)).schedule.timers.size := by
    rw [Player.startTimer, Schedule.size_start]
    exact Nat.lt_succ_self _
  have hstart : Dwells C p (q.startTimer d repeats (.reveal r a), []) :=
    h.startTimer d repeats fun hR => .inr (hr hR)
  have harm : Dwells (fun R => R.timer q.schedule.timers.size ∧ R.reveal r)
      (q.startTimer d repeats (.reveal r a)) (q.armReveal r mode d repeats a, []) :=
    (refl _).changeReveal r fun hR =>
      ⟨fun _ _ hv => ⟨hv.1, fun heq => Option.some.inj heq ▸ hR.1⟩, .inl hR.2⟩
  exact hstart.trans harm fun hR htake _ _ => ⟨htake.timer h.size hsize, hr hR⟩

/-! ### Commands -/

theorem carryOut (h : Dwells C p (q, [])) (cue : Cue) {t : Ticket}
    (ht : ∀ {R : Realm}, C R → R.ticket t) : Dwells C p ((q.carryOut cue t).1, []) := by
  have hw := h.foldl_write cue.writes
  unfold Player.carryOut
  dsimp only
  split
  · exact (hw.playEffect _).waitFor _ ht
  · exact hw.waitFor _ ht

theorem branch (h : Dwells C p (q, [])) (argument : String) :
    Dwells C p (q.branch argument, []) := by
  obtain ⟨events, queue, hq, -⟩ := q.branch_eq argument
  rw [hq]
  exact h.of_eq rfl rfl rfl rfl rfl rfl

theorem skip (h : Dwells C p (q, [])) (argument : String) : Dwells C p (q.skip argument, []) := by
  rw [Player.skip]
  split
  · exact h.logError _
  · exact h.logError _
  · exact (h.trace ..).write ..

/-- A text begins, and goes on to its first pause. -/
theorem beginReveal (h : Dwells C p (q, [])) (text : String) {t : Ticket}
    (ht : ∀ {R : Realm}, C R → R.ticket t) :
    Dwells C p (q.beginReveal text t, [.perform (.reveal q.reveals.size .run)]) := by
  have hb : Dwells (fun R => R.ticket t) q (q.beginReveal text t, []) :=
    of_alters (.refl _) (.begin q text t) rfl (fun _ => id) (Nat.le_refl _) rfl
  have hnew : q.reveals.size < (q.beginReveal text t).reveals.size := by
    rw [Player.beginReveal, Array.size_push]
    exact Nat.lt_succ_self _
  have hrun : Dwells (fun R => R.ticket t) q
      (q.beginReveal text t, [] ++ [.perform (.reveal q.reveals.size .run)]) := by
    refine hb.append fun _ htake _ o ho => ?_
    rw [List.mem_singleton.1 ho]
    exact .inr (htake.reveal (Nat.le_refl _) hnew)
  exact h.trans hrun fun hR _ _ _ => ht hR

/-- A command of the host is given its ticket. -/
theorem call (h : Dwells C p (q, [])) (opcode argument : String) {t : Ticket}
    (ht : ∀ {R : Realm}, C R → R.ticket t) :
    Dwells C p ({ q.note (.called opcode argument) with tickets := q.tickets.push t }, []) := by
  refine (h.note (.called opcode argument)).trans (of_parts (C := fun R => R.ticket t) (.refl _)
    (.of_eq rfl) (fun hR u hu => ?_) (fun _ _ => .inl) (Nat.le_refl _) id
    fun _ _ _ => rfl) fun hR _ _ _ => ht hR
  rcases Array.mem_push.1 hu with hu | rfl
  · exact .inl hu
  · exact .inr hR

/-- A command is carried out, and then concluded. -/
theorem execute (h : Dwells C p (q, [])) (command : Command) (opcode argument : String) {t : Ticket}
    (ht : ∀ {R : Realm}, C R → R.ticket t) :
    Dwells C p ((q.execute command opcode argument t).1,
      (q.execute command opcode argument t).2.1 ++
        [Order.perform (Task.conclude t (q.execute command opcode argument t).2.2)]) := by
  have hd (delay : Option Nat) : Dwells C p ({ q with delay }, []) :=
    h.of_eq rfl rfl rfl rfl rfl rfl
  have hwait {u : Player} (d : Nat) {R : Realm} (hR : C R) :
      (Order.perform (.conclude t (u.waitFor d t).2)).In R := by
    rw [Player.waitFor]
    split
    · exact ht hR
    · trivial
  cases command with
  | text => exact (h.beginReveal argument ht).concat fun _ => trivial
  | pageBreak => exact (h.emit _).concat fun hR => ht hR
  | lineBreak => exact (h.emit _).concat fun hR => ht hR
  | click => exact h.concat fun hR => ht hR
  | wait =>
    simp only [Player.execute]
    split
    · next ms _ => exact (h.waitFor ms.toNat ht).concat fun hR => hwait _ hR
    · exact (h.logError _).concat fun hR => ht hR
  | setDelay =>
    simp only [Player.execute]
    split
    · exact (hd _).concat fun hR => ht hR
    · exact (h.logError _).concat fun hR => ht hR
  | resetDelay => exact (hd none).concat fun hR => ht hR
  | branch => exact (h.branch _).concat fun hR => ht hR
  | skip => exact (h.skip _).concat fun hR => ht hR
  | exit => exact ((h.trace ..).emit _).concat fun _ => trivial
  | cue c =>
    simp only [Player.execute]
    split
    · next cue _ => exact (h.carryOut cue ht).concat fun hR => hwait _ hR
    · exact (h.logError _).concat fun hR => ht hR
  | assign op => exact (h.storeOutcome ..).concat fun hR => ht hR
  | step delta => exact (h.storeOutcome ..).concat fun hR => ht hR
  | host b body =>
    have hc := (h.call opcode argument ht).calls .nobody body
    have hf := hc.concat (o := .perform (.finish t)) fun hR => ht hR
    cases b with
    | finishThenComplete => exact hf.concat fun hR => ht hR
    | finishThenHold => exact hf.concat fun hR => ht hR
    | complete => exact hc.concat fun hR => ht hR
    | _ => exact hc.concat fun hR => ht hR

end Dwells

namespace Remains

/-- An instruction begins. -/
theorem dispatch (p : Player) (i : Instruction) : Remains C p (p.dispatch i) := by
  have hbegin : Remains C p (p.begin, []) := by
    refine ⟨⟨Nat.le_refl _, Nat.le_refl _, Nat.le_succ _, Nat.le_refl _⟩, rfl, id,
      fun {R} _ htake hp => ?_⟩
    have hnew : R.ticket (.instruction (p.generation + 1)) :=
      htake.ticket (Nat.lt_succ_self _) (Nat.le_refl _)
    refine ⟨⟨hp.schedule, hp.reveal, hp.ticket, hp.active⟩, fun _ ho => absurd ho List.not_mem_nil,
      ⟨fun _ _ => rfl, fun _ _ => Iff.rfl⟩, fun {t} hn => ?_, fun _ _ => rfl⟩
    refine List.count_cons_of_ne ?_
    rintro rfl
    exact hn hnew
  have hrest {x : Player × Orders}
      (hx : Dwells (fun R => R.ticket (.instruction (p.generation + 1))) p.begin x) :
      Remains C p x :=
    hbegin.trans hx.toRemains fun _ htake _ _ => htake.ticket (Nat.lt_succ_self _) (Nat.le_refl _)
  rw [Player.dispatch]
  dsimp only
  split
  · exact hrest ((Dwells.refl p.begin).execute _ _ _ id)
  · exact hrest ((Dwells.refl p.begin).single fun hR => hR)
  · exact hrest (((Dwells.refl p.begin).logError _).single fun hR => hR)

theorem runNext (p : Player) : Remains C p p.runNext := by
  rw [Player.runNext]
  split
  · next i rest _ =>
    have hqueue : Dwells C p ({ p with queue := rest }, []) :=
      (Dwells.refl p).of_eq rfl rfl rfl rfl rfl rfl
    exact hqueue.toRemains.trans (dispatch (C := C) _ i) fun hR _ _ _ => hR
  · exact ((Dwells.refl p).write ..).toRemains

end Remains

/-! ### The next instruction -/

/-- What comes of a player where the next instruction may begin in the end. -/
inductive Ends (C : Realm → Prop) (p : Player) (x : Player × Orders) : Prop where
  /-- It does not begin. -/
  | rests : Dwells C p x → Ends C p x
  /-- It begins. -/
  | runs {q : Player} {more : Orders} :
      Dwells C p (q, more) → x = (q.runNext.1, q.runNext.2 ++ more) → Ends C p x

namespace Ends

theorem append (h : Ends C p x) {orders : Orders}
    (ho : ∀ {R : Realm}, C R → ∀ o ∈ orders, o.In R) : Ends C p (x.1, x.2 ++ orders) := by
  cases h with
  | rests h => exact .rests (h.append fun hR _ _ => ho hR)
  | @runs q more h hx =>
    have happ : Dwells C p (q, more ++ orders) := h.append fun hR _ _ => ho hR
    refine .runs happ ?_
    rw [hx, List.append_assoc]

theorem concat (h : Ends C p x) {o : Order Task} (ho : ∀ {R : Realm}, C R → o.In R) :
    Ends C p (x.1, x.2 ++ [o]) :=
  h.append fun hR _ hm => List.mem_singleton.1 hm ▸ ho hR

/-- Something comes before. -/
theorem prepend (h : Dwells C p (q, [])) (h' : Ends C' q x)
    (hc : ∀ {R : Realm}, C R → R.Takes p q → p.In R → q.In R → C' R) : Ends C p x := by
  cases h' with
  | rests h' => exact .rests (h.trans h' hc)
  | runs h' hx => exact .runs (h.trans h' hc) hx

/-- A narrower test. -/
theorem of_imp (h : Ends C' p x) (hc : ∀ {R : Realm}, C R → C' R) : Ends C p x :=
  prepend (.refl p) h fun hR _ _ _ => hc hR

theorem remains (h : Ends C p x) : Remains C p x := by
  cases h with
  | rests h => exact h.toRemains
  | @runs q more h hx =>
    subst hx
    exact h.toRemains.before (Remains.runNext (C := C) q) fun hR _ _ _ => hR

/-- A ticket is given back, and this is what follows. -/
theorem finish_of_mem {t : Ticket} (ht : t ∈ q.live)
    (h : Dwells C p ({ q with live := q.live.erase t }, [])) : Ends C p (q.finish t) := by
  have hi : Dwells C p ({ q with live := q.live.erase t, active := none }, []) :=
    h.also (.of_alters (.refl _) (.of_eq rfl) rfl (fun _ hh => nomatch hh)
      (Nat.le_refl _) rfl)
  rw [Player.finish, if_pos ht]
  dsimp only
  split
  · split
    · refine .runs hi ?_
      rw [List.append_nil]
    · exact .rests (h.trace ..)
  · exact .rests (h.note _)

theorem finish (h : Dwells C p (q, [])) {t : Ticket}
    (ht : ∀ {R : Realm}, C R → q.In R → R.ticket t) : Ends C p (q.finish t) := by
  by_cases hm : t ∈ q.live
  · refine finish_of_mem hm (h.trans (Dwells.of_parts (C := fun R => R.ticket t) (.refl _)
      (.of_eq rfl) (fun _ _ => .inl) (fun _ _ => .inl) (Nat.le_refl _)
      List.mem_of_mem_erase fun hR _ hn => List.count_erase_of_ne ?_) fun hR _ _ hq => ht hR hq)
    rintro rfl
    exact hn hR
  · rw [Player.finish, if_neg hm]
    exact .rests h

theorem conclude (p : Player) (t : Ticket) (c : Completion) :
    Ends (fun R => (Order.perform (.conclude t c)).In R) p (p.conclude t c) := by
  cases c with
  | completed => exact finish (.refl p) fun hR _ => hR
  | pending h =>
    have hwait {u : Player} (hu : Dwells (fun R => R.Holds h) p (u, [])) :
        Dwells (fun R => R.Holds h) p ({ u with active := some h, phase := .awaiting }, []) := by
      refine hu.trans (Dwells.of_parts (C := fun R => R.Holds h) (.refl _)
        (.of_eq rfl) (fun _ _ => .inl) (fun hR _ hh => .inr ?_) (Nat.le_refl _)
        id fun _ _ _ => rfl) fun hR _ _ _ => hR
      exact Option.some.inj hh ▸ hR
    refine .rests ?_
    unfold Player.conclude
    dsimp only
    split
    · next r =>
      have hm := (Dwells.refl (C := fun R => R.Holds (.reveal r)) p).holdReveal r (· - 1)
      split
      · exact hwait hm
      · exact hm
    · split
      · exact hwait (.refl p)
      · exact .refl p

/-! ### Acts of a text -/

theorem proceed (p : Player) (r : Nat) (v : Reveal) :
    Ends (fun R => R.reveal r ∧ R.Shows v) p (p.proceed r v) := by
  have h : Dwells (fun R => R.reveal r ∧ R.Shows v) p (p, []) := .refl p
  have goOn (rest : List Char) (mode : Reveal.Mode) :=
    h.modifyReveal And.left (f := fun v => { v with rest, mode }) (fun _ => rfl) fun _ _ => id
  rw [Player.proceed]
  dsimp only
  split
  · exact finish ((goOn [] .done).trace ..) fun hR _ => hR.2.1
  · exact .rests (((goOn _ .running).trace ..).armReveal And.left ..)
  · exact .rests ((goOn _ .awaitingInput).trace ..)
  · exact .rests (((goOn _ .awaitingInput).trace ..).emit _)
  · exact .rests (((goOn _ .pageEnd).trace ..).emit _)
  · exact .rests (((goOn _ .running).emit _).concat fun hR => .inr hR.1)
  · exact .rests (h.armReveal And.left ..)

theorem runReveal (h : Dwells C p (q, [])) {r : Nat} (hr : ∀ {R : Realm}, C R → R.reveal r) :
    Ends C p (q.runReveal r) := by
  have hm := h.modifyReveal hr (f := fun v => { v with mode := .running }) (fun _ => rfl)
    fun _ _ => id
  unfold Player.runReveal
  dsimp only
  split
  · next v hv =>
    exact prepend hm (proceed _ r v) fun hR _ _ hq => ⟨hr hR, hq.reveal hv (hr hR)⟩
  · exact .rests hm

theorem tickReveal (h : Dwells C p (q, [])) {r : Nat} (hr : ∀ {R : Realm}, C R → R.reveal r)
    (v : Reveal) : Ends C p (q.tickReveal r v) := by
  rw [Player.tickReveal]
  split
  · exact .rests (h.single fun _ => .inl trivial)
  · next c rest _ =>
    dsimp only
    split
    · exact .rests (h.single fun _ => .inl trivial)
    · have hm := h.modifyReveal hr (f := fun v => { v with rest }) (fun _ => rfl) fun _ _ => id
      exact .rests ((hm.emit _).concat fun _ => .inl trivial)

theorem keeping (h : Dwells C p (q, [])) (r : Nat) {f : Player → Player × Orders}
    (hf : ∀ {u : Player}, Dwells C p (u, []) → Ends C p (f u)) : Ends C p (q.keeping r f) :=
  (hf (h.holdReveal r (· + 1))).concat fun _ => .inl trivial

theorem nudgeReveal (h : Dwells C p (q, [])) {r : Nat} (hr : ∀ {R : Realm}, C R → R.reveal r)
    {v : Reveal} (hv : ∀ {R : Realm}, C R → R.Shows v) : Ends C p (q.nudgeReveal r v) := by
  rw [Player.nudgeReveal]
  split
  · have hs := (h.stopReveal hr (fun hR _ => hv hR) .running).modifyReveal hr
      (f := fun v => { v with rest := Reveal.afterStretch v.rest }) (fun _ => rfl) fun _ _ => id
    dsimp only
    split
    · exact .rests (hs.single fun hR => .inr (hr hR))
    · exact .rests ((hs.emit _).concat fun hR => .inr (hr hR))
  · exact runReveal h hr
  · have hm := h.modifyReveal hr (f := fun v => { v with mode := .done }) (fun _ => rfl)
      fun _ _ => id
    exact finish hm fun hR _ => (hv hR).1
  · split
    · next k hk => exact .rests (h.skipTimer fun hR _ => (hv hR).2 hk)
    · exact .rests h
  · exact .rests h
  · exact .rests h

/-- A text that acts belongs to the realm, or is let go. -/
theorem actReveal (p : Player) (r : Nat) (a : Reveal.Act) :
    Ends (fun R => a = .release ∨ (r < p.reveals.size → R.reveal r)) p (p.actReveal r a) := by
  have h : Dwells (fun R => R.reveal r) p (p, []) := .refl p
  rw [Player.actReveal]
  split
  · exact .rests (.refl p)
  · next v hv =>
    have acts {x : Player × Orders} (ha : a ≠ .release) (hx : Ends (fun R => R.reveal r) p x) :
        Ends (fun R => a = .release ∨ (r < p.reveals.size → R.reveal r)) p x :=
      hx.of_imp fun hR => hR.resolve_left ha (Array.getElem?_eq_some_iff.1 hv).1
    have hshown {R : Realm} (hR : R.reveal r) (hp : p.In R) : R.Shows v := hp.reveal hv hR
    cases a with
    | run => exact acts (by decide) (runReveal h id)
    | resume =>
      dsimp only
      split
      · exact acts (by decide) (prepend h (proceed p r v) fun hR _ hp _ => ⟨hR, hshown hR hp⟩)
      · exact .rests (.refl p)
    | tick =>
      dsimp only
      split
      · exact acts (by decide) (keeping h r fun hu => tickReveal hu id v)
      · exact .rests (.refl p)
    | ticked =>
      dsimp only
      split
      · exact acts (by decide) (runReveal (h.stopReveal id hshown .running) id)
      · exact .rests (.refl p)
    | wake =>
      dsimp only
      split
      · exact acts (by decide) (keeping h r fun hu => runReveal hu id)
      · exact .rests (.refl p)
    | release => exact .rests ((Dwells.refl p).holdReveal r (· - 1))

/-! ### Input -/

/-- Input reaches the active handler only. -/
theorem next (p : Player) : Ends (·.Serves p) p p.next := by
  have hp : Dwells (·.Serves p) p (p, []) := .refl p
  rw [Player.next]
  split
  · next h ha =>
    cases h with
    | finish t => exact finish hp fun _ hin => hin.active ha
    | stuck => exact .rests hp
    | timer k => exact .rests (hp.withSchedule (.skip_of_lt p.schedule k) fun hR _ => hR _ ha)
    | reveal r =>
      rw [Player.advanceHandler]
      split
      · next v hv =>
        have hr {R : Realm} (hR : R.Serves p) : R.reveal r :=
          hR _ ha (Array.getElem?_eq_some_iff.1 hv).1
        exact .prepend hp (keeping (C := fun R => R.reveal r ∧ R.Shows v) (.refl p) r fun hu =>
          nudgeReveal hu And.left And.right) fun hR _ hin _ => ⟨hr hR, hin.reveal hv (hr hR)⟩
      · exact .rests hp
    | host b t =>
      cases b with
      | onNext => exact (finish hp fun _ hin => hin.active ha).concat fun _ => trivial
      | _ => exact .rests (hp.note _)
  · exact .rests hp

end Ends

/-! ### Interruption -/

/-- What comes of a player that may cut the active handler off, whether it belongs to a realm or
not. -/
inductive Responds (C : Realm → Prop) (p : Player) (x : Player × Orders) : Prop where
  /-- The handler is left alone. -/
  | ends : Ends C p x → Responds C p x
  /-- The handler is cut off. -/
  | breaks {q : Player} : Dwells C p (q, []) → q.active = p.active → Ends C q.interrupt x →
      Responds C p x

namespace Responds

theorem concat (h : Responds C p x) {o : Order Task} (ho : ∀ R : Realm, o.In R) :
    Responds C p (x.1, x.2 ++ [o]) := by
  cases h with
  | ends h => exact .ends (h.concat fun _ => ho _)
  | breaks hq ha h => exact .breaks hq ha (h.concat fun _ => ho _)

end Responds

namespace Dwells

/-- A handler is told that its instruction is over. -/
theorem cancelHandler (h : Dwells C p (q, [])) {x : Handler}
    (hx : ∀ {R : Realm}, C R → R.Has q x) : Dwells C p (q.cancelHandler x, []) := by
  cases x with
  | timer k => exact h.withSchedule (.cancel_of_lt q.schedule k) fun hR _ => hx hR
  | reveal r =>
    rw [Player.cancelHandler]
    split
    · next v hv =>
      have hr {R : Realm} (hR : C R) : R.reveal r := hx hR (Array.getElem?_eq_some_iff.1 hv).1
      exact h.stopReveal hr (fun hR hq => hq.reveal hv (hr hR)) .done
    · exact h
  | host b t =>
    cases b with
    | cancellable => exact h.note _
    | _ => exact h
  | _ => exact h

/-- An interruption reaches the active handler only. -/
theorem interrupt (p : Player) :
    Dwells (·.Serves p) p (p.interrupt, []) := by
  have hi : Dwells (·.Serves p) p
      ({ p with generation := p.generation + 1, queue := [], active := none }, []) :=
    of_alters (.refl _) (.of_eq rfl) rfl (fun _ hh => nomatch hh)
      (Nat.le_succ _) rfl
  unfold Player.interrupt
  dsimp only
  split
  · next x ha =>
    refine hi.cancelHandler fun hR => ?_
    cases x with
    | timer | reveal => exact hR _ ha
    | _ => trivial
  · exact hi

theorem completeLoad (h : Dwells C p (q, [])) (r : LoadRequest)
    (result : Except SourceError (List String)) : Dwells C p ((q.completeLoad r result).1, []) := by
  unfold Player.completeLoad
  split
  · exact h.trace ..
  · split
    · refine notify ?_ _
      exact (h.trace ..).of_eq rfl rfl rfl rfl rfl rfl
    · refine logError ?_ _
      exact h.of_eq rfl rfl rfl rfl rfl rfl

theorem load (h : Dwells C p (q, [])) : Dwells C p q.load := by
  unfold Player.load takeRequest
  have ht : Dwells C p ({ q with loadRequest := none }, []) := h.of_eq rfl rfl rfl rfl rfl rfl
  cases q.loadRequest with
  | none => exact ht
  | some r =>
    refine (ht.completeLoad ..).append fun _ _ _ o ho => ?_
    rcases List.mem_pair.1 ho with rfl | rfl <;> trivial

end Dwells

namespace Responds

theorem bides (h : Dwells C p x) : Responds C p x := .ends (.rests h)

/-! ### Scenes and lines -/

theorem goto (h : Dwells C p (q, [])) (ha : q.active = p.active) (scene : String) (index : UInt64) :
    Responds C p (q.goto scene index, []) := by
  have hi : Dwells C q.interrupt (q.interrupt, []) := .refl _
  refine .breaks h ha (.rests ?_)
  rw [Player.goto]
  dsimp only
  split
  · exact (hi.write ..).write ..
  · split
    · exact ((hi.notify ..).write ..).notify ..
    · exact (hi.write ..).notify ..

theorem loadScene (h : Dwells C p (q, [])) (ha : q.active = p.active) (scene : String) :
    Responds C p (q.loadScene scene, []) := by
  have hi : Dwells C q.interrupt (q.interrupt, []) := .refl _
  refine .breaks h ha (.rests ?_)
  rw [Player.loadScene]
  dsimp only
  split
  · exact hi.of_eq rfl rfl rfl rfl rfl rfl
  · refine Dwells.trace ?_ ..
    exact hi.of_eq rfl rfl rfl rfl rfl rfl

theorem runLine (h : Dwells C p (q, [])) (ha : q.active = p.active) (index : UInt64) :
    Responds C p (q.runLine index) := by
  have hi : Dwells C q.interrupt (q.interrupt, []) := .refl _
  rw [Player.runLine]
  split
  · exact .bides (h.trace ..)
  · refine .breaks h ha ?_
    dsimp only
    split
    · refine .rests (Dwells.logError ?_ _)
      exact hi.of_eq rfl rfl rfl rfl rfl rfl
    · split
      · refine .rests (Dwells.note ?_ _)
        exact hi.of_eq rfl rfl rfl rfl rfl rfl
      · refine .runs (?_ : Dwells C _ (_, [])) (Prod.ext rfl (List.append_nil _).symm)
        exact (hi.trace ..).of_eq rfl rfl rfl rfl rfl rfl

/-! ### Calls and observers -/

theorem call (p : Player) {c : HostCall} (hc : c ≠ .next) :
    Responds C p ((p.call c).1, (p.call c).2.2) := by
  have h : Dwells C p (p, []) := .refl p
  cases c with
  | next => exact absurd rfl hc
  | settle => exact .bides (h.single fun _ => trivial)
  | advance d => exact .bides (h.single fun _ => trivial)
  | runMicrotasks => exact .bides (h.single fun _ => trivial)
  | goto scene index => exact .goto h rfl scene index
  | restore c v => exact .goto (h.present c v) rfl c.scene c.index
  | serve =>
    have hload : Dwells C p (p, [.settle, .perform .load]) := h.append fun _ _ _ o ho => by
      rcases List.mem_pair.1 ho with rfl | rfl <;> trivial
    exact .bides hload
  | take =>
    rw [Player.call, takeRequest]
    cases p.loadRequest <;> exact .bides (h.of_eq rfl rfl rfl rfl rfl rfl)
  | complete k lines =>
    simp only [Player.call]
    split
    · exact .bides (h.completeLoad ..)
    · exact .bides h
  | set c v => exact .bides (h.write c v)
  | notify c => exact .bides (h.notify c)
  | effect name => exact .bides (h.playEffect name)
  | setVariable token v =>
    simp only [Player.call]
    split
    · exact .bides (h.write ..)
    · exact .bides h
  | getVariable token =>
    simp only [Player.call]
    split <;> exact .bides h
  | observe c accepts once trigger times body =>
    refine .bides (Dwells.observe ?_ ..)
    exact h.of_eq rfl rfl rfl rfl rfl rfl
  | unobserve c k =>
    simp only [Player.call]
    split
    · exact .bides (h.store ..)
    · exact .bides h
  | speed s => exact .bides (h.write ..)
  | register opcode b body =>
    simp only [Player.call]
    split
    · exact .bides (h.of_eq rfl rfl rfl rfl rfl rfl)
    · refine .bides (Dwells.single (o := .halt) ?_ fun _ => trivial)
      exact h.of_eq rfl rfl rfl rfl rfl rfl
  | finish k =>
    simp only [Player.call]
    split
    · next t ht => exact .ends (.finish h fun _ hp => hp.ticket (Array.mem_of_getElem? ht))
    · exact .bides h

theorem reactTo (h : Dwells C p (q, [])) (ha : q.active = p.active) (r : Reaction) (c : CellName)
    (v : c.Value) : Responds C p (q.reactTo r c v) := by
  unfold Player.reactTo
  split
  · exact loadScene h ha _
  · exact runLine h ha _
  · exact .bides (h.of_inside (inside_openPage q))
  · exact .bides (h.of_eq rfl rfl rfl rfl rfl rfl)
  · exact .bides (h.react ..)
  · exact .bides h

theorem hear (p : Player) (c : CellName) (k : Nat) (v : c.Value) :
    Responds C p (Player.perform (.hear c k v) p) := by
  have h : Dwells C p (p, []) := .refl p
  unfold Player.perform
  dsimp only
  split
  · exact reactTo (h.store ..) rfl ..
  · exact .bides h

end Responds

/-! ### Tasks -/

/-- A cell is delivered. -/
theorem Dwells.deliver (p : Player) (c : CellName) :
    Dwells C p (Player.perform (.deliver c) p) := by
  have h : Dwells C p (p.store c ((p.stage.cell c).beginDelivery.1, false), []) := (refl p).store ..
  refine h.append fun _ _ _ o ho => ?_
  obtain ⟨id, -, rfl⟩ := List.mem_map.1 ho
  trivial

/-- A timer rings. -/
theorem Dwells.ring (p : Player) (k : Nat) :
    Dwells (fun R => R.timer k) p (Player.perform (.ring k) p) := by
  have h : Dwells (fun R => R.timer k) p ({ p with schedule := (p.schedule.ring .ring k).1 }, []) :=
    (refl p).withSchedule (.ring p.schedule k) fun hR _ => hR
  refine h.append fun hR _ hp o ho => ?_
  obtain ⟨t, ht, rfl⟩ := List.mem_map.1 ho
  exact (hp.schedule.admits_ring hR (Option.mem_toList.1 ht)).order

/-- **Tasks and their realms.** A task that refers to nothing outside a realm leaves all alone that
is outside, and refers to nothing there. Input is for the active handler, an interruption may cut it
off, and a text may come to the end of its stretch. -/
theorem perform_responds {t : Task} {p : Player} (ht : ∀ a, t ≠ .call a .next) :
    Responds (fun R => (Order.perform t).In R ∧ R.Follows p t) p (Player.perform t p) := by
  cases t with
  | deliver c => exact .bides (.deliver p c)
  | hear c id v => exact .hear p c id v
  | ring k => exact .ends ((Ends.rests (.ring p k)).of_imp And.left)
  | finish t => exact .ends (.finish (.refl p) fun hR _ => hR.1)
  | conclude t c => exact .ends ((Ends.conclude p t c).of_imp And.left)
  | reveal r a =>
    refine .ends ((Ends.actReveal p r a).of_imp fun hR => ?_)
    cases a with
    | ticked => exact .inr hR.2
    | release => exact .inl rfl
    | _ => exact .inr fun _ => hR.1.resolve_left id
  | call a c => exact (Responds.call p fun hc => ht a (congrArg _ hc)).concat fun _ => trivial
  | report a x => exact .bides ((Dwells.refl p).of_inside (inside_report p x a))
  | note e => exact .bides ((Dwells.refl p).note e)
  | load => exact .bides (.load (.refl p))

/-- The active handler stays in a realm that takes all new numbers. -/
theorem serves_of_takes {R : Realm} (h : R.Serves p) (ha : q.active = p.active)
    (ht : R.Takes p q) : R.Serves q := by
  intro x hx
  have hp := h x (ha.symm.trans hx)
  cases x with
  | timer k =>
    by_cases hk : k < p.schedule.timers.size
    · exact fun _ => hp hk
    · exact ht.timer (Nat.le_of_not_lt hk)
  | reveal r =>
    by_cases hr : r < p.reveals.size
    · exact fun _ => hp hr
    · exact ht.reveal (Nat.le_of_not_lt hr)
  | _ => trivial

/-- The active handler is no exception if it belongs to the realm. -/
theorem Responds.ends_of_serves (h : Responds C p x) : Ends (fun R => C R ∧ R.Serves p) p x := by
  cases h with
  | ends h => exact h.of_imp And.left
  | @breaks q hq ha h =>
    have hfirst : Dwells (fun R => C R ∧ R.Serves p) p (q, []) :=
      (Dwells.refl p).trans hq fun hR _ _ _ => hR.1
    have hi : Dwells (fun R => C R ∧ R.Serves q) q (q.interrupt, []) :=
      (Dwells.refl q).trans (Dwells.interrupt q) fun hR _ _ _ => hR.2
    have hrest : Ends (fun R => C R ∧ R.Serves q) q x := .prepend hi h fun hR _ _ _ => hR.1
    exact .prepend hfirst hrest fun hR htake _ _ => ⟨hR.1, serves_of_takes hR.2 ha htake⟩

/-- A task does nothing outside a realm that has the active handler and the text whose stretch may
end. -/
theorem perform_ends (t : Task) (p : Player) :
    Ends (fun R => ((Order.perform t).In R ∧ R.Follows p t) ∧ R.Serves p) p
      (Player.perform t p) := by
  by_cases ht : ∃ a, t = .call a .next
  · obtain ⟨a, rfl⟩ := ht
    have hn : Ends (fun R =>
        ((Order.perform (.call a .next)).In R ∧ R.Follows p (.call a .next)) ∧ R.Serves p)
        p p.next := (Ends.next p).of_imp And.right
    exact hn.concat fun _ => trivial
  · exact (perform_responds fun a ha => ht ⟨a, ha⟩).ends_of_serves

end Player

end Novella
