import Novella.Loop.Timer

/-!
# What a schedule holds

The tasks of a schedule lie in three places: its microtasks, its timeouts and the callbacks of its
timers. Skipping a timer makes a timeout of its callback, and ringing it hands the callback out, so
what is true of every task in these places is true of every task that ever leaves the schedule.

## Main definitions

* `Schedule.Only` — a property of all tasks that a schedule holds

## Main results

* `Schedule.Only.arm`, `Schedule.Only.skip`, `Schedule.Only.ring` — schedules keep it
* `Schedule.Only.of_popMicrotask?`, `Schedule.Only.of_popDue?` — and so do the tasks that leave
-/

namespace Novella.Schedule

variable {τ : Type} {Q : τ → Prop} {s : Schedule τ} {f : Nat → τ}

/-- Every task that the schedule holds has the property. -/
structure Only (Q : τ → Prop) (s : Schedule τ) : Prop where
  /-- The microtasks have it. -/
  microtasks : ∀ t ∈ s.loop.microtasks, Q t
  /-- The timeouts have it. -/
  timeouts : ∀ t ∈ s.loop.timeouts, Q t.task
  /-- The callbacks of the timers have it. -/
  timers : ∀ t ∈ s.timers, Q t.callback

namespace Only

theorem getElem? (h : s.Only Q) {k : Nat} {t : Timer τ} (ht : s.timers[k]? = some t) :
    Q t.callback :=
  h.timers t (Array.mem_of_getElem? ht)

theorem addTimer (h : s.Only Q) {t : Timer τ} (ht : Q t.callback) : (s.addTimer t).Only Q := by
  refine ⟨h.microtasks, h.timeouts, fun x hx => ?_⟩
  rcases Array.mem_push.1 hx with hx | rfl
  · exact h.timers x hx
  · exact ht

theorem setTimer (h : s.Only Q) (k : Nat) {t : Timer τ} (ht : Q t.callback) :
    (s.setTimer k t).Only Q := by
  refine ⟨h.microtasks, h.timeouts, fun x hx => ?_⟩
  rcases Array.mem_or_eq_of_mem_setIfInBounds hx with hx | rfl
  · exact h.timers x hx
  · exact ht

theorem setTimeout (h : s.Only Q) (d : Nat) {t : τ} (ht : Q t) :
    { s with loop := s.loop.setTimeout d t }.Only Q := by
  refine ⟨h.microtasks, fun x hx => ?_, h.timers⟩
  rcases Loop.mem_insertTimeout.1 hx with rfl | hx
  · exact ht
  · exact h.timeouts x hx

theorem arm (h : s.Only Q) (hf : ∀ k, Q (f k)) (k : Nat) {t : Timer τ} (ht : Q t.callback) :
    (s.arm f k t).Only Q :=
  (h.setTimer k (t := { t with
    state := .running, handle := some s.loop.nextId, scheduledAt := s.loop.now }) ht).setTimeout _
    (hf k)

theorem start (h : s.Only Q) (hf : ∀ k, Q (f k)) (k : Nat) : (s.start f k).Only Q := by
  rw [Schedule.start]
  split
  · next t ht =>
    split
    · exact h
    · exact h.arm hf k (h.getElem? ht)
  · exact h

theorem disarm (h : s.Only Q) (k : Nat) {t : Timer τ} (ht : Q t.callback) (x : TimerState) :
    (s.disarm k t x).Only Q := by
  have hs := h.setTimer k (t := { t with state := x, handle := none }) ht
  rw [Schedule.disarm]
  cases t.handle with
  | none => exact hs
  | some id => exact ⟨h.microtasks, fun u hu => h.timeouts u (List.mem_filter.1 hu).1, hs.timers⟩

theorem cancel (h : s.Only Q) (k : Nat) : (s.cancel k).Only Q := by
  rw [Schedule.cancel]
  split
  · next t ht => exact h.disarm k (h.getElem? ht) _
  · exact h

theorem skip (h : s.Only Q) (k : Nat) : (s.skip k).1.Only Q := by
  rw [Schedule.skip]
  split
  · next t ht =>
    have hd := (h.disarm k (h.getElem? ht) .finished).setTimeout 0 (h.getElem? ht)
    split
    · exact hd
    · exact hd
    · exact h
  · exact h

/-- A schedule keeps the property when a timer rings, and the task that comes of it has it. -/
theorem ring (h : s.Only Q) (hf : ∀ k, Q (f k)) (k : Nat) :
    (s.ring f k).1.Only Q ∧ ∀ t ∈ (s.ring f k).2, Q t := by
  rw [Schedule.ring]
  split
  · next t ht =>
    have hq := h.getElem? ht
    split
    · refine ⟨?_, fun x hx => Option.some.inj hx ▸ hq⟩
      dsimp only
      split
      · exact h.arm hf k hq
      · exact h.setTimer k hq
    · exact ⟨h, fun x hx => by cases hx⟩
  · exact ⟨h, fun x hx => by cases hx⟩

theorem of_popMicrotask? (h : s.Only Q) {t : τ} {l : Loop τ}
    (ht : s.loop.popMicrotask? = some (t, l)) : Q t ∧ { s with loop := l }.Only Q := by
  obtain ⟨ts, hl, rfl⟩ := Loop.eq_of_popMicrotask? ht
  have hm := List.forall_mem_cons.1 (hl ▸ h.microtasks)
  exact ⟨hm.1, hm.2, h.timeouts, h.timers⟩

theorem of_popDue? (h : s.Only Q) {target : Nat} {t : τ} {l : Loop τ}
    (ht : s.loop.popDue? target = some (t, l)) : Q t ∧ { s with loop := l }.Only Q := by
  obtain ⟨u, us, hl, -, rfl, rfl⟩ := Loop.eq_of_popDue? ht
  have hm := List.forall_mem_cons.1 (hl ▸ h.timeouts)
  exact ⟨hm.1, h.microtasks, hm.2, h.timers⟩

end Only

end Novella.Schedule
