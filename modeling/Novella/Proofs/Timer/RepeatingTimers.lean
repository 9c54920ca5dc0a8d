import Novella.Proofs.Timer.Lifecycle

/-!
# Timers that repeat

A timer that repeats is armed again when it rings, from the time at which it rings. A loop starts a
timeout at its deadline, however far time is moved at one go, so that the timer rings at the end of
each interval and does not drift. What else is done meanwhile makes no difference, as long as the
timer is not stopped.

## Main definitions

* `Schedule.ringTimes` — when a timer rang
* `Schedule.beats` — the ends of intervals

## Main results

* `Schedule.Chronicle.ringTimes_eq_beats` — a timer that repeats rings at the ends of its intervals
* `Schedule.Chronicle.length_ringTimes` — it has rung as often as the interval goes into the time
-/

namespace Novella.Schedule

variable {τ : Type} {b : Bell τ} {log after before : List (Entry τ)} {s : Schedule τ}
  {due : Option Nat} {d : Deed τ} {e : Entry τ} {k : Nat} {t : Timer τ} {o : Option (Timer τ)}

/-- When timer `k` rang, the first time first. -/
def ringTimes (k : Nat) (log : List (Entry τ)) : List Nat :=
  ((log.filter (Entry.rings k)).map fun e => e.found.loop.now).reverse

theorem ringTimes_cons (k : Nat) (e : Entry τ) (log : List (Entry τ)) :
    ringTimes k (e :: log) =
      ringTimes k log ++ if e.rings k then [e.found.loop.now] else [] := by
  rw [ringTimes, List.filter_cons]
  split <;> simp [ringTimes]

/-- The ends of the first `n` intervals of this length. -/
def beats (start interval n : Nat) : List Nat :=
  (List.range n).map fun i => start + (i + 1) * interval

theorem beats_succ (start interval n : Nat) :
    beats start interval (n + 1) = beats start interval n ++ [start + (n + 1) * interval] := by
  rw [beats, List.range_succ, List.map_append]
  rfl

@[simp] theorem length_beats (start interval n : Nat) : (beats start interval n).length = n := by
  simp [beats]

/-- What may happen to a timer that runs and repeats, and is not stopped: nothing, or it rings. -/
theorem Passage.of_repeats (h : Passage k e (some t) o) (hp : t.isPending = true)
    (hr : t.repeats = true) (hstops : e.stops k = false) :
    e.rings k = false ∧ o = some t ∨ e.rings k = true ∧ o = some (t.armed e.found.loop) := by
  cases h with
  | stays _ hrings => exact .inl ⟨hrings, rfl⟩
  | started _ hn => cases hp.symm.trans hn
  | paused hd => simp [Entry.stops, hd] at hstops
  | cancelled hd => simp [Entry.stops, hd] at hstops
  | skipped hk => cases (Entry.stops_of_skips hk).symm.trans hstops
  | finished _ _ hn => cases hr.symm.trans hn
  | beaten hrings => exact .inr ⟨hrings, rfl⟩

/-- A timer that runs did so before, or it has just been armed. -/
theorem Passage.stays_or_armed (h : Passage k e o (some t)) (hp : t.isPending = true) :
    o = some t ∨ t.scheduledAt = e.found.loop.now := by
  cases h with
  | stays => exact .inl rfl
  | started | beaten => exact .inr rfl
  | cancelled => cases (Timer.isPending_cancelled _).symm.trans hp
  | made | paused | skipped | finished => cases hp

namespace Chronicle

/-- **A timer that repeats rings at the ends of its intervals**, once it has been started and if it
is not stopped. It was armed when it rang last. -/
theorem ringTimes_eq_beats (h : Chronicle b (after ++ e :: before) s due) (he : e.starts k = true)
    (ht : s.timers[k]? = some t) (hr : t.repeats = true) (hstops : ∀ a ∈ after, a.stops k = false) :
    t.isPending = true ∧ ∃ n, ringTimes k after = beats e.found.loop.now t.duration n ∧
      t.scheduledAt = e.found.loop.now + n * t.duration := by
  induction after generalizing s due t with
  | nil =>
    cases h with
    | next h hd =>
      obtain ⟨u, hu, hp, hat⟩ := h.armed_of_starts hd he
      obtain rfl := Option.some.inj (hu.symm.trans ht)
      exact ⟨hp, 0, rfl, by rw [hat, Nat.zero_mul, Nat.add_zero]⟩
  | cons a after ih =>
    obtain ⟨hstop, hmore⟩ := List.forall_mem_cons.1 hstops
    cases h with
    | @next _ s due d h hd =>
      obtain ⟨u, hu, hmake, hpass⟩ := h.passage_of_starts hd he ht
      have hru : u.repeats = true := hmake.repeats.symm.trans hr
      obtain ⟨hp, n, htimes, hat⟩ := ih h hu hru hmore
      rw [ringTimes_cons, htimes]
      rcases hpass.of_repeats hp hru hstop with ⟨hrings, hu'⟩ | ⟨hrings, hu'⟩
      · obtain rfl := Option.some.inj hu'
        exact ⟨hp, n, by simp [hrings], hat⟩
      · obtain rfl := Option.some.inj hu'
        have hbeat : s.loop.now = e.found.loop.now + (n + 1) * u.duration := by
          rw [h.now_of_rings hd hrings hu, hat, Nat.add_mul, Nat.one_mul, Nat.add_assoc]
        refine ⟨rfl, n + 1, ?_, hbeat⟩
        rw [if_pos hrings, hbeat, beats_succ]
        rfl

/-- A timer that runs for some time is not overdue when no time is being moved. -/
theorem lt_of_not_underWay (h : Chronicle b log s due) (hu : underWay log = false)
    (ht : s.timers[k]? = some t) (hp : t.isPending = true) (hd : 0 < t.duration) :
    s.loop.now < t.scheduledAt + t.duration := by
  induction h generalizing t with
  | start => simp at ht
  | @next log s due d h hd' ih =>
    have hpass := h.passage hd' k
    rw [ht] at hpass
    have hlt (hl : underWay log = false) : s.loop.now < t.scheduledAt + t.duration := by
      rcases hpass.stays_or_armed hp with ho | hat
      · exact ih hl ho hp hd
      · rw [hat]
        exact Nat.lt_add_of_pos_right hd
    cases d with
    | call c => exact (now_make s c).symm ▸ hlt hu
    | ring j => exact (now_ring s j).symm ▸ hlt hu
    | take => exact hlt hu
    | advance d => cases hu
    | leave x =>
      -- only what is due by now is started
      have hnow : x.deadline ≤ s.loop.now := h.now_eq_elapsed hu ▸ (Loop.due?_eq_some hd'.2).2
      exact Nat.lt_of_le_of_lt hnow (hlt hu)
    | arrive target => exact h.lt_of_arrive hd' ht hp

/-- When no time is being moved, a timer that repeats has rung as often as its interval goes into
the time that has passed since it was started. -/
theorem length_ringTimes (h : Chronicle b (after ++ e :: before) s due) (he : e.starts k = true)
    (ht : s.timers[k]? = some t) (hr : t.repeats = true) (hstops : ∀ a ∈ after, a.stops k = false)
    (hu : underWay (after ++ e :: before) = false) (hd : 0 < t.duration) :
    (ringTimes k after).length = (s.loop.now - e.found.loop.now) / t.duration := by
  obtain ⟨hp, n, htimes, hat⟩ := h.ringTimes_eq_beats he ht hr hstops
  have hle := h.tuned.armed ht
  have hlt := h.lt_of_not_underWay hu ht hp hd
  rw [htimes, length_beats]
  refine (Nat.div_eq_of_lt_le ?_ ?_).symm
  · omega
  · rw [Nat.succ_mul]
    omega

end Chronicle

end Novella.Schedule
