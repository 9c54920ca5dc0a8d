import Novella.Proofs.Timer.TimerLog

/-!
# The life of a timer

A timer that is started runs until it rings, or until it is paused, cancelled or skipped, whatever
comes first; it rings at the time that it was started plus its duration, and not before or after.
Each start leads to one ring at most: skipping a timer only puts the callback off to a timeout of
its own, which takes the place of the ring. A timer that is paused says how much time was left, and
a new one that gets this time goes on where the old one stopped, so that in the end as much time has
passed while one of them ran as if there had been no pause.

All of this is read off the log of a chronicle.

## Main definitions

* `Schedule.Untouched` — nothing happens to a timer
* `Schedule.invocations` — how often the callback of a timer has been invoked
* `Schedule.Punctual` — a timer rings in time if nobody stops it
* `Schedule.Handover` — a timer that goes on for one that was paused

## Main results

* `Schedule.Chronicle.exists_start` — a timer that runs has been started, and not touched since
* `Schedule.Chronicle.punctual` — a timer is punctual
* `Schedule.Chronicle.invocations_le` — callbacks are invoked at most once for each start
* `Schedule.Chronicle.handover` — time that has been run is not lost
-/

namespace Novella

namespace Timer

variable {τ : Type} {t t' t'' : Timer τ}

/-- The timers are of the same make: they only differ in where they are in their lives. -/
structure SameMake (t t' : Timer τ) : Prop where
  /-- They have the same duration. -/
  duration : t'.duration = t.duration
  /-- Both repeat, or none does. -/
  repeats : t'.repeats = t.repeats
  /-- They have the same callback. -/
  callback : t'.callback = t.callback

theorem SameMake.refl (t : Timer τ) : t.SameMake t := ⟨rfl, rfl, rfl⟩

theorem SameMake.trans (h : t.SameMake t') (h' : t'.SameMake t'') : t.SameMake t'' :=
  ⟨h'.duration.trans h.duration, h'.repeats.trans h.repeats, h'.callback.trans h.callback⟩

/-- The timer runs or is paused. -/
def isActive (t : Timer τ) : Bool :=
  match t.state with
  | .running | .paused _ => true
  | _ => false

theorem isActive_of_isPending (h : t.isPending = true) : t.isActive = true := by
  rw [isActive, of_decide_eq_true h]

end Timer

namespace Schedule

variable {τ : Type} {b : Bell τ} {log after before : List (Entry τ)} {s : Schedule τ}
  {due : Option Nat} {d : Deed τ} {e : Entry τ} {k : Nat} {t t' : Timer τ} {o : Option (Timer τ)}

/-- A timer stays, and keeps its make. -/
theorem Passage.sameMake (h : Passage k e (some t) o) : ∃ t', o = some t' ∧ t.SameMake t' := by
  cases h with
  | stays => exact ⟨t, rfl, .refl t⟩
  | started => exact ⟨_, rfl, rfl, rfl, rfl⟩
  | paused => exact ⟨_, rfl, rfl, rfl, rfl⟩
  | cancelled => exact ⟨_, rfl, rfl, rfl, rfl⟩
  | skipped => exact ⟨_, rfl, rfl, rfl, rfl⟩
  | finished => exact ⟨_, rfl, rfl, rfl, rfl⟩
  | beaten => exact ⟨_, rfl, rfl, rfl, rfl⟩

namespace Chronicle

/-- A log is a chronicle up to each of its entries. -/
theorem of_append (h : Chronicle b (after ++ e :: before) s due) :
    ∃ due', Chronicle b before e.found due' ∧ May b before e.found due' e.deed := by
  induction after generalizing s due with
  | nil =>
    cases h with
    | next h hd => exact ⟨_, h, hd⟩
  | cons a after ih =>
    cases h with
    | next h _ => exact ih h

/-- A timer that is there after an entry stays, and keeps its make. -/
theorem sameMake_after (h : Chronicle b (after ++ e :: before) s due)
    (ht : (e.found.follow b e.deed).timers[k]? = some t) :
    ∃ t', s.timers[k]? = some t' ∧ t.SameMake t' := by
  induction after generalizing s due with
  | nil =>
    cases h with
    | next => exact ⟨t, ht, .refl t⟩
  | cons a after ih =>
    cases h with
    | next h hd =>
      obtain ⟨u, hu, htu⟩ := ih h
      have hp := h.passage hd k
      rw [hu] at hp
      obtain ⟨v, hv, huv⟩ := hp.sameMake
      exact ⟨v, hv, htu.trans huv⟩

/-- A timer stays, and keeps its make. -/
theorem sameMake (h : Chronicle b (after ++ e :: before) s due)
    (ht : e.found.timers[k]? = some t) : ∃ t', s.timers[k]? = some t' ∧ t.SameMake t' := by
  obtain ⟨_, hbefore, hd⟩ := h.of_append
  have hp := hbefore.passage hd k
  rw [ht] at hp
  obtain ⟨u, hu, htu⟩ := hp.sameMake
  obtain ⟨v, hv, huv⟩ := h.sameMake_after hu
  exact ⟨v, hv, htu.trans huv⟩

end Chronicle

/-! ### Starting -/

/-- Nothing happens to timer `k`: it is neither started, if it does not run, nor stopped, nor does
it ring. -/
def Untouched (k : Nat) (log : List (Entry τ)) : Prop :=
  ∀ e ∈ log, e.starts k = false ∧ e.rings k = false ∧ e.stops k = false

theorem Untouched.cons (h : Untouched k log) (hs : e.starts k = false) (hr : e.rings k = false)
    (hp : e.stops k = false) : Untouched k (e :: log) :=
  List.forall_mem_cons.2 ⟨⟨hs, hr, hp⟩, h⟩

/-- A timer that is started is armed. -/
theorem Passage.eq_armed (h : Passage k e (some t) o) (he : e.starts k = true) :
    o = some (t.armed e.found.loop) := by
  obtain ⟨hd, -⟩ := Entry.starts_eq_true.1 he
  cases h with
  | stays hs =>
    rw [he] at hs
    cases hs
  | started => rfl
  | paused hp => cases hd.symm.trans hp
  | cancelled hc => cases hd.symm.trans hc
  | skipped hk => cases hd.symm.trans (Entry.skips_eq_true.1 hk).1
  | finished hr => cases hd.symm.trans (Entry.rings_eq_true.1 hr)
  | beaten hr => cases hd.symm.trans (Entry.rings_eq_true.1 hr)

/-- What may happen to a timer that runs: nothing, or it is stopped, or it rings. -/
theorem Passage.of_isPending (h : Passage k e (some t) o) (hp : t.isPending = true) :
    o = some t ∧ e.starts k = false ∧ e.rings k = false ∧ e.stops k = false ∨
      e.stops k = true ∨ e.rings k = true := by
  cases h with
  | stays hs hr _ hk => exact .inl ⟨rfl, hs, hr, hk t rfl hp⟩
  | started _ hn =>
    rw [hp] at hn
    cases hn
  | paused hd => exact .inr (.inl (by simp [Entry.stops, hd]))
  | cancelled hd => exact .inr (.inl (by simp [Entry.stops, hd]))
  | skipped hk => exact .inr (.inl (Entry.stops_of_skips hk))
  | finished hr => exact .inr (.inr hr)
  | beaten hr => exact .inr (.inr hr)

namespace Chronicle

/-- The schedule right after a timer has been started. -/
theorem armed_of_starts (h : Chronicle b log s due) (hd : May b log s due d)
    (he : Entry.starts k ⟨s, d⟩ = true) : ∃ t,
      (s.follow b d).timers[k]? = some t ∧ t.isPending = true ∧ t.scheduledAt = s.loop.now := by
  obtain ⟨-, t, ht, -⟩ := Entry.starts_eq_true.1 he
  have hp := h.passage hd k
  rw [ht] at hp
  exact ⟨_, hp.eq_armed he, rfl, rfl⟩

/-- What the last deed has made of a timer that had been started before. -/
theorem passage_of_starts (h : Chronicle b (after ++ e :: before) s due)
    (hd : May b (after ++ e :: before) s due d) (he : e.starts k = true)
    (ht : (s.follow b d).timers[k]? = some t) :
    ∃ u, s.timers[k]? = some u ∧ u.SameMake t ∧ Passage k ⟨s, d⟩ (some u) (some t) := by
  obtain ⟨-, t₀, ht₀, -⟩ := Entry.starts_eq_true.1 he
  obtain ⟨u, hu, -⟩ := h.sameMake ht₀
  have hp := h.passage hd k
  rw [hu, ht] at hp
  obtain ⟨v, hv, hmake⟩ := hp.sameMake
  obtain rfl := Option.some.inj hv
  exact ⟨u, hu, hmake, hp⟩

/-- A timer rings when its duration has passed since it was armed. -/
theorem now_of_rings (h : Chronicle b log s due) (hd : May b log s due d)
    (he : Entry.rings k ⟨s, d⟩ = true) (ht : s.timers[k]? = some t) :
    s.loop.now = t.scheduledAt + t.duration := by
  obtain rfl := Entry.rings_eq_true.1 he
  obtain ⟨u, hu, -, hnow⟩ := h.tuned.due hd
  obtain rfl := Option.some.inj (ht.symm.trans hu)
  exact hnow

/-- **A timer that runs has been started, and not touched since**, unless it rings again and
again. -/
theorem exists_start (h : Chronicle b log s due) (ht : s.timers[k]? = some t)
    (hr : t.repeats = false) (hp : t.isPending = true) : ∃ after e before,
      log = after ++ e :: before ∧ e.starts k = true ∧ Untouched k after ∧
        t.scheduledAt = e.found.loop.now := by
  induction h generalizing t with
  | start => simp at ht
  | @next log s due d h hd ih =>
    have hpass := h.passage hd k
    rw [ht] at hpass
    generalize ho : s.timers[k]? = o at hpass
    cases hpass with
    | stays hs hrings _ hstops =>
      obtain ⟨after, e, before, rfl, he, hu, hat⟩ := ih ho hr hp
      exact ⟨⟨s, d⟩ :: after, e, before, rfl, he, hu.cons hs hrings (hstops t rfl hp), hat⟩
    | made => cases hp
    | started hs => exact ⟨[], ⟨s, d⟩, log, rfl, hs, nofun, rfl⟩
    | paused => cases hp
    | cancelled => cases (Timer.isPending_cancelled _).symm.trans hp
    | skipped => cases hp
    | finished => cases hp
    | beaten _ _ hrepeats => cases hrepeats.symm.trans hr

/-- When an advance comes to its end, it is not yet time for a timer that runs to ring. -/
theorem lt_of_arrive (h : Chronicle b log s due) {target : Nat}
    (hd : May b log s due (.arrive target)) (ht : s.timers[k]? = some t) (hp : t.isPending = true) :
    target < t.scheduledAt + t.duration := by
  obtain ⟨rfl, -, hn⟩ := hd
  obtain ⟨id, hr⟩ := h.tuned.exists_rings_eq nofun ht hp
  have hm := Loop.mem_rings.1 (hr ▸ List.mem_singleton_self _)
  exact h.tuned.loop.timely.lt_deadline hn _ hm.1

/-- Until a timer that has been started is stopped or has rung it runs, and no advance has come to
its end at the time that it is to ring, or later. If it rings before it is stopped, it rings at that
time. -/
theorem runs_or_touched (h : Chronicle b (after ++ e :: before) s due) (he : e.starts k = true)
    (ht : s.timers[k]? = some t) :
    (Untouched k after ∧ t.isPending = true ∧ t.scheduledAt = e.found.loop.now ∧
      ∀ a ∈ after, ∀ target, a.deed = .arrive target → target < e.found.loop.now + t.duration) ∨
    ∃ later a mid, after = later ++ a :: mid ∧ Untouched k mid ∧
      (a.stops k = true ∨ a.rings k = true ∧ a.found.loop.now = e.found.loop.now + t.duration) := by
  induction after generalizing s due t with
  | nil =>
    cases h with
    | next h hd =>
      obtain ⟨u, hu, hp, hat⟩ := h.armed_of_starts hd he
      obtain rfl := Option.some.inj (hu.symm.trans ht)
      exact .inl ⟨nofun, hp, hat, nofun⟩
  | cons a after ih =>
    cases h with
    | @next _ s due d h hd =>
      obtain ⟨u, hu, hmake, hpass⟩ := h.passage_of_starts hd he ht
      rcases ih h hu with ⟨huntouched, hp, hat, harrive⟩ | ⟨later, a, mid, rfl, hmid, ha⟩
      · rcases hpass.of_isPending hp with ⟨heq, hs, hr, hk⟩ | hstop | hring
        · obtain rfl := Option.some.inj heq
          refine .inl ⟨huntouched.cons hs hr hk, hp, hat, List.forall_mem_cons.2 ⟨?_, harrive⟩⟩
          rintro target rfl
          exact hat ▸ h.lt_of_arrive hd hu hp
        · exact .inr ⟨[], _, after, rfl, huntouched, .inl hstop⟩
        · refine .inr ⟨[], _, after, rfl, huntouched, .inr ⟨hring, ?_⟩⟩
          rw [hmake.duration, ← hat]
          exact h.now_of_rings hd hring hu
      · refine .inr ⟨_ :: later, a, mid, rfl, hmid, ?_⟩
        rwa [hmake.duration]

end Chronicle

/-- Whenever timer `k` is started, it rings as soon as it has run for `total` milliseconds, of which
`spent` were spent before, if it is not stopped until then. It does not ring earlier; and if an
advance has come to its end before it rings, it is not yet time. -/
def Punctual (k : Nat) (log : List (Entry τ)) (spent total : Nat) : Prop :=
  ∀ after e before, log = after ++ e :: before → e.starts k = true →
    (Untouched k after ∧
      ∀ a ∈ after, ∀ target, a.deed = .arrive target → target + spent < e.found.loop.now + total) ∨
    ∃ later a mid, after = later ++ a :: mid ∧ Untouched k mid ∧
      (a.stops k = true ∨ a.rings k = true ∧ a.found.loop.now + spent = e.found.loop.now + total)

/-- **A timer is punctual.** -/
theorem Chronicle.punctual (h : Chronicle b log s due) (ht : s.timers[k]? = some t)
    {spent total : Nat} (htotal : spent + t.duration = total) : Punctual k log spent total := by
  rintro after e before rfl he
  rcases h.runs_or_touched he ht with ⟨hu, -, -, ha⟩ | ⟨later, a, mid, rfl, hu, ha⟩
  · refine .inl ⟨hu, fun a hm target hd => ?_⟩
    have hlt := ha a hm target hd
    omega
  · refine .inr ⟨later, a, mid, rfl, hu, ha.imp_right fun ⟨hr, hnow⟩ => ⟨hr, ?_⟩⟩
    omega

/-! ### Invocations -/

/-- The numbers of the timeouts that were left when timer `k` was skipped. -/
def skipped (k : Nat) (log : List (Entry τ)) : List Nat :=
  (log.filter (Entry.skips k)).map fun e => e.found.loop.nextId

/-- A timeout is started that was left when timer `k` was skipped. -/
def Entry.makesUp (k : Nat) (before : List (Entry τ)) (e : Entry τ) : Bool :=
  match e.deed with
  | .leave x => x.id ∈ skipped k before
  | _ => false

/-- The callback of timer `k` is invoked. -/
def Entry.invokes (k : Nat) (before : List (Entry τ)) (e : Entry τ) : Bool :=
  e.rings k || e.makesUp k before

/-- Where there is no skip to make up for, a callback is invoked by a ring alone. -/
theorem Entry.invokes_eq_rings (h : ∀ a ∈ before, a.skips k = false) :
    e.invokes k before = e.rings k := by
  have hnone : skipped k before = [] := by
    rw [skipped, List.filter_eq_nil_iff.2 fun a ha => by simp [h a ha]]
    rfl
  rw [invokes, makesUp, hnone]
  split <;> simp

/-- How often the callback of timer `k` has been invoked. -/
def invocations (k : Nat) : List (Entry τ) → Nat
  | [] => 0
  | e :: log => (e.invokes k log).toNat + invocations k log

theorem skipped_cons (k : Nat) (e : Entry τ) (log : List (Entry τ)) :
    skipped k (e :: log) = if e.skips k then e.found.loop.nextId :: skipped k log
      else skipped k log := by
  rw [skipped, List.filter_cons]
  split <;> rfl

/-- A deed that ends the wait of a timer that rings once, so that its callback is or will be
invoked, uses up a start. -/
theorem Passage.active_le {o o' : Option (Timer τ)} (h : Passage k e o o')
    (hr : ∀ t, o = some t → t.repeats = false) :
    (o'.any Timer.isActive).toNat + (e.rings k).toNat + (e.skips k).toNat ≤
      (o.any Timer.isActive).toNat + (e.starts k).toNat := by
  have stopped (t : Timer τ) : (t.stopped .finished).isActive = false := rfl
  have paused (t : Timer τ) (left : Nat) : (t.stopped (.paused left)).isActive = true := rfl
  cases h with
  | stays hs hrings hk => simp [hs, hrings, hk]
  | made hd => simp [Entry.rings, Entry.skips, Timer.isActive, hd]
  | started hs =>
    have hd := (Entry.starts_eq_true.1 hs).1
    simp [Entry.rings, Entry.skips, Timer.isActive, Timer.armed, hd, hs]
  | @paused t hd hp =>
    have ht : t.isActive = true := Timer.isActive_of_isPending hp
    simp [Entry.rings, Entry.skips, hd, ht, paused]
  | @cancelled t hd =>
    have ht : (t.stopped (if t.state = .finished then .finished else .cancelled)).isActive =
        false := by
      by_cases hf : t.state = .finished
      · rw [if_pos hf]
        rfl
      · rw [if_neg hf]
        rfl
    simp [Entry.rings, Entry.skips, hd, ht]
  | @skipped t hk hp =>
    have ht : t.isActive = true := by
      rcases hp with hp | ⟨left, hp⟩
      · exact Timer.isActive_of_isPending hp
      · rw [Timer.isActive, hp]
    have hd := (Entry.skips_eq_true.1 hk).1
    simp [Entry.rings, hk, hd, ht, stopped]
  | @finished t hring hp =>
    have ht : t.isActive = true := Timer.isActive_of_isPending hp
    have hd := Entry.rings_eq_true.1 hring
    simp [Entry.skips, hring, hd, ht, stopped]
  | beaten _ _ hrepeats => cases hrepeats.symm.trans (hr _ rfl)

/-- Something is counted no more. -/
theorem countP_add_le {p q : Nat → Bool} {ids : List Nat} {id : Nat}
    (h : ∀ j ∈ ids, p j = true → q j = true) (hp : p id = false) (hq : q id = true) :
    ids.countP p + (decide (id ∈ ids)).toNat ≤ ids.countP q := by
  induction ids with
  | nil => simp
  | cons j ids ih =>
    obtain ⟨hj, hids⟩ := List.forall_mem_cons.1 h
    have hih := ih hids
    by_cases hid : id = j
    · subst hid
      have hle : ids.countP p ≤ ids.countP q := List.countP_mono_left hids
      simpa [hp, hq] using hle
    · rw [List.countP_cons, List.countP_cons]
      have hmem : decide (id ∈ j :: ids) = decide (id ∈ ids) := by simp [hid]
      rw [hmem]
      cases hpj : p j with
      | false => simp; omega
      | true => simp [hj hpj]; omega

namespace Chronicle

theorem lt_nextId_of_mem_skipped (h : Chronicle b log s due) {id : Nat} (hid : id ∈ skipped k log) :
    id < s.loop.nextId := by
  induction h with
  | start => cases hid
  | @next log s due d h hd ih =>
    have hle := (precedes_follow (b := b) s d).nextId_le
    rw [skipped_cons] at hid
    split at hid
    · next hk =>
      rcases List.mem_cons.1 hid with rfl | hid
      · obtain ⟨rfl, hskip⟩ := Entry.skips_eq_true.1 hk
        exact nextId_lt_of_skip hskip
      · exact Nat.lt_of_lt_of_le (ih hid) hle
    · exact Nat.lt_of_lt_of_le (ih hid) hle

/-- Timeouts that were left by skips wait until they are started. -/
theorem waiting_le (h : Chronicle b log s due) (hd : May b log s due d) (k : Nat) :
    (skipped k (⟨s, d⟩ :: log)).countP (s.follow b d).loop.isWaiting +
        (Entry.makesUp k log ⟨s, d⟩).toNat ≤
      (skipped k log).countP s.loop.isWaiting + (Entry.skips k ⟨s, d⟩).toNat := by
  have hmono : (skipped k log).countP (s.follow b d).loop.isWaiting ≤
      (skipped k log).countP s.loop.isWaiting := by
    refine List.countP_mono_left fun id hid hw => ?_
    obtain ⟨x, hx, rfl⟩ := Loop.isWaiting_iff.1 hw
    exact Loop.isWaiting_iff.2
      ⟨x, (precedes_follow (b := b) s d).mem hx (h.lt_nextId_of_mem_skipped hid), rfl⟩
  have hcons (p : Nat → Bool) : (skipped k (⟨s, d⟩ :: log)).countP p ≤
      (skipped k log).countP p + (Entry.skips k ⟨s, d⟩).toNat := by
    rw [skipped_cons]
    cases Entry.skips k ⟨s, d⟩ with
    | false => exact Nat.le_refl _
    | true =>
      rw [if_pos rfl, List.countP_cons]
      split <;> simp
  cases d with
  | leave x =>
    obtain ⟨rfl, hx⟩ := hd
    have hloop := h.tuned.loop
    have hl := (Loop.due?_eq_some hx).1
    refine countP_add_le (fun id hid hw => ?_) ?_ (Loop.isWaiting_iff.2
      ⟨x, hl ▸ List.mem_cons_self, rfl⟩)
    · obtain ⟨y, hy, rfl⟩ := Loop.isWaiting_iff.1 hw
      exact Loop.isWaiting_iff.2 ⟨y, List.mem_of_mem_tail hy, rfl⟩
    · have hdistinct := hloop.distinct
      rw [hl] at hdistinct
      refine Bool.eq_false_iff.2 fun hw => ?_
      obtain ⟨y, hy, hid⟩ := Loop.isWaiting_iff.1 hw
      exact (List.pairwise_cons.1 hdistinct).1 y hy hid.symm
  | _ => exact Nat.le_trans (hcons _) (Nat.add_le_add_right hmono _)

/-- **Callbacks are invoked at most once for each start.** Each start is used up by one ring or one
skip. -/
theorem invocations_add_le (h : Chronicle b log s due)
    (hr : ∀ t, s.timers[k]? = some t → t.repeats = false) :
    invocations k log + (skipped k log).countP s.loop.isWaiting +
      (s.timers[k]?.any Timer.isActive).toNat ≤ log.countP (Entry.starts k) := by
  induction h with
  | start => simp [invocations, skipped]
  | @next log s due d h hd ih =>
    have hr' (t : Timer τ) (ht : s.timers[k]? = some t) : t.repeats = false := by
      have hp := h.passage hd k
      rw [ht] at hp
      obtain ⟨u, hu, hmake⟩ := hp.sameMake
      exact hmake.repeats.symm.trans (hr u hu)
    have hactive := (h.passage hd k).active_le hr'
    have hwaiting := h.waiting_le hd k
    have hinvokes : (Entry.invokes k log ⟨s, d⟩).toNat ≤
        (Entry.rings k ⟨s, d⟩).toNat + (Entry.makesUp k log ⟨s, d⟩).toNat := by
      rw [Entry.invokes]
      cases Entry.rings k ⟨s, d⟩ <;> cases Entry.makesUp k log ⟨s, d⟩ <;> decide
    have hstarts : (⟨s, d⟩ :: log).countP (Entry.starts k) =
        log.countP (Entry.starts k) + (Entry.starts k ⟨s, d⟩).toNat := by
      rw [List.countP_cons]
      cases Entry.starts k ⟨s, d⟩ <;> rfl
    have hih := ih hr'
    rw [invocations, hstarts]
    omega

/-- Callbacks are invoked at most once for each start. -/
theorem invocations_le (h : Chronicle b log s due)
    (hr : ∀ t, s.timers[k]? = some t → t.repeats = false) :
    invocations k log ≤ log.countP (Entry.starts k) := by
  have hle := h.invocations_add_le hr
  omega

/-! ### Skipping -/

end Chronicle

/-- The timeouts after a timer has been skipped. -/
theorem timeouts_of_skip (ht : s.timers[k]? = some t) (hk : (s.skip k).2 = true) :
    (s.skip k).1.loop.timeouts = Loop.insertTimeout ⟨s.loop.now, s.loop.nextId, t.callback⟩
      (s.disarm k t .finished).loop.timeouts := by
  obtain ⟨u, hu, hskip⟩ := skip_eq_true hk
  obtain rfl := Option.some.inj (ht.symm.trans hu)
  rw [hskip, Loop.setTimeout, now_disarm, nextId_disarm]
  rfl

namespace Chronicle

/-- **A timer that is skipped leaves its callback with the loop**, where it waits until its time has
come, which is at once, or until it is taken back. -/
theorem waits_of_skips (h : Chronicle b (after ++ e :: before) s due) (he : e.skips k = true)
    (ht : e.found.timers[k]? = some t) :
    ⟨e.found.loop.now, e.found.loop.nextId, t.callback⟩ ∈ s.loop.timeouts ∨
      (∃ a ∈ after, a.deed = .leave ⟨e.found.loop.now, e.found.loop.nextId, t.callback⟩) ∨
        ∃ a ∈ after, a.deed = .call (.loop (.clear e.found.loop.nextId)) := by
  induction after generalizing s due with
  | nil =>
    cases h with
    | next h hd =>
      obtain ⟨rfl, hk⟩ := Entry.skips_eq_true.1 he
      refine .inl ?_
      rw [follow, make, timeouts_of_skip ht hk]
      exact Loop.mem_insertTimeout.2 (.inl rfl)
  | cons a after ih =>
    cases h with
    | @next _ s _ d h hd =>
      obtain ⟨_, hbefore, hmay⟩ := h.of_append
      have hfree : b.ring? t.callback = none := hbefore.tuned.callback ht
      rcases ih h with hw | ⟨a, ha, hl⟩ | ⟨a, ha, hc⟩
      · rcases h.mem_follow hd hw hfree with hw | rfl | rfl
        · exact .inl hw
        · exact .inr (.inl ⟨_, List.mem_cons_self, rfl⟩)
        · exact .inr (.inr ⟨_, List.mem_cons_self, rfl⟩)
      · exact .inr (.inl ⟨a, List.mem_cons_of_mem _ ha, hl⟩)
      · exact .inr (.inr ⟨a, List.mem_cons_of_mem _ ha, hc⟩)

/-- A timeout that makes up for a skip is what was left then. -/
theorem eq_of_mem_skipped (h : Chronicle b log s due) {x : Timeout τ} (hx : x ∈ s.loop.timeouts)
    (he : e ∈ log) (hk : e.skips k = true) (hid : x.id = e.found.loop.nextId) :
    ∃ t, e.found.timers[k]? = some t ∧
      x = ⟨e.found.loop.now, e.found.loop.nextId, t.callback⟩ := by
  induction h with
  | start => cases he
  | @next log s due d h hd ih =>
    rcases List.mem_cons.1 he with rfl | he
    · obtain ⟨rfl, hskip⟩ := Entry.skips_eq_true.1 hk
      obtain ⟨t, ht, -⟩ := skip_eq_true hskip
      refine ⟨t, ht, ?_⟩
      rw [follow, make, timeouts_of_skip ht hskip] at hx
      rcases Loop.mem_insertTimeout.1 hx with rfl | hx
      · rfl
      · have hlt := h.tuned.loop.numbered x (timeouts_disarm_subset s k t .finished hx)
        exact absurd hid (Nat.ne_of_lt hlt)
    · have hmem : e.found.loop.nextId ∈ skipped k log :=
        List.mem_map.2 ⟨e, List.mem_filter.2 ⟨he, hk⟩, rfl⟩
      have hlt := h.lt_nextId_of_mem_skipped hmem
      exact ih ((precedes_follow (b := b) s d).mem hx (hid ▸ hlt)) he

end Chronicle

/-! ### Pausing -/

/-- Timer `k` goes on for timers that were paused: the first one was made for `total` milliseconds,
and each of the others, when the one before was paused, for the time that was left. Those before
have run for `spent` milliseconds in all, each since it was started last. -/
inductive Handover (log : List (Entry τ)) (total : Nat) : Nat → Nat → Prop
  /-- The first timer. -/
  | first {e : Entry τ} {c : τ} : e ∈ log → e.deed = .call (.add total false c) →
    Handover log total e.found.timers.size 0
  /-- A timer is started and paused, and then another one is made. -/
  | next {k spent left : Nat} {later mid before : List (Entry τ)} {start pause make : Entry τ}
    {c : τ} : Handover log total k spent → log = later ++ pause :: (mid ++ start :: before) →
    start.starts k = true → (∀ e ∈ mid, e.starts k = false) →
    pause.deed = .call (.pause k) → (pause.found.pause k).2 = some left →
    make ∈ later → make.deed = .call (.add left false c) →
    Handover log total make.found.timers.size
      (spent + (pause.found.loop.now - start.found.loop.now))

/-- There is one last entry of a kind. -/
theorem eq_of_append_cons_eq {p : Entry τ → Bool} {after after' before before' : List (Entry τ)}
    {e e' : Entry τ} (h : after ++ e :: before = after' ++ e' :: before') (he : p e = true)
    (he' : p e' = true) (ha : ∀ a ∈ after, p a = false) (ha' : ∀ a ∈ after', p a = false) :
    e = e' := by
  have hfind {l m : List (Entry τ)} {x : Entry τ} (hl : ∀ a ∈ l, p a = false) (hx : p x = true) :
      (l ++ x :: m).find? p = some x := by
    rw [List.find?_append, List.find?_eq_none.2 (by simpa using hl), List.find?_cons_of_pos hx]
    rfl
  have h' := congrArg (List.find? p) h
  rw [hfind ha he, hfind ha' he'] at h'
  exact Option.some.inj h'

theorem pause_eq_some {left : Nat} (h : (s.pause k).2 = some left) : ∃ t,
    s.timers[k]? = some t ∧ t.isPending = true ∧
      left = t.duration - (s.loop.now - t.scheduledAt) := by
  rw [pause] at h
  split at h
  · next t ht =>
    split at h
    · next hp => exact ⟨t, ht, hp, (Option.some.inj h).symm⟩
    · cases h
  · cases h

namespace Chronicle

/-- The timer that was made. -/
theorem exists_of_add (h : Chronicle b log s due) (he : e ∈ log) {d : Nat} {repeats : Bool} {c : τ}
    (hd : e.deed = .call (.add d repeats c)) : ∃ t, s.timers[e.found.timers.size]? = some t ∧
      t.duration = d ∧ t.repeats = repeats := by
  obtain ⟨after, before, rfl⟩ := List.append_of_mem he
  have ht : (e.found.follow b e.deed).timers[e.found.timers.size]? =
      some { duration := d, repeats, callback := c } := by
    rw [hd, follow, make, addTimer, Array.getElem?_push, if_pos rfl]
  obtain ⟨t, ht, hmake⟩ := h.sameMake_after ht
  exact ⟨t, ht, hmake.duration, hmake.repeats⟩

/-- A timer that runs is not overdue. -/
theorem now_le (h : Chronicle b log s due) (ht : s.timers[k]? = some t) (hp : t.isPending = true) :
    s.loop.now ≤ t.scheduledAt + t.duration := by
  by_cases hk : due = some k
  · obtain ⟨u, hu, -, hnow⟩ := h.tuned.due hk
    obtain rfl := Option.some.inj (ht.symm.trans hu)
    exact Nat.le_of_eq hnow
  · obtain ⟨id, hr⟩ := h.tuned.exists_rings_eq hk ht hp
    have hm := Loop.mem_rings.1 (hr ▸ List.mem_singleton_self _)
    exact h.tuned.loop.timely.ahead _ hm.1

/-- **Time that has been run is not lost.** A timer that goes on for others was made for what is
left of the time that the first one was made for. -/
theorem handover (h : Chronicle b log s due) {total spent : Nat}
    (hh : Handover log total k spent) : ∃ t, s.timers[k]? = some t ∧ t.repeats = false ∧
      spent + t.duration = total := by
  induction hh with
  | first he hd =>
    obtain ⟨t, ht, hdur, hr⟩ := h.exists_of_add he hd
    exact ⟨t, ht, hr, by omega⟩
  | @next k spent left later mid before start pause make c _ hlog hstart hmid hpause hleft hm hd
      ih =>
    obtain ⟨t, ht, hr, htotal⟩ := ih
    subst hlog
    obtain ⟨_, hbefore, hmay⟩ := h.of_append
    obtain ⟨u, hu, hp, rfl⟩ := pause_eq_some hleft
    obtain ⟨v, hv, hmake⟩ := h.sameMake hu
    obtain rfl := Option.some.inj (ht.symm.trans hv)
    -- the timer was armed when it was started last
    obtain ⟨after, e, before', heq, he, huntouched, hat⟩ :=
      hbefore.exists_start hu (hmake.repeats.symm.trans hr) hp
    obtain rfl := eq_of_append_cons_eq heq hstart he hmid fun a ha => (huntouched a ha).1
    have hnow := hbefore.now_le hu hp
    have hat' := hbefore.tuned.armed hu
    obtain ⟨w, hw, hdur, hr'⟩ := h.exists_of_add (List.mem_append_left _ hm) hd
    refine ⟨w, hw, hr', ?_⟩
    have hduration := hmake.duration
    omega

end Chronicle

end Schedule

end Novella
