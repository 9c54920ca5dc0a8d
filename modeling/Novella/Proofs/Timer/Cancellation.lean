import Novella.Proofs.Loop.Scheduling

/-!
# Cancelled timers

The callback of a timer is reached in two ways. The timeout of the timer rings it, which counts only
while the timer runs. And when a timer is skipped its callback is left with the loop, as a timeout
of its own that the timer has no number of. To cancel a timer takes back the first timeout and puts
the timer to rest, so it neither rings nor can be skipped before it is started again. But the second
timeout it does not reach: what was skipped before is still to come.

As for the loop alone, tasks are arbitrary. A *timekeeping* says which calls they make on the timers
of their world, and a run of the machine has a list of events, from which the invocations of a
callback can be read off.

## Main definitions

* `Schedule.Call`, `Schedule.Event` — the calls on a loop with timers, and what is to be seen of it
* `Schedule.Event.Invokes` — the callback of a timer is invoked
* `Timekeeping` — the calls that the tasks of a world make on its timers
* `Timekeeping.Run`, `Timekeeping.events` — runs of tasks and of the host, and their events

## Main results

* `Timekeeping.Run.performs_callback` — a callback that is invoked is performed next
* `Timekeeping.Run.cancelled_silent_iff` — a cancelled timer is silent but for what was skipped
-/

namespace Novella

/-! ### Timeouts that were there before -/

namespace Loop

variable {τ : Type} {l l' l'' : Loop τ}

/-- Every timeout that waits has a number that has been given. -/
def Numbered (l : Loop τ) : Prop := ∀ x ∈ l.timeouts, x.id < l.nextId

/-- The loop `l'` comes later than `l`: what waits in it under a number that had been given by then
has been waiting all the time. -/
structure Precedes (l l' : Loop τ) : Prop where
  /-- Numbers are given in order. -/
  nextId_le : l.nextId ≤ l'.nextId
  /-- No timeout is made under an old number. -/
  mem {x : Timeout τ} : x ∈ l'.timeouts → x.id < l.nextId → x ∈ l.timeouts
  /-- No timeout is made under a number still to come. -/
  numbered : l.Numbered → l'.Numbered

namespace Precedes

theorem trans (h : l.Precedes l') (h' : l'.Precedes l'') : l.Precedes l'' :=
  ⟨Nat.le_trans h.nextId_le h'.nextId_le, fun hx hid =>
    h.mem (h'.mem hx (Nat.lt_of_lt_of_le hid h.nextId_le)) hid, h'.numbered ∘ h.numbered⟩

/-- Timeouts leave the loop. -/
theorem of_subset (hn : l'.nextId = l.nextId) (hs : l'.timeouts ⊆ l.timeouts) : l.Precedes l' :=
  ⟨Nat.le_of_eq hn.symm, fun hx _ => hs hx, fun h x hx => hn ▸ h x (hs hx)⟩

theorem refl (l : Loop τ) : l.Precedes l := .of_subset rfl (List.Subset.refl _)

theorem setTimeout (l : Loop τ) (delay : Nat) (t : τ) : l.Precedes (l.setTimeout delay t) := by
  refine ⟨Nat.le_succ _, fun hx hid => ?_, fun h x hx => ?_⟩
  · rcases mem_insertTimeout.1 hx with rfl | hx
    · exact absurd hid (Nat.lt_irrefl _)
    · exact hx
  · rcases mem_insertTimeout.1 hx with rfl | hx
    · exact Nat.lt_succ_self _
    · exact Nat.lt_succ_of_lt (h x hx)

theorem clearTimeout (l : Loop τ) (id : Nat) : l.Precedes (l.clearTimeout id) :=
  .of_subset rfl fun _ hx => (List.mem_filter.1 hx).1

theorem make (l : Loop τ) (c : Call τ) : l.Precedes (l.make c) := by
  cases c with
  | queue t => exact .of_subset rfl (List.Subset.refl _)
  | schedule delay t => exact .setTimeout l delay t
  | clear id => exact .clearTimeout l id

theorem popMicrotask {t : τ} (h : l.popMicrotask? = some (t, l')) : l.Precedes l' := by
  rw [popMicrotask?] at h
  split at h
  · cases h
  · cases h
    exact .of_subset rfl (List.Subset.refl _)

theorem leave (l : Loop τ) (x : Timeout τ) : l.Precedes (l.leave x) :=
  .of_subset rfl fun _ hy => List.mem_of_mem_tail hy

end Precedes

end Loop

/-! ### Calls and events -/

/-- The timer neither runs nor is it paused, so there is nothing to ring and nothing to skip. -/
def Timer.IsResting {τ : Type} (t : Timer τ) : Prop :=
  t.state ≠ .running ∧ ∀ left, t.state ≠ .paused left

namespace Schedule

variable {τ : Type} {ring : Nat → τ} {s : Schedule τ} {j k : Nat} {t : Timer τ}

/-- A call on a loop with timers. -/
inductive Call (τ : Type) where
  /-- A call on the loop. -/
  | loop (c : Loop.Call τ)
  /-- Make a timer. -/
  | add (duration : Nat) (repeats : Bool) (callback : τ)
  /-- Start timer `k`. -/
  | start (k : Nat)
  /-- Pause timer `k`. -/
  | pause (k : Nat)
  /-- Cancel timer `k`. -/
  | cancel (k : Nat)
  /-- Skip timer `k`. -/
  | skip (k : Nat)

/-- The loop and the timers after a call. -/
def make (ring : Nat → τ) (s : Schedule τ) : Call τ → Schedule τ
  | .loop c => { s with loop := s.loop.make c }
  | .add duration repeats callback => s.addTimer { duration, repeats, callback }
  | .start k => s.start ring k
  | .pause k => (s.pause k).1
  | .cancel k => s.cancel k
  | .skip k => (s.skip k).1

/-- What is to be seen of a loop with timers. -/
inductive Event (τ : Type) where
  /-- Timer `k` was started, or was running already. -/
  | started (k : Nat)
  /-- Timer `k` was cancelled, which left this loop. -/
  | cancelled (k : Nat) (l : Loop τ)
  /-- Timer `k` was skipped, and its callback is the timeout of this number. -/
  | skipped (k id : Nat)
  /-- Timer `k` rings. -/
  | rung (k : Nat)
  /-- The timeout of this number is started. -/
  | due (id : Nat)

/-- After the events before it, the event is that the callback of timer `k` is invoked: the timer
rings, or a timeout is started that has the callback since the timer was skipped. -/
def Event.Invokes (k : Nat) (before : List (Event τ)) (e : Event τ) : Prop :=
  e = .rung k ∨ ∃ id, e = .due id ∧ .skipped k id ∈ before

/-- The callback of timer `k` is not invoked in the events `after`, which come after others. -/
def Silent (k : Nat) (after before : List (Event τ)) : Prop :=
  ∀ later e earlier, after = later ++ e :: earlier → ¬ e.Invokes k (earlier ++ before)

/-- What is to be seen of a call. -/
def event? (s : Schedule τ) : Call τ → Option (Event τ)
  | .start k => some (.started k)
  | .cancel k => some (.cancelled k (s.cancel k).loop)
  | .skip k => if (s.skip k).2 then some (.skipped k s.loop.nextId) else none
  | _ => none

/-- Writes down what is to be seen of some calls, the last one first. -/
def record (ring : Nat → τ) : Schedule τ → List (Call τ) → List (Event τ) → List (Event τ)
  | _, [], events => events
  | s, c :: cs, events => record ring (s.make ring c) cs ((s.event? c).toList ++ events)

/-! ### What operations do to one timer -/

/-- Timer `k` rests, if there is such a timer. -/
def Rests (s : Schedule τ) (k : Nat) : Prop := ∀ t, s.timers[k]? = some t → t.IsResting

theorem getElem?_setTimer_self (ht : s.timers[k]? = some t) (u : Timer τ) :
    (s.setTimer k u).timers[k]? = some u := by
  rw [setTimer, Array.getElem?_setIfInBounds_self_of_lt (Array.getElem?_eq_some_iff.1 ht).1]

theorem getElem?_setTimer_of_ne (h : j ≠ k) (u : Timer τ) :
    (s.setTimer j u).timers[k]? = s.timers[k]? :=
  Array.getElem?_setIfInBounds_ne h

theorem nextId_disarm (s : Schedule τ) (j : Nat) (t : Timer τ) (x : TimerState) :
    (s.disarm j t x).loop.nextId = s.loop.nextId := by
  rw [disarm]
  cases t.handle <;> rfl

theorem timeouts_disarm_subset (s : Schedule τ) (j : Nat) (t : Timer τ) (x : TimerState) :
    (s.disarm j t x).loop.timeouts ⊆ s.loop.timeouts := by
  rw [disarm]
  cases t.handle with
  | none => exact List.Subset.refl _
  | some id => exact fun y hy => (List.mem_filter.1 hy).1

/-- An operation on timer `j`, which leaves the other timers and the callbacks as they are. -/
structure Changes (j : Nat) (s s' : Schedule τ) : Prop where
  /-- Old numbers stay with their timeouts. -/
  precedes : s.loop.Precedes s'.loop
  /-- The other timers stay. -/
  others {k : Nat} : k ≠ j → s'.timers[k]? = s.timers[k]?
  /-- The timer keeps its callback. -/
  callback {k : Nat} {t : Timer τ} : s.timers[k]? = some t →
    ∃ t', s'.timers[k]? = some t' ∧ t'.callback = t.callback

namespace Changes

variable {s' : Schedule τ}

theorem refl (j : Nat) (s : Schedule τ) : s.Changes j s :=
  ⟨.refl _, fun _ => rfl, fun {_ t} ht => ⟨t, ht, rfl⟩⟩

/-- Timer `j` is replaced by one with the same callback. -/
theorem setTimer (hp : s.loop.Precedes s'.loop) (ht : s.timers[j]? = some t) {u : Timer τ}
    (hu : u.callback = t.callback) (hs : s'.timers = (s.setTimer j u).timers) :
    s.Changes j s' := by
  refine ⟨hp, fun hk => ?_, fun {k t'} ht' => ?_⟩
  · rw [hs, getElem?_setTimer_of_ne (Ne.symm hk)]
  · rw [hs]
    by_cases hk : k = j
    · subst hk
      obtain rfl := Option.some.inj (ht.symm.trans ht')
      exact ⟨u, getElem?_setTimer_self ht u, hu⟩
    · exact ⟨t', (getElem?_setTimer_of_ne (Ne.symm hk) u).trans ht', rfl⟩

theorem arm (ht : s.timers[j]? = some t) {u : Timer τ} (hu : u.callback = t.callback) :
    s.Changes j (s.arm ring j u) := by
  refine .setTimer (.setTimeout ..) ht ?_ rfl
  exact hu

theorem disarm (ht : s.timers[j]? = some t) (x : TimerState) : s.Changes j (s.disarm j t x) := by
  refine .setTimer ?_ ht (u := { t with state := x, handle := none }) rfl rfl
  exact .of_subset (nextId_disarm s j t x) (timeouts_disarm_subset s j t x)

theorem setTimeout (h : s.Changes j s') (delay : Nat) (t : τ) :
    s.Changes j { s' with loop := s'.loop.setTimeout delay t } :=
  ⟨h.precedes.trans (.setTimeout ..), h.others, h.callback⟩

theorem start (s : Schedule τ) (j : Nat) : s.Changes j (s.start ring j) := by
  rw [Schedule.start]
  split
  · next t ht =>
    split
    · exact .refl j s
    · exact .arm ht rfl
  · exact .refl j s

theorem pause (s : Schedule τ) (j : Nat) : s.Changes j (s.pause j).1 := by
  rw [Schedule.pause]
  split
  · next t ht =>
    split
    · exact .disarm ht _
    · exact .refl j s
  · exact .refl j s

theorem cancel (s : Schedule τ) (j : Nat) : s.Changes j (s.cancel j) := by
  rw [Schedule.cancel]
  split
  · next t ht => exact .disarm ht _
  · exact .refl j s

theorem skip (s : Schedule τ) (j : Nat) : s.Changes j (s.skip j).1 := by
  rw [Schedule.skip]
  split
  · next t ht =>
    split
    · exact (Changes.disarm ht _).setTimeout ..
    · exact (Changes.disarm ht _).setTimeout ..
    · exact .refl j s
  · exact .refl j s

theorem rings (s : Schedule τ) (j : Nat) : s.Changes j (s.ring ring j).1 := by
  rw [Schedule.ring]
  split
  · next t ht =>
    split
    · dsimp only
      split
      · exact .arm ht rfl
      · exact .setTimer (.refl _) ht (u := { t with handle := none, state := .finished }) rfl rfl
    · exact .refl j s
  · exact .refl j s

end Changes

/-! ### Timers at rest -/

theorem isPending_eq_false (h : t.IsResting) : t.isPending = false := decide_eq_false h.1

/-- A timer at rest cannot be paused. -/
theorem pause_of_rests (h : s.Rests k) : (s.pause k).1 = s := by
  rw [pause]
  cases ht : s.timers[k]? with
  | none => rfl
  | some t => simp [isPending_eq_false (h t ht)]

/-- A timer at rest cannot be skipped. -/
theorem skip_of_rests (h : s.Rests k) : s.skip k = (s, false) := by
  rw [skip]
  cases ht : s.timers[k]? with
  | none => rfl
  | some t =>
    obtain ⟨hr, hp⟩ := h t ht
    dsimp only
    split
    · next hs => exact absurd hs hr
    · next left hs => exact absurd hs (hp left)
    · rfl

/-- A timer that is skipped leaves a timeout with its callback. -/
theorem skip_eq_true (h : (s.skip k).2 = true) : ∃ t, s.timers[k]? = some t ∧
    (s.skip k).1 = { s.disarm k t .finished with
      loop := (s.disarm k t .finished).loop.setTimeout 0 t.callback } := by
  rw [skip] at h ⊢
  cases ht : s.timers[k]? with
  | none => simp [ht] at h
  | some t =>
    refine ⟨t, rfl, ?_⟩
    cases hs : t.state <;> simp_all

theorem nextId_lt_of_skip (h : (s.skip k).2 = true) : s.loop.nextId < (s.skip k).1.loop.nextId := by
  obtain ⟨t, -, hskip⟩ := skip_eq_true h
  rw [hskip]
  exact Nat.lt_succ_of_le (Nat.le_of_eq (nextId_disarm s k t .finished).symm)

/-- A timer at rest does not ring. -/
theorem ring_of_rests (h : s.Rests k) : s.ring ring k = (s, none) := by
  rw [Schedule.ring]
  cases ht : s.timers[k]? with
  | none => rfl
  | some t => simp [isPending_eq_false (h t ht)]

/-- A timer that was cancelled rests. -/
theorem rests_cancel (s : Schedule τ) (k : Nat) : (s.cancel k).Rests k := by
  rw [cancel]
  split
  · next t ht =>
    intro u hu
    obtain rfl := Option.some.inj ((getElem?_setTimer_self ht _).symm.trans hu)
    by_cases hf : t.state = .finished
    · simp [Timer.IsResting, hf]
    · simp [Timer.IsResting, hf]
  · next hnone =>
    intro t ht
    rw [hnone] at ht
    cases ht

theorem Changes.rests {s' : Schedule τ} (hc : s.Changes j s') (hk : k ≠ j) (h : s.Rests k) :
    s'.Rests k := fun t ht => h t ((hc.others hk).symm.trans ht)

/-- What a timer hands out when it rings is its callback. -/
theorem callback_of_ring {c : τ} (h : (s.ring ring k).2 = some c) :
    ∃ t, s.timers[k]? = some t ∧ t.callback = c := by
  rw [Schedule.ring] at h
  split at h
  · next t ht =>
    split at h
    · exact ⟨t, ht, Option.some.inj h⟩
    · cases h
  · cases h

/-- Calls do not invoke a callback. -/
theorem not_invokes_of_record {calls : List (Call τ)} {past : List (Event τ)} {e : Event τ}
    (h : s.record ring calls past = e :: past) : ¬ e.Invokes k past := by
  have hnew : ∀ (calls : List (Call τ)) (s : Schedule τ) (past : List (Event τ)),
      ∃ new, s.record ring calls past = new ++ past ∧
        ∀ e ∈ new, (∀ k, e ≠ .rung k) ∧ ∀ id, e ≠ .due id := by
    intro calls
    induction calls with
    | nil => exact fun s past => ⟨[], rfl, by simp⟩
    | cons c cs ih =>
      intro s past
      obtain ⟨new, hr, hn⟩ := ih (s.make ring c) ((s.event? c).toList ++ past)
      refine ⟨new ++ (s.event? c).toList, by rw [record, hr, List.append_assoc], ?_⟩
      refine List.forall_mem_append.2 ⟨hn, fun e he => ?_⟩
      have hc := Option.mem_toList.1 he
      cases c <;> simp [event?] at hc
      · simp [← hc]
      · simp [← hc]
      · simp [← hc.2]
  obtain ⟨new, hr, hn⟩ := hnew calls s past
  have he : new = [e] := List.append_cancel_right (hr.symm.trans h)
  obtain ⟨hring, hdue⟩ := hn e (he ▸ List.mem_singleton_self e)
  rintro (hi | ⟨id, hi, -⟩)
  · exact hring k hi
  · exact hdue id hi

/-! ### Accounts of a schedule -/

/-- Timer `k` has been cancelled with the loop `l` left behind, and has not been started since. -/
structure Silenced (k : Nat) (l : Loop τ) (after : List (Event τ)) (s : Schedule τ) : Prop where
  /-- The timer rests. -/
  rests : s.Rests k
  /-- What waits under an old number has been waiting since. -/
  precedes : l.Precedes s.loop
  /-- The timer has not been skipped. -/
  skipped {id : Nat} : .skipped k id ∉ after
  /-- It has not rung. -/
  rung : .rung k ∉ after
  /-- Under an old number only what was waiting has been started. -/
  due {id : Nat} : .due id ∈ after → id < l.nextId → ∃ x ∈ l.timeouts, x.id = id

/-- A loop with timers, compared with the events that led to it. -/
structure Accounts (s : Schedule τ) (events : List (Event τ)) : Prop where
  /-- What waits has been given a number. -/
  numbered : s.loop.Numbered
  /-- Skipped timers left a timeout. -/
  skipped {k id : Nat} : .skipped k id ∈ events → id < s.loop.nextId
  /-- That timeout has the callback, as long as it waits. -/
  callback {k : Nat} {x : Timeout τ} : x ∈ s.loop.timeouts → .skipped k x.id ∈ events →
    ∃ t, s.timers[k]? = some t ∧ t.callback = x.task
  /-- Timers that were cancelled rest until they are started. -/
  silenced {k : Nat} {l : Loop τ} {after before : List (Event τ)} :
    events = after ++ .cancelled k l :: before → .started k ∉ after →
      s.Silenced k l after ∧ ∀ {id}, .skipped k id ∈ before → id < l.nextId

namespace Silenced

variable {l : Loop τ} {after : List (Event τ)} {s' : Schedule τ} {c : Call τ}

/-- The timer has just been cancelled. -/
theorem fresh (h : s.Rests k) : s.Silenced k s.loop [] where
  rests := h
  precedes := .refl _
  skipped := List.not_mem_nil
  rung := List.not_mem_nil
  due h := absurd h List.not_mem_nil

/-- Something is seen that does not concern the timer. -/
theorem see (h : s.Silenced k l after) (hr : s'.Rests k) (hp : s.loop.Precedes s'.loop)
    {e : Event τ} (hs : ∀ id, e ≠ .skipped k id) (hn : e ≠ .rung k)
    (hd : ∀ id, e = .due id → ∃ x ∈ s.loop.timeouts, x.id = id) :
    s'.Silenced k l (e :: after) where
  rests := hr
  precedes := h.precedes.trans hp
  skipped {id} hm := by
    rcases List.mem_cons.1 hm with hm | hm
    · exact hs id hm.symm
    · exact h.skipped hm
  rung hm := by
    rcases List.mem_cons.1 hm with hm | hm
    · exact hn hm.symm
    · exact h.rung hm
  due {id} hm hid := by
    rcases List.mem_cons.1 hm with hm | hm
    · obtain ⟨x, hx, rfl⟩ := hd id hm.symm
      exact ⟨x, h.precedes.mem hx hid, rfl⟩
    · exact h.due hm hid

/-- Nothing is seen. -/
theorem unseen (h : s.Silenced k l after) (hr : s'.Rests k) (hp : s.loop.Precedes s'.loop) :
    s'.Silenced k l after :=
  ⟨hr, h.precedes.trans hp, h.skipped, h.rung, h.due⟩

/-- Calls leave a timer at rest, unless it is started. -/
theorem make (h : s.Silenced k l after) (hs : ∀ e ∈ s.event? c, e ≠ .started k) :
    (s.make ring c).Silenced k l ((s.event? c).toList ++ after) := by
  have hrests := h.rests
  cases c with
  | loop c => exact h.unseen hrests (.make ..)
  | add duration repeats callback =>
    refine h.unseen (fun t ht => ?_) (.refl _)
    rcases Array.getElem?_push.symm.trans ht with hpush
    split at hpush
    · obtain rfl := Option.some.inj hpush
      exact ⟨by simp, by simp⟩
    · exact hrests t hpush
  | start j =>
    have hj : k ≠ j := fun heq => hs _ rfl (heq ▸ rfl)
    have hc : s.Changes j (s.start ring j) := .start s j
    exact h.see (hc.rests hj hrests) hc.precedes (by simp) (by simp) (by simp)
  | pause j =>
    by_cases hj : k = j
    · subst hj
      have hsame : s.make ring (.pause k) = s := pause_of_rests hrests
      rw [hsame]
      exact h
    · have hc := Changes.pause s j
      exact h.unseen (hc.rests hj hrests) hc.precedes
  | cancel j =>
    have hc := Changes.cancel s j
    refine h.see ?_ hc.precedes (by simp) (by simp) (by simp)
    by_cases hj : k = j
    · exact hj ▸ rests_cancel s k
    · exact hc.rests hj hrests
  | skip j =>
    by_cases hj : k = j
    · subst hj
      have hskip := skip_of_rests hrests
      simpa [Schedule.make, event?, hskip] using h
    · have hc := Changes.skip s j
      rw [event?]
      split
      · refine h.see (hc.rests hj hrests) hc.precedes (fun id heq => ?_) (by simp) (by simp)
        exact hj (Event.skipped.inj heq).1.symm
      · exact h.unseen (hc.rests hj hrests) hc.precedes

end Silenced

namespace Accounts

variable {events : List (Event τ)} {s' : Schedule τ} {c : Call τ}

/-- Nothing has happened with a new loop. -/
theorem fresh (h : s.loop = {}) : s.Accounts [] where
  numbered x hx := by
    rw [h] at hx
    cases hx
  skipped hm := absurd hm List.not_mem_nil
  callback hx := by
    rw [h] at hx
    cases hx
  silenced heq := by
    rcases List.append_eq_nil_iff.1 heq.symm with ⟨-, hcons⟩
    cases hcons

/-- What has been seen with the next event, if there is one, after a cancellation. -/
theorem append_cases {o : Option (Event τ)} {k : Nat} {l : Loop τ} {after before : List (Event τ)}
    (heq : o.toList ++ events = after ++ .cancelled k l :: before) :
    (after = [] ∧ o = some (.cancelled k l) ∧ before = events) ∨
      ∃ later, after = o.toList ++ later ∧ events = later ++ .cancelled k l :: before := by
  cases o with
  | none => exact .inr ⟨after, rfl, heq⟩
  | some e =>
    cases after with
    | nil =>
      obtain ⟨rfl, rfl⟩ := List.cons.inj heq
      exact .inl ⟨rfl, rfl, rfl⟩
    | cons a later =>
      obtain ⟨rfl, rfl⟩ := List.cons.inj heq
      exact .inr ⟨later, rfl, rfl⟩

/-- Something is seen, if anything, and the schedule goes on from there. -/
theorem see (a : s.Accounts events) {o : Option (Event τ)}
    (hp : s.loop.Precedes s'.loop)
    (hskip : ∀ {k id}, o = some (.skipped k id) → id < s'.loop.nextId)
    (hcallback : ∀ {k : Nat} {x : Timeout τ}, x ∈ s'.loop.timeouts →
      .skipped k x.id ∈ o.toList ++ events → ∃ t, s'.timers[k]? = some t ∧ t.callback = x.task)
    (hcancel : ∀ {k l}, o = some (.cancelled k l) → s'.Rests k ∧ l = s'.loop)
    (hsilenced : ∀ {k l after}, s.Silenced k l after → (∀ e ∈ o, e ≠ .started k) →
      s'.Silenced k l (o.toList ++ after)) : s'.Accounts (o.toList ++ events) where
  numbered := hp.numbered a.numbered
  skipped {k id} hm := by
    rcases List.mem_append.1 hm with hm | hm
    · exact hskip (Option.mem_toList.1 hm)
    · exact Nat.lt_of_lt_of_le (a.skipped hm) hp.nextId_le
  callback := hcallback
  silenced {k l after before} heq hs := by
    rcases append_cases heq with ⟨rfl, ho, rfl⟩ | ⟨later, rfl, hevents⟩
    · obtain ⟨hr, rfl⟩ := hcancel ho
      exact ⟨.fresh hr, fun hm => Nat.lt_of_lt_of_le (a.skipped hm) hp.nextId_le⟩
    · obtain ⟨hsil, hbefore⟩ := a.silenced hevents fun hm => hs (List.mem_append_right _ hm)
      refine ⟨hsilenced hsil fun e he hstarted => ?_, hbefore⟩
      exact hs (List.mem_append_left _ (Option.mem_toList.2 (hstarted ▸ he)))

/-- Timeouts that wait under an old number keep their callback. -/
theorem callback_of_changes (a : s.Accounts events) (hp : s.loop.Precedes s'.loop)
    (hk : ∀ {k : Nat} {t : Timer τ}, s.timers[k]? = some t →
      ∃ t', s'.timers[k]? = some t' ∧ t'.callback = t.callback) {k : Nat} {x : Timeout τ}
    (hx : x ∈ s'.loop.timeouts) (hm : .skipped k x.id ∈ events) :
    ∃ t, s'.timers[k]? = some t ∧ t.callback = x.task := by
  obtain ⟨t, ht, htask⟩ := a.callback (hp.mem hx (a.skipped hm)) hm
  obtain ⟨t', ht', hcallback⟩ := hk ht
  exact ⟨t', ht', hcallback.trans htask⟩

/-- Nothing is seen that has to do with skipping or cancelling. -/
theorem see_plain (a : s.Accounts events) {o : Option (Event τ)} (hp : s.loop.Precedes s'.loop)
    (hk : ∀ {k : Nat} {t : Timer τ}, s.timers[k]? = some t →
      ∃ t', s'.timers[k]? = some t' ∧ t'.callback = t.callback)
    (hs : ∀ k id, o ≠ some (.skipped k id)) (hc : ∀ k l, o ≠ some (.cancelled k l))
    (hsilenced : ∀ {k l after}, s.Silenced k l after → (∀ e ∈ o, e ≠ .started k) →
      s'.Silenced k l (o.toList ++ after)) : s'.Accounts (o.toList ++ events) := by
  refine a.see hp (fun ho => absurd ho (hs _ _)) (fun hx hm => ?_) (fun ho => absurd ho (hc _ _))
    hsilenced
  rcases List.mem_append.1 hm with hm | hm
  · exact absurd (Option.mem_toList.1 hm) (hs _ _)
  · exact a.callback_of_changes hp hk hx hm

/-- A timer that is skipped leaves its callback behind, under a number of its own. -/
theorem callback_of_skip (a : s.Accounts events) (hs : (s.skip j).2 = true) {k : Nat}
    {x : Timeout τ} (hx : x ∈ (s.skip j).1.loop.timeouts)
    (hm : .skipped k x.id ∈ Event.skipped j s.loop.nextId :: events) :
    ∃ t, (s.skip j).1.timers[k]? = some t ∧ t.callback = x.task := by
  have hc := Changes.skip s j
  obtain ⟨t, ht, hskip⟩ := skip_eq_true hs
  rw [hskip] at hx
  rcases Loop.mem_insertTimeout.1 hx with rfl | hx
  · rcases List.mem_cons.1 hm with hm | hm
    · obtain ⟨rfl, -⟩ := Event.skipped.inj hm
      exact hc.callback ht
    · have hlt := a.skipped hm
      rw [nextId_disarm] at hlt
      exact absurd hlt (Nat.lt_irrefl _)
  · have hwaits := timeouts_disarm_subset s j t .finished hx
    rcases List.mem_cons.1 hm with hm | hm
    · have hlt := a.numbered x hwaits
      rw [(Event.skipped.inj hm).2] at hlt
      exact absurd hlt (Nat.lt_irrefl _)
    · obtain ⟨u, hu, htask⟩ := a.callback hwaits hm
      obtain ⟨u', hu', hcallback⟩ := hc.callback hu
      exact ⟨u', hu', hcallback.trans htask⟩

/-- A call goes into the account. -/
theorem make (a : s.Accounts events) (c : Call τ) :
    (s.make ring c).Accounts ((s.event? c).toList ++ events) := by
  have hsilenced {k l after} (h : s.Silenced k l after) (hs : ∀ e ∈ s.event? c, e ≠ .started k) :
      (s.make ring c).Silenced k l ((s.event? c).toList ++ after) := h.make hs
  have plain {j : Nat} (hc : s.Changes j (s.make ring c))
      (hs : ∀ k id, s.event? c ≠ some (.skipped k id))
      (hn : ∀ k l, s.event? c ≠ some (.cancelled k l)) :
      (s.make ring c).Accounts ((s.event? c).toList ++ events) :=
    a.see_plain hc.precedes (fun h => hc.callback h) hs hn hsilenced
  cases c with
  | loop c =>
    exact a.see_plain (.make ..) (fun {_ t} ht => ⟨t, ht, rfl⟩) (by simp [event?])
      (by simp [event?]) hsilenced
  | add duration repeats callback =>
    refine a.see_plain (.refl _) (fun {k t} ht => ⟨t, ?_, rfl⟩) (by simp [event?])
      (by simp [event?]) hsilenced
    exact (Array.getElem?_push_lt (Array.getElem?_eq_some_iff.1 ht).1).trans
      (congrArg some (Array.getElem?_eq_some_iff.1 ht).2)
  | start j => exact plain (.start s j) (by simp [event?]) (by simp [event?])
  | pause j => exact plain (.pause s j) (by simp [event?]) (by simp [event?])
  | cancel j =>
    have hc := Changes.cancel s j
    refine a.see hc.precedes (fun ho => ?_) (fun hx hm => ?_) (fun ho => ?_) hsilenced
    · cases ho
    · refine a.callback_of_changes hc.precedes (fun h => hc.callback h) hx ?_
      simpa [event?] using hm
    · cases ho
      exact ⟨rests_cancel s j, rfl⟩
  | skip j =>
    have hc := Changes.skip s j
    cases hs : (s.skip j).2 with
    | false =>
      have hnone : s.event? (.skip j) = none := by simp [event?, hs]
      exact plain hc (by simp [hnone]) (by simp [hnone])
    | true =>
      have hsome : s.event? (.skip j) = some (.skipped j s.loop.nextId) := by simp [event?, hs]
      rw [hsome] at hsilenced ⊢
      refine a.see hc.precedes (fun ho => ?_) (fun hx hm => a.callback_of_skip hs hx hm)
        (fun ho => ?_) hsilenced
      · cases ho
        exact nextId_lt_of_skip hs
      · cases ho

/-- Calls go into the account. -/
theorem record (a : s.Accounts events) (calls : List (Call τ)) :
    (calls.foldl (Schedule.make ring) s).Accounts (s.record ring calls events) := by
  induction calls generalizing s events with
  | nil => exact a
  | cons c cs ih => exact ih (a.make c)

/-- The timeout of a timer is due. -/
theorem rings (a : s.Accounts events) (j : Nat) :
    (s.ring ring j).1.Accounts
      (((s.ring ring j).2.map fun _ => Event.rung j).toList ++ events) := by
  have hc : s.Changes j (s.ring ring j).1 := .rings s j
  refine a.see_plain hc.precedes (fun h => hc.callback h) (by simp) (by simp)
    fun {k l after} h _ => ?_
  by_cases hk : k = j
  · subst hk
    simpa [ring_of_rests h.rests] using h
  · cases (s.ring ring j).2 with
    | none => exact h.unseen (hc.rests hk h.rests) hc.precedes
    | some t =>
      refine h.see (hc.rests hk h.rests) hc.precedes (by simp) ?_ (by simp)
      exact fun heq => hk (Event.rung.inj heq).symm

/-- The loop goes on, and what is seen of it, if anything, is that a timeout is started. -/
theorem seeLoop (a : s.Accounts events) {l : Loop τ} (hp : s.loop.Precedes l) {o : Option (Event τ)}
    (ho : ∀ e ∈ o, ∃ x ∈ s.loop.timeouts, e = .due x.id) :
    { s with loop := l }.Accounts (o.toList ++ events) := by
  have hplain : ∀ e ∈ o, ∃ id, e = .due id := fun e he => by
    obtain ⟨x, -, rfl⟩ := ho e he
    exact ⟨x.id, rfl⟩
  refine a.see_plain hp (fun {_ t} ht => ⟨t, ht, rfl⟩) (fun k id h => ?_) (fun k l h => ?_)
    fun {k l' after} h _ => ?_
  · obtain ⟨id, heq⟩ := hplain _ h
    cases heq
  · obtain ⟨id, heq⟩ := hplain _ h
    cases heq
  · cases o with
    | none => exact h.unseen h.rests hp
    | some e =>
      obtain ⟨x, hx, rfl⟩ := ho e rfl
      have hrests : ({ s with loop := l } : Schedule τ).Rests k := h.rests
      refine h.see hrests hp (by simp) (by simp) fun id heq => ⟨x, hx, ?_⟩
      exact Event.due.inj heq

/-- A timeout is started. -/
theorem leave (a : s.Accounts events) {x : Timeout τ} (hx : x ∈ s.loop.timeouts) :
    { s with loop := s.loop.leave x }.Accounts (.due x.id :: events) := by
  refine a.seeLoop (.leave ..) (o := some (.due x.id)) ?_
  rintro e ⟨⟩
  exact ⟨x, hx, rfl⟩

/-- The loop goes on, and nothing is seen. -/
theorem withLoop (a : s.Accounts events) {l : Loop τ} (hp : s.loop.Precedes l) :
    { s with loop := l }.Accounts events :=
  a.seeLoop hp (o := none) nofun

end Accounts

end Schedule

/-! ### Timekeepings and runs -/

section

variable {σ τ : Type} [World σ τ]

variable (σ) in
/-- How the tasks of a world use its timers. -/
structure Timekeeping {τ : Type} [World σ τ] where
  /-- The loop of a world with the timers on it. -/
  schedule : σ → Schedule τ
  /-- The task of the timeout of a timer. -/
  ring : Nat → τ
  /-- The timer whose timeout has the task. -/
  ring? : τ → Option Nat
  /-- The calls that any other task makes, one after another. -/
  calls : τ → σ → List (Schedule.Call τ)
  ring?_eq_some {t : τ} {k : Nat} : ring? t = some k ↔ t = ring k
  loop_schedule (s : σ) : (schedule s).loop = World.loop s
  schedule_withLoop (s : σ) (l : Loop τ) :
    schedule (World.withLoop s l) = { schedule s with loop := l }
  perform_ring (k : Nat) (s : σ) :
    schedule (World.perform (ring k) s).1 = ((schedule s).ring ring k).1 ∧
      (World.perform (ring k) s).2 = ((schedule s).ring ring k).2.toList.map .perform
  schedule_perform {t : τ} (s : σ) : ring? t = none →
    schedule (World.perform t s).1 = (calls t s).foldl (Schedule.make ring) (schedule s)

namespace Timekeeping

variable {u : Timekeeping σ} {h : List (Machine σ τ)} {m : Machine σ τ}
  {past : List (Schedule.Event τ)}

/-- Writes down what is to be seen of the loop and its timers when the machine takes a step. -/
def record (u : Timekeeping σ) (m : Machine σ τ) (events : List (Schedule.Event τ)) :
    List (Schedule.Event τ) :=
  let s := u.schedule m.world
  match m.agenda with
  | .perform t :: _ =>
    match u.ring? t with
    | some k => ((s.ring u.ring k).2.map fun _ => .rung k).toList ++ events
    | none => s.record u.ring (u.calls t m.world) events
  | .runUntil target :: _ => ((s.loop.due? target).map fun x => .due x.id).toList ++ events
  | _ => events

/-- The events of a history, the last one first. -/
def events (u : Timekeeping σ) : List (Machine σ τ) → List (Schedule.Event τ)
  | [] => []
  | m :: h => u.record m (u.events h)

/-- A machine is reached from a new loop by its own steps and by turns of the host, who may do what
it likes with the world but for the timers, which it uses through tasks. The list holds the machines
that took a step, the last one first. -/
inductive Run (u : Timekeeping σ) : List (Machine σ τ) → Machine σ τ → Prop where
  /-- Nothing has happened yet. -/
  | start {s : σ} : World.loop s = {} → Run u [] ⟨s, []⟩
  /-- The machine takes a step. -/
  | step {h : List (Machine σ τ)} {m : Machine σ τ} : Run u h m → Run u (m :: h) m.step
  /-- The host has its turn. -/
  | turn {h : List (Machine σ τ)} {s s' : σ} (orders : List (Order τ)) :
      Run u h ⟨s, []⟩ → u.schedule s' = u.schedule s → Run u h ⟨s', orders⟩

/-- The machine takes some steps. -/
theorem Run.steps (r : u.Run h m) (n : Nat) :
    u.Run ((List.range n).reverse.map (fun i => m.run i) ++ h) (m.run n) := by
  induction n with
  | zero => exact r
  | succ n ih =>
    rw [List.range_succ, List.reverse_append, Machine.run_add, Machine.run_succ]
    exact ih.step

theorem record_ring (s : σ) (k : Nat) (rest : List (Order τ)) (past : List (Schedule.Event τ)) :
    u.record ⟨s, .perform (u.ring k) :: rest⟩ past =
      (((u.schedule s).ring u.ring k).2.map fun _ => .rung k).toList ++ past := by
  simp only [record, u.ring?_eq_some.2 rfl]

theorem record_calls {t : τ} (ht : u.ring? t = none) (s : σ) (rest : List (Order τ))
    (past : List (Schedule.Event τ)) :
    u.record ⟨s, .perform t :: rest⟩ past =
      (u.schedule s).record u.ring (u.calls t s) past := by
  simp only [record, ht]

theorem record_runUntil (s : σ) (target : Nat) (rest : List (Order τ))
    (past : List (Schedule.Event τ)) :
    u.record ⟨s, .runUntil target :: rest⟩ past =
      (((World.loop s).due? target).map fun x => .due x.id).toList ++ past := by
  simp only [record, u.loop_schedule]

/-- Every step goes into the account. -/
theorem accounts_step (a : (u.schedule m.world).Accounts past) :
    (u.schedule m.step.world).Accounts (u.record m past) := by
  obtain ⟨s, agenda⟩ := m
  have hloop (l : Loop τ) (hp : (u.schedule s).loop.Precedes l) :
      (u.schedule (World.withLoop s l)).Accounts past := by
    rw [u.schedule_withLoop]
    exact a.withLoop hp
  cases agenda with
  | nil => exact a
  | cons o rest =>
    cases o with
    | perform t =>
      cases hr : u.ring? t with
      | some k =>
        obtain rfl := u.ring?_eq_some.1 hr
        have hs := (u.perform_ring k s).1
        rw [record_ring]
        simp only [Machine.step]
        rw [hs]
        exact a.rings k
      | none =>
        have hs := u.schedule_perform s hr
        rw [record_calls hr]
        simp only [Machine.step]
        rw [hs]
        exact a.record _
    | drain =>
      cases hpop : (World.loop s).popMicrotask? with
      | none =>
        rw [Machine.step_of_popMicrotask?_eq_none hpop]
        exact a
      | some x =>
        obtain ⟨t, l⟩ := x
        rw [Machine.step_of_popMicrotask? hpop]
        rw [← u.loop_schedule] at hpop
        exact hloop l (.popMicrotask hpop)
    | runUntil target =>
      rw [record_runUntil]
      cases hdue : (World.loop s).due? target with
      | none =>
        rw [Machine.step_of_due_eq_none hdue]
        refine hloop _ ?_
        rw [u.loop_schedule]
        exact .of_subset rfl (List.Subset.refl _)
      | some x =>
        have hx : x ∈ (u.schedule s).loop.timeouts := by
          rw [u.loop_schedule, (Loop.due?_eq_some hdue).1]
          exact List.mem_cons_self
        have hl := a.leave hx
        rw [← u.schedule_withLoop, u.loop_schedule] at hl
        rw [Machine.step_of_due hdue]
        exact hl
    | advance d => exact a
    | depart d => exact a
    | halt => exact a

theorem Run.accounts (r : u.Run h m) : (u.schedule m.world).Accounts (u.events h) := by
  induction r with
  | start hl => exact .fresh ((u.loop_schedule _).trans hl)
  | step _ ih => exact accounts_step ih
  | turn _ _ hs ih =>
    rw [← hs] at ih
    exact ih

/-! ### What a cancelled timer still does -/

/-- **A callback that is invoked is performed next**, and it is the one that the timer has. -/
theorem Run.performs_callback (r : u.Run h m) {k : Nat} {e : Schedule.Event τ}
    (he : u.record m (u.events h) = e :: u.events h) (hi : e.Invokes k (u.events h)) :
    ∃ t rest, (u.schedule m.world).timers[k]? = some t ∧
      m.step.agenda = .perform t.callback :: rest := by
  have a := r.accounts
  obtain ⟨s, agenda⟩ := m
  -- the other orders leave nothing to be seen
  have unseen (hn : u.record ⟨s, agenda⟩ (u.events h) = u.events h) : False :=
    absurd (congrArg List.length (hn.symm.trans he)) (Nat.ne_of_lt (Nat.lt_succ_self _))
  cases agenda with
  | nil => exact (unseen rfl).elim
  | cons o rest =>
    cases o with
    | perform t =>
      cases hr : u.ring? t with
      | some j =>
        obtain rfl := u.ring?_eq_some.1 hr
        rw [record_ring] at he
        have ho := (u.perform_ring j s).2
        cases hring : ((u.schedule s).ring u.ring j).2 with
        | none =>
          rw [hring] at he
          exact (List.cons_ne_self _ _ he.symm).elim
        | some c =>
          rw [hring] at he ho
          obtain rfl := (List.cons.inj he).1
          obtain ⟨t, ht, rfl⟩ := Schedule.callback_of_ring hring
          rcases hi with hi | ⟨id, hi, -⟩
          · obtain rfl := Schedule.Event.rung.inj hi
            exact ⟨t, rest, ht, by simp [Machine.step, ho]⟩
          · cases hi
      | none =>
        rw [record_calls hr] at he
        exact (Schedule.not_invokes_of_record he hi).elim
    | runUntil target =>
      rw [record_runUntil] at he
      cases hdue : (World.loop s).due? target with
      | none =>
        rw [hdue] at he
        exact (List.cons_ne_self _ _ he.symm).elim
      | some x =>
        rw [hdue] at he
        obtain rfl := (List.cons.inj he).1
        rcases hi with hi | ⟨id, hi, hm⟩
        · cases hi
        · obtain rfl := Schedule.Event.due.inj hi
          have hx : x ∈ (u.schedule s).loop.timeouts := by
            rw [u.loop_schedule, (Loop.due?_eq_some hdue).1]
            exact List.mem_cons_self
          obtain ⟨t, ht, htask⟩ := a.callback hx hm
          rw [Machine.step_of_due hdue]
          exact ⟨t, _, ht, by rw [htask]⟩
    | drain => exact (unseen rfl).elim
    | advance d => exact (unseen rfl).elim
    | depart d => exact (unseen rfl).elim
    | halt => exact (unseen rfl).elim

/-- **A cancelled timer is silent but for what was skipped.** A timer is cancelled, and not started
again. From then on its callback is not invoked, unless the loop comes to start a timeout that
already waited when the timer was cancelled and that has the callback since the timer was
skipped. -/
theorem Run.cancelled_silent_iff (r : u.Run h m) {after before : List (Schedule.Event τ)} {k : Nat}
    {l : Loop τ} (he : u.events h = after ++ .cancelled k l :: before)
    (hs : .started k ∉ after) :
    Schedule.Silent k after (.cancelled k l :: before) ↔
      ∀ x ∈ l.timeouts, .skipped k x.id ∈ before → .due x.id ∉ after := by
  obtain ⟨hsilenced, hbefore⟩ := r.accounts.silenced he hs
  constructor
  · intro hsilent x _ hskipped hdue
    obtain ⟨later, earlier, rfl⟩ := List.append_of_mem hdue
    refine hsilent later _ earlier rfl (.inr ⟨x.id, rfl, ?_⟩)
    exact List.mem_append_right _ (List.mem_cons_of_mem _ hskipped)
  · rintro hwaits later e earlier rfl (rfl | ⟨id, rfl, hm⟩)
    · exact hsilenced.rung (List.mem_append_right _ List.mem_cons_self)
    · -- the timer has not been skipped since, so the timeout is an old one
      have hdue : .due id ∈ later ++ .due id :: earlier :=
        List.mem_append_right _ List.mem_cons_self
      have hskipped : .skipped k id ∈ before := by
        rcases List.mem_append.1 hm with hm | hm
        · exact absurd (List.mem_append_right _ (List.mem_cons_of_mem _ hm)) hsilenced.skipped
        · simpa using hm
      obtain ⟨x, hx, rfl⟩ := hsilenced.due hdue (hbefore hskipped)
      exact hwaits x hx hskipped hdue

end Timekeeping

end

/-! ### Programs -/

namespace LoopProgram

/-- The calls on the loop and its timers that a call of a program makes. -/
def Desk.timerCalls (d : Desk) : Call → List (Schedule.Call Task)
  | .timer duration repeats body =>
    [.add duration repeats (.body (timerLabel d.schedule.timers.size) body)]
  | .start k => [.start k]
  | .pause k => [.pause k]
  | .cancel k => [.cancel k]
  | .skip k => [.skip k]
  | c => (d.loopCalls c).map .loop

theorem Desk.schedule_call (d : Desk) (c : Call) :
    (d.call c).1.schedule = (d.timerCalls c).foldl (Schedule.make .ring) d.schedule := by
  cases c with
  | clear k =>
    simp only [call, timerCalls, loopCalls]
    cases d.timeouts[k]? <;> rfl
  | _ => rfl

/-- How programs use their timers. -/
def timekeeping : Timekeeping Desk where
  schedule := Desk.schedule
  ring := .ring
  ring?
    | .ring k => some k
    | _ => none
  calls t d := match t with
    | .call c | .request c => d.timerCalls c
    | _ => []
  ring?_eq_some {t k} := by cases t <;> simp
  loop_schedule _ := rfl
  schedule_withLoop _ _ := rfl
  perform_ring _ _ := ⟨rfl, rfl⟩
  schedule_perform {t} d h := by
    cases t with
    | body label calls => rfl
    | ring k => cases h
    | call c =>
      refine Eq.trans ?_ (d.schedule_call c)
      simp only [World.perform, Desk.perform]
      split <;> rfl
    | request c => exact d.schedule_call c

theorem run_timekeeping (calls : List Call) (n : Nat) :
    timekeeping.Run ((List.range n).reverse.map fun i => (given calls).run i)
      ((given calls).run n) := by
  have hr : timekeeping.Run [] (given calls) := .turn (s := {}) _ (.start rfl) rfl
  have hs := hr.steps n
  rwa [List.append_nil] at hs

/-- A program whose timer is skipped and started anew. What was skipped has come by the time that
the callback cancels the timer, and what waits then is of no timer. -/
def resuming : List Call :=
  [.timer 10 true [.cancel 0], .start 0, .skip 0, .settle, .timeout 30 "other" [], .start 0,
    .advance 50]

/-- A program that skips its timer and cancels it before what was skipped has come. -/
def skipping : List Call := [.timer 10 false [], .start 0, .skip 0, .cancel 0, .settle]

/-- A timer that was skipped is silent after it is cancelled, once what was skipped has come. -/
theorem resuming_cancelled_silent : ∃ h after before l,
    timekeeping.Run h ((given resuming).run 27) ∧
      timekeeping.events h = after ++ .cancelled 0 l :: before ∧ .skipped 0 1 ∈ before ∧
        after.length = 1 ∧ Schedule.Silent 0 after (.cancelled 0 l :: before) := by
  have hr := run_timekeeping resuming 27
  have he : timekeeping.events ((List.range 27).reverse.map fun i => (given resuming).run i) =
      [.due 2] ++ .cancelled 0 ⟨10, [], [⟨30, 2, .body "other" []⟩], 5⟩ ::
        [.rung 0, .due 3, .started 0, .cancelled 0 ⟨0, [], [], 2⟩, .due 1, .skipped 0 1,
          .started 0] := rfl
  have hs : .started 0 ∉ [(.due 2 : Schedule.Event Task)] := by simp
  refine ⟨_, _, _, _, hr, he, by simp, rfl, (hr.cancelled_silent_iff he hs).2 ?_⟩
  intro x hx hskipped
  obtain rfl := List.mem_singleton.1 hx
  simp at hskipped

/-- What was skipped before a timer was cancelled still comes. -/
theorem skipping_not_cancelled_silent : ∃ h after before l,
    timekeeping.Run h ((given skipping).run 12) ∧
      timekeeping.events h = after ++ .cancelled 0 l :: before ∧ .started 0 ∉ after ∧
        ¬ Schedule.Silent 0 after (.cancelled 0 l :: before) := by
  refine ⟨_, [.due 1], [.skipped 0 1, .started 0], _, run_timekeeping skipping 12, rfl, by simp,
    fun hsilent => ?_⟩
  exact hsilent [] (.due 1) [] rfl (.inr ⟨1, rfl, by simp⟩)

end LoopProgram

end Novella
