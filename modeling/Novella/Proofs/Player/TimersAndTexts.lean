import Mathlib.Algebra.GroupWithZero.Nat
import Novella.Proofs.Player.HostRuns

/-!
# Timers and texts that are left behind

A script that is left leaves timers, timeouts and shown texts behind. They are numbered, and the
numbers are those of the time when they were made: a callback finishes an instruction that has been
dispatched, or wakes a text that has begun. Timers that ring again and again leave time between two
rings. And when nothing is left to do no task keeps a text, so that a text is kept by nothing but
the active handler.

## Main definitions

* `Schedule.Sound` — the timers of a schedule are in order
* `Player.Tidy` — whatever a schedule of a player holds has been numbered
* `owed` — the tasks that keep a text and are still to let it go
* `Player.Settles` — an operation keeps all of this

## Main results

* `Run.tidy` — a player at rest is tidy, and no task keeps a text
-/

namespace Novella

open Player

/-! ### Schedules -/

namespace Schedule

variable {τ : Type} {f : Nat → τ} {Q Q' : τ → Prop} {s : Schedule τ}

/-- Callbacks have a property, and timeouts are those of timers or have it, too. Timeouts stand in
their order and have been numbered, and a timer that repeats leaves time between two rings. -/
structure Sound (f : Nat → τ) (Q : τ → Prop) (s : Schedule τ) : Prop where
  /-- Callbacks have the property, and repeated rings have time between them. -/
  timers : ∀ t ∈ s.timers, Q t.callback ∧ (t.repeats = true → 0 < t.duration)
  /-- Timeouts are numbered. Each belongs to a timer or has the property. -/
  timeouts : ∀ u ∈ s.loop.timeouts, u.id < s.loop.nextId ∧
    (Q u.task ∨ ∃ k < s.timers.size, u.task = f k)
  /-- Timeouts stand in the order of their deadlines. -/
  sorted : s.loop.timeouts.Pairwise (fun t u => t.deadline ≤ u.deadline)

namespace Sound

theorem mono (h : s.Sound f Q) (hQ : ∀ {t}, Q t → Q' t) : s.Sound f Q' :=
  ⟨fun t ht => (h.timers t ht).imp_left hQ,
    fun u hu => (h.timeouts u hu).imp_right (·.imp_left hQ), h.sorted⟩

theorem getElem? (h : s.Sound f Q) {k : Nat} {t : Timer τ} (ht : s.timers[k]? = some t) :
    Q t.callback ∧ (t.repeats = true → 0 < t.duration) :=
  h.timers t (Array.mem_of_getElem? ht)

theorem addTimer (h : s.Sound f Q) {t : Timer τ} (ht : Q t.callback)
    (hd : t.repeats = true → 0 < t.duration) : (s.addTimer t).Sound f Q := by
  refine ⟨fun x hx => ?_, fun u hu => ?_, h.sorted⟩
  · rcases Array.mem_push.1 hx with hx | rfl
    · exact h.timers x hx
    · exact ⟨ht, hd⟩
  · obtain ⟨hid, hu⟩ := h.timeouts u hu
    refine ⟨hid, hu.imp_right ?_⟩
    rintro ⟨k, hk, heq⟩
    exact ⟨k, by rw [Schedule.addTimer, Array.size_push]; omega, heq⟩

theorem setTimer (h : s.Sound f Q) (k : Nat) {t : Timer τ} (ht : Q t.callback)
    (hd : t.repeats = true → 0 < t.duration) : (s.setTimer k t).Sound f Q := by
  refine ⟨fun x hx => ?_, fun u hu => ?_, h.sorted⟩
  · rcases Array.mem_or_eq_of_mem_setIfInBounds hx with hx | rfl
    · exact h.timers x hx
    · exact ⟨ht, hd⟩
  · rw [Schedule.setTimer, Array.size_setIfInBounds]
    exact h.timeouts u hu

theorem setTimeout (h : s.Sound f Q) (d : Nat) {t : τ} (ht : Q t ∨ ∃ k < s.timers.size, t = f k) :
    { s with loop := s.loop.setTimeout d t }.Sound f Q := by
  refine ⟨h.timers, fun u hu => ?_, Loop.pairwise_insertTimeout h.sorted⟩
  rcases Loop.mem_insertTimeout.1 hu with rfl | hu
  · exact ⟨Nat.lt_succ_self _, ht⟩
  · exact ⟨Nat.lt_succ_of_lt (h.timeouts u hu).1, (h.timeouts u hu).2⟩

theorem arm (h : s.Sound f Q) {k : Nat} (hk : k < s.timers.size) {t : Timer τ} (ht : Q t.callback)
    (hd : t.repeats = true → 0 < t.duration) : (s.arm f k t).Sound f Q := by
  have hs := h.setTimer k (t := { t with
    state := .running, handle := some s.loop.nextId, scheduledAt := s.loop.now }) ht hd
  refine hs.setTimeout _ (.inr ⟨k, ?_, rfl⟩)
  rw [Schedule.setTimer, Array.size_setIfInBounds]
  exact hk

theorem lt_size {k : Nat} {t : Timer τ} (ht : s.timers[k]? = some t) : k < s.timers.size :=
  (Array.getElem?_eq_some_iff.1 ht).1

theorem start (h : s.Sound f Q) (k : Nat) : (s.start f k).Sound f Q := by
  rw [Schedule.start]
  split
  · next t ht =>
    split
    · exact h
    · exact h.arm (lt_size ht) (h.getElem? ht).1 (h.getElem? ht).2
  · exact h

/-- Timeouts may be taken out. -/
theorem of_sublist (h : s.Sound f Q) {us : List (Timeout τ)} (hu : us.Sublist s.loop.timeouts)
    (now : Nat) (ms : List τ) :
    { s with loop := { s.loop with now, microtasks := ms, timeouts := us } }.Sound f Q :=
  ⟨h.timers, fun u hm => h.timeouts u (hu.subset hm), h.sorted.sublist hu⟩

theorem disarm (h : s.Sound f Q) {k : Nat} {t : Timer τ} (ht : s.timers[k]? = some t)
    (x : TimerState) : (s.disarm k t x).Sound f Q := by
  obtain ⟨hq, hd⟩ := h.getElem? ht
  have hs := h.setTimer k (t := { t with state := x, handle := none }) hq hd
  rw [Schedule.disarm]
  cases t.handle with
  | none => exact hs
  | some id => exact hs.of_sublist (List.filter_sublist ..) s.loop.now s.loop.microtasks

theorem cancel (h : s.Sound f Q) (k : Nat) : (s.cancel k).Sound f Q := by
  rw [Schedule.cancel]
  split
  · next t ht => exact h.disarm ht _
  · exact h

theorem skip (h : s.Sound f Q) (k : Nat) : (s.skip k).1.Sound f Q := by
  rw [Schedule.skip]
  split
  · next t ht =>
    have hd := (h.disarm ht .finished).setTimeout 0 (.inl (h.getElem? ht).1)
    split
    · exact hd
    · exact hd
    · exact h
  · exact h

theorem ring (h : s.Sound f Q) (k : Nat) : (s.ring f k).1.Sound f Q := by
  rw [Schedule.ring]
  split
  · next t ht =>
    obtain ⟨hq, hd⟩ := h.getElem? ht
    split
    · dsimp only
      split
      · exact h.arm (lt_size ht) hq hd
      · exact h.setTimer k hq hd
    · exact h
  · exact h

end Sound

end Schedule

/-! ### Tidy players -/

/-- Only a text with a delay is shown by the character. -/
theorem Reveal.pos_of_scan_eq_tick {delay : Nat} {text : List Char}
    (h : Reveal.scan delay text = .tick) : 0 < delay := by
  refine Nat.pos_of_ne_zero ?_
  rintro rfl
  cases text with
  | nil => cases h
  | cons c cs =>
    rw [Reveal.scan] at h
    split at h
    · cases h
    · rw [if_pos rfl] at h
      repeat' split at h
      all_goals cases h

namespace Player

/-- A callback that has been numbered: it finishes an instruction that has been dispatched, or moves
a text on that has begun. -/
def Numbers (p : Player) : Task → Prop
  | .finish (.instruction g) => g ≤ p.generation
  | .reveal r a => r < p.reveals.size ∧ (a = .tick ∨ a = .wake)
  | _ => False

/-- Whatever the schedule holds has been numbered. -/
def Tidy (p : Player) : Prop := p.schedule.Sound .ring p.Numbers

/-- How many tasks keep a text. -/
def holds (p : Player) (r : Nat) : Nat := (p.reveals[r]?.map Reveal.holds).getD 0

end Player

/-- How often the order is going to let a text go. -/
def Order.owes (r : Nat) : Order Task → Nat
  | .perform (.reveal s .release) => if s = r then 1 else 0
  | .perform (.conclude _ (.pending (.reveal s))) => if s = r then 1 else 0
  | _ => 0

/-- How often the orders are going to let a text go. -/
def owed (r : Nat) (orders : Orders) : Nat := (orders.map (Order.owes r)).sum

@[simp] theorem owed_nil (r : Nat) : owed r [] = 0 := rfl

@[simp] theorem owed_cons (r : Nat) (o : Order Task) (orders : Orders) :
    owed r (o :: orders) = o.owes r + owed r orders := List.sum_cons

@[simp] theorem owed_append (r : Nat) (orders more : Orders) :
    owed r (orders ++ more) = owed r orders + owed r more := by
  simp [owed]

@[simp] theorem owes_release (r s : Nat) :
    Order.owes r (.perform (.reveal s .release)) = if s = r then 1 else 0 := rfl

theorem owed_eq_zero {r : Nat} {orders : Orders} (h : ∀ o ∈ orders, o.owes r = 0) :
    owed r orders = 0 := by
  induction orders with
  | nil => rfl
  | cons o orders ih =>
    rw [owed_cons, h o List.mem_cons_self, ih fun x hx => h x (List.mem_cons_of_mem _ hx)]

theorem owes_of_isTimed {t : Task} (h : t.IsTimed) (r : Nat) : Order.owes r (.perform t) = 0 := by
  cases t with
  | ring k => rfl
  | finish t => rfl
  | reveal s a =>
    rcases h with rfl | rfl
    · rfl
    · rfl
  | _ => exact h.elim

theorem owed_calls (r : Nat) (a : Audience) (body : List HostCall) :
    owed r (body.map (fun c => .perform (.call a c))) = 0 := by
  refine owed_eq_zero fun o ho => ?_
  obtain ⟨c, -, rfl⟩ := List.mem_map.1 ho
  rfl

namespace Player

/-- The operation leaves the player tidy, and texts are kept by tasks that are going to let them
go. -/
structure Settles (p : Player) (x : Player × Orders) : Prop where
  /-- The player is tidy. -/
  tidy : x.1.Tidy
  /-- Generations follow each other. -/
  le : p.generation ≤ x.1.generation
  /-- Texts stay. -/
  size : p.reveals.size ≤ x.1.reveals.size
  /-- Each text is kept by its tasks. -/
  holds (r : Nat) : x.1.holds r = p.holds r + owed r x.2

variable {p q q' : Player} {x : Player × Orders}

theorem Numbers.mono {t : Task} (h : p.Numbers t) (hg : p.generation ≤ q.generation)
    (hr : p.reveals.size ≤ q.reveals.size) : q.Numbers t := by
  unfold Numbers at h ⊢
  split at h
  · exact Nat.le_trans h hg
  · exact ⟨Nat.lt_of_lt_of_le h.1 hr, h.2⟩
  · exact h.elim

theorem holds_of_eq (h : q.reveals = p.reveals) (r : Nat) : q.holds r = p.holds r := by
  unfold Player.holds
  rw [h]

theorem holds_modify (p : Player) (s : Nat) (f : Reveal → Reveal) (r : Nat) :
    (p.modifyReveal s f).holds r =
      if s = r then (p.reveals[r]?.map (fun v => (f v).holds)).getD 0 else p.holds r := by
  unfold Player.holds modifyReveal
  dsimp only
  rw [Array.getElem?_modify]
  split
  · rw [Option.map_map]
    rfl
  · rfl

namespace Settles

theorem refl (h : p.Tidy) : Settles p (p, []) :=
  ⟨h, Nat.le_refl _, Nat.le_refl _, fun _ => rfl⟩

/-- What comes after. -/
theorem trans (h : Settles p (q, [])) (h' : Settles q x) : Settles p x := by
  refine ⟨h'.tidy, Nat.le_trans h.le h'.le, Nat.le_trans h.size h'.size, fun r => ?_⟩
  rw [h'.holds, h.holds]
  rfl

/-- A change that leaves the texts alone. -/
theorem of_sound (h : Settles p (q, []))
    (hs : q.schedule.Sound .ring q.Numbers → q'.schedule.Sound .ring q.Numbers)
    (hg : q.generation ≤ q'.generation) (hr : q'.reveals = q.reveals) : Settles p (q', []) := by
  have hsize : q.reveals.size ≤ q'.reveals.size := Nat.le_of_eq (by rw [hr])
  exact h.trans ⟨(hs h.tidy).mono fun ht => ht.mono hg hsize, hg, hsize, holds_of_eq hr⟩

/-- A change that leaves the schedule, the generation and the texts alone. -/
theorem of_eq (h : Settles p (q, [])) (hs : q'.schedule = q.schedule)
    (hg : q'.generation = q.generation) (hr : q'.reveals = q.reveals) : Settles p (q', []) :=
  h.of_sound (fun hq => hs ▸ hq) (Nat.le_of_eq hg.symm) hr

theorem of_inside (h : Settles p (q, [])) (hq : q'.inside = q.inside) : Settles p (q', []) := by
  have hs := congrArg Player.schedule hq
  have hg := congrArg Player.generation hq
  have hr := congrArg Player.reveals hq
  exact h.of_eq hs hg hr

theorem append (h : Settles p x) {orders : Orders} (ho : ∀ r, owed r orders = 0) :
    Settles p (x.1, x.2 ++ orders) := by
  refine ⟨h.tidy, h.le, h.size, fun r => ?_⟩
  rw [owed_append, ho, Nat.add_zero]
  exact h.holds r

theorem concat (h : Settles p x) {o : Order Task} (ho : ∀ r, o.owes r = 0) :
    Settles p (x.1, x.2 ++ [o]) :=
  h.append fun r => by rw [owed_cons, ho, owed_nil]

theorem single (h : Settles p (q, [])) {o : Order Task} (ho : ∀ r, o.owes r = 0) :
    Settles p (q, [o]) := h.concat ho

theorem calls (h : Settles p (q, [])) (a : Audience) (body : List HostCall) :
    Settles p (q, body.map (fun c => .perform (.call a c))) :=
  h.append fun r => owed_calls r a body

/-! ### Signals -/

theorem note (h : Settles p (q, [])) (e : Event) : Settles p (q.note e, []) := h.of_eq rfl rfl rfl

theorem logError (h : Settles p (q, [])) (s : String) : Settles p (q.logError s, []) := h.note _

theorem trace (h : Settles p (q, [])) (c : LogCategory) (l : LogLevel) (s : String) :
    Settles p (q.trace c l s, []) := h.of_inside (inside_trace ..)

theorem react (h : Settles p (q, [])) (k : Nat) (o : Occurrence) : Settles p (q.react k o) := by
  rw [Player.react]
  dsimp only
  split
  · split
    · refine calls ?_ _ _
      exact h.of_eq rfl rfl rfl
    · exact h.note _
  · exact h.note _

theorem passOn (h : Settles p (q, [])) (s : Signal) : Settles p (q.passOn s) := by
  rw [Player.passOn]
  split
  · exact h.react ..
  · exact h.of_eq rfl rfl rfl

theorem receive (h : Settles p (q, [])) (s : Signal) (r : Receiver) :
    Settles p (q.receive s r) := by
  cases r with
  | listener k => exact h.react ..
  | book => exact (h.of_inside (inside_enter q s)).passOn s

theorem emit (h : Settles p (q, [])) (s : Signal) : Settles p (q.emit s) := by
  rw [Player.emit]
  split
  · exact h.receive ..
  · exact h.of_eq rfl rfl rfl

theorem connect (h : Settles p (q, [])) (k : Hook) (l : Listener) : Settles p (q.connect k l) := by
  unfold Player.connect connectReceiver
  dsimp only
  split
  · refine receive ?_ ..
    exact h.of_eq rfl rfl rfl
  · exact h.of_eq rfl rfl rfl

theorem connectToBook (h : Settles p (q, [])) (k : Hook) (l : Listener) :
    Settles p (q.connectToBook k l) := by
  rw [Player.connectToBook]
  dsimp only
  split
  · refine react ?_ ..
    exact h.of_eq rfl rfl rfl
  · exact h.of_eq rfl rfl rfl

/-! ### Cells -/

theorem store (h : Settles p (q, [])) (c : CellName) (r : Cell c.Value Reaction × Bool) :
    Settles p (q.store c r, []) := by
  rw [Player.store]
  split
  · exact h.of_sound (fun hs => hs.of_sublist (List.Sublist.refl _) _ _) (Nat.le_refl _) rfl
  · exact h.of_eq rfl rfl rfl

theorem write (h : Settles p (q, [])) (c : CellName) (v : c.Value) :
    Settles p (q.write c v, []) := h.store ..

theorem notify (h : Settles p (q, [])) (c : CellName) : Settles p (q.notify c, []) := h.store ..

theorem observe (h : Settles p (q, [])) (c : CellName) (r : Reaction) (accepts : c.Value → Bool)
    (once : Bool) : Settles p (q.observe c r accepts once, []) := h.store ..

theorem playEffect (h : Settles p (q, [])) (name : String) : Settles p (q.playEffect name, []) :=
  (h.write ..).notify ..

theorem present (h : Settles p (q, [])) (c : Context) (v : Progress) :
    Settles p (q.present c v, []) := by
  unfold Player.present
  dsimp only
  repeat' first | exact h | apply Settles.write

theorem foldl_write (h : Settles p (q, [])) (ws : List CellWrite) :
    Settles p (ws.foldl (fun q w => q.write w.cell w.value) q, []) := by
  induction ws generalizing q with
  | nil => exact h
  | cons w ws ih => exact ih (h.write ..)

theorem storeOutcome (h : Settles p (q, [])) (opcode argument : String)
    (r : Except AssignmentError Assignment.Outcome) :
    Settles p (q.storeOutcome opcode argument r, []) := by
  cases r with
  | ok o => exact (h.write ..).trace ..
  | error e => exact h.logError _

/-! ### Timers -/

theorem startTimer (h : Settles p (q, [])) {d : Nat} {repeats : Bool} {t : Task}
    (ht : q.Numbers t) (hd : repeats = true → 0 < d) :
    Settles p (q.startTimer d repeats t, []) :=
  h.of_sound (fun hs => (hs.addTimer ht hd).start _) (Nat.le_refl _) rfl

theorem cancelTimer (h : Settles p (q, [])) (k : Nat) : Settles p (q.cancelTimer k, []) :=
  h.of_sound (·.cancel k) (Nat.le_refl _) rfl

theorem skipTimer (h : Settles p (q, [])) (k : Nat) :
    Settles p ({ q with schedule := (q.schedule.skip k).1 }, []) :=
  h.of_sound (·.skip k) (Nat.le_refl _) rfl

theorem ringTimer (h : Settles p (q, [])) (k : Nat) :
    Settles p ({ q with schedule := (q.schedule.ring .ring k).1 }, []) :=
  h.of_sound (·.ring k) (Nat.le_refl _) rfl

theorem waitFor (h : Settles p (q, [])) (d : Nat) {t : Ticket} (ht : q.Numbers (.finish t)) :
    Settles p ((q.waitFor d t).1, []) := by
  rw [Player.waitFor]
  split
  · exact h
  · exact h.startTimer ht Bool.noConfusion

/-! ### Shown texts -/

/-- A change of a text that leaves it to those who keep it. -/
theorem modifyReveal (h : Settles p (q, [])) (r : Nat) {f : Reveal → Reveal}
    (hf : ∀ v, (f v).holds = v.holds) : Settles p (q.modifyReveal r f, []) := by
  have hsize : q.reveals.size ≤ (q.modifyReveal r f).reveals.size :=
    Nat.le_of_eq (by rw [Player.modifyReveal, Array.size_modify])
  refine h.trans ⟨h.tidy.mono fun ht => ht.mono (Nat.le_refl _) hsize, Nat.le_refl _, hsize,
    fun s => ?_⟩
  rw [holds_modify]
  simp only [hf]
  split <;> rfl

theorem stopReveal (h : Settles p (q, [])) (r : Nat) (v : Reveal) (mode : Reveal.Mode) :
    Settles p (q.stopReveal r v mode, []) := by
  unfold Player.stopReveal
  dsimp only
  split
  · exact (h.cancelTimer _).modifyReveal _ fun _ => rfl
  · exact h.modifyReveal _ fun _ => rfl

theorem armReveal (h : Settles p (q, [])) {r : Nat} (hr : r < q.reveals.size) (mode : Reveal.Mode)
    {d : Nat} {repeats : Bool} (hd : repeats = true → 0 < d) {a : Reveal.Act}
    (ha : a = .tick ∨ a = .wake) : Settles p (q.armReveal r mode d repeats a, []) :=
  (h.startTimer (t := .reveal r a) ⟨hr, ha⟩ hd).modifyReveal _ fun _ => rfl

/-! ### Instructions -/

theorem carryOut (h : Settles p (q, [])) (cue : Cue) {t : Ticket} (ht : q.Numbers (.finish t)) :
    Settles p ((q.carryOut cue t).1, []) := by
  refine h.trans ?_
  have hw := (refl h.tidy).foldl_write cue.writes
  unfold Player.carryOut
  dsimp only
  split
  · next name _ =>
    have he := hw.playEffect name
    exact he.waitFor _ (ht.mono he.le he.size)
  · exact hw.waitFor _ (ht.mono hw.le hw.size)

theorem branch (h : Settles p (q, [])) (argument : String) :
    Settles p (q.branch argument, []) := by
  obtain ⟨events, queue, hq, -⟩ := q.branch_eq argument
  rw [hq]
  exact h.of_eq rfl rfl rfl

theorem skip (h : Settles p (q, [])) (argument : String) : Settles p (q.skip argument, []) := by
  rw [Player.skip]
  split
  · exact h.logError _
  · exact h.logError _
  · exact (h.trace ..).write ..

theorem beginReveal (h : q.Tidy) (text : String) (t : Ticket) :
    Settles q (q.beginReveal text t,
      [.perform (.reveal q.reveals.size .run),
        .perform (.conclude t (.pending (.reveal q.reveals.size)))]) := by
  have hsize : q.reveals.size ≤ (q.beginReveal text t).reveals.size := by
    rw [Player.beginReveal, Array.size_push]
    exact Nat.le_succ _
  refine ⟨Schedule.Sound.mono h fun ht => ht.mono (Nat.le_refl _) hsize, Nat.le_refl _, hsize,
    fun r => ?_⟩
  simp only [Player.holds, Player.beginReveal, Array.getElem?_push, owed_cons, owed_nil,
    Order.owes]
  split
  · next hr => simp [hr]
  · next hr => simp [Ne.symm hr]

theorem execute (h : q.Tidy) (command : Command) (opcode argument : String) {t : Ticket}
    (ht : q.Numbers (.finish t)) :
    Settles q ((q.execute command opcode argument t).1,
      (q.execute command opcode argument t).2.1 ++
        [Order.perform (Task.conclude t (q.execute command opcode argument t).2.2)]) := by
  have hq := refl h
  have hd (delay : Option Nat) : Settles q ({ q with delay }, []) := hq.of_eq rfl rfl rfl
  cases command with
  | text => exact beginReveal h argument t
  | pageBreak => exact (hq.emit _).concat fun _ => rfl
  | lineBreak => exact (hq.emit _).concat fun _ => rfl
  | click => exact hq.concat fun _ => rfl
  | wait =>
    simp only [Player.execute]
    split
    · next ms _ =>
      refine (hq.waitFor ms.toNat ht).concat fun r => ?_
      rw [Player.waitFor]
      split <;> rfl
    · exact (hq.logError _).concat fun _ => rfl
  | setDelay =>
    simp only [Player.execute]
    split
    · exact (hd _).concat fun _ => rfl
    · exact (hq.logError _).concat fun _ => rfl
  | resetDelay => exact (hd none).concat fun _ => rfl
  | branch => exact (hq.branch _).concat fun _ => rfl
  | skip => exact (hq.skip _).concat fun _ => rfl
  | exit => exact ((hq.trace ..).emit _).concat fun _ => rfl
  | cue c =>
    simp only [Player.execute]
    split
    · next cue _ =>
      refine (hq.carryOut cue ht).concat fun r => ?_
      unfold Player.carryOut
      dsimp only
      rw [Player.waitFor]
      split <;> rfl
    · exact (hq.logError _).concat fun _ => rfl
  | assign op => exact (hq.storeOutcome ..).concat fun _ => rfl
  | step delta => exact (hq.storeOutcome ..).concat fun _ => rfl
  | host b body =>
    have hc : Settles q ({ q.note (.called opcode argument) with tickets := q.tickets.push t },
        body.map (fun c => Order.perform (.call .nobody c))) := by
      refine calls ?_ _ _
      exact (hq.note (.called opcode argument)).of_eq rfl rfl rfl
    have hf := hc.concat (o := .perform (.finish t)) fun _ => rfl
    cases b with
    | finishThenComplete => exact hf.concat fun _ => rfl
    | finishThenHold => exact hf.concat fun _ => rfl
    | _ => exact hc.concat fun _ => rfl

theorem dispatch (h : Settles p (q, [])) (i : Instruction) : Settles p (q.dispatch i) := by
  rw [Player.dispatch]
  dsimp only
  have hd : Settles p ({ q with
      generation := q.generation + 1
      phase := .executing
      live := .instruction (q.generation + 1) :: q.live }, []) :=
    h.of_sound id (Nat.le_succ _) rfl
  split
  · exact hd.trans (execute hd.tidy _ _ _ (Nat.le_refl _))
  · exact hd.single fun _ => rfl
  · exact (hd.logError _).single fun _ => rfl

theorem runNext (h : Settles p (q, [])) : Settles p q.runNext := by
  rw [Player.runNext]
  split
  · refine dispatch ?_ _
    exact h.of_eq rfl rfl rfl
  · exact h.write ..

theorem finish (h : Settles p (q, [])) (t : Ticket) : Settles p (q.finish t) := by
  rw [Player.finish]
  split
  · dsimp only
    split
    · split
      · refine runNext ?_
        exact h.of_eq rfl rfl rfl
      · refine trace ?_ ..
        exact h.of_eq rfl rfl rfl
    · refine note ?_ _
      exact h.of_eq rfl rfl rfl
  · exact h

/-! ### Acts of a text -/

theorem proceed (h : q.Tidy) {r : Nat} (hr : r < q.reveals.size) (v : Reveal) :
    Settles q (q.proceed r v) := by
  have goOn (rest : List Char) (mode : Reveal.Mode) :=
    (refl h).modifyReveal r (f := fun v => { v with rest, mode }) fun _ => rfl
  rw [Player.proceed]
  dsimp only
  split
  · exact ((goOn [] .done).trace ..).finish _
  · next ms rest _ =>
    have hw := (goOn rest .running).trace .text .trace s!"inline wait {ms.toNat}ms"
    exact hw.armReveal (Nat.lt_of_lt_of_le hr hw.size) _ Bool.noConfusion (.inr rfl)
  · exact (goOn _ .awaitingInput).trace ..
  · exact ((goOn _ .awaitingInput).trace ..).emit _
  · exact ((goOn _ .pageEnd).trace ..).emit _
  · exact ((goOn _ .running).emit _).concat fun _ => rfl
  · next hs => exact (refl h).armReveal hr _ (fun _ => Reveal.pos_of_scan_eq_tick hs) (.inl rfl)

theorem runReveal (h : Settles p (q, [])) (r : Nat) : Settles p (q.runReveal r) := by
  unfold Player.runReveal
  dsimp only
  have hm := h.modifyReveal r (f := fun v => { v with mode := .running }) fun _ => rfl
  split
  · next v hv => exact hm.trans (proceed hm.tidy (Array.getElem?_eq_some_iff.1 hv).1 v)
  · exact hm

theorem tickReveal (h : Settles p (q, [])) (r : Nat) (v : Reveal) :
    Settles p (q.tickReveal r v) := by
  rw [Player.tickReveal]
  split
  · exact h.single fun _ => rfl
  · next c rest _ =>
    dsimp only
    split
    · exact h.single fun _ => rfl
    · have hm := h.modifyReveal r (f := fun v => { v with rest }) fun _ => rfl
      exact (hm.emit _).concat fun _ => rfl

/-- What is done with a text is the last thing to keep it. -/
theorem keeping (h : Settles p (q, [])) {r : Nat} (hr : r < q.reveals.size)
    {f : Player → Player × Orders} (hf : ∀ {u : Player}, Settles u (u, []) → Settles u (f u)) :
    Settles p (q.keeping r f) := by
  have hsize : (q.modifyReveal r fun v => { v with holds := v.holds + 1 }).reveals.size =
      q.reveals.size := Array.size_modify
  have hm : (q.modifyReveal r fun v => { v with holds := v.holds + 1 }).Tidy :=
    Schedule.Sound.mono h.tidy fun ht => ht.mono (Nat.le_refl _) (Nat.le_of_eq hsize.symm)
  have hu := hf (refl hm)
  refine h.trans ⟨hu.tidy, hu.le, hsize ▸ hu.size, fun s => ?_⟩
  unfold Player.keeping
  dsimp only
  rw [hu.holds, owed_append, owed_cons, owed_nil, owes_release, holds_modify]
  split
  · next hrs =>
    subst hrs
    rw [Player.holds, Array.getElem?_eq_getElem hr]
    simp only [Option.map_some, Option.getD_some]
    omega
  · omega

theorem nudgeReveal (h : Settles p (q, [])) (r : Nat) (v : Reveal) :
    Settles p (q.nudgeReveal r v) := by
  rw [Player.nudgeReveal]
  split
  · have hs := (h.stopReveal r v .running).modifyReveal r
      (f := fun v => { v with rest := Reveal.afterStretch v.rest }) fun _ => rfl
    dsimp only
    split
    · exact hs.single fun _ => rfl
    · exact (hs.emit _).concat fun _ => rfl
  · exact h.runReveal r
  · have hm := h.modifyReveal r (f := fun v => { v with mode := .done }) fun _ => rfl
    exact hm.finish _
  · split
    · exact h.skipTimer _
    · exact h
  · exact h
  · exact h

/-- A text acts, unless it is let go. -/
theorem actReveal (h : Settles p (q, [])) (r : Nat) {a : Reveal.Act} (ha : a ≠ .release) :
    Settles p (q.actReveal r a) := by
  rw [Player.actReveal]
  split
  · exact h
  · next v hv =>
    have hr := (Array.getElem?_eq_some_iff.1 hv).1
    cases a with
    | run => exact h.runReveal r
    | resume =>
      dsimp only
      split
      · exact h.trans (proceed h.tidy hr v)
      · exact h
    | tick =>
      dsimp only
      split
      · exact h.keeping hr fun hu => hu.tickReveal r v
      · exact h
    | ticked =>
      dsimp only
      split
      · exact (h.stopReveal ..).runReveal r
      · exact h
    | wake =>
      dsimp only
      split
      · exact h.keeping hr fun hu => hu.runReveal r
      · exact h
    | release => exact absurd rfl ha

/-! ### Input and interruption -/

theorem advanceHandler (h : Settles p (q, [])) (x : Handler) :
    Settles p (q.advanceHandler x) := by
  cases x with
  | finish t => exact h.finish t
  | stuck => exact h
  | timer k => exact h.skipTimer k
  | reveal r =>
    rw [Player.advanceHandler]
    split
    · next v hv => exact h.keeping (Array.getElem?_eq_some_iff.1 hv).1 fun hu => hu.nudgeReveal r v
    · exact h
  | host b t =>
    cases b with
    | onNext => exact (h.finish t).concat fun _ => rfl
    | _ => exact h.note _

theorem next (h : Settles p (q, [])) : Settles p q.next := by
  rw [Player.next]
  split
  · exact h.advanceHandler _
  · exact h

theorem cancelHandler (h : Settles p (q, [])) (x : Handler) :
    Settles p (q.cancelHandler x, []) := by
  cases x with
  | timer k => exact h.cancelTimer k
  | reveal r =>
    rw [Player.cancelHandler]
    split
    · exact h.stopReveal ..
    · exact h
  | host b t =>
    cases b with
    | cancellable => exact h.note _
    | _ => exact h
  | _ => exact h

theorem interrupt (h : Settles p (q, [])) : Settles p (q.interrupt, []) := by
  have hi :
      Settles p ({ q with generation := q.generation + 1, queue := [], active := none }, []) :=
    h.of_sound id (Nat.le_succ _) rfl
  unfold Player.interrupt
  dsimp only
  split
  · exact hi.cancelHandler _
  · exact hi

/-! ### Scenes and lines -/

theorem goto (h : Settles p (q, [])) (scene : String) (index : UInt64) :
    Settles p (q.goto scene index, []) := by
  rw [Player.goto]
  dsimp only
  split
  · exact (h.interrupt.write ..).write ..
  · split
    · exact ((h.interrupt.notify ..).write ..).notify ..
    · exact (h.interrupt.write ..).notify ..

theorem loadScene (h : Settles p (q, [])) (scene : String) :
    Settles p (q.loadScene scene, []) := by
  rw [Player.loadScene]
  dsimp only
  split
  · exact h.interrupt.of_eq rfl rfl rfl
  · refine trace ?_ ..
    exact h.interrupt.of_eq rfl rfl rfl

theorem runLine (h : Settles p (q, [])) (index : UInt64) : Settles p (q.runLine index) := by
  rw [Player.runLine]
  split
  · exact h.trace ..
  · dsimp only
    split
    · refine logError ?_ _
      exact h.interrupt.of_eq rfl rfl rfl
    · split
      · refine note ?_ _
        exact h.interrupt.of_eq rfl rfl rfl
      · refine runNext ?_
        exact (h.interrupt.trace ..).of_eq rfl rfl rfl

theorem completeLoad (h : Settles p (q, [])) (r : LoadRequest)
    (result : Except SourceError (List String)) : Settles p ((q.completeLoad r result).1, []) := by
  unfold Player.completeLoad
  split
  · exact h.trace ..
  · split
    · refine notify ?_ _
      exact (h.trace ..).of_eq rfl rfl rfl
    · refine logError ?_ _
      exact h.of_eq rfl rfl rfl

theorem load (h : Settles p (q, [])) : Settles p q.load := by
  unfold Player.load takeRequest
  have ht : Settles p ({ q with loadRequest := none }, []) := h.of_eq rfl rfl rfl
  cases q.loadRequest with
  | none => exact ht
  | some r => exact (ht.completeLoad ..).append fun _ => rfl

/-! ### Calls and observers -/

theorem call (h : Settles p (q, [])) (c : HostCall) :
    Settles p ((q.call c).1, (q.call c).2.2) := by
  cases c with
  | next => exact h.next
  | settle => exact h.single fun _ => rfl
  | advance d => exact h.single fun _ => rfl
  | runMicrotasks => exact h.single fun _ => rfl
  | goto scene index => exact h.goto ..
  | restore c v => exact (h.present c v).goto ..
  | serve => exact h.append fun _ => rfl
  | take =>
    rw [Player.call, takeRequest]
    cases q.loadRequest <;> exact h.of_eq rfl rfl rfl
  | complete k lines =>
    simp only [Player.call]
    split
    · exact h.completeLoad ..
    · exact h
  | set c v => exact h.write c v
  | notify c => exact h.notify c
  | effect name => exact h.playEffect name
  | setVariable token v =>
    simp only [Player.call]
    split
    · exact h.write ..
    · exact h
  | getVariable token =>
    simp only [Player.call]
    split <;> exact h
  | observe c accepts once trigger times body =>
    refine observe ?_ ..
    exact h.of_eq rfl rfl rfl
  | unobserve c k =>
    simp only [Player.call]
    split
    · exact h.store ..
    · exact h
  | speed s => exact h.write ..
  | register opcode b body =>
    simp only [Player.call]
    split
    · exact h.of_eq rfl rfl rfl
    · refine single (o := .halt) ?_ fun _ => rfl
      exact h.of_eq rfl rfl rfl
  | finish k =>
    simp only [Player.call]
    split
    · exact h.finish _
    · exact h

theorem reactTo (h : Settles p (q, [])) (r : Reaction) (c : CellName) (v : c.Value) :
    Settles p (q.reactTo r c v) := by
  unfold Player.reactTo
  split
  · exact h.loadScene _
  · exact h.runLine _
  · exact h.of_inside (inside_openPage q)
  · exact h.of_eq rfl rfl rfl
  · exact h.react ..
  · exact h

theorem hear (h : Settles p (q, [])) (c : CellName) (k : Nat) (v : c.Value) :
    Settles p (perform (.hear c k v) q) := by
  unfold Player.perform
  dsimp only
  split
  · exact (h.store ..).reactTo ..
  · exact h

end Settles

/-! ### Tasks -/

/-- The order is carried out by the operation. If it was one to let a text go, it has done so. -/
structure Discharges (o : Order Task) (p : Player) (x : Player × Orders) : Prop where
  /-- The player is tidy. -/
  tidy : x.1.Tidy
  /-- Each text is kept by the other tasks. -/
  holds (r : Nat) : o.owes r ≤ p.holds r → x.1.holds r + o.owes r = p.holds r + owed r x.2

namespace Discharges

theorem of_settles {o : Order Task} (ho : ∀ r, o.owes r = 0) (h : Settles p x) :
    Discharges o p x := by
  refine ⟨h.tidy, fun r _ => ?_⟩
  rw [ho, h.holds]
  rfl

/-- A text is let go, and the rest is left alone. -/
theorem release (h : p.Tidy) {o : Order Task} {r : Nat}
    (ho : ∀ s, o.owes s = if r = s then 1 else 0) (hs : q.schedule = p.schedule)
    (hg : q.generation = p.generation)
    (hr : q.reveals = p.reveals.modify r fun v => { v with holds := v.holds - 1 }) :
    Discharges o p (q, []) := by
  have hsize : p.reveals.size ≤ q.reveals.size := Nat.le_of_eq (by rw [hr, Array.size_modify])
  refine ⟨?_, fun s hle => ?_⟩
  · have hp := Schedule.Sound.mono h fun ht => ht.mono (Nat.le_of_eq hg.symm) hsize
    unfold Tidy
    rw [hs]
    exact hp
  · rw [ho] at hle ⊢
    have hq : q.holds s = (p.modifyReveal r fun v => { v with holds := v.holds - 1 }).holds s :=
      holds_of_eq hr s
    rw [hq, holds_modify, owed_nil]
    split at hle
    · next hrs =>
      rw [if_pos hrs, if_pos hrs]
      unfold Player.holds at hle ⊢
      cases hv : p.reveals[s]? with
      | none =>
        rw [hv] at hle
        exact absurd hle (by simp)
      | some v =>
        rw [hv] at hle
        simp only [Option.map_some, Option.getD_some] at hle ⊢
        omega
    · next hrs => rw [if_neg hrs, if_neg hrs]

theorem conclude (h : p.Tidy) (t : Ticket) (c : Completion) :
    Discharges (.perform (.conclude t c)) p (p.conclude t c) := by
  cases c with
  | completed => exact of_settles (fun _ => rfl) ((Settles.refl h).finish t)
  | pending x =>
    unfold Player.conclude
    dsimp only
    cases x with
    | reveal r =>
      dsimp only
      split
      · exact release h (fun _ => rfl) rfl rfl rfl
      · exact release h (fun _ => rfl) rfl rfl rfl
    | _ =>
      refine of_settles (fun _ => rfl) ?_
      dsimp only
      split
      · exact (Settles.refl h).of_eq rfl rfl rfl
      · exact Settles.refl h

theorem actReveal (h : p.Tidy) (r : Nat) (a : Reveal.Act) :
    Discharges (.perform (.reveal r a)) p (p.actReveal r a) := by
  by_cases ha : a = .release
  · subst ha
    rw [Player.actReveal]
    split
    · next hr =>
      -- there is no such text, so nobody keeps it
      refine ⟨h, fun s hle => ?_⟩
      rw [owes_release] at hle ⊢
      split at hle
      · next hrs =>
        subst hrs
        rw [Player.holds, hr] at hle
        exact absurd hle (by simp)
      · next hrs =>
        rw [if_neg hrs]
        rfl
    · exact release h (fun _ => rfl) rfl rfl rfl
  · refine of_settles (fun s => ?_) ((Settles.refl h).actReveal r ha)
    cases a <;> first | rfl | exact absurd rfl ha

/-- A delivery lets nobody go. -/
theorem deliver (h : p.Tidy) (c : CellName) :
    Discharges (.perform (.deliver c)) p (perform (.deliver c) p) := by
  refine of_settles (fun _ => rfl) ?_
  have hs := (Settles.refl h).store c ((p.stage.cell c).beginDelivery.1, false)
  refine hs.append fun r => owed_eq_zero fun o ho => ?_
  obtain ⟨id, -, rfl⟩ := List.mem_map.1 ho
  rfl

theorem ring (h : p.Tidy) (ht : p.Tame HostCall.KeepsPlace) (k : Nat) :
    Discharges (.perform (.ring k)) p (perform (.ring k) p) := by
  refine of_settles (fun _ => rfl) ?_
  refine ((Settles.refl h).ringTimer k).append fun r => owed_eq_zero fun o ho => ?_
  obtain ⟨t, hm, rfl⟩ := List.mem_map.1 ho
  exact owes_of_isTimed (ht.isTimed_of_ring (Option.mem_toList.1 hm)) r

theorem perform (h : p.Tidy) (ht : p.Tame HostCall.KeepsPlace) (t : Task) :
    Discharges (.perform t) p (perform t p) := by
  have hp := Settles.refl h
  cases t with
  | deliver c => exact deliver h c
  | hear c id v => exact of_settles (fun _ => rfl) (hp.hear c id v)
  | ring k => exact ring h ht k
  | finish t => exact of_settles (fun _ => rfl) (hp.finish t)
  | conclude t c => exact conclude h t c
  | reveal r a => exact actReveal h r a
  | call a c => exact of_settles (fun _ => rfl) ((hp.call c).concat fun _ => rfl)
  | report a x => exact of_settles (fun _ => rfl) (hp.of_inside (inside_report p x a))
  | note e => exact of_settles (fun _ => rfl) (hp.note e)
  | load => exact of_settles (fun _ => rfl) hp.load

end Discharges

end Player

/-! ### Runs -/

namespace Machine

variable {m : Machine Player Task}

/-- The machine is about to give up everything. -/
def Halts (m : Machine Player Task) : Prop := ∃ rest, m.agenda = .halt :: rest

instance : DecidablePred Halts := fun m =>
  match m with
  | ⟨_, .halt :: rest⟩ => isTrue ⟨rest, rfl⟩
  | ⟨_, []⟩ | ⟨_, .perform _ :: _⟩ | ⟨_, .drain :: _⟩ | ⟨_, .advance _ :: _⟩
  | ⟨_, .depart _ :: _⟩ | ⟨_, .runUntil _ :: _⟩ => isFalse nofun

/-- The world is tidy, and each text is kept by the tasks that are going to let it go. -/
structure Balanced (m : Machine Player Task) : Prop where
  /-- The world is tidy. -/
  tidy : m.world.Tidy
  /-- Texts are kept by tasks. -/
  holds (r : Nat) : m.world.holds r = owed r m.agenda

variable {p : Player} {o : Order Task} {rest orders : Orders}

/-! ### Turns of the loop -/

theorem step_drain_nil (h : p.schedule.loop.microtasks = []) :
    step ⟨p, .drain :: rest⟩ = ⟨p, rest⟩ := by
  have hp : (World.loop p).popMicrotask? = none := by
    simp only [World.loop, Loop.popMicrotask?, h]
  simp only [step, hp]

theorem step_drain_cons {t : Task} {ts : List Task} (h : p.schedule.loop.microtasks = t :: ts) :
    step ⟨p, .drain :: rest⟩ =
      ⟨World.withLoop p { p.schedule.loop with microtasks := ts },
        .perform t :: .drain :: rest⟩ := by
  have hp : (World.loop p).popMicrotask? = some (t, { p.schedule.loop with microtasks := ts }) := by
    simp only [World.loop, Loop.popMicrotask?, h]
  simp only [step, hp]

theorem step_runUntil_due {u : Timeout Task} {us : List (Timeout Task)} {target : Nat}
    (h : p.schedule.loop.timeouts = u :: us) (hu : u.deadline ≤ target) :
    step ⟨p, .runUntil target :: rest⟩ =
      ⟨World.withLoop p { p.schedule.loop with now := u.deadline, timeouts := us },
        .perform u.task :: .drain :: .runUntil target :: rest⟩ := by
  have hp : (World.loop p).popDue? target =
      some (u.task, { p.schedule.loop with now := u.deadline, timeouts := us }) := by
    simp only [World.loop, Loop.popDue?, h, if_pos hu]
  simp only [step, hp]

theorem step_runUntil_idle {target : Nat}
    (h : ∀ u ∈ p.schedule.loop.timeouts.head?, target < u.deadline) :
    step ⟨p, .runUntil target :: rest⟩ =
      ⟨World.withLoop p { p.schedule.loop with now := target }, rest⟩ := by
  have hp : (World.loop p).popDue? target = none := by
    cases hu : p.schedule.loop.timeouts with
    | nil => simp only [World.loop, Loop.popDue?, hu]
    | cons u us =>
      rw [hu] at h
      simp only [World.loop, Loop.popDue?, hu, if_neg (Nat.not_le_of_lt (h u rfl))]
  simp only [step, hp]
  rfl

namespace Balanced

theorem of_discharges {x : Player × Orders} (h : Balanced ⟨p, o :: rest⟩)
    (hd : Discharges o p x) : Balanced ⟨x.1, x.2 ++ rest⟩ := by
  refine ⟨hd.tidy, fun r => ?_⟩
  have hp := h.holds r
  dsimp only at hp ⊢
  rw [owed_cons] at hp
  have hx := hd.holds r (by omega)
  rw [owed_append]
  omega

/-- The loop turns. -/
theorem turn (h : Balanced ⟨p, o :: rest⟩) (ho : ∀ r, o.owes r = 0) (orders : Orders)
    (hn : ∀ r, owed r orders = 0) {us : List (Timeout Task)}
    (hu : us.Sublist p.schedule.loop.timeouts) (now : Nat) (ms : List Task) :
    Balanced ⟨World.withLoop p { p.schedule.loop with now, microtasks := ms, timeouts := us },
      orders ++ rest⟩ := by
  have hp : Settles p (World.withLoop p { p.schedule.loop with
      now, microtasks := ms, timeouts := us }, []) :=
    (Settles.refl h.tidy).of_sound (fun hs => hs.of_sublist hu now ms) (Nat.le_refl _) rfl
  exact h.of_discharges (Discharges.of_settles ho (hp.append hn))

/-- The next timeout is due, or none is. -/
theorem step_runUntil {target : Nat} (h : Balanced ⟨p, .runUntil target :: rest⟩)
    (ht : p.Tame HostCall.KeepsPlace) :
    (Machine.step ⟨p, .runUntil target :: rest⟩).Balanced := by
  have hidle (hn : ∀ u ∈ p.schedule.loop.timeouts.head?, target < u.deadline) :
      (Machine.step ⟨p, .runUntil target :: rest⟩).Balanced := by
    rw [step_runUntil_idle hn]
    exact h.turn (fun _ => rfl) [] (fun _ => rfl) (List.Sublist.refl _) target _
  cases hu : p.schedule.loop.timeouts with
  | nil => exact hidle fun u hm => by rw [hu] at hm; cases hm
  | cons u us =>
    by_cases hd : u.deadline ≤ target
    · have htimed := ht.timeouts u (hu ▸ List.mem_cons_self)
      rw [step_runUntil_due hu hd]
      refine h.turn (fun _ => rfl) [.perform u.task, .drain, .runUntil target] (fun r => ?_)
        (hu ▸ List.sublist_cons_self ..) _ _
      rw [owed_cons, owes_of_isTimed htimed]
      rfl
    · refine hidle fun x hx => ?_
      rw [hu] at hx
      cases hx
      exact Nat.lt_of_not_le hd

/-- The machine takes a step. -/
theorem step (h : m.Balanced) (ht : m.world.Tame HostCall.KeepsPlace) (hh : ¬ m.Halts) :
    m.step.Balanced := by
  obtain ⟨p, agenda⟩ := m
  cases agenda with
  | nil => exact h
  | cons o rest =>
    cases o with
    | perform t => exact h.of_discharges (Discharges.perform h.tidy ht t)
    | drain =>
      cases hm : p.schedule.loop.microtasks with
      | nil =>
        rw [step_drain_nil hm]
        exact h.of_discharges (.of_settles (fun _ => rfl) (Settles.refl h.tidy))
      | cons t ts =>
        obtain ⟨c, rfl⟩ := ht.microtasks t (hm ▸ List.mem_cons_self)
        rw [step_drain_cons hm]
        exact h.turn (fun _ => rfl) [.perform (.deliver c), .drain] (fun _ => rfl)
          (List.Sublist.refl _) _ _
    | advance d =>
      exact h.of_discharges (x := (p, [.drain, .depart d]))
        (.of_settles (fun _ => rfl) ((Settles.refl h.tidy).append fun _ => rfl))
    | depart d =>
      exact h.of_discharges (x := (p, [.runUntil (p.schedule.loop.now + d)]))
        (.of_settles (fun _ => rfl) ((Settles.refl h.tidy).append fun _ => rfl))
    | runUntil target => exact h.step_runUntil ht
    | halt => exact absurd ⟨rest, rfl⟩ hh

end Balanced

end Machine

theorem Player.tidy_of_empty {p : Player} (h : p.schedule = {}) : p.Tidy := by
  unfold Tidy
  rw [h]
  exact ⟨by simp, by simp, .nil⟩

theorem Player.Begins.balanced {p : Player} (h : p.Begins) : Machine.Balanced ⟨p, []⟩ := by
  cases h <;> exact ⟨tidy_of_empty rfl, fun _ => rfl⟩

/-- The host's own orders keep no text. -/
theorem owed_host {P : HostCall → Prop} {orders : Orders} (h : ∀ o ∈ orders, IsHostOrder P o)
    (r : Nat) : owed r orders = 0 := by
  refine owed_eq_zero fun o ho => ?_
  rcases h o ho with ⟨a, c, rfl, -⟩ | ⟨d, rfl⟩
  · rfl
  · rfl

/-- **What is left is in order.** In a run that nothing has put an end to, whatever a player has
scheduled was numbered, and texts are kept by tasks that are going to let them go. -/
theorem Run.balanced {m₀ m : Machine Player Task} {h : List (Machine Player Task)} {k : Nat}
    {c₀ : Course} (hs : Steady k m₀ c₀) (h₀ : m₀.Balanced) (r : Run HostCall.KeepsPlace m₀ h m)
    (hh : ∀ n ∈ h, ¬ n.Halts) : m.Balanced := by
  induction r with
  | start => exact h₀
  | step r ih =>
    obtain ⟨hm, hh⟩ := List.forall_mem_cons.1 hh
    obtain ⟨c, hc⟩ := r.steady hs
    exact (ih hh).step hc.tame hm
  | turn book events answer _ ho ih =>
    have hb := ih hh
    refine ⟨((Settles.refl hb.tidy).of_eq rfl rfl rfl).tidy, fun r => ?_⟩
    rw [owed_host ho]
    exact hb.holds r
  | @connect _ _ hook l _ _ ih =>
    have hb := ih hh
    have hc := (Settles.refl hb.tidy).connect hook l
    refine ⟨hc.tidy, fun r => ?_⟩
    rw [continuing, hc.holds, hb.holds]
    exact Nat.zero_add _
  | @connectToBook _ _ hook l _ _ ih =>
    have hb := ih hh
    have hc := (Settles.refl hb.tidy).connectToBook hook l
    refine ⟨hc.tidy, fun r => ?_⟩
    rw [continuing, hc.holds, hb.holds]
    exact Nat.zero_add _

end Novella
