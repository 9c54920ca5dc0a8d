import Novella.Proofs.Restore.PlayersInStep
import Novella.Proofs.Session.Rewind

/-!
# Timers of the past pass unseen

A player that carries another one has strays to perform that the other one has not. They are timers
of the past and deliveries to the host. Whatever they do, no signal is sent and the position stays,
and there is an end to them: a timer that repeats leaves time between two rings. So a machine with a
past does what one without it does, with unseen steps in between.

## Main definitions

* `Player.Strayed` — a stray has been performed
* `Machine.Carries` — a machine with a past and one without

## Main results

* `Player.Carries.perform_stray` — the player still carries the other one
* `Machine.Carries.catchUp` — after unseen steps both machines have the same to do
* `Machine.Carries.step` — then they do it
-/

namespace Novella

open Player

/-! ### Timers of the past -/

namespace Shift

variable {σ : Shift}

/-- The shift after one more stray has been scheduled, when the other schedule has numbered `n`
timeouts. -/
def delay (σ : Shift) (n : Nat) : Shift :=
  { σ with timeout := fun i => if i < n then σ.timeout i else σ.timeout i + 1 }

theorem timeout_delay_of_lt {n i : Nat} (h : i < n) : (σ.delay n).timeout i = σ.timeout i :=
  if_pos h

theorem timeout_delay_of_le {n i : Nat} (h : n ≤ i) : (σ.delay n).timeout i = σ.timeout i + 1 :=
  if_neg (Nat.not_lt_of_le h)

namespace Schedules

variable {s t : Schedule Task} {x : Timer Task} {k : Nat}

/-- A timer of the past changes. -/
theorem setOld (h : σ.Schedules s t) (hk : k < σ.timer) (hx : σ.IsOld x.callback)
    (hr : x.repeats = true → 0 < x.duration) : σ.Schedules (s.setTimer k x) t where
  size := by
    simp only [Schedule.setTimer, Array.size_setIfInBounds]
    exact h.size
  timers := @fun i y hy => by
    simp only [Schedule.setTimer, Array.getElem?_setIfInBounds]
    rw [if_neg (by omega)]
    exact h.timers hy
  old := @fun i y hi hy => by
    simp only [Schedule.setTimer, Array.getElem?_setIfInBounds] at hy
    split at hy
    · split at hy
      · cases hy
        exact ⟨hx, hr⟩
      · cases hy
    · exact h.old hi hy
  timeouts := h.timeouts
  sorted := h.sorted
  numbered := h.numbered
  mono := h.mono
  next := h.next
  microtasks := h.microtasks

/-- A stray is scheduled. It takes a number that the timeouts to come have to give up. -/
theorem setTimeoutStray (h : σ.Schedules s t) (d : Nat) {a : Task} (ha : σ.IsStray a) :
    (σ.delay t.loop.nextId).Schedules { s with loop := s.loop.setTimeout d a } t where
  size := h.size
  timers hy := by
    obtain ⟨x, hx, hxy, hid⟩ := h.timers hy
    refine ⟨x, hx, ⟨hxy.duration, hxy.repeats, hxy.callback, hxy.ongoing, hxy.state, ?_⟩, hid⟩
    rw [hxy.handle]
    exact Option.map_congr fun id hi => (timeout_delay_of_lt (hid id hi)).symm
  old := h.old
  timeouts := by
    have hnext : σ.timeout t.loop.nextId = s.loop.nextId := h.next 0
    refine laced_insertTimeout_stray (h.timeouts.congr (fun u hu => ?_) fun {u} hu => ?_) ?_
    · simp only [due, timeout_delay_of_lt (h.numbered u hu)]
      rfl
    · refine ⟨hu.1, fun i => ?_⟩
      rcases Nat.lt_or_ge i t.loop.nextId with hi | hi
      · rw [timeout_delay_of_lt hi]
        exact hu.2 i
      · obtain ⟨j, rfl⟩ := Nat.exists_eq_add_of_le hi
        have hj := h.next j
        have hj' : σ.timeout (t.loop.nextId + j + 1) = _ := h.next (j + 1)
        have hne := hu.2 (t.loop.nextId + j + 1)
        rw [timeout_delay_of_le hi]
        omega
    · refine ⟨ha, fun i => ?_⟩
      dsimp only
      rcases Nat.lt_or_ge i t.loop.nextId with hi | hi
      · have := h.mono hi
        rw [timeout_delay_of_lt hi]
        omega
      · obtain ⟨j, rfl⟩ := Nat.exists_eq_add_of_le hi
        have hj := h.next j
        rw [timeout_delay_of_le hi]
        omega
  sorted := Loop.pairwise_insertTimeout h.sorted
  numbered := h.numbered
  mono := @fun i j hij => by
    have := h.mono hij
    rcases Nat.lt_or_ge j t.loop.nextId with hj | hj
    · rw [timeout_delay_of_lt hj, timeout_delay_of_lt (Nat.lt_trans hij hj)]
      exact this
    · rw [timeout_delay_of_le hj]
      rcases Nat.lt_or_ge i t.loop.nextId with hi | hi
      · rw [timeout_delay_of_lt hi]
        omega
      · rw [timeout_delay_of_le hi]
        omega
  next i := by
    have hi := h.next i
    rw [timeout_delay_of_le (Nat.le_add_right ..)]
    show _ = s.loop.nextId + 1 + i
    omega
  microtasks := h.microtasks

end Schedules

end Shift

/-- Another observer than the player hears a cell. The player goes on hearing it. -/
theorem Attended.hear_of_ne {α : Type} {r : Reaction} {k i : Nat} {c : Cell α Reaction}
    (h : Attended r k c) (hi : i ≠ k) (v : α) :
    Attended r k (c.hear i v).1 ∧ (c.hear i v).1.scheduled = c.scheduled ∧
      ∀ x, (c.hear i v).2 = some x → x = .openPage ∨ ∃ n, x = .listener n := by
  rcases Nat.lt_or_gt_of_ne hi with hi | hi
  · rw [h.hear_page hi]
    exact ⟨h, rfl, fun x hx => .inl (Option.some.inj hx).symm⟩
  · obtain ⟨ha, -, hs, hx⟩ := h.hear_other hi v
    exact ⟨ha, hs, fun x h => .inr (hx x h)⟩

/-- A stray that leaves nothing to be done. -/
def Shift.IsLast (σ : Shift) : Task → Prop
  | .hear c id _ => c.IsPlace → id ≠ c.rank σ.rank
  | t => σ.IsOld t

theorem Shift.IsOld.isLast {σ : Shift} {t : Task} (h : σ.IsOld t) : σ.IsLast t := by
  cases t <;> first | exact h | exact h.elim

theorem Shift.IsLast.isStray {σ : Shift} {t : Task} (h : σ.IsLast t) : σ.IsStray t := by
  cases t <;> first | exact h | exact Shift.IsOld.isStray h

namespace Player

/-- A stray has been performed, and that is all. -/
structure Unheeded (σ : Shift) (p q : Player) (x : Player × Orders) : Prop where
  /-- The player still carries the other one. -/
  carries : Carries σ x.1 q
  /-- Nothing is left to be done. -/
  orders : x.2 = []
  /-- Nothing has been scheduled. -/
  loop : x.1.loop = p.loop

/-- A stray has been performed. At most it is going to be performed again, at a later time. -/
structure Strayed (σ : Shift) (p q : Player) (x : Player × Orders) : Prop where
  /-- The player still carries the other one. -/
  carries : ∃ f, Carries { σ with timeout := f } x.1 q
  /-- What is left to be done leaves nothing. -/
  orders : ∀ o ∈ x.2, ∃ t, o = .perform t ∧ σ.IsLast t
  /-- No time has passed. -/
  now : x.1.loop.now = p.loop.now
  /-- No microtask has come. -/
  microtasks : x.1.loop.microtasks = p.loop.microtasks
  /-- At most it is scheduled again. -/
  timeouts : x.1.loop.timeouts = p.loop.timeouts ∨
    ∃ u : Timeout Task, p.loop.now < u.deadline ∧
      x.1.loop.timeouts = Loop.insertTimeout u p.loop.timeouts

theorem Unheeded.strayed {σ : Shift} {p q : Player} {x : Player × Orders}
    (h : Unheeded σ p q x) : Strayed σ p q x := by
  refine ⟨⟨σ.timeout, h.carries⟩, fun o ho => ?_, congrArg Loop.now h.loop,
    congrArg Loop.microtasks h.loop, .inl (congrArg Loop.timeouts h.loop)⟩
  rw [h.orders] at ho
  exact absurd ho List.not_mem_nil

namespace Carries

variable {σ : Shift} {p q : Player}

/-- What only the host sees may change. -/
theorem congr_inside {p' : Player} (h : Carries σ p q) (hp : p'.inside = p.inside)
    (hl : ∀ l ∈ p'.listeners, l.body = []) : Carries σ p' q := by
  rw [eq_of_inside hp]
  exact { h with listeners := hl }

/-- The timeouts to come get other numbers. -/
theorem withTimeouts (h : Carries σ p q) {f : Nat → Nat} {s : Schedule Task}
    (hs : Shift.Schedules { σ with timeout := f } s q.schedule) :
    Carries { σ with timeout := f } { p with schedule := s } q :=
  { h with
    schedule := hs
    stage := fun c =>
      have hc := h.stage c
      ⟨hc.value, hc.attended, hc.heard, hc.alone, hc.scheduled, hc.unheard⟩ }

theorem unheeded (h : Carries σ p q) : Unheeded σ p q (p, []) := ⟨h, rfl, rfl⟩

/-- What was done is seen by the host at most. -/
theorem unheeded_of_inside {p' : Player} {x : Player × Orders} (h : Carries σ p' q)
    (hloop : p'.loop = p.loop) (hi : x.1.inside = p'.inside)
    (hl : ∀ l ∈ x.1.listeners, l.body = []) (ho : x.2 = []) : Unheeded σ p q x :=
  ⟨h.congr_inside hi hl, ho, (congrArg (fun p => p.schedule.loop) hi).trans hloop⟩

/-- A timer of the past rings. -/
theorem ring (h : Carries σ p q) {k : Nat} (hk : k < σ.timer) :
    Strayed σ p q (Player.perform (.ring k) p) := by
  simp only [Player.perform, Schedule.ring]
  cases hx : p.schedule.timers[k]? with
  | none => exact h.unheeded.strayed
  | some x =>
    obtain ⟨hold, hr⟩ := h.schedule.old hk hx
    dsimp only
    split
    · have horders : ∀ o ∈ [Order.perform x.callback], ∃ t, o = .perform t ∧ σ.IsLast t :=
        fun o ho => ⟨x.callback, List.mem_singleton.1 ho, hold.isLast⟩
      split
      · next hrep =>
        have hs := (h.schedule.setTimeoutStray x.duration (a := .ring k) hk).setOld hk
          (x := { x with
            state := .running, handle := some p.schedule.loop.nextId
            scheduledAt := p.schedule.loop.now }) hold hr
        exact ⟨⟨_, h.withTimeouts hs⟩, horders, rfl, rfl,
          .inr ⟨⟨p.loop.now + x.duration, _, .ring k⟩, Nat.lt_add_of_pos_right (hr hrep), rfl⟩⟩
      · next hrep =>
        exact ⟨⟨σ.timeout, { h with schedule := h.schedule.setOld hk hold fun h => absurd h hrep }⟩,
          horders, rfl, rfl, .inl rfl⟩
    · exact h.unheeded.strayed

/-- An old ticket is given back. -/
theorem finish (h : Carries σ p q) {g : Nat} (hg : g < σ.generation) :
    Unheeded σ p q (p.finish (.instruction g)) := by
  rw [Player.finish]
  have hgen : g ≠ p.generation := by
    rw [h.generation]
    omega
  split
  · dsimp only
    rw [if_neg hgen]
    have hlive (t : Ticket) :
        (p.live.erase (.instruction g)).count (σ.ticket t) = q.live.count t := by
      rw [List.count_erase_of_ne, h.live]
      rintro ht
      cases t with
      | instruction g' =>
        cases ht
        omega
      | call k => cases ht
    have he : Carries σ { p with live := p.live.erase (.instruction g) } q :=
      { h with live := hlive }
    exact he.unheeded_of_inside rfl (inside_trace ..)
      (by rw [listeners_trace]; exact h.listeners) rfl
  · exact h.unheeded

/-- Nobody keeps a text of the past. -/
theorem isKept_eq_false (h : Carries σ p q) {r : Nat} {v : Reveal} (hr : r < σ.reveal)
    (hv : p.reveals[r]? = some v) : p.isKept r v = false := by
  have hactive : p.active ≠ some (.reveal r) := by
    rw [h.active]
    intro heq
    obtain ⟨x, -, hx⟩ := Option.map_eq_some_iff.1 heq
    cases x with
    | reveal r' =>
      cases hx
      omega
    | _ => cases hx
  simp [Player.isKept, hactive, h.spent hr hv]

/-- So its timers do nothing. -/
theorem actReveal (h : Carries σ p q) {r : Nat} (hr : r < σ.reveal) {a : Reveal.Act}
    (ha : a = .tick ∨ a = .wake) : p.actReveal r a = (p, []) ∧ p.actSignal? r a = none := by
  rw [Player.actReveal, Player.actSignal?]
  cases hv : p.reveals[r]? with
  | none => exact ⟨rfl, rfl⟩
  | some v =>
    have hkept := h.isKept_eq_false hr hv
    rcases ha with rfl | rfl <;> simp [hkept]

/-- A cell is stored again that the player hears as before. -/
theorem store (h : Carries σ p q) {c : CellName} {d : Cell c.Value Reaction}
    (hd : σ.Cells c d (q.stage.cell c)) : Carries σ (p.store c (d, false)) q := by
  refine { h with stage := fun x => ?_ }
  by_cases hx : x = c
  · subst hx
    rw [Player.store, Stage.cell_withCell_self]
    exact hd
  · rw [Player.store, Stage.cell_withCell_of_ne _ hx]
    exact h.stage x

/-- Others than the player are going to hear a cell that is no place. -/
theorem deliver (h : Carries σ p q) {c : CellName} (hc : ¬ c.IsPlace) :
    Strayed σ p q (Player.perform (.deliver c) p) := by
  have hcell := h.stage c
  have hs : Carries σ (p.store c ({ p.stage.cell c with scheduled := false }, false)) q :=
    h.store ⟨hcell.value, fun h => absurd h hc, fun h => absurd h hc, fun h => absurd h hc,
      fun h => absurd h hc, hcell.unheard⟩
  refine ⟨⟨σ.timeout, hs⟩, fun o ho => ?_, rfl, rfl, .inl rfl⟩
  obtain ⟨id, -, rfl⟩ := List.mem_map.1 ho
  exact ⟨_, rfl, fun h => absurd h hc⟩

/-- What others than the player do when they hear a cell is seen by the host at most. -/
theorem reactTo (h : Carries σ p q) {c : CellName} {r : Reaction}
    (hr : c.IsPlace → r = .openPage ∨ ∃ n, r = .listener n) (v : c.Value) :
    (p.reactTo r c v).2 = [] ∧ (p.reactTo r c v).1.inside = p.inside ∧
      ∀ l ∈ (p.reactTo r c v).1.listeners, l.body = [] := by
  have hnone : (p, ([] : Orders)).2 = [] ∧ p.inside = p.inside ∧ ∀ l ∈ p.listeners, l.body = [] :=
    ⟨rfl, rfl, h.listeners⟩
  cases r with
  | listener n =>
    have hx : p.reactTo (.listener n) c v = p.react n (.cell c v) := by
      unfold Player.reactTo
      cases c <;> rfl
    rw [hx]
    exact ⟨orders_react h.listeners .., inside_react .., bodies_react h.listeners _ _⟩
  | openPage =>
    have hx : p.reactTo .openPage c v = (p.openPage, []) := by
      unfold Player.reactTo
      cases c <;> rfl
    rw [hx]
    refine ⟨rfl, inside_openPage .., ?_⟩
    rw [Player.openPage]
    split
    · exact h.listeners
    · exact h.listeners
  | limitHistory => cases c <;> exact hnone
  | loadScene =>
    cases c <;> first | exact hnone | simp [CellName.IsPlace] at hr
  | runLine =>
    cases c <;> first | exact hnone | simp [CellName.IsPlace] at hr

/-- Another observer than the player hears a cell. -/
theorem hear (h : Carries σ p q) {c : CellName} {id : Nat} (hid : c.IsPlace → id ≠ c.rank σ.rank)
    (v : c.Value) : Unheeded σ p q (Player.perform (.hear c id v) p) := by
  have hcell := h.stage c
  have hother (hc : c.IsPlace) := (hcell.attended hc).hear_of_ne (hid hc) v
  cases heq : (p.stage.cell c).hear id v with
  | mk d r =>
    rw [heq] at hother
    cases r with
    | none =>
      simp only [Player.perform, heq]
      exact h.unheeded
    | some r =>
      have hv : d.value = (p.stage.cell c).value := (Cell.hear_eq_some heq).2.1
      have hs : Carries σ (p.store c (d, false)) q :=
        h.store ⟨fun hc => hv.trans (hcell.value hc), fun hc => (hother hc).1, hcell.heard,
          hcell.alone, fun hc => (hother hc).2.1.trans (hcell.scheduled hc), hcell.unheard⟩
      obtain ⟨ho, hi, hl⟩ := hs.reactTo (fun hc => (hother hc).2.2 r rfl) v
      rw [Steady.perform_hear_eq heq]
      exact hs.unheeded_of_inside rfl hi hl ho

/-- A stray that leaves nothing to be done. -/
theorem perform_last (h : Carries σ p q) {t : Task} (ht : σ.IsLast t) :
    Unheeded σ p q (Player.perform t p) := by
  cases t with
  | hear c id v => exact h.hear ht v
  | finish t =>
    cases t with
    | instruction g => exact h.finish ht
    | call k => exact ht.elim
  | reveal r a =>
    rw [show Player.perform (.reveal r a) p = (p, []) from (h.actReveal ht.1 ht.2).1]
    exact h.unheeded
  | _ => exact ht.elim

/-- **A stray** does nothing that the script or its readers could see. -/
theorem perform_stray (h : Carries σ p q) {t : Task} (ht : σ.IsStray t) :
    Strayed σ p q (Player.perform t p) := by
  cases t with
  | ring k => exact h.ring ht
  | deliver c => exact h.deliver ht
  | hear c id v => exact (h.perform_last (t := .hear c id v) ht).strayed
  | finish t => exact (h.perform_last (t := .finish t) ht).strayed
  | reveal r a => exact (h.perform_last (t := .reveal r a) ht).strayed
  | _ => exact ht.elim

/-- It sends no signal. -/
theorem signal?_stray (h : Carries σ p q) {t : Task} (ht : σ.IsStray t) : p.signal? t = none := by
  cases t with
  | hear c id v =>
    cases c with
    | index =>
      refine if_neg fun hn => ?_
      rcases (((h.stage .index).attended (.inr rfl)).hear_of_ne (ht (.inr rfl)) v).2.2 _ hn with
        hn | ⟨n, hn⟩ <;> cases hn
    | _ => rfl
  | finish t =>
    cases t with
    | instruction g =>
      have hg : g < σ.generation := ht
      refine if_neg fun hn => ?_
      have hgen := h.generation
      have hn := Ticket.instruction.inj hn.2
      omega
    | call k => exact ht.elim
  | reveal r a => exact (h.actReveal ht.1 ht.2).2
  | conclude t c => exact ht.elim
  | call a c => exact ht.elim
  | _ => rfl

end Carries

end Player

/-! ### What is seen of a machine -/

/-- What is seen of a step. -/
structure Sight where
  /-- The time since the start. -/
  time : Nat
  /-- The signal that is sent, if any is. -/
  signal : Option Signal
  /-- The position after the step. -/
  position : Context × Progress

namespace Machine

/-- The next step is seen if it sends a signal or changes the position. -/
def sight? (start : Nat) (m : Machine Player Task) : Option Sight :=
  if m.signal? = none ∧ m.step.world.position = m.world.position then none
  else some ⟨m.world.loop.now - start, m.signal?, m.step.world.position⟩

/-- The machine has something to do, and nobody sees it done. -/
structure Unseen (m : Machine Player Task) : Prop where
  /-- There is something to do. -/
  busy : m.agenda ≠ []
  /-- No signal is sent. -/
  signal : m.signal? = none
  /-- The position stays. -/
  position : m.step.world.position = m.world.position

theorem Unseen.sight? {m : Machine Player Task} (h : m.Unseen) (start : Nat) :
    m.sight? start = none := if_pos ⟨h.signal, h.position⟩

end Machine

namespace Player.Carries

variable {σ : Shift} {p q : Player}

/-- Strays that leave nothing to be done are performed. -/
theorem leads_last (h : Carries σ p q) {os : Orders}
    (hos : ∀ o ∈ os, ∃ t, o = .perform t ∧ σ.IsLast t) (rest : Orders) :
    ∃ p', Leads Machine.Unseen ⟨p, os ++ rest⟩ ⟨p', rest⟩ ∧ Carries σ p' q ∧ p'.loop = p.loop := by
  induction os generalizing p with
  | nil => exact ⟨p, .refl, h, rfl⟩
  | cons o os ih =>
    obtain ⟨⟨t, rfl, ht⟩, hlast⟩ := List.forall_mem_cons.1 hos
    have hu := h.perform_last ht
    have hstep : Machine.step ⟨p, .perform t :: (os ++ rest)⟩ =
        ⟨(Player.perform t p).1, os ++ rest⟩ := by
      rw [Steady.step_perform, hu.orders]
      rfl
    obtain ⟨p', hl, hc, hloop⟩ := ih hu.carries hlast
    rw [List.cons_append]
    refine ⟨p', .step ⟨List.cons_ne_nil _ _, h.signal?_stray ht.isStray, ?_⟩ ?_, hc,
      hloop.trans hu.loop⟩
    · rw [hstep]
      exact hu.carries.position.trans h.position.symm
    · rw [hstep]
      exact hl

/-- A stray is performed, with all that it leaves to be done. -/
theorem leads_stray (h : Carries σ p q) {t : Task} (ht : σ.IsStray t) (rest : Orders) :
    ∃ p', Leads Machine.Unseen ⟨p, .perform t :: rest⟩ ⟨p', rest⟩ ∧ Strayed σ p q (p', []) := by
  have hs := h.perform_stray ht
  obtain ⟨f, hc⟩ := hs.carries
  obtain ⟨p', hl, hc', hloop⟩ := hc.leads_last hs.orders rest
  refine ⟨p', .step ⟨List.cons_ne_nil _ _, h.signal?_stray ht, ?_⟩ ?_, ⟨f, hc'⟩,
    fun _ ho => absurd ho List.not_mem_nil, ?_, ?_, ?_⟩
  · rw [Steady.step_perform]
    exact hc.position.trans h.position.symm
  · rw [Steady.step_perform]
    exact hl
  · rw [hloop, hs.now]
  · rw [hloop, hs.microtasks]
  · rw [hloop]
    exact hs.timeouts

end Player.Carries

/-! ### Machines with a past -/

namespace Order

/-- The order moves time. -/
def Departs : Order Task → Prop
  | depart _ => True
  | runUntil _ => True
  | _ => False

theorem IsOngoing.not_departs {o : Order Task} (h : o.IsOngoing) : ¬ o.Departs := by
  cases o with
  | depart d => exact h.elim
  | runUntil target => exact h.elim
  | _ => exact id

/-- Whenever time moves, the microtasks are run just before. -/
def Paced : Orders → Prop
  | [] => True
  | o :: rest => (∀ b ∈ rest.head?, b.Departs → o = drain) ∧ Paced rest

/-- Orders that do not move time may be put in front of one that does not. -/
theorem Paced.append {orders rest : Orders} (h : Paced rest) (ho : ∀ o ∈ orders, ¬ o.Departs)
    (hr : ∀ b ∈ rest.head?, ¬ b.Departs) : Paced (orders ++ rest) := by
  induction orders with
  | nil => exact h
  | cons o orders ih =>
    obtain ⟨-, ho⟩ := List.forall_mem_cons.1 ho
    refine ⟨fun b hb hd => absurd hd ?_, ih ho⟩
    cases orders with
    | nil => exact hr b hb
    | cons a orders =>
      obtain rfl : a = b := Option.some.inj hb
      exact ho a List.mem_cons_self

/-- Neither does the first of them. -/
theorem not_departs_head {orders rest : Orders} (ho : ∀ o ∈ orders, ¬ o.Departs)
    (hr : ∀ b ∈ rest.head?, ¬ b.Departs) : ∀ b ∈ (orders ++ rest).head?, ¬ b.Departs := by
  cases orders with
  | nil => exact hr
  | cons o orders =>
    intro b hb
    obtain rfl : o = b := Option.some.inj hb
    exact ho o List.mem_cons_self

end Order

theorem Shift.departs_order (σ : Shift) (o : Order Task) : (σ.order o).Departs ↔ o.Departs := by
  cases o <;> exact Iff.rfl

theorem Shift.StraysBy.not_departs {σ : Shift} {o : Order Task} (h : σ.StraysBy o) :
    ¬ o.Departs := by
  obtain ⟨t, rfl, -⟩ := h
  exact id

/-- How much time is left to all timeouts until the target. -/
def Loop.slack (target : Nat) (us : List (Timeout Task)) : Nat :=
  (us.map fun u => target + 1 - u.deadline).sum

theorem Loop.slack_insertTimeout (target : Nat) (u : Timeout Task) (us : List (Timeout Task)) :
    slack target (insertTimeout u us) = target + 1 - u.deadline + slack target us := by
  induction us with
  | nil => rfl
  | cons v us ih =>
    rw [insertTimeout]
    split
    · rfl
    · simp only [slack, List.map_cons, List.sum_cons] at ih ⊢
      omega

namespace Machine

/-- The machine is another one after a past, with strays. -/
structure Carries (σ : Shift) (m n : Machine Player Task) : Prop where
  /-- The player. -/
  world : Player.Carries σ m.world n.world
  /-- What is to be done. -/
  agenda : Laced σ.order Order.IsPending σ.StraysBy m.agenda n.agenda
  /-- The time, unless it moves now. -/
  now : (∀ target, m.agenda.head? ≠ some (.runUntil target)) →
    m.world.loop.now = n.world.loop.now + σ.time
  /-- There are no microtasks when time moves. -/
  drained : ∀ o ∈ m.agenda.head?, o.Departs → m.world.loop.microtasks = []
  /-- They are run just before. -/
  paced : Order.Paced m.agenda

/-- Both machines do the same next. -/
structure Abreast (σ : Shift) (m n : Machine Player Task) : Prop where
  /-- There is something to do. -/
  busy : m.agenda ≠ []
  /-- The same is seen. -/
  sight (start : Nat) : m.sight? (start + σ.time) = n.sight? start
  /-- Then, again, one is the other one after a past. -/
  step : ∃ f, Carries { σ with timeout := f } m.step n.step

variable {σ : Shift} {m n : Machine Player Task} {p q : Player} {rest rest' : Orders}

/-- A task of a script is performed in both. -/
theorem Abreast.perform (h : Player.Matches σ p q) {t : Task} (ht : t.IsOngoing)
    (ha : Laced σ.order Order.IsPending σ.StraysBy rest rest')
    (hp : Order.Paced (.perform (σ.task t) :: rest)) :
    Abreast σ ⟨p, .perform (σ.task t) :: rest⟩ ⟨q, .perform t :: rest'⟩ := by
  have hs := h.perform ht
  have hnot : ∀ b ∈ rest.head?, ¬ b.Departs := fun b hb hd => nomatch hp.1 b hb hd
  have horders : ∀ o ∈ (Player.perform (σ.task t) p).2, ¬ o.Departs :=
    hs.orders.forall_mem (fun ho => (σ.departs_order _).not.2 ho.not_departs)
      Shift.StraysBy.not_departs
  refine ⟨List.cons_ne_nil _ _, fun start => ?_, σ.timeout, hs.world.toCarries, ?_, ?_, ?_,
    hp.2.append horders hnot⟩
  · have hstep : (Machine.step ⟨p, .perform (σ.task t) :: rest⟩).world.position =
        (Machine.step ⟨q, .perform t :: rest'⟩).world.position := hs.world.position
    have hsig : signal? ⟨p, .perform (σ.task t) :: rest⟩ = signal? ⟨q, .perform t :: rest'⟩ :=
      h.signal? ht
    have hnow : p.loop.now - (start + σ.time) = q.loop.now - start := by
      rw [h.now, Nat.add_sub_add_right]
    simp only [sight?, hstep, hsig, h.position, hnow]
  · exact (hs.orders.imp Order.IsOngoing.isPending).append ha
  · exact fun _ => hs.world.now
  · exact fun o ho hd => absurd hd (Order.not_departs_head horders hnot o ho)

/-- What is not seen in either machine is done in both. -/
theorem Abreast.of_unseen (hm : m.Unseen) (hn : n.Unseen)
    (h : ∃ f, Carries { σ with timeout := f } m.step n.step) : Abreast σ m n :=
  ⟨hm.busy, fun start => (hm.sight? _).trans (hn.sight? start).symm, h⟩

theorem Unseen.of_stage {o : Order Task} (ho : signal? ⟨p, o :: rest⟩ = none)
    (hs : (Machine.step ⟨p, o :: rest⟩).world.stage = p.stage) : Unseen ⟨p, o :: rest⟩ :=
  ⟨List.cons_ne_nil _ _, ho, by rw [Player.position, Player.position, hs]⟩

theorem unseen_drain : Unseen ⟨p, .drain :: rest⟩ := by
  refine .of_stage rfl ?_
  cases hm : p.schedule.loop.microtasks with
  | nil => rw [step_drain_nil hm]
  | cons t ts =>
    rw [step_drain_cons hm]
    rfl

theorem unseen_runUntil {target : Nat} : Unseen ⟨p, .runUntil target :: rest⟩ := by
  refine .of_stage rfl ?_
  cases hpop : (World.loop p).popDue? target with
  | none =>
    simp only [Machine.step, hpop]
    rfl
  | some due =>
    simp only [Machine.step, hpop]
    rfl

/-- Time is going to move in both. -/
theorem Abreast.advance (h : Player.Matches σ p q) (d : Nat)
    (ha : Laced σ.order Order.IsPending σ.StraysBy rest rest')
    (hp : Order.Paced (.advance d :: rest)) :
    Abreast σ ⟨p, .advance d :: rest⟩ ⟨q, .advance d :: rest'⟩ := by
  have hnot : ∀ b ∈ rest.head?, ¬ b.Departs := fun b hb hd => nomatch hp.1 b hb hd
  refine .of_unseen (.of_stage rfl rfl) (.of_stage rfl rfl) ⟨σ.timeout, h.toCarries, ?_,
    fun _ => h.now, fun o ho hd => ?_, fun _ _ _ => rfl, fun b hb hd => absurd hd (hnot b hb), hp.2⟩
  · exact (ha.own (a := .depart d) trivial).own (a := .drain) trivial
  · obtain rfl : Order.drain = o := Option.some.inj ho
    exact hd.elim

/-- It moves in both. -/
theorem Abreast.depart (h : Player.Matches σ p q) (hm : p.loop.microtasks = []) (d : Nat)
    (ha : Laced σ.order Order.IsPending σ.StraysBy rest rest')
    (hp : Order.Paced (.depart d :: rest)) :
    Abreast σ ⟨p, .depart d :: rest⟩ ⟨q, .depart d :: rest'⟩ := by
  have hnot : ∀ b ∈ rest.head?, ¬ b.Departs := fun b hb hd => nomatch hp.1 b hb hd
  have htarget : p.loop.now + d = q.loop.now + d + σ.time := by
    rw [h.now]
    omega
  refine .of_unseen (.of_stage rfl rfl) (.of_stage rfl rfl) ⟨σ.timeout, h.toCarries, ?_,
    fun hnow => absurd rfl (hnow _), fun _ _ _ => hm, fun b hb hd => absurd hd (hnot b hb), hp.2⟩
  have hl := ha.own (a := .runUntil (q.loop.now + d)) trivial
  rw [Shift.order, ← htarget] at hl
  exact hl

/-- The microtasks have been run in both. -/
theorem Abreast.drain_nil (h : Player.Matches σ p q) (hm : p.loop.microtasks = [])
    (hm' : q.loop.microtasks = []) (ha : Laced σ.order Order.IsPending σ.StraysBy rest rest')
    (hp : Order.Paced (.drain :: rest)) : Abreast σ ⟨p, .drain :: rest⟩ ⟨q, .drain :: rest'⟩ := by
  refine .of_unseen unseen_drain unseen_drain ⟨σ.timeout, ?_⟩
  rw [step_drain_nil hm, step_drain_nil hm']
  exact ⟨h.toCarries, ha, fun _ => h.now, fun _ _ _ => hm, hp.2⟩

/-- A microtask is run in both. -/
theorem Abreast.drain_cons (h : Player.Matches σ p q) {t : Task} {ts ts' : List Task}
    (hp : p.loop.microtasks = σ.task t :: ts) (hq : q.loop.microtasks = t :: ts')
    (ht : t.IsOngoing) (hts : Laced σ.task Task.IsOngoing σ.IsStray ts ts')
    (ha : Laced σ.order Order.IsPending σ.StraysBy rest rest')
    (hpaced : Order.Paced (.drain :: rest)) :
    Abreast σ ⟨p, .drain :: rest⟩ ⟨q, .drain :: rest'⟩ := by
  refine .of_unseen unseen_drain unseen_drain ⟨σ.timeout, ?_⟩
  rw [step_drain_cons hp, step_drain_cons hq]
  refine ⟨{ h.toCarries with schedule := { h.schedule with microtasks := hts } }, ?_,
    fun _ => h.now, fun o ho hd => ?_, fun b hb hd => ?_, hpaced⟩
  · exact (ha.own (a := .drain) trivial).own (a := .perform t) ht
  · obtain rfl : Order.perform (σ.task t) = o := Option.some.inj ho
    exact hd.elim
  · obtain rfl : Order.drain = b := Option.some.inj hb
    exact hd.elim

/-- Strays among the microtasks are run before. -/
theorem follow_drain (h : Player.Matches σ p q)
    (ha : Laced σ.order Order.IsPending σ.StraysBy rest rest')
    (hpaced : Order.Paced (.drain :: rest)) :
    ∃ f m, Leads Unseen ⟨p, .drain :: rest⟩ m ∧
      Abreast { σ with timeout := f } m ⟨q, .drain :: rest'⟩ := by
  induction hp : p.loop.microtasks generalizing p σ with
  | nil =>
    have hl := h.schedule.microtasks
    rw [show p.schedule.loop.microtasks = [] from hp] at hl
    cases hq : q.schedule.loop.microtasks with
    | nil => exact ⟨σ.timeout, _, .refl, .drain_nil h hp hq ha hpaced⟩
    | cons t ts =>
      rw [hq] at hl
      cases hl
  | cons t ts ih =>
    have hl := h.schedule.microtasks
    rw [show p.schedule.loop.microtasks = t :: ts from hp] at hl
    generalize hq : q.schedule.loop.microtasks = ts' at hl
    cases hl with
    | own ht hts => exact ⟨σ.timeout, _, .refl, .drain_cons h hp hq ht hts ha hpaced⟩
    | stray ht hts =>
      have hc : Player.Carries σ (World.withLoop p { p.schedule.loop with microtasks := ts }) q :=
        { h.toCarries with schedule := { h.schedule with microtasks := hq ▸ hts } }
      obtain ⟨p', hlead, hs⟩ := hc.leads_stray ht (.drain :: rest)
      obtain ⟨f, hc'⟩ := hs.carries
      obtain ⟨f', m, hlead', hab⟩ := ih (σ := { σ with timeout := f }) ⟨hc', hs.now.trans h.now⟩
        ha hs.microtasks
      refine ⟨f', m, .step unseen_drain ?_, hab⟩
      rw [step_drain_cons hp]
      exact hlead.trans hlead'

/-- A timeout of the script is due. -/
theorem Abreast.due (h : Player.Carries σ p q) {u : Timeout Task}
    {us us' : List (Timeout Task)} {target : Nat}
    (hp : p.loop.timeouts = σ.due u :: us) (hq : q.loop.timeouts = u :: us')
    (hu : u.task.IsOngoing) (hl : Laced σ.due (fun u => u.task.IsOngoing)
      (fun u => σ.IsStray u.task ∧ ∀ i, u.id ≠ σ.timeout i) us us')
    (hd : u.deadline ≤ target) (ha : Laced σ.order Order.IsPending σ.StraysBy rest rest')
    (hpaced : Order.Paced (.runUntil (target + σ.time) :: rest)) :
    Abreast σ ⟨p, .runUntil (target + σ.time) :: rest⟩ ⟨q, .runUntil target :: rest'⟩ := by
  refine .of_unseen unseen_runUntil unseen_runUntil ⟨σ.timeout, ?_⟩
  have hsorted := h.schedule.sorted
  have hnumbered := h.schedule.numbered
  rw [show p.schedule.loop.timeouts = _ from hp] at hsorted
  rw [show q.schedule.loop.timeouts = _ from hq] at hnumbered
  rw [step_runUntil_due hp (Nat.add_le_add_right hd _), step_runUntil_due hq hd]
  refine ⟨{ h with schedule := { h.schedule with
      timeouts := hl
      sorted := (List.pairwise_cons.1 hsorted).2
      numbered := (List.forall_mem_cons.1 hnumbered).2 } }, ?_,
    fun _ => rfl, fun o ho hd => ?_, fun b hb hd => ?_, fun _ _ _ => rfl, hpaced⟩
  · exact ((ha.own (a := .runUntil target) trivial).own (a := .drain) trivial).own
      (a := .perform u.task) hu
  · obtain rfl : Order.perform (σ.task u.task) = o := Option.some.inj ho
    exact hd.elim
  · obtain rfl : Order.drain = b := Option.some.inj hb
    exact hd.elim

/-- Nothing is due in either. -/
theorem Abreast.idle (h : Player.Carries σ p q) (hm : p.loop.microtasks = []) {target : Nat}
    (hp : ∀ u ∈ p.loop.timeouts.head?, target + σ.time < u.deadline)
    (hq : ∀ u ∈ q.loop.timeouts.head?, target < u.deadline)
    (ha : Laced σ.order Order.IsPending σ.StraysBy rest rest')
    (hpaced : Order.Paced (.runUntil (target + σ.time) :: rest)) :
    Abreast σ ⟨p, .runUntil (target + σ.time) :: rest⟩ ⟨q, .runUntil target :: rest'⟩ := by
  refine .of_unseen unseen_runUntil unseen_runUntil ⟨σ.timeout, ?_⟩
  rw [step_runUntil_idle hp, step_runUntil_idle hq]
  exact ⟨{ h with schedule := { h.schedule with } }, ha, fun _ => rfl, fun _ _ _ => hm, hpaced.2⟩

/-- A stray timeout that is due is performed. If it comes back it does so later than it was due, so
there is less to do than before. -/
theorem leads_stray_due (h : Player.Carries σ p q) (hm : p.loop.microtasks = [])
    {u : Timeout Task} {us : List (Timeout Task)} {target : Nat} (hp : p.loop.timeouts = u :: us)
    (hd : u.deadline ≤ target) (hu : σ.IsStray u.task)
    (hl : Laced σ.due (fun u => u.task.IsOngoing)
      (fun u => σ.IsStray u.task ∧ ∀ i, u.id ≠ σ.timeout i) us q.schedule.loop.timeouts)
    (rest : Orders) :
    ∃ f p', Leads Unseen ⟨p, .runUntil target :: rest⟩ ⟨p', .runUntil target :: rest⟩ ∧
      Player.Carries { σ with timeout := f } p' q ∧ p'.loop.microtasks = [] ∧
        Loop.slack target p'.loop.timeouts < Loop.slack target p.loop.timeouts := by
  have hsorted := h.schedule.sorted
  rw [show p.schedule.loop.timeouts = u :: us from hp] at hsorted
  have hc : Player.Carries σ
      (World.withLoop p { p.schedule.loop with now := u.deadline, timeouts := us }) q :=
    { h with schedule := { h.schedule with
      timeouts := hl
      sorted := (List.pairwise_cons.1 hsorted).2 } }
  obtain ⟨p', hlead, hs⟩ := hc.leads_stray hu (.drain :: .runUntil target :: rest)
  obtain ⟨f, hc'⟩ := hs.carries
  have hm' : p'.loop.microtasks = [] := hs.microtasks.trans hm
  refine ⟨f, p', .step unseen_runUntil ?_, hc', hm', ?_⟩
  · rw [step_runUntil_due hp hd]
    refine hlead.trans (.step unseen_drain ?_)
    rw [step_drain_nil hm']
    exact .refl
  · have hslack : Loop.slack target p.loop.timeouts =
        target + 1 - u.deadline + Loop.slack target us := by
      rw [hp]
      rfl
    rw [hslack]
    rcases hs.timeouts with heq | ⟨v, hv, heq⟩
    · rw [show p'.loop.timeouts = us from heq]
      omega
    · rw [show p'.loop.timeouts = Loop.insertTimeout v us from heq, Loop.slack_insertTimeout]
      have hv : u.deadline < v.deadline := hv
      omega

/-- Strays among the timeouts are performed before. There is an end to them. -/
theorem follow_runUntil (h : Player.Carries σ p q) (hm : p.loop.microtasks = []) (target : Nat)
    (ha : Laced σ.order Order.IsPending σ.StraysBy rest rest')
    (hpaced : Order.Paced (.runUntil (target + σ.time) :: rest)) :
    ∃ f m, Leads Unseen ⟨p, .runUntil (target + σ.time) :: rest⟩ m ∧
      Abreast { σ with timeout := f } m ⟨q, .runUntil target :: rest'⟩ := by
  induction hn : Loop.slack (target + σ.time) p.loop.timeouts using Nat.strongRecOn
    generalizing p σ with
  | ind n ih =>
    have hl := h.schedule.timeouts
    have hsorted := h.schedule.sorted
    cases hp : p.schedule.loop.timeouts with
    | nil =>
      rw [hp] at hl
      cases hq : q.schedule.loop.timeouts with
      | nil =>
        refine ⟨σ.timeout, _, .refl, .idle h hm (fun u hu => ?_) (fun u hu => ?_) ha hpaced⟩
        · rw [show p.loop.timeouts = [] from hp] at hu
          cases hu
        · rw [show q.loop.timeouts = [] from hq] at hu
          cases hu
      | cons u us =>
        rw [hq] at hl
        cases hl
    | cons u us =>
      rw [hp] at hl hsorted
      have hfirst := (List.pairwise_cons.1 hsorted).1
      by_cases hd : u.deadline ≤ target + σ.time
      · generalize hq : q.schedule.loop.timeouts = us' at hl
        cases hl with
        | own hu hl =>
          exact ⟨σ.timeout, _, .refl,
            .due h hp hq hu hl (Nat.le_of_add_le_add_right hd) ha hpaced⟩
        | stray hu hl =>
          obtain ⟨f, p', hlead, hc, hm', hless⟩ :=
            leads_stray_due h hm hp hd hu.1 (hq ▸ hl) rest
          obtain ⟨f', m, hlead', hab⟩ :=
            ih _ (hn ▸ hless) (σ := { σ with timeout := f }) hc hm' ha hpaced rfl
          exact ⟨f', m, hlead.trans hlead', hab⟩
      · -- what the other machine has is due no earlier
        refine ⟨σ.timeout, _, .refl, .idle h hm (fun v hv => ?_) (fun v hv => ?_) ha hpaced⟩
        · rw [show p.loop.timeouts = u :: us from hp] at hv
          obtain rfl : u = v := Option.some.inj hv
          omega
        · have hmem := (hl.own_of_mem v (List.mem_of_mem_head? hv)).2
          have hle : u.deadline ≤ v.deadline + σ.time := by
            rcases List.mem_cons.1 hmem with heq | hmem
            · rw [← heq]
              exact Nat.le_refl _
            · exact hfirst _ hmem
          omega

/-- Strays at the front of the agenda are performed. -/
theorem Carries.catchUp (h : Carries σ m n) :
    ∃ f p, ∃ agenda : Orders, Leads Unseen m ⟨p, agenda⟩ ∧
      Carries { σ with timeout := f } ⟨p, agenda⟩ n ∧
        (agenda = [] ∧ n.agenda = [] ∨ ∃ o rest rest', agenda = σ.order o :: rest ∧
          n.agenda = o :: rest' ∧ o.IsPending ∧
            Laced σ.order Order.IsPending σ.StraysBy rest rest') := by
  obtain ⟨p, agenda⟩ := m
  induction agenda generalizing p σ with
  | nil =>
    have ha := h.agenda
    cases hn : n.agenda with
    | nil => exact ⟨σ.timeout, p, [], .refl, h, .inl ⟨rfl, rfl⟩⟩
    | cons o rest =>
      rw [hn] at ha
      cases ha
  | cons o rest ih =>
    have ha := h.agenda
    generalize hn : n.agenda = agenda' at ha
    cases ha with
    | own ho ha => exact ⟨σ.timeout, p, _, .refl, h, .inr ⟨_, _, _, rfl, rfl, ho, ha⟩⟩
    | stray ho ha =>
      obtain ⟨t, rfl, ht⟩ := ho
      obtain ⟨p', hlead, hs⟩ := h.world.leads_stray ht rest
      obtain ⟨f, hc⟩ := hs.carries
      have hnow := h.now fun target heq => by cases heq
      obtain ⟨f', q, agenda, hlead', hc', hfront⟩ := ih (σ := { σ with timeout := f }) p'
        ⟨hc, hn ▸ ha, fun _ => hs.now.trans hnow,
          fun b hb hd => absurd (h.paced.1 b hb hd) nofun, h.paced.2⟩
      exact ⟨f', q, agenda, hlead.trans hlead', hc', hn ▸ hfront⟩

/-- **A machine with a past** does what the one without does next, after unseen steps. -/
theorem Carries.follow (h : Carries σ m n) (hn : n.agenda ≠ []) :
    ∃ f l, Leads Unseen m l ∧ Abreast { σ with timeout := f } l n := by
  obtain ⟨f, p, agenda, hlead, hc, ⟨-, hnil⟩ | ⟨o, rest, rest', rfl, hagenda, ho, ha⟩⟩ := h.catchUp
  · exact absurd hnil hn
  · obtain ⟨q, agenda'⟩ := n
    obtain rfl : agenda' = o :: rest' := hagenda
    suffices ∃ f' l, Leads Unseen ⟨p, σ.order o :: rest⟩ l ∧
        Abreast { σ with timeout := f' } l ⟨q, o :: rest'⟩ by
      obtain ⟨f', l, hlead', hab⟩ := this
      exact ⟨f', l, hlead.trans hlead', hab⟩
    have hmatch (hne : ∀ target, o ≠ .runUntil target) :
        Player.Matches { σ with timeout := f } p q := by
      refine ⟨hc.world, hc.now fun target heq => ?_⟩
      cases o with
      | runUntil target => exact hne target rfl
      | _ => cases heq
    cases o with
    | perform t => exact ⟨f, _, .refl, .perform (hmatch nofun) ho ha hc.paced⟩
    | drain => exact follow_drain (σ := { σ with timeout := f }) (hmatch nofun) ha hc.paced
    | advance d => exact ⟨f, _, .refl, .advance (hmatch nofun) d ha hc.paced⟩
    | depart d =>
      exact ⟨f, _, .refl, .depart (hmatch nofun) (hc.drained _ rfl trivial) d ha hc.paced⟩
    | runUntil target =>
      have hm : p.loop.microtasks = [] := hc.drained _ rfl trivial
      exact follow_runUntil (σ := { σ with timeout := f }) hc.world hm target ha hc.paced
    | halt => exact ho.elim

end Machine

end Novella
