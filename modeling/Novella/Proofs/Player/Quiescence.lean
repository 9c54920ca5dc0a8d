import Novella.Proofs.Player.ActiveInstruction
import Novella.Proofs.Player.Exclusion
import Novella.Proofs.Player.StaleLoad

/-!
# When nothing is left to do

Phase, active handler, queue, tickets, lines and the request for a scene are changed by many
operations, and each of these changes some of them only. When no task and no microtask is left they
fit together: the player waits exactly if there is a handler to take the input, and this handler is
that of the last instruction, which has not been finished. Otherwise the player is idle, or it loads
a scene for which it has asked.

What is left to do bears the difference. A command that has started is concluded before anything
else, and an instruction that was cut off leaves a delivery of the scene or of the index behind,
which interrupts whatever has come of it. For this the loop must not turn while a command starts, so
the calls that a host leaves with the player must not make it turn.

## Main definitions

* `Machine.TurnsFromOutside` — what the host has left with the player does not make the loop turn
* `LeftBy`, `Newest` — where a handler and an instruction come from
* `Manned` — what the seat of a player has to do with its agenda
* `Quiescent` — phase, handler, queue, lines and request fit together

## Main results

* `Machine.turn` — what a step does to the seat
* `quiescent_of_rest` — when nothing is left to do all fits together
-/

namespace Novella

open Player

/-! ### What has happened -/

namespace Machine

variable (m : Machine Player Task)

/-- The call that comes next, and on whose account. -/
def call? : Option (Audience × HostCall) :=
  match m.agenda with
  | .perform (.call a c) :: _ => some (a, c)
  | _ => none

/-- If a call comes next that makes the loop turn it is the host's own, and not one that the host
has left with the player. -/
def TurnsFromOutside : Prop := ∀ x ∈ m.call?, x.2.turns = true → x.1 = .caller

instance : Decidable m.TurnsFromOutside :=
  inferInstanceAs (Decidable (∀ x ∈ m.call?, x.2.turns = true → x.1 = .caller))

/-- The instruction of the ticket leaves a handler behind and goes on to wait. -/
def Hands (t : Ticket) (x : Handler) : Prop :=
  t ∈ m.world.live ∧ ∃ rest, m.agenda = .perform (.conclude t (.pending x)) :: rest

end Machine

/-- The handler is the one that was left behind last, by the instruction of the ticket. -/
def LeftBy (h : List (Machine Player Task)) (t : Ticket) (x : Handler) : Prop :=
  Since (fun n => ∀ u, ¬ n.Suspends u) (fun n => n.Hands t x) h

/-- The instruction of the ticket is the one that was begun last. -/
def Newest (h : List (Machine Player Task)) (t : Ticket) : Prop :=
  Since (fun n => ¬ n.Dispatches) (fun n => t ∉ n.world.live ∧ t ∈ n.step.world.live) h

/-! ### What a step does to the seat -/

/-- What a step does to the seat of the player and to the agenda. -/
inductive Machine.Turn (m : Machine Player Task) : Prop where
  /-- There is nothing to do. -/
  | none : m.agenda = [] → Turn m
  /-- Something is done that is no delivery. An instruction that is concluded here is finished. -/
  | shift {o : Order Task} {rest orders : Orders} : m.agenda = o :: rest →
      (∀ u, ¬ m.Suspends u) → m.step.agenda = orders ++ rest →
      Seat.Shift m.world.seat (m.step.world, orders) →
      (m.world.seat.Busy → ∀ x, o = .perform (.conclude m.world.seat.current x) →
        m.world.seat.current ∉ m.step.world.live) → Turn m
  /-- A cell is heard. -/
  | hear {o : Order Task} {rest orders : Orders} : m.agenda = o :: rest → ¬ o.IsLight →
      ¬ o.Concludes → m.step.agenda = orders ++ rest →
      Seat.Hearing m.world.seat (m.step.world, orders) → Turn m
  /-- An instruction goes on to wait. -/
  | suspend {t : Ticket} {x : Handler} {rest : Orders} :
      m.agenda = .perform (.conclude t (.pending x)) :: rest → t ∈ m.world.live →
      m.step.agenda = rest →
      m.step.world.seat = { m.world.seat with active := some x, phase := .awaiting } → Turn m
  /-- The loop turns. -/
  | loop {o : Order Task} {rest : Orders} : m.agenda = o :: rest → ¬ o.IsLight →
      ¬ o.Concludes → (∀ x ∈ m.step.agenda, x ∈ rest ∨ ¬ x.Concludes) →
      Seat.Shift m.world.seat (m.step.world, []) → Turn m

namespace Machine

variable {m : Machine Player Task} {p : Player} {rest : Orders}

theorem not_suspends {o : Order Task} (h : m.agenda = o :: rest) (ho : ¬ o.Concludes)
    (u : Ticket) : ¬ m.Suspends u := by
  rintro ⟨-, x, rest', heq⟩
  cases h.symm.trans heq
  exact ho ⟨_, _, rfl⟩

/-- A task that is neither a delivery nor the end of a start. -/
theorem turn_of_shift {t : Task} (hc : ∀ u x, t ≠ .conclude u x)
    (hs : Seat.Shift p.seat (perform t p)) : Turn ⟨p, .perform t :: rest⟩ := by
  have ho : ¬ (Order.perform t).Concludes := by
    rintro ⟨u, x, heq⟩
    cases heq
    exact hc u x rfl
  refine .shift rfl (not_suspends rfl ho) rfl hs fun _ x heq => ?_
  exact absurd ⟨_, x, heq⟩ ho

theorem turn_conclude (hn : p.live.Nodup) (t : Ticket) (x : Completion) :
    Turn ⟨p, .perform (.conclude t x) :: rest⟩ := by
  have current {y : Completion} (heq : (Order.perform (Task.conclude t x)) =
      .perform (.conclude p.seat.current y)) : t = p.seat.current := by
    injection heq with heq
    injection heq
  cases x with
  | completed =>
    refine .shift rfl (fun u => ?_) rfl (Seat.finish p t) fun hb x heq => ?_
    · rintro ⟨-, x, rest', heq⟩
      cases heq
    · obtain rfl := current heq
      exact Seat.not_mem_finish_current hn hb
  | pending x =>
    obtain ⟨ho, hs⟩ := Seat.conclude_pending p t x
    have ho' : (p.conclude t (.pending x)).2 ++ rest = [] ++ rest := by rw [ho]
    by_cases hm : t ∈ p.live
    · rw [if_pos hm] at hs
      exact .suspend rfl hm ho' hs
    · rw [if_neg hm] at hs
      refine .shift rfl (fun u => ?_) ho' (.stay hs .nil) fun hb y heq => ?_
      · rintro ⟨hu, y, rest', heq⟩
        cases heq
        exact hm hu
      · obtain rfl := current heq
        exact absurd hb hm

theorem turn_call {a : Audience} {c : HostCall}
    (hout : TurnsFromOutside ⟨p, .perform (.call a c) :: rest⟩) :
    Turn ⟨p, .perform (.call a c) :: rest⟩ := by
  cases hc : c.turns with
  | false =>
    refine turn_of_shift (fun u x h => by cases h) ?_
    exact (Seat.call p hc).concat (o := .perform _) trivial
  | true =>
    obtain ⟨hs, ho⟩ := Seat.call_of_turns p hc
    have ha : a = .caller := hout (a, c) rfl hc
    refine .loop rfl (fun h => h ha) (by simp [Order.Concludes]) (fun o hmem => ?_) (.stay hs .nil)
    rcases List.mem_append.1 hmem with hmem | hmem
    · rcases List.mem_append.1 hmem with hmem | hmem
      · exact .inr (ho o hmem)
      · rw [List.mem_singleton.1 hmem]
        exact .inr (by simp [Order.Concludes])
    · exact .inl hmem

/-- The loop brings out something that it has held. -/
theorem turn_of_loop {o : Order Task} {q : Player} (orders : Orders) (ho : ¬ o.IsLight)
    (hc : ¬ o.Concludes) (hstep : step ⟨p, o :: rest⟩ = ⟨q, orders ++ rest⟩)
    (hs : q.seat = p.seat) (hn : ∀ x ∈ orders, ¬ x.Concludes) : Turn ⟨p, o :: rest⟩ := by
  refine .loop rfl ho hc (fun x hx => ?_) (.stay (by rw [hstep]; exact hs) .nil)
  rw [hstep] at hx
  rcases List.mem_append.1 hx with hx | hx
  · exact .inr (hn x hx)
  · exact .inl hx

theorem turn_perform (ht : p.Tame HostCall.KeepsPlace) (hn : p.live.Nodup) {t : Task}
    (hout : TurnsFromOutside ⟨p, .perform t :: rest⟩) : Turn ⟨p, .perform t :: rest⟩ := by
  have light {orders : Orders} (h : ∀ o ∈ orders, ∃ u, o = .perform u ∧ u.IsTimed) :
      Light orders := by
    refine ⟨fun o ho => ?_⟩
    obtain ⟨u, rfl, hu⟩ := h o ho
    cases u <;> trivial
  cases t with
  | deliver c =>
    refine .loop rfl id (by simp [Order.Concludes]) (fun o hmem => ?_) (.nil rfl)
    rcases List.mem_append.1 hmem with hmem | hmem
    · obtain ⟨id, -, rfl⟩ := List.mem_map.1 hmem
      exact .inr (by simp [Order.Concludes])
    · exact .inl hmem
  | hear c k v =>
    exact .hear rfl id (by simp [Order.Concludes]) rfl (Seat.hear p c k v)
  | ring k =>
    refine turn_of_shift (fun u x h => by cases h) (.stay rfl (light fun o ho => ?_))
    obtain ⟨u, hu, rfl⟩ := List.mem_map.1 ho
    exact ⟨u, rfl, ht.isTimed_of_ring (Option.mem_toList.1 hu)⟩
  | finish t => exact turn_of_shift (fun u x h => by cases h) (Seat.finish p t)
  | conclude t x => exact turn_conclude hn t x
  | reveal r a => exact turn_of_shift (fun u x h => by cases h) (Seat.actReveal p r a)
  | call a c => exact turn_call hout
  | report a x =>
    exact turn_of_shift (fun u y h => by cases h) (.nil (seat_report p x a))
  | note e => exact turn_of_shift (fun u x h => by cases h) (.nil rfl)
  | load =>
    obtain ⟨hs, ho⟩ := Seat.load p
    refine .loop rfl id (by simp [Order.Concludes]) (fun o hmem => ?_) hs
    rcases List.mem_append.1 hmem with hmem | hmem
    · exact .inr (ho o hmem)
    · exact .inl hmem

/-- **One step.** It does one of few things to the seat. -/
theorem turn (ht : m.world.Tame HostCall.KeepsPlace) (hn : m.world.live.Nodup)
    (hout : m.TurnsFromOutside) : m.Turn := by
  obtain ⟨p, agenda⟩ := m
  cases agenda with
  | nil => exact .none rfl
  | cons o rest =>
    cases o with
    | perform t => exact turn_perform ht hn hout
    | drain =>
      cases hpop : (World.loop p).popMicrotask? with
      | none =>
        refine turn_of_loop (q := p) [] id (by simp [Order.Concludes]) ?_ rfl (by simp)
        simp only [step, hpop]
        rfl
      | some due =>
        obtain ⟨t, l⟩ := due
        obtain ⟨c, rfl⟩ := ht.deliver_of_popMicrotask? hpop
        refine turn_of_loop (q := World.withLoop p l) [.perform (.deliver c), .drain] id
          (by simp [Order.Concludes]) ?_ rfl (by simp [Order.Concludes])
        simp only [step, hpop]
        rfl
    | advance d =>
      exact turn_of_loop [.drain, .depart d] id (by simp [Order.Concludes]) rfl rfl
        (by simp [Order.Concludes])
    | depart d =>
      exact turn_of_loop [_] id (by simp [Order.Concludes]) rfl rfl (by simp [Order.Concludes])
    | runUntil target =>
      cases hpop : (World.loop p).popDue? target with
      | none =>
        refine turn_of_loop (q := World.withLoop p { World.loop p with now := target }) [] id
          (by simp [Order.Concludes]) ?_ rfl (by simp)
        simp only [step, hpop]
        rfl
      | some due =>
        obtain ⟨t, l⟩ := due
        have htimed := ht.isTimed_of_popDue? hpop
        refine turn_of_loop (q := World.withLoop p l) [.perform t, .drain, .runUntil target] id
          (by simp [Order.Concludes]) ?_ rfl ?_
        · simp only [step, hpop]
          rfl
        · cases t <;> first | exact htimed.elim | simp [Order.Concludes]
    | halt =>
      refine .loop rfl id (by simp [Order.Concludes]) (fun x hx => ?_) (.nil rfl)
      exact absurd hx List.not_mem_nil

end Machine

/-! ### Seat and agenda -/

/-- What is left of the starts of commands comes first, and is light. -/
structure Prompt (agenda : Orders) : Prop where
  /-- First comes what belongs to starts, and then what does not. -/
  split : ∃ now later, agenda = now ++ later ∧ (∀ o ∈ now, o.IsLight ∨ o.Concludes) ∧
    ∀ o ∈ later, ¬ o.Concludes

namespace Prompt

variable {o : Order Task} {rest orders : Orders}

theorem of_none (h : ∀ o ∈ orders, ¬ o.Concludes) : Prompt orders :=
  ⟨[], orders, rfl, fun _ ho => absurd ho List.not_mem_nil, h⟩

/-- In the place of an order there may be light ones, and ends of starts. -/
theorem replace (h : Prompt (o :: rest)) (ho : ∀ x ∈ orders, x.IsLight ∨ x.Concludes) :
    Prompt (orders ++ rest) := by
  obtain ⟨now, later, heq, hn, hl⟩ := h.split
  cases now with
  | nil =>
    refine ⟨orders, rest, rfl, ho, fun x hx => hl x ?_⟩
    change o :: rest = later at heq
    rw [← heq]
    exact List.mem_cons_of_mem _ hx
  | cons a now =>
    obtain ⟨rfl, rfl⟩ := List.cons.inj heq
    refine ⟨orders ++ now, later, (List.append_assoc ..).symm, fun x hx => ?_, hl⟩
    rcases List.mem_append.1 hx with hx | hx
    · exact ho x hx
    · exact hn x (List.mem_cons_of_mem _ hx)

/-- Nothing that turns the loop comes before the end of a start. -/
theorem none_of_not_light (h : Prompt (o :: rest)) (ho : ¬ o.IsLight) (hc : ¬ o.Concludes) :
    ∀ x ∈ rest, ¬ x.Concludes := by
  obtain ⟨now, later, heq, hn, hl⟩ := h.split
  cases now with
  | nil =>
    intro x hx
    change o :: rest = later at heq
    exact hl x (heq ▸ List.mem_cons_of_mem _ hx)
  | cons a now =>
    obtain ⟨rfl, rfl⟩ := List.cons.inj heq
    exact ((hn o List.mem_cons_self).elim ho hc).elim

end Prompt

/-- What the seat of a player has to do with its agenda. -/
structure Manned (h : List (Machine Player Task)) (s : Seat) (agenda : Orders) : Prop where
  /-- Commands that are starting are concluded before anything else. -/
  prompt : Prompt agenda
  /-- Without lines nothing is under way. -/
  vacant : s.phase = .idle ∨ s.phase = .loading →
    s.active = none ∧ s.queue = [] ∧ ¬ s.Busy ∧ ∀ o ∈ agenda, ¬ o.Concludes
  /-- What is queued comes after the instruction under way. -/
  queue : s.queue ≠ [] → s.Busy
  /-- The instruction under way is starting, or it waits with its handler. -/
  busy : s.Busy → (s.active = none ∧ ∃ x, .perform (.conclude s.current x) ∈ agenda) ∨
    (s.phase = .awaiting ∧ ∃ x, s.active = some x ∧ LeftBy h s.current x)
  /-- Others that are starting have been finished or cut off. -/
  cutOff {t : Ticket} {x : Completion} : .perform (.conclude t x) ∈ agenda → t ∈ s.live →
    t = s.current ∨ ¬ s.Busy

namespace Manned

variable {m : Machine Player Task} {h : List (Machine Player Task)} {s s' : Seat}
  {o : Order Task} {rest orders : Orders}

/-- The instruction under way stays the same. -/
theorem remain (hm : Manned h s (o :: rest)) (hs : ∀ u, ¬ m.Suspends u)
    (ho : Light orders) (hp : s'.phase = s.phase) (hq : s'.queue = s.queue)
    (ha : s'.active = s.active) (hg : s'.generation = s.generation)
    (hl : ∀ {t}, t ∈ s'.live → t ∈ s.live) (hb : s.Busy → s'.Busy)
    (hc : s'.Busy → ∀ x, o ≠ .perform (.conclude s.current x)) :
    Manned (m :: h) s' (orders ++ rest) := by
  have hcur : s'.current = s.current := congrArg Ticket.instruction hg
  have hb' : s'.Busy → s.Busy := fun h => by
    have := hl h
    rwa [hcur] at this
  have mem {x : Order Task} (hx : x ∈ orders ++ rest) (hxc : x.Concludes) : x ∈ o :: rest := by
    rcases List.mem_append.1 hx with hx | hx
    · exact absurd hxc (ho.all x hx).not_concludes
    · exact List.mem_cons_of_mem _ hx
  refine ⟨hm.prompt.replace fun x hx => .inl (ho.all x hx), fun hv => ?_, fun hne => ?_,
    fun hbusy => ?_, fun hx ht => ?_⟩
  · rw [hp] at hv
    obtain ⟨hv₁, hv₂, hv₃, hv₄⟩ := hm.vacant hv
    exact ⟨ha.trans hv₁, hq.trans hv₂, fun h => hv₃ (hb' h), fun x hx hxc => hv₄ x (mem hx hxc) hxc⟩
  · exact hb (hm.queue (hq ▸ hne))
  · rw [hp, ha, hcur]
    rcases hm.busy (hb' hbusy) with ⟨hn, x, hx⟩ | ⟨hp, x, hx, hleft⟩
    · refine .inl ⟨hn, x, List.mem_append_right _ ?_⟩
      rcases List.mem_cons.1 hx with heq | hx
      · exact absurd heq.symm (hc hbusy x)
      · exact hx
    · exact .inr ⟨hp, x, hx, .inr ⟨hs, hleft⟩⟩
  · rw [hcur]
    exact (hm.cutOff (mem hx ⟨_, _, rfl⟩) (hl ht)).imp_right fun hn hbusy => hn (hb' hbusy)

/-- Nothing is under way any more. -/
theorem calm {agenda : Orders} (hp : Prompt agenda) (ha : s.active = none) (hq : s.queue = [])
    (hb : ¬ s.Busy) (hv : s.phase = .idle ∨ s.phase = .loading → ∀ o ∈ agenda, ¬ o.Concludes) :
    Manned h s agenda :=
  ⟨hp, fun h => ⟨ha, hq, hb, hv h⟩, fun h => absurd hq h, fun h => absurd h hb, fun _ _ => .inr hb⟩

/-- An instruction begins. -/
theorem begin {r : Player × Orders} (hp : Prompt (o :: rest)) (ha : s.active = none)
    (hn : ∀ {t x}, .perform (.conclude t x) ∈ rest → t ∉ s.live) (hb : s.Begins r) :
    Manned h r.1.seat (r.2 ++ rest) := by
  obtain ⟨⟨queue, hs⟩, before, x, after, ho, hbefore, hafter⟩ := hb
  rw [hs, ho]
  have hmem : Order.perform (.conclude (s.begin queue).current x) ∈
      before ++ .perform (.conclude (.instruction (s.generation + 1)) x) :: after ++ rest := by
    simp [Seat.current, Seat.begin]
  have hbusy : (s.begin queue).Busy := List.mem_cons_self
  refine ⟨hp.replace fun y hy => ?_, fun hv => ?_, fun _ => hbusy, fun _ => .inl ⟨ha, x, hmem⟩,
    fun hy ht => ?_⟩
  · rcases List.mem_append.1 hy with hy | hy
    · exact .inl (hbefore.all y hy)
    · rcases List.mem_cons.1 hy with rfl | hy
      · exact .inr ⟨_, _, rfl⟩
      · exact .inl (hafter.all y hy)
  · rcases hv with hv | hv <;> cases hv
  · rcases List.mem_cons.1 ht with rfl | ht
    · exact .inl rfl
    · -- an older one would have to be starting still
      rcases List.mem_append.1 hy with hy | hy
      · rcases List.mem_append.1 hy with hy | hy
        · exact absurd ⟨_, _, rfl⟩ (hbefore.all _ hy).not_concludes
        · rcases List.mem_cons.1 hy with heq | hy
          · cases heq
            exact .inl rfl
          · exact absurd ⟨_, _, rfl⟩ (hafter.all _ hy).not_concludes
      · exact absurd ht (hn hy)

/-- A handler is registered. -/
theorem suspend {t : Ticket} {x : Handler}
    (hm : Manned h s (.perform (.conclude t (.pending x)) :: rest)) (ht : t ∈ s.live)
    (hs : m.Hands t x) :
    Manned (m :: h) { s with active := some x, phase := .awaiting } rest := by
  refine ⟨?_, fun hv => ?_, hm.queue, fun hb => ?_, fun hx => hm.cutOff (List.mem_cons_of_mem _ hx)⟩
  · exact hm.prompt.replace fun x hx => absurd hx List.not_mem_nil
  · rcases hv with hv | hv <;> cases hv
  · obtain rfl : t = s.current := (hm.cutOff List.mem_cons_self ht).resolve_right fun h => h hb
    exact .inr ⟨rfl, x, rfl, .inl hs⟩

/-- Something is done that is no delivery. -/
theorem shift {r : Player × Orders} (hm : Manned h s (o :: rest)) (hn : s.live.Nodup)
    (hfresh : s.interrupt.current ∉ s.live) (hs : ∀ u, ¬ m.Suspends u) (hr : s.Shift r)
    (hcur : s.Busy → ∀ x, o = .perform (.conclude s.current x) → s.current ∉ r.1.live) :
    Manned (m :: h) r.1.seat (r.2 ++ rest) := by
  have prompt (hl : Light r.2) : Prompt (r.2 ++ rest) :=
    hm.prompt.replace fun x hx => .inl (hl.all x hx)
  have none (hl : Light r.2) (hv : s.phase = .idle ∨ s.phase = .loading) :
      ∀ x ∈ r.2 ++ rest, ¬ x.Concludes := fun x hx => by
    rcases List.mem_append.1 hx with hx | hx
    · exact (hl.all x hx).not_concludes
    · exact (hm.vacant hv).2.2.2 x (List.mem_cons_of_mem _ hx)
  cases hr with
  | stay hseat hl =>
    have hlive : r.1.live = s.live := congrArg Seat.live hseat
    rw [hlive] at hcur
    rw [hseat]
    exact hm.remain hs hl rfl rfl rfl rfl id id fun hb x heq => hcur hb x heq hb
  | spend t hne hseat hl =>
    have hlive : r.1.live = s.live.erase t := congrArg Seat.live hseat
    rw [hlive] at hcur
    rw [hseat]
    have hkeep (hb : s.Busy) : (s.spend t).Busy := (List.mem_erase_of_ne hne.symm).2 hb
    refine hm.remain hs hl rfl rfl rfl rfl List.mem_of_mem_erase hkeep fun hb x heq => ?_
    exact hcur (List.mem_of_mem_erase hb) x heq hb
  | leave hb hq hseat hl =>
    rw [hseat]
    exact calm (prompt hl) rfl hq hn.not_mem_erase fun hv => absurd hb (hm.vacant hv).2.2.1
  | next hb hbegins =>
    refine begin hm.prompt rfl (fun hx ht => ?_) hbegins
    rcases hm.cutOff (List.mem_cons_of_mem _ hx) (List.mem_of_mem_erase ht) with rfl | hnb
    · exact hn.not_mem_erase ht
    · exact hnb hb
  | jump hseat hl =>
    rw [hseat]
    exact calm (prompt hl) rfl rfl hfresh (none hl)
  | answer phase hp _ hseat hl =>
    obtain ⟨ha, hq, hb, -⟩ := hm.vacant (.inr hp)
    rw [hseat]
    exact calm (prompt hl) ha hq hb fun _ => none hl (.inr hp)

/-- A cell is heard. -/
theorem hear {r : Player × Orders} (hm : Manned h s (o :: rest))
    (hfresh : s.interrupt.current ∉ s.live) (ho : ¬ o.IsLight) (hc : ¬ o.Concludes)
    (hs : ∀ u, ¬ m.Suspends u) (hr : s.Hearing r) : Manned (m :: h) r.1.seat (r.2 ++ rest) := by
  have hrest := hm.prompt.none_of_not_light ho hc
  have none (hl : Light r.2) : ∀ x ∈ r.2 ++ rest, ¬ x.Concludes := fun x hx =>
    (List.mem_append.1 hx).elim (fun hx => (hl.all x hx).not_concludes) (hrest x)
  cases hr with
  | stay hseat hl =>
    rw [hseat]
    exact hm.remain hs hl rfl rfl rfl rfl id id fun _ x heq => hc ⟨_, x, heq⟩
  | stop phase _ hseat hl =>
    rw [hseat]
    exact calm (.of_none (none hl)) rfl rfl hfresh fun _ => none hl
  | leave _ hseat hl =>
    rw [hseat]
    exact calm (.of_none (none hl)) rfl rfl hfresh fun _ => none hl
  | start _ hbegins => exact begin hm.prompt rfl (fun hx _ => hrest _ hx ⟨_, _, rfl⟩) hbegins

/-- No command is starting, and none is going to. -/
theorem of_none {agenda agenda' : Orders} (hm : Manned h s agenda)
    (hn : ∀ o ∈ agenda, ¬ o.Concludes) (hn' : ∀ o ∈ agenda', ¬ o.Concludes) :
    Manned h s agenda' := by
  refine ⟨.of_none hn', fun hv => ?_, hm.queue, fun hb => ?_,
    fun hx => absurd ⟨_, _, rfl⟩ (hn' _ hx)⟩
  · obtain ⟨ha, hq, hb, -⟩ := hm.vacant hv
    exact ⟨ha, hq, hb, hn'⟩
  · refine .inr ((hm.busy hb).resolve_left ?_)
    rintro ⟨-, x, hx⟩
    exact hn _ hx ⟨_, _, rfl⟩

/-- Nobody registers a handler. -/
theorem cons {agenda : Orders} (hm : Manned h s agenda) (hs : ∀ u, ¬ m.Suspends u) :
    Manned (m :: h) s agenda := by
  refine ⟨hm.prompt, hm.vacant, hm.queue, fun hb => (hm.busy hb).imp_right ?_, hm.cutOff⟩
  rintro ⟨hp, x, ha, hl⟩
  exact ⟨hp, x, ha, .inr ⟨hs, hl⟩⟩

/-- **One step.** Seat and agenda go together. -/
theorem step (hm : Manned h m.world.seat m.agenda) (ho : m.world.course.Ordered) (ht : m.Turn) :
    Manned (m :: h) m.step.world.seat m.step.agenda := by
  have hfresh : m.world.seat.interrupt.current ∉ m.world.seat.live := ho.not_busy_interrupt
  cases ht with
  | none hag =>
    rw [Machine.step_of_agenda_eq_nil hag]
    refine hm.cons fun u => ?_
    rintro ⟨-, x, rest, heq⟩
    cases hag.symm.trans heq
  | shift hag hs hstep hr hcur =>
    rw [hag] at hm
    rw [hstep]
    exact hm.shift ho.nodup hfresh hs hr hcur
  | hear hag hnl hnc hstep hr =>
    rw [hag] at hm
    rw [hstep]
    exact hm.hear hfresh hnl hnc (Machine.not_suspends hag hnc) hr
  | suspend hag hlive hstep hseat =>
    rw [hag] at hm
    rw [hstep, hseat]
    exact hm.suspend hlive ⟨hlive, _, hag⟩
  | loop hag hnl hnc hmem hr =>
    rw [hag] at hm
    have hrest := hm.prompt.none_of_not_light hnl hnc
    have hs := hm.shift ho.nodup hfresh (Machine.not_suspends hag hnc) hr
      fun _ x heq => absurd ⟨_, x, heq⟩ hnc
    exact hs.of_none hrest fun x hx => (hmem x hx).elim (hrest x) id

end Manned

/-! ### Turns of the script -/

namespace Seat

variable {s : Seat} {r : Player × Orders}

theorem Shift.phase_ne (h : s.Shift r) (hp : s.phase ≠ .awaiting) : r.1.phase ≠ .awaiting := by
  change r.1.seat.phase ≠ .awaiting
  cases h with
  | stay hs _ => rwa [hs]
  | spend t _ hs _ => rwa [hs]
  | leave _ _ hs _ => rwa [hs]
  | next _ hb =>
    obtain ⟨queue, hs⟩ := hb.seat
    rw [hs]
    exact Phase.noConfusion
  | jump hs _ => rwa [hs]
  | answer phase _ hc hs _ =>
    rw [hs]
    rcases hc with rfl | rfl <;> exact Phase.noConfusion

theorem Hearing.phase_ne (h : s.Hearing r) (hp : s.phase ≠ .awaiting) :
    r.1.phase ≠ .awaiting := by
  change r.1.seat.phase ≠ .awaiting
  cases h with
  | stay hs _ => rwa [hs]
  | stop phase hc hs _ =>
    rw [hs]
    rcases hc with rfl | rfl <;> exact Phase.noConfusion
  | leave _ hs _ =>
    rw [hs]
    exact Phase.noConfusion
  | start _ hb =>
    obtain ⟨queue, hs⟩ := hb.seat
    rw [hs]
    exact Phase.noConfusion

end Seat

/-- Without lines no instruction goes on to wait. -/
theorem Manned.phase_ne {m : Machine Player Task} {h : List (Machine Player Task)}
    (hm : Manned h m.world.seat m.agenda) (ht : m.Turn)
    (hv : m.world.phase = .idle ∨ m.world.phase = .loading) : m.step.world.phase ≠ .awaiting := by
  have hp : m.world.seat.phase ≠ .awaiting := by
    change m.world.phase ≠ .awaiting
    rcases hv with hv | hv <;> rw [hv] <;> exact Phase.noConfusion
  cases ht with
  | none hag =>
    rw [Machine.step_of_agenda_eq_nil hag]
    exact hp
  | shift _ _ _ hr _ => exact hr.phase_ne hp
  | hear _ _ _ _ hr => exact hr.phase_ne hp
  | suspend hag _ _ _ =>
    have hn := (hm.vacant hv).2.2.2
    rw [hag] at hn
    exact absurd ⟨_, _, rfl⟩ (hn _ List.mem_cons_self)
  | loop _ _ _ _ hr => exact hr.phase_ne hp

/-- A player with its agenda on a course. If nothing is under way there is no scene, or the script
is going to have a turn. -/
structure Poised (h : List (Machine Player Task)) (m : Machine Player Task) (c : Course) :
    Prop where
  /-- Tickets are in order. -/
  ordered : c.Ordered
  /-- Seat and agenda go together. -/
  manned : Manned h m.world.seat m.agenda
  /-- The script stands still only without lines. -/
  turns : ¬ c.Busy → c.turns ≠ [] ∨ c.phase = .idle ∨ c.phase = .loading
  /-- The instruction under way is the last one. -/
  newest : c.Busy → Newest h c.current

namespace Course

variable {c c' : Course} {x : CellName}

theorem mem_turn_self (c : Course) (x : CellName) : x ∈ (c.turn x).turns := by
  rw [turn]
  dsimp only
  split
  · next h => exact h
  · exact List.mem_append_right _ List.mem_cons_self

theorem mem_moveTo (i : UInt64) (h : x ∈ c.turns) : x ∈ (c.moveTo i).turns := by
  obtain ⟨ts, heq, rfl | ⟨-, rfl⟩⟩ := c.moveTo_eq i <;> rw [heq]
  · exact h
  · exact List.mem_append_left _ h

/-- A jump has something delivered. -/
theorem turns_jump_ne_nil (c : Course) (s : String) (i : UInt64) : (c.jump s i).turns ≠ [] := by
  rw [jump]
  split
  · next hs =>
    have hm : CellName.scene ∈ (c.interrupt.switchTo s).turns := by
      have hne : c.interrupt.scene ≠ s := hs
      rw [switchTo, if_neg hne]
      exact mem_turn_self ..
    exact List.ne_nil_of_mem (mem_moveTo i hm)
  · exact List.ne_nil_of_mem (mem_turn_self ..)

/-- The next line is going to be delivered. -/
theorem turns_leave_ne_nil (c : Course) : (c.moveTo (c.index + 1)).turns ≠ [] := by
  have hne : c.index ≠ c.index + 1 := by simp
  rw [moveTo, if_neg hne]
  exact List.ne_nil_of_mem (mem_turn_self ..)

/-- Where a line is at its end the next one is going to be delivered. -/
theorem Advances.busy_or_turns (h : c.Advances c') : c'.Busy ∨ c'.turns ≠ [] := by
  cases h with
  | leave _ => exact .inr (turns_leave_ne_nil c)
  | @dispatch i rest _ _ he =>
    refine .inl ?_
    obtain ⟨hl, hg⟩ := he.tickets
    rw [Busy, current, hl, hg]
    exact List.mem_cons_self

end Course

namespace Poised

variable {k : Nat} {m : Machine Player Task} {h : List (Machine Player Task)} {c c' : Course}

/-- The script stands still only without lines. -/
theorem turns_step (hp : Poised h m c) (hs : Steady k m c) (hm : Moves m c c')
    (hs' : Steady k m.step c') (ht : m.Turn) (hb : ¬ c'.Busy) :
    c'.turns ≠ [] ∨ c'.phase = .idle ∨ c'.phase = .loading := by
  cases hm with
  | @jump s i _ _ => exact .inl (c.turns_jump_ne_nil s i)
  | @answer r x c₀ _ _ hr =>
    have hc₀ : c₀.turns = c.turns ∧ c₀.phase = c.phase ∧ (c₀.Busy ↔ c.Busy) := by
      rcases hr with ⟨-, rfl⟩ | ⟨-, rfl⟩ <;> exact ⟨rfl, rfl, Iff.rfl⟩
    unfold Course.answer at hb ⊢
    split
    · cases x with
      | ok lines => exact .inl (List.ne_nil_of_mem (Course.mem_turn_self ..))
      | error e => exact .inr (.inl rfl)
    · next hn =>
      rw [if_neg hn, hc₀.2.2] at hb
      rw [hc₀.1, hc₀.2.1]
      exact hp.turns hb
  | @scene ts _ _ =>
    obtain ⟨phase, version, request, heq, hcase⟩ :=
      Course.loadScene_eq { c with turns := ts } c.scene
    rw [heq]
    exact .inr (hcase.imp (·.1) (·.1))
  | index _ _ _ hr =>
    cases hr with
    | defer hp => exact .inr (.inr hp)
    | stop _ _ => exact .inr (.inl rfl)
    | start _ _ ha => exact .inl (ha.busy_or_turns.resolve_left hb)
  | inner _ _ _ hi =>
    cases hi with
    | stay => exact hp.turns hb
    | suspend t _ =>
      refine .inl ((hp.turns hb).resolve_right fun hv => ?_)
      rw [hs.course_eq] at hv
      exact hp.manned.phase_ne ht hv (congrArg Course.phase hs'.course_eq).symm
    | spent t _ hne =>
      exact hp.turns fun h => hb ((List.mem_erase_of_ne (Ne.symm hne)).2 h)
    | finish _ ha => exact .inl (ha.busy_or_turns.resolve_left hb)
    | take _ => exact hp.turns hb

/-- The instruction under way is the last one. -/
theorem newest_step (hp : Poised h m c) (hs : Steady k m c) (hm : Moves m c c')
    (hs' : Steady k m.step c') (hb : c'.Busy) : Newest (m :: h) c'.current := by
  have hlive : c.live = m.world.live := congrArg Course.live hs.course_eq
  have hlive' : c'.live = m.step.world.live := congrArg Course.live hs'.course_eq
  have ho := hm.onward
  by_cases hd : m.Dispatches
  · obtain ⟨g, hg, hng⟩ := hd
    rw [← hlive'] at hg
    rw [← hlive] at hng
    obtain ⟨heq, -⟩ := (ho.new hg).resolve_left hng
    rw [← heq]
    exact .inl ⟨hlive ▸ hng, hlive' ▸ hg⟩
  · have hold : c'.current ∈ c.live := Decidable.byContradiction fun hn =>
      hd ⟨c'.generation, hlive' ▸ hb, hlive ▸ hn⟩
    have hcur : c'.current = c.current :=
      congrArg Ticket.instruction (Nat.le_antisymm (hp.ordered.le hold) ho.le)
    rw [hcur] at hold ⊢
    exact .inr ⟨hd, hp.newest hold⟩

theorem step (hp : Poised h m c) (hs : Steady k m c) (hm : Moves m c c')
    (hs' : Steady k m.step c') (hout : m.TurnsFromOutside) : Poised (m :: h) m.step c' := by
  have ho : m.world.course.Ordered := by
    have := hp.ordered
    rw [hs.course_eq] at this
    exact ⟨this.nodup, this.le⟩
  have ht := Machine.turn hs.tame ho.nodup hout
  exact ⟨hm.onward.ordered hp.ordered, hp.manned.step ho ht, hp.turns_step hs hm hs' ht,
    hp.newest_step hs hm hs'⟩

end Poised

theorem Player.Begins.seat {p : Player} (hp : p.Begins) : p.seat = ⟨.idle, [], none, 0, []⟩ := by
  cases hp <;> rfl

/-- Nothing has happened yet. -/
theorem Poised.fresh {p : Player} (hp : p.Begins) : Poised [] ⟨p, []⟩ .fresh := by
  have hm : Manned [] p.seat [] := by
    rw [hp.seat]
    refine .calm (.of_none fun o ho => absurd ho List.not_mem_nil) rfl rfl List.not_mem_nil ?_
    exact fun _ o ho => absurd ho List.not_mem_nil
  exact ⟨⟨.nil, fun h => absurd h List.not_mem_nil⟩, hm, fun _ => .inr (.inl rfl),
    fun h => absurd h List.not_mem_nil⟩

theorem Run.poised {p : Player} {k : Nat} (hp : p.Begins) (hs : Steady k ⟨p, []⟩ .fresh)
    {h : List (Machine Player Task)} {m : Machine Player Task}
    (run : Run HostCall.KeepsPlace ⟨p, []⟩ h m) (hout : ∀ n ∈ h, n.TurnsFromOutside) :
    ∃ c, Steady k m c ∧ Poised h m c := by
  induction run with
  | start => exact ⟨.fresh, hs, .fresh hp⟩
  | step _ ih =>
    obtain ⟨hm, hout⟩ := List.forall_mem_cons.1 hout
    obtain ⟨c, hs, hp⟩ := ih hout
    obtain ⟨c', hmove, hs'⟩ := hs.step
    exact ⟨c', hs', hp.step hs hmove hs' hm⟩
  | @turn h p book events answer orders _ ho ih =>
    obtain ⟨c, hs, hp⟩ := ih hout
    obtain ⟨ht, hf⟩ := hs.of_rest
    refine ⟨c, .quiet (ht.of_eq rfl rfl ht.listeners) (hf.of_core rfl) fun o h => ?_,
      hp.ordered, ?_, hp.turns, hp.newest⟩
    · rcases ho o h with ⟨a, d, rfl, hd⟩ | ⟨d, rfl⟩
      · exact .inl hd
      · exact .inl trivial
    · refine hp.manned.of_none (fun o h => absurd h List.not_mem_nil) fun o h => ?_
      rcases ho o h with ⟨a, d, rfl, -⟩ | ⟨d, rfl⟩ <;> simp [Order.Concludes]
  | @connect h p hook l _ hl ih =>
    obtain ⟨c, hs, hp⟩ := ih hout
    obtain ⟨ht, hf⟩ := hs.of_rest
    have hc := ht.connect hook hl
    have hin := inside_connect p hook l
    refine ⟨c, .quiet hc.tame (hf.of_inside hin) fun o h => .inl (hc.orders o h),
      hp.ordered, ?_, hp.turns, hp.newest⟩
    have hm := hp.manned
    rw [← seat_of_inside hin] at hm
    exact hm.of_none (fun o h => absurd h List.not_mem_nil) fun o h =>
      ((Light.connect p hook l).all o h).not_concludes
  | @connectToBook h p hook l _ hl ih =>
    obtain ⟨c, hs, hp⟩ := ih hout
    obtain ⟨ht, hf⟩ := hs.of_rest
    have hc := ht.connectToBook hook hl
    have hin := inside_connectToBook p hook l
    refine ⟨c, .quiet hc.tame (hf.of_inside hin) fun o h => .inl (hc.orders o h),
      hp.ordered, ?_, hp.turns, hp.newest⟩
    have hm := hp.manned
    rw [← seat_of_inside hin] at hm
    exact hm.of_none (fun o h => absurd h List.not_mem_nil) fun o h =>
      ((Light.connectToBook p hook l).all o h).not_concludes

/-! ### Requests for a scene -/

/-- While a scene is loaded there is a request for it and there are no lines. -/
structure Asked (c : Course) : Prop where
  /-- There are no lines. -/
  lines : c.phase = .loading → c.lines = none
  /-- There is a request for the scene. -/
  known : c.phase = .loading → ∃ r, c.Knows r ∧ r.version = c.loadVersion
  /-- Only the last request may be taken. -/
  last {r : LoadRequest} : c.loadRequest = some r → r.version = c.loadVersion

namespace Asked

variable {m : Machine Player Task} {c c' : Course}

theorem of_eq (h : Asked c) (hp : c'.phase = .loading → c.phase = .loading)
    (hl : c'.lines = c.lines) (hv : c'.loadVersion = c.loadVersion)
    (hr : c'.loadRequest = c.loadRequest) (ht : c'.requests = c.requests) : Asked c' := by
  refine ⟨fun h' => ?_, fun h' => ?_, fun h' => ?_⟩
  · rw [hl]
    exact h.lines (hp h')
  · rw [hv]
    obtain ⟨r, hk, hrv⟩ := h.known (hp h')
    refine ⟨r, hk.imp (fun hk => ?_) fun hk => ?_, hrv⟩
    · rwa [ht]
    · rwa [hr]
  · rw [hr] at h'
    rw [hv]
    exact h.last h'

/-- There is no scene to be loaded, or no more. -/
theorem of_phase (hp : c.phase ≠ .loading)
    (hl : ∀ {r}, c.loadRequest = some r → r.version = c.loadVersion) : Asked c :=
  ⟨fun h => absurd h hp, fun h => absurd h hp, hl⟩

theorem advances (h : Asked c) (ha : c.Advances c') : Asked c' := by
  cases ha with
  | leave _ =>
    obtain ⟨ts, heq, -⟩ := c.moveTo_eq (c.index + 1)
    rw [heq]
    exact h.of_eq id rfl rfl rfl rfl
  | @dispatch i rest _ _ he =>
    have hb : Asked { c with queue := rest }.begin := .of_phase Phase.noConfusion h.last
    cases he with
    | plain => exact hb
    | skip n _ =>
      obtain ⟨ts, heq, -⟩ := Course.moveTo_eq { c with queue := rest }.begin
        (skipTarget { c with queue := rest }.begin.index n)
      rw [heq]
      exact hb.of_eq id rfl rfl rfl rfl
    | branch _ _ => exact hb.of_eq id rfl rfl rfl rfl

theorem answer (h : Asked c) {r : LoadRequest} {x : Except SourceError (List String)} {c₀ : Course}
    (hr : r ∈ c.requests ∧ c₀ = c ∨ c.loadRequest = some r ∧ c₀ = c.release) :
    Asked (c₀.answer r x) := by
  have hlast {q : LoadRequest} (hq : c₀.loadRequest = some q) : q.version = c₀.loadVersion := by
    rcases hr with ⟨-, rfl⟩ | ⟨-, rfl⟩
    · exact h.last hq
    · cases hq
  by_cases haw : c₀.Awaits r
  · have hp := Course.phase_answer haw x
    obtain ⟨lines, phase, ts, heq, -⟩ := c₀.answer_eq r x
    rw [heq] at hp ⊢
    exact .of_phase hp hlast
  · rw [Course.answer_of_not_awaits haw]
    rcases hr with ⟨-, rfl⟩ | ⟨hreq, rfl⟩
    · exact h
    · exact .of_phase (fun hp => haw ⟨h.last hreq, hp⟩) hlast

theorem inner (h : Asked c) (hi : c.Inner c') : Asked c' := by
  cases hi with
  | stay => exact h
  | suspend t _ => exact .of_phase Phase.noConfusion h.last
  | spent t _ _ => exact h.of_eq id rfl rfl rfl rfl
  | finish _ ha =>
    have hs : Asked { c with live := c.live.erase (.instruction c.generation) } :=
      h.of_eq id rfl rfl rfl rfl
    exact hs.advances ha
  | @take r hr =>
    refine ⟨h.lines, fun hp => ?_, fun hq => by cases hq⟩
    obtain ⟨q, hk, hv⟩ := h.known hp
    refine ⟨q, .inl ?_, hv⟩
    rcases hk with hk | hk
    · exact Array.mem_push.2 (.inl hk)
    · cases hr.symm.trans hk
      exact Array.mem_push_self

theorem step (h : Asked c) (hm : Moves m c c') : Asked c' := by
  cases hm with
  | @jump s i _ _ =>
    obtain ⟨ts, ts', heq, -⟩ := c.jump_eq s i
    rw [heq]
    exact h.of_eq id rfl rfl rfl rfl
  | answer _ _ hr => exact h.answer hr
  | @scene ts _ _ =>
    obtain ⟨phase, version, request, heq, hcase⟩ :=
      Course.loadScene_eq { c with turns := ts } c.scene
    rw [heq]
    rcases hcase with ⟨rfl, rfl, rfl⟩ | ⟨rfl, rfl, rfl⟩
    · exact .of_phase Phase.noConfusion fun hq => by cases hq
    · exact ⟨fun _ => rfl, fun _ => ⟨_, .inr rfl, rfl⟩, fun hq => by cases hq; rfl⟩
  | @index ts _ _ _ _ hr =>
    have ht : Asked { c with turns := ts } := h.of_eq id rfl rfl rfl rfl
    cases hr with
    | defer _ => exact ht
    | stop _ _ => exact .of_phase Phase.noConfusion h.last
    | start _ _ ha =>
      refine advances (.of_phase ?_ ?_) ha
      · exact Phase.noConfusion
      · exact h.last
  | inner _ _ _ hi => exact h.inner hi

theorem fresh : Asked .fresh := .of_phase Phase.noConfusion fun hr => by cases hr

end Asked

/-! ### The result -/

/-- The request has been issued when the scene was heard last, and it has not been answered
since. -/
def Unanswered (h : List (Machine Player Task)) (r : LoadRequest) : Prop :=
  Since (fun n => n.hears? ≠ some .scene ∧ n.answer?.map Prod.fst ≠ some r) (fun n => n.Issues r) h

/-- Phase, active handler, queue, lines and request fit together. -/
structure Quiescent (h : List (Machine Player Task)) (p : Player) : Prop where
  /-- Nothing is being executed. -/
  not_executing : p.phase ≠ .executing
  /-- The player waits exactly if there is a handler. -/
  awaiting_iff : p.phase = .awaiting ↔ p.active.isSome
  /-- The handler is that of the instruction that was begun last, and to finish this one counts. -/
  handler {x : Handler} : p.active = some x →
    ∃ t, LeftBy h t x ∧ Newest h t ∧ t = .instruction p.generation ∧ t ∈ p.live
  /-- Instructions wait only for one that waits. -/
  queue : p.queue ≠ [] → p.phase = .awaiting
  /-- A scene that is loaded has been asked for. -/
  loading : p.phase = .loading → p.lines = none ∧ p.active = none ∧
    ∃ r, r.version = p.loadVersion ∧ (p.loadRequest = some r ∨ r ∈ p.requests) ∧ Unanswered h r
  /-- Otherwise there is nothing to do. -/
  idle : p.phase = .idle → p.active = none ∧ p.queue = []

theorem Poised.quiescent {p : Player} {h : List (Machine Player Task)} {c : Course}
    (hp : Poised h ⟨p, []⟩ c) (hc : c = p.course) (ht : c.turns = [])
    (hr : p.phase = .loading → p.lines = none ∧
      ∃ r, r.version = p.loadVersion ∧ (p.loadRequest = some r ∨ r ∈ p.requests) ∧ Unanswered h r) :
    Quiescent h p := by
  subst hc
  have hm := hp.manned
  have waits (hb : p.seat.Busy) :
      p.phase = .awaiting ∧ ∃ x, p.active = some x ∧ LeftBy h p.seat.current x := by
    refine (hm.busy hb).resolve_left ?_
    rintro ⟨-, x, hx⟩
    exact absurd hx List.not_mem_nil
  have rests (hb : ¬ p.seat.Busy) : p.phase = .idle ∨ p.phase = .loading :=
    (hp.turns hb).resolve_left fun h => h ht
  have busy_of_active {x : Handler} (hx : p.active = some x) : p.seat.Busy :=
    Decidable.byContradiction fun hb => by
      have hn : p.active = none := (hm.vacant (rests hb)).1
      cases hn.symm.trans hx
  have busy_of_awaiting (hw : p.phase = .awaiting) : p.seat.Busy :=
    Decidable.byContradiction fun hb => by
      rcases rests hb with hv | hv <;> cases hw.symm.trans hv
  refine ⟨fun he => ?_, ⟨fun hw => ?_, fun hs => ?_⟩, fun hx => ?_, fun hq => ?_, fun hl => ?_,
    fun hi => ?_⟩
  · by_cases hb : p.seat.Busy
    · cases he.symm.trans (waits hb).1
    · rcases rests hb with hv | hv <;> cases he.symm.trans hv
  · obtain ⟨x, hx, -⟩ := (waits (busy_of_awaiting hw)).2
    rw [hx]
    rfl
  · obtain ⟨x, hx⟩ := Option.isSome_iff_exists.1 hs
    exact (waits (busy_of_active hx)).1
  · have hb := busy_of_active hx
    obtain ⟨-, y, hy, hl⟩ := waits hb
    cases hx.symm.trans hy
    exact ⟨_, hl, hp.newest hb, rfl, hb⟩
  · exact (waits (hm.queue hq)).1
  · exact ⟨(hr hl).1, (hm.vacant (.inr hl)).1, (hr hl).2⟩
  · exact ⟨(hm.vacant (.inl hi)).1, (hm.vacant (.inl hi)).2.1⟩

/-- **Quiescence.** When no task and no microtask is left, phase, active handler, queue, lines and
request fit together. This takes a host whose listeners and commands do not make the loop turn. -/
theorem quiescent_of_rest {p : Player} (hp : p.Begins) {h : List (Machine Player Task)} {q : Player}
    (run : Run HostCall.KeepsPlace ⟨p, []⟩ h ⟨q, []⟩) (hout : ∀ n ∈ h, n.TurnsFromOutside)
    (hq : q.loop.microtasks = []) : Quiescent h q := by
  obtain ⟨k, hs⟩ := hp.steady
  obtain ⟨c, hm, hpoised⟩ := run.poised hp hs hout
  obtain ⟨c', hm', he, ha⟩ := run.invariant (I := fun h c => Expected h c ∧ Asked c) hs
    ⟨.fresh, .fresh⟩ fun hs hi hm hs' => ⟨Expected.step hs hi.1 hm hs', hi.2.step hm⟩
  have hc : q.course = c := hm.of_rest.2.course
  have hc' : q.course = c' := hm'.of_rest.2.course
  subst hc'
  have ht : q.course.turns = [] := by
    change q.loop.microtasks.flatMap Task.turn = []
    rw [hq]
    rfl
  refine hpoised.quiescent hc.symm (hc ▸ ht) fun hl => ⟨ha.lines hl, ?_⟩
  obtain ⟨r, hr, hsince⟩ := he.issued hl
  obtain ⟨r', hk, hv⟩ := ha.known hl
  obtain rfl := hr.unique hk hv
  exact ⟨r', hv, hk.symm, hsince⟩

/-- A script that waits for a timer, with a page break in the queue. -/
def timed : Machine Player Task := (playing ["wait 100\\"]).run 25

/-- All fits together while the script waits. -/
theorem timed_quiescent :
    Quiescent ((playing ["wait 100\\"]).trail 25) timed.world ∧ timed.world.queue ≠ [] := by
  have rest {m : Machine Player Task} (h : m.agenda = []) : m = ⟨m.world, []⟩ := by
    cases m
    cases h
    rfl
  obtain ⟨hag, hturns, hmicrotasks, hqueue⟩ : timed.agenda = [] ∧
      (∀ n ∈ (playing ["wait 100\\"]).trail 25, n.TurnsFromOutside) ∧
      timed.world.loop.microtasks = [] ∧ timed.world.queue ≠ [] := by decide +kernel
  have run : Run HostCall.KeepsPlace ⟨.plain .instant, []⟩ ((playing ["wait 100\\"]).trail 25)
      timed := run_playing ["wait 100\\"] 25
  rw [rest hag] at run
  exact ⟨quiescent_of_rest (begins_plain _) run hturns hmicrotasks, hqueue⟩

end Novella
