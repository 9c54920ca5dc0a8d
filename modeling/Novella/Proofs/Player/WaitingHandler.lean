import Novella.Proofs.Player.TimerWaits

/-!
# Who takes the input

While an instruction waits input is for its handler. It stays so until the instruction is finished
or broken off, if no other command is in the middle of its start: the end of such a start would put
another handler in its place.

## Main definitions

* `Machine.Lasts` — a step leaves the handler in its place, and nothing begins
* `Machine.Attends` — input is for a handler, and no other one is about to take its place

## Main results

* `Machine.Numbered.lasts` — where the instruction under way is not over a step leaves it as it is
* `Wait.attended` — input is for the wait as long as it lasts
-/

namespace Novella

open Player

/-- The ticket of a command that has been started, if the order is the end of the start. -/
def Order.concludes? : Order Task → Option Ticket
  | .perform (.conclude t _) => some t
  | _ => none

namespace Machine

/-- The instruction under way goes on as it is. -/
structure Lasts (m : Machine Player Task) : Prop where
  /-- The same handler takes the input. -/
  active : m.step.world.active = m.world.active
  /-- No ticket is new. -/
  live {t : Ticket} : t ∈ m.step.world.live → t ∈ m.world.live
  /-- No command starts. -/
  concludes {t : Ticket} {x : Completion} :
    .perform (.conclude t x) ∈ m.step.agenda → .perform (.conclude t x) ∈ m.agenda

namespace Lasts

variable {m : Machine Player Task} {p q : Player} {o : Order Task} {os rest orders : Orders}

theorem of_step (hstep : Machine.step ⟨p, o :: rest⟩ = ⟨q, orders ++ rest⟩)
    (ha : q.active = p.active) (hl : ∀ {t}, t ∈ q.live → t ∈ p.live)
    (ho : ∀ x ∈ orders, ¬ x.Concludes) : Lasts ⟨p, o :: rest⟩ := by
  refine ⟨?_, fun hm => ?_, fun {t x} hm => ?_⟩
  · rw [hstep]
    exact ha
  · rw [hstep] at hm
    exact hl hm
  · rw [hstep] at hm
    rcases List.mem_append.1 hm with hm | hm
    · exact absurd ⟨t, x, rfl⟩ (ho _ hm)
    · exact List.mem_cons_of_mem _ hm

/-- The seat stays, and no command starts. -/
theorem of_seat (orders : Orders) (hstep : Machine.step ⟨p, o :: rest⟩ = ⟨q, orders ++ rest⟩)
    (hs : q.seat = p.seat) (ho : ∀ x ∈ orders, ¬ x.Concludes) : Lasts ⟨p, o :: rest⟩ := by
  have hl : q.live = p.live := congrArg Seat.live hs
  exact of_step hstep (congrArg Seat.active hs) (fun hm => hl ▸ hm) ho

/-- So it is when no instruction begins and the one under way is not finished. -/
theorem of_shift (hs : Seat.Shift p.seat (q, os))
    (hstep : Machine.step ⟨p, o :: rest⟩ = ⟨q, orders ++ rest⟩)
    (ho : ∀ x ∈ orders, x ∈ os ∨ ¬ x.Concludes) (hn : p.live.Nodup)
    (hg : q.generation = p.generation) (hl : .instruction p.generation ∈ q.live) :
    Lasts ⟨p, o :: rest⟩ := by
  have light (h : Light os) : ∀ x ∈ orders, ¬ x.Concludes := fun x hx =>
    (ho x hx).elim (fun hm => (h.all x hm).not_concludes) id
  cases hs with
  | stay hs ho => exact of_seat _ hstep hs (light ho)
  | spend t _ hs ho =>
    have hlive : q.live = p.live.erase t := congrArg Seat.live hs
    refine of_step hstep (congrArg Seat.active hs) (fun hm => ?_) (light ho)
    rw [hlive] at hm
    exact List.mem_of_mem_erase hm
  | leave _ _ hs _ =>
    have hlive : q.live = p.live.erase (.instruction p.generation) := congrArg Seat.live hs
    rw [hlive] at hl
    exact absurd hl hn.not_mem_erase
  | next _ hb =>
    obtain ⟨queue, hs⟩ := hb.seat
    have hgen : q.generation = p.generation + 1 := congrArg Seat.generation hs
    omega
  | jump hs _ =>
    have hgen : q.generation = p.generation + 1 := congrArg Seat.generation hs
    omega
  | answer phase _ _ hs ho =>
    have hlive : q.live = p.live := congrArg Seat.live hs
    exact of_step hstep (congrArg Seat.active hs) (fun hm => hlive ▸ hm) (light ho)

/-- A cell is heard, and no line is started. -/
theorem of_hearing (hs : Seat.Hearing p.seat (q, os))
    (hstep : Machine.step ⟨p, o :: rest⟩ = ⟨q, os ++ rest⟩)
    (hg : q.generation = p.generation) : Lasts ⟨p, o :: rest⟩ := by
  cases hs with
  | stay hs ho => exact of_seat _ hstep hs fun x hx => (ho.all x hx).not_concludes
  | stop phase _ hs _ =>
    have hgen : q.generation = p.generation + 1 := congrArg Seat.generation hs
    omega
  | leave _ hs _ =>
    have hgen : q.generation = p.generation + 1 := congrArg Seat.generation hs
    omega
  | start _ hb =>
    obtain ⟨queue, hs⟩ := hb.seat
    have hgen : q.generation = p.generation + 1 + 1 := congrArg Seat.generation hs
    omega

/-- The end of a start has come too late. -/
theorem of_conclude {t : Ticket} (ht : t ∉ p.live) (x : Completion) :
    Lasts ⟨p, .perform (.conclude t x) :: rest⟩ := by
  cases x with
  | completed =>
    have hf : p.finish t = (p, []) := by rw [Player.finish, if_neg ht]
    refine of_seat (q := p) [] ?_ rfl (by simp)
    change (⟨(p.finish t).1, (p.finish t).2 ++ rest⟩ : Machine Player Task) = _
    rw [hf]
  | pending y =>
    obtain ⟨ho, hs⟩ := Seat.conclude_pending p t y
    rw [if_neg ht] at hs
    exact of_seat (q := (p.conclude t (.pending y)).1) (p.conclude t (.pending y)).2 rfl hs
      (by simp [ho])

/-- Whatever the loop holds is no end of a start. -/
theorem of_admits {R : Realm} {t : Task} (ht : R.Admits t) : ¬ (Order.perform t).Concludes := by
  rintro ⟨u, x, h⟩
  cases h
  exact ht

/-- A task lets the instruction go on, unless another one begins, it is finished or another start
comes to its end. -/
theorem of_task {t : Task} (h : Numbered ⟨p, .perform t :: rest⟩) (hn : p.live.Nodup)
    (hg : (Machine.step ⟨p, .perform t :: rest⟩).world.generation = p.generation)
    (hl : .instruction p.generation ∈ (Machine.step ⟨p, .perform t :: rest⟩).world.live)
    (hc : ∀ {u x}, t = .conclude u x → u ∉ p.live) : Lasts ⟨p, .perform t :: rest⟩ := by
  cases t with
  | deliver c =>
    refine .of_seat (q := (Player.perform (.deliver c) p).1) _ rfl rfl fun x hx => ?_
    obtain ⟨id, -, rfl⟩ := List.mem_map.1 hx
    simp [Order.Concludes]
  | hear c id v => exact .of_hearing (Seat.hear p c id v) rfl hg
  | ring k =>
    refine .of_seat (q := (Player.perform (.ring k) p).1) _ rfl rfl fun x hx => ?_
    obtain ⟨t, ht, rfl⟩ := List.mem_map.1 hx
    exact of_admits
      (h.world.2.schedule.admits_ring (h.agenda List.mem_cons_self) (Option.mem_toList.1 ht))
  | finish t => exact .of_shift (Seat.finish p t) rfl (fun _ => .inl) hn hg hl
  | conclude t x => exact .of_conclude (hc rfl) x
  | reveal r a => exact .of_shift (Seat.actReveal p r a) rfl (fun _ => .inl) hn hg hl
  | call a c =>
    by_cases ht : c.turns = true
    · obtain ⟨hs, ho⟩ := Seat.call_of_turns p ht
      refine .of_seat (Player.perform (.call a c) p).2 rfl hs fun x hx => ?_
      rcases List.mem_append.1 hx with hx | hx
      · exact ho x hx
      · simp [List.mem_singleton.1 hx, Order.Concludes]
    · have hs := (Seat.call p (Bool.eq_false_iff.2 ht)).concat
        (o := .perform (.report a (p.call c).2.1)) trivial
      exact .of_shift hs rfl (fun _ => .inl) hn hg hl
  | report a x => exact .of_seat [] rfl (seat_report p x a) (by simp)
  | note e => exact .of_seat (q := p.note e) [] rfl rfl (by simp)
  | load =>
    obtain ⟨hs, ho⟩ := Seat.load p
    exact .of_shift hs rfl (fun x hx => .inr (ho x hx)) hn hg hl

/-- The loop only hands out what it holds. -/
theorem of_loop (h : Numbered ⟨p, o :: rest⟩) (ho : ∀ t, o ≠ .perform t) :
    Lasts ⟨p, o :: rest⟩ := by
  have hin := h.world.2.schedule
  cases o with
  | perform t => exact absurd rfl (ho t)
  | drain =>
    cases hm : p.schedule.loop.microtasks with
    | nil => exact .of_seat [] (step_drain_nil hm) rfl (by simp)
    | cons t ts =>
      have ht := of_admits (hin.microtask (hm ▸ List.mem_cons_self : t ∈ _))
      exact .of_seat [.perform t, .drain] (step_drain_cons hm) rfl
        (by simpa [Order.Concludes] using ht)
  | advance d =>
    exact .of_seat (q := p) [.drain, .depart d] rfl rfl (by simp [Order.Concludes])
  | depart d =>
    exact .of_seat (q := p) [.runUntil (p.schedule.loop.now + d)] rfl rfl
      (by simp [Order.Concludes])
  | runUntil target =>
    have hidle (hn : ∀ u ∈ p.schedule.loop.timeouts.head?, target < u.deadline) :
        Lasts ⟨p, .runUntil target :: rest⟩ :=
      .of_seat [] (step_runUntil_idle hn) rfl (by simp)
    cases hu : p.schedule.loop.timeouts with
    | nil =>
      exact hidle fun u hm => by
        rw [hu] at hm
        cases hm
    | cons u us =>
      by_cases hd : u.deadline ≤ target
      · have hm : u ∈ p.schedule.loop.timeouts := hu ▸ List.mem_cons_self
        have ht := of_admits (hin.timeout hm (h.world.1.numbered hm))
        exact .of_seat [.perform u.task, .drain, .runUntil target]
          (step_runUntil_due hu hd) rfl (by simpa [Order.Concludes] using ht)
      · refine hidle fun x hx => ?_
        rw [hu] at hx
        cases hx
        exact Nat.lt_of_not_le hd
  | halt => exact ⟨rfl, id, fun hm => absurd hm List.not_mem_nil⟩

end Lasts

/-- An instruction that has not been finished goes on as it is, as long as nothing else begins and
no other start comes to its end. -/
theorem Numbered.lasts {m : Machine Player Task} (h : m.Numbered) (hn : m.world.live.Nodup)
    (hg : m.step.world.generation = m.world.generation)
    (hl : .instruction m.world.generation ∈ m.step.world.live)
    (hc : ∀ {t x}, .perform (.conclude t x) ∈ m.agenda → t ∉ m.world.live) : m.Lasts := by
  obtain ⟨p, agenda⟩ := m
  cases agenda with
  | nil => exact ⟨rfl, id, id⟩
  | cons o rest =>
    by_cases ho : ∃ t, o = .perform t
    · obtain ⟨t, rfl⟩ := ho
      refine .of_task h hn hg hl ?_
      rintro u x rfl
      exact hc List.mem_cons_self
    · exact .of_loop h fun t ht => ho ⟨t, ht⟩

/-- Input is for the handler, and no other command is in the middle of its start. -/
structure Attends (m : Machine Player Task) (x : Handler) : Prop where
  /-- The handler is the active one. -/
  active : m.world.active = some x
  /-- Starts that are still to be concluded come too late. -/
  concludes {t : Ticket} {c : Completion} :
    .perform (.conclude t c) ∈ m.agenda → t ∉ m.world.live

namespace Attends

variable {m : Machine Player Task} {x : Handler}

theorem lasts (ha : m.Attends x) (hl : m.Lasts) : m.step.Attends x :=
  ⟨hl.active.trans ha.active, fun hm ht => ha.concludes (hl.concludes hm) (hl.live ht)⟩

/-- A command has been started, and its handler takes the input now. -/
theorem conclude {t : Ticket} {rest : Orders} (hl : t ∈ m.world.live)
    (hag : m.agenda = .perform (.conclude t (.pending x)) :: rest)
    (hrest : ∀ {u c}, .perform (.conclude u c) ∈ rest → u ∉ m.world.live) : m.step.Attends x := by
  obtain ⟨ho, hs⟩ := Seat.conclude_pending m.world t x
  rw [if_pos hl] at hs
  rw [Machine.step_of_perform hag]
  change Attends ⟨(m.world.conclude _ _).1, (m.world.conclude _ _).2 ++ rest⟩ x
  rw [ho]
  have hlive : (m.world.conclude t (.pending x)).1.live = m.world.live := congrArg Seat.live hs
  exact ⟨congrArg Seat.active hs, fun hm ht => hrest hm (hlive ▸ ht)⟩

/-- The host has its turn. -/
theorem turn {p : Player} {y : Player × Orders} (ha : Attends ⟨p, []⟩ x) (ht : p.Turn y) :
    (continuing y).Attends x :=
  ⟨(congrArg Seat.active ht.seat).trans ha.active, fun hm =>
    absurd ⟨_, _, rfl⟩ (ht.concludes _ hm)⟩

end Attends

end Machine

/-! ### Input for a wait -/

namespace Wait

variable {w : Wait} {d : Nat} {h : List (Machine Player Task)} {m n : Machine Player Task}

/-- An instruction that has neither been finished nor been broken off is under way. -/
theorem Stage.live (hs : w.Stage d h m) (hn : ∀ n ∈ h, n.finish? ≠ some w.ticket)
    (hg : m.world.generation = w.generation) : w.ticket ∈ m.world.live := by
  have open_ {id : Nat} {p : Player} {agenda : Orders} (ho : w.Open id h p agenda) :
      w.ticket ∈ p.live := List.count_pos_iff.1 (ho.live ▸ Nat.zero_lt_one)
  cases hs with
  | counting ho | hurried ho => exact open_ ho
  | ringing _ ho | finishing _ ho => exact open_ ho
  | past _ _ _ _ ho =>
    rcases ho with ⟨n, hm, hf⟩ | hlt
    · exact absurd hf (hn n hm)
    · exact absurd hg (Nat.ne_of_gt hlt)

theorem Stage.generation_le (hs : w.Stage d h m) : w.generation ≤ m.world.generation := by
  cases hs with
  | counting ho | hurried ho => exact ho.given.generation
  | ringing _ ho | finishing _ ho => exact ho.given.generation
  | past _ hg => exact hg.generation

/-- **Input for a wait.** From when its command has been started until the instruction has been
finished or broken off input is for the wait, if no other command was in the middle of its start. -/
theorem attended {P : HostCall → Prop} {rest : Orders} (hs : w.Stage d [] m) (hm : m.Numbered)
    (hin : m.world.desk.InOrder) (hgen : m.world.generation = w.generation)
    (hag : m.agenda = .perform (.conclude w.ticket (.pending (.timer w.timer))) :: rest)
    (hrest : ∀ o ∈ rest, ∀ t ∈ o.concludes?, t ∉ m.world.live) (r : Run P m h n) :
    h = [] ∧ n = m ∨ h ≠ [] ∧ ((∀ n' ∈ h, n'.finish? ≠ some w.ticket) →
      n.world.generation = w.generation → n.Attends (.timer w.timer)) := by
  refine r.preserves (I := fun h n => h = [] ∧ n = m ∨ h ≠ [] ∧
    ((∀ n' ∈ h, n'.finish? ≠ some w.ticket) → n.world.generation = w.generation →
      n.Attends (.timer w.timer))) (.inl ⟨rfl, rfl⟩) (@fun h m' r ih => ?_) (@fun h p x ih ht => ?_)
  · refine .inr ⟨List.cons_ne_nil _ _, fun hn hg => ?_⟩
    obtain ⟨-, hn'⟩ := List.forall_mem_cons.1 hn
    have hstage := hs.run r
    have hg' : m'.world.generation = w.generation :=
      Nat.le_antisymm (hg ▸ m'.generation_le_step) hstage.generation_le
    rcases ih with ⟨rfl, rfl⟩ | ⟨-, ha⟩
    · exact .conclude (hs.live hn' hgen) hag fun hx => hrest _ hx _ rfl
    · have hlive := (hs.run r.step).live hn hg
      exact (ha hn' hg').lasts ((r.numbered hm).lasts (r.inOrder hin).nodup (hg.trans hg'.symm)
        (by rw [hg']; exact hlive) (ha hn' hg').concludes)
  · rcases ih with ⟨-, rfl⟩ | ⟨hne, ha⟩
    · cases hag
    · exact .inr ⟨hne, fun hn hg =>
        (ha hn ((congrArg Seat.generation ht.seat).symm.trans hg)).turn ht⟩

/-! ### What is kept of a wait -/

/-- What is kept of a wait that begins with the machine `m`, when a run has come to the machine `n`.
Without input the wait is over at the time `d`. -/
structure Kept (w : Wait) (d : Nat) (m : Machine Player Task) (h : List (Machine Player Task))
    (n : Machine Player Task) : Prop where
  /-- The instruction is finished once at most, and that is when the wait is over. -/
  punctual : n.finish? = some w.ticket →
    (∀ x ∈ h, x.finish? ≠ some w.ticket) ∧ w.ticket ∈ n.world.live ∧ n.now = w.due d h
  /-- Until it has been finished or broken off time does not get past that. -/
  patient : (∀ x ∈ h, x.finish? ≠ some w.ticket) → n.world.generation = w.generation →
    n.now ≤ w.due d h ∧ ∀ target, n.arrival? = some target → target < w.due d h
  /-- As long all input is for the wait, if no other command was in the middle of its start. -/
  heeded {a : Audience} {rest : Orders} : (∀ x ∈ h, x.finish? ≠ some w.ticket) →
    n.world.generation = w.generation → n.agenda = .perform (.call a .next) :: rest →
    (∀ o ∈ m.agenda.tail, ∀ t ∈ o.concludes?, t ∉ m.world.live) → n.hurry? = some w.timer

/-- **Waits are kept** in every run. -/
theorem Stage.kept {P : HostCall → Prop} {rest : Orders} (hs : w.Stage d [] m) (hm : m.Numbered)
    (hin : m.world.desk.InOrder) (hgen : m.world.generation = w.generation)
    (hag : m.agenda = .perform (.conclude w.ticket (.pending (.timer w.timer))) :: rest)
    (r : Run P m h n) : w.Kept d m h n where
  punctual := (hs.run r).punctual
  patient := (hs.run r).patient
  heeded hn hg hnext hrest := by
    rw [hag] at hrest
    rcases attended hs hm hin hgen hag hrest r with ⟨-, rfl⟩ | ⟨-, ha⟩
    · cases hag.symm.trans hnext
    · exact hurry?_of_next hnext (ha hn hg).active

end Wait

end Novella
