import Novella.Proofs.Timer.ScheduledTasks
import Novella.Proofs.Timer.TimersInRuns

/-!
# Programs with timers

The tasks of a program do nothing with the timeouts of timers, whatever calls they make: they know
the numbers of their own timeouts only. So a run of a program is watched if its tasks move no time,
and timers live in it as they should.

## Main definitions

* `LoopProgram.Call.Timeless` — a call that moves no time
* `LoopProgram.Fit` — a machine whose tasks move no time

## Main results

* `LoopProgram.watch_given` — a run of a program is watched if its tasks move no time
-/

namespace Novella.LoopProgram

open Schedule

/-- The call moves no time. -/
def Call.Timeless : Call → Prop
  | advance _ | settle => False
  | _ => True

/-- The task moves no time, and neither does any task that it comes to make. -/
def Task.Timeless : Task → Prop
  | body _ calls => ∀ c ∈ calls, c.Within Call.Timeless
  | ring _ => True
  | call c => c.Within Call.Timeless
  | request _ => False

/-- The task is a call from outside, or moves no time. -/
def Task.Fit : Task → Prop
  | request c => ∀ d ∈ c.body, d.Within Call.Timeless
  | t => t.Timeless

theorem Task.Timeless.fit {t : Task} (h : t.Timeless) : t.Fit := by
  cases t with
  | request => exact h.elim
  | _ => exact h

/-- The order moves no time. -/
def IsTimeless : Order Task → Prop
  | .perform t => t.Timeless
  | .drain => True
  | _ => False

/-- The task to be performed, if one is, is fit. -/
def IsFit : Order Task → Prop
  | .perform t => t.Fit
  | _ => True

theorem IsTimeless.isFit {o : Order Task} (h : IsTimeless o) : IsFit o := by
  cases o with
  | perform t => exact Task.Timeless.fit h
  | _ => trivial

namespace Desk

variable {d d' : Desk}

/-- Timeouts are numbered, and the numbers that the program has are those of timeouts that ring no
timer. -/
structure Knows (d : Desk) : Prop where
  /-- All timeouts have been numbered. -/
  numbered : d.schedule.loop.Numbered
  /-- The program has old numbers only. -/
  old : ∀ id ∈ d.timeouts, id < d.schedule.loop.nextId
  /-- They are not those of timers. -/
  own : ∀ id ∈ d.timeouts, ∀ x ∈ d.schedule.loop.timeouts, x.id = id →
    timekeeping.ring? x.task = none

theorem Knows.of_precedes (h : d.Knows) (ht : d'.timeouts = d.timeouts)
    (hp : d.schedule.loop.Precedes d'.schedule.loop) : d'.Knows where
  numbered := hp.numbered h.numbered
  old id hid := Nat.lt_of_lt_of_le (h.old id (ht ▸ hid)) hp.nextId_le
  own id hid x hx he := by
    rw [ht] at hid
    exact h.own id hid x (hp.mem hx (he ▸ h.old id hid)) he

theorem precedes_call (d : Desk) (c : Call) :
    d.schedule.loop.Precedes (d.call c).1.schedule.loop := by
  rw [schedule_call]
  generalize d.timerCalls c = calls
  generalize d.schedule = s
  induction calls generalizing s with
  | nil => exact .refl _
  | cons c cs ih => exact (precedes_follow (b := timekeeping.bell) s (.call c)).trans (ih _)

/-- A call keeps to the timeouts of the program. -/
theorem Knows.call (h : d.Knows) (c : Call) : (d.call c).1.Knows := by
  cases c with
  | timeout delay label body =>
    have hs := Loop.Precedes.setTimeout d.schedule.loop delay (.body label body)
    refine ⟨hs.numbered h.numbered, fun id hid => ?_, fun id hid x hx he => ?_⟩
    · rcases Array.mem_push.1 hid with hid | rfl
      · exact Nat.lt_succ_of_lt (h.old id hid)
      · exact Nat.lt_succ_self _
    · rcases Loop.mem_insertTimeout.1 hx with rfl | hx
      · rfl
      · rcases Array.mem_push.1 hid with hid | rfl
        · exact h.own id hid x hx he
        · exact absurd he (Nat.ne_of_lt (h.numbered x hx))
  | clear k =>
    refine h.of_precedes ?_ (d.precedes_call _)
    simp only [Desk.call]
    split <;> rfl
  | _ => exact h.of_precedes rfl (d.precedes_call _)

/-- A program leaves the timeouts of timers alone. -/
theorem Knows.allFair (h : d.Knows) (c : Call) :
    d.schedule.AllFair timekeeping.bell (d.timerCalls c) := by
  cases c with
  | clear k =>
    simp only [timerCalls, loopCalls]
    cases hk : d.timeouts[k]? with
    | none => trivial
    | some id => exact ⟨h.own id (Array.mem_of_getElem? hk), trivial⟩
  | microtask | timeout | timer => exact ⟨rfl, trivial⟩
  | start | pause | cancel | skip => exact ⟨trivial, trivial⟩
  | advance | settle | runMicrotasks => trivial

/-- The tasks that a call leaves with the loop move no time if those of the call do not. -/
theorem only_call (h : d.schedule.Only Task.Timeless) {c : Call}
    (hc : ∀ e ∈ c.body, e.Within Call.Timeless) : (d.call c).1.schedule.Only Task.Timeless := by
  cases c with
  | microtask label body =>
    refine ⟨fun t ht => ?_, h.timeouts, h.timers⟩
    rcases List.mem_append.1 ht with ht | ht
    · exact h.microtasks t ht
    · rw [List.mem_singleton.1 ht]
      exact hc
  | timeout delay label body => exact h.setTimeout delay (t := .body label body) hc
  | clear k =>
    simp only [Desk.call]
    split
    · exact ⟨h.microtasks, fun x hx => h.timeouts x (List.mem_filter.1 hx).1, h.timers⟩
    · exact h
  | timer duration repeats body => exact h.addTimer hc
  | start k =>
    have hring (j : Nat) : (Task.ring j).Timeless := trivial
    exact h.start hring k
  | pause k =>
    simp only [Desk.call, Schedule.pause]
    split
    · next t ht =>
      split
      · exact h.disarm k (h.getElem? ht) _
      · exact h
    · exact h
  | cancel k => exact h.cancel k
  | skip k => exact h.skip k
  | advance | settle | runMicrotasks => exact h

/-- A call moves time or has microtasks run, if anything. -/
theorem of_mem_orders_call {c : Call} {o : Order Task} (ho : o ∈ (d.call c).2.2) :
    o = .drain ∨ ¬ c.Timeless ∧ ∃ t, o = .advance t := by
  cases c with
  | clear k =>
    simp only [Desk.call] at ho
    split at ho <;> cases ho
  | advance t => exact .inr ⟨id, t, List.mem_singleton.1 ho⟩
  | settle => exact .inr ⟨id, 0, List.mem_singleton.1 ho⟩
  | runMicrotasks => exact .inl (List.mem_singleton.1 ho)
  | _ => cases ho

end Desk

/-- What a task leads to that is fit. -/
structure Leads (t : Task) (x : Desk × List (Order Task)) : Prop where
  /-- The tasks that the schedule holds move no time. -/
  only : x.1.schedule.Only Task.Timeless
  /-- The program has its own numbers. -/
  knows : x.1.Knows
  /-- The orders are fit, and go on with no advance. -/
  orders : ∀ o ∈ x.2, IsFit o ∧ ¬ o.GoesOn
  /-- They move no time if the task does not. -/
  timeless : t.Timeless → ∀ o ∈ x.2, IsTimeless o

theorem Leads.perform {d : Desk} {t : Task} (ho : d.schedule.Only Task.Timeless) (hk : d.Knows)
    (ht : t.Fit) : Leads t (Desk.perform t d) := by
  have calls {c : Call} (hc : ∀ e ∈ c.body, e.Within Call.Timeless)
      (htimeless : t.Timeless → c.Timeless) : Leads t ((d.call c).1, (d.call c).2.2) := by
    refine ⟨d.only_call ho hc, hk.call c, fun o hmem => ?_, fun htime o hmem => ?_⟩
    · rcases Desk.of_mem_orders_call hmem with rfl | ⟨-, t, rfl⟩
      · exact ⟨trivial, id⟩
      · exact ⟨trivial, id⟩
    · rcases Desk.of_mem_orders_call hmem with rfl | ⟨hc, -⟩
      · trivial
      · exact absurd (htimeless htime) hc
  cases t with
  | body label cs =>
    have horders :
        ∀ o ∈ cs.map fun c => Order.perform (Task.call c), IsTimeless o ∧ ¬ o.GoesOn := by
      intro o hmem
      obtain ⟨c, hc, rfl⟩ := List.mem_map.1 hmem
      exact ⟨ht c hc, id⟩
    exact ⟨ho, hk.of_precedes rfl (.refl _),
      fun o hmem => ⟨(horders o hmem).1.isFit, (horders o hmem).2⟩,
      fun _ o hmem => (horders o hmem).1⟩
  | ring k =>
    have hring (j : Nat) : (Task.ring j).Timeless := trivial
    obtain ⟨hs, hcallback⟩ := ho.ring hring k
    have horders : ∀ o ∈ (d.schedule.ring .ring k).2.toList.map Order.perform,
        IsTimeless o ∧ ¬ o.GoesOn := by
      intro o hmem
      obtain ⟨t, ht, rfl⟩ := List.mem_map.1 hmem
      exact ⟨hcallback t (Option.mem_toList.1 ht), id⟩
    exact ⟨hs, hk.of_precedes rfl (Changes.rings d.schedule k).precedes,
      fun o hmem => ⟨(horders o hmem).1.isFit, (horders o hmem).2⟩,
      fun _ o hmem => (horders o hmem).1⟩
  | call c =>
    cases ht with
    | intro hc hbody =>
      obtain ⟨ho, hk, horders, htimeless⟩ := calls hbody fun _ => hc
      simp only [Desk.perform]
      split
      · exact ⟨ho, hk, horders, htimeless⟩
      · exact ⟨ho, ⟨hk.numbered, hk.old, hk.own⟩, horders, htimeless⟩
  | request c =>
    obtain ⟨ho, hk, horders, htimeless⟩ := calls ht False.elim
    exact ⟨ho, ⟨hk.numbered, hk.old, hk.own⟩, horders, htimeless⟩

/-- A machine whose tasks move no time. -/
structure Fit (m : Machine Desk Task) : Prop where
  /-- The tasks that the schedule holds move no time. -/
  only : m.world.schedule.Only Task.Timeless
  /-- The program has its own numbers. -/
  knows : m.world.Knows
  /-- The tasks of the agenda are fit. -/
  orders : ∀ o ∈ m.agenda, IsFit o
  /-- Time is not moved before an advance goes on. -/
  turns : m.agenda.Pairwise fun a o => o.GoesOn → IsTimeless a

namespace Fit

variable {d d' : Desk} {m : Machine Desk Task} {o : Order Task} {rest : List (Order Task)}

/-- The first order is replaced by others. -/
theorem turn (h : Fit ⟨d, o :: rest⟩) (orders : List (Order Task))
    (ho : d'.schedule.Only Task.Timeless) (hk : d'.Knows) (hf : ∀ a ∈ orders, IsFit a)
    (hp : orders.Pairwise fun a o => o.GoesOn → IsTimeless a)
    (ht : IsTimeless o → ∀ a ∈ orders, IsTimeless a) : Fit ⟨d', orders ++ rest⟩ := by
  obtain ⟨hfirst, hrest⟩ := List.pairwise_cons.1 h.turns
  exact ⟨ho, hk, List.forall_mem_append.2 ⟨hf, (List.forall_mem_cons.1 h.orders).2⟩,
    List.pairwise_append.2 ⟨hp, hrest, fun a ha r hr hg => ht (hfirst r hr hg) a ha⟩⟩

/-- What is fit goes on to be so. -/
theorem step (h : Fit m) : Fit m.step := by
  obtain ⟨d, agenda⟩ := m
  cases agenda with
  | nil => exact h
  | cons o rest =>
    have withLoop {l : Loop Task} (orders : List (Order Task))
        (hl : { d.schedule with loop := l }.Only Task.Timeless) (hp : d.schedule.loop.Precedes l)
        (hf : ∀ a ∈ orders, IsFit a) (hpair : orders.Pairwise fun a o => o.GoesOn → IsTimeless a)
        (ht : IsTimeless o → ∀ a ∈ orders, IsTimeless a) :
        Fit ⟨{ d with schedule := { d.schedule with loop := l } }, orders ++ rest⟩ :=
      h.turn orders hl (h.knows.of_precedes rfl hp) hf hpair ht
    cases o with
    | perform t =>
      have ht := Leads.perform h.only h.knows (List.forall_mem_cons.1 h.orders).1
      refine h.turn _ ht.only ht.knows (fun a ha => (ht.orders a ha).1) ?_ fun htime =>
        ht.timeless htime
      exact List.pairwise_of_forall_mem_list fun a _ o ho hg => absurd hg (ht.orders o ho).2
    | drain =>
      cases hp : (World.loop d).popMicrotask? with
      | none =>
        rw [Machine.step_of_popMicrotask?_eq_none hp]
        exact h.turn [] h.only h.knows nofun .nil nofun
      | some x =>
        obtain ⟨t, l⟩ := x
        obtain ⟨ht, hl⟩ := h.only.of_popMicrotask? hp
        rw [Machine.step_of_popMicrotask? hp]
        have htimeless : ∀ a ∈ [Order.perform t, .drain], IsTimeless a :=
          List.forall_mem_cons.2 ⟨ht, List.forall_mem_singleton.2 trivial⟩
        exact withLoop _ hl (.popMicrotask hp) (fun a ha => (htimeless a ha).isFit)
          (List.pairwise_of_forall_mem_list fun a ha _ _ _ => htimeless a ha) fun _ => htimeless
    | advance t =>
      refine h.turn [.drain, .depart t] h.only h.knows ?_ ?_ False.elim
      · exact List.forall_mem_cons.2 ⟨trivial, List.forall_mem_singleton.2 trivial⟩
      · exact List.pairwise_pair.2 fun _ => trivial
    | depart t =>
      exact h.turn [.runUntil _] h.only h.knows (List.forall_mem_singleton.2 trivial)
        (List.pairwise_singleton ..) False.elim
    | runUntil target =>
      cases hx : (World.loop d).due? target with
      | none =>
        rw [Machine.step_of_due_eq_none hx]
        exact withLoop (l := { World.loop d with now := target }) []
          ⟨h.only.microtasks, h.only.timeouts, h.only.timers⟩
          (.of_subset rfl (List.Subset.refl _)) nofun .nil False.elim
      | some x =>
        have hl := (Loop.due?_eq_some hx).1
        have ht : x.task.Timeless := h.only.timeouts x (hl ▸ List.mem_cons_self)
        rw [Machine.step_of_due hx]
        refine withLoop (l := (World.loop d).leave x) [.perform x.task, .drain, .runUntil target]
          ⟨h.only.microtasks, fun y hy => h.only.timeouts y (List.mem_of_mem_tail hy),
            h.only.timers⟩ (.leave ..) ?_ ?_ False.elim
        · exact List.forall_mem_cons.2 ⟨ht.fit, List.forall_mem_cons.2
            ⟨trivial, List.forall_mem_singleton.2 trivial⟩⟩
        · refine List.pairwise_cons.2 ⟨fun _ _ _ => ht, List.pairwise_pair.2 fun _ => trivial⟩
    | halt => exact ⟨h.only, h.knows, nofun, .nil⟩

/-- A step of a machine that is fit is fair. -/
theorem fair (h : Fit m) : timekeeping.Fair m := by
  obtain ⟨d, agenda⟩ := m
  cases agenda with
  | nil => trivial
  | cons o rest =>
    obtain ⟨hfirst, -⟩ := List.pairwise_cons.1 h.turns
    cases o with
    | perform t =>
      intro ht
      have calls (c : Call) : d.schedule.AllFair timekeeping.bell (d.timerCalls c) ∧
          ∀ o ∈ (d.call c).2.2, timekeeping.IsOpen o := by
        refine ⟨h.knows.allFair c, fun o ho => ?_⟩
        rcases Desk.of_mem_orders_call ho with rfl | ⟨-, t, rfl⟩ <;> trivial
      cases t with
      | body label cs =>
        refine ⟨trivial, fun o ho => ?_⟩
        obtain ⟨c, -, rfl⟩ := List.mem_map.1 ho
        exact rfl
      | ring k => cases ht
      | call c => exact calls c
      | request c => exact calls c
    | advance t => exact fun o ho hg => hfirst o ho hg
    | _ => trivial

end Fit

/-- A program from outside whose tasks move no time. -/
theorem fit_given {calls : List Call} (hc : ∀ c ∈ calls, ∀ d ∈ c.body, d.Within Call.Timeless) :
    Fit (given calls) := by
  refine ⟨⟨nofun, nofun, nofun⟩, ⟨nofun, nofun, nofun⟩, fun o ho => ?_, ?_⟩
  · obtain ⟨c, hm, rfl⟩ := List.mem_map.1 ho
    exact hc c hm
  · refine List.pairwise_of_forall_mem_list fun a _ o ho hg => ?_
    obtain ⟨c, -, rfl⟩ := List.mem_map.1 ho
    exact hg.elim

/-- The machines that take the first `n` steps of a program, the last one first. -/
def history (calls : List Call) (n : Nat) : List (Machine Desk Task) :=
  (List.range n).reverse.map fun i => (given calls).run i

/-- **A run of a program is watched** if its tasks move no time. -/
theorem watch_given {calls : List Call} (hc : ∀ c ∈ calls, ∀ d ∈ c.body, d.Within Call.Timeless)
    (n : Nat) : timekeeping.Watch (history calls n) ((given calls).run n) := by
  have hsteps : timekeeping.Watch (history calls n) ((given calls).run n) ∧
      Fit ((given calls).run n) := by
    induction n with
    | zero =>
      refine ⟨.turn (s := {}) (.start rfl) rfl fun o ho => ?_, fit_given hc⟩
      obtain ⟨c, -, rfl⟩ := List.mem_map.1 ho
      exact rfl
    | succ n ih =>
      rw [history, List.range_succ, List.reverse_append, Machine.run_add, Machine.run_succ]
      exact ⟨ih.1.step ih.2.fair, ih.2.step⟩
  exact hsteps.1

/-- A program that pauses a timer and has another one go on for it, whose callback skips the first
one. -/
def relay : List Call :=
  [.timer 10 false [], .start 0, .advance 4, .pause 0, .timer 6 false [.skip 0], .start 1,
    .advance 6]

theorem timeless_relay : ∀ c ∈ relay, ∀ d ∈ c.body, d.Within Call.Timeless := by
  simp only [relay, List.forall_mem_cons, Call.body]
  simp only [List.not_mem_nil, false_implies, implies_true, true_and, and_true]
  exact .intro trivial (List.forall_mem_nil _)

/-- The second timer goes on for the first one, which has run for four milliseconds of ten. -/
theorem relay_lifecycle : let m := (given relay).run 23
    let h := history relay 23
    timekeeping.Watch h m ∧ Handover (timekeeping.log h) 10 1 4 ∧
      invocations 1 (timekeeping.log h) = 1 ∧ ∃ t, m.world.schedule.timers[1]? = some t ∧
        t.repeats = false ∧ timekeeping.Lifecycle h m 1 t := by
  have hw := watch_given timeless_relay 23
  refine ⟨hw, ?_, by decide +kernel, _, rfl, rfl, hw.lifecycle rfl rfl⟩
  -- the first timer is made first of all, and it is paused before the second one is made
  have hfirst : Handover (timekeeping.log (history relay 23)) 10 0 0 := by
    have hmem : _ ∈ timekeeping.log (history relay 23) := List.mem_of_getElem? (i := 12) rfl
    exact .first hmem rfl
  have hlog : timekeeping.log (history relay 23) =
    [_, _, _, _, _, _, _, _] ++ _ :: ([_, _] ++ _ :: [_]) := rfl
  have hnext := Handover.next hfirst hlog rfl (List.forall_mem_cons.2
    ⟨rfl, List.forall_mem_singleton.2 rfl⟩) rfl rfl (List.mem_of_getElem? (i := 7) rfl) rfl
  exact hnext

end Novella.LoopProgram
