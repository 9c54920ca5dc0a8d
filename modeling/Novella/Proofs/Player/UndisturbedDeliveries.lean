import Novella.Proofs.Player.StepChanges

/-!
# Undisturbed deliveries

A host that only records what it hears does not disturb a delivery: one observer after the other is
called, and nothing else happens until all of them have heard the cell. Only when the player itself
hears the index does it start a line, and what this leaves to do comes before the observers that
have still to hear the index. They hear it later, and no harm is done.

So the loop is a queue to those who listen. What waits is delivered in its order, what is asked for
meanwhile waits at the end, and when the player hears the index nobody is left who has still to hear
what was delivered before.

## Main definitions

* `Machine.Records` — no listener makes a call
* `Undisturbed` — a machine whose deliveries of one cell, and of the index, are undisturbed
* `Machine.Passes` — what a step does to what waits

## Main results

* `Undisturbed.step` — deliveries stay undisturbed
* `Run.undisturbed` — what steps and turns preserve while they do
-/

namespace Novella

open Player

variable {P : HostCall → Prop} {c : CellName} {k : Nat} {ws : List CellName}

/-- No listener has a call made next. -/
def Machine.Records (m : Machine Player Task) : Prop := ∀ x ∈ m.call?, x.1 ≠ .events

instance (m : Machine Player Task) : Decidable m.Records :=
  inferInstanceAs (Decidable (∀ x ∈ m.call?, x.1 ≠ .events))

/-- The order lets nobody hear the cell, nor the player the index. -/
def Order.IsApart (P : HostCall → Prop) (c : CellName) (k : Nat) (o : Order Task) : Prop :=
  o.Passes P ∨ ∃ x id v, o = .perform (.hear x id v) ∧ x ≠ c ∧ (x = .index → id ≠ k)

/-- The orders that let observers hear a cell. -/
def calling (x : CellName) (v : x.Value) (ids : List Nat) : Orders :=
  ids.map (fun id => .perform (.hear x id v))

/-- The cells wait in this order, and what is under way of the delivery of the cell `c` or of the
index comes before everything else. The numbers are those of the observers that have still to hear
the cell. -/
inductive Undisturbed (P : HostCall → Prop) (c : CellName) (k : Nat) :
    List Nat → List CellName → Machine Player Task → Prop where
  /-- Nothing of the kind is under way. -/
  | quiet {ws : List CellName} {p : Player} {orders : Orders} :
      p.Tame P → p.display.Awaits k ws → (∀ o ∈ orders, o.IsApart P c k) →
        Undisturbed P c k [] ws ⟨p, orders⟩
  /-- A delivery has been taken from the loop. It counts as waiting until it begins. -/
  | deliver {ws : List CellName} {p : Player} {x : CellName} {orders : Orders} :
      p.Tame P → (p.requeue x).display.Awaits k (x :: ws) → (∀ o ∈ orders, o.IsApart P c k) →
        Undisturbed P c k [] (x :: ws) ⟨p, .perform (.deliver x) :: orders⟩
  /-- Observers are called. -/
  | hear {ws : List CellName} {p : Player} {x : CellName} {ids : List Nat} {orders : Orders} :
      p.Tame P → p.display.Awaits k ws → x = c ∨ x = .index → x ∉ ws → ids.Nodup →
        (∀ o ∈ orders, o.IsApart P c k) → Undisturbed P c k (if x = c then ids else []) ws
          ⟨p, calling x (p.stage.cell x).value ids ++ orders⟩

/-- No observer of the cell is called next, and no delivery begins. -/
def Machine.Spares (m : Machine Player Task) (c : CellName) : Prop :=
  ∀ rest, (∀ id v, m.agenda ≠ .perform (.hear c id v) :: rest) ∧
    ∀ x, m.agenda ≠ .perform (.deliver x) :: rest

/-- What a step does to those who have still to hear the cell, and to what waits. -/
inductive Machine.Passes (m : Machine Player Task) (c : CellName) :
    List Nat → List CellName → List Nat → List CellName → Prop where
  /-- What is first in the loop is taken from it. -/
  | take {ws : List CellName} {rest : Orders} : m.agenda = .drain :: rest →
      m.world.loop.microtasks ≠ [] → Passes m c [] ws [] ws
  /-- A delivery begins. -/
  | deliver {x : CellName} {ws : List CellName} {rest : Orders} :
      m.agenda = .perform (.deliver x) :: rest → Passes m c [] (x :: ws)
        (if x = c then (m.world.stage.cell c).observers.map Observer.id else []) ws
  /-- An observer hears the cell. -/
  | hear {id : Nat} {ids : List Nat} {ws : List CellName} {rest : Orders} :
      m.agenda = .perform (.hear c id (m.world.stage.cell c).value) :: rest →
      m.dispatched? = none → m.Makes [] → Passes m c (id :: ids) ws ids ws
  /-- The script is moved, or the host has a hand in it. -/
  | outside {xs : List CellChange} {ws ds : List CellName} : m.Spares c → m.dispatched? = none →
      m.Makes xs → (∀ x ∈ xs, x.cell.IsPlace ∨ ∃ y ∈ m.call?, y.2.Alters x.cell) →
      (∀ e ∈ ds, ∃ x ∈ xs, x.cell = e) → Passes m c [] ws [] (ws ++ ds)
  /-- An instruction begins. -/
  | begins {i : Instruction} {commands : CommandTable} {stage : Stage Reaction}
      {ws ds : List CellName} : m.Spares c → m.dispatched? = some i → commands.Scripted →
      m.Makes (i.changes commands stage) →
      (∀ e ∈ ds, ∃ x ∈ i.changes commands stage, x.cell = e) → Passes m c [] ws [] (ws ++ ds)

namespace Undisturbed

variable {m : Machine Player Task} {p : Player} {rest : Orders}

theorem isApart_of_mem_calling {x : CellName} {v : x.Value} {ids : List Nat} (hc : x ≠ c)
    (hk : x = .index → k ∉ ids) : ∀ o ∈ calling x v ids, o.IsApart P c k := by
  intro o ho
  obtain ⟨id, hid, rfl⟩ := List.mem_map.1 ho
  exact .inr ⟨x, id, v, rfl, hc, fun hx heq => hk hx (heq ▸ hid)⟩

theorem isApart_append {orders : Orders} (ho : ∀ o ∈ orders, o.IsApart P c k)
    (hr : ∀ o ∈ rest, o.IsApart P c k) : ∀ o ∈ orders ++ rest, o.IsApart P c k :=
  List.forall_mem_append.2 ⟨ho, hr⟩

theorem spares_of_isApart {o : Order Task} (ho : o.IsApart P c k) :
    Machine.Spares ⟨p, o :: rest⟩ c := by
  refine fun rest' => ⟨fun id v h => ?_, fun x h => ?_⟩
  all_goals
    obtain ⟨rfl, -⟩ := List.cons.inj h
    rcases ho with hp | ⟨x, id', v', heq, hx, -⟩
  · exact hp
  · cases heq
    exact hx rfl
  · exact hp
  · cases heq

/-- Changes leave deliveries at the end. -/
theorem passes_of_making (h : m.world.display.Awaits k ws) (hs : m.Spares c) (hm : m.Making) :
    ∃ ws', m.step.world.display.Awaits k ws' ∧ m.Passes c [] ws [] ws' := by
  have changed {xs : List CellChange} (hx : m.Makes xs) : ∃ ds,
      m.step.world.display.Awaits k (ws ++ ds) ∧ ∀ e ∈ ds, ∃ x ∈ xs, x.cell = e := by
    obtain ⟨stage, hl, hd⟩ := hx
    rw [hd]
    have hw : (Display.mk stage m.world.loop.microtasks).Awaits k ws := h.like hl rfl
    exact hw.changed xs
  cases hm with
  | outside xs hn hx hwhy =>
    obtain ⟨ds, hd, hds⟩ := changed hx
    exact ⟨_, hd, .outside hs hn hx hwhy hds⟩
  | begins hi hc hx =>
    obtain ⟨ds, hd, hds⟩ := changed hx
    exact ⟨_, hd, .begins hs hi hc hx hds⟩

/-- What is left to do after a step that takes nothing from the loop. -/
theorem of_leaves {r : Player × Orders} (hl : Leaves P r) (hd : r.1.display.Awaits k ws)
    (hr : ∀ o ∈ rest, o.IsApart P c k) : Undisturbed P c k [] ws ⟨r.1, r.2 ++ rest⟩ :=
  .quiet hl.tame hd (isApart_append (fun o ho => .inl (hl.orders o ho)) hr)

/-- The next microtask, if there is one, is a delivery. -/
theorem step_drain (ht : p.Tame P) (hd : p.display.Awaits k ws) (ho : p.desk.InOrder)
    (hr : ∀ o ∈ rest, o.IsApart P c k) :
    ∃ ws', Undisturbed P c k [] ws' (Machine.step ⟨p, .drain :: rest⟩) ∧
      Machine.Passes ⟨p, .drain :: rest⟩ c [] ws [] ws' := by
  cases hm : p.schedule.loop.microtasks with
  | nil =>
    have hpop : (World.loop p).popMicrotask? = none := by
      simp only [World.loop, Loop.popMicrotask?, hm]
    obtain ⟨ws', hd', hp⟩ := passes_of_making (m := ⟨p, .drain :: rest⟩) hd
      (fun _ => ⟨fun _ _ h => (by cases h), fun _ h => by cases h⟩)
      (Machine.making hd.numbered ho (fun _ _ h => by cases h) fun _ _ => hm)
    refine ⟨ws', ?_, hp⟩
    simp only [Machine.step, hpop] at hd' ⊢
    exact .quiet ht hd' hr
  | cons t ts =>
    obtain ⟨x, ws, rfl, rfl, rfl⟩ : ∃ x ws', ws = x :: ws' ∧ t = .deliver x ∧
        ts = ws'.map .deliver := by
      have heq := hd.microtasks.symm.trans hm
      cases ws with
      | nil => cases heq
      | cons x ws =>
        obtain ⟨rfl, rfl⟩ := List.cons.inj heq
        exact ⟨x, ws, rfl, rfl, rfl⟩
    have hpop : (World.loop p).popMicrotask? =
        some (.deliver x, { p.schedule.loop with microtasks := ws.map .deliver }) := by
      simp only [World.loop, Loop.popMicrotask?, hm]
    refine ⟨x :: ws, ?_, .take rfl ?_⟩
    · simp only [Machine.step, hpop]
      refine .deliver ?_ ?_ (List.forall_mem_cons.2 ⟨.inl trivial, hr⟩)
      · refine ht.withSchedule (fun t h => ?_) ht.timeouts ht.timers
        obtain ⟨y, -, rfl⟩ := List.mem_map.1 h
        exact ⟨y, rfl⟩
      · have hq : (Player.requeue (World.withLoop p
            { p.schedule.loop with microtasks := ws.map .deliver }) x).display = p.display :=
          congrArg (Display.mk p.stage) hm.symm
        rw [hq]
        exact hd
    · rw [show p.loop.microtasks = _ from hm]
      exact List.cons_ne_nil _ _

/-- A delivery that has been taken from the loop begins. -/
theorem step_deliver {x : CellName} (ht : p.Tame P)
    (hd : (p.requeue x).display.Awaits k (x :: ws)) (hr : ∀ o ∈ rest, o.IsApart P c k) :
    Undisturbed P c k (if x = c then (p.stage.cell c).observers.map Observer.id else []) ws
      (Machine.step ⟨p, .perform (.deliver x) :: rest⟩) := by
  have hq : (p.store x ((p.stage.cell x).beginDelivery.1, false)).display.Awaits k ws := by
    have hm : p.loop.microtasks = ws.map .deliver := (List.cons.inj hd.microtasks).2
    have h := hd.deliver
    rw [← hm] at h
    rw [display_store]
    exact h
  have hstep : Machine.step ⟨p, .perform (.deliver x) :: rest⟩ =
      ⟨p.store x ((p.stage.cell x).beginDelivery.1, false),
        calling x (p.stage.cell x).value ((p.stage.cell x).observers.map Observer.id) ++ rest⟩ :=
    rfl
  rw [hstep]
  by_cases hx : x = c ∨ x = .index
  · have hv : ((p.store x ((p.stage.cell x).beginDelivery.1, false)).stage.cell x).value =
        (p.stage.cell x).value := by
      rw [Player.store, Stage.cell_withCell_self]
      rfl
    have hids : (if x = c then (p.stage.cell c).observers.map Observer.id else []) =
        if x = c then (p.stage.cell x).observers.map Observer.id else [] := by
      split
      · next h => rw [h]
      · rfl
    rw [← hv, hids]
    exact .hear (ht.store ..) hq hx (List.nodup_cons.1 hd.nodup).1 (hd.numbered x).nodup hr
  · rw [if_neg fun h => hx (.inl h)]
    exact .quiet (ht.store ..) hq (isApart_append
      (isApart_of_mem_calling (fun h => hx (.inl h)) fun h => absurd (.inr h) hx) hr)

/-- Only the player itself does more than to record what it hears. -/
theorem orders_reactTo {x : CellName} {r : Reaction} {v : x.Value}
    (h : x = .index → r ≠ .runLine) : (p.reactTo r x v).2 = [] ∨
      ∃ d orders, (p.reactTo r x v).2 = .perform (.call .events d) :: orders := by
  unfold reactTo
  split
  · exact .inl rfl
  · exact absurd rfl (h rfl)
  · exact .inl rfl
  · exact .inl rfl
  · next n x v =>
    rw [react]
    dsimp only
    split
    · next l _ =>
      split
      · cases l.body with
        | nil => exact .inl rfl
        | cons d ds => exact .inr ⟨d, _, rfl⟩
      · exact .inl rfl
    · exact .inl rfl
  · exact .inl rfl

theorem orders_hear {x : CellName} {id : Nat} {v : x.Value}
    (h : x = .index → ((p.stage.cell x).hear id v).2 ≠ some .runLine) :
    (Player.perform (.hear x id v) p).2 = [] ∨
      ∃ d orders, (Player.perform (.hear x id v) p).2 = .perform (.call .events d) :: orders := by
  cases hh : (p.stage.cell x).hear id v with
  | mk after r =>
    rw [hh] at h
    cases r with
    | none => exact .inl (by simp only [Player.perform, hh])
    | some r =>
      rw [Steady.perform_hear_eq hh]
      exact orders_reactTo fun hx hr => h hx (congrArg some hr)

/-- The player hears the index under its own number. -/
theorem eq_of_runLine (hd : p.display.Awaits k ws) {id : Nat} {i : UInt64}
    (h : (p.stage.index.hear id i).2 = some .runLine) : id = k := by
  unfold Cell.hear at h
  split at h
  · next o hf =>
    split at h
    · have hid : o.id = id := by simpa using List.find?_some hf
      rw [← hid]
      exact hd.led o (List.mem_of_find?_eq_some hf) (Option.some.inj h)
    · cases h
  · cases h

/-- An observer that is not the player itself leaves everything as it is. -/
theorem not_advances_hear {x : CellName} {id : Nat} {v : x.Value} (hx : x.IsPlace → x = .index)
    (hr : x = .index → ((p.stage.cell x).hear id v).2 ≠ some .runLine) :
    ¬ Machine.Advances ⟨p, .perform (.hear x id v) :: rest⟩ := by
  have hl : Machine.line? ⟨p, .perform (.hear x id v) :: rest⟩ = none := by
    unfold Machine.line?
    split
    · next heq =>
      cases heq
      exact if_neg fun h => hr rfl h.1
    · rfl
  refine Machine.not_advances hl fun hb => ?_
  have hdesk : (Player.perform (.hear x id v) p).1.desk.live = p.desk.live := by
    cases hh : (p.stage.cell x).hear id v with
    | mk after r =>
      rw [hh] at hr
      cases r with
      | none => simp only [Player.perform, hh]
      | some r =>
        rw [Steady.perform_hear_eq hh, Machine.Work.desk_reactTo fun hp hrc => ?_]
        · rfl
        · obtain rfl := hx hp
          exact hr rfl (congrArg some hrc)
  rw [Steady.step_perform]
  change _ ∈ (Player.perform (.hear x id v) p).1.desk.live
  rw [hdesk]
  exact hb

/-- The player itself hears the index. -/
theorem step_runLine {i : UInt64} {ids : List Nat} (hc : ¬ c.IsPlace) (ht : p.Tame P)
    (hd : p.display.Awaits k ws) (ho : p.desk.InOrder) (hid : k ∉ ids)
    (hr : ∀ o ∈ rest, o.IsApart P c k) :
    ∃ ws', Undisturbed P c k [] ws'
        (Machine.step ⟨p, .perform (.hear .index k i) :: (calling .index i ids ++ rest)⟩) ∧
      Machine.Passes ⟨p, .perform (.hear .index k i) :: (calling .index i ids ++ rest)⟩
        c [] ws [] ws' := by
  have hne : CellName.index ≠ c := fun h => hc (h ▸ .inr rfl)
  have hs :
      Machine.Spares ⟨p, .perform (.hear .index k i) :: (calling .index i ids ++ rest)⟩ c := by
    refine fun rest' => ⟨fun id v h => ?_, fun x h => nomatch h⟩
    cases h
    exact hne rfl
  obtain ⟨ws', hd', hp⟩ := passes_of_making hd hs
    (Machine.making hd.numbered ho (fun _ _ h => nomatch h) fun _ h => nomatch h)
  exact ⟨ws', of_leaves (ht.hear .index k i) hd'
    (isApart_append (isApart_of_mem_calling hne fun _ => hid) hr), hp⟩

/-- An observer of the cell is called as the next one, and an observer of another cell is none of
its business. -/
theorem passes_hear {x : CellName} {id : Nat} {v : x.Value} {ids : List Nat} {orders : Orders}
    (hv : (p.stage.cell x).value = v)
    (hna : ¬ Machine.Advances ⟨p, .perform (.hear x id v) :: orders⟩)
    (hm : Machine.Makes ⟨p, .perform (.hear x id v) :: orders⟩ []) :
    Machine.Passes ⟨p, .perform (.hear x id v) :: orders⟩ c (if x = c then id :: ids else []) ws
      (if x = c then ids else []) ws := by
  by_cases hxc : x = c
  · subst hxc
    rw [if_pos rfl, if_pos rfl]
    exact .hear (by rw [hv]) (Machine.dispatched?_eq_none hna) hm
  · rw [if_neg hxc, if_neg hxc]
    have h : Machine.Passes ⟨p, .perform (.hear x id v) :: orders⟩ c [] ws [] (ws ++ []) := by
      refine .outside (fun rest' => ⟨fun id' v' h => ?_, fun y h => nomatch h⟩)
        (Machine.dispatched?_eq_none hna) hm (fun y hy => absurd hy List.not_mem_nil)
        fun y hy => absurd hy List.not_mem_nil
      cases h
      exact hxc rfl
    rwa [List.append_nil] at h

/-- The next observer is called. -/
theorem step_hear {x : CellName} {id : Nat} {ids : List Nat} (ht : p.Tame P)
    (hd : p.display.Awaits k ws) (hx : x = c ∨ x = .index) (hplace : x.IsPlace → x = .index)
    (hne : x = .index → ((p.stage.cell x).hear id (p.stage.cell x).value).2 ≠ some .runLine)
    (hw : x ∉ ws) (hn : ids.Nodup) (hr : ∀ o ∈ rest, o.IsApart P c k) :
    (∃ d orders, (Machine.step ⟨p, .perform (.hear x id (p.stage.cell x).value) ::
        (calling x (p.stage.cell x).value ids ++ rest)⟩).agenda =
      .perform (.call .events d) :: orders) ∨
      Undisturbed P c k (if x = c then ids else []) ws
          (Machine.step ⟨p, .perform (.hear x id (p.stage.cell x).value) ::
            (calling x (p.stage.cell x).value ids ++ rest)⟩) ∧
        Machine.Passes ⟨p, .perform (.hear x id (p.stage.cell x).value) ::
            (calling x (p.stage.cell x).value ids ++ rest)⟩ c
          (if x = c then id :: ids else []) ws (if x = c then ids else []) ws := by
  generalize hv : (p.stage.cell x).value = v at hne ⊢
  have hl := ht.hear x id v
  have hna : ¬ Machine.Advances ⟨p, .perform (.hear x id v) :: (calling x v ids ++ rest)⟩ :=
    not_advances_hear hplace hne
  have hline : Machine.line? ⟨p, .perform (.hear x id v) :: (calling x v ids ++ rest)⟩ = none :=
    Classical.byContradiction fun h => hna (.inl h)
  have hm := Machine.makes_hear hd.numbered hline
  refine .imp_right (fun h => ⟨h, passes_hear hv hna hm⟩) ?_
  obtain ⟨stage, hlike, hstage⟩ := hm
  have hshow : (Player.perform (.hear x id v) p).1.display = ⟨stage, p.loop.microtasks⟩ := hstage
  have hd' : (Player.perform (.hear x id v) p).1.display.Awaits k ws := by
    rw [hshow]
    exact hd.like hlike rfl
  have hv' : ((Player.perform (.hear x id v) p).1.stage.cell x).value = v := by
    rw [show (Player.perform (.hear x id v) p).1.stage = stage from
      congrArg Display.stage hshow, (hlike x).value]
    exact hv
  have goOn (horders : (Player.perform (.hear x id v) p).2 = []) :
      Undisturbed P c k (if x = c then ids else []) ws
        (Machine.step ⟨p, .perform (.hear x id v) :: (calling x v ids ++ rest)⟩) := by
    rw [Steady.step_perform, horders, List.nil_append]
    have h := Undisturbed.hear hl.tame hd' hx hw hn hr
    rw [hv'] at h
    exact h
  rcases orders_hear hne with h | ⟨d, orders, h⟩
  · exact .inr (goOn h)
  · refine .inl ⟨d, orders ++ (calling x v ids ++ rest), ?_⟩
    rw [Steady.step_perform, h]
    rfl

/-- What is done next is no delivery. -/
theorem step_apart {o : Order Task} (ht : p.Tame P) (hd : p.display.Awaits k ws)
    (ho : p.desk.InOrder) (hapart : o.IsApart P c k) (hr : ∀ o ∈ rest, o.IsApart P c k) :
    ∃ ws', Undisturbed P c k [] ws' (Machine.step ⟨p, o :: rest⟩) ∧
      Machine.Passes ⟨p, o :: rest⟩ c [] ws [] ws' := by
  by_cases hdrain : o = .drain
  · obtain rfl := hdrain
    exact step_drain ht hd ho hr
  have hdeliver (x : CellName) : o ≠ .perform (.deliver x) := by
    rintro rfl
    rcases hapart with h | ⟨y, id, v, h, -⟩
    · exact h
    · cases h
  obtain ⟨ws', hd', hp⟩ := passes_of_making (m := ⟨p, o :: rest⟩) hd (spares_of_isApart hapart)
    (Machine.making hd.numbered ho (fun x _ h => hdeliver x (List.cons.inj h).1)
      fun _ h => absurd (List.cons.inj h).1 hdrain)
  refine ⟨ws', ?_, hp⟩
  have pass {o : Order Task} (h : o.Passes P) : o.IsApart P c k := .inl h
  cases o with
  | drain => exact absurd rfl hdrain
  | perform t =>
    rcases hapart with hpass | ⟨x, id, v, hx, -⟩
    · exact of_leaves (ht.perform hpass) hd' hr
    · cases hx
      exact of_leaves (ht.hear x id v) hd' hr
  | advance d =>
    exact .quiet ht hd'
      (List.forall_mem_cons.2 ⟨pass trivial, List.forall_mem_cons.2 ⟨pass trivial, hr⟩⟩)
  | depart d => exact .quiet ht hd' (List.forall_mem_cons.2 ⟨pass trivial, hr⟩)
  | halt => exact .quiet ht hd' fun o ho => absurd ho List.not_mem_nil
  | runUntil target =>
    cases hpop : (World.loop p).popDue? target with
    | none =>
      simp only [Machine.step, hpop] at hd' ⊢
      exact .quiet (ht.withSchedule ht.microtasks ht.timeouts ht.timers) hd' hr
    | some due =>
      obtain ⟨t, l⟩ := due
      simp only [Machine.step, hpop] at hd' ⊢
      obtain ⟨u, us, hu, -, rfl, rfl⟩ := Loop.eq_of_popDue? hpop
      refine .quiet ?_ hd' (List.forall_mem_cons.2 ⟨pass ?_, List.forall_mem_cons.2
        ⟨pass trivial, List.forall_mem_cons.2 ⟨pass trivial, hr⟩⟩⟩)
      · exact ht.withSchedule ht.microtasks
          (fun x h => ht.timeouts x (hu ▸ List.mem_cons_of_mem _ h)) ht.timers
      · exact (ht.timeouts u (hu ▸ List.mem_cons_self)).passes

theorem step_quiet {orders : Orders} (ht : p.Tame P) (hd : p.display.Awaits k ws)
    (ho : p.desk.InOrder) (hr : ∀ o ∈ orders, o.IsApart P c k) :
    ∃ ws', Undisturbed P c k [] ws' (Machine.step ⟨p, orders⟩) ∧
      Machine.Passes ⟨p, orders⟩ c [] ws [] ws' := by
  cases orders with
  | nil =>
    obtain ⟨ws', hd', hp⟩ := passes_of_making (m := ⟨p, []⟩) hd
      (fun _ => ⟨(fun _ _ h => nomatch h), fun _ h => nomatch h⟩)
      (Machine.making hd.numbered ho (fun _ _ h => nomatch h) fun _ h => nomatch h)
    exact ⟨ws', .quiet ht hd' hr, hp⟩
  | cons o rest =>
    obtain ⟨hapart, hr⟩ := List.forall_mem_cons.1 hr
    exact step_apart ht hd ho hapart hr

/-- **One step.** Deliveries stay undisturbed, or a listener makes a call. -/
theorem step {ids : List Nat} (hc : ¬ c.IsPlace) (h : Undisturbed P c k ids ws m)
    (ho : m.world.desk.InOrder) :
    (∃ d orders, m.step.agenda = .perform (.call .events d) :: orders) ∨
      ∃ ids' ws', Undisturbed P c k ids' ws' m.step ∧ m.Passes c ids ws ids' ws' := by
  have quiet {p : Player} {orders : Orders} {ws : List CellName} (ht : p.Tame P)
      (hd : p.display.Awaits k ws) (ho : p.desk.InOrder) (hr : ∀ o ∈ orders, o.IsApart P c k) :
      ∃ ids' ws', Undisturbed P c k ids' ws' (Machine.step ⟨p, orders⟩) ∧
        Machine.Passes ⟨p, orders⟩ c [] ws ids' ws' := by
    obtain ⟨ws', hs, hp⟩ := step_quiet ht hd ho hr
    exact ⟨_, ws', hs, hp⟩
  cases h with
  | quiet ht hd hr => exact .inr (quiet ht hd ho hr)
  | deliver ht hd hr => exact .inr ⟨_, _, step_deliver ht hd hr, .deliver rfl⟩
  | @hear ws p x ids orders ht hd hx hw hn hr =>
    cases ids with
    | nil =>
      rw [ite_self]
      exact .inr (quiet ht hd ho hr)
    | cons id ids =>
      obtain ⟨hid, hn⟩ := List.nodup_cons.1 hn
      by_cases hrun : x = .index ∧
          ((p.stage.cell x).hear id (p.stage.cell x).value).2 = some .runLine
      · obtain ⟨rfl, hrun⟩ := hrun
        obtain rfl := eq_of_runLine hd hrun
        have hne : CellName.index ≠ c := fun h => hc (h ▸ .inr rfl)
        obtain ⟨ws', hs, hp⟩ := step_runLine hc ht hd ho hid hr
        rw [if_neg hne]
        exact .inr ⟨_, ws', hs, hp⟩
      · have hplace : x.IsPlace → x = .index := fun hp => hx.resolve_left fun h => hc (h ▸ hp)
        rcases step_hear ht hd hx hplace (fun h hr => hrun ⟨h, hr⟩) hw hn hr with h | ⟨hs, hp⟩
        · exact .inl h
        · exact .inr ⟨_, _, hs, hp⟩

/-! ### Consequences -/

theorem tame {ids : List Nat} (h : Undisturbed P c k ids ws m) : m.world.Tame P := by
  cases h <;> assumption

/-- The cells say whether they wait. -/
theorem scheduled {ids : List Nat} (h : Undisturbed P c k ids ws m) (x : CellName) :
    (m.world.stage.cell x).scheduled = true ↔ x ∈ ws := by
  cases h with
  | quiet _ hd _ => exact hd.scheduled x
  | deliver _ hd _ => exact hd.scheduled x
  | hear _ hd => exact hd.scheduled x

theorem numbered {ids : List Nat} (h : Undisturbed P c k ids ws m) (x : CellName) :
    (m.world.stage.cell x).Numbered := by
  cases h with
  | quiet _ hd _ => exact hd.numbered x
  | deliver _ hd _ => exact hd.numbered x
  | hear _ hd => exact hd.numbered x

/-- While a cell is delivered it does not wait again. -/
theorem hearing {id : Nat} {ids : List Nat} (h : Undisturbed P c k (id :: ids) ws m) :
    id ∉ ids ∧ c ∉ ws := by
  generalize hi : id :: ids = l at h
  cases h with
  | quiet => cases hi
  | deliver => cases hi
  | @hear _ p x l _ _ _ _ hw hn =>
    by_cases hx : x = c
    · subst hx
      rw [if_pos rfl] at hi
      subst hi
      exact ⟨(List.nodup_cons.1 hn).1, hw⟩
    · rw [if_neg hx] at hi
      cases hi

/-- Whoever has still to hear the cell is called. -/
theorem mem_agenda {ids : List Nat} {id : Nat} (h : Undisturbed P c k ids ws m) (hid : id ∈ ids) :
    .perform (.hear c id (m.world.stage.cell c).value) ∈ m.agenda := by
  cases h with
  | quiet | deliver => exact absurd hid List.not_mem_nil
  | @hear _ p x ids =>
    by_cases hx : x = c
    · subst hx
      rw [if_pos rfl] at hid
      exact List.mem_append_left _ (List.mem_map.2 ⟨id, hid, rfl⟩)
    · rw [if_neg hx] at hid
      exact absurd hid List.not_mem_nil

/-- When nothing is left to do nobody has still to hear the cell. -/
theorem at_rest {ids : List Nat} (h : Undisturbed P c k ids ws ⟨p, []⟩) :
    ids = [] ∧ p.display.Awaits k ws := by
  constructor
  · exact List.eq_nil_iff_forall_not_mem.2 fun id hid =>
      absurd (h.mem_agenda hid) List.not_mem_nil
  · generalize hm : (⟨p, []⟩ : Machine Player Task) = m at h
    cases h with
    | quiet _ hs _ =>
      cases hm
      exact hs
    | deliver => cases hm
    | hear _ hs =>
      obtain ⟨rfl, -⟩ := Machine.mk.inj hm
      exact hs

/-- The host may have its turn. -/
theorem turn {ids : List Nat} {q : Player} {orders : Orders} (h : Undisturbed P c k ids ws ⟨p, []⟩)
    (hd : q.desk = p.desk) (ht : q.Tame P) (ho : ∀ o ∈ orders, o.Passes P) :
    Undisturbed P c k [] ws ⟨q, orders⟩ := by
  refine .quiet ht ?_ fun o h => .inl (ho o h)
  rw [display_of_desk hd]
  exact h.at_rest.2

end Undisturbed

/-! ### Runs -/

/-- At first nothing waits. -/
theorem Player.Begins.undisturbed {p : Player} (h : p.Begins) (P : HostCall → Prop) :
    ∃ k, ∀ c, Undisturbed P c k [] [] ⟨p, []⟩ := by
  have first {q : Player} {k : Nat} (ht : q.Tame P) (hd : q.display.Awaits k []) :
      ∃ k, ∀ c, Undisturbed P c k [] [] ⟨q, []⟩ :=
    ⟨k, fun _ => .quiet ht hd fun o ho => absurd ho List.not_mem_nil⟩
  have nobody {α : Type} (v : α) : ({ value := v } : Cell α Reaction).Numbered :=
    ⟨.nil, fun o ho => absurd ho List.not_mem_nil⟩
  cases h with
  | standard source filter settings =>
    refine first (k := 0) (Tame.following (.of_empty rfl rfl rfl)) ⟨rfl, .nil, fun c => ?_,
      fun c => ?_, fun o ho _ => ?_, Nat.zero_lt_one⟩
    · cases c <;> exact iff_of_false Bool.false_ne_true List.not_mem_nil
    · cases c <;> first | exact nobody _ | exact (nobody _).observe ..
    · exact congrArg Observer.id (List.mem_singleton.1 ho)
  | session source filter settings clock =>
    refine first (k := 1) (Session.tame_playerOf ..) ⟨rfl, .nil, fun c => ?_, fun c => ?_,
      fun o ho hr => ?_, Nat.one_lt_two⟩
    · cases c <;> exact iff_of_false Bool.false_ne_true List.not_mem_nil
    · cases c <;> first
        | exact nobody _
        | exact (nobody _).observe ..
        | exact ((nobody _).observe ..).observe ..
    · rcases List.mem_cons.1 ho with rfl | ho
      · cases hr
      · exact congrArg Observer.id (List.mem_singleton.1 ho)

namespace Run

/-- **What steps and turns preserve while deliveries are undisturbed.** A host that only records
leaves them so. -/
theorem undisturbed {m n : Machine Player Task} {h : List (Machine Player Task)}
    {Q : List (Machine Player Task) → List Nat → List CellName → Machine Player Task → Prop}
    (hc : ¬ c.IsPlace) (r : Run P m h n) (hm : m.world.desk.InOrder)
    (hrec : ∀ x ∈ h, x.Records)
    (start : m.Records → ∃ ids ws, Undisturbed P c k ids ws m ∧ Q [] ids ws m)
    (step : ∀ {h n ids ws ids' ws'}, Undisturbed P c k ids ws n → n.world.desk.InOrder →
      n.Passes c ids ws ids' ws' → Undisturbed P c k ids' ws' n.step → Q h ids ws n →
        Q (n :: h) ids' ws' n.step)
    (turn : ∀ {h ws} {p q : Player} {orders : Orders}, q.desk = p.desk →
      (∀ o ∈ orders, o.Passes P) → Q h [] ws ⟨p, []⟩ → Q h [] ws ⟨q, orders⟩)
    (hn : n.Records) : ∃ ids ws, Undisturbed P c k ids ws n ∧ Q h ids ws n := by
  have rest (p : Player) : Machine.Records ⟨p, []⟩ := fun x hx => nomatch hx
  have turned {h : List (Machine Player Task)} {p q : Player} {orders : Orders}
      (hd : q.desk = p.desk) (ht : p.Tame P → q.Tame P ∧ ∀ o ∈ orders, o.Passes P)
      (hq : ∃ ids ws, Undisturbed P c k ids ws ⟨p, []⟩ ∧ Q h ids ws ⟨p, []⟩) :
      ∃ ids ws, Undisturbed P c k ids ws ⟨q, orders⟩ ∧ Q h ids ws ⟨q, orders⟩ := by
    obtain ⟨ids, ws, hu, hq⟩ := hq
    obtain ⟨ht, ho⟩ := ht hu.tame
    obtain rfl := hu.at_rest.1
    exact ⟨_, _, hu.turn hd ht ho, turn hd ho hq⟩
  induction r with
  | start => exact start hn
  | @step h n r ih =>
    obtain ⟨hr, hrec⟩ := List.forall_mem_cons.1 hrec
    obtain ⟨ids, ws, hu, hq⟩ := ih hrec hr
    rcases hu.step hc (r.inOrder hm) with ⟨d, orders, hcall⟩ | ⟨ids', ws', hu', hp⟩
    · exact absurd rfl (hn (.events, d) (by rw [Machine.call?, hcall]; rfl))
    · exact ⟨ids', ws', hu', step hu (r.inOrder hm) hp hu' hq⟩
  | @turn h p book events answer orders _ ho ih =>
    refine @turned h p { p with book, events, answer } orders rfl
      (fun ht => ⟨ht.of_eq rfl rfl ht.listeners, fun o h => ?_⟩) (ih hrec (rest p))
    rcases ho o h with ⟨a, d, rfl, hd⟩ | ⟨d, rfl⟩
    · exact hd
    · trivial
  | @connect h p hook l _ hl ih =>
    exact turned (desk_of_inside (inside_connect ..))
      (fun ht => ⟨(ht.connect hook hl).tame, (ht.connect hook hl).orders⟩) (ih hrec (rest p))
  | @connectToBook h p hook l _ hl ih =>
    exact turned (desk_of_inside (inside_connectToBook ..))
      (fun ht => ⟨(ht.connectToBook hook hl).tame, (ht.connectToBook hook hl).orders⟩)
      (ih hrec (rest p))

end Run

end Novella
