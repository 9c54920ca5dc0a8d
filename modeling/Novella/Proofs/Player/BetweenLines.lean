import Novella.Proofs.Player.Tickets
import Novella.Proofs.Session.WatchedSessions

/-!
# Between a jump and the next line

When a script is moved, or while its scene is loaded, no instruction is under way and none is left
of the line. A player in this state is *vacant*. If it is only watched it waits for the next line:
it sends no signal, and position and variables stay as they are unless it is moved again.

## Main definitions

* `Vacant` — a player without an instruction, with its agenda

## Main results

* `Vacant.step` — a vacant player only waits for the next line
* `Recital.loading` — while a scene is loaded the player is vacant
-/

namespace Novella

open Player

/-! ### Between a jump and the next line -/

/-- The order has nothing to do with an instruction under way. -/
def Order.IsIdle : Order Task → Prop
  | .perform (.conclude _ _) => False
  | .perform (.reveal _ a) => a = .tick ∨ a = .wake
  | _ => True

/-- No instruction is under way, and none is left of the line. -/
structure Vacant (p : Player) (agenda : Orders) : Prop where
  /-- Nobody takes the input. -/
  active : p.active = none
  /-- The line is over. -/
  queue : p.queue = []
  /-- The last ticket has been given back or will never be. -/
  idle : ¬ p.Busy
  /-- The agenda goes on with no instruction. -/
  orders : ∀ o ∈ agenda, o.IsIdle

namespace Order

theorem IsIdle.owes_eq_zero {o : Order Task} (h : o.IsIdle) (r : Nat) : o.owes r = 0 := by
  unfold owes
  split
  · rcases h with h | h <;> cases h
  · exact h.elim
  · rfl

theorem isIdle_of_isTimed {t : Task} (h : t.IsTimed) : (perform t).IsIdle := by
  cases t with
  | reveal r a => exact h
  | conclude t c => exact h.elim
  | _ => trivial

end Order

theorem Attending.course_ordered {S : SceneSource → Prop} {m : Machine Player Task} {c : Course}
    (h : Attending S m c) (ho : c.Ordered) : m.world.course.Ordered := by
  rw [h.steady.course_eq] at ho
  exact ⟨ho.nodup, ho.le⟩

namespace Vacant

variable {S : SceneSource → Prop} {p q : Player} {agenda rest orders : Orders} {c : Course}

theorem of_interrupt (ho : p.course.Ordered) {phase : Phase}
    (hs : q.seat = { p.seat.interrupt with phase }) (hn : ∀ o ∈ orders, o.IsIdle) :
    Vacant q orders := by
  refine ⟨congrArg Seat.active hs, congrArg Seat.queue hs, ?_, hn⟩
  rw [Busy, hs]
  exact ho.not_busy_interrupt

theorem of_goto (ho : p.course.Ordered) (s : String) (i : UInt64) (hn : ∀ o ∈ orders, o.IsIdle) :
    Vacant (p.goto s i) orders := by
  have hs : (p.goto s i).seat = { p.seat.interrupt with phase := p.phase } := seat_goto p s i
  exact of_interrupt ho hs hn

theorem of_restore (ho : p.course.Ordered) (x : Context) (v : Progress)
    (hn : ∀ o ∈ orders, o.IsIdle) : Vacant (p.restore x v) orders := by
  have hs : (p.restore x v).seat = { p.seat.interrupt with phase := p.phase } :=
    seat_goto (p.present x v) ..
  exact of_interrupt ho hs hn

/-- A player stays vacant if tickets are given back. -/
theorem of_spend (hv : Vacant p agenda) {phase : Phase} {live : List Ticket}
    (hs : q.seat = { p.seat with phase, live }) (hl : live ⊆ p.live)
    (hn : ∀ o ∈ orders, o.IsIdle) : Vacant q orders := by
  refine ⟨(congrArg Seat.active hs).trans hv.active, (congrArg Seat.queue hs).trans hv.queue, ?_,
    hn⟩
  rw [Busy, hs]
  exact fun hb => hv.idle (hl hb)

theorem of_seat (hv : Vacant p agenda) (hs : ∃ phase, q.seat = { p.seat with phase })
    (hn : ∀ o ∈ orders, o.IsIdle) : Vacant q orders := by
  obtain ⟨phase, hs⟩ := hs
  exact hv.of_spend hs (List.Subset.refl _) hn

/-- A vacant player says nothing. -/
theorem hush (hv : Vacant p agenda) : Hush p agenda where
  active ha := by
    rw [hv.active] at ha
    cases ha
  hands {o r} ho hr := by
    have h0 := (hv.orders o ho).owes_eq_zero r
    rw [Order.owes_eq, if_pos hr] at h0
    cases h0
  queue := hv.queue ▸ closing_nil

/-- A ticket that is given back makes no instruction begin. -/
theorem finish (hv : Vacant p agenda) (t : Ticket) :
    p.finishSignal? t = none ∧ (p.finish t).2 = [] ∧ (p.finish t).1.position = p.position ∧
      (p.finish t).1.seat = { p.seat with live := p.live.erase t } := by
  have hne (hm : t ∈ p.live) : t ≠ .instruction p.generation := by
    rintro rfl
    exact hv.idle hm
  unfold Player.finish finishSignal?
  by_cases hm : t ∈ p.live
  · rw [if_pos hm, if_neg fun h => hne hm h.2]
    cases t with
    | call k => exact ⟨rfl, rfl, rfl, rfl⟩
    | instruction g =>
      dsimp only
      rw [if_neg fun h => hne hm (congrArg Ticket.instruction h)]
      have ht : (trace { p with live := p.live.erase (.instruction g) } .engine .trace
          s!"Ignoring stale completion #{g}").position = p.position :=
        (position_of_inside (inside_trace ..)).trans rfl
      exact ⟨rfl, rfl, ht, seat_trace ..⟩
  · rw [if_neg hm, if_neg fun h => hm h.1, List.erase_of_not_mem hm]
    exact ⟨rfl, rfl, rfl, rfl⟩

/-- The loop calls a text that nobody keeps. -/
theorem actReveal (hv : Vacant p agenda) {r : Nat} (h0 : p.holds r = 0) {a : Reveal.Act}
    (ha : a = .tick ∨ a = .wake) : p.actSignal? r a = none ∧ p.actReveal r a = (p, []) := by
  unfold Player.actReveal actSignal?
  cases hr : p.reveals[r]? with
  | none => exact ⟨rfl, rfl⟩
  | some v =>
    have hk : ¬ p.isKept r v = true := fun hk => by
      have := (active_of_isKept hk hr h0).symm.trans hv.active
      cases this
    dsimp only [Option.bind_some]
    rcases ha with rfl | rfl <;>
    · dsimp only
      rw [if_neg fun h => hk h.1, if_neg fun h => hk h.1]
      exact ⟨rfl, rfl⟩

/-- No line is there. -/
theorem of_stop (ho : p.course.Ordered) {i : UInt64} (hp : p.phase ≠ .loading)
    (hn : p.lines.bind (·[i.toNat]?) = none) (hr : ∀ o ∈ orders, o.IsIdle) :
    p.lineSignal? i = none ∧ (p.runLine i).2 = [] ∧ (p.runLine i).1.position = p.position ∧
      Vacant (p.runLine i).1 orders := by
  have hs := seat_interrupt p
  have stop {q : Player} (hq : q.seat = { p.interrupt.seat with phase := .idle }) :
      Vacant q orders := of_interrupt ho (hq.trans (by rw [hs])) hr
  rw [Player.runLine, lineSignal?, if_neg hp, if_neg hp, hn]
  dsimp only
  rw [lines_interrupt]
  cases hl : p.lines with
  | none => exact ⟨rfl, rfl, position_interrupt p, stop rfl⟩
  | some lines =>
    rw [hl] at hn
    change lines[i.toNat]? = none at hn
    dsimp only
    rw [hn]
    exact ⟨rfl, rfl, position_interrupt p, stop rfl⟩

/-- The scene is still loaded, or no line is there. -/
theorem runLine (hv : p.phase = .loading → Vacant p agenda) (ho : p.course.Ordered) {i : UInt64}
    (hn : p.phase ≠ .loading → p.lines.bind (·[i.toNat]?) = none)
    (hr : ∀ o ∈ orders, o.IsIdle) :
    p.lineSignal? i = none ∧ (p.runLine i).2 = [] ∧ (p.runLine i).1.position = p.position ∧
      Vacant (p.runLine i).1 orders := by
  by_cases hp : p.phase = .loading
  · rw [Player.runLine, lineSignal?, if_pos hp, if_pos hp]
    exact ⟨rfl, rfl, position_of_inside (inside_trace ..),
      (hv hp).of_seat ⟨p.phase, seat_trace ..⟩ hr⟩
  · exact of_stop ho hp (hn hp) hr

/-- Of the tasks that a vacant player carries out while no line starts none says anything, and none
but a jump takes it to another place. -/
structure Bides (p : Player) (t : Task) (rest : Orders) : Prop where
  /-- Nothing is said. -/
  signal : p.signal? t = none
  /-- The player stays vacant. -/
  vacant : Vacant (perform t p).1 ((perform t p).2 ++ rest)
  /-- It stays where it is unless it is moved. -/
  position : Machine.jump? ⟨p, .perform t :: rest⟩ = none → (perform t p).1.position = p.position

/-- An observer hears a cell, and no line starts. -/
theorem hear {x : CellName} {id : Nat} {v : x.Value}
    (h : Attending S ⟨p, .perform (.hear x id v) :: rest⟩ c) (ho : p.course.Ordered)
    (hv : Vacant p (.perform (.hear x id v) :: rest))
    (hl : Machine.line? ⟨p, .perform (.hear x id v) :: rest⟩ = none) :
    Bides p (.hear x id v) rest := by
  have hir := (List.forall_mem_cons.1 hv.orders).2
  have hatt {x : CellName} (hx : x.IsPlace) := h.steady.attended hx
  cases h.arranged with
  | later hlater _ =>
    have hid : x.IsPlace → x.rank 1 < id := hlater _ List.mem_cons_self
    obtain ⟨hno, d, hd, hi⟩ := hear_later h.watched hid hatt v
    have hs := (seat_of_inside hi).trans (show (p.store x (d, false)).seat = p.seat from rfl)
    refine ⟨signal?_hear hid hatt v, ?_, fun _ => ?_⟩
    · rw [hno]
      exact hv.of_seat ⟨p.phase, hs⟩ hir
    · exact (position_of_inside hi).trans (position_store p x hd)
  | loose ht _ _ =>
    rcases ht with ⟨c, hc⟩ | ht
    · cases hc
    · exact ht.elim
  | hand ho => exact ho.elim
  | page v =>
    have hp : Attended .runLine 1 p.stage.index := hatt (.inr rfl)
    have hsig : p.signal? (.hear .index 0 v) = none := by
      rw [signal?, hp.hear_page Nat.zero_lt_one v]
      rfl
    have ho' := perform_hear_page hp v
    have hi := inside_openPage p
    refine ⟨hsig, ?_, fun _ => ?_⟩
    · rw [ho']
      exact hv.of_seat ⟨p.phase, seat_of_inside hi⟩ hir
    · rw [ho']
      exact position_of_inside hi
  | line v =>
    have hown := (hatt (.inr rfl)).hear_own v
    have ho' : perform (.hear .index 1 v) p = p.runLine v := perform_hear_own (hatt (.inr rfl)) v
    have hsig : p.signal? (.hear .index 1 v) = p.lineSignal? v := if_pos (congrArg Prod.snd hown)
    have hnone (hp : p.phase ≠ .loading) : p.lines.bind (·[v.toNat]?) = none := by
      have hl' : Machine.line? ⟨p, .perform (.hear .index 1 v) :: rest⟩ =
          p.lines.bind (·[v.toNat]?) := if_pos ⟨congrArg Prod.snd hown, hp⟩
      exact hl' ▸ hl
    obtain ⟨hs, hno, hpos, hvac⟩ := runLine (fun _ => hv) ho hnone hir
    refine ⟨hsig.trans hs, ?_, fun _ => ?_⟩
    · rw [ho', hno]
      exact hvac
    · rw [ho']
      exact hpos
  | scene v =>
    have ho' : perform (.hear .scene 0 v) p = (p.loadScene v, []) :=
      perform_hear_own (hatt (.inl rfl)) v
    obtain ⟨phase, hs⟩ := seat_loadScene p v
    refine ⟨rfl, ?_, fun _ => ?_⟩
    · rw [ho']
      exact of_interrupt ho hs hir
    · rw [ho']
      exact position_loadScene p v

/-- The session gives input, has a scene loaded, or moves the script. -/
theorem call {a : Audience} {d : HostCall}
    (h : Attending S ⟨p, .perform (.call a d) :: rest⟩ c) (ho : p.course.Ordered)
    (hv : Vacant p (.perform (.call a d) :: rest)) : Bides p (.call a d) rest := by
  have hir := (List.forall_mem_cons.1 hv.orders).2
  have all {orders : Orders} (hn : ∀ o ∈ orders, o.IsIdle) : ∀ o ∈ orders ++ rest, o.IsIdle :=
    List.forall_mem_append.2 ⟨hn, hir⟩
  have hd := h.isSessions rfl
  cases d with
  | next =>
    have hnext : p.next = (p, []) := by rw [next, hv.active]
    refine ⟨?_, ?_, fun _ => ?_⟩
    · show p.active.bind p.handlerSignal? = none
      rw [hv.active]
      rfl
    · simp only [perform, Player.call, hnext]
      exact hv.of_seat ⟨p.phase, rfl⟩ (List.forall_mem_cons.2 ⟨trivial, hir⟩)
    · simp only [perform, Player.call, hnext]
  | serve =>
    refine ⟨rfl, hv.of_seat ⟨p.phase, rfl⟩ (all ?_), fun _ => rfl⟩
    exact List.forall_mem_cons.2 ⟨trivial, List.forall_mem_cons.2 ⟨trivial,
      List.forall_mem_singleton.2 trivial⟩⟩
  | goto s i =>
    refine ⟨rfl, of_goto ho s i (all ?_), fun hj => ?_⟩
    · exact List.forall_mem_singleton.2 trivial
    · cases hj
  | restore x v =>
    refine ⟨rfl, of_restore ho x v (all ?_), fun hj => ?_⟩
    · exact List.forall_mem_singleton.2 trivial
    · cases hj
  | _ => cases hd

/-- The scene that is asked for, if there is one, is delivered. -/
theorem load (hv : Vacant p agenda) (hr : ∀ o ∈ rest, o.IsIdle) : Bides p .load rest := by
  have hload : perform .load p = p.load := rfl
  have hl : Vacant p.load.1 (p.load.2 ++ rest) ∧ p.load.1.position = p.position := by
    unfold Player.load takeRequest
    cases p.loadRequest with
    | none => exact ⟨hv.of_seat ⟨p.phase, rfl⟩ hr, rfl⟩
    | some r =>
      refine ⟨hv.of_seat (seat_completeLoad { p with loadRequest := none } ..) ?_,
        position_completeLoad { p with loadRequest := none } ..⟩
      exact List.forall_mem_cons.2 ⟨trivial, List.forall_mem_cons.2 ⟨trivial, hr⟩⟩
  rw [← hload] at hl
  exact ⟨rfl, hl.1, fun _ => hl.2⟩

/-- Whatever a vacant player carries out while no line starts. -/
theorem bides {t : Task} (h : Attending S ⟨p, .perform t :: rest⟩ c) (ho : p.course.Ordered)
    (hv : Vacant p (.perform t :: rest)) (hl : Machine.line? ⟨p, .perform t :: rest⟩ = none) :
    Bides p t rest := by
  obtain ⟨hio, hir⟩ := List.forall_mem_cons.1 hv.orders
  have all {orders : Orders} (hn : ∀ o ∈ orders, o.IsIdle) : ∀ o ∈ orders ++ rest, o.IsIdle :=
    List.forall_mem_append.2 ⟨hn, hir⟩
  cases t with
  | deliver x =>
    refine ⟨rfl, hv.of_seat ⟨p.phase, rfl⟩ (all fun o ho => ?_), fun _ => position_store p x rfl⟩
    obtain ⟨id, -, rfl⟩ := List.mem_map.1 ho
    trivial
  | hear x id v => exact hv.hear h ho hl
  | ring k =>
    refine ⟨rfl, hv.of_seat ⟨p.phase, rfl⟩ (all fun o ho => ?_), fun _ => rfl⟩
    obtain ⟨t, ht, rfl⟩ := List.mem_map.1 ho
    exact Order.isIdle_of_isTimed (h.tame.isTimed_of_ring (Option.mem_toList.1 ht))
  | finish t =>
    obtain ⟨hsig, hno, hpos, hs⟩ := hv.finish t
    refine ⟨hsig, hv.of_spend hs List.erase_subset (all ?_), fun _ => hpos⟩
    show ∀ o ∈ (p.finish t).2, o.IsIdle
    rw [hno]
    exact fun o ho => absurd ho List.not_mem_nil
  | conclude t x => exact hio.elim
  | reveal r a =>
    have h0 : p.holds r = 0 := by
      rw [h.balanced.holds]
      exact owed_eq_zero fun o ho => (hv.orders o ho).owes_eq_zero r
    obtain ⟨hsig, hact⟩ := hv.actReveal h0 hio
    have hact' : perform (.reveal r a) p = (p, []) := hact
    refine ⟨hsig, ?_, fun _ => by rw [hact']⟩
    rw [hact']
    exact hv.of_seat ⟨p.phase, rfl⟩ hir
  | call a d => exact hv.call h ho
  | report a x =>
    exact ⟨rfl, hv.of_seat ⟨p.phase, seat_report ..⟩ hir, fun _ =>
      position_of_inside (inside_report ..)⟩
  | note e => exact ⟨rfl, hv.of_seat ⟨p.phase, rfl⟩ hir, fun _ => rfl⟩
  | load => exact hv.load hir

/-- **Until the next line starts a vacant player only waits for it.** It sends no signal, and stays
where it is unless it is moved. -/
theorem step (h : Attending S ⟨p, agenda⟩ c) (ho : c.Ordered) (hv : Vacant p agenda)
    (hl : Machine.line? ⟨p, agenda⟩ = none) :
    Machine.signal? ⟨p, agenda⟩ = none ∧
      Vacant (Machine.step ⟨p, agenda⟩).world (Machine.step ⟨p, agenda⟩).agenda ∧
        (Machine.jump? ⟨p, agenda⟩ = none →
          (Machine.step ⟨p, agenda⟩).world.position = p.position) := by
  cases agenda with
  | nil => exact ⟨rfl, hv, fun _ => rfl⟩
  | cons o rest =>
    have hir := (List.forall_mem_cons.1 hv.orders).2
    by_cases hp : ∃ t, o = .perform t
    · obtain ⟨t, rfl⟩ := hp
      rw [Machine.signal?_perform, Steady.step_perform]
      obtain ⟨hsig, hvac, hpos⟩ := hv.bides h (h.course_ordered ho) hl
      exact ⟨hsig, hvac, hpos⟩
    · obtain ⟨hsig, l, orders, hstep, -, -, hn⟩ := Machine.step_of_turn p rest (not_exists.1 hp)
        h.ne_halt
      rw [hstep]
      refine ⟨hsig, hv.of_seat ⟨p.phase, rfl⟩ (List.forall_mem_append.2 ⟨fun o' ho' => ?_, hir⟩),
        fun _ => rfl⟩
      by_cases hp' : ∃ t, o' = .perform t
      · obtain ⟨t, rfl⟩ := hp'
        rcases hn t ho' with hm | ⟨u, hu, rfl⟩
        · obtain ⟨x, rfl⟩ := h.tame.microtasks t hm
          trivial
        · exact Order.isIdle_of_isTimed (h.tame.timeouts u hu)
      · cases o' with
        | perform t => exact absurd ⟨t, rfl⟩ hp'
        | _ => trivial

end Vacant

/-! ### While a scene is loaded -/

theorem Order.IsLater.isIdle {o : Order Task} (h : o.IsLater) : o.IsIdle := by
  cases o with
  | perform t =>
    cases t with
    | conclude t c => exact h.elim
    | reveal r a => exact h.elim
    | _ => trivial
  | _ => trivial

namespace Course

variable {c c' : Course}

theorem Advances.phase (h : c.Advances c') (hp : c'.phase = .loading) : c.phase = .loading := by
  cases h with
  | leave _ =>
    obtain ⟨ts, heq, -⟩ := c.moveTo_eq (c.index + 1)
    rw [heq] at hp
    exact hp
  | @dispatch i rest _ _ he =>
    exfalso
    cases he with
    | plain => cases hp
    | skip n _ =>
      obtain ⟨ts, heq, -⟩ := Course.moveTo_eq { c with queue := rest }.begin
        (skipTarget { c with queue := rest }.begin.index n)
      rw [heq] at hp
      cases hp
    | branch _ _ => cases hp

end Course

/-- Only when the scene is heard it begins to be loaded. -/
theorem Moves.loading {m : Machine Player Task} {c c' : Course} (h : Moves m c c')
    (hp : c'.phase = .loading) : c.phase = .loading ∨ m.hears? = some .scene := by
  cases h with
  | @jump s i _ _ =>
    obtain ⟨ts, ts', heq, -⟩ := c.jump_eq s i
    rw [heq] at hp
    exact .inl hp
  | @answer r x c₀ _ _ hr =>
    have h₀ : c₀.phase = c.phase := by
      rcases hr with ⟨-, rfl⟩ | ⟨-, rfl⟩ <;> rfl
    by_cases haw : c₀.Awaits r
    · exact absurd hp (Course.phase_answer haw x)
    · rw [Course.answer_of_not_awaits haw, h₀] at hp
      exact .inl hp
  | scene hh _ => exact .inr hh
  | index _ _ _ hr =>
    cases hr with
    | defer hd => exact .inl hd
    | stop _ _ => cases hp
    | start _ _ ha => cases ha.phase hp
  | inner _ _ _ hi =>
    cases hi with
    | stay => exact .inl hp
    | suspend t _ => cases hp
    | spent t _ _ => exact .inl hp
    | finish _ ha => exact .inl (ha.phase hp)
    | take _ => exact .inl hp

namespace Attending

variable {S : SceneSource → Prop} {m : Machine Player Task} {c c' : Course}

/-- The player hears a cell: its delivery has begun, and no page is due. -/
theorem agenda_of_hears? {x : CellName} (h : Attending S m c) (hh : m.hears? = some x) :
    ∃ v rest, m.agenda = .perform (.hear x (x.rank 1) v) :: rest ∧ (∀ o ∈ rest, o.IsLater) ∧
      (x = .index → m.world.book.pageDue = false) := by
  obtain ⟨p, agenda⟩ := m
  have hatt {x : CellName} (hx : x.IsPlace) := h.steady.attended hx
  unfold Machine.hears? at hh
  split at hh
  · next y id v rest heq =>
    obtain rfl : agenda = _ := heq
    split at hh
    · next hx =>
      cases hh
      cases h.arranged with
      | later hl _ =>
        obtain ⟨n, hn⟩ := ((hatt hx.1).hear_other (hl _ List.mem_cons_self hx.1) v).2.2.2 _ hx.2
        rcases hx.1 with rfl | rfl <;> cases hn
      | loose ht _ _ =>
        rcases ht with ⟨c, hc⟩ | ht
        · cases hc
        · exact ht.elim
      | hand ho => exact ho.elim
      | page v =>
        have hp := (hatt (.inr rfl)).hear_page (i := 0) Nat.zero_lt_one v
        cases (congrArg Prod.snd hp).symm.trans hx.2
      | line v hdue hl _ => exact ⟨v, rest, rfl, hl, fun _ => hdue⟩
      | scene v hl _ => exact ⟨v, rest, rfl, hl, fun hx => by cases hx⟩
    · cases hh
  · cases hh

/-- The script is moved: a page is due, and nothing else is under way. -/
theorem agenda_of_jump? {s : String × UInt64} (h : Attending S m c) (hj : m.jump? = some s) :
    m.world.book.pageDue = true ∧ ∃ d rest, m.agenda = .perform (.call .nobody d) :: rest ∧
      ((∃ s i, d = .goto s i) ∨ ∃ x v, d = .restore x v) ∧ ∀ o ∈ rest, o.IsLater := by
  obtain ⟨p, agenda⟩ := m
  obtain ⟨a, d, rest, heq, hd⟩ := Machine.jump?_eq_some hj
  obtain rfl : agenda = _ := heq
  cases h.arranged with
  | later hl _ =>
    exfalso
    obtain ⟨-, rfl | rfl⟩ := hl _ List.mem_cons_self
    · rcases hd with hd | ⟨x, v, hd, -⟩ <;> cases hd
    · rcases hd with hd | ⟨x, v, hd, -⟩ <;> cases hd
  | loose ht _ _ =>
    rcases ht with ⟨c, hc⟩ | ht
    · cases hc
    · exact ht.elim
  | hand ho => exact ho.elim
  | jump hdue hd hl _ => exact ⟨hdue, d, rest, rfl, hd, hl⟩

/-- A jump leaves the player vacant. -/
theorem vacant_of_jump? {s : String × UInt64} (h : Attending S m c) (ho : c.Ordered)
    (hj : m.jump? = some s) : m.signal? = none ∧ Vacant m.step.world m.step.agenda := by
  have hord := h.course_ordered ho
  obtain ⟨-, d, rest, heq, hd, hl⟩ := h.agenda_of_jump? hj
  obtain ⟨p, agenda⟩ := m
  obtain rfl : agenda = _ := heq
  have hidle : ∀ o ∈ Order.perform (.report .nobody .none) :: rest, o.IsIdle :=
    List.forall_mem_cons.2 ⟨trivial, fun o ho => (hl o ho).isIdle⟩
  rw [Steady.step_perform]
  rcases hd with ⟨s, i, rfl⟩ | ⟨x, v, rfl⟩
  · exact ⟨rfl, .of_goto hord s i hidle⟩
  · exact ⟨rfl, .of_restore hord x v hidle⟩

/-- A player that is vacant stays so whatever the host does. -/
theorem vacant_deed {s : Session} {move : Session.Move} (h : Attending S ⟨s.player, []⟩ c)
    (hv : Vacant s.player []) (hd : s.Deed S move) : Vacant move.1.player move.2 := by
  have hs : move.1.player.seat = s.player.seat := hd.spared.seat
  refine hv.of_seat ⟨s.player.phase, hs⟩ fun o ho => ?_
  rcases hd.orders h.listeners with hl | ⟨-, d, -, hm⟩
  · exact (hl o ho).1.isIdle
  · rw [hm] at ho
    revert o
    exact List.forall_mem_cons.2 ⟨trivial, List.forall_mem_singleton.2 trivial⟩

/-- While a scene is loaded the player is vacant. -/
structure Loading (m : Machine Player Task) (c : Course) : Prop where
  /-- Tickets are in order. -/
  ordered : c.Ordered
  /-- No instruction is under way. -/
  vacant : m.world.phase = .loading → Vacant m.world m.agenda

theorem phase_eq (h : Attending S m c) : m.world.phase = c.phase := by
  rw [h.steady.course_eq]
  rfl

theorem line?_of_loading (hp : m.world.phase = .loading) : m.line? = none := by
  unfold Machine.line?
  split
  · exact if_neg fun h => h.2 hp
  · rfl

theorem Loading.step (hl : Loading m c) (h : Attending S m c) (hm : Moves m c c')
    (h' : Attending S m.step c') : Loading m.step c' := by
  refine ⟨hm.onward.ordered hl.ordered, fun hp => ?_⟩
  by_cases hp₀ : m.world.phase = .loading
  · exact ((hl.vacant hp₀).step h hl.ordered (line?_of_loading hp₀)).2.1
  · rw [h'.phase_eq] at hp
    rcases hm.loading hp with hp | hh
    · exact absurd (h.phase_eq.trans hp) hp₀
    · have hord := h.course_ordered hl.ordered
      obtain ⟨v, rest, heq, hlater, -⟩ := h.agenda_of_hears? hh
      obtain ⟨p, agenda⟩ := m
      obtain rfl : agenda = _ := heq
      have ho : perform (.hear .scene 0 v) p = (p.loadScene v, []) :=
        perform_hear_own (h.steady.attended (.inl rfl)) v
      obtain ⟨phase, hs⟩ := seat_loadScene p v
      rw [Steady.step_perform]
      show Vacant (perform (.hear .scene 0 v) p).1 ((perform (.hear .scene 0 v) p).2 ++ rest)
      rw [ho]
      exact Vacant.of_interrupt hord hs fun o ho => (hlater o ho).isIdle

theorem Loading.deed {s : Session} {move : Session.Move} (h : Attending S ⟨s.player, []⟩ c)
    (hl : Loading ⟨s.player, []⟩ c) (hd : s.Deed S move) : Loading move.machine c := by
  refine ⟨hl.ordered, fun hp => h.vacant_deed (hl.vacant ?_) hd⟩
  have hs : move.1.player.seat = s.player.seat := hd.spared.seat
  exact (congrArg Seat.phase hs).symm.trans hp

end Attending

/-- All along a recital, while a scene is loaded the player is vacant. -/
theorem Recital.loading {S : SceneSource → Prop} {h : List (Machine Player Task)}
    {m : Session.Move} (hr : Recital S h m) :
    ∃ c, Attending S m.machine c ∧ Attending.Loading m.machine c := by
  refine hr.invariant (I := fun _ => Attending.Loading) (fun ho => ?_) (fun h hl => hl.deed h)
    fun h hl hm h' => hl.step h hm h'
  obtain ⟨slots, rfl⟩ := Session.exists_of_open? ho
  exact ⟨⟨List.nodup_nil, fun ht => absurd ht List.not_mem_nil⟩, fun hp => by cases hp⟩

end Novella
