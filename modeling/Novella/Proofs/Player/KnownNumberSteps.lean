import Novella.Proofs.Player.KnownNumbers

/-!
# Steps and the numbers they refer to

A machine within a realm stays there, step by step, and leaves all alone that is outside, as long as
the realm has room for the numbers that are given out. A step goes outside in four ways at most: a
timeout from outside is due, a text from outside may be at the end of its stretch, or the active
handler, which is a timer or a text from outside, gets input or is cut off.

There is a realm that no step ever leaves, that of all numbers given out so far. So what a player
refers to has always been given out, and what is going to be given out is referred to by nobody.

## Main definitions

* `Machine.In`, `Machine.Abides` — a machine within a realm, and a step that does nothing outside
* `Machine.Outing` — what a step may do outside
* `Realm.upTo`, `Machine.Numbered` — the numbers given out, and a machine that refers to no others

## Main results

* `Machine.In.outing` — a step goes outside in four ways at most
* `Run.preserves` — what steps and turns of the host preserve holds in every run
* `Run.numbered` — in every run nothing is referred to that has not been given out
-/

namespace Novella

open Player

/-! ### Players -/

namespace Player

variable {R : Realm} {C : Realm → Prop} {p q q' : Player} {x : Player × Orders}

/-- The player is still within the realm, and nothing outside has changed. -/
structure Abides (R : Realm) (p q : Player) : Prop extends Precedes p q where
  /-- All is neat. -/
  neat : q.schedule.Neat
  /-- The realm is not left. -/
  within : q.In R
  /-- Nothing outside has changed. -/
  apart : p.Apart R q

theorem Abides.trans (h : p.Abides R q) (h' : q.Abides R q') : p.Abides R q' :=
  ⟨h.toPrecedes.trans h'.toPrecedes, h'.neat, h'.within, h.apart.trans h'.apart h.toPrecedes⟩

theorem Remains.abides (h : Remains C p x) (hR : C R) (htake : R.Takes p x.1)
    (hn : p.schedule.Neat) (hp : p.In R) : p.Abides R x.1 ∧ ∀ o ∈ x.2, o.In R := by
  obtain ⟨hin, ho, hapart⟩ := h.within hR htake hp
  exact ⟨⟨h.toPrecedes, h.neat hn, hin, hapart⟩, ho⟩

/-- An interruption cancels the timer of the active handler. -/
theorem interrupt_of_timer {k : Nat} (ha : p.active = some (.timer k)) :
    p.interrupt = { p with
      generation := p.generation + 1, queue := [], active := none
      schedule := p.schedule.cancel k } := by
  rw [Player.interrupt, ha]
  rfl

/-- A text from outside may be changed. -/
theorem In.modifyReveal (h : p.In R) {r : Nat} (hr : ¬ R.reveal r) (f : Reveal → Reveal) :
    (p.modifyReveal r f).In R := by
  refine ⟨h.schedule, fun {s w} hw hs => ?_, h.ticket, h.active⟩
  have hne : r ≠ s := fun heq => hr (heq ▸ hs)
  rw [Player.modifyReveal, Array.getElem?_modify, if_neg hne] at hw
  exact h.reveal hw hs

/-- A new text may be one from outside. -/
theorem In.beginReveal (h : p.In R) (hr : ¬ R.reveal p.reveals.size) (text : String) (t : Ticket) :
    (p.beginReveal text t).In R := by
  refine ⟨h.schedule, fun {r v} hv hR => ?_, h.ticket, h.active⟩
  rw [Player.beginReveal, Array.getElem?_push] at hv
  split at hv
  · next heq => exact absurd (heq ▸ hR) hr
  · exact h.reveal hv hR

/-- A new timer may be from outside. -/
theorem In.startTimer (h : p.In R) (hk : ¬ R.timer p.schedule.timers.size)
    (hid : ¬ R.timeout p.schedule.loop.nextId) (d : Nat) (repeats : Bool) (t : Task) :
    (p.startTimer d repeats t).In R :=
  ⟨h.schedule.start hk hid .., h.reveal, h.ticket, h.active⟩

/-- Nothing new is referred to by a text that is over. -/
theorem In.stopReveal (h : p.In R) (r : Nat) (v : Reveal) (mode : Reveal.Mode) :
    (p.stopReveal r v mode).In R := by
  have hstop {u : Player} (hu : u.In R) :
      (u.modifyReveal r fun v => { v with mode, timer := none }).In R := by
    refine ⟨hu.schedule, fun {s w} hw hs => ?_, hu.ticket, hu.active⟩
    rw [Player.modifyReveal, Array.getElem?_modify] at hw
    split at hw
    · obtain ⟨v, hv, rfl⟩ := Option.map_eq_some_iff.1 hw
      exact ⟨(hu.reveal hv hs).1, fun hk => absurd hk.symm (Option.some_ne_none _)⟩
    · exact hu.reveal hw hs
  unfold Player.stopReveal
  dsimp only
  split
  · next k _ => exact hstop ⟨h.schedule.cancel k, h.reveal, h.ticket, h.active⟩
  · exact hstop h

/-- Nothing new is referred to after an interruption. -/
theorem In.interrupt (h : p.In R) : p.interrupt.In R := by
  have hi :
      ({ p with generation := p.generation + 1, queue := [], active := none } : Player).In R :=
    ⟨h.schedule, h.reveal, h.ticket, fun hh => nomatch hh⟩
  unfold Player.interrupt
  dsimp only
  split
  · next x _ =>
    cases x with
    | timer k => exact ⟨hi.schedule.cancel k, hi.reveal, hi.ticket, hi.active⟩
    | reveal r =>
      rw [Player.cancelHandler]
      split
      · exact hi.stopReveal ..
      · exact hi
    | host b t => cases b <;> exact ⟨hi.schedule, hi.reveal, hi.ticket, hi.active⟩
    | _ => exact hi
  · exact hi

/-- Work is taken off the loop, and time may go on. -/
theorem In.take (hp : p.In R) (now : Nat) {ms : List Task}
    (hm : ∀ t ∈ ms, t ∈ p.schedule.loop.microtasks) {us : List (Timeout Task)}
    (hu : us.Sublist p.schedule.loop.timeouts) :
    (World.withLoop p { p.schedule.loop with now, microtasks := ms, timeouts := us }).In R :=
  ⟨⟨hp.schedule.callback, hp.schedule.handle, fun h => hp.schedule.timeout (hu.subset h),
    fun h => hp.schedule.microtask (hm _ h)⟩, hp.reveal, hp.ticket, hp.active⟩

theorem neat_take (hn : p.schedule.Neat) (now : Nat) (ms : List Task) {us : List (Timeout Task)}
    (hu : us.Sublist p.schedule.loop.timeouts) :
    (World.withLoop p { p.schedule.loop with
      now, microtasks := ms, timeouts := us }).schedule.Neat :=
  ⟨hn.sorted.sublist hu, hn.distinct.sublist hu, fun h => hn.numbered (hu.subset h), hn.handle⟩

/-- What is outside stays on the loop. -/
theorem Abides.take (hn : p.schedule.Neat) (hp : p.In R) (now : Nat) {ms : List Task}
    (hm : ∀ t ∈ ms, t ∈ p.schedule.loop.microtasks) {us : List (Timeout Task)}
    (hu : us.Sublist p.schedule.loop.timeouts)
    (hout : ∀ u ∈ p.schedule.loop.timeouts, ¬ R.timeout u.id → u ∈ us) :
    p.Abides R (World.withLoop p { p.schedule.loop with now, microtasks := ms, timeouts := us }) :=
  ⟨⟨Nat.le_refl _, Nat.le_refl _, Nat.le_refl _, Nat.le_refl _⟩, neat_take hn now ms hu,
    hp.take now hm hu, ⟨⟨fun _ _ => rfl, fun _ hn => ⟨fun h => hu.subset h, fun h => hout _ h hn⟩⟩,
      fun _ => rfl, fun _ _ => rfl⟩⟩

end Player

/-! ### Steps -/

namespace Machine

/-- A machine is within a realm if its player is, and if its orders refer to nothing outside. -/
structure In (R : Realm) (m : Machine Player Task) : Prop where
  /-- All is neat. -/
  neat : m.world.schedule.Neat
  /-- The player is within the realm. -/
  world : m.world.In R
  /-- So are the orders. -/
  agenda {o : Order Task} : o ∈ m.agenda → o.In R

/-- The step stays within the realm. It leaves alone all that is outside, and the clock passes no
timeout that is ahead. -/
structure Abides (R : Realm) (m : Machine Player Task) : Prop where
  /-- The player is still within the realm. -/
  world : m.world.Abides R m.step.world
  /-- So are the orders. -/
  agenda {o : Order Task} : o ∈ m.step.agenda → o.In R
  /-- No timeout is passed. -/
  now {u : Timeout Task} : u ∈ m.world.schedule.loop.timeouts → m.now ≤ u.deadline →
    m.step.now ≤ u.deadline

/-- A step from within a realm goes outside in four ways at most. -/
inductive Outing (R : Realm) (m : Machine Player Task) : Prop where
  /-- It does not. -/
  | home : m.Abides R → Outing R m
  /-- The active handler gets input. -/
  | skips {x : Handler} {a : Audience} {rest : Orders} :
      m.agenda = .perform (.call a .next) :: rest → m.world.active = some x → ¬ R.Has m.world x →
      Outing R m
  /-- It is cut off. -/
  | breaks {q : Player} {x : Handler} : m.world.Abides R q → q.schedule.loop.now = m.now →
      q.active = some x → ¬ R.Has m.world x → q.interrupt.Abides R m.step.world →
      m.step.now = m.now → (∀ {o : Order Task}, o ∈ m.step.agenda → o.In R) → Outing R m
  /-- A text may be at the end of its stretch. -/
  | ticked {r : Nat} {rest : Orders} : m.agenda = .perform (.reveal r .ticked) :: rest →
      r < m.world.reveals.size → ¬ R.reveal r → Outing R m
  /-- A timeout from outside is due. -/
  | due {u : Timeout Task} {us : List (Timeout Task)} {target : Nat} {rest : Orders} :
      m.agenda = .runUntil target :: rest → m.world.schedule.loop.timeouts = u :: us →
      u.deadline ≤ target → ¬ R.timeout u.id → Outing R m

namespace In

variable {R : Realm} {C : Realm → Prop} {m : Machine Player Task} {p : Player} {t : Task}
  {o : Order Task} {rest : Orders}

/-- A task is carried out. -/
theorem perform (h : In R ⟨p, .perform t :: rest⟩) (hx : Remains C p (Player.perform t p))
    (hR : C R) (htake : R.Takes p (Player.perform t p).1) : Abides R ⟨p, .perform t :: rest⟩ := by
  obtain ⟨hw, ho⟩ := hx.abides hR htake h.neat h.world
  refine ⟨hw, fun hm => ?_, fun _ hu => ?_⟩
  · rcases List.mem_append.1 hm with hm | hm
    · exact ho _ hm
    · exact h.agenda (List.mem_cons_of_mem _ hm)
  · exact Nat.le_trans (Nat.le_of_eq hx.now) hu

/-- Something is taken off the loop, and orders come in its place. -/
theorem take (h : In R ⟨p, o :: rest⟩) (orders : Orders) (horders : ∀ x ∈ orders, x.In R)
    {now : Nat} {ms : List Task} {us : List (Timeout Task)}
    (hstep : Machine.step ⟨p, o :: rest⟩ = ⟨World.withLoop p { p.schedule.loop with
      now, microtasks := ms, timeouts := us }, orders ++ rest⟩)
    (hm : ∀ t ∈ ms, t ∈ p.schedule.loop.microtasks) (hu : us.Sublist p.schedule.loop.timeouts)
    (hout : ∀ u ∈ p.schedule.loop.timeouts, ¬ R.timeout u.id → u ∈ us)
    (hnow : ∀ u ∈ p.schedule.loop.timeouts, p.schedule.loop.now ≤ u.deadline → now ≤ u.deadline) :
    Abides R ⟨p, o :: rest⟩ := by
  refine ⟨?_, fun hx => ?_, fun {u} hmem hle => ?_⟩
  · rw [hstep]
    exact .take h.neat h.world now hm hu hout
  · rw [hstep] at hx
    rcases List.mem_append.1 hx with hx | hx
    · exact horders _ hx
    · exact h.agenda (List.mem_cons_of_mem _ hx)
  · rw [hstep]
    exact hnow u hmem hle

/-- Only the agenda changes. -/
theorem order (h : In R ⟨p, o :: rest⟩) (orders : Orders) (horders : ∀ x ∈ orders, x.In R)
    (hstep : Machine.step ⟨p, o :: rest⟩ = ⟨p, orders ++ rest⟩) : Abides R ⟨p, o :: rest⟩ := by
  have hloop : Machine.step ⟨p, o :: rest⟩ = ⟨World.withLoop p { p.schedule.loop with
      now := p.schedule.loop.now
      microtasks := p.schedule.loop.microtasks
      timeouts := p.schedule.loop.timeouts }, orders ++ rest⟩ := hstep
  exact h.take orders horders hloop (fun _ => id) (List.Sublist.refl _) (fun _ hu _ => hu)
    fun _ _ => id

/-- The loop turns, unless a timeout from outside is due. -/
theorem loop (h : In R ⟨p, o :: rest⟩) (ho : ∀ t, o ≠ .perform t)
    (hout : ∀ target u us, o = .runUntil target → p.schedule.loop.timeouts = u :: us →
      u.deadline ≤ target → R.timeout u.id) : Abides R ⟨p, o :: rest⟩ := by
  cases o with
  | perform t => exact absurd rfl (ho t)
  | drain =>
    cases hm : p.schedule.loop.microtasks with
    | nil => exact h.order [] (fun _ hx => absurd hx List.not_mem_nil) (step_drain_nil hm)
    | cons t ts =>
      have ht := (h.world.schedule.microtask (hm ▸ List.mem_cons_self : t ∈ _)).order
      refine h.take [.perform t, .drain] (fun x hx => ?_) (step_drain_cons hm)
        (fun _ hx => hm ▸ List.mem_cons_of_mem _ hx) (List.Sublist.refl _) (fun _ hu _ => hu)
        fun _ _ => id
      rcases List.mem_pair.1 hx with rfl | rfl
      · exact ht
      · trivial
  | advance d =>
    refine h.order [.drain, .depart d] (fun x hx => ?_) rfl
    rcases List.mem_pair.1 hx with rfl | rfl <;> trivial
  | depart d =>
    exact h.order [.runUntil (p.schedule.loop.now + d)]
      (fun x hx => List.mem_singleton.1 hx ▸ trivial) rfl
  | runUntil target =>
    have hidle (hn : ∀ u ∈ p.schedule.loop.timeouts.head?, target < u.deadline) :
        Abides R ⟨p, .runUntil target :: rest⟩ := by
      refine h.take [] (fun _ hx => absurd hx List.not_mem_nil) (step_runUntil_idle hn)
        (fun _ => id) (List.Sublist.refl _) (fun _ hu _ => hu) fun u hu _ => ?_
      exact Nat.le_of_lt (h.neat.lt_deadline hn hu)
    cases hu : p.schedule.loop.timeouts with
    | nil => exact hidle fun u hm => by rw [hu] at hm; cases hm
    | cons u us =>
      by_cases hd : u.deadline ≤ target
      · have hin : R.timeout u.id := hout target u us rfl hu hd
        have ht := (h.world.schedule.timeout (hu ▸ List.mem_cons_self) hin).order
        refine h.take [.perform u.task, .drain, .runUntil target] (fun x hx => ?_)
          (step_runUntil_due hu hd) (fun _ => id) (hu ▸ List.sublist_cons_self ..)
          (fun v hv hn => ?_) fun v hv _ => h.neat.deadline_le hu hv
        · simp only [List.mem_cons, List.not_mem_nil, or_false] at hx
          rcases hx with rfl | rfl | rfl
          · exact ht
          · trivial
          · trivial
        · rw [hu] at hv
          rcases List.mem_cons.1 hv with rfl | hv
          · exact absurd hin hn
          · exact hv
      · refine hidle fun x hx => ?_
        rw [hu] at hx
        cases hx
        exact Nat.lt_of_not_le hd
  | halt =>
    refine ⟨?_, fun hx => absurd hx List.not_mem_nil, fun _ hle => hle⟩
    exact .take h.neat h.world p.schedule.loop.now (fun _ => id) (List.Sublist.refl _)
      fun _ hu _ => hu

/-- A timeout is due: its task is next, and the other timeouts are left. -/
theorem due (h : m.In R) {u : Timeout Task} {us : List (Timeout Task)} {target : Nat}
    (hag : m.agenda = .runUntil target :: rest) (hs : m.world.schedule.loop.timeouts = u :: us)
    (hle : u.deadline ≤ target) :
    m.step.agenda = .perform u.task :: .drain :: .runUntil target :: rest ∧
      In R ⟨m.step.world, .drain :: .runUntil target :: rest⟩ ∧
      (∀ v ∈ m.step.world.schedule.loop.timeouts, v.id ≠ u.id) ∧
      m.step.world = World.withLoop m.world
        { m.world.schedule.loop with now := u.deadline, timeouts := us } := by
  obtain ⟨p, agenda⟩ := m
  obtain rfl : agenda = .runUntil target :: rest := hag
  have hu : us.Sublist p.schedule.loop.timeouts := hs ▸ List.sublist_cons_self ..
  have hdistinct := h.neat.distinct
  rw [hs] at hdistinct
  rw [step_runUntil_due hs hle]
  refine ⟨rfl, ⟨neat_take h.neat u.deadline _ hu, h.world.take u.deadline (fun _ => id) hu,
    fun hm => ?_⟩, fun v hv => ((List.pairwise_cons.1 hdistinct).1 v hv).symm, rfl⟩
  rcases List.mem_cons.1 hm with rfl | hm
  · trivial
  · exact h.agenda hm

/-- **Steps and their realms.** From within a realm that has room for all new numbers a step goes
outside in four ways at most. -/
theorem outing (h : m.In R) (htake : ∀ q, R.Takes m.world q) : m.Outing R := by
  obtain ⟨p, agenda⟩ := m
  cases agenda with
  | nil => exact .home ⟨⟨.refl p, h.neat, h.world,
      ⟨⟨fun _ _ => rfl, fun _ _ => Iff.rfl⟩, fun _ => rfl, fun _ _ => rfl⟩⟩, h.agenda, fun _ => id⟩
  | cons o rest =>
    by_cases ho : ∃ t, o = .perform t
    · obtain ⟨t, rfl⟩ := ho
      have ht : (Order.perform t).In R := h.agenda List.mem_cons_self
      by_cases hfollow : R.Follows p t
      · by_cases hserve : R.Serves p
        · exact .home (h.perform (perform_ends t p).remains ⟨⟨ht, hfollow⟩, hserve⟩ (htake _))
        · obtain ⟨x, hx⟩ := not_forall.1 hserve
          obtain ⟨ha, hout⟩ := Classical.not_imp.1 hx
          by_cases hn : ∃ a, t = .call a .next
          · obtain ⟨a, rfl⟩ := hn
            exact .skips rfl ha hout
          · cases perform_responds (p := p) fun a ha => hn ⟨a, ha⟩ with
            | ends hx => exact .home (h.perform hx.remains ⟨ht, hfollow⟩ (htake _))
            | @breaks q hq hactive hx =>
              obtain ⟨hq', -⟩ := hq.toRemains.abides ⟨ht, hfollow⟩ (htake q) h.neat h.world
              have hi := Dwells.interrupt q
              have htake' : R.Takes q.interrupt (Player.perform t p).1 :=
                (hq'.toPrecedes.trans hi.toPrecedes).takes (htake _)
              obtain ⟨hw, horders⟩ := hx.remains.abides ⟨ht, hfollow⟩ htake' (hi.neat hq'.neat)
                hq'.within.interrupt
              refine .breaks hq' hq.now (hactive.trans ha) hout hw
                ((hx.remains.now.trans hi.now).trans hq.now) fun hm => ?_
              rcases List.mem_append.1 hm with hm | hm
              · exact horders _ hm
              · exact h.agenda (List.mem_cons_of_mem _ hm)
      · obtain ⟨r, rfl, hlt, hout⟩ := Realm.exists_of_not_follows hfollow
        exact .ticked rfl hlt hout
    · by_cases hd : ∃ target u us, o = .runUntil target ∧ p.schedule.loop.timeouts = u :: us ∧
          u.deadline ≤ target ∧ ¬ R.timeout u.id
      · obtain ⟨target, u, us, rfl, hu, hle, hout⟩ := hd
        exact .due rfl hu hle hout
      · refine .home (h.loop (fun t heq => ho ⟨t, heq⟩) fun target u us heq hu hle => ?_)
        exact Classical.byContradiction fun hn => hd ⟨target, u, us, heq, hu, hle, hn⟩

end In

/-- Instructions are left alone where the loop turns. -/
theorem seat_step_of_loop {p : Player} {o : Order Task} {rest : Orders}
    (ho : ∀ task, o ≠ .perform task) :
    (Machine.step ⟨p, o :: rest⟩).world.seat = p.seat := by
  cases o with
  | perform task => exact absurd rfl (ho task)
  | drain | runUntil =>
    simp only [Machine.step]
    split <;> rfl
  | advance | depart | halt => rfl

/-- No instruction begins twice. -/
theorem generation_le_step (m : Machine Player Task) :
    m.world.generation ≤ m.step.world.generation := by
  obtain ⟨p, agenda⟩ := m
  cases agenda with
  | nil => exact Nat.le_refl _
  | cons o rest =>
    by_cases ho : ∃ task, o = .perform task
    · obtain ⟨task, rfl⟩ := ho
      exact (perform_ends task p).remains.generation
    · exact Nat.le_of_eq (congrArg Seat.generation
        (seat_step_of_loop fun task ht => ho ⟨task, ht⟩)).symm

end Machine

/-! ### The numbers given out -/

/-- The numbers that a player has given out. -/
def Realm.upTo (p : Player) : Realm where
  reveal r := r < p.reveals.size
  ticket
    | .instruction g => g ≤ p.generation
    | .call _ => True
  timer k := k < p.schedule.timers.size
  timeout id := id < p.schedule.loop.nextId

/-- The larger realm has all that the smaller one has. -/
structure Realm.Sub (R R' : Realm) : Prop where
  /-- It has its tickets. -/
  ticket {t : Ticket} : R.ticket t → R'.ticket t
  /-- It has its timers. -/
  timer {k : Nat} : R.timer k → R'.timer k
  /-- It has its timeouts. -/
  timeout {id : Nat} : R.timeout id → R'.timeout id
  /-- It has its texts. -/
  reveal {r : Nat} : R.reveal r → R'.reveal r

namespace Realm.Sub

variable {R R' : Realm}

theorem holds (hR : R.Sub R') {h : Handler} (hh : R.Holds h) : R'.Holds h := by
  cases h with
  | finish t => exact hR.ticket hh
  | host b t => exact hR.ticket hh
  | _ => trivial

theorem admits (hR : R.Sub R') {t : Task} (ht : R.Admits t) : R'.Admits t := by
  cases t with
  | ring k => exact hR.timer ht
  | finish t => exact hR.ticket ht
  | reveal r a => exact ht.imp_right hR.reveal
  | conclude => exact ht.elim
  | _ => trivial

theorem order (hR : R.Sub R') {o : Order Task} (ho : o.In R) : o.In R' := by
  cases o with
  | perform t =>
    cases t with
    | conclude t c =>
      cases c with
      | completed => exact hR.ticket ho
      | pending h => exact hR.holds ho
    | ring k => exact hR.timer ho
    | finish t => exact hR.ticket ho
    | reveal r a => exact ho.imp_right hR.reveal
    | _ => trivial
  | _ => trivial

end Realm.Sub

section UpTo

variable {R : Realm} {C : Realm → Prop} {p q : Player} {x : Player × Orders}
  {m : Machine Player Task}

theorem Realm.takes_upTo (p q : Player) : (Realm.upTo q).Takes p q :=
  ⟨⟨fun _ => id, fun _ => id⟩, fun _ => id, fun _ => id⟩

/-- Numbers that have been given out stay so. -/
theorem Realm.upTo_sub (h : p.Precedes q) : (upTo p).Sub (upTo q) := by
  refine ⟨fun {t} ht => ?_, fun hk => Nat.lt_of_lt_of_le hk h.size,
    fun hlt => Nat.lt_of_lt_of_le hlt h.nextId, fun hr => Nat.lt_of_lt_of_le hr h.texts⟩
  cases t with
  | instruction g => exact Nat.le_trans ht h.generation
  | call k => trivial

/-- So a player that refers to nothing else is within any realm that has these numbers. -/
theorem Player.In.of_upTo (h : p.In (.upTo p)) (hn : p.schedule.Neat) (hR : (Realm.upTo p).Sub R) :
    p.In R where
  schedule :=
    { callback hx _ := hR.admits (h.schedule.callback hx (Array.getElem?_eq_some_iff.1 hx).1)
      handle hx _ hid := hR.timeout (hn.handle hx hid)
      timeout hu _ := hR.admits (h.schedule.timeout hu (hn.numbered hu))
      microtask ht := hR.admits (h.schedule.microtask ht) }
  reveal hv _ :=
    have hshown := h.reveal hv (Array.getElem?_eq_some_iff.1 hv).1
    ⟨hR.ticket hshown.1, fun hk => hR.timer (hshown.2 hk)⟩
  ticket ht := hR.ticket (h.ticket ht)
  active hh := hR.holds (h.active hh)

/-- What a player refers to has been given out. -/
def Player.Numbered (p : Player) : Prop := p.schedule.Neat ∧ p.In (.upTo p)

/-- Handlers that exist have been given out. -/
theorem Player.serves_upTo (h : p.Precedes q) : (Realm.upTo q).Serves p := by
  intro x _
  cases x with
  | timer => exact fun hlt => Nat.lt_of_lt_of_le hlt h.size
  | reveal => exact fun hlt => Nat.lt_of_lt_of_le hlt h.texts
  | _ => trivial

/-- So have texts. -/
theorem Player.follows_upTo (h : p.Precedes q) (t : Task) : (Realm.upTo q).Follows p t := by
  unfold Realm.Follows
  split
  · exact fun hlt => Nat.lt_of_lt_of_le hlt h.texts
  · trivial

theorem Player.Remains.numbered (h : Remains C p x) (hn : p.Numbered) (hR : C (.upTo x.1)) :
    x.1.Numbered ∧ ∀ o ∈ x.2, o.In (.upTo x.1) := by
  have hsub := Realm.upTo_sub h.toPrecedes
  obtain ⟨ha, ho⟩ := h.abides hR (Realm.takes_upTo ..) hn.1 (hn.2.of_upTo hn.1 hsub)
  exact ⟨⟨ha.neat, ha.within⟩, ho⟩

/-- What a machine refers to has been given out. -/
structure Machine.Numbered (m : Machine Player Task) : Prop where
  /-- The player has given it out. -/
  world : m.world.Numbered
  /-- So it is with what the orders refer to. -/
  agenda {o : Order Task} : o ∈ m.agenda → o.In (.upTo m.world)

namespace Machine.Numbered

theorem of_remains {rest : Orders} (h : Remains C p x) (hn : p.Numbered)
    (hrest : ∀ o ∈ rest, o.In (.upTo p)) (hR : C (.upTo x.1)) : Numbered ⟨x.1, x.2 ++ rest⟩ := by
  obtain ⟨hw, ho⟩ := h.numbered hn hR
  exact ⟨hw, fun hm => (List.mem_append.1 hm).elim (ho _) fun hm =>
    (Realm.upTo_sub h.toPrecedes).order (hrest _ hm)⟩

theorem step (h : m.Numbered) : m.step.Numbered := by
  obtain ⟨p, agenda⟩ := m
  cases agenda with
  | nil => exact h
  | cons o rest =>
    have hrest : ∀ x ∈ rest, x.In (.upTo p) := fun x hx => h.agenda (List.mem_cons_of_mem _ hx)
    by_cases ho : ∃ t, o = .perform t
    · obtain ⟨t, rfl⟩ := ho
      have hx := (perform_ends t p).remains
      exact of_remains hx h.world hrest
        ⟨⟨(Realm.upTo_sub hx.toPrecedes).order (h.agenda List.mem_cons_self),
          follows_upTo hx.toPrecedes t⟩, serves_upTo hx.toPrecedes⟩
    · have hn : ∀ t, o ≠ .perform t := fun t ht => ho ⟨t, ht⟩
      have hlast := In.loop ⟨h.world.1, h.world.2, h.agenda⟩ hn fun _ u us _ hu _ =>
        h.world.1.numbered (hu ▸ List.mem_cons_self)
      have hsub := Realm.upTo_sub hlast.world.toPrecedes
      have ha : Abides (.upTo (Machine.step ⟨p, o :: rest⟩).world) ⟨p, o :: rest⟩ :=
        In.loop ⟨h.world.1, h.world.2.of_upTo h.world.1 hsub, fun hm => hsub.order (h.agenda hm)⟩ hn
          fun _ u us _ hu _ => hsub.timeout (h.world.1.numbered (hu ▸ List.mem_cons_self))
      exact ⟨⟨ha.world.neat, ha.world.within⟩, ha.agenda⟩

/-- **What begins.** An instruction whose ticket is new has been dispatched by a player that refers
to nothing that has not been given out. -/
theorem exists_begins (h : m.Numbered) {t : Ticket} (hnew : t ∈ m.step.world.live)
    (hold : t ∉ m.world.live) :
    ∃ (q : Player) (i : Instruction) (more : Orders), q.Numbered ∧ (∀ o ∈ more, o.In (.upTo q)) ∧
      q.schedule.loop.now = m.world.schedule.loop.now ∧
      m.step = ⟨(q.dispatch i).1, (q.dispatch i).2 ++ more⟩ := by
  obtain ⟨p, agenda⟩ := m
  cases agenda with
  | nil => exact absurd hnew hold
  | cons o orders =>
    by_cases hperform : ∃ task, o = .perform task
    · obtain ⟨task, rfl⟩ := hperform
      have hin : (Order.perform task).In (.upTo p) := h.agenda List.mem_cons_self
      cases perform_ends task p with
      | rests hb => exact absurd (hb.live hnew) hold
      | @runs q more hb hx =>
        have hsub := Realm.upTo_sub hb.toPrecedes
        obtain ⟨hq, hmore⟩ := hb.toRemains.numbered h.world
          ⟨⟨hsub.order hin, follows_upTo hb.toPrecedes task⟩, serves_upTo hb.toPrecedes⟩
        have hstep : Machine.step ⟨p, .perform task :: orders⟩ =
            ⟨q.runNext.1, q.runNext.2 ++ (more ++ orders)⟩ := by
          change (⟨(Player.perform task p).1, (Player.perform task p).2 ++ orders⟩ :
            Machine Player Task) = _
          rw [hx, List.append_assoc]
        cases hqueue : q.queue with
        | nil =>
          have hnext : q.runNext = (q.write .index (q.stage.index.value + 1), []) := by
            rw [Player.runNext, hqueue]
          rw [hstep, hnext] at hnew
          exact absurd (hb.live hnew) hold
        | cons i is =>
          have hnext : q.runNext = { q with queue := is }.dispatch i := by
            rw [Player.runNext, hqueue]
          rw [hnext] at hstep
          exact ⟨{ q with queue := is }, i, more ++ orders,
            ⟨hq.1, hq.2.schedule, hq.2.reveal, hq.2.ticket, hq.2.active⟩,
            List.forall_mem_append.2
              ⟨hmore, fun o ho => hsub.order (h.agenda (List.mem_cons_of_mem _ ho))⟩, hb.now, hstep⟩
    · have hlive : (Machine.step ⟨p, o :: orders⟩).world.live = p.live :=
        congrArg Seat.live (Machine.seat_step_of_loop fun task ht => hperform ⟨task, ht⟩)
      rw [hlive] at hnew
      exact absurd hnew hold

end Machine.Numbered

theorem Player.Begins.numbered {p : Player} (h : p.Begins) : Machine.Numbered ⟨p, []⟩ := by
  have empty (hs : p.schedule = {}) (hr : p.reveals = #[]) (ht : p.tickets = #[])
      (ha : p.active = none) : Machine.Numbered ⟨p, []⟩ := by
    refine ⟨⟨?_, ?_, fun hv => ?_, fun hm => ?_, fun hh => ?_⟩,
      fun ho => absurd ho List.not_mem_nil⟩
    · rw [hs]
      exact ⟨.nil, .nil, (nomatch ·), (nomatch ·)⟩
    · rw [hs]
      exact ⟨(nomatch ·), (nomatch ·), (nomatch ·), (nomatch ·)⟩
    · rw [hr] at hv
      cases hv
    · rw [ht] at hm
      exact absurd hm (Array.not_mem_empty _)
    · rw [ha] at hh
      cases hh
  cases h <;> exact empty rfl rfl rfl rfl

/-- A turn of the host. The instruction under way stays, no command starts, and what is not about the
host is left alone. -/
structure Player.Turn (p : Player) (x : Player × Orders) : Prop
    extends Dwells (fun _ => True) p x where
  /-- The instruction stays. -/
  seat : x.1.seat = p.seat
  /-- No command starts. -/
  concludes : ∀ o ∈ x.2, ¬ o.Concludes

namespace Run

variable {P : HostCall → Prop} {m₀ m : Machine Player Task} {h : List (Machine Player Task)}

/-- **What steps and turns of the host preserve holds in every run.** -/
theorem preserves {I : List (Machine Player Task) → Machine Player Task → Prop}
    (r : Run P m₀ h m) (start : I [] m₀)
    (step : ∀ {h m}, Run P m₀ h m → I h m → I (m :: h) m.step)
    (turn : ∀ {h p x}, I h ⟨p, []⟩ → p.Turn x → I h (continuing x)) : I h m := by
  induction r with
  | start => exact start
  | step r ih => exact step r ih
  | @turn h p book events answer orders _ ho ih =>
    have hhost : Dwells (fun _ => True) p ({ p with book, events, answer }, []) :=
      (Dwells.refl p).of_eq rfl rfl rfl rfl rfl rfl
    refine turn ih ⟨hhost.append fun _ _ _ o hm => ?_, rfl, fun o hm => ?_⟩
    · rcases ho o hm with ⟨a, c, rfl, -⟩ | ⟨d, rfl⟩ <;> trivial
    · rcases ho o hm with ⟨a, c, rfl, -⟩ | ⟨d, rfl⟩ <;> simp [Order.Concludes]
  | @connect h p hook l _ _ ih =>
    exact turn ih ⟨(Dwells.refl p).connect hook l, seat_of_inside (inside_connect ..), fun o hm =>
      ((Light.connect p hook l).all o hm).not_concludes⟩
  | @connectToBook h p hook l _ _ ih =>
    exact turn ih ⟨(Dwells.refl p).connectToBook hook l, seat_of_inside (inside_connectToBook ..),
      fun o hm => ((Light.connectToBook p hook l).all o hm).not_concludes⟩

theorem numbered (r : Run P m₀ h m) (h₀ : m₀.Numbered) : m.Numbered :=
  r.preserves (I := fun _ m => m.Numbered) h₀ (fun _ hm => hm.step) fun hm ht => by
    obtain ⟨hw, ho⟩ := ht.toRemains.numbered hm.world trivial
    exact ⟨hw, ho _⟩

end Run

end UpTo

end Novella
