import Novella.Proofs.Player.WatchedAgenda

/-!
# Pages that have ended

When a page ends, the script that is only watched is hushed: whatever it does until the next line
starts, it shows no text. This is seen step by step. A step leaves an agenda that is laid out as
before, a hushed player shows no text and stays hushed, and the end of a page hushes the player.

The step in which a line starts is different. It ends the hush, but its first instruction may end
the page again at once.

## Main definitions

* `Goes` — what a step does to a player and its agenda
* `Machine.signal?` — the signal of the next step

## Main results

* `Arranged.goes` — every step but the start of a line
* `Player.runLine_laid` — the start of a line
-/

namespace Novella

open Player

/-- The player and the agenda come of a step with this signal. -/
structure Laid (s : Option Signal) (x : Player × Orders) : Prop where
  /-- The agenda is laid out. -/
  arranged : Arranged x.1 x.2
  /-- The end of a page hushes the player. -/
  page : s = some .page → Hush x.1 x.2

/-- The player and the agenda come of a step with this signal, by which no line starts: a hushed
player shows no text and stays hushed. -/
structure Goes (p : Player) (agenda : Orders) (s : Option Signal) (x : Player × Orders) : Prop
    extends Laid s x where
  /-- A hushed player shows no text. -/
  mute : Hush p agenda → ∀ token, s ≠ some (.text token)
  /-- A hushed player stays hushed. -/
  hushed : Hush p agenda → Hush x.1 x.2

namespace Laid

variable {p : Player} {agenda : Orders} {s : Option Signal} {x : Player × Orders} {r : Nat}

/-- Where a text in hand may go on nobody is hushed. -/
theorem of_hand (h : Laid s x) (hs : p.Speaks r) {o : Order Task} (hm : o ∈ agenda)
    (hr : o.holder? = some r) : Goes p agenda s x :=
  ⟨h, fun hu => absurd hs (hu.hands hm hr), fun hu => absurd hs (hu.hands hm hr)⟩

/-- Where the text that takes the input may go on nobody is hushed. -/
theorem of_active (h : Laid s x) (hs : p.Speaks r) (ha : p.active = some (.reveal r)) :
    Goes p agenda s x :=
  ⟨h, fun hu => absurd hs (hu.active ha), fun hu => absurd hs (hu.active ha)⟩

end Laid

/-- Who reacts to a value is an observer, and at most this one leaves the cell. -/
theorem Cell.hear_eq_some {α κ : Type} {c d : Cell α κ} {id : Nat} {v : α} {r : κ}
    (h : c.hear id v = (d, some r)) :
    (∃ o ∈ c.observers, o.reaction = r) ∧ d.value = c.value ∧
      d.observers.Sublist c.observers := by
  unfold hear at h
  split at h
  · next o ho =>
    split at h
    · cases h
      refine ⟨⟨o, List.mem_of_find?_eq_some ho, rfl⟩, ?_⟩
      split
      · exact ⟨rfl, List.filter_sublist⟩
      · exact ⟨rfl, List.Sublist.refl _⟩
    · cases h
  · cases h

theorem Player.Task.IsTimed.holder? {t : Task} (h : t.IsTimed) :
    (Order.perform t).holder? = none := by
  cases t with
  | reveal r a => rcases h with rfl | rfl <;> rfl
  | conclude t c => exact h.elim
  | _ => rfl

namespace Player

variable {p q q' : Player} {r : Nat} {o : Order Task} {hands later : Orders}

/-! ### One text -/

/-- At most one text has changed. -/
structure Retouched (r : Nat) (p q : Player) : Prop where
  /-- The seat is the same. -/
  seat : q.seat = p.seat
  /-- No text has begun. -/
  size : q.reveals.size = p.reveals.size
  /-- The other texts are the same. -/
  others {s : Nat} : s ≠ r → q.reveals[s]? = p.reveals[s]?

namespace Retouched

theorem refl (r : Nat) (p : Player) : Retouched r p p := ⟨rfl, rfl, fun _ => rfl⟩

theorem trans (h : Retouched r p q) (h' : Retouched r q q') : Retouched r p q' :=
  ⟨h'.seat.trans h.seat, h'.size.trans h.size, fun hs => (h'.others hs).trans (h.others hs)⟩

theorem modify (r : Nat) (p : Player) (f : Reveal → Reveal) :
    Retouched r p (p.modifyReveal r f) := by
  refine ⟨rfl, Array.size_modify, fun hs => ?_⟩
  rw [modifyReveal, Array.getElem?_modify, if_neg hs.symm]

theorem of_eq (h : Retouched r p q) (hs : q'.seat = q.seat) (hr : q'.reveals = q.reveals) :
    Retouched r p q' :=
  ⟨hs.trans h.seat, (congrArg Array.size hr).trans h.size, fun hs => by rw [hr, h.others hs]⟩

theorem of_inside (h : Retouched r p q) (hq : q'.inside = q.inside) : Retouched r p q' :=
  h.of_eq (seat_of_inside hq) (reveals_of_inside hq)

theorem armReveal (h : Retouched r p q) (mode : Reveal.Mode) (d : Nat) (repeats : Bool)
    (a : Reveal.Act) : Retouched r p (q.armReveal r mode d repeats a) := by
  have ht : Retouched r p (q.startTimer d repeats (.reveal r a)) := h.of_eq rfl rfl
  exact ht.trans (modify r _ _)

theorem stopReveal (r : Nat) (p : Player) (v : Reveal) (mode : Reveal.Mode) :
    Retouched r p (p.stopReveal r v mode) := by
  have hm := modify r p fun v => { v with mode, timer := none }
  rw [Player.stopReveal]
  split
  · exact hm.of_eq rfl rfl
  · exact hm

theorem queue (h : Retouched r p q) (hq : Closing p.queue) : Closing q.queue := by
  rwa [show q.queue = p.queue from congrArg Seat.queue h.seat]

theorem active (h : Retouched r p q) : q.active = p.active := congrArg Seat.active h.seat

theorem lt_size (h : Retouched r p q) {s : Nat} (hs : s < p.reveals.size) : s < q.reveals.size := by
  rwa [h.size]

/-- A text that may go on is in no quiet hands, so they stay quiet whatever it does. -/
theorem quiet (h : Retouched r p q) (hs : p.Speaks r) (hh : p.Quiet hands) : q.Quiet hands := by
  refine fun o ho => ⟨(hh o ho).1, fun s hr => ?_⟩
  obtain ⟨hlt, hn⟩ := (hh o ho).2 s hr
  have hne : s ≠ r := by
    rintro rfl
    exact hn hs
  refine ⟨h.lt_size hlt, fun hq => hn ?_⟩
  rwa [Speaks, h.others hne] at hq

end Retouched

theorem Speaks.lt_size (h : p.Speaks r) : r < p.reveals.size := by
  obtain ⟨v, hv, -⟩ := h
  exact (Array.getElem?_eq_some_iff.1 hv).1

theorem not_speaks {v : Reveal} (hv : p.reveals[r]? = some v)
    (hm : v.mode = .done ∨ v.mode = .pageEnd) : ¬ p.Speaks r := by
  rintro ⟨v', hv', hd, hp⟩
  rw [hv] at hv'
  cases hv'
  exact hm.elim hd hp

/-- The same texts may go on. -/
structure SaysAs (p q : Player) : Prop where
  /-- No text has begun. -/
  size : q.reveals.size = p.reveals.size
  /-- A text may go on if it could. -/
  speaks {r : Nat} : q.Speaks r ↔ p.Speaks r

namespace SaysAs

theorem refl (p : Player) : SaysAs p p := ⟨rfl, .rfl⟩

/-- How often a text is kept says nothing about whether it goes on. -/
theorem modify (p : Player) (s : Nat) (f : Reveal → Nat) :
    SaysAs p (p.modifyReveal s fun v => { v with holds := f v }) := by
  refine ⟨Array.size_modify, fun {r} => ?_⟩
  rw [Speaks, Speaks, modifyReveal, Array.getElem?_modify]
  split
  · next hs =>
    subst hs
    cases p.reveals[s]? <;> simp
  · rfl

theorem of_reveals (h : SaysAs p q) (hr : q'.reveals = q.reveals) : SaysAs p q' := by
  refine ⟨(congrArg Array.size hr).trans h.size, fun {r} => ?_⟩
  rw [Speaks, hr]
  exact h.speaks

theorem quiet (h : SaysAs p q) (hh : p.Quiet hands) : q.Quiet hands :=
  hh.mono (Nat.le_of_eq h.size.symm) fun _ => h.speaks.1

end SaysAs

/-! ### Tickets -/

namespace Watched

theorem of_eq (h : p.Watched) (hl : q.listeners = p.listeners) (hc : q.commands = p.commands) :
    q.Watched := ⟨hl ▸ h.listeners, hc ▸ h.commands⟩

theorem trace (h : p.Watched) (c : LogCategory) (l : LogLevel) (s : String) :
    (p.trace c l s).Watched := by
  rcases p.trace_eq c l s with h' | ⟨e, h'⟩
  · rwa [h']
  · rw [h']
    exact h.of_eq rfl rfl

end Watched

/-- A ticket is given back where nothing but page breaks is left. -/
theorem finish_closes (h : p.Watched) (hq : Closing p.queue) (t : Ticket) :
    Finishes p (Closes p.reveals) (p.finishSignal? t) (p.finish t) := by
  refine finish_finishes t fun _ _ => ?_
  exact runNext_closes (p := { p with live := p.live.erase t, active := none })
    ⟨h.listeners, h.commands⟩ rfl hq

/-- What comes of a ticket shows no text. If the player waits it is hushed, and so it is if it was
quiet before. -/
theorem Finishes.goes {s : Option Signal} {x : Player × Orders}
    (h : Finishes p (Closes p.reveals) s x) (hh : p.Quiet hands) (hl : ∀ o ∈ later, o.IsLater)
    (hq : Closing p.queue) :
    Laid s (x.1, x.2 ++ (hands ++ later)) ∧ (∀ token, s ≠ some (.text token)) ∧
      ((∀ {r}, p.active = some (.reveal r) → ¬ p.Speaks r) →
        Hush x.1 (x.2 ++ (hands ++ later))) := by
  cases h with
  | @idle q hr hqueue ha =>
    have hh := hh.of_reveals hr
    have hq : Closing q.queue := hqueue ▸ hq
    refine ⟨⟨hh.arranged hl hq, fun hs => by cases hs⟩, by simp, fun hact => ?_⟩
    refine hh.hush hl (fun hs => ?_) hq
    rw [ha] at hs
    rw [Speaks, hr]
    exact hact hs
  | next h =>
    obtain ⟨ha, hu, hn⟩ := h.arranged hh hl
    exact ⟨⟨ha, fun _ => hu⟩, hn, fun _ => hu⟩

/-! ### A text acts -/

section Text

variable (hs : p.Speaks r) (ho : o.IsHand) (hr : o.holder? = some r) (hh : p.Quiet hands)
  (hl : ∀ o ∈ later, o.IsLater) (hq : Closing p.queue)
include hs ho hr hh hl hq

/-- The text stops at a pause. -/
theorem Retouched.rests (h : Retouched r p q) : Arranged q (o :: (hands ++ later)) := by
  refine .hand ho (fun s hs' => ?_) (h.quiet hs hh) hl (h.queue hq)
  rw [hr] at hs'
  cases hs'
  exact h.lt_size hs.lt_size

variable (ha : p.active = none ∨ p.active = some (.reveal r))
include ha

/-- The text is over, or its page is. -/
theorem Retouched.hush (h : Retouched r p q) {v : Reveal} (hv : q.reveals[r]? = some v)
    (hm : v.mode = .done ∨ v.mode = .pageEnd) : Hush q (o :: (hands ++ later)) := by
  have hn := not_speaks hv hm
  refine ⟨fun hact => ?_, fun {o' s} ho' hs' => ?_, h.queue hq⟩
  · rw [h.active] at hact
    rcases ha with ha | ha
    · rw [ha] at hact
      cases hact
    · rw [ha] at hact
      cases hact
      exact hn
  · rcases List.mem_cons.1 ho' with rfl | ho'
    · rw [hr] at hs'
      cases hs'
      exact hn
    · exact ((h.quiet hs hh) _ (holder?_of_mem_later hl ho' hs')).2 _ hs' |>.2

/-- A text goes on to its next pause. -/
theorem proceed_laid (hw : p.Watched) (v : Reveal) :
    Laid (p.proceedSignal? v)
      ((p.proceed r v).1, (p.proceed r v).2 ++ (o :: (hands ++ later))) := by
  obtain ⟨v₀, hv₀, -⟩ := id hs
  have hgo (rest : List Char) (mode : Reveal.Mode) :
      Retouched r p (p.modifyReveal r fun v => { v with rest, mode }) := .modify r p _
  have hlast (rest : List Char) (mode : Reveal.Mode) := getElem?_modifyReveal hv₀
    fun v => { v with rest, mode }
  have hwgo (rest : List Char) (mode : Reveal.Mode) :
      (p.modifyReveal r fun v => { v with rest, mode }).Watched := hw.of_eq rfl rfl
  rw [proceed, proceedSignal?]
  dsimp only
  cases Reveal.scan v.delay v.rest with
  | done =>
    -- the text is over, so its hand is quiet
    dsimp only
    generalize hd : (p.modifyReveal r fun v => { v with rest := [], mode := .done }).trace .text
      .trace "text finished" = d
    have hdi : d.inside = (p.modifyReveal r fun v => { v with rest := [], mode := .done }).inside :=
      hd ▸ inside_trace ..
    have ht := (hgo [] .done).of_inside hdi
    have hn : ¬ d.Speaks r :=
      not_speaks (by rw [reveals_of_inside hdi]; exact hlast [] .done) (.inl rfl)
    have hwd : d.Watched := hd ▸ (hwgo [] .done).trace ..
    have hf := finish_closes hwd (ht.queue hq) v.ticket
    have hds : d.surroundings = p.surroundings := by
      rw [← hd]
      simp
    rw [finishSignal?_congr hds ht.seat] at hf
    have hhands := Quiet.cons ho (fun s h' => by
      rw [hr] at h'
      cases h'
      exact ⟨ht.lt_size hs.lt_size, hn⟩) (ht.quiet hs hh)
    exact (hf.goes hhands hl (ht.queue hq)).1
  | wait ms rest =>
    refine ⟨?_, fun hs => by cases hs⟩
    exact (((hgo rest .running).of_inside (inside_trace ..)).armReveal ..).rests hs ho hr hh hl hq
  | pause rest =>
    refine ⟨?_, fun hs => by cases hs⟩
    exact ((hgo rest .awaitingInput).of_inside (inside_trace ..)).rests hs ho hr hh hl hq
  | lineBreak rest =>
    dsimp only
    rw [orders_emit ((hwgo rest .awaitingInput).trace ..).listeners]
    refine ⟨?_, fun hs => by cases hs⟩
    exact (((hgo rest .awaitingInput).of_inside (inside_trace ..)).of_inside
      (inside_emit ..)).rests hs ho hr hh hl hq
  | pageBreak rest =>
    dsimp only
    rw [orders_emit ((hwgo rest .pageEnd).trace ..).listeners]
    have ht := ((hgo rest .pageEnd).of_inside (inside_trace _ .text .trace "page break")).of_inside
      (inside_emit _ .page)
    refine ⟨ht.rests hs ho hr hh hl hq, fun _ => ?_⟩
    refine ht.hush hs ho hr hh hl hq ha (v := { v₀ with rest, mode := .pageEnd }) ?_ (.inr rfl)
    rw [reveals_of_inside (inside_emit ..), reveals_trace]
    exact hlast rest .pageEnd
  | emit token rest =>
    dsimp only
    rw [orders_emit (hwgo rest .running).listeners]
    have ht := (hgo rest .running).of_inside (inside_emit _ (.text (String.ofList token)))
    refine ⟨?_, fun hs => by cases hs⟩
    refine .text (.inr (.inl rfl)) ⟨{ v₀ with rest, mode := .running }, ?_, fun h => by cases h⟩ ho
      hr (ht.active ▸ ha) (ht.quiet hs hh) hl (ht.queue hq)
    rw [reveals_of_inside (inside_emit ..)]
    exact hlast rest .running
  | tick =>
    refine ⟨?_, fun hs => by cases hs⟩
    exact ((Retouched.refl r p).armReveal ..).rests hs ho hr hh hl hq

/-- A text goes on whatever its mode. -/
theorem runReveal_laid (hw : p.Watched) {v : Reveal} (hv : p.reveals[r]? = some v) :
    Laid (p.proceedSignal? v)
      ((p.runReveal r).1, (p.runReveal r).2 ++ (o :: (hands ++ later))) := by
  have hm := Retouched.modify r p fun v => { v with mode := .running }
  have hv' := getElem?_modifyReveal hv fun v => { v with mode := .running }
  have hs' : (p.modifyReveal r fun v => { v with mode := .running }).Speaks r :=
    ⟨_, hv', by simp, by simp⟩
  rw [runReveal, hv']
  exact proceed_laid hs' ho hr (hm.quiet hs hh) hl (hm.queue hq) ha (hw.of_eq rfl rfl) _

end Text

/-! ### Acts -/

variable {v : Reveal} {agenda : Orders}

/-- Nothing happens to texts and input, and nothing is in hand. -/
theorem goes_of_eq {orders : Orders} (h : Arranged q orders) (hr : q.reveals = p.reveals)
    (ha : q.active = p.active) (hq : Closing q.queue) (hn : ∀ o ∈ orders, o.holder? = none) :
    Goes p agenda none (q, orders) := by
  refine ⟨⟨h, fun h => by cases h⟩, by simp, fun hu => ⟨fun h => ?_, fun ho h => ?_, hq⟩⟩
  · rw [ha] at h
    rw [Speaks, hr]
    exact hu.active h
  · cases (hn _ ho).symm.trans h

theorem later_goes (hr : q.reveals = p.reveals) (ha : q.active = p.active) (hq : Closing q.queue)
    (hl : ∀ o ∈ later, o.IsLater) : Goes p agenda none (q, later) :=
  goes_of_eq (.later hl hq) hr ha hq fun o ho => (hl o ho).holder?

/-- A task is taken from the loop. -/
theorem loose_goes (hq : Closing p.queue) (s : Schedule Task) {t : Task}
    (ht : (∃ c, t = .deliver c) ∨ t.IsTimed) (hl : ∀ o ∈ later, o.IsLater) :
    Goes p agenda none ({ p with schedule := s }, .perform t :: later) := by
  refine goes_of_eq (.loose ht hl hq) rfl rfl hq fun o ho => ?_
  rcases List.mem_cons.1 ho with rfl | ho
  · rcases ht with ⟨c, rfl⟩ | ht
    · rfl
    · exact ht.holder?
  · exact (hl o ho).holder?

theorem getElem?_stopReveal (hv : p.reveals[r]? = some v) (w : Reveal) (mode : Reveal.Mode) :
    (p.stopReveal r w mode).reveals[r]? = some { v with mode, timer := none } := by
  rw [stopReveal]
  split
  · next k _ => exact getElem?_modifyReveal (p := p.cancelTimer k) hv _
  · exact getElem?_modifyReveal hv _

theorem Watched.stopReveal (h : p.Watched) (r : Nat) (v : Reveal) (mode : Reveal.Mode) :
    (p.stopReveal r v mode).Watched := by
  rw [Player.stopReveal]
  split <;> exact h.of_eq rfl rfl

/-- A text acts that is not driven by the loop. -/
theorem actReveal_goes (hw : p.Watched) {a : Reveal.Act} (hd : a.Drives)
    (hv : p.reveals[r]? = some v) (hrun : a = .run → v.mode = .running) (ho : o.IsHand)
    (hr : o.holder? = some r) (ha : p.active = none ∨ p.active = some (.reveal r))
    (hh : p.Quiet hands) (hl : ∀ o ∈ later, o.IsLater) (hq : Closing p.queue) :
    Goes p (.perform (.reveal r a) :: o :: (hands ++ later)) (p.actSignal? r a)
      ((p.actReveal r a).1, (p.actReveal r a).2 ++ (o :: (hands ++ later))) := by
  have hm : o ∈ Order.perform (.reveal r a) :: o :: (hands ++ later) :=
    List.mem_cons_of_mem _ List.mem_cons_self
  have idle : Goes p (.perform (.reveal r a) :: o :: (hands ++ later)) none
      (p, o :: (hands ++ later)) := by
    refine ⟨⟨.hand ho (fun s hs => ?_) hh hl hq, fun h => by cases h⟩, by simp, fun hu => ?_⟩
    · rw [hr] at hs
      cases hs
      exact (Array.getElem?_eq_some_iff.1 hv).1
    · exact ⟨hu.active, fun h => hu.hands (List.mem_cons_of_mem _ h), hu.queue⟩
  have speaks (hmode : v.mode = .running ∨ v.mode = .ticking) : p.Speaks r := by
    refine ⟨v, hv, ?_⟩
    rcases hmode with hmode | hmode <;> simp [hmode]
  rw [actReveal, actSignal?, hv]
  dsimp only [Option.bind_some]
  rcases hd with rfl | rfl | rfl
  · have hs := speaks (.inl (hrun rfl))
    exact (runReveal_laid hs ho hr hh hl hq ha hw hv).of_hand hs hm hr
  · dsimp only
    split
    · next hmode =>
      have hs := speaks (.inl hmode)
      exact (proceed_laid hs ho hr hh hl hq ha hw v).of_hand hs hm hr
    · exact idle
  · dsimp only
    split
    · next hmode =>
      have hs := speaks (.inr hmode.1)
      have ht := Retouched.stopReveal r p v .running
      have hv' := getElem?_stopReveal hv v .running
      have hl' := runReveal_laid ⟨_, hv', by simp, by simp⟩ ho hr (ht.quiet hs hh) hl (ht.queue hq)
        (ht.active ▸ ha) (hw.stopReveal ..) hv'
      rw [proceedSignal?_congr (surroundings_stopReveal ..) ht.seat] at hl'
      exact hl'.of_hand hs hm hr
    · exact idle

/-- Only the text that takes the input is kept when nothing is in hand. -/
theorem active_of_isKept (h : p.isKept r v = true) (hv : p.reveals[r]? = some v)
    (h0 : p.holds r = 0) : p.active = some (.reveal r) := by
  rw [isKept, Bool.or_eq_true, decide_eq_true_eq] at h
  rcases h with h | h
  · exact h
  · rw [holds, hv] at h0
    simp only [Option.map_some, Option.getD_some] at h0
    simp [h0] at h

/-- While a text that takes the input is under way, its only hand is the one that lets it go. -/
theorem keeping_laid {s : Option Signal} {f : Player → Player × Orders}
    (h : ∀ q, Retouched r p q → q.Watched → q.surroundings = p.surroundings →
      (∀ v, p.reveals[r]? = some v → ∃ n, q.reveals[r]? = some { v with holds := n }) →
        Laid s ((f q).1, (f q).2 ++ (Order.perform (Task.reveal r .release) :: ([] ++ later))))
    (hw : p.Watched) :
    Laid s ((p.keeping r f).1, (p.keeping r f).2 ++ later) := by
  have hk := h (p.modifyReveal r fun v => { v with holds := v.holds + 1 }) (.modify ..)
    (hw.of_eq rfl rfl) rfl fun v hv => ⟨_, getElem?_modifyReveal hv _⟩
  rw [keeping]
  dsimp only
  rw [List.append_assoc]
  exact hk

/-- A character is shown, or the stretch has ended. -/
theorem tickReveal_laid (ht : Retouched r p q) (hw : q.Watched) {w : Reveal}
    (hv : q.reveals[r]? = some w) (ha : p.active = none ∨ p.active = some (.reveal r))
    (hl : ∀ o ∈ later, o.IsLater) (hq : Closing p.queue) :
    Laid v.tickSignal? ((q.tickReveal r v).1,
      (q.tickReveal r v).2 ++ (Order.perform (Task.reveal r .release) :: ([] ++ later))) := by
  have ticked {s : Option Signal} (hs : s ≠ some .page) {q' : Player} {w' : Reveal}
      (ht' : Retouched r p q') (hv' : q'.reveals[r]? = some w') :
      Laid s (q', .perform (.reveal r .ticked) :: .perform (.reveal r .release) ::
        ([] ++ later)) := by
    refine ⟨?_, fun h => absurd h hs⟩
    exact .text (.inr (.inr rfl)) ⟨w', hv', fun h => by cases h⟩ trivial rfl (ht'.active ▸ ha) .nil
      hl (ht'.queue hq)
  rw [tickReveal, Reveal.tickSignal?]
  cases v.rest with
  | nil => exact ticked (by simp) ht hv
  | cons c rest =>
    dsimp only
    split
    · exact ticked (by simp) ht hv
    · have hw' : (q.modifyReveal r fun v => { v with rest }).Watched := hw.of_eq rfl rfl
      rw [orders_emit hw'.listeners]
      refine ticked (by simp) ((ht.trans (.modify ..)).of_inside (inside_emit ..))
        (show _ = some { w with rest } from ?_)
      rw [reveals_of_inside (inside_emit ..)]
      exact getElem?_modifyReveal hv _

/-- The loop calls a text. -/
theorem actReveal_timed (hw : p.Watched) {a : Reveal.Act} (hd : a = .tick ∨ a = .wake)
    (h0 : p.holds r = 0) (hl : ∀ o ∈ later, o.IsLater) (hq : Closing p.queue) :
    Goes p agenda (p.actSignal? r a) ((p.actReveal r a).1, (p.actReveal r a).2 ++ later) := by
  rw [actReveal, actSignal?]
  cases hv : p.reveals[r]? with
  | none => exact later_goes rfl rfl hq hl
  | some v =>
    dsimp only [Option.bind_some]
    rcases hd with rfl | rfl
    · dsimp only
      split
      · next hk =>
        have ha := active_of_isKept hk.1 hv h0
        have hs : p.Speaks r := ⟨v, hv, by simp [hk.2], by simp [hk.2]⟩
        refine (keeping_laid (fun q ht hwq _ hvq => ?_) hw).of_active hs ha
        obtain ⟨n, hn⟩ := hvq v hv
        exact tickReveal_laid ht hwq hn (.inr ha) hl hq
      · exact later_goes rfl rfl hq hl
    · dsimp only
      split
      · next hk =>
        have ha := active_of_isKept hk.1 hv h0
        have hs : p.Speaks r := ⟨v, hv, by simp [hk.2], by simp [hk.2]⟩
        refine (keeping_laid (fun q ht hwq hsq hvq => ?_) hw).of_active hs ha
        obtain ⟨n, hn⟩ := hvq v hv
        have hl' := runReveal_laid ⟨_, hn, by simp [hk.2], by simp [hk.2]⟩
          (show Order.IsHand (.perform (.reveal r .release)) from trivial) rfl (.nil : q.Quiet [])
          hl (ht.queue hq) (.inr (ht.active.trans ha)) hwq hn
        rwa [proceedSignal?_congr hsq ht.seat] at hl'
      · exact later_goes rfl rfl hq hl

/-- Input for a text that may go on. -/
theorem nudgeReveal_laid (ht : Retouched r p q) (hw : q.Watched)
    (hq' : q.surroundings = p.surroundings) {n : Nat}
    (hv : q.reveals[r]? = some { v with holds := n }) (hm : v.mode ≠ .done) (hp : v.mode ≠ .pageEnd)
    (ha : p.active = some (.reveal r)) (hl : ∀ o ∈ later, o.IsLater) (hq : Closing p.queue) :
    Laid (p.nudgeSignal? v) ((q.nudgeReveal r v).1,
      (q.nudgeReveal r v).2 ++ (Order.perform (Task.reveal r .release) :: ([] ++ later))) := by
  have hs : q.Speaks r := ⟨_, hv, hm, hp⟩
  have rests {q' : Player} (h : Retouched r q q') :
      Laid none (q', .perform (.reveal r .release) :: ([] ++ later)) :=
    ⟨h.rests hs trivial rfl .nil hl (ht.queue hq), fun h => by cases h⟩
  rw [nudgeReveal, nudgeSignal?]
  cases hmode : v.mode with
  | ticking =>
    have hw' := hw.stopReveal r v .running
    generalize hd : (q.stopReveal r v .running).modifyReveal r
      (fun v => { v with rest := Reveal.afterStretch v.rest }) = d
    have htd : Retouched r p d := hd ▸ (ht.trans (.stopReveal r q v .running)).trans (.modify ..)
    have hvd : ∃ w, d.reveals[r]? = some w ∧ w.mode = .running :=
      ⟨_, hd ▸ getElem?_modifyReveal (getElem?_stopReveal hv v .running) _, rfl⟩
    have hwd : d.Watched := hd ▸ hw'.of_eq rfl rfl
    have run {s : Option Signal} (hs : s ≠ some .page) {q' : Player} (h : Retouched r p q')
        (hv' : ∃ w, q'.reveals[r]? = some w ∧ w.mode = .running) :
        Laid s (q', .perform (.reveal r .run) :: .perform (.reveal r .release) ::
          ([] ++ later)) := by
      obtain ⟨w, hv', hrun⟩ := hv'
      exact ⟨.text (.inl rfl) ⟨w, hv', fun _ => hrun⟩ trivial rfl (.inr (h.active.trans ha)) .nil hl
        (h.queue hq), fun h => absurd h hs⟩
    dsimp only
    cases Reveal.stretch v.rest with
    | nil => exact run (by simp) htd hvd
    | cons c rest =>
      dsimp only
      rw [orders_emit hwd.listeners]
      refine run (by simp) (htd.of_inside (inside_emit ..)) ?_
      rwa [reveals_of_inside (inside_emit ..)]
  | awaitingInput =>
    have hl' := runReveal_laid hs (show Order.IsHand (.perform (.reveal r .release)) from trivial)
      rfl (.nil : q.Quiet []) hl (ht.queue hq) (.inr (ht.active.trans ha)) hw hv
    rwa [proceedSignal?_congr hq' ht.seat] at hl'
  | pageEnd => exact absurd hmode hp
  | waiting =>
    dsimp only
    split
    · exact rests ((Retouched.refl r q).of_eq rfl rfl)
    · exact rests (.refl r q)
  | running => exact rests (.refl r q)
  | done => exact absurd hmode hm

/-- Input for a text that has said all it says. -/
theorem silent_goes (hw : p.Watched) (ha : p.active = some (.reveal r))
    (hv : p.reveals[r]? = some v) (hm : v.mode = .done ∨ v.mode = .pageEnd)
    (hl : ∀ o ∈ later, o.IsLater) (hq : Closing p.queue) :
    Goes p agenda (p.nudgeSignal? v) ((p.keeping r fun p => p.nudgeReveal r v).1,
      (p.keeping r fun p => p.nudgeReveal r v).2 ++ later) := by
  have quiet {q : Player} {w : Reveal} (h : Retouched r p q) (hv : q.reveals[r]? = some w)
      (hm : w.mode = .done ∨ w.mode = .pageEnd) :
      q.Quiet [.perform (.reveal r .release)] ∧
        ∀ {s}, q.active = some (.reveal s) → ¬ q.Speaks s := by
    have hn := not_speaks hv hm
    refine ⟨.cons trivial (fun s hs => ?_) .nil, fun {s} hs => ?_⟩
    · cases hs
      exact ⟨(Array.getElem?_eq_some_iff.1 hv).1, hn⟩
    · rw [h.active, ha] at hs
      cases hs
      exact hn
  have hkeep := Retouched.modify r p fun v => { v with holds := v.holds + 1 }
  have hvk := getElem?_modifyReveal hv fun v => { v with holds := v.holds + 1 }
  rw [keeping]
  dsimp only
  rw [List.append_assoc, nudgeReveal, nudgeSignal?]
  rcases hm with hm | hm
  · rw [hm]
    obtain ⟨hh, hact⟩ := quiet hkeep hvk (.inl hm)
    exact ⟨⟨hh.arranged hl hq, fun h => by cases h⟩, by simp, fun _ => hh.hush hl hact hq⟩
  · rw [hm]
    dsimp only
    have hdone := hkeep.trans (.modify r _ fun v => { v with mode := .done })
    obtain ⟨hh, hact⟩ := quiet hdone (getElem?_modifyReveal hvk fun v => { v with mode := .done })
      (.inl rfl)
    have hf := finish_closes
      (p := (p.modifyReveal r fun v => { v with holds := v.holds + 1 }).modifyReveal
        r fun v => { v with mode := .done }) (hw.of_eq rfl rfl) hq v.ticket
    obtain ⟨h, hn, hu⟩ := hf.goes hh hl hq
    exact ⟨h, fun _ => hn, fun _ => hu hact⟩

/-- Input. -/
theorem advanceHandler_goes (hw : p.Watched) {x : Handler} (ha : p.active = some x)
    (hl : ∀ o ∈ later, o.IsLater) (hq : Closing p.queue) :
    Goes p agenda (p.handlerSignal? x)
      ((p.advanceHandler x).1, (p.advanceHandler x).2 ++ later) := by
  have finish (t : Ticket) (hx : ∀ r, x ≠ .reveal r) {later : Orders}
      (hl : ∀ o ∈ later, o.IsLater) :
      Goes p agenda (p.finishSignal? t) ((p.finish t).1, (p.finish t).2 ++ later) := by
    obtain ⟨h, hn, hu⟩ := (finish_closes hw hq t).goes .nil hl hq
    refine ⟨h, fun _ => hn, fun _ => hu fun {r} hr => ?_⟩
    rw [ha] at hr
    exact absurd (Option.some.inj hr) (hx r)
  cases x with
  | finish t => exact finish t (by simp) hl
  | stuck => exact later_goes rfl rfl hq hl
  | timer k => exact later_goes rfl rfl hq hl
  | reveal r =>
    rw [advanceHandler, handlerSignal?]
    cases hv : p.reveals[r]? with
    | none => exact later_goes rfl rfl hq hl
    | some v =>
      dsimp only [Option.bind_some]
      by_cases hm : v.mode = .done ∨ v.mode = .pageEnd
      · exact silent_goes hw ha hv hm hl hq
      · have hs : p.Speaks r := ⟨v, hv, not_or.1 hm⟩
        refine (keeping_laid (fun q ht hwq hsq hvq => ?_) hw).of_active hs ha
        obtain ⟨n, hn⟩ := hvq v hv
        exact nudgeReveal_laid ht hwq hsq hn (not_or.1 hm).1 (not_or.1 hm).2 ha hl hq
  | host b t =>
    have noted (e : Event) {s : Option Signal} {x : Player × Orders}
        (h : Goes p agenda s (x.1, x.2 ++ (Order.perform (Task.note e) :: later))) :
        Goes p agenda s (x.1, x.2 ++ [Order.perform (Task.note e)] ++ later) := by
      rwa [List.append_assoc]
    cases b with
    | onNext =>
      refine noted _ (finish t (by simp) ?_)
      exact List.forall_mem_cons.2 ⟨trivial, hl⟩
    | _ => exact later_goes rfl rfl hq hl

/-! ### Tasks -/

/-- A command goes on to wait. -/
theorem conclude_goes (t : Ticket) (x : Handler) (hh : p.Quiet hands)
    (hl : ∀ o ∈ later, o.IsLater) (hq : Closing p.queue) :
    Goes p (.perform (.conclude t (.pending x)) :: (hands ++ later)) none
      ((p.conclude t (.pending x)).1, (p.conclude t (.pending x)).2 ++ (hands ++ later)) := by
  obtain ⟨q, hs, hk, heq⟩ : ∃ q : Player, q.seat = p.seat ∧ SaysAs p q ∧
      p.conclude t (.pending x) =
        if t ∈ p.live then ({ q with active := some x, phase := .awaiting }, []) else (q, []) := by
    cases x with
    | reveal r => exact ⟨p.modifyReveal r fun v => { v with holds := v.holds - 1 }, rfl,
        .modify p r fun v => v.holds - 1, rfl⟩
    | _ => exact ⟨p, rfl, .refl p, rfl⟩
  have hqueue : q.queue = p.queue := congrArg Seat.queue hs
  have hact : q.active = p.active := congrArg Seat.active hs
  have goes {q' : Player} (hr : SaysAs p q') (hqueue : q'.queue = p.queue)
      (hact : q'.active = p.active ∨ q'.active = some x) :
      Goes p (.perform (.conclude t (.pending x)) :: (hands ++ later)) none
        (q', hands ++ later) := by
    have hq' : Closing q'.queue := hqueue ▸ hq
    have hh' := hr.quiet hh
    refine ⟨⟨hh'.arranged hl hq', fun h => by cases h⟩, by simp, fun hu => ?_⟩
    refine hh'.hush hl (fun {r} h => ?_) hq'
    rw [hr.speaks]
    rcases hact with hact | hact
    · exact hu.active (hact ▸ h)
    · rw [hact] at h
      cases h
      exact hu.hands List.mem_cons_self rfl
  rw [heq]
  split
  · exact goes (hk.of_reveals rfl) hqueue (.inr rfl)
  · exact goes hk hqueue (.inl hact)

/-- A text is let go. -/
theorem release_goes (r : Nat) (hh : p.Quiet hands) (hl : ∀ o ∈ later, o.IsLater)
    (hq : Closing p.queue) :
    Goes p (.perform (.reveal r .release) :: (hands ++ later)) (p.actSignal? r .release)
      ((p.actReveal r .release).1, (p.actReveal r .release).2 ++ (hands ++ later)) := by
  have hsig : p.actSignal? r .release = none := by
    rw [actSignal?]
    cases p.reveals[r]? <;> rfl
  rw [hsig]
  have goes {q : Player} (hr : SaysAs p q) (hs : q.seat = p.seat) :
      Goes p (.perform (.reveal r .release) :: (hands ++ later)) none (q, hands ++ later) := by
    have hqueue : q.queue = p.queue := congrArg Seat.queue hs
    have hact : q.active = p.active := congrArg Seat.active hs
    have hq' : Closing q.queue := hqueue ▸ hq
    have hh' := hr.quiet hh
    refine ⟨⟨hh'.arranged hl hq', fun h => by cases h⟩, by simp, fun hu => ?_⟩
    refine hh'.hush hl (fun {r} h => ?_) hq'
    rw [hr.speaks]
    exact hu.active (hact ▸ h)
  rw [actReveal]
  split
  · exact goes (.refl p) rfl
  · exact goes (.modify p r fun v => v.holds - 1) rfl

/-- A command is done. -/
theorem done_goes (hw : p.Watched) (hb : p.Busy) (hh : p.Quiet hands)
    (hl : ∀ o ∈ later, o.IsLater) (hq : Closing p.queue.tail) :
    Goes p (p.doneOrder :: (hands ++ later)) (p.finishSignal? (.instruction p.generation))
      ((p.finish (.instruction p.generation)).1,
        (p.finish (.instruction p.generation)).2 ++ (hands ++ later)) := by
  have hm : .instruction p.generation ∈ p.live := hb
  have hf : p.finish (.instruction p.generation) =
      { p with live := p.live.erase (.instruction p.generation), active := none }.runNext := by
    rw [finish, if_pos hm]
    exact if_pos rfl
  have hw' : Watched { p with
      live := p.live.erase (.instruction p.generation)
      active := none } := ⟨hw.listeners, hw.commands⟩
  rw [finishSignal?, if_pos ⟨hm, rfl⟩, hf]
  obtain ⟨harr, hpage⟩ := (runNext_starts hw' rfl hq).arranged (p := { p with
    live := p.live.erase (.instruction p.generation)
    active := none }) hh hl
  refine ⟨⟨harr, hpage⟩, fun hu => ?_, fun hu => ?_⟩
  · exact ((runNext_closes hw' rfl hu.queue).arranged (p := { p with
      live := p.live.erase (.instruction p.generation)
      active := none }) hh hl).2.2
  · exact ((runNext_closes hw' rfl hu.queue).arranged (p := { p with
      live := p.live.erase (.instruction p.generation)
      active := none }) hh hl).2.1

/-- A ticket is given back by a timer. -/
theorem finish_goes (hw : p.Watched) (t : Ticket) (hl : ∀ o ∈ later, o.IsLater)
    (hq : Closing p.queue) :
    Goes p agenda (p.finishSignal? t) ((p.finish t).1, (p.finish t).2 ++ later) := by
  obtain ⟨h, hn, hu⟩ := (finish_closes hw hq t).goes .nil hl hq
  exact ⟨h, fun _ => hn, fun h => hu h.active⟩

/-- An observer hears a cell that the player has heard, or that is none of its own. At most it
leaves the cell. -/
theorem hear_later (hw : p.Watched) {c : CellName} {id : Nat} (hid : c.IsPlace → c.rank 1 < id)
    (ha : c.IsPlace → Attended c.reaction (c.rank 1) (p.stage.cell c)) (v : c.Value) :
    (perform (.hear c id v) p).2 = [] ∧ ∃ d : Cell c.Value Reaction,
      d.value = (p.stage.cell c).value ∧
        (perform (.hear c id v) p).1.inside = (p.store c (d, false)).inside := by
  unfold perform
  dsimp only
  split
  · next d r heq =>
    have hd := (Cell.hear_eq_some heq).2.1
    have listener (n : Nat) : ((p.store c (d, false)).reactTo (.listener n) c v).2 = [] ∧
        ((p.store c (d, false)).reactTo (.listener n) c v).1.inside =
          (p.store c (d, false)).inside := by
      have hx : (p.store c (d, false)).reactTo (.listener n) c v =
          (p.store c (d, false)).react n (.cell c v) := by
        unfold reactTo
        cases c <;> rfl
      rw [hx]
      exact ⟨orders_react (p := p.store c (d, false)) hw.listeners .., inside_react ..⟩
    have of {x : Player × Orders} (h : x.2 = [] ∧ x.1.inside = (p.store c (d, false)).inside) :
        x.2 = [] ∧ ∃ d : Cell c.Value Reaction, d.value = (p.stage.cell c).value ∧
          x.1.inside = (p.store c (d, false)).inside := ⟨h.1, d, hd, h.2⟩
    by_cases hc : c.IsPlace
    · obtain ⟨n, rfl⟩ := ((ha hc).hear_other (hid hc) v).2.2.2 r (by rw [heq])
      exact of (listener n)
    · cases r with
      | listener n => exact of (listener n)
      | openPage =>
        have ho : (p.store c (d, false)).reactTo .openPage c v =
            ((p.store c (d, false)).openPage, []) := by
          cases c <;> rfl
        rw [ho]
        have hi := inside_openPage (p.store c (d, false))
        exact of ⟨rfl, hi⟩
      | loadScene => cases c <;> first | exact absurd (.inl rfl) hc | exact of ⟨rfl, rfl⟩
      | runLine => cases c <;> first | exact absurd (.inr rfl) hc | exact of ⟨rfl, rfl⟩
      | limitHistory => cases c <;> exact of ⟨rfl, rfl⟩
  · exact ⟨rfl, p.stage.cell c, rfl, by rw [Steady.store_cell_self]⟩

theorem hear_goes (hw : p.Watched) {c : CellName} {id : Nat} (hid : c.IsPlace → c.rank 1 < id)
    (ha : c.IsPlace → Attended c.reaction (c.rank 1) (p.stage.cell c)) (v : c.Value)
    (hl : ∀ o ∈ later, o.IsLater) (hq : Closing p.queue) :
    Goes p agenda none ((perform (.hear c id v) p).1, (perform (.hear c id v) p).2 ++ later) := by
  obtain ⟨ho, d, -, hi⟩ := hear_later hw hid ha v
  have hs : (perform (.hear c id v) p).1.seat = p.seat := (seat_of_inside hi).trans rfl
  rw [ho]
  refine later_goes ((reveals_of_inside hi).trans rfl) (congrArg Seat.active hs) ?_ hl
  rwa [show (perform (.hear c id v) p).1.queue = p.queue from congrArg Seat.queue hs]

/-- The observers of a cell are going to hear it. -/
theorem deliver_goes {c : CellName}
    (ha : c.IsPlace → Attended c.reaction (c.rank 1) (p.stage.cell c))
    (hl : ∀ o ∈ later, o.IsLater) (hq : Closing p.queue) :
    Goes p agenda none ((perform (.deliver c) p).1, (perform (.deliver c) p).2 ++ later) := by
  have none_of_mem {ids : List Nat} {o : Order Task}
      (ho : o ∈
        ids.map (fun id => Order.perform (Task.hear c id (p.stage.cell c).value)) ++ later) :
      o.holder? = none := by
    rcases List.mem_append.1 ho with ho | ho
    · obtain ⟨id, -, rfl⟩ := List.mem_map.1 ho
      rfl
    · exact (hl o ho).holder?
  have arranged : Arranged (p.store c ((p.stage.cell c).beginDelivery.1, false))
      ((p.stage.cell c).beginDelivery.2.map
        (fun id => Order.perform (Task.hear c id (p.stage.cell c).value)) ++ later) := by
    -- those who come after the player have nothing to do with its agenda
    have others {ids : List Nat} (h : c.IsPlace → ∀ id ∈ ids, c.rank 1 < id) :
        ∀ o ∈ ids.map (fun id => Order.perform (Task.hear c id (p.stage.cell c).value)) ++ later,
          o.IsLater := by
      refine List.forall_mem_append.2 ⟨fun o ho => ?_, hl⟩
      obtain ⟨id, hid, rfl⟩ := List.mem_map.1 ho
      exact fun hc => h hc id hid
    by_cases hc : c.IsPlace
    · obtain ⟨ids, hids, hother⟩ := (ha hc).ids
      have hb : (p.stage.cell c).beginDelivery.2 = List.range (c.rank 1 + 1) ++ ids := hids
      have ho := others fun _ => hother
      rw [hb, List.map_append, List.append_assoc]
      rcases hc with rfl | rfl
      · exact .scene _ ho hq
      · exact .page _ ho hq
    · exact .later (others fun h => absurd h hc) hq
  exact goes_of_eq arranged rfl rfl hq fun o ho => none_of_mem ho

theorem seat_loadScene (p : Player) (scene : String) :
    ∃ phase, (p.loadScene scene).seat = { p.seat.interrupt with phase } := by
  rw [← seat_interrupt, loadScene]
  dsimp only
  split
  · exact ⟨.idle, rfl⟩
  · exact ⟨.loading, seat_trace ..⟩

theorem seat_completeLoad (p : Player) (r : LoadRequest) (x : Except SourceError (List String)) :
    ∃ phase, (p.completeLoad r x).1.seat = { p.seat with phase } := by
  unfold completeLoad
  split
  · exact ⟨p.phase, seat_trace ..⟩
  · cases x with
    | ok lines =>
      refine ⟨.executing, ?_⟩
      dsimp only
      rw [seat_notify, ← seat_trace p .engine .info]
      rfl
    | error e => exact ⟨.idle, rfl⟩

theorem reveals_completeLoad (p : Player) (r : LoadRequest)
    (x : Except SourceError (List String)) : (p.completeLoad r x).1.reveals = p.reveals := by
  unfold completeLoad
  split
  · exact reveals_trace ..
  · cases x with
    | ok lines => exact reveals_trace p .engine .info _
    | error e => rfl

/-- Nobody takes the input any more, and nothing is left of the line. -/
theorem vacant_goes (ha : q.active = none) (hq : q.queue = []) (hl : ∀ o ∈ later, o.IsLater) :
    Goes p agenda none (q, later) := by
  have hc : Closing q.queue := hq ▸ closing_nil
  refine ⟨⟨.later hl hc, fun h => by cases h⟩, by simp, fun _ => ?_⟩
  refine ⟨fun h => ?_, fun ho h => ?_, hc⟩
  · rw [ha] at h
    cases h
  · cases (hl _ ho).holder?.symm.trans h

theorem interrupted_goes {phase : Phase} (hs : q.seat = { p.seat.interrupt with phase })
    (hl : ∀ o ∈ later, o.IsLater) : Goes p agenda none (q, later) :=
  vacant_goes (congrArg Seat.active hs) (congrArg Seat.queue hs) hl

/-- The old scene is left. -/
theorem loadScene_goes (scene : String) (hl : ∀ o ∈ later, o.IsLater) :
    Goes p agenda none (p.loadScene scene, later) := by
  obtain ⟨phase, hs⟩ := seat_loadScene p scene
  exact interrupted_goes hs hl

/-- The script is moved. -/
theorem jump_goes {c : HostCall} (hc : (∃ s i, c = .goto s i) ∨ ∃ x v, c = .restore x v)
    (hl : ∀ o ∈ later, o.IsLater) :
    Goes p agenda none ((perform (.call .nobody c) p).1,
      (perform (.call .nobody c) p).2 ++ later) := by
  have hl' : ∀ o ∈ Order.perform (.report .nobody .none) :: later, o.IsLater :=
    List.forall_mem_cons.2 ⟨rfl, hl⟩
  rcases hc with ⟨s, i, rfl⟩ | ⟨x, v, rfl⟩
  · have hs : (p.goto s i).seat = { p.seat.interrupt with phase := p.phase } := seat_goto p s i
    exact interrupted_goes hs hl'
  · have hs : (p.restore x v).seat = { p.seat.interrupt with phase := p.phase } :=
      seat_goto (p.present x v) ..
    exact interrupted_goes hs hl'

/-- Input. -/
theorem next_goes (hw : p.Watched) (hl : ∀ o ∈ later, o.IsLater) (hq : Closing p.queue) :
    Goes p agenda (p.active.bind p.handlerSignal?) (p.next.1, p.next.2 ++ later) := by
  rw [next]
  cases ha : p.active with
  | none => exact later_goes rfl rfl hq hl
  | some x => exact advanceHandler_goes hw ha hl hq

/-- A scene is loaded if one is asked for. -/
theorem load_goes (hl : ∀ o ∈ later, o.IsLater) (hq : Closing p.queue) :
    Goes p agenda none (p.load.1, p.load.2 ++ later) := by
  unfold load takeRequest
  cases p.loadRequest with
  | none => exact later_goes rfl rfl hq hl
  | some r =>
    obtain ⟨phase, hs⟩ := seat_completeLoad { p with loadRequest := none } r (p.source r.scene)
    refine later_goes (reveals_completeLoad ..) (congrArg Seat.active hs) ?_ ?_
    · rwa [show Player.queue _ = p.queue from congrArg Seat.queue hs]
    · exact List.forall_mem_cons.2 ⟨trivial, List.forall_mem_cons.2 ⟨trivial, hl⟩⟩

/-- A timer rings. -/
theorem ring_goes (ht : p.Tame HostCall.KeepsPlace) (k : Nat) (hl : ∀ o ∈ later, o.IsLater)
    (hq : Closing p.queue) :
    Goes p agenda none ((perform (.ring k) p).1, (perform (.ring k) p).2 ++ later) := by
  unfold perform
  dsimp only
  cases hr : (p.schedule.ring .ring k).2 with
  | none => exact later_goes rfl rfl hq hl
  | some t => exact loose_goes hq _ (.inr (ht.isTimed_of_ring hr)) hl

end Player

/-! ### Steps -/

namespace Machine

/-- The signal of the next step. -/
def signal? (m : Machine Player Task) : Option Signal :=
  match m.agenda with
  | .perform t :: _ => m.world.signal? t
  | _ => none

theorem signal?_perform (p : Player) (t : Task) (rest : Orders) :
    signal? ⟨p, .perform t :: rest⟩ = p.signal? t := rfl

end Machine

/-- Apart from what is being heard, the cells of the script have their observers. -/
theorem Steady.attended {k : Nat} {m : Machine Player Task} {c : Course} (h : Steady k m c)
    {x : CellName} (hx : x.IsPlace) : Attended x.reaction (x.rank k) (m.world.stage.cell x) := by
  cases h with
  | quiet _ hf _ => exact hf.attended hx
  | deliver _ hf _ => exact hf.attended hx
  | hear _ hf _ _ _ _ => exact hf.attended hx

namespace Player

variable {p : Player} {agenda later : Orders} {x : CellName}

/-- The player hears one of its cells. -/
theorem perform_hear_own (h : Attended x.reaction (x.rank 1) (p.stage.cell x)) (v : x.Value) :
    perform (.hear x (x.rank 1) v) p = p.reactTo x.reaction x v := by
  rw [Steady.perform_hear_eq (h.hear_own v), Steady.store_cell_self]

/-- The book hears the index. -/
theorem perform_hear_page (h : Attended .runLine 1 p.stage.index) (v : UInt64) :
    perform (.hear .index 0 v) p = (p.openPage, []) := by
  rw [Steady.perform_hear_eq (x := .index) (h.hear_page Nat.zero_lt_one v)]
  rfl

theorem pageDue_openPage (p : Player) : p.openPage.book.pageDue = false := by
  rw [openPage]
  split
  · rfl
  · next h => exact Bool.eq_false_iff.2 h

/-- An observer that is not the player sends no signal. -/
theorem signal?_hear {c : CellName} {id : Nat} (hid : c.IsPlace → c.rank 1 < id)
    (ha : c.IsPlace → Attended c.reaction (c.rank 1) (p.stage.cell c)) (v : c.Value) :
    p.signal? (.hear c id v) = none := by
  cases c with
  | index =>
    refine if_neg fun h => ?_
    obtain ⟨n, hn⟩ := ((ha (.inr rfl)).hear_other (hid (.inr rfl)) v).2.2.2 _ h
    cases hn
  | _ => rfl

end Player

namespace Arranged

variable {p : Player} {agenda later : Orders} {c : Course}

/-- What is due is taken from the loop. -/
theorem runUntil_goes (ht : p.Tame HostCall.KeepsPlace) {target : Nat}
    (hl : ∀ o ∈ Order.runUntil target :: later, o.IsLater) (hq : Closing p.queue) :
    Goes p agenda none ((Machine.step ⟨p, .runUntil target :: later⟩).world,
      (Machine.step ⟨p, .runUntil target :: later⟩).agenda) := by
  have idle (h : ∀ u ∈ p.schedule.loop.timeouts.head?, target < u.deadline) :
      Goes p agenda none ((Machine.step ⟨p, .runUntil target :: later⟩).world,
        (Machine.step ⟨p, .runUntil target :: later⟩).agenda) := by
    rw [Machine.step_runUntil_idle h]
    exact later_goes rfl rfl hq (List.forall_mem_cons.1 hl).2
  cases hu : p.schedule.loop.timeouts with
  | nil => exact idle fun u hm => by rw [hu] at hm; cases hm
  | cons u us =>
    by_cases hd : u.deadline ≤ target
    · rw [Machine.step_runUntil_due hu hd]
      refine loose_goes hq _ (.inr (ht.timeouts u (hu ▸ List.mem_cons_self))) ?_
      exact List.forall_mem_cons.2 ⟨trivial, hl⟩
    · refine idle fun x hx => ?_
      rw [hu] at hx
      cases hx
      exact Nat.lt_of_not_le hd

/-- What comes later is begun. -/
theorem goes_later (hs : Steady 1 ⟨p, agenda⟩ c) (hw : p.Watched) (hl : ∀ o ∈ agenda, o.IsLater)
    (hq : Closing p.queue) :
    Goes p agenda (Machine.signal? ⟨p, agenda⟩)
      ((Machine.step ⟨p, agenda⟩).world, (Machine.step ⟨p, agenda⟩).agenda) := by
  cases agenda with
  | nil => exact later_goes rfl rfl hq hl
  | cons o rest =>
    obtain ⟨ho, hl'⟩ := List.forall_mem_cons.1 hl
    cases o with
    | perform t =>
      rw [Steady.step_perform]
      cases t with
      | hear c id v =>
        have hsig : p.signal? (.hear c id v) = none := signal?_hear ho (fun hc => hs.attended hc) v
        rw [Machine.signal?_perform, hsig]
        exact hear_goes hw ho (fun hc => hs.attended hc) v hl' hq
      | call a d =>
        obtain ⟨rfl, rfl | rfl⟩ := ho
        · have hg : Goes p (.perform (.call .nobody .next) :: rest) (p.active.bind p.handlerSignal?)
              (p.next.1, p.next.2 ++ .perform (.report .nobody .none) :: rest) :=
            next_goes hw (List.forall_mem_cons.2 ⟨rfl, hl'⟩) hq
          rw [List.append_cons] at hg
          exact hg
        · exact later_goes rfl rfl hq (List.forall_mem_cons.2 ⟨trivial,
            List.forall_mem_cons.2 ⟨trivial, List.forall_mem_cons.2 ⟨rfl, hl'⟩⟩⟩)
      | report a x =>
        obtain rfl := ho
        exact later_goes rfl rfl hq hl'
      | note e => exact later_goes rfl rfl hq hl'
      | load => exact load_goes hl' hq
      | _ => exact ho.elim
    | drain =>
      cases hm : p.schedule.loop.microtasks with
      | nil =>
        rw [Machine.step_drain_nil hm]
        exact later_goes rfl rfl hq hl'
      | cons t ts =>
        obtain ⟨c, rfl⟩ := hs.tame.microtasks t (hm ▸ List.mem_cons_self)
        rw [Machine.step_drain_cons hm]
        exact loose_goes hq _ (.inl ⟨c, rfl⟩) hl
    | advance d =>
      refine later_goes rfl rfl hq ?_
      exact List.forall_mem_cons.2 ⟨trivial, List.forall_mem_cons.2 ⟨trivial, hl'⟩⟩
    | depart d => exact later_goes rfl rfl hq (List.forall_mem_cons.2 ⟨trivial, hl'⟩)
    | runUntil target => exact runUntil_goes hs.tame hl hq
    | halt => exact ho.elim

/-- **A step lays the agenda out again.** If no line starts, a hushed player shows no text and stays
hushed, and one that ends its page is hushed from then on. -/
theorem goes (hs : Steady 1 ⟨p, agenda⟩ c) (hb : Machine.Balanced ⟨p, agenda⟩) (hw : p.Watched)
    (ha : Arranged p agenda) (hn : ∀ v rest, agenda ≠ .perform (.hear .index 1 v) :: rest) :
    Goes p agenda (Machine.signal? ⟨p, agenda⟩)
      ((Machine.step ⟨p, agenda⟩).world, (Machine.step ⟨p, agenda⟩).agenda) := by
  cases ha with
  | later hl hq => exact goes_later hs hw hl hq
  | @loose t later ht hl hq =>
    rw [Steady.step_perform]
    rcases ht with ⟨c, rfl⟩ | ht
    · exact deliver_goes (fun hc => hs.attended hc) hl hq
    · cases t with
      | ring k => exact ring_goes hs.tame k hl hq
      | finish t => exact finish_goes hw t hl hq
      | reveal r a =>
        refine actReveal_timed hw ht ?_ hl hq
        rw [hb.holds, owed_cons, owes_of_isTimed ht, owed_later hl]
      | _ => exact ht.elim
  | @hand o hands later ho hr hh hl hq =>
    cases o with
    | perform t =>
      rw [Steady.step_perform]
      cases t with
      | conclude t x =>
        cases x with
        | completed => exact ho.elim
        | pending x => exact conclude_goes t x hh hl hq
      | reveal r a =>
        cases a with
        | release => exact release_goes r hh hl hq
        | _ => exact ho.elim
      | _ => exact ho.elim
    | _ => exact ho.elim
  | @text r a o hands later hd hv ho hr hact hh hl hq =>
    obtain ⟨v, hv, hrun⟩ := hv
    rw [Steady.step_perform]
    exact actReveal_goes hw hd hv hrun ho hr hact hh hl hq
  | @done hands later hbusy hact hh hl hq => exact done_goes hw hbusy hh hl hq
  | @page later v hl hq =>
    have hp : Attended .runLine 1 p.stage.index := hs.attended (.inr rfl)
    have hsig : p.signal? (.hear .index 0 v) = none := by
      rw [signal?, hp.hear_page Nat.zero_lt_one v]
      rfl
    rw [Steady.step_perform, perform_hear_page hp, Machine.signal?_perform, hsig]
    have hi := inside_openPage p
    have hr := reveals_of_inside hi
    have hseat := seat_of_inside hi
    have hq' : Closing p.openPage.queue := by
      rwa [show p.openPage.queue = p.queue from congrArg Seat.queue hseat]
    refine goes_of_eq (.line v (pageDue_openPage p) hl hq') hr (congrArg Seat.active hseat) hq'
      fun o ho => ?_
    rcases List.mem_cons.1 ho with rfl | ho
    · rfl
    · exact (hl o ho).holder?
  | @line later v hdue hl hq => exact absurd rfl (hn v later)
  | @scene later v hl hq =>
    rw [Steady.step_perform]
    have ho : perform (.hear .scene 0 v) p = (p.loadScene v, []) :=
      perform_hear_own (hs.attended (.inl rfl)) v
    rw [ho]
    exact loadScene_goes v hl
  | @jump c later _ hc hl hq =>
    have hsig : p.signal? (.call .nobody c) = none := by
      rcases hc with ⟨s, i, rfl⟩ | ⟨x, v, rfl⟩ <;> rfl
    rw [Steady.step_perform, Machine.signal?_perform, hsig]
    exact jump_goes hc hl

end Arranged

/-! ### The start of a line -/

namespace Player

variable {p : Player} {later : Orders}

namespace Watched

theorem cancelHandler (h : p.Watched) (x : Handler) : (p.cancelHandler x).Watched := by
  cases x with
  | reveal r =>
    rw [Player.cancelHandler]
    split
    · exact h.stopReveal ..
    · exact h
  | host b t => cases b <;> exact h.of_eq rfl rfl
  | _ => exact h.of_eq rfl rfl

theorem interrupt (h : p.Watched) : p.interrupt.Watched := by
  have hd : Watched { p with generation := p.generation + 1, queue := [], active := none } :=
    ⟨h.listeners, h.commands⟩
  unfold Player.interrupt
  dsimp only
  split
  · exact hd.cancelHandler _
  · exact hd

end Watched

/-- **A line starts.** Its first instruction takes the place of the one that was running. -/
theorem runLine_laid (hw : p.Watched) (i : UInt64) (hl : ∀ o ∈ later, o.IsLater)
    (hq : Closing p.queue) :
    Laid (p.lineSignal? i) ((p.runLine i).1, (p.runLine i).2 ++ later) := by
  have stop {q : Player} (h : q.queue = []) : Laid none (q, later) :=
    ⟨.later hl (h ▸ closing_nil), fun h => by cases h⟩
  rw [runLine, lineSignal?]
  by_cases hp : p.phase = .loading
  · rw [if_pos hp, if_pos hp]
    exact ⟨.later hl (queue_trace p .. ▸ hq), fun h => by cases h⟩
  · have hs := seat_interrupt p
    have hempty : p.interrupt.queue = [] := congrArg Seat.queue hs
    rw [if_neg hp, if_neg hp]
    dsimp only
    rw [lines_interrupt]
    cases p.lines with
    | none => exact stop hempty
    | some lines =>
      dsimp only [Option.bind_some]
      cases lines[i.toNat]? with
      | none => exact stop hempty
      | some line =>
        dsimp only [Option.bind_some]
        generalize hd : p.interrupt.trace .engine .trace s!"[{i.toNat}] {line}" = d
        have hds : d.seat = p.seat.interrupt := by
          rw [← hd, seat_trace, hs]
        have hdq : d.queue = [] := congrArg Seat.queue hds
        have hwd : d.Watched := hd ▸ hw.interrupt.trace ..
        have hsur : d.surroundings = p.surroundings := by
          rw [← hd, surroundings_trace, surroundings_interrupt]
        have hstart := runNext_starts
          (p := { d with phase := .executing, queue := d.queue ++ Line.instructions line })
          ⟨hwd.listeners, hwd.commands⟩ (congrArg Seat.active hds)
          (by rw [hdq]; exact Line.closing_tail_instructions line)
        obtain ⟨ha, hpage⟩ := hstart.arranged
          (p := { d with phase := .executing, queue := d.queue ++ Line.instructions line }) .nil hl
        have hsig : nextSignal? { d with
            phase := .executing, queue := d.queue ++ Line.instructions line } =
              (Line.instructions line).head?.bind p.instructionSignal? := by
          rw [← instructionSignal?_congr hsur, nextSignal?, hdq]
          rfl
        rw [hsig] at hpage
        exact ⟨ha, hpage⟩

end Player

end Novella
