import Novella.Proofs.Restore.HostView

/-!
# Players without a past

What a player with its past behind it does from then on is what a new player does that has been
given its position, its lines and the deliveries that wait. Here such a player is written down, and
it is let have its turns until it has left its old scene.

## Main definitions

* `Outset`, `Outset.player` — a player that has no past
* `Player.Cleared` — a player whose past has no part in the script any more

## Main results

* `Player.Cleared.matches_outset` — such a player carries one without a past
* `Outset.shows_left` — what leads up to the loading of the scene is not seen
-/

namespace Novella

open Player

/-- What a player without a past is given. -/
structure Outset where
  /-- The source of the scenes. -/
  source : SceneSource
  /-- The settings. -/
  settings : Settings
  /-- The delay that the script has set. -/
  delay : Option Nat
  /-- The place in the script, with what is seen and heard there. -/
  context : Context
  /-- The variables. -/
  progress : Progress
  /-- The lines of the scene. -/
  lines : Option (List String)
  /-- Whether the scene is being loaded. -/
  loading : Bool
  /-- The scene that is asked for. -/
  asked : Option String
  /-- The deliveries of scene and index that wait. -/
  turns : List CellName

/-- A cell that the player alone observes. -/
def Cell.followed {α : Type} (value : α) (r : Reaction) (scheduled : Bool) : Cell α Reaction where
  value := value
  observers := [⟨0, r, fun _ => true, false⟩]
  nextId := 1
  scheduled := scheduled

theorem Attended.followed {α : Type} (value : α) (r : Reaction) (scheduled : Bool) :
    Attended r 0 (Cell.followed value r scheduled) :=
  ⟨⟨[], _, [], rfl, ⟨rfl, by simp⟩, ⟨rfl, rfl, fun _ => rfl, rfl⟩, by simp⟩, Nat.zero_lt_one⟩

namespace Outset

/-- The cells. -/
def stage (o : Outset) : Stage Reaction where
  scene := .followed o.context.scene .loadScene (.scene ∈ o.turns)
  index := .followed o.context.index .runLine (.index ∈ o.turns)
  track := { value := o.context.audio.track }
  loopedEffect := { value := o.context.audio.loopedEffect }
  background := { value := o.context.graphics.background }
  left := { value := o.context.graphics.left }
  center := { value := o.context.graphics.center }
  right := { value := o.context.graphics.right }
  vars := { value := o.progress }
  settings := { value := o.settings }

/-- The player that has no past. -/
def player (o : Outset) : Player where
  schedule := { loop := { microtasks := o.turns.map .deliver } }
  stage := o.stage
  source := o.source
  lines := o.lines
  phase := if o.loading then .loading else .idle
  loadRequest := o.asked.map (⟨·, 0⟩)
  delay := o.delay

end Outset

namespace Player

/-- What is left of the player without its past. -/
def outset (p : Player) : Outset where
  source := p.source
  settings := p.stage.settings.value
  delay := p.delay
  context := p.stage.context
  progress := p.stage.progress
  lines := p.lines
  loading := p.phase = .loading
  asked := p.loadRequest.map LoadRequest.scene
  turns := p.turns

/-- The numbers at which the past of the player ends, if it is observer `k` of the index. -/
def past (p : Player) (k : Nat) : Shift where
  time := p.loop.now
  timer := p.schedule.timers.size
  reveal := p.reveals.size
  generation := p.generation
  request := p.loadVersion
  rank := k
  timeout i := p.loop.nextId + i

/-- The past of the player has no part in the script any more. -/
structure Cleared (k : Nat) (p : Player) : Prop where
  /-- Its own observers are in order. -/
  follows : p.Follows k p.course
  /-- Whatever is scheduled belongs to the past. -/
  sound : p.schedule.Sound .ring (p.past k).IsOld
  /-- At most the presentation is delivered, and then the script has its turns. -/
  microtasks : ∃ ds, (∀ c ∈ ds, ¬ c.IsPlace) ∧
    p.loop.microtasks = (ds ++ p.turns).map .deliver
  /-- Nothing under way keeps a text. -/
  spent {r : Nat} {v : Reveal} : p.reveals[r]? = some v → v.holds = 0
  /-- Nothing is left of the line. -/
  queue : p.queue = []
  /-- Nobody takes the input. -/
  active : p.active = none
  /-- All tickets are those of former instructions. -/
  tickets : ∀ t ∈ p.live, ∃ g < p.generation, t = .instruction g
  /-- Only the last request may be taken. -/
  request {r : LoadRequest} : p.loadRequest = some r → r.version = p.loadVersion
  /-- The commands are those of every script. -/
  commands : p.commands = .standard
  /-- The host only watches. -/
  listeners : ∀ l ∈ p.listeners, l.body = []

namespace Cleared

variable {k : Nat} {p : Player}

theorem schedules (h : p.Cleared k) :
    (p.past k).Schedules p.schedule p.outset.player.schedule where
  size := (Nat.zero_add _).symm
  timers hy := by cases hy
  old _ hx := h.sound.getElem? hx
  timeouts := .strays fun u hu => by
    obtain ⟨hid, ht⟩ := h.sound.timeouts u hu
    refine ⟨?_, fun i => ?_⟩
    · rcases ht with ht | ⟨k, hk, ht⟩
      · exact ht.isStray
      · rw [ht]
        exact hk
    · have hi : u.id < p.loop.nextId := hid
      show u.id ≠ p.loop.nextId + i
      omega
  sorted := h.sound.sorted
  numbered u hu := by cases hu
  mono hij := Nat.add_lt_add_left hij _
  next i := by
    show p.loop.nextId + (0 + i) = p.loop.nextId + i
    rw [Nat.zero_add]
  microtasks := by
    obtain ⟨ds, hds, hm⟩ := h.microtasks
    rw [show p.schedule.loop.microtasks = _ from hm, List.map_append]
    have hpast : Laced (p.past k).task Task.IsOngoing (p.past k).IsStray (ds.map .deliver) [] := by
      refine .strays fun t ht => ?_
      obtain ⟨c, hc, rfl⟩ := List.mem_map.1 ht
      exact hds c hc
    refine hpast.append ?_
    · have hown : ∀ t ∈ p.turns.map Task.deliver, t.IsOngoing := fun t ht => by
        obtain ⟨c, hc, rfl⟩ := List.mem_map.1 ht
        exact Steady.isPlace_of_mem_turns p hc
      have hmap : Laced (p.past k).task Task.IsOngoing (p.past k).IsStray _ _ := .map hown
      rwa [List.map_map] at hmap

theorem cells (h : p.Cleared k) (c : CellName) :
    (p.past k).Cells c (p.stage.cell c) (p.outset.player.stage.cell c) where
  value hc := by cases c <;> first | rfl | exact absurd rfl hc
  attended hc := h.follows.attended hc
  heard hc := by rcases hc with rfl | rfl <;> exact .followed ..
  alone hc := by rcases hc with rfl | rfl <;> rfl
  scheduled hc := by
    have hw := h.follows.waits hc
    rw [Bool.eq_iff_iff, hw]
    rcases hc with rfl | rfl <;> exact decide_eq_true_iff.symm
  unheard hc := by
    cases c <;> first | rfl | exact absurd (.inl rfl) hc | exact absurd (.inr rfl) hc

/-- **The past is over**: the player carries one that has none. -/
theorem matches_outset (h : p.Cleared k) : Matches (p.past k) p p.outset.player where
  schedule := h.schedules
  stage := h.cells
  size := (Nat.zero_add _).symm
  reveals r := Array.getElem?_eq_none (Nat.le_add_left ..)
  spent _ hv := h.spent hv
  lines := rfl
  queue := h.queue
  delay := rfl
  source := rfl
  commands := h.commands
  standard := rfl
  loading := by
    rw [Outset.player, outset]
    by_cases hp : p.phase = .loading <;> simp [hp]
  loadVersion := (Nat.zero_add _).symm
  loadRequest := by
    show _ = ((p.loadRequest.map LoadRequest.scene).map _).map _
    cases hr : p.loadRequest with
    | none => rfl
    | some r => simp [past, ← h.request hr]
  active := h.active
  generation := (Nat.zero_add _).symm
  live t := by
    refine List.count_eq_zero.2 fun hm => ?_
    obtain ⟨g, hg, ht⟩ := h.tickets _ hm
    cases t with
    | instruction g' =>
      have hg' : g' + p.generation = g := Ticket.instruction.inj ht
      omega
    | call k => cases ht
  listeners := h.listeners
  listeners' _ hl := absurd hl (Array.not_mem_empty _)
  now := (Nat.zero_add _).symm

end Cleared

end Player

/-! ### What is shown from the outset -/

theorem Shift.IsOld.mono {σ τ : Shift} {t : Task} (h : σ.IsOld t) (hg : σ.generation ≤ τ.generation)
    (hr : σ.reveal ≤ τ.reveal) : τ.IsOld t := by
  unfold IsOld at h ⊢
  split at h
  · exact Nat.lt_of_lt_of_le h hg
  · exact ⟨Nat.lt_of_lt_of_le h.1 hr, h.2⟩
  · exact h.elim

/-- These orders stay the same after any past, and time does not move first. -/
structure Order.Open (orders : Orders) : Prop where
  /-- Whenever time moves, the microtasks are run just before. -/
  paced : Paced orders
  /-- Time does not move first. -/
  head : ∀ o ∈ orders.head?, ¬ o.Departs
  /-- No number is in them. -/
  order : ∀ o ∈ orders, o.IsPending ∧ ∀ σ : Shift, σ.order o = o

namespace Player.Cleared

variable {k : Nat} {p q : Player}

/-- Generations and requests may come. -/
theorem raise (h : p.Cleared k) (hs : q.schedule = p.schedule) (hst : q.stage = p.stage)
    (hr : q.reveals = p.reveals) (hseat : q.queue = p.queue ∧ q.active = p.active)
    (hg : p.generation ≤ q.generation) (hl : q.live = p.live)
    (hreq : ∀ {r}, q.loadRequest = some r → r.version = q.loadVersion)
    (hhost : q.commands = p.commands ∧ q.listeners = p.listeners) : q.Cleared k where
  follows := h.follows.of_eq (fun _ => by rw [hst]) (by rw [turns, turns, loop, loop, hs]) rfl
  sound := by
    rw [hs]
    exact h.sound.mono fun ht => ht.mono hg (Nat.le_of_eq (congrArg Array.size hr.symm))
  microtasks := by
    rw [turns, loop, hs]
    exact h.microtasks
  spent hv := h.spent (hr ▸ hv)
  queue := hseat.1.trans h.queue
  active := hseat.2.trans h.active
  tickets t ht := by
    obtain ⟨g, hlt, heq⟩ := h.tickets t (hl ▸ ht)
    exact ⟨g, Nat.lt_of_lt_of_le hlt hg, heq⟩
  request := hreq
  commands := hhost.1.trans h.commands
  listeners l hm := h.listeners l (hhost.2 ▸ hm)

/-- **The past is not seen.** -/
theorem shows_outset (h : p.Cleared k) {orders : Orders} (ho : Order.Open orders)
    (inputs : List Input) (ss : List Sight) :
    Shows p.loop.now (⟨p, orders⟩, inputs) ss ↔
      Shows 0 (⟨p.outset.player, orders⟩, inputs) ss := by
  have hc : Machine.Carries (p.past k) ⟨p, orders⟩ ⟨p.outset.player, orders⟩ := by
    have hm := h.matches_outset
    refine ⟨hm.toCarries, ?_, fun _ => hm.now, fun o hmem hd => absurd hd (ho.head o hmem),
      ho.paced⟩
    have hl : Laced (p.past k).order Order.IsPending (p.past k).StraysBy _ _ :=
      .map fun o hmem => (ho.order o hmem).1
    rwa [List.map_congr_left fun o hmem => (ho.order o hmem).2 _, List.map_id'] at hl
  have hs := hc.shows_iff 0 inputs ss
  rwa [Nat.zero_add] at hs

end Player.Cleared

/-- The player has its past behind it, and this is what it is left with. -/
structure Player.IsAt (p : Player) (o : Outset) : Prop where
  /-- The past has no part in the script any more. -/
  cleared : p.Cleared 0
  /-- This is what is left. -/
  outset : p.outset = o
  /-- No time has passed. -/
  now : p.loop.now = 0

theorem Player.IsAt.shows {p : Player} {o : Outset} (h : p.IsAt o) {orders : Orders}
    (ho : Order.Open orders) {inputs : List Input} {ss : List Sight} :
    Shows 0 (⟨p, orders⟩, inputs) ss ↔ Shows 0 (⟨o.player, orders⟩, inputs) ss := by
  have hs := h.cleared.shows_outset ho inputs ss
  rwa [h.now, h.outset] at hs

namespace Outset

variable {o : Outset}

theorem turns_player (hp : ∀ c ∈ o.turns, c.IsPlace) : o.player.turns = o.turns := by
  show (o.turns.map Task.deliver).flatMap Task.turn = _
  rw [flatMap_turn, List.filter_eq_self.2 fun c hc => decide_eq_true (hp c hc)]

/-- A player without a past has its past behind it. -/
theorem cleared (hn : o.turns.Nodup) (hp : ∀ c ∈ o.turns, c.IsPlace) : o.player.Cleared 0 where
  follows := {
    attended := fun hc => by rcases hc with rfl | rfl <;> exact .followed ..
    waits := fun hc => by
      rw [turns_player hp]
      rcases hc with rfl | rfl <;> exact decide_eq_true_iff
    nodup := by
      rw [turns_player hp]
      exact hn
    course := rfl }
  sound := ⟨fun t ht => absurd ht (Array.not_mem_empty _), fun u hu => absurd hu List.not_mem_nil,
    .nil⟩
  microtasks := ⟨[], fun _ hc => absurd hc List.not_mem_nil, by rw [turns_player hp]; rfl⟩
  spent hv := by cases hv
  queue := rfl
  active := rfl
  tickets _ ht := absurd ht List.not_mem_nil
  request hr := by
    obtain ⟨s, -, rfl⟩ := Option.map_eq_some_iff.1 hr
    rfl
  commands := rfl
  listeners _ hl := absurd hl (Array.not_mem_empty _)

end Outset

/-! ### The first turns -/

namespace Outset

variable {o : Outset} {rest : Orders}

/-- The cell that is delivered waits no more. -/
theorem stage_deliver {c : CellName} {ts : List CellName} (hc : c.IsPlace) (ho : o.turns = c :: ts)
    (hts : c ∉ ts) :
    o.stage.withCell c (o.stage.cell c).beginDelivery.1 = { o with turns := ts }.stage := by
  rcases hc with rfl | rfl
  · simp [stage, Stage.withCell, Stage.cell, Cell.beginDelivery, Cell.followed, ho, hts]
  · simp [stage, Stage.withCell, Stage.cell, Cell.beginDelivery, Cell.followed, ho, hts]

/-- The first turn of a player without a past begins. -/
theorem leads_hear {c : CellName} {ts : List CellName} (hc : c.IsPlace) (ho : o.turns = c :: ts)
    (hts : c ∉ ts) (rest : Orders) :
    Leads Machine.Unseen ⟨o.player, .drain :: rest⟩
      ⟨{ o with turns := ts }.player,
        .perform (.hear c 0 (o.stage.cell c).value) :: .drain :: rest⟩ := by
  have hm : o.player.schedule.loop.microtasks = .deliver c :: ts.map .deliver := by
    rw [player, ho]
    rfl
  refine .step Machine.unseen_drain ?_
  rw [Machine.step_drain_cons hm]
  generalize hq : World.withLoop o.player
    { o.player.schedule.loop with microtasks := ts.map .deliver } = q
  have hcell : q.stage.cell c = o.stage.cell c := by
    rw [← hq]
    rfl
  have hstore : q.store c ((o.stage.cell c).beginDelivery.1, false) =
      { o with turns := ts }.player := by
    rw [Player.store, show q.stage = o.stage from hq ▸ rfl, stage_deliver hc ho hts, ← hq]
    rfl
  have hids : (o.stage.cell c).beginDelivery.2 = [0] := by
    rcases hc with rfl | rfl <;> rfl
  have hstep : Machine.step ⟨q, .perform (.deliver c) :: .drain :: rest⟩ =
      ⟨{ o with turns := ts }.player,
        .perform (.hear c 0 (o.stage.cell c).value) :: .drain :: rest⟩ := by
    rw [Steady.step_perform]
    simp only [Player.perform, hcell, hids, hstore, List.map_cons, List.map_nil,
      List.cons_append, List.nil_append]
  have hleads := Leads.one (Q := Machine.Unseen) (m := ⟨q, .perform (.deliver c) :: .drain :: rest⟩)
    ⟨List.cons_ne_nil _ _, rfl, position_store _ _ rfl⟩
  rwa [hstep] at hleads

/-- The player without a past hears the scene. -/
theorem leads_scene {ts : List CellName} (ho : o.turns = .scene :: ts) (hts : .scene ∉ ts)
    (rest : Orders) :
    Leads Machine.Unseen ⟨o.player, .drain :: rest⟩
      ⟨{ o with turns := ts }.player.loadScene o.context.scene, .drain :: rest⟩ := by
  refine (leads_hear (.inl rfl) ho hts rest).trans
    (.step ⟨List.cons_ne_nil _ _, rfl, position_loadScene ..⟩ .refl)

/-- Without lines nothing comes of the index. -/
theorem runLine_of_lines (hl : o.lines = none) (i : UInt64) :
    (o.player.runLine i).2 = [] ∧ (o.player.runLine i).1.position = o.player.position ∧
      o.player.signal? (.hear .index 0 i) = none := by
  obtain ⟨source, settings, delay, context, progress, lines, loading, asked, turns⟩ := o
  obtain rfl : lines = none := hl
  cases loading <;> exact ⟨rfl, rfl, rfl⟩

/-- It hears the index, but has no lines. -/
theorem leads_index {ts : List CellName} (ho : o.turns = .index :: ts) (hts : .index ∉ ts)
    (hl : o.lines = none) (rest : Orders) :
    Leads Machine.Unseen ⟨o.player, .drain :: rest⟩
      ⟨({ o with turns := ts }.player.runLine o.context.index).1, .drain :: rest⟩ := by
  obtain ⟨horders, hpos, hsig⟩ := runLine_of_lines (o := { o with turns := ts }) hl o.context.index
  have hstep : Machine.step ⟨{ o with turns := ts }.player,
      .perform (.hear .index 0 o.context.index) :: .drain :: rest⟩ =
        ⟨({ o with turns := ts }.player.runLine o.context.index).1,
          ({ o with turns := ts }.player.runLine o.context.index).2 ++ .drain :: rest⟩ := rfl
  rw [horders] at hstep
  have hhear : Leads Machine.Unseen ⟨{ o with turns := ts }.player,
      .perform (.hear .index 0 o.context.index) :: .drain :: rest⟩
        ⟨({ o with turns := ts }.player.runLine o.context.index).1, .drain :: rest⟩ := by
    refine .step ⟨List.cons_ne_nil _ _, hsig, ?_⟩ ?_
    · rw [hstep]
      exact hpos
    · rw [hstep]
      exact .refl
  exact (leads_hear (.inr rfl) ho hts rest).trans hhear

theorem outset_player (hp : ∀ c ∈ o.turns, c.IsPlace) : o.player.outset = o := by
  have hturns := turns_player hp
  obtain ⟨source, settings, delay, context, progress, lines, loading, asked, turns⟩ := o
  refine (congrArg (fun ts => Outset.mk source settings delay context progress lines _ _ ts)
    hturns).trans ?_
  rw [mk.injEq]
  refine ⟨rfl, rfl, rfl, rfl, rfl, rfl, ?_, ?_, rfl⟩
  · cases loading <;> rfl
  · cases asked <;> rfl

/-- The player has left the old scene, and asks for the new one if that has a name. These turns are
left. -/
def left (o : Outset) (turns : List CellName) : Outset :=
  { o with
    lines := none
    loading := o.context.scene ≠ ""
    asked := if o.context.scene = "" then none else some o.context.scene
    turns }

/-- A scene is left. -/
theorem isAt_loadScene (hn : o.turns.Nodup) (hp : ∀ c ∈ o.turns, c.IsPlace) :
    (o.player.loadScene o.context.scene).IsAt (o.left o.turns) := by
  have hc := cleared hn hp
  have hturns := turns_player hp
  unfold Player.loadScene left
  by_cases hs : o.context.scene = ""
  · simp only [if_pos hs]
    refine ⟨hc.raise rfl rfl rfl ⟨rfl, rfl⟩ (Nat.zero_le _) rfl (fun hr => by cases hr) ⟨rfl, rfl⟩,
      ?_, rfl⟩
    refine (congrArg (fun ts => { o with
      lines := none, loading := false, asked := none, turns := ts }) hturns).trans ?_
    simp [hs]
  · simp only [if_neg hs]
    refine ⟨hc.raise rfl rfl rfl ⟨rfl, rfl⟩ (Nat.zero_le _) rfl (fun hr => by cases hr; rfl)
      ⟨rfl, rfl⟩, ?_, rfl⟩
    refine (congrArg (fun ts => { o with
      lines := none, loading := true, asked := some o.context.scene, turns := ts }) hturns).trans ?_
    simp [hs]

/-- The index comes to nothing. -/
theorem isAt_runLine (hn : o.turns.Nodup) (hp : ∀ c ∈ o.turns, c.IsPlace) (hl : o.lines = none)
    (i : UInt64) : (o.player.runLine i).1.IsAt o := by
  have hc := cleared hn hp
  have ho := outset_player hp
  obtain ⟨source, settings, delay, context, progress, lines, loading, asked, turns⟩ := o
  obtain rfl : lines = none := hl
  cases loading with
  | true => exact ⟨hc, ho, rfl⟩
  | false =>
    exact ⟨hc.raise rfl rfl rfl ⟨rfl, rfl⟩ (Nat.zero_le _) rfl hc.request ⟨rfl, rfl⟩, ho, rfl⟩

variable {rest : Orders} {inputs : List Input} {ss : List Sight}

/-- The index is heard in vain. -/
theorem shows_index (ho : o.turns = [.index]) (hl : o.lines = none)
    (hr : Order.Open (.drain :: rest)) :
    Shows 0 (⟨o.player, .drain :: rest⟩, inputs) ss ↔
      Shows 0 (⟨{ o with turns := [] }.player, .drain :: rest⟩, inputs) ss := by
  rw [Machine.shows_of_leads (leads_index ho List.not_mem_nil hl rest)]
  exact (isAt_runLine (o := { o with turns := [] }) List.nodup_nil (by simp) hl _).shows hr

/-- The scene is heard, and perhaps the index, in vain. -/
theorem shows_left (ho : o.turns = [.scene] ∨ o.turns = [.scene, .index])
    (hr : Order.Open (.drain :: rest)) :
    Shows 0 (⟨o.player, .drain :: rest⟩, inputs) ss ↔
      Shows 0 (⟨(o.left []).player, .drain :: rest⟩, inputs) ss := by
  rcases ho with ho | ho
  · rw [Machine.shows_of_leads (leads_scene ho List.not_mem_nil rest)]
    exact (isAt_loadScene (o := { o with turns := [] }) List.nodup_nil (by simp)).shows hr
  · rw [Machine.shows_of_leads (leads_scene ho (by decide) rest)]
    rw [(isAt_loadScene (o := { o with turns := [.index] }) (by simp)
      (by simp [CellName.IsPlace])).shows hr]
    exact shows_index rfl rfl hr

/-- The lines of the scene are there. -/
def loaded (o : Outset) (lines : List String) : Outset :=
  { o with lines := some lines, loading := false, asked := none, turns := [.index] }

/-- The source delivers the lines. -/
theorem isAt_load {lines : List String} (hl : o.source o.context.scene = .ok lines) :
    ({ o with
      lines := none
      loading := true
      asked := some o.context.scene
      turns := [] }.player.load.1).IsAt (o.loaded lines) := by
  have hc := cleared (o := o.loaded lines) (by simp [loaded]) (by simp [CellName.IsPlace, loaded])
  unfold Player.load
  simp only [player, takeRequest, Option.map_some, hl]
  exact ⟨hc.raise rfl rfl rfl ⟨rfl, rfl⟩ (Nat.zero_le _) rfl (fun hr => by cases hr) ⟨rfl, rfl⟩,
    rfl, rfl⟩

/-- The scene is loaded. -/
theorem shows_loaded {lines : List String} (hs : o.context.scene ≠ "")
    (hl : o.source o.context.scene = .ok lines)
    (hr : Order.Open (.settle :: .perform .load :: rest)) :
    Shows 0 (⟨(o.left []).player, .drain :: .depart 0 :: .perform .load :: rest⟩, inputs) ss ↔
      Shows 0 (⟨(o.loaded lines).player, .settle :: .perform .load :: rest⟩, inputs) ss := by
  have hleft : o.left [] = { o with
      lines := none, loading := true, asked := some o.context.scene, turns := [] } := by
    simp [left, hs]
  rw [hleft]
  refine Iff.trans (Machine.shows_of_leads ?_ 0 inputs ss) ((isAt_load hl).shows hr)
  generalize hn : ({ o with
    lines := none, loading := true, asked := some o.context.scene, turns := [] } : Outset) = n
  have hstep : Machine.step ⟨n.player, .perform .load :: rest⟩ =
      ⟨n.player.load.1, .settle :: .perform .load :: rest⟩ := by
    rw [← hn]
    rfl
  have hload : Machine.Unseen ⟨n.player, .perform .load :: rest⟩ := by
    refine ⟨List.cons_ne_nil _ _, rfl, ?_⟩
    rw [hstep, ← hn]
    exact position_completeLoad ..
  have hnil : n.player.schedule.loop.microtasks = [] := by
    rw [← hn]
    rfl
  refine .step Machine.unseen_drain ?_
  rw [Machine.step_drain_nil hnil]
  refine .step (.of_stage rfl rfl) (.step Machine.unseen_runUntil (.step hload ?_))
  show Leads _ (Machine.step ⟨n.player, .perform .load :: rest⟩) _
  rw [hstep]
  exact .refl

end Outset

end Novella
