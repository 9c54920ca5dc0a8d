import Novella.Proofs.Restore.NewPlayers

/-!
# Restoring determines what follows

When a position is restored the script goes on from there, wherever it has been before. What a
player has done until then leaves traces in it: timers that are still to ring, tickets, numbers that
have been used up, observers, a request for another scene. None of this has a part in what follows.
A player that is at rest becomes one that has its past behind it, and is left with its source, its
settings, the position, and two things that the position does not hold: the lines of the scene, if
it is the one that the player is in, and the delay that the script has set for its texts.

With the lines the player goes to the line at once. Without them the scene has to be loaded first.

## Main definitions

* `Player.Rested` — what a run leaves of a player that is at rest
* `Player.plan` — what decides how the script goes on
* `Player.AtRest` — a player that a run has come to rest with
* `Player.Agrees`, `Player.Has` — what a position does not hold

## Main results

* `Player.Rested.cleared`, `Player.Rested.outset` — what a restoration leaves
* `restored_shows_iff` — players that agree show the same when a position is restored in both
-/

namespace Novella

open Player

/-! ### Requests -/

namespace Course

/-- Scenes that are asked for have a name, and a request is with the player or with its host. -/
structure Regular (c : Course) : Prop where
  /-- A scene that is loaded, or has been, has a name. -/
  named : .scene ∉ c.turns → c.phase = .loading ∨ c.lines.isSome → c.scene ≠ ""
  /-- A request of the player is newer than those that the host has taken. -/
  newer {q r : LoadRequest} : c.loadRequest = some q → r ∈ c.requests → r.version < c.loadVersion
  /-- There is none when there are lines. -/
  served : c.lines.isSome → c.loadRequest = none

variable {c c' : Course} {i : UInt64}

/-- The requests stay with those who have them. -/
def KeepsRequests (c c' : Course) : Prop :=
  c'.loadRequest = c.loadRequest ∧ c'.requests = c.requests

theorem moveTo_keepsRequests (c : Course) (i : UInt64) : c.KeepsRequests (c.moveTo i) := by
  obtain ⟨ts, h, -⟩ := c.moveTo_eq i
  rw [h]
  exact ⟨rfl, rfl⟩

theorem Advances.keepsRequests (h : c.Advances c') : c.KeepsRequests c' := by
  cases h with
  | leave _ => exact moveTo_keepsRequests ..
  | @dispatch i rest _ _ he =>
    cases he with
    | plain => exact ⟨rfl, rfl⟩
    | skip n _ => exact moveTo_keepsRequests { c with queue := rest }.begin _
    | branch _ _ => exact ⟨rfl, rfl⟩

theorem Runs.keepsRequests (h : c.Runs i c') : c.KeepsRequests c' := by
  cases h with
  | defer _ => exact ⟨rfl, rfl⟩
  | stop _ _ => exact ⟨rfl, rfl⟩
  | start _ _ ha => exact ha.keepsRequests

namespace Regular

variable {m : Machine Player Task}

theorem fresh : Regular .fresh := by
  refine ⟨fun _ h => ?_, fun h => ?_, fun h => ?_⟩
  · rcases h with h | h <;> cases h
  · cases h
  · cases h

/-- Nothing is asked for, and the lines stay. -/
theorem of_keepsRequests (h : c.Regular) (hr : c.KeepsRequests c')
    (hn : .scene ∉ c'.turns → c'.phase = .loading ∨ c'.lines.isSome → c'.scene ≠ "")
    (hl : c'.lines = c.lines) (hv : c'.loadVersion = c.loadVersion) : c'.Regular where
  named := hn
  newer hq hmem := by
    rw [hr.1] at hq
    rw [hr.2] at hmem
    rw [hv]
    exact h.newer hq hmem
  served := by
    rw [hl, hr.1]
    exact h.served

/-- A scene that stays keeps its name. -/
theorem of_keepsScene (h : c.Regular) (hk : c.KeepsScene c') (hr : c.KeepsRequests c') :
    c'.Regular := by
  refine h.of_keepsRequests hr (fun ht hp => ?_) hk.lines hk.loadVersion
  rw [hk.scene]
  exact h.named (mt hk.mem_turns.2 ht) (hp.imp hk.phase fun hl => hk.lines ▸ hl)

theorem jump (h : c.Regular) (s : String) (i : UInt64) : (c.jump s i).Regular := by
  obtain ⟨ts, ts', heq, -⟩ := c.jump_eq s i
  have hr : c.KeepsRequests (c.jump s i) := by
    rw [heq]
    exact ⟨rfl, rfl⟩
  by_cases hch : c.scene ≠ s ∨ c.lines = none ∧ c.phase ≠ .loading
  · exact h.of_keepsRequests hr (fun ht => absurd (scene_mem_turns_jump hch) ht) (by rw [heq]; rfl)
      (by rw [heq]; rfl)
  · exact h.of_keepsScene (jump_keepsScene hch) hr

theorem release (h : c.Regular) : c.release.Regular :=
  ⟨h.named, fun hq => (by cases hq), fun _ => rfl⟩

theorem answer (h : c.Regular) {r : LoadRequest} (x : Except SourceError (List String))
    (hr : c.Awaits r → c.loadRequest = none) : (c.answer r x).Regular := by
  unfold Course.answer
  split
  · next ha =>
    cases x with
    | ok lines =>
      have hk := KeepsScene.turn_index { c with lines := some lines, phase := .executing }
      refine ⟨fun ht _ => h.named (mt hk.mem_turns.2 ht) (.inl ha.2), h.newer, fun _ => hr ha⟩
    | error e =>
      exact ⟨fun ht hp => h.named ht (.inr (hp.resolve_left nofun)), h.newer, h.served⟩
  · exact h

theorem step (h : c.Regular) (hb : ∀ {r}, c.Knows r → r.version ≤ c.loadVersion)
    (hm : Moves m c c') : c'.Regular := by
  cases hm with
  | jump _ _ => exact h.jump ..
  | @answer r x c₀ _ _ hr =>
    rcases hr with ⟨hmem, rfl⟩ | ⟨-, rfl⟩
    · refine h.answer x fun ha => ?_
      cases hq : c₀.loadRequest with
      | none => rfl
      | some q => exact absurd ha.1 (Nat.ne_of_lt (h.newer hq hmem))
    · exact h.release.answer x fun _ => rfl
  | @scene ts _ _ =>
    rw [Course.loadScene]
    dsimp only
    split
    · exact ⟨fun _ hp => (by rcases hp with hp | hp <;> cases hp), fun hq => (by cases hq),
        fun _ => rfl⟩
    · next hs =>
      exact ⟨fun _ _ => hs, fun _ hmem => Nat.lt_succ_of_le (hb (.inl hmem)),
        fun hl => (by cases hl)⟩
  | @index ts _ _ ht _ hr =>
    have hts : Regular { c with turns := ts } :=
      ⟨fun hn => h.named (by rw [ht]; simpa using hn), h.newer, h.served⟩
    exact hts.of_keepsScene hr.keepsScene hr.keepsRequests
  | inner _ _ _ hi =>
    have hk := hi.keepsScene
    cases hi with
    | stay => exact h
    | suspend t _ => exact h.of_keepsScene hk ⟨rfl, rfl⟩
    | spent t _ _ => exact h.of_keepsScene hk ⟨rfl, rfl⟩
    | finish _ ha => exact h.of_keepsScene hk ha.keepsRequests
    | take _ => exact ⟨h.named, fun hq => (by cases hq), fun _ => rfl⟩

end Regular

end Course

/-! ### Restorations -/

namespace Player

variable {p q r : Player}

/-- The host and the delay of the text stay, and nothing new is scheduled for later. -/
structure Retains (p q : Player) : Prop where
  /-- The delay that the script has set. -/
  delay : q.delay = p.delay
  /-- The listeners of the host. -/
  listeners : q.listeners = p.listeners
  /-- At most timeouts are taken back. -/
  sound {Q : Task → Prop} : p.schedule.Sound .ring Q → q.schedule.Sound .ring Q

namespace Retains

theorem refl (p : Player) : Retains p p := ⟨rfl, rfl, id⟩

theorem trans (h : Retains p q) (h' : Retains q r) : Retains p r :=
  ⟨h'.delay.trans h.delay, h'.listeners.trans h.listeners, fun hs => h'.sound (h.sound hs)⟩

theorem store (p : Player) (c : CellName) (x : Cell c.Value Reaction × Bool) :
    Retains p (p.store c x) := by
  refine ⟨rfl, rfl, fun hs => ?_⟩
  rw [Player.store]
  dsimp only
  split
  · exact ⟨hs.timers, hs.timeouts, hs.sorted⟩
  · exact hs

theorem write (p : Player) (c : CellName) (v : c.Value) : Retains p (p.write c v) := .store ..

theorem notify (p : Player) (c : CellName) : Retains p (p.notify c) := .store ..

theorem cancelTimer (p : Player) (k : Nat) : Retains p (p.cancelTimer k) :=
  ⟨rfl, rfl, fun hs => hs.cancel k⟩

theorem cancelHandler (p : Player) (x : Handler) : Retains p (p.cancelHandler x) := by
  cases x with
  | timer k => exact .cancelTimer ..
  | reveal r =>
    rw [Player.cancelHandler]
    split
    · unfold stopReveal
      split
      · exact (cancelTimer p _).trans ⟨rfl, rfl, id⟩
      · exact ⟨rfl, rfl, id⟩
    · exact .refl p
  | host b t => cases b <;> exact ⟨rfl, rfl, id⟩
  | _ => exact .refl p

theorem interrupt (p : Player) : Retains p p.interrupt := by
  have hp : Retains p { p with generation := p.generation + 1, queue := [], active := none } :=
    ⟨rfl, rfl, id⟩
  unfold Player.interrupt
  dsimp only
  split
  · exact hp.trans (.cancelHandler ..)
  · exact hp

theorem goto (p : Player) (s : String) (i : UInt64) : Retains p (p.goto s i) := by
  refine (interrupt p).trans ?_
  rw [Player.goto]
  dsimp only
  generalize p.interrupt = q
  split
  · exact (write ..).trans (.write ..)
  · refine Retains.trans ?_ ((write ..).trans (.notify ..))
    split
    · exact .notify ..
    · exact .refl q

theorem restore (p : Player) (c : Context) (v : Progress) : Retains p (p.restore c v) := by
  refine Retains.trans ?_ (.goto (p.present c v) ..)
  exact (write ..).trans <| (write ..).trans <| (write ..).trans <| (write ..).trans <|
    (write ..).trans <| (write ..).trans <| .write ..

end Retains

theorem settings_restore (p : Player) (c : Context) (v : Progress) :
    (p.restore c v).stage.settings.value = p.stage.settings.value := by
  refine (value_goto (p.present c v) (c := .settings) (by decide) ..).trans ?_
  simp (disch := decide) only [present, value_write_of_ne]
  rfl

/-- What a run leaves of a player when nothing is left to do and nothing is out with its host. -/
structure Rested (k : Nat) (p : Player) : Prop where
  /-- Its own observers are in order. -/
  follows : p.Follows k p.course
  /-- Whatever is scheduled has been numbered. -/
  tidy : p.Tidy
  /-- Nothing under way keeps a text. -/
  holds (r : Nat) : p.holds r = 0
  /-- No delivery waits. -/
  microtasks : p.loop.microtasks = []
  /-- All tickets are those of instructions. -/
  tickets : ∀ t ∈ p.live, ∃ g ≤ p.generation, t = .instruction g
  /-- The commands are those of every script. -/
  commands : p.commands = .standard
  /-- The host only watches. -/
  listeners : ∀ l ∈ p.listeners, l.body = []
  /-- Only the last request may be taken. -/
  last {r : LoadRequest} : p.loadRequest = some r → r.version = p.loadVersion
  /-- A scene that is loaded has a name, is asked for, and has no lines yet. -/
  loading : p.phase = .loading → p.stage.scene.value ≠ "" ∧ p.lines = none ∧
    p.loadRequest.map LoadRequest.scene = some p.stage.scene.value
  /-- A scene that has been loaded has a name and the lines that the source gives it. -/
  loaded {lines : List String} : p.lines = some lines → p.stage.scene.value ≠ "" ∧
    p.loadRequest = none ∧ p.source p.stage.scene.value = .ok lines

/-- What decides how the player goes on when a position is restored: nothing of its past, but the
source, the settings and the delay that the script has set. -/
def plan (p : Player) (c : Context) (v : Progress) : Outset where
  source := p.source
  settings := p.stage.settings.value
  delay := p.delay
  context := c
  progress := v
  lines := none
  loading := false
  asked := none
  turns := []

namespace Rested

variable {k : Nat} {c : Context} {v : Progress}

theorem cleared (h : p.Rested k) (c : Context) (v : Progress) : (p.restore c v).Cleared k := by
  have hf := (h.follows.present c v).goto c.scene c.index
  have hkeep := Retains.restore p c v
  have hset := ((Settles.refl h.tidy).present c v).goto c.scene c.index
  have hseat : (p.restore c v).seat = p.seat.interrupt := seat_goto (p.present c v) ..
  have hgen : (p.restore c v).generation = p.generation + 1 := congrArg Seat.generation hseat
  have hlive : (p.restore c v).live = p.live := congrArg Seat.live hseat
  obtain ⟨ds, hds, hext⟩ := extends_restore p h.microtasks c v
  obtain ⟨ts, ts', hjump, -⟩ := p.course.jump_eq c.scene c.index
  have hcourse := hf.course
  rw [hjump] at hcourse
  exact {
    follows := hf.of_eq (fun _ => rfl) rfl rfl
    sound := (hkeep.sound h.tidy).mono fun {t} ht => by
      have ht : p.Numbers t := ht
      unfold Numbers at ht
      split at ht
      · show _ < (p.restore c v).generation
        omega
      · exact ⟨Nat.lt_of_lt_of_le ht.1 hset.size, ht.2⟩
      · exact ht.elim
    microtasks := ⟨ds, fun d hd => (hds d hd).1, by rw [hext.microtasks, h.microtasks]; rfl⟩
    spent := fun {r w} hw => by
      have hr : (p.restore c v).holds r = p.holds r + 0 := hset.holds r
      rw [Player.holds, hw, h.holds] at hr
      exact hr
    queue := congrArg Seat.queue hseat
    active := congrArg Seat.active hseat
    tickets := fun t ht => by
      obtain ⟨g, hg, ht⟩ := h.tickets t (hlive ▸ ht)
      exact ⟨g, by omega, ht⟩
    request := fun {r} hr => by
      have hreq : (p.restore c v).loadRequest = p.loadRequest := congrArg Course.loadRequest hcourse
      have hver : (p.restore c v).loadVersion = p.loadVersion := congrArg Course.loadVersion hcourse
      rw [hver]
      exact h.last (hreq ▸ hr)
    commands := (congrArg Surroundings.commands (surroundings_restore p c v)).trans h.commands
    listeners := fun l hl => h.listeners l (hkeep.listeners ▸ hl) }

theorem outset (h : p.Rested k) (c : Context) (v : Progress) : (p.restore c v).outset =
    { p.plan c v with
      lines := p.lines
      loading := p.phase = .loading
      asked := p.loadRequest.map LoadRequest.scene
      turns := (p.course.jump c.scene c.index).turns } := by
  have hf := (h.follows.present c v).goto c.scene c.index
  have hcourse : (p.restore c v).course = p.course.jump c.scene c.index := hf.course
  have hsur := surroundings_restore p c v
  have hpos := position_restore h.follows c v
  obtain ⟨ts, ts', hjump, -⟩ := p.course.jump_eq c.scene c.index
  have hkept : (p.restore c v).course =
      { p.course.interrupt with
        scene := c.scene
        index := c.index
        turns := (p.course.jump c.scene c.index).turns } := by
    rw [hcourse, hjump]
  rw [Player.outset, plan, Outset.mk.injEq]
  refine ⟨congrArg Surroundings.source hsur, settings_restore p c v,
    (Retains.restore p c v).delay, congrArg Prod.fst hpos, congrArg Prod.snd hpos,
    congrArg Course.lines hkept, ?_, ?_, congrArg Course.turns hkept⟩
  · rw [show (p.restore c v).phase = p.phase from congrArg Course.phase hkept]
  · rw [show (p.restore c v).loadRequest = p.loadRequest from congrArg Course.loadRequest hkept]

end Rested

end Player

/-! ### Letting the script run -/

/-- Time is moved after the microtasks. -/
theorem Machine.leads_settle (p : Player) (rest : Orders) :
    Leads Unseen ⟨p, .settle :: rest⟩ ⟨p, .drain :: .depart 0 :: rest⟩ :=
  .step (.of_stage rfl rfl) .refl

namespace Order.Open

variable {rest : Orders}

theorem nil : Open [] where
  paced := trivial
  head _ hb := absurd hb (Option.not_mem_none _)
  order _ hb := absurd hb List.not_mem_nil

theorem cons {o : Order Task} (h : Open rest) (hd : ¬ o.Departs) (hp : o.IsPending)
    (ho : ∀ σ : Shift, σ.order o = o) : Open (o :: rest) where
  paced := ⟨fun b hb hd' => absurd hd' (h.head b hb), h.paced⟩
  head b hb := Option.some.inj hb ▸ hd
  order b hb := by
    rcases List.mem_cons.1 hb with rfl | hb
    · exact ⟨hp, ho⟩
    · exact h.order b hb

theorem settle (h : Open rest) : Open (.settle :: rest) := h.cons id trivial fun _ => rfl

theorem load (h : Open rest) : Open (.perform .load :: rest) :=
  h.cons id trivial fun _ => rfl

/-- Time is moved after the microtasks. -/
theorem depart (h : Open rest) : Open (.drain :: .depart 0 :: rest) where
  paced := ⟨fun _ _ _ => rfl, fun b hb hd => absurd hd (h.head b hb), h.paced⟩
  head b hb := Option.some.inj hb ▸ id
  order b hb := by
    rcases List.mem_cons.1 hb with rfl | hb
    · exact ⟨trivial, fun _ => rfl⟩
    · rcases List.mem_cons.1 hb with rfl | hb
      · exact ⟨trivial, fun _ => rfl⟩
      · exact h.order b hb

end Order.Open

namespace Player

variable {p q : Player}

/-- The player has the lines of the scene. -/
def Has (p : Player) (s : String) : Prop := p.lines.isSome ∧ p.stage.scene.value = s

namespace Rested

variable {k : Nat} {c : Context} {v : Progress} {rest : Orders} {inputs : List Input}
  {ss : List Sight}

theorem turns (h : p.Rested k) : p.turns = [] := by
  rw [Player.turns, h.microtasks]
  rfl

theorem now_restore (h : p.Rested k) (c : Context) (v : Progress) :
    (p.restore c v).loop.now = p.loop.now :=
  have ⟨_, _, hext⟩ := extends_restore p h.microtasks c v
  hext.now

/-- What is shown after a restoration is shown from the outset. -/
theorem shows_settle (h : p.Rested k) (hr : Order.Open rest) :
    Shows p.loop.now (⟨p.restore c v, .settle :: rest⟩, inputs) ss ↔
      Shows 0 (⟨(p.restore c v).outset.player, .drain :: .depart 0 :: rest⟩, inputs) ss := by
  have hs := (h.cleared c v).shows_outset hr.depart inputs ss
  rw [h.now_restore] at hs
  exact (Machine.shows_of_leads (Machine.leads_settle ..) _ inputs ss).trans hs

/-- In a scene that has its lines the player goes to the line. -/
theorem outset_of_has (h : p.Rested k) (hs : p.Has c.scene) :
    ∃ lines, c.scene ≠ "" ∧ p.source c.scene = .ok lines ∧
      (p.restore c v).outset = (p.plan c v).loaded lines := by
  obtain ⟨hl, hscene⟩ := hs
  obtain ⟨lines, hl⟩ := Option.isSome_iff_exists.1 hl
  obtain ⟨hname, hreq, hsource⟩ := h.loaded hl
  rw [hscene] at hname hsource
  have hphase : p.phase ≠ .loading := fun hp => by
    rw [(h.loading hp).2.1] at hl
    cases hl
  have hturns : (p.course.jump c.scene c.index).turns = [.index] := by
    rcases Course.turns_jump_of_nil (c := p.course) h.turns c.scene c.index with
      ⟨hne | hne, -⟩ | ⟨-, ht⟩
    · exact absurd hscene hne
    · exact absurd (hl.symm.trans hne.1) (by simp)
    · exact ht
  refine ⟨lines, hname, hsource, ?_⟩
  rw [h.outset, hturns, hl, hreq]
  simp [Outset.loaded, hphase]

/-- Anywhere else the player has the scene loaded. -/
theorem shows_of_not_has (h : p.Rested k) (hs : ¬ p.Has c.scene)
    (hr : Order.Open rest) :
    Shows p.loop.now (⟨p.restore c v, .settle :: rest⟩, inputs) ss ↔
      Shows 0 (⟨((p.plan c v).left []).player, .drain :: .depart 0 :: rest⟩, inputs) ss := by
  rw [h.shows_settle hr, h.outset]
  rcases Course.turns_jump_of_nil (c := p.course) h.turns c.scene c.index with
    ⟨-, ht⟩ | ⟨⟨hscene, hl⟩, ht⟩
  · exact Outset.shows_left ht hr.depart
  · have hp : p.phase = .loading := hl.resolve_right fun hl => hs ⟨hl, hscene⟩
    obtain ⟨hname, hlines, hasked⟩ := h.loading hp
    rw [show p.stage.scene.value = c.scene from hscene] at hname hasked
    rw [Outset.shows_index ht hlines hr.depart]
    simp [Outset.left, plan, hlines, hasked, hname, hp]

/-- When the scene is loaded at once, it does not matter whether the player had its lines. -/
theorem shows_served (h : p.Rested k) {lines : List String} (hs : c.scene ≠ "")
    (hl : p.source c.scene = .ok lines)
    (hr : Order.Open rest) :
    Shows p.loop.now (⟨p.restore c v, .settle :: .perform .load :: rest⟩, inputs) ss ↔
      Shows 0 (⟨((p.plan c v).loaded lines).player, .settle :: .perform .load :: rest⟩, inputs)
        ss := by
  by_cases hhas : p.Has c.scene
  · obtain ⟨lines', -, hl', hout⟩ := h.outset_of_has (v := v) hhas
    obtain rfl : lines' = lines := by
      rw [hl] at hl'
      cases hl'
      rfl
    rw [h.shows_settle hr.load, hout]
    exact (Machine.shows_of_leads (Machine.leads_settle ..) 0 inputs ss).symm
  · rw [h.shows_of_not_has hhas hr.load]
    exact Outset.shows_loaded (o := p.plan c v) hs hl hr.load.settle

end Rested

/-! ### Two restorations -/

section Pair

variable {k l : Nat} {c : Context} {v : Progress} {rest : Orders} {inputs : List Input}
  {ss : List Sight}

/-- The players go on in the same way when a position is restored. -/
structure Agrees (p q : Player) : Prop where
  /-- The source of the scenes is the same. -/
  source : p.source = q.source
  /-- The settings are the same. -/
  settings : p.stage.settings.value = q.stage.settings.value
  /-- The delay that the script has set is the same. -/
  delay : p.delay = q.delay

theorem Agrees.plan (h : p.Agrees q) : p.plan c v = q.plan c v := by
  rw [Player.plan, Player.plan, h.source, h.settings, h.delay]

theorem Rested.shows_iff (hp : p.Rested k) (hq : q.Rested l) (ha : p.Agrees q)
    (hs : p.Has c.scene ↔ q.Has c.scene) (hr : Order.Open rest) :
    Shows p.loop.now (⟨p.restore c v, .settle :: rest⟩, inputs) ss ↔
      Shows q.loop.now (⟨q.restore c v, .settle :: rest⟩, inputs) ss := by
  by_cases h : p.Has c.scene
  · obtain ⟨lines, -, hl, hout⟩ := hp.outset_of_has (v := v) h
    obtain ⟨lines', -, hl', hout'⟩ := hq.outset_of_has (v := v) (hs.1 h)
    obtain rfl : lines = lines' := by
      rw [ha.source, hl'] at hl
      cases hl
      rfl
    rw [hp.shows_settle hr, hq.shows_settle hr, hout, hout', ha.plan]
  · rw [hp.shows_of_not_has h hr, hq.shows_of_not_has (mt hs.2 h) hr, ha.plan]

theorem Rested.shows_served_iff (hp : p.Rested k) (hq : q.Rested l) (ha : p.Agrees q)
    (hr : Order.Open rest) :
    Shows p.loop.now (⟨p.restore c v, .settle :: .perform .load :: rest⟩, inputs) ss ↔
      Shows q.loop.now (⟨q.restore c v, .settle :: .perform .load :: rest⟩, inputs) ss := by
  have hsource : p.source c.scene = q.source c.scene := congrFun ha.source c.scene
  by_cases hs : p.Has c.scene ↔ q.Has c.scene
  · exact hp.shows_iff hq ha hs hr.load
  · obtain ⟨lines, hname, hl⟩ : ∃ lines, c.scene ≠ "" ∧ p.source c.scene = .ok lines := by
      by_cases h : p.Has c.scene
      · obtain ⟨lines, hname, hl, -⟩ := hp.outset_of_has (v := v) h
        exact ⟨lines, hname, hl⟩
      · have hh : q.Has c.scene := by
          refine Classical.byContradiction fun hn => hs (iff_of_false h hn)
        obtain ⟨lines, hname, hl, -⟩ := hq.outset_of_has (v := v) hh
        exact ⟨lines, hname, hsource.trans hl⟩
    rw [hp.shows_served hname hl hr, hq.shows_served hname (hsource ▸ hl) hr, ha.plan]

end Pair

end Player

/-! ### Runs that have come to rest -/

/-- All tickets are those of instructions that have been begun. -/
def Course.Instructed (c : Course) : Prop :=
  ∀ t ∈ c.live, ∃ g ≤ c.generation, t = .instruction g

theorem Course.Instructed.step {c c' : Course} {m : Machine Player Task} (h : c.Instructed)
    (hm : Moves m c c') : c'.Instructed := by
  intro t ht
  have ho := hm.onward
  rcases ho.new ht with ht | ⟨rfl, -⟩
  · obtain ⟨g, hg, rfl⟩ := h t ht
    exact ⟨g, Nat.le_trans hg ho.le, rfl⟩
  · exact ⟨c'.generation, Nat.le_refl _, rfl⟩

/-- The player has come to rest in a run in which nothing was put an end to. It has the commands of
every script and the scenes of its source, no callback of its host makes calls, and no request for a
scene is with the host. -/
structure Player.AtRest (p : Player) : Prop where
  /-- It has been reached. -/
  run : ∃ p₀ h, p₀.Begins ∧ Run HostCall.KeepsPlace ⟨p₀, []⟩ h ⟨p, []⟩ ∧
    ∀ n ∈ h, ¬ n.Halts ∧ ∀ x ∈ n.loads?, p.source x.1 = .ok x.2
  /-- No delivery waits. -/
  microtasks : p.loop.microtasks = []
  /-- The commands are those of every script. -/
  commands : p.commands = .standard
  /-- The host only watches. -/
  listeners : ∀ l ∈ p.listeners, l.body = []
  /-- The request for a scene is with the player. -/
  unclaimed : p.phase = .loading → p.loadRequest ≠ none

theorem Player.AtRest.rested {p : Player} (h : p.AtRest) : ∃ k, p.Rested k := by
  obtain ⟨p₀, past, hp₀, hrun, hpast⟩ := h.run
  obtain ⟨k, hs⟩ := hp₀.steady
  obtain ⟨c, hm, hlined, hasked, hregular, hinst⟩ := hrun.invariant
    (I := fun h c => Lined h c ∧ Asked c ∧ c.Regular ∧ c.Instructed) hs
    ⟨.fresh, .fresh, .fresh, fun _ ht => absurd ht List.not_mem_nil⟩
    fun hs ⟨hl, ha, hr, hi⟩ hm hs' =>
      ⟨hl.step hs hm hs', ha.step hm, hr.step hl.bound hm, hi.step hm⟩
  have hf := hm.of_rest.2
  obtain rfl : p.course = c := hf.course
  have hb := hrun.balanced hs hp₀.balanced fun n hn => (hpast n hn).1
  have hturns : p.course.turns = [] := by
    show p.loop.microtasks.flatMap Task.turn = []
    rw [h.microtasks]
    rfl
  have hscene : .scene ∉ p.course.turns := hturns ▸ List.not_mem_nil
  refine ⟨k, hf, hb.tidy, hb.holds, h.microtasks, hinst, h.commands, h.listeners,
    hasked.last, fun hp => ⟨?_, ?_, ?_⟩, fun {lines} hl => ⟨?_, ?_, ?_⟩⟩
  · exact hregular.named hscene (.inl hp)
  · exact hasked.lines hp
  · obtain ⟨r, hr⟩ := Option.ne_none_iff_exists'.1 (h.unclaimed hp)
    rw [hr]
    exact congrArg some (hlined.asked hscene hp (.inr hr) (hasked.last hr))
  · exact hregular.named hscene (.inr (by rw [show p.course.lines = _ from hl]; rfl))
  · exact hregular.served (by rw [show p.course.lines = _ from hl]; rfl)
  · obtain ⟨n, hn, hload⟩ := (hlined.delivered hscene hl).exists_mem
    exact (hpast n hn).2 _ hload

/-! ### The result -/

section

variable {p q : Player}

/-- **A position determines what follows.** -/
theorem restored_shows_iff (hp : p.AtRest) (hq : q.AtRest) (ha : p.Agrees q) (c : Context)
    (v : Progress) (inputs : List Input) (ss : List Sight) :
    ((p.restore c v).position = (c, v) ∧ (q.restore c v).position = (c, v)) ∧
      ((p.Has c.scene ↔ q.Has c.scene) →
        (Shows p.loop.now (⟨p.restore c v, [.settle]⟩, inputs) ss ↔
          Shows q.loop.now (⟨q.restore c v, [.settle]⟩, inputs) ss)) ∧
      (Shows p.loop.now (⟨p.restore c v, [.settle, .perform .load]⟩, inputs) ss ↔
        Shows q.loop.now (⟨q.restore c v, [.settle, .perform .load]⟩, inputs) ss) := by
  obtain ⟨k, hk⟩ := hp.rested
  obtain ⟨l, hl⟩ := hq.rested
  exact ⟨⟨position_restore hk.follows c v, position_restore hl.follows c v⟩,
    fun hs => hk.shows_iff hl ha hs .nil, hk.shows_served_iff hl ha .nil⟩

end

/-! ### What a position does not hold -/

/-- A scene whose first line sets the delay of the text. -/
def slowed : SceneSource := .ofTexts [("a", "!s100\n`ok@")]

/-- The player of the scene after these calls and some steps. -/
def visiting (calls : List HostCall) (n : Nat) : Machine Player Task :=
  ((Player.standard slowed {} { textSpeed := .instant }).called calls).run n

/-- What a short visit leaves is at rest. -/
theorem atRest_visiting {calls : List HostCall} (hc : ∀ c ∈ calls, c.KeepsPlace ∧ c.body = [])
    {n : Nat} (hsource : (visiting calls n).world.source = slowed)
    (hcommands : (visiting calls n).world.commands = .standard)
    (hend : (visiting calls n).agenda.length = 0 ∧
      (visiting calls n).world.loop.microtasks.length = 0 ∧
        (visiting calls n).world.listeners.size = 0 ∧
          ((visiting calls n).world.phase = .loading →
            (visiting calls n).world.loadRequest ≠ none) ∧
            ∀ m ∈ ((Player.standard slowed {} { textSpeed := .instant }).called calls).trail n,
              ¬ m.Halts ∧ ∀ x ∈ m.loads?, slowed x.1 = .ok x.2) :
    (visiting calls n).world.AtRest where
  run := by
    have hr : Run HostCall.KeepsPlace ⟨.standard slowed {} { textSpeed := .instant }, []⟩ _
        (visiting calls n) :=
      Run.calls .start (fun c hmem => .of_body_eq_nil (hc c hmem).1 (hc c hmem).2) n
    have heq : visiting calls n = ⟨(visiting calls n).world, []⟩ := by
      rw [← List.length_eq_zero_iff.1 hend.1]
    rw [heq] at hr
    exact ⟨_, _, .standard .., hr, hsource ▸ hend.2.2.2.2⟩
  microtasks := List.length_eq_zero_iff.1 hend.2.1
  commands := hcommands
  listeners l hl := by
    rw [Array.eq_empty_of_size_eq_zero hend.2.2.1] at hl
    exact absurd hl (Array.not_mem_empty _)
  unclaimed := hend.2.2.2.1

/-- A player that has come to the second line without the first one. -/
def unslowed : Player := (visiting [.goto "a" 1, .serve] 26).world

theorem atRest_unslowed : unslowed.AtRest :=
  atRest_visiting (by simp [HostCall.KeepsPlace, HostCall.body]) rfl rfl (by decide +kernel)

/-- The second line, of which all is shown at once. -/
def okLine : Context := { scene := "a", index := 1 }

/-- What is seen of it. -/
def okSight : Sight := ⟨0, some (.text "ok"), okLine, {}⟩

/-- A player that has read the line to its end. -/
def satisfied : Player := (visiting [.goto "a" 1, .serve, .next, .serve] 40).world

/-- The line has been read before it is restored, and is shown as it is the first time. -/
theorem ok_shown_again :
    satisfied.AtRest ∧ unslowed.Agrees satisfied ∧ (unslowed.Has "a" ↔ satisfied.Has "a") ∧
      Shows satisfied.loop.now (⟨satisfied.restore okLine {}, [.settle]⟩, [.advance 1000])
        [okSight] := by
  have hq : satisfied.AtRest :=
    atRest_visiting (by simp [HostCall.KeepsPlace, HostCall.body]) rfl rfl (by decide +kernel)
  have hsource : unslowed.source = slowed := rfl
  obtain ⟨hsettings, hdelay, hlines, hscene, hlines', hscene'⟩ :
      unslowed.stage.settings.value = satisfied.stage.settings.value ∧
        unslowed.delay = satisfied.delay ∧
        unslowed.lines.isSome = true ∧ unslowed.stage.scene.value = "a" ∧
        satisfied.lines.isSome = true ∧ satisfied.stage.scene.value = "a" := by decide +kernel
  have ha : unslowed.Agrees satisfied := ⟨hsource.trans rfl, hsettings, hdelay⟩
  have hs : unslowed.Has "a" ↔ satisfied.Has "a" :=
    iff_of_true ⟨hlines, hscene⟩ ⟨hlines', hscene'⟩
  exact ⟨hq, ha, hs, ((restored_shows_iff atRest_unslowed hq ha okLine {} [.advance 1000]
    [okSight]).2.1 hs).1 ⟨30, rfl⟩⟩

/-- The players do not show the same when the line is restored in both. -/
def Player.Differs (p q : Player) (orders : Orders) (inputs : List Input) : Prop :=
  ∃ ss, Shows p.loop.now (⟨p.restore okLine {}, orders⟩, inputs) ss ∧
    ¬ Shows q.loop.now (⟨q.restore okLine {}, orders⟩, inputs) ss

/-- A player differs from one that shows the line later. -/
theorem Player.differs_of_late {p q : Player} {orders : Orders} {inputs : List Input}
    (hp : Shows p.loop.now (⟨p.restore okLine {}, orders⟩, inputs) [okSight]) {s : Sight}
    (hs : s.time ≠ 0)
    (hq : Shows q.loop.now (⟨q.restore okLine {}, orders⟩, inputs) [s]) :
    p.Differs q orders inputs := by
  refine ⟨_, hp, fun h => hs ?_⟩
  have heq := h.head_eq hq
  rw [← heq]
  rfl

/-- A player that has come to the second line by the first one. -/
def delayed : Player := (visiting [.goto "a" 0, .serve] 26).world

/-- A player that has not come to the scene. -/
def outside : Player := (visiting [] 0).world

/-- A player that has asked for the scene. -/
def expecting : Player := (visiting [.goto "a" 1, .settle] 20).world

/-- The delay stays when another line is restored, players that have no lines wait for them, and one
that has asked for the scene may get them before it has left it. -/
theorem restored_shows_otherwise :
    (unslowed.AtRest ∧ delayed.AtRest ∧ outside.AtRest ∧ expecting.AtRest) ∧
      (∀ p ∈ [unslowed, delayed, outside, expecting],
        p.source = slowed ∧ p.stage.settings.value = { textSpeed := .instant }) ∧
      unslowed.Differs delayed [.settle] [.advance 200] ∧
      unslowed.Differs outside [.settle] [.advance 100, .load, .advance 100] ∧
      expecting.Differs outside [] [.load, .advance 100, .load, .advance 100] := by
  refine ⟨⟨atRest_unslowed, ?_, ?_, ?_⟩, ?_, ?_, ?_, ?_⟩
  · exact atRest_visiting (by simp [HostCall.KeepsPlace, HostCall.body]) rfl rfl (by decide +kernel)
  · exact atRest_visiting (by simp) rfl rfl (by decide +kernel)
  · exact atRest_visiting (by simp [HostCall.KeepsPlace, HostCall.body]) rfl rfl (by decide +kernel)
  · simp only [List.forall_mem_cons, List.not_mem_nil, false_imp_iff, implies_true, and_true]
    have hsettings : unslowed.stage.settings.value = { textSpeed := .instant } ∧
        delayed.stage.settings.value = { textSpeed := .instant } ∧
        outside.stage.settings.value = { textSpeed := .instant } ∧
        expecting.stage.settings.value = { textSpeed := .instant } := by decide +kernel
    exact ⟨⟨rfl, hsettings.1⟩, ⟨rfl, hsettings.2.1⟩, ⟨rfl, hsettings.2.2.1⟩, rfl,
      hsettings.2.2.2⟩
  · exact differs_of_late (s := ⟨100, some (.text "o"), okLine, {}⟩) ⟨30, rfl⟩ (by decide) ⟨20, rfl⟩
  · exact differs_of_late (s := ⟨100, some (.text "ok"), okLine, {}⟩) ⟨30, rfl⟩ (by decide)
      ⟨50, rfl⟩
  · exact differs_of_late (s := ⟨100, some (.text "ok"), okLine, {}⟩) ⟨40, rfl⟩ (by decide)
      ⟨50, rfl⟩

end Novella
