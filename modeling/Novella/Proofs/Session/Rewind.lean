import Novella.Proofs.Player.Quiescence
import Novella.Proofs.Restore.AfterRestore
import Novella.Proofs.Session.Pages

/-!
# Going back to a save

To load a save state the session rewinds its history, brings the position back and jumps to its
line. Nothing runs then until the index is heard. Before that the scene may have to be loaded, and
the index may be heard in vain while this goes on. In either case the page that is due is begun
once, and the first line that starts is the one at the index.

## Main definitions

* `SceneSource.Faithful` — a source whose scenes are always the same
* `Player.Settled` — nothing is left to do for now
* `Leads` — some steps lead from one machine to another
* `Keeps` — a player waits

## Main results

* `Recital.load_rewinds` — loading a save is a rewind
-/

namespace Novella

open Player

/-- Whenever the source delivers a scene its lines are these. -/
def SceneSource.Faithful (text : String → List String) (source : SceneSource) : Prop :=
  ∀ scene lines, source scene = .ok lines → lines = text scene

/-- Nothing is left to do for now: no task waits, no timeout is due and no scene is asked for. -/
structure Player.Settled (p : Player) : Prop where
  /-- No task waits. -/
  microtasks : p.schedule.loop.microtasks = []
  /-- No timeout is due. -/
  ahead : p.loop.Ahead
  /-- No scene is asked for. -/
  loadRequest : p.loadRequest = none

/-! ### Some steps -/

/-- Some steps lead from the first machine to the second, all of them from machines with the
property. -/
inductive Leads (Q : Machine Player Task → Prop) :
    Machine Player Task → Machine Player Task → Prop where
  /-- No step. -/
  | refl {m : Machine Player Task} : Leads Q m m
  /-- A step before others. -/
  | step {m n : Machine Player Task} : Q m → Leads Q m.step n → Leads Q m n

namespace Leads

variable {S : SceneSource → Prop} {Q : Machine Player Task → Prop} {m n l : Machine Player Task}
  {c : Course}

theorem one (h : Q m) : Leads Q m m.step := .step h .refl

theorem trans (h : Leads Q m n) (h' : Leads Q n l) : Leads Q m l := by
  induction h with
  | refl => exact h'
  | step hq _ ih => exact .step hq (ih h')

/-- The number of steps. -/
theorem exists_run (h : Leads Q m n) : ∃ k, m.run k = n ∧ ∀ i < k, Q (m.run i) := by
  induction h with
  | refl => exact ⟨0, rfl, fun i hi => absurd hi (Nat.not_lt_zero i)⟩
  | @step m n hq _ ih =>
    obtain ⟨k, hk, hall⟩ := ih
    refine ⟨k + 1, by rw [Machine.run_succ, hk], fun i hi => ?_⟩
    cases i with
    | zero => exact hq
    | succ i =>
      rw [Machine.run_succ]
      exact hall i (Nat.lt_of_succ_lt_succ hi)

/-- The session goes on being watched. -/
theorem attending (h : Leads Q m n) (ha : ∃ c, Attending S m c) : ∃ c, Attending S n c := by
  induction h with
  | refl => exact ha
  | step _ _ ih =>
    obtain ⟨c, ha⟩ := ha
    obtain ⟨c', -, ha'⟩ := ha.step
    exact ih ⟨c', ha'⟩

end Leads

/-- No line starts, and the history is this one. -/
def Waits (x : History) (m : Machine Player Task) : Prop :=
  m.line? = none ∧ m.world.book.history = x

/-! ### A player that waits -/

/-- What a player shows of itself while others hear its cells. -/
structure View where
  /-- The position. -/
  position : Context × Progress
  /-- The seat. -/
  seat : Seat
  /-- The lines. -/
  lines : Option (List String)
  /-- The source of the scenes. -/
  source : SceneSource
  /-- The request for a scene. -/
  loadRequest : Option LoadRequest
  /-- The number of scenes asked for. -/
  loadVersion : Nat
  /-- The time. -/
  now : Nat
  /-- The timeouts. -/
  timeouts : List (Timeout Task)

namespace Player

variable {p q : Player}

/-- What the player shows of itself. -/
def view (p : Player) : View where
  position := p.position
  seat := p.seat
  lines := p.lines
  source := p.source
  loadRequest := p.loadRequest
  loadVersion := p.loadVersion
  now := p.schedule.loop.now
  timeouts := p.schedule.loop.timeouts

theorem view_of_inside (h : q.inside = p.inside) : q.view = p.view := by
  change q.inside.view = p.inside.view
  rw [h]

theorem ahead_of_view (h : q.view = p.view) (ha : p.loop.Ahead) : q.loop.Ahead := by
  have ht : q.loop.timeouts = p.loop.timeouts := congrArg View.timeouts h
  have hn : q.loop.now = p.loop.now := congrArg View.now h
  rw [Loop.Ahead, ht, hn]
  exact ha

/-- A cell is stored with its value. -/
theorem view_store (p : Player) (c : CellName) {d : Cell c.Value Reaction}
    (hd : d.value = (p.stage.cell c).value) : (p.store c (d, false)).view = p.view :=
  congrArg (fun x => { p.view with position := x }) (position_store p c (x := (d, false)) hd)

theorem book_openPage (p : Player) : p.openPage.book = if p.book.pageDue then
    { p.book with
      history := p.book.history.breakPage (some p.snapshot) .text
      clock := p.book.clock.tick
      pageDue := false } else p.book := by
  rw [openPage]
  split <;> rfl

theorem openPage_of_not_due (h : p.book.pageDue = false) : p.openPage = p := by
  rw [openPage, h]
  rfl

/-- A page that is due is begun in the same way at the same position. -/
theorem book_openPage_congr (hp : q.position = p.position) (hb : q.book = p.book) :
    q.openPage.book = p.openPage.book := by
  obtain ⟨hc, hv⟩ := Prod.mk.inj hp
  have hs : q.snapshot = p.snapshot := by rw [snapshot, snapshot, hc, hv, hb]
  rw [book_openPage, book_openPage, hs, hb]

end Player

/-- The player waits while others hear its cells. -/
structure Keeps (p q : Player) : Prop where
  /-- What it shows of itself. -/
  view : q.view = p.view
  /-- The book. -/
  book : q.book = p.book

namespace Keeps

variable {p q r : Player}

theorem refl (p : Player) : Keeps p p := ⟨rfl, rfl⟩

theorem trans (h : Keeps p q) (h' : Keeps q r) : Keeps p r :=
  ⟨h'.view.trans h.view, h'.book.trans h.book⟩

theorem position (h : Keeps p q) : q.position = p.position := congrArg View.position h.view

theorem phase (h : Keeps p q) : q.phase = p.phase := congrArg (fun v => v.seat.phase) h.view

theorem openPage (h : Keeps p q) : Keeps p.openPage q.openPage := by
  refine ⟨?_, book_openPage_congr h.position h.book⟩
  rw [view_of_inside (inside_openPage p), view_of_inside (inside_openPage q), h.view]

end Keeps

/-! ### Loading a scene -/

/-- The player has left a scene and waits for the lines of another one. -/
structure Asks (scene : String) (p q : Player) : Prop where
  /-- The position. -/
  position : q.position = p.position
  /-- The lines are loaded. -/
  phase : q.phase = .loading
  /-- They are asked for. -/
  loadRequest : q.loadRequest = some ⟨scene, q.loadVersion⟩
  /-- The source of the scenes. -/
  source : q.source = p.source
  /-- The book. -/
  book : q.book = p.book
  /-- At most some timeouts have gone. -/
  loop : p.loop.Extends [] q.loop

/-- The new scene is asked for. -/
theorem Player.asks_loadScene (p : Player) {scene : String} (hs : scene ≠ "") :
    Asks scene p (p.loadScene scene) := by
  have hsur := surroundings_loadScene p scene
  have hi : (p.loadScene scene).inside = { p.interrupt with
      lines := none
      loadVersion := p.interrupt.loadVersion + 1
      loadRequest := some ⟨scene, p.interrupt.loadVersion + 1⟩
      phase := .loading }.inside := by
    rw [loadScene]
    dsimp only
    rw [if_neg hs, inside_trace]
  have hloop := congrArg Player.loop hi
  change (p.loadScene scene).loop = p.interrupt.loop at hloop
  refine ⟨position_loadScene p scene, congrArg (fun p => p.phase) hi, ?_,
    congrArg Surroundings.source hsur, congrArg Surroundings.book hsur, ?_⟩
  · have hr := congrArg (fun p => p.loadRequest) hi
    have hv := congrArg (fun p => p.loadVersion) hi
    change (p.loadScene scene).loadRequest = _ at hr
    change (p.loadScene scene).loadVersion = _ at hv
    rw [hr, hv]
    rfl
  · rw [hloop]
    exact extends_interrupt p

/-- The lines have come, and the index is going to be heard again. -/
theorem Player.completeLoad_ok (p : Player) {r : LoadRequest} (hv : r.version = p.loadVersion)
    (hp : p.phase = .loading) (lines : List String) (hm : p.schedule.loop.microtasks = [])
    (ha : Attended .runLine 1 p.stage.index) (hn : p.stage.index.scheduled = false) :
    ∃ q, p.completeLoad r (.ok lines) = (q, true) ∧ q.position = p.position ∧
      q.lines = some lines ∧ q.phase = .executing ∧ q.book = p.book ∧
        q.schedule.loop.microtasks = [.deliver .index] := by
  rw [completeLoad, if_neg (by simp [hv, hp])]
  dsimp only
  generalize ht : p.trace .engine .info s!"Scene '{r.scene}' loaded ({lines.length} lines)" = t
  have hi : t.inside = p.inside := ht ▸ inside_trace ..
  have hs : t.stage = p.stage := stage_of_inside hi
  have hb : t.book = p.book := ht ▸ congrArg Surroundings.book (surroundings_trace ..)
  have hmt : t.schedule.loop.microtasks = [] :=
    (congrArg (fun p => p.schedule.loop.microtasks) hi).trans hm
  refine ⟨_, rfl, ?_, rfl, rfl, hb, ?_⟩
  · exact (position_store { t with lines := some lines, phase := .executing } .index
      (Cell.value_notify _)).trans (position_of_stage hs)
  · have hnotify : t.stage.index.notify = ({ t.stage.index with scheduled := true }, true) := by
      rw [hs, ha.notify_eq, hn]
      rfl
    show (({ t with lines := some lines, phase := .executing } : Player).store .index
      t.stage.index.notify).schedule.loop.microtasks = _
    rw [hnotify]
    exact congrArg (· ++ [Task.deliver .index]) hmt

/-! ### Deliveries -/

namespace Attending

variable {S : SceneSource → Prop} {p : Player} {m : Machine Player Task} {c : Course}
  {rest os : Orders} {ts : List Task}

/-- Only the player, once it hears the index, starts a line. -/
theorem waits (h : Attending S m c)
    (hn : ∀ v rest, m.agenda = .perform (.hear .index 1 v) :: rest → m.world.phase = .loading) :
    Waits m.world.book.history m := by
  refine ⟨?_, rfl⟩
  cases hl : m.line? with
  | none => rfl
  | some line =>
    obtain ⟨v, rest, ha, -⟩ := h.agenda_of_hears? (Machine.hears?_of_line? hl)
    rw [line?_of_loading (hn v rest ha)] at hl
    cases hl

/-- An observer of the host hears a cell that is not of the settings. -/
theorem book_hear {x : CellName} {id : Nat} {v : x.Value}
    (h : Attending S ⟨p, .perform (.hear x id v) :: rest⟩ c) (hid : x.IsPlace → x.rank 1 < id)
    (hx : x ≠ .settings) : (perform (.hear x id v) p).1.book = p.book := by
  unfold perform
  dsimp only
  split
  · next d r heq =>
    obtain ⟨⟨o, ho, rfl⟩, -, -⟩ := Cell.hear_eq_some heq
    have hr : ∃ n, o.reaction = .listener n := by
      by_cases hp : x.IsPlace
      · exact ((h.steady.attended hp).hear_other (hid hp) v).2.2.2 _ (congrArg Prod.snd heq)
      · exact (h.watching.observers hp o ho).resolve_right fun hs => hx hs.1
    obtain ⟨n, hn⟩ := hr
    have hreact : (p.store x (d, false)).reactTo (.listener n) x v =
        (p.store x (d, false)).react n (.cell x v) := by
      unfold reactTo
      cases x <;> rfl
    rw [hn, hreact]
    exact congrArg Surroundings.book (surroundings_react (p.store x (d, false)) ..)
  · rfl

/-- The observers of the host hear a cell one by one. -/
theorem leads_hears {x : CellName} {v : x.Value} (hx : x ≠ .settings) {ids : List Nat}
    (hids : x.IsPlace → ∀ id ∈ ids, x.rank 1 < id)
    (h : ∃ c, Attending S ⟨p, ids.map (fun id => Order.perform (Task.hear x id v)) ++ rest⟩ c) :
    ∃ q, Leads (Waits p.book.history)
      ⟨p, ids.map (fun id => Order.perform (Task.hear x id v)) ++ rest⟩ ⟨q, rest⟩ ∧ Keeps p q ∧
        q.schedule.loop.microtasks = p.schedule.loop.microtasks := by
  induction ids generalizing p with
  | nil => exact ⟨p, .refl, .refl p, rfl⟩
  | cons id ids ih =>
    obtain ⟨c, h⟩ := h
    have hid (hp : x.IsPlace) : x.rank 1 < id := hids hp id List.mem_cons_self
    obtain ⟨ho, d, hd, hi⟩ := hear_later h.watched hid (fun hp => h.steady.attended hp) v
    have hb := h.book_hear hid hx
    have hw := h.waits fun v' rest' heq => by
      cases heq
      exact absurd (hid (.inr rfl)) (Nat.lt_irrefl 1)
    have hk : Keeps p (perform (.hear x id v) p).1 :=
      ⟨(view_of_inside hi).trans (view_store p x hd), hb⟩
    have hstep : Machine.step ⟨p, .perform (.hear x id v) ::
        (ids.map (fun id => Order.perform (Task.hear x id v)) ++ rest)⟩ =
          ⟨(perform (.hear x id v) p).1,
            ids.map (fun id => Order.perform (Task.hear x id v)) ++ rest⟩ := by
      rw [Steady.step_perform, ho]
      rfl
    obtain ⟨c', -, h'⟩ := h.step
    obtain ⟨q, hq, hkq, hm⟩ := ih (fun hp i hi => hids hp i (List.mem_cons_of_mem _ hi))
      ⟨c', hstep ▸ h'⟩
    refine ⟨q, .step hw ?_, hk.trans hkq, hm.trans ?_⟩
    · rw [hb] at hq
      show Leads _ (Machine.step ⟨p, .perform (.hear x id v) ::
        (ids.map (fun id => Order.perform (Task.hear x id v)) ++ rest)⟩) _
      rw [hstep]
      exact hq
    · exact congrArg (fun p => p.schedule.loop.microtasks) hi

/-- A delivery begins. -/
theorem leads_drain {t : Task} (hts : p.schedule.loop.microtasks = t :: ts)
    (h : ∃ c, Attending S ⟨p, .drain :: rest⟩ c) :
    ∃ q, Leads (Waits p.book.history) ⟨p, .drain :: rest⟩ ⟨q, .perform t :: .drain :: rest⟩ ∧
      Keeps p q ∧ q.stage = p.stage ∧ q.schedule.loop.microtasks = ts := by
  obtain ⟨c, h⟩ := h
  have hw := h.waits fun v rest heq => by cases heq
  refine ⟨World.withLoop p { p.schedule.loop with microtasks := ts }, .step hw ?_, ⟨rfl, rfl⟩, rfl,
    rfl⟩
  rw [Machine.step_drain_cons hts]
  exact .refl

/-- The observers are going to hear a cell. -/
theorem leads_deliver {x : CellName} (h : ∃ c, Attending S ⟨p, .perform (.deliver x) :: rest⟩ c) :
    ∃ q, Leads (Waits p.book.history) ⟨p, .perform (.deliver x) :: rest⟩
      ⟨q, (p.stage.cell x).beginDelivery.2.map
        (fun id => Order.perform (Task.hear x id (p.stage.cell x).value)) ++ rest⟩ ∧
      Keeps p q ∧ q.schedule.loop.microtasks = p.schedule.loop.microtasks := by
  obtain ⟨c, h⟩ := h
  have hw := h.waits fun v rest heq => by cases heq
  exact ⟨_, .one hw, ⟨view_store p x rfl, rfl⟩, rfl⟩

/-- What is shown is delivered to the host. -/
theorem leads_present {x : CellName} (hx : ¬ x.IsPlace) (hs : x ≠ .settings)
    (hts : p.schedule.loop.microtasks = .deliver x :: ts)
    (h : ∃ c, Attending S ⟨p, .drain :: rest⟩ c) :
    ∃ q, Leads (Waits p.book.history) ⟨p, .drain :: rest⟩ ⟨q, .drain :: rest⟩ ∧ Keeps p q ∧
      q.schedule.loop.microtasks = ts := by
  obtain ⟨q₁, hl₁, hk₁, -, hm₁⟩ := leads_drain hts h
  obtain ⟨q₂, hl₂, hk₂, hm₂⟩ := leads_deliver (hl₁.attending h)
  obtain ⟨q₃, hl₃, hk₃, hm₃⟩ := leads_hears hs (fun hp => absurd hp hx)
    (hl₂.attending (hl₁.attending h))
  rw [hk₂.book, hk₁.book] at hl₃
  rw [hk₁.book] at hl₂
  exact ⟨q₃, hl₁.trans (hl₂.trans hl₃), hk₁.trans (hk₂.trans hk₃), hm₃.trans (hm₂.trans hm₁)⟩

/-- All that is shown is delivered to the host, up to the first turn of the script. -/
theorem leads_presented {ds : List Task}
    (hds : ∀ t ∈ ds, ∃ x : CellName, t = .deliver x ∧ ¬ x.IsPlace ∧ x ≠ .settings)
    (hts : p.schedule.loop.microtasks = ds ++ ts)
    (h : ∃ c, Attending S ⟨p, .drain :: rest⟩ c) :
    ∃ q, Leads (Waits p.book.history) ⟨p, .drain :: rest⟩ ⟨q, .drain :: rest⟩ ∧ Keeps p q ∧
      q.schedule.loop.microtasks = ts := by
  induction ds generalizing p with
  | nil => exact ⟨p, .refl, .refl p, hts⟩
  | cons d ds ih =>
    obtain ⟨⟨x, rfl, hx, hs⟩, hrest⟩ := List.forall_mem_cons.1 hds
    obtain ⟨q, hl, hk, hm⟩ := leads_present hx hs hts h
    obtain ⟨r, hl', hk', hm'⟩ := ih hrest hm (hl.attending h)
    rw [hk.book] at hl'
    exact ⟨r, hl.trans hl', hk.trans hk', hm'⟩

/-! ### Turns of the script -/

/-- The index is delivered. First the book hears it and begins the page that is due. -/
theorem leads_index (hts : p.schedule.loop.microtasks = .deliver .index :: ts)
    (h : ∃ c, Attending S ⟨p, .drain :: rest⟩ c) :
    ∃ (q : Player) (ids : List Nat), Leads (Waits p.book.history) ⟨p, .drain :: rest⟩
        ⟨q, .perform (.hear .index 1 p.stage.index.value) ::
          (ids.map (fun id => .perform (.hear .index id p.stage.index.value)) ++
            .drain :: rest)⟩ ∧
      Keeps p.openPage q ∧ q.schedule.loop.microtasks = ts ∧ ∀ id ∈ ids, 1 < id := by
  obtain ⟨q₁, hl₁, hk₁, hs₁, hm₁⟩ := leads_drain hts h
  obtain ⟨c₁, h₁⟩ := hl₁.attending h
  obtain ⟨ids, hids, hother⟩ := (h₁.steady.attended (x := .index) (.inr rfl)).ids
  obtain ⟨q₂, hl₂, hk₂, hm₂⟩ := leads_deliver ⟨c₁, h₁⟩
  obtain ⟨c₂, h₂⟩ := hl₂.attending ⟨c₁, h₁⟩
  have hv : (q₁.stage.cell .index).value = p.stage.index.value := congrArg (·.index.value) hs₁
  have hb : (q₁.stage.cell .index).beginDelivery.2 = [0, 1] ++ ids := hids
  rw [hb, hv] at hl₂ h₂
  rw [hk₁.book] at hl₂
  obtain ⟨-, -, hstep⟩ := h₂.step_page (v := p.stage.index.value) rfl
  have hw := h₂.waits fun v rest heq => by cases heq
  have hl₃ := Leads.one hw
  rw [hstep] at hl₃
  rw [show q₂.book = p.book from hk₂.book.trans hk₁.book] at hl₃
  have hi := inside_openPage q₂
  refine ⟨q₂.openPage, ids, hl₁.trans (hl₂.trans hl₃), ?_, ?_, hother⟩
  · exact (hk₁.trans hk₂).openPage
  · exact (congrArg (fun p => p.schedule.loop.microtasks) hi).trans (hm₂.trans hm₁)

/-- The scene is delivered, and asked for. -/
theorem leads_scene (hts : p.schedule.loop.microtasks = .deliver .scene :: ts)
    (hs : p.stage.scene.value ≠ "") (h : ∃ c, Attending S ⟨p, .drain :: rest⟩ c) :
    ∃ p' p'' q : Player, Leads (Waits p.book.history) ⟨p, .drain :: rest⟩ ⟨q, .drain :: rest⟩ ∧
      Keeps p p' ∧ Asks p.stage.scene.value p' p'' ∧ Keeps p'' q ∧
        q.schedule.loop.microtasks = ts := by
  obtain ⟨q₁, hl₁, hk₁, hs₁, hm₁⟩ := leads_drain hts h
  obtain ⟨c₁, h₁⟩ := hl₁.attending h
  obtain ⟨ids, hids, hother⟩ := (h₁.steady.attended (x := .scene) (.inl rfl)).ids
  obtain ⟨q₂, hl₂, hk₂, hm₂⟩ := leads_deliver ⟨c₁, h₁⟩
  obtain ⟨c₂, h₂⟩ := hl₂.attending ⟨c₁, h₁⟩
  have hv : (q₁.stage.cell .scene).value = p.stage.scene.value := congrArg (·.scene.value) hs₁
  have hb : (q₁.stage.cell .scene).beginDelivery.2 = [0] ++ ids := hids
  rw [hb, hv] at hl₂ h₂
  rw [hk₁.book] at hl₂
  have hown : perform (.hear .scene 0 p.stage.scene.value) q₂ =
      (q₂.loadScene p.stage.scene.value, []) :=
    perform_hear_own (x := .scene) (h₂.steady.attended (.inl rfl)) _
  have hl₃ := Leads.one (h₂.waits fun v rest heq => by cases heq)
  have hstep : Machine.step ⟨q₂, .perform (.hear .scene 0 p.stage.scene.value) ::
      (ids.map (fun id => .perform (.hear .scene id p.stage.scene.value)) ++ .drain :: rest)⟩ =
        ⟨q₂.loadScene p.stage.scene.value,
          ids.map (fun id => .perform (.hear .scene id p.stage.scene.value)) ++
            .drain :: rest⟩ := by
    rw [Steady.step_perform, hown]
    rfl
  have hasks := q₂.asks_loadScene hs
  rw [show q₂.book = p.book from hk₂.book.trans hk₁.book] at hl₃
  have hl₃' : Leads (Waits p.book.history) _ _ := hstep ▸ hl₃
  obtain ⟨q, hl₄, hk₄, hm₄⟩ := leads_hears (x := .scene) (by decide) (fun _ => hother)
    (hl₃'.attending ⟨c₂, h₂⟩)
  rw [hasks.book, hk₂.book, hk₁.book] at hl₄
  exact ⟨q₂, _, q, hl₁.trans (hl₂.trans (hl₃'.trans hl₄)), hk₁.trans hk₂, hasks, hk₄,
    hm₄.trans (hasks.loop.microtasks.trans ((List.append_nil _).trans (hm₂.trans hm₁)))⟩

/-- The index is heard in vain while the scene is loaded. -/
theorem leads_deferred (hp : p.phase = .loading) {v : UInt64} {ids : List Nat}
    (hids : ∀ id ∈ ids, 1 < id)
    (h : ∃ c, Attending S ⟨p, .perform (.hear .index 1 v) ::
      (ids.map (fun id => Order.perform (Task.hear .index id v)) ++ rest)⟩ c) :
    ∃ q, Leads (Waits p.book.history) ⟨p, .perform (.hear .index 1 v) ::
        (ids.map (fun id => Order.perform (Task.hear .index id v)) ++ rest)⟩ ⟨q, rest⟩ ∧ Keeps p q ∧
      q.schedule.loop.microtasks = p.schedule.loop.microtasks := by
  obtain ⟨c, h⟩ := h
  have hown : perform (.hear .index 1 v) p = p.runLine v :=
    perform_hear_own (x := .index) (h.steady.attended (.inr rfl)) v
  have hrun : p.runLine v = (p.trace .engine .trace
      s!"Line {v.toNat} deferred until the scene has loaded", []) := by
    rw [runLine, if_pos hp]
  have hl := Leads.one (h.waits fun v rest _ => hp)
  rw [Steady.step_perform, hown, hrun] at hl
  generalize hq : p.trace .engine .trace
    s!"Line {v.toNat} deferred until the scene has loaded" = q at hl
  have hi : q.inside = p.inside := hq ▸ inside_trace ..
  have hb : q.book = p.book := hq ▸ congrArg Surroundings.book (surroundings_trace ..)
  obtain ⟨r, hl', hk, hm⟩ := leads_hears (x := .index) (by decide) (fun _ => hids)
    (hl.attending ⟨c, h⟩)
  rw [hb] at hl'
  exact ⟨r, hl.trans hl', ⟨hk.view.trans (view_of_inside hi), hk.book.trans hb⟩,
    hm.trans (congrArg (fun p => p.schedule.loop.microtasks) hi)⟩

/-- Nothing is due. -/
theorem leads_depart (hm : p.schedule.loop.microtasks = [])
    (ht : p.loop.Ahead) (h : ∃ c, Attending S ⟨p, .drain :: .depart 0 :: rest⟩ c) :
    Leads (Waits p.book.history) ⟨p, .drain :: .depart 0 :: rest⟩ ⟨p, rest⟩ := by
  obtain ⟨c, h⟩ := h
  have hl := Leads.one (h.waits fun v rest heq => by cases heq)
  rw [Machine.step_drain_nil hm] at hl
  obtain ⟨c₁, h₁⟩ := hl.attending ⟨c, h⟩
  have hl₁ := Leads.one (h₁.waits fun v rest heq => by cases heq)
  obtain ⟨c₂, h₂⟩ := hl₁.attending ⟨c₁, h₁⟩
  have hl₂ := Leads.one (h₂.waits fun v rest heq => by cases heq)
  have hstep : Machine.step ⟨p, .runUntil (p.schedule.loop.now + 0) :: rest⟩ = ⟨p, rest⟩ :=
    Machine.step_runUntil_idle fun u hu => ht u (List.mem_of_mem_head? hu)
  refine hl.trans (hl₁.trans ?_)
  rw [← hstep]
  exact hl₂

/-- The lines of the scene come. -/
theorem leads_load {r : LoadRequest} {lines : List String} (hr : p.loadRequest = some r)
    (hv : r.version = p.loadVersion) (hp : p.phase = .loading)
    (hs : p.source r.scene = .ok lines) (hm : p.schedule.loop.microtasks = [])
    (h : ∃ c, Attending S ⟨p, .perform .load :: rest⟩ c) :
    ∃ q, Leads (Waits p.book.history) ⟨p, .perform .load :: rest⟩
        ⟨q, .drain :: .depart 0 :: .perform .load :: rest⟩ ∧
      q.position = p.position ∧ q.lines = some lines ∧ q.phase ≠ .loading ∧ q.book = p.book ∧
        q.schedule.loop.microtasks = [.deliver .index] := by
  obtain ⟨c, h⟩ := h
  have hf : p.Follows 1 c := h.steady.follows rfl (fun _ h => by cases h) fun _ _ _ h => by cases h
  have hnot : p.stage.index.scheduled = false := by
    rw [← Bool.not_eq_true]
    refine fun hsched => ?_
    have hmem := (hf.waits (x := .index) (.inr rfl)).1 hsched
    rw [turns, loop, hm] at hmem
    exact absurd hmem List.not_mem_nil
  obtain ⟨q, hq, hpos, hlines, hphase, hb, hmq⟩ := completeLoad_ok { p with loadRequest := none } hv
    hp lines hm (hf.attended (x := .index) (.inr rfl)) hnot
  have hload : perform .load p = (q, [.settle, .perform .load]) := by
    rw [perform, load, takeRequest, hr]
    dsimp only
    rw [hs, hq]
  have hl := Leads.one (h.waits fun v rest heq => by cases heq)
  rw [Steady.step_perform, hload] at hl
  obtain ⟨c₁, h₁⟩ := hl.attending ⟨c, h⟩
  have hl₁ := Leads.one (h₁.waits fun v rest heq => by cases heq)
  rw [hb] at hl₁
  refine ⟨q, hl.trans hl₁, hpos, hlines, ?_, hb, hmq⟩
  rw [hphase]
  exact Phase.noConfusion

/-- A position is restored, and the loop turns. -/
theorem leads_restore {x : Context} {v : Progress}
    (h : ∃ c, Attending S ⟨p, [Session.silently (.restore x v), Session.serve]⟩ c) :
    Leads (Waits p.book.history) ⟨p, [Session.silently (.restore x v), Session.serve]⟩
      ⟨p.restore x v, [.drain, .depart 0, .perform .load, .perform (.report .nobody .none)]⟩ := by
  have hb : (p.restore x v).book = p.book := congrArg Surroundings.book (surroundings_restore p x v)
  obtain ⟨c, h⟩ := h
  have hl := Leads.one (h.waits fun v rest heq => by cases heq)
  obtain ⟨c₁, h₁⟩ := hl.attending ⟨c, h⟩
  have hl₁ := Leads.one (h₁.waits fun v rest heq => by cases heq)
  obtain ⟨c₂, h₂⟩ := hl₁.attending ⟨c₁, h₁⟩
  have hl₂ := Leads.one (h₂.waits fun v rest heq => by cases heq)
  obtain ⟨c₃, h₃⟩ := hl₂.attending ⟨c₂, h₂⟩
  have hl₃ := Leads.one (h₃.waits fun v rest heq => by cases heq)
  exact hl.trans (hb ▸ hl₁.trans (hl₂.trans hl₃))

end Attending


/-! ### Routes -/

/-- The line at the save state is the one that starts next, or there is none. -/
structure Machine.Arrives (m : Machine Player Task) (x : SaveState) (lines : List String) :
    Prop where
  /-- The index is heard. -/
  hears : m.hears? = some .index
  /-- The line of the save state, if it exists, is the one that starts. -/
  line : m.line? = lines[x.context.index.toNat]?
  /-- The player is at the position of the save state. -/
  position : m.world.position = (x.context, x.progress)
  /-- No page is due. -/
  pageDue : m.world.book.pageDue = false

/-- The player waits for the lines of the scene of the save state. -/
structure Player.Loads (p : Player) (x : SaveState) (lines : List String) : Prop where
  /-- It is at the position. -/
  position : p.position = (x.context, x.progress)
  /-- The lines are loaded. -/
  phase : p.phase = .loading
  /-- They are asked for. -/
  loadRequest : p.loadRequest = some ⟨x.context.scene, p.loadVersion⟩
  /-- They are going to come. -/
  source : p.source x.context.scene = .ok lines
  /-- No timeout is due. -/
  ahead : p.loop.Ahead

/-- The position of the save state has been restored, and what was shown has been delivered. -/
structure Player.Restores (p : Player) (x : SaveState) (q : Player) : Prop where
  /-- The player is at the position. -/
  position : q.position = (x.context, x.progress)
  /-- The book stays as it is. -/
  book : q.book = p.book
  /-- Scenes come from the same source. -/
  source : q.source = p.source
  /-- The player still has the lines that it had. -/
  lines : q.lines = p.lines
  /-- It is where it was. -/
  phase : q.phase = p.phase
  /-- The script has the turns of a jump. -/
  microtasks : q.schedule.loop.microtasks =
    (p.course.jump x.context.scene x.context.index).turns.map .deliver
  /-- No timeout falls due. -/
  ahead : p.loop.Ahead → q.loop.Ahead

theorem Player.Loads.of_view {p q : Player} {x : SaveState} {lines : List String}
    (h : p.Loads x lines) (hv : q.view = p.view) : q.Loads x lines := by
  have hr : q.loadRequest = p.loadRequest := congrArg View.loadRequest hv
  have hn : q.loadVersion = p.loadVersion := congrArg View.loadVersion hv
  have hs : q.source = p.source := congrArg View.source hv
  refine ⟨(congrArg View.position hv).trans h.position,
    (congrArg (fun v => v.seat.phase) hv).trans h.phase, ?_, ?_, ahead_of_view hv h.ahead⟩
  · rw [hr, hn]
    exact h.loadRequest
  · rw [hs]
    exact h.source

/-- The page that is due begins, and then the line at the save state is the first one to start. The
histories are those before and after the page begins. -/
def Resumes (h h' : History) (x : SaveState) (lines : List String) (m : Machine Player Task) :
    Prop :=
  ∃ m₁ m₂, Leads (Waits h) m m₁ ∧ Leads (Waits h') m₁ m₂ ∧ m₂.Arrives x lines ∧
    m₂.world.book.history = h'

theorem Leads.resumes {h h' : History} {x : SaveState} {lines : List String}
    {m n : Machine Player Task} (hl : Leads (Waits h) m n) (hr : Resumes h h' x lines n) :
    Resumes h h' x lines m := by
  obtain ⟨m₁, m₂, hl₁, hl₂, ha, hh⟩ := hr
  exact ⟨m₁, m₂, hl.trans hl₁, hl₂, ha, hh⟩

namespace Attending

variable {S : SceneSource → Prop} {p : Player} {x : SaveState} {lines : List String} {c : Course}
  {rest : Orders} {ts : List Task}

/-- The index is delivered when the lines are there. -/
theorem leads_arrives (hts : p.schedule.loop.microtasks = .deliver .index :: ts)
    (hpos : p.position = (x.context, x.progress)) (hlines : p.lines = some lines)
    (hphase : p.phase ≠ .loading) (h : ∃ c, Attending S ⟨p, .drain :: rest⟩ c) :
    ∃ m, Leads (Waits p.book.history) ⟨p, .drain :: rest⟩ m ∧ m.Arrives x lines ∧
      m.world.book = p.openPage.book := by
  obtain ⟨q, ids, hl, hk, -, -⟩ := leads_index hts h
  obtain ⟨c, ha⟩ := hl.attending h
  have hi := inside_openPage p
  have hv : q.view = p.view := hk.view.trans (view_of_inside hi)
  have hindex : p.stage.index.value = x.context.index :=
    congrArg (fun y => y.1.index) hpos
  have hd : q.book.pageDue = false := hk.book ▸ pageDue_openPage p
  refine ⟨_, hl, ⟨ha.hears?_line rfl, ?_, (congrArg View.position hv).trans hpos, hd⟩, hk.book⟩
  have hown := (ha.steady.attended (x := .index) (.inr rfl)).hear_own p.stage.index.value
  have hq : q.phase ≠ .loading := by
    rw [show q.phase = p.phase from congrArg (fun v => v.seat.phase) hv]
    exact hphase
  have hql : q.lines = some lines := (congrArg View.lines hv).trans hlines
  rw [Machine.line?]
  refine (if_pos ⟨congrArg Prod.snd hown, hq⟩).trans ?_
  rw [hql, hindex]
  rfl

/-- The scene of the save state is loaded, and then the index is delivered. -/
theorem leads_reload (hp : p.Loads x lines) (hm : p.schedule.loop.microtasks = [])
    (h : ∃ c, Attending S ⟨p, .drain :: .depart 0 :: .perform .load :: rest⟩ c) :
    ∃ m, Leads (Waits p.book.history) ⟨p, .drain :: .depart 0 :: .perform .load :: rest⟩ m ∧
      m.Arrives x lines ∧ m.world.book = p.openPage.book := by
  have hl := leads_depart hm hp.ahead h
  obtain ⟨q, hl₁, hpos, hlines, hphase, hb, hmq⟩ := leads_load hp.loadRequest rfl hp.phase hp.source
    hm (hl.attending h)
  obtain ⟨m, hl₂, ha, hbm⟩ := leads_arrives hmq (hpos.trans hp.position) hlines hphase
    (hl₁.attending (hl.attending h))
  rw [hb] at hl₂
  exact ⟨m, hl.trans (hl₁.trans hl₂), ha, hbm.trans (book_openPage_congr hpos hb)⟩

/-- The way by the scene. If the index is delivered before the lines come it is heard in vain, but
the page begins then. -/
theorem resumes_of_scene (hpos : p.position = (x.context, x.progress)) (hs : x.context.scene ≠ "")
    (hsource : p.source x.context.scene = .ok lines) (hahead : p.loop.Ahead)
    (hts : p.schedule.loop.microtasks = .deliver .scene :: ts)
    (hturns : ts = [] ∨ ts = [.deliver .index])
    (h : ∃ c, Attending S ⟨p, .drain :: .depart 0 :: .perform .load :: rest⟩ c) :
    Resumes p.book.history p.openPage.book.history x lines
      ⟨p, .drain :: .depart 0 :: .perform .load :: rest⟩ := by
  have hscene : p.stage.scene.value = x.context.scene := congrArg (fun y => y.1.scene) hpos
  obtain ⟨p', p'', q, hl, hk, hasks, hk', hmq⟩ := leads_scene hts (hscene ▸ hs) h
  rw [hscene] at hasks
  have hsource' : p''.source = p.source := hasks.source.trans (congrArg View.source hk.view)
  have hahead' : p''.loop.Ahead := hasks.loop.ahead (ahead_of_view hk.view hahead)
  have hload : p''.Loads x lines :=
    ⟨(hasks.position.trans hk.position).trans hpos, hasks.phase, hasks.loadRequest,
      hsource' ▸ hsource, hahead'⟩
  have hload := hload.of_view hk'.view
  have hb : q.book = p.book := hk'.book.trans (hasks.book.trans hk.book)
  have hopen : q.openPage.book = p.openPage.book :=
    book_openPage_congr (hload.position.trans hpos.symm) hb
  refine hl.resumes ?_
  rcases hturns with rfl | rfl
  · obtain ⟨m, hl', ha, hbm⟩ := leads_reload hload hmq (hl.attending h)
    rw [hb] at hl'
    exact ⟨m, m, hl', .refl, ha, congrArg Book.history (hbm.trans hopen)⟩
  · obtain ⟨r, ids, hl₁, hk₁, hm₁, hids⟩ := leads_index hmq (hl.attending h)
    have hload₁ := (hload.of_view (view_of_inside (inside_openPage q))).of_view hk₁.view
    obtain ⟨t, hl₂, hk₂, hm₂⟩ := leads_deferred hload₁.phase hids (hl₁.attending (hl.attending h))
    obtain ⟨m, hl₃, ha, hbm⟩ := leads_reload (hload₁.of_view hk₂.view) (hm₂.trans hm₁)
      (hl₂.attending (hl₁.attending (hl.attending h)))
    have hbt : t.book = p.openPage.book := hk₂.book.trans (hk₁.book.trans hopen)
    have hbr : r.book = p.openPage.book := hk₁.book.trans hopen
    rw [hb] at hl₁
    rw [hbr] at hl₂
    rw [hbt] at hl₃
    refine ⟨_, m, hl₁, hl₂.trans hl₃, ha, congrArg Book.history (hbm.trans ?_)⟩
    rw [openPage_of_not_due (hbt ▸ pageDue_openPage p), hbt]

/-- A position is restored and the presentation is delivered. What is left are the turns of the
jump. -/
theorem leads_restored (hm : p.schedule.loop.microtasks = [])
    (h : ∃ c, Attending S
      ⟨p, [Session.silently (.restore x.context x.progress), Session.serve]⟩ c) :
    ∃ q, Leads (Waits p.book.history)
        ⟨p, [Session.silently (.restore x.context x.progress), Session.serve]⟩
        ⟨q, [.drain, .depart 0, .perform .load, .perform (.report .nobody .none)]⟩ ∧
      p.Restores x q := by
  have hl := leads_restore h
  obtain ⟨c, ha⟩ := h
  have hf : p.Follows 1 c := ha.steady.follows rfl (fun _ h => by cases h) fun _ _ _ h => by cases h
  have hr : (p.restore x.context x.progress).Follows 1 (c.jump x.context.scene x.context.index) :=
    (hf.present ..).goto ..
  have hsur := surroundings_restore p x.context x.progress
  obtain ⟨ds, hds, he⟩ := extends_restore p hm x.context x.progress
  have hmr : (p.restore x.context x.progress).schedule.loop.microtasks =
      ds.map .deliver ++ (c.jump x.context.scene x.context.index).turns.map .deliver := by
    rw [← hr.turns_eq, ← List.map_append]
    exact he.microtasks.trans (congrArg (· ++ _) hm)
  have hdeliver : ∀ t ∈ ds.map Task.deliver, ∃ d : CellName, t = .deliver d ∧ ¬ d.IsPlace ∧
      d ≠ .settings := by
    intro t ht
    obtain ⟨d, hd, rfl⟩ := List.mem_map.1 ht
    exact ⟨d, rfl, hds d hd⟩
  obtain ⟨q, hl', hk, hmq⟩ := leads_presented hdeliver hmr (hl.attending ⟨c, ha⟩)
  rw [show (p.restore x.context x.progress).book = p.book from congrArg Surroundings.book hsur]
    at hl'
  obtain ⟨ts, ts', hj, -, -⟩ := c.jump_eq x.context.scene x.context.index
  have hcourse := hj ▸ hr.course
  refine ⟨q, hl.trans hl', ?_, ?_, ?_, ?_, ?_, ?_, ?_⟩
  · exact hk.position.trans (position_restore hf x.context x.progress)
  · exact hk.book.trans (congrArg Surroundings.book hsur)
  · exact (congrArg View.source hk.view).trans (congrArg Surroundings.source hsur)
  · rw [show q.lines = (p.restore x.context x.progress).lines from congrArg View.lines hk.view,
      show (p.restore x.context x.progress).lines = c.lines from congrArg Course.lines hcourse,
      ← hf.course]
    rfl
  · rw [hk.phase,
      show (p.restore x.context x.progress).phase = c.phase from congrArg Course.phase hcourse,
      ← hf.course]
    rfl
  · rw [hf.course]
    exact hmq
  · exact fun ht => ahead_of_view hk.view (he.ahead ht)

/-- After a restoration the way goes by the scene, unless its lines are there. -/
theorem resumes_restore (hm : p.schedule.loop.microtasks = []) (ht : p.loop.Ahead)
    (hphase : p.phase ≠ .loading)
    (hlines : ∀ l, p.stage.scene.value = x.context.scene → p.lines = some l → l = lines)
    (hs : x.context.scene ≠ "") (hsource : p.source x.context.scene = .ok lines)
    (h : ∃ c, Attending S
      ⟨p, [Session.silently (.restore x.context x.progress), Session.serve]⟩ c) :
    ∃ q : Player, q.position = (x.context, x.progress) ∧ q.book = p.book ∧
      Resumes p.book.history q.openPage.book.history x lines
        ⟨p, [Session.silently (.restore x.context x.progress), Session.serve]⟩ := by
  obtain ⟨q, hl, hq⟩ := leads_restored hm h
  have hat := hl.attending h
  have hturns : p.course.turns = [] := by
    show p.turns = []
    rw [turns, loop, hm]
    rfl
  refine ⟨q, hq.position, hq.book, hl.resumes ?_⟩
  rw [← hq.book]
  have hmq := hq.microtasks
  rcases Course.turns_jump_of_nil hturns x.context.scene x.context.index with
    ⟨-, hj | hj⟩ | ⟨⟨hscene, hsome⟩, hj⟩
  · rw [hj] at hmq
    exact resumes_of_scene hq.position hs (hq.source ▸ hsource) (hq.ahead ht) hmq (.inl rfl) hat
  · rw [hj] at hmq
    exact resumes_of_scene hq.position hs (hq.source ▸ hsource) (hq.ahead ht) hmq (.inr rfl) hat
  · rw [hj] at hmq
    obtain ⟨l, hl⟩ := Option.isSome_iff_exists.1 (hsome.resolve_left hphase)
    have hl' : p.lines = some lines := hlines l hscene hl ▸ hl
    obtain ⟨m, hleads, ha, hb⟩ := leads_arrives hmq hq.position (hq.lines.trans hl')
      (hq.phase ▸ hphase) hat
    exact ⟨m, m, hleads, .refl, ha, congrArg Book.history hb⟩

end Attending

/-! ### Lines of a faithful source -/

/-- All lines that a watched session takes over come from its source. -/
theorem Attending.eq_of_loads? {text : String → List String} {m : Machine Player Task} {c : Course}
    (h : Attending (SceneSource.Faithful text) m c) {s : String} {lines : List String}
    (hl : m.loads? = some (s, lines)) : lines = text s := by
  obtain ⟨r, ha, -, rfl⟩ := Machine.loads?_eq_some hl
  rcases Machine.answer?_eq_some ha with ⟨a, k, found, rest, -, hk, -⟩ | ⟨rest, -, -, hx⟩
  · have hr : m.world.requests = #[] := h.watching.requests
    rw [hr] at hk
    cases hk
  · exact h.watching.source r.scene lines hx.symm

/-- All along a recital with a faithful source, the lines that have been delivered are those of
their scene. -/
theorem Recital.lined {text : String → List String} {h : List (Machine Player Task)}
    {m : Session.Move} (hr : Recital (SceneSource.Faithful text) h m) :
    ∃ c, Attending (SceneSource.Faithful text) m.machine c ∧ Lined h c ∧ Asked c ∧
      ∀ n ∈ h, ∀ s lines, n.loads? = some (s, lines) → lines = text s := by
  refine hr.invariant (I := fun h _ c => Lined h c ∧ Asked c ∧
    ∀ n ∈ h, ∀ s lines, n.loads? = some (s, lines) → lines = text s)
      (fun _ => ⟨.fresh, .fresh, fun n hn => absurd hn List.not_mem_nil⟩)
      (fun _ hi _ => hi) fun ha ⟨hl, hk, hall⟩ hm ha' => ⟨hl.step ha.steady hm ha'.steady,
        hk.step hm, List.forall_mem_cons.2 ⟨fun s lines => ha.eq_of_loads?, hall⟩⟩

/-! ### Settled sessions -/

namespace Player.Settled

variable {p : Player}

theorem turns (h : p.Settled) : p.course.turns = [] := by
  show p.loop.microtasks.flatMap Task.turn = []
  rw [loop, h.microtasks]
  rfl

/-- No scene is loaded. -/
theorem phase (h : p.Settled) (ha : Asked p.course) (hr : p.requests = #[]) :
    p.phase ≠ .loading := by
  intro hp
  obtain ⟨r, hk | hk, -⟩ := ha.known hp
  · have hk : r ∈ p.requests := hk
    rw [hr] at hk
    exact absurd hk (by simp)
  · cases h.loadRequest.symm.trans hk

/-- The lines of a settled player are those of its scene. -/
theorem lines_eq {text : String → List String} {hist : List (Machine Player Task)} (h : p.Settled)
    (hl : Lined hist p.course)
    (hall : ∀ n ∈ hist, ∀ s lines, n.loads? = some (s, lines) → lines = text s)
    {lines : List String} (hp : p.lines = some lines) : lines = text p.stage.scene.value := by
  have hd : Delivered hist p.course.scene lines :=
    hl.delivered (fun hs => by rw [h.turns] at hs; cases hs) hp
  obtain ⟨n, hn, hload⟩ := hd.exists_mem
  exact hall n hn _ _ hload

end Player.Settled

/-! ### The result -/

theorem Resumes.exists_run {hist hist' : History} {x : SaveState} {lines : List String}
    {m : Machine Player Task} (h : Resumes hist hist' x lines m) :
    ∃ n₁ n₂, n₁ ≤ n₂ ∧ (∀ i < n₁, (m.run i).world.book.history = hist) ∧
      (∀ i, n₁ ≤ i → i ≤ n₂ → (m.run i).world.book.history = hist') ∧
        (∀ i < n₂, (m.run i).line? = none) ∧ (m.run n₂).Arrives x lines := by
  obtain ⟨m₁, m₂, hl₁, hl₂, harr, hh⟩ := h
  obtain ⟨n₁, hn₁, hbefore⟩ := hl₁.exists_run
  obtain ⟨k, hn₂, hafter⟩ := hl₂.exists_run
  have hadd (j : Nat) : m.run (n₁ + j) = m₁.run j := by rw [Machine.run_add, hn₁]
  refine ⟨n₁, n₁ + k, Nat.le_add_right .., fun i hlt => (hbefore i hlt).2,
    fun i hle hle' => ?_, fun i hlt => ?_, ?_⟩
  · obtain ⟨j, rfl⟩ := Nat.exists_eq_add_of_le hle
    rw [hadd]
    rcases Nat.lt_or_eq_of_le (Nat.le_of_add_le_add_left hle') with hj | rfl
    · exact (hafter j hj).2
    · rw [hn₂, hh]
  · rcases Nat.lt_or_ge i n₁ with hi | hi
    · exact (hbefore i hi).1
    · obtain ⟨j, rfl⟩ := Nat.exists_eq_add_of_le hi
      rw [hadd]
      exact (hafter j (Nat.lt_of_add_lt_add_left hlt)).1
  · rw [hadd, hn₂]
    exact harr

namespace Session

variable (s : Session) (x : SaveState)

/-- What a session that goes back to a save state leaves of its player. -/
theorem inside_loadState : (s.loadState x).1.player.inside = s.player.inside := by
  show ((s.withHistory _).player.trace .storage .debug _).inside = s.player.inside
  rw [inside_trace]
  rfl

theorem book_loadState : (s.loadState x).1.player.book =
    { s.player.book with history := s.history.rewindTo x, pageDue := true } := by
  have hb : ((s.withHistory (s.history.rewindTo x)).player.trace .storage .debug
      s!"Restoring {x.context.scene}:{x.context.index.toNat}").book =
        { s.player.book with history := s.history.rewindTo x } :=
    congrArg Surroundings.book (surroundings_trace ..)
  exact congrArg (fun b : Book => { b with pageDue := true }) hb

end Session

open Session in
/-- A settled session that is watched resumes at the save state. -/
theorem Recital.resumes {text : String → List String} {h : List (Machine Player Task)}
    {s : Session} {x : SaveState} {lines : List String}
    (hr : Recital (SceneSource.Faithful text) h (s, [])) (hset : s.player.Settled)
    (hs : x.context.scene ≠ "") (hsource : s.player.source x.context.scene = .ok lines) :
    ∃ q : Player, q.position = (x.context, x.progress) ∧ q.book = (s.loadState x).1.player.book ∧
      Resumes (s.history.rewindTo x) q.openPage.book.history x lines (s.loadState x).machine := by
  obtain ⟨c, ha, hl, hk, hall⟩ := hr.lined
  obtain rfl : s.player.course = c := ha.steady.of_rest.2.course
  have hat : Attending (SceneSource.Faithful text) (s.loadState x).machine s.player.course :=
    ha.deed (.loadState x)
  have hi := s.inside_loadState x
  have hv := view_of_inside hi
  have hphase : (s.loadState x).1.player.phase ≠ .loading := by
    rw [show (s.loadState x).1.player.phase = s.player.phase from
      congrArg (fun v => v.seat.phase) hv]
    exact hset.phase hk ha.watching.requests
  have hlines (l : List String) (hscene : (s.loadState x).1.player.stage.scene.value =
      x.context.scene) (hp : (s.loadState x).1.player.lines = some l) : l = lines := by
    rw [stage_of_inside hi] at hscene
    rw [show (s.loadState x).1.player.lines = s.player.lines from congrArg View.lines hv] at hp
    rw [hset.lines_eq hl hall hp, hscene]
    exact (ha.watching.source _ _ hsource).symm
  have hres := Attending.resumes_restore (p := (s.loadState x).1.player)
    ((congrArg (fun p : Player => p.schedule.loop.microtasks) hi).trans hset.microtasks)
    (ahead_of_view hv hset.ahead) hphase hlines hs
    ((congrArg (fun p : Player => p.source x.context.scene) hi).trans hsource) ⟨_, hat⟩
  rwa [show (s.loadState x).1.player.book.history = s.history.rewindTo x from
    congrArg Book.history (s.book_loadState x)] at hres

open Session in
/-- **Loading a save is a rewind.** When a settled session goes back to a save state, only the pages
before the last one that began at its position are left. Then one page is begun, with a snapshot of
that position. No line starts before the one at the index, if there is one, and when it starts the
script is at the position. -/
theorem Recital.load_rewinds {text : String → List String} {h : List (Machine Player Task)}
    {s : Session} {x : SaveState} {lines : List String}
    (hr : Recital (SceneSource.Faithful text) h (s, [])) (hset : s.player.Settled)
    (hs : x.context.scene ≠ "") (hsource : s.player.source x.context.scene = .ok lines)
    (hc : ∀ p ∈ s.history.pages, ∀ y ∈ p.saveState, ¬ y.Collides x) :
    ∃ kept snapshot n₁ n₂, History.Rewound (Page.BeganAt x) s.history.pages kept ∧
      snapshot.At x ∧ n₁ ≤ n₂ ∧ (s.loadState x).1.history.pages = kept ∧
      (∀ i < n₁, ((s.loadState x).run i).1.history.pages = kept) ∧
      (∀ i, n₁ ≤ i → i ≤ n₂ →
        ((s.loadState x).run i).1.history.pages = kept ++ [{ saveState := some snapshot }]) ∧
      (∀ i < n₂, ((s.loadState x).run i).machine.line? = none) ∧
      ((s.loadState x).run n₂).machine.Arrives x lines := by
  obtain ⟨-, -, -, hsound, -⟩ := hr.account
  obtain ⟨q, hpos, hb, hres⟩ := hr.resumes hset hs hsource
  obtain ⟨n₁, n₂, hle, hbefore, hafter, hquiet, harr⟩ := hres.exists_run
  -- the page that is due is begun where the history has been rewound
  have hopen : q.openPage.book.history.pages =
      (s.history.rewindTo x).pages ++ [{ saveState := some q.snapshot }] := by
    rw [book_openPage, hb, s.book_loadState x]
    exact History.pages_breakPage_rewindTo hsound _ _
  refine ⟨(s.history.rewindTo x).pages, q.snapshot, n₁, n₂, s.history.rewound_rewindTo hc,
    ⟨congrArg Prod.fst hpos, congrArg Prod.snd hpos⟩, hle, ?_, fun i hlt => ?_,
    fun i hle hle' => ?_, hquiet, harr⟩
  · exact congrArg (fun b : Book => b.history.pages) (s.book_loadState x)
  · exact congrArg History.pages (hbefore i hlt)
  · exact (congrArg History.pages (hafter i hle hle')).trans hopen

/-- A source is faithful to itself. -/
theorem SceneSource.faithful_self (source : SceneSource) :
    source.Faithful (fun scene => (source scene).toOption.getD []) := fun scene lines h => by
  show lines = (source scene).toOption.getD []
  rw [h]
  rfl

/-- The beginning of a scene. -/
def SaveState.beginningOf (scene : String) : SaveState := ⟨{ scene }, {}, none, none⟩

/-- A session goes back to the page that it is on, while the text there is shown. -/
theorem greeted_load_rewinds :
    Session.greeted.1.history.pages.length = 1 ∧ ∃ n, ∃ snapshot : SaveState,
      ((Session.greeted.1.loadState (.beginningOf "a")).run n).machine.line? = some "`hi" ∧
        ((Session.greeted.1.loadState (.beginningOf "a")).run n).1.history.pages =
          [{ saveState := some snapshot }] := by
  have hs : Session.open? (.ofTexts [("a", "`hi")]) {} {} default = .ok Session.greeting := rfl
  have hr : Recital (SceneSource.Faithful _) _ Session.greeted :=
    ((Recital.opened (SceneSource.faithful_self _) hs).deed (.start "a")).steps 23
  obtain ⟨hdone, hmicrotasks, hahead, hrequest, hat, hlen, hsource⟩ :
      Session.greeted.2.isEmpty = true ∧
        Session.greeted.1.player.loop.microtasks.isEmpty = true ∧
        (∀ u ∈ Session.greeted.1.player.loop.timeouts,
          Session.greeted.1.player.loop.now < u.deadline) ∧
        Session.greeted.1.player.loadRequest = none ∧
        (∀ p ∈ Session.greeted.1.history.pages, ∀ y ∈ p.saveState, y.At (.beginningOf "a")) ∧
        Session.greeted.1.history.pages.length = 1 ∧
        Session.greeted.1.player.source "a" = .ok ["`hi"] := by decide +kernel
  have hrest : Session.greeted = (Session.greeted.1, []) := by
    rw [← List.isEmpty_iff.1 hdone]
  rw [hrest] at hr
  have hset : Session.greeted.1.player.Settled := ⟨List.isEmpty_iff.1 hmicrotasks, hahead, hrequest⟩
  obtain ⟨kept, snapshot, n₁, n₂, hkept, -, hle, -, -, hpage, -, harr⟩ :=
    hr.load_rewinds (x := .beginningOf "a") hset (by decide) hsource
      fun p hp y hy hc => hc.2 (hat p hp y hy).canonicalText
  have hnil : kept = [] := by
    rcases hkept with ⟨-, hnil⟩ | ⟨page, later, heq, -⟩
    · exact hnil
    · rw [heq, List.length_append, List.length_cons] at hlen
      exact List.length_eq_zero_iff.1 (by omega)
  subst hnil
  exact ⟨hlen, n₂, snapshot, harr.line, hpage n₂ hle (Nat.le_refl _)⟩

/-- A session with a scene that has no name. -/
def Session.nameless : Session :=
  ⟨(playerOf (.ofTexts [("", "`hi")]) {} {} default).note (.log (Slots.openedEntry {})), ⟨{}, {}⟩⟩

/-- The scene without a name is never loaded, so nothing starts there. -/
theorem nameless_load_starts_nothing :
    (∃ text, Recital (SceneSource.Faithful text) [] (Session.nameless, [])) ∧
      Session.nameless.player.Settled ∧
        Session.nameless.player.source "" = .ok ["`hi"] ∧
          Session.nameless.history.pages = [] ∧
            ["`hi"][(SaveState.beginningOf "").context.index.toNat]? = some "`hi" ∧
              ∀ n, ((Session.nameless.loadState (.beginningOf "")).run n).machine.line? = none := by
  have hs : Session.open? (.ofTexts [("", "`hi")]) {} {} default = .ok Session.nameless := rfl
  refine ⟨⟨_, .opened (SceneSource.faithful_self _) hs⟩,
    ⟨rfl, fun u hu => absurd hu List.not_mem_nil, rfl⟩, by decide +kernel, rfl, rfl, fun n => ?_⟩
  obtain ⟨hall, hend⟩ :
      (∀ i < 16, ((Session.nameless.loadState (.beginningOf "")).machine.run i).line? = none) ∧
        ((Session.nameless.loadState (.beginningOf "")).machine.run 16).agenda.isEmpty = true := by
    decide +kernel
  rcases Nat.lt_or_ge n 16 with hn | hn
  · exact hall n hn
  · obtain ⟨k, rfl⟩ := Nat.exists_eq_add_of_le hn
    have hend := List.isEmpty_iff.1 hend
    show ((Session.nameless.loadState (.beginningOf "")).machine.run (16 + k)).line? = none
    rw [Machine.run_add, Machine.run_of_agenda_eq_nil hend, Machine.line?, hend]

end Novella
