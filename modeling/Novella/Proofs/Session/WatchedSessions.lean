import Novella.Proofs.Player.PageEnds
import Novella.Proofs.Player.Position

/-!
# Sessions that are only watched

A host that only watches a session starts it, gives input, lets time pass, goes back to saves, and
does what leaves the script as it is: it saves, chooses settings, and listens. Whatever it does, the
session that it has opened is carried on step by step. The machines that took a step are its
history, and a *recital* is a session with what is under way and its history.

All along a recital the agenda is laid out, and the signals of the script are all that enters the
book, apart from the pages that it begins itself.

## Main definitions

* `Session.Deed` — what the host does
* `Recital` — a session that is watched, with its history
* `Surroundings.Watching`, `Attending` — what holds all along a recital
* `Touches` — what a step does to the book

## Main results

* `Attending.deed`, `Attending.step` — the session goes on being watched
* `Recital.invariant` — what deeds and moves preserve holds all along a recital
* `Attending.touches` — only signals and the book itself change the book
-/

namespace Novella

open Player

/-! ### Deeds -/

namespace Session

/-- What a host does with a session at rest that it only watches. All sources pass the test `S`. -/
inductive Deed (S : SceneSource → Prop) (s : Session) : Move → Prop where
  /-- A scene is started from its first line. -/
  | start (scene : String) : Deed S s (s.start scene)
  /-- Input. -/
  | next : Deed S s s.next
  /-- What is due is run. -/
  | settle : Deed S s s.settle
  /-- Time passes. -/
  | advance (d : Nat) : Deed S s (s.advance d)
  /-- The session goes back to a save state. -/
  | loadState (x : SaveState) : Deed S s (s.loadState x)
  /-- The position is saved. -/
  | save {id : SlotId} {s' : Session} : s.save id = (.ok (), s') → Deed S s (s', [])
  /-- A slot is emptied. -/
  | delete {id : SlotId} {filled : Bool} {s' : Session} :
      s.delete id = (.ok filled, s') → Deed S s (s', [])
  /-- Settings are chosen. -/
  | setSettings {x : Settings} {s' : Session} : s.setSettings x = (.ok (), s') → Deed S s (s', [])
  /-- An exported text is taken over. -/
  | importText {text : String} {s' : Session} :
      s.importText text = (.ok (), s') → Deed S s (s', [])
  /-- It is said what the last page is about. -/
  | setPageContent (c : PageContent) : Deed S s (s.setPageContent c, [])
  /-- A snapshot is taken. -/
  | capture : Deed S s (s.capture.1, [])
  /-- The clock is put forward. -/
  | setClock (clock : Instant) : Deed S s (s.setClock clock, [])
  /-- The host has seen the events. -/
  | listen : Deed S s (s.listening, [])
  /-- The host listens to a hook. -/
  | connect (h : Hook) {l : Listener} : l.body = [] →
      Deed S s ({ s with player := (s.player.connectToBook h l).1 }, (s.player.connectToBook h l).2)
  /-- The host listens to a cell. -/
  | observe (c : CellName) (accepts : c.Value → Bool) (once : Bool) (trigger : Occurrence → Bool)
      (times : Nat) : Deed S s
        ({ s with player := (s.player.call (.observe c accepts once trigger times [])).1 }, [])
  /-- Scenes come from elsewhere. -/
  | supply {source : SceneSource} : S source →
      Deed S s ({ s with player := { s.player with source } }, [])

variable {S : SceneSource → Prop} {s : Session}

/-- To put the clock to a time is to let time pass. -/
theorem Deed.syncClock (elapsed : Nat) : Deed S s (s.syncClock elapsed) := .advance _

/-- To load a slot is to go back to its save state. -/
theorem Deed.load {id : SlotId} {move : Move} (h : s.load id = .ok move) : Deed S s move := by
  unfold Session.load at h
  split at h
  · cases h
    exact .loadState _
  · cases h

/-- The machine that carries a move out. -/
def Move.machine (m : Move) : Machine Player Task := ⟨m.1.player, m.2⟩

/-- A move whose player has taken a step. -/
def Move.step (m : Move) : Move :=
  ({ m.1 with player := m.machine.step.world }, m.machine.step.agenda)

/-- A move whose player has taken some steps. -/
def Move.run (n : Nat) (m : Move) : Move :=
  ({ m.1 with player := (m.machine.run n).world }, (m.machine.run n).agenda)

end Session

/-- A session is opened and watched. The list holds the machines that took a step, the last one
first. -/
inductive Recital (S : SceneSource → Prop) : List (Machine Player Task) → Session.Move → Prop where
  /-- The session is opened. -/
  | opened {source : SceneSource} {filter : DebugFilter} {storage : Storage} {clock : Instant}
      {s : Session} : S source → Session.open? source filter storage clock = .ok s →
        Recital S [] (s, [])
  /-- The host does something. -/
  | deed {h : List (Machine Player Task)} {s : Session} {m : Session.Move} :
      Recital S h (s, []) → s.Deed S m → Recital S h m
  /-- The player takes a step. -/
  | step {h : List (Machine Player Task)} {m : Session.Move} :
      Recital S h m → Recital S (m.machine :: h) m.step

/-! ### What deeds leave alone -/

/-- The surroundings of a player whose session is watched. -/
structure Surroundings.Watching (S : SceneSource → Prop) (x : Surroundings) : Prop where
  /-- Signals go to the book. -/
  hooks : ∀ h, (x.hooks.relay h).receiver = some .book
  /-- The commands are those of every script. -/
  commands : x.commands = .standard
  /-- Scenes come from a source that passes the test. -/
  source : S x.source
  /-- The host takes no requests. -/
  requests : x.requests = #[]
  /-- The book follows the settings, and the host may follow every cell. -/
  observers {c : CellName} : ¬ c.IsPlace → ∀ o ∈ x.observers c,
    (∃ n, o.reaction = .listener n) ∨ c = .settings ∧ o.reaction = .limitHistory

namespace Player

/-- What a deed leaves of a player. -/
structure Spared (S : SceneSource → Prop) (p q : Player) : Prop where
  /-- The course. -/
  follows {k : Nat} {c : Course} : p.Follows k c → q.Follows k c
  /-- The position. -/
  position : q.position = p.position
  /-- The seat. -/
  seat : q.seat = p.seat
  /-- The texts. -/
  reveals : q.reveals = p.reveals
  /-- Whatever is scheduled has been numbered. -/
  tidy : p.Tidy → q.Tidy
  /-- Whatever is left with the player passes a test. -/
  tame {P : HostCall → Prop} : p.Tame P → q.Tame P
  /-- The surroundings. -/
  watching : p.surroundings.Watching S → q.surroundings.Watching S

namespace Spared

variable {S : SceneSource → Prop} {p q q' : Player}

theorem trans (h : Spared S p q) (h' : Spared S q q') : Spared S p q' :=
  ⟨h'.follows ∘ h.follows, h'.position.trans h.position, h'.seat.trans h.seat,
    h'.reveals.trans h.reveals, h'.tidy ∘ h.tidy, h'.tame ∘ h.tame, h'.watching ∘ h.watching⟩

/-- A change of what only the host sees. -/
theorem of_inside (hi : q.inside = p.inside) (hh : q.hooks = p.hooks)
    (ht : ∀ {P}, p.Tame P → q.Tame P) : Spared S p q where
  follows h := h.of_inside hi
  position := position_of_inside hi
  seat := seat_of_inside hi
  reveals := reveals_of_inside hi
  tidy h := ((Settles.refl h).of_inside hi).tidy
  tame := ht
  watching h := by
    have hs : q.inside.surroundings = p.inside.surroundings := congrArg surroundings hi
    refine ⟨?_, ?_, ?_, ?_, @fun c hp => ?_⟩
    · show ∀ k, (q.hooks.relay k).receiver = some .book
      rw [hh]
      exact h.hooks
    · exact (congrArg Surroundings.commands hs).trans h.commands
    · have hq : q.source = p.source := congrArg Surroundings.source hs
      show S q.source
      rw [hq]
      exact h.source
    · exact (congrArg Surroundings.requests hs).trans h.requests
    · have ho : (q.stage.cell c).observers = (p.stage.cell c).observers :=
        congrFun (congrArg Surroundings.observers hs) c
      show ∀ o ∈ (q.stage.cell c).observers, _
      rw [ho]
      exact h.observers hp

theorem withBook (p : Player) (book : Book) (events : Array Event) (answer : Answer) :
    Spared S p { p with book, events, answer } :=
  .of_inside rfl rfl fun h => h.of_eq rfl rfl h.listeners

theorem trace (p : Player) (c : LogCategory) (l : LogLevel) (s : String) :
    Spared S p (p.trace c l s) := by
  rcases p.trace_eq c l s with h | ⟨e, h⟩
  · rw [h]
    exact .withBook p p.book p.events p.answer
  · rw [h]
    exact .withBook p p.book _ p.answer

theorem connectToBook (p : Player) (h : Hook) {l : Listener} (hl : l.body = []) :
    Spared S p (p.connectToBook h l).1 := by
  refine .of_inside (inside_connectToBook ..) ?_ fun ht => ?_
  · rw [Player.connectToBook]
    dsimp only
    split
    · exact congrArg Surroundings.hooks (surroundings_react ..)
    · rfl
  · refine (ht.connectToBook h fun c hc => ?_).tame
    rw [hl] at hc
    cases hc

theorem write_settings (p : Player) (v : Settings) : Spared S p (p.write .settings v) where
  follows h := h.of_core (core_write p (c := .settings) (by decide) v)
  position := rfl
  seat := rfl
  reveals := rfl
  tidy h := ((Settles.refl h).write .settings v).tidy
  tame h := h.write ..
  watching h := by rwa [surroundings_write]

theorem observe (p : Player) (c : CellName) (accepts : c.Value → Bool) (once : Bool)
    (trigger : Occurrence → Bool) (times : Nat) :
    Spared S p (p.call (.observe c accepts once trigger times [])).1 where
  follows {k d} h := by
    have hq : Follows k { p.addListener ⟨trigger, times, []⟩ with
        subscriptions := p.subscriptions.push (p.stage.cell c).nextId } d :=
      h.of_eq (fun _ => rfl) rfl h.course
    exact hq.observe ..
  position := position_store { p.addListener ⟨trigger, times, []⟩ with
    subscriptions := p.subscriptions.push (p.stage.cell c).nextId } c rfl
  seat := rfl
  reveals := rfl
  tidy h := h
  tame h := by
    have ht := h.addListener (l := ⟨trigger, times, []⟩) fun c hc => absurd hc List.not_mem_nil
    have ht' : Tame _ { p.addListener ⟨trigger, times, []⟩ with
        subscriptions := p.subscriptions.push (p.stage.cell c).nextId } :=
      ht.of_eq rfl rfl ht.listeners
    exact ht'.observe ..
  watching h := by
    refine ⟨h.hooks, h.commands, h.source, h.requests, @fun d hd o ho => ?_⟩
    change o ∈
      ((p.stage.withCell c ((p.stage.cell c).observe _ accepts once)).cell d).observers at ho
    by_cases hdc : d = c
    · subst hdc
      rw [Stage.cell_withCell_self] at ho
      rcases List.mem_append.1 ho with ho | ho
      · exact h.observers hd o ho
      · rw [List.mem_singleton.1 ho]
        exact .inl ⟨_, rfl⟩
    · rw [Stage.cell_withCell_of_ne _ hdc] at ho
      exact h.observers hd o ho

theorem supply (p : Player) {source : SceneSource} (h : S source) :
    Spared S p { p with source } where
  follows h := h.of_eq (fun _ => rfl) rfl h.course
  position := rfl
  seat := rfl
  reveals := rfl
  tidy h := h
  tame h := h.of_eq rfl rfl h.listeners
  watching hw := ⟨hw.hooks, hw.commands, h, hw.requests, hw.observers⟩

end Spared

end Player

namespace Session

/-- A session begins with the settings that were stored. -/
theorem exists_of_open? {source : SceneSource} {filter : DebugFilter} {storage : Storage}
    {clock : Instant} {s : Session} (h : open? source filter storage clock = .ok s) :
    ∃ slots : Slots Storage, s = ⟨(playerOf source filter slots.settings clock).note
      (.log (Slots.openedEntry slots.data)), slots⟩ := by
  unfold open? at h
  cases hs : Slots.open? storage with
  | error e =>
    rw [hs] at h
    cases h
  | ok slots =>
    rw [hs] at h
    cases h
    exact ⟨slots, rfl⟩

variable {S : SceneSource → Prop} {s s' : Session} {m : Move}

/-! What deeds do to the player. -/

theorem player_save {id : SlotId} (h : s.save id = (.ok (), s')) :
    s'.player = s.readClock.1.player.trace .storage .info s!"Saved to slot {id.toNat}" :=
  congrArg player (eq_of_change_ok h).2

theorem player_delete {id : SlotId} {filled : Bool} (h : s.delete id = (.ok filled, s')) :
    s'.player = s.player := by
  rw [(eq_of_change_ok h).2]

/-- The cell takes over the settings that have been stored. -/
theorem player_takeOver {c : Slots.Change Storage Unit} (h : s.change c s.takeOver = (.ok (), s')) :
    s'.player = s.player.write .settings s'.slots.settings := by
  rw [(eq_of_change_ok h).2]
  rfl

namespace Deed

theorem spared (h : s.Deed S m) : Spared S s.player m.1.player := by
  have same : Spared S s.player s.player := .withBook s.player _ _ _
  cases h with
  | start scene => exact .withBook s.player _ _ _
  | next => exact same
  | settle => exact same
  | advance d => exact same
  | loadState x =>
    exact ((Spared.withBook s.player _ _ _).trans (.trace ..)).trans (.withBook _ _ _ _)
  | save h =>
    rw [player_save h]
    exact (Spared.withBook s.player _ _ _).trans (.trace ..)
  | delete h =>
    rw [player_delete h]
    exact same
  | setSettings h | importText h =>
    rw [player_takeOver h]
    exact .write_settings ..
  | setPageContent c => exact .withBook s.player _ _ _
  | capture => exact .withBook s.player _ _ _
  | setClock clock =>
    show Spared S s.player (s.setClock clock).player
    unfold Session.setClock
    split
    · exact .withBook s.player _ _ _
    · exact same
  | listen => exact .withBook s.player _ _ _
  | connect h hl => exact .connectToBook s.player h hl
  | observe c accepts once trigger times => exact .observe ..
  | supply h => exact .supply _ h

/-- A deed moves the script to a new page, or leaves it to what comes later. -/
theorem orders (h : s.Deed S m) (hl : ∀ l ∈ s.player.listeners, l.body = []) :
    (∀ o ∈ m.2, o.IsLater ∧ o.Passes HostCall.KeepsPlace) ∨
      m.1.player.book.pageDue = true ∧ ∃ c : HostCall,
        ((∃ s i, c = .goto s i) ∨ ∃ x v, c = .restore x v) ∧ m.2 = [silently c, serve] := by
  have hserve : serve.IsLater ∧ serve.Passes HostCall.KeepsPlace :=
    ⟨⟨rfl, .inr rfl⟩, .of_body_eq_nil trivial rfl⟩
  cases h with
  | start scene => exact .inr ⟨rfl, .goto scene 0, .inl ⟨_, _, rfl⟩, rfl⟩
  | loadState x => exact .inr ⟨rfl, .restore x.context x.progress, .inr ⟨_, _, rfl⟩, rfl⟩
  | next =>
    exact .inl (List.forall_mem_cons.2 ⟨⟨⟨rfl, .inl rfl⟩, .of_body_eq_nil trivial rfl⟩,
      List.forall_mem_singleton.2 hserve⟩)
  | settle => exact .inl (List.forall_mem_singleton.2 hserve)
  | advance d =>
    exact .inl (List.forall_mem_cons.2 ⟨hserve, List.forall_mem_cons.2 ⟨⟨trivial, trivial⟩,
      List.forall_mem_singleton.2 hserve⟩⟩)
  | connect h hb =>
    refine .inl ?_
    dsimp only
    rw [connectToBook]
    dsimp only
    split
    · rw [orders_react]
      · simp
      · intro l hm
        rcases Array.mem_push.1 hm with hm | rfl
        · exact hl l hm
        · exact hb
    · simp
  | _ => exact .inl (by simp)

end Deed

end Session

/-! ### The book -/

/-- What a step does to the surroundings of a script that is watched, unless it begins a page. -/
inductive Touches (p : Player) (s : Option Signal) (q : Player) : Prop where
  /-- The script sends a signal, if any. -/
  | sends : q.surroundings = (p.send s).surroundings → Touches p s q
  /-- An observer of the host hears a cell, or the book hears the settings. -/
  | hears (observers : (c : CellName) → List (Observer c.Value Reaction)) (book : Book) :
      s = none → q.surroundings = { p.surroundings with observers, book } →
        (∀ c, (observers c).Sublist (p.stage.cell c).observers) →
          (book = p.book ∨ ∃ v : Settings, book = (p.limitHistory v).book) → Touches p s q

namespace Player

variable {S : SceneSource → Prop} {p q : Player} {agenda : Orders} {c : Course}

/-- A signal is entered in the book, which may keep it for a hook of the host. -/
theorem surroundings_emit_book {s : Signal} (h : (p.hooks.relay s.hook).receiver = some .book) :
    ∃ hooks, (p.emit s).1.surroundings =
      { p.surroundings with book := { (p.enter s).book with hooks } } := by
  have he : (p.enter s).surroundings = { p.surroundings with book := (p.enter s).book } := by
    cases s <;> rfl
  rw [emit, h]
  dsimp only
  rw [receive, passOn]
  split
  · rw [surroundings_react, he]
    exact ⟨(p.enter s).book.hooks, rfl⟩
  · exact ⟨_, congrArg (fun x : Surroundings => { x with book := { (p.enter s).book with
      hooks := (p.enter s).book.hooks.withRelay s.hook ⟨none, some s⟩ } }) he⟩

end Player

namespace Surroundings.Watching

variable {S : SceneSource → Prop} {p q : Player} {x : Surroundings}

theorem withBook (h : x.Watching S) (book : Book) : { x with book }.Watching S :=
  ⟨h.hooks, h.commands, h.source, h.requests, h.observers⟩

theorem send (h : p.surroundings.Watching S) (s : Option Signal) :
    (p.send s).surroundings.Watching S := by
  cases s with
  | none => exact h
  | some s =>
    obtain ⟨hooks, hs⟩ := surroundings_emit_book (h.hooks s.hook)
    rw [Player.send, hs]
    exact h.withBook _

theorem openPage (h : p.surroundings.Watching S) : p.openPage.surroundings.Watching S := by
  rw [Player.openPage]
  split
  · exact h.withBook _
  · exact h

theorem of_touches {s : Option Signal} (h : p.surroundings.Watching S) (ht : Touches p s q) :
    q.surroundings.Watching S := by
  cases ht with
  | sends hq => exact hq ▸ h.send s
  | hears observers book _ hq ho _ =>
    rw [hq]
    exact ⟨h.hooks, h.commands, h.source, h.requests, fun hc o hm =>
      h.observers hc o ((ho _).subset hm)⟩

end Surroundings.Watching

/-! ### The invariant -/

/-- An order that is no task leaves the player to its loop. Any task that it leads to comes from
there. -/
theorem Machine.step_of_turn (p : Player) {o : Order Task} (rest : Orders)
    (ho : ∀ t, o ≠ .perform t) (hh : o ≠ .halt) :
    signal? ⟨p, o :: rest⟩ = none ∧ ∃ (l : Loop Task) (orders : Orders),
      step ⟨p, o :: rest⟩ = ⟨World.withLoop p l, orders ++ rest⟩ ∧
        l.microtasks ⊆ p.schedule.loop.microtasks ∧ l.timeouts ⊆ p.schedule.loop.timeouts ∧
          ∀ t, .perform t ∈ orders → t ∈ p.schedule.loop.microtasks ∨
            ∃ u ∈ p.schedule.loop.timeouts, u.task = t := by
  have stay (orders : Orders) (hn : ∀ t, .perform t ∉ orders) :
      ∃ (l : Loop Task) (orders' : Orders),
        (⟨p, orders ++ rest⟩ : Machine Player Task) = ⟨World.withLoop p l, orders' ++ rest⟩ ∧
          l.microtasks ⊆ p.schedule.loop.microtasks ∧ l.timeouts ⊆ p.schedule.loop.timeouts ∧
            ∀ t, .perform t ∈ orders' → t ∈ p.schedule.loop.microtasks ∨
              ∃ u ∈ p.schedule.loop.timeouts, u.task = t :=
    ⟨p.schedule.loop, orders, rfl, List.Subset.refl _, List.Subset.refl _, fun t ht =>
      absurd ht (hn t)⟩
  cases o with
  | perform t => exact absurd rfl (ho t)
  | drain =>
    refine ⟨rfl, ?_⟩
    cases hm : p.schedule.loop.microtasks with
    | nil =>
      rw [step_drain_nil hm]
      exact hm ▸ stay [] fun t => List.not_mem_nil
    | cons t ts =>
      rw [step_drain_cons hm]
      refine ⟨_, [.perform t, .drain], rfl, List.subset_cons_self .., List.Subset.refl _,
        fun u hu => .inl ?_⟩
      simp only [List.mem_cons, Order.perform.injEq, reduceCtorEq, List.not_mem_nil, or_false] at hu
      exact hu ▸ List.mem_cons_self
  | runUntil target =>
    refine ⟨rfl, ?_⟩
    by_cases hd : ∃ u us, p.schedule.loop.timeouts = u :: us ∧ u.deadline ≤ target
    · obtain ⟨u, us, hu, hd⟩ := hd
      rw [step_runUntil_due hu hd]
      refine ⟨_, [.perform u.task, .drain, .runUntil target], rfl, List.Subset.refl _,
        hu ▸ List.subset_cons_self .., fun t ht => .inr ⟨u, hu ▸ List.mem_cons_self, ?_⟩⟩
      simp only [List.mem_cons, Order.perform.injEq, reduceCtorEq, List.not_mem_nil, or_false] at ht
      exact ht.symm
    · rw [step_runUntil_idle fun u hu => ?_]
      · exact ⟨_, [], rfl, List.Subset.refl _, List.Subset.refl _, fun t ht =>
          absurd ht List.not_mem_nil⟩
      · refine Nat.lt_of_not_le fun hle => hd ?_
        obtain ⟨us, hus⟩ := List.head?_eq_some_iff.1 hu
        exact ⟨u, us, hus, hle⟩
  | advance d => exact ⟨rfl, stay [.drain, .depart d] (by simp)⟩
  | depart d => exact ⟨rfl, stay [.runUntil _] (by simp)⟩
  | halt => exact absurd rfl hh

/-- A session is watched, and is on a course. -/
structure Attending (S : SceneSource → Prop) (m : Machine Player Task) (c : Course) : Prop where
  /-- The player is on the course, and the book hears the index before it. -/
  steady : Steady 1 m c
  /-- The host has left no calls with the player. -/
  tame : m.world.Tame fun _ => False
  /-- Texts are kept by tasks. -/
  balanced : m.Balanced
  /-- The agenda is laid out. -/
  arranged : Arranged m.world m.agenda
  /-- The surroundings. -/
  watching : m.world.surroundings.Watching S

namespace Attending

variable {S : SceneSource → Prop} {p : Player} {m : Machine Player Task} {agenda : Orders}
  {c : Course}

theorem listeners (h : Attending S m c) : ∀ l ∈ m.world.listeners, l.body = [] :=
  fun l hl => List.eq_nil_iff_forall_not_mem.2 fun d hd => (h.tame.listeners l hl d hd).holds

theorem watched (h : Attending S m c) : m.world.Watched := ⟨h.listeners, h.watching.commands⟩

theorem queue_of_rest (h : Attending S ⟨p, []⟩ c) : Closing p.queue := by
  cases h.arranged with
  | later _ hq => exact hq

/-- The host does something. -/
theorem deed {s : Session} {move : Session.Move} (h : Attending S ⟨s.player, []⟩ c)
    (hd : s.Deed S move) : Attending S move.machine c := by
  have hs := hd.spared
  obtain ⟨ht, hf⟩ := h.steady.of_rest
  have hq : Closing move.1.player.queue := by
    rw [show move.1.player.queue = s.player.queue from congrArg Seat.queue hs.seat]
    exact h.queue_of_rest
  have of (harr : Arranged move.1.player move.2) (hn : ∀ o ∈ move.2, o.holder? = none)
      (hp : ∀ o ∈ move.2, o.Passes HostCall.KeepsPlace) : Attending S move.machine c := by
    refine ⟨.quiet (hs.tame ht) (hs.follows hf) fun o ho => .inl (hp o ho), hs.tame h.tame,
      ⟨hs.tidy h.balanced.tidy, fun r => ?_⟩, harr, hs.watching h.watching⟩
    have hr : move.1.player.holds r = 0 := (holds_of_eq hs.reveals r).trans (h.balanced.holds r)
    refine hr.trans (owed_eq_zero fun o ho => ?_).symm
    rw [Order.owes_eq, hn o ho]
    rfl
  rcases hd.orders h.listeners with hl | ⟨hdue, d, hd, ho⟩
  · exact of (.later (fun o ho => (hl o ho).1) hq) (fun o ho => (hl o ho).1.holder?) fun o ho =>
      (hl o ho).2
  · have hpass : d.Within HostCall.KeepsPlace := by
      rcases hd with ⟨s, i, rfl⟩ | ⟨x, v, rfl⟩ <;> exact .of_body_eq_nil trivial rfl
    refine of ?_ ?_ ?_
    · rw [ho]
      exact .jump hdue hd (List.forall_mem_singleton.2 ⟨rfl, .inr rfl⟩) hq
    · rw [ho]
      exact List.forall_mem_cons.2 ⟨rfl, List.forall_mem_singleton.2 rfl⟩
    · rw [ho]
      exact List.forall_mem_cons.2
        ⟨hpass, List.forall_mem_singleton.2 (.of_body_eq_nil trivial rfl)⟩

theorem ne_halt {o : Order Task} {rest : Orders} (h : Attending S ⟨p, o :: rest⟩ c) :
    o ≠ .halt := by
  rintro rfl
  cases h.arranged with
  | later hl _ => exact hl _ List.mem_cons_self
  | hand ho => exact ho.elim

/-- Only calls of the session are on the agenda. -/
theorem isSessions (h : Attending S ⟨p, agenda⟩ c) {a : Audience} {d : HostCall} {rest : Orders}
    (ha : agenda = .perform (.call a d) :: rest) : d.isSessions = true := by
  subst ha
  cases h.arranged with
  | later hl _ =>
    obtain ⟨-, rfl | rfl⟩ := hl _ List.mem_cons_self <;> rfl
  | loose ht _ _ =>
    rcases ht with ⟨c, hc⟩ | ht
    · cases hc
    · exact ht.elim
  | hand ho => exact ho.elim
  | jump _ hd => rcases hd with ⟨s, i, rfl⟩ | ⟨x, v, rfl⟩ <;> rfl

/-- An observer hears a cell, unless a page begins. -/
theorem touches_hear (h : Attending S ⟨p, agenda⟩ c) {x : CellName} {id : Nat} {v : x.Value}
    {rest : Orders} (ha : agenda = .perform (.hear x id v) :: rest)
    (hn : ∀ v rest, agenda ≠ .perform (.hear .index 0 v) :: rest) :
    Touches p (p.signal? (.hear x id v)) (perform (.hear x id v) p).1 := by
  subst ha
  have hatt {x : CellName} (hx : x.IsPlace) := h.steady.attended hx
  cases h.arranged with
  | later hl _ =>
    have hid : x.IsPlace → x.rank 1 < id := hl _ List.mem_cons_self
    rw [signal?_hear hid hatt]
    unfold perform
    dsimp only
    split
    · next d r heq =>
      obtain ⟨⟨o, ho, rfl⟩, -, hsub⟩ := Cell.hear_eq_some heq
      have hobs (y : CellName) :
          ((p.stage.withCell x d).cell y).observers.Sublist (p.stage.cell y).observers := by
        by_cases hy : y = x
        · subst hy
          rwa [Stage.cell_withCell_self]
        · simp only [Stage.cell_withCell_of_ne _ hy, List.Sublist.refl]
      have hr : (∃ n, o.reaction = .listener n) ∨ x = .settings ∧ o.reaction = .limitHistory := by
        by_cases hx : x.IsPlace
        · exact .inl (((hatt hx).hear_other (hid hx) v).2.2.2 _ (congrArg Prod.snd heq))
        · exact h.watching.observers hx o ho
      rcases hr with ⟨n, hn⟩ | ⟨rfl, hn⟩
      · rw [hn]
        refine .hears _ p.book rfl ?_ hobs (.inl rfl)
        have hreact : (p.store x (d, false)).reactTo (.listener n) x v =
            (p.store x (d, false)).react n (.cell x v) := by
          unfold reactTo
          cases x <;> rfl
        rw [hreact, surroundings_react]
        rfl
      · rw [hn]
        exact .hears _ _ rfl rfl hobs (.inr ⟨v, rfl⟩)
    · exact .sends rfl
  | loose ht _ _ =>
    rcases ht with ⟨c, hc⟩ | ht
    · cases hc
    · exact ht.elim
  | hand ho => exact ho.elim
  | page v => exact absurd rfl (hn v _)
  | line v =>
    have ho : perform (.hear .index 1 v) p = p.runLine v := perform_hear_own (hatt (.inr rfl)) v
    have hsig : p.signal? (.hear .index 1 v) = p.lineSignal? v :=
      if_pos (congrArg Prod.snd ((hatt (.inr rfl)).hear_own v))
    rw [ho, hsig]
    exact .sends (surroundings_runLine p v)
  | scene v =>
    have ho : perform (.hear .scene 0 v) p = (p.loadScene v, []) :=
      perform_hear_own (hatt (.inl rfl)) v
    rw [ho]
    exact .sends (surroundings_loadScene p v)

/-- Apart from the pages that begin, only signals and the settings change the book. -/
theorem touches (h : Attending S ⟨p, agenda⟩ c)
    (hn : ∀ v rest, agenda ≠ .perform (.hear .index 0 v) :: rest) :
    Touches p (Machine.signal? ⟨p, agenda⟩) (Machine.step ⟨p, agenda⟩).world := by
  cases agenda with
  | nil => exact .sends rfl
  | cons o rest =>
    by_cases ho : ∃ t, o = .perform t
    · obtain ⟨t, rfl⟩ := ho
      rw [Steady.step_perform, Machine.signal?_perform]
      by_cases hh : ∃ c id v, t = .hear c id v
      · obtain ⟨x, id, v, rfl⟩ := hh
        exact h.touches_hear rfl hn
      · refine .sends (surroundings_perform p (fun c id v heq => hh ⟨c, id, v, heq⟩) ?_)
        rintro a d rfl
        exact h.isSessions rfl
    · obtain ⟨hsig, l, orders, hl, -⟩ := Machine.step_of_turn p rest (not_exists.1 ho) h.ne_halt
      rw [hsig, hl]
      exact .sends rfl

theorem tame_step (h : Attending S ⟨p, agenda⟩ c) :
    (Machine.step ⟨p, agenda⟩).world.Tame fun _ => False := by
  have ht := h.tame
  cases agenda with
  | nil => exact ht
  | cons o rest =>
    by_cases ho : ∃ t, o = .perform t
    · obtain ⟨t, rfl⟩ := ho
      rw [Steady.step_perform]
      cases t with
      | deliver c => exact ht.store ..
      | hear c id v => exact (ht.hear c id v).tame
      | call a d =>
        have hd := h.isSessions rfl
        cases d with
        | next => exact ht.next.tame
        | serve => exact ht
        | goto s i => exact ht.goto s i
        | restore x v => exact (ht.present x v).goto ..
        | _ => cases hd
      | ring k => exact (ht.perform (t := .ring k) trivial).tame
      | finish t => exact (ht.finish t).tame
      | conclude t x => exact (ht.conclude t x).tame
      | reveal r a => exact (ht.actReveal r a).tame
      | report a x => exact ht.report x a
      | note e => exact ht.note e
      | load => exact ht.load.tame
    · obtain ⟨-, l, orders, hl, hm, hu, -⟩ :=
        Machine.step_of_turn p rest (not_exists.1 ho) h.ne_halt
      rw [hl]
      exact ht.withSchedule (fun t hx => ht.microtasks t (hm hx))
        (fun t hx => ht.timeouts t (hu hx)) ht.timers

/-- A step lays the agenda out again, and the end of a page hushes the player. -/
theorem laid (h : Attending S ⟨p, agenda⟩ c) :
    Laid (Machine.signal? ⟨p, agenda⟩)
      ((Machine.step ⟨p, agenda⟩).world, (Machine.step ⟨p, agenda⟩).agenda) := by
  by_cases hn : ∃ v rest, agenda = .perform (.hear .index 1 v) :: rest
  · obtain ⟨v, rest, rfl⟩ := hn
    have ho : perform (.hear .index 1 v) p = p.runLine v :=
      perform_hear_own (h.steady.attended (.inr rfl)) v
    have hsig : p.signal? (.hear .index 1 v) = p.lineSignal? v :=
      if_pos (congrArg Prod.snd ((h.steady.attended (.inr rfl)).hear_own v))
    rw [Steady.step_perform, ho, Machine.signal?_perform, hsig]
    cases h.arranged with
    | later hl _ => exact absurd (hl _ List.mem_cons_self (.inr rfl)) (Nat.lt_irrefl 1)
    | loose ht _ _ =>
      rcases ht with ⟨c, hc⟩ | ht
      · cases hc
      · exact ht.elim
    | hand ho => exact ho.elim
    | line _ _ hl hq => exact runLine_laid h.watched v hl hq
  · have hn' : ∀ v rest, agenda ≠ .perform (.hear .index 1 v) :: rest := fun v rest heq =>
      hn ⟨v, rest, heq⟩
    exact (h.arranged.goes h.steady h.balanced h.watched hn').toLaid

/-- The player takes a step. -/
theorem step (h : Attending S m c) : ∃ c', Moves m c c' ∧ Attending S m.step c' := by
  obtain ⟨c', hm, hs⟩ := h.steady.step
  obtain ⟨p, agenda⟩ := m
  refine ⟨c', hm, hs, h.tame_step, h.balanced.step h.steady.tame ?_, h.laid.arranged, ?_⟩
  · rintro ⟨rest, rfl⟩
    exact h.ne_halt rfl
  by_cases hn : ∃ v rest, agenda = .perform (.hear .index 0 v) :: rest
  · obtain ⟨v, rest, rfl⟩ := hn
    rw [Steady.step_perform, perform_hear_page (h.steady.attended (.inr rfl))]
    exact h.watching.openPage
  · exact h.watching.of_touches (h.touches fun v rest heq => hn ⟨v, rest, heq⟩)

end Attending

/-! ### Recitals -/

namespace Recital

variable {S : SceneSource → Prop} {h : List (Machine Player Task)} {m : Session.Move}

/-- The player takes some steps. -/
theorem steps (hr : Recital S h m) (n : Nat) : Recital S (m.machine.trail n ++ h) (m.run n) := by
  induction n generalizing h m with
  | zero => exact hr
  | succ n ih =>
    rw [Machine.trail, List.append_assoc, Session.Move.run, Machine.run_succ]
    exact ih hr.step

/-- The host does something when the player is at rest. -/
theorem deed_of_rest (hr : Recital S h m) (hm : m.2 = []) {move : Session.Move}
    (hd : m.1.Deed S move) : Recital S h move := by
  obtain ⟨s, orders⟩ := m
  obtain rfl : orders = [] := hm
  exact hr.deed hd

/-- A session that has just been opened is watched. -/
theorem attending_open? {source : SceneSource} {filter : DebugFilter} {storage : Storage}
    {clock : Instant} {s : Session} (hS : S source)
    (ho : Session.open? source filter storage clock = .ok s) :
    Attending S ⟨s.player, []⟩ .fresh := by
  obtain ⟨slots, rfl⟩ := Session.exists_of_open? ho
  have hp : Spared S (Session.playerOf source filter slots.settings clock)
      ((Session.playerOf source filter slots.settings clock).note
        (.log (Slots.openedEntry slots.data))) := .withBook _ _ _ _
  obtain ⟨ht, hf⟩ := (Session.steady_playerOf source filter slots.settings clock).of_rest
  refine ⟨.quiet (hp.tame ht) (hp.follows hf) fun o ho => absurd ho List.not_mem_nil,
    hp.tame (Session.tame_playerOf ..), ⟨hp.tidy (tidy_of_empty rfl), fun r => rfl⟩,
    .later (fun o ho => absurd ho List.not_mem_nil) closing_nil, hp.watching ?_⟩
  refine ⟨fun k => ?_, rfl, hS, rfl, @fun c hc o hm => ?_⟩
  · cases k <;> rfl
  · cases c with
    | scene => exact absurd (.inl rfl) hc
    | index => exact absurd (.inr rfl) hc
    | settings => exact .inr ⟨rfl, by rw [List.mem_singleton.1 hm]⟩
    | _ => exact absurd hm List.not_mem_nil

/-- **What deeds and moves preserve holds all along a recital**, in which the session is watched and
on a course. -/
theorem invariant {I : List (Machine Player Task) → Machine Player Task → Course → Prop}
    (opened : ∀ {source filter storage clock} {s : Session},
      Session.open? source filter storage clock = .ok s → I [] ⟨s.player, []⟩ .fresh)
    (deed : ∀ {h} {s : Session} {move : Session.Move} {c}, Attending S ⟨s.player, []⟩ c →
      I h ⟨s.player, []⟩ c → s.Deed S move → I h move.machine c)
    (step : ∀ {h m c c'}, Attending S m c → I h m c → Moves m c c' → Attending S m.step c' →
      I (m :: h) m.step c')
    (hr : Recital S h m) : ∃ c, Attending S m.machine c ∧ I h m.machine c := by
  induction hr with
  | opened hS ho => exact ⟨.fresh, attending_open? hS ho, opened ho⟩
  | deed _ hd ih =>
    obtain ⟨c, hc, hi⟩ := ih
    exact ⟨c, hc.deed hd, deed hc hi hd⟩
  | step _ ih =>
    obtain ⟨c, hc, hi⟩ := ih
    obtain ⟨c', hm, hc'⟩ := hc.step
    exact ⟨c', hc', step hc hi hm hc'⟩

end Recital

end Novella
