import Novella.Player.World

/-!
# The course of a script

Most of what a player does shows something: it notes events, sends signals, changes the cells of
the presentation, sets timers and reveals text. None of this decides which line or instruction runs
next. What does is gathered in the *course* of a player, together with the cells of the scene and
the index, and the lemmas here say which operations leave it as it is.

The deliveries of the two cells that wait in the event loop are part of the course. They are the
*turns* of the script: only when one of them is heard does another line run.

## Main definitions

* `Player.inside` — a player without what only the host sees
* `Course`, `Player.course` — what decides how the script goes on
* `Player.core` — the course with the cells of the scene and the index

## Main results

* `Player.branch_eq` — a condition changes the queue only
* `Player.inside_emit` — signals stay outside
* `CueCommand.writes_of_cue` — what a cue may write
* `Player.core_write`, `Player.core_carryOut`, `Player.core_armReveal` — the presentation, cues and
  shown texts keep the course
-/

namespace Novella

open Player

namespace CellName

/-- The cells that say where the script is. A presentation only follows them. -/
def IsPlace (c : CellName) : Prop := c = .scene ∨ c = .index

instance : DecidablePred IsPlace := fun c => inferInstanceAs (Decidable (c = .scene ∨ c = .index))

end CellName

/-! ### What only the host sees -/

namespace Player

/-- The player without what only its host sees: events, hooks, pages, listeners and answers. -/
def inside (p : Player) : Player :=
  { p with events := #[], hooks := {}, book := {}, listeners := #[], answer := .none }

@[simp] theorem inside_note (p : Player) (e : Event) : (p.note e).inside = p.inside := rfl

@[simp] theorem inside_logError (p : Player) (s : String) : (p.logError s).inside = p.inside := rfl

/-- A trace is an entry of the log or nothing. -/
theorem trace_eq (p : Player) (c : LogCategory) (l : LogLevel) (s : String) :
    p.trace c l s = p ∨ ∃ e, p.trace c l s = p.note e := by
  rw [trace, DebugFilter.entry]
  split
  · exact .inr ⟨_, rfl⟩
  · exact .inl rfl

/-- A condition changes the queue only, apart from what the host sees. -/
theorem branch_eq (p : Player) (argument : String) :
    ∃ events queue, p.branch argument = { p with events, queue } ∧
      (queue = p.queue ∨ ∃ condition rest,
        Condition.read argument.toList = .ok (condition, rest) ∧
          queue = Line.instructions (String.ofList (Text.trim rest)) ++ p.queue) := by
  have traced (c : LogCategory) (l : LogLevel) (s : String) :
      ∃ events, p.trace c l s = { p with events } := by
    rcases p.trace_eq c l s with h | ⟨e, h⟩
    · exact ⟨p.events, h⟩
    · exact ⟨p.events.push e, h⟩
  unfold branch
  cases hread : Condition.read argument.toList with
  | error e => exact ⟨_, p.queue, rfl, .inl rfl⟩
  | ok r =>
    obtain ⟨condition, rest⟩ := r
    dsimp only
    split
    · exact ⟨_, p.queue, rfl, .inl rfl⟩
    · split
      · obtain ⟨events, he⟩ := traced .flow .debug
          s!"if: taken, running '{String.ofList (Text.trim rest)}'"
        rw [he]
        exact ⟨events, _, rfl, .inr ⟨condition, rest, rfl, rfl⟩⟩
      · obtain ⟨events, he⟩ := traced .flow .trace s!"if: not taken ({argument})"
        exact ⟨events, p.queue, he, .inl rfl⟩
      · exact ⟨_, p.queue, rfl, .inl rfl⟩

@[simp] theorem inside_trace (p : Player) (c : LogCategory) (l : LogLevel) (s : String) :
    (p.trace c l s).inside = p.inside := by
  rcases p.trace_eq c l s with h | ⟨e, h⟩ <;> rw [h]
  rfl

@[simp] theorem inside_react (p : Player) (k : Nat) (o : Occurrence) :
    (p.react k o).1.inside = p.inside := by
  rw [react]
  dsimp only
  split
  · split <;> rfl
  · rfl

@[simp] theorem inside_enter (p : Player) (s : Signal) : (p.enter s).inside = p.inside := by
  cases s <;> rfl

@[simp] theorem inside_passOn (p : Player) (s : Signal) : (p.passOn s).1.inside = p.inside := by
  rw [passOn]
  split
  · exact inside_react ..
  · rfl

@[simp] theorem inside_receive (p : Player) (s : Signal) (r : Receiver) :
    (p.receive s r).1.inside = p.inside := by
  cases r with
  | listener k => exact inside_react ..
  | book => rw [receive, inside_passOn, inside_enter]

/-- A signal leaves the inside of the player as it is. -/
@[simp] theorem inside_emit (p : Player) (s : Signal) : (p.emit s).1.inside = p.inside := by
  rw [emit]
  split
  · exact inside_receive ..
  · rfl

@[simp] theorem inside_connect (p : Player) (h : Hook) (l : Listener) :
    (p.connect h l).1.inside = p.inside := by
  unfold connect connectReceiver
  dsimp only
  split
  · rw [inside_receive]; rfl
  · rfl

@[simp] theorem inside_connectToBook (p : Player) (h : Hook) (l : Listener) :
    (p.connectToBook h l).1.inside = p.inside := by
  rw [connectToBook]
  dsimp only
  split
  · rw [inside_react]; rfl
  · rfl

@[simp] theorem inside_openPage (p : Player) : p.openPage.inside = p.inside := by
  rw [openPage]
  split <;> rfl

@[simp] theorem inside_report (p : Player) (x : Answer) (a : Audience) :
    (p.report x a).inside = p.inside := by
  cases a with
  | events =>
    rw [report]
    split <;> rfl
  | _ => rfl

/-! ### Hosts that only watch -/

variable {p : Player}

theorem listeners_trace (p : Player) (c : LogCategory) (l : LogLevel) (s : String) :
    (p.trace c l s).listeners = p.listeners := by
  rcases p.trace_eq c l s with h | ⟨e, h⟩ <;> rw [h]
  rfl

/-- A host that only watches goes on doing so. -/
theorem bodies_react (hl : ∀ l ∈ p.listeners, l.body = []) (k : Nat) (o : Occurrence) :
    ∀ l ∈ (p.react k o).1.listeners, l.body = [] := by
  rw [react]
  dsimp only
  split
  · next l hk =>
    split
    · intro x hx
      rcases Array.mem_or_eq_of_mem_setIfInBounds hx with hx | rfl
      · exact hl x hx
      · exact hl l (Array.mem_of_getElem? hk)
    · exact hl
  · exact hl

theorem bodies_emit (hl : ∀ l ∈ p.listeners, l.body = []) (s : Signal) :
    ∀ l ∈ (p.emit s).1.listeners, l.body = [] := by
  rw [emit]
  split
  · next r _ =>
    cases r with
    | listener k => exact bodies_react hl k _
    | book =>
      have he : ∀ l ∈ (p.enter s).listeners, l.body = [] := by
        cases s <;> exact hl
      rw [receive, passOn]
      split
      · exact bodies_react he _ _
      · exact he
  · exact hl

/-- A host that only watches leaves nothing to be done. -/
theorem orders_react (hl : ∀ l ∈ p.listeners, l.body = []) (k : Nat) (o : Occurrence) :
    (p.react k o).2 = [] := by
  rw [react]
  dsimp only
  split
  · next l hk =>
    split
    · have hb := hl l (Array.mem_of_getElem? hk)
      simp [hb]
    · rfl
  · rfl

theorem orders_emit (hl : ∀ l ∈ p.listeners, l.body = []) (s : Signal) : (p.emit s).2 = [] := by
  rw [emit]
  split
  · next r _ =>
    cases r with
    | listener k => exact orders_react hl ..
    | book =>
      have he : ∀ l ∈ (p.enter s).listeners, l.body = [] := by
        cases s <;> exact hl
      rw [receive, passOn]
      split
      · exact orders_react he ..
      · rfl
  · rfl

end Player

/-! ### Timers -/

namespace Schedule

variable {τ : Type} (s : Schedule τ)

/-! Timers wait in the loop for their time, and no microtask comes of that. -/

theorem microtasks_start (ring : Nat → τ) (k : Nat) :
    (s.start ring k).loop.microtasks = s.loop.microtasks := by
  rw [start]
  split
  · split <;> rfl
  · rfl

theorem microtasks_disarm (k : Nat) (t : Timer τ) (x : TimerState) :
    (s.disarm k t x).loop.microtasks = s.loop.microtasks := by
  rw [disarm]
  dsimp only
  split <;> rfl

theorem microtasks_cancel (k : Nat) : (s.cancel k).loop.microtasks = s.loop.microtasks := by
  rw [cancel]
  split
  · exact microtasks_disarm ..
  · rfl

theorem microtasks_skip (k : Nat) : (s.skip k).1.loop.microtasks = s.loop.microtasks := by
  rw [skip]
  split
  · split
    · exact microtasks_disarm ..
    · exact microtasks_disarm ..
    · rfl
  · rfl

theorem microtasks_ring (ring : Nat → τ) (k : Nat) :
    (s.ring ring k).1.loop.microtasks = s.loop.microtasks := by
  rw [Schedule.ring]
  split
  · split
    · dsimp only
      split <;> rfl
    · rfl
  · rfl

end Schedule

/-! ### The course -/

/-- What decides how a script goes on. -/
structure Course where
  /-- The scene in its cell. -/
  scene : String
  /-- The index in its cell. -/
  index : UInt64
  /-- The deliveries of scene and index that wait, first one first. -/
  turns : List CellName
  /-- The lines of the scene, once it is loaded. -/
  lines : Option (List String)
  /-- Where the player is. -/
  phase : Phase
  /-- The instructions of the line that are still to run. -/
  queue : List Instruction
  /-- The generation of the last instruction. -/
  generation : Nat
  /-- The tickets not given back. -/
  live : List Ticket
  /-- The number of scenes asked for. -/
  loadVersion : Nat
  /-- The request for a scene, until it is taken. -/
  loadRequest : Option LoadRequest
  /-- The requests that the host has taken. -/
  requests : Array LoadRequest

namespace Player

/-- The cell of the script that a task delivers, as a list. -/
def Task.turn : Task → List CellName
  | .deliver c => if c.IsPlace then [c] else []
  | _ => []

/-- The deliveries of scene and index that wait in the loop. -/
def turns (p : Player) : List CellName := p.loop.microtasks.flatMap Task.turn

/-- The course of a player. -/
def course (p : Player) : Course where
  scene := p.stage.scene.value
  index := p.stage.index.value
  turns := p.turns
  lines := p.lines
  phase := p.phase
  queue := p.queue
  generation := p.generation
  live := p.live
  loadVersion := p.loadVersion
  loadRequest := p.loadRequest
  requests := p.requests

/-- The course together with the cells of the scene and the index. -/
def core (p : Player) : Cell String Reaction × Cell UInt64 Reaction × Course :=
  (p.stage.scene, p.stage.index, p.course)

variable {p q : Player}

theorem core_of_inside (h : q.inside = p.inside) : q.core = p.core := by
  change q.inside.core = p.inside.core
  rw [h]

theorem course_of_core (h : q.core = p.core) : q.course = p.course := congrArg (·.2.2) h

theorem scene_of_core (h : q.core = p.core) : q.stage.scene = p.stage.scene := congrArg (·.1) h

theorem index_of_core (h : q.core = p.core) : q.stage.index = p.stage.index := congrArg (·.2.1) h

@[simp] theorem core_note (p : Player) (e : Event) : (p.note e).core = p.core := rfl

@[simp] theorem core_logError (p : Player) (s : String) : (p.logError s).core = p.core := rfl

@[simp] theorem core_trace (p : Player) (c : LogCategory) (l : LogLevel) (s : String) :
    (p.trace c l s).core = p.core := core_of_inside (inside_trace ..)

@[simp] theorem core_react (p : Player) (k : Nat) (o : Occurrence) :
    (p.react k o).1.core = p.core := core_of_inside (inside_react ..)

@[simp] theorem core_emit (p : Player) (s : Signal) : (p.emit s).1.core = p.core :=
  core_of_inside (inside_emit ..)

/-! ### The presentation -/

theorem turns_store (p : Player) {c : CellName} (hc : ¬ c.IsPlace)
    (r : Cell c.Value Reaction × Bool) : (p.store c r).turns = p.turns := by
  unfold turns loop store
  dsimp only
  split
  · simp [Schedule.queueMicrotask, Loop.queueMicrotask, Task.turn, hc]
  · rfl

/-- A change of a cell of the presentation keeps the course. -/
theorem core_store (p : Player) {c : CellName} (hc : ¬ c.IsPlace)
    (r : Cell c.Value Reaction × Bool) : (p.store c r).core = p.core := by
  have ht := turns_store p hc r
  rw [core, course]
  rw [ht]
  cases c <;> first | rfl | exact absurd (Or.inl rfl) hc | exact absurd (Or.inr rfl) hc

theorem core_write (p : Player) {c : CellName} (hc : ¬ c.IsPlace) (v : c.Value) :
    (p.write c v).core = p.core := core_store p hc _

theorem core_notify (p : Player) {c : CellName} (hc : ¬ c.IsPlace) :
    (p.notify c).core = p.core := core_store p hc _

theorem core_observe (p : Player) {c : CellName} (hc : ¬ c.IsPlace) (r : Reaction)
    (accepts : c.Value → Bool) (once : Bool) : (p.observe c r accepts once).core = p.core :=
  core_store p hc _

@[simp] theorem core_playEffect (p : Player) (name : String) :
    (p.playEffect name).core = p.core := by
  rw [playEffect, core_notify _ (by decide), core_write _ (by decide)]

@[simp] theorem core_present (p : Player) (c : Context) (v : Progress) :
    (p.present c v).core = p.core := by
  simp (disch := decide) only [present, core_write]

@[simp] theorem core_storeOutcome (p : Player) (opcode argument : String)
    (r : Except AssignmentError Assignment.Outcome) :
    (p.storeOutcome opcode argument r).core = p.core := by
  cases r with
  | ok o => rw [storeOutcome, core_trace, core_write _ (by decide)]
  | error e => rfl

/-! ### Timers and shown texts -/

/-- What happens to the timers keeps the course, as long as the microtasks stay. -/
theorem core_withSchedule (p : Player) {s : Schedule Task}
    (h : s.loop.microtasks = p.loop.microtasks) : { p with schedule := s }.core = p.core := by
  simp only [core, course, turns, loop] at h ⊢
  rw [h]

@[simp] theorem core_startTimer (p : Player) (d : Nat) (repeats : Bool) (t : Task) :
    (p.startTimer d repeats t).core = p.core := core_withSchedule p (Schedule.microtasks_start ..)

@[simp] theorem core_cancelTimer (p : Player) (k : Nat) : (p.cancelTimer k).core = p.core :=
  core_withSchedule p (Schedule.microtasks_cancel ..)

theorem core_skipTimer (p : Player) (k : Nat) :
    { p with schedule := (p.schedule.skip k).1 }.core = p.core :=
  core_withSchedule p (Schedule.microtasks_skip ..)

theorem core_ringTimer (p : Player) (ring : Nat → Task) (k : Nat) :
    { p with schedule := (p.schedule.ring ring k).1 }.core = p.core :=
  core_withSchedule p (Schedule.microtasks_ring ..)

@[simp] theorem core_modifyReveal (p : Player) (r : Nat) (f : Reveal → Reveal) :
    (p.modifyReveal r f).core = p.core := rfl

theorem getElem?_modifyReveal {p : Player} {r : Nat} {v : Reveal} (hv : p.reveals[r]? = some v)
    (f : Reveal → Reveal) : (p.modifyReveal r f).reveals[r]? = some (f v) := by
  rw [modifyReveal, Array.getElem?_modify, if_pos rfl, hv]
  rfl

@[simp] theorem core_stopReveal (p : Player) (r : Nat) (v : Reveal) (mode : Reveal.Mode) :
    (p.stopReveal r v mode).core = p.core := by
  rw [stopReveal]
  split <;> simp

@[simp] theorem core_armReveal (p : Player) (r : Nat) (mode : Reveal.Mode) (d : Nat)
    (repeats : Bool) (a : Reveal.Act) : (p.armReveal r mode d repeats a).core = p.core := by
  simp [armReveal]

@[simp] theorem core_waitFor (p : Player) (d : Nat) (t : Ticket) :
    (p.waitFor d t).1.core = p.core := by
  rw [waitFor]
  split <;> simp

@[simp] theorem core_cancelHandler (p : Player) (x : Handler) :
    (p.cancelHandler x).core = p.core := by
  cases x with
  | timer k => exact core_cancelTimer ..
  | reveal r =>
    rw [cancelHandler]
    split
    · exact core_stopReveal ..
    · rfl
  | host b t => cases b <;> rfl
  | _ => rfl

/-! ### Cues -/

theorem core_foldl_write (ws : List CellWrite) (hw : ∀ w ∈ ws, ¬ w.cell.IsPlace) (p : Player) :
    (ws.foldl (fun p w => p.write w.cell w.value) p).core = p.core := by
  induction ws generalizing p with
  | nil => rfl
  | cons w ws ih =>
    rw [List.foldl_cons, ih fun x hx => hw x (List.mem_cons_of_mem _ hx),
      core_write _ (hw w List.mem_cons_self)]

end Player

namespace Cue

/-- The cue writes the presentation only. -/
def Presents (c : Cue) : Prop := ∀ w ∈ c.writes, ¬ w.cell.IsPlace

end Cue

/-- The cells that cues write. -/
def CellName.cued : List CellName := [.background, .left, .center, .right, .track, .loopedEffect]

namespace CueCommand

open Cue

variable {c : CueCommand} {opcode argument : String} {x : Cue} {w : CellWrite}

theorem cell_spriteWrite_mem (image : String) (x : SpritePosition) :
    (spriteWrite image x).cell ∈ CellName.cued := by
  cases x <;> simp [spriteWrite, CellName.cued]

/-- No sprite is cleared twice. -/
theorem nodup_cleared (args : List String) : ((cleared args).map CellWrite.cell).Nodup := by
  unfold cleared
  split
  · exact .nil
  · decide
  · cases (SpritePosition.read? _).map (spriteWrite "") <;> simp

theorem cell_mem_of_mem_cleared {args : List String} (hw : w ∈ cleared args) :
    w.cell ∈ CellName.cued := by
  unfold cleared at hw
  split at hw
  · exact absurd hw List.not_mem_nil
  · obtain ⟨x, -, rfl⟩ := List.mem_map.1 hw
    exact cell_spriteWrite_mem "" x
  · obtain ⟨x, -, rfl⟩ := Option.map_eq_some_iff.1 (Option.mem_toList.1 hw)
    exact cell_spriteWrite_mem "" x

/-- A cue writes cells for pictures and sounds, none of them twice, and only one command plays a
sound once. -/
theorem writes_of_cue (h : c.cue opcode argument = .ok x) :
    (∀ w ∈ x.writes, w.cell ∈ CellName.cued) ∧ (x.writes.map CellWrite.cell).Nodup ∧
      (c ≠ .sound → x.effect = none) := by
  have single {w : CellWrite} (hw : w.cell ∈ CellName.cued) :
      (∀ w' ∈ [w], w'.cell ∈ CellName.cued) ∧ ([w].map CellWrite.cell).Nodup ∧
        (c ≠ .sound → none = (none : Option String)) :=
    ⟨List.forall_mem_singleton.2 hw, by simp, fun _ => rfl⟩
  unfold cue at h
  generalize Arguments.split argument = args at h
  cases c with
  | background =>
    dsimp only at h
    split at h
    · cases h
      refine ⟨List.forall_mem_cons.2 ⟨by simp [CellName.cued], fun w hw => ?_⟩,
        by simp [clearAll, spriteWrite], fun _ => rfl⟩
      obtain ⟨x, -, rfl⟩ := List.mem_map.1 hw
      exact cell_spriteWrite_mem "" x
    · cases h
  | sprite =>
    dsimp only at h
    split at h
    · cases h
      exact single (cell_spriteWrite_mem _ _)
    · cases h
  | clear =>
    dsimp only at h
    split at h
    · cases h
    · cases h
      exact ⟨fun w hw => cell_mem_of_mem_cleared hw, nodup_cleared _, fun _ => rfl⟩
  | stopMusic | stopSound =>
    cases h
    exact single (by decide)
  | music | loopSound =>
    dsimp only at h
    split at h
    · cases h
      exact single (by simp [CellName.cued])
    · cases h
  | sound =>
    dsimp only at h
    split at h
    · cases h
      exact ⟨fun w hw => absurd hw List.not_mem_nil, .nil, fun hc => absurd rfl hc⟩
    · cases h
/-- Pictures and sounds are part of the presentation. -/
theorem presents (h : c.cue opcode argument = .ok x) : x.Presents := fun w hw =>
  (by decide : ∀ y ∈ CellName.cued, ¬ y.IsPlace) _ ((writes_of_cue h).1 w hw)

end CueCommand

namespace Player

theorem core_carryOut (p : Player) {cue : Cue} (h : cue.Presents) (t : Ticket) :
    (p.carryOut cue t).1.core = p.core := by
  unfold carryOut
  dsimp only
  rw [core_waitFor]
  split
  · rw [core_playEffect, core_foldl_write _ h]
  · rw [core_foldl_write _ h]

end Player

end Novella
