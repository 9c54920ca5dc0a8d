import Novella.Proofs.Player.LineState

/-!
# What is on display

A presentation sees the cells, and it hears of their changes by the deliveries that wait in the
loop. The two are the *display* of a player. Whatever a script or its host does to the cells, it
does by changes of two kinds: a cell is written, or its value is to be delivered anyway. So what an
operation does to the display is a list of changes, in their order.

An instruction changes the index or the cells of the presentation, but never both, and it writes
none of these cells twice.

## Main definitions

* `Display`, `Player.display` — the cells with what the loop does next
* `CellChange`, `Display.changed` — changes of cells, and what becomes of the display
* `Command.changes` — the changes that a command makes

## Main results

* `Player.display_execute` — a command makes its changes
* `Command.changes_sound`, `Command.changes_eq_writes` — which changes these are
-/

namespace Novella

open Player

/-- The cells, with what the loop does next. -/
structure Display where
  /-- The cells. -/
  stage : Stage Reaction
  /-- What the loop does next. -/
  microtasks : List Task

/-- The display of a desk. -/
def Desk.display (d : Desk) : Display := ⟨d.stage, d.microtasks⟩

/-- The display of a player. -/
def Player.display (p : Player) : Display := ⟨p.stage, p.loop.microtasks⟩

/-- A change of a cell. -/
inductive CellChange where
  /-- It is written. -/
  | write (w : CellWrite)
  /-- Its value is to be delivered anyway. -/
  | notify (c : CellName)

/-- The cell that changes. -/
def CellChange.cell : CellChange → CellName
  | write w => w.cell
  | notify c => c

namespace Display

variable (d : Display)

/-- The display with another cell, whose delivery is queued if one is asked for. -/
def store (c : CellName) (r : Cell c.Value Reaction × Bool) : Display where
  stage := d.stage.withCell c r.1
  microtasks := if r.2 then d.microtasks ++ [.deliver c] else d.microtasks

/-- The display after a change. -/
def change : CellChange → Display
  | .write w => d.store w.cell ((d.stage.cell w.cell).set w.value)
  | .notify c => d.store c (d.stage.cell c).notify

/-- The display after some changes. -/
def changed (xs : List CellChange) : Display := xs.foldl change d

@[simp] theorem changed_cons (x : CellChange) (xs : List CellChange) :
    d.changed (x :: xs) = (d.change x).changed xs := rfl

theorem changed_append (xs ys : List CellChange) :
    d.changed (xs ++ ys) = (d.changed xs).changed ys := List.foldl_append ..

end Display

/-! ### Operations of a player -/

/-- The changes that play a sound. -/
def CellChange.playing (name : String) : List CellChange :=
  [.write ⟨.soundEffect, some name⟩, .notify .soundEffect]

/-- The changes of a cue. -/
def Cue.changes (cue : Cue) : List CellChange :=
  cue.writes.map .write ++ cue.effect.elim [] CellChange.playing

/-- The changes that a command makes. -/
def Command.changes (stage : Stage Reaction) (opcode argument : String) :
    Command → List CellChange
  | .skip =>
    match Numeral.int64? (Text.trim argument.toList) with
    | none | some 0 => []
    | some n => [.write ⟨.index, skipTarget stage.index.value n⟩]
  | .cue c => (c.cue opcode argument).toOption.elim [] Cue.changes
  | .assign op =>
    (Assignment.apply stage.progress op argument).toOption.elim []
      fun o => [.write ⟨.vars, o.progress⟩]
  | .step delta =>
    (Assignment.step stage.progress delta argument).toOption.elim []
      fun o => [.write ⟨.vars, o.progress⟩]
  | _ => []

namespace Player

variable {p q : Player}

theorem display_of_desk (h : q.desk = p.desk) : q.display = p.display := congrArg Desk.display h

theorem display_store (p : Player) (c : CellName) (r : Cell c.Value Reaction × Bool) :
    (p.store c r).display = p.display.store c r := by
  rw [display, store, Display.store]
  split <;> rfl

theorem display_write (p : Player) (c : CellName) (v : c.Value) :
    (p.write c v).display = p.display.change (.write ⟨c, v⟩) := display_store ..

theorem display_notify (p : Player) (c : CellName) :
    (p.notify c).display = p.display.change (.notify c) := display_store ..

theorem display_playEffect (p : Player) (name : String) :
    (p.playEffect name).display = p.display.changed (CellChange.playing name) := by
  rw [playEffect, display_notify, display_write]
  rfl

theorem display_foldl_write (ws : List CellWrite) (p : Player) :
    (ws.foldl (fun p w => p.write w.cell w.value) p).display =
      p.display.changed (ws.map .write) := by
  induction ws generalizing p with
  | nil => rfl
  | cons w ws ih =>
    rw [List.foldl_cons, ih, display_write, List.map_cons, Display.changed_cons]

theorem display_carryOut (p : Player) (cue : Cue) (t : Ticket) :
    (p.carryOut cue t).1.display = p.display.changed cue.changes := by
  rw [carryOut, display_of_desk (desk_waitFor ..), Cue.changes, Display.changed_append,
    ← display_foldl_write]
  cases cue.effect with
  | none => rfl
  | some name => exact display_playEffect ..

theorem display_storeOutcome (p : Player) (opcode argument : String)
    (r : Except AssignmentError Assignment.Outcome) :
    (p.storeOutcome opcode argument r).display =
      p.display.changed (r.toOption.elim [] fun o => [.write ⟨.vars, o.progress⟩]) := by
  cases r with
  | ok o => exact (display_of_desk (desk_trace ..)).trans (display_write ..)
  | error e => rfl

/-- A jump within the scene writes the index. -/
theorem changes_skip {argument : String} {n : Int64} (stage : Stage Reaction) (opcode : String)
    (h : Numeral.int64? (Text.trim argument.toList) = some n) (hn : n ≠ 0) :
    Command.skip.changes stage opcode argument =
      [.write ⟨.index, skipTarget stage.index.value n⟩] := by
  rw [Command.changes, h]
  split
  · next heq => cases heq
  · next heq => exact absurd (Option.some.inj heq) hn
  · next heq => rw [Option.some.inj heq]

theorem display_skip (p : Player) (argument : String) :
    (p.skip argument).display = p.display.changed (Command.skip.changes p.stage "" argument) := by
  unfold skip
  split
  · next h =>
    rw [Command.changes, h]
    rfl
  · next h =>
    rw [Command.changes, h]
    rfl
  · next n hn h =>
    have ht (s : String) : (p.trace .flow .debug s).display = p.display :=
      display_of_desk (desk_trace ..)
    rw [changes_skip p.stage "" h hn]
    refine (display_write ..).trans ?_
    rw [ht]
    exact rfl

/-- A command makes its changes. -/
theorem display_execute (p : Player) (command : Command) (opcode argument : String) (t : Ticket) :
    (p.execute command opcode argument t).1.display =
      p.display.changed (command.changes p.stage opcode argument) := by
  cases command with
  | text | click | setDelay | resetDelay =>
    simp only [execute]
    first | rfl | (split <;> rfl)
  | pageBreak => exact display_of_desk (desk_emit ..)
  | lineBreak => exact display_of_desk (desk_emit ..)
  | wait =>
    simp only [execute]
    split
    · exact display_of_desk (desk_waitFor ..)
    · rfl
  | branch =>
    have h := congrArg Desk.display (desk_branch p argument)
    exact h
  | skip => exact display_skip ..
  | exit => exact display_of_desk ((desk_emit ..).trans (desk_trace ..))
  | cue c =>
    simp only [execute, Command.changes]
    split
    · next hx =>
      rw [hx]
      exact display_carryOut ..
    · next hx =>
      rw [hx]
      rfl
  | assign op => exact display_storeOutcome ..
  | step delta => exact display_storeOutcome ..
  | host b body => cases b <;> rfl

/-- A jump has the scene or the index delivered. -/
theorem display_goto (p : Player) (scene : String) (index : UInt64) :
    ∃ xs : List CellChange, (p.goto scene index).display = p.display.changed xs ∧
      ∀ x ∈ xs, x.cell.IsPlace := by
  have hi : p.interrupt.display = p.display := congrArg Desk.display (desk_interrupt p)
  rw [goto]
  dsimp only
  rw [← hi]
  split
  · refine ⟨[.write ⟨.scene, scene⟩, .write ⟨.index, index⟩], ?_, ?_⟩
    · rw [display_write, display_write]
      rfl
    · simp [CellChange.cell, CellName.IsPlace]
  · split
    · refine ⟨[.notify .scene, .write ⟨.index, index⟩, .notify .index], ?_, ?_⟩
      · rw [display_notify, display_write, display_notify]
        rfl
      · simp [CellChange.cell, CellName.IsPlace]
    · refine ⟨[.write ⟨.index, index⟩, .notify .index], ?_, ?_⟩
      · rw [display_notify, display_write]
        rfl
      · simp [CellChange.cell, CellName.IsPlace]

/-- Bringing back a position plays no sound and leaves the settings alone. -/
theorem display_restore (p : Player) (c : Context) (v : Progress) :
    ∃ xs : List CellChange, (p.restore c v).display = p.display.changed xs ∧
      ∀ x ∈ xs, x.cell ≠ .soundEffect ∧ x.cell ≠ .settings := by
  obtain ⟨xs, hd, hxs⟩ := display_goto (p.present c v) c.scene c.index
  refine ⟨[CellChange.write ⟨.track, c.audio.track⟩, .write ⟨.loopedEffect, c.audio.loopedEffect⟩,
    .write ⟨.background, c.graphics.background⟩, .write ⟨.left, c.graphics.left⟩,
    .write ⟨.center, c.graphics.center⟩, .write ⟨.right, c.graphics.right⟩,
    .write ⟨.vars, v⟩] ++ xs, ?_, fun x hx => ?_⟩
  · rw [restore, hd, Display.changed_append, present]
    simp only [display_write]
    rfl
  · rcases List.mem_append.1 hx with hx | hx
    · simp only [List.mem_cons, List.not_mem_nil, or_false] at hx
      rcases hx with rfl | rfl | rfl | rfl | rfl | rfl | rfl <;> simp [CellChange.cell]
    · rcases hxs x hx with h | h <;> rw [h] <;> exact ⟨by decide, by decide⟩

/-- When a scene is loaded the index is delivered. -/
theorem display_completeLoad (p : Player) (r : LoadRequest)
    (x : Except SourceError (List String)) :
    ∃ xs : List CellChange, (p.completeLoad r x).1.display = p.display.changed xs ∧
      ∀ x ∈ xs, x.cell = .index := by
  have same {q : Player} (hq : q.display = p.display) : ∃ xs : List CellChange,
      q.display = p.display.changed xs ∧ ∀ x ∈ xs, x.cell = .index :=
    ⟨[], hq, fun x hx => absurd hx List.not_mem_nil⟩
  unfold completeLoad
  split
  · exact same (display_of_desk (desk_trace ..))
  · cases x with
    | error e => exact same rfl
    | ok lines =>
      refine ⟨[.notify .index], ?_, by simp [CellChange.cell]⟩
      exact (display_notify ..).trans
        (congrArg (Display.change · _) (display_of_desk (desk_trace ..)))

end Player

/-! ### What commands change -/

namespace Command

variable {command : Command}

/-- A sound that is named is played. -/
theorem changes_sound (stage : Stage Reaction) (opcode argument : String) :
    (cue .sound).changes stage opcode argument =
      (Cue.named? (Arguments.split argument) 0).elim [] CellChange.playing := by
  simp only [changes, CueCommand.cue]
  cases Cue.named? (Arguments.split argument) 0 <;> rfl

/-- All other commands write cells, and none of them twice. -/
theorem changes_eq_writes (hc : command ≠ .cue .sound) (stage : Stage Reaction)
    (opcode argument : String) : ∃ ws : List CellWrite,
      command.changes stage opcode argument = ws.map .write ∧ (ws.map CellWrite.cell).Nodup ∧
        ∀ w ∈ ws, w.cell ≠ .soundEffect ∧ (command ≠ .skip → ¬ w.cell.IsPlace) ∧
          (command = .skip → w.cell = .index) := by
  have single {w : CellWrite} (hw : w.cell ≠ .soundEffect)
      (hn : command ≠ .skip → ¬ w.cell.IsPlace) (hs : command = .skip → w.cell = .index) :
      ([w].map CellWrite.cell).Nodup ∧ ∀ w' ∈ [w], w'.cell ≠ .soundEffect ∧
        (command ≠ .skip → ¬ w'.cell.IsPlace) ∧ (command = .skip → w'.cell = .index) := by
    refine ⟨by simp, fun w' hw' => ?_⟩
    rw [List.mem_singleton.1 hw']
    exact ⟨hw, hn, hs⟩
  have none : ∃ ws : List CellWrite, ([] : List CellChange) = ws.map .write ∧
      (ws.map CellWrite.cell).Nodup ∧ ∀ w ∈ ws, w.cell ≠ .soundEffect ∧
        (command ≠ .skip → ¬ w.cell.IsPlace) ∧ (command = .skip → w.cell = .index) :=
    ⟨[], rfl, .nil, fun w hw => absurd hw List.not_mem_nil⟩
  cases command with
  | skip =>
    rw [changes]
    split
    · exact none
    · exact none
    · exact ⟨[_], rfl, single (by simp) (fun h => absurd rfl h) fun _ => rfl⟩
  | cue c =>
    rw [changes]
    cases hx : c.cue opcode argument with
    | error e => exact none
    | ok x =>
      obtain ⟨hcued, hnodup, he⟩ := CueCommand.writes_of_cue hx
      have hne := (by decide : ∀ y ∈ CellName.cued, y ≠ .soundEffect)
      refine ⟨x.writes, ?_, hnodup, fun w hw => ⟨hne _ (hcued w hw),
        fun _ => CueCommand.presents hx w hw, fun h => by cases h⟩⟩
      change x.changes = _
      rw [Cue.changes, he fun h => hc (h ▸ rfl)]
      exact List.append_nil _
  | assign op =>
    rw [changes]
    cases Assignment.apply stage.progress op argument with
    | error e => exact none
    | ok o => exact ⟨[⟨.vars, o.progress⟩], rfl, single (by simp)
        (fun _ => by simp [CellName.IsPlace]) fun h => by cases h⟩
  | step delta =>
    rw [changes]
    cases Assignment.step stage.progress delta argument with
    | error e => exact none
    | ok o => exact ⟨[⟨.vars, o.progress⟩], rfl, single (by simp)
        (fun _ => by simp [CellName.IsPlace]) fun h => by cases h⟩
  | _ => exact none

end Command

end Novella
