import Novella.Proofs.Player.SceneAndIndex

/-!
# Positions

The position of a script is what a snapshot keeps: the scene and the index, what is seen and heard,
and the variables. Signals, traces and interruptions leave it as it is, and what is restored is
there at once.

## Main definitions

* `Player.position` — the position of a player

## Main results

* `Player.position_restore` — what is restored is there
-/

namespace Novella.Player

/-- The position in the script, with what is seen and heard there, and the variables. -/
def position (p : Player) : Context × Progress := (p.stage.context, p.stage.progress)

variable {p q : Player}

theorem position_store (p : Player) (c : CellName) {x : Cell c.Value Reaction × Bool}
    (h : x.1.value = (p.stage.cell c).value) : (p.store c x).position = p.position := by
  cases c <;>
    simp_all [position, store, Stage.withCell, Stage.cell, Stage.context, Stage.audio,
      Stage.graphics, Stage.progress]

theorem position_of_stage (h : q.stage = p.stage) : q.position = p.position := by
  rw [position, position, h]

theorem stage_of_inside (h : q.inside = p.inside) : q.stage = p.stage := by
  change q.inside.stage = p.inside.stage
  rw [h]

theorem position_of_inside (h : q.inside = p.inside) : q.position = p.position :=
  position_of_stage (stage_of_inside h)

@[simp] theorem stage_trace (p : Player) (c : LogCategory) (l : LogLevel) (s : String) :
    (p.trace c l s).stage = p.stage := stage_of_inside (inside_trace ..)

@[simp] theorem stage_interrupt (p : Player) : p.interrupt.stage = p.stage := by
  unfold interrupt
  dsimp only
  split
  · next x _ =>
    cases x with
    | reveal r =>
      unfold cancelHandler stopReveal
      dsimp only
      split
      · split <;> rfl
      · rfl
    | host b t => cases b <;> rfl
    | _ => rfl
  · rfl

@[simp] theorem stage_loadScene (p : Player) (s : String) : (p.loadScene s).stage = p.stage := by
  rw [loadScene]
  dsimp only
  split <;> simp

theorem value_write_of_ne (p : Player) {c d : CellName} (h : d ≠ c) (v : c.Value) :
    ((p.write c v).stage.cell d).value = (p.stage.cell d).value := by
  rw [write, store]
  dsimp only
  rw [Stage.cell_withCell_of_ne _ h]

@[simp] theorem value_notify (p : Player) (c d : CellName) :
    ((p.notify c).stage.cell d).value = (p.stage.cell d).value := by
  rw [notify, store]
  dsimp only
  by_cases h : d = c
  · subst h
    rw [Stage.cell_withCell_self, Cell.value_notify]
  · rw [Stage.cell_withCell_of_ne _ h]

/-- A jump writes no other cells than those of the scene and the index. -/
theorem value_goto (p : Player) {c : CellName} (h : ¬ c.IsPlace) (s : String) (i : UInt64) :
    ((p.goto s i).stage.cell c).value = (p.stage.cell c).value := by
  have hs : c ≠ .scene := fun hc => h (.inl hc)
  have hi : c ≠ .index := fun hc => h (.inr hc)
  rw [goto]
  dsimp only
  split
  · rw [value_write_of_ne _ hi, value_write_of_ne _ hs, stage_interrupt]
  · rw [value_notify, value_write_of_ne _ hi]
    split
    · rw [value_notify, stage_interrupt]
    · rw [stage_interrupt]

/-- What is restored is there. -/
theorem position_restore {k : Nat} {c : Course} (h : p.Follows k c) (x : Context) (v : Progress) :
    (p.restore x v).position = (x, v) := by
  have hf := ((h.present x v).goto x.scene x.index).course
  obtain ⟨ts, ts', hj, -, -⟩ := c.jump_eq x.scene x.index
  rw [hj] at hf
  have kept {d : CellName} (hd : ¬ d.IsPlace) {y : d.Value}
      (hy : ((p.present x v).stage.cell d).value = y) :
      ((p.restore x v).stage.cell d).value = y := (value_goto _ hd _ _).trans hy
  have scene : (p.restore x v).stage.scene.value = x.scene := congrArg Course.scene hf
  have index : (p.restore x v).stage.index.value = x.index := congrArg Course.index hf
  have track : (p.restore x v).stage.track.value = x.audio.track :=
    kept (d := .track) (by decide) (by simp (disch := decide) only [present, value_write_of_ne,
      value_cell_write])
  have effect : (p.restore x v).stage.loopedEffect.value = x.audio.loopedEffect :=
    kept (d := .loopedEffect) (by decide) (by simp (disch := decide) only [present,
      value_write_of_ne, value_cell_write])
  have background : (p.restore x v).stage.background.value = x.graphics.background :=
    kept (d := .background) (by decide) (by simp (disch := decide) only [present,
      value_write_of_ne, value_cell_write])
  have left : (p.restore x v).stage.left.value = x.graphics.left :=
    kept (d := .left) (by decide) (by simp (disch := decide) only [present, value_write_of_ne,
      value_cell_write])
  have center : (p.restore x v).stage.center.value = x.graphics.center :=
    kept (d := .center) (by decide) (by simp (disch := decide) only [present, value_write_of_ne,
      value_cell_write])
  have right : (p.restore x v).stage.right.value = x.graphics.right :=
    kept (d := .right) (by decide) (by simp (disch := decide) only [present, value_write_of_ne,
      value_cell_write])
  have vars : (p.restore x v).stage.vars.value = v :=
    kept (d := .vars) (by decide) (by simp (disch := decide) only [present, value_cell_write])
  rw [position, Stage.context, Stage.audio, Stage.graphics, Stage.progress, scene, index, track,
    effect, background, left, center, right, vars]

theorem position_interrupt (p : Player) : p.interrupt.position = p.position :=
  position_of_stage (stage_interrupt p)

theorem position_loadScene (p : Player) (s : String) : (p.loadScene s).position = p.position :=
  position_of_stage (stage_loadScene p s)

theorem position_completeLoad (p : Player) (r : LoadRequest)
    (x : Except SourceError (List String)) : (p.completeLoad r x).1.position = p.position := by
  unfold completeLoad
  split
  · exact position_of_inside (inside_trace ..)
  · cases x with
    | ok lines =>
      have ht :
          (p.trace .engine .info s!"Scene '{r.scene}' loaded ({lines.length} lines)").position =
            p.position := position_of_inside (inside_trace ..)
      exact (position_store _ _ (Cell.value_notify _)).trans ht
    | error e => rfl

end Novella.Player
