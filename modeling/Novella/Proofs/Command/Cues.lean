import Novella.Proofs.Player.DisplayedCells
import Novella.Proofs.Player.WaitingHandler

/-!
# Pictures and sounds

A command for pictures or sounds divides its argument and looks for what it needs in the parts: a
name, a place, and for pictures the time that the change takes. If something is missing it logs an
error and is done. Otherwise the cells that it is about get their new values, and no others, and
with a time in the argument its instruction waits for a timer.

What an argument asks for is said once for all commands, without their code, as a relation between
the parts of the argument and the new values.

## Main definitions

* `Cue.opcodes`, `Cue.Asks` — the commands, and what they are asked for by their arguments
* `Player.Presents` — some cells have new values, and all else is as it was
* `Player.Cued` — a command does what it is asked for, or nothing

## Main results

* `Player.execute_cued` — every command does what it is asked for, or nothing
* `Cue.all_or_nothing` — so does every instruction, and its wait is kept
-/

namespace Novella

open Player

namespace Cue

/-- The commands for pictures and sounds, by their opcodes. -/
def commands : List (String × CueCommand) :=
  [("bg", .background), ("ld", .sprite), ("cl", .clear), ("play", .music), ("mp3loop", .music),
    ("playstop", .stopMusic), ("wave", .sound), ("waveloop", .loopSound), ("wavestop", .stopSound)]

/-- Their opcodes. -/
def opcodes : List String := commands.map Prod.fst

/-- What the commands are asked for by their arguments: new values of cells, and for pictures the
argument that says how long the change takes. -/
inductive Asks : String → List String → List CellWrite → Option String → Prop where
  /-- Another background takes all sprites away. -/
  | background {image : String} {rest : List String} : image ≠ "" →
      Asks "bg" (image :: rest)
        [⟨.background, image⟩, ⟨.left, ""⟩, ⟨.center, ""⟩, ⟨.right, ""⟩] rest[1]?
  /-- A sprite takes its place. -/
  | sprite {place image : String} {rest : List String} {x : SpritePosition} :
      SpritePosition.read? place = some x → image ≠ "" →
      Asks "ld" (place :: image :: rest) [spriteWrite image x] rest[1]?
  /-- All sprites go. -/
  | clearAll {rest : List String} :
      Asks "cl" ("a" :: rest) [⟨.left, ""⟩, ⟨.center, ""⟩, ⟨.right, ""⟩] rest[1]?
  /-- One sprite goes. -/
  | clear {place : String} {rest : List String} {x : SpritePosition} :
      SpritePosition.read? place = some x → Asks "cl" (place :: rest) [spriteWrite "" x] rest[1]?
  /-- Music is played. -/
  | music {opcode track : String} {rest : List String} : opcode = "play" ∨ opcode = "mp3loop" →
      track ≠ "" → Asks opcode (track :: rest) [⟨.track, track⟩] none
  /-- The music stops. -/
  | stopMusic {args : List String} : Asks "playstop" args [⟨.track, ""⟩] none
  /-- A sound is played once. -/
  | sound {name : String} {rest : List String} : name ≠ "" →
      Asks "wave" (name :: rest) [⟨.soundEffect, some name⟩] none
  /-- A sound is played again and again. -/
  | loopSound {name : String} {rest : List String} : name ≠ "" →
      Asks "waveloop" (name :: rest) [⟨.loopedEffect, name⟩] none
  /-- The repeated sound stops. -/
  | stopSound {args : List String} : Asks "wavestop" args [⟨.loopedEffect, ""⟩] none

end Cue

/-- The cells take these values, and nothing else happens but that their changes are delivered. -/
structure Player.Presents (p q : Player) (ws : List CellWrite) : Prop where
  /-- Only cells have changed, and what is delivered of them. -/
  stages : p.Stages q
  /-- Each cell has its new value. -/
  written {w : CellWrite} : w ∈ ws → (q.stage.cell w.cell).value = w.value
  /-- All other cells are as they were. -/
  kept {c : CellName} : (∀ w ∈ ws, w.cell ≠ c) → q.stage.cell c = p.stage.cell c

open Cue

/-- A command for pictures or sounds does what its argument asks for, or nothing. -/
structure Player.Cued (p : Player) (opcode argument : String) (t : Ticket)
    (r : Player × Orders × Completion) : Prop where
  /-- If it asks for nothing an error is logged. -/
  refused : (∀ ws d, ¬ Cue.Asks opcode (Arguments.split argument) ws d) →
    ∃ text, r = (p.logError text, [], .completed)
  /-- Otherwise the cells are written, all of them and no others. If it takes a time the command
  waits, and else it is done at once. -/
  presented {ws : List CellWrite} {d : Option String} :
    Cue.Asks opcode (Arguments.split argument) ws d → ∃ q, p.Presents q ws ∧
      q.stage.vars = p.stage.vars ∧
      (∀ ms, d.bind Arguments.millis? = some ms → 0 < ms →
        r = (q.startTimer ms.toNat false (.finish t), [],
          .pending (.timer p.schedule.timers.size))) ∧
      ((∀ ms, d.bind Arguments.millis? = some ms → ms = 0) → r = (q, [], .completed))

namespace Player

variable {p q u : Player} {ws ws' : List CellWrite}

theorem Presents.refl (p : Player) : p.Presents p [] :=
  ⟨.refl p, fun hw => absurd hw List.not_mem_nil, fun _ => rfl⟩

/-- Cells that are written one after the other have their values if none is written twice. -/
theorem Presents.trans (h : p.Presents q ws) (h' : q.Presents u ws')
    (hd : ∀ w ∈ ws, ∀ w' ∈ ws', w'.cell ≠ w.cell) : p.Presents u (ws ++ ws') where
  stages := h.stages.trans h'.stages
  written hw := by
    rcases List.mem_append.1 hw with hw | hw
    · rw [h'.kept (hd _ hw)]
      exact h.written hw
    · exact h'.written hw
  kept hc := (h'.kept fun w hw => hc w (List.mem_append_right _ hw)).trans
    (h.kept fun w hw => hc w (List.mem_append_left _ hw))

theorem presents_write (p : Player) (w : CellWrite) : p.Presents (p.write w.cell w.value) [w] where
  stages := stages_write ..
  written hw := by
    rw [List.mem_singleton.1 hw]
    exact value_cell_write ..
  kept hc := Stage.cell_withCell_of_ne _ (hc w List.mem_cons_self).symm _

theorem presents_foldl_write (p : Player) (hn : (ws.map CellWrite.cell).Nodup) :
    p.Presents (ws.foldl (fun p w => p.write w.cell w.value) p) ws := by
  induction ws generalizing p with
  | nil => exact .refl p
  | cons w ws ih =>
    obtain ⟨hw, hn⟩ := List.nodup_cons.1 hn
    refine (presents_write p w).trans (ih _ hn) fun v hv v' hv' heq => hw ?_
    rw [← List.mem_singleton.1 hv, ← heq]
    exact List.mem_map_of_mem hv'

/-- A sound is a cell that is delivered anyway. -/
theorem presents_playEffect (p : Player) (name : String) :
    p.Presents (p.playEffect name) [⟨.soundEffect, some name⟩] where
  stages := stages_playEffect ..
  written hw := by
    rw [List.mem_singleton.1 hw]
    exact (value_notify _ .soundEffect .soundEffect).trans (value_cell_write ..)
  kept hc := by
    have hne := (hc _ List.mem_cons_self).symm
    exact (Stage.cell_withCell_of_ne _ hne _).trans (Stage.cell_withCell_of_ne _ hne _)

end Player

/-! ### Reading the argument -/

namespace Cue

variable {opcode argument image x : String} {args rest : List String} {c : CueCommand}
  {cue : Cue} {ws : List CellWrite} {d : Option String}

/-- The time that an argument says, in milliseconds; none given is no time. -/
def pause (d : Option String) : Nat := ((d.bind Arguments.millis?).map UInt64.toNat).getD 0

theorem pause_of_pos {ms : UInt64} (hd : d.bind Arguments.millis? = some ms) (hms : 0 < ms) :
    pause d = ms.toNat ∧ pause d ≠ 0 := by
  have hp : pause d = ms.toNat := by
    rw [pause, hd]
    rfl
  rw [hp]
  exact ⟨rfl, Nat.ne_of_gt (UInt64.lt_iff_toNat_lt.1 hms)⟩

theorem pause_eq_zero (hd : ∀ ms, d.bind Arguments.millis? = some ms → ms = 0) : pause d = 0 := by
  rw [pause]
  cases hx : d.bind Arguments.millis? with
  | none => rfl
  | some ms =>
    rw [hd ms hx]
    rfl

theorem get?_of_mem_commands (h : (opcode, c) ∈ commands) :
    CommandTable.standard.get? opcode = some (some (.cue c)) := by
  simp only [commands, List.mem_cons, Prod.mk.injEq, List.not_mem_nil, or_false] at h
  refine SortedMap.get?_of_mem ?_
  rcases h with ⟨rfl, rfl⟩ | ⟨rfl, rfl⟩ | ⟨rfl, rfl⟩ | ⟨rfl, rfl⟩ | ⟨rfl, rfl⟩ | ⟨rfl, rfl⟩ |
    ⟨rfl, rfl⟩ | ⟨rfl, rfl⟩ | ⟨rfl, rfl⟩ <;>
    simp only [CommandTable.entries_standard, List.mem_cons, true_or, or_true]

theorem named?_cons (h : image ≠ "") : named? (image :: rest) 0 = some image := by
  simp [named?, h]

theorem exists_of_named? (h : named? args 0 = some image) :
    image ≠ "" ∧ ∃ rest, args = image :: rest := by
  rw [named?] at h
  cases args with
  | nil => cases h
  | cons a rest =>
    obtain ⟨ha, hne⟩ := Option.filter_eq_some_iff.1 h
    obtain rfl := Option.some.inj ha
    exact ⟨by simpa using hne, rest, rfl⟩

/-- The letter of all sprites is none of a place. -/
theorem ne_of_read? {p : SpritePosition} (h : SpritePosition.read? x = some p) : x ≠ "a" := by
  have ha : SpritePosition.read? "a" = none := by decide
  rintro rfl
  rw [ha] at h
  cases h

theorem cleared_of_read? {p : SpritePosition} (h : SpritePosition.read? x = some p) :
    CueCommand.cleared (x :: rest) = [spriteWrite "" p] := by
  rw [CueCommand.cleared]
  split
  · next hx => cases hx
  · next hx => exact absurd (Option.some.inj hx) (ne_of_read? h)
  · next hx =>
    cases hx
    rw [h]
    rfl

/-- Whoever clears sprites says which. -/
theorem exists_of_cleared (h : CueCommand.cleared args ≠ []) : ∃ x rest, args = x :: rest ∧
    (x = "a" ∨ ∃ p, SpritePosition.read? x = some p) := by
  cases args with
  | nil => exact absurd rfl h
  | cons x rest =>
    refine ⟨x, rest, rfl, ?_⟩
    by_cases hx : x = "a"
    · exact .inl hx
    · refine .inr (Option.ne_none_iff_exists'.1 fun hn => h ?_)
      rw [CueCommand.cleared]
      split
      · rfl
      · next hy => exact absurd (Option.some.inj hy) hx
      · next hy =>
        cases hy
        rw [hn]
        rfl

/-- The cue writes these cells, and takes this time. -/
structure Means (cue : Cue) (ws : List CellWrite) (d : Option String) : Prop where
  /-- The cells are written. -/
  presents (p : Player) : p.Presents (p.shown cue) ws
  /-- The time passes. -/
  wait : cue.wait = pause d

theorem Means.of_writes (hn : (ws.map CellWrite.cell).Nodup) :
    Means { writes := ws, wait := pause d } ws d := ⟨fun p => presents_foldl_write p hn, rfl⟩

/-- What the argument asks for is the cue of the command. -/
theorem Asks.means (hc : (opcode, c) ∈ commands) (h : Asks opcode (Arguments.split argument) ws d) :
    ∃ cue, c.cue opcode argument = .ok cue ∧ cue.Means ws d := by
  generalize hargs : Arguments.split argument = args at h
  have command (c' : CueCommand) (hc' : (opcode, c') ∈ commands) : c = c' := by
    have hget := (get?_of_mem_commands hc).symm.trans (get?_of_mem_commands hc')
    exact Command.cue.inj (Option.some.inj (Option.some.inj hget))
  have single (w : CellWrite) : ([w].map CellWrite.cell).Nodup := List.nodup_singleton _
  cases h with
  | background himage =>
    obtain rfl := command .background (by decide)
    exact ⟨_, by simp only [CueCommand.cue, hargs, named?_cons himage]; rfl, .of_writes (by simp)⟩
  | @sprite place image rest x hx himage =>
    obtain rfl := command .sprite (by decide)
    have hplace : (place :: image :: rest)[0]?.bind SpritePosition.read? = some x := hx
    have hhead : named? (image :: rest) 0 = some image := named?_cons himage
    have hnamed : named? (place :: image :: rest) 1 = some image := hhead
    exact ⟨_, by simp only [CueCommand.cue, hargs, hplace, hnamed]; rfl, .of_writes (single _)⟩
  | clearAll =>
    obtain rfl := command .clear (by decide)
    exact ⟨_, by simp only [CueCommand.cue, hargs]; rfl, .of_writes (by simp)⟩
  | clear hx =>
    obtain rfl := command .clear (by decide)
    exact ⟨_, by simp only [CueCommand.cue, hargs, cleared_of_read? hx]; rfl, .of_writes (single _)⟩
  | music hop htrack =>
    obtain rfl := command .music (by rcases hop with rfl | rfl <;> decide)
    exact ⟨_, by simp only [CueCommand.cue, hargs, named?_cons htrack]; rfl, .of_writes (single _)⟩
  | stopMusic =>
    obtain rfl := command .stopMusic (by decide)
    exact ⟨{ writes := [⟨.track, ""⟩], wait := pause none }, rfl, .of_writes (single _)⟩
  | @sound name _ hname =>
    obtain rfl := command .sound (by decide)
    exact ⟨{ effect := some name }, by simp only [CueCommand.cue, hargs, named?_cons hname],
      fun p => presents_playEffect p name, rfl⟩
  | loopSound hname =>
    obtain rfl := command .loopSound (by decide)
    exact ⟨_, by simp only [CueCommand.cue, hargs, named?_cons hname]; rfl, .of_writes (single _)⟩
  | stopSound =>
    obtain rfl := command .stopSound (by decide)
    exact ⟨{ writes := [⟨.loopedEffect, ""⟩], wait := pause none }, rfl, .of_writes (single _)⟩

/-- No command for pictures or sounds writes variables. -/
theorem Asks.cell_ne_vars (h : Asks opcode args ws d) : ∀ w ∈ ws, w.cell ≠ .vars := by
  have sprite (image : String) (x : SpritePosition) : (spriteWrite image x).cell ≠ .vars := by
    cases x <;> exact nofun
  cases h with
  | sprite | clear => exact List.forall_mem_singleton.2 (sprite _ _)
  | _ => simp

/-- The commands whose first argument is a name. -/
theorem exists_name (hc : c ∈ [CueCommand.background, .music, .sound, .loopSound])
    (h : c.cue opcode argument = .ok cue) :
    ∃ name rest, Arguments.split argument = name :: rest ∧ name ≠ "" := by
  cases hn : named? (Arguments.split argument) 0 with
  | some name =>
    obtain ⟨hne, rest, hargs⟩ := exists_of_named? hn
    exact ⟨name, rest, hargs, hne⟩
  | none =>
    simp only [List.mem_cons, List.not_mem_nil, or_false] at hc
    rcases hc with rfl | rfl | rfl | rfl <;>
    · simp only [CueCommand.cue, hn] at h
      cases h

/-- A command that has a cue has been asked for it. -/
theorem exists_asks (hc : (opcode, c) ∈ commands) (h : c.cue opcode argument = .ok cue) :
    ∃ ws d, Asks opcode (Arguments.split argument) ws d := by
  have named (hc : c ∈ [CueCommand.background, .music, .sound, .loopSound])
      {f : String → List CellWrite} {g : List String → Option String}
      (ha : ∀ {name rest}, name ≠ "" → Asks opcode (name :: rest) (f name) (g rest)) :
      ∃ ws d, Asks opcode (Arguments.split argument) ws d := by
    obtain ⟨name, rest, hargs, hne⟩ := exists_name hc h
    exact ⟨_, _, hargs ▸ ha hne⟩
  simp only [commands, List.mem_cons, Prod.mk.injEq, List.not_mem_nil, or_false] at hc
  rcases hc with ⟨rfl, rfl⟩ | ⟨rfl, rfl⟩ | ⟨rfl, rfl⟩ | ⟨hop, rfl⟩ | ⟨hop, rfl⟩ | ⟨rfl, rfl⟩ |
    ⟨rfl, rfl⟩ | ⟨rfl, rfl⟩ | ⟨rfl, rfl⟩
  · exact named (by decide) .background
  · simp only [CueCommand.cue] at h
    split at h
    · next hx hn =>
      cases hargs : Arguments.split argument with
      | nil =>
        rw [hargs] at hx
        cases hx
      | cons place args =>
        rw [hargs] at hx hn
        have hhead : named? args 0 = some _ := hn
        obtain ⟨hne, rest, rfl⟩ := exists_of_named? hhead
        exact ⟨_, _, .sprite hx hne⟩
    · cases h
  · simp only [CueCommand.cue] at h
    split at h
    · cases h
    · next hn =>
      obtain ⟨x, rest, hargs, hx⟩ := exists_of_cleared fun hnil => hn hnil
      rw [hargs]
      rcases hx with rfl | ⟨p, hp⟩
      · exact ⟨_, _, .clearAll⟩
      · exact ⟨_, _, .clear hp⟩
  · exact named (by decide) (.music (.inl hop))
  · exact named (by decide) (.music (.inr hop))
  · exact ⟨_, _, .stopMusic⟩
  · exact named (by decide) .sound
  · exact named (by decide) .loopSound
  · exact ⟨_, _, .stopSound⟩

end Cue

/-! ### Carrying it out -/

namespace Player

variable {p : Player} {opcode argument : String} {c : CueCommand} {t : Ticket}

/-- Every command for pictures and sounds does what its argument asks for, or nothing. -/
theorem execute_cued (p : Player) (hc : (opcode, c) ∈ Cue.commands) (argument : String)
    (t : Ticket) : p.Cued opcode argument t (p.execute (.cue c) opcode argument t) where
  refused hnone := by
    cases hx : c.cue opcode argument with
    | ok cue =>
      obtain ⟨ws, d, hask⟩ := exists_asks hc hx
      exact absurd hask (hnone ws d)
    | error e =>
      simp only [execute, hx]
      exact ⟨_, rfl⟩
  presented {ws d} hask := by
    obtain ⟨cue, hx, hmeans⟩ := hask.means hc
    have hp := hmeans.presents p
    have hexec : p.execute (.cue c) opcode argument t =
        (((p.shown cue).waitFor (pause d) t).1, [], ((p.shown cue).waitFor (pause d) t).2) := by
      simp only [execute, hx, carryOut_eq, hmeans.wait]
    refine ⟨p.shown cue, hp, hp.kept (c := .vars) hask.cell_ne_vars, fun ms hms hpos => ?_,
      fun hzero => ?_⟩
    · obtain ⟨heq, hne⟩ := pause_of_pos hms hpos
      rw [hexec, waitFor_of_pos _ hne, heq, hp.stages.timers]
    · rw [hexec, pause_eq_zero hzero]
      rfl

end Player

/-! ### Scripts -/

/-- The machine takes the step in which an instruction for pictures or sounds begins: its command is
carried out on the cells as they are, and then its start is concluded. -/
def Machine.BeginsCue (m : Machine Player Task) (opcode argument : String) : Prop :=
  ∃ (q : Player) (r : Player × Orders × Completion) (more : Orders),
    (∀ c, (q.stage.cell c).value = (m.world.stage.cell c).value) ∧
      q.Cued opcode argument (.instruction m.step.world.generation) r ∧
      m.step = ⟨r.1, r.2.1 ++
        .perform (.conclude (.instruction m.step.world.generation) r.2.2) :: more⟩

namespace Machine

variable {P : HostCall → Prop} {m : Machine Player Task} {opcode argument : String}
  {c : CueCommand} {ws : List CellWrite} {d : Option String} {ms : UInt64}

theorem beginsCue (hc : (opcode, c) ∈ Cue.commands) (ho : m.world.desk.InOrder)
    (hi : m.dispatched? = some ⟨opcode, argument⟩) : m.BeginsCue opcode argument := by
  obtain ⟨q, more, hv, hgen, -, -, hstep⟩ := exists_execute (Cue.get?_of_mem_commands hc) ho hi
  rw [hgen] at hstep
  exact ⟨q, _, more, hv, execute_cued q hc argument _, hstep⟩

/-- A picture that takes its time has its instruction wait for a timer. -/
theorem exists_wait (hc : (opcode, c) ∈ Cue.commands) (hm : m.Numbered) (ho : m.world.desk.InOrder)
    (hi : m.dispatched? = some ⟨opcode, argument⟩)
    (hask : Cue.Asks opcode (Arguments.split argument) ws d)
    (hms : d.bind Arguments.millis? = some ms) (hpos : 0 < ms) : ∃ k rest,
      m.step.agenda = .perform (.conclude (.instruction m.step.world.generation)
        (.pending (.timer k))) :: rest ∧
      Wait.Stage ⟨m.step.world.generation, k⟩ (m.now + ms.toNat) [] m.step := by
  obtain ⟨q, more, -, hgen, hlt, hlive, hstep⟩ := exists_execute (Cue.get?_of_mem_commands hc) ho hi
  obtain ⟨u, hu, -, hwait, -⟩ :=
    (execute_cued q hc argument (.instruction q.generation)).presented hask
  rw [hwait ms hms hpos] at hstep
  have hsize : u.schedule.timers.size = q.schedule.timers.size :=
    congrArg Array.size hu.stages.timers
  have hag : m.step.agenda = .perform (.conclude (.instruction q.generation)
      (.pending (.timer q.schedule.timers.size))) :: more := by
    rw [hstep]
    rfl
  have hnew : .instruction q.generation ∈ m.step.world.live := by
    rw [hstep]
    exact hu.stages.live ▸ hlive
  obtain ⟨-, dur, hdur, hs⟩ := Wait.Stage.begins hm ho hag hnew fun hold =>
    Nat.not_le_of_lt hlt (ho.le hold)
  obtain ⟨-, hget, -⟩ := Wait.runs_startTimer u ms.toNat q.generation
  have heq : dur = ms.toNat := by
    rw [hstep, ← hsize] at hdur
    exact Option.some.inj (hdur.symm.trans hget)
  subst heq
  exact ⟨_, more, hgen ▸ hag, hs⟩

end Machine

/-- **All or nothing.** Whatever its argument, a command for pictures or sounds logs an error and is
done, or writes the cells that it is asked for and no others. Then it waits if the argument says a
time, and its instruction is finished once: after that time or, with input, in the next turn of the
loop. -/
theorem Cue.all_or_nothing {opcode : String} (hop : opcode ∈ opcodes) :
    (∃ c, CommandTable.standard.get? opcode = some (some (.cue c)) ∧
      ∀ (p : Player) (argument : String) (t : Ticket),
        p.Cued opcode argument t (p.execute (.cue c) opcode argument t)) ∧
    ∀ {P : HostCall → Prop} {p : Player} {h : List (Machine Player Task)} {m : Machine Player Task}
      {argument : String}, p.Begins → Run P ⟨p, []⟩ h m →
      m.dispatched? = some ⟨opcode, argument⟩ →
      m.BeginsCue opcode argument ∧
      ∀ {ws : List CellWrite} {d : Option String} {ms : UInt64},
        Cue.Asks opcode (Arguments.split argument) ws d →
        d.bind Arguments.millis? = some ms → 0 < ms →
        ∃ k, m.step.agenda.head? = some (.perform (.conclude
            (.instruction m.step.world.generation) (.pending (.timer k)))) ∧
          ∀ {h' : List (Machine Player Task)} {n : Machine Player Task}, Run P m.step h' n →
            Wait.Kept ⟨m.step.world.generation, k⟩ (m.now + ms.toNat) m.step h' n := by
  obtain ⟨⟨_, c⟩, hc, rfl⟩ := List.mem_map.1 hop
  refine ⟨⟨c, get?_of_mem_commands hc, fun p => p.execute_cued hc⟩, fun hp r hi => ?_⟩
  have ho := r.inOrder hp.inOrder
  have hm := r.numbered hp.numbered
  refine ⟨Machine.beginsCue hc ho hi, fun hask hms hpos => ?_⟩
  obtain ⟨k, rest, hag, hs⟩ := Machine.exists_wait hc hm ho hi hask hms hpos
  exact ⟨k, by rw [hag]; rfl, fun r' => hs.kept hm.step ho.step rfl hag r'⟩

/-- A host has a picture changed in half a second, and goes on with other calls. -/
def fading (calls : List HostCall) : Machine Player Task :=
  ((Player.plain .instant).called ([HostCall.goto "a" 0, .settle, .take,
    .complete 0 (some ["bg park,,500"]), .settle] ++ calls)).run 19

theorem run_fading {calls : List HostCall} (hc : ∀ c ∈ calls, c.Within fun _ => True) :
    ∃ h, Run (fun _ => True) ⟨.plain .instant, []⟩ h (fading calls) := by
  refine ⟨_, Run.calls .start (fun c hm => ?_) 19⟩
  rcases List.mem_append.1 hm with hm | hm
  · simp only [List.mem_cons, List.not_mem_nil, or_false] at hm
    rcases hm with rfl | rfl | rfl | rfl | rfl <;> exact .of_body_eq_nil trivial rfl
  · exact hc c hm

/-- With input the change takes no time, and without any half a second. -/
theorem fading_all_or_nothing :
    ((∃ k, Wait.Kept ⟨4, k⟩ 500 (fading [.next, .next, .advance 0]).step
          ((fading [.next, .next, .advance 0]).step.trail 14)
          ((fading [.next, .next, .advance 0]).step.run 14)) ∧
        ((fading [.next, .next, .advance 0]).step.run 14).finish? = some (.instruction 4) ∧
        ((fading [.next, .next, .advance 0]).step.run 14).now = 0) ∧
      (∃ k, Wait.Kept ⟨4, k⟩ 500 (fading [.advance 500]).step
          ((fading [.advance 500]).step.trail 11) ((fading [.advance 500]).step.run 11)) ∧
        ((fading [.advance 500]).step.run 11).finish? = some (.instruction 4) ∧
        ((fading [.advance 500]).step.run 11).now = 500 := by
  have hsplit : Arguments.split "park,,500" = ["park", "", "500"] := by decide +kernel
  have hask : Cue.Asks "bg" (Arguments.split "park,,500") _ (["", "500"] : List String)[1]? :=
    hsplit ▸ Cue.Asks.background (by decide)
  have hms : (["", "500"] : List String)[1]?.bind Arguments.millis? = some 500 := by decide +kernel
  have kept {calls : List HostCall} (hc : ∀ c ∈ calls, c.body = []) (n : Nat)
      (hstart : (fading calls).dispatched? = some ⟨"bg", "park,,500"⟩ ∧ (fading calls).now = 0 ∧
        (fading calls).step.world.generation = 4) : ∃ k, Wait.Kept ⟨4, k⟩ 500
        (fading calls).step ((fading calls).step.trail n) ((fading calls).step.run n) := by
    obtain ⟨hi, hnow, hgen⟩ := hstart
    obtain ⟨h, r⟩ := run_fading fun c hm => .of_body_eq_nil trivial (hc c hm)
    obtain ⟨k, -, hk⟩ := ((Cue.all_or_nothing (by decide : "bg" ∈ Cue.opcodes)).2
      (begins_plain .instant) r hi).2 hask hms (by decide)
    rw [hgen, hnow] at hk
    exact ⟨k, hk (Run.steps_self _ n)⟩
  obtain ⟨hinput, hfinish, hnow⟩ :
      ((fading [.next, .next, .advance 0]).dispatched? = some ⟨"bg", "park,,500"⟩ ∧
        (fading [.next, .next, .advance 0]).now = 0 ∧
        (fading [.next, .next, .advance 0]).step.world.generation = 4) ∧
      ((fading [.next, .next, .advance 0]).step.run 14).finish? = some (.instruction 4) ∧
      ((fading [.next, .next, .advance 0]).step.run 14).now = 0 := by decide +kernel
  obtain ⟨htime, hfinish', hnow'⟩ :
      ((fading [.advance 500]).dispatched? = some ⟨"bg", "park,,500"⟩ ∧
        (fading [.advance 500]).now = 0 ∧ (fading [.advance 500]).step.world.generation = 4) ∧
      ((fading [.advance 500]).step.run 11).finish? = some (.instruction 4) ∧
      ((fading [.advance 500]).step.run 11).now = 500 := by decide +kernel
  exact ⟨⟨kept (by decide) 14 hinput, hfinish, hnow⟩, kept (by decide) 11 htime, hfinish', hnow'⟩

end Novella
