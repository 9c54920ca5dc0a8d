import Novella.Proofs.Player.DisplayedCells

/-!
# How a line goes on

Instructions find the commands of every script under their opcodes, because no opcode can be
registered twice. An instruction that begins has a ticket of its own and makes the changes of its
command. A condition puts the line in its body in front of what is left, and no other instruction
does.

## Main definitions

* `CommandTable.Scripted` — a table in which the opcodes of every script have their meaning
* `Instruction.changes` — the changes that an instruction makes
* `Desk.Begins` — an instruction has begun

## Main results

* `Desk.dispatch`, `Desk.runNext` — what an instruction leaves of its line
* `Desk.runLine` — what comes of a line that is to be run
-/

namespace Novella

open Player

/-! ### Opcodes -/

/-- The command finds fault with its argument. -/
def Command.Rejects (progress : Progress) (opcode argument : String) : Command → Prop
  | .wait | .setDelay => Arguments.millis? argument = none
  | .branch =>
    match Condition.read argument.toList with
    | .error _ => True
    | .ok (condition, rest) =>
      String.ofList (Text.trim rest) = "" ∨ ∃ e, condition.isTrue progress.get = .error e
  | .skip =>
    Numeral.int64? (Text.trim argument.toList) = none ∨
      Numeral.int64? (Text.trim argument.toList) = some 0
  | .cue c => ∃ e, c.cue opcode argument = .error e
  | .assign op => ∃ e, Assignment.apply progress op argument = .error e
  | .step delta => ∃ e, Assignment.step progress delta argument = .error e
  | _ => False

/-- The opcode is unknown or reserved, or its command finds fault with the argument. -/
def Instruction.Fails (commands : CommandTable) (progress : Progress) (i : Instruction) : Prop :=
  ∀ {c}, commands.get? i.opcode = some (some c) → c.Rejects progress i.opcode i.argument

namespace CommandTable

/-- Opcodes mean what they mean in every script. -/
structure Scripted (t : CommandTable) : Prop where
  /-- The opcodes of every script are there. -/
  keeps {o : String} {x : Option Command} : standard.get? o = some x → t.get? o = some x
  /-- All other opcodes are those of the host. -/
  isHosts {o : String} {c : Command} : t.get? o = some (some c) →
    standard.get? o = some (some c) ∨ ∃ b body, c = .host b body

variable {t u : CommandTable} {o : String}

theorem scripted_standard : Scripted standard := ⟨id, .inl⟩

/-- No opcode is registered twice, so those of every script keep their meaning. -/
theorem Scripted.merge (h : t.Scripted) {opcode : String} {b : Option Behavior}
    {body : List HostCall}
    (hm : t.merge? (.ofList [(opcode, b.map (fun b => .host b body))]) = .ok u) : u.Scripted := by
  unfold merge? at hm
  split at hm
  · cases hm
  · next hnone =>
    obtain rfl : t.insert opcode (b.map (fun b => .host b body)) = u := Except.ok.inj hm
    have hnew : t.get? opcode = none := by
      have hn := List.find?_eq_none.1 hnone opcode (List.mem_singleton.2 rfl)
      simpa [SortedMap.contains] using hn
    refine ⟨@fun o x hx => ?_, @fun o c hc => ?_⟩
    · have hold := h.keeps hx
      have ho : o ≠ opcode := by
        rintro rfl
        rw [hnew] at hold
        cases hold
      rwa [SortedMap.get?_insert_of_ne _ ho]
    · by_cases ho : o = opcode
      · rw [ho, SortedMap.get?_insert_self] at hc
        obtain ⟨b, -, rfl⟩ := Option.map_eq_some_iff.1 (Option.some.inj hc)
        exact .inr ⟨b, body, rfl⟩
      · rw [SortedMap.get?_insert_of_ne _ ho] at hc
        exact h.isHosts hc

namespace Scripted

/-- Conditions, and nothing else, put lines in front. -/
theorem branch_iff (h : t.Scripted) :
    t.get? o = some (some .branch) ↔ o = Instruction.ifOpcode := by
  constructor
  · intro hc
    rcases h.isHosts hc with hs | ⟨b, body, hb⟩
    · exact passes_of_get?_standard (P := fun _ => True) hs
    · cases hb
  · rintro rfl
    exact h.keeps (SortedMap.get?_of_mem (by simp [entries_standard, Instruction.ifOpcode]))

/-- Only a jump within the scene moves the index. -/
theorem skip (h : t.Scripted) (hc : t.get? o = some (some .skip)) : o = "skip" := by
  rcases h.isHosts hc with hs | ⟨b, body, hb⟩
  · exact passes_of_get?_standard (P := fun _ => True) hs
  · cases hb

theorem get?_skip (h : t.Scripted) : t.get? "skip" = some (some .skip) :=
  h.keeps (SortedMap.get?_of_mem (by simp [entries_standard]))

/-- There is one opcode for sounds that are played once. -/
theorem sound_iff (h : t.Scripted) : t.get? o = some (some (.cue .sound)) ↔ o = "wave" := by
  constructor
  · intro hc
    rcases h.isHosts hc with hs | ⟨b, body, hb⟩
    · simpa [entries_standard] using SortedMap.mem_of_get?_eq_some hs
    · cases hb
  · rintro rfl
    exact h.keeps (SortedMap.get?_of_mem (by simp [entries_standard]))

/-- The end of a page means the same in every line. -/
theorem get?_pageOpcode (h : t.Scripted) :
    t.get? Instruction.pageOpcode = some (some .pageBreak) :=
  h.keeps (SortedMap.get?_of_mem (by simp [entries_standard, Instruction.pageOpcode]))

end Scripted

end CommandTable

/-! ### Instructions -/

namespace Instruction

/-- The changes that an instruction makes. -/
def changes (commands : CommandTable) (stage : Stage Reaction) (i : Instruction) :
    List CellChange :=
  (commands.get? i.opcode).join.elim [] fun c => c.changes stage i.opcode i.argument

variable {commands : CommandTable} {stage : Stage Reaction} {i : Instruction}

theorem changes_of_command {c : Command} (h : commands.get? i.opcode = some (some c)) :
    i.changes commands stage = c.changes stage i.opcode i.argument := by
  rw [changes, h]
  rfl

theorem changes_of_no_command (h : ∀ c, commands.get? i.opcode ≠ some (some c)) :
    i.changes commands stage = [] := by
  rw [changes]
  cases hx : (commands.get? i.opcode).join with
  | none => rfl
  | some c => exact absurd (Option.join_eq_some_iff.1 hx) (h c)

/-- A sound that is named is played. -/
theorem changes_wave (h : commands.Scripted) (hi : i.opcode = "wave") :
    i.changes commands stage =
      (Cue.named? (Arguments.split i.argument) 0).elim [] CellChange.playing := by
  rw [changes_of_command (h.sound_iff.2 hi), Command.changes_sound]

/-- All other instructions write cells, and none of them twice: either the index, or cells of the
presentation. -/
theorem changes_eq_writes (h : commands.Scripted) (hi : i.opcode ≠ "wave") :
    ∃ ws : List CellWrite, i.changes commands stage = ws.map .write ∧
      (ws.map CellWrite.cell).Nodup ∧ (∀ w ∈ ws, w.cell ≠ .soundEffect) ∧
        ((∀ w ∈ ws, w.cell = .index) ∨ ∀ w ∈ ws, ¬ w.cell.IsPlace) := by
  by_cases hget : ∃ c, commands.get? i.opcode = some (some c)
  · obtain ⟨c, hget⟩ := hget
    have hc : c ≠ .cue .sound := fun hc => hi (h.sound_iff.1 (hc ▸ hget))
    obtain ⟨ws, heq, hnodup, hws⟩ := Command.changes_eq_writes hc stage i.opcode i.argument
    refine ⟨ws, (changes_of_command hget).trans heq, hnodup, fun w hw => (hws w hw).1, ?_⟩
    by_cases hs : c = .skip
    · exact .inl fun w hw => (hws w hw).2.2 hs
    · exact .inr fun w hw => (hws w hw).2.1 hs
  · have hnone : i.changes commands stage = [] :=
      changes_of_no_command fun c hc => hget ⟨c, hc⟩
    exact ⟨[], hnone, .nil, fun w hw => absurd hw List.not_mem_nil,
      .inl fun w hw => absurd hw List.not_mem_nil⟩

/-- The end of a page and a condition change nothing. -/
theorem changes_of_opcode (h : commands.Scripted)
    (hi : i.opcode = Instruction.ifOpcode ∨ i.opcode = Instruction.pageOpcode) :
    i.changes commands stage = [] := by
  rcases hi with hi | hi
  · rw [changes_of_command (h.branch_iff.2 hi)]
    rfl
  · rw [changes_of_command (hi ▸ h.get?_pageOpcode)]
    rfl

end Instruction

namespace Player

variable {p q : Player}

/-- The player under a fresh ticket. -/
def begin (p : Player) : Player :=
  { p with
    generation := p.generation + 1
    phase := .executing
    live := .instruction (p.generation + 1) :: p.live }

theorem dispatch_of_command {i : Instruction} {command : Command}
    (h : p.commands.get? i.opcode = some (some command)) :
    p.dispatch i =
      let t := Ticket.instruction (p.generation + 1)
      let (q, orders, c) := p.begin.execute command i.opcode i.argument t
      (q, orders ++ [.perform (.conclude t c)]) := by
  simp only [dispatch, h]
  rfl

/-- An instruction without a command is done at once. -/
theorem dispatch_of_no_command {i : Instruction}
    (h : ∀ c, p.commands.get? i.opcode ≠ some (some c)) :
    ∃ q : Player, q.desk = p.begin.desk ∧
      p.dispatch i = (q, [.perform (.conclude (.instruction (p.generation + 1)) .completed)]) := by
  rw [dispatch]
  dsimp only
  split
  · next hget => exact absurd hget (h _)
  · exact ⟨p.begin, rfl, rfl⟩
  · exact ⟨p.begin.logError _, rfl, rfl⟩

/-- The line is as it was, whatever cells have been written. -/
theorem desk_eq_of (hs : q.seat = p.seat) (hc : q.surroundings = p.surroundings) :
    q.desk = { p.desk with stage := q.stage, microtasks := q.loop.microtasks } := by
  rw [desk, show q.queue = p.queue from congrArg Seat.queue hs,
    show q.generation = p.generation from congrArg Seat.generation hs,
    show q.live = p.live from congrArg Seat.live hs,
    show q.commands = p.commands from congrArg Surroundings.commands hc]
  rfl

/-- A command that is no condition writes cells at most, and of these the index only if it jumps. -/
theorem desk_execute (p : Player) {command : Command} (hb : command ≠ .branch)
    (opcode argument : String) (t : Ticket) :
    ∃ stage microtasks, (p.execute command opcode argument t).1.desk =
        { p.desk with stage, microtasks } ∧
      (command ≠ .skip → stage.index.value = p.stage.index.value) := by
  have plain {q : Player} (hq : q.desk = p.desk) : ∃ stage microtasks,
      q.desk = { p.desk with stage, microtasks } ∧
        (command ≠ .skip → stage.index.value = p.stage.index.value) :=
    ⟨p.stage, p.loop.microtasks, hq, fun _ => rfl⟩
  have writes {q : Player} (hs : q.seat = p.seat) (hc : q.surroundings = p.surroundings)
      (hi : q.core = p.core) : ∃ stage microtasks,
      q.desk = { p.desk with stage, microtasks } ∧
        (command ≠ .skip → stage.index.value = p.stage.index.value) :=
    ⟨_, _, desk_eq_of hs hc, fun _ => by rw [index_of_core hi]⟩
  cases command with
  | text => exact plain rfl
  | pageBreak => exact plain (desk_emit ..)
  | lineBreak => exact plain (desk_emit ..)
  | click => exact plain rfl
  | wait =>
    simp only [execute]
    split
    · exact plain (desk_waitFor ..)
    · exact plain rfl
  | setDelay =>
    simp only [execute]
    split <;> exact plain rfl
  | resetDelay => exact plain rfl
  | branch => exact absurd rfl hb
  | skip =>
    exact ⟨_, _, desk_eq_of (seat_skip p argument) (surroundings_skip ..), fun h => absurd rfl h⟩
  | exit => exact plain ((desk_emit ..).trans (desk_trace ..))
  | cue c =>
    simp only [execute]
    split
    · next hx =>
      exact writes (seat_carryOut ..) (surroundings_carryOut ..)
        (core_carryOut p (CueCommand.presents hx) _)
    · exact plain rfl
  | assign op =>
    exact writes (seat_storeOutcome ..) (surroundings_storeOutcome ..) (core_storeOutcome ..)
  | step delta =>
    exact writes (seat_storeOutcome ..) (surroundings_storeOutcome ..) (core_storeOutcome ..)
  | host b body => cases b <;> exact plain rfl

/-- A command that finds fault with its argument is done at once and writes no cell. -/
theorem execute_of_rejects {command : Command} {opcode argument : String}
    (h : command.Rejects p.stage.progress opcode argument) (t : Ticket) :
    (p.execute command opcode argument t).1.stage = p.stage ∧
      (p.execute command opcode argument t).2.1 = [] ∧
        (p.execute command opcode argument t).2.2 = .completed := by
  cases command with
  | wait =>
    have hm : Arguments.millis? argument = none := h
    simp only [execute, hm]
    exact ⟨rfl, trivial, trivial⟩
  | setDelay =>
    have hm : Arguments.millis? argument = none := h
    simp only [execute, hm]
    exact ⟨rfl, trivial, trivial⟩
  | branch => exact ⟨congrArg Desk.stage (desk_branch p argument), rfl, rfl⟩
  | skip =>
    refine ⟨?_, rfl, rfl⟩
    rcases h with h | h <;>
    · simp only [execute, skip, h]
      rfl
  | cue c =>
    obtain ⟨e, he⟩ := h
    simp only [execute, he]
    exact ⟨rfl, trivial, trivial⟩
  | assign op =>
    obtain ⟨e, he⟩ := h
    simp only [execute, he]
    exact ⟨rfl, trivial, trivial⟩
  | step delta =>
    obtain ⟨e, he⟩ := h
    simp only [execute, he]
    exact ⟨rfl, trivial, trivial⟩
  | text | pageBreak | lineBreak | click | resetDelay | exit | host => exact h.elim

end Player

namespace Desk

/-- An instruction has begun at the desk. -/
structure Begins (d : Desk) (i : Instruction) (r : Player × Orders) : Prop where
  /-- Opcodes keep their meaning. -/
  commands : r.1.commands = d.commands
  /-- Only a condition that holds puts anything in front of the rest. -/
  queue : r.1.queue = i.taken d.stage.progress.get ++ d.queue
  /-- The instruction has a ticket of its own. -/
  generation : r.1.generation = d.generation + 1
  /-- No ticket has been given back. -/
  live : r.1.live = .instruction (d.generation + 1) :: d.live
  /-- The changes of the instruction are made. -/
  display : r.1.display = d.display.changed (i.changes d.commands d.stage)
  /-- Only a jump moves the index. -/
  index : i.opcode ≠ "skip" → r.1.stage.index.value = d.stage.index.value
  /-- A condition, or an instruction that fails, is done at once, and writes no cell. -/
  done : i.opcode = Instruction.ifOpcode ∨ i.Fails d.commands d.stage.progress →
    r.1.stage = d.stage ∧
      r.2 = [.perform (.conclude (.instruction (d.generation + 1)) .completed)]

variable {p : Player}

theorem Begins.mk_of_desk {d : Desk} {i : Instruction} {r : Player × Orders}
    {stage : Stage Reaction} {microtasks : List Task}
    (h : r.1.desk = {
      stage, microtasks
      commands := d.commands
      queue := i.taken d.stage.progress.get ++ d.queue
      generation := d.generation + 1
      live := .instruction (d.generation + 1) :: d.live })
    (hx : ⟨stage, microtasks⟩ = d.display.changed (i.changes d.commands d.stage))
    (hi : i.opcode ≠ "skip" → stage.index.value = d.stage.index.value)
    (hd : i.opcode = Instruction.ifOpcode ∨ i.Fails d.commands d.stage.progress →
      stage = d.stage ∧
        r.2 = [.perform (.conclude (.instruction (d.generation + 1)) .completed)]) :
    Begins d i r := by
  have hstage : r.1.stage = stage := congrArg Desk.stage h
  refine ⟨congrArg Desk.commands h, congrArg Desk.queue h, congrArg Desk.generation h,
    congrArg Desk.live h, (congrArg Desk.display h).trans hx, fun hne => ?_, fun hdone => ?_⟩
  · rw [hstage]
    exact hi hne
  · rw [hstage]
    exact hd hdone

theorem dispatch (h : p.commands.Scripted) (i : Instruction) : Begins p.desk i (p.dispatch i) := by
  have hnone (hne : i.opcode ≠ Instruction.ifOpcode) : i.taken p.stage.progress.get = [] := by
    rw [Instruction.taken, Instruction.body?_of_ne hne]
    rfl
  by_cases hget : ∃ c, p.commands.get? i.opcode = some (some c)
  · obtain ⟨command, hget⟩ := hget
    by_cases hb : command = .branch
    · subst hb
      obtain ⟨opcode, argument⟩ := i
      obtain rfl : opcode = Instruction.ifOpcode := h.branch_iff.1 hget
      rw [dispatch_of_command hget]
      have hx : p.display = p.display.changed
          (Instruction.changes p.commands p.stage ⟨Instruction.ifOpcode, argument⟩) := by
        rw [Instruction.changes_of_command hget]
        rfl
      exact .mk_of_desk (desk_branch p.begin argument) hx (fun _ => rfl) fun _ => ⟨rfl, rfl⟩
    · have hne : i.opcode ≠ Instruction.ifOpcode := fun hif =>
        hb (Option.some.inj (Option.some.inj (hget.symm.trans (h.branch_iff.2 hif))))
      obtain ⟨stage, microtasks, hd, hi⟩ := desk_execute p.begin hb i.opcode i.argument
        (.instruction (p.generation + 1))
      rw [dispatch_of_command hget]
      have hdesk : (p.begin.execute command i.opcode i.argument
          (.instruction (p.generation + 1))).1.desk =
          ⟨stage, microtasks, p.commands, i.taken p.stage.progress.get ++ p.queue,
            p.generation + 1, .instruction (p.generation + 1) :: p.live⟩ := by
        rw [hnone hne]
        exact hd
      have hx : ⟨stage, microtasks⟩ = p.display.changed (i.changes p.commands p.stage) := by
        rw [Instruction.changes_of_command hget]
        exact (congrArg Desk.display hd).symm.trans (display_execute p.begin command ..)
      refine .mk_of_desk hdesk hx (fun hs => hi ?_) ?_
      · rintro rfl
        exact hs (h.skip hget)
      · rintro (hc | hf)
        · exact absurd hc hne
        · obtain ⟨hs, horders, hdone⟩ := execute_of_rejects (p := p.begin) (hf hget)
            (.instruction (p.generation + 1))
          refine ⟨(congrArg Desk.stage hd).symm.trans hs, ?_⟩
          dsimp only
          rw [horders, hdone]
          rfl
  · have hnot : ∀ c, p.commands.get? i.opcode ≠ some (some c) := fun c hc => hget ⟨c, hc⟩
    have hne : i.opcode ≠ Instruction.ifOpcode := fun hif => hnot _ (h.branch_iff.2 hif)
    obtain ⟨q, hq, heq⟩ := dispatch_of_no_command hnot
    have hdesk : q.desk = ⟨p.stage, p.loop.microtasks, p.commands,
        i.taken p.stage.progress.get ++ p.queue, p.generation + 1,
        .instruction (p.generation + 1) :: p.live⟩ := by
      rw [hnone hne]
      exact hq
    have hx : p.display = p.display.changed (i.changes p.commands p.stage) := by
      rw [Instruction.changes_of_no_command hnot]
      rfl
    rw [heq]
    exact .mk_of_desk hdesk hx (fun _ => rfl) fun _ => ⟨rfl, rfl⟩

/-- The next instruction begins, or the index moves on. -/
theorem runNext (h : p.commands.Scripted) :
    (p.queue = [] ∧ p.runNext = (p.write .index (p.stage.index.value + 1), [])) ∨
      ∃ i rest, p.queue = i :: rest ∧ Begins { p.desk with queue := rest } i p.runNext := by
  rw [Player.runNext]
  split
  · next i rest hq => exact .inr ⟨i, rest, hq, dispatch (p := { p with queue := rest }) h i⟩
  · next hq => exact .inl ⟨hq, rfl⟩

/-- What comes of a line that is to be run. -/
inductive Runs (p : Player) (i : UInt64) (r : Player × Orders) : Prop where
  /-- It has to wait for the scene. -/
  | defer : p.phase = .loading → r.1.desk = p.desk → Runs p i r
  /-- There is no such line. -/
  | stop : p.phase ≠ .loading → p.lines.bind (·[i.toNat]?) = none →
      r.1.desk = { p.desk with queue := [], generation := p.generation + 1 } → Runs p i r
  /-- Its first instruction begins. -/
  | start {line : String} {q : Player} : p.phase ≠ .loading →
      p.lines.bind (·[i.toNat]?) = some line →
      q.desk = { p.desk with
        queue := Line.instructions line, generation := p.generation + 1 } →
      r = q.runNext → Runs p i r

theorem runLine (p : Player) (i : UInt64) : Runs p i (p.runLine i) := by
  have hi := desk_interrupt p
  rw [Player.runLine]
  split
  · next hp => exact .defer hp (desk_trace ..)
  · next hp =>
    dsimp only
    rw [lines_interrupt]
    split
    · next hn => exact .stop hp (by rw [hn]; rfl) hi
    · next lines hls =>
      split
      · next hn => exact .stop hp (by rw [hls]; exact hn) hi
      · next line hl =>
        have ht := (desk_trace p.interrupt .engine .trace s!"[{i.toNat}] {line}").trans hi
        generalize p.interrupt.trace .engine .trace s!"[{i.toNat}] {line}" = q at ht ⊢
        have hqueue : q.queue = [] := congrArg Desk.queue ht
        have hdesk : { q.desk with queue := q.queue ++ Line.instructions line } =
            { p.desk with
              queue := Line.instructions line, generation := p.generation + 1 } := by
          rw [hqueue, ht]
          rfl
        exact .start hp (by rw [hls]; exact hl) hdesk rfl

end Desk

end Novella
