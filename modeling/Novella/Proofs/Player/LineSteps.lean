import Novella.Proofs.Player.Dispatch
import Novella.Proofs.Player.HostRuns
import Novella.Proofs.Player.Position
import Novella.Proofs.Player.Tickets

/-!
# What a step does to the line

A player that works on a line does few things to it, whatever the host has in hand. A line is
started, and its instructions take the place of what was left. The instruction under way is
finished, and the next one begins, or the index moves on. Some other ticket is given back. The line
is dropped, when the script is moved or the place in it is heard. Or nothing happens to the line at
all, although cells may be written and commands registered.

Some things are in order all the time, with no demand on the host: no ticket is there twice, opcodes
keep their meaning, and nothing but page breaks follows the next instruction. So it can be told from
a machine which instruction its next step begins, and whether the step comes to the end of the line.

## Main definitions

* `Machine.dispatched?` — the instruction that a step begins
* `Machine.Leaves` — a step comes to the end of the line
* `Machine.Work` — what a step does to the line
* `Desk.InOrder` — what is always in order
* `Machine.Readies` — a step runs the next instruction

## Main results

* `Machine.work` — a step does one of few things to the line
* `Run.inOrder` — all is in order in every run
* `Machine.dispatches_iff` — when an instruction begins
* `Machine.index_of_leaves`, `Machine.index_of_not_leaves` — when the index moves
* `Machine.of_fails` — an instruction that fails is over at once
-/

namespace Novella

open Player

/-! ### What a step begins -/

namespace Machine

variable (m : Machine Player Task)

/-- The instruction under way is finished. -/
def Finishes : Prop := m.world.desk.Busy ∧ m.world.desk.current ∉ m.step.world.live

instance : Decidable m.Finishes := inferInstanceAs (Decidable (_ ∧ _))

/-- A line is started, or it goes on. -/
def Advances : Prop := m.line? ≠ none ∨ m.Finishes

instance : Decidable m.Advances := inferInstanceAs (Decidable (_ ∨ _))

/-- The instructions that come next if a line is started or goes on. -/
def coming : List Instruction := m.line?.elim m.world.queue Line.instructions

/-- The instruction that begins. -/
def dispatched? : Option Instruction := if m.Advances then m.coming.head? else none

/-- The line is at its end. -/
def Leaves : Prop := m.Advances ∧ m.coming = []

instance : Decidable m.Leaves := inferInstanceAs (Decidable (_ ∧ _))

/-- The host writes the index. -/
def SetsIndex : Prop := ∃ a i rest, m.agenda = .perform (.call a (.set .index i)) :: rest

end Machine

/-- The line is left alone. -/
structure Desk.Rests (d d' : Desk) : Prop where
  /-- The same instructions are left. -/
  queue : d'.queue = d.queue
  /-- No instruction begins. -/
  generation : d'.generation = d.generation
  /-- No ticket is given back. -/
  live : d'.live = d.live
  /-- Opcodes keep their meaning. -/
  scripted : d.commands.Scripted → d'.commands.Scripted

theorem Desk.Rests.of_eq {d d' : Desk} (h : d' = d) : d.Rests d' := by
  subst h
  exact ⟨rfl, rfl, rfl, id⟩

/-- What a step does to the line. -/
inductive Machine.Work (m : Machine Player Task) : Prop where
  /-- Nothing. -/
  | rest : m.line? = none → m.world.desk.Rests m.step.world.desk →
      (¬ m.SetsIndex → m.step.world.stage.index.value = m.world.stage.index.value) → Work m
  /-- A ticket is given back that is not the current one. -/
  | spend (t : Ticket) : m.line? = none → t ≠ m.world.desk.current →
      m.step.world.desk = m.world.desk.spend t → Work m
  /-- The instruction under way is finished. -/
  | goOn {q : Player} {more : Orders} : m.line? = none → m.world.desk.Busy →
      q.desk = m.world.desk.spend m.world.desk.current →
      m.step = ⟨q.runNext.1, q.runNext.2 ++ more⟩ → Work m
  /-- A line is started. -/
  | start {line : String} {q : Player} {id : Nat} {i : UInt64} {more : Orders} :
      m.line? = some line → m.agenda = .perform (.hear .index id i) :: more →
      q.desk = { m.world.desk with
        stage := m.world.stage.withCell .index (m.world.stage.index.hear id i).1
        queue := Line.instructions line
        generation := m.world.generation + 1 } →
      m.step = ⟨q.runNext.1, q.runNext.2 ++ more⟩ → Work m
  /-- The line is dropped. -/
  | drop : m.line? = none → m.jump? ≠ none ∨ m.hears? ≠ none →
      (∃ stage microtasks, m.step.world.desk = { m.world.desk with
        stage, microtasks, queue := [], generation := m.world.generation + 1 }) → Work m

namespace Machine.Work

variable {m : Machine Player Task} {p : Player} {rest : Orders}

theorem of_eq (hl : m.line? = none) (h : m.step.world.desk = m.world.desk) : m.Work :=
  .rest hl (.of_eq h) fun _ => by
    rw [show m.step.world.stage = m.world.stage from congrArg Desk.stage h]

theorem of_proceeds {r : Player × Orders} (hl : m.line? = none)
    (hs : m.step = ⟨r.1, r.2 ++ rest⟩) (h : m.world.desk.Proceeds r) : m.Work := by
  cases h with
  | stay hd =>
    refine of_eq hl ?_
    rw [hs]
    exact hd
  | spend t ht hd =>
    refine .spend t hl ht ?_
    rw [hs]
    exact hd
  | @goOn q more hb hd hr =>
    subst hr
    have heq : m.step = ⟨q.runNext.1, q.runNext.2 ++ (more ++ rest)⟩ := by
      rw [hs, List.append_assoc]
    exact .goOn hl hb hd heq

/-! ### Cells that are heard -/

theorem value_hear {α κ : Type} (c : Cell α κ) (id : Nat) (v : α) :
    (c.hear id v).1.value = c.value := by
  rw [Cell.hear]
  split
  · split
    · split <;> rfl
    · rfl
  · rfl

/-- Hearing a cell changes no value. -/
theorem value_store_hear (p : Player) (c d : CellName) (id : Nat) (v : c.Value) (b : Bool) :
    ((p.store c (((p.stage.cell c).hear id v).1, b)).stage.cell d).value =
      (p.stage.cell d).value := by
  by_cases hd : d = c
  · subst hd
    rw [Player.store, Stage.cell_withCell_self, value_hear]
  · rw [Player.store, Stage.cell_withCell_of_ne _ hd]

/-- Only the player itself does more with a value than to note it. -/
theorem desk_reactTo {c : CellName} {r : Reaction} (h : c.IsPlace → r ≠ c.reaction) (v : c.Value) :
    (p.reactTo r c v).1.desk = p.desk := by
  unfold reactTo
  split
  · exact absurd rfl (h (.inl rfl))
  · exact absurd rfl (h (.inr rfl))
  · exact desk_of_inside (inside_openPage _)
  · rfl
  · exact desk_react ..
  · rfl

theorem desk_loadScene (p : Player) (s : String) :
    (p.loadScene s).desk = { p.desk with queue := [], generation := p.generation + 1 } := by
  rw [← desk_interrupt, loadScene]
  dsimp only
  split
  · rfl
  · exact desk_trace ..

/-- The index is heard. -/
theorem runLine {id : Nat} {i : UInt64}
    (hr : (p.stage.index.hear id i).2 = some .runLine) :
    Work ⟨p, .perform (.hear .index id i) :: rest⟩ := by
  have hears : Machine.hears? ⟨p, .perform (.hear .index id i) :: rest⟩ = some .index :=
    if_pos ⟨.inr rfl, hr⟩
  have hline (hp : p.phase ≠ .loading) :
      Machine.line? ⟨p, .perform (.hear .index id i) :: rest⟩ = p.lines.bind (·[i.toNat]?) :=
    if_pos ⟨hr, hp⟩
  have hvalue (d : CellName) := value_store_hear p .index d id i false
  have hstep : Machine.step ⟨p, .perform (.hear .index id i) :: rest⟩ =
      ⟨((p.store .index ((p.stage.index.hear id i).1, false)).runLine i).1,
        ((p.store .index ((p.stage.index.hear id i).1, false)).runLine i).2 ++ rest⟩ := by
    generalize hh : p.stage.index.hear id i = x at hr
    obtain ⟨after, r⟩ := x
    obtain rfl : r = some .runLine := hr
    rw [Steady.step_perform, Steady.perform_hear_eq (x := .index) hh]
    rfl
  cases Desk.runLine (p.store .index ((p.stage.index.hear id i).1, false)) i with
  | defer hp hd =>
    refine .rest (if_neg fun h => h.2 hp) ?_ fun _ => ?_
    · rw [hstep, hd]
      exact ⟨rfl, rfl, rfl, fun h => h⟩
    · rw [hstep, show Player.stage _ = _ from congrArg Desk.stage hd]
      exact hvalue .index
  | stop hp hn hd =>
    refine .drop ((hline hp).trans hn) (.inr (by simp [hears])) ?_
    rw [hstep]
    exact ⟨_, _, hd⟩
  | @start line q hp hl hd hq =>
    rw [hq] at hstep
    exact .start ((hline hp).trans hl) rfl hd hstep

theorem hear {c : CellName} {id : Nat} {v : c.Value} :
    Work ⟨p, .perform (.hear c id v) :: rest⟩ := by
  by_cases hh : c.IsPlace ∧ ((p.stage.cell c).hear id v).2 = some c.reaction
  · obtain ⟨rfl | rfl, hr⟩ := hh
    · -- the scene is left
      generalize hx : (p.stage.cell .scene).hear id v = x at hr
      obtain ⟨after, r⟩ := x
      obtain rfl : r = some .loadScene := hr
      have hstep : Machine.step ⟨p, .perform (.hear .scene id v) :: rest⟩ =
          ⟨(p.store .scene (after, false)).loadScene v, [] ++ rest⟩ := by
        rw [Steady.step_perform, Steady.perform_hear_eq hx]
        rfl
      refine .drop rfl (.inr ?_) ?_
      · rw [show Machine.hears? ⟨p, .perform (.hear .scene id v) :: rest⟩ = some .scene from
          if_pos ⟨.inl rfl, by rw [hx]; rfl⟩]
        exact Option.some_ne_none _
      · rw [hstep]
        exact ⟨_, _, desk_loadScene ..⟩
    · exact runLine hr
  · have hline : Machine.line? ⟨p, .perform (.hear c id v) :: rest⟩ = none := by
      refine Machine.line?_eq_none fun hn => hh ?_
      rw [Machine.hears?] at hn
      dsimp only at hn
      split at hn
      · next h => exact h
      · cases hn
    cases hx : (p.stage.cell c).hear id v with
    | mk after r =>
      have hvalue (b : Bool) := value_store_hear p c .index id v b
      rw [hx] at hh hvalue
      cases r with
      | none =>
        have hstep : Machine.step ⟨p, .perform (.hear c id v) :: rest⟩ = ⟨p, [] ++ rest⟩ := by
          rw [Steady.step_perform]
          simp only [Player.perform, hx]
        refine of_eq hline ?_
        rw [hstep]
      | some r =>
        have hd : ((p.store c (after, false)).reactTo r c v).1.desk =
            (p.store c (after, false)).desk :=
          desk_reactTo (fun hc hr => hh ⟨hc, congrArg some hr⟩) v
        have hstep : (Machine.step ⟨p, .perform (.hear c id v) :: rest⟩).world =
            ((p.store c (after, false)).reactTo r c v).1 := by
          rw [Steady.step_perform, Steady.perform_hear_eq hx]
        refine .rest hline ?_ fun _ => ?_
        · rw [hstep, hd]
          exact ⟨rfl, rfl, rfl, fun h => h⟩
        · rw [hstep]
          rw [show ((p.store c (after, false)).reactTo r c v).1.stage =
            (p.store c (after, false)).stage from congrArg Desk.stage hd]
          exact hvalue false

/-! ### Calls -/

theorem rests_completeLoad (p : Player) (r : LoadRequest) (x : Except SourceError (List String)) :
    p.desk.Rests (p.completeLoad r x).1.desk := by
  unfold completeLoad
  split
  · exact .of_eq (desk_trace ..)
  · cases x with
    | error e => exact .of_eq rfl
    | ok lines =>
      have ht := desk_trace p .engine .info s!"Scene '{r.scene}' loaded ({lines.length} lines)"
      dsimp only
      generalize p.trace .engine .info s!"Scene '{r.scene}' loaded ({lines.length} lines)" = q
        at ht ⊢
      rw [← ht]
      exact ⟨rfl, rfl, rfl, fun h => h⟩

theorem index_completeLoad (p : Player) (r : LoadRequest)
    (x : Except SourceError (List String)) :
    (p.completeLoad r x).1.stage.index.value = p.stage.index.value :=
  congrArg (fun y => y.1.index) (position_completeLoad p r x)

/-- A jump drops the line, and the index is delivered after that. -/
theorem desk_goto (p : Player) (s : String) (i : UInt64) :
    ∃ stage microtasks, (p.goto s i).desk =
      { p.interrupt.desk with stage, microtasks } := by
  rw [goto]
  dsimp only
  split
  · exact ⟨_, _, rfl⟩
  · split <;> exact ⟨_, _, rfl⟩

theorem goto {a : Audience} {c : HostCall} {q : Player} {s : String} {i : UInt64}
    (hj : Machine.jump? ⟨p, .perform (.call a c) :: rest⟩ ≠ none)
    (hq : q.desk = { p.desk with stage := q.stage, microtasks := q.loop.microtasks })
    (hc : (p.call c).1 = q.goto s i) : Work ⟨p, .perform (.call a c) :: rest⟩ := by
  obtain ⟨stage, microtasks, hd⟩ := desk_goto q s i
  have hg : q.generation = p.generation := congrArg Desk.generation hq
  rw [desk_interrupt, hq, hg] at hd
  exact .drop rfl (.inl hj) ⟨_, _, (congrArg Player.desk hc).trans hd⟩

theorem call {a : Audience} {c : HostCall} : Work ⟨p, .perform (.call a c) :: rest⟩ := by
  have proceeds (h : p.desk.Proceeds ((p.call c).1, (p.call c).2.2)) :
      Work ⟨p, .perform (.call a c) :: rest⟩ :=
    of_proceeds rfl rfl (h.append [.perform (.report a (p.call c).2.1)])
  have quiet {q : Player} (hq : (p.call c).1 = q) (hr : p.desk.Rests q.desk)
      (hi : (∀ i, c ≠ .set .index i) → q.stage.index.value = p.stage.index.value) :
      Work ⟨p, .perform (.call a c) :: rest⟩ := by
    subst hq
    refine .rest rfl hr fun hn => hi fun i hc => hn ?_
    exact ⟨a, i, rest, by rw [hc]⟩
  cases c with
  | next => exact proceeds (Desk.next p)
  | settle => exact proceeds (.stay rfl)
  | advance d => exact proceeds (.stay rfl)
  | runMicrotasks => exact proceeds (.stay rfl)
  | goto s i => exact .goto (by simp [Machine.jump?]) rfl rfl
  | restore x v => exact .goto (q := p.present x v) (by simp [Machine.jump?]) rfl rfl
  | serve => exact proceeds (.stay rfl)
  | take =>
    refine proceeds (.stay ?_)
    rw [Player.call, takeRequest]
    cases p.loadRequest <;> rfl
  | complete k lines =>
    simp only [Player.call] at quiet
    split at quiet
    · exact quiet rfl (rests_completeLoad ..) fun _ => index_completeLoad ..
    · exact quiet rfl (.of_eq rfl) fun _ => rfl
  | set x v =>
    refine quiet rfl ⟨rfl, rfl, rfl, fun h => h⟩ fun hne => ?_
    refine value_write_of_ne p (d := .index) (fun hx => ?_) v
    subst hx
    exact hne v rfl
  | notify x => exact quiet rfl ⟨rfl, rfl, rfl, fun h => h⟩ fun _ => value_notify p x .index
  | effect name =>
    refine quiet rfl ⟨rfl, rfl, rfl, fun h => h⟩ fun _ => ?_
    exact (value_notify _ .soundEffect .index).trans
      (value_write_of_ne p (c := .soundEffect) (d := .index) (by decide) (some name))
  | setVariable token v =>
    simp only [Player.call] at quiet
    split at quiet
    · exact quiet rfl ⟨rfl, rfl, rfl, fun h => h⟩ fun _ =>
        value_write_of_ne p (c := .vars) (d := .index) (by decide) _
    · exact quiet rfl (.of_eq rfl) fun _ => rfl
  | getVariable token =>
    simp only [Player.call] at quiet
    split at quiet <;> exact quiet rfl (.of_eq rfl) fun _ => rfl
  | observe x accepts once trigger times body =>
    refine quiet rfl ⟨rfl, rfl, rfl, fun h => h⟩ fun _ => ?_
    cases x <;> rfl
  | unobserve x k =>
    simp only [Player.call] at quiet
    split at quiet
    · refine quiet rfl ⟨rfl, rfl, rfl, fun h => h⟩ fun _ => ?_
      cases x <;> rfl
    · exact quiet rfl (.of_eq rfl) fun _ => rfl
  | speed s => exact quiet rfl ⟨rfl, rfl, rfl, fun h => h⟩ fun _ => rfl
  | register opcode b body =>
    simp only [Player.call] at quiet
    split at quiet
    · next commands hm =>
      exact quiet rfl ⟨rfl, rfl, rfl, fun h => h.merge hm⟩ fun _ => rfl
    · exact quiet rfl (.of_eq rfl) fun _ => rfl
  | finish k =>
    refine proceeds ?_
    simp only [Player.call]
    split
    · exact Desk.finish ..
    · exact .stay rfl

end Machine.Work

/-- **One step.** It does one of few things to the line, whatever the host does. -/
theorem Machine.work (m : Machine Player Task) : m.Work := by
  obtain ⟨p, agenda⟩ := m
  have loop {o : Order Task} {rest : Orders} (hl : line? ⟨p, o :: rest⟩ = none) (l : Loop Task)
      (hs : (step ⟨p, o :: rest⟩).world = World.withLoop p l) : Work ⟨p, o :: rest⟩ := by
    refine .rest hl ?_ fun _ => ?_
    all_goals rw [hs]
    · exact ⟨rfl, rfl, rfl, fun h => h⟩
    · rfl
  cases agenda with
  | nil => exact .of_eq rfl rfl
  | cons o rest =>
    cases o with
    | drain =>
      cases hpop : (World.loop p).popMicrotask? with
      | none => exact .of_eq rfl (by simp only [step, hpop])
      | some due => exact loop rfl due.2 (by simp only [step, hpop])
    | advance d => exact .of_eq rfl rfl
    | depart d => exact .of_eq rfl rfl
    | runUntil target =>
      cases hpop : (World.loop p).popDue? target with
      | none => exact loop rfl { World.loop p with now := target } (by simp only [step, hpop])
      | some due => exact loop rfl due.2 (by simp only [step, hpop])
    | halt => exact .of_eq rfl rfl
    | perform t =>
      cases t with
      | deliver c =>
        refine .rest rfl ⟨rfl, rfl, rfl, fun h => h⟩ fun _ => ?_
        cases c <;> rfl
      | hear c id v => exact .hear
      | ring k => exact .of_eq rfl (desk_ringTimer ..)
      | finish t => exact .of_proceeds rfl rfl (Desk.finish p t)
      | conclude t x => exact .of_proceeds rfl rfl (Desk.conclude p t x)
      | reveal r a => exact .of_proceeds rfl rfl (Desk.actReveal p r a)
      | call a c => exact .call
      | report a x => exact .of_eq rfl (desk_report ..)
      | note e => exact .of_eq rfl rfl
      | load =>
        have hw : (step ⟨p, .perform .load :: rest⟩).world = p.load.1 := rfl
        unfold Player.load takeRequest at hw
        cases hr : p.loadRequest with
        | none =>
          rw [hr] at hw
          refine .of_eq rfl ?_
          rw [hw]
          rfl
        | some r =>
          rw [hr] at hw
          refine .rest rfl ?_ fun _ => ?_
          all_goals rw [hw]
          · exact Work.rests_completeLoad { p with loadRequest := none } r (p.source r.scene)
          · exact Work.index_completeLoad { p with loadRequest := none } r (p.source r.scene)

/-! ### What is always in order -/

/-- Tickets are in order, opcodes keep their meaning, and what is left of a line is one instruction
with page breaks after it. -/
structure Desk.InOrder (d : Desk) : Prop where
  /-- No ticket is there twice. -/
  nodup : d.live.Nodup
  /-- None is newer than the current one. -/
  le {g : Nat} : .instruction g ∈ d.live → g ≤ d.generation
  /-- Conditions are conditions. -/
  scripted : d.commands.Scripted
  /-- Nothing but page breaks follows the next instruction. -/
  closing : Closing d.queue.tail

namespace Desk.InOrder

variable {p : Player} {d d' : Desk} {i : Instruction} {r : Player × Orders}
  {m : Machine Player Task}

theorem rests (h : d.InOrder) (hr : d.Rests d') : d'.InOrder := by
  refine ⟨hr.live ▸ h.nodup, fun hm => ?_, hr.scripted h.scripted, hr.queue ▸ h.closing⟩
  rw [hr.live] at hm
  rw [hr.generation]
  exact h.le hm

theorem spend (h : d.InOrder) (t : Ticket) : (d.spend t).InOrder :=
  ⟨h.nodup.erase t, fun hm => h.le (List.mem_of_mem_erase hm), h.scripted, h.closing⟩

/-- Other instructions are left, but none has begun yet. -/
theorem replace (h : d.InOrder) {queue : List Instruction} (hq : Closing queue.tail)
    (stage : Stage Reaction) (microtasks : List Task) :
    { d with stage, microtasks, queue, generation := d.generation + 1 }.InOrder :=
  ⟨h.nodup, fun hm => Nat.le_succ_of_le (h.le hm), h.scripted, hq⟩

/-- An instruction begins. -/
theorem begins {rest : List Instruction} (h : d.InOrder) (hq : d.queue = i :: rest)
    (hb : Begins { d with queue := rest } i r) : r.1.desk.InOrder := by
  have hrest := h.closing
  rw [hq] at hrest
  refine ⟨?_, fun hm => ?_, ?_, ?_⟩
  · change r.1.live.Nodup
    rw [hb.live]
    exact List.nodup_cons.2 ⟨fun hm => Nat.not_succ_le_self _ (h.le hm), h.nodup⟩
  · change _ ∈ r.1.live at hm
    change _ ≤ r.1.generation
    rw [hb.live] at hm
    rw [hb.generation]
    rcases List.mem_cons.1 hm with heq | hm
    · exact Nat.le_of_eq (Ticket.instruction.inj heq)
    · exact Nat.le_succ_of_le (h.le hm)
  · change r.1.commands.Scripted
    rw [hb.commands]
    exact h.scripted
  · change Closing r.1.queue.tail
    rw [hb.queue]
    exact .append (Instruction.closing_tail_taken _ _) hrest

theorem runNext (h : p.desk.InOrder) : p.runNext.1.desk.InOrder := by
  rcases Desk.runNext h.scripted with ⟨-, heq⟩ | ⟨i, rest, hq, hb⟩
  · rw [heq]
    exact h.rests ⟨rfl, rfl, rfl, fun h => h⟩
  · exact h.begins hq hb

/-- No step brings anything out of order. -/
theorem step (h : m.world.desk.InOrder) : m.step.world.desk.InOrder := by
  cases m.work with
  | rest _ hr _ => exact h.rests hr
  | spend t _ _ hd => exact hd ▸ h.spend t
  | goOn _ _ hd hs =>
    rw [hs]
    exact runNext (hd ▸ h.spend _)
  | @start line _ _ _ _ _ _ hd hs =>
    rw [hs]
    exact runNext (hd ▸ h.replace (Line.closing_tail_instructions line) ..)
  | drop _ _ hd =>
    obtain ⟨stage, microtasks, hd⟩ := hd
    have hnil : Closing ([] : List Instruction).tail := closing_nil
    exact hd ▸ h.replace hnil ..

end Desk.InOrder

theorem Player.Begins.inOrder {p : Player} (h : p.Begins) : p.desk.InOrder := by
  cases h <;>
    exact ⟨.nil, fun hm => absurd hm List.not_mem_nil, CommandTable.scripted_standard, closing_nil⟩

theorem Run.inOrder {P : HostCall → Prop} {m₀ m : Machine Player Task}
    {h : List (Machine Player Task)} (r : Run P m₀ h m) (hm : m₀.world.desk.InOrder) :
    m.world.desk.InOrder := by
  induction r with
  | start => exact hm
  | step _ ih => exact ih.step
  | turn book events answer _ _ ih => exact ih.rests (.of_eq rfl)
  | connect hook _ _ ih => exact ih.rests (.of_eq (desk_of_inside (inside_connect ..)))
  | connectToBook hook _ _ ih => exact ih.rests (.of_eq (desk_of_inside (inside_connectToBook ..)))

/-! ### The next instruction -/

namespace Machine

variable {m : Machine Player Task} {p q : Player} {more : Orders} {i : Instruction}

theorem step_of_perform {t : Task} {rest : Orders} (h : m.agenda = .perform t :: rest) :
    m.step = ⟨(Player.perform t m.world).1, (Player.perform t m.world).2 ++ rest⟩ := by
  cases m
  cases h
  rfl

/-- A step runs the next instruction from a player whose last instruction is over. -/
structure Readies (m : Machine Player Task) (q : Player) (more : Orders) : Prop where
  /-- The step runs the next instruction. -/
  step : m.step = ⟨q.runNext.1, q.runNext.2 ++ more⟩
  /-- This is what comes next. -/
  queue : q.queue = m.coming
  /-- All is in order. -/
  inOrder : q.desk.InOrder
  /-- Nothing is under way. -/
  not_busy : ¬ q.desk.Busy
  /-- Opcodes have their meaning. -/
  commands : q.commands = m.world.commands
  /-- Nothing has happened to the cells, but the index may have been heard. -/
  display : q.display = m.world.display ∨ ∃ id i, q.display =
    ⟨m.world.stage.withCell .index (m.world.stage.index.hear id i).1, m.world.loop.microtasks⟩
  /-- A ticket that is new comes after all others. -/
  generation : m.world.generation ≤ q.generation
  /-- No ticket is new. -/
  live {t : Ticket} : t ∈ q.live → t ∈ m.world.live

/-- The cells have their values. -/
theorem Readies.value (h : m.Readies q more) (c : CellName) :
    (q.stage.cell c).value = (m.world.stage.cell c).value := by
  rcases h.display with hd | ⟨id, i, hd⟩
  · rw [show q.stage = m.world.stage from congrArg Display.stage hd]
  · rw [show q.stage = _ from congrArg Display.stage hd]
    exact Work.value_store_hear m.world .index c id i false

/-- Either the index moves on, or the next instruction begins. -/
theorem Readies.cases (h : m.Readies q more) :
    (m.coming = [] ∧ m.step = ⟨q.write .index (q.stage.index.value + 1), more⟩) ∨
      ∃ i rest, m.coming = i :: rest ∧ Closing rest ∧
        Desk.Begins { q.desk with queue := rest } i q.runNext := by
  have hs := h.step
  rcases Desk.runNext h.inOrder.scripted with ⟨hq, heq⟩ | ⟨i, rest, hq, hd⟩
  · rw [heq] at hs
    exact .inl ⟨h.queue ▸ hq, hs⟩
  · have hc := h.inOrder.closing
    change Closing q.queue.tail at hc
    rw [hq] at hc
    exact .inr ⟨i, rest, h.queue ▸ hq, hc, hd⟩

/-- The instruction under way is finished. -/
theorem readies_of_goOn (ho : m.world.desk.InOrder) (hl : m.line? = none)
    (hb : m.world.desk.Busy) (hq : q.desk = m.world.desk.spend m.world.desk.current)
    (hs : m.step = ⟨q.runNext.1, q.runNext.2 ++ more⟩) : m.Advances ∧ m.Readies q more := by
  have hqueue : q.queue = m.world.queue := congrArg Desk.queue hq
  have hlive : q.live = m.world.live.erase m.world.desk.current := congrArg Desk.live hq
  have hgen : q.generation = m.world.generation := congrArg Desk.generation hq
  have hgone : m.world.desk.current ∉ q.live := by
    rw [hlive]
    exact ho.nodup.not_mem_erase
  have hr : m.Readies q more := by
    refine ⟨hs, ?_, hq ▸ ho.spend _, ?_, congrArg Desk.commands hq,
      .inl (congrArg Desk.display hq), Nat.le_of_eq hgen.symm, fun hm => ?_⟩
    · rw [coming, hl, hqueue]
      rfl
    · rw [hq]
      exact ho.nodup.not_mem_erase
    · rw [hlive] at hm
      exact List.mem_of_mem_erase hm
  refine ⟨.inr ⟨hb, ?_⟩, hr⟩
  rcases hr.cases with ⟨-, heq⟩ | ⟨i, rest, -, -, hd⟩
  · rw [heq]
    exact hgone
  · rw [hs]
    change _ ∉ q.runNext.1.live
    rw [hd.live]
    refine fun hm => (List.mem_cons.1 hm).elim (fun heq => ?_) hgone
    have hne : m.world.generation = q.generation + 1 := Ticket.instruction.inj heq
    omega

/-- A line is started. -/
theorem readies_of_line? (ho : m.world.desk.InOrder) {line : String} (hl : m.line? = some line) :
    ∃ q more, m.Readies q more := by
  cases m.work with
  | @start line' q id i more hline _ hd hs =>
    obtain rfl : line = line' := Option.some.inj (hl.symm.trans hline)
    have hlive : q.live = m.world.live := congrArg Desk.live hd
    refine ⟨q, more, hs, ?_, hd ▸ ho.replace (Line.closing_tail_instructions line) .., ?_,
      congrArg Desk.commands hd, .inr ⟨id, i, congrArg Desk.display hd⟩, ?_, fun hm => hlive ▸ hm⟩
    · rw [coming, hl]
      exact congrArg Desk.queue hd
    · rw [hd]
      exact fun hm => Nat.not_succ_le_self _ (ho.le hm)
    · rw [show q.generation = m.world.generation + 1 from congrArg Desk.generation hd]
      exact Nat.le_succ _
  | rest hn | spend _ hn | goOn hn | drop hn => exact absurd (hn.symm.trans hl) (by simp)

theorem not_advances (hl : m.line? = none)
    (h : m.world.desk.Busy → m.world.desk.current ∈ m.step.world.live) : ¬ m.Advances := by
  rintro (hn | ⟨hb, hn⟩)
  · exact hn hl
  · exact hn (h hb)

/-- Otherwise the line is left alone, or dropped. -/
theorem readies (ho : m.world.desk.InOrder) (h : m.Advances) : ∃ q more, m.Readies q more := by
  cases m.work with
  | rest hl hr _ =>
    have hlive : m.step.world.live = m.world.live := hr.live
    exact absurd h (not_advances hl fun hb => hlive ▸ hb)
  | spend t hl ht hd =>
    have hlive : m.step.world.live = m.world.live.erase t := congrArg Desk.live hd
    refine absurd h (not_advances hl fun hb => ?_)
    rw [hlive]
    exact (List.mem_erase_of_ne ht.symm).2 hb
  | @goOn q more hl hb hd hs => exact ⟨q, more, (readies_of_goOn ho hl hb hd hs).2⟩
  | start hl _ _ => exact readies_of_line? ho hl
  | drop hl _ hd =>
    obtain ⟨stage, microtasks, hd⟩ := hd
    have hlive : m.step.world.live = m.world.live := congrArg Desk.live hd
    exact absurd h (not_advances hl fun hb => hlive ▸ hb)

/-- A command that is done lets the line go on. -/
theorem readies_of_conclude (ho : m.world.desk.InOrder) (hb : m.world.desk.Busy) {rest : Orders}
    (hag : m.agenda = .perform (.conclude m.world.desk.current .completed) :: rest) :
    m.Advances ∧ m.Readies
      { m.world with live := m.world.live.erase m.world.desk.current, active := none } rest := by
  have hs := step_of_perform hag
  have hfinish : m.world.finish m.world.desk.current =
      { m.world with
        live := m.world.live.erase m.world.desk.current, active := none }.runNext := by
    have hm : m.world.desk.current ∈ m.world.live := hb
    rw [Player.finish, if_pos hm]
    exact if_pos rfl
  change m.step = ⟨(m.world.finish _).1, (m.world.finish _).2 ++ rest⟩ at hs
  rw [hfinish] at hs
  have hl : m.line? = none := by
    rw [line?]
    rw [hag]
  exact readies_of_goOn ho hl hb rfl hs

theorem dispatched?_of_advances (h : m.Advances) : m.dispatched? = m.coming.head? := if_pos h

theorem dispatched?_eq_none (h : ¬ m.Advances) : m.dispatched? = none := if_neg h

theorem advances_of_dispatched? (h : m.dispatched? = some i) : m.Advances :=
  Decidable.byContradiction fun hn => by
    rw [dispatched?_eq_none hn] at h
    cases h

theorem leaves_iff (h : m.Advances) : m.Leaves ↔ m.coming = [] := and_iff_right h

/-- The instruction is the one that comes first. -/
theorem Readies.begins (h : m.Readies q more) (hi : m.dispatched? = some i) :
    ∃ rest, m.coming = i :: rest ∧ Desk.Begins { q.desk with queue := rest } i q.runNext := by
  rw [dispatched?_of_advances (advances_of_dispatched? hi)] at hi
  rcases h.cases with ⟨hc, -⟩ | ⟨j, rest, hc, -, hd⟩
  · rw [hc] at hi
    cases hi
  · rw [hc] at hi
    obtain rfl := Option.some.inj hi
    exact ⟨rest, hc, hd⟩

/-- What counts as dispatched has been dispatched. -/
theorem exists_dispatch (ho : m.world.desk.InOrder) (hi : m.dispatched? = some i) :
    ∃ (p : Player) (more : Orders), m.step = ⟨(p.dispatch i).1, (p.dispatch i).2 ++ more⟩ := by
  obtain ⟨q, more, hr⟩ := readies ho (advances_of_dispatched? hi)
  obtain ⟨rest, hc, -⟩ := hr.begins hi
  refine ⟨{ q with queue := rest }, more, ?_⟩
  have hq : q.queue = i :: rest := hr.queue.trans hc
  have hn : q.runNext = { q with queue := rest }.dispatch i := by
    rw [Player.runNext, hq]
  rw [hr.step, hn]

/-- The command of an instruction that begins is carried out, on cells as they are. -/
theorem exists_execute {command : Command}
    (hc : CommandTable.standard.get? i.opcode = some (some command)) (ho : m.world.desk.InOrder)
    (hi : m.dispatched? = some i) :
    ∃ (q : Player) (more : Orders), (∀ c, (q.stage.cell c).value = (m.world.stage.cell c).value) ∧
      q.generation = m.step.world.generation ∧ m.world.generation < q.generation ∧
      .instruction q.generation ∈ q.live ∧
      m.step = ⟨(q.execute command i.opcode i.argument (.instruction q.generation)).1,
        (q.execute command i.opcode i.argument (.instruction q.generation)).2.1 ++
          .perform (.conclude (.instruction q.generation)
            (q.execute command i.opcode i.argument (.instruction q.generation)).2.2) :: more⟩ := by
  obtain ⟨q, more, hr⟩ := readies ho (advances_of_dispatched? hi)
  obtain ⟨rest, hcoming, hb⟩ := hr.begins hi
  have hnext : q.runNext = { q with queue := rest }.dispatch i := by
    rw [Player.runNext, hr.queue.trans hcoming]
  have hgen : m.step.world.generation = q.generation + 1 := by
    rw [hr.step]
    exact hb.generation
  refine ⟨{ q with queue := rest }.begin, more, hr.value, hgen.symm,
    Nat.lt_succ_of_le hr.generation, List.mem_cons_self, ?_⟩
  rw [hr.step, hnext, dispatch_of_command (p := { q with queue := rest })
    (hr.inOrder.scripted.keeps hc)]
  simp only [List.append_assoc]
  rfl

/-- Nothing else begins. -/
theorem dispatches_iff (ho : m.world.desk.InOrder) : m.Dispatches ↔ m.dispatched? ≠ none := by
  constructor
  · rintro ⟨g, hg, hn⟩ hnone
    by_cases ha : m.Advances
    · obtain ⟨q, more, hr⟩ := readies ho ha
      rw [dispatched?_of_advances ha] at hnone
      rcases hr.cases with ⟨-, hs⟩ | ⟨i, rest, hc, -⟩
      · rw [hs] at hg
        exact hn (hr.live hg)
      · rw [hc] at hnone
        cases hnone
    · cases m.work with
      | rest _ hr _ =>
        have hlive : m.step.world.live = m.world.live := hr.live
        exact hn (hlive ▸ hg)
      | spend t _ _ hd =>
        have hlive : m.step.world.live = m.world.live.erase t := congrArg Desk.live hd
        rw [hlive] at hg
        exact hn (List.mem_of_mem_erase hg)
      | goOn hl hb hd hs => exact ha (readies_of_goOn ho hl hb hd hs).1
      | start hl _ _ => exact ha (.inl (by simp [hl]))
      | drop _ _ hd =>
        obtain ⟨stage, microtasks, hd⟩ := hd
        have hlive : m.step.world.live = m.world.live := congrArg Desk.live hd
        exact hn (hlive ▸ hg)
  · intro hne
    obtain ⟨i, hi⟩ := Option.ne_none_iff_exists'.1 hne
    obtain ⟨q, more, hr⟩ := readies ho (advances_of_dispatched? hi)
    obtain ⟨rest, -, hd⟩ := hr.begins hi
    refine ⟨q.generation + 1, ?_, fun hm => ?_⟩
    · rw [hr.step]
      change _ ∈ q.runNext.1.live
      rw [hd.live]
      exact List.mem_cons_self
    · exact Nat.not_succ_le_self _ (Nat.le_trans (ho.le hm) hr.generation)

/-- At the end of a line the index moves on. -/
theorem index_of_leaves (ho : m.world.desk.InOrder) (h : m.Leaves) :
    m.step.world.stage.index.value = m.world.stage.index.value + 1 := by
  obtain ⟨q, more, hr⟩ := readies ho h.1
  rcases hr.cases with ⟨-, hs⟩ | ⟨i, rest, hc, -⟩
  · rw [hs]
    exact (value_cell_write q .index _).trans (congrArg (· + 1) (hr.value .index))
  · exact absurd (h.2.symm.trans hc) (by simp)

/-- Nothing else moves the index but an instruction that jumps, and the host. -/
theorem index_of_not_leaves (ho : m.world.desk.InOrder) (h : ¬ m.Leaves)
    (hdrop : m.line? = none → m.jump? = none ∧ m.hears? = none) (hset : ¬ m.SetsIndex)
    (hskip : ∀ i ∈ m.dispatched?, i.opcode ≠ "skip") :
    m.step.world.stage.index.value = m.world.stage.index.value := by
  by_cases ha : m.Advances
  · obtain ⟨q, more, hr⟩ := readies ho ha
    rcases hr.cases with ⟨hc, -⟩ | ⟨i, rest, hc, -, hd⟩
    · exact absurd ⟨ha, hc⟩ h
    · have hi : m.dispatched? = some i := by
        rw [dispatched?_of_advances ha, hc]
        rfl
      rw [hr.step]
      exact (hd.index (hskip i hi)).trans (hr.value .index)
  · cases m.work with
    | rest _ _ hi => exact hi hset
    | spend t _ _ hd =>
      rw [show m.step.world.stage = m.world.stage from congrArg Desk.stage hd]
    | goOn hl hb hd hs => exact absurd (readies_of_goOn ho hl hb hd hs).1 ha
    | start hl _ _ => exact absurd (.inl (by simp [hl])) ha
    | drop hl hout _ => exact (hout.elim (· (hdrop hl).1) (· (hdrop hl).2)).elim

/-- An instruction that fails is over with the next step, and no cell has another value. -/
theorem of_fails (ho : m.world.desk.InOrder) (hi : m.dispatched? = some i)
    (hf : i.Fails m.world.commands m.world.stage.progress) :
    (∀ c, (m.step.world.stage.cell c).value = (m.world.stage.cell c).value) ∧
      m.step.Advances := by
  obtain ⟨q, more, hr⟩ := readies ho (advances_of_dispatched? hi)
  obtain ⟨rest, -, hd⟩ := hr.begins hi
  have hprogress : q.stage.progress = m.world.stage.progress := hr.value .vars
  obtain ⟨hstage, horders⟩ := hd.done (.inr (by
    change i.Fails q.commands q.stage.progress
    rw [hr.commands, hprogress]
    exact hf))
  constructor
  · intro c
    rw [hr.step]
    change (q.runNext.1.stage.cell c).value = _
    rw [hstage]
    exact hr.value c
  · have ho' := ho.step
    have hbusy : m.step.world.desk.Busy := by
      rw [hr.step]
      change Ticket.instruction q.runNext.1.generation ∈ q.runNext.1.live
      rw [hd.live, hd.generation]
      exact List.mem_cons_self
    have hag : m.step.agenda =
        .perform (.conclude m.step.world.desk.current .completed) :: more := by
      rw [hr.step]
      change q.runNext.2 ++ more =
        .perform (.conclude (.instruction q.runNext.1.generation) .completed) :: more
      rw [horders, hd.generation]
      rfl
    exact (readies_of_conclude ho' hbusy hag).1

end Machine

end Novella
