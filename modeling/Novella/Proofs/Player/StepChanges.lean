import Novella.Proofs.Player.LineSteps
import Novella.Proofs.Player.Quiescence
import Novella.Proofs.Player.WaitingDeliveries

/-!
# What a step changes

Cells change for three reasons only. A call of the host may write a cell, or have it delivered. The
place in the script is written when a line is left or the script is moved, and delivered when a
scene has been loaded. And an instruction that begins makes its own changes. Apart from that a step
leaves the cells alone, and their observers too, unless one of them has heard the one value it
wanted or the host takes a subscription back.

## Main definitions

* `HostCall.Alters` — a call may change the cell
* `Machine.revoked?` — the subscription that the host takes back
* `Machine.Makes` — a step makes changes
* `Machine.Making` — why a step makes its changes

## Main results

* `Machine.making` — every step but a delivery makes changes for one of these reasons
-/

namespace Novella

open Player

/-! ### Calls and subscriptions -/

namespace HostCall

/-- The call may write the cell, or have it delivered. -/
def Alters (c : CellName) : HostCall → Prop
  | set x _ => x = c
  | notify x => x = c
  | effect _ => c = .soundEffect
  | setVariable _ _ => c = .vars
  | speed _ => c = .settings
  | goto _ _ => c.IsPlace
  | restore _ _ => c ≠ .soundEffect ∧ c ≠ .settings
  | complete _ _ => c = .index
  | _ => False

instance (c : CellName) : (d : HostCall) → Decidable (d.Alters c)
  | set x _ => inferInstanceAs (Decidable (x = c))
  | notify x => inferInstanceAs (Decidable (x = c))
  | effect _ => inferInstanceAs (Decidable (c = .soundEffect))
  | setVariable _ _ => inferInstanceAs (Decidable (c = .vars))
  | speed _ => inferInstanceAs (Decidable (c = .settings))
  | goto _ _ => inferInstanceAs (Decidable c.IsPlace)
  | restore _ _ => inferInstanceAs (Decidable (c ≠ .soundEffect ∧ c ≠ .settings))
  | complete _ _ => inferInstanceAs (Decidable (c = .index))
  | next | settle | advance _ | runMicrotasks | serve | take | getVariable _ | observe .. |
    unobserve .. | register .. | finish _ => inferInstanceAs (Decidable False)

end HostCall

/-- The subscription that the host takes back next. -/
def Machine.revoked? (m : Machine Player Task) : Option (CellName × Nat) :=
  match m.agenda with
  | .perform (.call _ (.unobserve c k)) :: _ => m.world.subscriptions[k]?.map (c, ·)
  | _ => none

/-! ### Cells with other observers -/

/-- The cell holds the same value and waits as before. Observers may have come, and those have gone
that hear one value only or that are `gone` by their numbers. -/
structure Cell.Like {α : Type} (gone : Nat → Prop) (c d : Cell α Reaction) : Prop where
  /-- It holds the same value. -/
  value : d.value = c.value
  /-- Its delivery waits as before. -/
  scheduled : d.scheduled = c.scheduled
  /-- Observers have numbers of their own. -/
  numbered : c.Numbered → d.Numbered
  /-- Numbers are given out in order. -/
  nextId : c.nextId ≤ d.nextId
  /-- Nobody has come to run lines. -/
  led : ∀ o ∈ d.observers, o.reaction = .runLine → o ∈ c.observers
  /-- The others have stayed. -/
  stays : ∀ o ∈ c.observers, o.once = false → ¬ gone o.id → o ∈ d.observers

namespace Cell.Like

variable {α : Type} {gone : Nat → Prop} {c d : Cell α Reaction}

theorem of_sheds (h : c.Sheds d) : c.Like gone d :=
  ⟨h.value, h.scheduled, h.numbered, Nat.le_of_eq h.nextId.symm,
    fun _ ho _ => h.sublist.subset ho, fun o ho hone _ => h.stays o ho hone⟩

theorem refl (c : Cell α Reaction) : c.Like gone c := of_sheds (.refl c)

theorem observe (c : Cell α Reaction) (n : Nat) (accepts : α → Bool) (once : Bool) :
    c.Like gone (c.observe (.listener n) accepts once) := by
  refine ⟨rfl, rfl, fun h => h.observe .., Nat.le_succ _, fun o ho hr => ?_,
    fun o ho _ _ => List.mem_append_left _ ho⟩
  rcases List.mem_append.1 ho with ho | ho
  · exact ho
  · rw [List.mem_singleton.1 ho] at hr
    cases hr

theorem unobserve (c : Cell α Reaction) {id : Nat} (h : gone id) :
    c.Like gone (c.unobserve id) := by
  refine ⟨rfl, rfl, fun hn => hn.unobserve id, Nat.le_refl _,
    fun _ ho _ => (List.mem_filter.1 ho).1, fun o ho _ hg => ?_⟩
  exact List.mem_filter.2 ⟨ho, decide_eq_true fun heq => hg (heq ▸ h)⟩

end Cell.Like

/-- What waits, waits as before. -/
theorem Display.Awaits.like {k : Nat} {d e : Display} {ws : List CellName}
    {gone : CellName → Nat → Prop} (h : d.Awaits k ws)
    (hl : ∀ c, (d.stage.cell c).Like (gone c) (e.stage.cell c))
    (hm : e.microtasks = d.microtasks) : e.Awaits k ws := by
  refine ⟨hm.trans h.microtasks, h.nodup, fun c => ?_, fun c => (hl c).numbered (h.numbered c),
    fun o ho hr => h.led o ((hl .index).led o ho hr) hr, Nat.lt_of_lt_of_le h.lt (hl .index).nextId⟩
  rw [(hl c).scheduled]
  exact h.scheduled c

/-! ### Changes of a step -/

namespace Machine

variable {m : Machine Player Task} {p q : Player} {rest : Orders} {xs : List CellChange}

/-- The step makes these changes. Before that observers may come and go. -/
def Makes (m : Machine Player Task) (xs : List CellChange) : Prop :=
  ∃ stage : Stage Reaction,
    (∀ c, (m.world.stage.cell c).Like (fun id => m.revoked? = some (c, id)) (stage.cell c)) ∧
      m.step.world.display = (Display.mk stage m.world.loop.microtasks).changed xs

/-- Why a step makes its changes. -/
inductive Making (m : Machine Player Task) : Prop where
  /-- The script is moved, or the host has a hand in it. -/
  | outside (xs : List CellChange) : m.dispatched? = none → m.Makes xs →
      (∀ x ∈ xs, x.cell.IsPlace ∨ ∃ y ∈ m.call?, y.2.Alters x.cell) → Making m
  /-- An instruction begins. -/
  | begins {i : Instruction} {commands : CommandTable} {stage : Stage Reaction} :
      m.dispatched? = some i → commands.Scripted → m.Makes (i.changes commands stage) → Making m

theorem makes_of_display (h : m.step.world.display = m.world.display.changed xs) : m.Makes xs :=
  ⟨m.world.stage, fun _ => .refl _, h⟩

theorem makes_nil (h : m.step.world.display = m.world.display) : m.Makes [] := makes_of_display h

/-- One cell gets other observers. -/
theorem makes_of_store {c : CellName} {x : Cell c.Value Reaction}
    (hx : (m.world.stage.cell c).Like (fun id => m.revoked? = some (c, id)) x)
    (h : m.step.world.display =
      (Display.mk (m.world.stage.withCell c x) m.world.loop.microtasks).changed xs) :
    m.Makes xs := by
  refine ⟨_, fun d => ?_, h⟩
  by_cases hd : d = c
  · subst hd
    rw [Stage.cell_withCell_self]
    exact hx
  · rw [Stage.cell_withCell_of_ne _ hd]
    exact .refl _

theorem makes_nil_of_store {c : CellName} {x : Cell c.Value Reaction}
    (hx : (m.world.stage.cell c).Like (fun id => m.revoked? = some (c, id)) x)
    (h : m.step.world.display = m.world.display.store c (x, false)) : m.Makes [] :=
  makes_of_store hx h

/-- A step that lets the line go on makes the changes of its instruction, or moves the index. -/
theorem making_of_readies {more : Orders} (hn : ∀ c, (m.world.stage.cell c).Numbered)
    (ha : m.Advances) (h : m.Readies q more) : m.Making := by
  have makes {xs : List CellChange} (hs : m.step.world.display = q.display.changed xs) :
      m.Makes xs := by
    rcases h.display with hd | ⟨id, i, hd⟩
    · rw [hd] at hs
      exact makes_of_display hs
    · rw [hd] at hs
      exact makes_of_store (.of_sheds (.hear (hn .index) id i)) hs
  rcases h.cases with ⟨hc, hs⟩ | ⟨i, rest, hc, -, hd⟩
  · refine .outside [.write ⟨.index, q.stage.index.value + 1⟩] ?_ (makes ?_) fun x hx => ?_
    · rw [dispatched?_of_advances ha, hc]
      rfl
    · rw [hs]
      exact display_write ..
    · rw [List.mem_singleton.1 hx]
      exact .inl (.inr rfl)
  · have hi : m.dispatched? = some i := by
      rw [dispatched?_of_advances ha, hc]
      rfl
    have hx : m.Makes (i.changes q.commands q.stage) := makes (by
      rw [h.step]
      exact hd.display)
    exact .begins hi h.inOrder.scripted hx

/-- A step that gives a ticket back and does not let the line go on changes nothing. -/
theorem display_of_proceeds {r : Player × Orders} (ho : m.world.desk.InOrder)
    (ha : ¬ m.Advances) (hl : m.line? = none) (hs : m.step = ⟨r.1, r.2 ++ rest⟩)
    (h : m.world.desk.Proceeds r) : m.step.world.display = m.world.display := by
  cases h with
  | stay hd =>
    rw [hs]
    exact display_of_desk hd
  | spend t _ hd =>
    rw [hs]
    exact congrArg Desk.display hd
  | @goOn q more hb hd hr =>
    subst hr
    have hs' : m.step = ⟨q.runNext.1, q.runNext.2 ++ (more ++ rest)⟩ := by
      rw [hs, List.append_assoc]
    exact absurd (readies_of_goOn ho hl hb hd hs').1 ha

/-- Hearing a cell changes nothing, unless a line is started. -/
theorem makes_hear (hn : ∀ c, (p.stage.cell c).Numbered) {c : CellName} {id : Nat} {v : c.Value}
    (hl : line? ⟨p, .perform (.hear c id v) :: rest⟩ = none) :
    Makes ⟨p, .perform (.hear c id v) :: rest⟩ [] := by
  have hs : (p.stage.cell c).Sheds ((p.stage.cell c).hear id v).1 := .hear (hn c) id v
  generalize hx : (p.stage.cell c).hear id v = x at hs
  obtain ⟨after, r⟩ := x
  have heard
      (h : (Player.perform (.hear c id v) p).1.display = (p.store c (after, false)).display) :
      Makes ⟨p, .perform (.hear c id v) :: rest⟩ [] := by
    refine makes_nil_of_store (.of_sheds hs) ?_
    rw [Steady.step_perform, h, display_store]
  cases r with
  | none =>
    refine makes_nil ?_
    rw [Steady.step_perform]
    simp only [Player.perform, hx]
  | some r =>
    refine heard ?_
    rw [Steady.perform_hear_eq hx]
    by_cases hr : c.IsPlace ∧ r = c.reaction
    · obtain ⟨rfl | rfl, rfl⟩ := hr
      · exact congrArg Desk.display (Work.desk_loadScene ..)
      · change ((p.store .index (after, false)).runLine v).1.display = _
        cases Desk.runLine (p.store .index (after, false)) v with
        | defer _ hd => exact congrArg Desk.display hd
        | stop _ _ hd => exact congrArg Desk.display hd
        | start hp hline _ _ =>
          have hrun : (p.stage.index.hear id v).2 = some .runLine := congrArg Prod.snd hx
          have hsome : line? ⟨p, .perform (.hear .index id v) :: rest⟩ =
              p.lines.bind (·[v.toNat]?) := if_pos ⟨hrun, hp⟩
          exact absurd ((hsome.symm.trans hl).symm.trans hline) (by simp)
    · exact display_of_desk (Work.desk_reactTo (fun hc hrc => hr ⟨hc, hrc⟩) v)

/-- A call makes the changes that it says, unless it lets the line go on. -/
theorem making_call {a : Audience} {c : HostCall} (ho : p.desk.InOrder)
    (ha : ¬ Advances ⟨p, .perform (.call a c) :: rest⟩) :
    Making ⟨p, .perform (.call a c) :: rest⟩ := by
  have outside {xs : List CellChange} (hm : Makes ⟨p, .perform (.call a c) :: rest⟩ xs)
      (hx : ∀ x ∈ xs, x.cell.IsPlace ∨ c.Alters x.cell) :
      Making ⟨p, .perform (.call a c) :: rest⟩ := by
    refine .outside xs (dispatched?_eq_none ha) hm fun x hm => ?_
    rcases hx x hm with h | h
    · exact .inl h
    · exact .inr ⟨(a, c), rfl, h⟩
  have none (hm : Makes ⟨p, .perform (.call a c) :: rest⟩ []) :
      Making ⟨p, .perform (.call a c) :: rest⟩ := outside hm fun x hx => absurd hx List.not_mem_nil
  have same (h : (p.call c).1.display = p.display) : Making ⟨p, .perform (.call a c) :: rest⟩ :=
    none (makes_nil h)
  have changed {xs : List CellChange} (h : (p.call c).1.display = p.display.changed xs)
      (hx : ∀ x ∈ xs, x.cell.IsPlace ∨ c.Alters x.cell) :
      Making ⟨p, .perform (.call a c) :: rest⟩ := outside (makes_of_display h) hx
  have proceeds (h : p.desk.Proceeds ((p.call c).1, (p.call c).2.2)) :
      Making ⟨p, .perform (.call a c) :: rest⟩ :=
    same (display_of_proceeds ho ha rfl rfl (h.append [.perform (.report a (p.call c).2.1)]))
  have writes {x : CellChange} (h : (p.call c).1.display = p.display.change x)
      (hx : c.Alters x.cell) : Making ⟨p, .perform (.call a c) :: rest⟩ := by
    have h' : (p.call c).1.display = p.display.changed [x] := h
    refine changed h' fun y hy => ?_
    rw [List.mem_singleton.1 hy]
    exact .inr hx
  cases c with
  | next => exact proceeds (Desk.next p)
  | settle | advance | runMicrotasks | serve => exact same rfl
  | goto s i =>
    obtain ⟨xs, hd, hxs⟩ := display_goto p s i
    exact changed hd fun x hx => .inl (hxs x hx)
  | restore x v =>
    obtain ⟨xs, hd, hxs⟩ := display_restore p x v
    exact changed hd fun x hx => .inr (hxs x hx)
  | take =>
    refine same ?_
    rw [Player.call, takeRequest]
    cases p.loadRequest <;> rfl
  | complete k lines =>
    cases hr : p.requests[k]? with
    | none =>
      refine same ?_
      simp only [Player.call, hr]
    | some r =>
      simp only [Player.call, hr] at changed
      obtain ⟨xs, hd, hxs⟩ := display_completeLoad p r (found r lines)
      have hx (x : CellChange) (hm : x ∈ xs) := hxs x hm
      cases lines <;> exact changed hd fun x hx => .inl (.inr (hxs x hx))
  | set x v => exact writes (display_write p x v) rfl
  | notify x => exact writes (display_notify p x) rfl
  | effect name =>
    refine changed (display_playEffect p name) fun x hx => .inr ?_
    simp only [CellChange.playing, List.mem_cons, List.not_mem_nil, or_false] at hx
    rcases hx with rfl | rfl <;> rfl
  | setVariable token v =>
    cases hy : (Variable.read token.toList).bind (fun x => p.stage.progress.set x v) with
    | error e =>
      refine same ?_
      simp only [Player.call, hy]
    | ok y =>
      simp only [Player.call, hy] at writes
      exact writes (display_write p .vars y) rfl
  | getVariable token =>
    refine same ?_
    rw [Player.call]
    split <;> rfl
  | observe x accepts once trigger times body =>
    refine none (makes_nil_of_store (.observe (p.stage.cell x) p.listeners.size accepts once) ?_)
    exact display_store ..
  | unobserve x k =>
    cases hk : p.subscriptions[k]? with
    | none =>
      refine same ?_
      simp only [Player.call, hk]
    | some id =>
      have hgone : revoked? ⟨p, .perform (.call a (.unobserve x k)) :: rest⟩ = some (x, id) := by
        simp only [revoked?, hk]
        rfl
      refine none (makes_nil_of_store (.unobserve (p.stage.cell x) hgone) ?_)
      rw [Steady.step_perform, Player.perform]
      simp only [Player.call, hk]
      exact display_store ..
  | speed s => exact writes (display_write p .settings _) rfl
  | register opcode b body =>
    refine same ?_
    rw [Player.call]
    split <;> rfl
  | finish k =>
    refine proceeds ?_
    simp only [Player.call]
    split
    · exact Desk.finish ..
    · exact .stay rfl

/-- **What a step changes**, and why. A delivery is taken from the loop and begins on its own. -/
theorem making (hn : ∀ c, (m.world.stage.cell c).Numbered) (ho : m.world.desk.InOrder)
    (hd : ∀ x rest, m.agenda ≠ .perform (.deliver x) :: rest)
    (hp : ∀ rest, m.agenda = .drain :: rest → m.world.loop.microtasks = []) : m.Making := by
  by_cases ha : m.Advances
  · obtain ⟨q, more, hr⟩ := readies ho ha
    exact making_of_readies hn ha hr
  have outside {xs : List CellChange} (hm : m.Makes xs) (hx : ∀ x ∈ xs, x.cell.IsPlace) :
      m.Making := .outside xs (dispatched?_eq_none ha) hm fun x h => .inl (hx x h)
  have same (h : m.step.world.display = m.world.display) : m.Making :=
    outside (makes_nil h) fun x hx => absurd hx List.not_mem_nil
  obtain ⟨p, agenda⟩ := m
  have proceeds {r : Player × Orders} {rest : Orders} (hl : line? ⟨p, agenda⟩ = none)
      (hs : step ⟨p, agenda⟩ = ⟨r.1, r.2 ++ rest⟩) (h : p.desk.Proceeds r) :
      Making ⟨p, agenda⟩ := same (display_of_proceeds ho ha hl hs h)
  cases agenda with
  | nil => exact same rfl
  | cons o rest =>
    cases o with
    | drain =>
      have hpop : (World.loop p).popMicrotask? = none := by
        have hm : p.schedule.loop.microtasks = [] := hp rest rfl
        simp only [World.loop, Loop.popMicrotask?, hm]
      exact same (by simp only [step, hpop])
    | advance d => exact same rfl
    | depart d => exact same rfl
    | runUntil target =>
      cases hpop : (World.loop p).popDue? target with
      | none => exact same (by simp only [step, hpop]; rfl)
      | some due =>
        refine same ?_
        simp only [step, hpop]
        obtain ⟨u, us, -, -, -, hl⟩ := Loop.eq_of_popDue? hpop
        have hm : due.2.microtasks = p.loop.microtasks := by rw [hl]; rfl
        exact congrArg (Display.mk p.stage) hm
    | halt => exact same rfl
    | perform t =>
      cases t with
      | deliver c => exact absurd rfl (hd c rest)
      | hear c id v =>
        refine outside (makes_hear hn ?_) fun x hx => absurd hx List.not_mem_nil
        exact Classical.byContradiction fun h => ha (.inl h)
      | ring k => exact same (display_of_desk (desk_ringTimer ..))
      | finish t => exact proceeds rfl rfl (Desk.finish p t)
      | conclude t x => exact proceeds rfl rfl (Desk.conclude p t x)
      | reveal r a => exact proceeds rfl rfl (Desk.actReveal p r a)
      | call a c => exact making_call ho ha
      | report a x => exact same (display_of_desk (desk_report ..))
      | note e => exact same rfl
      | load =>
        have hw : (step ⟨p, .perform .load :: rest⟩).world = p.load.1 := rfl
        unfold Player.load takeRequest at hw
        cases hr : p.loadRequest with
        | none =>
          rw [hr] at hw
          refine same ?_
          rw [hw]
          rfl
        | some r =>
          rw [hr] at hw
          obtain ⟨xs, hd, hxs⟩ :=
            display_completeLoad { p with loadRequest := none } r (p.source r.scene)
          have hs : (step ⟨p, .perform .load :: rest⟩).world.display = p.display.changed xs := by
            rw [hw]
            exact hd
          exact outside (makes_of_display hs) fun x hx => .inr (hxs x hx)

end Machine

end Novella
