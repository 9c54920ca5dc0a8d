import Novella.Proofs.Player.IndexLast
import Novella.Proofs.Player.LineUnrolling

/-!
# The presentation sees every line

Cells are not delivered when they change, but later, so a change might be lost when another one
comes too soon. It is not, as long as those who listen only record what they hear. A line changes a
cell once at most, the index moves after that, and deliveries keep their order. So whatever a line
leaves in a cell is heard by each of its observers before the next line is started, and it is heard
once. Over many lines an observer hears the values of its cell one by one, and every sound that is
played, also if it is the same as the last one.

## Main definitions

* `Instruction.wave?` — the sound that an instruction plays
* `displayed`, `heard` — what a run shows in a cell, and what an observer hears of it
* `Presented` — what an observer hears while lines are run

## Main results

* `Undisturbed.tells` — what is shown is still to be heard after a step
* `Run.presented` — the presentation sees every line
-/

namespace Novella

open Player

/-! ### What is shown and heard -/

/-- The sound that the instruction plays. -/
def Instruction.wave? (i : Instruction) : Option String :=
  if i.opcode = "wave" then Cue.named? (Arguments.split i.argument) 0 else none

/-- What the cell shows when a sound may be played and its value is no longer the one before. -/
def CellName.shows? (sound? : Option String) : (c : CellName) → c.Value → c.Value → Option c.Value
  | .soundEffect, _, _ => sound?.map some
  | _, before, after => if after = before then none else some after

namespace Machine

variable (m : Machine Player Task) (c : CellName)

/-- The value of the cell. -/
def value : c.Value := (m.world.stage.cell c).value

/-- What a step shows in the cell: the sound that is played, or its new value. -/
def shows? : Option c.Value :=
  c.shows? (m.dispatched?.bind Instruction.wave?) (m.value c) (m.step.value c)

/-- What the observer hears of the cell in a step. -/
def tells? (id : Nat) : Option c.Value :=
  match m.agenda with
  | .perform (.hear x i v) :: _ =>
    if h : x = c then
      if i = id ∧ ((m.world.stage.cell x).hear i v).2 ≠ none then some (h ▸ v) else none
    else none
  | _ => none

end Machine

/-- What a run has shown in the cell, in order. -/
def displayed (c : CellName) (h : List (Machine Player Task)) : List c.Value :=
  h.reverse.filterMap (·.shows? c)

/-- What the observer has heard of the cell, in order. -/
def heard (c : CellName) (id : Nat) (h : List (Machine Player Task)) : List c.Value :=
  h.reverse.filterMap (·.tells? c id)

theorem displayed_cons (c : CellName) (m : Machine Player Task) (h : List (Machine Player Task)) :
    displayed c (m :: h) = displayed c h ++ (m.shows? c).toList := by
  rw [displayed, displayed, List.reverse_cons, List.filterMap_append]
  cases hm : m.shows? c <;> simp [hm]

theorem heard_cons (c : CellName) (id : Nat) (m : Machine Player Task)
    (h : List (Machine Player Task)) :
    heard c id (m :: h) = heard c id h ++ (m.tells? c id).toList := by
  rw [heard, heard, List.reverse_cons, List.filterMap_append]
  cases hm : m.tells? c id <;> simp [hm]

theorem displayed_append (c : CellName) (h h' : List (Machine Player Task)) :
    displayed c (h' ++ h) = displayed c h ++ displayed c h' := by
  rw [displayed, displayed, displayed, List.reverse_append, List.filterMap_append]

theorem heard_append (c : CellName) (id : Nat) (h h' : List (Machine Player Task)) :
    heard c id (h' ++ h) = heard c id h ++ heard c id h' := by
  rw [heard, heard, heard, List.reverse_append, List.filterMap_append]

/-- Sounds are shown by the instructions that have been dispatched. -/
theorem displayed_soundEffect (h : List (Machine Player Task)) :
    displayed .soundEffect h = ((dispatched h).filterMap Instruction.wave?).map some := by
  rw [displayed, dispatched, List.filterMap_filterMap, List.map_filterMap]
  rfl

namespace CellName

variable {c : CellName} {sound? : Option String} {v w : c.Value}

/-- Nothing is shown unless something happens. -/
theorem shows?_self (h : c = .soundEffect → sound? = none) : c.shows? sound? v v = none := by
  by_cases hc : c = .soundEffect
  · subst hc
    rw [h rfl]
    rfl
  · cases c <;> first | exact absurd rfl hc | exact if_pos rfl

theorem shows?_of_ne (hc : c ≠ .soundEffect) (h : w ≠ v) : c.shows? sound? v w = some w := by
  cases c <;> first | exact absurd rfl hc | exact if_neg h

end CellName

/-! ### What an instruction shows -/

/-- An instruction leaves a cell as it is, or it shows the value that the cell has then, and the
cell waits to be delivered. -/
theorem Instruction.shows {i : Instruction} {commands : CommandTable} {stage : Stage Reaction}
    {d : Display} {c : CellName} (h : commands.Scripted) (ho : (d.stage.cell c).observers ≠ []) :
    ((d.changed (i.changes commands stage)).stage.cell c = d.stage.cell c ∧
        (c = .soundEffect → i.wave? = none)) ∨
      i.changes commands stage ≠ [] ∧
        ((d.changed (i.changes commands stage)).stage.cell c).scheduled = true ∧
        c.shows? i.wave? (d.stage.cell c).value
            ((d.changed (i.changes commands stage)).stage.cell c).value =
          some ((d.changed (i.changes commands stage)).stage.cell c).value ∧
        (c ≠ .soundEffect →
          ((d.changed (i.changes commands stage)).stage.cell c).value ≠
            (d.stage.cell c).value) := by
  by_cases hi : i.opcode = "wave"
  · rw [changes_wave h hi, wave?, if_pos hi]
    cases hn : Cue.named? (Arguments.split i.argument) 0 with
    | none => exact .inl ⟨rfl, fun _ => rfl⟩
    | some name =>
      by_cases hc : c = .soundEffect
      · subst hc
        obtain ⟨hv, hs⟩ := Display.cell_changed_playing d name ho
        refine .inr ⟨List.cons_ne_nil _ _, hs, ?_, fun hne => absurd rfl hne⟩
        exact congrArg some hv.symm
      · refine .inl ⟨Display.cell_changed (fun x hx => ?_) d, fun heq => absurd heq hc⟩
        simp only [Option.elim, CellChange.playing, List.mem_cons, List.not_mem_nil, or_false] at hx
        rcases hx with rfl | rfl <;> exact Ne.symm hc
  · obtain ⟨ws, hws, hnodup, hsound, -⟩ := @changes_eq_writes commands stage i h hi
    have hwave : i.wave? = none := if_neg hi
    rw [hws, hwave]
    by_cases hc : c = .soundEffect
    · refine .inl ⟨Display.cell_changed (fun x hx => ?_) d, fun _ => rfl⟩
      obtain ⟨w, hw, rfl⟩ := List.mem_map.1 hx
      exact hc ▸ hsound w hw
    · rcases Display.cell_changed_writes hnodup ho with heq | ⟨hne, hs⟩
      · exact .inl ⟨heq, fun heq => absurd heq hc⟩
      · refine .inr ⟨fun hnil => hne ?_, hs, CellName.shows?_of_ne hc hne, fun _ => hne⟩
        rw [hnil]
        rfl

/-! ### What is still to be heard -/

/-- What the observer has still to hear of the cell. -/
def outstanding (c : CellName) (id : Nat) (ids : List Nat) (ws : List CellName) (v : c.Value) :
    List c.Value :=
  if id ∈ ids ∨ c ∈ ws then [v] else []

/-- The host has no hand in the cell, and does not take the subscription back. -/
def Machine.Respects (m : Machine Player Task) (c : CellName) (id : Nat) : Prop :=
  (∀ y ∈ m.call?, ¬ y.2.Alters c) ∧ m.revoked? ≠ some (c, id)

instance (m : Machine Player Task) (c : CellName) (id : Nat) : Decidable (m.Respects c id) :=
  inferInstanceAs (Decidable (_ ∧ _))

/-- What a step means for an observer. -/
inductive Machine.Conveys (m : Machine Player Task) (c : CellName) (id : Nat) (ids : List Nat)
    (ws : List CellName) (ids' : List Nat) (ws' : List CellName) : Prop where
  /-- Nothing is shown, but something may be heard. -/
  | same : m.shows? c = none → m.step.value c = m.value c →
      (m.tells? c id).toList ++ outstanding c id ids' ws' (m.value c) =
        outstanding c id ids ws (m.value c) →
      Conveys m c id ids ws ids' ws'
  /-- An instruction shows something, that is still to be heard. -/
  | shows {i : Instruction} : m.dispatched? = some i → i.opcode ≠ Instruction.ifOpcode →
      i.opcode ≠ Instruction.pageOpcode → m.shows? c = some (m.step.value c) →
      m.tells? c id = none → c ∈ ws' → (c ≠ .soundEffect → m.step.value c ≠ m.value c) →
      Conveys m c id ids ws ids' ws'

namespace Machine

variable {P : HostCall → Prop} {m : Machine Player Task} {c : CellName} {k id : Nat}
  {ids ids' : List Nat} {ws ws' : List CellName} {xs : List CellChange} {rest : Orders}
  {o : Observer c.Value Reaction} {r : Reaction}

/-- The loop leaves values and observers alone. -/
theorem cell_of_loop (c : CellName)
    (h : ∃ rest, m.agenda = .drain :: rest ∨ ∃ x, m.agenda = .perform (.deliver x) :: rest) :
    m.step.value c = m.value c ∧
      (m.step.world.stage.cell c).observers = (m.world.stage.cell c).observers := by
  obtain ⟨p, agenda⟩ := m
  obtain ⟨rest, h | ⟨x, h⟩⟩ := h
  · obtain rfl : agenda = .drain :: rest := h
    cases hpop : (World.loop p).popMicrotask? with
    | none => simp only [step, hpop, value, and_self]
    | some due =>
      simp only [step, hpop]
      exact ⟨rfl, rfl⟩
  · obtain rfl : agenda = .perform (.deliver x) :: rest := h
    change ((p.stage.withCell x (p.stage.cell x).beginDelivery.1).cell c).value = _ ∧
      ((p.stage.withCell x (p.stage.cell x).beginDelivery.1).cell c).observers = _
    by_cases hx : c = x
    · subst hx
      rw [Stage.cell_withCell_self]
      exact ⟨rfl, rfl⟩
    · rw [Stage.cell_withCell_of_ne _ hx]
      exact ⟨rfl, rfl⟩

/-- Other cells change, but not this one. -/
theorem Makes.like (hm : m.Makes xs) (hx : ∀ x ∈ xs, x.cell ≠ c) :
    (m.world.stage.cell c).Like (fun id => m.revoked? = some (c, id))
      (m.step.world.stage.cell c) := by
  obtain ⟨stage, hl, hd⟩ := hm
  have hs : m.step.world.stage = _ := congrArg Display.stage hd
  rw [hs, Display.cell_changed hx]
  exact hl c

theorem Unfolds.tells? (hc : ¬ c.IsPlace) (h : m.Unfolds ws) : m.tells? c id = none := by
  have hne : CellName.index ≠ c := fun h => hc (h ▸ .inr rfl)
  rw [Machine.tells?]
  obtain ⟨hl | ⟨-, rest, hag⟩, -⟩ := h
  · obtain ⟨i, v, rest, hag, -⟩ := hear_of_line? hl
    rw [hag]
    exact dif_neg hne
  · rw [hag]

theorem tells?_of_spares (h : m.Spares c) (id : Nat) : m.tells? c id = none := by
  rw [tells?]
  split
  · next x i v rest hag =>
    by_cases hx : x = c
    · subst hx
      exact absurd hag ((h rest).1 i v)
    · exact dif_neg hx
  · rfl

theorem shows?_of_same (hw : c = .soundEffect → m.dispatched?.bind Instruction.wave? = none)
    (hv : m.step.value c = m.value c) : m.shows? c = none := by
  rw [shows?, hv]
  exact CellName.shows?_self hw

theorem shows?_of_not_dispatched (hn : m.dispatched? = none) (hv : m.step.value c = m.value c) :
    m.shows? c = none :=
  shows?_of_same (fun _ => by rw [hn]; rfl) hv

end Machine

namespace Undisturbed

variable {P : HostCall → Prop} {m : Machine Player Task} {c : CellName} {k : Nat}
  {ids ids' : List Nat} {ws ws' : List CellName} {o : Observer c.Value Reaction} {r : Reaction}

/-- The loop takes something up, or a delivery begins. -/
theorem tells_loop {rest : Orders}
    (hag : m.agenda = .drain :: rest ∨ ∃ x, m.agenda = .perform (.deliver x) :: rest)
    (ho : o ∈ (m.world.stage.cell c).observers)
    (hout : outstanding c o.id ids' ws' (m.value c) = outstanding c o.id ids ws (m.value c)) :
    o ∈ (m.step.world.stage.cell c).observers ∧ m.Conveys c o.id ids ws ids' ws' := by
  obtain ⟨hv, hobs⟩ := Machine.cell_of_loop c ⟨rest, hag⟩
  have hshows : m.shows? c = none := Machine.shows?_of_not_dispatched
    (Machine.dispatched?_eq_none (Machine.not_advances_of_loop ⟨rest, hag⟩)) hv
  have htells : m.tells? c o.id = none := by
    rw [Machine.tells?]
    rcases hag with hag | ⟨x, hag⟩ <;> rw [hag]
  refine ⟨hobs ▸ ho, .same hshows hv ?_⟩
  rw [htells]
  exact hout

/-- A step that leaves the cell as it is keeps the observer. -/
theorem stays_of_like (hu : Undisturbed P c k ids ws m) (hu' : Undisturbed P c k ids' ws' m.step)
    (hl : (m.world.stage.cell c).Like (fun id => m.revoked? = some (c, id))
      (m.step.world.stage.cell c))
    (ho : o ∈ (m.world.stage.cell c).observers) (ha : o.Always r) (hm : m.Respects c o.id) :
    o ∈ (m.step.world.stage.cell c).observers ∧ m.step.value c = m.value c ∧
      (c ∈ ws' ↔ c ∈ ws) := by
  refine ⟨hl.stays o ho ha.stays hm.2, hl.value, ?_⟩
  rw [← hu.scheduled, ← hu'.scheduled, hl.scheduled]

/-- An observer hears the cell, the one in question or another one. -/
theorem tells_hear {id : Nat} {rest : Orders} (hu : Undisturbed P c k (id :: ids) ws m)
    (hu' : Undisturbed P c k ids ws m.step)
    (hag : m.agenda = .perform (.hear c id (m.world.stage.cell c).value) :: rest)
    (hn : m.dispatched? = none) (hmakes : m.Makes []) (ho : o ∈ (m.world.stage.cell c).observers)
    (ha : o.Always r) (hm : m.Respects c o.id) :
    o ∈ (m.step.world.stage.cell c).observers ∧ m.Conveys c o.id (id :: ids) ws ids ws := by
  obtain ⟨hs, hv, -⟩ :=
    hu.stays_of_like hu' (hmakes.like fun x hx => absurd hx List.not_mem_nil) ho ha hm
  refine ⟨hs, .same (Machine.shows?_of_not_dispatched hn hv) hv ?_⟩
  obtain ⟨hid, hw⟩ := hu.hearing
  have htells : m.tells? c o.id = if id = o.id ∧
      ((m.world.stage.cell c).hear id (m.world.stage.cell c).value).2 ≠ none
        then some (m.value c) else none := by
    rw [Machine.tells?, hag]
    exact dif_pos rfl
  rw [htells]
  by_cases heq : id = o.id
  · subst heq
    have hhear := (hu.numbered c).hear_eq ho (ha.accepts (m.world.stage.cell c).value) ha.stays
    rw [hhear, if_pos ⟨rfl, by simp⟩, outstanding, outstanding, if_neg (by simp [hid, hw]),
      if_pos (.inl List.mem_cons_self)]
    rfl
  · rw [if_neg fun h => heq h.1, outstanding, outstanding]
    simp [Ne.symm heq]

/-- The script is moved, or the host has a hand in other cells. -/
theorem tells_outside {xs : List CellChange} (hu : Undisturbed P c k ids ws m)
    (hu' : Undisturbed P c k ids ws' m.step) (hc : ¬ c.IsPlace) (hspares : m.Spares c)
    (hn : m.dispatched? = none) (hmakes : m.Makes xs)
    (hwhy : ∀ x ∈ xs, x.cell.IsPlace ∨ ∃ y ∈ m.call?, y.2.Alters x.cell)
    (ho : o ∈ (m.world.stage.cell c).observers) (ha : o.Always r) (hm : m.Respects c o.id) :
    o ∈ (m.step.world.stage.cell c).observers ∧ m.Conveys c o.id ids ws ids ws' := by
  have hx : ∀ x ∈ xs, x.cell ≠ c := by
    rintro x hx rfl
    rcases hwhy x hx with h | ⟨y, hy, h⟩
    · exact hc h
    · exact hm.1 y hy h
  obtain ⟨hs, hv, hw⟩ := hu.stays_of_like hu' (hmakes.like hx) ho ha hm
  refine ⟨hs, .same (Machine.shows?_of_not_dispatched hn hv) hv ?_⟩
  rw [Machine.tells?_of_spares hspares, outstanding, outstanding]
  simp only [hw]
  rfl

/-- An instruction begins. -/
theorem tells_begins {i : Instruction} {commands : CommandTable} {stage : Stage Reaction}
    (hu : Undisturbed P c k ids ws m) (hu' : Undisturbed P c k ids ws' m.step)
    (hspares : m.Spares c) (hi : m.dispatched? = some i) (hscripted : commands.Scripted)
    (hmakes : m.Makes (i.changes commands stage)) (ho : o ∈ (m.world.stage.cell c).observers)
    (ha : o.Always r) (hm : m.Respects c o.id) :
    o ∈ (m.step.world.stage.cell c).observers ∧ m.Conveys c o.id ids ws ids ws' := by
  have hwave : m.dispatched?.bind Instruction.wave? = i.wave? := by
    rw [hi]
    rfl
  obtain ⟨stage', hl, hd⟩ := hmakes
  have ho' := (hl c).stays o ho ha.stays hm.2
  have hcell : m.step.world.stage.cell c = _ := congrArg (·.cell c) (congrArg Display.stage hd)
  have hobs : o ∈ (m.step.world.stage.cell c).observers := by
    rw [hcell, Display.observers_changed]
    exact ho'
  refine ⟨hobs, ?_⟩
  rcases @Instruction.shows i commands stage ⟨stage', m.world.loop.microtasks⟩ c hscripted
    (List.ne_nil_of_mem ho') with ⟨heq, hnone⟩ | ⟨hne, hs, hshows, hv⟩
  · -- the instruction leaves the cell as it is
    rw [← hcell] at heq
    obtain ⟨-, hv, hw⟩ := hu.stays_of_like hu' (heq ▸ hl c) ho ha hm
    refine .same (Machine.shows?_of_same (fun h => hwave.trans (hnone h)) hv) hv ?_
    rw [Machine.tells?_of_spares hspares, outstanding, outstanding]
    simp only [hw]
    rfl
  · rw [← hcell] at hs hshows hv
    have hval : m.value c = (stage'.cell c).value := (hl c).value.symm
    refine .shows hi (fun h => hne ?_) (fun h => hne ?_) ?_ (Machine.tells?_of_spares hspares _)
      ((hu'.scheduled c).1 hs) fun h => ?_
    · exact Instruction.changes_of_opcode hscripted (.inl h)
    · exact Instruction.changes_of_opcode hscripted (.inr h)
    · rw [Machine.shows?, hwave, hval]
      exact hshows
    · rw [hval]
      exact hv h

/-- **What is shown is still to be heard.** -/
theorem tells (hc : ¬ c.IsPlace) (hu : Undisturbed P c k ids ws m) (hp : m.Passes c ids ws ids' ws')
    (hu' : Undisturbed P c k ids' ws' m.step) (ho : o ∈ (m.world.stage.cell c).observers)
    (ha : o.Always r) (hm : m.Respects c o.id) :
    o ∈ (m.step.world.stage.cell c).observers ∧ m.Conveys c o.id ids ws ids' ws' := by
  cases hp with
  | take hag _ => exact tells_loop (.inl hag) ho rfl
  | @deliver x ws rest hag =>
    refine tells_loop (.inr ⟨x, hag⟩) ho ?_
    by_cases hx : x = c
    · subst hx
      rw [outstanding, outstanding, if_pos rfl, if_pos (.inl (List.mem_map_of_mem ho)),
        if_pos (.inr List.mem_cons_self)]
    · rw [if_neg hx, outstanding, outstanding]
      simp [Ne.symm hx]
  | hear hag hn hmakes => exact hu.tells_hear hu' hag hn hmakes ho ha hm
  | outside hspares hn hmakes hwhy _ =>
    exact hu.tells_outside hu' hc hspares hn hmakes hwhy ho ha hm
  | begins hspares hi hscripted hmakes _ =>
    exact hu.tells_begins hu' hspares hi hscripted hmakes ho ha hm

end Undisturbed

/-! ### Lines -/

/-- What an observer has heard since a line has been started, or since all that was shown has been
heard, and what it has still to hear. At first the cell held `v`, and if `b` holds its delivery
waited already. -/
structure Presenting (c : CellName) (o : Observer c.Value Reaction) (k : Nat) (v : c.Value)
    (b : Bool) (h : List (Machine Player Task)) (ids : List Nat) (ws : List CellName)
    (n : Machine Player Task) : Prop where
  /-- It is still an observer. -/
  stays : o ∈ (n.world.stage.cell c).observers
  /-- It has heard the value of the cell, or will hear it. -/
  told : heard c o.id h ++ outstanding c o.id ids ws (n.value c) =
    if displayed c h = [] ∧ b = false then [] else [n.value c]
  /-- The value has been shown, unless it has not changed. -/
  shown : displayed c h = [] ∧ n.value c = v ∨
    displayed c h = [n.value c] ∧ (c ≠ .soundEffect → n.value c ≠ v)
  /-- Nothing has been shown yet, or nothing will be. -/
  line : n.Unfolds ws ∧ displayed c h = [] ∧ heard c o.id h = [] ∨ Closing n.world.queue
  /-- The index comes after the cell. -/
  waits : ws.Pairwise fun x y => x = .index → y ≠ c
  /-- Also when it is delivered. -/
  calls : n.Led k → c ∉ ws ∨ n.line? ≠ none ∧ h = []

/-- A line has come to its end: the next one is started, or nothing is left to do. -/
def Machine.IsOver (n : Machine Player Task) : Prop :=
  n.line? ≠ none ∨ n.agenda = [] ∧ n.world.loop.microtasks = []

instance (n : Machine Player Task) : Decidable n.IsOver := inferInstanceAs (Decidable (_ ∨ _))

namespace Presenting

variable {P : HostCall → Prop} {n : Machine Player Task} {h : List (Machine Player Task)}
  {c : CellName} {o : Observer c.Value Reaction} {r : Reaction} {k : Nat} {v : c.Value} {b : Bool}
  {ids ids' : List Nat} {ws ws' : List CellName}

/-- A line is started. -/
theorem start (hc : ¬ c.IsPlace) (hu : Undisturbed P c k ids ws n) (hl : n.line? ≠ none)
    (ho : o ∈ (n.world.stage.cell c).observers) (hb : b = true ↔ c ∈ ws) :
    Presenting c o k (n.value c) b [] ids ws n := by
  obtain ⟨rfl, hindex⟩ := hu.of_line? hc hl
  refine ⟨ho, ?_, .inl ⟨rfl, rfl⟩, .inl ⟨⟨.inl hl, hindex⟩, rfl, rfl⟩,
    pairwise_of_not_mem (.inr hindex), fun _ => .inr ⟨hl, rfl⟩⟩
  cases b <;> simp_all [heard, displayed, outstanding]

/-- Nothing is still to be heard. -/
theorem quiet (ho : o ∈ (n.world.stage.cell c).observers) (hids : ids = []) (hw : c ∉ ws)
    (hline : n.Unfolds ws ∨ Closing n.world.queue) :
    Presenting c o k (n.value c) false [] ids ws n := by
  refine ⟨ho, ?_, .inl ⟨rfl, rfl⟩, hline.imp_left fun h => ⟨h, rfl, rfl⟩,
    pairwise_of_not_mem (.inl hw), fun _ => .inl hw⟩
  simp [heard, displayed, outstanding, hids, hw]

/-- **One step.** What has been shown has been heard, or will be. -/
theorem step (hc : ¬ c.IsPlace) (hn : Presenting c o k v b h ids ws n)
    (hu : Undisturbed P c k ids ws n) (hio : n.world.desk.InOrder)
    (hp : n.Passes c ids ws ids' ws') (hu' : Undisturbed P c k ids' ws' n.step) (ha : o.Always r)
    (hm : n.Respects c o.id) (hl : n.line? = none ∨ h = []) :
    Presenting c o k v b (n :: h) ids' ws' n.step := by
  have hline : n.Unfolds ws ∧ displayed c h = [] ∧ heard c o.id h = [] ∨
      n.line? = none ∧ Closing n.world.queue := by
    by_cases hnone : n.line? = none
    · exact hn.line.imp id fun hq => ⟨hnone, hq⟩
    · obtain rfl := hl.resolve_left hnone
      exact .inl ⟨⟨.inl hnone, (hu.of_line? hc hnone).2⟩, rfl, rfl⟩
  have hdefers : n.step.Defers k c ws' := by
    refine .step hc hu hp hn.waits (fun hna hled => ?_) (hline.imp And.left id) hm.1
    exact (hn.calls hled).resolve_right fun h => hna (.inl h.1)
  obtain ⟨hs, hconveys⟩ := hu.tells hc hp hu' hn.stays ha hm
  have calls (hled : n.step.Led k) : c ∉ ws' ∨ n.step.line? ≠ none ∧ n :: h = [] :=
    .inl (hdefers.calls hled)
  cases hconveys with
  | same hshow hv howed =>
    have hd : displayed c (n :: h) = displayed c h := by
      rw [displayed_cons, hshow]
      exact List.append_nil _
    refine ⟨hs, ?_, ?_, ?_, hdefers.waits, calls⟩
    · rw [hd, hv, heard_cons, List.append_assoc, howed]
      exact hn.told
    · rw [hd, hv]
      exact hn.shown
    · rcases hline with ⟨hunfolds, hshown, hheard⟩ | ⟨hnone, hq⟩
      · refine (Machine.unfolds_step hio hp hunfolds).symm.imp_left fun h => ⟨h.1, ?_, ?_⟩
        · rw [hd, hshown]
        · rw [heard_cons, hheard, hunfolds.tells? hc]
          rfl
      · exact .inr (Machine.closing_step hio hnone hq)
  | @shows i hi hif hpage hshow htell hw hv =>
    obtain ⟨hunfolds, hshown, hheard⟩ := hline.resolve_right fun ⟨hnone, hq⟩ => hpage (by
      rw [Machine.eq_pageBreak_of_closing hnone hq hi]
      rfl)
    have hd : displayed c (n :: h) = [n.step.value c] := by
      rw [displayed_cons, hshown, hshow]
      rfl
    have hfirst : n.value c = v := by
      rcases hn.shown with ⟨-, h⟩ | ⟨h, -⟩
      · exact h
      · rw [hshown] at h
        cases h
    refine ⟨hs, ?_, ?_, .inr ?_, hdefers.waits, calls⟩
    · rw [hd, heard_cons, hheard, htell, outstanding, if_pos (.inr hw), if_neg (by simp)]
      rfl
    · exact .inr ⟨hd, fun h => hfirst ▸ hv h⟩
    · exact (Machine.unfolds_step hio hp hunfolds).resolve_right fun h => hif (h.2 i hi)

/-- The host has its turn. -/
theorem turn {p q : Player} {orders : Orders} (hn : Presenting c o k v b h [] ws ⟨p, []⟩)
    (hd : q.desk = p.desk) (ho : ∀ o ∈ orders, o.Passes P) :
    Presenting c o k v b h [] ws ⟨q, orders⟩ := by
  have hstage : q.stage = p.stage := congrArg Desk.stage hd
  have hvalue : Machine.value ⟨q, orders⟩ c = Machine.value ⟨p, []⟩ c :=
    congrArg (fun s => (s.cell c).value) hstage
  refine ⟨?_, ?_, ?_, .inr ?_, hn.waits, fun hl => ?_⟩
  · change o ∈ (q.stage.cell c).observers
    rw [hstage]
    exact hn.stays
  · rw [hvalue]
    exact hn.told
  · rw [hvalue]
    exact hn.shown
  · have hq : q.queue = p.queue := congrArg Desk.queue hd
    change Closing q.queue
    rw [hq]
    exact Machine.closing_of_rest (hn.line.imp_left And.left)
  · obtain ⟨i, hi⟩ := hl
    exact (ho _ hi).elim

/-- At the end of a line nothing is still to be heard. -/
theorem nothing_waits (hc : ¬ c.IsPlace) (hn : Presenting c o k v b h ids ws n)
    (hu : Undisturbed P c k ids ws n) (hover : n.IsOver) (hh : h ≠ [] ∨ b = false) :
    ids = [] ∧ c ∉ ws := by
  rcases hover with hl | ⟨hag, hm⟩
  · refine ⟨(hu.of_line? hc hl).1, fun hw => ?_⟩
    -- if nothing has happened since, the cell would have waited already
    obtain ⟨-, rfl⟩ := (hn.calls (hu.led_of_line? hl)).resolve_left fun h => h hw
    obtain rfl := hh.resolve_left fun h => h rfl
    have htold := hn.told
    rw [outstanding, if_pos (.inr hw)] at htold
    cases htold
  · obtain ⟨p, agenda⟩ := n
    obtain rfl : agenda = [] := hag
    obtain ⟨hids, hd⟩ := hu.at_rest
    have hws : ws = [] := List.map_eq_nil_iff.1 (hd.microtasks.symm.trans hm)
    exact ⟨hids, hws ▸ List.not_mem_nil⟩

/-- At the end of a line the observer has heard the value of the cell, unless nothing was shown. -/
theorem heard_eq (hc : ¬ c.IsPlace) (hn : Presenting c o k v b h ids ws n)
    (hu : Undisturbed P c k ids ws n) (hover : n.IsOver) (hh : h ≠ [] ∨ b = false) :
    heard c o.id h = if displayed c h = [] ∧ b = false then [] else [n.value c] := by
  obtain ⟨rfl, hw⟩ := hn.nothing_waits hc hu hover hh
  have htold := hn.told
  rwa [outstanding, if_neg (by simp [hw]), List.append_nil] at htold

/-- At the end of a line everything that has been shown has been heard. -/
theorem heard_eq_displayed (hc : ¬ c.IsPlace) (hn : Presenting c o k v false h ids ws n)
    (hu : Undisturbed P c k ids ws n) (hover : n.IsOver) : heard c o.id h = displayed c h := by
  rw [hn.heard_eq hc hu hover (.inr rfl)]
  rcases hn.shown with ⟨h, -⟩ | ⟨h, -⟩ <;> simp [h]

end Presenting

/-! ### Runs -/

/-- What an observer hears of a cell while lines are run, from the first machine to the last one.
The others are those that have taken a step. -/
structure Presented (c : CellName) (o : Observer c.Value Reaction) (m : Machine Player Task)
    (h : List (Machine Player Task)) (n : Machine Player Task) : Prop where
  /-- One line shows one value at most, the one that it leaves. Except for sounds this is a new
  one. -/
  shown {h' : List (Machine Player Task)} : h = h' ++ [m] → m.line? ≠ none →
    (∀ x ∈ h', x.line? = none) → displayed c h = [] ∧ n.value c = m.value c ∨
      displayed c h = [n.value c] ∧ (c ≠ .soundEffect → n.value c ≠ m.value c)
  /-- If a line shows something it is heard once, and nothing else is. Otherwise nothing is heard,
  unless the cell waited to be delivered when the line was started. -/
  heard {h' : List (Machine Player Task)} : h = h' ++ [m] → m.line? ≠ none →
    (∀ x ∈ h', x.line? = none) → heard c o.id h =
      if displayed c h = [] ∧ (m.world.stage.cell c).scheduled = false then [] else [n.value c]
  /-- Over many lines everything that is shown is heard, if nothing was still to be heard. -/
  all : (m.world.stage.cell c).scheduled = false →
    (∀ id v, .perform (.hear c id v) ∉ m.agenda) → Novella.heard c o.id h = displayed c h
  /-- What is shown of sounds are the names that the executed commands play, repetitions too. -/
  sounds : displayed .soundEffect h = ((dispatched h).filterMap Instruction.wave?).map some

theorem Machine.IsOver.records {n : Machine Player Task} (h : n.IsOver) : n.Records := by
  have hcall : n.call? = none := by
    rcases h with hl | ⟨hag, -⟩
    · obtain ⟨id, i, rest, hag, -⟩ := hear_of_line? hl
      rw [call?, hag]
    · rw [call?, hag]
  intro x hx
  rw [hcall] at hx
  cases hx

namespace Run

variable {P : HostCall → Prop} {p : Player} {m n : Machine Player Task}
  {h h₀ : List (Machine Player Task)} {c : CellName} {o : Observer c.Value Reaction} {r : Reaction}
  {k : Nat}

/-- How far lines have come. -/
theorem unfolds (hp : p.Begins) (hk : Undisturbed P c k [] [] ⟨p, []⟩) (hc : ¬ c.IsPlace)
    (hr : Run P ⟨p, []⟩ h m) (hrec : ∀ x ∈ h, x.Records) (hm : m.Records) :
    ∃ ids ws, Undisturbed P c k ids ws m ∧ (m.Unfolds ws ∨ Closing m.world.queue) := by
  refine hr.undisturbed hc hp.inOrder (Q := fun _ _ ws n => n.Unfolds ws ∨ Closing n.world.queue)
    hrec (fun _ => ⟨_, _, hk, .inr ?_⟩) (fun hu ho hpass _ => Machine.lined_step hc hu ho hpass)
    (@fun _ _ p q _ hd _ hq => .inr ?_) hm
  · cases hp <;> exact closing_nil
  · have heq : q.queue = p.queue := congrArg Desk.queue hd
    exact heq ▸ Machine.closing_of_rest hq

/-- While one line is run. -/
theorem presenting_line (hc : ¬ c.IsPlace) (hio : m.world.desk.InOrder) (r₁ : Run P m h n)
    (hrec : ∀ x ∈ h, x.Records) (hn : n.Records) (ho : o ∈ (m.world.stage.cell c).observers)
    (ha : o.Always r) (hhost : ∀ x ∈ h, x.Respects c o.id)
    (hm : m.Records → ∃ ids ws, Undisturbed P c k ids ws m) (hl : m.line? ≠ none)
    (hlines : ∀ x ∈ h.dropLast, x.line? = none) : ∃ ids ws, Undisturbed P c k ids ws n ∧
      Presenting c o k (m.value c) (m.world.stage.cell c).scheduled h ids ws n := by
  let Q (h : List (Machine Player Task)) (ids : List Nat) (ws : List CellName)
      (n : Machine Player Task) : Prop :=
    (∀ x ∈ h, x.Respects c o.id) → (∀ x ∈ h.dropLast, x.line? = none) →
      Presenting c o k (m.value c) (m.world.stage.cell c).scheduled h ids ws n
  suffices hq : ∃ ids ws, Undisturbed P c k ids ws n ∧ Q h ids ws n by
    obtain ⟨ids, ws, hu, hq⟩ := hq
    exact ⟨ids, ws, hu, hq hhost hlines⟩
  refine r₁.undisturbed hc hio hrec (fun hr => ?_)
    (@fun h x _ _ _ _ hu hio hpass hu' hq hall hlines => ?_)
    (fun hd ho hq hx hlines => (hq hx hlines).turn hd ho) hn
  · obtain ⟨ids, ws, hu⟩ := hm hr
    exact ⟨ids, ws, hu, fun _ _ => .start hc hu hl ho (hu.scheduled c)⟩
  · obtain ⟨hx, hxs⟩ := List.forall_mem_cons.1 hall
    by_cases hh : h = []
    · subst hh
      exact (hq hxs hlines).step hc hu hio hpass hu' ha hx (.inr rfl)
    · rw [List.dropLast_cons_of_ne_nil hh] at hlines
      obtain ⟨hl, hlines⟩ := List.forall_mem_cons.1 hlines
      exact (hq hxs hlines).step hc hu hio hpass hu' ha hx (.inl hl)

/-- While lines are run. All that earlier lines have shown has been heard. -/
theorem presenting_lines (hc : ¬ c.IsPlace) (hio : m.world.desk.InOrder) (r₁ : Run P m h n)
    (hrec : ∀ x ∈ h, x.Records) (hn : n.Records) (ho : o ∈ (m.world.stage.cell c).observers)
    (ha : o.Always r) (hhost : ∀ x ∈ h, x.Respects c o.id)
    (hm : m.Records → ∃ ids ws, Undisturbed P c k ids ws m ∧
      (m.Unfolds ws ∨ Closing m.world.queue))
    (hs : (m.world.stage.cell c).scheduled = false)
    (hnone : ∀ id v, .perform (.hear c id v) ∉ m.agenda) :
    ∃ ids ws, Undisturbed P c k ids ws n ∧ ∃ h₁ h₀ v, h = h₁ ++ h₀ ∧
      heard c o.id h₀ = displayed c h₀ ∧ Presenting c o k v false h₁ ids ws n := by
  let Q (h : List (Machine Player Task)) (ids : List Nat) (ws : List CellName)
      (n : Machine Player Task) : Prop :=
    (∀ x ∈ h, x.Respects c o.id) → ∃ h₁ h₀ v, h = h₁ ++ h₀ ∧
      heard c o.id h₀ = displayed c h₀ ∧ Presenting c o k v false h₁ ids ws n
  suffices hq : ∃ ids ws, Undisturbed P c k ids ws n ∧ Q h ids ws n by
    obtain ⟨ids, ws, hu, hq⟩ := hq
    exact ⟨ids, ws, hu, hq hhost⟩
  refine r₁.undisturbed hc hio hrec (fun hr => ?_)
    (@fun h x _ ws _ _ hu hio hpass hu' hq hall => ?_) (fun hd ho hq hall => ?_) hn
  · obtain ⟨ids, ws, hu, hlined⟩ := hm hr
    have hw : c ∉ ws := fun hw => by
      rw [(hu.scheduled c).2 hw] at hs
      cases hs
    have hids : ids = [] := List.eq_nil_iff_forall_not_mem.2 fun id hid =>
      hnone id _ (hu.mem_agenda hid)
    exact ⟨ids, ws, hu, fun _ => ⟨[], [], m.value c, rfl, rfl, .quiet ho hids hw hlined⟩⟩
  · obtain ⟨hx, hxs⟩ := List.forall_mem_cons.1 hall
    obtain ⟨h₁, h₀, v, rfl, heq, hn⟩ := hq hxs
    by_cases hl : x.line? = none
    · exact ⟨x :: h₁, h₀, v, rfl, heq, hn.step hc hu hio hpass hu' ha hx (.inl hl)⟩
    · -- another line is started, and nothing is still to be heard
      obtain ⟨hids, hw⟩ := hn.nothing_waits hc hu (.inl hl) (.inr rfl)
      have hstart : Presenting c o k (x.value c) false [] _ ws x :=
        .quiet hn.stays hids hw (.inl ⟨.inl hl, (hu.of_line? hc hl).2⟩)
      refine ⟨[x], h₁ ++ h₀, x.value c, rfl, ?_,
        hstart.step hc hu hio hpass hu' ha hx (.inr rfl)⟩
      rw [heard_append, displayed_append, heq, hn.heard_eq_displayed hc hu (.inl hl)]
  · obtain ⟨h₁, h₀, v, rfl, heq, hn⟩ := hq hall
    exact ⟨h₁, h₀, v, rfl, heq, hn.turn hd ho⟩

/-- **The presentation sees every line.** If those who listen only record what they hear, whatever a
line leaves in a cell is heard by every observer of the cell that wants all values, once and before
the next line is started. -/
theorem presented (hp : p.Begins) (r₀ : Run P ⟨p, []⟩ h₀ m) (r₁ : Run P m h n)
    (hrec : ∀ x ∈ h ++ h₀, x.Records) (hc : ¬ c.IsPlace)
    (ho : o ∈ (m.world.stage.cell c).observers) (ha : o.Always r)
    (hhost : ∀ x ∈ h, x.Respects c o.id) (hover : n.IsOver) : Presented c o m h n := by
  obtain ⟨k, hk⟩ := hp.undisturbed P
  have hio : m.world.desk.InOrder := r₀.inOrder hp.inOrder
  obtain ⟨hrec, hrec₀⟩ := List.forall_mem_append.1 hrec
  have hm := r₀.unfolds hp (hk c) hc hrec₀
  have line {h' : List (Machine Player Task)} (heq : h = h' ++ [m]) (hl : m.line? ≠ none)
      (hno : ∀ x ∈ h', x.line? = none) : ∃ ids ws, Undisturbed P c k ids ws n ∧
        Presenting c o k (m.value c) (m.world.stage.cell c).scheduled h ids ws n := by
    refine r₁.presenting_line hc hio hrec hover.records ho ha hhost (fun hr => ?_) hl ?_
    · obtain ⟨ids, ws, hu, -⟩ := hm hr
      exact ⟨ids, ws, hu⟩
    · rw [heq, List.dropLast_concat]
      exact hno
  refine ⟨fun heq hl hno => ?_, fun heq hl hno => ?_, fun hs hnone => ?_, displayed_soundEffect h⟩
  · obtain ⟨ids, ws, hu, hn⟩ := line heq hl hno
    exact hn.shown
  · obtain ⟨ids, ws, hu, hn⟩ := line heq hl hno
    exact hn.heard_eq hc hu hover (.inl (by simp [heq]))
  · obtain ⟨ids, ws, hu, h₁, h₀, v, rfl, heq, hn⟩ :=
      r₁.presenting_lines hc hio hrec hover.records ho ha hhost hm hs hnone
    rw [heard_append, displayed_append, heq, hn.heard_eq_displayed hc hu hover]

end Run

/-- A host that listens to sounds and has two lines played. They play the same sound. -/
def echoing : Machine Player Task :=
  (Player.plain .instant).called
    [.observe .soundEffect (fun _ => true) false (fun _ => false) 0 [], .goto "a" 0, .settle, .take,
      .complete 0 (some ["wave x", "wave x"]), .settle]

/-- The observer of the host. -/
def listening : Observer (Option String) Reaction := ⟨0, .listener 0, fun _ => true, false⟩

theorem always_listening : listening.Always (.listener 0) := ⟨rfl, fun _ => rfl, rfl⟩

theorem run_echoing (n : Nat) :
    Run (fun _ => True) ⟨.plain .instant, []⟩ (echoing.trail n) (echoing.run n) := by
  refine Run.calls .start (fun c hc => ?_) n
  simp only [List.mem_cons, List.not_mem_nil, or_false] at hc
  rcases hc with rfl | rfl | rfl | rfl | rfl | rfl <;> exact .of_body_eq_nil trivial rfl

/-- The sound of the first line is heard before the second one is started, and it is heard again
with that. -/
theorem echoing_presented :
    (Presented .soundEffect listening (echoing.run 21) ((echoing.run 21).trail 7)
        ((echoing.run 21).run 7) ∧
      (echoing.run 21).line? = some "wave x" ∧
      heard .soundEffect 0 ((echoing.run 21).trail 7) = [some "x"]) ∧
    (Presented .soundEffect listening (echoing.run 1) ((echoing.run 1).trail 40)
        ((echoing.run 1).run 40) ∧
      heard .soundEffect 0 ((echoing.run 1).trail 40) = [some "x", some "x"]) := by
  obtain ⟨⟨hrec, hhost, hover, hline, hone⟩, hrec', hhost', hover', htwo⟩ :
      ((∀ x ∈ (echoing.run 21).trail 7 ++ echoing.trail 21, x.Records) ∧
        (∀ x ∈ (echoing.run 21).trail 7, x.Respects .soundEffect 0) ∧
        ((echoing.run 21).run 7).IsOver ∧ (echoing.run 21).line? = some "wave x" ∧
        heard .soundEffect 0 ((echoing.run 21).trail 7) = [some "x"]) ∧
      (∀ x ∈ (echoing.run 1).trail 40 ++ echoing.trail 1, x.Records) ∧
        (∀ x ∈ (echoing.run 1).trail 40, x.Respects .soundEffect 0) ∧
        ((echoing.run 1).run 40).IsOver ∧
        heard .soundEffect 0 ((echoing.run 1).trail 40) = [some "x", some "x"] := by
    decide +kernel
  exact ⟨⟨Run.presented (begins_plain _) (run_echoing 21) (Run.steps_self (P := fun _ => True) _ 7)
        hrec (by decide) (List.mem_singleton.2 rfl) always_listening hhost hover, hline, hone⟩,
    Run.presented (begins_plain _) (run_echoing 1) (Run.steps_self (P := fun _ => True) _ 40)
      hrec' (by decide) (List.mem_singleton.2 rfl) always_listening hhost' hover', htwo⟩

end Novella
