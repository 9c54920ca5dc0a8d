import Novella.Proofs.Player.UndisturbedDeliveries
import Novella.Proofs.Save.WriteThrough
import Novella.Proofs.Session.Pages

/-!
# The settings agree

The settings of a session stand in three places: in the slots, in the cell that a presentation
follows, and in the limit of the history. The slots come first, and the cell takes over what they
hold. The limit comes last, when the book hears the cell. In between nothing gets lost: as long as
the limit is not that of the settings, a delivery of the cell is on its way.

Nothing but the choice of settings writes their cell. Whatever else a host does, what it does may
fail, and then the slots and the cell are as they were.

## Main definitions

* `Session.Fails` — what is left of a session when something could not be stored
* `Session.Kept` — sessions whose host does anything, with storage that fails at any time
* `Keeping` — the limit is that of the settings, or is going to be
* `Draining` — nothing is left in the loop at the end of an agenda

## Main results

* `Keeping.step` — a step leaves the settings, and goes on keeping the limit
* `Draining.step` — an agenda that is going to empty the loop does so
* `Session.Kept.settings_agree` — cell, slots and history agree on the settings
-/

namespace Novella

open Player

/-! ### Scripts leave the settings alone -/

/-- Pictures and sounds are no settings. -/
theorem CueCommand.cell_ne_settings {c : CueCommand} {opcode argument : String} {x : Cue}
    (h : c.cue opcode argument = .ok x) : ∀ w ∈ x.writes, w.cell ≠ .settings := fun w hw =>
  (by decide : ∀ y ∈ CellName.cued, y ≠ .settings) _ ((writes_of_cue h).1 w hw)

theorem Cue.changes_ne_settings {x : Cue} (h : ∀ w ∈ x.writes, w.cell ≠ .settings) :
    ∀ y ∈ x.changes, y.cell ≠ .settings := by
  intro y hy
  rcases List.mem_append.1 hy with hy | hy
  · obtain ⟨w, hw, rfl⟩ := List.mem_map.1 hy
    exact h w hw
  · cases he : x.effect with
    | none =>
      rw [he] at hy
      exact absurd hy List.not_mem_nil
    | some name =>
      rw [he] at hy
      simp only [Option.elim, CellChange.playing, List.mem_cons, List.not_mem_nil, or_false] at hy
      rcases hy with rfl | rfl <;> simp [CellChange.cell]

/-- No command changes the settings. -/
theorem Command.changes_ne_settings (command : Command) (stage : Stage Reaction)
    (opcode argument : String) :
    ∀ x ∈ command.changes stage opcode argument, x.cell ≠ .settings := by
  intro x hx
  have outcome {r : Except AssignmentError Assignment.Outcome}
      (h : x ∈ r.toOption.elim [] fun o => [CellChange.write ⟨.vars, o.progress⟩]) :
      x.cell ≠ .settings := by
    cases r with
    | error e => exact absurd h List.not_mem_nil
    | ok o =>
      rw [List.mem_singleton.1 h]
      simp [CellChange.cell]
  cases command with
  | skip =>
    rw [changes] at hx
    split at hx
    · exact absurd hx List.not_mem_nil
    · exact absurd hx List.not_mem_nil
    · rw [List.mem_singleton.1 hx]
      simp [CellChange.cell]
  | cue c =>
    rw [changes] at hx
    cases hc : c.cue opcode argument with
    | error e =>
      rw [hc] at hx
      exact absurd hx List.not_mem_nil
    | ok y =>
      rw [hc] at hx
      exact Cue.changes_ne_settings (CueCommand.cell_ne_settings hc) x hx
  | assign op => exact outcome hx
  | step delta => exact outcome hx
  | _ => exact absurd hx List.not_mem_nil

theorem Instruction.changes_ne_settings (i : Instruction) (commands : CommandTable)
    (stage : Stage Reaction) : ∀ x ∈ i.changes commands stage, x.cell ≠ .settings := by
  rw [changes]
  cases (commands.get? i.opcode).join with
  | none => exact fun x hx => absurd hx List.not_mem_nil
  | some c => exact c.changes_ne_settings stage i.opcode i.argument

/-! ### The book follows the settings -/

/-- The observer by which the book follows the settings. -/
structure Observer.Limits (o : Observer Settings Reaction) : Prop where
  /-- It was the first to come. -/
  id : o.id = 0
  /-- The book hears of the settings. -/
  reaction : o.reaction = .limitHistory
  /-- It hears of all of them, -/
  accepts : ∀ v, o.accepts v = true
  /-- again and again. -/
  once : o.once = false

/-- The book follows the cell. -/
def Cell.Heeded (c : Cell Settings Reaction) : Prop := ∃ o ∈ c.observers, o.Limits

namespace Cell.Heeded

variable {c d : Cell Settings Reaction}

theorem of_observers (h : c.Heeded) (ho : d.observers = c.observers) : d.Heeded := by
  obtain ⟨o, hm, hl⟩ := h
  exact ⟨o, ho ▸ hm, hl⟩

/-- The book goes on following the cell, whoever comes and goes. -/
theorem like {gone : Nat → Prop} (h : c.Heeded) (hl : c.Like gone d) (hg : ¬ gone 0) :
    d.Heeded := by
  obtain ⟨o, hm, ho⟩ := h
  exact ⟨o, hl.stays o hm ho.once (ho.id ▸ hg), ho⟩

theorem hear (h : c.Heeded) (hn : c.Numbered) (v : Settings) :
    c.hear 0 v = (c, some .limitHistory) := by
  obtain ⟨o, hm, ho⟩ := h
  have hh := hn.hear_eq hm (ho.accepts v) ho.once
  rwa [ho.id, ho.reaction] at hh

theorem mem_ids (h : c.Heeded) : 0 ∈ c.observers.map Observer.id := by
  obtain ⟨o, hm, ho⟩ := h
  exact List.mem_map.2 ⟨o, hm, ho.id⟩

/-- The book hears of settings that are new. -/
theorem set (h : c.Heeded) {v : Settings} (hv : c.value ≠ v) : (c.set v).1.scheduled = true := by
  obtain ⟨o, hm, -⟩ := h
  rw [Cell.set_eq hv (List.ne_nil_of_mem hm)]

end Cell.Heeded

namespace Machine

variable {m : Machine Player Task} {xs : List CellChange}

/-- The settings keep their value and the book follows them, whatever else changes. -/
theorem Makes.settings (h : m.Makes xs) (hx : ∀ x ∈ xs, x.cell ≠ .settings)
    (hr : m.revoked? = none) :
    m.step.world.stage.settings.value = m.world.stage.settings.value ∧
      (m.world.stage.settings.Heeded → m.step.world.stage.settings.Heeded) := by
  obtain ⟨stage, hl, hd⟩ := h
  have hs : m.step.world.stage.settings = stage.settings :=
    (congrArg (fun d : Display => d.stage.cell .settings) hd).trans (Display.cell_changed hx _)
  have hl : m.world.stage.settings.Like (fun id => m.revoked? = some (.settings, id))
      stage.settings := hl .settings
  rw [hs]
  exact ⟨hl.value, fun hh => hh.like hl (by simp [hr])⟩

end Machine

/-! ### The limit of the history -/

/-- How many pages the settings ask for. There is always one. -/
def Settings.pages (x : Settings) : Nat := max 1 x.historyLimit.toNat

namespace History

theorem limit_setLimit (h : History) (x : Settings) :
    (h.setLimit x.historyLimit.toNat).limit = x.pages := Nat.max_comm ..

end History

namespace Player

variable {p : Player}

/-- What is said leaves the limit. -/
theorem limit_send (hw : ∀ h, (p.hooks.relay h).receiver = some .book) (s : Option Signal) :
    (p.send s).book.history.limit = p.book.history.limit := by
  cases s with
  | none => rfl
  | some s =>
    obtain ⟨hooks, hs⟩ := surroundings_emit_book (hw s.hook)
    have hb : (p.send (some s)).book = { (p.enter s).book with hooks } :=
      congrArg Surroundings.book hs
    rw [hb]
    cases s with
    | text token => exact History.limit_appendText ..
    | _ => rfl

/-- Whoever hears a cell leaves the limit, unless it is the settings that are heard. -/
theorem limit_hear (hw : ∀ h, (p.hooks.relay h).receiver = some .book) {x : CellName}
    (hx : x ≠ .settings) (id : Nat) (v : x.Value) :
    (perform (.hear x id v) p).1.book.history.limit = p.book.history.limit := by
  unfold perform
  dsimp only
  split
  · next after r heq =>
    unfold reactTo
    split
    · exact congrArg (fun y : Surroundings => y.book.history.limit) (surroundings_loadScene ..)
    · refine (congrArg (fun y : Surroundings => y.book.history.limit)
        (surroundings_runLine ..)).trans ?_
      exact @limit_send (p.store .index (after, false)) hw _
    · rw [openPage]
      split <;> rfl
    · exact absurd rfl hx
    · exact congrArg (fun y : Surroundings => y.book.history.limit) (surroundings_react ..)
    · rfl
  · rfl

/-- Whoever hears the settings leaves the limit, or makes it that of the settings. -/
theorem limit_hear_settings (id : Nat) (v : Settings) :
    (perform (.hear .settings id v) p).1.book.history.limit = p.book.history.limit ∨
      (perform (.hear .settings id v) p).1.book.history.limit = v.pages := by
  unfold perform
  dsimp only
  split
  · next after r heq =>
    cases r with
    | openPage =>
      refine .inl ?_
      show (p.store .settings (after, false)).openPage.book.history.limit = _
      rw [openPage]
      split <;> rfl
    | limitHistory => exact .inr (History.limit_setLimit ..)
    | listener n =>
      exact .inl (congrArg (fun y : Surroundings => y.book.history.limit) (surroundings_react ..))
    | _ => exact .inl rfl
  · exact .inl rfl

/-- The book hears the settings. -/
theorem limit_hear_own (h : p.stage.settings.Heeded) (hn : p.stage.settings.Numbered)
    (v : Settings) : (perform (.hear .settings 0 v) p).1.book.history.limit = v.pages := by
  have hh : (p.stage.cell .settings).hear 0 v = (p.stage.settings, some .limitHistory) :=
    h.hear hn v
  rw [Steady.perform_hear_eq hh]
  exact History.limit_setLimit ..

end Player

namespace Attending

variable {S : SceneSource → Prop} {m : Machine Player Task} {c : Course}

/-- Only when the settings are heard does the limit change. -/
theorem limit_step (h : Attending S m c)
    (hn : ∀ id v rest, m.agenda ≠ .perform (.hear .settings id v) :: rest) :
    m.step.world.book.history.limit = m.world.book.history.limit := by
  obtain ⟨p, agenda⟩ := m
  cases agenda with
  | nil => rfl
  | cons o rest =>
    by_cases ho : ∃ t, o = .perform t
    · obtain ⟨t, rfl⟩ := ho
      rw [Steady.step_perform]
      by_cases hh : ∃ x id v, t = .hear x id v
      · obtain ⟨x, id, v, rfl⟩ := hh
        refine limit_hear h.watching.hooks (fun hx => ?_) id v
        subst hx
        exact hn id v rest rfl
      · refine (congrArg (fun y : Surroundings => y.book.history.limit) (surroundings_perform p
          (fun x id v heq => hh ⟨x, id, v, heq⟩) ?_)).trans (limit_send h.watching.hooks _)
        rintro a d rfl
        exact h.isSessions rfl
    · obtain ⟨-, l, orders, hl, -⟩ := Machine.step_of_turn p rest (not_exists.1 ho) h.ne_halt
      rw [hl]
      rfl

/-- Nobody has left calls with the player. -/
theorem ne_events (h : Attending S m c) (d : HostCall) (rest : Orders) :
    m.agenda ≠ .perform (.call .events d) :: rest := by
  intro ha
  obtain ⟨p, agenda⟩ := m
  obtain rfl : agenda = _ := ha
  cases h.arranged with
  | later hl _ => exact absurd (hl _ List.mem_cons_self).1 (by decide)
  | loose ht _ _ =>
    rcases ht with ⟨x, hx⟩ | ht
    · cases hx
    · exact ht
  | hand ho => exact ho

/-- The host takes no subscription back. -/
theorem revoked?_eq_none (h : Attending S m c) : m.revoked? = none := by
  obtain ⟨p, agenda⟩ := m
  unfold Machine.revoked?
  split
  · next heq => cases h.isSessions heq
  · rfl

/-- The session makes no call that changes the settings. -/
theorem not_alters (h : Attending S m c) : ∀ y ∈ m.call?, ¬ y.2.Alters .settings := by
  intro y hy
  obtain ⟨p, agenda⟩ := m
  unfold Machine.call? at hy
  split at hy
  · next a d rest heq =>
    cases hy
    have hd := h.isSessions heq
    cases d with
    | restore x v => exact fun ha => ha.2 rfl
    | goto s i => exact fun ha => by rcases ha with h | h <;> cases h
    | next | serve => exact id
    | _ => cases hd
  · cases hy

end Attending

/-! ### Steps -/

/-- The limit of the history is that of the settings, or is going to be: the delivery of their cell
waits, or the book is about to hear it. The player hears the index under the number `k`. -/
structure Keeping (k : Nat) (ids : List Nat) (ws : List CellName) (m : Machine Player Task) :
    Prop where
  /-- The cells wait in this order, and these observers have still to hear the settings. -/
  undisturbed : Undisturbed HostCall.KeepsPlace .settings k ids ws m
  /-- Lines are run in order. -/
  inOrder : m.world.desk.InOrder
  /-- The book follows the settings. -/
  heeded : m.world.stage.settings.Heeded
  /-- The limit is that of the settings, or is going to be. -/
  limit : m.world.book.history.limit = m.world.stage.settings.value.pages ∨
    .settings ∈ ws ∨ 0 ∈ ids

namespace Keeping

variable {S : SceneSource → Prop} {k : Nat} {ids : List Nat} {ws : List CellName} {p : Player}
  {m : Machine Player Task} {c c' : Course}

/-- A step that is no part of a delivery of the settings leaves them. -/
theorem of_makes {xs : List CellChange} {ids' : List Nat} {ws' : List CellName}
    (h : Keeping k [] ws m) (ha : Attending S m c) (hu : Undisturbed HostCall.KeepsPlace .settings k
      ids' ws' m.step) (hs : m.Spares .settings) (hm : m.Makes xs)
    (hx : ∀ x ∈ xs, x.cell ≠ .settings) (hw : .settings ∈ ws → .settings ∈ ws') :
    Keeping k ids' ws' m.step ∧
      m.step.world.stage.settings.value = m.world.stage.settings.value := by
  obtain ⟨hv, hh⟩ := hm.settings hx ha.revoked?_eq_none
  refine ⟨⟨hu, h.inOrder.step, hh h.heeded, ?_⟩, hv⟩
  rw [hv, ha.limit_step fun id v rest => (hs rest).1 id v]
  rcases h.limit with hl | hl | hl
  · exact .inl hl
  · exact .inr (.inl (hw hl))
  · exact absurd hl List.not_mem_nil

/-- **One step.** The settings stay as they are, and the limit is kept to them. -/
theorem step (h : Keeping k ids ws m) (ha : Attending S m c) (ha' : Attending S m.step c') :
    ∃ ids' ws', Keeping k ids' ws' m.step ∧
      m.step.world.stage.settings.value = m.world.stage.settings.value := by
  rcases h.undisturbed.step (by decide) h.inOrder with ⟨d, rest, hd⟩ | ⟨ids', ws', hu, hp⟩
  · exact absurd hd (ha'.ne_events d rest)
  refine ⟨ids', ws', ?_⟩
  cases hp with
  | take hagenda hne =>
    obtain ⟨p, agenda⟩ := m
    obtain rfl : agenda = _ := hagenda
    obtain ⟨-, l, orders, hl, -⟩ := Machine.step_of_turn p _ (fun t ht => by cases ht) ha.ne_halt
    refine ⟨⟨hu, h.inOrder.step, ?_, ?_⟩, ?_⟩
    · rw [hl]
      exact h.heeded
    · rw [hl]
      exact h.limit
    · rw [hl]
      rfl
  | @deliver x _ rest hagenda =>
    obtain ⟨p, agenda⟩ := m
    obtain rfl : agenda = _ := hagenda
    have hcell : (Player.store p x ((p.stage.cell x).beginDelivery.1, false)).stage.settings.value =
        p.stage.settings.value ∧
          (Player.store p x ((p.stage.cell x).beginDelivery.1, false)).stage.settings.observers =
            p.stage.settings.observers := by
      cases x <;> exact ⟨rfl, rfl⟩
    obtain ⟨hv, ho⟩ := hcell
    refine ⟨⟨hu, h.inOrder.step, h.heeded.of_observers ho, ?_⟩, hv⟩
    rcases h.limit with hl | hl | hl
    · exact .inl (hl.trans (congrArg Settings.pages hv.symm))
    · rcases List.mem_cons.1 hl with rfl | hl
      · rw [if_pos rfl]
        exact .inr (.inr h.heeded.mem_ids)
      · exact .inr (.inl hl)
    · exact absurd hl List.not_mem_nil
  | @hear id _ _ rest hagenda _ hm =>
    obtain ⟨hv, hh⟩ := hm.settings (fun x hx => absurd hx List.not_mem_nil) ha.revoked?_eq_none
    refine ⟨⟨hu, h.inOrder.step, hh h.heeded, ?_⟩, hv⟩
    rw [hv]
    have hn : m.world.stage.settings.Numbered := h.undisturbed.numbered .settings
    obtain ⟨p, agenda⟩ := m
    obtain rfl : agenda = .perform (.hear .settings id p.stage.settings.value) :: rest := hagenda
    rw [Steady.step_perform]
    by_cases hid : id = 0
    · subst hid
      exact .inl (limit_hear_own h.heeded hn _)
    · rcases limit_hear_settings (p := p) id p.stage.settings.value with hl | hl
      · rcases h.limit with hlimit | hw | hids
        · exact .inl (hl.trans hlimit)
        · exact .inr (.inl hw)
        · exact .inr (.inr ((List.mem_cons.1 hids).resolve_left (Ne.symm hid)))
      · exact .inl hl
  | outside hs _ hm hx =>
    refine h.of_makes ha hu hs hm (fun x hxs hc => ?_) (List.mem_append_left _)
    rcases hx x hxs with hplace | ⟨y, hy, hy'⟩
    · rw [hc] at hplace
      exact absurd hplace (by decide)
    · rw [hc] at hy'
      exact ha.not_alters y hy hy'
  | begins hs _ _ hm =>
    exact h.of_makes ha hu hs hm (Instruction.changes_ne_settings _ _ _) (List.mem_append_left _)

end Keeping

/-! ### What the host does -/

namespace Slots

variable {σ : Type} [SaveStorage σ] {s : Slots σ} {d : Call}

/-- A call that is done changes what it names. -/
theorem changes_of_ok (h : (s.call d).1 = .ok ()) : d.Changes s.data (s.call d).2.data := by
  rcases s.call_changes d with ⟨-, hc⟩ | ⟨⟨e, he⟩, -⟩
  · exact hc
  · cases h.symm.trans he

/-- A call that fails changes nothing. -/
theorem data_of_error {e : StorageError} (h : (s.call d).1 = .error e) :
    (s.call d).2.data = s.data := by
  rcases s.call_changes d with ⟨hok, -⟩ | ⟨-, hd⟩
  · cases h.symm.trans hok
  · exact hd

end Slots

namespace Session

variable {S : SceneSource → Prop} {s s' : Session} {m : Move}

/-- What is left of a session when something could not be stored. The host has been told so, and
only the clock may have been read. -/
inductive Fails (s : Session) : Session → Prop where
  /-- The position could not be saved. -/
  | save {id : SlotId} {e : SessionError} {s' : Session} : s.save id = (.error e, s') → Fails s s'
  /-- There was nothing to go back to. -/
  | load {id : SlotId} {e : SessionError} : s.load id = .error e → Fails s s
  /-- A slot could not be emptied. -/
  | delete {id : SlotId} {e : SessionError} {s' : Session} :
      s.delete id = (.error e, s') → Fails s s'
  /-- Settings could not be stored. -/
  | setSettings {x : Settings} {e : SessionError} {s' : Session} :
      s.setSettings x = (.error e, s') → Fails s s'
  /-- A text could not be taken over. -/
  | importText {text : String} {e : SessionError} {s' : Session} :
      s.importText text = (.error e, s') → Fails s s'

/-- What fails leaves the slots. -/
theorem Fails.data (h : s.Fails s') : s'.slots.data = s.slots.data := by
  cases h with
  | @save id e _ h =>
    obtain ⟨⟨e, he⟩, -, hs⟩ := eq_of_change_error h
    rw [hs]
    exact Slots.data_of_error (d := .store id _) he
  | load h => rfl
  | @delete id e _ h =>
    obtain ⟨⟨e, he⟩, -, hs⟩ := eq_of_change_error h
    rw [hs]
    exact Slots.data_of_error (s.slots.call_delete he)
  | @setSettings x e _ h =>
    obtain ⟨⟨e, he⟩, -, hs⟩ := eq_of_change_error h
    rw [hs]
    exact Slots.data_of_error (d := .setSettings x) he
  | @importText text e _ h =>
    obtain ⟨⟨e, he⟩, -, hs⟩ := eq_of_change_error h
    rw [hs]
    exact Slots.data_of_error (d := .importText text) he

/-- What fails leaves the player, but for a reading of the clock. -/
theorem Fails.player (h : s.Fails s') :
    s'.player = s.player ∨ s'.player = s.readClock.1.player := by
  cases h with
  | save h => exact .inr (eq_of_change_error h).2.1
  | load _ => exact .inl rfl
  | delete h | setSettings h | importText h => exact .inl (eq_of_change_error h).2.1

/-- Saves leave the settings. -/
theorem settings_save {id : SlotId} (h : s.save id = (.ok (), s')) :
    s'.slots.settings = s.slots.settings := by
  obtain ⟨hc, rfl⟩ := eq_of_change_ok h
  exact (Slots.changes_of_ok (s := s.slots) (d := .store id _) hc).1

theorem settings_delete {id : SlotId} {filled : Bool} (h : s.delete id = (.ok filled, s')) :
    s'.slots.settings = s.slots.settings := by
  obtain ⟨hc, rfl⟩ := eq_of_change_ok h
  exact (Slots.changes_of_ok (s.slots.call_delete hc)).1

/-- The cells stay as they are, but somebody may have come to observe one, and the settings may have
been written after they were stored. -/
def SparesCells (s : Session) (m : Move) : Prop :=
  ∃ stage : Stage Reaction,
    (∀ c, (s.player.stage.cell c).Like (fun _ => False) (stage.cell c)) ∧
      (m.1.player.display = ⟨stage, s.player.loop.microtasks⟩ ∧
          m.1.slots.settings = s.slots.settings ∨
        m.1.player.display = (Display.mk stage s.player.loop.microtasks).change
          (.write ⟨.settings, m.1.slots.settings⟩))

/-- Only the choice of settings writes a cell. -/
theorem Deed.sparesCells (h : s.Deed S m) : s.SparesCells m := by
  have same (hp : m.1.player.display = s.player.display)
      (hs : m.1.slots.settings = s.slots.settings) : s.SparesCells m :=
    ⟨s.player.stage, fun _ => .refl _, .inl ⟨hp, hs⟩⟩
  have wrote (hp : m.1.player = s.player.write .settings m.1.slots.settings) : s.SparesCells m :=
    ⟨s.player.stage, fun _ => .refl _, .inr ((congrArg Player.display hp).trans (display_write ..))⟩
  cases h with
  | loadState x => exact same (display_of_desk (desk_trace ..)) rfl
  | save h =>
    have hd : s.readClock.1.player.display = s.player.display := rfl
    refine same ((congrArg Player.display (player_save h)).trans ?_) (settings_save h)
    exact (display_of_desk (desk_trace ..)).trans hd
  | delete h => exact same (congrArg Player.display (player_delete h)) (settings_delete h)
  | setSettings h | importText h => exact wrote (player_takeOver h)
  | setClock clock =>
    have hc : (s.setClock clock).player.display = s.player.display ∧
        (s.setClock clock).slots = s.slots := by
      unfold Session.setClock
      split <;> exact ⟨rfl, rfl⟩
    exact same hc.1 (congrArg Slots.settings hc.2)
  | connect h hl => exact same (display_of_desk (desk_of_inside (inside_connectToBook ..))) rfl
  | observe c accepts once trigger times =>
    refine ⟨s.player.stage.withCell c ((s.player.stage.cell c).observe
      (.listener s.player.listeners.size) accepts once), fun d => ?_, .inl ⟨rfl, rfl⟩⟩
    by_cases hd : d = c
    · subst hd
      rw [Stage.cell_withCell_self]
      exact .observe ..
    · rw [Stage.cell_withCell_of_ne _ hd]
      exact .refl _
  | _ => exact same rfl rfl

/-- The limit is left to the book. -/
theorem Deed.limit (h : s.Deed S m) :
    m.1.player.book.history.limit = s.player.book.history.limit := by
  rcases h.book with ⟨-, hh | ⟨x, hh⟩⟩ | ⟨-, hh | ⟨c, hh⟩⟩
  · rw [hh]
  · rw [hh]
    rfl
  · rw [hh]
  · rw [hh]
    exact History.limit_modifyLast ..

/-- What is to be done next leaves the cells of the script to themselves. -/
theorem Deed.passes (h : s.Deed S m) (hl : ∀ l ∈ s.player.listeners, l.body = []) :
    ∀ o ∈ m.2, o.Passes HostCall.KeepsPlace := by
  intro o ho
  rcases h.orders hl with hn | ⟨-, d, hd, hm⟩
  · exact (hn o ho).2
  · rw [hm] at ho
    rcases List.mem_cons.1 ho with rfl | ho
    · rcases hd with ⟨s, i, rfl⟩ | ⟨x, v, rfl⟩ <;> exact .of_body_eq_nil trivial rfl
    · rw [List.mem_singleton.1 ho]
      exact .of_body_eq_nil trivial rfl

end Session

namespace Keeping

variable {S : SceneSource → Prop} {k : Nat} {ids : List Nat} {ws : List CellName} {c : Course}

/-- The host does something. If it chooses settings, the cell takes them over. -/
theorem deed {s : Session} {move : Session.Move} (h : Keeping k ids ws ⟨s.player, []⟩)
    (ha : Attending S ⟨s.player, []⟩ c) (hd : s.Deed S move)
    (hv : s.player.stage.settings.value = s.slots.settings) :
    (∃ ws', Keeping k [] ws' move.machine) ∧
      move.1.player.stage.settings.value = move.1.slots.settings := by
  have ha' := ha.deed hd
  have hpass : ∀ o ∈ move.2, o.IsApart HostCall.KeepsPlace .settings k :=
    fun o ho => .inl (hd.passes ha.listeners o ho)
  have hin : move.1.player.desk.InOrder := by
    have hs := hd.spared.seat
    refine h.inOrder.rests ⟨congrArg Seat.queue hs, congrArg Seat.generation hs,
      congrArg Seat.live hs, fun _ => ?_⟩
    rw [show move.1.player.desk.commands = .standard from ha'.watching.commands]
    exact CommandTable.scripted_standard
  obtain ⟨rfl, hw⟩ := h.undisturbed.at_rest
  have hlimit : s.player.book.history.limit = s.player.stage.settings.value.pages ∨
      .settings ∈ ws := h.limit.imp_right (Or.resolve_right · List.not_mem_nil)
  rw [← hd.limit] at hlimit
  obtain ⟨stage, hl, hdisplay⟩ := hd.sparesCells
  have hsettings : s.player.stage.settings.Like (fun _ => False) stage.settings := hl .settings
  have hheeded : stage.settings.Heeded := h.heeded.like hsettings id
  have hwaits : (Display.mk stage s.player.loop.microtasks).Awaits k ws := hw.like hl rfl
  rcases hdisplay with ⟨hdisplay, hslots⟩ | hdisplay
  · have hcell : move.1.player.stage.settings = stage.settings :=
      congrArg (fun d : Display => d.stage.settings) hdisplay
    have hvalue : move.1.player.stage.settings.value = s.player.stage.settings.value := by
      rw [hcell, hsettings.value]
    refine ⟨⟨ws, .quiet ha'.steady.tame (hdisplay ▸ hwaits) hpass, hin, ?_, ?_⟩,
      hvalue.trans (hv.trans hslots.symm)⟩
    · exact hheeded.of_observers (congrArg Cell.observers hcell)
    · rw [show move.machine.world.stage.settings.value = _ from hvalue]
      exact hlimit.imp_right .inl
  · generalize hx : move.1.slots.settings = x at hdisplay ⊢
    obtain ⟨ws', hwaits', hq⟩ := hwaits.change (.write ⟨.settings, x⟩)
    have hcell : move.1.player.stage.settings = (stage.settings.set x).1 :=
      congrArg (fun d : Display => d.stage.settings) hdisplay
    have hvalue : move.1.player.stage.settings.value = x := by
      rw [hcell, Cell.value_set]
    refine ⟨⟨ws', .quiet ha'.steady.tame (hdisplay ▸ hwaits') hpass, hin, ?_, ?_⟩, hvalue⟩
    · exact hheeded.of_observers ((congrArg Cell.observers hcell).trans (Cell.observers_set ..))
    · rw [show move.machine.world.stage.settings.value = _ from hvalue]
      by_cases hnew : stage.settings.value = x
      · refine hlimit.imp (fun hlim => ?_) fun hmem => .inl ?_
        · rw [show move.machine.world.book.history.limit = _ from hlim, ← hsettings.value, hnew]
        · rcases hq with rfl | ⟨-, rfl⟩
          · exact hmem
          · exact List.mem_append_left _ hmem
      · exact .inr (.inl ((hwaits'.scheduled .settings).1 (hheeded.set hnew)))

end Keeping

/-! ### The loop is emptied -/

namespace Order

/-- The order runs the microtasks until none is left. -/
def Drains : Order Task → Prop
  | drain => True
  | advance _ => True
  | perform (.call .nobody .serve) => True
  | _ => False

/-- The order leaves no microtasks if it finds none, or has them run before it is over. -/
def KeepsDrained : Order Task → Prop
  | perform (.call .nobody .serve) => True
  | perform (.report .nobody _) => True
  | perform .load => True
  | perform _ => False
  | halt => False
  | _ => True

end Order

/-- No microtask is left at the end of the agenda: there is none, or all are going to be run, and
what comes after that leaves none. -/
inductive Draining (p : Player) : Orders → Prop where
  /-- There is none. -/
  | drained {agenda : Orders} :
      p.loop.microtasks = [] → (∀ o ∈ agenda, o.KeepsDrained) → Draining p agenda
  /-- All are going to be run. -/
  | ahead (front : Orders) {o : Order Task} {back : Orders} :
      o.Drains → (∀ o ∈ back, o.KeepsDrained) → Draining p (front ++ o :: back)

namespace Draining

variable {p : Player} {m : Machine Player Task} {o : Order Task} {rest back : Orders}

theorem of_rest (h : Draining p []) : p.loop.microtasks = [] := by
  generalize ha : ([] : Orders) = agenda at h
  cases h with
  | drained hm _ => exact hm
  | ahead front => exact absurd ha.symm (by simp)

/-- A timeout that is due is followed by its microtasks. -/
theorem runUntil (hb : ∀ o ∈ rest, o.KeepsDrained) (hm : p.loop.microtasks = []) (target : Nat) :
    Draining (Machine.step ⟨p, .runUntil target :: rest⟩).world
      (Machine.step ⟨p, .runUntil target :: rest⟩).agenda := by
  cases hpop : (World.loop p).popDue? target with
  | none =>
    simp only [Machine.step, hpop]
    exact .drained hm hb
  | some due =>
    simp only [Machine.step, hpop]
    exact .ahead [.perform due.1] trivial (List.forall_mem_cons.2 ⟨trivial, hb⟩)

/-- When there are no microtasks, those that come are run. -/
theorem step_drained (hm : p.loop.microtasks = []) (ho : o.KeepsDrained)
    (hb : ∀ o ∈ rest, o.KeepsDrained) :
    Draining (Machine.step ⟨p, o :: rest⟩).world (Machine.step ⟨p, o :: rest⟩).agenda := by
  cases o with
  | drain =>
    rw [Machine.step_drain_nil hm]
    exact .drained hm hb
  | advance d =>
    exact .drained hm (List.forall_mem_cons.2 ⟨trivial, List.forall_mem_cons.2 ⟨trivial, hb⟩⟩)
  | depart d => exact .drained hm (List.forall_mem_cons.2 ⟨trivial, hb⟩)
  | runUntil target => exact runUntil hb hm target
  | halt => exact ho.elim
  | perform t =>
    rw [Steady.step_perform]
    cases t with
    | load =>
      rw [show Player.perform .load p = p.load from rfl, Player.load, takeRequest]
      cases p.loadRequest with
      | none => exact .drained hm hb
      | some r => exact .ahead [] trivial (List.forall_mem_cons.2 ⟨trivial, hb⟩)
    | report a x =>
      cases a with
      | nobody => exact .drained hm hb
      | _ => exact ho.elim
    | call a d =>
      cases a with
      | nobody =>
        cases d with
        | serve =>
          exact .drained hm (List.forall_mem_cons.2 ⟨trivial, List.forall_mem_cons.2
            ⟨trivial, List.forall_mem_cons.2 ⟨trivial, hb⟩⟩⟩)
        | _ => exact ho.elim
      | _ => cases d <;> exact ho.elim
    | _ => exact ho.elim

/-- When microtasks are run, they are run to the end. -/
theorem step_drains (ho : o.Drains) (hb : ∀ o ∈ back, o.KeepsDrained) :
    Draining (Machine.step ⟨p, o :: back⟩).world (Machine.step ⟨p, o :: back⟩).agenda := by
  cases o with
  | drain =>
    cases hm : p.schedule.loop.microtasks with
    | nil =>
      rw [Machine.step_drain_nil hm]
      exact .drained hm hb
    | cons t ts =>
      rw [Machine.step_drain_cons hm]
      exact .ahead [.perform t] trivial hb
  | advance d => exact .ahead [] trivial (List.forall_mem_cons.2 ⟨trivial, hb⟩)
  | perform t =>
    cases t with
    | call a d =>
      cases a with
      | nobody =>
        cases d with
        | serve =>
          exact .ahead [] trivial (List.forall_mem_cons.2
            ⟨trivial, List.forall_mem_cons.2 ⟨trivial, hb⟩⟩)
        | _ => exact ho.elim
      | _ => cases d <;> exact ho.elim
    | _ => exact ho.elim
  | _ => exact ho.elim

/-- **An agenda that is going to empty the loop** goes on doing so. -/
theorem step (h : Draining m.world m.agenda) (hn : ∀ rest, m.agenda ≠ .halt :: rest) :
    Draining m.step.world m.step.agenda := by
  obtain ⟨p, agenda⟩ := m
  cases h with
  | @drained _ hm hb =>
    cases agenda with
    | nil => exact .drained hm hb
    | cons o rest =>
      obtain ⟨ho, hb⟩ := List.forall_mem_cons.1 hb
      exact step_drained hm ho hb
  | @ahead front o back ho hb =>
    cases front with
    | nil => exact step_drains ho hb
    | cons x front =>
      have hx : ∃ (q : Player) (orders : Orders), Machine.step ⟨p, x :: (front ++ o :: back)⟩ =
          ⟨q, orders ++ (front ++ o :: back)⟩ := by
        by_cases hp : ∃ t, x = .perform t
        · obtain ⟨t, rfl⟩ := hp
          exact ⟨_, _, Steady.step_perform ..⟩
        · obtain ⟨-, l, orders, hl, -⟩ := Machine.step_of_turn p (front ++ o :: back)
            (not_exists.1 hp) fun hh => hn _ (congrArg (· :: (front ++ o :: back)) hh)
          exact ⟨_, orders, hl⟩
      obtain ⟨q, orders, hx⟩ := hx
      change Draining (Machine.step ⟨p, x :: (front ++ o :: back)⟩).world
        (Machine.step ⟨p, x :: (front ++ o :: back)⟩).agenda
      rw [hx]
      dsimp only
      rw [← List.append_assoc]
      exact .ahead _ ho hb

end Draining

/-! ### Sessions -/

namespace Session

variable {S : SceneSource → Prop} {s s' : Session} {m : Move}

/-- A session is opened, and its host does anything with it. What it does may fail, since its
storage may begin or cease to refuse documents at any time when nothing is under way. -/
inductive Kept (S : SceneSource → Prop) : Move → Prop where
  /-- The session is opened. -/
  | opened {source : SceneSource} {filter : DebugFilter} {storage : Storage} {clock : Instant}
      {s : Session} : S source → Session.open? source filter storage clock = .ok s → Kept S (s, [])
  /-- The host does something. -/
  | deed {s : Session} {m : Move} : Kept S (s, []) → s.Deed S m → Kept S m
  /-- The host tries to do something, and it fails. -/
  | failed {s s' : Session} : Kept S (s, []) → s.Fails s' → Kept S (s', [])
  /-- The storage changes. -/
  | storage {s : Session} (storage : Storage) : Kept S (s, []) →
      Kept S ({ s with slots := { s.slots with storage } }, [])
  /-- The player takes a step. -/
  | step {m : Move} : Kept S m → Kept S m.step

/-- What a host does settles if it serves the script at its end. -/
theorem Deed.draining (h : s.Deed S m) (hl : ∀ l ∈ s.player.listeners, l.body = [])
    (hm : serve ∈ m.2) : Draining m.1.player m.2 := by
  have serves (front : Orders) (heq : m.2 = front ++ [serve]) : Draining m.1.player m.2 := by
    rw [heq]
    exact .ahead front trivial fun o ho => absurd ho List.not_mem_nil
  cases h with
  | start scene => exact serves [_] rfl
  | next => exact serves [_] rfl
  | settle => exact serves [] rfl
  | advance d => exact serves [_, _] rfl
  | loadState x => exact serves [_] rfl
  | @connect h l hb =>
    refine absurd hm ?_
    dsimp only
    rw [connectToBook]
    dsimp only
    split
    · rw [orders_react]
      · exact List.not_mem_nil
      · intro x hx
        rcases Array.mem_push.1 hx with hx | rfl
        · exact hl x hx
        · exact hb
    · exact List.not_mem_nil
  | _ => exact absurd hm List.not_mem_nil

/-- What is true of a session, whatever has been done with it. -/
structure Coherent (S : SceneSource → Prop) (m : Move) : Prop where
  /-- It is watched. -/
  attending : ∃ c, Attending S m.machine c
  /-- The limit is that of the settings, or is going to be. -/
  keeping : ∃ k ids ws, Keeping k ids ws m.machine
  /-- The cell holds the settings of the slots. -/
  value : m.1.player.stage.settings.value = m.1.slots.settings
  /-- There are no more pages than the limit. -/
  sound : m.1.player.book.history.Sound

namespace Coherent

/-- The slots may change as long as they hold the same settings. -/
theorem withSlots {orders : Player.Orders} (h : Coherent S (s, orders)) {slots : Slots Storage}
    (hs : slots.settings = s.slots.settings) : Coherent S ({ s with slots }, orders) :=
  ⟨h.attending, h.keeping, h.value.trans hs.symm, h.sound⟩

theorem deed (h : Coherent S (s, [])) (hd : s.Deed S m) : Coherent S m := by
  obtain ⟨c, ha⟩ := h.attending
  obtain ⟨k, ids, ws, hk⟩ := h.keeping
  obtain ⟨⟨ws', hk'⟩, hv⟩ := hk.deed ha hd h.value
  exact ⟨⟨c, ha.deed hd⟩, ⟨k, _, ws', hk'⟩, hv, hd.sound h.sound⟩

theorem step (h : Coherent S m) : Coherent S m.step := by
  obtain ⟨c, ha⟩ := h.attending
  obtain ⟨k, ids, ws, hk⟩ := h.keeping
  obtain ⟨c', -, ha'⟩ := ha.step
  obtain ⟨ids', ws', hk', hv⟩ := hk.step ha ha'
  exact ⟨⟨c', ha'⟩, ⟨k, ids', ws', hk'⟩, hv.trans h.value, ha.sound_step h.sound⟩

/-- What fails leaves everything in agreement. -/
theorem failed (h : Coherent S (s, [])) (hf : s.Fails s') : Coherent S (s', []) := by
  have hs : s'.slots.settings = s.slots.settings := congrArg StoredData.settings hf.data
  obtain ⟨p, slots⟩ := s'
  rcases hf.player with hp | hp
  · obtain rfl : p = s.player := hp
    exact h.withSlots hs
  · obtain rfl : p = s.readClock.1.player := hp
    exact (h.deed .capture).withSlots hs

/-- A session begins with the settings that were stored. -/
theorem opened {source : SceneSource} {filter : DebugFilter} {storage : Storage}
    {clock : Instant} (hS : S source) (ho : open? source filter storage clock = .ok s) :
    Coherent S (s, []) := by
  have ha := Recital.attending_open? hS ho
  obtain ⟨slots, rfl⟩ := exists_of_open? ho
  have hb := Begins.session source filter slots.settings clock
  obtain ⟨k, hu⟩ := hb.undisturbed HostCall.KeepsPlace
  refine ⟨⟨_, ha⟩, ⟨k, [], [], (hu .settings).turn rfl ha.steady.tame fun o ho =>
    absurd ho List.not_mem_nil, hb.inOrder, ?_, .inl (Nat.max_comm ..)⟩, rfl,
      History.sound_ofLimit _⟩
  exact ⟨_, List.mem_singleton.2 rfl, rfl, rfl, fun v => rfl, rfl⟩

/-- When nothing waits, the limit is that of the settings. -/
theorem limit (h : Coherent S (s, [])) (hm : s.player.loop.microtasks = []) :
    s.history.limit = s.slots.settings.pages := by
  obtain ⟨k, ids, ws, hk⟩ := h.keeping
  obtain ⟨rfl, hw⟩ := hk.undisturbed.at_rest
  have hws : ws = [] := List.map_eq_nil_iff.1 (hw.microtasks.symm.trans hm)
  have hv : s.player.stage.settings.value = s.slots.settings := h.value
  rw [← hv]
  rcases hk.limit with hl | hl | hl
  · exact hl
  · rw [hws] at hl
    exact absurd hl List.not_mem_nil
  · exact absurd hl List.not_mem_nil

end Coherent

namespace Kept

theorem coherent (h : Kept S m) : Coherent S m := by
  induction h with
  | opened hS ho => exact .opened hS ho
  | deed _ hd ih => exact ih.deed hd
  | failed _ hf ih => exact ih.failed hf
  | storage storage _ ih => exact ih.withSlots rfl
  | step _ ih => exact ih.step

theorem run (h : Kept S m) (n : Nat) : Kept S (m.run n) := by
  induction n generalizing m with
  | zero => exact h
  | succ n ih =>
    rw [Move.run, Machine.run_succ]
    exact ih h.step

/-- What empties the loop has emptied it when it is over. -/
theorem microtasks_run (h : Kept S m) (hd : Draining m.1.player m.2) (n : Nat) :
    Draining (m.run n).1.player (m.run n).2 := by
  induction n generalizing m with
  | zero => exact hd
  | succ n ih =>
    rw [Move.run, Machine.run_succ]
    refine ih h.step (Draining.step (m := m.machine) hd fun rest heq => ?_)
    obtain ⟨c, ha⟩ := h.coherent.attending
    obtain ⟨s, orders⟩ := m
    obtain rfl : orders = .halt :: rest := heq
    exact ha.ne_halt rfl

/-- **The settings agree**, whatever a host has done with a session and whichever writes have
failed. At every moment their cell holds what the slots hold, and there are no more pages than the
history keeps. What fails changes neither the cell nor the slots. And when something has been done
that settles, the history keeps as many pages as the settings say, but at least one. -/
theorem settings_agree (h : Kept S m) :
    m.1.player.stage.settings.value = m.1.slots.settings ∧
      m.1.history.pages.length ≤ m.1.history.limit ∧
        (∀ s, m.1.Fails s → s.player.stage.settings = m.1.player.stage.settings ∧
          s.slots.data = m.1.slots.data) ∧
        (m.2 = [] → ∀ move n, m.1.Deed S move → serve ∈ move.2 → (move.run n).2 = [] →
          (move.run n).1.player.stage.settings.value = (move.run n).1.slots.settings ∧
            (move.run n).1.history.limit =
              max 1 (move.run n).1.slots.settings.historyLimit.toNat ∧
              (move.run n).1.history.pages.length ≤ (move.run n).1.history.limit) := by
  have hc := h.coherent
  refine ⟨hc.value, hc.sound.length, fun s hf => ⟨?_, hf.data⟩, fun hm move n hd hs hr => ?_⟩
  · rcases hf.player with hp | hp
    · rw [hp]
    · rw [hp]
      rfl
  · obtain ⟨s, orders⟩ := m
    obtain rfl : orders = [] := hm
    obtain ⟨c, ha⟩ := hc.attending
    have hmove : Kept S move := .deed h hd
    have hdrain := hmove.microtasks_run (hd.draining ha.listeners hs) n
    have hrun := (hmove.run n).coherent
    generalize move.run n = m at hr hdrain hrun
    obtain ⟨s, orders⟩ := m
    obtain rfl : orders = [] := hr
    exact ⟨hrun.value, hrun.limit hdrain.of_rest, hrun.sound.length⟩

end Kept

/-- A session whose history keeps two pages. Its storage has begun to refuse documents. -/
def refusing : Session :=
  let s := (greeting.setSettings { historyLimit := 2 }).2
  { s with slots := { s.slots with storage := { failing := true } } }

/-- Other settings are refused, and then a scene is started. -/
theorem settings_agree_refused :
    Kept (fun _ => True) (refusing, []) ∧
      refusing.Fails (refusing.setSettings { historyLimit := 5 }).2 ∧
        refusing.player.stage.settings.value = { historyLimit := 2 } ∧
          ((refusing.start "a").run 30).1.history.limit = 2 := by
  have hopen : Session.open? (.ofTexts [("a", "`hi")]) {} {} default = .ok greeting := rfl
  have hset : greeting.setSettings { historyLimit := 2 } =
      (.ok (), (greeting.setSettings { historyLimit := 2 }).2) := rfl
  have hk : Kept (fun _ => True) (refusing, []) :=
    .storage { failing := true } (.deed (.opened trivial hopen) (.setSettings hset))
  have hf : refusing.Fails (refusing.setSettings { historyLimit := 5 }).2 :=
    .setSettings (x := { historyLimit := 5 })
      (e := .storage (.inaccessible "readonly" "read-only storage")) rfl
  obtain ⟨hv, -, -, hs⟩ := hk.settings_agree
  refine ⟨hk, hf, hv, ?_⟩
  have hr : ((refusing.start "a").run 30).2 = [] := List.isEmpty_iff.1 (by decide +kernel)
  obtain ⟨-, hl, -⟩ := hs rfl _ 30 (.start "a") (List.mem_cons_of_mem _ List.mem_cons_self) hr
  exact hl

end Session

end Novella
