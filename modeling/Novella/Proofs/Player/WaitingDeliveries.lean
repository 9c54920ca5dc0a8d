import Novella.Proofs.Player.Dispatch
import Novella.Proofs.Player.SceneAndIndex

/-!
# What waits to be delivered

The loop of a player holds nothing but deliveries, and a cell waits in it at most once: exactly if
the cell says so. A change of a cell that somebody observes leaves its delivery at the end of the
loop, unless one waits there already. So what waits after some changes is what waited before, with
cells that have changed after it.

The observers of a cell are told apart by their numbers. One that hears more than one value stays
with its cell until the host takes the subscription back.

## Main definitions

* `Cell.Numbered`, `Cell.Sheds` — how the observers of a cell are numbered, and how they leave it
* `Display.Awaits` — what waits to be delivered

## Main results

* `Display.Awaits.changed` — what waits after some changes
* `Display.cell_changed_writes`, `Display.cell_changed_playing` — a change leaves a delivery
-/

namespace Novella

open Player

/-! ### Cells and their observers -/

namespace Cell

variable {α κ : Type} {c d : Cell α κ} {o : Observer α κ}

/-- The observers have numbers of their own, given out in order. -/
structure Numbered (c : Cell α κ) : Prop where
  /-- No number is given out twice. -/
  nodup : (c.observers.map Observer.id).Nodup
  /-- The next number is free. -/
  lt : ∀ o ∈ c.observers, o.id < c.nextId

/-- The cell is the same, but observers that hear one value only may have gone. -/
structure Sheds (c d : Cell α κ) : Prop where
  /-- It holds the same value. -/
  value : d.value = c.value
  /-- Its delivery waits as before. -/
  scheduled : d.scheduled = c.scheduled
  /-- Nobody has subscribed. -/
  nextId : d.nextId = c.nextId
  /-- Observers may have gone. -/
  sublist : d.observers.Sublist c.observers
  /-- Those that hear more than one value have stayed. -/
  stays : ∀ o ∈ c.observers, o.once = false → o ∈ d.observers

namespace Numbered

theorem of_eq (h : c.Numbered) (ho : d.observers = c.observers) (hn : d.nextId = c.nextId) :
    d.Numbered := by
  constructor
  · rw [ho]
    exact h.nodup
  · rw [ho, hn]
    exact h.lt

theorem of_sublist (h : c.Numbered) (ho : d.observers.Sublist c.observers)
    (hn : d.nextId = c.nextId) : d.Numbered := by
  refine ⟨h.nodup.sublist (ho.map _), fun o hm => ?_⟩
  rw [hn]
  exact h.lt o (ho.subset hm)

theorem observe (h : c.Numbered) (r : κ) (accepts : α → Bool) (once : Bool) :
    (c.observe r accepts once).Numbered := by
  constructor
  · rw [Cell.observe, List.map_append]
    refine List.nodup_append.2 ⟨h.nodup, List.nodup_cons.2 ⟨List.not_mem_nil, .nil⟩,
      fun id hid id' hid' heq => ?_⟩
    obtain ⟨o, ho, rfl⟩ := List.mem_map.1 hid
    obtain rfl := List.mem_singleton.1 hid'
    exact Nat.ne_of_lt (h.lt o ho) heq
  · intro o ho
    rcases List.mem_append.1 ho with ho | ho
    · exact Nat.lt_succ_of_lt (h.lt o ho)
    · rw [List.mem_singleton.1 ho]
      exact Nat.lt_succ_self _

theorem unobserve (h : c.Numbered) (id : Nat) : (c.unobserve id).Numbered :=
  h.of_sublist List.filter_sublist rfl

/-- An observer is found by its number. -/
theorem find?_eq (h : c.Numbered) (ho : o ∈ c.observers) :
    c.observers.find? (fun x => x.id = o.id) = some o := by
  have hnodup := h.nodup
  generalize c.observers = os at ho hnodup ⊢
  induction os with
  | nil => cases ho
  | cons x xs ih =>
    rw [List.map_cons, List.nodup_cons] at hnodup
    rcases List.mem_cons.1 ho with rfl | ho
    · exact List.find?_cons_of_pos (by simp)
    · have hne : x.id ≠ o.id := fun heq => hnodup.1 (heq ▸ List.mem_map_of_mem ho)
      rw [List.find?_cons_of_neg (by simpa using hne)]
      exact ih ho hnodup.2

/-- An observer that takes every value hears this one. -/
theorem hear_eq (h : c.Numbered) (ho : o ∈ c.observers) {v : α} (ha : o.accepts v = true)
    (hone : o.once = false) : c.hear o.id v = (c, some o.reaction) := by
  rw [hear, h.find?_eq ho]
  dsimp only
  rw [if_pos ha, hone]
  rfl

end Numbered

namespace Sheds

theorem refl (c : Cell α κ) : c.Sheds c := ⟨rfl, rfl, rfl, .refl _, fun _ h _ => h⟩

theorem numbered (h : c.Sheds d) (hc : c.Numbered) : d.Numbered :=
  hc.of_sublist h.sublist h.nextId

/-- An observer that hears a value may be gone after that. -/
theorem hear (hc : c.Numbered) (id : Nat) (v : α) : c.Sheds (c.hear id v).1 := by
  rw [Cell.hear]
  split
  · next x hx =>
    split
    · split
      · next hone =>
        refine ⟨rfl, rfl, rfl, List.filter_sublist, fun o ho hno => ?_⟩
        refine List.mem_filter.2 ⟨ho, decide_eq_true fun hid => ?_⟩
        subst hid
        obtain rfl : o = x := Option.some.inj ((hc.find?_eq ho).symm.trans hx)
        rw [hone] at hno
        cases hno
      · exact refl c
    · exact refl c
  · exact refl c

end Sheds

/-- A change of value asks for a delivery if somebody observes the cell. -/
theorem set_eq [DecidableEq α] {v : α} (hv : c.value ≠ v) (ho : c.observers ≠ []) :
    c.set v = ({ c with value := v, scheduled := true }, !c.scheduled) := by
  rw [set, if_neg hv, notify]
  cases hs : c.scheduled with
  | false =>
    rw [if_neg (by simpa [hs] using ho)]
    rfl
  | true =>
    rw [if_pos (by simp)]
    cases c
    cases hs
    rfl

theorem notify_eq (ho : c.observers ≠ []) :
    c.notify = ({ c with scheduled := true }, !c.scheduled) := by
  rw [notify]
  cases hs : c.scheduled with
  | false =>
    rw [if_neg (by simpa [hs] using ho)]
    rfl
  | true =>
    rw [if_pos (by simp)]
    cases c
    cases hs
    rfl

end Cell

/-! ### What waits -/

/-- What waits to be delivered, first things first, where the player hears the index under the
number `k`. -/
structure Display.Awaits (k : Nat) (d : Display) (ws : List CellName) : Prop where
  /-- Nothing else waits. -/
  microtasks : d.microtasks = ws.map .deliver
  /-- No cell waits twice. -/
  nodup : ws.Nodup
  /-- The cells say whether they wait. -/
  scheduled (c : CellName) : (d.stage.cell c).scheduled = true ↔ c ∈ ws
  /-- Observers have numbers. -/
  numbered (c : CellName) : (d.stage.cell c).Numbered
  /-- Nobody else runs lines. -/
  led : ∀ o ∈ d.stage.index.observers, o.reaction = .runLine → o.id = k
  /-- The number of the player is taken. -/
  lt : k < d.stage.index.nextId

namespace Display

variable {k : Nat} {d e : Display} {ws : List CellName} {c : CellName}

theorem cell_store_self (d : Display) (c : CellName) (r : Cell c.Value Reaction × Bool) :
    (d.store c r).stage.cell c = r.1 := Stage.cell_withCell_self ..

theorem cell_store_of_ne (d : Display) {c x : CellName} (h : c ≠ x)
    (r : Cell x.Value Reaction × Bool) : (d.store x r).stage.cell c = d.stage.cell c :=
  Stage.cell_withCell_of_ne _ h _

theorem cell_change_of_ne (d : Display) {x : CellChange} (h : x.cell ≠ c) :
    (d.change x).stage.cell c = d.stage.cell c := by
  cases x <;> exact cell_store_of_ne _ h.symm _

/-- Cells that do not change stay as they are. -/
theorem cell_changed {xs : List CellChange} (h : ∀ x ∈ xs, x.cell ≠ c) (d : Display) :
    (d.changed xs).stage.cell c = d.stage.cell c := by
  induction xs generalizing d with
  | nil => rfl
  | cons x xs ih =>
    obtain ⟨hx, hxs⟩ := List.forall_mem_cons.1 h
    rw [changed_cons, ih hxs, cell_change_of_ne _ hx]

/-- Changes leave the observers alone. -/
theorem observers_change (d : Display) (x : CellChange) (c : CellName) :
    ((d.change x).stage.cell c).observers = (d.stage.cell c).observers := by
  by_cases hx : x.cell = c
  · subst hx
    cases x with
    | write w => exact (congrArg Cell.observers (cell_store_self ..)).trans (Cell.observers_set ..)
    | notify c =>
      exact (congrArg Cell.observers (cell_store_self ..)).trans (Cell.observers_notify _)
  · rw [cell_change_of_ne _ hx]

theorem observers_changed (xs : List CellChange) (d : Display) (c : CellName) :
    ((d.changed xs).stage.cell c).observers = (d.stage.cell c).observers := by
  induction xs generalizing d with
  | nil => rfl
  | cons x xs ih => rw [changed_cons, ih, observers_change]

namespace Awaits

/-- A cell is replaced, and asks for a delivery or does not. -/
theorem store (h : d.Awaits k ws) {r : Cell c.Value Reaction × Bool} (hn : r.1.Numbered)
    (hlt : (d.stage.cell c).nextId ≤ r.1.nextId)
    (hled : ∀ o ∈ r.1.observers, o.reaction = .runLine → o ∈ (d.stage.cell c).observers)
    (hs : if r.2 then (d.stage.cell c).scheduled = false ∧ r.1.scheduled = true
      else r.1.scheduled = (d.stage.cell c).scheduled) :
    (d.store c r).Awaits k (if r.2 then ws ++ [c] else ws) := by
  obtain ⟨x, b⟩ := r
  have hnew {y : CellName} : ((d.store c (x, b)).stage.cell y).scheduled = true ↔
      y ∈ if b then ws ++ [c] else ws := by
    by_cases hy : y = c
    · subst hy
      rw [cell_store_self]
      cases b with
      | true =>
        have hx : x.scheduled = true := hs.2
        simp [hx]
      | false =>
        have hx : x.scheduled = (d.stage.cell y).scheduled := hs
        simp [hx, h.scheduled]
    · rw [cell_store_of_ne _ hy, h.scheduled]
      cases b <;> simp [hy]
  refine ⟨?_, ?_, fun y => hnew, fun y => ?_, ?_, ?_⟩
  · change (if b then d.microtasks ++ [.deliver c] else d.microtasks) = _
    rw [h.microtasks]
    cases b with
    | true => simp
    | false => rfl
  · cases b with
    | true =>
      refine List.nodup_append.2 ⟨h.nodup, List.nodup_cons.2 ⟨List.not_mem_nil, .nil⟩,
        fun y hy z hz heq => ?_⟩
      obtain rfl := List.mem_singleton.1 hz
      have hf : (d.stage.cell z).scheduled = false := hs.1
      rw [(h.scheduled z).2 (heq ▸ hy)] at hf
      cases hf
    | false => exact h.nodup
  · by_cases hy : y = c
    · subst hy
      rw [cell_store_self]
      exact hn
    · rw [cell_store_of_ne _ hy]
      exact h.numbered y
  · by_cases hc : .index = c
    · subst hc
      exact fun o ho hr => h.led o (hled o ho hr) hr
    · intro o ho
      have hm : o ∈ ((d.store c (x, b)).stage.cell .index).observers := ho
      rw [cell_store_of_ne _ hc] at hm
      exact h.led o hm
  · by_cases hc : .index = c
    · subst hc
      exact Nat.lt_of_lt_of_le h.lt hlt
    · have hk := h.lt
      change k < (d.stage.cell .index).nextId at hk
      change k < ((d.store c (x, b)).stage.cell .index).nextId
      rwa [cell_store_of_ne _ hc]

/-- The queue of a cell that says whether it wants a delivery. -/
theorem notifies (h : d.Awaits k ws) {x : Cell c.Value Reaction}
    (ho : x.observers = (d.stage.cell c).observers) (hn : x.nextId = (d.stage.cell c).nextId)
    (hs : x.scheduled = (d.stage.cell c).scheduled) :
    ∃ ws', (d.store c x.notify).Awaits k ws' ∧ Course.Queues c ws ws' := by
  refine ⟨_, h.store (r := x.notify) ?_ ?_ ?_ ?_, ?_⟩
  · exact (h.numbered c).of_eq ((Cell.observers_notify x).trans ho)
      ((Cell.nextId_notify x).trans hn)
  · exact Nat.le_of_eq (hn.symm.trans (Cell.nextId_notify x).symm)
  · rw [Cell.observers_notify, ho]
    exact fun o hm _ => hm
  · rw [Cell.notify]
    split
    · exact hs
    · next hne =>
      simp only [Bool.or_eq_true, not_or, Bool.not_eq_true] at hne
      exact ⟨hs.symm.trans hne.1, rfl⟩
  · rw [Cell.notify]
    split
    · exact .inl rfl
    · next hne =>
      simp only [Bool.or_eq_true, not_or, Bool.not_eq_true] at hne
      refine .inr ⟨fun hm => ?_, rfl⟩
      have hf := hs.symm.trans hne.1
      rw [(h.scheduled c).2 hm] at hf
      cases hf

/-- A change queues a delivery of its cell at most. -/
theorem change (h : d.Awaits k ws) (x : CellChange) :
    ∃ ws', (d.change x).Awaits k ws' ∧ Course.Queues x.cell ws ws' := by
  cases x with
  | write w =>
    by_cases hv : (d.stage.cell w.cell).value = w.value
    · refine ⟨ws, ?_, .inl rfl⟩
      have hset : (d.stage.cell w.cell).set w.value = (d.stage.cell w.cell, false) := if_pos hv
      rw [Display.change, hset]
      exact h.store (h.numbered _) (Nat.le_refl _) (fun o ho _ => ho) rfl
    · have hset : (d.stage.cell w.cell).set w.value =
          { d.stage.cell w.cell with value := w.value }.notify := if_neg hv
      rw [Display.change, hset]
      exact h.notifies rfl rfl rfl
  | notify c => exact h.notifies rfl rfl rfl

/-- **What waits after some changes**: what waited before, and after it cells that have changed. -/
theorem changed (h : d.Awaits k ws) (xs : List CellChange) :
    ∃ ds, (d.changed xs).Awaits k (ws ++ ds) ∧ ∀ c ∈ ds, ∃ x ∈ xs, x.cell = c := by
  induction xs generalizing d ws with
  | nil => exact ⟨[], by rwa [List.append_nil], fun c hc => absurd hc List.not_mem_nil⟩
  | cons x xs ih =>
    obtain ⟨ws', hd, hq⟩ := h.change x
    obtain ⟨ds, hd', hds⟩ := ih hd
    have tail {c : CellName} (hc : c ∈ ds) : ∃ y ∈ x :: xs, y.cell = c := by
      obtain ⟨y, hy, heq⟩ := hds c hc
      exact ⟨y, List.mem_cons_of_mem _ hy, heq⟩
    rcases hq with rfl | ⟨-, rfl⟩
    · exact ⟨ds, hd', fun c hc => tail hc⟩
    · rw [List.append_assoc] at hd'
      refine ⟨_, hd', fun c hc => ?_⟩
      rcases List.mem_append.1 hc with hc | hc
      · exact ⟨x, List.mem_cons_self, (List.mem_singleton.1 hc).symm⟩
      · exact tail hc

/-- A delivery begins. -/
theorem deliver (h : d.Awaits k (c :: ws)) :
    Awaits k ⟨d.stage.withCell c (d.stage.cell c).beginDelivery.1, ws.map .deliver⟩ ws := by
  obtain ⟨hnot, hnodup⟩ := List.nodup_cons.1 h.nodup
  generalize he : d.stage.withCell c (d.stage.cell c).beginDelivery.1 = s
  have hself : s.cell c = { d.stage.cell c with scheduled := false } := by
    rw [← he]
    exact Stage.cell_withCell_self ..
  have hcell {y : CellName} (hy : y ≠ c) : s.cell y = d.stage.cell y := by
    rw [← he]
    exact Stage.cell_withCell_of_ne _ hy _
  have hobs (y : CellName) : (s.cell y).observers = (d.stage.cell y).observers ∧
      (s.cell y).nextId = (d.stage.cell y).nextId := by
    by_cases hy : y = c
    · subst hy
      rw [hself]
      exact ⟨rfl, rfl⟩
    · rw [hcell hy]
      exact ⟨rfl, rfl⟩
  refine ⟨rfl, hnodup, fun y => ?_, fun y => (h.numbered y).of_eq (hobs y).1 (hobs y).2,
    fun o ho => h.led o ((hobs .index).1 ▸ ho), (hobs .index).2 ▸ h.lt⟩
  by_cases hy : y = c
  · subst hy
    dsimp only
    rw [hself]
    exact iff_of_false Bool.false_ne_true hnot
  · dsimp only
    rw [hcell hy, h.scheduled y]
    exact ⟨fun hm => (List.mem_cons.1 hm).resolve_left hy, List.mem_cons_of_mem c⟩

end Awaits

/-! ### Changes that are seen -/

/-- A cell that is written at most once is as it was, or holds another value and waits. -/
theorem cell_changed_writes {xs : List CellWrite} (hxs : (xs.map CellWrite.cell).Nodup)
    (ho : (d.stage.cell c).observers ≠ []) :
    (d.changed (xs.map .write)).stage.cell c = d.stage.cell c ∨
      ((d.changed (xs.map .write)).stage.cell c).value ≠ (d.stage.cell c).value ∧
        ((d.changed (xs.map .write)).stage.cell c).scheduled = true := by
  induction xs generalizing d with
  | nil => exact .inl rfl
  | cons w ws ih =>
    obtain ⟨hnot, hnodup⟩ := List.nodup_cons.1 hxs
    rw [List.map_cons, changed_cons]
    by_cases hw : w.cell = c
    · subst hw
      have hrest : ∀ x ∈ ws.map CellChange.write, x.cell ≠ w.cell := by
        intro x hx heq
        obtain ⟨y, hy, rfl⟩ := List.mem_map.1 hx
        exact hnot (heq ▸ List.mem_map_of_mem hy)
      rw [cell_changed hrest]
      have hcell : (d.change (.write w)).stage.cell w.cell =
          ((d.stage.cell w.cell).set w.value).1 := cell_store_self ..
      rw [hcell]
      by_cases hv : (d.stage.cell w.cell).value = w.value
      · exact .inl (by rw [Cell.set, if_pos hv])
      · rw [Cell.set_eq hv ho]
        exact .inr ⟨fun heq => hv heq.symm, rfl⟩
    · have hsame : (d.change (.write w)).stage.cell c = d.stage.cell c := cell_change_of_ne _ hw
      have hi := ih hnodup (d := d.change (.write w)) (by rwa [hsame])
      rwa [hsame] at hi

/-- A sound that is played waits, also if it is the one before. -/
theorem cell_changed_playing (d : Display) (name : String)
    (ho : d.stage.soundEffect.observers ≠ []) :
    (d.changed (CellChange.playing name)).stage.soundEffect.value = some name ∧
      (d.changed (CellChange.playing name)).stage.soundEffect.scheduled = true := by
  have hset : (d.change (.write ⟨.soundEffect, some name⟩)).stage.cell .soundEffect =
      ((d.stage.cell .soundEffect).set (some name)).1 := cell_store_self ..
  have hn : (d.changed (CellChange.playing name)).stage.cell .soundEffect =
      ((d.change (.write ⟨.soundEffect, some name⟩)).stage.cell .soundEffect).notify.1 :=
    cell_store_self ..
  rw [hset, Cell.notify_eq] at hn
  · constructor
    · exact (congrArg Cell.value hn).trans (Cell.value_set ..)
    · exact congrArg Cell.scheduled hn
  · rw [Cell.observers_set]
    exact ho

end Display

end Novella
