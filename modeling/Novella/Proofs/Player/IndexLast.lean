import Novella.Proofs.Player.UndisturbedDeliveries

/-!
# The index comes last

A line changes the cells of the presentation first, and the index when it is left. So if the index
waits for its delivery, nothing that the line has changed comes after it, and whoever listens to
such a cell hears it before the player starts the next line.

Only a line that has not come further than its conditions can still change a cell. What is left of
any other line are page breaks.

## Main definitions

* `Machine.Unfolds` — a line is started, or has not come further than a condition
* `Machine.Led` — the player has still to hear the index
* `Machine.Defers` — the index comes after a cell

## Main results

* `Machine.unfolds_step` — what is left of a line
* `Machine.Defers.step` — the index keeps coming after the cell
-/

namespace Novella

open Player

variable {P : HostCall → Prop} {c : CellName} {k : Nat} {ids ids' : List Nat}
  {ws ws' : List CellName} {m : Machine Player Task} {p : Player} {rest : Orders}

/-! ### How far a line has come -/

namespace Machine

/-- A condition is done, and its body is to be run. -/
def Branches (m : Machine Player Task) : Prop :=
  m.world.desk.Busy ∧
    ∃ rest, m.agenda = .perform (.conclude m.world.desk.current .completed) :: rest

/-- A line is started, or has come to a condition, and the index does not wait. -/
def Unfolds (m : Machine Player Task) (ws : List CellName) : Prop :=
  (m.line? ≠ none ∨ m.Branches) ∧ .index ∉ ws

theorem Unfolds.advances (h : m.Unfolds ws) (ho : m.world.desk.InOrder) : m.Advances := by
  obtain ⟨hl | ⟨hb, rest, hag⟩, -⟩ := h
  · exact .inl hl
  · exact (readies_of_conclude ho hb hag).1

/-- The loop does not let a line go on. -/
theorem not_advances_of_loop
    (h : ∃ rest, m.agenda = .drain :: rest ∨ ∃ x, m.agenda = .perform (.deliver x) :: rest) :
    ¬ m.Advances := by
  obtain ⟨p, agenda⟩ := m
  obtain ⟨rest, h | ⟨x, h⟩⟩ := h
  · obtain rfl : agenda = .drain :: rest := h
    refine not_advances rfl fun hb => ?_
    cases hpop : (World.loop p).popMicrotask? with
    | none =>
      simp only [step, hpop]
      exact hb
    | some due =>
      simp only [step, hpop]
      exact hb
  · obtain rfl : agenda = .perform (.deliver x) :: rest := h
    exact not_advances rfl fun hb => hb

end Machine

/-- The player hears the index before anybody else does, and the index does not wait. -/
theorem Undisturbed.of_line? (hc : ¬ c.IsPlace) (h : Undisturbed P c k ids ws m)
    (hl : m.line? ≠ none) : ids = [] ∧ .index ∉ ws := by
  obtain ⟨id, i, rest, hag, hrun⟩ := Machine.hear_of_line? hl
  have apart {ws : List CellName} {p : Player} {orders : Orders} (hd : p.display.Awaits k ws)
      (hrun : (p.stage.index.hear id i).2 = some .runLine) (hr : ∀ o ∈ orders, o.IsApart P c k)
      (hag : orders = .perform (.hear .index id i) :: rest) : False := by
    rcases hr _ (hag ▸ List.mem_cons_self) with h | ⟨x, id', v, heq, -, hne⟩
    · exact h
    · cases heq
      exact hne rfl (eq_of_runLine hd hrun)
  cases h with
  | quiet _ hd hr => exact (apart hd hrun hr hag).elim
  | deliver => cases hag
  | @hear _ p x ids orders _ hd hx hw _ hr =>
    cases ids with
    | nil => exact (apart hd hrun hr hag).elim
    | cons id' ids =>
      cases hag
      have hne : CellName.index ≠ c := fun h => hc (h ▸ .inr rfl)
      exact ⟨if_neg hne, hw⟩

namespace Machine

/-- What is left of a line when it goes on are page breaks, unless it has come to a condition. -/
theorem Readies.closing {q : Player} {more : Orders} (hr : m.Readies q more) (ha : m.Advances) :
    Closing m.step.world.queue ∨
      ∃ i, m.dispatched? = some i ∧ i.opcode = Instruction.ifOpcode ∧ m.step.Branches := by
  rcases hr.cases with ⟨hcoming, hs⟩ | ⟨i, rest, hcoming, hclosing, hd⟩
  · refine .inl ?_
    rw [hs]
    change Closing q.queue
    rw [hr.queue, hcoming]
    exact closing_nil
  · by_cases hif : i.opcode = Instruction.ifOpcode
    · refine .inr ⟨i, ?_, hif, ?_, more, ?_⟩
      · rw [dispatched?_of_advances ha, hcoming]
        rfl
      · rw [hr.step]
        change Ticket.instruction q.runNext.1.generation ∈ q.runNext.1.live
        rw [hd.live, hd.generation]
        exact List.mem_cons_self
      · rw [hr.step]
        change q.runNext.2 ++ more =
          .perform (.conclude (.instruction q.runNext.1.generation) .completed) :: more
        rw [(hd.done (.inl hif)).2, hd.generation]
        rfl
    · have htaken : i.taken q.stage.progress.get = [] := by
        rw [Instruction.taken, Instruction.body?_of_ne hif]
        rfl
      refine .inl ?_
      rw [hr.step]
      change Closing q.runNext.1.queue
      rw [hd.queue]
      change Closing (i.taken q.stage.progress.get ++ rest)
      rw [htaken]
      exact hclosing

/-- What begins when nothing but page breaks is left. -/
theorem eq_pageBreak_of_closing {i : Instruction} (hl : m.line? = none)
    (hq : Closing m.world.queue) (hi : m.dispatched? = some i) : i = .pageBreak := by
  rw [dispatched?_of_advances (advances_of_dispatched? hi), coming, hl] at hi
  exact hq i (List.mem_of_mem_head? hi)

/-- Page breaks stay page breaks. -/
theorem closing_step (ho : m.world.desk.InOrder) (hl : m.line? = none)
    (hq : Closing m.world.queue) : Closing m.step.world.queue := by
  by_cases ha : m.Advances
  · obtain ⟨q, more, hr⟩ := readies ho ha
    refine (hr.closing ha).resolve_right fun ⟨i, hi, hif, _⟩ => ?_
    rw [eq_pageBreak_of_closing hl hq hi] at hif
    exact absurd hif (by decide)
  · cases m.work with
    | rest _ hr _ =>
      have heq : m.step.world.queue = m.world.queue := hr.queue
      exact heq ▸ hq
    | spend t _ _ hd =>
      have heq : m.step.world.queue = m.world.queue := congrArg Desk.queue hd
      exact heq ▸ hq
    | goOn hl hb hd hs => exact absurd (readies_of_goOn ho hl hb hd hs).1 ha
    | start hl => exact absurd (.inl (by simp [hl])) ha
    | drop _ _ hd =>
      obtain ⟨stage, microtasks, hd⟩ := hd
      have heq : m.step.world.queue = [] := congrArg Desk.queue hd
      exact heq ▸ closing_nil

/-- **What is left of a line.** It comes to a condition, which changes nothing, or nothing but page
breaks is left. -/
theorem unfolds_step (ho : m.world.desk.InOrder) (hp : m.Passes c ids ws ids' ws')
    (h : m.Unfolds ws) : Closing m.step.world.queue ∨
      m.step.Unfolds ws' ∧ ∀ i ∈ m.dispatched?, i.opcode = Instruction.ifOpcode := by
  have ha := h.advances ho
  obtain ⟨q, more, hr⟩ := readies ho ha
  refine (hr.closing ha).imp_right fun ⟨i, hi, hif, hb⟩ => ⟨⟨.inr hb, ?_⟩, fun j hj => ?_⟩
  · cases hp with
    | take => exact h.2
    | deliver => exact fun hm => h.2 (List.mem_cons_of_mem _ hm)
    | hear _ hn => exact absurd (hn.symm.trans hi) (by simp)
    | outside _ hn => exact absurd (hn.symm.trans hi) (by simp)
    | begins _ hj hscripted _ hds =>
      obtain rfl := Option.some.inj (hj.symm.trans hi)
      rw [Instruction.changes_of_opcode hscripted (.inl hif)] at hds
      refine fun hm => (List.mem_append.1 hm).elim h.2 fun hm => ?_
      obtain ⟨x, hx, -⟩ := hds _ hm
      exact absurd hx List.not_mem_nil
  · rw [Option.mem_def, hi] at hj
    exact Option.some.inj hj ▸ hif

/-- How far lines have come, after one step. -/
theorem lined_step (hc : ¬ c.IsPlace) (hu : Undisturbed P c k ids ws m) (ho : m.world.desk.InOrder)
    (hp : m.Passes c ids ws ids' ws') (h : m.Unfolds ws ∨ Closing m.world.queue) :
    m.step.Unfolds ws' ∨ Closing m.step.world.queue := by
  have unfolds (h : m.Unfolds ws) : m.step.Unfolds ws' ∨ Closing m.step.world.queue :=
    (unfolds_step ho hp h).symm.imp_left And.left
  by_cases hl : m.line? = none
  · exact h.elim unfolds fun hq => .inr (closing_step ho hl hq)
  · exact unfolds ⟨.inl hl, (hu.of_line? hc hl).2⟩

/-- When nothing is left to do no line is at its beginning. -/
theorem closing_of_rest (h : Unfolds ⟨p, []⟩ ws ∨ Closing p.queue) : Closing p.queue := by
  rcases h with ⟨hl | ⟨-, rest, hag⟩, -⟩ | hq
  · exact absurd rfl hl
  · cases hag
  · exact hq

end Machine

/-! ### When the player hears the index -/

/-- Cells are heard when they are delivered, and for no other reason. -/
theorem mem_of_hear_mem_step {o : Order Task} {x : CellName} {id : Nat} {v : x.Value}
    (ht : p.Tame P) (ho : o.Passes P ∨ ∃ x id v, o = .perform (.hear x id v))
    (h : .perform (.hear x id v) ∈ (Machine.step ⟨p, o :: rest⟩).agenda) :
    .perform (.hear x id v) ∈ rest := by
  have left {r : Player × Orders} (hl : Leaves P r)
      (h : .perform (.hear x id v) ∈ r.2 ++ rest) : .perform (.hear x id v) ∈ rest := by
    rcases List.mem_append.1 h with h | h
    · exact (hl.orders _ h).elim
    · exact h
  cases o with
  | perform t =>
    rcases ho with hpass | ⟨y, id, v, heq⟩
    · exact left (ht.perform hpass) h
    · cases heq
      exact left (ht.hear y id v) h
  | drain =>
    cases hpop : (World.loop p).popMicrotask? with
    | none => simpa only [Machine.step, hpop] using h
    | some due =>
      obtain ⟨y, hy⟩ := ht.deliver_of_popMicrotask? hpop
      simp only [Machine.step, hpop, hy] at h
      simpa using h
  | advance d => simpa [Machine.step] using h
  | depart d => simpa [Machine.step] using h
  | halt => simp [Machine.step] at h
  | runUntil target =>
    cases hpop : (World.loop p).popDue? target with
    | none => simpa only [Machine.step, hpop] using h
    | some due =>
      have htimed := ht.isTimed_of_popDue? hpop
      simp only [Machine.step, hpop] at h
      rcases List.mem_cons.1 h with h | h
      · rw [← Order.perform.inj h] at htimed
        exact htimed.elim
      · simpa using h

/-- The player has still to hear the index. -/
def Machine.Led (m : Machine Player Task) (k : Nat) : Prop :=
  ∃ i, .perform (.hear .index k i) ∈ m.agenda

namespace Undisturbed

theorem not_led_of_isApart {orders : Orders} (h : ∀ o ∈ orders, o.IsApart P c k) :
    ¬ Machine.Led ⟨p, orders⟩ k := by
  rintro ⟨i, hi⟩
  rcases h _ hi with h | ⟨x, id, v, heq, -, hne⟩
  · exact h
  · cases heq
    exact hne rfl rfl

/-- What is called next or later hears the cell or the index. -/
theorem isApart_or_hear {o : Order Task} (h : o.IsApart P c k) :
    o.Passes P ∨ ∃ x id v, o = .perform (.hear x id v) := by
  rcases h with h | ⟨x, id, v, heq, -⟩
  · exact .inl h
  · exact .inr ⟨x, id, v, heq⟩

theorem led_of_line? (h : Undisturbed P c k ids ws m) (hl : m.line? ≠ none) : m.Led k := by
  obtain ⟨id, i, rest, hag, hrun⟩ := Machine.hear_of_line? hl
  obtain rfl : id = k := by
    cases h with
    | quiet _ hd _ => exact eq_of_runLine hd hrun
    | deliver => cases hag
    | hear _ hd => exact eq_of_runLine hd hrun
  exact ⟨i, hag ▸ List.mem_cons_self⟩

/-- The player has still to hear the index only if it had before, or if the index is delivered. -/
theorem led_of_step (h : Undisturbed P c k ids ws m) (hl : m.step.Led k) :
    ¬ m.Advances ∧ (m.Led k ∨ ∃ rest, m.agenda = .perform (.deliver .index) :: rest) := by
  obtain ⟨i, hi⟩ := hl
  have quiet {p : Player} {orders : Orders} (ht : p.Tame P) (hr : ∀ o ∈ orders, o.IsApart P c k)
      (hi : .perform (.hear .index k i) ∈ (Machine.step ⟨p, orders⟩).agenda) : False := by
    cases orders with
    | nil => exact absurd hi List.not_mem_nil
    | cons o rest =>
      obtain ⟨ho, hr⟩ := List.forall_mem_cons.1 hr
      exact not_led_of_isApart (p := p) hr ⟨i, mem_of_hear_mem_step ht (isApart_or_hear ho) hi⟩
  cases h with
  | quiet ht _ hr => exact (quiet ht hr hi).elim
  | @deliver ws p x orders _ _ hr =>
    have hna := Machine.not_advances_of_loop (m := ⟨p, .perform (.deliver x) :: orders⟩)
      ⟨orders, .inr ⟨x, rfl⟩⟩
    refine ⟨hna, .inr ⟨orders, ?_⟩⟩
    rcases List.mem_append.1 hi with hi | hi
    · obtain ⟨id, -, heq⟩ := List.mem_map.1 hi
      cases heq
      rfl
    · exact (not_led_of_isApart (p := p) hr ⟨i, hi⟩).elim
  | @hear ws p x ids orders ht hd hx hw hn hr =>
    cases ids with
    | nil => exact (quiet ht hr hi).elim
    | cons id ids =>
      have htail := mem_of_hear_mem_step ht (.inr ⟨x, id, _, rfl⟩) hi
      rcases List.mem_append.1 htail with hm | hm
      · obtain ⟨id', hid, heq⟩ := List.mem_map.1 hm
        cases heq
        refine ⟨not_advances_hear (fun _ => rfl) fun _ hrun => ?_,
          .inl ⟨_, List.mem_cons_of_mem _ htail⟩⟩
        exact (List.nodup_cons.1 hn).1 (eq_of_runLine hd hrun ▸ hid)
      · exact (not_led_of_isApart (p := p) hr ⟨i, hm⟩).elim

end Undisturbed

/-! ### The index comes after a cell -/

/-- An instruction moves the index, or it leaves the place in the script alone. -/
theorem Instruction.changes_place {i : Instruction} {commands : CommandTable}
    {stage : Stage Reaction} (h : commands.Scripted) :
    (∀ x ∈ i.changes commands stage, x.cell = .index) ∨
      ∀ x ∈ i.changes commands stage, ¬ x.cell.IsPlace := by
  by_cases hi : i.opcode = "wave"
  · refine .inr fun x hx => ?_
    rw [changes_wave h hi] at hx
    cases hn : Cue.named? (Arguments.split i.argument) 0 with
    | none =>
      rw [hn] at hx
      exact absurd hx List.not_mem_nil
    | some name =>
      rw [hn] at hx
      have hcell : x.cell = .soundEffect := by
        simp only [Option.elim, CellChange.playing, List.mem_cons, List.not_mem_nil, or_false] at hx
        rcases hx with rfl | rfl <;> rfl
      rw [hcell]
      simp [CellName.IsPlace]
  · obtain ⟨xs, hx, -, -, hplace⟩ := @changes_eq_writes commands stage i h hi
    rw [hx]
    refine hplace.imp (fun hp x hm => ?_) fun hp x hm => ?_
    all_goals
      obtain ⟨w, hw, rfl⟩ := List.mem_map.1 hm
      exact hp w hw

/-- The cell does not come after the index. -/
structure Machine.Defers (m : Machine Player Task) (k : Nat) (c : CellName) (ws : List CellName) :
    Prop where
  /-- It does not wait after the index. -/
  waits : ws.Pairwise fun x y => x = .index → y ≠ c
  /-- Nor does it wait while the player has still to hear the index. -/
  calls : m.Led k → c ∉ ws

theorem pairwise_of_not_mem {xs : List CellName} (h : c ∉ xs ∨ .index ∉ xs) :
    xs.Pairwise fun x y => x = .index → y ≠ c := by
  refine List.pairwise_of_forall_mem_list fun x hx y hy heq hyc => ?_
  exact h.elim (fun h => h (hyc ▸ hy)) fun h => h (heq ▸ hx)

/-- **The index comes last.** If a cell does not come after the index before a step, neither does it
after the step. Only a line that is at its beginning has a cell wait. -/
theorem Machine.Defers.step (hc : ¬ c.IsPlace) (hu : Undisturbed P c k ids ws m)
    (hp : m.Passes c ids ws ids' ws') (hw : ws.Pairwise fun x y => x = .index → y ≠ c)
    (hled : ¬ m.Advances → m.Led k → c ∉ ws)
    (hunfolds : m.Unfolds ws ∨ m.line? = none ∧ Closing m.world.queue)
    (hcall : ∀ y ∈ m.call?, ¬ y.2.Alters c) : m.step.Defers k c ws' := by
  -- nothing that comes to wait is the cell
  have append {ds : List CellName} (hds : c ∉ ds) (hdeliver : ∀ rest,
      m.agenda ≠ .perform (.deliver .index) :: rest) : m.step.Defers k c (ws ++ ds) := by
    refine ⟨List.pairwise_append.2 ⟨hw, pairwise_of_not_mem (.inl hds),
      fun x _ y hy _ heq => hds (heq ▸ hy)⟩, fun hl hm => ?_⟩
    obtain ⟨hna, hl | ⟨rest, hag⟩⟩ := hu.led_of_step hl
    · exact (List.mem_append.1 hm).elim (hled hna hl) hds
    · exact hdeliver rest hag
  cases hp with
  | take hag =>
    have h := @append [] List.not_mem_nil fun rest h => nomatch hag.symm.trans h
    rwa [List.append_nil] at h
  | hear hag =>
    have h := @append [] List.not_mem_nil fun rest h => nomatch hag.symm.trans h
    rwa [List.append_nil] at h
  | deliver hag =>
    obtain ⟨hx, hw⟩ := List.pairwise_cons.1 hw
    refine ⟨hw, fun hl hm => ?_⟩
    obtain ⟨hna, hl | ⟨rest', hag'⟩⟩ := hu.led_of_step hl
    · exact hled hna hl (List.mem_cons_of_mem _ hm)
    · have heq := hag.symm.trans hag'
      cases heq
      exact hx c hm rfl rfl
  | outside hs _ _ hwhy hds =>
    refine append (fun hm => ?_) fun rest => (hs rest).2 .index
    obtain ⟨x, hx, rfl⟩ := hds c hm
    rcases hwhy x hx with h | ⟨y, hy, h⟩
    · exact hc h
    · exact hcall y hy h
  | @begins i commands stage ws ds hs hi hscripted _ hds =>
    have apart (hchanges : ∀ x ∈ i.changes commands stage, x.cell = .index) : c ∉ ds := by
      intro hm
      obtain ⟨x, hx, rfl⟩ := hds c hm
      exact hc (.inr (hchanges x hx))
    rcases hunfolds with ⟨-, hindex⟩ | ⟨hl, hclosing⟩
    · rcases @Instruction.changes_place i commands stage hscripted with hp | hp
      · exact append (apart hp) fun rest => (hs rest).2 .index
      · have hnot : .index ∉ ws ++ ds := by
          refine fun hm => (List.mem_append.1 hm).elim hindex fun hm => ?_
          obtain ⟨x, hx, heq⟩ := hds _ hm
          exact hp x hx (.inr heq)
        exact ⟨pairwise_of_not_mem (.inr hnot), fun hl =>
          ((hu.led_of_step hl).1 (advances_of_dispatched? hi)).elim⟩
    · -- a page break changes nothing
      have hpage := eq_pageBreak_of_closing hl hclosing hi
      refine append (apart fun x hx => ?_) fun rest => (hs rest).2 .index
      rw [Instruction.changes_of_opcode hscripted (.inr (hpage ▸ rfl))] at hx
      exact absurd hx List.not_mem_nil

end Novella
