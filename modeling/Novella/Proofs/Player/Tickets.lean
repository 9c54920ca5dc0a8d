import Novella.Proofs.Player.SceneChange

/-!
# Tickets

Every instruction is begun with a ticket of its own, numbered by its generation. The ticket of the
last generation is the *current* one, and only when it is given back does the script go on by
itself. A ticket that is not the current one any more never becomes it again: numbers are not used
twice.

What the script goes on with are the instructions of the line that was started last, and those in
the bodies of its conditions.

## Main definitions

* `Course.current`, `Course.Busy` — the instruction that is under way
* `Course.Ordered` — tickets without repetition, none newer than the current one
* `Course.Onward` — what may happen to tickets
* `Line.Has` — the instructions of a line, with the bodies of its conditions
* `Machine.Dispatches`, `Machine.Rests` — whether an instruction begins

## Main results

* `Moves.onward` — every move of a course only goes on to newer tickets
-/

namespace Novella

open Player

namespace Course

variable {c c' : Course} {t : Ticket} {i : UInt64}

/-- The ticket of the last instruction. -/
def current (c : Course) : Ticket := .instruction c.generation

/-- An instruction is under way. -/
def Busy (c : Course) : Prop := c.current ∈ c.live

/-- No ticket is there twice, and none is newer than the current one. -/
structure Ordered (c : Course) : Prop where
  /-- No ticket is there twice. -/
  nodup : c.live.Nodup
  /-- None is newer than the current one. -/
  le {g : Nat} : .instruction g ∈ c.live → g ≤ c.generation

/-- Tickets are given back, and at most one is new. -/
structure Onward (c c' : Course) : Prop where
  /-- Generations follow each other. -/
  le : c.generation ≤ c'.generation
  /-- A new ticket is the current one. -/
  new {t : Ticket} : t ∈ c'.live → t ∈ c.live ∨ t = c'.current ∧ c.generation < c'.generation
  /-- The tickets stay in order. -/
  ordered : c.Ordered → c'.Ordered

theorem Ordered.not_mem (h : c.Ordered) {g : Nat} (hg : c.generation < g) :
    .instruction g ∉ c.live :=
  fun hm => Nat.not_le_of_lt hg (h.le hm)

theorem Ordered.erase (h : c.Ordered) (t : Ticket) : { c with live := c.live.erase t }.Ordered :=
  ⟨h.nodup.erase t, fun hm => h.le (List.mem_of_mem_erase hm)⟩

namespace Onward

/-- No ticket is new. -/
theorem of_subset (hg : c.generation ≤ c'.generation) (hl : ∀ {t}, t ∈ c'.live → t ∈ c.live)
    (hn : c.live.Nodup → c'.live.Nodup) : c.Onward c' :=
  ⟨hg, fun h => .inl (hl h), fun h => ⟨hn h.nodup, fun hm => Nat.le_trans (h.le (hl hm)) hg⟩⟩

theorem of_eq (hg : c.generation ≤ c'.generation) (hl : c'.live = c.live) : c.Onward c' :=
  of_subset hg (fun h => hl ▸ h) (fun h => hl ▸ h)

/-- One ticket is new. -/
theorem of_cons (hg : c'.generation = c.generation + 1) (hl : c'.live = c'.current :: c.live) :
    c.Onward c' := by
  have hlt : c.generation < c'.generation := hg ▸ Nat.lt_succ_self _
  refine ⟨Nat.le_of_lt hlt, fun h => ?_, fun h => ⟨?_, fun hm => ?_⟩⟩
  · rw [hl] at h
    rcases List.mem_cons.1 h with rfl | h
    · exact .inr ⟨rfl, hlt⟩
    · exact .inl h
  · rw [hl]
    exact List.nodup_cons.2 ⟨h.not_mem hlt, h.nodup⟩
  · rw [hl] at hm
    rcases List.mem_cons.1 hm with heq | hm
    · cases heq
      exact Nat.le_refl _
    · exact Nat.le_trans (h.le hm) (Nat.le_of_lt hlt)

/-- A ticket that was not the current one does not become it. -/
theorem ne_current (h : c.Onward c') (hl : t ∈ c'.live) {g : Nat} (hg : g ≤ c.generation)
    (ht : t = .instruction g) : t ∈ c.live := by
  rcases h.new hl with h | ⟨heq, hlt⟩
  · exact h
  · cases ht.symm.trans heq
    exact absurd hg (Nat.not_le_of_lt hlt)

end Onward

/-! ### Operations on courses -/

theorem Executes.tickets {i : Instruction} (h : c.Executes i c') :
    c'.live = c.live ∧ c'.generation = c.generation := by
  cases h with
  | plain => exact ⟨rfl, rfl⟩
  | skip n _ =>
    obtain ⟨ts, heq, -⟩ := c.moveTo_eq (skipTarget c.index n)
    rw [heq]
    exact ⟨rfl, rfl⟩
  | branch _ _ => exact ⟨rfl, rfl⟩

theorem Advances.onward (h : c.Advances c') : c.Onward c' := by
  cases h with
  | leave _ =>
    obtain ⟨ts, heq, -⟩ := c.moveTo_eq (c.index + 1)
    rw [heq]
    exact .of_eq (Nat.le_refl _) rfl
  | dispatch _ he =>
    obtain ⟨hl, hg⟩ := he.tickets
    refine .of_cons hg ?_
    rw [hl, current, hg]
    rfl

theorem Runs.onward (h : c.Runs i c') : c.Onward c' := by
  cases h with
  | defer _ => exact .of_eq (Nat.le_refl _) rfl
  | stop _ _ => exact .of_eq (Nat.le_succ _) rfl
  | start _ _ ha =>
    have hi : c.Onward c.interrupt := .of_eq (Nat.le_succ _) rfl
    have ha := ha.onward
    refine ⟨Nat.le_trans hi.le ha.le, fun h => ?_, fun h => ?_⟩
    · rcases ha.new h with h | ⟨heq, hlt⟩
      · exact .inl h
      · exact .inr ⟨heq, Nat.lt_of_succ_lt hlt⟩
    · have ho := hi.ordered h
      exact ha.ordered ⟨ho.nodup, ho.le⟩

theorem Inner.onward (h : c.Inner c') : c.Onward c' := by
  have erase (t : Ticket) : c.Onward { c with live := c.live.erase t } :=
    .of_subset (Nat.le_refl _) List.mem_of_mem_erase fun h => h.erase t
  cases h with
  | stay => exact .of_eq (Nat.le_refl _) rfl
  | suspend t _ => exact .of_eq (Nat.le_refl _) rfl
  | spent t _ _ => exact erase t
  | finish _ ha =>
    have ha := ha.onward
    refine ⟨ha.le, fun h => (ha.new h).imp_left List.mem_of_mem_erase, fun h => ?_⟩
    exact ha.ordered (h.erase _)
  | take _ => exact .of_eq (Nat.le_refl _) rfl

theorem Advances.queue_eq_nil (h : c.Advances c') (hq : c.queue = []) : c'.queue = [] := by
  cases h with
  | leave _ =>
    obtain ⟨ts, heq, -⟩ := c.moveTo_eq (c.index + 1)
    rw [heq]
    exact hq
  | dispatch hqueue _ => cases hqueue.symm.trans hq

/-- What follows gives no ticket back. -/
theorem Advances.mem_live (h : c.Advances c') (ht : t ∈ c.live) : t ∈ c'.live := by
  cases h with
  | leave _ =>
    obtain ⟨ts, heq, -⟩ := c.moveTo_eq (c.index + 1)
    rw [heq]
    exact ht
  | dispatch _ he =>
    rw [he.tickets.1]
    exact List.mem_cons_of_mem _ ht

/-- After an interruption nothing is under way. -/
theorem Ordered.not_busy_interrupt (h : c.Ordered) : ¬ c.interrupt.Busy :=
  h.not_mem (Nat.lt_succ_self _)

/-- The last ticket is given back for good. -/
theorem Advances.not_mem (ho : c.Ordered)
    (h : { c with live := c.live.erase c.current }.Advances c') : c.current ∉ c'.live := by
  intro hm
  have hc := h.onward.ne_current hm (Nat.le_refl _) rfl
  exact (ho.nodup.not_mem_erase) hc

end Course

/-- A course only goes on to newer tickets. -/
theorem Moves.onward {m : Machine Player Task} {c c' : Course} (h : Moves m c c') :
    c.Onward c' := by
  cases h with
  | @jump s i _ _ =>
    obtain ⟨ts, ts', heq, -⟩ := c.jump_eq s i
    rw [heq]
    exact .of_eq (Nat.le_succ _) rfl
  | @answer r x c₀ _ _ hr =>
    obtain ⟨lines, phase, ts, heq, -⟩ := c₀.answer_eq r x
    obtain ⟨request, rfl⟩ := exists_request hr
    rw [heq]
    exact .of_eq (Nat.le_refl _) rfl
  | @scene ts _ _ =>
    obtain ⟨phase, version, request, heq, -⟩ := Course.loadScene_eq { c with turns := ts } c.scene
    rw [heq]
    exact .of_eq (Nat.le_succ _) rfl
  | index _ _ _ hr =>
    have ho := hr.onward
    exact ⟨ho.le, ho.new, fun h => ho.ordered ⟨h.nodup, h.le⟩⟩
  | inner _ _ _ hi => exact hi.onward

/-! ### The instructions of a line -/

namespace Line

/-- The instruction stands in the line, or in the body of a condition in the line. -/
inductive Has (line : String) : Instruction → Prop where
  /-- It stands in the line. -/
  | direct {i : Instruction} : i ∈ instructions line → Has line i
  /-- It stands in the body of a condition. -/
  | body {i j : Instruction} {condition : Expr} {rest : List Char} :
      Has line j → j.opcode = "if" → Condition.read j.argument.toList = .ok (condition, rest) →
        i ∈ instructions (String.ofList (Text.trim rest)) → Has line i

end Line

/-- What follows an instruction of a line belongs to the line, too. -/
theorem Course.Advances.forall_mem_queue {line : String} {c c' : Course} (h : c.Advances c')
    (hq : ∀ i ∈ c.queue, Line.Has line i) : ∀ i ∈ c'.queue, Line.Has line i := by
  cases h with
  | leave _ =>
    obtain ⟨ts, heq, -⟩ := c.moveTo_eq (c.index + 1)
    rw [heq]
    exact hq
  | @dispatch i rest _ hqueue he =>
    have hrest : ∀ j ∈ rest, Line.Has line j := fun j hj =>
      hq j (hqueue ▸ List.mem_cons_of_mem _ hj)
    cases he with
    | plain => exact hrest
    | skip n _ =>
      obtain ⟨ts, heq, -⟩ := moveTo_eq { c with queue := rest }.begin
        (skipTarget { c with queue := rest }.begin.index n)
      rw [heq]
      exact hrest
    | branch hif hread =>
      intro j hj
      rcases List.mem_append.1 hj with hj | hj
      · exact .body (hq i (hqueue ▸ List.mem_cons_self)) hif hread hj
      · exact hrest j hj

/-- The line is the one that was started last. -/
def Running (h : List (Machine Player Task)) (line : String) : Prop :=
  Since (fun n => n.line? = none) (fun n => n.line? = some line) h

/-! ### What begins -/

namespace Machine

variable (m : Machine Player Task)

/-- The machine begins an instruction. -/
def Dispatches : Prop :=
  ∃ g, .instruction g ∈ m.step.world.live ∧ .instruction g ∉ m.world.live

/-- No instruction is begun, no line is started and the index stays. -/
structure Rests : Prop where
  /-- No instruction is begun. -/
  not_dispatches : ¬ m.Dispatches
  /-- No line is started. -/
  line : m.line? = none
  /-- The index stays. -/
  index : m.step.world.stage.index.value = m.world.stage.index.value

variable {m}

theorem line?_eq_none (h : m.hears? ≠ some .index) : m.line? = none := by
  cases hl : m.line? with
  | none => rfl
  | some line => exact absurd (hears?_of_line? hl) h

/-- No ticket is new. -/
theorem not_dispatches_of_course {k : Nat} {c c' : Course} (hs : Steady k m c)
    (hs' : Steady k m.step c') (hlive : ∀ {t}, t ∈ c'.live → t ∈ c.live) : ¬ m.Dispatches := by
  rw [hs.course_eq, hs'.course_eq] at hlive
  exact fun ⟨g, hg, hn⟩ => hn (hlive hg)

/-- No ticket is new and the index stays. -/
theorem rests_of_course {k : Nat} {c c' : Course} (hs : Steady k m c) (hs' : Steady k m.step c')
    (hline : m.line? = none) (hlive : ∀ {t}, t ∈ c'.live → t ∈ c.live)
    (hindex : c'.index = c.index) : m.Rests := by
  have hn := not_dispatches_of_course hs hs' hlive
  rw [hs.course_eq, hs'.course_eq] at hindex
  exact ⟨hn, hline, hindex⟩

end Machine

end Novella
