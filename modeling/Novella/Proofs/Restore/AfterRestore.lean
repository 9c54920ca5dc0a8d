import Novella.Proofs.Player.CurrentLine
import Novella.Proofs.Player.Position

/-!
# What a restoration leaves to do

When a position is brought back, cells are written, and the running instruction is cut off. So
deliveries are added to the microtasks, and timeouts may go, but nothing else happens to the event
loop. The cells that are seen and heard are delivered first. What comes after them depends on where
the script has been: with another scene, or one that has no lines, the scene is delivered, and
perhaps the index after it; otherwise it is the index alone.

## Main definitions

* `Loop.Extends` — a loop with further deliveries, and maybe fewer timeouts
* `Loop.Ahead` — nothing is due

## Main results

* `Player.extends_restore` — a restoration adds deliveries of the presentation and the turns of its
  jump
* `Course.turns_jump_of_nil` — the turns of a jump when none has been waiting
-/

namespace Novella

open Player

/-! ### Loops -/

/-- Deliveries of these cells are added to the loop, and timeouts may have gone. -/
structure Loop.Extends (cs : List CellName) (l l' : Loop Task) : Prop where
  /-- The deliveries come last. -/
  microtasks : l'.microtasks = l.microtasks ++ cs.map .deliver
  /-- No timeout has come. -/
  timeouts : l'.timeouts ⊆ l.timeouts
  /-- It is the same time. -/
  now : l'.now = l.now

/-- No timeout is due yet. -/
def Loop.Ahead (l : Loop Task) : Prop := ∀ u ∈ l.timeouts, l.now < u.deadline

namespace Loop.Extends

variable {l l' l'' : Loop Task} {cs cs' : List CellName}

theorem refl (l : Loop Task) : Extends [] l l :=
  ⟨(List.append_nil _).symm, List.Subset.refl _, rfl⟩

theorem trans (h : Extends cs l l') (h' : Extends cs' l' l'') : Extends (cs ++ cs') l l'' := by
  refine ⟨?_, List.Subset.trans h'.timeouts h.timeouts, h'.now.trans h.now⟩
  rw [h'.microtasks, h.microtasks, List.map_append, List.append_assoc]

theorem ahead (h : Extends cs l l') (ha : l.Ahead) : l'.Ahead :=
  fun u hu => h.now ▸ ha u (h.timeouts hu)

end Loop.Extends

namespace Player

variable {p q : Player} {P : CellName → Prop}

/-- At most deliveries of cells with the property are added. -/
def Adds (P : CellName → Prop) (p q : Player) : Prop :=
  ∃ cs, (∀ c ∈ cs, P c) ∧ p.loop.Extends cs q.loop

namespace Adds

theorem of_loop (h : q.loop = p.loop) : Adds P p q :=
  ⟨[], fun _ hc => absurd hc List.not_mem_nil, h ▸ .refl _⟩

theorem trans {r : Player} (h : Adds P p q) (h' : Adds P q r) : Adds P p r := by
  obtain ⟨cs, hcs, he⟩ := h
  obtain ⟨cs', hcs', he'⟩ := h'
  exact ⟨cs ++ cs', List.forall_mem_append.2 ⟨hcs, hcs'⟩, he.trans he'⟩

theorem store (p : Player) {c : CellName} (hc : P c) (r : Cell c.Value Reaction × Bool) :
    Adds P p (p.store c r) := by
  unfold Player.store
  split
  · exact ⟨[c], List.forall_mem_singleton.2 hc, rfl, List.Subset.refl _, rfl⟩
  · exact .of_loop rfl

theorem write (p : Player) {c : CellName} (hc : P c) (v : c.Value) : Adds P p (p.write c v) :=
  .store p hc _

theorem notify (p : Player) {c : CellName} (hc : P c) : Adds P p (p.notify c) := .store p hc _

end Adds

/-! ### Interruptions -/

theorem extends_cancel (s : Schedule Task) (k : Nat) : s.loop.Extends [] (s.cancel k).loop := by
  rw [Schedule.cancel]
  split
  · rw [Schedule.disarm]
    dsimp only
    split
    · exact ⟨(List.append_nil _).symm, List.filter_sublist.subset, rfl⟩
    · exact .refl _
  · exact .refl _

/-- An interruption leaves the loop as it is, but for timeouts that go. -/
theorem extends_interrupt (p : Player) : p.loop.Extends [] p.interrupt.loop := by
  unfold interrupt
  dsimp only
  split
  · next x _ =>
    cases x with
    | timer k => exact extends_cancel p.schedule k
    | reveal r =>
      unfold cancelHandler stopReveal
      dsimp only
      split
      · split
        · exact extends_cancel p.schedule _
        · exact .refl _
      · exact .refl _
    | host b t => cases b <;> exact .refl _
    | _ => exact .refl _
  · exact .refl _

/-! ### Restorations -/

theorem adds_present (p : Player) (x : Context) (v : Progress) :
    Adds (fun c => ¬ c.IsPlace ∧ c ≠ .settings) p (p.present x v) := by
  have hw (q : Player) {c : CellName} (hc : ¬ c.IsPlace ∧ c ≠ .settings) (y : c.Value) :
      Adds (fun c => ¬ c.IsPlace ∧ c ≠ .settings) q (q.write c y) := .write q hc y
  exact (hw p (c := .track) (by decide) _).trans <|
    (hw _ (c := .loopedEffect) (by decide) _).trans <|
    (hw _ (c := .background) (by decide) _).trans <| (hw _ (c := .left) (by decide) _).trans <|
      (hw _ (c := .center) (by decide) _).trans <| (hw _ (c := .right) (by decide) _).trans <|
        hw _ (c := .vars) (by decide) _

theorem adds_goto (p : Player) (s : String) (i : UInt64) :
    Adds CellName.IsPlace p (p.goto s i) := by
  have hi : Adds CellName.IsPlace p p.interrupt :=
    ⟨[], fun _ hc => absurd hc List.not_mem_nil, extends_interrupt p⟩
  have scene : CellName.IsPlace .scene := .inl rfl
  have index : CellName.IsPlace .index := .inr rfl
  refine hi.trans ?_
  rw [goto]
  dsimp only
  generalize p.interrupt = q
  split
  · exact (Adds.write q scene s).trans (.write _ index i)
  · refine Adds.trans ?_ ((Adds.write _ index i).trans (.notify _ index))
    split
    · exact .notify q scene
    · exact .of_loop rfl

/-- Among deliveries those of the script are its turns. -/
theorem flatMap_turn (cs : List CellName) :
    (cs.map Task.deliver).flatMap Task.turn = cs.filter (fun c => c.IsPlace) := by
  induction cs with
  | nil => rfl
  | cons c cs ih =>
    rw [List.map_cons, List.flatMap_cons, ih]
    by_cases hc : c.IsPlace
    · rw [List.filter_cons_of_pos (by simpa using hc), Task.turn, if_pos hc]
      rfl
    · rw [List.filter_cons_of_neg (by simpa using hc), Task.turn, if_neg hc]
      rfl

theorem turns_of_extends {cs : List CellName} (h : p.loop.Extends cs q.loop) :
    q.turns = p.turns ++ cs.filter (fun c => c.IsPlace) := by
  rw [turns, h.microtasks, List.flatMap_append, flatMap_turn]
  rfl

/-- After a restoration the presentation is delivered, and then the script has its turns. -/
theorem extends_restore (p : Player) (hm : p.loop.microtasks = []) (x : Context) (v : Progress) :
    ∃ ds, (∀ c ∈ ds, ¬ c.IsPlace ∧ c ≠ .settings) ∧
      p.loop.Extends (ds ++ (p.restore x v).turns) (p.restore x v).loop := by
  obtain ⟨ds, hds, hd⟩ := adds_present p x v
  obtain ⟨ts, hts, ht⟩ := adds_goto (p.present x v) x.scene x.index
  have he : p.loop.Extends (ds ++ ts) (p.restore x v).loop := hd.trans ht
  have hturns : (p.restore x v).turns = ts := by
    rw [turns_of_extends he, turns, hm, List.filter_append,
      List.filter_eq_nil_iff.2 fun c hc => by simpa using (hds c hc).1,
      List.filter_eq_self.2 fun c hc => by simpa using hts c hc]
    rfl
  exact ⟨ds, hds, hturns.symm ▸ he⟩

end Player

/-! ### Turns -/

/-- The scene is delivered if the jump changes it, and otherwise only the index. -/
theorem Course.turns_jump_of_nil {c : Course} (ht : c.turns = []) (s : String) (i : UInt64) :
    (c.scene ≠ s ∨ c.lines = none ∧ c.phase ≠ .loading) ∧
        ((c.jump s i).turns = [.scene] ∨ (c.jump s i).turns = [.scene, .index]) ∨
      (c.scene = s ∧ (c.phase = .loading ∨ c.lines.isSome)) ∧ (c.jump s i).turns = [.index] := by
  by_cases hc : c.scene ≠ s ∨ c.lines = none ∧ c.phase ≠ .loading
  · have hscene : (c.turn .scene).turns = [.scene] := by
      rw [turn, ht]
      rfl
    refine .inl ⟨hc, ?_⟩
    rcases turns_jump (i := i) hc with h | ⟨-, h⟩
    · exact .inl (h.trans hscene)
    · exact .inr (h.trans (by rw [hscene]; rfl))
  · obtain ⟨hs, hl⟩ : c.scene = s ∧ (c.phase = .loading ∨ c.lines.isSome) := by
      cases hlines : c.lines <;> simp_all
    refine .inr ⟨⟨hs, hl⟩, ?_⟩
    have hn : ¬ (c.lines.isNone ∧ c.phase ≠ .loading) := fun h =>
      hc (.inr ⟨Option.isNone_iff_eq_none.1 h.1, h.2⟩)
    obtain ⟨ts, h, hts⟩ := c.interrupt.moveTo_eq i
    rw [jump, if_neg (not_not_intro hs), if_neg hn, h, turn]
    rcases hts with rfl | ⟨-, rfl⟩ <;> simp [interrupt, ht]

end Novella
