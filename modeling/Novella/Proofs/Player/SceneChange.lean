import Novella.Proofs.Loop.Since
import Novella.Proofs.Player.HostRuns

/-!
# Changes of the scene

A jump to another scene writes the cell of the scene at once, but the player only learns of it when
the cell is delivered. In between, the old lines are still there and the old request is still open.
Whether the machine is in between can be read off its history: a scene has changed and has not been
heard since.

A jump to the scene that is there already counts as a change, too, if the scene has no lines and
none are on their way: then it is loaded again.

## Main definitions

* `Machine.ChangesScene`, `Machine.Accepts` — changes of the scene, and requests that are open
* `Course.KeepsScene` — what a script does of its own accord with its scene

## Main results

* `Course.Inner.keepsScene`, `Course.Runs.keepsScene` — scripts do not change the scene
* `scene_waits_iff` — the scene waits exactly if it has changed and has not been heard since
-/

namespace Novella

open Player

namespace Machine

variable (m : Machine Player Task)

/-- The machine is about to jump to another scene, or to have a scene loaded again. -/
def ChangesScene : Prop :=
  ∃ s i, m.jump? = some (s, i) ∧
    (m.world.stage.scene.value ≠ s ∨ m.world.lines = none ∧ m.world.phase ≠ .loading)

/-- The request is the last one, and the player waits for the answer. -/
def Accepts (r : LoadRequest) : Prop :=
  r.version = m.world.loadVersion ∧ m.world.phase = .loading

instance : DecidablePred m.Accepts := fun _ => inferInstanceAs (Decidable (_ ∧ _))

variable {m}

/-- In what the machine is about to do, it is the scene of the jump that counts. -/
theorem changesScene_iff {s : String} {i : UInt64} (hj : m.jump? = some (s, i)) :
    m.ChangesScene ↔
      m.world.stage.scene.value ≠ s ∨ m.world.lines = none ∧ m.world.phase ≠ .loading := by
  constructor
  · rintro ⟨s', i', hj', h⟩
    cases hj.symm.trans hj'
    exact h
  · intro h
    exact ⟨s, i, hj, h⟩

theorem not_changesScene (hj : m.jump? = none) : ¬ m.ChangesScene := by
  rintro ⟨s, i, hj', -⟩
  cases hj.symm.trans hj'

instance : DecidablePred ChangesScene := fun m =>
  match hj : m.jump? with
  | some (_, _) => decidable_of_iff' _ (changesScene_iff hj)
  | none => isFalse (not_changesScene hj)

end Machine

/-! ### What keeps the scene -/

namespace Course

/-- A request that the player or its host may still come back to. -/
def Knows (c : Course) (r : LoadRequest) : Prop := r ∈ c.requests ∨ c.loadRequest = some r

/-- The scene and its lines stay, and nothing is asked for. At most the index is delivered, after
what waits already. -/
structure KeepsScene (c c' : Course) : Prop where
  /-- The scene stays. -/
  scene : c'.scene = c.scene
  /-- Its lines stay. -/
  lines : c'.lines = c.lines
  /-- No scene is asked for. -/
  loadVersion : c'.loadVersion = c.loadVersion
  /-- No request is new. -/
  known : ∀ {r}, c'.Knows r → c.Knows r
  /-- Loading does not begin. -/
  phase : c'.phase = .loading → c.phase = .loading
  /-- At most the index is delivered. -/
  turns : Queues .index c.turns c'.turns

namespace KeepsScene

variable {c c' c'' : Course}

theorem refl (c : Course) : c.KeepsScene c := ⟨rfl, rfl, rfl, id, id, .inl rfl⟩

theorem mem_turns (h : c.KeepsScene c') : .scene ∈ c'.turns ↔ .scene ∈ c.turns := by
  rcases h.turns with h | ⟨-, h⟩ <;> simp [h]

theorem turn_index (c : Course) : c.KeepsScene (c.turn .index) := by
  obtain ⟨ts, h, hts⟩ := c.turn_eq .index
  rw [h]
  exact ⟨rfl, rfl, rfl, id, id, hts⟩

/-- What is answered is the course as it is, or without its request. -/
theorem of_asked {r : LoadRequest}
    (h : r ∈ c.requests ∧ c' = c ∨ c.loadRequest = some r ∧ c' = c.release) : c.KeepsScene c' := by
  rcases h with ⟨-, rfl⟩ | ⟨-, rfl⟩
  · exact .refl c'
  · exact ⟨rfl, rfl, rfl, fun h => h.imp_right fun hn => (by cases hn), id, .inl rfl⟩

theorem moveTo (c : Course) (i : UInt64) : c.KeepsScene (c.moveTo i) := by
  obtain ⟨ts, h, hts⟩ := c.moveTo_eq i
  rw [h]
  exact ⟨rfl, rfl, rfl, id, id, hts⟩

theorem trans (h : c.KeepsScene c') (h' : c'.KeepsScene c'') : c.KeepsScene c'' :=
  ⟨h'.scene.trans h.scene, h'.lines.trans h.lines, h'.loadVersion.trans h.loadVersion,
    fun hk => h.known (h'.known hk), fun hp => h.phase (h'.phase hp), h.turns.trans h'.turns⟩

end KeepsScene

variable {c c' : Course} {i : UInt64}

theorem KeepsScene.queue (c : Course) (queue : List Instruction) : c.KeepsScene { c with queue } :=
  ⟨rfl, rfl, rfl, id, id, .inl rfl⟩

/-- No more than one instruction is run before the course is looked at again. -/
theorem Executes.keepsScene {i : Instruction} (h : c.Executes i c') : c.KeepsScene c' := by
  cases h with
  | plain => exact .refl c
  | skip n _ => exact .moveTo ..
  | branch _ _ => exact .queue ..

theorem Advances.keepsScene (h : c.Advances c') : c.KeepsScene c' := by
  cases h with
  | leave _ => exact .moveTo ..
  | dispatch _ he =>
    have hk := he.keepsScene
    refine ⟨hk.scene, hk.lines, hk.loadVersion, hk.known, fun hp => ?_, hk.turns⟩
    exact absurd (hk.phase hp) (by simp [begin])

theorem Inner.keepsScene (h : c.Inner c') : c.KeepsScene c' := by
  cases h with
  | stay => exact .refl c
  | suspend t _ => exact ⟨rfl, rfl, rfl, id, fun hp => (by cases hp), .inl rfl⟩
  | spent t _ _ => exact ⟨rfl, rfl, rfl, id, id, .inl rfl⟩
  | finish _ ha =>
    have hk := ha.keepsScene
    exact ⟨hk.scene, hk.lines, hk.loadVersion, hk.known, hk.phase, hk.turns⟩
  | take hr =>
    refine ⟨rfl, rfl, rfl, fun {r} hk => ?_, id, .inl rfl⟩
    rcases hk with hk | hk
    · rcases Array.mem_push.1 hk with hk | rfl
      · exact .inl hk
      · exact .inr hr
    · cases hk

theorem Runs.keepsScene (h : c.Runs i c') : c.KeepsScene c' := by
  cases h with
  | defer _ => exact .refl c
  | stop hp _ => exact ⟨rfl, rfl, rfl, id, fun hn => (by cases hn), .inl rfl⟩
  | start hp _ ha =>
    have hk := ha.keepsScene
    refine ⟨hk.scene, hk.lines, hk.loadVersion, hk.known, fun hn => ?_, hk.turns⟩
    exact absurd (hk.phase hn) (by simp)

/-! ### What changes the scene -/

variable {s : String} {r : LoadRequest} {x : Except SourceError (List String)}

/-- A jump within a scene that has its lines, or will have them. -/
theorem jump_keepsScene (h : ¬ (c.scene ≠ s ∨ c.lines = none ∧ c.phase ≠ .loading)) :
    c.KeepsScene (c.jump s i) := by
  have hi : c.KeepsScene c.interrupt := ⟨rfl, rfl, rfl, id, id, .inl rfl⟩
  rw [Course.jump]
  rw [if_neg fun hs => h (.inl hs), if_neg fun hn => h (.inr (by simpa using hn))]
  exact hi.trans ((KeepsScene.moveTo ..).trans (.turn_index _))

theorem mem_turn (c : Course) {y z : CellName} : y ∈ (c.turn z).turns ↔ y ∈ c.turns ∨ y = z := by
  rw [Course.turn]
  dsimp only
  split
  · next h => exact ⟨.inl, fun hy => hy.elim id (· ▸ h)⟩
  · simp

/-- Any other jump has the scene delivered. -/
theorem scene_mem_turns_jump (h : c.scene ≠ s ∨ c.lines = none ∧ c.phase ≠ .loading) :
    .scene ∈ (c.jump s i).turns := by
  rw [Course.jump]
  by_cases hs : c.scene = s
  · have hn := h.resolve_left (absurd hs)
    rw [if_neg (not_not_intro hs), if_pos (by simpa using hn)]
    rw [(KeepsScene.turn_index _).mem_turns, (KeepsScene.moveTo ..).mem_turns, mem_turn]
    exact .inr rfl
  · have hi : ¬ c.interrupt.scene = s := hs
    rw [if_pos hs, (KeepsScene.moveTo ..).mem_turns, switchTo, if_neg hi, mem_turn]
    exact .inr rfl

/-- An answer that brings no lines, or that nobody waits for. -/
theorem answer_keepsScene (h : ∀ lines, x = .ok lines → ¬ c.Awaits r) :
    c.KeepsScene (c.answer r x) := by
  unfold Course.answer
  split
  · next ha =>
    cases x with
    | ok lines => exact absurd ha (h lines rfl)
    | error e => exact ⟨rfl, rfl, rfl, id, fun hp => (by cases hp), .inl rfl⟩
  · exact .refl c

/-- Nobody waits any more after an answer that counts. -/
theorem phase_answer (h : c.Awaits r) (x : Except SourceError (List String)) :
    (c.answer r x).phase ≠ .loading := by
  unfold answer
  rw [if_pos h]
  cases x <;> exact fun hp => (by cases hp)

end Course

/-- Only requests that the player knows are answered. -/
theorem Steady.knows_of_answer? {k : Nat} {m : Machine Player Task} {c : Course} (h : Steady k m c)
    {r : LoadRequest} {x : Except SourceError (List String)} (ha : m.answer? = some (r, x)) :
    c.Knows r := by
  rw [h.course_eq]
  rcases Machine.answer?_eq_some ha with ⟨a, n, lines, rest, -, hr, -⟩ | ⟨rest, -, hr, -⟩
  · exact .inl (Array.mem_of_getElem? hr)
  · exact .inr hr

/-! ### When the scene waits -/

namespace Moves

variable {k : Nat} {m : Machine Player Task} {c c' : Course}

/-- An answer is given to the course as it is, but for its request. -/
theorem exists_request {r : LoadRequest}
    (h : r ∈ c.requests ∧ c' = c ∨ c.loadRequest = some r ∧ c' = c.release) :
    ∃ loadRequest, c' = { c with loadRequest } := by
  rcases h with ⟨-, rfl⟩ | ⟨-, rfl⟩
  · exact ⟨c'.loadRequest, rfl⟩
  · exact ⟨none, rfl⟩

theorem jump?_of_answer? {a} (h : m.answer? = some a) : m.jump? = none := by
  cases hj : m.jump? with
  | none => rfl
  | some s => cases (Machine.answer?_of_jump? hj).symm.trans h

theorem jump?_of_hears? {x : CellName} (h : m.hears? = some x) : m.jump? = none := by
  cases hj : m.jump? with
  | none => rfl
  | some s => cases (Machine.hears?_of_jump? hj).symm.trans h

theorem answer?_of_hears? {x : CellName} (h : m.hears? = some x) : m.answer? = none := by
  cases ha : m.answer? with
  | none => rfl
  | some a => cases (Machine.hears?_of_answer? ha).symm.trans h

/-- No request is newer than the last one. -/
theorem bound (h : Moves m c c') (hb : ∀ {r}, c.Knows r → r.version ≤ c.loadVersion)
    {r : LoadRequest} (hr : c'.Knows r) : r.version ≤ c'.loadVersion := by
  cases h with
  | @jump s i _ _ =>
    obtain ⟨ts, ts', heq, -⟩ := c.jump_eq s i
    rw [heq] at hr ⊢
    exact hb hr
  | @answer q x c₀ _ _ hc =>
    have hk := Course.KeepsScene.of_asked hc
    obtain ⟨lines, phase, ts, heq, -⟩ := c₀.answer_eq q x
    rw [heq] at hr ⊢
    exact Nat.le_trans (hb (hk.known hr)) (Nat.le_of_eq hk.loadVersion.symm)
  | @scene ts _ _ =>
    obtain ⟨phase, version, request, heq, hreq⟩ :=
      Course.loadScene_eq { c with turns := ts } c.scene
    rw [heq] at hr ⊢
    rcases hreq with ⟨-, rfl, rfl⟩ | ⟨-, rfl, rfl⟩
    · exact hb (hr.imp_right fun hn => by cases hn)
    · rcases hr with hr | hr
      · exact Nat.le_succ_of_le (hb (.inl hr))
      · cases hr
        exact Nat.le_refl _
  | index _ _ _ hi =>
    have hk := hi.keepsScene
    exact Nat.le_trans (hb (hk.known hr)) (Nat.le_of_eq hk.loadVersion.symm)
  | inner _ _ _ hi =>
    have hk := hi.keepsScene
    exact Nat.le_trans (hb (hk.known hr)) (Nat.le_of_eq hk.loadVersion.symm)

/-- After a step the scene waits if it has just changed, or if it waited and was not heard. -/
theorem scene_mem_turns (hs : Steady k m c) (h : Moves m c c') :
    .scene ∈ c'.turns ↔ m.ChangesScene ∨ m.hears? ≠ some .scene ∧ .scene ∈ c.turns := by
  cases h with
  | @jump s i hj hc =>
    have hh := Machine.hears?_of_jump? hj
    have hiff : m.ChangesScene ↔ c.scene ≠ s ∨ c.lines = none ∧ c.phase ≠ .loading := by
      rw [← hc]
      exact Machine.changesScene_iff hj
    rw [hiff, hh]
    by_cases hch : c.scene ≠ s ∨ c.lines = none ∧ c.phase ≠ .loading
    · exact iff_of_true (Course.scene_mem_turns_jump hch) (.inl hch)
    · rw [(Course.jump_keepsScene hch).mem_turns]
      simp [hch]
  | @answer r x c₀ ha hc hr =>
    rw [iff_false_intro (Machine.not_changesScene (jump?_of_answer? ha)),
      Machine.hears?_of_answer? ha, ← (Course.KeepsScene.of_asked hr).mem_turns]
    obtain ⟨lines, phase, ts, heq, hts⟩ := c₀.answer_eq r x
    rw [heq]
    rcases hts with h | ⟨-, h⟩ <;> simp [h]
  | @scene ts hh ht =>
    have hn := hs.nodup
    rw [ht] at hn
    obtain ⟨phase, version, request, heq, -⟩ := Course.loadScene_eq { c with turns := ts } c.scene
    rw [heq]
    refine iff_of_false (List.nodup_cons.1 hn).1 ?_
    rintro (h | h)
    · exact Machine.not_changesScene (jump?_of_hears? hh) h
    · exact h.1 hh
  | index hh ht _ hr =>
    rw [iff_false_intro (Machine.not_changesScene (jump?_of_hears? hh)), hh,
      hr.keepsScene.mem_turns, ht]
    simp
  | inner hj _ hh hi =>
    rw [iff_false_intro (Machine.not_changesScene hj), hh, hi.keepsScene.mem_turns]
    simp

end Moves

/-- The scene has changed and has not been heard since. -/
def SceneChanged : List (Machine Player Task) → Prop :=
  Since (fun n => n.hears? ≠ some .scene) Machine.ChangesScene

instance : DecidablePred SceneChanged := inferInstanceAs (DecidablePred (Since _ _))

/-- The scene waits exactly if it has changed and has not been heard since. -/
theorem scene_waits_iff {k : Nat} {m : Machine Player Task} {c c' : Course}
    {h : List (Machine Player Task)} (hs : Steady k m c) (hm : Moves m c c')
    (hi : .scene ∈ c.turns ↔ SceneChanged h) : .scene ∈ c'.turns ↔ SceneChanged (m :: h) := by
  rw [hm.scene_mem_turns hs, hi]
  rfl

end Novella
