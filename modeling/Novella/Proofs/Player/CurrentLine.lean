import Novella.Proofs.Player.SceneChange

/-!
# The line that is started

A line is started when the index is heard. It should be a line of the scene that is current, out of
the lines that were delivered for that scene. The scene and the index are delivered one by one, in
the order in which they were asked for. A jump to another scene asks for the scene first. But if the
index waits already its delivery is not asked for again, and so it comes before that of the scene:
the index has *overtaken* the scene. Then a line of the old scene is started once more.

## Main definitions

* `Machine.loads?`, `Delivered` — the lines that were delivered last, and for which scene
* `CameEarly` — lines that were delivered before the player has heard of a change of the scene
* `Overtaken` — the index is delivered before the scene
* `StartsOwn` — the line that is started is one of the current scene

## Main results

* `line_starts_own_iff` — lines of the current scene are started, unless the index has overtaken the
  scene and the new lines have not come early
-/

namespace Novella

open Player

/-! ### Delivered lines -/

namespace Machine

variable (m : Machine Player Task)

/-- The scene that the machine is about to take over lines for, with the lines. -/
def loads? : Option (String × List String) :=
  match m.answer? with
  | some (r, .ok lines) => if m.Accepts r then some (r.scene, lines) else none
  | _ => none

variable {m} {s : String} {lines : List String}

theorem loads?_eq_some (h : m.loads? = some (s, lines)) :
    ∃ r, m.answer? = some (r, .ok lines) ∧ m.Accepts r ∧ r.scene = s := by
  unfold loads? at h
  split at h
  · next r lines heq =>
    split at h
    · next ha =>
      cases h
      exact ⟨r, heq, ha, rfl⟩
    · cases h
  · cases h

theorem loads?_of_answer? {r : LoadRequest} (ha : m.answer? = some (r, .ok lines))
    (h : m.Accepts r) : m.loads? = some (r.scene, lines) := by
  rw [loads?]
  rw [ha]
  exact if_pos h

theorem loads?_of_answer?_eq_none (h : m.answer? = none) : m.loads? = none := by
  rw [loads?]
  rw [h]

/-- Only lines are taken over, and only those that the player waits for. -/
theorem loads?_eq_none {r : LoadRequest} {x : Except SourceError (List String)}
    (ha : m.answer? = some (r, x)) (h : ∀ lines, x = .ok lines → ¬ m.Accepts r) :
    m.loads? = none := by
  rw [loads?]
  rw [ha]
  cases x with
  | ok lines => exact if_neg (h lines rfl)
  | error e => rfl

end Machine

/-- These lines were delivered for the scene, and since then the scene has not changed and no lines
were delivered. -/
def Delivered (h : List (Machine Player Task)) (s : String) (lines : List String) : Prop :=
  Since (fun n => ¬ n.ChangesScene ∧ n.loads? = none) (fun n => n.loads? = some (s, lines)) h

/-- Lines for the scene were delivered while a change of the scene was waiting to be heard, and
since then the scene has not changed and no lines were delivered. -/
def CameEarly (h : List (Machine Player Task)) (s : String) : Prop :=
  Since (fun n => ¬ n.ChangesScene ∧ n.loads? = none)
    (fun n => (∃ lines, n.loads? = some (s, lines)) ∧ n.world.stage.scene.scheduled = true) h

/-- The scene has changed while the index waited and the scene did not, and neither has been heard
since. -/
def Overtaken : List (Machine Player Task) → Prop :=
  Since (fun n => n.hears? = none) fun n =>
    n.ChangesScene ∧ n.world.stage.index.scheduled = true ∧ n.world.stage.scene.scheduled = false

instance : DecidablePred Overtaken := inferInstanceAs (DecidablePred (Since _ _))

/-- The line is the one at the index among the lines that were delivered for the current scene. -/
def StartsOwn (h : List (Machine Player Task)) (m : Machine Player Task) (line : String) : Prop :=
  ∃ lines, Delivered h m.world.stage.scene.value lines ∧
    lines[m.world.stage.index.value.toNat]? = some line

/-! ### The order of turns -/

namespace Course

variable {c c' : Course}

/-- The index is delivered before the scene. -/
def IsOvertaken (c : Course) : Prop := c.turns = [.index, .scene]

/-- The index is never put before a scene that waits. -/
theorem isOvertaken_of_turns (h : Queues .index c.turns c'.turns) :
    c'.IsOvertaken ↔ c.IsOvertaken := by
  unfold IsOvertaken
  rcases h with h | ⟨hn, h⟩
  · rw [h]
  · refine iff_of_false (fun heq => ?_) fun heq => hn (by simp [heq])
    rw [h] at heq
    have hl := congrArg List.getLast? heq
    simp at hl

/-- A cell that waits at most once and alone. -/
theorem eq_singleton {l : List CellName} {x : CellName} (hn : l.Nodup) (hx : x ∈ l)
    (hall : ∀ y ∈ l, y = x) : l = [x] := by
  cases l with
  | nil => exact absurd hx List.not_mem_nil
  | cons a l =>
    obtain rfl := hall a List.mem_cons_self
    have hl : l = [] := List.eq_nil_iff_forall_not_mem.2 fun y hy =>
      (List.nodup_cons.1 hn).1 (hall y (List.mem_cons_of_mem _ hy) ▸ hy)
    rw [hl]

/-- If the index is first and the scene waits, too, then they are all that waits. -/
theorem isOvertaken_of_mem (hn : c.turns.Nodup) (hp : ∀ {x}, x ∈ c.turns → x.IsPlace)
    {ts : List CellName} (ht : c.turns = .index :: ts) (hs : .scene ∈ c.turns) :
    c.IsOvertaken := by
  rw [ht] at hn hs
  have hmem : CellName.scene ∈ ts := (List.mem_cons.1 hs).resolve_left (by decide)
  have hts : ts = [.scene] := by
    refine eq_singleton (List.nodup_cons.1 hn).2 hmem fun y hy => ?_
    refine (hp (ht ▸ List.mem_cons_of_mem _ hy)).resolve_right fun h => ?_
    exact (List.nodup_cons.1 hn).1 (h ▸ hy)
  rw [IsOvertaken, ht, hts]

/-- A jump that changes the scene asks for the scene first. -/
theorem turns_jump {s : String} {i : UInt64}
    (hc : c.scene ≠ s ∨ c.lines = none ∧ c.phase ≠ .loading) :
    Queues .index (c.turn .scene).turns (c.jump s i).turns := by
  obtain ⟨ts, ts', heq, hts, hts'⟩ := c.jump_eq s i
  have hmem : CellName.scene ∈ (c.jump s i).turns := scene_mem_turns_jump hc
  rw [heq] at hmem ⊢
  have hts₀ : CellName.scene ∈ ts := by
    rcases hts' with h | ⟨-, h⟩ <;> simpa [h] using hmem
  have heq : (c.turn .scene).turns = ts := by
    rcases hts with rfl | ⟨hn, rfl⟩
    · exact if_pos hts₀
    · exact if_neg hn
  rw [heq]
  exact hts'

/-- By such a jump the scene is overtaken if the index waits alone. -/
theorem isOvertaken_jump {s : String} {i : UInt64} (hn : c.turns.Nodup)
    (hp : ∀ {x}, x ∈ c.turns → x.IsPlace)
    (hc : c.scene ≠ s ∨ c.lines = none ∧ c.phase ≠ .loading) :
    (c.jump s i).IsOvertaken ↔ (.index ∈ c.turns ∧ .scene ∉ c.turns) ∨ c.IsOvertaken := by
  rw [isOvertaken_of_turns (c := c.turn .scene) (turns_jump hc)]
  unfold IsOvertaken turn
  dsimp only
  by_cases hs : CellName.scene ∈ c.turns
  · rw [if_pos hs]
    simp [hs]
  · rw [if_neg hs]
    constructor
    · intro h
      have ht : c.turns ++ [CellName.scene] = [CellName.index] ++ [CellName.scene] := h
      have ht := List.append_cancel_right ht
      exact .inl ⟨by simp [ht], hs⟩
    · rintro (⟨hi, -⟩ | h)
      · have hall : ∀ y ∈ c.turns, y = .index := fun y hy =>
          (hp hy).resolve_left fun h => hs (h ▸ hy)
        rw [eq_singleton hn hi hall]
        rfl
      · exact absurd (by simp [h]) hs

end Course

/-! ### Histories -/

/-- What a history has to do with the lines of its course. -/
structure Lined (h : List (Machine Player Task)) (c : Course) : Prop where
  /-- The index comes before the scene if it has overtaken it. -/
  overtaken : c.IsOvertaken ↔ Overtaken h
  /-- As long as the scene does not wait, its lines are those delivered last. -/
  delivered {lines : List String} : .scene ∉ c.turns → c.lines = some lines →
    Delivered h c.scene lines
  /-- As long as the scene does not wait, it is the one that has been asked for. -/
  asked {r : LoadRequest} : .scene ∉ c.turns → c.phase = .loading → c.Knows r →
    r.version = c.loadVersion → r.scene = c.scene
  /-- No request is newer than the last one. -/
  bound {r : LoadRequest} : c.Knows r → r.version ≤ c.loadVersion
  /-- If lines were delivered after the index had overtaken the scene, that was early. -/
  early {s : String} {lines : List String} : Overtaken h → Delivered h s lines → CameEarly h s
  /-- They are the lines that the player has. -/
  kept {s : String} {lines : List String} : Overtaken h → Delivered h s lines →
    c.lines = some lines

namespace Lined

variable {k : Nat} {m : Machine Player Task} {h : List (Machine Player Task)} {c c' : Course}

theorem step_early (hs : Steady k m c) (hl : Lined h c) {s : String} {lines : List String}
    (ho : Overtaken (m :: h)) (hd : Delivered (m :: h) s lines) : CameEarly (m :: h) s := by
  rcases hd with hload | ⟨hn, hd⟩
  · obtain ⟨r, ha, -, -⟩ := Machine.loads?_eq_some hload
    have ho' : Overtaken h := by
      rcases ho with ⟨hch, -⟩ | ⟨-, ho⟩
      · exact absurd hch (Machine.not_changesScene (Moves.jump?_of_answer? ha))
      · exact ho
    have ht : c.turns = [.index, .scene] := hl.overtaken.2 ho'
    refine .inl ⟨⟨lines, hload⟩, ?_⟩
    rcases Machine.answer?_eq_some ha with ⟨a, n, lines, rest, hag, -⟩ | ⟨rest, hag, -⟩
    all_goals
      refine (hs.waits hag (fun _ h => by cases h) (fun _ _ _ h => by cases h) (.inl rfl)).2 ?_
      simp [ht]
  · rcases ho with ⟨hch, -⟩ | ⟨-, ho⟩
    · exact absurd hch hn.1
    · exact .inr ⟨hn, hl.early ho hd⟩

/-- A step that leaves the scene and its lines as they are. -/
theorem of_keepsScene (hs : Steady k m c) (hl : Lined h c) {ts : List CellName}
    (hk : { c with turns := ts }.KeepsScene c') (hts : .scene ∈ ts ↔ .scene ∈ c.turns)
    (ho : c'.IsOvertaken ↔ Overtaken (m :: h)) (hn : ¬ m.ChangesScene) (ha : m.loads? = none) :
    Lined (m :: h) c' := by
  have hmem : .scene ∈ c'.turns ↔ .scene ∈ c.turns := hk.mem_turns.trans hts
  refine ⟨ho, fun ht hlines => ?_, fun ht hp hq hv => ?_, fun hq => ?_, hl.step_early hs,
    fun ho hd => ?_⟩
  · rw [hmem] at ht
    rw [hk.lines] at hlines
    rw [hk.scene]
    exact .inr ⟨⟨hn, ha⟩, hl.delivered ht hlines⟩
  · rw [hmem] at ht
    rw [hk.scene]
    exact hl.asked ht (hk.phase hp) (hk.known hq) (hv.trans hk.loadVersion)
  · rw [hk.loadVersion]
    exact hl.bound (hk.known hq)
  · rcases hd with hload | ⟨-, hd⟩
    · cases ha.symm.trans hload
    · have ho := (ho.resolve_left fun h => hn h.1).2
      exact hk.lines.trans (hl.kept ho hd)

/-- Where nothing is heard and the scene does not change, nothing overtakes. -/
theorem overtaken_iff (hl : Lined h c) (hn : ¬ m.ChangesScene) (hh : m.hears? = none)
    (ht : c'.IsOvertaken ↔ c.IsOvertaken) : c'.IsOvertaken ↔ Overtaken (m :: h) := by
  rw [ht, hl.overtaken]
  exact ⟨fun ho => .inr ⟨hh, ho⟩, fun ho => (ho.resolve_left fun h => hn h.1).2⟩

/-- What is heard does not overtake any more. -/
theorem not_overtaken {x : CellName} (hh : m.hears? = some x) : ¬ Overtaken (m :: h) := by
  rintro (⟨hch, -⟩ | ⟨hn, -⟩)
  · exact Machine.not_changesScene (Moves.jump?_of_hears? hh) hch
  · cases hh.symm.trans hn

/-- When a jump changes the scene the index overtakes it if it waits alone. -/
theorem isOvertaken_jump_iff (hs : Steady k m c) (hl : Lined h c) {s : String} {i : UInt64}
    (hj : m.jump? = some (s, i)) (hc : m.world.course = c) (hch : m.ChangesScene) :
    (c.jump s i).IsOvertaken ↔ Overtaken (m :: h) := by
  have hh := Machine.hears?_of_jump? hj
  obtain ⟨a, d, rest, hag, -⟩ := Machine.jump?_eq_some hj
  have hw {x : CellName} (hx : x.IsPlace) :
      (m.world.stage.cell x).scheduled = true ↔ x ∈ c.turns :=
    hs.waits hag (fun _ h => by cases h) (fun _ _ _ h => by cases h) hx
  have hi : m.world.stage.index.scheduled = true ↔ .index ∈ c.turns := hw (.inr rfl)
  have hsc : m.world.stage.scene.scheduled = false ↔ .scene ∉ c.turns := by
    rw [← Bool.not_eq_true]
    exact not_congr (hw (.inl rfl))
  have hmoved : c.scene ≠ s ∨ c.lines = none ∧ c.phase ≠ .loading := by
    rw [← hc]
    exact (Machine.changesScene_iff hj).1 hch
  rw [Course.isOvertaken_jump hs.nodup hs.isPlace hmoved, hl.overtaken, ← hi, ← hsc]
  constructor
  · rintro (h | h)
    · exact .inl ⟨hch, h⟩
    · exact .inr ⟨hh, h⟩
  · rintro (⟨-, h⟩ | ⟨-, h⟩)
    · exact .inl h
    · exact .inr h

theorem step_jump (hs : Steady k m c) (hl : Lined h c) {s : String} {i : UInt64}
    (hj : m.jump? = some (s, i)) (hc : m.world.course = c) : Lined (m :: h) (c.jump s i) := by
  have hm := Moves.jump hj hc
  have hload := Machine.loads?_of_answer?_eq_none (Machine.answer?_of_jump? hj)
  by_cases hch : m.ChangesScene
  · have ht := (hm.scene_mem_turns hs).2 (.inl hch)
    refine ⟨isOvertaken_jump_iff hs hl hj hc hch, fun hn => absurd ht hn, fun hn => absurd ht hn,
      hm.bound hl.bound, hl.step_early hs, fun _ hd => ?_⟩
    rcases hd with hd | ⟨hn, -⟩
    · cases hload.symm.trans hd
    · exact absurd hch hn.1
  · have hstays : ¬ (c.scene ≠ s ∨ c.lines = none ∧ c.phase ≠ .loading) := by
      rw [← hc]
      exact mt (Machine.changesScene_iff hj).2 hch
    have hk := Course.jump_keepsScene (i := i) hstays
    exact hl.of_keepsScene hs hk .rfl
      (hl.overtaken_iff hch (Machine.hears?_of_jump? hj) (Course.isOvertaken_of_turns hk.turns))
      hch hload

/-- The player takes over the lines that it waits for. -/
theorem step_accepted (hs : Steady k m c) (hl : Lined h c) {r : LoadRequest} {lines : List String}
    {request : Option LoadRequest} (ha : m.answer? = some (r, .ok lines)) (haw : c.Awaits r)
    (hc : m.world.course = c)
    (hm : Moves m c (Course.answer { c with loadRequest := request } r (.ok lines)))
    (ho : (Course.answer { c with loadRequest := request } r (.ok lines)).IsOvertaken ↔
      Overtaken (m :: h)) :
    Lined (m :: h) (Course.answer { c with loadRequest := request } r (.ok lines)) := by
  have hh := Machine.hears?_of_answer? ha
  have heq : Course.answer { c with loadRequest := request } r (.ok lines) =
      { c with lines := some lines, phase := .executing, loadRequest := request }.turn .index :=
    if_pos haw
  have hacc : m.Accepts r := by
    rw [← hc] at haw
    exact haw
  have hload := Machine.loads?_of_answer? ha hacc
  have hphase := Course.phase_answer (c := { c with loadRequest := request }) haw (.ok lines)
  refine ⟨ho, fun hnot hlines => ?_, fun _ hp => absurd hp hphase, hm.bound hl.bound,
    hl.step_early hs, fun _ hd => ?_⟩
  · have hnot' : .scene ∉ c.turns := fun h =>
      hnot ((hm.scene_mem_turns hs).2 (.inr ⟨by simp [hh], h⟩))
    have hsame : r.scene = c.scene := hl.asked hnot' haw.2 (hs.knows_of_answer? ha) haw.1
    rw [heq] at hlines ⊢
    cases hlines
    exact .inl (hsame ▸ hload)
  · rcases hd with hd | ⟨hn, -⟩
    · cases hload.symm.trans hd
      rw [heq]
      rfl
    · cases hload.symm.trans hn.2

theorem step_answer (hs : Steady k m c) (hl : Lined h c) {r : LoadRequest}
    {x : Except SourceError (List String)} {c₀ : Course} (ha : m.answer? = some (r, x))
    (hc : m.world.course = c)
    (hr : r ∈ c.requests ∧ c₀ = c ∨ c.loadRequest = some r ∧ c₀ = c.release) :
    Lined (m :: h) (c₀.answer r x) := by
  have hm := Moves.answer ha hc hr
  have hn := Machine.not_changesScene (Moves.jump?_of_answer? ha)
  have hk₀ := Course.KeepsScene.of_asked hr
  obtain ⟨request, rfl⟩ := Moves.exists_request hr
  have ho : (Course.answer { c with loadRequest := request } r x).IsOvertaken ↔
      Overtaken (m :: h) := by
    refine hl.overtaken_iff hn (Machine.hears?_of_answer? ha) ?_
    obtain ⟨lines, phase, ts, heq, hts⟩ := Course.answer_eq { c with loadRequest := request } r x
    refine Course.isOvertaken_of_turns ?_
    rw [heq]
    exact hts
  by_cases hok : ∃ lines, x = .ok lines ∧ c.Awaits r
  · obtain ⟨lines, rfl, haw⟩ := hok
    exact hl.step_accepted hs ha haw hc hm ho
  · have hno : ∀ lines, x = .ok lines → ¬ c.Awaits r := fun lines hx haw => hok ⟨lines, hx, haw⟩
    refine hl.of_keepsScene hs (hk₀.trans (Course.answer_keepsScene hno)) .rfl ho hn
      (Machine.loads?_eq_none ha fun lines hx h => hno lines hx ?_)
    rw [← hc]
    exact h

/-- When the scene is heard it waits no longer, and its lines are asked for. -/
theorem step_scene (hs : Steady k m c) (hl : Lined h c) {ts : List CellName}
    (hh : m.hears? = some .scene) (ht : c.turns = .scene :: ts) :
    Lined (m :: h) ({ c with turns := ts }.loadScene c.scene) := by
  have hbound {r : LoadRequest} := (Moves.scene hh ht).bound hl.bound (r := r)
  have hnot : .scene ∉ ts := by
    have hnodup := hs.nodup
    rw [ht] at hnodup
    exact (List.nodup_cons.1 hnodup).1
  obtain ⟨phase, version, request, heq, hcase⟩ :=
    Course.loadScene_eq { c with turns := ts } c.scene
  rw [heq] at hbound ⊢
  refine ⟨iff_of_false (fun ho => hnot ?_) (not_overtaken hh), fun _ hlines => ?_,
    fun _ hp hq hv => ?_, hbound, hl.step_early hs, fun ho => absurd ho (not_overtaken hh)⟩
  · rw [show ts = [CellName.index, .scene] from ho]
    simp
  · cases hlines
  · rcases hcase with ⟨rfl, -⟩ | ⟨-, rfl, rfl⟩
    · cases hp
    · rcases hq with hq | hq
      · have hle : c.loadVersion + 1 ≤ c.loadVersion :=
          Nat.le_trans (Nat.le_of_eq hv.symm) (hl.bound (.inl hq))
        exact absurd hle (Nat.not_succ_le_self _)
      · cases hq
        rfl

/-- When the index is heard it has overtaken nothing any more. -/
theorem step_index (hs : Steady k m c) (hl : Lined h c) {ts : List CellName}
    (hh : m.hears? = some .index) (ht : c.turns = .index :: ts)
    (hr : { c with turns := ts }.Runs c.index c') : Lined (m :: h) c' := by
  have hk := hr.keepsScene
  refine hl.of_keepsScene hs hk (by simp [ht]) (iff_of_false (fun ho => ?_) (not_overtaken hh))
    (Machine.not_changesScene (Moves.jump?_of_hears? hh))
    (Machine.loads?_of_answer?_eq_none (Moves.answer?_of_hears? hh))
  have hnot : .index ∉ ts := by
    have hnodup := hs.nodup
    rw [ht] at hnodup
    exact (List.nodup_cons.1 hnodup).1
  have ho' : c'.turns = [.index, .scene] := ho
  rcases hk.turns with hts | ⟨-, hts⟩
  · rw [← show c'.turns = ts from hts, ho'] at hnot
    exact hnot List.mem_cons_self
  · have hlast : ts ++ [CellName.index] = [.index] ++ [.scene] := hts.symm.trans ho'
    simpa using List.append_inj_right' hlast rfl

theorem step (hs : Steady k m c) (hl : Lined h c) (hm : Moves m c c') (_ : Steady k m.step c') :
    Lined (m :: h) c' := by
  cases hm with
  | jump hj hc => exact hl.step_jump hs hj hc
  | answer ha hc hr => exact hl.step_answer hs ha hc hr
  | scene hh ht => exact hl.step_scene hs hh ht
  | index hh ht _ hr => exact hl.step_index hs hh ht hr
  | inner hj ha hh hi =>
    have hk := hi.keepsScene
    have hn := Machine.not_changesScene hj
    exact hl.of_keepsScene hs hk .rfl
      (hl.overtaken_iff hn hh (Course.isOvertaken_of_turns hk.turns)) hn
        (Machine.loads?_of_answer?_eq_none ha)

theorem fresh : Lined [] .fresh := by
  refine ⟨iff_of_false (fun ho => ?_) id, fun _ hl => ?_, fun _ hp => ?_, fun hq => ?_,
    fun ho => ho.elim, fun ho => ho.elim⟩
  · exact absurd (show [] = [CellName.index, .scene] from ho) (List.cons_ne_nil _ _).symm
  · cases hl
  · cases hp
  · exact hq.elim (fun h => absurd h (Array.not_mem_empty _)) fun h => by cases h

end Lined

/-! ### The result -/

/-- The lines that came early are those that were delivered last. -/
theorem delivered_of_cameEarly {h : List (Machine Player Task)} {s : String} (he : CameEarly h s) :
    ∃ lines, Delivered h s lines :=
  he.exists_of_imp fun h => h.1

/-- **Lines of the current scene.** A line that is started is the one at the index among the lines
that were delivered for the current scene, exactly unless the index has overtaken the scene and no
lines of the new scene have come early. -/
theorem line_starts_own_iff {p : Player} (hp : p.Begins) {h : List (Machine Player Task)}
    {m : Machine Player Task} (run : Run HostCall.KeepsPlace ⟨p, []⟩ h m) {line : String}
    (hline : m.line? = some line) :
    StartsOwn h m line ↔ (Overtaken h → CameEarly h m.world.stage.scene.value) := by
  obtain ⟨k, hs⟩ := hp.steady
  obtain ⟨c, hm, hl⟩ := run.invariant (I := Lined) hs .fresh Lined.step
  obtain ⟨-, ⟨ts, ht⟩, lines, hlines, hget⟩ := hm.of_line? hline
  have hscene : c.scene = m.world.stage.scene.value := by rw [hm.course_eq]; rfl
  have hindex : c.index = m.world.stage.index.value := by rw [hm.course_eq]; rfl
  constructor
  · rintro ⟨ls, hd, -⟩ ho
    exact hl.early ho hd
  · intro hearly
    by_cases ho : Overtaken h
    · obtain ⟨ls, hd⟩ := delivered_of_cameEarly (hearly ho)
      refine ⟨ls, hd, ?_⟩
      cases hlines.symm.trans (hl.kept ho hd)
      rw [← hindex]
      exact hget
    · have hnot : .scene ∉ c.turns := fun hmem =>
        ho (hl.overtaken.1 (Course.isOvertaken_of_mem hm.nodup hm.isPlace ht hmem))
      refine ⟨lines, hscene ▸ hl.delivered hnot hlines, ?_⟩
      rw [← hindex]
      exact hget

/-! ### Two lines -/

/-- A host that loads a scene of two lines, goes on to the second one and jumps to another scene
before that line has begun. -/
def hurrying : Machine Player Task :=
  (Player.plain .instant).called
    [.goto "a" 0, .settle, .take, .complete 0 (some ["click", "`old@"]), .settle, .next,
      .goto "b" 1, .runMicrotasks]

theorem run_hurrying (n : Nat) :
    Run HostCall.KeepsPlace ⟨.plain .instant, []⟩ (hurrying.trail n)
      (hurrying.run n) := by
  refine Run.calls .start (fun c hc => ?_) n
  simp only [List.mem_cons, List.not_mem_nil, or_false] at hc
  rcases hc with rfl | rfl | rfl | rfl | rfl | rfl | rfl | rfl <;>
    exact .of_body_eq_nil trivial rfl

/-- The first line belongs to the scene. -/
theorem line_before_jump_starts_own :
    StartsOwn (hurrying.trail 19) (hurrying.run 19) "click" := by
  obtain ⟨hline, ho⟩ : (hurrying.run 19).line? = some "click" ∧
      ¬ Overtaken (hurrying.trail 19) := by decide +kernel
  exact (line_starts_own_iff (begins_plain _) (run_hurrying 19) hline).2 fun h => absurd h ho

/-- The second line is started though its scene is not the current one any more. -/
theorem line_after_jump_not_starts_own :
    Run HostCall.KeepsPlace ⟨.plain .instant, []⟩ (hurrying.trail 32)
        (hurrying.run 32) ∧
      (hurrying.run 32).line? = some "`old@" ∧
        (hurrying.run 32).world.stage.scene.value = "b" ∧
          ¬ StartsOwn (hurrying.trail 32) (hurrying.run 32) "`old@" := by
  -- lines have been delivered for the other scene only
  obtain ⟨hline, hscene, hnone⟩ : (hurrying.run 32).line? = some "`old@" ∧
      (hurrying.run 32).world.stage.scene.value = "b" ∧
      ∀ n ∈ hurrying.trail 32, n.loads?.map Prod.fst ≠ some "b" := by decide +kernel
  refine ⟨run_hurrying 32, hline, hscene, ?_⟩
  rintro ⟨lines, hd, -⟩
  rw [hscene] at hd
  obtain ⟨n, hmem, hn⟩ := hd.exists_mem
  exact hnone n hmem (by rw [hn]; rfl)

end Novella
