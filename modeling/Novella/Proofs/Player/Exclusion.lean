import Novella.Proofs.Player.Tickets

/-!
# One instruction at a time

While an instruction waits to be finished no other one should begin, no line should be started and
the index should stay. Three things could break in: input, a timer, or a delivery of the index that
an earlier instruction of the same line has asked for. Input and timers go by tickets, and so they
finish nothing but what waits. The delivery of the index is not held back: after an instruction that
moves the index the next one begins at once, and if it has to wait the delivery comes before its
end.

## Main definitions

* `Machine.Suspends` — an instruction goes on to wait
* `Machine.upcoming?` — the line that the waiting delivery of the index is going to start

## Main results

* `pending_holds_iff` — an instruction that waits holds the script, unless the delivery of the index
  waits, too
-/

namespace Novella

open Player

/-- The line moves the index itself. -/
def Line.HasSkip (line : String) : Prop := ∃ argument, Line.Has line ⟨"skip", argument⟩

namespace Machine

variable (m : Machine Player Task)

/-- The machine jumps only if neither the scene nor the index waits to be delivered. -/
def JumpsAtRest : Prop :=
  m.jump? ≠ none →
    m.world.stage.scene.scheduled = false ∧ m.world.stage.index.scheduled = false

instance : Decidable m.JumpsAtRest := inferInstanceAs (Decidable (_ → _))

/-- An instruction goes on to wait. -/
def Suspends (t : Ticket) : Prop :=
  t ∈ m.world.live ∧ ∃ x rest, m.agenda = .perform (.conclude t (.pending x)) :: rest

/-- The ticket of the instruction that goes on to wait. -/
def waiting? : Option Ticket :=
  match m.agenda with
  | .perform (.conclude t (.pending _)) :: _ => some t
  | _ => none

theorem suspends_iff {t : Ticket} :
    m.Suspends t ↔ t ∈ m.world.live ∧ m.waiting? = some t := by
  refine and_congr_right fun _ => ⟨fun ⟨x, rest, hag⟩ => by rw [waiting?, hag], fun h => ?_⟩
  unfold waiting? at h
  split at h
  · next u x rest hag =>
    cases h
    exact ⟨x, rest, hag⟩
  · cases h

instance (t : Ticket) : Decidable (m.Suspends t) := decidable_of_iff _ m.suspends_iff.symm

/-- The line that is started when the index is delivered, if it waits. -/
def upcoming? : Option String :=
  if m.world.stage.index.scheduled then
    m.world.lines.bind (·[m.world.stage.index.value.toNat]?)
  else none

end Machine

/-- The script was moved from outside when the instruction had not been finished. -/
def CutOff (h : List (Machine Player Task)) (t : Ticket) : Prop :=
  ∃ n ∈ h, t ∈ n.world.live ∧ (n.jump? ≠ none ∨ n.hears? ≠ none)

/-! ### Instructions and the lines they belong to -/

/-- The instruction under way belongs to the line that was started last. The index waits only if
the line has moved it. -/
structure UnderWay (h : List (Machine Player Task)) (c : Course) : Prop where
  /-- No scene is being loaded. -/
  loaded : c.phase ≠ .loading
  /-- No scene is going to be loaded. -/
  scene : .scene ∉ c.turns
  /-- The line and its instructions. -/
  line : ∃ line, Running h line ∧ (∀ i ∈ c.queue, Line.Has line i) ∧
    (.index ∈ c.turns → Line.HasSkip line)

/-- What a history without jumps in between has to do with its course. -/
structure Paced (h : List (Machine Player Task)) (c : Course) : Prop where
  /-- Tickets are in order. -/
  ordered : c.Ordered
  /-- The scene is delivered before the index. -/
  first : .scene ∈ c.turns → c.turns.head? = some .scene
  /-- The instruction under way belongs to a line. -/
  underWay : c.Busy → UnderWay h c
  /-- Other instructions have been cut off. -/
  cutOff {t : Ticket} : t ∈ c.live → t ≠ c.current → CutOff h t

namespace UnderWay

variable {m : Machine Player Task} {h : List (Machine Player Task)} {c c' : Course}

theorem cons (hu : UnderWay h c) (hm : m.line? = none) : UnderWay (m :: h) c := by
  obtain ⟨line, hr, hq⟩ := hu.line
  exact ⟨hu.loaded, hu.scene, line, .inr ⟨hm, hr⟩, hq⟩

theorem of_eq (hu : UnderWay h c) (hp : c'.phase ≠ .loading) (ht : c'.turns = c.turns)
    (hq : c'.queue = c.queue) : UnderWay h c' := by
  refine ⟨hp, ?_, ?_⟩
  · rw [ht]
    exact hu.scene
  · rw [ht, hq]
    exact hu.line

/-- Whatever follows in a line belongs to the line. -/
theorem of_advances {line : String} (hr : Running h line) (ha : c.Advances c')
    (hcur : c.current ∉ c.live) (hs : .scene ∉ c.turns) (hq : ∀ i ∈ c.queue, Line.Has line i)
    (hi : .index ∈ c.turns → Line.HasSkip line) (hb : c'.Busy) : UnderWay h c' := by
  cases ha with
  | leave _ =>
    obtain ⟨ts, heq, -⟩ := c.moveTo_eq (c.index + 1)
    rw [heq] at hb
    exact absurd hb hcur
  | @dispatch i rest _ hqueue he =>
    have hi₀ : Line.Has line i := hq i (hqueue ▸ List.mem_cons_self)
    have hqueue' := (Course.Advances.dispatch hqueue he).forall_mem_queue hq
    have hk := he.keepsScene
    refine ⟨fun hp => absurd (hk.phase hp) (by simp [Course.begin]), ?_, line, hr, hqueue', ?_⟩
    · rw [hk.mem_turns]
      exact hs
    · cases he with
      | plain => exact hi
      | skip n hskip =>
        exact fun _ => ⟨i.argument, by rw [← hskip]; exact hi₀⟩
      | branch _ _ => exact hi

end UnderWay

namespace Paced

variable {k : Nat} {m : Machine Player Task} {h : List (Machine Player Task)} {c c' : Course}

theorem first_of_queues {ts ts' : List CellName} (hf : .scene ∈ ts → ts.head? = some .scene)
    (hq : Course.Queues .index ts ts') (hm : .scene ∈ ts') : ts'.head? = some .scene := by
  rcases hq with rfl | ⟨-, rfl⟩
  · exact hf hm
  · rcases List.mem_append.1 hm with hm | hm
    · rw [List.head?_append, hf hm]
      rfl
    · cases List.mem_singleton.1 hm

/-- Nothing waits where the machine jumps. -/
theorem turns_eq_nil (hs : Steady k m c) (hj : m.JumpsAtRest) {s : String × UInt64}
    (hjump : m.jump? = some s) : c.turns = [] := by
  obtain ⟨a, d, rest, hag, -⟩ := Machine.jump?_eq_some hjump
  obtain ⟨hscene, hindex⟩ := hj (by simp [hjump])
  refine List.eq_nil_iff_forall_not_mem.2 fun x hx => ?_
  have hp := hs.isPlace hx
  have hw := (hs.waits hag (fun _ h => by cases h) (fun _ _ _ h => by cases h) hp).2 hx
  rcases hp with rfl | rfl
  · cases hscene.symm.trans hw
  · cases hindex.symm.trans hw

/-- An instruction that is not the last one any more has been cut off. -/
theorem step_cutOff (hs : Steady k m c) (hp : Paced h c) (hm : Moves m c c') {t : Ticket}
    (ht : t ∈ c'.live) (hne : t ≠ c'.current) : CutOff (m :: h) t := by
  have hlive : t ∈ c.live := (hm.onward.new ht).resolve_right fun h => hne h.1
  by_cases hout : m.jump? ≠ none ∨ m.hears? ≠ none
  · rw [hs.course_eq] at hlive
    exact ⟨m, List.mem_cons_self, hlive, hout⟩
  · have hcur : t ≠ c.current := by
      rintro rfl
      cases hm with
      | jump hj _ => exact hout (.inl (by simp [hj]))
      | scene hh _ => exact hout (.inr (by simp [hh]))
      | index hh _ _ _ => exact hout (.inr (by simp [hh]))
      | @answer r x c₀ _ _ hr =>
        obtain ⟨lines, phase, ts, heq, -⟩ := c₀.answer_eq r x
        obtain ⟨request, rfl⟩ := Moves.exists_request hr
        rw [heq] at hne
        exact hne rfl
      | inner _ _ _ hi =>
        cases hi with
        | finish _ ha => exact ha.not_mem hp.ordered ht
        | _ => exact hne rfl
    obtain ⟨n, hn, hcut⟩ := hp.cutOff hlive hcur
    exact ⟨n, List.mem_cons_of_mem _ hn, hcut⟩

/-- The script goes on by itself, and what waits stays. -/
theorem of_inner (hp : Paced h c) (hline : m.line? = none) (hi : c.Inner c')
    (hcut : ∀ {t}, t ∈ c'.live → t ≠ c'.current → CutOff (m :: h) t) : Paced (m :: h) c' := by
  have ho := hi.onward.ordered hp.ordered
  have hk := hi.keepsScene
  refine ⟨ho, first_of_queues hp.first hk.turns, fun hb => ?_, hcut⟩
  cases hi with
  | stay => exact (hp.underWay hb).cons hline
  | suspend t _ => exact ((hp.underWay hb).cons hline).of_eq (by simp) rfl rfl
  | spent t _ _ =>
    have hu := (hp.underWay (List.mem_of_mem_erase hb)).cons hline
    exact hu.of_eq hu.loaded rfl rfl
  | take _ =>
    have hu := (hp.underWay hb).cons hline
    exact hu.of_eq hu.loaded rfl rfl
  | finish hcur ha =>
    have hu := (hp.underWay hcur).cons hline
    obtain ⟨line, hr, hq, hskip⟩ := hu.line
    exact .of_advances hr ha hp.ordered.nodup.not_mem_erase hu.scene hq hskip hb

theorem step (hs : Steady k m c) (hp : Paced h c) (hj : m.JumpsAtRest) (hm : Moves m c c')
    (hs' : Steady k m.step c') : Paced (m :: h) c' := by
  have ho := hm.onward.ordered hp.ordered
  have hcut {t : Ticket} : t ∈ c'.live → t ≠ c'.current → CutOff (m :: h) t :=
    hp.step_cutOff hs hm
  have not_busy := hp.ordered.not_busy_interrupt
  cases hm with
  | @jump s i hjump hc =>
    obtain ⟨ts, ts', heq, hts, hts'⟩ := c.jump_eq s i
    rw [turns_eq_nil hs hj hjump] at hts
    have hf : .scene ∈ ts → ts.head? = some .scene := by
      rcases hts with rfl | ⟨-, rfl⟩
      · exact fun hm => absurd hm List.not_mem_nil
      · exact fun _ => rfl
    rw [heq] at ho hcut ⊢
    exact ⟨ho, first_of_queues hf hts', fun hb => absurd hb not_busy, hcut⟩
  | @answer r x c₀ ha hc hr =>
    obtain ⟨lines, phase, ts, heq, hts⟩ := c₀.answer_eq r x
    obtain ⟨request, rfl⟩ := Moves.exists_request hr
    refine ⟨ho, ?_, fun hb => ?_, hcut⟩
    · rw [heq]
      exact first_of_queues hp.first hts
    · -- nobody waits for the answer
      have hn : m.hears? ≠ some .index := by simp [Machine.hears?_of_answer? ha]
      have hb : c.Busy := by
        rw [heq] at hb
        exact hb
      have hu := (hp.underWay hb).cons (Machine.line?_eq_none hn)
      have hsame : Course.answer { c with loadRequest := request } r x =
          { c with loadRequest := request } :=
        Course.answer_of_not_awaits fun haw => hu.loaded haw.2
      rw [hsame]
      exact hu.of_eq hu.loaded rfl rfl
  | @scene ts hh ht =>
    have hnodup := hs.nodup
    rw [ht] at hnodup
    have hnot := (List.nodup_cons.1 hnodup).1
    obtain ⟨phase, version, request, heq, -⟩ := Course.loadScene_eq { c with turns := ts } c.scene
    rw [heq] at ho hcut ⊢
    exact ⟨ho, fun hm => absurd hm hnot, fun hb => absurd hb not_busy, hcut⟩
  | @index ts _ hh ht hl hr =>
    have hnodup := hs.nodup
    rw [ht] at hnodup
    have hscene : CellName.scene ∉ c.turns := fun hm => by
      have hf := hp.first hm
      rw [ht] at hf
      cases hf
    have hscene' : CellName.scene ∉ ts := fun hm => hscene (ht ▸ List.mem_cons_of_mem _ hm)
    refine ⟨ho, fun hm => absurd (hr.keepsScene.mem_turns.1 hm) hscene', fun hb => ?_, hcut⟩
    cases hr with
    | defer hload => exact absurd hload (hp.underWay hb).loaded
    | stop _ _ => exact absurd hb not_busy
    | start hload hline ha =>
      rw [if_neg hload] at hl
      have hr : Running (m :: h) _ := .inl (hl.trans hline)
      refine .of_advances hr ha not_busy hscene' (fun i hi => .direct hi) (fun hm => ?_) hb
      exact absurd hm (List.nodup_cons.1 hnodup).1
  | inner _ _ hh hi => exact hp.of_inner (Machine.line?_eq_none (by simp [hh])) hi hcut

end Paced

/-! ### While an instruction waits -/

/-- Since the first machine the script has been held up. -/
structure Held (m₀ : Machine Player Task) (h : List (Machine Player Task)) (c : Course) : Prop where
  /-- The instruction is still the last one. -/
  generation : c.generation = m₀.world.generation
  /-- The index has stayed. -/
  index : c.index = m₀.world.stage.index.value
  /-- The lines have stayed. -/
  lines : c.lines = m₀.world.lines
  /-- No scene is being loaded. -/
  loaded : c.phase ≠ .loading
  /-- No scene is going to be loaded. -/
  scene : .scene ∉ c.turns
  /-- The index waits only if it has waited from the beginning. -/
  waits : .index ∈ c.turns → m₀.world.stage.index.scheduled = true
  /-- Nothing has happened. -/
  rests : ∀ n ∈ h, n.Rests
  /-- The index has not been heard. -/
  unheard : ∀ n ∈ h, n.hears? ≠ some .index

/-- The script has come to its end. -/
structure Ended (h : List (Machine Player Task)) (c : Course) : Prop where
  /-- No instruction is under way. -/
  not_busy : ¬ c.Busy
  /-- No scene is being loaded. -/
  loaded : c.phase ≠ .loading
  /-- Nothing is going to be delivered. -/
  turns : c.turns = []
  /-- Nothing has happened. -/
  rests : ∀ n ∈ h, n.Rests

/-- What may have happened since an instruction began to wait. -/
inductive Aftermath (m₀ : Machine Player Task) (h : List (Machine Player Task)) (c : Course) : Prop
    where
  /-- Nothing. -/
  | held : Held m₀ h c → Aftermath m₀ h c
  /-- There was no line at the index when it was delivered. -/
  | ended : m₀.upcoming? = none → Ended h c → Aftermath m₀ h c
  /-- The next line was started. -/
  | started : m₀.upcoming? ≠ none → (∃ n ∈ h, n.line? ≠ none) → Aftermath m₀ h c

namespace Held

variable {k : Nat} {m₀ m : Machine Player Task} {h : List (Machine Player Task)} {c c' : Course}

/-- A step that does not touch the script. -/
theorem quiet (hh : Held m₀ h c) (hs : Steady k m c) (hs' : Steady k m.step c')
    (hn : m.hears? ≠ some .index) (hg : c'.generation = c.generation)
    (hlive : ∀ {t}, t ∈ c'.live → t ∈ c.live) (hi : c'.index = c.index) (hl : c'.lines = c.lines)
    (hp : c'.phase ≠ .loading) (ht : c'.turns = c.turns) : Held m₀ (m :: h) c' := by
  have hrests := Machine.rests_of_course hs hs' (Machine.line?_eq_none hn) hlive hi
  refine ⟨hg.trans hh.generation, hi.trans hh.index, hl.trans hh.lines, hp, ?_, ?_,
    List.forall_mem_cons.2 ⟨hrests, hh.rests⟩, List.forall_mem_cons.2 ⟨hn, hh.unheard⟩⟩
  · rw [ht]
    exact hh.scene
  · rw [ht]
    exact hh.waits

theorem step (hh : Held m₀ h c) (hs : Steady k m c) (ho : c.Ordered) (hj : m.jump? = none)
    (hm : Moves m c c') (hs' : Steady k m.step c') (hlive : c.current ∈ c'.live) :
    Aftermath m₀ (m :: h) c' := by
  cases hm with
  | jump hj' _ => cases hj.symm.trans hj'
  | @answer r x c₀ ha hc hr =>
    obtain ⟨request, rfl⟩ := Moves.exists_request hr
    have hn : m.hears? ≠ some .index := by simp [Machine.hears?_of_answer? ha]
    have hsame : Course.answer { c with loadRequest := request } r x =
        { c with loadRequest := request } :=
      Course.answer_of_not_awaits fun haw => hh.loaded haw.2
    rw [hsame] at hs' ⊢
    exact .held (hh.quiet hs hs' hn rfl id rfl rfl hh.loaded rfl)
  | @scene ts hh' ht => exact absurd (ht ▸ List.mem_cons_self) hh.scene
  | @index ts _ hh' ht hl hr =>
    have hwaits := hh.waits (ht ▸ List.mem_cons_self)
    have hup : m₀.upcoming? = m.line? := by
      rw [hl, if_neg hh.loaded, hh.lines, hh.index]
      exact if_pos hwaits
    cases hr with
    | defer hp => exact absurd hp hh.loaded
    | stop hp hline =>
      rw [if_neg hp, hline] at hl
      have hnil : ts = [] := by
        have hnodup := hs.nodup
        rw [ht] at hnodup
        refine List.eq_nil_iff_forall_not_mem.2 fun x hx => ?_
        rcases hs.isPlace (ht ▸ List.mem_cons_of_mem _ hx) with rfl | rfl
        · exact hh.scene (ht ▸ List.mem_cons_of_mem _ hx)
        · exact (List.nodup_cons.1 hnodup).1 hx
      refine .ended (hup.trans hl) ⟨fun hb => ho.not_busy_interrupt hb, by simp, hnil, ?_⟩
      exact List.forall_mem_cons.2 ⟨Machine.rests_of_course hs hs' hl id rfl, hh.rests⟩
    | start hp hline _ =>
      rw [if_neg hp, hline] at hl
      exact .started (by simp [hup, hl]) ⟨m, List.mem_cons_self, by simp [hl]⟩
  | inner _ _ hh' hi =>
    have hn : m.hears? ≠ some .index := by simp [hh']
    cases hi with
    | stay => exact .held (hh.quiet hs hs' hn rfl id rfl rfl hh.loaded rfl)
    | suspend t _ => exact .held (hh.quiet hs hs' hn rfl id rfl rfl (by simp) rfl)
    | spent t _ _ =>
      exact .held (hh.quiet hs hs' hn rfl List.mem_of_mem_erase rfl rfl hh.loaded rfl)
    | finish _ ha => exact absurd hlive (ha.not_mem ho)
    | take _ => exact .held (hh.quiet hs hs' hn rfl id rfl rfl hh.loaded rfl)

end Held

theorem Ended.step {k : Nat} {m : Machine Player Task} {h : List (Machine Player Task)}
    {c c' : Course} (he : Ended h c) (hs : Steady k m c) (hj : m.jump? = none) (hm : Moves m c c')
    (hs' : Steady k m.step c') : Ended (m :: h) c' := by
  have rests (hn : m.hears? ≠ some .index) (hlive : ∀ {t}, t ∈ c'.live → t ∈ c.live)
      (hi : c'.index = c.index) : ∀ n ∈ m :: h, n.Rests :=
    List.forall_mem_cons.2
      ⟨Machine.rests_of_course hs hs' (Machine.line?_eq_none hn) hlive hi, he.rests⟩
  cases hm with
  | jump hj' _ => cases hj.symm.trans hj'
  | @answer r x c₀ ha hc hr =>
    obtain ⟨request, rfl⟩ := Moves.exists_request hr
    have hn : m.hears? ≠ some .index := by simp [Machine.hears?_of_answer? ha]
    have hsame : Course.answer { c with loadRequest := request } r x =
        { c with loadRequest := request } :=
      Course.answer_of_not_awaits fun haw => he.loaded haw.2
    rw [hsame] at rests ⊢
    exact ⟨he.not_busy, he.loaded, he.turns, rests hn id rfl⟩
  | scene _ ht => cases he.turns.symm.trans ht
  | index _ ht _ _ => cases he.turns.symm.trans ht
  | inner _ _ hh hi =>
    have hn : m.hears? ≠ some .index := by simp [hh]
    cases hi with
    | stay => exact ⟨he.not_busy, he.loaded, he.turns, rests hn id rfl⟩
    | suspend t _ => exact ⟨he.not_busy, by simp, he.turns, rests hn id rfl⟩
    | spent t _ _ =>
      exact ⟨fun hb => he.not_busy (List.mem_of_mem_erase hb), he.loaded, he.turns,
        rests hn List.mem_of_mem_erase rfl⟩
    | finish hb _ => exact absurd hb he.not_busy
    | take _ => exact ⟨he.not_busy, he.loaded, he.turns, rests hn id rfl⟩

/-! ### The result -/

/-- What a run without jumps may have come to since an instruction began to wait. -/
theorem Held.aftermath {k : Nat} {m n : Machine Player Task} {h : List (Machine Player Task)}
    {c₀ : Course} (hheld : Held m [] c₀) (hs : Steady k m c₀) (ho : c₀.Ordered)
    (run : Run HostCall.KeepsPlace m h n) (hj : ∀ x ∈ h, x.jump? = none)
    (hlive : .instruction m.world.generation ∈ n.world.live) : ∃ c, Aftermath m h c := by
  let I (h : List (Machine Player Task)) (c : Course) : Prop :=
    (∀ x ∈ h, x.jump? = none) → c.Ordered ∧ m.world.generation ≤ c.generation ∧
      (.instruction m.world.generation ∈ c.live → Aftermath m h c)
  have start : I [] c₀ := fun _ => ⟨ho, Nat.le_of_eq hheld.generation.symm, fun _ => .held hheld⟩
  have step {h : List (Machine Player Task)} {x : Machine Player Task} {c c' : Course}
      (hs : Steady k x c) (hi : I h c) (hm : Moves x c c') (hs' : Steady k x.step c') :
      I (x :: h) c' := by
    intro hall
    obtain ⟨hj, hall⟩ := List.forall_mem_cons.1 hall
    obtain ⟨ho, hle, hi⟩ := hi hall
    refine ⟨hm.onward.ordered ho, Nat.le_trans hle hm.onward.le, fun hlive => ?_⟩
    cases hi (hm.onward.ne_current hlive hle rfl) with
    | held hheld =>
      rw [← hheld.generation] at hlive
      exact hheld.step hs ho hj hm hs' hlive
    | ended hup he => exact .ended hup (he.step hs hj hm hs')
    | started hup hl =>
      obtain ⟨y, hy, hl⟩ := hl
      exact .started hup ⟨y, List.mem_cons_of_mem _ hy, hl⟩
  obtain ⟨c, hn, hi⟩ := run.invariant hs start step
  refine ⟨c, (hi hj).2.2 ?_⟩
  rw [hn.course_eq]
  exact hlive

/-- In the aftermath nothing has happened, exactly unless the next line has been started. -/
theorem Aftermath.rests_iff {m : Machine Player Task} {h : List (Machine Player Task)} {c : Course}
    (ha : Aftermath m h c) :
    (∀ x ∈ h, x.Rests) ↔ m.upcoming? = none ∨ ∀ x ∈ h, x.hears? ≠ some .index := by
  cases ha with
  | held hh => exact iff_of_true hh.rests (.inr hh.unheard)
  | ended hup he => exact iff_of_true he.rests (.inl hup)
  | started hup hl =>
    obtain ⟨x, hx, hl⟩ := hl
    refine iff_of_false (fun hr => hl (hr x hx).line) ?_
    rintro (hn | hn)
    · exact hup hn
    · exact hl (Machine.line?_eq_none (hn x hx))

theorem Paced.fresh : Paced [] .fresh :=
  ⟨⟨.nil, fun h => absurd h List.not_mem_nil⟩, fun h => absurd h List.not_mem_nil,
    fun h => absurd h List.not_mem_nil, fun h => absurd h List.not_mem_nil⟩

/-- **One instruction at a time.** From when an instruction begins to wait until it is finished
nothing else begins and the index stays, exactly unless a delivery of the index has waited from the
beginning and has come to a line. It waits only if the line moves the index itself. This takes a run
that jumps at rest only, and an instruction that was not cut off before it began to wait. -/
theorem pending_holds_iff {p : Player} (hp : p.Begins) {h : List (Machine Player Task)}
    {m : Machine Player Task} (run : Run HostCall.KeepsPlace ⟨p, []⟩ h m)
    (hrest : ∀ n ∈ h, n.JumpsAtRest) {t : Ticket} (ht : m.Suspends t)
    {h' : List (Machine Player Task)} {n : Machine Player Task}
    (run' : Run HostCall.KeepsPlace m h' n) (hj : ∀ x ∈ h', x.jump? = none)
    (hlive : t ∈ n.world.live) :
    (t ≠ .instruction m.world.generation → CutOff h t) ∧
      (t = .instruction m.world.generation →
        ((∀ x ∈ h', x.Rests) ↔ m.upcoming? = none ∨ ∀ x ∈ h', x.hears? ≠ some .index) ∧
          (m.upcoming? ≠ none → ∃ line, Running h line ∧ Line.HasSkip line)) := by
  obtain ⟨k, hs⟩ := hp.steady
  obtain ⟨c, hm, hpaced⟩ := run.invariant
    (I := fun h c => (∀ n ∈ h, n.JumpsAtRest) → Paced h c) hs (fun _ => .fresh)
    fun hs hi hm hs' hall =>
      have hall := List.forall_mem_cons.1 hall
      Paced.step hs (hi hall.2) hall.1 hm hs'
  have hpaced := hpaced hrest
  obtain ⟨hmem, x, rest, hag⟩ := ht
  have hcourse := hm.course_eq
  have hcur : c.current = .instruction m.world.generation := by rw [hcourse]; rfl
  have hlive₀ : t ∈ c.live := by rw [hcourse]; exact hmem
  have hw {x : CellName} (hx : x.IsPlace) :
      (m.world.stage.cell x).scheduled = true ↔ x ∈ c.turns :=
    hm.waits hag (fun _ h => by cases h) (fun _ _ _ h => by cases h) hx
  refine ⟨fun hne => hpaced.cutOff hlive₀ (hcur ▸ hne), fun heq => ?_⟩
  subst heq
  have hu := hpaced.underWay (show c.current ∈ c.live by rw [hcur]; exact hlive₀)
  refine ⟨?_, fun hup => ?_⟩
  · have hheld : Held m [] c := by
      refine ⟨?_, ?_, ?_, hu.loaded, hu.scene, (hw (.inr rfl)).2, ?_, ?_⟩
      · rw [hcourse]; rfl
      · rw [hcourse]; rfl
      · rw [hcourse]; rfl
      · exact fun x hx => absurd hx List.not_mem_nil
      · exact fun x hx => absurd hx List.not_mem_nil
    obtain ⟨c', ha⟩ := hheld.aftermath hm hpaced.ordered run' hj hlive
    exact ha.rests_iff
  · obtain ⟨line, hr, -, hskip⟩ := hu.line
    refine ⟨line, hr, hskip ((hw (.inr rfl)).1 ?_)⟩
    unfold Machine.upcoming? at hup
    split at hup
    · next hsch => exact hsch
    · exact absurd rfl hup

/-! ### Two instructions that wait -/

/-- A host that has a scene played. -/
def playing (lines : List String) : Machine Player Task :=
  (Player.plain .instant).called
    [.goto "a" 0, .settle, .take, .complete 0 (some lines), .settle]

theorem run_playing (lines : List String) (n : Nat) :
    Run HostCall.KeepsPlace ⟨.plain .instant, []⟩ ((playing lines).trail n)
      ((playing lines).run n) := by
  refine Run.calls .start (fun c hc => ?_) n
  simp only [List.mem_cons, List.not_mem_nil, or_false] at hc
  rcases hc with rfl | rfl | rfl | rfl | rfl <;> exact .of_body_eq_nil trivial rfl

/-- A pause holds the script. -/
theorem click_holds : ((playing ["click"]).run 20).Suspends (.instruction 4) ∧
    ∀ x ∈ ((playing ["click"]).run 20).trail 4, x.Rests := by
  obtain ⟨ht, hrest, hjump, hkept, hticket, hup⟩ :
      ((playing ["click"]).run 20).Suspends (.instruction 4) ∧
        (∀ n ∈ (playing ["click"]).trail 20, n.JumpsAtRest) ∧
        (∀ x ∈ ((playing ["click"]).run 20).trail 4, x.jump? = none) ∧
        .instruction 4 ∈ (((playing ["click"]).run 20).run 4).world.live ∧
        .instruction 4 = Ticket.instruction ((playing ["click"]).run 20).world.generation ∧
        ((playing ["click"]).run 20).upcoming? = none := by decide +kernel
  have hall := pending_holds_iff (begins_plain _) (run_playing ["click"] 20) hrest ht
    (Run.steps_self _ 4) hjump hkept
  exact ⟨ht, (hall.2 hticket).1.2 (.inl hup)⟩

/-- The page break at the end of a line that moves the index. -/
def skipping : Machine Player Task := (playing ["skip 2\\", "`one", "`two@"]).run 21

/-- It does not hold the script: another line is started before it is finished. -/
theorem page_break_after_skip_not_holds :
    Run HostCall.KeepsPlace ⟨.plain .instant, []⟩
        ((playing ["skip 2\\", "`one", "`two@"]).trail 21) skipping ∧
      (∀ n ∈ (playing ["skip 2\\", "`one", "`two@"]).trail 21, n.JumpsAtRest) ∧
      skipping.Suspends (.instruction skipping.world.generation) ∧
      Run HostCall.KeepsPlace skipping (skipping.trail 4) (skipping.run 4) ∧
      (∀ x ∈ skipping.trail 4, x.jump? = none) ∧
      .instruction skipping.world.generation ∈ (skipping.run 4).world.live ∧
      ¬ ∀ x ∈ skipping.trail 4, x.Rests := by
  obtain ⟨hrest, ht, hjump, hkept, hline⟩ :
      (∀ n ∈ (playing ["skip 2\\", "`one", "`two@"]).trail 21, n.JumpsAtRest) ∧
        skipping.Suspends (.instruction skipping.world.generation) ∧
        (∀ x ∈ skipping.trail 4, x.jump? = none) ∧
        .instruction skipping.world.generation ∈ (skipping.run 4).world.live ∧
        (skipping.trail 4).any (fun x => x.line? = some "`one") = true := by decide +kernel
  refine ⟨run_playing _ 21, hrest, ht, Run.steps_self _ 4, hjump, hkept, fun hall => ?_⟩
  obtain ⟨x, hx, hl⟩ := List.any_eq_true.1 hline
  rw [(hall x hx).line] at hl
  cases hl

end Novella
