import Novella.Proofs.Player.Tickets
import Novella.Proofs.Reveal.SilentTexts

/-!
# Interruptions

A jump drops the line that is running, and nothing of this line should be heard of afterwards. For
the script this is so: the rest of the line is gone, and the ticket of the instruction that was
running will not be the current one any more, so whoever gives it back late changes nothing.

A text is told to stop if it is the active handler. But a text becomes the active handler only when
it has come to its first pause, and input sets it running again whatever its mode. So if its own
signal is what makes the host jump, a text that has just begun, or that is just being shown to the
end of its stretch, goes on as if nothing had happened.

## Main definitions

* `Drops` — nothing of the interrupted line is left
* `Machine.Silences` — a jump that tells a text to stop
* `Machine.TakesOn` — a text goes on next
* `Machine.Says` — a signal is sent
* `Reveal.Idles` — what may become of a text that does not act

## Main results

* `interruption_final` — an interruption is final for the script, and for texts that are told to
  stop
-/

namespace Novella

open Player

/-- Nothing is left of the line that was interrupted before the history began, nor of its
instruction with this generation. -/
structure Drops (g : Nat) (h : List (Machine Player Task)) (n : Machine Player Task) : Prop where
  /-- All that waits belongs to a line that was started later. -/
  queue : ∀ i ∈ n.world.queue, ∃ line, Running h line ∧ Line.Has line i
  /-- Until a line is started no instruction begins, and only jumps move the index. -/
  idle : (∀ x ∈ h, x.line? = none) → ∀ x ∈ h, ¬ x.Dispatches ∧ (x.jump? = none → x.Rests)
  /-- When the instruction is given back nothing comes of it. -/
  spent : ∀ x ∈ h, .instruction g ∈ x.world.live → .instruction g ∉ x.step.world.live → x.Rests

namespace Player

/-- Who hears what a player signals. -/
def outside (p : Player) : Hooks Receiver × Book × Array Listener := (p.hooks, p.book, p.listeners)

/-- The signal is sent to those who hear the player. -/
def Sends (p : Player) (s : Signal) (q : Player) : Prop :=
  ∃ x : Player, x.outside = p.outside ∧ q = (x.emit s).1

end Player

namespace Machine

variable (m : Machine Player Task)

/-- A jump at this point tells the text to stop, and nothing sets it running again. -/
def Silences (r : Nat) : Prop :=
  m.world.active = some (.reveal r) ∧ .perform (.reveal r .run) ∉ m.agenda

instance (r : Nat) : Decidable (m.Silences r) := inferInstanceAs (Decidable (_ ∧ _))

/-- The text goes on next: it is set running, it runs and its last signal is over, or it is at a
pause and is given input. -/
def TakesOn (r : Nat) : Prop :=
  (∃ rest, m.agenda = .perform (.reveal r .run) :: rest) ∨
    ∃ v, m.world.reveals[r]? = some v ∧
      (v.mode = .running ∧ (∃ rest, m.agenda = .perform (.reveal r .resume) :: rest) ∨
        v.mode = .awaitingInput ∧ m.Nudges r)

/-- The signal is sent next. -/
def Says (s : Signal) : Prop := m.world.Sends s m.step.world

end Machine

namespace Reveal

/-- The signal that a text sends when it goes on. -/
def signal? (v : Reveal) : Option Signal :=
  match scan v.delay v.rest with
  | .lineBreak _ => some (.text "\n")
  | .pageBreak _ => some .page
  | .emit token _ => some (.text (String.ofList token))
  | _ => none

/-- As long as a text does not act it is like this, or it has been told to stop. -/
structure Idles (v w : Reveal) : Prop where
  /-- What is still to be shown stays. -/
  rest : w.rest = v.rest
  /-- The time for a character stays. -/
  delay : w.delay = v.delay
  /-- The mode stays unless the text is told to stop. -/
  mode : w.mode = v.mode ∨ w.mode = .done

namespace Idles

variable {v w : Reveal}

theorem refl (v : Reveal) : v.Idles v := ⟨rfl, rfl, .inl rfl⟩

theorem lasts (v : Reveal) : Lasts v.Idles :=
  ⟨fun _ h => ⟨h.rest, h.delay, h.mode⟩, fun h => ⟨h.rest, h.delay, .inr rfl⟩⟩

/-- What it is going to say stays, too. -/
theorem signal? (h : v.Idles w) : w.signal? = v.signal? := by
  unfold Reveal.signal?
  rw [h.rest, h.delay]

end Idles

end Reveal

/-! ### The script -/

/-- What a history since an interruption has to do with its course. -/
structure Interrupted (g : Nat) (h : List (Machine Player Task)) (c : Course) : Prop where
  /-- Tickets are in order. -/
  ordered : c.Ordered
  /-- The interrupted instruction is an old one. -/
  past : g < c.generation
  /-- All that waits belongs to the line that was started last. -/
  queue : c.queue = [] ∨ ∃ line, Running h line ∧ ∀ i ∈ c.queue, Line.Has line i
  /-- Until a line is started nothing is under way. -/
  idle : (∀ x ∈ h, x.line? = none) →
    ¬ c.Busy ∧ ∀ x ∈ h, ¬ x.Dispatches ∧ (x.jump? = none → x.Rests)
  /-- When the instruction is given back nothing comes of it. -/
  spent : ∀ x ∈ h, .instruction g ∈ x.world.live → .instruction g ∉ x.step.world.live → x.Rests

namespace Interrupted

variable {k g : Nat} {m : Machine Player Task} {h : List (Machine Player Task)} {c c' : Course}

theorem start (ho : c.Ordered) (hg : g < c.generation) (hq : c.queue = []) (hb : ¬ c.Busy) :
    Interrupted g [] c :=
  ⟨ho, hg, .inl hq, fun _ => ⟨hb, fun _ hx => absurd hx List.not_mem_nil⟩,
    fun _ hx => absurd hx List.not_mem_nil⟩

/-- What waits goes on to belong to its line. -/
theorem step_queue (hi : Interrupted g h c) (hm : Moves m c c') :
    c'.queue = [] ∨ ∃ line, Running (m :: h) line ∧ ∀ i ∈ c'.queue, Line.Has line i := by
  have stays (hl : m.line? = none) (hq : c'.queue = c.queue) : c'.queue = [] ∨
      ∃ line, Running (m :: h) line ∧ ∀ i ∈ c'.queue, Line.Has line i := by
    rw [hq]
    rcases hi.queue with hq | ⟨line, hr, hq⟩
    · exact .inl hq
    · exact .inr ⟨line, .inr ⟨hl, hr⟩, hq⟩
  cases hm with
  | @jump s i _ _ =>
    obtain ⟨ts, ts', heq, -⟩ := c.jump_eq s i
    rw [heq]
    exact .inl rfl
  | @answer r x c₀ ha _ hr =>
    have hn : m.hears? ≠ some .index := by simp [Machine.hears?_of_answer? ha]
    obtain ⟨lines, phase, ts, heq, -⟩ := c₀.answer_eq r x
    obtain ⟨request, rfl⟩ := Moves.exists_request hr
    refine stays (Machine.line?_eq_none hn) ?_
    rw [heq]
  | @scene ts _ _ =>
    obtain ⟨phase, version, request, heq, -⟩ := Course.loadScene_eq { c with turns := ts } c.scene
    rw [heq]
    exact .inl rfl
  | index _ _ hl hr =>
    cases hr with
    | defer hp => exact stays (hl.trans (if_pos hp)) rfl
    | stop _ _ => exact .inl rfl
    | start hp hline ha =>
      rw [if_neg hp] at hl
      exact .inr ⟨_, .inl (hl.trans hline), ha.forall_mem_queue fun i hi => .direct hi⟩
  | inner _ _ hh hinner =>
    have hl : m.line? = none := Machine.line?_eq_none (by simp [hh])
    cases hinner with
    | finish _ ha =>
      rcases hi.queue with hq | ⟨line, hr, hq⟩
      · exact .inl (ha.queue_eq_nil hq)
      · exact .inr ⟨line, .inr ⟨hl, hr⟩, ha.forall_mem_queue hq⟩
    | _ => exact stays hl rfl

/-- Where nothing is under way, only the start of a line begins anything. -/
theorem step_idle (hs : Steady k m c) (ho : c.Ordered) (hb : ¬ c.Busy) (hm : Moves m c c')
    (hs' : Steady k m.step c') (hl : m.line? = none) :
    ¬ c'.Busy ∧ ¬ m.Dispatches ∧ (m.jump? = none → m.Rests) := by
  have quiet (hb' : ¬ c'.Busy) (hlive : ∀ {t}, t ∈ c'.live → t ∈ c.live) (hi : c'.index = c.index) :
      ¬ c'.Busy ∧ ¬ m.Dispatches ∧ (m.jump? = none → m.Rests) := by
    have hr := Machine.rests_of_course hs hs' hl hlive hi
    exact ⟨hb', hr.not_dispatches, fun _ => hr⟩
  cases hm with
  | @jump s i hj _ =>
    obtain ⟨ts, ts', heq, -⟩ := c.jump_eq s i
    rw [heq] at hs' ⊢
    have hn := Machine.not_dispatches_of_course hs hs' id
    exact ⟨ho.not_busy_interrupt, hn, fun hj' => by cases hj.symm.trans hj'⟩
  | @answer r x c₀ _ _ hr =>
    obtain ⟨lines, phase, ts, heq, -⟩ := c₀.answer_eq r x
    obtain ⟨request, rfl⟩ := Moves.exists_request hr
    rw [heq] at quiet ⊢
    exact quiet hb id rfl
  | @scene ts _ _ =>
    obtain ⟨phase, version, request, heq, -⟩ := Course.loadScene_eq { c with turns := ts } c.scene
    rw [heq] at quiet ⊢
    exact quiet ho.not_busy_interrupt id rfl
  | index _ _ hl' hr =>
    cases hr with
    | defer _ => exact quiet hb id rfl
    | stop _ _ => exact quiet ho.not_busy_interrupt id rfl
    | start hp hline _ =>
      rw [if_neg hp, hline] at hl'
      cases hl.symm.trans hl'
  | inner _ _ _ hinner =>
    cases hinner with
    | finish hb' _ => exact absurd hb' hb
    | spent t _ _ =>
      exact quiet (fun hm => hb (List.mem_of_mem_erase hm)) List.mem_of_mem_erase rfl
    | _ => exact quiet hb id rfl

/-- An old ticket is given back and nothing else happens. -/
theorem step_spent (hs : Steady k m c) (hi : Interrupted g h c) (hm : Moves m c c')
    (hs' : Steady k m.step c') (ht : .instruction g ∈ c.live) (hn : .instruction g ∉ c'.live) :
    m.Rests := by
  cases hm with
  | @jump s i _ _ =>
    obtain ⟨ts, ts', heq, -⟩ := c.jump_eq s i
    rw [heq] at hn
    exact absurd ht hn
  | @answer r x c₀ _ _ hr =>
    obtain ⟨lines, phase, ts, heq, -⟩ := c₀.answer_eq r x
    obtain ⟨request, rfl⟩ := Moves.exists_request hr
    rw [heq] at hn
    exact absurd ht hn
  | @scene ts _ _ =>
    obtain ⟨phase, version, request, heq, -⟩ := Course.loadScene_eq { c with turns := ts } c.scene
    rw [heq] at hn
    exact absurd ht hn
  | index _ _ _ hr =>
    cases hr with
    | start _ _ ha => exact absurd (ha.mem_live ht) hn
    | _ => exact absurd ht hn
  | inner _ _ hh hinner =>
    have hl : m.line? = none := Machine.line?_eq_none (by simp [hh])
    cases hinner with
    | spent t _ _ => exact Machine.rests_of_course hs hs' hl List.mem_of_mem_erase rfl
    | finish _ ha =>
      -- the ticket that is given back is the current one, and not the old one
      have hne : Ticket.instruction g ≠ .instruction c.generation := fun he => by
        cases he
        exact absurd hi.past (Nat.lt_irrefl _)
      exact absurd (ha.mem_live ((List.mem_erase_of_ne hne).2 ht)) hn
    | _ => exact absurd ht hn

theorem step (hs : Steady k m c) (hi : Interrupted g h c) (hm : Moves m c c')
    (hs' : Steady k m.step c') : Interrupted g (m :: h) c' := by
  refine ⟨hm.onward.ordered hi.ordered, Nat.lt_of_lt_of_le hi.past hm.onward.le, hi.step_queue hm,
    fun hall => ?_, List.forall_mem_cons.2 ⟨fun ht hn => ?_, hi.spent⟩⟩
  · obtain ⟨hl, hall⟩ := List.forall_mem_cons.1 hall
    obtain ⟨hb, hrest⟩ := hi.idle hall
    obtain ⟨hb', hm'⟩ := step_idle hs hi.ordered hb hm hs' hl
    exact ⟨hb', List.forall_mem_cons.2 ⟨hm', hrest⟩⟩
  · refine hi.step_spent hs hm hs' ?_ ?_
    · rw [hs.course_eq]
      exact ht
    · rw [hs'.course_eq]
      exact hn

theorem drops (hs : Steady k m c) (hi : Interrupted g h c) : Drops g h m := by
  refine ⟨fun i hmem => ?_, fun hall => (hi.idle hall).2, hi.spent⟩
  have hq : i ∈ c.queue := by
    rw [hs.course_eq]
    exact hmem
  rcases hi.queue with hn | ⟨line, hr, hall⟩
  · exact absurd (hn ▸ hq) List.not_mem_nil
  · exact ⟨line, hr, hall i hq⟩

end Interrupted

/-- After a jump nothing of the line is left in any run. -/
theorem drops_of_jump {k : Nat} {m n : Machine Player Task} {c : Course} (hs : Steady k m c)
    (ho : c.Ordered) {s : String × UInt64} (hj : m.jump? = some s)
    {h : List (Machine Player Task)} (run : Run HostCall.KeepsPlace m.step h n) :
    Drops m.world.generation h n := by
  obtain ⟨c', hm, hs'⟩ := hs.step
  have hstart : Interrupted m.world.generation [] c' := by
    have ho' := hm.onward.ordered ho
    cases hm with
    | @jump s i _ hc =>
      obtain ⟨ts, ts', heq, -⟩ := c.jump_eq s i
      rw [heq] at ho' ⊢
      have hg : m.world.generation = c.generation := congrArg Course.generation hc
      refine .start ho' ?_ rfl ho.not_busy_interrupt
      rw [hg]
      exact Nat.lt_succ_self _
    | answer ha _ _ => cases (Moves.jump?_of_answer? ha).symm.trans hj
    | scene hh _ => cases (Moves.jump?_of_hears? hh).symm.trans hj
    | index hh _ _ _ => cases (Moves.jump?_of_hears? hh).symm.trans hj
    | inner hn _ _ _ => cases hn.symm.trans hj
  obtain ⟨c'', hn, hi⟩ := run.invariant hs' hstart fun hs hi hm hs' => hi.step hs hm hs'
  exact hi.drops hn

/-! ### Texts -/

namespace Player

variable {p : Player} {r : Nat} {v : Reveal}

/-- An interruption stops the text that is the active handler. -/
theorem reveals_interrupt (ha : p.active = some (.reveal r)) (hv : p.reveals[r]? = some v) :
    p.interrupt.reveals[r]? = some { v with mode := .done, timer := none } := by
  have hstop (q : Player) (mode : Reveal.Mode) : (q.stopReveal r v mode).reveals =
      q.reveals.modify r (fun v => { v with mode, timer := none }) := by
    unfold stopReveal
    split <;> rfl
  unfold interrupt
  simp only [ha, cancelHandler, hv]
  rw [hstop, Array.getElem?_modify, if_pos rfl, hv]
  rfl

theorem reveals_goto (p : Player) (s : String) (i : UInt64) :
    (p.goto s i).reveals = p.interrupt.reveals := by
  unfold goto
  dsimp only
  split
  · rfl
  · split <;> rfl

theorem outside_trace (p : Player) (c : LogCategory) (l : LogLevel) (t : String) :
    (p.trace c l t).outside = p.outside := by
  rcases p.trace_eq c l t with h | ⟨e, h⟩ <;> rw [h]
  rfl

theorem Sends.of_outside {q x : Player} {s : Signal} (h : q.Sends s x)
    (hq : q.outside = p.outside) : p.Sends s x := by
  obtain ⟨y, hy, hx⟩ := h
  exact ⟨y, hy.trans hq, hx⟩

/-- A text that goes on sends the signal that comes next. -/
theorem sends_proceed {s : Signal} (hs : v.signal? = some s) : p.Sends s (p.proceed r v).1 := by
  unfold Reveal.signal? at hs
  unfold Player.proceed
  dsimp only
  split at hs
  · next rest hscan =>
    cases hs
    rw [hscan]
    refine ⟨_, ?_, rfl⟩
    exact outside_trace ..
  · next rest hscan =>
    cases hs
    rw [hscan]
    refine ⟨_, ?_, rfl⟩
    exact outside_trace ..
  · next token rest hscan =>
    cases hs
    rw [hscan]
    exact ⟨p.modifyReveal r fun v => { v with rest, mode := .running }, rfl, rfl⟩
  · cases hs

/-- So does one that is set running. -/
theorem sends_runReveal (hv : p.reveals[r]? = some v) {s : Signal} (hs : v.signal? = some s) :
    p.Sends s (p.runReveal r).1 := by
  have hr : (p.modifyReveal r fun v => { v with mode := .running }).reveals[r]? =
      some { v with mode := .running } := by
    rw [modifyReveal, Array.getElem?_modify, if_pos rfl, hv]
    rfl
  have hsend :
      (p.modifyReveal r fun v => { v with mode := .running }).Sends s (p.runReveal r).1 := by
    simp only [runReveal, hr]
    exact sends_proceed (v := { v with mode := .running }) hs
  exact hsend.of_outside rfl

/-- And so does one whose pause is ended by input. -/
theorem sends_next (ha : p.active = some (.reveal r)) (hv : p.reveals[r]? = some v)
    (hm : v.mode = .awaitingInput) {s : Signal} (hs : v.signal? = some s) : p.Sends s p.next.1 := by
  have hr : (p.modifyReveal r fun v => { v with holds := v.holds + 1 }).reveals[r]? =
      some { v with holds := v.holds + 1 } := by
    rw [modifyReveal, Array.getElem?_modify, if_pos rfl, hv]
    rfl
  have hsend : (p.modifyReveal r fun v => { v with holds := v.holds + 1 }).Sends s p.next.1 := by
    simp only [next, ha, advanceHandler, hv, keeping, nudgeReveal, hm]
    exact sends_runReveal hr hs
  exact hsend.of_outside rfl

end Player

namespace Machine

variable {m : Machine Player Task} {s : String × UInt64} {r : Nat} {v : Reveal}

/-- A jump interrupts, and then its caller is told that it is over. -/
theorem step_jump (hj : m.jump? = some s) (ha : m.world.active = some (.reveal r))
    (hv : m.world.reveals[r]? = some v) :
    m.step.world.reveals[r]? = some { v with mode := .done, timer := none } ∧
      ∃ a d rest, m.agenda = .perform (.call a d) :: rest ∧
        m.step.agenda = .perform (.report a .none) :: rest := by
  obtain ⟨p, agenda⟩ := m
  obtain ⟨a, d, rest, rfl, rfl | ⟨x, w, rfl, -⟩⟩ := jump?_eq_some hj
  · refine ⟨?_, a, _, rest, rfl, rfl⟩
    change (p.goto _ _).reveals[r]? = _
    rw [reveals_goto]
    exact reveals_interrupt ha hv
  · refine ⟨?_, a, _, rest, rfl, rfl⟩
    change ((p.present x w).goto _ _).reveals[r]? = _
    rw [reveals_goto]
    exact reveals_interrupt (p := p.present x w) ha hv

/-- A jump is no act of a text. -/
theorem voice?_of_jump? (hj : m.jump? = some s) : m.voice? = none := by
  obtain ⟨a, d, rest, hag, rfl | ⟨x, w, rfl, -⟩⟩ := jump?_eq_some hj <;> simp [voice?, hag]

/-- A text that is told to stop is over. -/
theorem Silences.hushed (h : m.Silences r) (hj : m.jump? = some s)
    (hv : m.world.reveals[r]? = some v) : Hushed (·.mode = .done) r m.step := by
  obtain ⟨hr, a, d, rest, hag, hag'⟩ := step_jump hj h.1 hv
  refine ⟨⟨Reveal.lasts_done, _, hr, rfl⟩, .inl, fun hm => h.2 ?_⟩
  rw [hag'] at hm
  rw [hag]
  rcases List.mem_cons.1 hm with he | hm
  · cases he
  · exact List.mem_cons_of_mem _ hm

/-- A text that goes on says what comes next. -/
theorem TakesOn.says (h : m.TakesOn r) {w : Reveal} (hw : m.world.reveals[r]? = some w) {x : Signal}
    (hx : w.signal? = some x) : m.Says x := by
  obtain ⟨p, agenda⟩ := m
  have hw : p.reveals[r]? = some w := hw
  unfold Says
  rcases h with ⟨rest, rfl⟩ | ⟨v, hv, h⟩
  · rw [Steady.step_perform]
    simp only [Player.perform, Player.actReveal, hw]
    exact sends_runReveal hw hx
  · cases hw.symm.trans hv
    rcases h with ⟨hm, rest, rfl⟩ | ⟨hm, ⟨a, rest, rfl⟩, hact⟩
    · rw [Steady.step_perform]
      simp only [Player.perform, Player.actReveal, hw, if_pos hm]
      exact sends_proceed hx
    · exact sends_next hact hw hm hx

end Machine

/-! ### The result -/

/-- **Interruptions are final** for the script: in any run after a jump nothing of the line that was
running is left. A text stays silent if it was the active handler, unless input has just set it
running, and if it was at a pause, until it is given input. Otherwise the jump makes no difference
to it: if it has not been told to stop before it goes on, it says what it was going to say. -/
theorem interruption_final {p : Player} (hp : p.Begins) {h₀ : List (Machine Player Task)}
    {m : Machine Player Task} (run : Run HostCall.KeepsPlace ⟨p, []⟩ h₀ m) {s : String × UInt64}
    (hj : m.jump? = some s) {h : List (Machine Player Task)} {n : Machine Player Task}
    (run' : Run HostCall.KeepsPlace m.step h n) :
    Drops m.world.generation h n ∧ ∀ r v, m.world.reveals[r]? = some v →
      (m.Silences r → ∀ x ∈ h, x.voice? = some r → x.Stalls) ∧
      (v.mode.IsQuiet → .perform (.reveal r .run) ∉ m.agenda → (∀ x ∈ h, ¬ x.Nudges r) →
        ∀ x ∈ h, x.voice? = some r → x.Stalls) ∧
      ((∀ x ∈ h, x.voice? ≠ some r) → n.TakesOn r → ∀ x, v.signal? = some x → n.Says x) := by
  obtain ⟨k, hs⟩ := hp.steady
  obtain ⟨c, hm, ho⟩ := run.invariant (I := fun _ c => c.Ordered) hs
    ⟨.nil, fun h => absurd h List.not_mem_nil⟩ fun _ ho hm _ => hm.onward.ordered ho
  obtain ⟨c', -, hs'⟩ := hm.step
  have hvoice (r : Nat) : m.voice? ≠ some r := by simp [Machine.voice?_of_jump? hj]
  refine ⟨drops_of_jump hm ho hj run', fun r v hv => ⟨fun hsil => ?_, fun hq hrun hx => ?_,
    fun hx htake x hsig => ?_⟩⟩
  · have hh := hsil.hushed hj hv
    exact (run'.hushed hs' hh fun _ _ _ _ h => h).2
  · have hh : Hushed (·.mode.IsQuiet) r m := ⟨⟨Reveal.lasts_isQuiet, v, hv, hq⟩, id, hrun⟩
    have hh' := hh.step hm.tame fun hn => absurd hn.voice? (hvoice r)
    exact (run'.hushed hs' hh' fun x hmem hn => absurd hn (hx x hmem)).2
  · have hk : m.world.Keeps v.Idles r := ⟨Reveal.Idles.lasts v, v, hv, .refl v⟩
    have hk' := (hk.step hm.tame (fun a rest he => absurd (Machine.voice?_of_reveal he) (hvoice r))
      fun hn => absurd hn.voice? (hvoice r)).1
    obtain ⟨w, hw, hidle⟩ := (run'.keeps hs' hk' hx).text
    exact htake.says hw (hidle.signal?.trans hsig)

/-! ### Two jumps -/

/-- A player whose host jumps when it hears a token of the text. -/
def listeningFor (speed : TextSpeed) (token : String) : Player :=
  ((Player.plain speed).connect .text
    ⟨fun | .signal (.text t) => t = token | _ => false, 1, [.goto "b" 0]⟩).1

/-- It has a scene played. -/
def quoting (speed : TextSpeed) (token : String) : Machine Player Task :=
  (listeningFor speed token).called
    [.goto "a" 0, .settle, .take, .complete 0 (some ["`one\ntwo@"]), .advance 100]

theorem run_quoting (speed : TextSpeed) (token : String) (n : Nat) :
    Run HostCall.KeepsPlace ⟨.plain speed, []⟩ ((quoting speed token).trail n)
      ((quoting speed token).run n) := by
  refine Run.calls (.connect .text .start fun c hc => ?_) (fun c hc => ?_) n
  · rw [List.mem_singleton.1 hc]
    exact .of_body_eq_nil trivial rfl
  · simp only [List.mem_cons, List.not_mem_nil, or_false] at hc
    rcases hc with rfl | rfl | rfl | rfl | rfl <;> exact .of_body_eq_nil trivial rfl

/-- The jump comes while the text is shown by the character. -/
def stopping : Machine Player Task := (quoting .fast "n").run 33

/-- The text acts twice more, but does nothing. -/
theorem text_by_character_stalls :
    (∃ x ∈ stopping.step.trail 4, x.voice? = some 0) ∧
      ∀ x ∈ stopping.step.trail 4, x.voice? = some 0 → x.Stalls := by
  obtain ⟨hj, hsil, hreveal, hany⟩ : stopping.jump? = some ("b", 0) ∧ stopping.Silences 0 ∧
      (stopping.world.reveals[0]?).isSome = true ∧
      (stopping.step.trail 4).any (fun x => x.voice? = some 0) = true := by decide +kernel
  obtain ⟨v, hv⟩ := Option.isSome_iff_exists.1 hreveal
  have hfinal := interruption_final (begins_plain _) (run_quoting .fast "n" 33) hj
    (Run.steps_self stopping.step 4)
  refine ⟨?_, (hfinal.2 0 v hv).1 hsil⟩
  obtain ⟨x, hx, hvoice⟩ := List.any_eq_true.1 hany
  exact ⟨x, hx, of_decide_eq_true hvoice⟩

/-- The jump comes while a text without delay begins. -/
def beginning : Machine Player Task := (quoting .instant "one").run 21

/-- The text of the interrupted instruction goes on. -/
theorem text_at_once_says_more :
    Run HostCall.KeepsPlace ⟨.plain .instant, []⟩ ((quoting .instant "one").trail 21) beginning ∧
      beginning.jump? = some ("b", 0) ∧
      (beginning.world.reveals[0]?).map Reveal.ticket =
        some (.instruction beginning.world.generation) ∧
      Run HostCall.KeepsPlace beginning.step (beginning.step.trail 2) (beginning.step.run 2) ∧
      ∃ x ∈ beginning.step.trail 2, x.voice? = some 0 ∧ x.Says (.text "\n") := by
  obtain ⟨hj, hticket, hvoice, hreveal⟩ : beginning.jump? = some ("b", 0) ∧
      (beginning.world.reveals[0]?).map Reveal.ticket =
        some (.instruction beginning.world.generation) ∧
      beginning.step.step.voice? = some 0 ∧
      (beginning.step.step.world.reveals[0]?).map (fun v : Reveal => (v.mode, v.signal?)) =
        some (.running, some (.text "\n")) := by decide +kernel
  refine ⟨run_quoting .instant "one" 21, hj, hticket, Run.steps_self _ 2,
    beginning.step.step, List.mem_cons_self, hvoice, ?_⟩
  obtain ⟨v, hv, hw⟩ := Option.map_eq_some_iff.1 hreveal
  obtain ⟨hmode, hsig⟩ := Prod.mk.inj hw
  have htake : beginning.step.step.TakesOn 0 := .inr ⟨v, hv, .inl ⟨hmode, _, rfl⟩⟩
  exact htake.says hv hsig

end Novella
