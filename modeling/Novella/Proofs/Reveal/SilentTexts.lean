import Novella.Proofs.Player.HostRuns

/-!
# Texts that stay silent

A shown text acts by tasks of its own: it runs to its next pause, its timers ring, and input takes
it further. At a pause it waits for input, and when it is over it does nothing at all any more. Only
a task that sets it running whatever its mode could start it again.

Whatever else a player performs leaves the text as it is, but that it may be held, let go or told to
stop. Hence what is true of a text in spite of these stays true until the text acts. In particular a
text at a pause stays there until it is given input, and a text that is over stays over.

## Main definitions

* `Reveal.Mode.IsQuiet` — the modes in which a text does not go on by itself
* `Reveal.Lasts` — a property that texts keep when they are held, let go or told to stop
* `Player.Keeps`, `Player.Spares` — a text has such a property, and is not set running
* `Machine.voice?` — the text that acts next
* `Hushed` — a text that is not going to be set running

## Main results

* `Player.Keeps.step`, `Run.keeps` — a text that does not act keeps the property
* `Hushed.step` — a text that is hushed stays so
* `Run.hushed` — and so it says nothing in a whole run
-/

namespace Novella

open Player

namespace Reveal

/-- A text in this mode goes on by input only, if at all. -/
def Mode.IsQuiet (mode : Mode) : Prop := mode = .done ∨ mode = .awaitingInput ∨ mode = .pageEnd

/-- A property that a text keeps when it is held, let go or told to stop. -/
structure Lasts (M : Reveal → Prop) : Prop where
  /-- It keeps it when it is held or let go. -/
  held {v : Reveal} (n : Nat) : M v → M { v with holds := n }
  /-- It keeps it when it is told to stop. -/
  stopped {v : Reveal} : M v → M { v with mode := .done, timer := none }

theorem lasts_done : Lasts (·.mode = .done) := ⟨fun _ h => h, fun _ => rfl⟩

theorem lasts_isQuiet : Lasts (·.mode.IsQuiet) := ⟨fun _ h => h, fun _ => .inl rfl⟩

end Reveal

namespace Player

/-- The order sets text `r` running. -/
def setsRunning (r : Nat) : Order Task → Bool
  | .perform (.reveal s .run) => decide (s = r)
  | _ => false

theorem any_setsRunning {r : Nat} {orders : Orders} :
    orders.any (setsRunning r) = true ↔ .perform (.reveal r .run) ∈ orders := by
  rw [List.any_eq_true]
  constructor
  · rintro ⟨o, ho, hr⟩
    unfold setsRunning at hr
    split at hr
    · rw [of_decide_eq_true hr] at ho
      exact ho
    · cases hr
  · exact fun hm => ⟨_, hm, decide_eq_true rfl⟩

instance (r : Nat) (orders : Orders) : Decidable (.perform (.reveal r .run) ∈ orders) :=
  decidable_of_iff _ any_setsRunning

variable {M : Reveal → Prop} {r : Nat} {p q : Player}

/-- Text `r` has begun and has the property, which is one that lasts. -/
structure Keeps (M : Reveal → Prop) (r : Nat) (p : Player) : Prop where
  /-- The property lasts. -/
  lasts : Reveal.Lasts M
  /-- The text has it. -/
  text : ∃ v, p.reveals[r]? = some v ∧ M v

/-- Text `r` has the property, and nothing sets it running. -/
structure Spares (M : Reveal → Prop) (r : Nat) (x : Player × Orders) : Prop where
  /-- It has the property. -/
  keeps : x.1.Keeps M r
  /-- Nothing sets it running. -/
  orders : .perform (.reveal r .run) ∉ x.2

namespace Spares

theorem nil (h : p.Keeps M r) : Spares M r (p, []) := ⟨h, List.not_mem_nil⟩

theorem calls (h : p.Keeps M r) (a : Audience) (body : List HostCall) :
    Spares M r (p, body.map (fun c => .perform (.call a c))) := by
  refine ⟨h, fun hm => ?_⟩
  obtain ⟨c, -, hc⟩ := List.mem_map.1 hm
  cases hc

theorem append {x : Player × Orders} (h : Spares M r x) {orders : Orders}
    (ho : .perform (.reveal r .run) ∉ orders) : Spares M r (x.1, x.2 ++ orders) :=
  ⟨h.keeps, fun hm => (List.mem_append.1 hm).elim h.orders ho⟩

end Spares

namespace Keeps

theorem of_eq (h : p.Keeps M r) (hq : q.reveals = p.reveals) : q.Keeps M r := by
  refine ⟨h.lasts, ?_⟩
  rw [hq]
  exact h.text

theorem of_inside (h : p.Keeps M r) (hq : q.inside = p.inside) : q.Keeps M r := by
  have hr := congrArg Player.reveals hq
  exact h.of_eq hr

/-! ### Signals, cells and timers -/

theorem trace (h : p.Keeps M r) (c : LogCategory) (l : LogLevel) (s : String) :
    (p.trace c l s).Keeps M r := h.of_inside (inside_trace ..)

theorem react (h : p.Keeps M r) (k : Nat) (o : Occurrence) : Spares M r (p.react k o) := by
  rw [Player.react]
  dsimp only
  split
  · split
    · refine .calls ?_ _ _
      exact h.of_eq rfl
    · exact .nil (h.of_eq rfl)
  · exact .nil (h.of_eq rfl)

theorem passOn (h : p.Keeps M r) (s : Signal) : Spares M r (p.passOn s) := by
  rw [Player.passOn]
  split
  · exact h.react ..
  · exact .nil (h.of_eq rfl)

theorem receive (h : p.Keeps M r) (s : Signal) (x : Receiver) : Spares M r (p.receive s x) := by
  cases x with
  | listener k => exact h.react ..
  | book => exact Keeps.passOn (h.of_inside (inside_enter ..)) s

theorem emit (h : p.Keeps M r) (s : Signal) : Spares M r (p.emit s) := by
  rw [Player.emit]
  split
  · exact h.receive ..
  · exact .nil (h.of_eq rfl)

theorem connect (h : p.Keeps M r) (k : Hook) (l : Listener) : Spares M r (p.connect k l) := by
  unfold Player.connect connectReceiver
  dsimp only
  split
  · refine Keeps.receive ?_ ..
    exact h.of_eq rfl
  · exact .nil (h.of_eq rfl)

theorem connectToBook (h : p.Keeps M r) (k : Hook) (l : Listener) :
    Spares M r (p.connectToBook k l) := by
  rw [Player.connectToBook]
  dsimp only
  split
  · refine Keeps.react ?_ ..
    exact h.of_eq rfl
  · exact .nil (h.of_eq rfl)

theorem foldl_write (h : p.Keeps M r) (ws : List CellWrite) :
    (ws.foldl (fun p w => p.write w.cell w.value) p).Keeps M r := by
  induction ws generalizing p with
  | nil => exact h
  | cons w ws ih => exact ih (h.of_eq rfl)

theorem storeOutcome (h : p.Keeps M r) (opcode argument : String)
    (x : Except AssignmentError Assignment.Outcome) :
    (p.storeOutcome opcode argument x).Keeps M r := by
  cases x with
  | ok o =>
    refine Keeps.trace ?_ ..
    exact h.of_eq rfl
  | error e => exact h.of_eq rfl

theorem waitFor (h : p.Keeps M r) (d : Nat) (t : Ticket) : (p.waitFor d t).1.Keeps M r := by
  rw [Player.waitFor]
  split
  · exact h
  · exact h.of_eq rfl

theorem carryOut (h : p.Keeps M r) (c : Cue) (t : Ticket) : (p.carryOut c t).1.Keeps M r := by
  unfold Player.carryOut
  dsimp only
  split
  · refine Keeps.waitFor ?_ ..
    exact (h.foldl_write c.writes).of_eq rfl
  · exact (h.foldl_write c.writes).waitFor ..

/-! ### Changes of texts -/

/-- A text is changed, without losing the property. -/
theorem modifyReveal (h : p.Keeps M r) (s : Nat) {f : Reveal → Reveal}
    (hf : s = r → ∀ {v}, M v → M (f v)) : (p.modifyReveal s f).Keeps M r := by
  obtain ⟨v, hv, hm⟩ := h.text
  have hget : (p.modifyReveal s f).reveals[r]? = if s = r then some (f v) else some v := by
    rw [Player.modifyReveal, Array.getElem?_modify, hv]
    rfl
  by_cases hs : s = r
  · exact ⟨h.lasts, f v, hget.trans (if_pos hs), hf hs hm⟩
  · exact ⟨h.lasts, v, hget.trans (if_neg hs), hm⟩

/-- Another text is changed. -/
theorem modifyOther (h : p.Keeps M r) {s : Nat} (hs : s ≠ r) (f : Reveal → Reveal) :
    (p.modifyReveal s f).Keeps M r := h.modifyReveal s fun he => absurd he hs

/-- A text is held or let go. -/
theorem modifyHolds (h : p.Keeps M r) (s : Nat) (f : Reveal → Nat) :
    (p.modifyReveal s fun v => { v with holds := f v }).Keeps M r :=
  h.modifyReveal s fun _ _ hm => h.lasts.held _ hm

theorem beginReveal (h : p.Keeps M r) (text : String) (t : Ticket) :
    (p.beginReveal text t).Keeps M r ∧ p.reveals.size ≠ r := by
  obtain ⟨v, hv, hm⟩ := h.text
  obtain ⟨hlt, -⟩ := Array.getElem?_eq_some_iff.1 hv
  refine ⟨⟨h.lasts, v, ?_, hm⟩, Nat.ne_of_gt hlt⟩
  change (p.reveals.push _)[r]? = some v
  rw [Array.getElem?_push, if_neg (Nat.ne_of_lt hlt)]
  exact hv

theorem stopOther (h : p.Keeps M r) {s : Nat} (hs : s ≠ r) (v : Reveal) (mode : Reveal.Mode) :
    (p.stopReveal s v mode).Keeps M r := by
  rw [Player.stopReveal]
  split
  · refine Keeps.modifyOther ?_ hs _
    exact h.of_eq rfl
  · exact h.modifyOther hs _

theorem armOther (h : p.Keeps M r) {s : Nat} (hs : s ≠ r) (mode : Reveal.Mode) (d : Nat)
    (repeats : Bool) (a : Reveal.Act) : (p.armReveal s mode d repeats a).Keeps M r := by
  refine Keeps.modifyOther ?_ hs _
  exact h.of_eq rfl

/-- A text that is told to stop is over. -/
theorem stopReveal (h : p.Keeps M r) (s : Nat) (v : Reveal) :
    (p.stopReveal s v .done).Keeps M r := by
  rw [Player.stopReveal]
  split
  · refine Keeps.modifyReveal ?_ s fun _ _ hm => h.lasts.stopped hm
    exact h.of_eq rfl
  · exact h.modifyReveal s fun _ _ hm => h.lasts.stopped hm

theorem cancelHandler (h : p.Keeps M r) (x : Handler) : (p.cancelHandler x).Keeps M r := by
  cases x with
  | reveal s =>
    rw [Player.cancelHandler]
    split
    · exact h.stopReveal ..
    · exact h
  | host b t => cases b <;> exact h.of_eq rfl
  | _ => exact h.of_eq rfl

theorem interrupt (h : p.Keeps M r) : p.interrupt.Keeps M r := by
  unfold Player.interrupt
  dsimp only
  split
  · refine Keeps.cancelHandler ?_ _
    exact h.of_eq rfl
  · exact h.of_eq rfl

/-! ### Instructions -/

theorem branch (h : p.Keeps M r) (argument : String) : (p.branch argument).Keeps M r := by
  obtain ⟨events, queue, hq, -⟩ := p.branch_eq argument
  rw [hq]
  exact h.of_eq rfl

theorem skip (h : p.Keeps M r) (argument : String) : (p.skip argument).Keeps M r := by
  rw [Player.skip]
  split
  · exact h.of_eq rfl
  · exact h.of_eq rfl
  · refine Keeps.of_eq (p := p.trace ..) ?_ rfl
    exact h.trace ..

theorem execute (h : p.Keeps M r) (command : Command) (opcode argument : String) (t : Ticket) :
    Spares M r ((p.execute command opcode argument t).1,
      (p.execute command opcode argument t).2.1) := by
  cases command with
  | text =>
    obtain ⟨hb, hne⟩ := h.beginReveal argument t
    refine ⟨hb, fun hm => ?_⟩
    cases List.mem_singleton.1 hm
    exact hne rfl
  | pageBreak => exact h.emit _
  | lineBreak => exact h.emit _
  | click => exact .nil h
  | wait =>
    simp only [Player.execute]
    split
    · exact .nil (h.waitFor ..)
    · exact .nil (h.of_eq rfl)
  | setDelay =>
    simp only [Player.execute]
    split <;> exact .nil (h.of_eq rfl)
  | resetDelay => exact .nil (h.of_eq rfl)
  | branch => exact .nil (h.branch _)
  | skip => exact .nil (h.skip _)
  | exit => exact Keeps.emit (h.trace ..) _
  | cue x =>
    simp only [Player.execute]
    split
    · exact .nil (h.carryOut ..)
    · exact .nil (h.of_eq rfl)
  | assign op => exact .nil (h.storeOutcome ..)
  | step delta => exact .nil (h.storeOutcome ..)
  | host b body =>
    have hc : Spares M r ({ p.note (.called opcode argument) with tickets := p.tickets.push t },
        body.map (fun c => .perform (.call .nobody c))) := by
      refine .calls ?_ _ _
      exact h.of_eq rfl
    have hf : Order.perform (Task.reveal r .run) ∉ ([.perform (.finish t)] : Orders) := by simp
    cases b <;> first | exact hc | exact hc.append hf

/-! ### The life of an instruction -/

theorem dispatch (h : p.Keeps M r) (i : Instruction) : Spares M r (p.dispatch i) := by
  rw [Player.dispatch]
  dsimp only
  split
  · refine Spares.append (x := (_, _)) (Keeps.execute ?_ ..) (by simp)
    exact h.of_eq rfl
  · refine ⟨h.of_eq rfl, by simp⟩
  · refine ⟨h.of_eq rfl, by simp⟩

theorem runNext (h : p.Keeps M r) : Spares M r p.runNext := by
  rw [Player.runNext]
  split
  · refine Keeps.dispatch ?_ _
    exact h.of_eq rfl
  · exact .nil (h.of_eq rfl)

theorem finish (h : p.Keeps M r) (t : Ticket) : Spares M r (p.finish t) := by
  rw [Player.finish]
  split
  · cases t with
    | call n => exact .nil (h.of_eq rfl)
    | instruction g =>
      dsimp only
      split
      · refine Keeps.runNext ?_
        exact h.of_eq rfl
      · refine .nil (Keeps.trace ?_ ..)
        exact h.of_eq rfl
  · exact .nil h

theorem conclude (h : p.Keeps M r) (t : Ticket) (x : Completion) : Spares M r (p.conclude t x) := by
  cases x with
  | completed => exact h.finish t
  | pending x =>
    have pend {q : Player} (hq : q.Keeps M r) : Spares M r (if t ∈ q.live then
        ({ q with active := some x, phase := .awaiting }, []) else (q, [])) := by
      split
      · exact .nil (hq.of_eq rfl)
      · exact .nil hq
    cases x with
    | reveal s => exact pend (h.modifyHolds s _)
    | _ => exact pend h

/-! ### Acts -/

/-- Another text goes on. -/
theorem proceed (h : p.Keeps M r) {s : Nat} (hs : s ≠ r) (v : Reveal) :
    Spares M r (p.proceed s v) := by
  rw [Player.proceed]
  dsimp only
  split
  · exact Keeps.finish ((h.modifyOther hs _).trace ..) _
  · exact .nil (((h.modifyOther hs _).trace ..).armOther hs ..)
  · exact .nil ((h.modifyOther hs _).trace ..)
  · exact Keeps.emit ((h.modifyOther hs _).trace ..) _
  · exact Keeps.emit ((h.modifyOther hs _).trace ..) _
  · exact ((h.modifyOther hs _).emit _).append (by simp)
  · exact .nil (h.armOther hs ..)

theorem runReveal (h : p.Keeps M r) {s : Nat} (hs : s ≠ r) : Spares M r (p.runReveal s) := by
  unfold Player.runReveal
  dsimp only
  split
  · exact (h.modifyOther hs _).proceed hs _
  · exact .nil (h.modifyOther hs _)

theorem keeping (h : p.Keeps M r) (s : Nat) {f : Player → Player × Orders}
    (hf : ∀ {q : Player}, q.Keeps M r → Spares M r (f q)) : Spares M r (p.keeping s f) := by
  have hk : (p.modifyReveal s fun v => { v with holds := v.holds + 1 }).Keeps M r :=
    h.modifyHolds s _
  exact (hf hk).append (by simp)

theorem tickReveal (h : p.Keeps M r) {s : Nat} (hs : s ≠ r) (v : Reveal) :
    Spares M r (p.tickReveal s v) := by
  rw [Player.tickReveal]
  split
  · exact ⟨h, by simp⟩
  · split
    · exact ⟨h, by simp⟩
    · exact ((h.modifyOther hs _).emit _).append (by simp)

theorem nudgeReveal (h : p.Keeps M r) {s : Nat} (hs : s ≠ r) (v : Reveal) :
    Spares M r (p.nudgeReveal s v) := by
  have hne {a : Reveal.Act} :
      Order.perform (Task.reveal r .run) ∉ ([.perform (.reveal s a)] : Orders) := by
    simp [hs.symm]
  rw [Player.nudgeReveal]
  split
  · dsimp only
    split
    · exact ⟨(h.stopOther hs ..).modifyOther hs _, hne⟩
    · exact (((h.stopOther hs ..).modifyOther hs _).emit _).append hne
  · exact h.runReveal hs
  · exact (h.modifyOther hs _).finish _
  · split
    · exact .nil (h.of_eq rfl)
    · exact .nil h
  · exact .nil h
  · exact .nil h

/-- A text in a quiet mode does not act by itself. -/
theorem actReveal_eq (h : p.Keeps M r) (hM : ∀ {v}, M v → v.mode.IsQuiet) {a : Reveal.Act}
    (ha : a ≠ .run) : p.actReveal r a = (p, []) ∨
      p.actReveal r a = (p.modifyReveal r (fun v => { v with holds := v.holds - 1 }), []) := by
  obtain ⟨v, hv, hm⟩ := h.text
  have hq := hM hm
  have hne : v.mode ≠ .running ∧ v.mode ≠ .ticking ∧ v.mode ≠ .waiting := by
    rcases hq with hq | hq | hq <;> simp [hq]
  simp only [Player.actReveal, hv]
  cases a with
  | run => exact absurd rfl ha
  | resume => exact .inl (if_neg hne.1)
  | tick => exact .inl (if_neg fun h => hne.2.1 h.2)
  | ticked => exact .inl (if_neg fun h => hne.2.1 h.1)
  | wake => exact .inl (if_neg fun h => hne.2.2 h.2)
  | release => exact .inr rfl

theorem actReveal (h : p.Keeps M r) {s : Nat} {a : Reveal.Act}
    (ha : s = r → a ≠ .run ∧ ∀ {v}, M v → v.mode.IsQuiet) : Spares M r (p.actReveal s a) := by
  by_cases hs : s = r
  · subst hs
    obtain ⟨hrun, hM⟩ := ha rfl
    rcases h.actReveal_eq hM hrun with heq | heq
    · rw [heq]
      exact .nil h
    · rw [heq]
      exact .nil (h.modifyHolds ..)
  · rw [Player.actReveal]
    split
    · exact .nil h
    · next v _ =>
      cases a with
      | run => exact h.runReveal hs
      | resume =>
        dsimp only
        split
        · exact h.proceed hs v
        · exact .nil h
      | tick =>
        dsimp only
        split
        · exact h.keeping s fun hq => hq.tickReveal hs v
        · exact .nil h
      | ticked =>
        dsimp only
        split
        · exact (h.stopOther hs ..).runReveal hs
        · exact .nil h
      | wake =>
        dsimp only
        split
        · exact h.keeping s fun hq => hq.runReveal hs
        · exact .nil h
      | release => exact .nil (h.modifyHolds ..)

/-! ### Input -/

/-- Input does nothing for a text that is over. -/
theorem advanceHandler_eq (h : p.Keeps M r) (hM : ∀ {v}, M v → v.mode = .done) :
    p.advanceHandler (.reveal r) =
      (p.modifyReveal r (fun v => { v with holds := v.holds + 1 }),
        [.perform (.reveal r .release)]) := by
  obtain ⟨v, hv, hm⟩ := h.text
  have hm := hM hm
  simp only [Player.advanceHandler, hv, Player.keeping, Player.nudgeReveal, hm, List.nil_append]

theorem advanceHandler (h : p.Keeps M r) {x : Handler}
    (hx : x = .reveal r → ∀ {v}, M v → v.mode = .done) : Spares M r (p.advanceHandler x) := by
  cases x with
  | finish t => exact h.finish t
  | stuck => exact .nil h
  | timer n => exact .nil (h.of_eq rfl)
  | reveal s =>
    by_cases hs : s = r
    · subst hs
      rw [h.advanceHandler_eq (hx rfl)]
      exact ⟨h.modifyHolds .., by simp⟩
    · rw [Player.advanceHandler]
      split
      · next v _ => exact h.keeping s fun hq => hq.nudgeReveal hs v
      · exact .nil h
  | host b t =>
    cases b <;> first
      | exact .nil (h.of_eq rfl)
      | exact (h.finish t).append (by simp)

theorem next (h : p.Keeps M r)
    (hx : p.active = some (.reveal r) → ∀ {v}, M v → v.mode = .done) : Spares M r p.next := by
  rw [Player.next]
  split
  · next x ha => exact h.advanceHandler fun he => hx (he ▸ ha)
  · exact .nil h

/-! ### Scenes and lines -/

theorem goto (h : p.Keeps M r) (s : String) (i : UInt64) : (p.goto s i).Keeps M r := by
  have hi := h.interrupt
  rw [Player.goto]
  dsimp only
  split
  · exact hi.of_eq rfl
  · split <;> exact hi.of_eq rfl

theorem loadScene (h : p.Keeps M r) (s : String) : (p.loadScene s).Keeps M r := by
  have hi := h.interrupt
  rw [Player.loadScene]
  dsimp only
  split
  · exact hi.of_eq rfl
  · refine Keeps.trace ?_ ..
    exact hi.of_eq rfl

theorem completeLoad (h : p.Keeps M r) (q : LoadRequest) (x : Except SourceError (List String)) :
    (p.completeLoad q x).1.Keeps M r := by
  unfold Player.completeLoad
  split
  · exact h.trace ..
  · cases x with
    | ok lines =>
      have ht := h.trace .engine .info s!"Scene '{q.scene}' loaded ({lines.length} lines)"
      exact ht.of_eq rfl
    | error e => exact h.of_eq rfl

theorem runLine (h : p.Keeps M r) (i : UInt64) : Spares M r (p.runLine i) := by
  have hi := h.interrupt
  rw [Player.runLine]
  split
  · exact .nil (h.trace ..)
  · dsimp only
    split
    · exact .nil (hi.of_eq rfl)
    · split
      · exact .nil (hi.of_eq rfl)
      · next line _ =>
        have ht := hi.trace .engine .trace s!"[{i.toNat}] {line}"
        refine Keeps.runNext ?_
        exact ht.of_eq rfl

/-! ### Calls and tasks -/

theorem call (h : p.Keeps M r) {c : HostCall}
    (hx : c = .next → p.active = some (.reveal r) → ∀ {v}, M v → v.mode = .done) :
    Spares M r ((p.call c).1, (p.call c).2.2) := by
  cases c with
  | next => exact h.next (hx rfl)
  | settle => exact ⟨h, by simp [Player.call, Order.settle]⟩
  | advance d => exact ⟨h, by simp [Player.call]⟩
  | runMicrotasks => exact ⟨h, by simp [Player.call]⟩
  | goto s i => exact .nil (h.goto s i)
  | restore x v =>
    refine .nil (Keeps.goto ?_ ..)
    exact h.of_eq rfl
  | serve => exact ⟨h, by simp [Player.call, Order.settle]⟩
  | take =>
    rw [Player.call, takeRequest]
    cases p.loadRequest <;> exact .nil (h.of_eq rfl)
  | complete n lines =>
    simp only [Player.call]
    split
    · exact .nil (h.completeLoad ..)
    · exact .nil h
  | set x v => exact .nil (h.of_eq rfl)
  | notify x => exact .nil (h.of_eq rfl)
  | effect name => exact .nil (h.of_eq rfl)
  | setVariable token v =>
    simp only [Player.call]
    split
    · exact .nil (h.of_eq rfl)
    · exact .nil h
  | getVariable token =>
    simp only [Player.call]
    split <;> exact .nil h
  | observe x accepts once trigger times body => exact .nil (h.of_eq rfl)
  | unobserve x n =>
    simp only [Player.call]
    split
    · exact .nil (h.of_eq rfl)
    · exact .nil h
  | speed s => exact .nil (h.of_eq rfl)
  | register opcode b body =>
    simp only [Player.call]
    split
    · exact .nil (h.of_eq rfl)
    · exact ⟨h.of_eq rfl, by simp⟩
  | finish n =>
    simp only [Player.call]
    split
    · exact h.finish _
    · exact .nil h

theorem load (h : p.Keeps M r) : Spares M r p.load := by
  rw [Player.load, takeRequest]
  cases p.loadRequest with
  | none => exact .nil (h.of_eq rfl)
  | some q =>
    refine ⟨Keeps.completeLoad ?_ .., by simp [Order.settle]⟩
    exact h.of_eq rfl

theorem reactTo (h : p.Keeps M r) (x : Reaction) (c : CellName) (v : c.Value) :
    Spares M r (p.reactTo x c v) := by
  unfold Player.reactTo
  split
  · exact .nil (h.loadScene _)
  · exact h.runLine _
  · exact .nil (h.of_inside (inside_openPage _))
  · exact .nil (h.of_eq rfl)
  · exact h.react ..
  · exact .nil h

/-- Other tasks than those of the text leave it as it is, and so do its own unless they set it
running or it goes on by itself. -/
theorem perform (h : p.Keeps M r) (ht : p.Tame HostCall.KeepsPlace) {t : Task}
    (ha : ∀ a, t = .reveal r a → a ≠ .run ∧ ∀ {v}, M v → v.mode.IsQuiet)
    (hx : ∀ a, t = .call a .next → p.active = some (.reveal r) → ∀ {v}, M v → v.mode = .done) :
    Spares M r (Player.perform t p) := by
  cases t with
  | deliver c =>
    refine ⟨h.of_eq rfl, fun hm => ?_⟩
    obtain ⟨id, -, hid⟩ := List.mem_map.1 hm
    cases hid
  | hear c id v =>
    simp only [Player.perform]
    split
    · refine Keeps.reactTo ?_ ..
      exact h.of_eq rfl
    · exact .nil h
  | ring k =>
    refine ⟨h.of_eq rfl, fun hm => ?_⟩
    obtain ⟨callback, hc, heq⟩ := List.mem_map.1 hm
    cases heq
    have htimed := ht.isTimed_of_ring (Option.mem_toList.1 hc)
    rcases htimed with h | h <;> cases h
  | finish t => exact h.finish t
  | conclude t x => exact h.conclude t x
  | reveal s a => exact h.actReveal fun hs => ha a (hs ▸ rfl)
  | call a c => exact (h.call fun hc => hx a (hc ▸ rfl)).append (by simp)
  | report a x => exact .nil (h.of_inside (inside_report ..))
  | note e => exact .nil (h.of_eq rfl)
  | load => exact h.load

end Keeps

end Player

/-! ### Machines -/

namespace Machine

variable (m : Machine Player Task)

/-- The text that acts next, by a task of its own or because it is given input. -/
def voice? : Option Nat :=
  match m.agenda with
  | .perform (.reveal r _) :: _ => some r
  | .perform (.call _ .next) :: _ =>
    match m.world.active with
    | some (.reveal r) => some r
    | _ => none
  | _ => none

/-- The text is given input next. -/
def Nudges (r : Nat) : Prop :=
  (∃ a rest, m.agenda = .perform (.call a .next) :: rest) ∧ m.world.active = some (.reveal r)

/-- Whatever the machine does changes nothing but the records of shown texts. -/
def Stalls : Prop := ∃ reveals, m.step.world = { m.world with reveals }

variable {m} {r : Nat}

theorem voice?_of_reveal {a : Reveal.Act} {rest : Orders}
    (h : m.agenda = .perform (.reveal r a) :: rest) : m.voice? = some r := by
  simp [voice?, h]

theorem Nudges.voice? (h : m.Nudges r) : m.voice? = some r := by
  obtain ⟨⟨a, rest, hag⟩, hact⟩ := h
  simp [Machine.voice?, hag, hact]

end Machine

namespace Player.Keeps

variable {M : Reveal → Prop} {r : Nat} {m : Machine Player Task}

/-- A text that does not act keeps the property, and nothing but what is set to do so sets it
running. -/
theorem step (h : m.world.Keeps M r) (ht : m.world.Tame HostCall.KeepsPlace)
    (ha : ∀ a rest, m.agenda = .perform (.reveal r a) :: rest →
      a ≠ .run ∧ ∀ {v}, M v → v.mode.IsQuiet)
    (hx : m.Nudges r → ∀ {v}, M v → v.mode = .done) : m.step.world.Keeps M r ∧
      (.perform (.reveal r .run) ∉ m.agenda → .perform (.reveal r .run) ∉ m.step.agenda) := by
  obtain ⟨p, agenda⟩ := m
  cases agenda with
  | nil => exact ⟨h, id⟩
  | cons o rest =>
    -- what is left of the agenda does not set the text running if all of it does not
    have left {q : Player} (hq : q.Keeps M r) (orders : Orders)
        (ho : .perform (.reveal r .run) ∉ orders) : q.Keeps M r ∧
          (.perform (.reveal r .run) ∉ o :: rest → .perform (.reveal r .run) ∉ orders ++ rest) :=
      ⟨hq, fun hn hm => (List.mem_append.1 hm).elim ho fun hr => hn (List.mem_cons_of_mem _ hr)⟩
    cases o with
    | perform t =>
      have hp := h.perform ht (fun a he => ha a rest (he ▸ rfl))
        fun a he hact => hx ⟨⟨a, rest, by rw [he]⟩, hact⟩
      rw [Steady.step_perform]
      exact left hp.keeps _ hp.orders
    | drain =>
      cases hpop : (World.loop p).popMicrotask? with
      | none =>
        simp only [Machine.step, hpop]
        exact left h [] List.not_mem_nil
      | some x =>
        obtain ⟨t, l⟩ := x
        obtain ⟨c, rfl⟩ := ht.deliver_of_popMicrotask? hpop
        simp only [Machine.step, hpop]
        refine left (h.of_eq ?_) [.perform (.deliver c), .drain] (by simp)
        rfl
    | advance d => exact left h [.drain, .depart d] (by simp)
    | depart d => exact left h [.runUntil _] (by simp)
    | runUntil target =>
      cases hpop : (World.loop p).popDue? target with
      | none =>
        simp only [Machine.step, hpop]
        refine left (h.of_eq ?_) [] List.not_mem_nil
        rfl
      | some x =>
        obtain ⟨t, l⟩ := x
        have hne : t ≠ .reveal r .run := fun he => by
          have htimed := ht.isTimed_of_popDue? hpop
          rw [he] at htimed
          rcases htimed with h | h <;> cases h
        simp only [Machine.step, hpop]
        refine left (h.of_eq ?_) [.perform t, .drain, .runUntil target] ?_
        · rfl
        · simp [hne.symm]
    | halt => exact ⟨h, fun _ => List.not_mem_nil⟩

end Player.Keeps

/-- Along a whole run a text that does not act keeps the property. -/
theorem Run.keeps {M : Reveal → Prop} {k r : Nat} {m n : Machine Player Task} {c : Course}
    {h : List (Machine Player Task)} (hs : Steady k m c) (hk : m.world.Keeps M r)
    (run : Run HostCall.KeepsPlace m h n) (hx : ∀ x ∈ h, x.voice? ≠ some r) :
    n.world.Keeps M r := by
  induction run with
  | start => exact hk
  | @step h n run ih =>
    obtain ⟨hx, hall⟩ := List.forall_mem_cons.1 hx
    obtain ⟨c', hn⟩ := run.steady hs
    refine ((ih hall).step hn.tame (fun a rest he => ?_) fun hnudge => ?_).1
    · exact absurd (Machine.voice?_of_reveal he) hx
    · exact absurd hnudge.voice? hx
  | turn book events answer _ _ ih => exact (ih hx).of_eq rfl
  | @connect _ _ hook l _ _ ih => exact ((ih hx).connect hook l).keeps
  | @connectToBook _ _ hook l _ _ ih => exact ((ih hx).connectToBook hook l).keeps

/-- The text has a property with which it does not go on by itself, and nothing is going to set it
running. -/
structure Hushed (M : Reveal → Prop) (r : Nat) (m : Machine Player Task) : Prop where
  /-- It has the property. -/
  keeps : m.world.Keeps M r
  /-- With it a text does not go on by itself. -/
  quiet {v : Reveal} : M v → v.mode.IsQuiet
  /-- Nothing is going to set it running. -/
  agenda : .perform (.reveal r .run) ∉ m.agenda

namespace Hushed

variable {M : Reveal → Prop} {r : Nat} {m : Machine Player Task}

/-- **A text that is hushed stays so**, but for input. -/
theorem step (h : Hushed M r m) (ht : m.world.Tame HostCall.KeepsPlace)
    (hx : m.Nudges r → ∀ {v}, M v → v.mode = .done) : Hushed M r m.step := by
  have hrun {a : Reveal.Act} {rest : Orders} (he : m.agenda = .perform (.reveal r a) :: rest) :
      a ≠ .run := by
    rintro rfl
    exact h.agenda (he ▸ List.mem_cons_self)
  obtain ⟨hk, hagenda⟩ := h.keeps.step ht (fun a rest he => ⟨hrun he, h.quiet⟩) hx
  exact ⟨hk, h.quiet, hagenda h.agenda⟩

/-- A text that is hushed does nothing, but for input. -/
theorem stalls (h : Hushed M r m) (hv : m.voice? = some r)
    (hx : m.Nudges r → ∀ {v}, M v → v.mode = .done) : m.Stalls := by
  obtain ⟨p, agenda⟩ := m
  unfold Machine.voice? at hv
  split at hv
  · next s a rest heq =>
    cases hv
    obtain rfl : agenda = .perform (.reveal r a) :: rest := heq
    have ha : a ≠ .run := fun he => h.agenda (he ▸ List.mem_cons_self)
    rw [Machine.Stalls]
    rw [Steady.step_perform]
    rcases h.keeps.actReveal_eq h.quiet ha with hp | hp
    · exact ⟨p.reveals, congrArg Prod.fst hp⟩
    · exact ⟨_, congrArg Prod.fst hp⟩
  · next a rest heq =>
    obtain rfl : agenda = .perform (.call a .next) :: rest := heq
    split at hv
    · next s hact =>
      cases hv
      have hact : p.active = some (.reveal r) := hact
      have hp : p.next = p.advanceHandler (.reveal r) := by
        rw [Player.next]
        rw [hact]
      have ha := h.keeps.advanceHandler_eq (hx ⟨⟨a, rest, rfl⟩, hact⟩)
      exact ⟨_, congrArg Prod.fst (hp.trans ha)⟩
    · cases hv
  · cases hv

end Hushed

/-- In a whole run a text that is hushed does nothing, as long as it is not given input. A text that
is over does nothing even then. -/
theorem Run.hushed {M : Reveal → Prop} {k r : Nat} {m n : Machine Player Task} {c : Course}
    {h : List (Machine Player Task)} (hs : Steady k m c) (hh : Hushed M r m)
    (run : Run HostCall.KeepsPlace m h n)
    (hx : ∀ x ∈ h, x.Nudges r → ∀ {v}, M v → v.mode = .done) :
    Hushed M r n ∧ ∀ x ∈ h, x.voice? = some r → x.Stalls := by
  induction run with
  | start => exact ⟨hh, fun x hx => absurd hx List.not_mem_nil⟩
  | @step h n run ih =>
    obtain ⟨hx, hall⟩ := List.forall_mem_cons.1 hx
    obtain ⟨hn, hst⟩ := ih hall
    obtain ⟨c', hn'⟩ := run.steady hs
    exact ⟨hn.step hn'.tame hx, List.forall_mem_cons.2 ⟨fun hv => hn.stalls hv hx, hst⟩⟩
  | turn book events answer _ ho ih =>
    obtain ⟨hn, hst⟩ := ih hx
    refine ⟨⟨hn.keeps.of_eq rfl, hn.quiet, fun hm => ?_⟩, hst⟩
    rcases ho _ hm with ⟨a, d, heq, -⟩ | ⟨d, heq⟩ <;> cases heq
  | @connect _ _ hook l _ _ ih =>
    obtain ⟨hn, hst⟩ := ih hx
    have hc := hn.keeps.connect hook l
    exact ⟨⟨hc.keeps, hn.quiet, hc.orders⟩, hst⟩
  | @connectToBook _ _ hook l _ _ ih =>
    obtain ⟨hn, hst⟩ := ih hx
    have hc := hn.keeps.connectToBook hook l
    exact ⟨⟨hc.keeps, hn.quiet, hc.orders⟩, hst⟩

end Novella
