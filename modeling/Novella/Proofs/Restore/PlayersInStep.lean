import Novella.Proofs.Player.Signals
import Novella.Proofs.Restore.Renumbering

/-!
# Players in step

A player that carries another one does what that one does, in the same order and at the same time,
but for its strays. This is seen operation by operation: instructions begin and end, texts are
shown, input is taken and lines are run in both alike, and the signals are the same.

## Main results

* `Player.Matches.dispatch`, `Player.Matches.actReveal`, `Player.Matches.runLine` — operations leave
  both players alike
* `Player.Matches.perform` — so do the tasks of a script
* `Player.Matches.signal?` — they send the same signals
-/

namespace Novella

open Player

namespace Player

variable {σ : Shift} {p q : Player} {x y : Player × Orders}

namespace Pairs

theorem nil (h : Matches σ p q) : Pairs σ (p, []) (q, []) :=
  ⟨h, rfl, fun _ ho => absurd ho List.not_mem_nil⟩

/-- One more order at the end. -/
theorem concat (h : Pairs σ x y) {o : Order Task} (ho : o.IsOngoing) :
    Pairs σ (x.1, x.2 ++ [σ.order o]) (y.1, y.2 ++ [o]) := by
  refine ⟨h.world, ?_, fun a ha => ?_⟩
  · rw [h.orders, List.map_append]
    rfl
  · rcases List.mem_append.1 ha with ha | ha
    · exact h.ongoing a ha
    · rwa [List.mem_singleton.1 ha]

theorem single (h : Matches σ p q) {o : Order Task} (ho : o.IsOngoing) :
    Pairs σ (p, [σ.order o]) (q, [o]) := (nil h).concat ho

theorem strides (h : Pairs σ x y) : Strides σ x y :=
  ⟨h.world, by rw [h.orders]; exact .map h.ongoing⟩

end Pairs

namespace Matches

/-! ### Signals and cells -/

theorem emit (h : Matches σ p q) (s : Signal) : Pairs σ (p.emit s) (q.emit s) := by
  refine ⟨h.congr_inside (inside_emit ..) (inside_emit ..) (bodies_emit h.listeners s)
    (bodies_emit h.listeners' s), ?_, fun o ho => ?_⟩
  · rw [orders_emit h.listeners, orders_emit h.listeners']
    rfl
  · rw [orders_emit h.listeners'] at ho
    exact absurd ho List.not_mem_nil

theorem progress (h : Matches σ p q) : p.stage.progress = q.stage.progress :=
  congrArg Prod.snd h.position

theorem index (h : Matches σ p q) : p.stage.index.value = q.stage.index.value :=
  h.value (c := .index) (by decide)

theorem charDelay (h : Matches σ p q) : p.charDelay = q.charDelay := by
  have hs : p.stage.settings.value = q.stage.settings.value := h.value (c := .settings) (by decide)
  rw [Player.charDelay, Player.charDelay, h.delay, hs]

theorem withQueue (h : Matches σ p q) {l l' : List Instruction} (hl : l = l') :
    Matches σ { p with queue := l } { q with queue := l' } :=
  ⟨{ h.toCarries with queue := hl }, h.now⟩

theorem withDelay (h : Matches σ p q) (d : Option Nat) :
    Matches σ { p with delay := d } { q with delay := d } :=
  ⟨{ h.toCarries with delay := rfl }, h.now⟩

/-! ### Commands -/

theorem waitFor (h : Matches σ p q) (d : Nat) (t : Ticket) :
    Matches σ (p.waitFor d (σ.ticket t)).1 (q.waitFor d t).1 ∧
      (p.waitFor d (σ.ticket t)).2 = σ.completion (q.waitFor d t).2 := by
  rw [Player.waitFor, Player.waitFor]
  split
  · exact ⟨h, rfl⟩
  · refine ⟨h.startTimer d false (a := .finish t) trivial, ?_⟩
    rw [h.schedule.size]
    rfl

theorem carryOut (h : Matches σ p q) (cue : Cue) (t : Ticket) :
    Matches σ (p.carryOut cue (σ.ticket t)).1 (q.carryOut cue t).1 ∧
      (p.carryOut cue (σ.ticket t)).2 = σ.completion (q.carryOut cue t).2 := by
  have hw := h.foldl_write cue.writes
  unfold Player.carryOut
  dsimp only
  split
  · exact (hw.playEffect _).waitFor cue.wait t
  · exact hw.waitFor cue.wait t

theorem storeOutcome (h : Matches σ p q) (opcode argument : String)
    (r : Except AssignmentError Assignment.Outcome) :
    Matches σ (p.storeOutcome opcode argument r) (q.storeOutcome opcode argument r) := by
  cases r with
  | ok o => exact (h.write ..).trace ..
  | error e => exact h.logError ..

theorem branch (h : Matches σ p q) (argument : String) :
    Matches σ (p.branch argument) (q.branch argument) := by
  unfold Player.branch
  rw [h.progress]
  split
  · exact h.logError ..
  · dsimp only
    split
    · exact h.note ..
    · split
      · have ht := h.trace .flow .debug
        refine (ht _ _).withQueue ?_
        rw [(ht _ _).queue]
      · exact h.trace ..
      · exact h.logError ..

theorem skip (h : Matches σ p q) (argument : String) :
    Matches σ (p.skip argument) (q.skip argument) := by
  rw [Player.skip, Player.skip, h.index]
  split
  · exact h.logError ..
  · exact h.logError ..
  · exact (h.trace ..).write ..

theorem beginReveal (h : Matches σ p q) (text : String) (t : Ticket) :
    Matches σ (p.beginReveal text (σ.ticket t)) (q.beginReveal text t) := by
  have hp := h.pushReveal { rest := text.toList, delay := q.charDelay, ticket := t }
  rw [Player.beginReveal, Player.beginReveal, h.charDelay]
  exact hp

/-- A command starts, and is going to be concluded. -/
theorem execute (h : Matches σ p q) {command : Command} {opcode : String}
    (hc : command.Passes (fun _ => False) opcode) (argument : String) (t : Ticket) :
    Pairs σ ((p.execute command opcode argument (σ.ticket t)).1,
        (p.execute command opcode argument (σ.ticket t)).2.1 ++
          [Order.perform (Task.conclude (σ.ticket t)
            (p.execute command opcode argument (σ.ticket t)).2.2)])
      ((q.execute command opcode argument t).1, (q.execute command opcode argument t).2.1 ++
        [Order.perform (Task.conclude t (q.execute command opcode argument t).2.2)]) := by
  have done {p' q' : Player} (h' : Matches σ p' q') {c c' : Completion} (hc : c = σ.completion c') :
      Pairs σ (p', [] ++ [.perform (.conclude (σ.ticket t) c)])
        (q', [] ++ [.perform (.conclude t c')]) := by
    rw [hc]
    exact .single h' (o := .perform (.conclude t c')) trivial
  cases command with
  | text =>
    have hr := Pairs.single (h.beginReveal argument t)
      (o := .perform (.reveal q.reveals.size .run)) trivial
    have hb := hr.concat (o := .perform (.conclude t (.pending (.reveal q.reveals.size)))) trivial
    simp only [Player.execute]
    rw [h.size]
    exact hb
  | pageBreak =>
    exact (h.emit _).concat (o := .perform (.conclude t (.pending (.finish t)))) trivial
  | lineBreak => exact (h.emit _).concat (o := .perform (.conclude t .completed)) trivial
  | click => exact done h rfl
  | wait =>
    simp only [Player.execute]
    split
    · exact done (h.waitFor _ t).1 (h.waitFor _ t).2
    · exact done (h.logError ..) rfl
  | setDelay =>
    simp only [Player.execute]
    split
    · exact done (h.withDelay _) rfl
    · exact done (h.logError ..) rfl
  | resetDelay => exact done (h.withDelay none) rfl
  | branch => exact done (h.branch _) rfl
  | skip => exact done (h.skip _) rfl
  | exit =>
    exact ((h.trace ..).emit _).concat (o := .perform (.conclude t (.pending .stuck))) trivial
  | cue c =>
    simp only [Player.execute]
    split
    · exact done (h.carryOut _ t).1 (h.carryOut _ t).2
    · exact done (h.logError ..) rfl
  | assign op =>
    simp only [Player.execute, h.progress]
    exact done (h.storeOutcome ..) rfl
  | step delta =>
    simp only [Player.execute, h.progress]
    exact done (h.storeOutcome ..) rfl
  | host b body =>
    -- such a command makes no calls
    obtain rfl : body = [] := List.eq_nil_iff_forall_not_mem.2 fun c hm => (hc c hm).holds
    have hn := h.note (.called opcode argument) (.called opcode argument)
    have ht : Matches σ { p.note (.called opcode argument) with
          tickets := p.tickets.push (σ.ticket t) }
        { q.note (.called opcode argument) with tickets := q.tickets.push t } :=
      ⟨{ hn.toCarries with queue := h.queue }, h.now⟩
    have hf := Pairs.single ht (o := .perform (.finish t)) trivial
    cases b with
    | complete => exact done ht rfl
    | finishThenComplete => exact hf.concat (o := .perform (.conclude t .completed)) trivial
    | finishThenHold =>
      exact hf.concat (o := .perform (.conclude t (.pending (.host .finishThenHold t)))) trivial
    | _ => exact done ht rfl

/-! ### The life of an instruction -/

theorem dispatch (h : Matches σ p q) (i : Instruction) : Pairs σ (p.dispatch i) (q.dispatch i) := by
  have hg : p.generation + 1 = q.generation + 1 + σ.generation := by
    rw [h.generation]
    omega
  have ht : Ticket.instruction (p.generation + 1) =
      σ.ticket (.instruction (q.generation + 1)) := by rw [hg]; rfl
  have hd : Matches σ { p with
        generation := p.generation + 1
        phase := .executing
        live := .instruction (p.generation + 1) :: p.live }
      { q with
        generation := q.generation + 1
        phase := .executing
        live := .instruction (q.generation + 1) :: q.live } := by
    refine ⟨{ h.toCarries with generation := hg, loading := .rfl, live := fun t => ?_ }, h.now⟩
    rw [ht, List.count_cons, List.count_cons, h.live]
    simp [Shift.ticket_inj]
  have hc : p.commands.get? i.opcode = q.commands.get? i.opcode := by rw [h.commands]
  rw [Player.dispatch, Player.dispatch]
  dsimp only
  rw [hc]
  split
  · next command hget =>
    rw [ht] at hd ⊢
    exact hd.execute (CommandTable.passes_of_get?_standard (h.standard ▸ hget)) i.argument
      (.instruction (q.generation + 1))
  · rw [ht] at hd ⊢
    exact .single hd (o := .perform (.conclude (.instruction (q.generation + 1)) .completed))
      trivial
  · rw [ht] at hd ⊢
    exact .single (hd.logError ..)
      (o := .perform (.conclude (.instruction (q.generation + 1)) .completed)) trivial

theorem runNext (h : Matches σ p q) : Pairs σ p.runNext q.runNext := by
  rw [Player.runNext, Player.runNext, h.queue]
  split
  · exact (h.withQueue rfl).dispatch _
  · rw [h.index]
    exact .nil (h.write ..)

theorem finish (h : Matches σ p q) (t : Ticket) : Pairs σ (p.finish (σ.ticket t)) (q.finish t) := by
  rw [Player.finish, Player.finish]
  by_cases hm : t ∈ q.live
  · rw [if_pos hm, if_pos (h.mem_live.2 hm)]
    have hl : Matches σ { p with live := p.live.erase (σ.ticket t) }
        { q with live := q.live.erase t } :=
      ⟨{ h.toCarries with live := h.count_erase t }, h.now⟩
    cases t with
    | call k => exact .nil (hl.note ..)
    | instruction g =>
      have hgen : g + σ.generation = p.generation ↔ g = q.generation := by
        rw [h.generation, Nat.add_right_cancel_iff]
      dsimp only [Shift.ticket] at hl ⊢
      by_cases hg : g = q.generation
      · rw [if_pos hg, if_pos (hgen.2 hg)]
        exact Matches.runNext ⟨{ hl.toCarries with active := rfl }, h.now⟩
      · rw [if_neg hg, if_neg (mt hgen.1 hg)]
        exact .nil (hl.trace ..)
  · rw [if_neg hm, if_neg (mt h.mem_live.1 hm)]
    exact .nil h

theorem conclude (h : Matches σ p q) (t : Ticket) (c : Completion) :
    Pairs σ (p.conclude (σ.ticket t) (σ.completion c)) (q.conclude t c) := by
  cases c with
  | completed => exact h.finish t
  | pending x =>
    have pend {p' q' : Player} (h' : Matches σ p' q') (hp : p'.live = p.live)
        (hq : q'.live = q.live) :
        Pairs σ (if σ.ticket t ∈ p'.live then
            ({ p' with active := some (σ.handler x), phase := .awaiting }, []) else (p', []))
          (if t ∈ q'.live then ({ q' with active := some x, phase := .awaiting }, [])
            else (q', [])) := by
      by_cases hm : t ∈ q.live
      · rw [if_pos (hp ▸ h.mem_live.2 hm), if_pos (hq ▸ hm)]
        exact .nil ⟨{ h'.toCarries with active := rfl, loading := by simp }, h'.now⟩
      · rw [if_neg (hp ▸ mt h.mem_live.1 hm), if_neg (hq ▸ hm)]
        exact .nil h'
    cases x with
    | reveal r => exact pend (h.modifyReveal r fun _ => rfl) rfl rfl
    | _ => exact pend h rfl rfl

/-! ### Shown texts -/

theorem stopReveal (h : Matches σ p q) (r : Nat) (v : Reveal) (mode : Reveal.Mode) :
    Matches σ (p.stopReveal (r + σ.reveal) (σ.text v) mode) (q.stopReveal r v mode) := by
  have stop {p' q' : Player} (h' : Matches σ p' q') :
      Matches σ (p'.modifyReveal (r + σ.reveal) fun v => { v with mode, timer := none })
        (q'.modifyReveal r fun v => { v with mode, timer := none }) :=
    h'.modifyReveal r fun _ => rfl
  rw [Player.stopReveal, Player.stopReveal]
  dsimp only [Shift.text]
  cases v.timer with
  | none => exact stop h
  | some k => exact stop (h.cancelTimer k)

theorem armReveal (h : Matches σ p q) (r : Nat) (mode : Reveal.Mode) (d : Nat) (repeats : Bool)
    (a : Reveal.Act) : Matches σ (p.armReveal (r + σ.reveal) mode d repeats a)
      (q.armReveal r mode d repeats a) := by
  have ht := h.startTimer d repeats (a := .reveal r a) trivial
  rw [Player.armReveal, Player.armReveal, h.schedule.size]
  exact ht.modifyReveal r fun _ => rfl

theorem isKept (h : Matches σ p q) (r : Nat) (v : Reveal) :
    p.isKept (r + σ.reveal) (σ.text v) = q.isKept r v := by
  have ha : p.active = some (.reveal (r + σ.reveal)) ↔ q.active = some (.reveal r) := by
    rw [h.active]
    cases q.active with
    | none => simp
    | some x =>
      rw [Option.map_some, Option.some.injEq, Option.some.injEq]
      exact Shift.handler_inj (y := .reveal r)
  rw [Player.isKept, Player.isKept, decide_eq_decide.2 ha]
  rfl

/-- A text is kept in both while something is under way. -/
theorem keeping (h : Matches σ p q) (r : Nat) {f g : Player → Player × Orders}
    (hf : ∀ {p' q' : Player}, Matches σ p' q' → Pairs σ (f p') (g q')) :
    Pairs σ (p.keeping (r + σ.reveal) f) (q.keeping r g) := by
  have hk : Matches σ (p.modifyReveal (r + σ.reveal) fun v => { v with holds := v.holds + 1 })
      (q.modifyReveal r fun v => { v with holds := v.holds + 1 }) := h.modifyReveal r fun _ => rfl
  exact (hf hk).concat (o := .perform (.reveal r .release)) trivial

theorem proceed (h : Matches σ p q) (r : Nat) (v : Reveal) :
    Pairs σ (p.proceed (r + σ.reveal) (σ.text v)) (q.proceed r v) := by
  have goOn (rest : List Char) (mode : Reveal.Mode) :
      Matches σ (p.modifyReveal (r + σ.reveal) fun v => { v with rest, mode })
        (q.modifyReveal r fun v => { v with rest, mode }) := h.modifyReveal r fun _ => rfl
  rw [Player.proceed, Player.proceed]
  dsimp only [Shift.text]
  split
  · exact ((goOn [] .done).trace ..).finish v.ticket
  · exact .nil (((goOn _ .running).trace ..).armReveal ..)
  · exact .nil ((goOn _ .awaitingInput).trace ..)
  · exact ((goOn _ .awaitingInput).trace ..).emit _
  · exact ((goOn _ .pageEnd).trace ..).emit _
  · exact ((goOn _ .running).emit _).concat (o := .perform (.reveal r .resume)) trivial
  · exact .nil (h.armReveal ..)

theorem runReveal (h : Matches σ p q) (r : Nat) :
    Pairs σ (p.runReveal (r + σ.reveal)) (q.runReveal r) := by
  have hr : Matches σ (p.modifyReveal (r + σ.reveal) fun v => { v with mode := .running })
      (q.modifyReveal r fun v => { v with mode := .running }) := h.modifyReveal r fun _ => rfl
  rw [Player.runReveal, Player.runReveal, hr.reveals r]
  cases (q.modifyReveal r fun v => { v with mode := .running }).reveals[r]? with
  | none => exact .nil hr
  | some v => exact hr.proceed r v

theorem tickReveal (h : Matches σ p q) (r : Nat) (v : Reveal) :
    Pairs σ (p.tickReveal (r + σ.reveal) (σ.text v)) (q.tickReveal r v) := by
  have stay : Pairs σ (p, [.perform (.reveal (r + σ.reveal) .ticked)])
      (q, [.perform (.reveal r .ticked)]) := .single h (o := .perform (.reveal r .ticked)) trivial
  have hrest : (σ.text v).rest = v.rest := rfl
  rw [Player.tickReveal, Player.tickReveal, hrest]
  split
  · exact stay
  · next c rest _ =>
    have hr : Matches σ (p.modifyReveal (r + σ.reveal) fun v => { v with rest })
        (q.modifyReveal r fun v => { v with rest }) := h.modifyReveal r fun _ => rfl
    split
    · exact stay
    · exact (hr.emit _).concat (o := .perform (.reveal r .ticked)) trivial

theorem nudgeReveal (h : Matches σ p q) (r : Nat) (v : Reveal) :
    Pairs σ (p.nudgeReveal (r + σ.reveal) (σ.text v)) (q.nudgeReveal r v) := by
  rw [Player.nudgeReveal, Player.nudgeReveal]
  dsimp only [Shift.text]
  split
  · have hr : Matches σ
        ((p.stopReveal (r + σ.reveal) (σ.text v) .running).modifyReveal (r + σ.reveal)
          fun v => { v with rest := Reveal.afterStretch v.rest })
        ((q.stopReveal r v .running).modifyReveal r
          fun v => { v with rest := Reveal.afterStretch v.rest }) :=
      (h.stopReveal r v .running).modifyReveal r fun _ => rfl
    split
    · exact .single hr (o := .perform (.reveal r .run)) trivial
    · exact (hr.emit _).concat (o := .perform (.reveal r .run)) trivial
  · exact h.runReveal r
  · have hr : Matches σ (p.modifyReveal (r + σ.reveal) fun v => { v with mode := .done })
        (q.modifyReveal r fun v => { v with mode := .done }) := h.modifyReveal r fun _ => rfl
    exact hr.finish v.ticket
  · cases v.timer with
    | none => exact .nil h
    | some k => exact .nil (h.skipTimer k)
  · exact .nil h
  · exact .nil h

theorem actReveal (h : Matches σ p q) (r : Nat) (a : Reveal.Act) :
    Pairs σ (p.actReveal (r + σ.reveal) a) (q.actReveal r a) := by
  rw [Player.actReveal, Player.actReveal, h.reveals r]
  cases q.reveals[r]? with
  | none => exact .nil h
  | some v =>
    have hmode : (σ.text v).mode = v.mode := rfl
    have hrest : (σ.text v).rest = v.rest := rfl
    cases a with
    | run => exact h.runReveal r
    | resume =>
      dsimp only [Option.map_some]
      rw [hmode]
      split
      · exact h.proceed r v
      · exact .nil h
    | tick =>
      dsimp only [Option.map_some]
      rw [hmode, h.isKept]
      split
      · exact h.keeping r fun h' => h'.tickReveal r v
      · exact .nil h
    | ticked =>
      dsimp only [Option.map_some]
      rw [hmode, hrest]
      split
      · exact (h.stopReveal r v .running).runReveal r
      · exact .nil h
    | wake =>
      dsimp only [Option.map_some]
      rw [hmode, h.isKept]
      split
      · exact h.keeping r fun h' => h'.runReveal r
      · exact .nil h
    | release => exact .nil (h.modifyReveal r fun _ => rfl)

/-! ### Input and interruption -/

theorem advanceHandler (h : Matches σ p q) (x : Handler) :
    Pairs σ (p.advanceHandler (σ.handler x)) (q.advanceHandler x) := by
  cases x with
  | finish t => exact h.finish t
  | stuck => exact .nil h
  | timer k => exact .nil (h.skipTimer k)
  | reveal r =>
    dsimp only [Player.advanceHandler, Shift.handler]
    rw [h.reveals r]
    cases q.reveals[r]? with
    | none => exact .nil h
    | some v => exact h.keeping r fun h' => h'.nudgeReveal r v
  | host b t =>
    have hn : Pairs σ (p.note (.advanced none), []) (q.note (.advanced none), []) :=
      .nil (h.note ..)
    cases b with
    | onNext =>
      dsimp only [Player.advanceHandler, Shift.handler]
      rw [decide_eq_decide.2 h.mem_live]
      exact (h.finish t).concat (o := .perform (.note (.advanced (some (decide (t ∈ q.live))))))
        trivial
    | _ => exact hn

theorem cancelHandler (h : Matches σ p q) (x : Handler) :
    Matches σ (p.cancelHandler (σ.handler x)) (q.cancelHandler x) := by
  cases x with
  | finish t => exact h
  | stuck => exact h
  | timer k => exact h.cancelTimer k
  | reveal r =>
    dsimp only [Player.cancelHandler, Shift.handler]
    rw [h.reveals r]
    cases q.reveals[r]? with
    | none => exact h
    | some v => exact h.stopReveal r v .done
  | host b t =>
    cases b with
    | cancellable => exact h.note ..
    | _ => exact h

theorem next (h : Matches σ p q) : Pairs σ p.next q.next := by
  rw [Player.next, Player.next, h.active]
  cases q.active with
  | none => exact .nil h
  | some x => exact h.advanceHandler x

theorem interrupt (h : Matches σ p q) : Matches σ p.interrupt q.interrupt := by
  have hi : Matches σ { p with generation := p.generation + 1, queue := [], active := none }
      { q with generation := q.generation + 1, queue := [], active := none } := by
    refine ⟨{ h.toCarries with queue := rfl, active := rfl, generation := ?_ }, h.now⟩
    have hg := h.generation
    dsimp only
    omega
  unfold Player.interrupt
  dsimp only
  rw [h.active]
  cases q.active with
  | none => exact hi
  | some x => exact hi.cancelHandler x

/-! ### Scenes and lines -/

theorem withLines (h : Matches σ p q) (l : Option (List String)) :
    Matches σ { p with lines := l } { q with lines := l } :=
  ⟨{ h.toCarries with lines := rfl }, h.now⟩

theorem loadScene (h : Matches σ p q) (s : String) :
    Matches σ (p.loadScene s) (q.loadScene s) := by
  have hi := h.interrupt.withLines none
  unfold Player.loadScene
  generalize p.interrupt = p', q.interrupt = q' at hi ⊢
  dsimp only
  split
  · exact ⟨{ (hi.withPhase (x := .idle) nofun).toCarries with loadRequest := rfl }, hi.now⟩
  · have hv : p'.loadVersion + 1 = q'.loadVersion + 1 + σ.request := by
      have hv : p'.loadVersion = q'.loadVersion + σ.request := hi.loadVersion
      omega
    have hl : Matches σ { p' with
          lines := none
          loadVersion := p'.loadVersion + 1
          loadRequest := some ⟨s, p'.loadVersion + 1⟩
          phase := .loading }
        { q' with
          lines := none
          loadVersion := q'.loadVersion + 1
          loadRequest := some ⟨s, q'.loadVersion + 1⟩
          phase := .loading } :=
      ⟨{ hi.toCarries with
        loading := Iff.rfl
        loadVersion := hv
        loadRequest := by rw [hv]; rfl }, hi.now⟩
    exact hl.trace ..

theorem runLine (h : Matches σ p q) (i : UInt64) : Pairs σ (p.runLine i) (q.runLine i) := by
  have hi := h.interrupt
  unfold Player.runLine
  by_cases hl : q.phase = .loading
  · rw [if_pos hl, if_pos (h.loading.2 hl)]
    exact .nil (h.trace ..)
  · rw [if_neg hl, if_neg (mt h.loading.1 hl)]
    generalize p.interrupt = p', q.interrupt = q' at hi ⊢
    have hlines : p'.lines = q'.lines := hi.lines
    dsimp only
    rw [hlines]
    cases hq : q'.lines with
    | none => exact .nil (((hi.withLines none).withPhase (x := .idle) nofun).logError ..)
    | some lines =>
      dsimp only
      cases lines[i.toNat]? with
      | none => exact .nil (((hi.withLines lines).withPhase (x := .idle) nofun).note ..)
      | some line =>
        have ht := (hi.trace .engine .trace s!"[{i.toNat}] {line}" s!"[{i.toNat}] {line}").withPhase
          (x := .executing) nofun
        exact (ht.withQueue (by rw [ht.queue])).runNext

theorem completeLoad (h : Matches σ p q) (r : LoadRequest)
    {x x' : Except SourceError (List String)} (hx : x = x') :
    Matches σ (p.completeLoad ⟨r.scene, r.version + σ.request⟩ x).1 (q.completeLoad r x').1 := by
  have hr : r.version + σ.request ≠ p.loadVersion ∨ p.phase ≠ .loading ↔
      r.version ≠ q.loadVersion ∨ q.phase ≠ .loading := by
    rw [h.loadVersion, ne_eq, Nat.add_right_cancel_iff, ne_eq, ne_eq, h.loading]
  subst hx
  unfold Player.completeLoad
  by_cases hc : r.version ≠ q.loadVersion ∨ q.phase ≠ .loading
  · rw [if_pos hc, if_pos (hr.2 hc)]
    exact h.trace ..
  · rw [if_neg hc, if_neg (mt hr.1 hc)]
    cases x with
    | ok lines =>
      have ht := h.trace .engine .info s!"Scene '{r.scene}' loaded ({lines.length} lines)"
        s!"Scene '{r.scene}' loaded ({lines.length} lines)"
      exact ((ht.withLines (some lines)).withPhase (x := .executing) nofun).notify .index
    | error e => exact (h.withPhase (x := .idle) nofun).logError ..

theorem load (h : Matches σ p q) : Pairs σ p.load q.load := by
  have ht : Matches σ { p with loadRequest := none } { q with loadRequest := none } :=
    ⟨{ h.toCarries with loadRequest := rfl }, h.now⟩
  unfold Player.load Player.takeRequest
  rw [h.loadRequest]
  cases q.loadRequest with
  | none => exact .nil ht
  | some r =>
    have hc := ht.completeLoad r (congrFun h.source r.scene)
    exact ((Pairs.nil hc).concat (o := .settle) trivial).concat (o := .perform .load) trivial

/-! ### Tasks -/

/-- A place is delivered. Others may hear it before the player and after it. -/
theorem deliver (h : Matches σ p q) {c : CellName} (hc : c.IsPlace) :
    Strides σ (Player.perform (.deliver c) p) (Player.perform (.deliver c) q) := by
  have hcell := h.stage c
  have hstore : σ.Stores c ({ p.stage.cell c with scheduled := false }, false)
      ({ q.stage.cell c with scheduled := false }, false) :=
    ⟨⟨hcell.value, fun hc => (hcell.attended hc).of_eq rfl rfl,
      fun hc => (hcell.heard hc).of_eq rfl rfl, hcell.alone, fun _ => rfl, hcell.unheard⟩,
      fun _ => rfl, fun _ => rfl⟩
  refine ⟨h.store hstore, ?_⟩
  have hv : (p.stage.cell c).value = (q.stage.cell c).value := h.value hc.ne_soundEffect
  obtain ⟨later, hp, hlater⟩ := (hcell.attended hc).ids
  have hq : (q.stage.cell c).observers.map Observer.id = [0] := by
    obtain ⟨ids, hids, -⟩ := (hcell.heard hc).ids
    have hlen := congrArg List.length hids
    rw [List.length_map, hcell.alone hc, List.length_append, List.length_range] at hlen
    obtain rfl : ids = [] := List.eq_nil_of_length_eq_zero (by omega)
    exact hids
  have stray (ids : List Nat) (hids : ∀ id ∈ ids, id ≠ c.rank σ.rank) :
      Laced σ.order Order.IsOngoing σ.StraysBy
        (ids.map fun id => .perform (.hear c id (q.stage.cell c).value)) [] := by
    refine .strays fun o ho => ?_
    obtain ⟨id, hid, rfl⟩ := List.mem_map.1 ho
    exact ⟨_, rfl, fun _ => hids id hid⟩
  have hbefore := stray (List.range (c.rank σ.rank)) fun id hid =>
    Nat.ne_of_lt (List.mem_range.1 hid)
  have hafter := stray later fun id hid => Nat.ne_of_gt (hlater id hid)
  have hown : Order.IsOngoing (.perform (.hear c 0 (q.stage.cell c).value)) := ⟨hc, rfl⟩
  have hl := hbefore.append (hafter.own hown)
  simp only [Player.perform, Cell.beginDelivery, hq, hp, hv, List.range_succ, List.map_append,
    List.append_assoc]
  exact hl

/-- **A task of a script** does the same to both players. -/
theorem perform (h : Matches σ p q) {t : Task} (ht : t.IsOngoing) :
    Strides σ (Player.perform (σ.task t) p) (Player.perform t q) := by
  cases t with
  | deliver c => exact h.deliver ht
  | hear c id v =>
    obtain ⟨hc, rfl⟩ := ht
    have hp : Player.perform (.hear c (c.rank σ.rank) v) p = p.reactTo c.reaction c v := by
      rw [Steady.perform_hear_eq (((h.stage c).attended hc).hear_own v), Steady.store_cell_self]
    have hq : Player.perform (.hear c 0 v) q = q.reactTo c.reaction c v := by
      rw [Steady.perform_hear_eq (((h.stage c).heard hc).hear_own v), Steady.store_cell_self]
    rw [Shift.task, hp, hq]
    rcases hc with rfl | rfl
    · exact (Pairs.nil (h.loadScene v)).strides
    · exact (h.runLine v).strides
  | ring k =>
    obtain ⟨hs, hcall, hongoing⟩ := h.schedule.ring h.now k
    have hw := h.withSchedule hs (now_ring ..) (now_ring ..)
    simp only [Player.perform, Shift.task, hcall]
    cases hr : (q.schedule.ring .ring k).2 with
    | none => exact (Pairs.nil hw).strides
    | some a => exact (Pairs.single hw (o := .perform a) (hongoing a hr)).strides
  | finish t => exact (h.finish t).strides
  | conclude t c => exact (h.conclude t c).strides
  | reveal r a => exact (h.actReveal r a).strides
  | call a c =>
    obtain ⟨rfl, rfl | rfl⟩ := ht
    · exact (h.next.concat (o := .perform (.report .nobody .none)) rfl).strides
    · have hs := (Pairs.single h (o := .settle) trivial).concat (o := .perform .load) trivial
      exact (hs.concat (o := .perform (.report .nobody .none)) rfl).strides
  | report a x =>
    obtain rfl : a = .nobody := ht
    exact (Pairs.nil h).strides
  | note e => exact (Pairs.nil (h.note e e)).strides
  | load => exact h.load.strides

/-! ### The signals of tasks -/

theorem instructionSignal? (h : Matches σ p q) (i : Instruction) :
    p.instructionSignal? i = q.instructionSignal? i := by
  rw [Player.instructionSignal?, Player.instructionSignal?, h.commands]

theorem nextSignal? (h : Matches σ p q) : p.nextSignal? = q.nextSignal? := by
  rw [Player.nextSignal?, Player.nextSignal?, h.queue]
  exact congrArg _ (funext h.instructionSignal?)

theorem finishSignal? (h : Matches σ p q) (t : Ticket) :
    p.finishSignal? (σ.ticket t) = q.finishSignal? t := by
  have ht : σ.ticket t ∈ p.live ∧ σ.ticket t = .instruction p.generation ↔
      t ∈ q.live ∧ t = .instruction q.generation := by
    rw [h.mem_live, h.generation]
    exact and_congr_right' (Shift.ticket_inj (u := .instruction q.generation))
  simp only [Player.finishSignal?, h.nextSignal?, ht]

theorem proceedSignal? (h : Matches σ p q) (v : Reveal) :
    p.proceedSignal? (σ.text v) = q.proceedSignal? v := by
  rw [Player.proceedSignal?, Player.proceedSignal?]
  dsimp only [Shift.text]
  rw [h.finishSignal?]

theorem nudgeSignal? (h : Matches σ p q) (v : Reveal) :
    p.nudgeSignal? (σ.text v) = q.nudgeSignal? v := by
  rw [Player.nudgeSignal?, Player.nudgeSignal?, h.proceedSignal?]
  dsimp only [Shift.text]
  rw [h.finishSignal?]

theorem actSignal? (h : Matches σ p q) (r : Nat) (a : Reveal.Act) :
    p.actSignal? (r + σ.reveal) a = q.actSignal? r a := by
  rw [Player.actSignal?, Player.actSignal?, h.reveals r]
  cases q.reveals[r]? with
  | none => rfl
  | some v =>
    cases a <;> simp only [Option.map_some, Option.bind_some, h.proceedSignal?, h.isKept] <;> rfl

theorem handlerSignal? (h : Matches σ p q) (x : Handler) :
    p.handlerSignal? (σ.handler x) = q.handlerSignal? x := by
  cases x with
  | finish t => exact h.finishSignal? t
  | reveal r =>
    dsimp only [Player.handlerSignal?, Shift.handler]
    rw [h.reveals r]
    cases q.reveals[r]? with
    | none => rfl
    | some v => exact h.nudgeSignal? v
  | host b t =>
    cases b with
    | onNext => exact h.finishSignal? t
    | _ => rfl
  | _ => rfl

theorem lineSignal? (h : Matches σ p q) (i : UInt64) : p.lineSignal? i = q.lineSignal? i := by
  have hi : p.instructionSignal? = q.instructionSignal? := funext h.instructionSignal?
  simp only [Player.lineSignal?, h.lines, hi, h.loading]

/-- **The signal of a task of a script** is the same in both players. -/
theorem signal? (h : Matches σ p q) {t : Task} (ht : t.IsOngoing) :
    p.signal? (σ.task t) = q.signal? t := by
  cases t with
  | finish t => exact h.finishSignal? t
  | conclude t c =>
    cases c with
    | completed => exact h.finishSignal? t
    | pending x => rfl
  | reveal r a => exact h.actSignal? r a
  | call a c =>
    obtain ⟨-, rfl | rfl⟩ := ht
    · dsimp only [Player.signal?, Shift.task]
      rw [h.active]
      cases q.active with
      | none => rfl
      | some x => exact h.handlerSignal? x
    · rfl
  | hear c id v =>
    obtain ⟨hc, rfl⟩ := ht
    rcases hc with rfl | rfl
    · rfl
    · have hp := ((h.stage .index).attended (.inr rfl)).hear_own v
      have hq := ((h.stage .index).heard (.inr rfl)).hear_own v
      have hp₂ : (p.stage.index.hear (CellName.rank σ.rank .index) v).2 = some .runLine := by
        exact congrArg Prod.snd hp
      have hq₂ : (q.stage.index.hear 0 v).2 = some .runLine := congrArg Prod.snd hq
      dsimp only [Player.signal?, Shift.task]
      rw [if_pos hp₂, if_pos hq₂]
      exact h.lineSignal? v
  | _ => rfl

end Matches

end Player

end Novella
