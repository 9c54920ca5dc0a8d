import Novella.Proofs.Player.ActiveInstruction

/-!
# Signals of a script

A task sends at most one signal, and which one can be told before it is carried out: from the
instruction that is going to run, or from the text that goes on. The signal is all that reaches the
hooks and the book. Otherwise a script leaves its surroundings alone: the commands, the source of
the scenes, the requests that the host has taken, and who observes which cell.

## Main definitions

* `Surroundings`, `Player.surroundings` — what a script changes by signals only
* `Player.signal?` — the signal that a task sends

## Main results

* `Player.surroundings_perform` — a task of a script sends its signal and does nothing else to the
  surroundings
-/

namespace Novella

/-- What a script changes by signals only. -/
structure Surroundings where
  /-- Where signals go. -/
  hooks : Hooks Receiver
  /-- What a session keeps. -/
  book : Book
  /-- The meaning of opcodes. -/
  commands : CommandTable
  /-- Where scenes come from. -/
  source : SceneSource
  /-- The requests that the host has taken. -/
  requests : Array LoadRequest
  /-- Who observes the cells. -/
  observers : (c : CellName) → List (Observer c.Value Reaction)

namespace Player

/-- The surroundings of a player. -/
def surroundings (p : Player) : Surroundings where
  hooks := p.hooks
  book := p.book
  commands := p.commands
  source := p.source
  requests := p.requests
  observers c := (p.stage.cell c).observers

/-- The player after it has sent a signal or none. -/
def send (p : Player) : Option Signal → Player
  | some s => (p.emit s).1
  | none => p

variable {p q x : Player}

/-! ### Surroundings -/

@[simp] theorem surroundings_note (p : Player) (e : Event) :
    (p.note e).surroundings = p.surroundings := rfl

@[simp] theorem surroundings_logError (p : Player) (s : String) :
    (p.logError s).surroundings = p.surroundings := rfl

@[simp] theorem surroundings_trace (p : Player) (c : LogCategory) (l : LogLevel) (s : String) :
    (p.trace c l s).surroundings = p.surroundings := by
  rcases p.trace_eq c l s with h | ⟨e, h⟩ <;> rw [h]
  rfl

theorem surroundings_store (p : Player) (c : CellName) {x : Cell c.Value Reaction × Bool}
    (h : x.1.observers = (p.stage.cell c).observers) :
    (p.store c x).surroundings = p.surroundings := by
  have ho : (fun d => ((p.stage.withCell c x.1).cell d).observers) =
      fun d => (p.stage.cell d).observers := by
    funext d
    by_cases hd : d = c
    · subst hd
      rw [Stage.cell_withCell_self, h]
    · rw [Stage.cell_withCell_of_ne _ hd]
  exact congrArg (fun o => { p.surroundings with observers := o }) ho

@[simp] theorem surroundings_write (p : Player) (c : CellName) (v : c.Value) :
    (p.write c v).surroundings = p.surroundings :=
  surroundings_store p c (Cell.observers_set ..)

@[simp] theorem surroundings_notify (p : Player) (c : CellName) :
    (p.notify c).surroundings = p.surroundings :=
  surroundings_store p c (Cell.observers_notify _)

@[simp] theorem surroundings_playEffect (p : Player) (name : String) :
    (p.playEffect name).surroundings = p.surroundings := by
  rw [playEffect, surroundings_notify, surroundings_write]

@[simp] theorem surroundings_cancelTimer (p : Player) (k : Nat) :
    (p.cancelTimer k).surroundings = p.surroundings := rfl

@[simp] theorem surroundings_modifyReveal (p : Player) (r : Nat) (f : Reveal → Reveal) :
    (p.modifyReveal r f).surroundings = p.surroundings := rfl

@[simp] theorem surroundings_armReveal (p : Player) (r : Nat) (mode : Reveal.Mode) (d : Nat)
    (repeats : Bool) (a : Reveal.Act) : (p.armReveal r mode d repeats a).surroundings =
      p.surroundings := rfl

@[simp] theorem surroundings_stopReveal (p : Player) (r : Nat) (v : Reveal) (mode : Reveal.Mode) :
    (p.stopReveal r v mode).surroundings = p.surroundings := by
  rw [stopReveal]
  split <;> rfl

@[simp] theorem surroundings_waitFor (p : Player) (d : Nat) (t : Ticket) :
    (p.waitFor d t).1.surroundings = p.surroundings := by
  rw [waitFor]
  split <;> rfl

theorem surroundings_foldl_write (ws : List CellWrite) (p : Player) :
    (ws.foldl (fun p w => p.write w.cell w.value) p).surroundings = p.surroundings := by
  induction ws generalizing p with
  | nil => rfl
  | cons w ws ih => rw [List.foldl_cons, ih, surroundings_write]

@[simp] theorem surroundings_carryOut (p : Player) (cue : Cue) (t : Ticket) :
    (p.carryOut cue t).1.surroundings = p.surroundings := by
  unfold carryOut
  dsimp only
  rw [surroundings_waitFor]
  split
  · rw [surroundings_playEffect, surroundings_foldl_write]
  · rw [surroundings_foldl_write]

@[simp] theorem surroundings_storeOutcome (p : Player) (opcode argument : String)
    (r : Except AssignmentError Assignment.Outcome) :
    (p.storeOutcome opcode argument r).surroundings = p.surroundings := by
  cases r with
  | ok o => rw [storeOutcome, surroundings_trace, surroundings_write]
  | error e => rfl

@[simp] theorem surroundings_branch (p : Player) (argument : String) :
    (p.branch argument).surroundings = p.surroundings := by
  obtain ⟨events, queue, hq, -⟩ := p.branch_eq argument
  rw [hq]
  rfl

@[simp] theorem surroundings_skip (p : Player) (argument : String) :
    (p.skip argument).surroundings = p.surroundings := by
  rw [skip]
  split
  · rfl
  · rfl
  · dsimp only
    rw [surroundings_write, surroundings_trace]

@[simp] theorem surroundings_cancelHandler (p : Player) (x : Handler) :
    (p.cancelHandler x).surroundings = p.surroundings := by
  cases x with
  | reveal r =>
    rw [cancelHandler]
    split
    · exact surroundings_stopReveal ..
    · rfl
  | host b t => cases b <;> rfl
  | _ => rfl

@[simp] theorem surroundings_interrupt (p : Player) :
    p.interrupt.surroundings = p.surroundings := by
  unfold interrupt
  dsimp only
  split
  · rw [surroundings_cancelHandler]
    rfl
  · rfl

@[simp] theorem surroundings_loadScene (p : Player) (s : String) :
    (p.loadScene s).surroundings = p.surroundings := by
  have hi : { p.interrupt with lines := none }.surroundings = p.surroundings :=
    surroundings_interrupt p
  rw [loadScene]
  dsimp only
  split
  · exact hi
  · rw [surroundings_trace]
    exact hi

@[simp] theorem surroundings_present (p : Player) (c : Context) (v : Progress) :
    (p.present c v).surroundings = p.surroundings := by
  simp only [present, surroundings_write]

@[simp] theorem surroundings_goto (p : Player) (s : String) (i : UInt64) :
    (p.goto s i).surroundings = p.surroundings := by
  rw [goto]
  dsimp only
  split
  · simp
  · rw [surroundings_notify, surroundings_write]
    split <;> simp

@[simp] theorem surroundings_restore (p : Player) (c : Context) (v : Progress) :
    (p.restore c v).surroundings = p.surroundings := by
  rw [restore, surroundings_goto, surroundings_present]

@[simp] theorem surroundings_completeLoad (p : Player) (r : LoadRequest)
    (x : Except SourceError (List String)) :
    (p.completeLoad r x).1.surroundings = p.surroundings := by
  unfold completeLoad
  split
  · exact surroundings_trace ..
  · cases x with
    | ok lines =>
      dsimp only
      rw [surroundings_notify]
      exact surroundings_trace p .engine .info
        s!"Scene '{r.scene}' loaded ({lines.length} lines)"
    | error e => rfl

/-! ### Signals -/

/-- What a receiver does to the surroundings depends on them alone. -/
theorem surroundings_react (p : Player) (k : Nat) (o : Occurrence) :
    (p.react k o).1.surroundings = p.surroundings := by
  rw [react]
  dsimp only
  split
  · split <;> rfl
  · rfl

theorem surroundings_passOn (h : x.surroundings = p.surroundings) (s : Signal) :
    (x.passOn s).1.surroundings = (p.passOn s).1.surroundings := by
  have hb : x.book = p.book := congrArg Surroundings.book h
  unfold passOn
  rw [hb]
  split
  · rw [surroundings_react, surroundings_react, h]
  · next hooks _ =>
    exact congrArg (fun y : Surroundings => { y with book := { p.book with
      hooks := p.book.hooks.withRelay s.hook ⟨none, some s⟩ } }) h

theorem surroundings_emit (h : x.surroundings = p.surroundings) (s : Signal) :
    (x.emit s).1.surroundings = (p.emit s).1.surroundings := by
  have hh : x.hooks = p.hooks := congrArg Surroundings.hooks h
  have hb : x.book = p.book := congrArg Surroundings.book h
  unfold emit
  rw [hh]
  split
  · next r _ =>
    cases r with
    | listener k =>
      change (x.react k _).1.surroundings = (p.react k _).1.surroundings
      rw [surroundings_react, surroundings_react, h]
    | book =>
      refine surroundings_passOn ?_ s
      cases s with
      | text token =>
        exact (congrArg (fun y : Surroundings => { y with book := { y.book with
          history := y.book.history.appendText token } }) h)
      | page =>
        exact (congrArg (fun y : Surroundings => { y with book := { y.book with
          pageDue := true } }) h)
      | exit => exact h
  · exact congrArg (fun y : Surroundings => { y with
      hooks := p.hooks.withRelay s.hook ⟨none, some s⟩ }) h

theorem surroundings_send (h : x.surroundings = p.surroundings) (s : Option Signal) :
    (x.send s).surroundings = (p.send s).surroundings := by
  cases s with
  | none => exact h
  | some s => exact surroundings_emit h s

/-! ### The signal of a task -/

end Player

/-- The signal that a command sends when it starts. -/
def Command.signal? : Command → Option Signal
  | pageBreak => some .page
  | lineBreak => some (.text "\n")
  | exit => some .exit
  | _ => none

namespace Player

/-- The signal of an instruction. -/
def instructionSignal? (p : Player) (i : Instruction) : Option Signal :=
  (p.commands.get? i.opcode).join.bind Command.signal?

/-- The signal of the next instruction of the queue. -/
def nextSignal? (p : Player) : Option Signal := p.queue.head?.bind p.instructionSignal?

/-- The signal of what comes after a ticket is given back. -/
def finishSignal? (p : Player) (t : Ticket) : Option Signal :=
  if t ∈ p.live ∧ t = .instruction p.generation then p.nextSignal? else none

/-- The signal of what comes after a command has started. -/
def concludeSignal? (p : Player) (t : Ticket) : Completion → Option Signal
  | .completed => p.finishSignal? t
  | .pending _ => none

/-- The signal of a text that goes on to its next pause. -/
def proceedSignal? (p : Player) (v : Reveal) : Option Signal :=
  match Reveal.scan v.delay v.rest with
  | .done => p.finishSignal? v.ticket
  | .lineBreak _ => some (.text "\n")
  | .pageBreak _ => some .page
  | .emit token _ => some (.text (String.ofList token))
  | _ => none

end Player

/-- The signal of the next character of a text, unless the stretch has ended. -/
def Reveal.tickSignal? (v : Reveal) : Option Signal :=
  match v.rest with
  | [] => none
  | c :: _ => if isPause v.rest then none else some (.text (String.singleton c))

namespace Player

/-- The signal of a text that is given input. -/
def nudgeSignal? (p : Player) (v : Reveal) : Option Signal :=
  match v.mode with
  | .ticking =>
    match Reveal.stretch v.rest with
    | [] => none
    | token => some (.text (String.ofList token))
  | .awaitingInput => p.proceedSignal? v
  | .pageEnd => p.finishSignal? v.ticket
  | _ => none

/-- The signal of an act of a text. -/
def actSignal? (p : Player) (r : Nat) (a : Reveal.Act) : Option Signal :=
  p.reveals[r]?.bind fun v =>
    match a with
    | .run => p.proceedSignal? v
    | .resume => if v.mode = .running then p.proceedSignal? v else none
    | .tick => if p.isKept r v ∧ v.mode = .ticking then v.tickSignal? else none
    | .ticked =>
      if v.mode = .ticking ∧ Reveal.atBoundary v.rest then p.proceedSignal? v else none
    | .wake => if p.isKept r v ∧ v.mode = .waiting then p.proceedSignal? v else none
    | .release => none

/-- The signal of a handler that is given input. -/
def handlerSignal? (p : Player) : Handler → Option Signal
  | .finish t => p.finishSignal? t
  | .reveal r => p.reveals[r]?.bind p.nudgeSignal?
  | .host .onNext t => p.finishSignal? t
  | _ => none

/-- The signal of a line that starts. -/
def lineSignal? (p : Player) (i : UInt64) : Option Signal :=
  if p.phase = .loading then none
  else
    (p.lines.bind (·[i.toNat]?)).bind fun line =>
      (Line.instructions line).head?.bind p.instructionSignal?

/-- The signal that a task sends, if it sends any. -/
def signal? (p : Player) : Task → Option Signal
  | .finish t => p.finishSignal? t
  | .conclude t c => p.concludeSignal? t c
  | .reveal r a => p.actSignal? r a
  | .call _ .next => p.active.bind p.handlerSignal?
  | .hear .index id v =>
    if (p.stage.index.hear id v).2 = some .runLine then p.lineSignal? v else none
  | _ => none

/-! ### Tasks send their signals -/

theorem surroundings_execute (p : Player) (command : Command) (opcode argument : String)
    (t : Ticket) : (p.execute command opcode argument t).1.surroundings =
      (p.send command.signal?).surroundings := by
  cases command with
  | wait =>
    simp only [execute]
    split
    · exact surroundings_waitFor ..
    · rfl
  | setDelay =>
    simp only [execute]
    split <;> rfl
  | branch => exact surroundings_branch ..
  | skip => exact surroundings_skip ..
  | exit => exact surroundings_emit (surroundings_trace ..) .exit
  | cue c =>
    simp only [execute]
    split
    · exact surroundings_carryOut ..
    · rfl
  | assign op => exact surroundings_storeOutcome ..
  | step delta => exact surroundings_storeOutcome ..
  | host b body => cases b <;> rfl
  | _ => rfl

theorem surroundings_dispatch (p : Player) (i : Instruction) :
    (p.dispatch i).1.surroundings = (p.send (p.instructionSignal? i)).surroundings := by
  have hp : { p with
      generation := p.generation + 1
      phase := .executing
      live := .instruction (p.generation + 1) :: p.live }.surroundings = p.surroundings := rfl
  rw [dispatch, instructionSignal?]
  dsimp only
  split
  · next command hget =>
    rw [hget]
    exact (surroundings_execute ..).trans (surroundings_send hp _)
  · next hget =>
    rw [hget]
    rfl
  · next hget =>
    rw [hget]
    rfl

theorem surroundings_runNext (p : Player) :
    p.runNext.1.surroundings = (p.send p.nextSignal?).surroundings := by
  rw [runNext, nextSignal?]
  split
  · next i rest hq =>
    have hp : { p with queue := rest }.surroundings = p.surroundings := rfl
    rw [hq]
    exact (surroundings_dispatch ..).trans (surroundings_send hp _)
  · next hq =>
    rw [hq]
    exact surroundings_write ..

theorem surroundings_finish (p : Player) (t : Ticket) :
    (p.finish t).1.surroundings = (p.send (p.finishSignal? t)).surroundings := by
  unfold finish finishSignal?
  by_cases ht : t ∈ p.live
  · rw [if_pos ht]
    cases t with
    | call k =>
      rw [if_neg fun h => (by cases h.2)]
      rfl
    | instruction g =>
      dsimp only
      by_cases hg : g = p.generation
      · subst hg
        have hp : { p with
            live := p.live.erase (.instruction p.generation)
            active := none }.surroundings = p.surroundings := rfl
        rw [if_pos rfl, if_pos ⟨ht, rfl⟩]
        exact (surroundings_runNext _).trans (surroundings_send hp _)
      · rw [if_neg hg, if_neg fun h => hg (Ticket.instruction.inj h.2)]
        exact surroundings_trace ..
  · rw [if_neg ht, if_neg fun h => ht h.1]
    rfl

theorem surroundings_conclude (p : Player) (t : Ticket) (c : Completion) :
    (p.conclude t c).1.surroundings = (p.send (p.concludeSignal? t c)).surroundings := by
  cases c with
  | completed => exact surroundings_finish p t
  | pending h =>
    unfold conclude
    dsimp only
    cases h <;>
    · dsimp only
      split <;> rfl

variable {p x : Player}

/-! ### Texts send their signals -/

theorem instructionSignal?_congr (hx : x.surroundings = p.surroundings) :
    x.instructionSignal? = p.instructionSignal? := by
  have hc : x.commands = p.commands := congrArg Surroundings.commands hx
  funext i
  rw [instructionSignal?, instructionSignal?, hc]

/-- What a ticket is good for is up to the seat and the commands. -/
theorem finishSignal?_congr (hx : x.surroundings = p.surroundings) (hs : x.seat = p.seat)
    (t : Ticket) : x.finishSignal? t = p.finishSignal? t := by
  have hq : x.queue = p.queue := congrArg Seat.queue hs
  have hg : x.generation = p.generation := congrArg Seat.generation hs
  have hl : x.live = p.live := congrArg Seat.live hs
  have hn : x.nextSignal? = p.nextSignal? := by
    rw [nextSignal?, nextSignal?, instructionSignal?_congr hx, hq]
  rw [finishSignal?, finishSignal?, hn, hl, hg]

theorem proceedSignal?_congr (hx : x.surroundings = p.surroundings) (hs : x.seat = p.seat)
    (v : Reveal) : x.proceedSignal? v = p.proceedSignal? v := by
  rw [proceedSignal?, proceedSignal?]
  split
  · exact finishSignal?_congr hx hs _
  all_goals rfl

theorem nudgeSignal?_congr (hx : x.surroundings = p.surroundings) (hs : x.seat = p.seat)
    (v : Reveal) : x.nudgeSignal? v = p.nudgeSignal? v := by
  rw [nudgeSignal?, nudgeSignal?, proceedSignal?_congr hx hs, finishSignal?_congr hx hs]

/-- A ticket is given back after something has changed that is neither seat nor surroundings. -/
theorem surroundings_finish_of (hx : x.surroundings = p.surroundings) (hs : x.seat = p.seat)
    (t : Ticket) :
    (x.finish t).1.surroundings = (p.send (p.finishSignal? t)).surroundings := by
  rw [surroundings_finish, finishSignal?_congr hx hs]
  exact surroundings_send hx _

theorem surroundings_proceed (p : Player) (r : Nat) (v : Reveal) :
    (p.proceed r v).1.surroundings = (p.send (p.proceedSignal? v)).surroundings := by
  rw [proceed, proceedSignal?]
  dsimp only
  split
  · next h =>
    rw [h]
    exact surroundings_finish_of (by simp) (by simp) _
  · next h =>
    rw [h]
    simp [send]
  · next h =>
    rw [h]
    simp [send]
  · next h =>
    rw [h]
    exact surroundings_emit (by simp) _
  · next h =>
    rw [h]
    exact surroundings_emit (by simp) _
  · next h =>
    rw [h]
    exact surroundings_emit (by simp) _
  · next h =>
    rw [h]
    simp [send]

theorem surroundings_proceed_of (hx : x.surroundings = p.surroundings) (hs : x.seat = p.seat)
    (r : Nat) (v : Reveal) :
    (x.proceed r v).1.surroundings = (p.send (p.proceedSignal? v)).surroundings := by
  rw [surroundings_proceed, proceedSignal?_congr hx hs]
  exact surroundings_send hx _

theorem surroundings_runReveal (p : Player) {r : Nat} {v : Reveal} (hv : p.reveals[r]? = some v) :
    (p.runReveal r).1.surroundings = (p.send (p.proceedSignal? v)).surroundings := by
  have hr : (p.modifyReveal r (fun v => { v with mode := .running })).reveals[r]? =
      some { v with mode := .running } := by
    rw [modifyReveal, Array.getElem?_modify, if_pos rfl, hv]
    rfl
  rw [runReveal, hr]
  exact surroundings_proceed_of (surroundings_modifyReveal p ..) (seat_modifyReveal ..) ..

theorem surroundings_tickReveal (p : Player) (r : Nat) (v : Reveal) :
    (p.tickReveal r v).1.surroundings = (p.send v.tickSignal?).surroundings := by
  rw [tickReveal, Reveal.tickSignal?]
  cases v.rest with
  | nil => rfl
  | cons c rest =>
    dsimp only
    split
    · rfl
    · exact surroundings_emit (surroundings_modifyReveal p ..) _

/-- Input goes by the text as it was before something was under way. -/
theorem surroundings_nudgeReveal (p : Player) {r : Nat} {v : Reveal} {n : Nat}
    (hv : p.reveals[r]? = some { v with holds := n }) :
    (p.nudgeReveal r v).1.surroundings = (p.send (p.nudgeSignal? v)).surroundings := by
  rw [nudgeReveal, nudgeSignal?]
  cases v.mode with
  | ticking =>
    have hs : ((p.stopReveal r v .running).modifyReveal r
        (fun v => { v with rest := Reveal.afterStretch v.rest })).surroundings = p.surroundings :=
      (surroundings_modifyReveal ..).trans (surroundings_stopReveal ..)
    dsimp only
    cases Reveal.stretch v.rest with
    | nil => exact hs
    | cons c rest => exact surroundings_emit hs (.text (String.ofList (c :: rest)))
  | awaitingInput => exact surroundings_runReveal p (v := { v with holds := n }) hv
  | pageEnd => refine surroundings_finish_of (p := p) ?_ ?_ _ <;> rfl
  | waiting =>
    dsimp only
    split <;> rfl
  | running => rfl
  | done => rfl

/-- Keeping a text while it acts makes no difference. -/
theorem surroundings_keeping {r : Nat} {f : Player → Player × Orders} {s : Option Signal}
    (h : ∀ x : Player, x.surroundings = p.surroundings → x.seat = p.seat →
      (∀ v, p.reveals[r]? = some v → ∃ n, x.reveals[r]? = some { v with holds := n }) →
        (f x).1.surroundings = (p.send s).surroundings) :
    (p.keeping r f).1.surroundings = (p.send s).surroundings := by
  refine h _ (surroundings_modifyReveal p ..) (seat_modifyReveal ..) fun v hv => ⟨v.holds + 1, ?_⟩
  rw [modifyReveal, Array.getElem?_modify, if_pos rfl, hv]
  rfl

theorem surroundings_actReveal (p : Player) (r : Nat) (a : Reveal.Act) :
    (p.actReveal r a).1.surroundings = (p.send (p.actSignal? r a)).surroundings := by
  rw [actReveal, actSignal?]
  cases hv : p.reveals[r]? with
  | none => rfl
  | some v =>
    cases a with
    | run => exact surroundings_runReveal p hv
    | resume =>
      dsimp only [Option.bind_some]
      split
      · exact surroundings_proceed ..
      · rfl
    | tick =>
      dsimp only [Option.bind_some]
      split
      · refine surroundings_keeping fun x hx hs _ => ?_
        exact (surroundings_tickReveal x r v).trans (surroundings_send hx _)
      · rfl
    | ticked =>
      dsimp only [Option.bind_some]
      split
      · have hr : (p.stopReveal r v .running).reveals[r]? =
            some { v with mode := .running, timer := none } := by
          rw [stopReveal]
          split <;>
          · rw [modifyReveal, Array.getElem?_modify, if_pos rfl]
            exact congrArg (Option.map _) hv
        refine (surroundings_runReveal _ hr).trans ?_
        rw [proceedSignal?_congr (surroundings_stopReveal p ..) (seat_stopReveal ..)]
        exact surroundings_send (surroundings_stopReveal ..) _
      · rfl
    | wake =>
      dsimp only [Option.bind_some]
      split
      · refine surroundings_keeping fun x hx hs hr => ?_
        obtain ⟨n, hn⟩ := hr v hv
        refine (surroundings_runReveal x hn).trans ?_
        rw [proceedSignal?_congr hx hs]
        exact surroundings_send hx _
      · rfl
    | release => rfl

/-! ### Input and lines -/

theorem surroundings_advanceHandler (p : Player) (x : Handler) :
    (p.advanceHandler x).1.surroundings = (p.send (p.handlerSignal? x)).surroundings := by
  cases x with
  | finish t => exact surroundings_finish p t
  | stuck => rfl
  | timer k => rfl
  | reveal r =>
    rw [advanceHandler, handlerSignal?]
    cases hv : p.reveals[r]? with
    | none => rfl
    | some v =>
      refine surroundings_keeping fun x hx hs hr => ?_
      obtain ⟨n, hn⟩ := hr v hv
      refine (surroundings_nudgeReveal x hn).trans ?_
      rw [nudgeSignal?_congr hx hs]
      exact surroundings_send hx _
  | host b t =>
    cases b with
    | onNext => exact surroundings_finish p t
    | _ => rfl

theorem surroundings_next (p : Player) :
    p.next.1.surroundings = (p.send (p.active.bind p.handlerSignal?)).surroundings := by
  rw [next]
  cases p.active with
  | none => rfl
  | some x => exact surroundings_advanceHandler p x

theorem lines_interrupt (p : Player) : p.interrupt.lines = p.lines := by
  unfold interrupt
  dsimp only
  split
  · exact congrArg Course.lines (course_of_core (core_cancelHandler ..))
  · rfl

/-- A line starts with its first instruction. -/
theorem surroundings_runNext_of (hx : x.surroundings = p.surroundings) (phase : Phase)
    (queue : List Instruction) : { x with phase, queue }.runNext.1.surroundings =
      (p.send (queue.head?.bind p.instructionSignal?)).surroundings := by
  have hp : { x with phase, queue }.surroundings = p.surroundings := hx
  have hs : { x with phase, queue }.nextSignal? = queue.head?.bind p.instructionSignal? := by
    rw [nextSignal?, instructionSignal?_congr hp]
  rw [surroundings_runNext, hs]
  exact surroundings_send hp _

theorem surroundings_runLine (p : Player) (i : UInt64) :
    (p.runLine i).1.surroundings = (p.send (p.lineSignal? i)).surroundings := by
  rw [runLine, lineSignal?]
  by_cases hp : p.phase = .loading
  · rw [if_pos hp, if_pos hp]
    exact surroundings_trace ..
  · have hx := surroundings_interrupt p
    have hl : p.interrupt.lines = p.lines := lines_interrupt p
    rw [if_neg hp, if_neg hp]
    dsimp only
    rw [hl]
    cases p.lines with
    | none => exact hx
    | some lines =>
      dsimp only [Option.bind_some]
      cases lines[i.toNat]? with
      | none => exact hx
      | some line =>
        dsimp only [Option.bind_some]
        have ht := (surroundings_trace p.interrupt .engine .trace s!"[{i.toNat}] {line}").trans hx
        have hq : (p.interrupt.trace .engine .trace s!"[{i.toNat}] {line}").queue = [] :=
          congrArg Seat.queue ((seat_trace ..).trans (seat_interrupt p))
        rw [hq]
        exact surroundings_runNext_of ht .executing (Line.instructions line)

end Player

/-! ### Tasks -/

/-- The call is one that a session makes. -/
def HostCall.isSessions : HostCall → Bool
  | next => true
  | serve => true
  | goto _ _ => true
  | restore _ _ => true
  | _ => false

namespace Player

/-- **A task sends its signal and does nothing else to the surroundings**, unless an observer hears
a cell. -/
theorem surroundings_perform (p : Player) {t : Task} (hh : ∀ c id v, t ≠ .hear c id v)
    (hc : ∀ {a d}, t = .call a d → d.isSessions = true) :
    (perform t p).1.surroundings = (p.send (p.signal? t)).surroundings := by
  cases t with
  | deliver c => exact surroundings_store p c rfl
  | hear c id v => exact absurd rfl (hh c id v)
  | ring k => rfl
  | finish t => exact surroundings_finish p t
  | conclude t c => exact surroundings_conclude p t c
  | reveal r a => exact surroundings_actReveal p r a
  | call a d =>
    cases d with
    | next => exact surroundings_next p
    | serve => rfl
    | goto s i => exact surroundings_goto ..
    | restore x v => exact surroundings_restore ..
    | _ => cases hc rfl
  | report a x =>
    cases a with
    | events =>
      simp only [perform, report]
      split <;> rfl
    | _ => rfl
  | note e => rfl
  | load =>
    simp only [perform, load, takeRequest]
    cases p.loadRequest with
    | none => rfl
    | some r => exact surroundings_completeLoad { p with loadRequest := none } ..

end Player

end Novella
