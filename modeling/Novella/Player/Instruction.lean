import Novella.Player.Signal

/-!
# Instructions

An instruction is dispatched with a fresh ticket. Its command may be done at once or leave a handler
behind, which becomes the active one and receives input from then on. When the ticket is given back
the next instruction runs; at the end of the queue the index moves on.

## Main definitions

* `Player.execute` — the meaning of commands
* `Player.dispatch`, `Player.conclude`, `Player.finish` — the life of an instruction
* `Player.interrupt` — the end of all instructions of a line
-/

namespace Novella.Player

/-! ### Commands -/

/-- Waits for a time; no time is no wait. -/
def waitFor (p : Player) (duration : Nat) (t : Ticket) : Player × Completion :=
  if duration = 0 then (p, .completed)
  else (p.startTimer duration false (.finish t), .pending (.timer p.schedule.timers.size))

/-- Carries out a cue, and waits as long as it says. -/
def carryOut (p : Player) (cue : Cue) (t : Ticket) : Player × Completion :=
  let p := cue.writes.foldl (fun p w => p.write w.cell w.value) p
  let p := match cue.effect with
    | some name => p.playEffect name
    | none => p
  p.waitFor cue.wait t

/-- Stores the outcome of a command on variables, or logs why there is none. -/
def storeOutcome (p : Player) (opcode argument : String) :
    Except AssignmentError Assignment.Outcome → Player
  | .ok o =>
    (p.write .vars o.progress).trace .vars .debug
      s!"[{opcode}] {o.target.text} = {o.value.text}"
  | .error e => p.logError s!"{opcode} {argument}: {e.message}"

/-- Puts the instructions of a conditional line in front of the queue if its condition is true. -/
def branch (p : Player) (argument : String) : Player :=
  match Condition.read argument.toList with
  | .error e => p.logError s!"if {argument}: {e.message}"
  | .ok (condition, rest) =>
    let body := String.ofList (Text.trim rest)
    if body = "" then p.note (.log ⟨.warn, none, s!"if {argument}: nothing to run"⟩)
    else
      match condition.isTrue p.stage.progress.get with
      | .ok true =>
        let p := p.trace .flow .debug s!"if: taken, running '{body}'"
        { p with queue := Line.instructions body ++ p.queue }
      | .ok false => p.trace .flow .trace s!"if: not taken ({argument})"
      | .error e => p.logError s!"if {argument}: {e.message}"

/-- The index that is `n` lines away, less the one that every line adds, within 64 bits. -/
def skipTarget (index : UInt64) (n : Int64) : UInt64 :=
  let less := Int64.ofIntClamp (n.toInt - 1)
  let target := Int64.ofIntClamp (index.toInt64.toInt + less.toInt)
  UInt64.ofNat target.toInt.toNat

/-- Moves the index by the number of lines that the argument says. -/
def skip (p : Player) (argument : String) : Player :=
  match Numeral.int64? (Text.trim argument.toList) with
  | none | some 0 => p.logError s!"skip: expected a non-zero line count, got '{argument}'"
  | some n =>
    let index := p.stage.index.value
    let target := skipTarget index n
    let p := p.trace .flow .debug
      s!"skip {n.toInt}: {index.toInt64.toInt} -> {target.toNat + 1}"
    p.write .index target

/-- Begins to show a text. -/
def beginReveal (p : Player) (text : String) (t : Ticket) : Player :=
  { p with reveals := p.reveals.push { rest := text.toList, delay := p.charDelay, ticket := t } }

/-- Carries out a command: the player after it, what is still to be done, and what the command then
leaves behind. -/
def execute (p : Player) (command : Command) (opcode argument : String) (t : Ticket) :
    Player × Orders × Completion :=
  match command with
  | .text =>
    let r := p.reveals.size
    (p.beginReveal argument t, [.perform (.reveal r .run)], .pending (.reveal r))
  | .pageBreak =>
    let (p, orders) := p.emit .page
    (p, orders, .pending (.finish t))
  | .lineBreak =>
    let (p, orders) := p.emit (.text "\n")
    (p, orders, .completed)
  | .click => (p, [], .pending (.finish t))
  | .wait =>
    match Arguments.millis? argument with
    | some ms =>
      let (p, c) := p.waitFor ms.toNat t
      (p, [], c)
    | none =>
      (p.logError s!"{opcode}: expected a duration in milliseconds, got '{argument}'", [],
        .completed)
  | .setDelay =>
    match Arguments.millis? argument with
    | some ms => ({ p with delay := some ms.toNat }, [], .completed)
    | none =>
      (p.logError s!"{opcode}: expected milliseconds per character, got '{argument}'", [],
        .completed)
  | .resetDelay => ({ p with delay := none }, [], .completed)
  | .branch => (p.branch argument, [], .completed)
  | .skip => (p.skip argument, [], .completed)
  | .exit =>
    let (p, orders) := (p.trace .flow .debug "return").emit .exit
    (p, orders, .pending .stuck)
  | .cue c =>
    match c.cue opcode argument with
    | .ok cue =>
      let (p, c) := p.carryOut cue t
      (p, [], c)
    | .error e => (p.logError e.message, [], .completed)
  | .assign op =>
    (p.storeOutcome opcode argument (Assignment.apply p.stage.progress op argument), [], .completed)
  | .step delta =>
    (p.storeOutcome opcode argument (Assignment.step p.stage.progress delta argument), [],
      .completed)
  | .host b body =>
    let p := p.note (.called opcode argument)
    let calls : Orders := body.map (fun c => .perform (.call .nobody c))
    let finish : Orders := [.perform (.finish t)]
    let p := { p with tickets := p.tickets.push t }
    match b with
    | .complete => (p, calls, .completed)
    | .finishThenComplete => (p, calls ++ finish, .completed)
    | .finishThenHold => (p, calls ++ finish, .pending (.host b t))
    | _ => (p, calls, .pending (.host b t))

/-! ### The life of an instruction -/

/-- Starts an instruction under a fresh ticket. One that is unknown or reserved is done at once. -/
def dispatch (p : Player) (i : Instruction) : Player × Orders :=
  let t := Ticket.instruction (p.generation + 1)
  let p := { p with
    generation := p.generation + 1
    phase := .executing
    live := t :: p.live }
  match p.commands.get? i.opcode with
  | some (some command) =>
    let (p, orders, c) := p.execute command i.opcode i.argument t
    (p, orders ++ [.perform (.conclude t c)])
  | some none => (p, [.perform (.conclude t .completed)])
  | none =>
    let place := s!"{p.stage.scene.value}:{p.stage.index.value.toNat}"
    (p.logError s!"Unknown opcode '{i.opcode}' at {place}", [.perform (.conclude t .completed)])

/-- Runs the next instruction of the queue. At its end the index moves on. -/
def runNext (p : Player) : Player × Orders :=
  match p.queue with
  | i :: rest => { p with queue := rest }.dispatch i
  | [] => (p.write .index (p.stage.index.value + 1), [])

/-- Gives a ticket back. Only the first time counts, and for instructions only that of the last
generation. -/
def finish (p : Player) (t : Ticket) : Player × Orders :=
  if t ∈ p.live then
    let p := { p with live := p.live.erase t }
    match t with
    | .instruction generation =>
      if generation = p.generation then { p with active := none }.runNext
      else (p.trace .engine .trace s!"Ignoring stale completion #{generation}", [])
    | .call k => (p.note (.done k), [])
  else (p, [])

/-- Takes over what a command leaves behind. A handler becomes the active one unless its ticket has
been given back in the meantime. -/
def conclude (p : Player) (t : Ticket) : Completion → Player × Orders
  | .completed => p.finish t
  | .pending h =>
    let p := match h with
      | .reveal r => p.modifyReveal r (fun v => { v with holds := v.holds - 1 })
      | _ => p
    if t ∈ p.live then ({ p with active := some h, phase := .awaiting }, []) else (p, [])

/-! ### Shown texts -/

/-- Halts the timer of a shown text, and leaves it in another mode. -/
def stopReveal (p : Player) (r : Nat) (v : Reveal) (mode : Reveal.Mode) : Player :=
  let p := match v.timer with
    | some k => p.cancelTimer k
    | none => p
  p.modifyReveal r (fun v => { v with mode, timer := none })

/-- Starts a timer for a shown text. -/
def armReveal (p : Player) (r : Nat) (mode : Reveal.Mode) (duration : Nat) (repeats : Bool)
    (act : Reveal.Act) : Player :=
  let k := p.schedule.timers.size
  (p.startTimer duration repeats (.reveal r act)).modifyReveal r
    (fun v => { v with mode, timer := some k })

/-- Whether somebody still keeps a shown text. -/
def isKept (p : Player) (r : Nat) (v : Reveal) : Bool :=
  p.active = some (.reveal r) || 0 < v.holds

/-- Keeps a shown text while something is under way. -/
def keeping (p : Player) (r : Nat) (f : Player → Player × Orders) : Player × Orders :=
  let (p, orders) := f (p.modifyReveal r (fun v => { v with holds := v.holds + 1 }))
  (p, orders ++ [.perform (.reveal r .release)])

/-- Goes on with a shown text to its next pause. -/
def proceed (p : Player) (r : Nat) (v : Reveal) : Player × Orders :=
  let goOn (rest : List Char) (mode : Reveal.Mode) : Player :=
    p.modifyReveal r (fun v => { v with rest, mode })
  match Reveal.scan v.delay v.rest with
  | .done => ((goOn [] .done).trace .text .trace "text finished").finish v.ticket
  | .wait ms rest =>
    (((goOn rest .running).trace .text .trace s!"inline wait {ms.toNat}ms").armReveal r .waiting
      ms.toNat false .wake, [])
  | .pause rest => ((goOn rest .awaitingInput).trace .text .trace "pause: waiting for input", [])
  | .lineBreak rest =>
    ((goOn rest .awaitingInput).trace .text .trace "line break: waiting for input").emit
      (.text "\n")
  | .pageBreak rest => ((goOn rest .pageEnd).trace .text .trace "page break").emit .page
  | .emit token rest =>
    let (p, orders) := (goOn rest .running).emit (.text (String.ofList token))
    (p, orders ++ [.perform (.reveal r .resume)])
  | .tick => (p.armReveal r .ticking v.delay true .tick, [])

/-- Goes on with a shown text whatever its mode. -/
def runReveal (p : Player) (r : Nat) : Player × Orders :=
  let p := p.modifyReveal r (fun v => { v with mode := .running })
  match p.reveals[r]? with
  | some v => p.proceed r v
  | none => (p, [])

/-- Shows one character, unless the stretch has ended. -/
def tickReveal (p : Player) (r : Nat) (v : Reveal) : Player × Orders :=
  match v.rest with
  | [] => (p, [.perform (.reveal r .ticked)])
  | c :: rest =>
    if Reveal.isPause v.rest then (p, [.perform (.reveal r .ticked)])
    else
      let (p, orders) := (p.modifyReveal r (fun v => { v with rest })).emit
        (.text (String.singleton c))
      (p, orders ++ [.perform (.reveal r .ticked)])

/-- Input for a shown text: a stretch is shown to its end, and a pause is over. -/
def nudgeReveal (p : Player) (r : Nat) (v : Reveal) : Player × Orders :=
  match v.mode with
  | .ticking =>
    let p := (p.stopReveal r v .running).modifyReveal r
      (fun v => { v with rest := Reveal.afterStretch v.rest })
    match Reveal.stretch v.rest with
    | [] => (p, [.perform (.reveal r .run)])
    | token =>
      let (p, orders) := p.emit (.text (String.ofList token))
      (p, orders ++ [.perform (.reveal r .run)])
  | .awaitingInput => p.runReveal r
  | .pageEnd => (p.modifyReveal r (fun v => { v with mode := .done })).finish v.ticket
  | .waiting =>
    match v.timer with
    | some k => ({ p with schedule := (p.schedule.skip k).1 }, [])
    | none => (p, [])
  | .running | .done => (p, [])

/-- Carries out an act of a shown text. What a timer asks for counts only if somebody still keeps
the text. -/
def actReveal (p : Player) (r : Nat) (a : Reveal.Act) : Player × Orders :=
  match p.reveals[r]? with
  | none => (p, [])
  | some v =>
    match a with
    | .run => p.runReveal r
    | .resume => if v.mode = .running then p.proceed r v else (p, [])
    | .tick =>
      if p.isKept r v ∧ v.mode = .ticking then p.keeping r (fun p => p.tickReveal r v) else (p, [])
    | .ticked =>
      if v.mode = .ticking ∧ Reveal.atBoundary v.rest then
        (p.stopReveal r v .running).runReveal r
      else (p, [])
    | .wake =>
      if p.isKept r v ∧ v.mode = .waiting then p.keeping r (fun p => p.runReveal r) else (p, [])
    | .release => (p.modifyReveal r (fun v => { v with holds := v.holds - 1 }), [])

/-! ### Input and interruption -/

/-- Gives input to a handler. -/
def advanceHandler (p : Player) : Handler → Player × Orders
  | .finish t => p.finish t
  | .stuck => (p, [])
  | .timer k => ({ p with schedule := (p.schedule.skip k).1 }, [])
  | .reveal r =>
    match p.reveals[r]? with
    | some v => p.keeping r (fun p => p.nudgeReveal r v)
    | none => (p, [])
  | .host .onNext t =>
    let first := decide (t ∈ p.live)
    let (p, orders) := p.finish t
    (p, orders ++ [.perform (.note (.advanced (some first)))])
  | .host _ _ => (p.note (.advanced none), [])

/-- Tells a handler that its instruction is over. -/
def cancelHandler (p : Player) : Handler → Player
  | .finish _ => p
  | .stuck => p
  | .timer k => p.cancelTimer k
  | .reveal r =>
    match p.reveals[r]? with
    | some v => p.stopReveal r v .done
    | none => p
  | .host .cancellable _ => p.note .cancelled
  | .host _ _ => p

/-- Input: the active handler receives it. -/
def next (p : Player) : Player × Orders :=
  match p.active with
  | some h => p.advanceHandler h
  | none => (p, [])

/-- Drops the running instruction and all that are queued after it. -/
def interrupt (p : Player) : Player :=
  let active := p.active
  let p := { p with generation := p.generation + 1, queue := [], active := none }
  match active with
  | some h => p.cancelHandler h
  | none => p

end Novella.Player
