import Novella.Player.Script

/-!
# The world of a player

Here the tasks of a player get their meaning. Calls of a host are tasks too, whether they come from
outside or were left with the player. A call that makes others run, such as one that advances time,
is answered when all of it is over.

## Main definitions

* `Player.call` — the meaning of calls
* `Player.perform` — the meaning of tasks, which makes players a `World`
* `Player.request` — the machine that makes a call from outside
* `Player.standard` — a player at its start
-/

namespace Novella.Player

/-! ### Calls -/

/-- The settings with another speed of text. -/
def withSpeed (s : Settings) (speed : TextSpeed) : Settings := { s with textSpeed := speed }

/-- Makes a call: the player after it, its answer, and what is still to be done before the answer
counts. -/
def call (p : Player) : HostCall → Player × Answer × Orders
  | .next =>
    let (p, orders) := p.next
    (p, .none, orders)
  | .settle => (p, .none, [.settle])
  | .advance d => (p, .none, [.advance d])
  | .runMicrotasks => (p, .none, [.drain])
  | .goto scene index => (p.goto scene index, .none, [])
  | .restore c v => (p.restore c v, .none, [])
  | .serve => (p, .none, [.settle, .perform .load])
  | .take =>
    match p.takeRequest with
    | (p, some r) => ({ p with requests := p.requests.push r }, .request r, [])
    | (p, none) => (p, .none, [])
  | .complete k lines =>
    match p.requests[k]? with
    | some r =>
      let result := match lines with
        | some lines => .ok lines
        | none => .error (.notFound r.scene)
      let (p, done) := p.completeLoad r result
      (p, .flag done, [])
    | none => (p, .flag false, [])
  | .set c v => (p.write c v, .none, [])
  | .notify c => (p.notify c, .none, [])
  | .effect name => (p.playEffect name, .none, [])
  | .setVariable token v =>
    match (Variable.read token.toList).bind (fun x => p.stage.progress.set x v) with
    | .ok progress => (p.write .vars progress, .none, [])
    | .error e => (p, .refused e, [])
  | .getVariable token =>
    match Variable.read token.toList with
    | .ok x => (p, .value (p.stage.progress.get x), [])
    | .error e => (p, .refused e, [])
  | .observe c accepts once trigger times body =>
    let id := (p.stage.cell c).nextId
    let k := p.listeners.size
    let p := { p.addListener ⟨trigger, times, body⟩ with subscriptions := p.subscriptions.push id }
    (p.observe c (.listener k) accepts once, .none, [])
  | .unobserve c k =>
    match p.subscriptions[k]? with
    | some id =>
      let cell := p.stage.cell c
      (p.store c (cell.unobserve id, false), .flag (cell.isSubscribed id), [])
    | none => (p, .flag false, [])
  | .speed s => (p.write .settings (withSpeed p.stage.settings.value s), .none, [])
  | .register opcode b body =>
    match p.commands.merge? (.ofList [(opcode, b.map (fun b => .host b body))]) with
    | .ok commands => ({ p with commands }, .none, [])
    | .error opcode => ({ p with fault := some opcode }, .none, [.halt])
  | .finish k =>
    match p.tickets[k]? with
    | some t =>
      let first := decide (t ∈ p.live)
      let (p, orders) := p.finish t
      (p, .finished first, orders)
    | none => (p, .none, [])

/-- Tells the audience of a call what it answered. -/
def report (p : Player) (x : Answer) : Audience → Player
  | .caller => { p with answer := x }
  | .events => if x = .none then p else p.note (.answered x)
  | .nobody => p

/-! ### Tasks -/

/-- Loads the scene that is asked for from the player's source, if any is. -/
def load (p : Player) : Player × Orders :=
  match p.takeRequest with
  | (p, some r) => ((p.completeLoad r (p.source r.scene)).1, [.settle, .perform .load])
  | (p, none) => (p, [])

/-- Begins a page if one is due. Its snapshot is taken at the clock. -/
def openPage (p : Player) : Player :=
  if p.book.pageDue then
    let clock := p.book.clock.tick
    let snapshot : SaveState := ⟨p.stage.context, p.stage.progress, none, some clock⟩
    let history := p.book.history.breakPage (some snapshot) .text
    { p with book := { p.book with history, clock, pageDue := false } }
  else p

/-- Lets the history keep as many pages as the settings say. -/
def limitHistory (p : Player) (s : Settings) : Player :=
  { p with book := { p.book with history := p.book.history.setLimit s.historyLimit.toNat } }

/-- Carries out the reaction of an observer to a value. -/
def reactTo (p : Player) (r : Reaction) (c : CellName) (v : c.Value) : Player × Orders :=
  match r, c, v with
  | .loadScene, .scene, scene => (p.loadScene scene, [])
  | .runLine, .index, index => p.runLine index
  | .openPage, _, _ => (p.openPage, [])
  | .limitHistory, .settings, s => (p.limitHistory s, [])
  | .listener k, c, v => p.react k (.cell c v)
  | _, _, _ => (p, [])

/-- Carries out a task. -/
def perform : Task → Player → Player × Orders
  | .deliver c, p =>
    let cell := p.stage.cell c
    let (after, ids) := cell.beginDelivery
    (p.store c (after, false), ids.map (fun id => .perform (.hear c id cell.value)))
  | .hear c id v, p =>
    match (p.stage.cell c).hear id v with
    | (after, some r) => (p.store c (after, false)).reactTo r c v
    | (_, none) => (p, [])
  | .ring k, p =>
    let (schedule, callback) := p.schedule.ring .ring k
    ({ p with schedule }, callback.toList.map .perform)
  | .finish t, p => p.finish t
  | .conclude t c, p => p.conclude t c
  | .reveal r a, p => p.actReveal r a
  | .call a c, p =>
    let (p, x, orders) := p.call c
    (p, orders ++ [.perform (.report a x)])
  | .report a x, p => (p.report x a, [])
  | .note e, p => (p.note e, [])
  | .load, p => p.load

instance : World Player Task where
  loop p := p.schedule.loop
  withLoop p l := { p with schedule := { p.schedule with loop := l } }
  perform := perform
  loop_withLoop _ _ := rfl
  withLoop_loop _ := rfl
  withLoop_withLoop _ _ _ := rfl

/-- The player without events and without an answer. -/
def listening (p : Player) : Player := { p with events := #[], answer := .none }

/-- The machine that makes a call from outside. -/
def request (p : Player) (c : HostCall) : Machine Player Task :=
  ⟨p.listening, [.perform (.call .caller c)]⟩

/-- The machine that goes on with what was begun from outside. -/
def continuing (r : Player × Orders) : Machine Player Task := ⟨r.1, r.2⟩

/-! ### Beginnings -/

/-- Makes the player follow its own cells. -/
def following (p : Player) : Player :=
  (p.observe .scene .loadScene (fun _ => true) false).observe .index .runLine (fun _ => true) false

/-- A player at its start. -/
def standard (source : SceneSource) (filter : DebugFilter) (settings : Settings) : Player :=
  let stage : Stage Reaction := { settings := { value := settings } }
  following { source, filter, stage }

end Novella.Player
