import Novella.Player.Basic

/-!
# Signals

A signal of the script goes through a hook to its receiver. In a session the receiver is the book,
which enters text in the history, takes note of page breaks, and passes the signal on to the host.

## Main definitions

* `Player.emit` — a signal of the script
* `Player.connect`, `Player.connectBook`, `Player.connectToBook` — receivers
* `Player.react` — a host's listener turns to what it is for
-/

namespace Novella.Player

/-- Notes what happened for a listener, which may have calls to make then. -/
def react (p : Player) (k : Nat) (o : Occurrence) : Player × Orders :=
  let p := p.note (.occurred o)
  match p.listeners[k]? with
  | some l =>
    if l.trigger o ∧ 0 < l.remaining then
      let l := { l with remaining := l.remaining - 1 }
      ({ p with listeners := p.listeners.setIfInBounds k l },
        l.body.map (fun c => .perform (.call .events c)))
    else (p, [])
  | none => (p, [])

/-- Enters a signal in the book. -/
def enter (p : Player) : Signal → Player
  | .text token => { p with book := { p.book with history := p.book.history.appendText token } }
  | .page => { p with book := { p.book with pageDue := true } }
  | .exit => p

/-- Passes a signal from the book on to the host, or keeps it. -/
def passOn (p : Player) (s : Signal) : Player × Orders :=
  match (p.book.hooks.relay s.hook).receiver with
  | some k => p.react k (.signal s)
  | none =>
    let hooks := p.book.hooks.withRelay s.hook ⟨none, some s⟩
    ({ p with book := { p.book with hooks } }, [])

/-- Lets a receiver have a signal. -/
def receive (p : Player) (s : Signal) : Receiver → Player × Orders
  | .listener k => p.react k (.signal s)
  | .book => (p.enter s).passOn s

/-- Sends a signal through its hook, where it is kept if there is no receiver. -/
def emit (p : Player) (s : Signal) : Player × Orders :=
  match (p.hooks.relay s.hook).receiver with
  | some r => p.receive s r
  | none => ({ p with hooks := p.hooks.withRelay s.hook ⟨none, some s⟩ }, [])

/-- Makes a receiver the one of a hook and lets it have the signal that was kept. -/
def connectReceiver (p : Player) (h : Hook) (r : Receiver) : Player × Orders :=
  let pending := (p.hooks.relay h).pending
  let p := { p with hooks := p.hooks.withRelay h ⟨some r, none⟩ }
  match pending with
  | some s => p.receive s r
  | none => (p, [])

/-- Adds a listener, whose number is the number of listeners before it. -/
def addListener (p : Player) (l : Listener) : Player :=
  { p with listeners := p.listeners.push l }

/-- Makes a listener of the host the receiver of a hook. -/
def connect (p : Player) (h : Hook) (l : Listener) : Player × Orders :=
  (p.addListener l).connectReceiver h (.listener p.listeners.size)

/-- Makes the book the receiver of every hook of a player that has sent no signal yet. -/
def connectBook (p : Player) : Player :=
  let relay : Relay Receiver := ⟨some .book, none⟩
  { p with hooks := ⟨relay, relay, relay⟩ }

/-- Makes a listener of the host the one that the book passes signals on to. -/
def connectToBook (p : Player) (h : Hook) (l : Listener) : Player × Orders :=
  let k := p.listeners.size
  let pending := (p.book.hooks.relay h).pending
  let p := p.addListener l
  let p := { p with book := { p.book with hooks := p.book.hooks.withRelay h ⟨some k, none⟩ } }
  match pending with
  | some s => p.react k (.signal s)
  | none => (p, [])

end Novella.Player
