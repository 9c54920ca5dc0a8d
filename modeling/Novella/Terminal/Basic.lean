import Novella.Session

/-!
# Playing in a terminal

A terminal shows the text of a game as it comes and takes commands by the line. Between two lines
it waits until the next timer is due, or, with auto-play, until it is time to go on. The terminal
itself is a value: it is told what came and when, and says what is to be printed.

## Main definitions

* `Terminal` — a session with what has been printed
* `Terminal.respond` — what a line of input, the end of input, or a wait brings about
* `Terminal.playThrough` — a whole game, in which only waiting takes time
-/

namespace Novella

/-- A game in a terminal. -/
structure Terminal where
  /-- The game. -/
  session : Session
  /-- Whether the game goes on by itself. -/
  autoPlay : Bool := false
  /-- Whether the game is over. -/
  closed : Bool := false
  /-- Why the game had to be given up. -/
  failure : Option SessionError := none
  /-- What has been printed. -/
  printed : String := ""

/-- What comes to a terminal. -/
inductive Terminal.Input where
  /-- A line. -/
  | line (s : String)
  /-- The end of the lines. -/
  | ended
  /-- The end of a wait. -/
  | waited
deriving DecidableEq, Repr

namespace Terminal

/-- More steps than a move of a game takes. -/
def stepLimit : Nat := 1000000000

/-! ### Printing -/

/-- The commands, as they are shown at the beginning. -/
def controls : String :=
  "=== shiori player ===\n\nControls:\n  Enter: next\n  a:     toggle auto-play\n" ++
    "  s:     quick save\n  l:     quick load\n  h:     history\n  q:     quit\n\n"

/-- What is printed for a signal. -/
def signalText : Signal → String
  | .text token => token
  | .page => "\n" ++ String.ofList (List.replicate 40 '-') ++ "\n"
  | .exit => "\n[return reached, press q to quit]\n"

/-- What is printed for an event. -/
def eventText : Event → String
  | .occurred (.signal s) => signalText s
  | _ => ""

/-- The pages as they are listed on request. -/
def historyText (h : History) : String :=
  let page (p : Page) : String := String.ofList (Text.trimEnd p.text.toList) ++ "\n~\n"
  "\n--- history ---\n" ++ String.join (h.pages.map page) ++ "---------------\n"

/-- Prints a text. -/
def print (t : Terminal) (s : String) : Terminal := { t with printed := t.printed ++ s }

/-- Carries out a move and prints its signals. -/
def play (t : Terminal) (m : Session.Move) : Terminal :=
  let session := Session.run stepLimit (m.1.listening, m.2)
  { t with session }.print (String.join (session.player.events.toList.map eventText))

/-! ### Commands -/

/-- Gives the game up. -/
def fail (t : Terminal) (e : SessionError) : Terminal :=
  { t with failure := some e, closed := true }

/-- Saves to the slot of quick saves. -/
def quickSave (t : Terminal) : Terminal :=
  match t.session.save Slots.quickSave with
  | (.ok (), session) => { t with session }.print "[saved]\n"
  | (.error e, session) => { t with session }.fail e

/-- Goes back to the quick save. -/
def quickLoad (t : Terminal) : Terminal :=
  match t.session.load Slots.quickSave with
  | .ok move => (t.play move).print "[loaded]\n"
  | .error _ => t.print "[no quick save yet]\n"

/-- Turns auto-play on or off. -/
def toggleAutoPlay (t : Terminal) : Terminal :=
  let t := { t with autoPlay := !t.autoPlay }
  t.print (if t.autoPlay then "[auto-play on]\n" else "[auto-play off]\n")

/-- Obeys a command. -/
def obey (t : Terminal) (command : String) : Terminal :=
  match command with
  | "" => t.play t.session.next
  | "q" => { t with closed := true }
  | "a" => t.toggleAutoPlay
  | "s" => t.quickSave
  | "l" => t.quickLoad
  | "h" => t.print (historyText t.session.history)
  | other => t.print s!"[unknown command '{other}']\n"

/-- Closes the terminal if the game has come to its end. -/
def closeIfFinished (t : Terminal) : Terminal :=
  if t.session.isFinished ∧ t.closed = false then
    { t with closed := true }.print "\n[end of scene]\n"
  else t

/-- The settings of the game. -/
def settings (t : Terminal) : Settings := t.session.player.stage.settings.value

/-- How long to wait for input. Without a timer or auto-play there is no end to the wait. -/
def patience? (t : Terminal) : Option Nat :=
  match t.session.nextDeadline? with
  | some d => some d
  | none => if t.autoPlay then some t.settings.autoPlayDelay.toNat else none

/-- What comes to the terminal when `elapsed` milliseconds have passed since the beginning. -/
def respond (t : Terminal) (elapsed : Nat) (i : Input) : Terminal :=
  let timed := t.session.nextDeadline?.isSome
  let t := t.play (t.session.syncClock elapsed)
  closeIfFinished <|
    match i with
    | .line s => t.obey (Text.trimmed s)
    | .ended => { t with closed := true }
    | .waited => if timed = false ∧ t.autoPlay then t.play t.session.next else t

/-- Begins a scene. -/
def begin (t : Terminal) (scene : String) : Terminal :=
  ((t.print controls).play (t.session.start scene)).closeIfFinished

/-- The document of the position at the end. -/
def finalState (t : Terminal) : String := (t.session.capture).2.text ++ "\n"

/-- The terminal for a session. -/
def ofSession (s : Session) : Terminal :=
  let deaf : Listener := ⟨fun _ => false, 0, []⟩
  let player := [Hook.text, Hook.page, Hook.exit].foldl (fun p h => (p.connectToBook h deaf).1)
    s.player
  { session := { s with player } }

/-! ### Whole games -/

/-- Waits until the game is over, if waiting brings that about within a number of waits. -/
def waitThrough : Nat → Nat → Terminal → Terminal
  | 0, _, t => t
  | n + 1, elapsed, t =>
    if t.closed then t
    else
      match t.patience? with
      | some d => waitThrough n (elapsed + d) (t.respond (elapsed + d) .waited)
      | none => t

/-- Plays a game whose lines of input all come before any time passes. After them the input ends, or
stays open until the game is over. -/
def playThrough (t : Terminal) (scene : String) (lines : List String) (keepOpen : Bool) :
    Terminal :=
  let t := lines.foldl (fun t s => if t.closed then t else t.respond 0 (.line s)) (t.begin scene)
  if t.closed then t
  else if keepOpen then waitThrough stepLimit 0 t
  else t.respond 0 .ended

end Terminal

end Novella
