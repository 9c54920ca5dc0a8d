import Novella.Player.Instruction

/-!
# Scenes and lines

The player follows its own cells. A new scene asks the host for its lines; a new index runs the line
there. Until the lines have come the index is only remembered, and their arrival has it delivered
again. Requests carry a version, so the lines of a scene that has been left since are turned away.

## Main definitions

* `Player.loadScene`, `Player.runLine` — what the player does when it hears its cells
* `Player.goto`, `Player.restore` — moving the script from outside
* `Player.takeRequest`, `Player.completeLoad` — the exchange with the host
-/

namespace Novella.Player

/-- The name of a request for the log. -/
def requestText (r : LoadRequest) : String := s!"'{r.scene}' (v{r.version})"

/-- Leaves the old scene and asks for the lines of the new one. -/
def loadScene (p : Player) (scene : String) : Player :=
  let p := { p.interrupt with lines := none }
  if scene = "" then { p with loadRequest := none, phase := .idle }
  else
    let r : LoadRequest := ⟨scene, p.loadVersion + 1⟩
    { p with loadVersion := r.version, loadRequest := some r, phase := .loading }.trace .engine
      .debug s!"Loading scene {requestText r}"

/-- Runs a line, in the place of the one that was running. -/
def runLine (p : Player) (index : UInt64) : Player × Orders :=
  if p.phase = .loading then
    (p.trace .engine .trace s!"Line {index.toNat} deferred until the scene has loaded", [])
  else
    let p := p.interrupt
    match p.lines with
    | none =>
      ({ p with phase := .idle }.logError
        s!"Cannot execute line {index.toNat}: no scene loaded", [])
    | some lines =>
      match lines[index.toNat]? with
      | none =>
        ({ p with phase := .idle }.note
          (.log ⟨.info, none, s!"Scene '{p.stage.scene.value}' reached end of file"⟩), [])
      | some line =>
        let p := p.trace .engine .trace s!"[{index.toNat}] {line}"
        { p with phase := .executing, queue := p.queue ++ Line.instructions line }.runNext

/-- Jumps to a line, and loads its scene if that is another one or could not be loaded. The jump
takes effect when the cells are delivered. -/
def goto (p : Player) (scene : String) (index : UInt64) : Player :=
  let p := p.interrupt
  if p.stage.scene.value ≠ scene then (p.write .scene scene).write .index index
  else
    let p := if p.lines.isNone ∧ p.phase ≠ .loading then p.notify .scene else p
    (p.write .index index).notify .index

/-- Brings back what is seen and heard, and the variables. -/
def present (p : Player) (c : Context) (v : Progress) : Player :=
  let p := (p.write .track c.audio.track).write .loopedEffect c.audio.loopedEffect
  let p := (p.write .background c.graphics.background).write .left c.graphics.left
  let p := (p.write .center c.graphics.center).write .right c.graphics.right
  p.write .vars v

/-- Brings back a position and jumps to its line. -/
def restore (p : Player) (c : Context) (v : Progress) : Player :=
  (p.present c v).goto c.scene c.index

/-- The player without the request for a scene, which is up to the host from then on. -/
def takeRequest (p : Player) : Player × Option LoadRequest :=
  ({ p with loadRequest := none }, p.loadRequest)

/-- Answers a request for a scene. Says whether the request was still open. -/
def completeLoad (p : Player) (r : LoadRequest) (result : Except SourceError (List String)) :
    Player × Bool :=
  if r.version ≠ p.loadVersion ∨ p.phase ≠ .loading then
    (p.trace .engine .debug s!"Ignoring stale load of {requestText r}", false)
  else
    match result with
    | .ok lines =>
      let p := p.trace .engine .info s!"Scene '{r.scene}' loaded ({lines.length} lines)"
      ({ p with lines := some lines, phase := .executing }.notify .index, true)
    | .error e =>
      ({ p with phase := .idle }.logError s!"Failed to load scene '{r.scene}': {e.message}", true)

end Novella.Player
