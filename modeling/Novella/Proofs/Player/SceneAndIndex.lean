import Novella.Proofs.Player.PendingCalls

/-!
# Scene, index and course

What the operations of a player do to its course is said here by operations on courses, without the
cells and their observers. This takes a player whose own observers are in order: the player hears
the scene and the index before any listener of the host does, and a delivery of one of the two waits
in the loop exactly if its cell says so. Such a player *follows* its course.

Commands decide by their arguments what they do, so an instruction and the end of one are relations
on courses.

## Main definitions

* `Attended`, `Player.Follows` — players whose own observers are in order
* `Course.jump`, `Course.loadScene`, `Course.answer` — what moves a script from outside
* `Course.Executes`, `Course.Advances`, `Course.Runs` — instructions, their ends, and lines
* `Course.Inner` — what a script may do of its own accord

## Main results

* `Player.Follows.goto`, `Player.Follows.runLine`, `Player.Follows.finish` — operations of the
  player follow those on courses
-/

namespace Novella

open Player

/-! ### Observers in order -/

/-- The observer does not tire, and wants every value. -/
structure Observer.Always {α : Type} (r : Reaction) (o : Observer α Reaction) : Prop where
  /-- What it does. -/
  reaction : o.reaction = r
  /-- It wants every value. -/
  accepts : ∀ v, o.accepts v = true
  /-- No value is the last. -/
  stays : o.once = false

/-- The player is observer `k` of the cell. Those before it begin pages, those after it are
listeners of the host. -/
structure Attended {α : Type} (r : Reaction) (k : Nat) (c : Cell α Reaction) : Prop where
  /-- Pages come first, then the player, then listeners. -/
  split : ∃ pages own others, c.observers = pages ++ own :: others ∧
    (pages.map Observer.id = List.range k ∧ ∀ o ∈ pages, o.Always .openPage) ∧
    (own.id = k ∧ own.Always r) ∧ ∀ o ∈ others, k < o.id ∧ ∃ n, o.reaction = .listener n
  /-- The number of the player is taken. -/
  taken : k < c.nextId

namespace Attended

variable {α : Type} {r : Reaction} {k : Nat} {c d : Cell α Reaction}

theorem of_eq (h : Attended r k c) (ho : d.observers = c.observers) (hn : d.nextId = c.nextId) :
    Attended r k d := by
  refine ⟨?_, ?_⟩
  · rw [ho]
    exact h.split
  · rw [hn]
    exact h.taken

theorem isEmpty_observers (h : Attended r k c) : c.observers.isEmpty = false := by
  obtain ⟨pages, own, others, hs, -⟩ := h.split
  simp [hs]

/-- Since there is somebody to hear it, a delivery is queued unless one waits already. -/
theorem notify_eq (h : Attended r k c) :
    c.notify = ({ c with scheduled := true }, !c.scheduled) := by
  have he := h.isEmpty_observers
  rw [Cell.notify]
  cases c with
  | mk value observers nextId scheduled => cases scheduled <;> simp_all

theorem observe (h : Attended r k c) (n : Nat) (accepts : α → Bool) (once : Bool) :
    Attended r k (c.observe (.listener n) accepts once) := by
  obtain ⟨pages, own, others, hs, hp, ho, hl⟩ := h.split
  refine ⟨⟨pages, own, others ++ [⟨c.nextId, .listener n, accepts, once⟩], ?_, hp, ho,
    fun o hm => ?_⟩, Nat.lt_succ_of_lt h.taken⟩
  · simp [Cell.observe, hs]
  · rcases List.mem_append.1 hm with hm | hm
    · exact hl o hm
    · rw [List.mem_singleton.1 hm]
      exact ⟨h.taken, n, rfl⟩

/-- Only listeners of the host are ever removed. -/
theorem unobserve (h : Attended r k c) {id : Nat} (hid : k < id) :
    Attended r k (c.unobserve id) := by
  obtain ⟨pages, own, others, hs, hp, ho, hl⟩ := h.split
  refine ⟨⟨pages, own, others.filter (fun o => o.id ≠ id), ?_, hp, ho, fun o hm => ?_⟩, h.taken⟩
  · have hpages : pages.filter (fun o => o.id ≠ id) = pages := by
      refine List.filter_eq_self.2 fun o hm => ?_
      have hlt : o.id ∈ List.range k := hp.1 ▸ List.mem_map_of_mem hm
      have := List.mem_range.1 hlt
      simp only [ne_eq, decide_not, Bool.not_eq_true', decide_eq_false_iff_not]
      omega
    have hown : own.id ≠ id := by
      have := ho.1
      omega
    rw [Cell.unobserve, hs, List.filter_append, hpages,
      List.filter_cons_of_pos (by simpa using hown)]
  · exact hl o (List.mem_filter.1 hm).1

/-- The numbers of the observers that a delivery calls, the player and those before it first. -/
theorem ids (h : Attended r k c) :
    ∃ ids, c.observers.map Observer.id = List.range (k + 1) ++ ids ∧ ∀ id ∈ ids, k < id := by
  obtain ⟨pages, own, others, hs, hp, ho, hl⟩ := h.split
  refine ⟨others.map Observer.id, ?_, fun id hid => ?_⟩
  · rw [hs, List.map_append, List.map_cons, hp.1, ho.1, List.range_succ]
    simp
  · obtain ⟨o, hm, rfl⟩ := List.mem_map.1 hid
    exact (hl o hm).1

theorem hear_page (h : Attended r k c) {i : Nat} (hi : i < k) (v : α) :
    c.hear i v = (c, some .openPage) := by
  obtain ⟨pages, own, others, hs, hp, ho, hl⟩ := h.split
  have hmem : i ∈ pages.map Observer.id := by
    rw [hp.1]
    exact List.mem_range.2 hi
  obtain ⟨o, hom, hoi⟩ := List.mem_map.1 hmem
  have hf : ∃ o ∈ pages, c.observers.find? (fun o => o.id = i) = some o := by
    cases hf : pages.find? (fun o => o.id = i) with
    | none => exact absurd (List.find?_eq_none.1 hf o hom) (by simp [hoi])
    | some x =>
      refine ⟨x, List.mem_of_find?_eq_some hf, ?_⟩
      rw [hs, List.find?_append, hf]
      rfl
  obtain ⟨o, hom, hf⟩ := hf
  have ha := hp.2 o hom
  simp [Cell.hear, hf, ha.accepts, ha.stays, ha.reaction]

/-- What the host's listeners do when they hear a cell is up to them, but the player keeps its
place among the observers. -/
theorem hear_other (h : Attended r k c) {i : Nat} (hi : k < i) (v : α) :
    Attended r k (c.hear i v).1 ∧ (c.hear i v).1.value = c.value ∧
      (c.hear i v).1.scheduled = c.scheduled ∧
        ∀ x, (c.hear i v).2 = some x → ∃ n, x = .listener n := by
  rw [Cell.hear]
  split
  · next o hf =>
    have hoi : o.id = i := by simpa using List.find?_some hf
    have hl : ∃ n, o.reaction = .listener n := by
      obtain ⟨pages, own, others, hs, hp, ho, hl⟩ := h.split
      have hm := List.mem_of_find?_eq_some hf
      rw [hs] at hm
      rcases List.mem_append.1 hm with hm | hm
      · have := List.mem_range.1 (hp.1 ▸ List.mem_map_of_mem hm)
        omega
      · rcases List.mem_cons.1 hm with rfl | hm
        · have := ho.1
          omega
        · exact (hl o hm).2
    split
    · obtain ⟨n, hn⟩ := hl
      split
      · refine ⟨h.unobserve hi, rfl, rfl, fun x hx => ⟨n, ?_⟩⟩
        rw [← hn]
        exact (Option.some.inj hx).symm
      · exact ⟨h, rfl, rfl, fun x hx => ⟨n, by rw [← hn]; exact (Option.some.inj hx).symm⟩⟩
    · exact ⟨h, rfl, rfl, fun x hx => by cases hx⟩
  · exact ⟨h, rfl, rfl, fun x hx => by cases hx⟩

theorem hear_own (h : Attended r k c) (v : α) : c.hear k v = (c, some r) := by
  obtain ⟨pages, own, others, hs, hp, ho, hl⟩ := h.split
  have hnone : pages.find? (fun o => o.id = k) = none := by
    refine List.find?_eq_none.2 fun o hm => ?_
    have := List.mem_range.1 (hp.1 ▸ List.mem_map_of_mem hm)
    simp only [decide_eq_true_eq]
    omega
  have hf : c.observers.find? (fun o => o.id = k) = some own := by
    rw [hs, List.find?_append, hnone, Option.none_or, List.find?_cons_of_pos (by simp [ho.1])]
  simp [Cell.hear, hf, ho.2.accepts, ho.2.stays, ho.2.reaction]

end Attended

/-! ### Operations on courses -/

namespace Course

/-- Drops the running instruction and those after it. -/
def interrupt (c : Course) : Course := { c with generation := c.generation + 1, queue := [] }

/-- At most this cell is delivered, after what waits already. -/
def Queues (x : CellName) (ts ts' : List CellName) : Prop := ts' = ts ∨ x ∉ ts ∧ ts' = ts ++ [x]

/-- Has a cell delivered, unless its delivery waits already. -/
def turn (c : Course) (x : CellName) : Course :=
  { c with turns := if x ∈ c.turns then c.turns else c.turns ++ [x] }

/-- Writes the index. -/
def moveTo (c : Course) (i : UInt64) : Course :=
  if c.index = i then c else { c with index := i }.turn .index

/-- Writes the scene. -/
def switchTo (c : Course) (s : String) : Course :=
  if c.scene = s then c else { c with scene := s }.turn .scene

/-- Jumps to a line. -/
def jump (c : Course) (s : String) (i : UInt64) : Course :=
  if c.scene ≠ s then (c.interrupt.switchTo s).moveTo i
  else ((if c.lines.isNone ∧ c.phase ≠ .loading then c.interrupt.turn .scene
    else c.interrupt).moveTo i).turn .index

/-- Leaves the old scene and asks for the lines of the new one. -/
def loadScene (c : Course) (s : String) : Course :=
  let c := { c.interrupt with lines := none }
  if s = "" then { c with loadRequest := none, phase := .idle }
  else
    { c with
      loadVersion := c.loadVersion + 1
      loadRequest := some ⟨s, c.loadVersion + 1⟩
      phase := .loading }

/-- The request is the last one, and has not been answered. -/
def Awaits (c : Course) (r : LoadRequest) : Prop := r.version = c.loadVersion ∧ c.phase = .loading

instance (c : Course) (r : LoadRequest) : Decidable (c.Awaits r) :=
  inferInstanceAs (Decidable (_ ∧ _))

/-- Answers a request for a scene. -/
def answer (c : Course) (r : LoadRequest) (x : Except SourceError (List String)) : Course :=
  if c.Awaits r then
    match x with
    | .ok lines => { c with lines := some lines, phase := .executing }.turn .index
    | .error _ => { c with phase := .idle }
  else c

/-! What these operations change is said by equations. -/

theorem Queues.trans {x : CellName} {ts ts' ts'' : List CellName} (h : Queues x ts ts')
    (h' : Queues x ts' ts'') : Queues x ts ts'' := by
  rcases h with rfl | ⟨hn, rfl⟩
  · exact h'
  · rcases h' with rfl | ⟨hn', -⟩
    · exact .inr ⟨hn, rfl⟩
    · exact absurd (List.mem_append_right _ List.mem_cons_self) hn'

theorem turn_eq (c : Course) (x : CellName) :
    ∃ ts, c.turn x = { c with turns := ts } ∧ Queues x c.turns ts := by
  refine ⟨_, rfl, ?_⟩
  by_cases h : x ∈ c.turns
  · exact .inl (if_pos h)
  · exact .inr ⟨h, if_neg h⟩

theorem moveTo_eq (c : Course) (i : UInt64) :
    ∃ ts, c.moveTo i = { c with index := i, turns := ts } ∧ Queues .index c.turns ts := by
  rw [moveTo]
  split
  · next h => exact ⟨c.turns, by rw [← h], .inl rfl⟩
  · exact turn_eq { c with index := i } .index

theorem switchTo_eq (c : Course) (s : String) :
    ∃ ts, c.switchTo s = { c with scene := s, turns := ts } ∧ Queues .scene c.turns ts := by
  rw [switchTo]
  split
  · next h => exact ⟨c.turns, by rw [← h], .inl rfl⟩
  · exact turn_eq { c with scene := s } .scene

/-- A jump has the scene delivered before the index, and both after what waits already. -/
theorem jump_eq (c : Course) (s : String) (i : UInt64) :
    ∃ ts ts', c.jump s i = { c.interrupt with scene := s, index := i, turns := ts' } ∧
      Queues .scene c.turns ts ∧ Queues .index ts ts' := by
  rw [jump]
  by_cases hs : c.scene = s
  · rw [if_neg (not_not_intro hs), ← hs]
    obtain ⟨ts, h, hts⟩ : ∃ ts, (if c.lines.isNone ∧ c.phase ≠ .loading then c.interrupt.turn .scene
        else c.interrupt) = { c.interrupt with turns := ts } ∧ Queues .scene c.turns ts := by
      split
      · exact turn_eq ..
      · exact ⟨c.turns, rfl, .inl rfl⟩
    obtain ⟨ts', h', hts'⟩ := moveTo_eq { c.interrupt with turns := ts } i
    obtain ⟨ts'', h'', hts''⟩ := turn_eq { c.interrupt with index := i, turns := ts' } .index
    exact ⟨ts, ts'', by rw [h, h']; exact h'', hts, hts'.trans hts''⟩
  · rw [if_pos hs]
    obtain ⟨ts, h, hts⟩ := c.interrupt.switchTo_eq s
    obtain ⟨ts', h', hts'⟩ := moveTo_eq { c.interrupt with scene := s, turns := ts } i
    exact ⟨ts, ts', by rw [h, h'], hts, hts'⟩

/-- Leaving a scene drops its lines, and asks for the new scene if it has a name. -/
theorem loadScene_eq (c : Course) (s : String) :
    ∃ phase loadVersion loadRequest,
      c.loadScene s = { c.interrupt with lines := none, phase, loadVersion, loadRequest } ∧
        (phase = .idle ∧ loadVersion = c.loadVersion ∧ loadRequest = none ∨
          phase = .loading ∧ loadVersion = c.loadVersion + 1 ∧
            loadRequest = some ⟨s, c.loadVersion + 1⟩) := by
  rw [loadScene]
  dsimp only
  split
  · exact ⟨_, _, _, rfl, .inl ⟨rfl, rfl, rfl⟩⟩
  · exact ⟨_, _, _, rfl, .inr ⟨rfl, rfl, rfl⟩⟩

/-- An answer changes the lines and the phase, and has at most the index delivered. -/
theorem answer_eq (c : Course) (r : LoadRequest) (x : Except SourceError (List String)) :
    ∃ lines phase ts, c.answer r x = { c with lines, phase, turns := ts } ∧
      Queues .index c.turns ts := by
  unfold answer
  split
  · cases x with
    | ok lines =>
      obtain ⟨ts, h, hts⟩ := turn_eq { c with lines := some lines, phase := .executing } .index
      exact ⟨_, _, ts, h, hts⟩
    | error e => exact ⟨_, _, _, rfl, .inl rfl⟩
  · exact ⟨_, _, _, rfl, .inl rfl⟩

theorem answer_of_not_awaits {c : Course} {r : LoadRequest} {x : Except SourceError (List String)}
    (h : ¬ c.Awaits r) : c.answer r x = c := if_neg h

/-- The request leaves the player, for the host to take it. -/
def release (c : Course) : Course := { c with loadRequest := none }

/-- The host keeps a request that it has taken. -/
def keep (c : Course) (r : LoadRequest) : Course := { c with requests := c.requests.push r }

/-- Begins an instruction. -/
def begin (c : Course) : Course :=
  { c with
    generation := c.generation + 1
    phase := .executing
    live := .instruction (c.generation + 1) :: c.live }

/-- What an instruction may do to the course. -/
inductive Executes (i : Instruction) (c : Course) : Course → Prop where
  /-- Nothing. -/
  | plain : Executes i c c
  /-- It moves the index. -/
  | skip (n : Int64) : i.opcode = "skip" → Executes i c (c.moveTo (skipTarget c.index n))
  /-- It puts the instructions of its body before those that wait. -/
  | branch {condition : Expr} {rest : List Char} :
      i.opcode = "if" → Condition.read i.argument.toList = .ok (condition, rest) →
        Executes i c
          { c with queue := Line.instructions (String.ofList (Text.trim rest)) ++ c.queue }

/-- What follows when nothing runs. -/
inductive Advances (c : Course) : Course → Prop where
  /-- The next instruction. -/
  | dispatch {i : Instruction} {rest : List Instruction} {c' : Course} :
      c.queue = i :: rest → { c with queue := rest }.begin.Executes i c' → Advances c c'
  /-- The next line. -/
  | leave : c.queue = [] → Advances c (c.moveTo (c.index + 1))

/-- The line at an index is run. -/
inductive Runs (c : Course) (i : UInt64) : Course → Prop where
  /-- Not before the scene has been loaded. -/
  | defer : c.phase = .loading → Runs c i c
  /-- There is no such line. -/
  | stop : c.phase ≠ .loading → c.lines.bind (·[i.toNat]?) = none →
      Runs c i { c.interrupt with phase := .idle }
  /-- The line begins. -/
  | start {line : String} {c' : Course} :
      c.phase ≠ .loading → c.lines.bind (·[i.toNat]?) = some line →
        { c.interrupt with phase := .executing, queue := Line.instructions line }.Advances c' →
          Runs c i c'

/-- What a script may do while nothing moves it from outside. -/
inductive Inner (c : Course) : Course → Prop where
  /-- Nothing. -/
  | stay : Inner c c
  /-- A running instruction goes on to wait. -/
  | suspend (t : Ticket) : t ∈ c.live → Inner c { c with phase := .awaiting }
  /-- A ticket is given back that is not the last one. -/
  | spent (t : Ticket) : t ∈ c.live → t ≠ .instruction c.generation →
      Inner c { c with live := c.live.erase t }
  /-- The last ticket is given back. -/
  | finish {c' : Course} : .instruction c.generation ∈ c.live →
      { c with live := c.live.erase (.instruction c.generation) }.Advances c' → Inner c c'
  /-- The host takes a request. -/
  | take {r : LoadRequest} : c.loadRequest = some r → Inner c (c.release.keep r)

end Course

/-! ### Players on their course -/

namespace CellName

/-- What the player does when it hears the cell. -/
def reaction : CellName → Reaction
  | scene => .loadScene
  | _ => .runLine

/-- The number of the player among the observers, if it is number `k` for the index. -/
def rank (k : Nat) : CellName → Nat
  | index => k
  | _ => 0

end CellName

/-- The course with another value in a cell. -/
def Course.put (c : Course) : (x : CellName) → x.Value → Course
  | .scene, s => { c with scene := s }
  | .index, i => { c with index := i }
  | _, _ => c

namespace Player

/-- The player is on a course, and its own observers are in order: it is the first observer of the
scene and observer `k` of the index, and deliveries wait exactly where the cells say so. -/
structure Follows (k : Nat) (p : Player) (c : Course) : Prop where
  /-- The player hears its cells. -/
  attended {x : CellName} : x.IsPlace → Attended x.reaction (x.rank k) (p.stage.cell x)
  /-- The cells say whether they wait. -/
  waits {x : CellName} : x.IsPlace → ((p.stage.cell x).scheduled = true ↔ x ∈ p.turns)
  /-- No cell waits twice. -/
  nodup : p.turns.Nodup
  /-- This is its course. -/
  course : p.course = c

/-- The player has gone on from a course of its own accord. -/
def GoesOn (k : Nat) (p : Player) (c : Course) : Prop := ∃ c', c.Inner c' ∧ p.Follows k c'

namespace Follows

variable {k : Nat} {p q : Player} {c c' : Course} {x : CellName}

/-- A change that leaves the cells of the script and its turns alone. -/
theorem of_eq (h : p.Follows k c) (hs : ∀ {x}, x.IsPlace → q.stage.cell x = p.stage.cell x)
    (ht : q.turns = p.turns) (hc : q.course = c') : q.Follows k c' where
  attended hx := by rw [hs hx]; exact h.attended hx
  waits hx := by rw [hs hx, ht]; exact h.waits hx
  nodup := by rw [ht]; exact h.nodup
  course := hc

theorem of_core (h : p.Follows k c) (hq : q.core = p.core) : q.Follows k c := by
  have hc := course_of_core hq
  refine h.of_eq (fun hx => ?_) (congrArg Course.turns hc) (hc.trans h.course)
  rcases hx with rfl | rfl
  · exact scene_of_core hq
  · exact index_of_core hq

theorem of_inside (h : p.Follows k c) (hq : q.inside = p.inside) : q.Follows k c :=
  h.of_core (core_of_inside hq)

theorem turns_eq (h : p.Follows k c) : p.turns = c.turns := congrArg Course.turns h.course

theorem turns_queueMicrotask (p : Player) (s : Stage Reaction) (hx : x.IsPlace) :
    turns { p with stage := s, schedule := p.schedule.queueMicrotask (.deliver x) } =
      p.turns ++ [x] := by
  simp [turns, loop, Schedule.queueMicrotask, Loop.queueMicrotask, Task.turn, hx]

/-- A cell of the script changes. It is delivered after that if its delivery is queued now. -/
theorem store (h : p.Follows k c) (hx : x.IsPlace) {d : Cell x.Value Reaction} {b : Bool}
    (ha : Attended x.reaction (x.rank k) d) (hb : b = true → x ∉ p.turns)
    (hs : d.scheduled = true ↔ x ∈ p.turns ∨ b = true) :
    (p.store x (d, b)).Follows k
      { c.put x d.value with turns := if b then c.turns ++ [x] else c.turns } := by
  have ht : (p.store x (d, b)).turns = if b then p.turns ++ [x] else p.turns := by
    cases b with
    | false => rfl
    | true => exact turns_queueMicrotask p _ hx
  refine ⟨@fun y hy => ?_, @fun y hy => ?_, ?_, ?_⟩
  · by_cases hyx : y = x
    · subst hyx
      rw [Player.store, Stage.cell_withCell_self]
      exact ha
    · rw [Player.store, Stage.cell_withCell_of_ne _ hyx]
      exact h.attended hy
  · rw [ht]
    by_cases hyx : y = x
    · subst hyx
      rw [Player.store, Stage.cell_withCell_self, hs]
      cases b <;> simp
    · rw [Player.store, Stage.cell_withCell_of_ne _ hyx, h.waits hy]
      cases b <;> simp [hyx]
  · rw [ht]
    cases b with
    | false => exact h.nodup
    | true =>
      refine List.nodup_append.2 ⟨h.nodup, List.pairwise_singleton .., fun y hy z hz => ?_⟩
      rw [List.mem_singleton.1 hz]
      rintro rfl
      exact hb rfl hy
  · obtain rfl := h.course
    rw [Player.course]
    rw [ht]
    rcases hx with rfl | rfl <;> rfl

theorem put_value (h : p.Follows k c) (hx : x.IsPlace) : c.put x (p.stage.cell x).value = c := by
  obtain rfl := h.course
  rcases hx with rfl | rfl <;> rfl

/-- A cell of the script changes its observers only. -/
theorem store_quiet (h : p.Follows k c) (hx : x.IsPlace) {d : Cell x.Value Reaction}
    (ha : Attended x.reaction (x.rank k) d) (hs : d.scheduled = (p.stage.cell x).scheduled)
    (hv : d.value = (p.stage.cell x).value) : (p.store x (d, false)).Follows k c := by
  have hd := h.store hx (b := false) ha (by simp) (by simpa [hs] using h.waits hx)
  rw [hv, h.put_value hx] at hd
  exact hd

/-- A cell of the script gets a value, perhaps the old one, and is delivered after that. -/
theorem store_turn (h : p.Follows k c) (hx : x.IsPlace) {d : Cell x.Value Reaction}
    (ha : Attended x.reaction (x.rank k) d) (hs : d.scheduled = true) :
    (p.store x (d, !(p.stage.cell x).scheduled)).Follows k ((c.put x d.value).turn x) := by
  have hw := h.waits hx
  have hp : (c.put x d.value).turns = p.turns := by
    rw [h.turns_eq]
    rcases hx with rfl | rfl <;> rfl
  have hd := h.store hx (b := !(p.stage.cell x).scheduled) ha (by simp [← hw])
    (by rw [← hw]; cases (p.stage.cell x).scheduled <;> simp [hs])
  have ht : (c.put x d.value).turn x = { c.put x d.value with
      turns := if !(p.stage.cell x).scheduled then c.turns ++ [x] else c.turns } := by
    rw [Course.turn, hp, ← h.turns_eq]
    congr 1
    simp only [← hw]
    cases (p.stage.cell x).scheduled <;> rfl
  rw [ht]
  exact hd

theorem notify (h : p.Follows k c) (hx : x.IsPlace) : (p.notify x).Follows k (c.turn x) := by
  have ha := h.attended hx
  have hd := h.store_turn hx (d := { p.stage.cell x with scheduled := true }) (ha.of_eq rfl rfl) rfl
  rw [h.put_value hx] at hd
  rw [Player.notify, ha.notify_eq]
  exact hd

theorem write (h : p.Follows k c) (hx : x.IsPlace) (v : x.Value) :
    (p.write x v).Follows k
      (if (p.stage.cell x).value = v then c else (c.put x v).turn x) := by
  have ha := h.attended hx
  rw [Player.write, Cell.set]
  split
  · exact h.store_quiet hx ha rfl rfl
  · have hv : Attended x.reaction (x.rank k) { p.stage.cell x with value := v } := ha.of_eq rfl rfl
    rw [hv.notify_eq]
    exact h.store_turn hx (hv.of_eq rfl rfl) rfl

theorem write_index (h : p.Follows k c) (i : UInt64) :
    (p.write .index i).Follows k (c.moveTo i) := by
  have hw := h.write (x := .index) (.inr rfl) i
  obtain rfl := h.course
  exact hw

theorem write_scene (h : p.Follows k c) (s : String) :
    (p.write .scene s).Follows k (c.switchTo s) := by
  have hw := h.write (x := .scene) (.inl rfl) s
  obtain rfl := h.course
  exact hw

/-! ### Interruptions and jumps -/

theorem interrupt (h : p.Follows k c) : p.interrupt.Follows k c.interrupt := by
  obtain rfl := h.course
  have hq : { p with generation := p.generation + 1, queue := [], active := none }.Follows k
      p.course.interrupt := h.of_eq (fun _ => rfl) rfl rfl
  unfold Player.interrupt
  dsimp only
  split
  · exact hq.of_core (core_cancelHandler ..)
  · exact hq

theorem goto (h : p.Follows k c) (s : String) (i : UInt64) :
    (p.goto s i).Follows k (c.jump s i) := by
  have hi := h.interrupt
  have hs : p.interrupt.stage.scene.value = c.scene := congrArg Course.scene hi.course
  have hl : p.interrupt.lines = c.lines := congrArg Course.lines hi.course
  have hp : p.interrupt.phase = c.phase := congrArg Course.phase hi.course
  rw [Player.goto, Course.jump]
  dsimp only
  rw [hs, hl, hp]
  split
  · exact (hi.write_scene s).write_index i
  · refine Follows.notify (Follows.write_index ?_ i) (.inr rfl)
    split
    · exact hi.notify (.inl rfl)
    · exact hi

theorem present (h : p.Follows k c) (x : Context) (v : Progress) : (p.present x v).Follows k c :=
  h.of_core (core_present ..)

theorem loadScene (h : p.Follows k c) (s : String) :
    (p.loadScene s).Follows k (c.loadScene s) := by
  have hi := h.interrupt
  have hv : p.interrupt.loadVersion = c.loadVersion := congrArg Course.loadVersion hi.course
  rw [Player.loadScene, Course.loadScene]
  dsimp only
  split
  · refine hi.of_eq (fun _ => rfl) rfl ?_
    rw [← hi.course]
    rfl
  · refine Follows.of_core ?_ (core_trace ..)
    refine hi.of_eq (fun _ => rfl) rfl ?_
    rw [← hi.course]
    rfl

theorem completeLoad (h : p.Follows k c) (r : LoadRequest) (x : Except SourceError (List String)) :
    (p.completeLoad r x).1.Follows k (c.answer r x) ∧
      (p.completeLoad r x).2 = decide (c.Awaits r) := by
  obtain rfl := h.course
  unfold Player.completeLoad Course.answer
  by_cases ha : p.course.Awaits r
  · have hp : ¬ (r.version ≠ p.loadVersion ∨ p.phase ≠ .loading) :=
      fun hn => hn.elim (· ha.1) (· ha.2)
    rw [if_neg hp, if_pos ha, decide_eq_true ha]
    cases x with
    | ok lines =>
      refine ⟨Follows.notify ?_ (.inr rfl), rfl⟩
      have ht := h.of_core (core_trace p .engine .info
        s!"Scene '{r.scene}' loaded ({lines.length} lines)")
      refine ht.of_eq (fun _ => rfl) rfl ?_
      rw [← ht.course]
      rfl
    | error e =>
      refine ⟨Follows.of_core ?_ (core_logError ..), rfl⟩
      exact h.of_eq (fun _ => rfl) rfl rfl
  · have hp : r.version ≠ p.loadVersion ∨ p.phase ≠ .loading := Decidable.not_and_iff_or_not.1 ha
    rw [if_pos hp, if_neg ha, decide_eq_false ha]
    exact ⟨h.of_core (core_trace ..), rfl⟩

/-! ### Instructions -/

theorem branch (h : p.Follows k c) (argument : String) :
    (p.branch argument).Follows k c ∨
      ∃ condition rest, Condition.read argument.toList = .ok (condition, rest) ∧
        (p.branch argument).Follows k
          { c with queue := Line.instructions (String.ofList (Text.trim rest)) ++ c.queue } := by
  obtain ⟨events, queue, hq, hqueue⟩ := p.branch_eq argument
  have hf : (p.branch argument).Follows k { c with queue } := by
    rw [hq, ← h.course]
    exact h.of_eq (fun _ => rfl) rfl rfl
  have hc : c.queue = p.queue := congrArg Course.queue h.course.symm
  rcases hqueue with rfl | ⟨condition, rest, hread, rfl⟩
  · rw [← hc] at hf
    exact .inl hf
  · rw [← hc] at hf
    exact .inr ⟨condition, rest, hread, hf⟩

theorem skip (h : p.Follows k c) (argument : String) :
    (p.skip argument).Follows k c ∨
      ∃ n, (p.skip argument).Follows k (c.moveTo (skipTarget c.index n)) := by
  rw [Player.skip]
  split
  · exact .inl (h.of_core (core_logError ..))
  · exact .inl (h.of_core (core_logError ..))
  · next n _ _ =>
    refine .inr ⟨n, ?_⟩
    obtain rfl := h.course
    exact (h.of_core (core_trace ..)).write_index _

/-- A command does to the course what an instruction may do. -/
theorem execute {P : HostCall → Prop} (h : p.Follows k c) {command : Command} (i : Instruction)
    (hc : command.Passes P i.opcode) (t : Ticket) :
    ∃ c', c.Executes i c' ∧ (p.execute command i.opcode i.argument t).1.Follows k c' := by
  obtain rfl := h.course
  have plain {q : Player} (hq : q.core = p.core) : ∃ c', p.course.Executes i c' ∧ q.Follows k c' :=
    ⟨p.course, .plain, h.of_core hq⟩
  cases command with
  | text => exact plain rfl
  | pageBreak => exact plain (core_emit ..)
  | lineBreak => exact plain (core_emit ..)
  | click => exact plain rfl
  | wait =>
    simp only [Player.execute]
    split
    · exact plain (core_waitFor ..)
    · exact plain rfl
  | setDelay =>
    simp only [Player.execute]
    split <;> exact plain rfl
  | resetDelay => exact plain rfl
  | branch =>
    rcases h.branch i.argument with hb | ⟨condition, rest, hread, hb⟩
    · exact ⟨_, .plain, hb⟩
    · exact ⟨_, .branch hc hread, hb⟩
  | skip =>
    rcases h.skip i.argument with hs | ⟨n, hs⟩
    · exact ⟨_, .plain, hs⟩
    · exact ⟨_, .skip n hc, hs⟩
  | exit =>
    refine plain ?_
    exact (core_emit ..).trans (core_trace ..)
  | cue x =>
    simp only [Player.execute]
    split
    · next hx => exact plain (core_carryOut _ (CueCommand.presents hx) _)
    · exact plain rfl
  | assign op => exact plain (core_storeOutcome ..)
  | step delta => exact plain (core_storeOutcome ..)
  | host b body => cases b <;> exact plain rfl

theorem dispatch {P : HostCall → Prop} (h : p.Follows k c) (ht : p.Tame P) (i : Instruction) :
    ∃ c', c.begin.Executes i c' ∧ (p.dispatch i).1.Follows k c' := by
  have hb : { p with
      generation := p.generation + 1
      phase := .executing
      live := .instruction (p.generation + 1) :: p.live }.Follows k c.begin := by
    refine h.of_eq (fun _ => rfl) rfl ?_
    rw [← h.course]
    rfl
  rw [Player.dispatch]
  dsimp only
  split
  · next command hget => exact hb.execute i (ht.commands hget) _
  · exact ⟨_, .plain, hb⟩
  · exact ⟨_, .plain, hb.of_core (core_logError ..)⟩

theorem runNext {P : HostCall → Prop} (h : p.Follows k c) (ht : p.Tame P) :
    ∃ c', c.Advances c' ∧ p.runNext.1.Follows k c' := by
  have hqueue : p.queue = c.queue := congrArg Course.queue h.course
  rw [Player.runNext]
  split
  · next i rest hq =>
    have hp : { p with queue := rest }.Follows k { c with queue := rest } := by
      refine h.of_eq (fun _ => rfl) rfl ?_
      rw [← h.course]
      rfl
    obtain ⟨c', hc, hd⟩ := hp.dispatch (ht.of_eq rfl rfl ht.listeners) i
    exact ⟨c', .dispatch (hqueue ▸ hq) hc, hd⟩
  · next hq =>
    refine ⟨_, .leave (hqueue ▸ hq), ?_⟩
    obtain rfl := h.course
    exact h.write_index _

theorem goesOn (h : p.Follows k c) : p.GoesOn k c := ⟨c, .stay, h⟩

/-- A ticket is given back. -/
theorem finish {P : HostCall → Prop} (h : p.Follows k c) (ht : p.Tame P) (t : Ticket) :
    (p.finish t).1.GoesOn k c := by
  have hlive : p.live = c.live := congrArg Course.live h.course
  have hgen : p.generation = c.generation := congrArg Course.generation h.course
  have hp : { p with live := p.live.erase t }.Follows k { c with live := c.live.erase t } := by
    refine h.of_eq (fun _ => rfl) rfl ?_
    rw [← h.course]
    rfl
  rw [Player.finish]
  rw [hlive]
  split
  · next hm =>
    dsimp only
    rw [← hlive]
    cases t with
    | call n => exact ⟨_, .spent _ hm (by simp), hp.of_core (core_note ..)⟩
    | instruction g =>
      dsimp only
      split
      · next hg =>
        subst hg
        obtain ⟨c', hc, hn⟩ := (hp.of_eq (q := { p with
          live := p.live.erase (.instruction p.generation), active := none }) (fun _ => rfl) rfl
            hp.course).runNext (ht.of_eq rfl rfl ht.listeners)
        rw [hgen] at hm hc
        exact ⟨c', .finish hm hc, hn⟩
      · next hg =>
        refine ⟨_, .spent _ hm ?_, hp.of_core (core_trace ..)⟩
        rw [← hgen]
        simpa using hg
  · exact h.goesOn

theorem conclude {P : HostCall → Prop} (h : p.Follows k c) (ht : p.Tame P) (t : Ticket)
    (x : Completion) : (p.conclude t x).1.GoesOn k c := by
  cases x with
  | completed => exact h.finish ht t
  | pending x =>
    have hlive : p.live = c.live := congrArg Course.live h.course
    have pend {q : Player} (hq : q.core = p.core) (hm : t ∈ c.live) :
        { q with active := some x, phase := .awaiting }.GoesOn k c := by
      have hf := h.of_core hq
      refine ⟨_, .suspend t hm, hf.of_eq (fun _ => rfl) rfl ?_⟩
      rw [← hf.course]
      rfl
    unfold Player.conclude
    dsimp only
    cases x <;>
    · dsimp only
      split
      · next hm => exact pend rfl (hlive ▸ hm)
      · first | exact h.goesOn | exact (h.of_core (core_modifyReveal ..)).goesOn

/-! ### Shown texts -/

theorem proceed {P : HostCall → Prop} (h : p.Follows k c) (ht : p.Tame P) (r : Nat) (v : Reveal) :
    (p.proceed r v).1.GoesOn k c := by
  rw [Player.proceed]
  dsimp only
  split
  · exact Follows.finish (h.of_core (by simp)) ((ht.modifyReveal ..).trace ..) _
  · exact (h.of_core (by simp)).goesOn
  · exact (h.of_core (by simp)).goesOn
  · exact (h.of_core (by simp)).goesOn
  · exact (h.of_core (by simp)).goesOn
  · exact (h.of_core (by simp)).goesOn
  · exact (h.of_core (by simp)).goesOn

theorem runReveal {P : HostCall → Prop} (h : p.Follows k c) (ht : p.Tame P) (r : Nat) :
    (p.runReveal r).1.GoesOn k c := by
  unfold Player.runReveal
  dsimp only
  split
  · exact (h.of_core (core_modifyReveal ..)).proceed (ht.modifyReveal ..) ..
  · exact (h.of_core (core_modifyReveal ..)).goesOn

theorem tickReveal (h : p.Follows k c) (r : Nat) (v : Reveal) :
    (p.tickReveal r v).1.GoesOn k c := by
  rw [Player.tickReveal]
  split
  · exact h.goesOn
  · dsimp only
    split
    · exact h.goesOn
    · exact (h.of_core (by simp)).goesOn

theorem nudgeReveal {P : HostCall → Prop} (h : p.Follows k c) (ht : p.Tame P) (r : Nat)
    (v : Reveal) : (p.nudgeReveal r v).1.GoesOn k c := by
  rw [Player.nudgeReveal]
  split
  · dsimp only
    split
    · exact (h.of_core (by simp)).goesOn
    · exact (h.of_core (by simp)).goesOn
  · exact h.runReveal ht r
  · exact (h.of_core (core_modifyReveal ..)).finish (ht.modifyReveal ..) _
  · split
    · exact (h.of_core (core_skipTimer ..)).goesOn
    · exact h.goesOn
  · exact h.goesOn
  · exact h.goesOn

theorem actReveal {P : HostCall → Prop} (h : p.Follows k c) (ht : p.Tame P) (r : Nat)
    (a : Reveal.Act) : (p.actReveal r a).1.GoesOn k c := by
  rw [Player.actReveal]
  split
  · exact h.goesOn
  · cases a with
    | run => exact h.runReveal ht r
    | resume =>
      dsimp only
      split
      · exact h.proceed ht ..
      · exact h.goesOn
    | tick =>
      dsimp only
      split
      · exact Follows.tickReveal (h.of_core (core_modifyReveal ..)) ..
      · exact h.goesOn
    | ticked =>
      dsimp only
      split
      · exact (h.of_core (core_stopReveal ..)).runReveal (ht.stopReveal ..) r
      · exact h.goesOn
    | wake =>
      dsimp only
      split
      · exact Follows.runReveal (h.of_core (core_modifyReveal ..)) (ht.modifyReveal ..) r
      · exact h.goesOn
    | release => exact (h.of_core (core_modifyReveal ..)).goesOn

/-! ### Input and lines -/

theorem advanceHandler {P : HostCall → Prop} (h : p.Follows k c) (ht : p.Tame P) (x : Handler) :
    (p.advanceHandler x).1.GoesOn k c := by
  cases x with
  | finish t => exact h.finish ht t
  | stuck => exact h.goesOn
  | timer n => exact (h.of_core (core_skipTimer ..)).goesOn
  | reveal r =>
    rw [Player.advanceHandler]
    split
    · exact Follows.nudgeReveal (h.of_core (core_modifyReveal ..)) (ht.modifyReveal ..) ..
    · exact h.goesOn
  | host b t =>
    cases b <;> first
      | exact (h.of_core (core_note ..)).goesOn
      | exact h.finish ht t

theorem next {P : HostCall → Prop} (h : p.Follows k c) (ht : p.Tame P) :
    p.next.1.GoesOn k c := by
  rw [Player.next]
  split
  · exact h.advanceHandler ht _
  · exact h.goesOn

theorem runLine {P : HostCall → Prop} (h : p.Follows k c) (ht : p.Tame P) (i : UInt64) :
    ∃ c', c.Runs i c' ∧ (p.runLine i).1.Follows k c' := by
  obtain rfl := h.course
  have hi := h.interrupt
  have idle {q : Player} (hq : q.core = { p.interrupt with phase := .idle }.core) :
      q.Follows k { p.course.interrupt with phase := .idle } := by
    refine Follows.of_core ?_ hq
    refine hi.of_eq (fun _ => rfl) rfl ?_
    rw [← hi.course]
    rfl
  have hl : p.interrupt.lines = p.course.lines := congrArg Course.lines hi.course
  rw [Player.runLine]
  by_cases hp : p.phase = .loading
  · rw [if_pos hp]
    exact ⟨_, .defer hp, h.of_core (core_trace ..)⟩
  · rw [if_neg hp]
    dsimp only
    split
    · next hn =>
      refine ⟨_, .stop hp ?_, idle rfl⟩
      rw [← hl, hn]
      rfl
    · next lines hls =>
      split
      · next hn =>
        refine ⟨_, .stop hp ?_, idle rfl⟩
        rw [← hl, hls]
        exact hn
      · next line hline =>
        have hq : { p.interrupt.trace .engine .trace s!"[{i.toNat}] {line}" with
            phase := .executing
            queue := (p.interrupt.trace .engine .trace s!"[{i.toNat}] {line}").queue ++
              Line.instructions line }.Follows k
            { p.course.interrupt with
              phase := .executing
              queue := Line.instructions line } := by
          have htr := hi.of_core (core_trace p.interrupt .engine .trace s!"[{i.toNat}] {line}")
          have hqueue : (p.interrupt.trace .engine .trace s!"[{i.toNat}] {line}").queue = [] :=
            congrArg Course.queue htr.course
          refine htr.of_eq (fun _ => rfl) rfl ?_
          rw [hqueue, ← htr.course]
          rfl
        have ht' := ht.interrupt.trace .engine .trace s!"[{i.toNat}] {line}"
        obtain ⟨c', hc, hn⟩ := hq.runNext (ht'.of_eq rfl rfl ht'.listeners)
        exact ⟨c', .start hp (by rw [← hl, hls]; exact hline) hc, hn⟩

end Follows

end Player

end Novella
