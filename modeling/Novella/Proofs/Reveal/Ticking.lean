import Mathlib.Algebra.GroupWithZero.Nat
import Novella.Proofs.Player.ScriptCourse
import Novella.Proofs.Reveal.CharacterTimes
import Novella.Proofs.Reveal.Showing
import Novella.Proofs.Timer.Programs

/-!
# Texts by the character

A text that is shown by the character has a timer that repeats, and each time that it rings the next
character appears. Nothing else takes the text further as long as there is no input and the stretch
has not ended. So the characters of the first stretch appear at the ends of the intervals, however
many slices the host cuts time into.

There is only so much to be done before the next character: each step takes some of the *effort*
that the orders ask for, until the timer of the text is due or nothing is left to be done.

## Main definitions

* `Machine.timedMarks` — what the host hears of a text, and when
* `Spells` — a player that shows a text by the character
* `Spelling` — a machine that does so while the host lets time pass

## Main results

* `Spelling.step` — the next step shows the next character at its time, or none
* `Spelling.timedMarks` — the characters of a stretch appear at the ends of the intervals
* `no_drift` — timers that repeat do not drift, and neither do texts
-/

namespace Novella

open Player Reveal

/-- A call that lets time pass. -/
def HostCall.PassesTime : HostCall → Prop
  | settle | advance _ | runMicrotasks => True
  | _ => False

/-- How much time a call lets pass. -/
def HostCall.duration : HostCall → Nat
  | advance d => d
  | _ => 0

namespace Order

/-- The order is one of a host that lets time pass. -/
def IsPastime : Order Task → Prop
  | .perform (.call _ c) => c.PassesTime
  | .perform (.report _ _) | .drain | .advance _ => True
  | _ => False

/-- The order is left behind by a character of text `r`, and takes the text no further before the
stretch ends. -/
def IsAftermath (r : Nat) : Order Task → Prop
  | .perform (.call _ c) => c = .runMicrotasks
  | .perform (.reveal r' a) => r' = r ∧ (a = .ticked ∨ a = .release)
  | .perform (.report _ _) | .drain => True
  | _ => False

/-- How much time an order lets pass. -/
def duration : Order Task → Nat
  | .perform (.call _ c) => c.duration
  | .advance d => d
  | _ => 0

/-- How many steps it takes at most to carry out an order and what comes of it, as long as no timer
rings. -/
@[simp] def effort : Order Task → Nat
  | .perform (.call _ _) => 6
  | .advance _ => 4
  | .depart _ => 2
  | _ => 1

end Order

/-- How many steps it takes at most to carry out the orders, as long as no timer rings. -/
@[simp] def effort : Orders → Nat
  | [] => 0
  | o :: orders => o.effort + effort orders

/-- The orders let time pass, from the time `now` until the time `goal`. -/
def Passing (now goal : Nat) : Orders → Prop
  | [] => now = goal
  | o :: orders => o.IsPastime ∧ Passing (now + o.duration) goal orders

theorem Passing.le {now goal : Nat} {orders : Orders} (h : Passing now goal orders) :
    now ≤ goal := by
  induction orders generalizing now with
  | nil => exact Nat.le_of_eq h
  | cons o orders ih => exact Nat.le_of_add_right_le (ih h.2)

/-- What the host hears of a text in the first `n` steps, each mark with its time. -/
def Machine.timedMarks (k : Nat) : Nat → Machine Player Task → List (Nat × Mark)
  | 0, _ => []
  | n + 1, m => ((m.step.world.marks k).drop (m.world.marks k).length).map (m.now, ·) ++
    m.step.timedMarks k n

namespace Machine

variable {k : Nat} {m : Machine Player Task}

theorem timedMarks_of_eq (h : m.step.world.marks k = m.world.marks k) (n : Nat) :
    m.timedMarks k (n + 1) = m.step.timedMarks k n := by
  rw [timedMarks, h, List.drop_length]
  rfl

theorem timedMarks_of_append {x : Mark} (h : m.step.world.marks k = m.world.marks k ++ [x])
    (n : Nat) : m.timedMarks k (n + 1) = (m.now, x) :: m.step.timedMarks k n := by
  rw [timedMarks, h, List.drop_left]
  rfl

theorem timedMarks_of_agenda_eq_nil (h : m.agenda = []) (n : Nat) : m.timedMarks k n = [] := by
  have hstep : m.step = m := by
    obtain ⟨p, agenda⟩ := m
    obtain rfl : agenda = [] := h
    rfl
  induction n with
  | zero => rfl
  | succ n ih => rw [timedMarks_of_eq (congrArg (·.world.marks k) hstep), hstep, ih]

end Machine

/-- The characters, one at the end of each interval. -/
def spelled (start interval : Nat) (cs : List Char) : List (Nat × Mark) :=
  cs.mapIdx fun i c => (start + (i + 1) * interval, Mark.token (String.singleton c))

theorem spelled_cons (start interval : Nat) (c : Char) (cs : List Char) :
    spelled start interval (c :: cs) =
      (start + interval, Mark.token (String.singleton c)) ::
        spelled (start + interval) interval cs := by
  rw [spelled, List.mapIdx_cons, spelled, Nat.zero_add, Nat.one_mul]
  refine congrArg _ (congrArg (List.mapIdx · cs) (funext fun i => funext fun c => ?_))
  rw [Nat.add_mul (i + 1), Nat.one_mul, Nat.add_right_comm, Nat.add_assoc]

theorem Player.schedule_report (p : Player) (x : Answer) (a : Audience) :
    (p.report x a).schedule = p.schedule := by
  cases a with
  | events =>
    rw [report]
    split <;> rfl
  | _ => rfl

theorem Player.now_report (p : Player) (x : Answer) (a : Audience) :
    (p.report x a).loop.now = p.loop.now := congrArg (·.loop.now) (p.schedule_report x a)

/-! ### The text -/

/-- A text that is shown by the character. -/
structure Piece where
  /-- The number of its call. -/
  call : Nat
  /-- Its own number. -/
  reveal : Nat
  /-- The number of its timer. -/
  timer : Nat
  /-- The time for a character. -/
  interval : Nat

/-- The player shows a text by the character: so much is left of it, and these are its marks. -/
structure Spells (x : Piece) (rest : List Char) (marks : List Mark) (p : Player) : Prop where
  /-- The text is between two characters. -/
  reveal : ∃ v, p.reveals[x.reveal]? = some v ∧ v.rest = rest ∧ v.mode = .ticking
  /-- Input goes to the text. -/
  active : p.active = some (.reveal x.reveal)
  /-- These are the marks. -/
  marks : p.marks x.call = marks
  /-- The host hears of tokens. -/
  text : ∃ i, p.hooks.text.receiver = some (.listener i)
  /-- What it does then is to have microtasks run, if anything. -/
  listeners : ∀ l ∈ p.listeners, ∀ c ∈ l.body, c = .runMicrotasks

namespace Spells

variable {x : Piece} {rest : List Char} {marks : List Mark} {p : Player}

theorem withSchedule (h : Spells x rest marks p) (s : Schedule Task) :
    Spells x rest marks { p with schedule := s } :=
  ⟨h.reveal, h.active, h.marks, h.text, h.listeners⟩

/-- Input goes to the text from now on. -/
theorem conclude (hr : ∃ v, p.reveals[x.reveal]? = some v ∧ v.rest = rest ∧ v.mode = .ticking)
    (hm : p.marks x.call = marks) (ht : ∃ i, p.hooks.text.receiver = some (.listener i))
    (hl : ∀ l ∈ p.listeners, ∀ c ∈ l.body, c = .runMicrotasks) :
    Spells x rest marks { p.modifyReveal x.reveal (fun v => { v with holds := v.holds - 1 }) with
      active := some (.reveal x.reveal), phase := .awaiting } := by
  obtain ⟨v, hv, hrest, hmode⟩ := hr
  exact ⟨⟨_, getElem?_modifyReveal hv _, hrest, hmode⟩, rfl, hm, ht, hl⟩

/-- A character appears. -/
theorem emit (h : Spells x rest marks p) (s : String) :
    Spells x rest (marks ++ [.token s]) (p.emit (.text s)).1 ∧
      ∀ o ∈ (p.emit (.text s)).2, o.IsAftermath x.reveal := by
  obtain ⟨i, hi⟩ := h.text
  have hn : Spells x rest (marks ++ [.token s]) (p.note (.occurred (.signal (.text s)))) :=
    ⟨h.reveal, h.active, by rw [marks_note, h.marks]; rfl, h.text, h.listeners⟩
  have he : p.emit (.text s) = p.react i (.signal (.text s)) := by
    simp only [Player.emit, Signal.hook, Hooks.relay, hi, Player.receive]
  rw [he, Player.react]
  dsimp only
  split
  · next l hl =>
    have hbody := h.listeners l (Array.mem_of_getElem? hl)
    split
    · refine ⟨{ hn with listeners := fun y hy => ?_ }, fun o ho => ?_⟩
      · rcases Array.mem_or_eq_of_mem_setIfInBounds hy with hy | rfl
        · exact h.listeners y hy
        · exact hbody
      · obtain ⟨c, hc, rfl⟩ := List.mem_map.1 ho
        exact hbody c hc
    · exact ⟨hn, List.forall_mem_nil _⟩
  · exact ⟨hn, List.forall_mem_nil _⟩

/-- The text is changed. -/
theorem modify (h : Spells x rest marks p) {f : Reveal → Reveal} {rest' : List Char}
    (hf : ∀ v, v.rest = rest → (f v).rest = rest') (hm : ∀ v, (f v).mode = v.mode) :
    Spells x rest' marks (p.modifyReveal x.reveal f) := by
  obtain ⟨v, hv, hrest, hmode⟩ := h.reveal
  exact { h with reveal := ⟨_, getElem?_modifyReveal hv f, hf v hrest, (hm v).trans hmode⟩ }

/-- A report is made. -/
theorem report (h : Spells x rest marks p) (y : Answer) (a : Audience) :
    Spells x rest marks (p.report y a) := by
  cases a with
  | caller | nobody => exact ⟨h.reveal, h.active, h.marks, h.text, h.listeners⟩
  | events =>
    rw [Player.report]
    split
    · exact h
    · exact { h with marks := (marks_note_of_eq_none p rfl).trans h.marks }

/-- A text that has not come to the end of its stretch is not moved on. -/
theorem ticked (h : Spells x rest marks p) (hb : atBoundary rest = false) :
    p.actReveal x.reveal .ticked = (p, []) := by
  obtain ⟨v, hv, hrest, -⟩ := h.reveal
  exact actReveal_ticked hv (hrest ▸ hb)

/-- A text that was kept for a character is let go. -/
theorem release (h : Spells x rest marks p) : p.actReveal x.reveal .release =
    (p.modifyReveal x.reveal (fun v => { v with holds := v.holds - 1 }), []) := by
  obtain ⟨v, hv, -⟩ := h.reveal
  simp [actReveal, hv]

/-- The timer of the text rings: the next character appears. -/
theorem tick {c : Char} {cs : List Char} (h : Spells x (c :: cs) marks p)
    (hp : isPause (c :: cs) = false) :
    Spells x cs (marks ++ [Mark.token (String.singleton c)]) (p.actReveal x.reveal .tick).1 ∧
      (p.actReveal x.reveal .tick).1.schedule = p.schedule ∧
        ∀ o ∈ (p.actReveal x.reveal .tick).2, o.IsAftermath x.reveal := by
  obtain ⟨v, hv, hrest, hmode⟩ := h.reveal
  have hheld := h.modify (f := fun v => { v with holds := v.holds + 1 }) (fun _ hr => hr)
    fun _ => rfl
  have hread : Spells x cs marks _ := hheld.modify (f := fun v => { v with rest := cs })
    (fun _ _ => rfl) fun _ => rfl
  obtain ⟨hs, ho⟩ := hread.emit (String.singleton c)
  have hk : p.isKept x.reveal v = true := by simp [isKept, h.active]
  rw [actReveal_tick hv hmode hk hrest hp]
  refine ⟨hs, schedule_emit .., fun o hmem => ?_⟩
  rcases List.mem_append.1 hmem with hmem | hmem
  · rcases List.mem_append.1 hmem with hmem | hmem
    · exact ho o hmem
    · exact List.mem_singleton.1 hmem ▸ ⟨rfl, .inl rfl⟩
  · exact List.mem_singleton.1 hmem ▸ ⟨rfl, .inr rfl⟩

end Spells

/-! ### The timer -/

variable {x : Piece}

/-- The schedule holds no microtask, and a timer that moves the text on again and again and was
armed at the time `since`. -/
structure Drums (x : Piece) (since : Nat) (s : Schedule Task) : Prop where
  /-- It holds no microtask. -/
  microtasks : s.loop.microtasks = []
  /-- This is the timer. -/
  timer : ∃ handle, s.timers[x.timer]? =
    some ⟨x.interval, true, .reveal x.reveal .tick, .running, handle, since⟩

/-- The schedule holds one timeout, which rings the timer at the time `deadline`. -/
def Awaits (x : Piece) (deadline : Nat) (s : Schedule Task) : Prop :=
  ∃ id, s.loop.timeouts = [⟨deadline, id, .ring x.timer⟩]

/-- The timer is started. -/
theorem Drums.start {s : Schedule Task} (hm : s.loop.microtasks = []) (hn : s.loop.timeouts = [])
    (ht : s.timers.size = x.timer) :
    let drum := ⟨x.interval, true, .reveal x.reveal .tick, .idle, none, 0⟩
    Drums x s.loop.now ((s.addTimer drum).start .ring x.timer) ∧
      Awaits x (s.loop.now + x.interval) ((s.addTimer drum).start .ring x.timer) ∧
        ((s.addTimer drum).start .ring x.timer).loop.now = s.loop.now := by
  intro drum
  have hstart : (s.addTimer drum).start .ring x.timer =
      (s.addTimer drum).arm .ring x.timer drum := by
    simp [Schedule.start, Schedule.addTimer, ← ht, drum, Timer.isPending]
  rw [hstart]
  refine ⟨⟨hm, some s.loop.nextId, ?_⟩, ⟨s.loop.nextId, ?_⟩, rfl⟩
  · simp [Schedule.arm, Schedule.setTimer, Schedule.addTimer, ← ht, drum]
  · simp [Schedule.arm, Loop.setTimeout, hn, Loop.insertTimeout, Schedule.addTimer, drum]

/-- The timer is armed again when it rings, and moves the text on. -/
theorem Drums.ring {since : Nat} {s : Schedule Task} (h : Drums x since s)
    (hn : s.loop.timeouts = []) :
    Drums x s.loop.now (s.ring .ring x.timer).1 ∧
      Awaits x (s.loop.now + x.interval) (s.ring .ring x.timer).1 ∧
        (s.ring .ring x.timer).2 = some (.reveal x.reveal .tick) := by
  obtain ⟨handle, ht⟩ := h.timer
  obtain ⟨hlt, -⟩ := Array.getElem?_eq_some_iff.1 ht
  have hring : s.ring .ring x.timer = (s.arm .ring x.timer
      ⟨x.interval, true, .reveal x.reveal .tick, .running, none, since⟩,
        some (.reveal x.reveal .tick)) := by
    simp [Schedule.ring, ht, Timer.isPending]
  rw [hring]
  refine ⟨⟨h.microtasks, some s.loop.nextId, ?_⟩, ⟨s.loop.nextId, ?_⟩, rfl⟩
  · simp [Schedule.arm, Schedule.setTimer, hlt]
  · simp [Schedule.arm, Loop.setTimeout, hn, Loop.insertTimeout]

/-! ### The machine -/

/-- The text is between two characters, the last of which appeared at the time `since`. -/
structure Between (x : Piece) (since : Nat) (rest : List Char) (marks : List Mark) (p : Player) :
    Prop where
  /-- The text is shown by the character. -/
  spells : Spells x rest marks p
  /-- Its timer was armed when the last character appeared. -/
  drums : Drums x since p.schedule
  /-- The timer rings at the end of the interval. -/
  awaits : Awaits x (since + x.interval) p.schedule
  /-- The interval has begun. -/
  since_le : since ≤ p.loop.now
  /-- It has not ended. -/
  lt : p.loop.now < since + x.interval

/-- An order goes on with an advance to the time `target`, and then others let time pass until the
time `goal`. -/
structure Advancing (now goal : Nat) (o : Order Task) (later : Orders) (target : Nat) : Prop where
  /-- This is the time it goes to. -/
  goesTo : Timekeeping.GoesTo now target o
  /-- It is not over yet. -/
  le : now ≤ target
  /-- More time may pass then. -/
  passing : Passing target goal later

/-- The machine shows a text by the character while the host lets time pass until the time `goal`.
So much of the text is left, and the last character appeared at the time `since`. In so many steps
at most the next one is about to appear, or there is nothing to be done. -/
inductive Spelling (x : Piece) (goal since : Nat) (rest : List Char) (marks : List Mark) :
    Nat → Machine Player Task → Prop
  /-- No advance is under way. -/
  | free {p : Player} {agenda : Orders} : Between x since rest marks p →
    Passing p.loop.now goal agenda →
    Spelling x goal since rest marks (effort agenda + 2) ⟨p, agenda⟩
  /-- An advance is under way, and will go on when a character is over. -/
  | under {p : Player} (turn : Orders) {o : Order Task} {later : Orders} {target : Nat} :
    Between x since rest marks p → (∀ a ∈ turn, a.IsAftermath x.reveal) →
    Advancing p.loop.now goal o later target → Spelling x goal since rest marks
      (effort (turn ++ .drain :: o :: later) + 2) ⟨p, turn ++ .drain :: o :: later⟩
  /-- An advance goes on. -/
  | next {p : Player} {o : Order Task} {later : Orders} {target : Nat} :
    Between x since rest marks p → Advancing p.loop.now goal o later target →
    Spelling x goal since rest marks (effort (o :: later) + 2) ⟨p, o :: later⟩
  /-- The interval has ended, and the timer is about to ring. -/
  | rings {p : Player} {target : Nat} {later : Orders} : Spells x rest marks p →
    Drums x since p.schedule → p.loop.timeouts = [] → p.loop.now = since + x.interval →
    Advancing p.loop.now goal (.runUntil target) later target →
    Spelling x goal since rest marks 1
      ⟨p, .perform (.ring x.timer) :: .drain :: .runUntil target :: later⟩
  /-- The timer has rung, and the next character is about to appear. -/
  | strikes {p : Player} {target : Nat} {later : Orders} : Spells x rest marks p →
    Drums x (since + x.interval) p.schedule →
    Awaits x (since + x.interval + x.interval) p.schedule → p.loop.now = since + x.interval →
    Advancing p.loop.now goal (.runUntil target) later target →
    Spelling x goal since rest marks 0
      ⟨p, .perform (.reveal x.reveal .tick) :: .drain :: .runUntil target :: later⟩

namespace Between

variable {x : Piece} {since : Nat} {rest : List Char} {marks : List Mark} {p q : Player}

/-- The text is changed, or a report made. -/
theorem of_eq (h : Between x since rest marks p) (hq : Spells x rest marks q)
    (hs : q.schedule = p.schedule) : Between x since rest marks q :=
  have hl : q.loop = p.loop := congrArg Schedule.loop hs
  ⟨hq, hs ▸ h.drums, hs ▸ h.awaits, hl ▸ h.since_le, hl ▸ h.lt⟩

theorem report (h : Between x since rest marks p) (y : Answer) (a : Audience) :
    Between x since rest marks (p.report y a) :=
  h.of_eq (h.spells.report y a) (schedule_report p y a)

end Between

namespace Spelling

variable {x : Piece} {goal since target w : Nat} {c : Char} {cs rest : List Char}
  {marks : List Mark} {p : Player} {m : Machine Player Task} {o : Order Task} {turn later : Orders}

theorem marks_eq (h : Spelling x goal since rest marks w m) : m.world.marks x.call = marks := by
  cases h with
  | free h => exact h.spells.marks
  | under _ h => exact h.spells.marks
  | next h => exact h.spells.marks
  | rings h => exact h.marks
  | strikes h => exact h.marks

/-- When there is nothing to be done all time has passed, and the interval has not ended. -/
theorem of_agenda_eq_nil (h : Spelling x goal since rest marks w m)
    (hm : m.agenda = []) : since ≤ goal ∧ goal < since + x.interval := by
  cases h with
  | free h ho =>
    obtain rfl := hm
    obtain rfl : _ = goal := ho
    exact ⟨h.since_le, h.lt⟩
  | under turn => exact absurd hm (by simp)
  | next => cases hm
  | rings => cases hm
  | strikes => cases hm

/-- The host lets time pass, or an advance begins. -/
theorem step_free (h : Between x since rest marks p)
    (ho : Passing p.loop.now goal (o :: later)) :
    ∃ w < effort (o :: later) + 2,
      Spelling x goal since rest marks w (Machine.step ⟨p, o :: later⟩) := by
  obtain ⟨ho, hl⟩ := ho
  cases o with
  | perform t =>
    cases t with
    | call a c =>
      cases c with
      | settle | advance | runMicrotasks =>
        exact ⟨_, by simp +arith [Order.settle], .free h ⟨trivial, trivial, hl⟩⟩
      | _ => exact ho.elim
    | report a y =>
      exact ⟨_, by simp +arith, .free (h.report y a) ((p.now_report y a).symm ▸ hl)⟩
    | _ => exact ho.elim
  | drain =>
    rw [Machine.step_of_popMicrotask?_eq_none (Loop.popMicrotask?_eq_none.2 h.drums.microtasks)]
    exact ⟨_, by simp +arith, .free h hl⟩
  | advance d =>
    exact ⟨_, by simp +arith,
      .under [] h (List.forall_mem_nil _) ⟨rfl, Nat.le_add_right .., hl⟩⟩
  | _ => exact ho.elim

/-- An advance is under way. -/
theorem step_under (h : Between x since rest marks p) (hb : atBoundary rest = false)
    (ht : ∀ a ∈ turn, a.IsAftermath x.reveal) (ho : Advancing p.loop.now goal o later target) :
    ∃ w < effort (turn ++ .drain :: o :: later) + 2, Spelling x goal since rest marks w
      (Machine.step ⟨p, turn ++ .drain :: o :: later⟩) := by
  cases turn with
  | nil =>
    rw [List.nil_append,
      Machine.step_of_popMicrotask?_eq_none (Loop.popMicrotask?_eq_none.2 h.drums.microtasks)]
    exact ⟨_, by simp +arith, .next h ho⟩
  | cons a turn =>
    obtain ⟨ha, hmore⟩ := List.forall_mem_cons.1 ht
    cases a with
    | perform t =>
      cases t with
      | call a c =>
        obtain rfl : c = .runMicrotasks := ha
        refine ⟨_, ?_, .under (.drain :: .perform (.report a .none) :: turn) h
          (List.forall_mem_cons.2 ⟨trivial, List.forall_mem_cons.2 ⟨trivial, hmore⟩⟩) ho⟩
        simp +arith
      | report a y =>
        exact ⟨_, by simp +arith, .under turn (h.report y a) hmore ((p.now_report y a).symm ▸ ho)⟩
      | reveal r a =>
        obtain ⟨rfl, rfl | rfl⟩ := ha
        · rw [List.cons_append, Machine.step_of_act (h.spells.ticked hb)]
          exact ⟨_, by simp +arith, .under turn h hmore ho⟩
        · have hq := h.of_eq (h.spells.modify (f := fun v => { v with holds := v.holds - 1 })
            (fun _ hr => hr) fun _ => rfl) rfl
          rw [List.cons_append, Machine.step_of_act h.spells.release]
          exact ⟨_, by simp +arith, .under turn hq hmore ho⟩
      | _ => exact ha.elim
    | drain =>
      rw [List.cons_append,
        Machine.step_of_popMicrotask?_eq_none (Loop.popMicrotask?_eq_none.2 h.drums.microtasks)]
      exact ⟨_, by simp +arith, .under turn h hmore ho⟩
    | _ => exact ha.elim

/-- An advance goes on. -/
theorem step_next (h : Between x since rest marks p)
    (ho : Advancing p.loop.now goal o later target) :
    ∃ w < effort (o :: later) + 2,
      Spelling x goal since rest marks w (Machine.step ⟨p, o :: later⟩) := by
  obtain ⟨hgoes, hle, hl⟩ := ho
  cases o with
  | depart d =>
    obtain rfl : p.loop.now + d = target := hgoes
    exact ⟨_, by simp +arith, .next h ⟨rfl, hle, hl⟩⟩
  | runUntil t =>
    obtain rfl : t = target := hgoes
    obtain ⟨id, hid⟩ := h.awaits
    cases hx : (World.loop p).due? t with
    | none =>
      have hlt : t < since + x.interval := by
        have hdue : p.schedule.loop.due? t = none := hx
        simpa [Loop.due?, hid] using hdue
      rw [Machine.step_of_due_eq_none hx]
      exact ⟨_, by simp +arith, .free ⟨h.spells.withSchedule _,
        ⟨h.drums.microtasks, h.drums.timer⟩, ⟨id, hid⟩, Nat.le_trans h.since_le hle, hlt⟩ hl⟩
    | some y =>
      obtain ⟨htimeouts, hdeadline⟩ := Loop.due?_eq_some hx
      obtain ⟨rfl, htail⟩ := List.cons.inj (htimeouts.symm.trans hid)
      rw [Machine.step_of_due hx]
      exact ⟨1, by simp +arith, .rings (h.spells.withSchedule _)
        ⟨h.drums.microtasks, h.drums.timer⟩ htail rfl ⟨rfl, hdeadline, hl⟩⟩
  | _ => exact hgoes.elim

/-- The timer rings. -/
theorem step_rings (hs : Spells x rest marks p) (hdrums : Drums x since p.schedule)
    (hn : p.loop.timeouts = []) (hnow : p.loop.now = since + x.interval)
    (ho : Advancing p.loop.now goal (.runUntil target) later target) :
    Spelling x goal since rest marks 0
      (Machine.step ⟨p, .perform (.ring x.timer) :: .drain :: .runUntil target :: later⟩) := by
  obtain ⟨hdrums', hawaits, hcallback⟩ := hdrums.ring hn
  have hstep : Machine.step ⟨p, .perform (.ring x.timer) :: .drain :: .runUntil target :: later⟩ =
      ⟨{ p with schedule := (p.schedule.ring .ring x.timer).1 },
        .perform (.reveal x.reveal .tick) :: .drain :: .runUntil target :: later⟩ := by
    simp [Machine.step, World.perform, Player.perform, hcallback]
  have hnow' : (p.schedule.ring .ring x.timer).1.loop.now = p.loop.now :=
    Schedule.now_ring p.schedule x.timer
  rw [hstep]
  refine .strikes (hs.withSchedule _) ?_ ?_ (hnow'.trans hnow) (hnow' ▸ ho)
  · exact hnow ▸ hdrums'
  · exact hnow ▸ hawaits

/-- The next character appears. -/
theorem step_strikes (hd : 0 < x.interval) (hp : isPause (c :: cs) = false)
    (hs : Spells x (c :: cs) marks p) (hdrums : Drums x (since + x.interval) p.schedule)
    (hawaits : Awaits x (since + x.interval + x.interval) p.schedule)
    (hnow : p.loop.now = since + x.interval)
    (ho : Advancing p.loop.now goal (.runUntil target) later target) :
    ∃ w, Spelling x goal (since + x.interval) cs (marks ++ [Mark.token (String.singleton c)]) w
      (Machine.step
        ⟨p, .perform (.reveal x.reveal .tick) :: .drain :: .runUntil target :: later⟩) := by
  obtain ⟨hs', hschedule, horders⟩ := hs.tick hp
  rcases hact : p.actReveal x.reveal .tick with ⟨q, orders⟩
  rw [hact] at hs' hschedule horders
  have hnow' : q.loop.now = since + x.interval := (congrArg (·.loop.now) hschedule).trans hnow
  rw [Machine.step_of_act hact]
  refine ⟨_, .under orders ⟨hs', hschedule ▸ hdrums, hschedule ▸ hawaits,
    Nat.le_of_eq hnow'.symm, ?_⟩ horders (hnow.trans hnow'.symm ▸ ho)⟩
  rw [hnow']
  exact Nat.lt_add_of_pos_right hd

/-- **The next step shows the next character, at the end of the interval, or none.** -/
theorem step (h : Spelling x goal since (c :: cs) marks w m) (hd : 0 < x.interval)
    (hp : isPause (c :: cs) = false) (hm : m.agenda ≠ []) :
    (∃ w' < w, Spelling x goal since (c :: cs) marks w' m.step) ∨
      m.now = since + x.interval ∧ since + x.interval ≤ goal ∧
        ∃ w', Spelling x goal (since + x.interval) cs (marks ++ [Mark.token (String.singleton c)])
          w' m.step := by
  cases h with
  | @free p agenda h ho =>
    cases agenda with
    | nil => exact absurd rfl hm
    | cons => exact .inl (step_free h ho)
  | under turn h ht ho => exact .inl (step_under h (by simp [atBoundary, hp]) ht ho)
  | next h ho => exact .inl (step_next h ho)
  | rings hs hdrums hn hnow ho => exact .inl ⟨0, Nat.one_pos, step_rings hs hdrums hn hnow ho⟩
  | strikes hs hdrums hawaits hnow ho =>
    have hgoal : since + x.interval ≤ goal := hnow ▸ Nat.le_trans ho.le ho.passing.le
    exact .inr ⟨hnow, hgoal, step_strikes hd hp hs hdrums hawaits hnow ho⟩

/-- **The characters of a stretch appear at the ends of the intervals**, and in the end all those
have appeared whose interval ends in the time that passes. -/
theorem timedMarks (h : Spelling x goal since rest marks w m) (hd : 0 < x.interval)
    (hb : atBoundary rest = false) : ∃ enough, ∀ n,
      (m.timedMarks x.call (n + enough)).take (stretch rest).length =
        (spelled since x.interval (stretch rest)).take ((goal - since) / x.interval) := by
  induction rest generalizing since marks w m with
  | nil => cases hb
  | cons c cs ihrest =>
    have hp : isPause (c :: cs) = false := by simpa [atBoundary] using hb
    -- the effort that is left goes down until the next character appears
    induction w using Nat.strongRecOn generalizing m with
    | ind w ih =>
      by_cases hm : m.agenda = []
      · obtain ⟨hle, hlt⟩ := h.of_agenda_eq_nil hm
        refine ⟨0, fun n => ?_⟩
        rw [Machine.timedMarks_of_agenda_eq_nil hm, List.take_nil, Nat.div_eq_of_lt (by omega),
          List.take_zero]
      · rcases h.step hd hp hm with ⟨w', hlt, hq⟩ | ⟨hnow, hgoal, w', hq⟩
        · obtain ⟨enough, henough⟩ := ih w' hlt hq
          have hquiet := Machine.timedMarks_of_eq (hq.marks_eq.trans h.marks_eq.symm)
          exact ⟨enough + 1, fun n => (hquiet (n + enough)).symm ▸ henough n⟩
        · have hstretch : stretch (c :: cs) = c :: stretch cs := by simp [stretch, hp]
          have hdiv : (goal - since) / x.interval =
              (goal - (since + x.interval)) / x.interval + 1 := by
            rw [Nat.sub_add_eq]
            exact Nat.div_eq_sub_div hd (Nat.le_sub_of_add_le' hgoal)
          obtain ⟨enough, henough⟩ : ∃ enough, ∀ n,
              (m.step.timedMarks x.call (n + enough)).take (stretch cs).length =
                (spelled (since + x.interval) x.interval (stretch cs)).take
                  ((goal - (since + x.interval)) / x.interval) := by
            cases hcs : atBoundary cs with
            | true =>
              rw [stretch_eq_nil hcs]
              exact ⟨0, fun n => by simp [spelled]⟩
            | false => exact ihrest hq hcs
          refine ⟨enough + 1, fun n => ?_⟩
          rw [← Nat.add_assoc, Machine.timedMarks_of_append (h.marks_eq.symm ▸ hq.marks_eq), hnow,
            hstretch, spelled_cons, hdiv, List.length_cons, List.take_succ_cons,
            List.take_succ_cons, henough n]

end Spelling

/-! ### Players with nothing to do -/

namespace Player

/-- The player has nothing to do. Its host hears of tokens, and has microtasks run then, if
anything. -/
structure Free (p : Player) : Prop where
  /-- No microtask waits. -/
  microtasks : p.loop.microtasks = []
  /-- No timeout waits. -/
  timeouts : p.loop.timeouts = []
  /-- The host hears of tokens. -/
  text : ∃ i, p.hooks.text.receiver = some (.listener i)
  /-- What it does then is to have microtasks run. -/
  listeners : ∀ l ∈ p.listeners, ∀ c ∈ l.body, c = .runMicrotasks

/-- The text of call `k` that the player is about to show. -/
def piece (p : Player) (k : Nat) : Piece := ⟨k, p.reveals.size, p.schedule.timers.size, p.charDelay⟩

variable {p : Player} {text : String}

/-- The instruction of a text is waited for. -/
theorem step_conclude {k r : Nat} (h : .call k ∈ p.live) (later : Orders) :
    Machine.step ⟨p, .perform (.conclude (.call k) (.pending (.reveal r))) :: later⟩ =
      ⟨{ p.modifyReveal r (fun v => { v with holds := v.holds - 1 }) with
        active := some (.reveal r), phase := .awaiting }, later⟩ := by
  have hl : .call k ∈ (p.modifyReveal r fun v => { v with holds := v.holds - 1 }).live := h
  simp only [Machine.step, World.perform, Player.perform, Player.conclude, if_pos hl]
  rfl

/-- The player begins to show a text by the character. -/
theorem step_showing (p : Player) (k : Nat) (calls : List HostCall) (hd : 0 < p.charDelay)
    (hb : atBoundary text.toList = false) :
    ∃ q, (p.showing k text calls).step =
        ⟨q, .perform (.conclude (.call k) (.pending (.reveal p.reveals.size))) ::
          calls.map (fun c => .perform (.call .caller c))⟩ ∧
      (∃ v, q.reveals[p.reveals.size]? = some v ∧ v.rest = text.toList ∧ v.mode = .ticking) ∧
      .call k ∈ q.live ∧ q.events = p.events ∧ q.hooks = p.hooks ∧ q.listeners = p.listeners ∧
      q.schedule = Schedule.start .ring
        (p.schedule.addTimer ⟨p.charDelay, true, .reveal p.reveals.size .tick, .idle, none, 0⟩)
        p.schedule.timers.size := by
  let v : Reveal := { rest := text.toList, delay := p.charDelay, ticket := .call k }
  let q : Player := { p with live := [.call k], reveals := p.reveals.push v }
  have hv : q.reveals[p.reveals.size]? = some v := Array.getElem?_push_size
  have hrunning := getElem?_modifyReveal hv fun v => { v with mode := .running }
  have hrun : Player.perform (.reveal p.reveals.size .run) q =
      ((q.modifyReveal p.reveals.size fun v => { v with mode := .running }).armReveal
        p.reveals.size .ticking p.charDelay true .tick, []) :=
    actReveal_run hv (scan_eq_tick hd hb)
  exact ⟨_, congrArg (fun x : Player × Orders => Machine.mk x.1 (x.2 ++ _)) hrun,
    ⟨_, getElem?_modifyReveal hrunning _, rfl, rfl⟩, List.mem_singleton_self _, rfl, rfl, rfl, rfl⟩

/-- It takes two steps until the text waits for its first character, and the host hears of none. -/
theorem Free.between_showing (hp : p.Free) (k : Nat) (calls : List HostCall)
    (hd : 0 < p.charDelay) (hb : atBoundary text.toList = false) :
    ∃ q, Between (p.piece k) p.loop.now text.toList (p.marks k) q ∧ q.loop.now = p.loop.now ∧
      ∀ n, (p.showing k text calls).timedMarks k (n + 2) =
        Machine.timedMarks k n ⟨q, calls.map (fun c => .perform (.call .caller c))⟩ := by
  obtain ⟨q, hq, hreveal, hlive, hevents, hhooks, hlisteners, hschedule⟩ :=
    p.step_showing k calls hd hb
  have hmarks : q.marks k = p.marks k := by rw [marks, marks, hevents]
  obtain ⟨hdrums, hawaits, hnow⟩ :=
    Drums.start (x := p.piece k) hp.microtasks hp.timeouts rfl
  rw [piece, ← hschedule] at hdrums hawaits hnow
  have hspells : Spells (p.piece k) text.toList (p.marks k) _ :=
    .conclude hreveal hmarks (hhooks ▸ hp.text) (hlisteners ▸ hp.listeners)
  refine ⟨_, ⟨hspells, hdrums, hawaits, Nat.le_of_eq hnow.symm, ?_⟩, hnow, fun n => ?_⟩
  · exact Nat.lt_of_le_of_lt (Nat.le_of_eq hnow) (Nat.lt_add_of_pos_right hd)
  · have hsecond := step_conclude hlive (r := p.reveals.size)
      (calls.map fun c => .perform (.call .caller c))
    have hquiet := hspells.marks.trans hmarks.symm
    rw [Machine.timedMarks_of_eq (by rw [hq, hmarks]; rfl), hq,
      Machine.timedMarks_of_eq (by rw [hsecond]; exact hquiet), hsecond]
    rfl

end Player

/-- Calls that let time pass let all their durations pass. -/
theorem Passing.calls {calls : List HostCall} (hc : ∀ c ∈ calls, c.PassesTime) (now : Nat) :
    Passing now (now + (calls.map HostCall.duration).sum)
      (calls.map fun c => .perform (.call .caller c)) := by
  induction calls generalizing now with
  | nil => rfl
  | cons c calls ih =>
    obtain ⟨hfirst, hc⟩ := List.forall_mem_cons.1 hc
    refine ⟨hfirst, ?_⟩
    rw [List.map_cons, List.sum_cons, ← Nat.add_assoc]
    exact ih hc _

/-- A text that is shown by the character while the host lets time pass. -/
theorem Player.Free.timedMarks_showing {p : Player} (hp : p.Free) (hd : 0 < p.charDelay)
    (k : Nat) (text : String) {calls : List HostCall} (hc : ∀ c ∈ calls, c.PassesTime) :
    ∃ enough, ∀ n ≥ enough,
      ((p.showing k text calls).timedMarks k n).take (stretch text.toList).length =
        (spelled p.loop.now p.charDelay (stretch text.toList)).take
          ((calls.map HostCall.duration).sum / p.charDelay) := by
  cases hb : atBoundary text.toList with
  | true =>
    rw [stretch_eq_nil hb]
    exact ⟨0, fun n _ => by simp [spelled]⟩
  | false =>
    obtain ⟨q, hbetween, hnow, htwo⟩ := hp.between_showing k calls hd hb
    obtain ⟨enough, henough⟩ :=
      (Spelling.free hbetween (Passing.calls hc q.loop.now)).timedMarks hd hb
    refine ⟨enough + 2, fun n hn => ?_⟩
    obtain ⟨n, rfl⟩ := Nat.exists_eq_add_of_le' hn
    have hmarks := henough n
    rw [hnow, Nat.add_sub_cancel_left] at hmarks
    rw [← Nat.add_assoc, htwo]
    exact hmarks

/-- **Neither timers nor texts drift.** A timer that repeats rings at the ends of its intervals, and
of a text that is shown by the character one appears at the end of each interval, in however many
slices time passes. So it does in every run of a player, whatever else there is to be done, until
input for the text comes or its instruction is over. -/
theorem no_drift :
    (∀ {σ τ : Type} [World σ τ] {u : Timekeeping σ} {h : List (Machine σ τ)} {m : Machine σ τ}
      {k : Nat} {t : Timer τ} {after before : List (Schedule.Entry τ)} {e : Schedule.Entry τ},
      u.Watch h m → (u.schedule m.world).timers[k]? = some t → t.repeats = true → 0 < t.duration →
      u.log h = after ++ e :: before → e.starts k = true → (∀ a ∈ after, a.stops k = false) →
      u.Rhythm h m k t after e before) ∧
    (∀ {p : Player}, p.Free → 0 < p.charDelay → ∀ (k : Nat) (text : String)
      {calls : List HostCall}, (∀ c ∈ calls, c.PassesTime) → ∃ enough, ∀ n ≥ enough,
        ((p.showing k text calls).timedMarks k n).take (stretch text.toList).length =
          (spelled p.loop.now p.charDelay (stretch text.toList)).take
            ((calls.map HostCall.duration).sum / p.charDelay)) ∧
    ∀ {P : HostCall → Prop} {p : Player} {h : List (Machine Player Task)} {m : Machine Player Task}
      {text : String}, p.Begins → Run P ⟨p, []⟩ h m →
      m.dispatched? = some ⟨Instruction.textOpcode, text⟩ → 0 < m.step.world.charDelay →
      (∀ o ∈ m.step.agenda.drop 2, ∀ t ∈ o.concludes?, t ∉ m.step.world.live) →
      ∃ k, m.step.agenda.head? = some (.perform (.reveal k .run)) ∧
        ∀ {h' : List (Machine Player Task)} {n : Machine Player Task}, Run P m.step h' n →
          ¬ (m.step.stretch k text).Disturbed h' n →
            ∃ i, (m.step.stretch k text).OnTime h' n i :=
  ⟨fun w ht hr hd hlog he hstops => w.rhythm ht hr hd hlog he hstops,
    fun hp hd k text _ hc => hp.timedMarks_showing hd k text hc,
    fun hp r hi hd hc => r.keepsTime hp hi hd hc⟩

/-- A program with a timer that repeats and whose callback leaves a microtask. -/
def drum : List LoopProgram.Call :=
  [.timer 10 true [.microtask "roll" []], .start 0, .advance 4, .advance 6, .advance 25]

theorem timeless_drum : ∀ c ∈ drum, ∀ d ∈ c.body, d.Within LoopProgram.Call.Timeless := by
  simp only [drum, List.forall_mem_cons, LoopProgram.Call.body]
  simp only [List.not_mem_nil, false_implies, implies_true, and_true]
  exact .intro trivial (List.forall_mem_nil _)

/-- A host that hears of tokens, and has microtasks run at the first two of them. -/
def patient : Player :=
  { eager with listeners := #[⟨fun _ => true, 2, [.runMicrotasks]⟩] }

/-- A host that lets time pass while another one of its calls waits for a change. -/
def busy : Machine Player Task :=
  ((Player.plain .fast).called [.goto "a" 0, .settle, .take, .complete 0 (some ["`abc@d"]), .settle,
    .observe .background (fun _ => true) false (fun _ => true) 1 [.advance 7], .advance 4,
    .set .background "park", .advance 25]).run 19

theorem run_busy : ∃ h, Run (fun _ => True) ⟨.plain .fast, []⟩ h busy := by
  refine ⟨_, Run.calls .start (fun c hm => ?_) 19⟩
  have plain {c : HostCall} (hb : c.body = []) : c.Within fun _ => True :=
    .of_body_eq_nil trivial hb
  simp only [List.mem_cons, List.not_mem_nil, or_false] at hm
  rcases hm with rfl | rfl | rfl | rfl | rfl | rfl | rfl | rfl | rfl <;> first
    | exact plain rfl
    | exact .intro trivial fun c hc => by
        rw [List.mem_singleton.1 hc]
        exact plain rfl

/-- The timer rings three times in thirty-five milliseconds, and two characters of a text appear in
twenty-nine. All three do while the host lets time pass in a callback as well. -/
theorem no_drift_drum :
    let m := (LoopProgram.given drum).run 38
    let h := LoopProgram.history drum 38
    let log := LoopProgram.timekeeping.log h
    (∃ t e after before, m.world.schedule.timers[0]? = some t ∧ log = after ++ e :: before ∧
      LoopProgram.timekeeping.Rhythm h m 0 t after e before ∧
      Schedule.ringTimes 0 after = [10, 20, 30]) ∧
    (∃ enough, ∀ n ≥ enough,
      ((patient.showing 0 "abc@d" [.advance 4, .settle, .advance 25]).timedMarks 0 n).take 3 =
        [(10, .token "a"), (20, .token "b")]) ∧
    (∃ k i, (busy.step.stretch k "abc@d").OnTime (busy.step.trail 48) (busy.step.run 48) i) ∧
      sent 0 (busy.step.trail 48) =
        [(10, .text "a"), (20, .text "b"), (30, .text "c")] := by
  intro m h log
  refine ⟨?_, ?_, ?_, ?_⟩
  · have hw : LoopProgram.timekeeping.Watch h m := LoopProgram.watch_given timeless_drum 38
    have hstart : log[18]?.map (·.starts 0) = some true := by decide +kernel
    obtain ⟨e, hat, he⟩ := Option.map_eq_some_iff.1 hstart
    obtain ⟨hlength, rfl⟩ := List.getElem?_eq_some_iff.1 hat
    have hlog : log = log.take 18 ++ log[18] :: log.drop 19 := by
      rw [← List.drop_eq_getElem_cons, List.take_append_drop]
    have hstops : ∀ a ∈ log.take 18, a.stops 0 = false := by decide +kernel
    have htimes : Schedule.ringTimes 0 (log.take 18) = [10, 20, 30] := by decide +kernel
    exact ⟨_, _, _, _, rfl, hlog, no_drift.1 hw rfl rfl (by decide) hlog he hstops, htimes⟩
  · have hp : patient.Free := by
      refine ⟨rfl, rfl, ⟨0, rfl⟩, fun l hl c hc => ?_⟩
      obtain rfl : l = _ := by simpa [patient] using hl
      exact List.mem_singleton.1 hc
    have hc : ∀ c ∈ [HostCall.advance 4, .settle, .advance 25], c.PassesTime := by
      simp [HostCall.PassesTime]
    exact no_drift.2.1 hp (by decide) 0 "abc@d" hc
  · obtain ⟨_, r⟩ := run_busy
    obtain ⟨hi, hd, hrest⟩ : busy.dispatched? = some ⟨Instruction.textOpcode, "abc@d"⟩ ∧
        0 < busy.step.world.charDelay ∧
        ∀ o ∈ busy.step.agenda.drop 2, ∀ t ∈ o.concludes?, t ∉ busy.step.world.live := by
      decide +kernel
    obtain ⟨hquiet, hgen⟩ : (∀ x ∈ busy.step.trail 48, x.nudge? = none) ∧
        (busy.step.run 48).world.generation = busy.step.world.generation := by decide +kernel
    obtain ⟨k, -, hkeeps⟩ := no_drift.2.2 (begins_plain .fast) r hi hd hrest
    refine ⟨k, hkeeps (Run.steps_self _ 48) ?_⟩
    rintro (⟨x, hx, hk⟩ | hlt)
    · rw [hquiet x hx] at hk
      cases hk
    · exact absurd hgen (Nat.ne_of_gt hlt)
  · decide +kernel

end Novella
