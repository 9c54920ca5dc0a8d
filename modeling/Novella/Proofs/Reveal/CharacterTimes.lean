import Novella.Proofs.Player.Signals
import Novella.Proofs.Player.WaitingHandler

/-!
# When characters appear

A text that is shown by the character has started a timer that repeats, and each time that it rings
the text sends its next character. Nobody else knows the text, the timer or its timeout, and nobody
else can give the ticket of its instruction back. So whatever else the player has in hand, the first
stretch goes out one character at the end of each interval. Only input for the text hurries it, and
only an interruption breaks it off.

## Main definitions

* `sent` — what a text has sent by itself in a run, and when
* `Stretch` — the first stretch of a text that is shown by the character
* `Stretch.others` — the realm of all that is not about the text
* `Stretch.Stage` — how far it has come
* `Stretch.OnTime` — all that has appeared has done so at its time, and more is to come

## Main results

* `Stretch.Stage.begins` — how a stretch begins
* `Stretch.Stage.run` — a stretch goes from stage to stage in every run
* `Run.keepsTime` — its characters appear on time, whatever else goes on
-/

namespace Novella

open Player Reveal

/-! ### Stretches -/

/-- No stretch is left where it ends. -/
theorem stretch_eq_nil {cs : List Char} (h : atBoundary cs = true) : stretch cs = [] := by
  cases cs with
  | nil => rfl
  | cons c cs =>
    have hp : isPause (c :: cs) = true := by simpa [atBoundary] using h
    rw [stretch, if_pos hp]

theorem stretch_ne_nil {cs : List Char} (h : atBoundary cs = false) : stretch cs ≠ [] := by
  cases cs with
  | nil => cases h
  | cons c cs =>
    have hp : isPause (c :: cs) = false := by simpa [atBoundary] using h
    simp [stretch, hp]

/-- A text is shown by the character if that takes time, and if a stretch begins. -/
theorem scan_eq_tick {delay : Nat} {cs : List Char} (hd : 0 < delay) (hb : atBoundary cs = false) :
    scan delay cs = .tick := by
  cases cs with
  | nil => cases hb
  | cons c cs =>
    obtain ⟨⟨⟨hat, hline⟩, hpage⟩, hwait⟩ : ((c ≠ '@' ∧ c ≠ '\n') ∧ c ≠ '\\') ∧
        inlineWait? (c :: cs) = none := by simpa [atBoundary, isPause] using hb
    rw [scan, hwait]
    simp [hat, hline, hpage, Nat.ne_of_gt hd]

/-- What is left of a text within its first stretch. -/
theorem exists_drop_eq {cs : List Char} {i : Nat} (h : i < (stretch cs).length) :
    ∃ c, cs.drop i = c :: cs.drop (i + 1) ∧ isPause (c :: cs.drop (i + 1)) = false ∧
      (stretch cs)[i]? = some c := by
  induction cs generalizing i with
  | nil => exact absurd h (Nat.not_lt_zero _)
  | cons c cs ih =>
    cases hp : isPause (c :: cs) with
    | true =>
      rw [stretch, if_pos hp] at h
      exact absurd h (Nat.not_lt_zero _)
    | false =>
      have hs : stretch (c :: cs) = c :: stretch cs := by simp [stretch, hp]
      rw [hs] at h ⊢
      cases i with
      | zero => exact ⟨c, rfl, hp, rfl⟩
      | succ i => exact ih (Nat.lt_of_succ_lt_succ h)

/-! ### Acts of a text -/

namespace Player

variable {p : Player} {r : Nat} {v : Reveal}

/-- A text that is shown by the character starts its timer. -/
theorem actReveal_run (hv : p.reveals[r]? = some v) (hs : scan v.delay v.rest = .tick) :
    p.actReveal r .run = ((p.modifyReveal r fun v => { v with mode := .running }).armReveal r
      .ticking v.delay true .tick, []) := by
  have hrunning := getElem?_modifyReveal hv fun v => { v with mode := .running }
  simp only [actReveal, hv, runReveal, hrunning, proceed, hs]

/-- The next character appears when the timer rings. -/
theorem actReveal_tick {c : Char} {cs : List Char} (hv : p.reveals[r]? = some v)
    (hm : v.mode = .ticking) (hk : p.isKept r v = true) (hrest : v.rest = c :: cs)
    (hp : isPause (c :: cs) = false) :
    p.actReveal r .tick =
      let q := (p.modifyReveal r fun v => { v with holds := v.holds + 1 }).modifyReveal r
        fun v => { v with rest := cs }
      ((q.emit (.text (String.singleton c))).1, (q.emit (.text (String.singleton c))).2 ++
        [.perform (.reveal r .ticked)] ++ [.perform (.reveal r .release)]) := by
  simp only [actReveal, hv, hk, hm, and_self, if_true, keeping, tickReveal, hrest, hp]
  rfl

theorem schedule_emit (p : Player) (s : Signal) : (p.emit s).1.schedule = p.schedule := by
  have hs := congrArg schedule (inside_emit p s)
  exact hs

/-- A text that is not at the end of its stretch goes no further after a character. -/
theorem actReveal_ticked (hv : p.reveals[r]? = some v) (hb : atBoundary v.rest = false) :
    p.actReveal r .ticked = (p, []) := by
  simp [actReveal, hv, hb]

end Player

/-! ### What a text sends -/

namespace Machine

/-- What text `r` sends by itself in the next step, and when: the signal of its act, if the step is
one. -/
def sends? (r : Nat) (m : Machine Player Task) : Option (Nat × Signal) :=
  match m.agenda with
  | .perform (.reveal s a) :: _ => if s = r then (m.world.actSignal? r a).map (m.now, ·) else none
  | _ => none

/-- The text that the input which comes next is for. -/
def nudge? (m : Machine Player Task) : Option Nat :=
  match m.agenda, m.world.active with
  | .perform (.call _ .next) :: _, some (.reveal r) => some r
  | _, _ => none

variable {m : Machine Player Task} {r : Nat} {rest : Orders}

theorem sends?_of_act {a : Reveal.Act} (hag : m.agenda = .perform (.reveal r a) :: rest) :
    m.sends? r = (m.world.actSignal? r a).map (m.now, ·) := by
  simp only [sends?, hag, if_true]

theorem sends?_eq_none (h : ∀ a rest, m.agenda ≠ .perform (.reveal r a) :: rest) :
    m.sends? r = none := by
  unfold sends?
  split
  · next s a rest hag =>
    split
    · next hs => exact absurd (hs ▸ hag) (h a rest)
    · rfl
  · rfl

/-- A text acts. -/
theorem step_of_act {p q : Player} {a : Reveal.Act} {orders : Orders}
    (h : p.actReveal r a = (q, orders)) (later : Orders) :
    step ⟨p, .perform (.reveal r a) :: later⟩ = ⟨q, orders ++ later⟩ := by
  simp only [step, World.perform, Player.perform, h]

theorem nudge?_of_next {a : Audience} (hag : m.agenda = .perform (.call a .next) :: rest)
    (hact : m.world.active = some (.reveal r)) : m.nudge? = some r := by
  simp only [nudge?, hag, hact]

end Machine

/-- What text `r` has sent by itself, and when. -/
def sent (r : Nat) (h : List (Machine Player Task)) : List (Nat × Signal) :=
  h.reverse.filterMap (Machine.sends? r)

section Sent

variable {r : Nat} {m : Machine Player Task} {h : List (Machine Player Task)}

theorem sent_cons (r : Nat) (m : Machine Player Task) (h : List (Machine Player Task)) :
    sent r (m :: h) = sent r h ++ (m.sends? r).toList := by
  rw [sent, List.reverse_cons, List.filterMap_append]
  cases hm : m.sends? r <;> simp [sent, hm]

theorem sent_cons_of_eq_none (hm : m.sends? r = none) : sent r (m :: h) = sent r h := by
  rw [sent_cons, hm]
  exact List.append_nil _

end Sent

/-! ### A stretch -/

/-- The first stretch of a text that is shown by the character. -/
structure Stretch where
  /-- The generation of the instruction. -/
  generation : Nat
  /-- The number of the text. -/
  reveal : Nat
  /-- The number of its timer. -/
  timer : Nat
  /-- The time for a character. -/
  interval : Nat
  /-- When the timer was started. -/
  start : Nat
  /-- The text. -/
  text : List Char

namespace Stretch

variable (x : Stretch)

/-- The ticket of the instruction. -/
def ticket : Ticket := .instruction x.generation

/-- The end of an interval. -/
def beat (i : Nat) : Nat := x.start + (i + 1) * x.interval

/-- The characters, one at the end of each interval. -/
def characters : List (Nat × Signal) :=
  (stretch x.text).mapIdx fun i c => (x.beat i, .text (String.singleton c))

/-- All that is not about the text, while the number of its timeout is `id`. -/
def others (id : Nat) : Realm := ⟨(· ≠ x.ticket), (· ≠ x.timer), (· ≠ id), (· ≠ x.reveal)⟩

/-- Input has come for the text, or its instruction is over. -/
def Disturbed (h : List (Machine Player Task)) (m : Machine Player Task) : Prop :=
  (∃ n ∈ h, n.nudge? = some x.reveal) ∨ x.generation < m.world.generation

/-- The instruction is under way, and its numbers have been given out. -/
structure Given (id : Nat) (p : Player) : Prop where
  /-- No instruction has begun since. -/
  generation : p.generation = x.generation
  /-- Its ticket has not been given back. -/
  live : x.ticket ∈ p.live
  /-- The timer exists. -/
  timer : x.timer < p.schedule.timers.size
  /-- The timeout has been scheduled. -/
  timeout : id < p.schedule.loop.nextId
  /-- The text exists. -/
  reveal : x.reveal < p.reveals.size

/-- The timer runs and moves the text on again and again. -/
def Ticks (p : Player) : Prop := ∃ y, p.schedule.timers[x.timer]? = some y ∧ y.state = .running ∧
  y.repeats = true ∧ y.callback = .reveal x.reveal .tick ∧ y.duration = x.interval

/-- The text is between two characters, `i` of which have appeared. -/
def Reads (i : Nat) (p : Player) : Prop := ∃ v, p.reveals[x.reveal]? = some v ∧
  v.rest = x.text.drop i ∧ v.mode = .ticking

variable {x} {id i : Nat} {p q : Player} {h : List (Machine Player Task)} {m : Machine Player Task}

theorem beat_succ (x : Stretch) (i : Nat) : x.beat (i + 1) = x.beat i + x.interval := by
  rw [beat, beat, Nat.add_mul (i + 1), Nat.one_mul, Nat.add_assoc]

@[simp] theorem length_characters (x : Stretch) : x.characters.length = (stretch x.text).length :=
  List.length_mapIdx

/-! #### What others leave alone -/

theorem takes (hg : p.generation = x.generation) (ht : x.timer < p.schedule.timers.size)
    (hid : id < p.schedule.loop.nextId) (hr : x.reveal < p.reveals.size) (q : Player) :
    (x.others id).Takes p q := by
  refine ⟨⟨fun hle _ => ?_, fun hle _ => ?_⟩, fun hlt _ => ?_, fun hle _ => ?_⟩
  · exact Nat.ne_of_gt (Nat.lt_of_lt_of_le ht hle)
  · exact Nat.ne_of_gt (Nat.lt_of_lt_of_le hid hle)
  · intro heq
    have hgen := Ticket.instruction.inj heq
    omega
  · exact Nat.ne_of_gt (Nat.lt_of_lt_of_le hr hle)

theorem Given.takes (hg : x.Given id p) (q : Player) : (x.others id).Takes p q :=
  Stretch.takes hg.generation hg.timer hg.timeout hg.reveal q

theorem Given.abides (hg : x.Given id p) (h : p.Abides (x.others id) q)
    (hgen : q.generation = x.generation) : x.Given id q := by
  refine ⟨hgen, ?_, Nat.lt_of_lt_of_le hg.timer h.size, Nat.lt_of_lt_of_le hg.timeout h.nextId,
    Nat.lt_of_lt_of_le hg.reveal h.texts⟩
  rw [← List.count_pos_iff, h.apart.live fun hn => hn rfl]
  exact List.count_pos_iff.2 hg.live

theorem Ticks.abides (ht : x.Ticks p) (hg : x.Given id p) (h : p.Abides (x.others id) q) :
    x.Ticks q := by
  obtain ⟨y, hy, hy'⟩ := ht
  exact ⟨y, (h.apart.schedule.timer hg.timer fun hn => hn rfl).trans hy, hy'⟩

theorem Reads.abides (hr : x.Reads i p) (hg : x.Given id p) (h : p.Abides (x.others id) q) :
    x.Reads i q := by
  obtain ⟨v, hv, hrest, hmode⟩ := hr
  have hbare := h.apart.reveal hg.reveal fun hn => hn rfl
  rw [hv] at hbare
  obtain ⟨u, hu, hb⟩ := Option.map_eq_some_iff.1 hbare
  exact ⟨u, hu, (congrArg Reveal.rest hb).trans hrest, (congrArg Reveal.mode hb).trans hmode⟩

theorem Given.mem_iff (hg : x.Given id p) (h : p.Abides (x.others id) q) {u : Timeout Task}
    (hu : u.id = id) : u ∈ q.schedule.loop.timeouts ↔ u ∈ p.schedule.loop.timeouts := by
  subst hu
  exact h.apart.schedule.timeout hg.timeout fun hn => hn rfl

/-- All handlers are among the others but the text and its timer. -/
theorem reveal_of_not_has {y : Handler} (hy : ¬ (x.others id).Has p y) :
    y = .reveal x.reveal ∨ y = .timer x.timer := by
  cases y with
  | timer k => exact .inr (congrArg _ (Decidable.not_not.1 (Classical.not_imp.1 hy).2))
  | reveal r => exact .inl (congrArg _ (Decidable.not_not.1 (Classical.not_imp.1 hy).2))
  | _ => exact absurd trivial hy

/-! #### How far it has come -/

/-- The text is between two characters, `i` of which have appeared, and all others mind their own
business. -/
structure Open (x : Stretch) (id i : Nat) (h : List (Machine Player Task)) (p : Player)
    (agenda : Orders) : Prop where
  /-- The others do. -/
  within : Machine.In (x.others id) ⟨p, agenda⟩
  /-- The instruction is under way. -/
  given : x.Given id p
  /-- The timer runs. -/
  ticks : x.Ticks p
  /-- The text is between two characters. -/
  reads : x.Reads i p
  /-- These have appeared. -/
  sent : sent x.reveal h = x.characters.take i
  /-- More are to come. -/
  lt : i < (stretch x.text).length

/-- How far the stretch has come. -/
inductive Stage (x : Stretch) (h : List (Machine Player Task)) (m : Machine Player Task) :
    Prop where
  /-- The text is about to start its timer. -/
  | begun {v : Reveal} {rest : Orders} : m.agenda = .perform (.reveal x.reveal .run) ::
      .perform (.conclude x.ticket (.pending (.reveal x.reveal))) :: rest →
      m.world.reveals[x.reveal]? = some v → v.rest = x.text → v.delay = x.interval →
      Machine.In (x.others m.world.schedule.loop.nextId) ⟨m.world, rest⟩ →
      m.world.generation = x.generation → x.ticket ∈ m.world.live →
      m.world.schedule.timers.size = x.timer → m.now = x.start →
      (∀ {t c}, .perform (.conclude t c) ∈ rest → t ∉ m.world.live) → h = [] → Stage x h m
  /-- The timer runs, and the text is about to take the input. -/
  | armed {id : Nat} {rest : Orders} :
      m.agenda = .perform (.conclude x.ticket (.pending (.reveal x.reveal))) :: rest →
      x.Open id 0 h m.world m.agenda →
      ⟨x.beat 0, id, .ring x.timer⟩ ∈ m.world.schedule.loop.timeouts → m.now ≤ x.beat 0 →
      (∀ {t c}, .perform (.conclude t c) ∈ rest → t ∉ m.world.live) → Stage x h m
  /-- The timer runs. -/
  | counting {id i : Nat} : x.Open id i h m.world m.agenda → m.Attends (.reveal x.reveal) →
      ⟨x.beat i, id, .ring x.timer⟩ ∈ m.world.schedule.loop.timeouts → m.now ≤ x.beat i →
      Stage x h m
  /-- It is about to ring. -/
  | ringing {id i : Nat} {rest : Orders} : m.agenda = .perform (.ring x.timer) :: rest →
      x.Open id i h m.world rest → m.Attends (.reveal x.reveal) →
      (∀ u ∈ m.world.schedule.loop.timeouts, u.id ≠ id) → m.now = x.beat i → Stage x h m
  /-- The next character is about to appear. -/
  | striking {id i : Nat} {rest : Orders} : m.agenda = .perform (.reveal x.reveal .tick) :: rest →
      x.Open id i h m.world rest → m.Attends (.reveal x.reveal) →
      ⟨x.beat (i + 1), id, .ring x.timer⟩ ∈ m.world.schedule.loop.timeouts → m.now = x.beat i →
      Stage x h m
  /-- All characters have appeared. -/
  | told : (sent x.reveal h).take x.characters.length = x.characters → Stage x h m
  /-- The text has been hurried or broken off. -/
  | disturbed : x.Disturbed h m → Stage x h m

theorem Disturbed.step (hd : x.Disturbed h m) : x.Disturbed (m :: h) m.step := by
  rcases hd with ⟨n, hn, hk⟩ | hlt
  · exact .inl ⟨n, List.mem_cons_of_mem _ hn, hk⟩
  · exact .inr (Nat.lt_of_lt_of_le hlt m.generation_le_step)

theorem told_step (ht : (Novella.sent x.reveal h).take x.characters.length = x.characters) :
    (Novella.sent x.reveal (m :: h)).take x.characters.length = x.characters := by
  have hle : x.characters.length ≤ (Novella.sent x.reveal h).length := by
    have hlen := congrArg List.length ht
    rw [List.length_take] at hlen
    omega
  rw [sent_cons, List.take_append_of_le_length hle]
  exact ht

/-! #### Steps -/

/-- A text between two characters. -/
theorem Reads.exists_eq (hr : x.Reads i p) (hi : i < (stretch x.text).length) :
    ∃ v c, p.reveals[x.reveal]? = some v ∧ v.mode = .ticking ∧ v.rest = c :: x.text.drop (i + 1) ∧
      isPause (c :: x.text.drop (i + 1)) = false ∧ (stretch x.text)[i]? = some c := by
  obtain ⟨v, hv, hrest, hmode⟩ := hr
  obtain ⟨c, hc, hp, hget⟩ := exists_drop_eq hi
  exact ⟨v, c, hv, hmode, hrest.trans hc, hp, hget⟩

namespace Open

variable {agenda : Orders}

/-- The text sends nothing as long as its timer does not ring. -/
theorem sends?_eq_none (ho : x.Open id i h m.world m.agenda) : m.sends? x.reveal = none := by
  by_cases hag : ∃ a rest, m.agenda = .perform (.reveal x.reveal a) :: rest
  · obtain ⟨a, rest, hag⟩ := hag
    obtain ⟨v, c, hv, hmode, hrest, hp, -⟩ := ho.reads.exists_eq ho.lt
    have hin : (Order.perform (.reveal x.reveal a)).In (x.others id) :=
      ho.within.agenda (hag ▸ List.mem_cons_self)
    rw [Machine.sends?_of_act hag]
    cases a with
    | ticked => simp [actSignal?, hv, hrest, atBoundary, hp]
    | release => simp [actSignal?, hv]
    | _ => exact absurd rfl (hin.resolve_left fun hf => hf)
  · exact Machine.sends?_eq_none fun a rest heq => hag ⟨a, rest, heq⟩

/-- The others go on. -/
theorem abides (ho : x.Open id i h p agenda) (ha : p.Abides (x.others id) q)
    (hg : q.generation = x.generation) {orders : Orders}
    (hin : ∀ o ∈ orders, o.In (x.others id)) : x.Open id i h q orders :=
  ⟨⟨ha.neat, ha.within, hin _⟩, ho.given.abides ha hg, ho.ticks.abides ho.given ha,
    ho.reads.abides ho.given ha, ho.sent, ho.lt⟩

theorem cons (ho : x.Open id i h p agenda) (hm : m.sends? x.reveal = none) :
    x.Open id i (m :: h) p agenda :=
  ⟨ho.within, ho.given, ho.ticks, ho.reads, (sent_cons_of_eq_none hm).trans ho.sent, ho.lt⟩

theorem step (ho : x.Open id i h m.world m.agenda) (ha : m.Abides (x.others id))
    (hg : m.step.world.generation = x.generation) :
    x.Open id i (m :: h) m.step.world m.step.agenda :=
  (ho.cons ho.sends?_eq_none).abides ha.world hg fun _ => ha.agenda

end Open

/-- The text has started its timer. -/
theorem Open.start {v : Reveal} {orders : Orders} (hb : atBoundary x.text = false)
    (hv : p.reveals[x.reveal]? = some v) (hrest : v.rest = x.text)
    (hw : Machine.In (x.others p.schedule.loop.nextId) ⟨p, orders⟩)
    (hg : p.generation = x.generation) (hl : x.ticket ∈ p.live)
    (hsize : p.schedule.timers.size = x.timer) (hsent : Novella.sent x.reveal h = []) :
    x.Open p.schedule.loop.nextId 0 h ((p.modifyReveal x.reveal fun v => { v with mode := .running
      }).armReveal x.reveal .ticking x.interval true .tick) orders := by
  let q := p.modifyReveal x.reveal fun v => { v with mode := .running }
  have hout : ¬ (x.others p.schedule.loop.nextId).reveal x.reveal := fun hn => hn rfl
  have hrunning := getElem?_modifyReveal hv fun v => { v with mode := .running }
  have hstart : Dwells (fun R => R.Admits (.reveal x.reveal .tick)) q
      (q.startTimer x.interval true (.reveal x.reveal .tick), []) :=
    (Dwells.refl q).startTimer x.interval true id
  have hin := ((hw.world.modifyReveal hout fun v => { v with mode := .running }).startTimer
    (fun hn => hn hsize) (fun hn => hn rfl) x.interval true (.reveal x.reveal .tick)).modifyReveal
      hout fun v => { v with mode := .ticking, timer := some p.schedule.timers.size }
  refine ⟨⟨hstart.neat hw.neat, hin, hw.agenda⟩, ⟨hg, hl, ?_, ?_, ?_⟩, ?_, ?_, hsent, ?_⟩
  · rw [← hsize]
    exact Nat.lt_of_lt_of_eq (Nat.lt_succ_self _) (Schedule.size_start p.schedule _ _).symm
  · exact Nat.lt_of_lt_of_eq (Nat.lt_succ_self _) (Schedule.nextId_start p.schedule _ _ _).symm
  · have hlt := (Array.getElem?_eq_some_iff.1 hrunning).1
    exact Nat.lt_of_lt_of_eq hlt (Array.size_modify ..).symm
  · rw [Ticks, ← hsize]
    exact ⟨_, Schedule.getElem?_start p.schedule x.interval true (.reveal x.reveal .tick), rfl, rfl,
      rfl, rfl⟩
  · exact ⟨_, getElem?_modifyReveal hrunning _, hrest, rfl⟩
  · exact List.length_pos_iff.2 (stretch_ne_nil hb)

/-- The text starts its timer. -/
theorem Stage.begun_step {v : Reveal} {rest : Orders} (hd : 0 < x.interval)
    (hb : atBoundary x.text = false)
    (hag : m.agenda = .perform (.reveal x.reveal .run) ::
      .perform (.conclude x.ticket (.pending (.reveal x.reveal))) :: rest)
    (hv : m.world.reveals[x.reveal]? = some v) (hrest : v.rest = x.text)
    (hdelay : v.delay = x.interval)
    (hw : Machine.In (x.others m.world.schedule.loop.nextId) ⟨m.world, rest⟩)
    (hg : m.world.generation = x.generation) (hl : x.ticket ∈ m.world.live)
    (hsize : m.world.schedule.timers.size = x.timer) (hnow : m.now = x.start)
    (hc : ∀ {t c}, .perform (.conclude t c) ∈ rest → t ∉ m.world.live) (hh : h = []) :
    x.Stage (m :: h) m.step := by
  subst hh
  have hscan : scan v.delay v.rest = .tick := by
    rw [hdelay, hrest]
    exact scan_eq_tick hd hb
  have hsilent : Novella.sent x.reveal [m] = [] := by
    refine sent_cons_of_eq_none ?_
    rw [Machine.sends?_of_act hag]
    simp [actSignal?, hv, proceedSignal?, hscan]
  have hbeat : x.beat 0 = m.world.schedule.loop.now + x.interval := by
    rw [beat, Nat.zero_add, Nat.one_mul, ← hnow]
    rfl
  obtain ⟨p, agenda⟩ := m
  obtain rfl : agenda = _ := hag
  have hin : Machine.In (x.others p.schedule.loop.nextId)
      ⟨p, .perform (.conclude x.ticket (.pending (.reveal x.reveal))) :: rest⟩ :=
    ⟨hw.neat, hw.world, fun ho => (List.mem_cons.1 ho).elim (fun heq => heq ▸ trivial) hw.agenda⟩
  rw [Machine.step_of_act (actReveal_run hv hscan), hdelay]
  refine .armed rfl (.start hb hv hrest hin hg hl hsize hsilent) ?_ ?_ hc
  · rw [hbeat, ← hsize]
    exact Schedule.mem_timeouts_start p.schedule x.interval true _
  · rw [hbeat]
    have hnow' := (Schedule.Alters.start p.schedule x.interval true (.reveal x.reveal .tick)).now
    exact Nat.le_trans (Nat.le_of_eq hnow') (Nat.le_add_right ..)

/-- Input is for the text from now on. -/
theorem Stage.armed_step {rest : Orders}
    (hag : m.agenda = .perform (.conclude x.ticket (.pending (.reveal x.reveal))) :: rest)
    (ho : x.Open id 0 h m.world m.agenda)
    (hu : ⟨x.beat 0, id, .ring x.timer⟩ ∈ m.world.schedule.loop.timeouts) (hnow : m.now ≤ x.beat 0)
    (hc : ∀ {t c}, .perform (.conclude t c) ∈ rest → t ∉ m.world.live) :
    x.Stage (m :: h) m.step := by
  have ha : m.Abides (x.others id) := by
    have hin := ho.within
    obtain ⟨p, agenda⟩ := m
    obtain rfl : agenda = _ := hag
    exact hin.perform (Ends.conclude p x.ticket (.pending (.reveal x.reveal))).remains trivial
      (ho.given.takes _)
  have hg : m.step.world.generation = x.generation := by
    rw [Machine.step_of_perform hag]
    have hs := (Seat.conclude_pending m.world x.ticket (.reveal x.reveal)).2
    rw [if_pos ho.given.live] at hs
    exact (congrArg Seat.generation hs).trans ho.given.generation
  exact .counting (ho.step ha hg) (.conclude ho.given.live hag hc)
    ((ho.given.mem_iff ha.world rfl).2 hu) (ha.now hu hnow)

/-- The text keeps the input if its instruction goes on. -/
theorem Given.attends (hg : x.Given id m.world) (ha : m.Attends (.reveal x.reveal))
    (hm : m.Numbered) (hn : m.world.live.Nodup) (hl : x.ticket ∈ m.step.world.live)
    (hgen : m.step.world.generation = x.generation) : m.step.Attends (.reveal x.reveal) := by
  refine ha.lasts (hm.lasts hn (hgen.trans hg.generation.symm) ?_ ha.concludes)
  rw [hg.generation]
  exact hl

/-- The timer runs on, or it is about to ring, or the text is hurried or broken off. -/
theorem Stage.counting_step (hm : m.Numbered) (hn : m.world.live.Nodup)
    (ho : x.Open id i h m.world m.agenda) (ha : m.Attends (.reveal x.reveal))
    (hu : ⟨x.beat i, id, .ring x.timer⟩ ∈ m.world.schedule.loop.timeouts)
    (hnow : m.now ≤ x.beat i) : x.Stage (m :: h) m.step := by
  have hle := m.generation_le_step
  rw [ho.given.generation] at hle
  rcases Nat.lt_or_eq_of_le hle with hlt | hg
  · exact .disturbed (.inr hlt)
  by_cases hk : m.nudge? = some x.reveal
  · exact .disturbed (.inl ⟨m, List.mem_cons_self, hk⟩)
  have attends (hl : x.ticket ∈ m.step.world.live) : m.step.Attends (.reveal x.reveal) :=
    ho.given.attends ha hm hn hl hg.symm
  cases ho.within.outing ho.given.takes with
  | home hab =>
    have ho' := ho.step hab hg.symm
    exact .counting ho' (attends ho'.given.live) ((ho.given.mem_iff hab.world rfl).2 hu)
      (hab.now hu hnow)
  | skips hag hact hx =>
    rcases reveal_of_not_has hx with rfl | rfl
    · exact absurd (Machine.nudge?_of_next hag hact) hk
    · cases ha.active.symm.trans hact
  | @breaks q y hq _ _ _ hx =>
    have hi : q.interrupt.generation = q.generation + 1 :=
      congrArg Seat.generation (seat_interrupt q)
    have hfirst : m.world.generation ≤ q.generation := hq.generation
    have hlast : q.interrupt.generation ≤ m.step.world.generation := hx.generation
    rw [ho.given.generation] at hfirst
    omega
  | @ticked r rest hag _ hr =>
    -- the text is not at the end of its stretch, and goes no further
    obtain rfl := Decidable.not_not.1 hr
    obtain ⟨v, c, hv, -, hrest, hp, -⟩ := ho.reads.exists_eq ho.lt
    have hsilent := ho.sends?_eq_none
    obtain ⟨p, agenda⟩ := m
    obtain rfl : agenda = _ := hag
    have hact := p.actReveal_ticked hv (by simp [hrest, atBoundary, hp])
    have hstep := Machine.step_of_act hact rest
    have ho' := ho.cons hsilent
    rw [hstep] at attends ⊢
    exact .counting ⟨⟨ho.within.neat, ho.within.world, fun hm =>
      ho.within.agenda (List.mem_cons_of_mem _ hm)⟩, ho.given, ho.ticks, ho.reads, ho'.sent, ho.lt⟩
      (attends ho.given.live) hu hnow
  | @due u us target rest hag hs hle hid =>
    have hid : u.id = id := Decidable.not_not.1 hid
    obtain ⟨hag', hin, hother, hworld⟩ := ho.within.due hag hs hle
    obtain rfl : u = ⟨x.beat i, id, .ring x.timer⟩ := Loop.InOrder.eq_of_id_eq
      ho.within.neat.distinct (hs ▸ List.mem_cons_self) hu hid
    have hsilent := ho.sends?_eq_none
    refine .ringing hag' ?_ (attends ?_) (hid ▸ hother) (congrArg (·.schedule.loop.now) hworld)
    · have ho' := ho.cons hsilent
      rw [hworld] at hin ⊢
      exact ⟨hin, ⟨ho.given.generation, ho.given.live, ho.given.timer, ho.given.timeout,
        ho.given.reveal⟩, ho.ticks, ho.reads, ho'.sent, ho.lt⟩
    · rw [hworld]
      exact ho.given.live

/-- The timer is armed again when it rings, and moves the text on. -/
theorem Open.ring {orders : Orders} (ho : x.Open id i h p orders)
    (hnone : ∀ u ∈ p.schedule.loop.timeouts, u.id ≠ id) :
    x.Open p.schedule.loop.nextId i h { p with schedule := (p.schedule.ring .ring x.timer).1 }
        orders ∧
      ⟨p.schedule.loop.now + x.interval, p.schedule.loop.nextId, .ring x.timer⟩ ∈
        (p.schedule.ring .ring x.timer).1.loop.timeouts ∧
      (p.schedule.ring .ring x.timer).2 = some (.reveal x.reveal .tick) := by
  obtain ⟨y, hy, hs, hr, hcallback, hduration⟩ := ho.ticks
  have hring : p.schedule.ring .ring x.timer =
      (p.schedule.arm .ring x.timer { y with handle := none }, some (.reveal x.reveal .tick)) := by
    simp [Schedule.ring, hy, Timer.isPending, hs, hr, hcallback]
  have hneat := (Schedule.Alters.ring p.schedule x.timer).neat ho.within.neat
  rw [hring] at hneat ⊢
  have hw := ho.within.world
  have hin : (p.schedule.arm .ring x.timer { y with handle := none }).In
      (x.others p.schedule.loop.nextId) :=
    ((hw.schedule.renumber ho.within.neat hnone).setTimer hy (fun hn => hn rfl) _).setTimeout
      (fun hn => hn rfl) ..
  refine ⟨⟨⟨hneat, ⟨hin, hw.reveal, hw.ticket, fun {z} hz => ?_⟩, fun hm =>
    (ho.within.agenda hm).renumber _⟩, ⟨ho.given.generation, ho.given.live, ?_, ?_,
      ho.given.reveal⟩, ?_, ho.reads, ho.sent, ho.lt⟩, ?_, rfl⟩
  · have hholds : (Order.perform (.conclude x.ticket (.pending z))).In (x.others id) :=
      hw.active hz
    exact hholds.renumber _
  · exact Nat.lt_of_lt_of_eq ho.given.timer (Schedule.size_setTimer ..).symm
  · exact Nat.lt_succ_self _
  · exact ⟨_, Schedule.getElem?_setTimer_self hy _, rfl, hr, hcallback, hduration⟩
  · rw [← hduration]
    exact Loop.mem_insertTimeout.2 (.inl rfl)

/-- The timer rings. -/
theorem Stage.ringing_step {rest : Orders} (hm : m.Numbered) (hn : m.world.live.Nodup)
    (hag : m.agenda = .perform (.ring x.timer) :: rest) (ho : x.Open id i h m.world rest)
    (ha : m.Attends (.reveal x.reveal)) (hnone : ∀ u ∈ m.world.schedule.loop.timeouts, u.id ≠ id)
    (hnow : m.now = x.beat i) : x.Stage (m :: h) m.step := by
  have hsilent : m.sends? x.reveal = none :=
    Machine.sends?_eq_none fun a rest heq => by cases hag.symm.trans heq
  obtain ⟨hopen, hu, hcallback⟩ := (ho.cons hsilent).ring hnone
  have hstep : m.step = ⟨{ m.world with schedule := (m.world.schedule.ring .ring x.timer).1 },
      .perform (.reveal x.reveal .tick) :: rest⟩ := by
    rw [Machine.step_of_perform hag]
    simp only [Player.perform, hcallback]
    rfl
  have attends := ho.given.attends ha hm hn
  have hnow' := (Schedule.Alters.ring m.world.schedule x.timer).now
  rw [hstep] at attends ⊢
  refine .striking rfl hopen (attends hopen.given.live hopen.given.generation) ?_
    (hnow'.trans hnow)
  rw [beat_succ, ← hnow]
  exact hu

/-- The next character has appeared, and more are to come. -/
theorem Open.strike {rest : Orders} {v : Reveal} (ho : x.Open id i h p rest)
    (hv : p.reveals[x.reveal]? = some v) (hmode : v.mode = .ticking)
    (hlt : i + 1 < (stretch x.text).length)
    (hsent : Novella.sent x.reveal (m :: h) = x.characters.take (i + 1)) (s : Signal) :
    let q := (p.modifyReveal x.reveal fun v => { v with holds := v.holds + 1 }).modifyReveal
      x.reveal fun v => { v with rest := x.text.drop (i + 1) }
    x.Open id (i + 1) (m :: h) (q.emit s).1 ((q.emit s).2 ++
        [.perform (.reveal x.reveal .ticked)] ++ [.perform (.reveal x.reveal .release)] ++ rest) ∧
      (q.emit s).1.schedule = p.schedule := by
  intro q
  have hout : ¬ (x.others id).reveal x.reveal := fun hn => hn rfl
  have hin : q.In (x.others id) := (ho.within.world.modifyReveal hout _).modifyReveal hout _
  have hread := getElem?_modifyReveal (getElem?_modifyReveal hv fun v => { v with
    holds := v.holds + 1 }) fun v => { v with rest := x.text.drop (i + 1) }
  have hg : x.Given id q := by
    refine ⟨ho.given.generation, ho.given.live, ho.given.timer, ho.given.timeout, ?_⟩
    exact (Array.getElem?_eq_some_iff.1 hread).1
  have he : Dwells (fun _ => True) q (q.emit s) := (Dwells.refl q).emit s
  obtain ⟨ha, horders⟩ := he.toRemains.abides trivial (hg.takes _) ho.within.neat hin
  have hgen : (q.emit s).1.generation = x.generation :=
    (congrArg Player.generation (inside_emit q s)).trans ho.given.generation
  have hreads : x.Reads (i + 1) q := ⟨_, hread, rfl, hmode⟩
  have hticks : x.Ticks q := ho.ticks
  refine ⟨⟨⟨ha.neat, ha.within, fun hm => ?_⟩, hg.abides ha hgen, hticks.abides hg ha,
    hreads.abides hg ha, hsent, hlt⟩, schedule_emit q s⟩
  simp only [List.mem_append, List.mem_singleton] at hm
  rcases hm with ((hm | rfl) | rfl) | hm
  · exact horders _ hm
  · exact .inl trivial
  · exact .inl trivial
  · exact ho.within.agenda hm

/-- The next character appears. -/
theorem Stage.striking_step {rest : Orders} (hm : m.Numbered) (hn : m.world.live.Nodup)
    (hag : m.agenda = .perform (.reveal x.reveal .tick) :: rest) (ho : x.Open id i h m.world rest)
    (ha : m.Attends (.reveal x.reveal))
    (hu : ⟨x.beat (i + 1), id, .ring x.timer⟩ ∈ m.world.schedule.loop.timeouts)
    (hnow : m.now = x.beat i) : x.Stage (m :: h) m.step := by
  obtain ⟨v, c, hv, hmode, hrest, hp, hget⟩ := ho.reads.exists_eq ho.lt
  have hkept : m.world.isKept x.reveal v = true := by simp [isKept, ha.active]
  have hsends : m.sends? x.reveal = some (x.beat i, .text (String.singleton c)) := by
    rw [Machine.sends?_of_act hag, hnow]
    simp [actSignal?, hv, hkept, hmode, tickSignal?, hrest, hp]
  have hchar : x.characters[i]? = some (x.beat i, .text (String.singleton c)) := by
    simp [characters, hget]
  have hsent : Novella.sent x.reveal (m :: h) = x.characters.take (i + 1) := by
    rw [sent_cons, hsends, ho.sent, List.take_add_one, hchar]
  by_cases hlt : i + 1 < (stretch x.text).length
  · obtain ⟨hopen, hschedule⟩ := ho.strike hv hmode hlt hsent (.text (String.singleton c))
    have attends := ho.given.attends ha hm hn
    obtain ⟨p, agenda⟩ := m
    obtain rfl : agenda = _ := hag
    rw [Machine.step_of_act (actReveal_tick hv hmode hkept hrest hp)] at attends ⊢
    refine .counting hopen (attends hopen.given.live hopen.given.generation) ?_ ?_
    · rw [hschedule]
      exact hu
    · have hnow' := congrArg (·.loop.now) hschedule
      rw [beat_succ]
      exact Nat.le_trans (Nat.le_of_eq hnow') (Nat.le_add_right_of_le (Nat.le_of_eq hnow))
  · have hall : x.characters.take (i + 1) = x.characters := by
      refine List.take_of_length_le ?_
      rw [length_characters]
      exact Nat.le_of_not_lt hlt
    exact .told (by rw [hsent, hall, List.take_length])

/-- **One step.** The stretch goes from stage to stage. -/
theorem Stage.step (hs : x.Stage h m) (hd : 0 < x.interval) (hb : atBoundary x.text = false)
    (hm : m.Numbered) (hn : m.world.live.Nodup) : x.Stage (m :: h) m.step := by
  cases hs with
  | begun hag hv hrest hdelay hw hg hl hsize hnow hc hh =>
    exact begun_step hd hb hag hv hrest hdelay hw hg hl hsize hnow hc hh
  | armed hag ho hu hnow hc => exact armed_step hag ho hu hnow hc
  | counting ho ha hu hnow => exact counting_step hm hn ho ha hu hnow
  | ringing hag ho ha hnone hnow => exact ringing_step hm hn hag ho ha hnone hnow
  | striking hag ho ha hu hnow => exact striking_step hm hn hag ho ha hu hnow
  | told ht => exact .told (told_step ht)
  | disturbed hd => exact .disturbed hd.step

/-- The host has its turn. -/
theorem Stage.turn {y : Player × Orders} (hs : x.Stage h ⟨p, []⟩) (ht : p.Turn y) :
    x.Stage h (continuing y) := by
  have hgen : y.1.generation = p.generation := congrArg Seat.generation ht.seat
  cases hs with
  | begun hag => cases hag
  | armed hag => cases hag
  | ringing hag => cases hag
  | striking hag => cases hag
  | counting ho ha hu hnow =>
    obtain ⟨hab, hin⟩ := ht.toRemains.abides trivial (ho.given.takes _) ho.within.neat
      ho.within.world
    exact .counting (ho.abides hab (hgen.trans ho.given.generation) hin) (ha.turn ht)
      ((ho.given.mem_iff hab rfl).2 hu) (Nat.le_trans (Nat.le_of_eq ht.now) hnow)
  | told ht => exact .told ht
  | disturbed hd => exact .disturbed (hd.imp_right fun hlt => Nat.lt_of_lt_of_eq hlt hgen.symm)

/-- **Runs.** So it does in every run. -/
theorem Stage.run {P : HostCall → Prop} {h' : List (Machine Player Task)} {n : Machine Player Task}
    (hs : x.Stage [] m) (hd : 0 < x.interval) (hb : atBoundary x.text = false) (hm : m.Numbered)
    (hin : m.world.desk.InOrder) (r : Run P m h' n) : x.Stage h' n :=
  r.preserves hs (fun r ih => ih.step hd hb (r.numbered hm) (r.inOrder hin).nodup)
    fun ih ht => ih.turn ht

/-! #### What is known of it -/

/-- Of the stretch so much has appeared, all at its time, and time does not get past the next
character. -/
structure OnTime (x : Stretch) (h : List (Machine Player Task)) (m : Machine Player Task)
    (i : Nat) : Prop where
  /-- These are the characters that have appeared. -/
  sent : (Novella.sent x.reveal h).take x.characters.length = x.characters.take i
  /-- No more are to come if the stretch is over. -/
  le : i ≤ x.characters.length
  /-- The next one is still ahead. -/
  patient : i < x.characters.length →
    m.now ≤ x.beat i ∧ ∀ target, m.arrival? = some target → target < x.beat i

theorem Open.onTime {agenda : Orders} (ho : x.Open id i h p agenda) (hnow : m.now ≤ x.beat i)
    (ha : ∀ target, m.arrival? = some target → target < x.beat i) : x.OnTime h m i := by
  refine ⟨?_, ?_, fun _ => ⟨hnow, ha⟩⟩
  · rw [ho.sent, List.take_take]
    congr 1
    have hlt := ho.lt
    rw [length_characters]
    omega
  · rw [length_characters]
    exact Nat.le_of_lt ho.lt

/-- **Characters appear on time** as long as the text is neither hurried nor broken off. -/
theorem Stage.onTime (hs : x.Stage h m) (hn : ¬ x.Disturbed h m) : ∃ i, x.OnTime h m i := by
  have perform {t : Task} {rest : Orders} (hag : m.agenda = .perform t :: rest) (b : Nat) :
      ∀ target, m.arrival? = some target → target < b := by
    intro target ha
    rw [Machine.arrival?_of_perform hag] at ha
    cases ha
  cases hs with
  | begun hag _ _ _ _ _ _ _ hnow _ hh =>
    subst hh
    refine ⟨0, List.take_nil, Nat.zero_le _, fun _ => ⟨?_, perform hag _⟩⟩
    rw [hnow]
    exact Nat.le_add_right ..
  | armed hag ho _ hnow => exact ⟨0, ho.onTime hnow (perform hag _)⟩
  | counting ho _ hu hnow =>
    exact ⟨_, ho.onTime hnow fun _ ha => Machine.lt_of_arrival? ho.within.neat ha hu⟩
  | ringing hag ho _ _ hnow => exact ⟨_, ho.onTime (Nat.le_of_eq hnow) (perform hag _)⟩
  | striking hag ho _ _ hnow => exact ⟨_, ho.onTime (Nat.le_of_eq hnow) (perform hag _)⟩
  | told ht =>
    refine ⟨x.characters.length, ?_, Nat.le_refl _, fun hlt => absurd hlt (Nat.lt_irrefl _)⟩
    rw [ht, List.take_length]
  | disturbed hd => exact absurd hd hn

end Stretch

/-! ### How a stretch begins -/

/-- A command that leaves a text behind has begun to show it. -/
theorem Player.execute_of_reveal {p : Player} {command : Command} {opcode argument : String}
    {t : Ticket} {r : Nat} (h : (p.execute command opcode argument t).2.2 = .pending (.reveal r)) :
    command = .text ∧ r = p.reveals.size := by
  have wait {u : Player} {d : Nat} (hw : (u.waitFor d t).2 = .pending (.reveal r)) : False := by
    rw [Player.waitFor] at hw
    split at hw <;> cases hw
  cases command with
  | text =>
    cases h
    exact ⟨rfl, rfl⟩
  | wait | cue =>
    simp only [execute] at h
    split at h
    · exact (wait h).elim
    · cases h
  | setDelay =>
    simp only [execute] at h
    split at h <;> cases h
  | host b body => cases b <;> cases h
  | _ => cases h

/-- Only the end of a start may follow what is carried out while a command starts. -/
theorem Light.eq_singleton {orders more rest : Orders} {a b o : Order Task} (hl : Light orders)
    (ho : o.Concludes) (ha : ¬ a.Concludes) (hb : b.Concludes)
    (h : orders ++ o :: more = a :: b :: rest) : orders = [a] ∧ o = b ∧ more = rest := by
  cases orders with
  | nil => exact absurd ((List.cons.inj h).1 ▸ ho) ha
  | cons c orders =>
    obtain ⟨rfl, htail⟩ := List.cons.inj h
    cases orders with
    | nil =>
      obtain ⟨rfl, rfl⟩ := List.cons.inj htail
      exact ⟨rfl, rfl, rfl⟩
    | cons d orders =>
      obtain ⟨rfl, -⟩ := List.cons.inj htail
      exact absurd hb (hl.all d (by simp)).not_concludes

namespace Stretch

/-- What has been given out before is not about the stretch. -/
theorem sub_others (q : Player) (interval start : Nat) (text : List Char) : (Realm.upTo q).Sub
    (others ⟨q.generation + 1, q.reveals.size, q.schedule.timers.size, interval, start, text⟩
      q.schedule.loop.nextId) := by
  refine ⟨fun {t} ht heq => ?_, fun hk => Nat.ne_of_lt hk, fun hid => Nat.ne_of_lt hid,
    fun hr => Nat.ne_of_lt hr⟩
  subst heq
  exact Nat.not_succ_le_self _ ht

variable {q : Player} {m : Machine Player Task} {t : Ticket} {r : Nat} {more rest : Orders}

/-- A stretch begins with an instruction. -/
theorem Stage.dispatch {i : Instruction} (hq : q.Numbered) (hmore : ∀ o ∈ more, o.In (.upTo q))
    (hag : (q.dispatch i).2 ++ more = .perform (.reveal r .run) ::
      .perform (.conclude t (.pending (.reveal r))) :: rest)
    (hc : ∀ {t c}, .perform (.conclude t c) ∈ rest → t ∉ (q.dispatch i).1.live) :
    ∃ v, (q.dispatch i).1.reveals[r]? = some v ∧
      Stage ⟨(q.dispatch i).1.generation, r, (q.dispatch i).1.schedule.timers.size, v.delay,
        (q.dispatch i).1.schedule.loop.now, v.rest⟩ []
        ⟨(q.dispatch i).1, (q.dispatch i).2 ++ more⟩ := by
  by_cases hget : ∃ command, q.commands.get? i.opcode = some (some command)
  · obtain ⟨command, hget⟩ := hget
    rw [dispatch_of_command hget] at hag hc ⊢
    dsimp only at hag hc ⊢
    have hlight := (Seat.execute q.begin command i.opcode i.argument
      (.instruction (q.generation + 1))).2
    rw [List.append_assoc] at hag
    obtain ⟨horders, hconclude, rfl⟩ :=
      hlight.eq_singleton ⟨_, _, rfl⟩ (fun ⟨_, _, h⟩ => nomatch h) ⟨_, _, rfl⟩ hag
    injection Order.perform.inj hconclude with ht hcompletion
    obtain ⟨rfl, rfl⟩ := execute_of_reveal hcompletion
    subst ht
    have hin := hq.2.of_upTo hq.1 (sub_others q q.charDelay q.schedule.loop.now i.argument.toList)
    have hbegin : q.begin.In _ := ⟨hin.schedule, hin.reveal, hin.ticket, hin.active⟩
    have hw := hbegin.beginReveal (fun hn => hn rfl) i.argument (.instruction (q.generation + 1))
    exact ⟨_, Array.getElem?_push_size, .begun rfl Array.getElem?_push_size rfl rfl
      ⟨hq.1, hw, fun hm => (sub_others ..).order (hmore _ hm)⟩ rfl List.mem_cons_self rfl rfl hc
      rfl⟩
  · obtain ⟨v, -, hd⟩ := dispatch_of_no_command fun c hc => hget ⟨c, hc⟩
    rw [hd] at hag
    cases (List.cons.inj hag).1

/-- **How it begins.** An instruction that shows a text has begun its first stretch. -/
theorem Stage.begins (hm : m.Numbered)
    (hag : m.step.agenda = .perform (.reveal r .run) ::
      .perform (.conclude t (.pending (.reveal r))) :: rest)
    (hc : ∀ {t c}, .perform (.conclude t c) ∈ rest → t ∉ m.step.world.live)
    (hnew : t ∈ m.step.world.live) (hold : t ∉ m.world.live) :
    ∃ v, m.step.world.reveals[r]? = some v ∧
      Stage ⟨m.step.world.generation, r, m.step.world.schedule.timers.size, v.delay, m.step.now,
        v.rest⟩ [] m.step := by
  obtain ⟨q, i, more, hq, hmore, -, hstep⟩ := hm.exists_begins hnew hold
  rw [hstep] at hag hc ⊢
  exact Stage.dispatch hq hmore hag hc

/-- Of a text that begins with a pause nothing is shown by the character. -/
theorem onTime_of_atBoundary {x : Stretch} (hb : atBoundary x.text = true)
    (h : List (Machine Player Task)) (m : Machine Player Task) : x.OnTime h m 0 := by
  have hnil : x.characters = [] := by
    rw [characters, stretch_eq_nil hb]
    rfl
  refine ⟨by rw [hnil]; rfl, Nat.zero_le _, fun hlt => ?_⟩
  rw [hnil] at hlt
  exact absurd hlt (Nat.lt_irrefl 0)

end Stretch

/-- The first stretch of text `r`, if the machine is about to show it. -/
def Machine.stretch (m : Machine Player Task) (r : Nat) (text : String) : Stretch :=
  ⟨m.world.generation, r, m.world.schedule.timers.size, m.world.charDelay, m.now, text.toList⟩

/-- **Texts keep time.** When a line shows a text by the character, the first stretch of the text
appears one character at the end of each interval, whatever else goes on: until input for the text
comes or its instruction is over, no character appears at another time, and time does not get past
the next one. Only no other command may be in the middle of its start. -/
theorem Run.keepsTime {P : HostCall → Prop} {p : Player} {h : List (Machine Player Task)}
    {m : Machine Player Task} {text : String} (hp : p.Begins) (r : Run P ⟨p, []⟩ h m)
    (hi : m.dispatched? = some ⟨Instruction.textOpcode, text⟩) (hd : 0 < m.step.world.charDelay)
    (hc : ∀ o ∈ m.step.agenda.drop 2, ∀ t ∈ o.concludes?, t ∉ m.step.world.live) :
    ∃ k, m.step.agenda.head? = some (.perform (.reveal k .run)) ∧
      ∀ {h' : List (Machine Player Task)} {n : Machine Player Task}, Run P m.step h' n →
        ¬ (m.step.stretch k text).Disturbed h' n → ∃ i, (m.step.stretch k text).OnTime h' n i := by
  have ho := r.inOrder hp.inOrder
  have hm := r.numbered hp.numbered
  have hget : CommandTable.standard.get? Instruction.textOpcode = some (some .text) := by
    refine SortedMap.get?_of_mem ?_
    simp only [CommandTable.entries_standard, Instruction.textOpcode, List.mem_cons, true_or,
      or_true]
  obtain ⟨q, more, -, -, hlt, hlive, hstep⟩ := Machine.exists_execute hget ho hi
  have hag : m.step.agenda = .perform (.reveal q.reveals.size .run) ::
      .perform (.conclude (.instruction q.generation) (.pending (.reveal q.reveals.size))) ::
      more := by
    rw [hstep]
    rfl
  have hnew : .instruction q.generation ∈ m.step.world.live := by
    rw [hstep]
    exact hlive
  rw [hag] at hc
  obtain ⟨v, hv, hs⟩ := Stretch.Stage.begins hm hag (fun hx => hc _ hx _ rfl) hnew fun hold =>
    Nat.not_le_of_lt hlt (ho.le hold)
  obtain ⟨hrest, hdelay⟩ : v.rest = text.toList ∧ v.delay = m.step.world.charDelay := by
    rw [hstep] at hv ⊢
    obtain rfl := Option.some.inj (hv.symm.trans Array.getElem?_push_size)
    exact ⟨rfl, rfl⟩
  rw [hrest, hdelay] at hs
  refine ⟨q.reveals.size, by rw [hag]; rfl, fun r' hn => ?_⟩
  cases hb : atBoundary text.toList with
  | true => exact ⟨0, Stretch.onTime_of_atBoundary hb _ _⟩
  | false => exact (hs.run hd hb hm.step ho.step r').onTime hn

end Novella
