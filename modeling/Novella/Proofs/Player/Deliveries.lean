import Novella.Proofs.Player.SceneAndIndex

/-!
# Deliveries and the moves of a script

A machine takes many steps to deliver one cell: the delivery is taken from the loop, the observers
are called, and the player is one of them. Nothing comes between these steps and the one in which
the player hears its cell. So a machine is *steady* on a course that counts a delivery as waiting
until the player has heard it. A step of a steady machine is then one of few moves of its course: a
jump, an answer to a request, a cell that is heard, or what the script does of its own accord.

## Main definitions

* `Machine.jump?`, `Machine.answer?`, `Machine.hears?` — what moves the script from outside, as the
  next thing that the machine does
* `Steady` — machines on a course
* `Moves` — the moves of a course

## Main results

* `Steady.step` — a machine stays steady, and its course moves
-/

namespace Novella

open Player

/-! ### What a machine is about to do -/

namespace Machine

variable (m : Machine Player Task)

/-- The jump that comes next. -/
def jump? : Option (String × UInt64) :=
  match m.agenda with
  | .perform (.call _ (.goto s i)) :: _ => some (s, i)
  | .perform (.call _ (.restore c _)) :: _ => some (c.scene, c.index)
  | _ => none

/-- What the host answers when it has found these lines or none. -/
def found (r : LoadRequest) : Option (List String) → Except SourceError (List String)
  | some lines => .ok lines
  | none => .error (.notFound r.scene)

/-- The request that is answered next, with the answer. -/
def answer? : Option (LoadRequest × Except SourceError (List String)) :=
  match m.agenda with
  | .perform (.call _ (.complete k lines)) :: _ =>
    m.world.requests[k]?.map (fun r => (r, found r lines))
  | .perform .load :: _ => m.world.loadRequest.map (fun r => (r, m.world.source r.scene))
  | _ => none

/-- The cell of the script that the player hears next. -/
def hears? : Option CellName :=
  match m.agenda with
  | .perform (.hear x id v) :: _ =>
    if x.IsPlace ∧ ((m.world.stage.cell x).hear id v).2 = some x.reaction then some x else none
  | _ => none

/-- The line that is started next. -/
def line? : Option String :=
  match m.agenda with
  | .perform (.hear .index id i) :: _ =>
    if (m.world.stage.index.hear id i).2 = some .runLine ∧ m.world.phase ≠ .loading then
      m.world.lines.bind (·[i.toNat]?)
    else none
  | _ => none

variable {m} {s : String × UInt64} {r : LoadRequest × Except SourceError (List String)}
  {x : CellName} {line : String}

/-- A jump is a call. -/
theorem jump?_eq_some (h : m.jump? = some s) :
    ∃ a c rest, m.agenda = .perform (.call a c) :: rest ∧
      (c = .goto s.1 s.2 ∨ ∃ x v, c = .restore x v ∧ s = (x.scene, x.index)) := by
  unfold jump? at h
  split at h
  · next heq =>
    cases h
    exact ⟨_, _, _, heq, .inl rfl⟩
  · next heq =>
    cases h
    exact ⟨_, _, _, heq, .inr ⟨_, _, rfl, rfl⟩⟩
  · cases h

theorem answer?_eq_some (h : m.answer? = some r) :
    (∃ a k lines rest, m.agenda = .perform (.call a (.complete k lines)) :: rest ∧
      m.world.requests[k]? = some r.1 ∧ r.2 = found r.1 lines) ∨
    ∃ rest, m.agenda = .perform .load :: rest ∧ m.world.loadRequest = some r.1 ∧
      r.2 = m.world.source r.1.scene := by
  unfold answer? at h
  split at h
  · next heq =>
    obtain ⟨q, hq, rfl⟩ := Option.map_eq_some_iff.1 h
    exact .inl ⟨_, _, _, _, heq, hq, rfl⟩
  · next heq =>
    obtain ⟨q, hq, rfl⟩ := Option.map_eq_some_iff.1 h
    exact .inr ⟨_, heq, hq, rfl⟩
  · cases h

/-- A line is started when the index is heard. -/
theorem hears?_of_line? (h : m.line? = some line) : m.hears? = some .index := by
  unfold line? at h
  split at h
  · next id i rest heq =>
    split at h
    · next hr =>
      rw [hears?]
      rw [heq]
      exact if_pos ⟨.inr rfl, hr.1⟩
    · cases h
  · cases h

/-- Lines are started when the player hears the index. -/
theorem hear_of_line? (h : m.line? ≠ none) : ∃ id i rest,
    m.agenda = .perform (.hear .index id i) :: rest ∧
      (m.world.stage.index.hear id i).2 = some .runLine := by
  unfold line? at h
  split at h
  · next id i rest hag =>
    split at h
    · next hr => exact ⟨id, i, rest, hag, hr.1⟩
    · exact absurd rfl h
  · exact absurd rfl h

theorem hears?_of_jump? (h : m.jump? = some s) : m.hears? = none := by
  obtain ⟨a, c, rest, heq, -⟩ := jump?_eq_some h
  simp [hears?, heq]

theorem hears?_of_answer? (h : m.answer? = some r) : m.hears? = none := by
  rcases answer?_eq_some h with ⟨a, k, lines, rest, heq, -⟩ | ⟨rest, heq, -⟩ <;>
    simp [hears?, heq]

theorem answer?_of_jump? (h : m.jump? = some s) : m.answer? = none := by
  obtain ⟨a, c, rest, heq, rfl | ⟨x, v, rfl, -⟩⟩ := jump?_eq_some h <;> simp [answer?, heq]

end Machine

/-! ### Steady machines -/

/-- The order is no part of a delivery of which the player has still to hear. -/
def Order.IsCalm (k : Nat) (o : Order Task) : Prop :=
  o.Passes HostCall.KeepsPlace ∨
    ∃ x id v, o = .perform (.hear x id v) ∧ (x.IsPlace → x.rank k < id)

/-- The orders that let the player hear a cell, from observer `i` on. -/
def hearing (k i : Nat) (x : CellName) (v : x.Value) : Orders :=
  (List.range' i (x.rank k + 1 - i)).map (fun id => .perform (.hear x id v))

theorem hearing_of_lt {k i : Nat} {x : CellName} (h : i < x.rank k) (v : x.Value) :
    hearing k i x v = .perform (.hear x i v) :: hearing k (i + 1) x v := by
  obtain ⟨n, hn⟩ : ∃ n, x.rank k + 1 - i = n + 1 := ⟨x.rank k - i, by omega⟩
  have hm : x.rank k + 1 - (i + 1) = n := by omega
  rw [hearing, hearing, hn, hm, List.range'_succ]
  rfl

theorem hearing_self (k : Nat) (x : CellName) (v : x.Value) :
    hearing k (x.rank k) x v = [.perform (.hear x (x.rank k) v)] := by
  rw [hearing, Nat.add_sub_cancel_left]
  rfl

/-- The player with a delivery in front of all others. -/
def Player.requeue (p : Player) (x : CellName) : Player :=
  { p with schedule := { p.schedule with
      loop := { p.loop with microtasks := .deliver x :: p.loop.microtasks } } }

theorem Player.turns_requeue (p : Player) (x : CellName) :
    (p.requeue x).turns = (Task.deliver x).turn ++ p.turns := rfl

theorem Player.core_requeue (p : Player) {x : CellName} (hx : ¬ x.IsPlace) :
    (p.requeue x).core = p.core := by
  have ht : (p.requeue x).turns = p.turns := by simp [turns_requeue, Task.turn, hx]
  rw [core, course]
  rw [ht]
  rfl

/-- The machine is on a course. A delivery counts as waiting until the player has heard the cell. -/
inductive Steady (k : Nat) : Machine Player Task → Course → Prop where
  /-- Nothing is being delivered. -/
  | quiet {p : Player} {orders : Orders} {c : Course} :
      p.Tame HostCall.KeepsPlace → p.Follows k c → (∀ o ∈ orders, o.IsCalm k) →
        Steady k ⟨p, orders⟩ c
  /-- A delivery has been taken from the loop. -/
  | deliver {p : Player} {x : CellName} {orders : Orders} {c : Course} :
      p.Tame HostCall.KeepsPlace → (p.requeue x).Follows k c → (∀ o ∈ orders, o.IsCalm k) →
        Steady k ⟨p, .perform (.deliver x) :: orders⟩ c
  /-- Observers are being called. -/
  | hear {p : Player} {x : CellName} {i : Nat} {orders : Orders} {c : Course} :
      p.Tame HostCall.KeepsPlace → p.Follows k c → x.IsPlace → x ∉ c.turns → i ≤ x.rank k →
        (∀ o ∈ orders, o.IsCalm k) →
          Steady k ⟨p, hearing k i x (p.stage.cell x).value ++ orders⟩
            { c with turns := x :: c.turns }

/-- The moves of a course. -/
inductive Moves (m : Machine Player Task) (c : Course) : Course → Prop where
  /-- A jump. -/
  | jump {s : String} {i : UInt64} :
      m.jump? = some (s, i) → m.world.course = c → Moves m c (c.jump s i)
  /-- A request is answered, taken by the host before or only now. -/
  | answer {r : LoadRequest} {x : Except SourceError (List String)} {c₀ : Course} :
      m.answer? = some (r, x) → m.world.course = c → r ∈ c.requests ∧ c₀ = c ∨
        c.loadRequest = some r ∧ c₀ = c.release → Moves m c (c₀.answer r x)
  /-- The scene is heard. -/
  | scene {ts : List CellName} :
      m.hears? = some .scene → c.turns = .scene :: ts →
        Moves m c ({ c with turns := ts }.loadScene c.scene)
  /-- The index is heard. -/
  | index {ts : List CellName} {c' : Course} :
      m.hears? = some .index → c.turns = .index :: ts →
        (m.line? = if c.phase = .loading then none else c.lines.bind (·[c.index.toNat]?)) →
          { c with turns := ts }.Runs c.index c' → Moves m c c'
  /-- The script goes on by itself. -/
  | inner {c' : Course} :
      m.jump? = none → m.answer? = none → m.hears? = none → c.Inner c' → Moves m c c'

/-! ### Calls -/

namespace Player.Follows

variable {k : Nat} {p : Player} {c : Course}

theorem observe (h : p.Follows k c) (x : CellName) (n : Nat) (accepts : x.Value → Bool)
    (once : Bool) : (p.observe x (.listener n) accepts once).Follows k c := by
  by_cases hx : x.IsPlace
  · exact h.store_quiet hx ((h.attended hx).observe n accepts once) rfl rfl
  · exact h.of_core (core_observe _ hx ..)

/-- There may be no request to release. -/
theorem release_none (h : p.Follows k c) (hn : p.loadRequest = none) :
    { p with loadRequest := none }.Follows k c := by
  cases p
  cases hn
  exact h

/-- A call moves the script by a jump or by an answer, or else the script goes on by itself. -/
theorem call (h : p.Follows k c) (ht : p.Tame HostCall.KeepsPlace) (a : Audience) {d : HostCall}
    (hd : d.Within HostCall.KeepsPlace) (rest : Orders) :
    ∃ c', Moves ⟨p, .perform (.call a d) :: rest⟩ c c' ∧ (p.call d).1.Follows k c' := by
  have hkeeps := hd.holds
  have stay {q : Player} (hj : Machine.jump? ⟨p, .perform (.call a d) :: rest⟩ = none)
      (ha : Machine.answer? ⟨p, .perform (.call a d) :: rest⟩ = none) (hq : q.GoesOn k c) :
      ∃ c', Moves ⟨p, .perform (.call a d) :: rest⟩ c c' ∧ q.Follows k c' := by
    obtain ⟨c', hc, hq⟩ := hq
    exact ⟨c', .inner hj ha rfl hc, hq⟩
  cases d with
  | next => exact stay rfl rfl (h.next ht)
  | settle => exact stay rfl rfl h.goesOn
  | advance d => exact stay rfl rfl h.goesOn
  | runMicrotasks => exact stay rfl rfl h.goesOn
  | goto s i => exact ⟨_, .jump rfl h.course, h.goto s i⟩
  | restore x v => exact ⟨_, .jump rfl h.course, (h.present x v).goto _ _⟩
  | serve => exact stay rfl rfl h.goesOn
  | take =>
    have hr : p.loadRequest = c.loadRequest := congrArg Course.loadRequest h.course
    rw [Player.call, takeRequest]
    cases hp : p.loadRequest with
    | none => exact stay rfl rfl (h.release_none hp).goesOn
    | some r =>
      refine stay rfl rfl ⟨_, .take (hr ▸ hp), h.of_eq (fun _ => rfl) rfl ?_⟩
      rw [← h.course]
      rfl
  | complete n lines =>
    have hr : p.requests = c.requests := congrArg Course.requests h.course
    simp only [Player.call]
    split
    · next r hn =>
      have ha : Machine.answer? ⟨p, .perform (.call a (.complete n lines)) :: rest⟩ =
          some (r, Machine.found r lines) := by
        simp only [Machine.answer?]
        rw [hn]
        rfl
      refine ⟨_, .answer ha h.course (.inl ⟨?_, rfl⟩), ?_⟩
      · exact hr ▸ Array.mem_of_getElem? hn
      · cases lines <;> exact (h.completeLoad ..).1
    · next hn =>
      refine stay rfl ?_ h.goesOn
      simp only [Machine.answer?]
      rw [hn]
      rfl
  | set x v => exact stay rfl rfl (h.of_core (core_write _ hkeeps _)).goesOn
  | notify x => exact stay rfl rfl (h.of_core (core_notify _ hkeeps)).goesOn
  | effect name => exact stay rfl rfl (h.of_core (core_playEffect ..)).goesOn
  | setVariable token v =>
    simp only [Player.call]
    split
    · exact stay rfl rfl (h.of_core (core_write _ (by decide) _)).goesOn
    · exact stay rfl rfl h.goesOn
  | getVariable token =>
    simp only [Player.call]
    split <;> exact stay rfl rfl h.goesOn
  | observe x accepts once trigger times body =>
    refine stay rfl rfl (Follows.goesOn (Follows.observe ?_ ..))
    exact h.of_eq (fun _ => rfl) rfl h.course
  | unobserve x n =>
    simp only [Player.call]
    split
    · exact stay rfl rfl (h.of_core (core_store _ hkeeps _)).goesOn
    · exact stay rfl rfl h.goesOn
  | speed s => exact stay rfl rfl (h.of_core (core_write _ (by decide) _)).goesOn
  | register opcode b body =>
    simp only [Player.call]
    split
    · exact stay rfl rfl (Follows.goesOn (h.of_eq (fun _ => rfl) rfl h.course))
    · exact stay rfl rfl (Follows.goesOn (h.of_eq (fun _ => rfl) rfl h.course))
  | finish n =>
    simp only [Player.call]
    split
    · exact stay rfl rfl (h.finish ht _)
    · exact stay rfl rfl h.goesOn

theorem report (h : p.Follows k c) (x : Answer) (a : Audience) : (p.report x a).Follows k c :=
  h.of_inside (inside_report ..)

/-- Loading a scene answers the request for it. -/
theorem load (h : p.Follows k c) (rest : Orders) :
    ∃ c', Moves ⟨p, .perform .load :: rest⟩ c c' ∧ p.load.1.Follows k c' := by
  have hr : p.loadRequest = c.loadRequest := congrArg Course.loadRequest h.course
  rw [Player.load, takeRequest]
  cases hp : p.loadRequest with
  | none =>
    refine ⟨c, .inner rfl ?_ rfl .stay, h.release_none hp⟩
    simp [Machine.answer?, hp]
  | some r =>
    have hq : { p with loadRequest := none }.Follows k c.release := by
      refine h.of_eq (fun _ => rfl) rfl ?_
      rw [← h.course]
      rfl
    refine ⟨_, .answer (r := r) (x := p.source r.scene) ?_ h.course (.inr ⟨hr ▸ hp, rfl⟩),
      (hq.completeLoad ..).1⟩
    simp [Machine.answer?, hp]

/-! ### Deliveries -/

/-- A delivery of the script begins, and a change asks for another one from now on. -/
theorem beginDelivery {x : CellName} (hx : x.IsPlace) (h : (p.requeue x).Follows k c) :
    ∃ c', c = { c' with turns := x :: c'.turns } ∧ x ∉ c'.turns ∧
      (p.store x ((p.stage.cell x).beginDelivery.1, false)).Follows k c' := by
  have hturn : (p.requeue x).turns = x :: p.turns := by simp [turns_requeue, Task.turn, hx]
  have hn := h.nodup
  rw [hturn] at hn
  obtain ⟨hnot, hnodup⟩ := List.nodup_cons.1 hn
  have hw {y : CellName} (hy : y.IsPlace) :
      (p.stage.cell y).scheduled = true ↔ y = x ∨ y ∈ p.turns := by
    have := h.waits hy
    rw [hturn, List.mem_cons] at this
    exact this
  refine ⟨{ c with turns := p.turns }, ?_, hnot, @fun y hy => ?_, @fun y hy => ?_, hnodup, ?_⟩
  · rw [← hturn, h.turns_eq]
  · by_cases hyx : y = x
    · subst hyx
      rw [Player.store, Stage.cell_withCell_self]
      exact (h.attended hy).of_eq rfl rfl
    · rw [Player.store, Stage.cell_withCell_of_ne _ hyx]
      exact h.attended hy
  · change ((p.stage.withCell x _).cell y).scheduled = true ↔ y ∈ p.turns
    by_cases hyx : y = x
    · subst hyx
      rw [Stage.cell_withCell_self]
      exact iff_of_false Bool.false_ne_true hnot
    · rw [Stage.cell_withCell_of_ne _ hyx, hw hy]
      exact or_iff_right hyx
  · obtain rfl := h.course
    rcases hx with rfl | rfl <;> rfl

/-! ### Observers of the host -/

/-- Cells of the presentation are of no concern to the script. -/
theorem core_reactTo {x : CellName} (hx : ¬ x.IsPlace) (r : Reaction) (v : x.Value) :
    (p.reactTo r x v).1.core = p.core := by
  unfold reactTo
  split
  · exact absurd (.inl rfl) hx
  · exact absurd (.inr rfl) hx
  · exact core_of_inside (inside_openPage _)
  · rfl
  · exact core_react ..
  · rfl

/-- Only the player itself moves the script when it hears a cell. -/
theorem hear_other (h : p.Follows k c) {x : CellName} {id : Nat} (hid : x.IsPlace → x.rank k < id)
    (v : x.Value) (rest : Orders) :
    Machine.hears? ⟨p, .perform (.hear x id v) :: rest⟩ = none ∧
      (perform (.hear x id v) p).1.Follows k c := by
  by_cases hx : x.IsPlace
  · obtain ⟨ha, hv, hs, hr⟩ := (h.attended hx).hear_other (hid hx) v
    constructor
    · refine if_neg fun hn => ?_
      obtain ⟨n, hn⟩ := hr _ hn.2
      cases x <;> cases hn
    · unfold perform
      dsimp only
      split
      · next r heq =>
        rw [heq] at ha hv hs
        obtain ⟨n, rfl⟩ := hr r (by rw [heq])
        refine (h.store_quiet hx ha hs hv).of_core ?_
        exact core_react ..
      · exact h
  · constructor
    · exact if_neg fun hn => hx hn.1
    · unfold perform
      dsimp only
      split
      · exact h.of_core ((core_reactTo hx ..).trans (core_store _ hx _))
      · exact h

end Player.Follows

/-! ### Steps -/

namespace Steady

variable {k : Nat} {p : Player} {rest : Orders} {c : Course} {m : Machine Player Task}

/-- What passes the test goes on to the agenda. -/
theorem of_leaves {r : Player × Orders} (hl : Leaves HostCall.KeepsPlace r) (hf : r.1.Follows k c)
    (hr : ∀ o ∈ rest, o.IsCalm k) : Steady k ⟨r.1, r.2 ++ rest⟩ c := by
  refine .quiet hl.tame hf fun o ho => ?_
  rcases List.mem_append.1 ho with ho | ho
  · exact .inl (hl.orders o ho)
  · exact hr o ho

/-- A task that is no part of a delivery. -/
theorem perform_quiet (ht : p.Tame HostCall.KeepsPlace) (hf : p.Follows k c)
    (hr : ∀ o ∈ rest, o.IsCalm k) {t : Task} (hp : t.Passes HostCall.KeepsPlace) :
    ∃ c', Moves ⟨p, .perform t :: rest⟩ c c' ∧
      Steady k (Machine.step ⟨p, .perform t :: rest⟩) c' := by
  have hl := ht.perform hp
  have inner (hj : Machine.jump? ⟨p, .perform t :: rest⟩ = none)
      (ha : Machine.answer? ⟨p, .perform t :: rest⟩ = none)
      (hh : Machine.hears? ⟨p, .perform t :: rest⟩ = none) (hg : (perform t p).1.GoesOn k c) :
      ∃ c', Moves ⟨p, .perform t :: rest⟩ c c' ∧
        Steady k (Machine.step ⟨p, .perform t :: rest⟩) c' := by
    obtain ⟨c', hc, hq⟩ := hg
    exact ⟨c', .inner hj ha hh hc, of_leaves hl hq hr⟩
  cases t with
  | deliver x => exact hp.elim
  | hear x id v => exact hp.elim
  | ring n => exact inner rfl rfl rfl (hf.of_core (core_ringTimer ..)).goesOn
  | finish t => exact inner rfl rfl rfl (hf.finish ht t)
  | conclude t x => exact inner rfl rfl rfl (hf.conclude ht t x)
  | reveal r a => exact inner rfl rfl rfl (hf.actReveal ht r a)
  | call a d =>
    obtain ⟨c', hm, hq⟩ := hf.call ht a hp rest
    exact ⟨c', hm, of_leaves hl hq hr⟩
  | report a x => exact inner rfl rfl rfl (hf.report x a).goesOn
  | note e => exact inner rfl rfl rfl (hf.of_core (core_note ..)).goesOn
  | load =>
    obtain ⟨c', hm, hq⟩ := hf.load rest
    exact ⟨c', hm, of_leaves hl hq hr⟩

theorem isCalm_hear {x : CellName} {id : Nat} (v : x.Value) (h : x.IsPlace → x.rank k < id) :
    (Order.perform (.hear x id v)).IsCalm k := .inr ⟨x, id, v, rfl, h⟩

/-- A delivery that has been taken from the loop begins. -/
theorem perform_deliver {x : CellName} (ht : p.Tame HostCall.KeepsPlace)
    (hf : (p.requeue x).Follows k c) (hr : ∀ o ∈ rest, o.IsCalm k) :
    ∃ c', Moves ⟨p, .perform (.deliver x) :: rest⟩ c c' ∧
      Steady k (Machine.step ⟨p, .perform (.deliver x) :: rest⟩) c' := by
  refine ⟨c, .inner rfl rfl rfl .stay, ?_⟩
  show Steady k ⟨p.store x ((p.stage.cell x).beginDelivery.1, false),
    (p.stage.cell x).beginDelivery.2.map
      (fun id => Order.perform (Task.hear x id (p.stage.cell x).value)) ++ rest⟩ c
  by_cases hx : x.IsPlace
  · obtain ⟨ids, hids, hother⟩ := (hf.attended hx).ids
    obtain ⟨c', rfl, hnot, hq⟩ := Follows.beginDelivery hx hf
    have hv : ((p.store x ((p.stage.cell x).beginDelivery.1, false)).stage.cell x).value =
        (p.stage.cell x).value := by
      rw [Player.store, Stage.cell_withCell_self]
      rfl
    have hmap : (p.stage.cell x).beginDelivery.2.map
        (fun id => Order.perform (Task.hear x id (p.stage.cell x).value)) ++ rest =
          hearing k 0 x
            ((p.store x ((p.stage.cell x).beginDelivery.1, false)).stage.cell x).value ++
              (ids.map (fun id => Order.perform (Task.hear x id (p.stage.cell x).value)) ++
                rest) := by
      have hb : (p.stage.cell x).beginDelivery.2 = List.range (x.rank k + 1) ++ ids := hids
      rw [hb, hv, hearing, List.map_append, List.append_assoc, List.range_eq_range']
      rfl
    rw [hmap]
    refine .hear (ht.store ..) hq hx hnot (Nat.zero_le _) fun o ho => ?_
    rcases List.mem_append.1 ho with ho | ho
    · obtain ⟨id, hid, rfl⟩ := List.mem_map.1 ho
      exact isCalm_hear _ fun _ => hother id hid
    · exact hr o ho
  · refine .quiet (ht.store ..) ?_ fun o ho => ?_
    · refine Follows.of_core (p := p.requeue x) hf ?_
      rw [core_store _ hx, core_requeue _ hx]
    · rcases List.mem_append.1 ho with ho | ho
      · obtain ⟨id, -, rfl⟩ := List.mem_map.1 ho
        exact isCalm_hear _ fun h => absurd h hx
      · exact hr o ho

theorem step_perform (p : Player) (t : Task) (rest : Orders) :
    Machine.step ⟨p, .perform t :: rest⟩ =
      ⟨(Player.perform t p).1, (Player.perform t p).2 ++ rest⟩ := rfl

theorem perform_hear_eq {x : CellName} {id : Nat} {v : x.Value} {d : Cell x.Value Reaction}
    {r : Reaction} (h : (p.stage.cell x).hear id v = (d, some r)) :
    Player.perform (.hear x id v) p = (p.store x (d, false)).reactTo r x v := by
  simp only [Player.perform, h]

theorem store_cell_self (p : Player) (x : CellName) : p.store x (p.stage.cell x, false) = p := by
  cases x <;> rfl

/-- The next observer is called: a page, or at last the player. -/
theorem perform_hear {x : CellName} {i : Nat} (ht : p.Tame HostCall.KeepsPlace)
    (hf : p.Follows k c) (hx : x.IsPlace) (hnot : x ∉ c.turns) (hi : i ≤ x.rank k)
    (hr : ∀ o ∈ rest, o.IsCalm k) :
    ∃ c', Moves ⟨p, hearing k i x (p.stage.cell x).value ++ rest⟩
      { c with turns := x :: c.turns } c' ∧
      Steady k (Machine.step ⟨p, hearing k i x (p.stage.cell x).value ++ rest⟩) c' := by
  have hl := ht.hear x i (p.stage.cell x).value
  rcases Nat.lt_or_eq_of_le hi with hlt | rfl
  · -- a page
    have hpage := (hf.attended hx).hear_page hlt (p.stage.cell x).value
    have hq : Player.perform (.hear x i (p.stage.cell x).value) p = (p.openPage, []) := by
      rw [perform_hear_eq hpage, store_cell_self]
      rcases hx with rfl | rfl <;> rfl
    rw [hearing_of_lt hlt, List.cons_append]
    refine ⟨_, .inner rfl rfl ?_ .stay, ?_⟩
    · refine if_neg fun hn => ?_
      rw [hpage] at hn
      rcases hx with rfl | rfl <;> cases hn.2
    · have hin := inside_openPage p
      have hv : p.openPage.inside.stage = p.inside.stage := congrArg Player.stage hin
      change p.openPage.stage = p.stage at hv
      have ht : p.openPage.Tame HostCall.KeepsPlace := by
        rw [hq] at hl
        exact hl.tame
      rw [step_perform, hq, ← hv]
      exact .hear ht (hf.of_inside hin) hx hnot hlt hr
  · -- the player
    have hown := (hf.attended hx).hear_own (p.stage.cell x).value
    have hears : Machine.hears? ⟨p, .perform (.hear x (x.rank k) (p.stage.cell x).value) :: rest⟩ =
        some x := if_pos ⟨hx, by rw [hown]⟩
    have hq : Player.perform (.hear x (x.rank k) (p.stage.cell x).value) p =
        p.reactTo x.reaction x (p.stage.cell x).value := by
      rw [perform_hear_eq hown, store_cell_self]
    rw [hq] at hl
    rw [hearing_self, List.singleton_append, step_perform, hq]
    obtain rfl := hf.course
    rcases hx with rfl | rfl
    · exact ⟨_, .scene hears rfl, of_leaves hl (hf.loadScene _) hr⟩
    · obtain ⟨c', hc, hrun⟩ := hf.runLine ht p.stage.index.value
      refine ⟨_, .index hears rfl ?_ hc, of_leaves hl hrun hr⟩
      have hr : (p.stage.index.hear k p.stage.index.value).2 = some .runLine :=
        congrArg Prod.snd hown
      show (if (p.stage.index.hear k p.stage.index.value).2 = some .runLine ∧ p.phase ≠ .loading
        then _ else _) = if p.phase = .loading then _ else _
      by_cases hp : p.phase = .loading
      · rw [if_neg fun h => h.2 hp, if_pos hp]
      · rw [if_pos ⟨hr, hp⟩, if_neg hp]
        rfl

theorem isCalm_cons {o : Order Task} (ho : o.IsCalm k) (hr : ∀ o ∈ rest, o.IsCalm k) :
    ∀ x ∈ o :: rest, x.IsCalm k := List.forall_mem_cons.2 ⟨ho, hr⟩

/-- The next microtask, if there is one, is a delivery. -/
theorem step_drain (ht : p.Tame HostCall.KeepsPlace) (hf : p.Follows k c)
    (hr : ∀ o ∈ rest, o.IsCalm k) : Steady k (Machine.step ⟨p, .drain :: rest⟩) c := by
  cases hm : p.schedule.loop.microtasks with
  | nil =>
    have hpop : (World.loop p).popMicrotask? = none := by
      simp only [World.loop, Loop.popMicrotask?, hm]
    simp only [Machine.step, hpop]
    exact .quiet ht hf hr
  | cons t ts =>
    obtain ⟨x, rfl⟩ := ht.microtasks t (hm ▸ List.mem_cons_self)
    have hpop : (World.loop p).popMicrotask? =
        some (.deliver x, { p.schedule.loop with microtasks := ts }) := by
      simp only [World.loop, Loop.popMicrotask?, hm]
    have hp : (World.withLoop p { p.schedule.loop with microtasks := ts }).requeue x = p := by
      have hl : { p.schedule.loop with microtasks := Task.deliver x :: ts } = p.schedule.loop := by
        rw [← hm]
      show { p with schedule := { p.schedule with
        loop := { p.schedule.loop with microtasks := Task.deliver x :: ts } } } = p
      rw [hl]
    simp only [Machine.step, hpop]
    refine .deliver ?_ (hp.symm ▸ hf) (isCalm_cons (.inl trivial) hr)
    exact ht.withSchedule (fun t h => ht.microtasks t (hm ▸ List.mem_cons_of_mem _ h)) ht.timeouts
      ht.timers

/-- What falls due is no part of a delivery. -/
theorem step_runUntil (ht : p.Tame HostCall.KeepsPlace) (hf : p.Follows k c)
    (hr : ∀ o ∈ rest, o.IsCalm k) (target : Nat) :
    Steady k (Machine.step ⟨p, .runUntil target :: rest⟩) c := by
  cases hpop : (World.loop p).popDue? target with
  | none =>
    simp only [Machine.step, hpop]
    exact .quiet (ht.withSchedule ht.microtasks ht.timeouts ht.timers)
      (hf.of_core (core_withSchedule p rfl)) hr
  | some due =>
    obtain ⟨t, l⟩ := due
    simp only [Machine.step, hpop]
    obtain ⟨u, us, hu, -, rfl, rfl⟩ := Loop.eq_of_popDue? hpop
    refine .quiet ?_ (hf.of_core (core_withSchedule p rfl)) (isCalm_cons (.inl ?_)
      (isCalm_cons (.inl trivial) (isCalm_cons (.inl trivial) hr)))
    · exact ht.withSchedule ht.microtasks
        (fun x h => ht.timeouts x (hu ▸ List.mem_cons_of_mem _ h)) ht.timers
    · exact (ht.timeouts u (hu ▸ List.mem_cons_self)).passes

/-- **One step.** A machine stays steady, and its course moves. -/
theorem step (h : Steady k m c) : ∃ c', Moves m c c' ∧ Steady k m.step c' := by
  cases h with
  | deliver ht hf hr => exact perform_deliver ht hf hr
  | hear ht hf hx hnot hi hr => exact perform_hear ht hf hx hnot hi hr
  | @quiet p orders c ht hf ho =>
    cases orders with
    | nil => exact ⟨c, .inner rfl rfl rfl .stay, .quiet ht hf ho⟩
    | cons o rest =>
      have hr : ∀ o ∈ rest, o.IsCalm k := fun o h => ho o (List.mem_cons_of_mem _ h)
      have hnil : ∀ o ∈ ([] : Orders), o.IsCalm k := fun o h => absurd h List.not_mem_nil
      cases o with
      | perform t =>
        rcases ho _ List.mem_cons_self with hp | ⟨x, id, v, hx, hid⟩
        · exact perform_quiet ht hf hr hp
        · cases hx
          obtain ⟨hh, hq⟩ := hf.hear_other hid v rest
          exact ⟨c, .inner rfl rfl hh .stay, of_leaves (ht.hear x id v) hq hr⟩
      | drain => exact ⟨c, .inner rfl rfl rfl .stay, step_drain ht hf hr⟩
      | advance d =>
        exact ⟨c, .inner rfl rfl rfl .stay, .quiet ht hf
          (isCalm_cons (.inl trivial) (isCalm_cons (.inl trivial) hr))⟩
      | depart d =>
        exact ⟨c, .inner rfl rfl rfl .stay, .quiet ht hf (isCalm_cons (.inl trivial) hr)⟩
      | runUntil target => exact ⟨c, .inner rfl rfl rfl .stay, step_runUntil ht hf hr target⟩
      | halt => exact ⟨c, .inner rfl rfl rfl .stay, .quiet ht hf hnil⟩

/-! ### What a steady machine shows of its course -/

theorem tame (h : Steady k m c) : m.world.Tame HostCall.KeepsPlace := by
  cases h with
  | quiet ht _ _ => exact ht
  | deliver ht _ _ => exact ht
  | hear ht _ _ _ _ _ => exact ht

/-- Only the turns of a course may differ from what the player shows. -/
theorem course_eq (h : Steady k m c) : c = { m.world.course with turns := c.turns } := by
  cases h with
  | quiet _ hf _ => rw [← hf.course]
  | @deliver p x orders c _ hf _ =>
    have hc : (p.requeue x).course = c := hf.course
    rw [← hc]
    rfl
  | hear _ hf _ _ _ _ => rw [← hf.course]

theorem isPlace_of_mem_turns (p : Player) {x : CellName} (hx : x ∈ p.turns) : x.IsPlace := by
  obtain ⟨t, -, ht⟩ := List.mem_flatMap.1 hx
  cases t with
  | deliver y =>
    by_cases hy : y.IsPlace
    · rw [Task.turn, if_pos hy] at ht
      rwa [List.mem_singleton.1 ht]
    · rw [Task.turn, if_neg hy] at ht
      exact absurd ht List.not_mem_nil
  | _ => cases ht

/-- Each cell of the script waits at most once. -/
theorem nodup (h : Steady k m c) : c.turns.Nodup := by
  cases h with
  | quiet _ hf _ => exact hf.turns_eq ▸ hf.nodup
  | deliver _ hf _ => exact hf.turns_eq ▸ hf.nodup
  | hear _ hf _ hnot _ _ => exact List.nodup_cons.2 ⟨hnot, hf.turns_eq ▸ hf.nodup⟩

theorem isPlace (h : Steady k m c) {x : CellName} (hx : x ∈ c.turns) : x.IsPlace := by
  cases h with
  | quiet _ hf _ => exact isPlace_of_mem_turns _ (hf.turns_eq ▸ hx)
  | deliver _ hf _ => exact isPlace_of_mem_turns _ (hf.turns_eq ▸ hx)
  | hear _ hf hy _ _ _ =>
    rcases List.mem_cons.1 hx with rfl | hx
    · exact hy
    · exact isPlace_of_mem_turns _ (hf.turns_eq ▸ hx)

/-- Apart from deliveries, the player is on the course. -/
theorem follows (h : Steady k m c) {t : Task} (hm : m.agenda = .perform t :: rest)
    (hd : ∀ x, t ≠ .deliver x) (hh : ∀ x i v, t ≠ .hear x i v) : m.world.Follows k c := by
  cases h with
  | quiet _ hf _ => exact hf
  | deliver _ _ _ =>
    cases hm
    exact absurd rfl (hd _)
  | @hear p y i orders c _ _ _ _ hi _ =>
    exfalso
    have hcons : ∃ l, hearing k i y (p.stage.cell y).value =
        .perform (.hear y i (p.stage.cell y).value) :: l := by
      rcases Nat.lt_or_eq_of_le hi with hlt | rfl
      · exact ⟨_, hearing_of_lt hlt _⟩
      · exact ⟨_, hearing_self ..⟩
    obtain ⟨l, hl⟩ := hcons
    change hearing k i y (p.stage.cell y).value ++ orders = _ at hm
    rw [hl] at hm
    cases hm
    exact hh _ _ _ rfl

/-- Then the cells say what waits. -/
theorem waits (h : Steady k m c) {t : Task} (hm : m.agenda = .perform t :: rest)
    (hd : ∀ x, t ≠ .deliver x) (hh : ∀ x i v, t ≠ .hear x i v) {x : CellName} (hx : x.IsPlace) :
    (m.world.stage.cell x).scheduled = true ↔ x ∈ c.turns :=
  have hf := h.follows hm hd hh
  hf.turns_eq ▸ hf.waits hx

/-- A line that is started is the one at the index among the lines that the player has. -/
theorem of_line? {line : String} (h : Steady k m c) (hline : m.line? = some line) :
    c.phase ≠ .loading ∧ (∃ ts, c.turns = .index :: ts) ∧
      ∃ lines, c.lines = some lines ∧ lines[c.index.toNat]? = some line := by
  have hh := Machine.hears?_of_line? hline
  obtain ⟨c', hm, -⟩ := h.step
  cases hm with
  | jump hj => cases (Machine.hears?_of_jump? hj).symm.trans hh
  | answer ha => cases (Machine.hears?_of_answer? ha).symm.trans hh
  | scene hs => cases hs.symm.trans hh
  | inner _ _ hn => cases hn.symm.trans hh
  | @index ts _ _ ht heq =>
    rw [hline] at heq
    split at heq
    · cases heq
    · next hp => exact ⟨hp, ⟨ts, ht⟩, Option.bind_eq_some_iff.1 heq.symm⟩

end Steady

end Novella
