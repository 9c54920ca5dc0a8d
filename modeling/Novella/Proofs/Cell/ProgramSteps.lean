import Mathlib.Data.List.Nodup
import Novella.Cell.Program

/-!
# Programs with cells, step by step

A board is a row of cells that share a loop. Its host makes calls, and its observers make calls when
they hear a value. The agenda of its machine is always laid out in the same way: first come calls,
and after them what is under way in the loop, which is one delivery at most. Each step is then one
of a few moves, and what is to be known of a step can be read off the move.

Observers are told apart by two numbers, one among the observers of a cell and one among all. Both
are given out in order and never again, so an observer that is gone stays gone.

## Main definitions

* `Call.Tacit` — a call that does not run microtasks, with what it leaves behind
* `Board.cell`, `Board.Has` — the cells and their observers
* `Effect`, `Moves` — what a call does, and what a step of the machine does
* `Enrols`, `Roll` — how the observers change, and what their numbers say
* `Laid` — how an agenda is laid out

## Main results

* `effect_call`, `Laid.moves` — every call has an effect, and every step is a move
* `Roll.moves`, `Laid.step` — numbers and agendas stay in order
-/

namespace Novella.CellProgram

/-! ### Calls -/

/-- The calls that a call leaves behind. -/
def Call.body : Call → List Call
  | observe _ _ _ body => body
  | when _ c => [c]
  | _ => []

/-- The call does not run the microtasks, and neither does any call that it leaves behind. -/
inductive Call.Tacit : Call → Prop where
  /-- A call with what it leaves behind. -/
  | intro {c : Call} : c ≠ .run → (∀ d ∈ c.body, Tacit d) → c.Tacit

theorem Call.Tacit.of_mem_body {c d : Call} (h : c.Tacit) (hd : d ∈ c.body) : d.Tacit := by
  cases h with
  | intro _ h => exact h d hd

theorem Call.Tacit.ne_run {c : Call} (h : c.Tacit) : c ≠ .run := by
  cases h with
  | intro h _ => exact h

/-- The order makes a call for the host or for an observer. -/
def IsCall : Order Task → Prop
  | .perform (.call _ c) => c.Tacit
  | .perform (.request c) => c.Tacit
  | _ => False

/-! ### Cells of a board -/

/-- An observer of a cell. -/
abbrev Listener := Observer Int64 Reaction

namespace Board

variable {b : Board} {c d : Nat} {r : Cell Int64 Reaction × Bool}

/-- The cell with this number. Where there is none it is one that nobody observes. -/
def cell (b : Board) (c : Nat) : Cell Int64 Reaction := b.cells[c]?.getD { value := 0 }

/-- The observer is subscribed to the cell. -/
def Has (b : Board) (c : Nat) (o : Listener) : Prop := o ∈ (b.cell c).observers

theorem cell_of_getElem? {x : Cell Int64 Reaction} (h : b.cells[c]? = some x) : b.cell c = x := by
  rw [cell, h]
  rfl

theorem cell_of_size_le (h : b.cells.size ≤ c) : b.cell c = { value := 0 } := by
  rw [cell, Array.getElem?_eq_none h]
  rfl

/-- Whoever is observed is there. -/
theorem lt_size_of_has {o : Listener} (h : b.Has c o) : c < b.cells.size := by
  rcases Nat.lt_or_ge c b.cells.size with hc | hc
  · exact hc
  · rw [Has, cell_of_size_le hc] at h
    exact absurd h List.not_mem_nil

theorem cell_store_self (h : c < b.cells.size) : (b.store c r).cell c = r.1 := by
  rw [cell, store]
  dsimp only
  rw [Array.getElem?_setIfInBounds_self_of_lt h]
  rfl

theorem cell_store_of_ne (h : d ≠ c) : (b.store c r).cell d = b.cell d := by
  rw [cell, store]
  dsimp only
  rw [Array.getElem?_setIfInBounds_ne h.symm]
  rfl

theorem store_of_size_le (h : b.cells.size ≤ c) (hr : r.2 = false) : b.store c r = b := by
  rw [store, hr, Array.setIfInBounds_eq_of_size_le h]
  rfl

/-- A cell is stored or stays as it is. -/
theorem cell_store (b : Board) (c d : Nat) (r : Cell Int64 Reaction × Bool) :
    (b.store c r).cell d = b.cell d ∨ d = c ∧ c < b.cells.size ∧ (b.store c r).cell d = r.1 := by
  by_cases hd : d = c
  · subst hd
    by_cases hc : d < b.cells.size
    · exact .inr ⟨rfl, hc, cell_store_self hc⟩
    · refine .inl ?_
      rw [cell, store]
      dsimp only
      rw [Array.setIfInBounds_eq_of_size_le (Nat.le_of_not_lt hc)]
      rfl
  · exact .inl (cell_store_of_ne hd)

/-- What the cell that is stored has in common with the old one, all have. -/
theorem map_cell_store {β : Type} (f : Cell Int64 Reaction → β) (h : f r.1 = f (b.cell c))
    (d : Nat) : f ((b.store c r).cell d) = f (b.cell d) := by
  rcases b.cell_store c d r with he | ⟨rfl, -, he⟩
  · rw [he]
  · rw [he, h]

end Board

/-! ### Effects of calls -/

/-- What a call does to a board, but for the answer. -/
inductive Effect (b : Board) : Call → Board → Prop where
  /-- A cell is written. -/
  | write {call : Call} (c : Nat) (v : Int64) (a : Answer) :
      (call = .set c v ∨ ∃ d, call = .add c d) →
      Effect b call { b.store c ((b.cell c).set v) with answer := a }
  /-- A delivery is asked for. -/
  | notify (c : Nat) (a : Answer) :
      Effect b (.notify c) { b.store c (b.cell c).notify with answer := a }
  /-- An observer subscribes. -/
  | observe {c : Nat} (accepts : Int64 → Bool) (once : Bool) (body : List Call) (a : Answer) :
      c < b.cells.size →
      Effect b (.observe c accepts once body)
        { b.store c ((b.cell c).observe ⟨b.subscriptions.size, body⟩ accepts once, false) with
          subscriptions := b.subscriptions.push (b.cell c).nextId
          answer := a }
  /-- An observer unsubscribes. -/
  | unobserve (c : Nat) {k id : Nat} (a : Answer) : b.subscriptions[k]? = some id →
      Effect b (.unobserve c k) { b.store c ((b.cell c).unobserve id, false) with answer := a }
  /-- Nothing is done now. -/
  | idle {call : Call} (a : Answer) : (∀ c, call ≠ .notify c) →
      (∀ c k, call = .unobserve c k → b.subscriptions[k]? = none) →
      Effect b call { b with answer := a }

theorem effect_write (b : Board) {call : Call} (c : Nat) (v : Int64) (a : Answer)
    (h : call = .set c v ∨ ∃ d, call = .add c d) :
    Effect b call { b.write c v with answer := a } := by
  unfold Board.write
  split
  · next x hx =>
    rw [← Board.cell_of_getElem? hx]
    exact .write c v a h
  · refine .idle a (fun c' hc' => ?_) fun c' k hc' => ?_
    all_goals
      subst hc'
      rcases h with h | ⟨d, h⟩ <;> cases h

/-- Every call has its effect. -/
theorem effect_call (b : Board) (heard : Int64) (call : Call) (a : Answer) :
    Effect b call { (b.call heard call).1 with answer := a } := by
  cases call with
  | set c v => exact effect_write b c v a (.inl rfl)
  | add c d =>
    simp only [Board.call]
    split
    · exact effect_write b c _ a (.inr ⟨d, rfl⟩)
    · exact .idle a nofun nofun
  | get c =>
    simp only [Board.call]
    split <;> exact .idle a nofun nofun
  | notify c =>
    simp only [Board.call]
    split
    · next x hx =>
      rw [← Board.cell_of_getElem? hx]
      exact .notify c a
    · next hx =>
      have hs : b.store c (b.cell c).notify = b := by
        have hc := Array.getElem?_eq_none_iff.1 hx
        refine Board.store_of_size_le hc ?_
        rw [Board.cell_of_size_le hc]
        rfl
      have he := Effect.notify (b := b) c a
      rwa [hs] at he
  | observe c accepts once body =>
    simp only [Board.call]
    split
    · next x hx =>
      rw [← Board.cell_of_getElem? hx]
      exact .observe accepts once body a (Array.getElem?_eq_some_iff.1 hx).1
    · exact .idle a nofun nofun
  | unobserve c k =>
    simp only [Board.call]
    split
    · next x id hx hid =>
      rw [← Board.cell_of_getElem? hx]
      exact .unobserve c a hid
    · next hn =>
      cases hid : b.subscriptions[k]? with
      | none =>
        refine .idle a nofun fun c' k' he => ?_
        cases he
        exact hid
      | some id =>
        have hx : b.cells[c]? = none := by
          cases hx : b.cells[c]? with
          | none => rfl
          | some x => exact absurd hid (hn x id hx)
        have he := Effect.unobserve (b := b) c a hid
        rwa [Board.store_of_size_le (Array.getElem?_eq_none_iff.1 hx) rfl] at he
  | run => exact .idle a nofun nofun
  | when accepts c => exact .idle a nofun nofun

/-- What a call leaves to be done are calls again. -/
theorem isCall_of_mem_call (b : Board) (heard : Int64) {call : Call} (h : call.Tacit) :
    ∀ o ∈ (b.call heard call).2.2, IsCall o := by
  have never : ∀ o ∈ ([] : List (Order Task)), IsCall o := fun _ ho => absurd ho List.not_mem_nil
  cases call with
  | run => exact absurd rfl h.ne_run
  | when accepts c =>
    simp only [Board.call]
    split
    · intro o ho
      rw [List.mem_singleton.1 ho]
      exact h.of_mem_body List.mem_cons_self
    · exact never
  | set c v => exact never
  | _ =>
    simp only [Board.call]
    split <;> exact never

/-! ### Moves of the machine -/

/-- The board when an observer of a cell has heard a value. -/
def Board.told (b : Board) (c : Nat) (o : Listener) (v : Int64) : Board :=
  { b.store c (if o.once then (b.cell c).unobserve o.id else b.cell c, false) with
    events := b.events.push ⟨o.reaction.observer, c, v⟩ }

/-- It has in common with the old one what the removal of the observer leaves alone. -/
theorem Board.map_cell_told {b : Board} {β : Type} (f : Cell Int64 Reaction → β) {c : Nat}
    {o : Listener} (h : f ((b.cell c).unobserve o.id) = f (b.cell c)) (v : Int64) (d : Nat) :
    f ((b.told c o v).cell d) = f (b.cell d) := by
  refine Board.map_cell_store f ?_ d
  dsimp only
  split
  · exact h
  · rfl

/-- The orders of a delivery: everyone hears the value, and then the loop goes on. -/
def hearing (c : Nat) (v : Int64) (l : List Listener) : List (Order Task) :=
  l.map (fun o => Order.perform (Task.hear c o.id v)) ++ [.drain]

/-- What is under way in the loop, apart from calls. -/
inductive Underway : List (Order Task) → Prop where
  /-- Nothing. -/
  | rest : Underway []
  /-- The host has asked to run the microtasks. -/
  | run : Underway [.perform (.request .run)]
  /-- Microtasks are run. -/
  | drain : Underway [.drain]
  /-- A delivery is about to start. -/
  | deliver (c : Nat) : Underway [.perform (.deliver c), .drain]
  /-- A delivery goes on. -/
  | hear (c : Nat) (v : Int64) (l : List Listener) : Underway (hearing c v l)

/-- The agenda consists of calls and of what is under way. -/
def Laid (agenda : List (Order Task)) : Prop :=
  ∃ calls orders, agenda = calls ++ orders ∧ (∀ o ∈ calls, IsCall o) ∧ Underway orders

/-- What a step does. -/
inductive Moves : Machine Board Task → Machine Board Task → Prop where
  /-- There is nothing to do. -/
  | rest (b : Board) : Moves ⟨b, []⟩ ⟨b, []⟩
  /-- A call is made. -/
  | call {b b' : Board} {o : Order Task} {call : Call} {orders rest : List (Order Task)} :
      (o = .perform (.request call) ∨ ∃ v, o = .perform (.call v call)) → call.Tacit →
      Effect b call b' → (∀ o ∈ orders, IsCall o) → Laid rest →
      Moves ⟨b, o :: rest⟩ ⟨b', orders ++ rest⟩
  /-- The host has the microtasks run. -/
  | run (b : Board) : Moves ⟨b, [.perform (.request .run)]⟩ ⟨{ b with answer := .none }, [.drain]⟩
  /-- There is another microtask. -/
  | pop {b : Board} {c : Nat} {ts : List Task} : b.loop.microtasks = .deliver c :: ts →
      Moves ⟨b, [.drain]⟩
        ⟨{ b with loop := { b.loop with microtasks := ts } }, [.perform (.deliver c), .drain]⟩
  /-- There is no other microtask. -/
  | done {b : Board} : b.loop.microtasks = [] → Moves ⟨b, [.drain]⟩ ⟨b, []⟩
  /-- A delivery starts. -/
  | deliver (b : Board) (c : Nat) : Moves ⟨b, [.perform (.deliver c), .drain]⟩
      ⟨b.store c ((b.cell c).beginDelivery.1, false),
        hearing c (b.cell c).value (b.cell c).observers⟩
  /-- An observer hears a value. -/
  | hear {b : Board} {c : Nat} {o : Listener} {v : Int64} {l : List Listener} :
      b.Has c o → o.accepts v = true →
      Moves ⟨b, .perform (.hear c o.id v) :: hearing c v l⟩
        ⟨b.told c o v, o.reaction.body.map (fun d => .perform (.call v d)) ++ hearing c v l⟩
  /-- An observer does not hear a value, or does not want it. -/
  | pass {b : Board} {c id : Nat} {v : Int64} {l : List Listener} :
      (∀ o, (b.cell c).observers.find? (fun o => o.id = id) = some o → o.accepts v = false) →
      Moves ⟨b, .perform (.hear c id v) :: hearing c v l⟩ ⟨b, hearing c v l⟩

/-- The agenda begins with a call, or else something is under way. -/
theorem Laid.cases {agenda : List (Order Task)} (h : Laid agenda) :
    (∃ o rest, agenda = o :: rest ∧ IsCall o ∧ Laid rest) ∨ Underway agenda := by
  obtain ⟨calls, orders, rfl, hc, hu⟩ := h
  cases calls with
  | nil => exact .inr hu
  | cons o calls =>
    have ho := List.forall_mem_cons.1 hc
    exact .inl ⟨o, calls ++ orders, rfl, ho.1, calls, orders, rfl, ho.2, hu⟩

theorem Underway.laid {orders : List (Order Task)} (h : Underway orders) : Laid orders :=
  ⟨[], orders, rfl, fun _ ho => absurd ho List.not_mem_nil, h⟩

theorem Laid.append {rest orders : List (Order Task)} (h : Laid rest)
    (ho : ∀ o ∈ orders, IsCall o) : Laid (orders ++ rest) := by
  obtain ⟨calls, under, rfl, hc, hu⟩ := h
  refine ⟨orders ++ calls, under, (List.append_assoc ..).symm, fun o hm => ?_, hu⟩
  exact (List.mem_append.1 hm).elim (ho o) (hc o)

/-- Only deliveries wait in the loop. -/
def OnlyDelivers (b : Board) : Prop := ∀ t ∈ b.loop.microtasks, ∃ c, t = .deliver c

theorem perform_deliver (b : Board) (c : Nat) : Board.perform (.deliver c) b =
    (b.store c ((b.cell c).beginDelivery.1, false),
      (b.cell c).observers.map (fun o => .perform (.hear c o.id (b.cell c).value))) := by
  cases hx : b.cells[c]? with
  | none =>
    have hc := Array.getElem?_eq_none_iff.1 hx
    rw [Board.store_of_size_le hc rfl, Board.cell_of_size_le hc]
    simp only [Board.perform, hx]
    rfl
  | some x =>
    simp only [Board.perform, hx, Board.cell_of_getElem? hx, Cell.beginDelivery, List.map_map]
    rfl

/-- The observer with this number is found where it is looked for. -/
theorem perform_hear (b : Board) (c id : Nat) (v : Int64) : Board.perform (.hear c id v) b =
    match (b.cell c).observers.find? (fun o => o.id = id) with
    | some o =>
      if o.accepts v then
        ({ b.store c (if o.once then (b.cell c).unobserve id else b.cell c, false) with
            events := b.events.push ⟨o.reaction.observer, c, v⟩ },
          o.reaction.body.map (fun d => .perform (.call v d)))
      else (b, [])
    | none => (b, []) := by
  cases hx : b.cells[c]? with
  | none =>
    rw [Board.cell_of_size_le (Array.getElem?_eq_none_iff.1 hx)]
    simp only [Board.perform, hx, List.find?_nil]
  | some x =>
    rw [Board.cell_of_getElem? hx]
    simp only [Board.perform, hx, Cell.hear]
    cases x.observers.find? (fun o => o.id = id) with
    | none => rfl
    | some o =>
      dsimp only
      by_cases ho : o.accepts v = true
      · rw [if_pos ho, if_pos ho]
      · rw [if_neg ho, if_neg ho]

theorem moves_drain {b : Board} (hm : OnlyDelivers b) :
    Moves ⟨b, [.drain]⟩ (Machine.step ⟨b, [.drain]⟩) := by
  cases hl : b.loop.microtasks with
  | nil =>
    have hs : Machine.step (⟨b, [.drain]⟩ : Machine Board Task) = ⟨b, []⟩ := by
      simp only [Machine.step, World.loop, Loop.popMicrotask?, hl]
    rw [hs]
    exact .done hl
  | cons t ts =>
    obtain ⟨c, rfl⟩ := hm t (hl ▸ List.mem_cons_self)
    have hs : Machine.step (⟨b, [.drain]⟩ : Machine Board Task) =
        ⟨{ b with loop := { b.loop with microtasks := ts } },
          [.perform (.deliver c), .drain]⟩ := by
      simp only [Machine.step, World.loop, World.withLoop, Loop.popMicrotask?, hl]
    rw [hs]
    exact .pop hl

/-- Every step of a machine is a move. -/
theorem Laid.moves {b : Board} {agenda : List (Order Task)} (h : Laid agenda)
    (hm : OnlyDelivers b) : Moves ⟨b, agenda⟩ (Machine.step ⟨b, agenda⟩) := by
  rcases h.cases with ⟨o, rest, rfl, ho, hr⟩ | hu
  · match o with
    | .perform (.call v c) =>
      exact .call (.inr ⟨v, rfl⟩) ho (effect_call b v c (b.call v c).1.answer)
        (isCall_of_mem_call b v ho) hr
    | .perform (.request c) =>
      exact .call (.inl rfl) ho (effect_call b 0 c _) (isCall_of_mem_call b 0 ho) hr
  · cases hu with
    | rest => exact .rest b
    | run => exact .run b
    | drain => exact moves_drain hm
    | deliver c =>
      simp only [Machine.step, World.perform, perform_deliver]
      exact .deliver b c
    | hear c v l =>
      cases l with
      | nil =>
        -- the delivery is over
        exact moves_drain hm
      | cons o l =>
        have hs : Machine.step (⟨b, hearing c v (o :: l)⟩ : Machine Board Task) =
            ⟨(Board.perform (.hear c o.id v) b).1,
              (Board.perform (.hear c o.id v) b).2 ++ hearing c v l⟩ := rfl
        change Moves ⟨b, .perform (.hear c o.id v) :: hearing c v l⟩ _
        rw [hs, perform_hear]
        cases hf : (b.cell c).observers.find? (fun x => x.id = o.id) with
        | none => exact .pass fun x hx => by cases hf.symm.trans hx
        | some x =>
          dsimp only
          by_cases ha : x.accepts v = true
          · have hid : x.id = o.id := by simpa using List.find?_some hf
            rw [if_pos ha, ← hid]
            exact .hear (List.mem_of_find?_eq_some hf) ha
          · rw [if_neg ha]
            refine .pass fun y hy => ?_
            cases hf.symm.trans hy
            exact Bool.not_eq_true _ ▸ ha

/-! ### Who is enrolled -/

/-- How the observers of a board change: some go, or a new one comes, with new numbers. -/
inductive Enrols (b b' : Board) : Prop where
  /-- Nobody comes. -/
  | shrink : (∀ c, (b'.cell c).observers.Sublist (b.cell c).observers) →
      (∀ c, (b'.cell c).nextId = (b.cell c).nextId) → b'.subscriptions = b.subscriptions →
      Enrols b b'
  /-- A new observer comes. -/
  | grow (c : Nat) (o : Listener) : (∀ d, d ≠ c → b'.cell d = b.cell d) →
      (b'.cell c).observers = (b.cell c).observers ++ [o] → o.id = (b.cell c).nextId →
      (b'.cell c).nextId = (b.cell c).nextId + 1 → o.reaction.observer = b.subscriptions.size →
      b'.subscriptions.size = b.subscriptions.size + 1 → (∀ d ∈ o.reaction.body, d.Tacit) →
      Enrols b b'

namespace Enrols

variable {b b' : Board}

theorem of_eq (hc : b'.cells = b.cells) (hs : b'.subscriptions = b.subscriptions) :
    Enrols b b' := by
  have h (c : Nat) : b'.cell c = b.cell c := by rw [Board.cell, Board.cell, hc]
  refine .shrink (fun c => ?_) (fun c => ?_) hs
  · rw [h]
  · rw [h]

/-- A cell is stored with some of its observers. -/
theorem store {c : Nat} {x : Cell Int64 Reaction} {q : Bool}
    (ho : x.observers.Sublist (b.cell c).observers) (hn : x.nextId = (b.cell c).nextId)
    (hc : b'.cells = (b.store c (x, q)).cells) (hs : b'.subscriptions = b.subscriptions) :
    Enrols b b' := by
  have h (d : Nat) : b'.cell d = (b.store c (x, q)).cell d := by rw [Board.cell, Board.cell, hc]
  refine .shrink (fun d => ?_) (fun d => ?_) hs
  · rw [h]
    rcases b.cell_store c d (x, q) with hd | ⟨rfl, -, hd⟩
    · rw [hd]
    · rw [hd]
      exact ho
  · rw [h]
    rcases b.cell_store c d (x, q) with hd | ⟨rfl, -, hd⟩
    · rw [hd]
    · rw [hd]
      exact hn

theorem size_le (h : Enrols b b') : b.subscriptions.size ≤ b'.subscriptions.size := by
  cases h with
  | shrink _ _ hs => exact Nat.le_of_eq (congrArg Array.size hs).symm
  | grow _ _ _ _ _ _ _ hs _ => exact hs ▸ Nat.le_succ _

theorem nextId_le (h : Enrols b b') (c : Nat) : (b.cell c).nextId ≤ (b'.cell c).nextId := by
  cases h with
  | shrink _ hn _ => exact Nat.le_of_eq (hn c).symm
  | grow d o hne _ _ hn _ _ _ =>
    by_cases hc : c = d
    · subst hc
      exact hn ▸ Nat.le_succ _
    · exact Nat.le_of_eq (congrArg Cell.nextId (hne c hc)).symm

/-- Who is enrolled afterwards was so before or is new. -/
theorem has (h : Enrols b b') {c : Nat} {o : Listener} (ho : b'.Has c o) :
    b.Has c o ∨ o.id = (b.cell c).nextId ∧ (b'.cell c).nextId = (b.cell c).nextId + 1 ∧
      o.reaction.observer = b.subscriptions.size ∧
      b'.subscriptions.size = b.subscriptions.size + 1 ∧ ∀ d ∈ o.reaction.body, d.Tacit := by
  cases h with
  | shrink hl _ _ => exact .inl ((hl c).mem ho)
  | grow d x hne hl hi hn hs hz hb =>
    by_cases hc : c = d
    · subst hc
      rw [Board.Has, hl] at ho
      rcases List.mem_append.1 ho with ho | ho
      · exact .inl ho
      · obtain rfl := List.mem_singleton.1 ho
        exact .inr ⟨hi, hn, hs, hz, hb⟩
    · rw [Board.Has, hne c hc] at ho
      exact .inl ho

end Enrols

/-- A call enrols one observer at most. -/
theorem Effect.enrols {b b' : Board} {call : Call} (h : Effect b call b') (ht : call.Tacit) :
    Enrols b b' := by
  cases h with
  | write c v a _ =>
    refine .store (c := c) (x := ((b.cell c).set v).1) (q := ((b.cell c).set v).2) ?_ ?_ rfl rfl
    · rw [Cell.observers_set]
    · exact Cell.nextId_set ..
  | notify c a =>
    refine .store (c := c) (x := (b.cell c).notify.1) (q := (b.cell c).notify.2) ?_ ?_ rfl rfl
    · rw [Cell.observers_notify]
    · exact Cell.nextId_notify _
  | @observe c accepts once body a hc =>
    have hself := Board.cell_store_self (b := b)
      (r := ((b.cell c).observe ⟨b.subscriptions.size, body⟩ accepts once, false)) hc
    refine .grow c ⟨(b.cell c).nextId, ⟨b.subscriptions.size, body⟩, accepts, once⟩
      (fun d hd => ?_) ?_ rfl ?_ rfl (Array.size_push ..) fun d hd => ht.of_mem_body hd
    · exact Board.cell_store_of_ne hd
    · exact congrArg Cell.observers hself
    · exact congrArg Cell.nextId hself
  | @unobserve c k id a _ =>
    exact .store (c := c) (x := (b.cell c).unobserve id) (q := false) List.filter_sublist rfl rfl
      rfl
  | idle a _ _ => exact .of_eq rfl rfl

/-- What the numbers of the observers say. -/
structure Roll (b : Board) : Prop where
  /-- Each observer of a cell has another number there. -/
  nodup : ∀ c, ((b.cell c).observers.map Observer.id).Nodup
  /-- These numbers have been given out. -/
  ids : ∀ {c o}, b.Has c o → o.id < (b.cell c).nextId
  /-- So have the numbers among all observers. -/
  numbers : ∀ {c o}, b.Has c o → o.reaction.observer < b.subscriptions.size
  /-- Each of all observers has another number. -/
  unique : ∀ {c d o o'}, b.Has c o → b.Has d o' → o.reaction.observer = o'.reaction.observer →
    c = d ∧ o = o'
  /-- Observers do not run the microtasks. -/
  bodies : ∀ {c o}, b.Has c o → ∀ d ∈ o.reaction.body, d.Tacit
  /-- Whoever heard a value has a number. -/
  events : ∀ e ∈ b.events, e.observer < b.subscriptions.size

namespace Roll

variable {b b' : Board}

/-- In a cell an observer is told by its number. -/
theorem eq_of_id_eq (h : Roll b) {c : Nat} {o o' : Listener} (ho : b.Has c o) (ho' : b.Has c o')
    (hi : o.id = o'.id) : o = o' :=
  List.inj_on_of_nodup_map (h.nodup c) ho ho' hi

theorem of_enrols (h : Roll b) (he : Enrols b b')
    (hev : ∀ e ∈ b'.events, e ∈ b.events ∨ e.observer < b.subscriptions.size) : Roll b' where
  nodup c := by
    cases he with
    | shrink hl _ _ => exact ((hl c).map Observer.id).nodup (h.nodup c)
    | grow d o hne hl hi _ _ _ _ =>
      by_cases hc : c = d
      · subst hc
        rw [hl, List.map_append, List.nodup_append]
        refine ⟨h.nodup c, List.pairwise_singleton _ _, fun x hx y hy => ?_⟩
        obtain ⟨o', ho', rfl⟩ := List.mem_map.1 hx
        rw [List.mem_singleton.1 hy, hi]
        exact Nat.ne_of_lt (h.ids ho')
      · rw [hne c hc]
        exact h.nodup c
  ids ho := by
    rcases he.has ho with ho | ⟨hi, hn, -⟩
    · exact Nat.lt_of_lt_of_le (h.ids ho) (he.nextId_le _)
    · rw [hi, hn]
      exact Nat.lt_succ_self _
  numbers ho := by
    rcases he.has ho with ho | ⟨-, -, hs, hz, -⟩
    · exact Nat.lt_of_lt_of_le (h.numbers ho) he.size_le
    · rw [hs, hz]
      exact Nat.lt_succ_self _
  unique := by
    intro c d o o' ho ho' hn
    cases he with
    | shrink hl _ _ => exact h.unique ((hl c).mem ho) ((hl d).mem ho') hn
    | grow e x hne hl _ _ hs _ _ =>
      have known {c : Nat} {o : Listener} (ho : b'.Has c o) : b.Has c o ∨ c = e ∧ o = x := by
        by_cases hc : c = e
        · subst hc
          rw [Board.Has, hl] at ho
          exact (List.mem_append.1 ho).imp_right fun hm => ⟨rfl, List.mem_singleton.1 hm⟩
        · rw [Board.Has, hne c hc] at ho
          exact .inl ho
      rcases known ho with ho | ⟨rfl, rfl⟩
      · rcases known ho' with ho' | ⟨rfl, rfl⟩
        · exact h.unique ho ho' hn
        · rw [hs] at hn
          exact absurd hn (Nat.ne_of_lt (h.numbers ho))
      · rcases known ho' with ho' | ⟨rfl, rfl⟩
        · rw [hs] at hn
          exact absurd hn.symm (Nat.ne_of_lt (h.numbers ho'))
        · exact ⟨rfl, rfl⟩
  bodies ho := by
    rcases he.has ho with ho | ⟨-, -, -, -, hb⟩
    · exact h.bodies ho
    · exact hb
  events e hm := by
    rcases hev e hm with hm | hm
    · exact Nat.lt_of_lt_of_le (h.events e hm) he.size_le
    · exact Nat.lt_of_lt_of_le hm he.size_le

end Roll

/-- The observer is gone, and nobody has its numbers. -/
structure Gone (b : Board) (c : Nat) (o : Listener) : Prop where
  /-- Its number in the cell has been given out. -/
  id : o.id < (b.cell c).nextId
  /-- So has its number among all observers. -/
  number : o.reaction.observer < b.subscriptions.size
  /-- Nobody in the cell has its number there. -/
  ids : ∀ {o'}, b.Has c o' → o'.id ≠ o.id
  /-- Nobody at all has its number. -/
  numbers : ∀ {d o'}, b.Has d o' → o'.reaction.observer ≠ o.reaction.observer

namespace Enrols

variable {b b' : Board} {c : Nat} {o : Listener}

/-- Who is gone stays gone. -/
theorem gone (he : Enrols b b') (h : Gone b c o) : Gone b' c o where
  id := Nat.lt_of_lt_of_le h.id (he.nextId_le c)
  number := Nat.lt_of_lt_of_le h.number he.size_le
  ids ho := by
    rcases he.has ho with ho | ⟨hi, -⟩
    · exact h.ids ho
    · rw [hi]
      exact Nat.ne_of_gt h.id
  numbers ho := by
    rcases he.has ho with ho | ⟨-, -, hs, -⟩
    · exact h.numbers ho
    · rw [hs]
      exact Nat.ne_of_gt h.number

/-- Who is not there any more is gone. -/
theorem has_or_gone (he : Enrols b b') (h : Roll b) (ho : b.Has c o) :
    b'.Has c o ∨ Gone b' c o := by
  by_cases ho' : b'.Has c o
  · exact .inl ho'
  · refine .inr ⟨Nat.lt_of_lt_of_le (h.ids ho) (he.nextId_le c),
      Nat.lt_of_lt_of_le (h.numbers ho) he.size_le, fun {x} hx hi => ?_, fun {d x} hx hn => ?_⟩
    · rcases he.has hx with hb | ⟨hi', -⟩
      · exact ho' (h.eq_of_id_eq hb ho hi ▸ hx)
      · exact absurd (hi'.symm.trans hi) (Nat.ne_of_gt (h.ids ho))
    · rcases he.has hx with hb | ⟨-, -, hs, -⟩
      · obtain ⟨rfl, rfl⟩ := h.unique hb ho hn
        exact ho' hx
      · exact absurd (hs.symm.trans hn) (Nat.ne_of_gt (h.numbers ho))

end Enrols

namespace Moves

variable {m m' : Machine Board Task}

theorem enrols (h : Moves m m') : Enrols m.world m'.world := by
  cases h with
  | call _ ht he _ _ => exact he.enrols ht
  | @deliver b c =>
    exact .store (c := c) (x := (b.cell c).beginDelivery.1) (q := false) (.refl _) rfl rfl rfl
  | @hear b c o v l _ _ =>
    refine .store (c := c) (x := if o.once then (b.cell c).unobserve o.id else b.cell c)
      (q := false) ?_ ?_ rfl rfl
    · split
      · exact List.filter_sublist
      · exact .refl _
    · split <;> rfl
  | _ => exact .of_eq rfl rfl

/-- The observer that hears a value in this step. -/
theorem events (h : Moves m m') : m'.world.events = m.world.events ∨
    ∃ c o v l, m.agenda = .perform (.hear c o.id v) :: hearing c v l ∧ m.world.Has c o ∧
      o.accepts v = true ∧ m'.world.events = m.world.events.push ⟨o.reaction.observer, c, v⟩ := by
  cases h with
  | call _ _ he _ _ => cases he <;> exact .inl rfl
  | hear ho ha => exact .inr ⟨_, _, _, _, rfl, ho, ha, rfl⟩
  | _ => exact .inl rfl

theorem roll (h : Moves m m') (hr : Roll m.world) : Roll m'.world := by
  refine hr.of_enrols h.enrols fun e he => ?_
  rcases h.events with hev | ⟨c, o, v, l, -, ho, -, hev⟩
  · exact .inl (hev ▸ he)
  · rw [hev] at he
    rcases Array.mem_push.1 he with he | rfl
    · exact .inl he
    · exact .inr (hr.numbers ho)

/-- Agendas stay laid out. -/
theorem laid (h : Moves m m') (hr : Roll m.world) : Laid m'.agenda := by
  cases h with
  | rest => exact Underway.rest.laid
  | call _ _ _ ho hl => exact hl.append ho
  | run => exact Underway.drain.laid
  | pop => exact (Underway.deliver _).laid
  | done => exact Underway.rest.laid
  | deliver b c => exact (Underway.hear _ _ _).laid
  | @hear b c o v l ho _ =>
    refine (Underway.hear c v l).laid.append fun x hx => ?_
    obtain ⟨d, hd, rfl⟩ := List.mem_map.1 hx
    exact hr.bodies ho d hd
  | pass => exact (Underway.hear _ _ _).laid

end Moves

/-! ### Deliveries that are queued -/

/-- The task delivers the cell. -/
def Task.isDelivery (c : Nat) : Task → Bool
  | .deliver d => d == c
  | _ => false

/-- The order delivers the cell. -/
def isDelivery (c : Nat) : Order Task → Bool
  | .perform t => t.isDelivery c
  | _ => false

/-- How many deliveries of the cell are queued. -/
def queued (c : Nat) (m : Machine Board Task) : Nat :=
  m.agenda.countP (isDelivery c) + m.world.loop.microtasks.countP (Task.isDelivery c)

/-- What becomes of a cell and its queue when a delivery is asked for, if one is asked for. -/
structure Asks (x : Cell Int64 Reaction) (r : Cell Int64 Reaction × Bool) (asked : Prop) :
    Prop where
  /-- A delivery is queued if one was queued already, or if one is asked for by somebody. -/
  scheduled : r.1.scheduled = true ↔ x.scheduled = true ∨ x.observers ≠ [] ∧ asked
  /-- It is queued only if none was. -/
  queued : r.2 = true ↔ x.scheduled = false ∧ r.1.scheduled = true

theorem asks_notify (x : Cell Int64 Reaction) : Asks x x.notify True := by
  unfold Cell.notify
  cases hs : x.scheduled <;> cases ho : x.observers <;> constructor <;> simp [hs, ho]

theorem asks_set (x : Cell Int64 Reaction) (v : Int64) :
    Asks x (x.set v) ((x.set v).1.value ≠ x.value) := by
  unfold Cell.set
  by_cases hv : x.value = v
  · rw [if_pos hv]
    constructor <;> simp
  · rw [if_neg hv, Cell.value_notify]
    obtain ⟨hs, hq⟩ := asks_notify { x with value := v }
    refine ⟨hs.trans ?_, hq⟩
    simp [Ne.symm hv]

/-- How many deliveries the flag of a cell stands for. -/
def flag (b : Board) (c : Nat) : Nat := (b.cell c).scheduled.toNat

/-- How many deliveries of a cell are among the microtasks. -/
def waiting (b : Board) (c : Nat) : Nat := b.loop.microtasks.countP (Task.isDelivery c)

theorem scheduled_store {b : Board} {c : Nat} {r : Cell Int64 Reaction × Bool} {asked : Prop}
    (h : Asks (b.cell c) r asked) (d : Nat) :
    ((b.store c r).cell d).scheduled = true ↔
      (b.cell d).scheduled = true ∨ (b.cell d).observers ≠ [] ∧ d = c ∧ asked := by
  by_cases hd : d = c
  · subst hd
    simp only [true_and]
    rcases Nat.lt_or_ge d b.cells.size with hs | hs
    · rw [Board.cell_store_self hs]
      exact h.scheduled
    · rcases b.cell_store d d r with he | ⟨-, hlt, -⟩
      · rw [he, Board.cell_of_size_le hs]
        simp
      · exact absurd hlt (Nat.not_lt.2 hs)
  · rw [Board.cell_store_of_ne hd]
    simp [hd]

theorem waiting_store {b : Board} {c : Nat} {r : Cell Int64 Reaction × Bool} {asked : Prop}
    (h : Asks (b.cell c) r asked) (d : Nat) :
    waiting (b.store c r) d + flag b d = waiting b d + flag (b.store c r) d := by
  have hw : waiting (b.store c r) d = waiting b d + (if r.2 ∧ c = d then 1 else 0) := by
    rw [waiting, waiting, Board.store]
    dsimp only
    cases r.2 with
    | true => simp [Loop.queueMicrotask, List.countP_append, List.countP_singleton, Task.isDelivery]
    | false => simp
  rw [hw]
  by_cases hd : c = d
  · subst hd
    rcases Nat.lt_or_ge c b.cells.size with hs | hs
    · rw [flag, flag, Board.cell_store_self hs]
      have hq := h.queued
      have hsch := h.scheduled
      cases hr : r.2 <;> cases hx : (b.cell c).scheduled <;> cases hy : r.1.scheduled <;>
        simp_all
    · have hr : r.2 = false := by
        have hq := h.queued
        have hsch := h.scheduled
        rw [Board.cell_of_size_le hs] at hq hsch
        cases hr : r.2 <;> simp_all
      rw [Board.store_of_size_le hs hr, hr]
      simp
  · rw [flag, flag, Board.cell_store_of_ne (Ne.symm hd)]
    simp [hd]

namespace Effect

variable {b b' : Board} {call : Call}

/-- A call that changes neither values nor flags. -/
theorem scheduled_of_eq {d : Nat} (hs : (b'.cell d).scheduled = (b.cell d).scheduled)
    (hv : (b'.cell d).value = (b.cell d).value) (hn : call ≠ .notify d) :
    (b'.cell d).scheduled = true ↔ (b.cell d).scheduled = true ∨
      (b.cell d).observers ≠ [] ∧ ((b'.cell d).value ≠ (b.cell d).value ∨ call = .notify d) := by
  simp [hs, hv, hn]

/-- After a call a delivery is queued if one was queued, or if the call asked for one. -/
theorem scheduled (h : Effect b call b') (d : Nat) :
    (b'.cell d).scheduled = true ↔ (b.cell d).scheduled = true ∨
      (b.cell d).observers ≠ [] ∧ ((b'.cell d).value ≠ (b.cell d).value ∨ call = .notify d) := by
  cases h with
  | write c v a hcall =>
    have hn : call ≠ .notify d := by
      rintro rfl
      rcases hcall with h | ⟨_, h⟩ <;> cases h
    refine (scheduled_store (asks_set (b.cell c) v) d).trans (or_congr_right ?_)
    refine and_congr_right fun ho => ?_
    by_cases hd : d = c
    · subst hd
      obtain ⟨o, l, hl⟩ := List.exists_cons_of_ne_nil ho
      have ho : b.Has d o := by
        rw [Board.Has, hl]
        exact List.mem_cons_self
      have hv : ((b.store d ((b.cell d).set v)).cell d).value = ((b.cell d).set v).1.value := by
        rw [Board.cell_store_self (Board.lt_size_of_has ho)]
      simp only [true_and, hn, or_false]
      exact (not_congr (by rw [← hv]; rfl))
    · have hv : ((b.store c ((b.cell c).set v)).cell d).value = (b.cell d).value := by
        rw [Board.cell_store_of_ne hd]
      simp only [hd, false_and, hn, or_false, false_iff, not_not]
      exact hv
  | notify c a =>
    refine (scheduled_store (asks_notify (b.cell c)) d).trans (or_congr_right ?_)
    refine and_congr_right fun _ => ?_
    have hv : ((b.store c (b.cell c).notify).cell d).value = (b.cell d).value :=
      Board.map_cell_store Cell.value (Cell.value_notify _) d
    simp only [and_true, Call.notify.injEq, eq_comm (a := c)]
    exact ⟨.inr, fun h => h.resolve_left (not_not.2 hv)⟩
  | @observe c accepts once body a hc =>
    let r := ((b.cell c).observe ⟨b.subscriptions.size, body⟩ accepts once, false)
    exact scheduled_of_eq (Board.map_cell_store (r := r) Cell.scheduled rfl d)
      (Board.map_cell_store (r := r) Cell.value rfl d) nofun
  | @unobserve c k id a _ =>
    let r := ((b.cell c).unobserve id, false)
    exact scheduled_of_eq (Board.map_cell_store (r := r) Cell.scheduled rfl d)
      (Board.map_cell_store (r := r) Cell.value rfl d) nofun
  | idle a hn _ => exact scheduled_of_eq rfl rfl (hn d)

/-- It queues as many deliveries as it sets flags. -/
theorem waiting (h : Effect b call b') (d : Nat) :
    waiting b' d + flag b d = waiting b d + flag b' d := by
  cases h with
  | write c v a _ => exact waiting_store (asks_set (b.cell c) v) d
  | notify c a => exact waiting_store (asks_notify (b.cell c)) d
  | @observe c accepts once body a hc =>
    let r := ((b.cell c).observe ⟨b.subscriptions.size, body⟩ accepts once, false)
    have hs := Board.map_cell_store (r := r) Cell.scheduled rfl d
    exact congrArg (CellProgram.waiting b d + Bool.toNat ·) hs.symm
  | @unobserve c k id a _ =>
    let r := ((b.cell c).unobserve id, false)
    have hs := Board.map_cell_store (r := r) Cell.scheduled rfl d
    exact congrArg (CellProgram.waiting b d + Bool.toNat ·) hs.symm
  | idle a _ _ => rfl

end Effect

end Novella.CellProgram
