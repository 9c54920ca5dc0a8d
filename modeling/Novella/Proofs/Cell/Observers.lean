import Novella.Proofs.Cell.ProgramSteps
import Novella.Proofs.Loop.Since

/-!
# What observers hear

A run of a board is any sequence of steps and calls. Calls may come at any moment, also while an
observer hears a value, but only the host has the microtasks run, when nothing else is left to do.
With a run goes its history, the machines that took a step so far, the last one first.

A change of a cell that somebody observes asks for a delivery, and so does a notification. However
often a delivery is asked for, one is queued, and it gives everyone who observes the cell when it
starts the value of that moment. Together with what is still due to it an observer that takes every
value has therefore got the value of each delivery since it subscribed.

An observer that subscribes while a delivery is going on has no part in it, even if older ones have
not heard the value yet.

## Main definitions

* `Run` — runs of a board with their histories
* `heard`, `due` — what an observer has heard, and what it is about to hear
* `offered`, `expected` — the values offered to an observer, and those that it should hear
* `Orderly` — what holds of histories and boards

## Main results

* `prospect_step` — one step gives an observer the value of a delivery that starts, and nothing else
* `orderly_of_run` — deliveries lose and repeat nothing
-/

namespace Novella.CellProgram

/-! ### What a machine does next -/

/-- A delivery of the cell starts. -/
def Delivers (c : Nat) (m : Machine Board Task) : Prop :=
  ∃ rest, m.agenda = .perform (.deliver c) :: rest

/-- The call that is made. -/
def call? (m : Machine Board Task) : Option Call :=
  match m.agenda with
  | .perform (.call _ c) :: _ => some c
  | .perform (.request c) :: _ => some c
  | _ => none

/-- Somebody observes the cell, and it changes or is to be delivered anyway. -/
def AsksFor (c : Nat) (m : Machine Board Task) : Prop :=
  (m.world.cell c).observers ≠ [] ∧
    ((m.step.world.cell c).value ≠ (m.world.cell c).value ∨ call? m = some (.notify c))

/-- The observer subscribes. -/
def Joins (c : Nat) (o : Listener) (m : Machine Board Task) : Prop :=
  ¬ m.world.Has c o ∧ m.step.world.Has c o

/-- The observer is unsubscribed, and the call says so. -/
def Dismisses (c : Nat) (o : Listener) (m : Machine Board Task) : Prop :=
  m.world.Has c o ∧ ∃ k, call? m = some (.unobserve c k) ∧ m.world.subscriptions[k]? = some o.id

/-- The value that is offered to an observer. -/
def offer? (c id : Nat) (m : Machine Board Task) : Option Int64 :=
  match m.agenda with
  | .perform (.hear d i v) :: _ =>
    if d = c ∧ i = id ∧ (m.world.cell c).isSubscribed id then some v else none
  | _ => none

/-- The values offered to an observer so far. -/
def offered (c id : Nat) : List (Machine Board Task) → List Int64
  | [] => []
  | m :: h => offered c id h ++ (offer? c id m).toList

/-- Of the values offered, those that an observer should hear. -/
def expected (o : Listener) (l : List Int64) : List Int64 :=
  if o.once then (l.find? o.accepts).toList else l.filter o.accepts

/-- The values that an observer has heard. -/
def heard (b : Board) (o : Listener) : List Int64 :=
  b.events.toList.filterMap
    (fun e => if e.observer = o.reaction.observer then some e.value else none)

/-- The value that an order has an observer hear. -/
def value? (c id : Nat) : Order Task → Option Int64
  | .perform (.hear d i v) => if d = c ∧ i = id then some v else none
  | _ => none

/-- The values that an observer is about to hear. -/
def due (c : Nat) (o : Listener) (agenda : List (Order Task)) : List Int64 :=
  agenda.filterMap (value? c o.id)

/-- What an observer has heard and is about to hear. -/
def prospect (c : Nat) (o : Listener) (m : Machine Board Task) : List Int64 :=
  heard m.world o ++ due c o m.agenda

/-- The value of a cell whose delivery starts. -/
def started (c : Nat) (m : Machine Board Task) : List Int64 :=
  match m.agenda with
  | .perform (.deliver d) :: _ => if d = c then [(m.world.cell c).value] else []
  | _ => []

/-! ### Runs -/

/-- A machine is reached from another one by steps, by calls at any moment, and by the host having
the microtasks run. The list holds the machines that took a step, the last one first. -/
inductive Run (m₀ : Machine Board Task) :
    List (Machine Board Task) → Machine Board Task → Prop where
  /-- Nothing has happened yet. -/
  | start : Run m₀ [] m₀
  /-- The machine takes a step. -/
  | step {h : List (Machine Board Task)} {m : Machine Board Task} :
      Run m₀ h m → Run m₀ (m :: h) m.step
  /-- A call is made, be it by an observer or by the host. -/
  | call {h : List (Machine Board Task)} {b : Board} {agenda : List (Order Task)} (v : Int64)
      {c : Call} : Run m₀ h ⟨b, agenda⟩ → c.Tacit → Run m₀ h ⟨b, .perform (.call v c) :: agenda⟩
  /-- The host makes a call when nothing is left to do. It may have the microtasks run. -/
  | request {h : List (Machine Board Task)} {b : Board} {c : Call} :
      Run m₀ h ⟨b, []⟩ → c.Tacit ∨ c = .run → Run m₀ h ⟨b, [.perform (.request c)]⟩

/-! ### What is due -/

section Due

variable {c d : Nat} {o : Listener} {v : Int64} {agenda agenda' : List (Order Task)}

@[simp] theorem due_nil : due c o [] = [] := rfl

@[simp] theorem due_append : due c o (agenda ++ agenda') = due c o agenda ++ due c o agenda' :=
  List.filterMap_append

theorem due_cons (x : Order Task) :
    due c o (x :: agenda) = (value? c o.id x).toList ++ due c o agenda := by
  rw [due, List.filterMap_cons]
  cases value? c o.id x <;> rfl

theorem due_calls (h : ∀ x ∈ agenda, IsCall x) : due c o agenda = [] := by
  rw [due, List.filterMap_eq_nil_iff]
  intro x hx
  have hc := h x hx
  unfold IsCall at hc
  split at hc
  · rfl
  · rfl
  · exact hc.elim

theorem due_cons_of_isCall {x : Order Task} (hx : IsCall x) :
    due c o (x :: agenda) = due c o agenda := by
  have hone : ∀ y ∈ [x], IsCall y := fun y hy => List.mem_singleton.1 hy ▸ hx
  rw [← List.singleton_append, due_append, due_calls hone]
  rfl

theorem due_hearing_of_ne (h : d ≠ c) (l : List Listener) : due c o (hearing d v l) = [] := by
  rw [due, List.filterMap_eq_nil_iff]
  intro x hx
  rcases List.mem_append.1 hx with hx | hx
  · obtain ⟨y, -, rfl⟩ := List.mem_map.1 hx
    exact if_neg fun he => h he.1
  · rw [List.mem_singleton.1 hx]
    rfl

theorem due_hearing_cons (x : Listener) (l : List Listener) :
    due c o (hearing c v (x :: l)) =
      (if x.id = o.id then [v] else []) ++ due c o (hearing c v l) := by
  rw [show hearing c v (x :: l) = .perform (.hear c x.id v) :: hearing c v l from rfl, due_cons]
  by_cases hi : x.id = o.id <;> simp [value?, hi]

theorem due_hearing_of_forall_ne {l : List Listener} (h : ∀ x ∈ l, x.id ≠ o.id) :
    due c o (hearing c v l) = [] := by
  induction l with
  | nil => rfl
  | cons x l ih =>
    obtain ⟨hx, hl⟩ := List.forall_mem_cons.1 h
    rw [due_hearing_cons, if_neg hx, ih hl]
    rfl

/-- Everyone hears the value of a delivery once. -/
theorem due_hearing_self {l : List Listener} (hn : (l.map Observer.id).Nodup) (ho : o ∈ l) :
    due c o (hearing c v l) = [v] := by
  induction l with
  | nil => exact absurd ho List.not_mem_nil
  | cons x l ih =>
    rw [List.map_cons, List.nodup_cons] at hn
    rw [due_hearing_cons]
    rcases List.mem_cons.1 ho with rfl | ho
    · have hne : ∀ x ∈ l, x.id ≠ o.id := fun x hx hi => hn.1 (hi ▸ List.mem_map_of_mem hx)
      rw [if_pos rfl, due_hearing_of_forall_ne hne]
      rfl
    · have hne : x.id ≠ o.id := fun hi => hn.1 (hi ▸ List.mem_map_of_mem ho)
      rw [if_neg hne, ih hn.2 ho]
      rfl

end Due

/-! ### One step -/

section Step

variable {m m' : Machine Board Task} {c : Nat} {o : Listener}

theorem heard_told (b : Board) (d : Nat) (x o : Listener) (v : Int64) :
    heard (b.told d x v) o =
      heard b o ++ if x.reaction.observer = o.reaction.observer then [v] else [] := by
  simp only [heard, Board.told, Array.toList_push, List.filterMap_append]
  by_cases hk : x.reaction.observer = o.reaction.observer <;> simp [hk]

theorem heard_of_events {b b' : Board} (h : b'.events = b.events) : heard b' o = heard b o := by
  rw [heard, heard, h]

theorem Effect.events {b b' : Board} {call : Call} (h : Effect b call b') :
    b'.events = b.events := by
  cases h <;> rfl

theorem isCall_of_eq {x : Order Task} {call : Call}
    (h : x = .perform (.request call) ∨ ∃ v, x = .perform (.call v call)) (ht : call.Tacit) :
    IsCall x := by
  rcases h with rfl | ⟨v, rfl⟩ <;> exact ht

/-- An observer has the same number in its cell as another one of that cell if and only if both
have the same number among all. -/
theorem Roll.eq_number_iff {b : Board} (hr : Roll b) {d : Nat} {x : Listener} (hx : b.Has d x)
    (ho : b.Has c o) : d = c ∧ x.id = o.id ↔ x.reaction.observer = o.reaction.observer := by
  constructor
  · rintro ⟨rfl, hi⟩
    rw [hr.eq_of_id_eq hx ho hi]
  · intro hn
    obtain ⟨rfl, rfl⟩ := hr.unique hx ho hn
    exact ⟨rfl, rfl⟩

theorem Roll.isCall_of_mem_body {b : Board} (hr : Roll b) (ho : b.Has c o) (v : Int64) :
    ∀ x ∈ o.reaction.body.map (fun d => Order.perform (.call v d)), IsCall x := by
  intro x hx
  obtain ⟨d, hd, rfl⟩ := List.mem_map.1 hx
  exact hr.bodies ho d hd

/-- An observer is found by its number. -/
theorem Roll.find? {b : Board} (hr : Roll b) (ho : b.Has c o) :
    (b.cell c).observers.find? (fun x => x.id = o.id) = some o := by
  cases hf : (b.cell c).observers.find? (fun x => x.id = o.id) with
  | none => exact absurd (decide_eq_true rfl) (List.find?_eq_none.1 hf o ho)
  | some x =>
    have hi : x.id = o.id := by simpa using List.find?_some hf
    rw [hr.eq_of_id_eq (List.mem_of_find?_eq_some hf) ho hi]

/-- A step gives an observer that takes every value the value of a delivery that starts, and
nothing else. -/
theorem prospect_step (h : Moves m m') (hr : Roll m.world) (ho : m.world.Has c o)
    (ha : ∀ v, o.accepts v = true) : prospect c o m' = prospect c o m ++ started c m := by
  cases h with
  | rest b => exact (List.append_nil _).symm
  | @call b b' x call orders rest hx ht he hord hl =>
    have hs : started c ⟨b, x :: rest⟩ = [] := by
      rcases hx with rfl | ⟨v, rfl⟩ <;> rfl
    rw [hs, List.append_nil, prospect, prospect, due_append, due_calls hord,
      due_cons_of_isCall (isCall_of_eq hx ht)]
    exact congrArg (· ++ due c o rest) (heard_of_events he.events)
  | run b => exact (List.append_nil _).symm
  | pop _ => exact (List.append_nil _).symm
  | done _ => exact (List.append_nil _).symm
  | deliver b d =>
    have hd : due c o [.perform (.deliver d), .drain] = [] := rfl
    have hh : heard (b.store d ((b.cell d).beginDelivery.1, false)) o = heard b o := rfl
    have hs : started c ⟨b, [.perform (.deliver d), .drain]⟩ =
      if d = c then [(b.cell c).value] else [] := rfl
    rw [prospect, prospect, hd, hs, hh, List.append_nil]
    by_cases hc : d = c
    · subst hc
      rw [due_hearing_self (hr.nodup d) ho, if_pos rfl]
    · rw [due_hearing_of_ne hc, if_neg hc]
  | @hear b d x v l hx hv =>
    have hs : started c ⟨b, .perform (.hear d x.id v) :: hearing d v l⟩ = [] := rfl
    have hh := heard_told b d x o v
    rw [hs, List.append_nil, prospect, prospect, due_append, due_calls (hr.isCall_of_mem_body hx v),
      due_cons, hh]
    by_cases hn : x.reaction.observer = o.reaction.observer
    · rw [if_pos hn, value?, if_pos ((hr.eq_number_iff hx ho).2 hn)]
      exact List.append_assoc ..
    · rw [if_neg hn, value?, if_neg fun he => hn ((hr.eq_number_iff hx ho).1 he), List.append_nil]
      rfl
  | @pass b d id v l hp =>
    have hs : started c ⟨b, .perform (.hear d id v) :: hearing d v l⟩ = [] := rfl
    have hne : ¬ (d = c ∧ id = o.id) := by
      rintro ⟨rfl, rfl⟩
      cases (hp o (hr.find? ho)).symm.trans (ha v)
    rw [hs, List.append_nil, prospect, prospect, due_cons, value?, if_neg hne]
    rfl

theorem Board.Has.isSubscribed {b : Board} (ho : b.Has c o) :
    (b.cell c).isSubscribed o.id = true :=
  List.any_eq_true.2 ⟨o, ho, decide_eq_true rfl⟩

theorem Gone.not_isSubscribed {b : Board} (h : Gone b c o) :
    (b.cell c).isSubscribed o.id = false := by
  refine List.any_eq_false.2 fun x hx => ?_
  rw [decide_eq_true_iff]
  exact h.ids hx

/-- What is offered to an observer it hears if it wants it, and if it is a once observer it is gone
then. Nothing else is heard. -/
theorem heard_step (h : Moves m m') (hr : Roll m.world) (ho : m.world.Has c o) :
    (∃ v, offer? c o.id m = some v ∧ o.accepts v = true ∧
        heard m'.world o = heard m.world o ++ [v] ∧ (o.once = true → ¬ m'.world.Has c o)) ∨
      (∀ v, offer? c o.id m = some v → o.accepts v = false) ∧
        heard m'.world o = heard m.world o := by
  cases h with
  | rest b => exact .inr ⟨nofun, rfl⟩
  | call hx _ he _ _ =>
    refine .inr ⟨?_, heard_of_events he.events⟩
    rcases hx with rfl | ⟨v, rfl⟩ <;> exact nofun
  | run b => exact .inr ⟨nofun, rfl⟩
  | pop _ => exact .inr ⟨nofun, rfl⟩
  | done _ => exact .inr ⟨nofun, rfl⟩
  | deliver b d => exact .inr ⟨nofun, rfl⟩
  | @hear b d x v l hx hv =>
    have hh := heard_told b d x o v
    by_cases hn : x.reaction.observer = o.reaction.observer
    · rw [if_pos hn] at hh
      obtain ⟨rfl, rfl⟩ := hr.unique hx ho hn
      refine .inl ⟨v, if_pos ⟨rfl, rfl, ho.isSubscribed⟩, hv, hh, fun honce hmem => ?_⟩
      have hc : (b.store d (if x.once then (b.cell d).unobserve x.id else b.cell d, false)).cell d =
          (b.cell d).unobserve x.id := by
        rw [Board.cell_store_self (Board.lt_size_of_has hx), honce]
        rfl
      have hmem : x ∈ ((b.cell d).unobserve x.id).observers := hc ▸ hmem
      exact of_decide_eq_true (List.mem_filter.1 hmem).2 rfl
    · rw [if_neg hn, List.append_nil] at hh
      refine .inr ⟨fun w hw => ?_, hh⟩
      have hne : ¬ (d = c ∧ x.id = o.id ∧ (b.cell c).isSubscribed o.id = true) :=
        fun he => hn ((hr.eq_number_iff hx ho).1 ⟨he.1, he.2.1⟩)
      cases (if_neg hne).symm.trans hw
  | @pass b d id v l hp =>
    refine .inr ⟨fun w hw => ?_, rfl⟩
    by_cases he : d = c ∧ id = o.id ∧ (b.cell c).isSubscribed o.id = true
    · have hid := he
      obtain ⟨rfl, rfl, -⟩ := hid
      obtain rfl : v = w := Option.some.inj ((if_pos he).symm.trans hw)
      exact hp o (hr.find? ho)
    · cases (if_neg he).symm.trans hw

/-- An observer that is gone is offered nothing and hears nothing. -/
theorem heard_of_gone (h : Moves m m') (hg : Gone m.world c o) :
    offer? c o.id m = none ∧ heard m'.world o = heard m.world o := by
  have never {b : Board} {d id : Nat} (hg : Gone b c o) :
      ¬ (d = c ∧ id = o.id ∧ (b.cell c).isSubscribed o.id = true) := by
    rintro ⟨-, -, hs⟩
    rw [hg.not_isSubscribed] at hs
    cases hs
  cases h with
  | rest b => exact ⟨rfl, rfl⟩
  | call hx _ he _ _ =>
    refine ⟨?_, heard_of_events he.events⟩
    rcases hx with rfl | ⟨v, rfl⟩ <;> rfl
  | run b => exact ⟨rfl, rfl⟩
  | pop _ => exact ⟨rfl, rfl⟩
  | done _ => exact ⟨rfl, rfl⟩
  | deliver b d => exact ⟨rfl, rfl⟩
  | @hear b d x v l hx hv =>
    have hh := heard_told b d x o v
    rw [if_neg (hg.numbers hx), List.append_nil] at hh
    exact ⟨if_neg (never hg), hh⟩
  | pass _ => exact ⟨if_neg (never hg), rfl⟩

/-! ### Deliveries -/

theorem started_of_delivers (hd : Delivers c m) : started c m = [(m.world.cell c).value] := by
  obtain ⟨rest, hd⟩ := hd
  rw [started, hd]
  exact if_pos rfl

theorem started_of_not_delivers (hd : ¬ Delivers c m) : started c m = [] := by
  rw [started]
  split
  · next d rest he =>
    refine if_neg ?_
    rintro rfl
    exact hd ⟨rest, he⟩
  · rfl

theorem flag_of_deliver (b : Board) (d : Nat) :
    ((b.store d ((b.cell d).beginDelivery.1, false)).cell d).scheduled = false := by
  rcases Nat.lt_or_ge d b.cells.size with hlt | hle
  · rw [Board.cell_store_self hlt]
    rfl
  · rw [Board.store_of_size_le hle rfl, Board.cell_of_size_le hle]

/-- A delivery is queued if it was queued or has just been asked for, unless it starts. -/
theorem scheduled_step (h : Moves m m') (c : Nat) :
    (m'.world.cell c).scheduled = true ↔ ¬ Delivers c m ∧ ((m.world.cell c).scheduled = true ∨
      (m.world.cell c).observers ≠ [] ∧
        ((m'.world.cell c).value ≠ (m.world.cell c).value ∨ call? m = some (.notify c))) := by
  -- most steps neither start a delivery nor ask for one
  have same (hd : ¬ Delivers c m) (hn : call? m ≠ some (.notify c))
      (hs : (m'.world.cell c).scheduled = (m.world.cell c).scheduled)
      (hv : (m'.world.cell c).value = (m.world.cell c).value) :
      (m'.world.cell c).scheduled = true ↔ ¬ Delivers c m ∧ ((m.world.cell c).scheduled = true ∨
        (m.world.cell c).observers ≠ [] ∧
          ((m'.world.cell c).value ≠ (m.world.cell c).value ∨ call? m = some (.notify c))) := by
    simp [hd, hn, hs, hv]
  cases h with
  | rest b => exact same nofun nofun rfl rfl
  | @call b b' x call orders rest hx ht he hord hl =>
    have hd : ¬ Delivers c ⟨b, x :: rest⟩ := by
      rintro ⟨_, hd⟩
      rcases hx with rfl | ⟨v, rfl⟩ <;> cases hd
    have hcall : call? ⟨b, x :: rest⟩ = some call := by
      rcases hx with rfl | ⟨v, rfl⟩ <;> rfl
    rw [hcall, Option.some.injEq]
    exact (he.scheduled c).trans ⟨fun h => ⟨hd, h⟩, And.right⟩
  | run b => exact same nofun nofun rfl rfl
  | pop _ => exact same nofun nofun rfl rfl
  | done _ => exact same nofun nofun rfl rfl
  | deliver b d =>
    by_cases hc : d = c
    · subst hc
      refine iff_of_false (fun ht => ?_) fun hn => hn.1 ⟨_, rfl⟩
      exact Bool.false_ne_true ((flag_of_deliver b d).symm.trans ht)
    · have he := Board.cell_store_of_ne (b := b) (r := ((b.cell d).beginDelivery.1, false))
        (Ne.symm hc)
      refine same ?_ nofun (congrArg Cell.scheduled he) (congrArg Cell.value he)
      rintro ⟨_, hd⟩
      cases hd
      exact hc rfl
  | @hear b d x v l hx hv =>
    exact same nofun nofun (Board.map_cell_told Cell.scheduled rfl v c)
      (Board.map_cell_told Cell.value rfl v c)
  | pass _ => exact same nofun nofun rfl rfl

/-- A delivery leaves the value as it is. -/
theorem value_of_delivers (h : Moves m m') (hd : Delivers c m) :
    (m'.world.cell c).value = (m.world.cell c).value := by
  obtain ⟨rest, hd⟩ := hd
  cases h with
  | deliver b d =>
    exact Board.map_cell_store (r := ((b.cell d).beginDelivery.1, false)) Cell.value rfl c
  | call hx _ _ _ _ => rcases hx with rfl | ⟨v, rfl⟩ <;> cases hd
  | _ => cases hd

theorem countP_calls {orders : List (Order Task)} (h : ∀ x ∈ orders, IsCall x) (c : Nat) :
    orders.countP (isDelivery c) = 0 := by
  rw [List.countP_eq_zero]
  intro x hx
  have hc := h x hx
  unfold IsCall at hc
  split at hc
  · exact Bool.false_ne_true
  · exact Bool.false_ne_true
  · exact hc.elim

theorem countP_hearing (c d : Nat) (v : Int64) (l : List Listener) :
    (hearing d v l).countP (isDelivery c) = 0 := by
  rw [List.countP_eq_zero]
  intro x hx
  rcases List.mem_append.1 hx with hx | hx
  · obtain ⟨y, -, rfl⟩ := List.mem_map.1 hx
    exact Bool.false_ne_true
  · rw [List.mem_singleton.1 hx]
    exact Bool.false_ne_true

/-- The flag of a cell goes on to count what is queued. -/
theorem queued_step (h : Moves m m') (hr : Roll m.world) (hq : queued c m = flag m.world c) :
    queued c m' = flag m'.world c := by
  cases h with
  | rest b => exact hq
  | @call b b' x call orders rest hx ht he hord hl =>
    have hw := he.waiting c
    have hx : [x].countP (isDelivery c) = 0 := countP_calls (fun y hy => by
      rw [List.mem_singleton.1 hy]
      exact isCall_of_eq hx ht) c
    have hcons : (x :: rest).countP (isDelivery c) = rest.countP (isDelivery c) := by
      rw [← List.singleton_append, List.countP_append, hx, Nat.zero_add]
    simp only [queued, hcons, List.countP_append, countP_calls hord c] at hq ⊢
    simp only [waiting] at hw
    omega
  | run b => exact hq
  | @pop b d ts hb =>
    have hw : waiting b c = (if d = c then 1 else 0) + ts.countP (Task.isDelivery c) := by
      rw [waiting, hb, List.countP_cons, Nat.add_comm]
      simp [Task.isDelivery]
    have hd : [Order.perform (Task.deliver d), .drain].countP (isDelivery c) =
        if d = c then 1 else 0 := by
      simp [List.countP_cons, isDelivery, Task.isDelivery]
    change 0 + waiting b c = flag b c at hq
    change [Order.perform (Task.deliver d), .drain].countP (isDelivery c) +
      ts.countP (Task.isDelivery c) = flag b c
    omega
  | done _ => exact hq
  | deliver b d =>
    have hw : waiting (b.store d ((b.cell d).beginDelivery.1, false)) c = waiting b c := rfl
    have hd : [Order.perform (Task.deliver d), .drain].countP (isDelivery c) =
        if d = c then 1 else 0 := by
      simp [List.countP_cons, isDelivery, Task.isDelivery]
    change [Order.perform (Task.deliver d), .drain].countP (isDelivery c) + waiting b c =
      flag b c at hq
    change (hearing _ _ _).countP _ + waiting (b.store d _) c = flag _ c
    rw [countP_hearing, Nat.zero_add, hw]
    rw [hd] at hq
    by_cases hc : d = c
    · subst hc
      -- the delivery that starts was the only one
      have hle := Bool.toNat_le (b.cell d).scheduled
      rw [if_pos rfl, flag] at hq
      rw [flag, flag_of_deliver, Bool.toNat_false]
      omega
    · rw [if_neg hc, Nat.zero_add] at hq
      rw [flag, Board.cell_store_of_ne (Ne.symm hc)]
      exact hq
  | @hear b d x v l hx hv =>
    have hs := congrArg Bool.toNat
      (Board.map_cell_told (b := b) (c := d) (o := x) Cell.scheduled rfl v c)
    change (.perform (.hear d x.id v) :: hearing d v l).countP (isDelivery c) + waiting b c =
      flag b c at hq
    rw [List.countP_cons_of_neg Bool.false_ne_true, countP_hearing] at hq
    refine Eq.trans ?_ (hq.trans hs.symm)
    refine congrArg (· + waiting b c) ?_
    rw [List.countP_append, countP_calls (hr.isCall_of_mem_body hx v), countP_hearing]
  | pass _ =>
    rw [queued, List.countP_cons_of_neg Bool.false_ne_true] at hq
    exact hq

theorem onlyDelivers_of_store {b : Board} (h : OnlyDelivers b) (c : Nat)
    (r : Cell Int64 Reaction × Bool) : OnlyDelivers (b.store c r) := by
  intro t ht
  rw [Board.store] at ht
  dsimp only at ht
  split at ht
  · rcases List.mem_append.1 ht with ht | ht
    · exact h t ht
    · exact ⟨c, List.mem_singleton.1 ht⟩
  · exact h t ht

theorem onlyDelivers_step (h : Moves m m') (ho : OnlyDelivers m.world) : OnlyDelivers m'.world := by
  cases h with
  | call _ _ he _ _ =>
    cases he with
    | idle => exact ho
    | _ => exact onlyDelivers_of_store ho _ _
  | pop hb => exact fun t ht => ho t (hb ▸ List.mem_cons_of_mem _ ht)
  | _ => exact ho

/-- Who subscribes has nothing due, and no delivery starts then. -/
theorem due_of_joins (h : Moves m m') (hn : ¬ m.world.Has c o) (ho : m'.world.Has c o) :
    due c o m'.agenda = due c o m.agenda ∧ ¬ Delivers c m := by
  rcases h.enrols.has ho with hb | ⟨-, -, -, hz, -⟩
  · exact absurd hb hn
  · -- only a call makes room for another observer
    cases h with
    | @call b b' x call orders rest hx ht he hord hl =>
      refine ⟨?_, ?_⟩
      · rw [due_append, due_calls hord, due_cons_of_isCall (isCall_of_eq hx ht)]
        rfl
      · rintro ⟨_, hd⟩
        rcases hx with rfl | ⟨v, rfl⟩ <;> cases hd
    | _ => exact absurd hz (Nat.ne_of_lt (Nat.lt_succ_self _))

/-- Only those hear a value who have subscribed. -/
def Fresh (m : Machine Board Task) : Prop :=
  ∀ c id v, .perform (.hear c id v) ∈ m.agenda → id < (m.world.cell c).nextId

theorem Fresh.due (hf : Fresh m) (hi : (m.world.cell c).nextId ≤ o.id) : due c o m.agenda = [] := by
  rw [CellProgram.due, List.filterMap_eq_nil_iff]
  intro x hx
  unfold value?
  split
  · refine if_neg ?_
    rintro ⟨rfl, rfl⟩
    exact absurd (hf _ _ _ hx) (Nat.not_lt.2 hi)
  · rfl

theorem Fresh.step (h : Moves m m') (hr : Roll m.world) (hf : Fresh m) : Fresh m' := by
  intro c id v hx
  refine Nat.lt_of_lt_of_le ?_ (h.enrols.nextId_le c)
  cases h with
  | @call b b' x call orders rest _ _ he hord hl =>
    rcases List.mem_append.1 hx with hx | hx
    · exact (hord _ hx).elim
    · exact hf _ _ _ (List.mem_cons_of_mem _ hx)
  | deliver b d =>
    rcases List.mem_append.1 hx with hx | hx
    · obtain ⟨o, ho, he⟩ := List.mem_map.1 hx
      cases he
      exact hr.ids ho
    · cases List.mem_singleton.1 hx
  | @hear b d x w l ho _ =>
    rcases List.mem_append.1 hx with hx | hx
    · exact (hr.isCall_of_mem_body ho w _ hx).elim
    · exact hf _ _ _ (List.mem_cons_of_mem _ hx)
  | pass => exact hf _ _ _ (List.mem_cons_of_mem _ hx)
  | rest => exact absurd hx List.not_mem_nil
  | run => cases List.mem_singleton.1 hx
  | pop =>
    rcases List.mem_cons.1 hx with hx | hx
    · cases hx
    · cases List.mem_singleton.1 hx
  | done => exact absurd hx List.not_mem_nil

theorem not_delivers_of_asksFor (h : Moves m m.step) (ha : AsksFor c m) : ¬ Delivers c m := by
  intro hd
  rcases ha.2 with hv | hn
  · exact hv (value_of_delivers h hd)
  · obtain ⟨rest, hd⟩ := hd
    rw [call?, hd] at hn
    cases hn

theorem agenda_of_delivers (h : Moves m m') (hd : Delivers c m) :
    m'.agenda = hearing c (m.world.cell c).value (m.world.cell c).observers := by
  obtain ⟨rest, hd⟩ := hd
  cases h with
  | deliver b d =>
    cases hd
    rfl
  | call hx _ _ _ _ => rcases hx with rfl | ⟨v, rfl⟩ <;> cases hd
  | _ => cases hd

theorem queued_ne_zero_of_delivers (hd : Delivers c m) : queued c m ≠ 0 := by
  obtain ⟨rest, hd⟩ := hd
  have hp : isDelivery c (.perform (.deliver c)) = true := beq_self_eq_true c
  rw [queued, hd, List.countP_cons_of_pos hp]
  omega

theorem heard_of_call (h : Moves m m') (hc : call? m ≠ none) :
    heard m'.world o = heard m.world o := by
  rcases h.events with he | ⟨d, x, v, l, ha, -⟩
  · exact heard_of_events he
  · refine absurd ?_ hc
    rw [call?, ha]

/-- Who is unsubscribed is gone. -/
theorem gone_of_dismisses (h : Moves m m') (hr : Roll m.world) (hd : Dismisses c o m) :
    Gone m'.world c o := by
  obtain ⟨ho, k, hk, hid⟩ := hd
  refine (h.enrols.has_or_gone hr ho).resolve_left fun ho' => ?_
  cases h with
  | @call b b' x call orders rest hx ht he hord hl =>
    have hcall : call? ⟨b, x :: rest⟩ = some call := by
      rcases hx with rfl | ⟨v, rfl⟩ <;> rfl
    obtain rfl := Option.some.inj (hcall.symm.trans hk)
    cases he with
    | write _ _ _ hw => rcases hw with hw | ⟨_, hw⟩ <;> cases hw
    | unobserve _ _ hid' =>
      obtain rfl := Option.some.inj (hid'.symm.trans hid)
      have hself := Board.cell_store_self (r := ((b.cell c).unobserve o.id, false))
        (Board.lt_size_of_has ho)
      have ho' : o ∈ ((b.store c ((b.cell c).unobserve o.id, false)).cell c).observers := ho'
      rw [hself] at ho'
      exact of_decide_eq_true (List.mem_filter.1 ho').2 rfl
    | idle _ _ hn => cases (hn c k rfl).symm.trans hid
  | _ => cases hk

end Step

/-! ### Runs in order -/

/-- What holds of a history and the machine that it has led to. -/
structure Orderly (h : List (Machine Board Task)) (m : Machine Board Task) : Prop where
  /-- A cell has one delivery queued if its flag is set, and none otherwise. -/
  queued : ∀ c, queued c m = if (m.world.cell c).scheduled then 1 else 0
  /-- It is set if a delivery was asked for since the last one started. -/
  asked : ∀ c, (m.world.cell c).scheduled = true ↔ Since (fun n => ¬ Delivers c n) (AsksFor c) h
  /-- A delivery that starts was asked for since the last one, and gives everyone who observes the
  cell its value. -/
  delivered : ∀ {g n h' c}, h = g ++ n :: h' → Delivers c n →
    Since (fun n => ¬ Delivers c n) (AsksFor c) h' ∧
      n.step.agenda = hearing c (n.world.cell c).value (n.world.cell c).observers
  /-- When nothing is left to do, an observer that takes every value has got the current one last,
  if a delivery was asked for since it subscribed. -/
  current : m.agenda = [] → m.world.loop.microtasks = [] → ∀ {c o}, m.world.Has c o →
    (∀ v, o.accepts v = true) → (∃ n ∈ h, n.world.Has c o ∧ AsksFor c n) →
    (heard m.world o).getLast? = some (m.world.cell c).value
  /-- Two observers that take every value get the same ones from the later subscription on, but for
  what was still due to the older one at that time. -/
  together : ∀ {g n h' c o o'}, h = g ++ n :: h' → n.world.Has c o → Joins c o' n →
    (∀ v, o.accepts v = true) → (∀ v, o'.accepts v = true) → m.world.Has c o → m.world.Has c o' →
    prospect c o m = prospect c o n ++ prospect c o' m
  /-- An observer that was unsubscribed hears nothing any more. -/
  dismissed : ∀ {n c o}, n ∈ h → Dismisses c o n → heard m.world o = heard n.world o
  /-- An observer hears of what it is offered what it wants, and a once observer the first of it. -/
  heard : ∀ {c o}, (m.world.Has c o ∨ ∃ n ∈ h, n.world.Has c o) →
    heard m.world o = expected o (offered c o.id h)

/-- A run in order, with what carries it on. -/
structure Good (h : List (Machine Board Task)) (m : Machine Board Task) : Prop
    extends Orderly h m where
  /-- The numbers of the observers are in order. -/
  roll : Roll m.world
  /-- The agenda is laid out. -/
  laid : Laid m.agenda
  /-- Only deliveries wait in the loop. -/
  only : OnlyDelivers m.world
  /-- Only those hear a value who have subscribed. -/
  fresh : Fresh m
  /-- Nothing was offered under numbers that are still to be given out. -/
  unoffered : ∀ {c id}, (m.world.cell c).nextId ≤ id → offered c id h = []
  /-- Who was there and is not there any more is gone. -/
  gone : ∀ {n c o}, n ∈ h → n.world.Has c o ∨ n.step.world.Has c o →
    m.world.Has c o ∨ Gone m.world c o
  /-- Who was unsubscribed is gone. -/
  out : ∀ {n c o}, n ∈ h → Dismisses c o n → Gone m.world c o
  /-- A once observer that is still there has not wanted anything that it was offered. -/
  patient : ∀ {c o}, m.world.Has c o → o.once = true →
    ∀ v ∈ offered c o.id h, o.accepts v = false
  /-- If a delivery was asked for since an observer subscribed that takes every value, then one is
  queued, or the current value is the last that it has got or is about to get. -/
  latest : ∀ {c o}, m.world.Has c o → (∀ v, o.accepts v = true) →
    (∃ n ∈ h, n.world.Has c o ∧ AsksFor c n) →
    (m.world.cell c).scheduled = true ∨ (prospect c o m).getLast? = some (m.world.cell c).value

theorem expected_concat_of_accepts {o : Listener} {l : List Int64} {v : Int64}
    (hv : o.accepts v = true) (hl : o.once = true → ∀ w ∈ l, o.accepts w = false) :
    expected o (l ++ [v]) = expected o l ++ [v] := by
  unfold expected
  split
  · next honce =>
    have hnone : l.find? o.accepts = none :=
      List.find?_eq_none.2 fun w hw => by simp [hl honce w hw]
    rw [List.find?_append, hnone]
    simp [hv]
  · simp [List.filter_append, hv]

theorem expected_concat_of_rejects {o : Listener} {l : List Int64} {v : Int64}
    (hv : o.accepts v = false) : expected o (l ++ [v]) = expected o l := by
  unfold expected
  split
  · rw [List.find?_append]
    simp [hv]
  · simp [List.filter_append, hv]

/-- When nothing is left to do no delivery is queued, and what is in prospect has been heard. -/
theorem current_of_latest {m : Machine Board Task}
    (hq : ∀ c, CellProgram.queued c m = if (m.world.cell c).scheduled then 1 else 0)
    (ha : m.agenda = []) (hm : m.world.loop.microtasks = []) {c : Nat} {o : Listener}
    (hl : (m.world.cell c).scheduled = true ∨
      (prospect c o m).getLast? = some (m.world.cell c).value) :
    (CellProgram.heard m.world o).getLast? = some (m.world.cell c).value := by
  have hzero : CellProgram.queued c m = 0 := by
    rw [CellProgram.queued, ha, hm]
    rfl
  rcases hl with hs | hl
  · rw [hq, if_pos hs] at hzero
    cases hzero
  · rwa [prospect, ha, due_nil, List.append_nil] at hl

namespace Good

variable {h : List (Machine Board Task)} {m : Machine Board Task} {c : Nat} {o o' : Listener}

theorem moves (g : Good h m) : Moves m m.step := g.laid.moves g.only

/-- Who was there and still is has been there all the time. -/
theorem has_of_step (g : Good h m) (ho : m.step.world.Has c o) {n : Machine Board Task}
    (hn : n ∈ h) (hhas : n.world.Has c o ∨ n.step.world.Has c o) : m.world.Has c o := by
  refine (g.gone hn hhas).resolve_right fun hg => ?_
  exact (g.moves.enrols.gone hg).ids ho rfl

theorem offered_step_of_le (g : Good h m) {id : Nat} (hi : (m.world.cell c).nextId ≤ id) :
    offered c id (m :: h) = [] := by
  have hnone : offer? c id m = none := by
    unfold offer?
    split
    · refine if_neg ?_
      rintro ⟨-, -, hs⟩
      obtain ⟨o, ho, he⟩ := List.any_eq_true.1 hs
      obtain rfl := of_decide_eq_true he
      exact absurd (g.roll.ids ho) (Nat.not_lt.2 hi)
    · rfl
  rw [offered, g.unoffered hi, hnone]
  rfl

/-- Who joins is new: nothing was offered to it or heard by it, and nothing is due. -/
theorem joins_step (g : Good h m) (hj : Joins c o m) :
    heard m.step.world o = [] ∧ due c o m.step.agenda = [] ∧ offered c o.id (m :: h) = [] ∧
      ¬ Delivers c m := by
  obtain ⟨hd, hn⟩ := due_of_joins g.moves hj.1 hj.2
  obtain ⟨hi, -, hs, -⟩ := (g.moves.enrols.has hj.2).resolve_left hj.1
  have hle : (m.world.cell c).nextId ≤ o.id := Nat.le_of_eq hi.symm
  refine ⟨?_, hd.trans (g.fresh.due hle), g.offered_step_of_le hle, hn⟩
  rw [CellProgram.heard, List.filterMap_eq_nil_iff]
  intro e he
  refine if_neg (Nat.ne_of_lt ?_)
  rw [hs]
  rcases g.moves.events with hev | ⟨d, x, v, l, -, hx, -, hev⟩
  · exact g.roll.events e (by simpa [hev] using he)
  · rw [hev, Array.toList_push] at he
    rcases List.mem_append.1 he with he | he
    · exact g.roll.events e (Array.mem_toList_iff.1 he)
    · rw [List.mem_singleton.1 he]
      exact g.roll.numbers hx

theorem asked_step (g : Good h m) (c : Nat) : (m.step.world.cell c).scheduled = true ↔
    Since (fun n => ¬ Delivers c n) (AsksFor c) (m :: h) := by
  rw [scheduled_step g.moves c, g.asked c]
  constructor
  · rintro ⟨hd, hs | ha⟩
    · exact .inr ⟨hd, hs⟩
    · exact .inl ha
  · rintro (ha | ⟨hd, hs⟩)
    · exact ⟨not_delivers_of_asksFor g.moves ha, .inr ha⟩
    · exact ⟨hd, .inl hs⟩

theorem latest_step (g : Good h m) (ho : m.step.world.Has c o) (ha : ∀ v, o.accepts v = true)
    (hn : ∃ n ∈ m :: h, n.world.Has c o ∧ AsksFor c n) :
    (m.step.world.cell c).scheduled = true ∨
      (prospect c o m.step).getLast? = some (m.step.world.cell c).value := by
  obtain ⟨n, hmem, hhas, hasks⟩ := hn
  have hm : m.world.Has c o := by
    rcases List.mem_cons.1 hmem with rfl | hmem
    · exact hhas
    · exact g.has_of_step ho hmem (.inl hhas)
  rw [scheduled_step g.moves c]
  by_cases hd : Delivers c m
  · refine .inr ?_
    rw [prospect_step g.moves g.roll hm ha, started_of_delivers hd, value_of_delivers g.moves hd]
    exact List.getLast?_concat
  · by_cases hask : AsksFor c m
    · exact .inl ⟨hd, .inr hask⟩
    · have hobs : (m.world.cell c).observers ≠ [] := List.ne_nil_of_mem hm
      have hv : (m.step.world.cell c).value = (m.world.cell c).value := by
        by_contra hv
        exact hask ⟨hobs, .inl hv⟩
      have hold : n ∈ h := (List.mem_cons.1 hmem).resolve_left fun he => hask (he ▸ hasks)
      rw [prospect_step g.moves g.roll hm ha, started_of_not_delivers hd, List.append_nil, hv]
      exact (g.latest hm ha ⟨n, hold, hhas, hasks⟩).imp_left fun hs => ⟨hd, .inl hs⟩

theorem together_step (g : Good h m) {g' h' : List (Machine Board Task)} {n : Machine Board Task}
    (he : m :: h = g' ++ n :: h') (hn : n.world.Has c o) (hj : Joins c o' n)
    (ha : ∀ v, o.accepts v = true) (ha' : ∀ v, o'.accepts v = true) (ho : m.step.world.Has c o)
    (ho' : m.step.world.Has c o') :
    prospect c o m.step = prospect c o n ++ prospect c o' m.step := by
  cases g' with
  | nil =>
    obtain ⟨rfl, rfl⟩ := List.cons.inj he
    obtain ⟨hh, hd, -, hnd⟩ := g.joins_step hj
    have hp : prospect c o' m.step = [] := by
      rw [prospect, hh, hd]
      rfl
    rw [prospect_step g.moves g.roll hn ha, started_of_not_delivers hnd, hp]
  | cons x g' =>
    obtain ⟨rfl, hh⟩ := List.cons.inj he
    have hmem : n ∈ h := hh ▸ List.mem_append_right _ List.mem_cons_self
    have hm := g.has_of_step ho hmem (.inl hn)
    have hm' := g.has_of_step ho' hmem (.inr hj.2)
    rw [prospect_step g.moves g.roll hm ha, prospect_step g.moves g.roll hm' ha',
      g.together hh hn hj ha ha' hm hm', List.append_assoc]

theorem heard_eq_step (g : Good h m)
    (ho : m.step.world.Has c o ∨ ∃ n ∈ m :: h, n.world.Has c o) :
    heard m.step.world o = expected o (offered c o.id (m :: h)) := by
  by_cases hm : m.world.Has c o
  · have ih := g.heard (.inl hm)
    rw [offered]
    rcases heard_step g.moves g.roll hm with ⟨v, hv, ha, hh, -⟩ | ⟨hrej, hh⟩
    · rw [hh, ih, hv]
      exact (expected_concat_of_accepts ha (g.patient hm)).symm
    · rw [hh, ih]
      cases hv : offer? c o.id m with
      | none => rw [Option.toList_none, List.append_nil]
      | some v => exact (expected_concat_of_rejects (hrej v hv)).symm
  · by_cases hj : m.step.world.Has c o
    · obtain ⟨hh, -, hoff, -⟩ := g.joins_step ⟨hm, hj⟩
      rw [hh, hoff]
      unfold expected
      split <;> rfl
    · obtain ⟨n, hmem, hn⟩ := ho.resolve_left hj
      have hold : n ∈ h := (List.mem_cons.1 hmem).resolve_left fun he => hm (he ▸ hn)
      obtain ⟨hoff, hh⟩ := heard_of_gone g.moves ((g.gone hold (.inl hn)).resolve_left hm)
      rw [hh, offered, hoff, Option.toList_none, List.append_nil]
      exact g.heard (.inr ⟨n, hold, hn⟩)

theorem patient_step (g : Good h m) (ho : m.step.world.Has c o) (honce : o.once = true) :
    ∀ v ∈ offered c o.id (m :: h), o.accepts v = false := by
  by_cases hm : m.world.Has c o
  · rcases heard_step g.moves g.roll hm with ⟨v, -, -, -, hgone⟩ | ⟨hrej, -⟩
    · exact absurd ho (hgone honce)
    · intro v hv
      rcases List.mem_append.1 hv with hv | hv
      · exact g.patient hm honce v hv
      · exact hrej v (Option.mem_toList.1 hv)
  · rw [(g.joins_step ⟨hm, ho⟩).2.2.1]
    exact fun v hv => absurd hv List.not_mem_nil

theorem delivered_step (g : Good h m) {g' h' : List (Machine Board Task)} {n : Machine Board Task}
    (he : m :: h = g' ++ n :: h') (hd : Delivers c n) :
    Since (fun n => ¬ Delivers c n) (AsksFor c) h' ∧
      n.step.agenda = hearing c (n.world.cell c).value (n.world.cell c).observers := by
  cases g' with
  | nil =>
    obtain ⟨rfl, rfl⟩ := List.cons.inj he
    refine ⟨(g.asked c).1 ?_, agenda_of_delivers g.moves hd⟩
    by_contra hs
    refine queued_ne_zero_of_delivers hd ?_
    rw [g.queued, if_neg hs]
  | cons x g' =>
    obtain ⟨rfl, hh⟩ := List.cons.inj he
    exact g.delivered hh hd

theorem queued_eq_step (g : Good h m) (c : Nat) :
    queued c m.step = if (m.step.world.cell c).scheduled then 1 else 0 := by
  have hq : CellProgram.queued c m = flag m.world c := by
    rw [g.queued, flag]
    cases (m.world.cell c).scheduled <;> rfl
  rw [queued_step g.moves g.roll hq, flag]
  cases (m.step.world.cell c).scheduled <;> rfl

/-- What holds of a run goes on to hold when the machine takes a step. -/
theorem step (g : Good h m) : Good (m :: h) m.step where
  queued := g.queued_eq_step
  asked := g.asked_step
  delivered := g.delivered_step
  current ha hm _ _ ho hall hn :=
    current_of_latest g.queued_eq_step ha hm (g.latest_step ho hall hn)
  together := g.together_step
  dismissed {n c o} hn hd := by
    rcases List.mem_cons.1 hn with rfl | hn
    · obtain ⟨-, k, hk, -⟩ := hd
      exact heard_of_call g.moves (by rw [hk]; exact Option.some_ne_none _)
    · rw [(heard_of_gone g.moves (g.out hn hd)).2]
      exact g.dismissed hn hd
  heard := g.heard_eq_step
  roll := g.moves.roll g.roll
  laid := g.moves.laid g.roll
  only := onlyDelivers_step g.moves g.only
  fresh := Fresh.step g.moves g.roll g.fresh
  unoffered hi := g.offered_step_of_le (Nat.le_trans (g.moves.enrols.nextId_le _) hi)
  gone {n c o} hn ho := by
    have hm : m.world.Has c o ∨ Gone m.world c o →
        m.step.world.Has c o ∨ Gone m.step.world c o := by
      rintro (hm | hg)
      · exact g.moves.enrols.has_or_gone g.roll hm
      · exact .inr (g.moves.enrols.gone hg)
    rcases List.mem_cons.1 hn with rfl | hn
    · exact ho.elim (fun ho => hm (.inl ho)) .inl
    · exact hm (g.gone hn ho)
  out {n c o} hn hd := by
    rcases List.mem_cons.1 hn with rfl | hn
    · exact gone_of_dismisses g.moves g.roll hd
    · exact g.moves.enrols.gone (g.out hn hd)
  patient := g.patient_step
  latest := g.latest_step

/-- What holds of a run does not depend on the calls that are still to be made. -/
theorem of_agenda {b : Board} {agenda agenda' : List (Order Task)} (g : Good h ⟨b, agenda⟩)
    (hl : Laid agenda') (hne : agenda' ≠ [])
    (hq : ∀ c, agenda'.countP (isDelivery c) = agenda.countP (isDelivery c))
    (hd : ∀ c o, due c o agenda' = due c o agenda) (hf : Fresh ⟨b, agenda'⟩) :
    Good h ⟨b, agenda'⟩ where
  queued c := by
    rw [← g.queued c, CellProgram.queued, CellProgram.queued]
    exact congrArg (· + waiting b c) (hq c)
  asked := g.asked
  delivered := g.delivered
  current he := absurd he hne
  together {_ _ _ c o o'} he hn hj ha ha' ho ho' := by
    have ht := g.together he hn hj ha ha' ho ho'
    simp only [prospect, hd] at ht ⊢
    exact ht
  dismissed := g.dismissed
  heard := g.heard
  roll := g.roll
  laid := hl
  only := g.only
  fresh := hf
  unoffered := g.unoffered
  gone := g.gone
  out := g.out
  patient := g.patient
  latest {c o} ho ha hn := by
    have hlast := g.latest ho ha hn
    simp only [prospect, hd] at hlast ⊢
    exact hlast

theorem call {b : Board} {agenda : List (Order Task)} (g : Good h ⟨b, agenda⟩) {x : Order Task}
    (hx : IsCall x) : Good h ⟨b, x :: agenda⟩ := by
  have hone : ∀ y ∈ [x], IsCall y := fun y hy => List.mem_singleton.1 hy ▸ hx
  refine g.of_agenda (g.laid.append hone) (List.cons_ne_nil _ _) (fun c => ?_)
    (fun c o => due_cons_of_isCall hx) fun c id v hm => ?_
  · rw [← List.singleton_append, List.countP_append, countP_calls hone, Nat.zero_add]
  · rcases List.mem_cons.1 hm with rfl | hm
    · exact hx.elim
    · exact g.fresh c id v hm

theorem run {b : Board} (g : Good h ⟨b, []⟩) : Good h ⟨b, [.perform (.request .run)]⟩ := by
  refine g.of_agenda Underway.run.laid (List.cons_ne_nil _ _) (fun _ => rfl) (fun _ _ => rfl)
    fun c id v hm => ?_
  cases List.mem_singleton.1 hm

theorem cell_ofValues (l : List Int64) (c : Nat) :
    ∃ v, (Board.ofValues l).cell c = { value := v } := by
  rw [Board.cell, Board.ofValues]
  cases hx : ((l.map (fun v => { value := v })).toArray : Array (Cell Int64 Reaction))[c]? with
  | none => exact ⟨0, rfl⟩
  | some x =>
    obtain ⟨v, -, rfl⟩ := List.mem_map.1 (List.mem_toArray.1 (Array.mem_of_getElem? hx))
    exact ⟨v, rfl⟩

theorem start (l : List Int64) : Good [] ⟨Board.ofValues l, []⟩ := by
  have never {c : Nat} {o : Listener} (ho : (Board.ofValues l).Has c o) : False := by
    obtain ⟨v, hv⟩ := cell_ofValues l c
    rw [Board.Has, hv] at ho
    exact List.not_mem_nil ho
  have hflag (c : Nat) : ((Board.ofValues l).cell c).scheduled = false := by
    obtain ⟨v, hv⟩ := cell_ofValues l c
    rw [hv]
  have hobs (c : Nat) : (((Board.ofValues l).cell c).observers.map Observer.id).Nodup := by
    obtain ⟨v, hv⟩ := cell_ofValues l c
    rw [hv]
    exact List.nodup_nil
  exact {
    queued := fun c => by
      rw [hflag]
      rfl
    asked := fun c => by
      rw [hflag]
      exact iff_of_false Bool.false_ne_true id
    delivered := fun he => by simp at he
    current := fun _ _ _ _ ho => (never ho).elim
    together := fun he => by simp at he
    dismissed := fun hn => absurd hn List.not_mem_nil
    heard := fun {_ o} _ => by
      change [] = expected o []
      unfold expected
      split <;> rfl
    roll := ⟨hobs, fun ho => (never ho).elim, fun ho => (never ho).elim,
      fun ho => (never ho).elim, fun ho => (never ho).elim,
      fun e he => absurd he (Array.not_mem_empty e)⟩
    laid := Underway.rest.laid
    only := fun t ht => absurd ht List.not_mem_nil
    fresh := fun _ _ _ hx => absurd hx List.not_mem_nil
    unoffered := fun _ => rfl
    gone := fun hn => absurd hn List.not_mem_nil
    out := fun hn => absurd hn List.not_mem_nil
    patient := fun ho => (never ho).elim
    latest := fun ho => (never ho).elim }

end Good

/-- **Deliveries lose and repeat nothing**, whatever calls are made at whatever time. -/
theorem orderly_of_run {l : List Int64} {h : List (Machine Board Task)} {m : Machine Board Task}
    (run : Run ⟨Board.ofValues l, []⟩ h m) : Orderly h m := by
  refine Good.toOrderly ?_
  induction run with
  | start => exact .start l
  | step _ ih => exact ih.step
  | call v _ hc ih => exact ih.call (x := .perform (.call v _)) hc
  | request _ hc ih =>
    rcases hc with hc | rfl
    · exact ih.call (x := .perform (.request _)) hc
    · exact ih.run

/-! ### An observer that comes too late -/

/-- The machines that take the next `n` steps, the last one first. -/
def trail : Nat → Machine Board Task → List (Machine Board Task)
  | 0, _ => []
  | n + 1, m => trail n m.step ++ [m]

namespace Run

variable {m₀ m : Machine Board Task} {h : List (Machine Board Task)}

theorem steps (r : Run m₀ h m) (n : Nat) : Run m₀ (trail n m ++ h) (m.run n) := by
  induction n generalizing h m with
  | zero => exact r
  | succ n ih =>
    rw [Machine.run_succ, trail, List.append_assoc]
    exact ih r.step

end Run

/-- An observer that brings another one when it hears the first value. -/
def bringer : Call := .observe 0 (fun _ => true) true [.observe 0 (fun _ => true) false []]

/-- An observer that only listens. -/
def listener : Call := .observe 0 (fun _ => true) false []

theorem tacit_listener : listener.Tacit := .intro nofun fun _ hd => absurd hd List.not_mem_nil

theorem tacit_bringer : bringer.Tacit := by
  refine .intro nofun fun d hd => ?_
  rw [List.mem_singleton.1 hd]
  exact tacit_listener

/-- A cell with both observers that has just been written. -/
def written : Machine Board Task :=
  Machine.run 3 ⟨.ofValues [0], [.perform (.call 0 bringer), .perform (.call 0 listener),
    .perform (.call 0 (.set 0 1))]⟩

/-- The microtasks are run. -/
def delivering : Machine Board Task := ⟨written.world, [.perform (.request .run)]⟩

theorem run_delivering : ∃ h, Run ⟨.ofValues [0], []⟩ h delivering := by
  have hset : (Call.set 0 1).Tacit := .intro nofun fun _ hd => absurd hd List.not_mem_nil
  have r : Run ⟨.ofValues [0], []⟩ [] ⟨.ofValues [0], []⟩ := .start
  have r := ((r.call 0 hset).call 0 tacit_listener).call 0 tacit_bringer
  exact ⟨_, (r.steps 3).request (.inr rfl)⟩

/-- The observer that is there from the beginning. -/
def early : Listener := ⟨1, ⟨1, []⟩, fun _ => true, false⟩

/-- The observer that is brought. -/
def late : Listener := ⟨2, ⟨2, []⟩, fun _ => true, false⟩

/-- The delivery is carried through, and the early observer has heard its value. -/
theorem delivering_orderly : ∃ h, Run ⟨.ofValues [0], []⟩ h (delivering.run 7) ∧
    Orderly h (delivering.run 7) ∧ heard (delivering.run 7).world early = [1] := by
  obtain ⟨h, r⟩ := run_delivering
  exact ⟨_, r.steps 7, orderly_of_run (r.steps 7), by decide +kernel⟩

/-- The late observer has not heard it: it came while the delivery was under way. -/
theorem late_observer_misses_value : ∃ g h,
    Run ⟨.ofValues [0], []⟩ (g ++ delivering.run 4 :: h) (delivering.run 7) ∧
      (delivering.run 7).agenda = [] ∧ (delivering.run 7).world.loop.microtasks = [] ∧
      (delivering.run 4).world.Has 0 early ∧ Joins 0 late (delivering.run 4) ∧
      (delivering.run 7).world.Has 0 early ∧ (delivering.run 7).world.Has 0 late ∧
      heard (delivering.run 7).world early ≠
        heard (delivering.run 4).world early ++ heard (delivering.run 7).world late := by
  obtain ⟨h, r⟩ := run_delivering
  have hend : ((delivering.run 7).world.cell 0).observers = [early, late] := rfl
  have hmid : ((delivering.run 4).world.cell 0).observers = [early] := rfl
  have hnext : ((delivering.run 4).step.world.cell 0).observers = [early, late] := rfl
  have hids : late.id ≠ early.id := by decide
  refine ⟨trail 2 (delivering.run 4).step, _, (r.steps 4).step.steps 2, rfl, rfl, ?_, ⟨?_, ?_⟩, ?_,
    ?_, by decide +kernel⟩
  · rw [Board.Has, hmid]
    exact List.mem_cons_self
  · rw [Board.Has, hmid]
    exact fun hm => hids (congrArg Observer.id (List.mem_singleton.1 hm))
  · rw [Board.Has, hnext]
    exact List.mem_cons_of_mem _ List.mem_cons_self
  · rw [Board.Has, hend]
    exact List.mem_cons_self
  · rw [Board.Has, hend]
    exact List.mem_cons_of_mem _ List.mem_cons_self

end Novella.CellProgram
