import Novella.Proofs.Loop.Scheduling

/-!
# Virtual time

Tasks may ask for time to pass while an advance is under way. The advance they ask for is then done
inside the other one, and the other one goes on to the target that it had fixed before. If the inner
one has gone further, the outer one is *overtaken*, and time falls back when it ends. Nothing else
turns time back: no timeout is overdue, however advances are nested.

An advance that has been asked for is always done in full: the orders that it turns into on the
agenda promise a time, and no step takes back what they promise.

## Main definitions

* `Machine.Overtaken` — an advance ends whose target is behind
* `Machine.StaysWithin` — an advance goes no further than those it is part of
* `Order.promise` — the earliest time at which orders can be done

## Main results

* `Usage.Run.time_forward_iff` — time falls back with overtaken advances only
-/

namespace Novella

variable {σ τ : Type} [World σ τ]

/-! ### Nested advances -/

namespace Order

variable {P : τ → Prop} {o : Order τ}

/-- The target of an advance that is under way. -/
def target? : Order τ → Option Nat
  | runUntil target => some target
  | _ => none

/-- A request, or what it has turned into. -/
def IsUnderway (P : τ → Prop) : Order τ → Prop
  | perform t => P t
  | halt => False
  | _ => True

theorem IsRequest.isUnderway (h : o.IsRequest P) : o.IsUnderway P := by
  cases o with
  | perform t => exact h
  | halt => exact h
  | _ => trivial

theorem IsRequest.target? (h : o.IsRequest P) : o.target? = none := by
  cases o with
  | runUntil target => exact h.elim
  | _ => rfl

/-- The targets of the advances that are under way, the innermost first. -/
def targets (orders : List (Order τ)) : List Nat := orders.filterMap Order.target?

theorem targets_of_requests {orders : List (Order τ)} (h : ∀ o ∈ orders, o.IsRequest P) :
    targets orders = [] := by
  rw [targets, List.filterMap_eq_nil_iff]
  exact fun o ho => (h o ho).target?

@[simp] theorem targets_depart (d : Nat) (orders : List (Order τ)) :
    targets (.depart d :: orders) = targets orders := rfl

@[simp] theorem targets_runUntil (target : Nat) (orders : List (Order τ)) :
    targets (.runUntil target :: orders) = target :: targets orders := rfl

theorem targets_append (orders rest : List (Order τ)) :
    targets (orders ++ rest) = targets orders ++ targets rest := List.filterMap_append

/-- The earliest time at which the orders can be done. -/
def promise : Nat → List (Order τ) → Nat
  | now, [] => now
  | now, advance d :: orders => promise (now + d) orders
  | now, depart d :: orders => promise (now + d) orders
  | _, runUntil target :: orders => promise target orders
  | now, _ :: orders => promise now orders

theorem promise_mono {now now' : Nat} (h : now ≤ now') (orders : List (Order τ)) :
    promise now orders ≤ promise now' orders := by
  induction orders generalizing now now' with
  | nil => exact h
  | cons o orders ih =>
    cases o with
    | advance d => exact ih (Nat.add_le_add_right h d)
    | depart d => exact ih (Nat.add_le_add_right h d)
    | runUntil target => exact Nat.le_refl _
    | _ => exact ih h

/-- More requests do not make orders be done earlier. -/
theorem promise_le_append {requests : List (Order τ)} (h : ∀ o ∈ requests, o.IsRequest P)
    (now : Nat) (orders : List (Order τ)) :
    promise now orders ≤ promise now (requests ++ orders) := by
  induction requests generalizing now with
  | nil => exact Nat.le_refl _
  | cons o requests ih =>
    obtain ⟨ho, hmore⟩ := List.forall_mem_cons.1 h
    cases o with
    | advance d => exact Nat.le_trans (promise_mono (Nat.le_add_right now d) orders) (ih hmore _)
    | perform t => exact ih hmore now
    | drain => exact ih hmore now
    | _ => exact ho.elim

end Order

namespace Machine

/-- The machine ends an advance whose target is behind. -/
def Overtaken (m : Machine σ τ) : Prop :=
  ∃ target rest, m.agenda = .runUntil target :: rest ∧ target < m.now

/-- If the machine sets out on an advance, it goes no further than the advances it is part of. -/
def StaysWithin (m : Machine σ τ) : Prop :=
  ∀ d rest, m.agenda = .depart d :: rest → ∀ target ∈ Order.targets rest, m.now + d ≤ target

end Machine

namespace Usage

variable {u : Usage σ} {h : List (Machine σ τ)} {m : Machine σ τ}

/-! ### One step -/

/-- A machine between its steps. -/
structure Timed (u : Usage σ) (m : Machine σ τ) : Prop where
  /-- No timeout is overdue. -/
  timely : (World.loop m.world).Timely
  /-- The loop holds what it may hold. -/
  holds : u.Holds (World.loop m.world)
  /-- What is to be done has been asked for. -/
  orders : ∀ o ∈ m.agenda, o.IsUnderway u.Asked

/-- What a step does with time, with the targets of the advances that are under way and with what
the orders promise. -/
inductive Passes (m : Machine σ τ) : Machine σ τ → Prop where
  /-- Nothing is to be done. -/
  | rest {n : Machine σ τ} : m.agenda = [] → n = m → Passes m n
  /-- Time stands still, and an order is replaced by others. -/
  | still {n : Machine σ τ} {o : Order τ} (orders : List (Order τ)) {rest : List (Order τ)} :
      m.agenda = o :: rest → n.agenda = orders ++ rest → n.now = m.now →
        o.target? = none → Order.targets orders = [] →
          (∀ now more, Order.promise now (o :: more) ≤ Order.promise now (orders ++ more)) →
            Passes m n
  /-- An advance fixes its target. -/
  | depart {n : Machine σ τ} {d : Nat} {rest : List (Order τ)} : m.agenda = .depart d :: rest →
      n.agenda = .runUntil (m.now + d) :: rest → n.now = m.now → Passes m n
  /-- Time goes on to a timeout. -/
  | goOn {n : Machine σ τ} {target : Nat} {t : τ} {rest : List (Order τ)} :
      m.agenda = .runUntil target :: rest →
        n.agenda = .perform t :: .drain :: .runUntil target :: rest →
          m.now ≤ n.now → n.now ≤ target → Passes m n
  /-- Time is set to the target of an advance. -/
  | arrive {n : Machine σ τ} {target : Nat} {rest : List (Order τ)} :
      m.agenda = .runUntil target :: rest → n.agenda = rest → n.now = target → Passes m n

/-- **Every step keeps deadlines ahead, and does with time what it may.** -/
theorem Timed.step (k : u.Timed m) : u.Timed m.step ∧ Passes m m.step := by
  obtain ⟨s, agenda⟩ := m
  cases agenda with
  | nil => exact ⟨k, .rest rfl rfl⟩
  | cons o rest =>
    have hrest : ∀ a ∈ rest, a.IsUnderway u.Asked := fun a ha =>
      k.orders a (List.mem_cons_of_mem o ha)
    cases o with
    | perform t =>
      have ht : u.Asked t := k.orders _ List.mem_cons_self
      have hloop := u.loop_perform s ht
      have hrequests := u.requests (s := s) ht
      refine ⟨⟨hloop ▸ k.timely.foldl_make _, k.holds.perform ht, ?_⟩,
        .still _ rfl rfl ?_ rfl (Order.targets_of_requests hrequests)
          fun now more => Order.promise_le_append hrequests now more⟩
      · exact List.forall_mem_append.2 ⟨fun o ho => (hrequests o ho).isUnderway, hrest⟩
      · exact (congrArg Loop.now hloop).trans (Loop.now_foldl_make _ _)
    | drain =>
      cases hpop : (World.loop s).popMicrotask? with
      | none =>
        rw [Machine.step_of_popMicrotask?_eq_none hpop]
        exact ⟨⟨k.timely, k.holds, hrest⟩,
          .still [] rfl rfl rfl rfl rfl fun _ _ => Nat.le_refl _⟩
      | some x =>
        obtain ⟨t, l⟩ := x
        obtain ⟨ht, hl⟩ := k.holds.popMicrotask hpop
        rw [Machine.step_of_popMicrotask? hpop]
        refine ⟨⟨?_, ?_, List.forall_mem_cons.2 ⟨u.asked ht, k.orders⟩⟩,
          .still [.perform t, .drain] rfl rfl ?_ rfl rfl fun _ _ => Nat.le_refl _⟩
        · simpa only [World.loop_withLoop] using k.timely.popMicrotask hpop
        · simpa only [World.loop_withLoop] using hl
        · simpa only [Machine.now, World.loop_withLoop] using Loop.now_of_popMicrotask? hpop
    | advance d =>
      refine ⟨⟨k.timely, k.holds, ?_⟩, .still [.drain, .depart d] rfl rfl rfl rfl rfl
        fun _ _ => Nat.le_refl _⟩
      exact List.forall_mem_cons.2 ⟨trivial, List.forall_mem_cons.2 ⟨trivial, hrest⟩⟩
    | depart d =>
      exact ⟨⟨k.timely, k.holds, List.forall_mem_cons.2 ⟨trivial, hrest⟩⟩, .depart rfl rfl rfl⟩
    | runUntil target =>
      cases hdue : (World.loop s).due? target with
      | none =>
        rw [Machine.step_of_due_eq_none hdue]
        refine ⟨⟨?_, ?_, hrest⟩, .arrive rfl rfl ?_⟩
        · simpa only [World.loop_withLoop] using k.timely.arrive hdue
        · simpa only [World.loop_withLoop] using ⟨k.holds.microtasks, k.holds.timeouts⟩
        · simp only [Machine.now, World.loop_withLoop]
      | some x =>
        obtain ⟨hl, hd⟩ := Loop.due?_eq_some hdue
        have hmem : x ∈ (World.loop s).timeouts := hl ▸ List.mem_cons_self
        rw [Machine.step_of_due hdue]
        refine ⟨⟨?_, ?_, ?_⟩, .goOn rfl rfl ?_ ?_⟩
        · simpa only [World.loop_withLoop] using k.timely.leave hdue
        · simpa only [World.loop_withLoop] using k.holds.leave x
        · exact List.forall_mem_cons.2 ⟨u.asked (k.holds.timeouts x hmem),
            List.forall_mem_cons.2 ⟨trivial, k.orders⟩⟩
        · simpa only [Machine.now, World.loop_withLoop, Loop.leave] using k.timely.ahead x hmem
        · simpa only [Machine.now, World.loop_withLoop, Loop.leave] using hd
    | halt => exact (k.orders _ List.mem_cons_self).elim

theorem Run.timed (r : u.Run h m) : u.Timed m := by
  induction r with
  | start hl => exact ⟨hl ▸ ⟨.nil, by simp⟩, hl ▸ ⟨by simp, by simp⟩, by simp⟩
  | step _ ih => exact ih.step.1
  | turn _ hl ho ih =>
    exact ⟨hl ▸ ih.timely, hl ▸ ih.holds, fun o h => (ho o h).isUnderway⟩

/-! ### Time falls back with overtaken advances only -/

/-- A step turns time back just when it ends an advance that has been overtaken. -/
theorem Timed.step_now_lt_iff (k : u.Timed m) : m.step.now < m.now ↔ m.Overtaken := by
  constructor
  · intro hlt
    cases k.step.2 with
    | rest _ hn => rw [hn] at hlt; omega
    | still _ _ _ hn => omega
    | depart _ _ hn => omega
    | goOn _ _ hle => omega
    | arrive ha _ hn => exact ⟨_, _, ha, hn ▸ hlt⟩
  · rintro ⟨target, rest, ha, hlt⟩
    obtain ⟨s, agenda⟩ := m
    cases ha
    have hdue : (World.loop s).due? target = none := by
      cases hx : (World.loop s).due? target with
      | none => rfl
      | some x =>
        obtain ⟨hl, hd⟩ := Loop.due?_eq_some hx
        have ha := k.timely.ahead x (hl ▸ List.mem_cons_self)
        exact absurd (Nat.le_trans ha hd) (Nat.not_le_of_lt hlt)
    rw [Machine.step_of_due_eq_none hdue, Machine.now, World.loop_withLoop]
    exact hlt

/-- The times of a history never fall if no advance in it has been overtaken, and only then. -/
theorem Run.pairwise_now_iff (r : u.Run h m) :
    ((m :: h).map Machine.now).Pairwise (· ≥ ·) ↔ ∀ n ∈ h, ¬ n.Overtaken := by
  induction r with
  | start => simp
  | turn _ hl _ ih =>
    rw [← ih]
    simp only [List.map_cons, Machine.now, hl]
  | @step h m r ih =>
    rw [List.forall_mem_cons, ← ih, ← r.timed.step_now_lt_iff, Nat.not_lt, List.map_cons,
      List.map_cons, List.pairwise_cons]
    refine and_congr_left fun hp => ⟨fun ha => ha _ List.mem_cons_self, fun hle x hx => ?_⟩
    rcases List.mem_cons.1 hx with rfl | hx
    · exact hle
    · exact Nat.le_trans ((List.pairwise_cons.1 hp).1 x hx) hle

/-! ### Advances that stay within one another -/

/-- As long as advances stay within those they are part of, the targets lie ahead, the innermost
first. -/
theorem Run.pairwise_targets (r : u.Run h m) (hs : ∀ n ∈ h, n.StaysWithin) :
    (m.now :: Order.targets m.agenda).Pairwise (· ≤ ·) := by
  induction r with
  | start => simp [Order.targets]
  | turn _ _ ho => rw [Order.targets_of_requests ho]; simp
  | @step h m r ih =>
    obtain ⟨hm, hh⟩ := List.forall_mem_cons.1 hs
    obtain ⟨hnow, htargets⟩ := List.pairwise_cons.1 (ih hh)
    cases r.timed.step.2 with
    | rest _ hn => rw [hn]; exact ih hh
    | still orders ha hs hn ho ht =>
      have htargets : Order.targets m.step.agenda = Order.targets m.agenda := by
        rw [ha, hs, Order.targets_append, ht, List.nil_append, Order.targets, Order.targets,
          List.filterMap_cons_none ho]
      rw [hn, htargets]
      exact ih hh
    | depart ha hs hn =>
      rw [ha, Order.targets_depart] at hnow htargets
      rw [hn, hs, Order.targets_runUntil]
      refine List.pairwise_cons.2 ⟨fun x hx => ?_, List.pairwise_cons.2 ⟨hm _ _ ha, htargets⟩⟩
      rcases List.mem_cons.1 hx with rfl | hx
      · exact Nat.le_add_right ..
      · exact hnow x hx
    | @goOn target t rest ha hs _ hle =>
      rw [ha, Order.targets_runUntil] at htargets
      have hnext : Order.targets m.step.agenda = target :: Order.targets rest := by rw [hs]; rfl
      rw [hnext]
      refine List.pairwise_cons.2 ⟨fun x hx => ?_, htargets⟩
      rcases List.mem_cons.1 hx with rfl | hx
      · exact hle
      · exact Nat.le_trans hle ((List.pairwise_cons.1 htargets).1 x hx)
    | arrive ha hs hn =>
      rw [ha, Order.targets_runUntil] at htargets
      rw [hn, hs]
      exact htargets

theorem Run.not_overtaken (r : u.Run h m) (hs : ∀ n ∈ h, n.StaysWithin) :
    ∀ n ∈ h, ¬ n.Overtaken := by
  induction r with
  | start => simp
  | turn _ _ _ ih => exact ih hs
  | @step h m r ih =>
    obtain ⟨-, hh⟩ := List.forall_mem_cons.1 hs
    refine List.forall_mem_cons.2 ⟨?_, ih hh⟩
    rintro ⟨target, rest, ha, hlt⟩
    have hp := r.pairwise_targets hh
    rw [ha, Order.targets_runUntil] at hp
    exact absurd ((List.pairwise_cons.1 hp).1 target List.mem_cons_self) (Nat.not_le_of_lt hlt)

/-! ### An advance is done in full -/

/-- **No step takes a promise back.** Some orders are to be done before the rest. -/
theorem Timed.promise_le (k : u.Timed m) {orders rest : List (Order τ)}
    (ha : m.agenda = orders ++ rest) (hne : m.agenda ≠ rest) :
    ∃ orders', m.step.agenda = orders' ++ rest ∧
      Order.promise m.now orders ≤ Order.promise m.step.now orders' := by
  cases orders with
  | nil => exact absurd ha hne
  | cons o orders =>
    rw [List.cons_append] at ha
    cases k.step.2 with
    | rest hnil => cases hnil.symm.trans ha
    | still new ha' hs hn _ _ hp =>
      cases ha.symm.trans ha'
      exact ⟨new ++ orders, by rw [hs, List.append_assoc], hn ▸ hp m.now orders⟩
    | depart ha' hs hn =>
      cases ha.symm.trans ha'
      exact ⟨.runUntil (m.now + _) :: orders, hs, Nat.le_refl _⟩
    | goOn ha' hs =>
      cases ha.symm.trans ha'
      exact ⟨.perform _ :: .drain :: .runUntil _ :: orders, hs, Nat.le_refl _⟩
    | arrive ha' hs hn =>
      cases ha.symm.trans ha'
      exact ⟨orders, hs, hn ▸ Nat.le_refl _⟩

/-- An advance that was asked for is done when the machine is back at what follows it. -/
theorem Run.add_le_now (r : u.Run h m) {d n : Nat} {rest : List (Order τ)}
    (ha : m.agenda = .advance d :: rest) (hn : (m.run n).agenda = rest)
    (hfirst : ∀ i < n, (m.run i).agenda ≠ rest) : m.now + d ≤ (m.run n).now := by
  have hall : ∀ i ≤ n, ∃ orders, (m.run i).agenda = orders ++ rest ∧
      m.now + d ≤ Order.promise (m.run i).now orders := by
    intro i
    induction i with
    | zero => exact fun _ => ⟨[.advance d], ha, Nat.le_refl _⟩
    | succ i ih =>
      intro hi
      obtain ⟨orders, ho, hle⟩ := ih (Nat.le_of_succ_le hi)
      have hstep : m.run (i + 1) = (m.run i).step := by rw [Machine.run_add, Machine.run_succ]; rfl
      obtain ⟨orders', ho', hle'⟩ := (r.steps i).timed.promise_le ho (hfirst i hi)
      rw [hstep]
      exact ⟨orders', ho', Nat.le_trans hle hle'⟩
  obtain ⟨orders, ho, hle⟩ := hall n (Nat.le_refl n)
  have hnil : orders = [] := List.append_left_eq_self.1 (ho.symm.trans hn)
  rwa [hnil] at hle

/-- **Time falls back with overtaken advances only.** Tasks may ask for time to pass while an
advance is under way. The times of a run never fall if and only if no advance has been overtaken by
one that it contains, and none is if all stay within those that they are part of. And an advance
moves time on by as much as was asked for, whatever happens meanwhile. -/
theorem Run.time_forward_iff (r : u.Run h m) :
    (((m :: h).map Machine.now).Pairwise (· ≥ ·) ↔ ∀ n ∈ h, ¬ n.Overtaken) ∧
      ((∀ n ∈ h, n.StaysWithin) → ∀ n ∈ h, ¬ n.Overtaken) ∧
        ∀ {d n rest}, m.agenda = .advance d :: rest → (m.run n).agenda = rest →
          (∀ i < n, (m.run i).agenda ≠ rest) → m.now + d ≤ (m.run n).now :=
  ⟨r.pairwise_now_iff, r.not_overtaken, r.add_le_now⟩

end Usage

/-! ### Programs -/

namespace LoopProgram

/-- How programs use their loop that make no timers. -/
def loopUsage : Usage Desk := usage Call.OnLoop fun _ h => h

/-- A program whose task lets `inner` pass while `outer` is passing. -/
def nested (inner outer : Nat) : List Call :=
  [.timeout 10 "task" [.advance inner], .advance outer]

theorem asked_nested (inner outer : Nat) :
    ∀ c ∈ nested inner outer, (Task.request c).Asked Call.OnLoop := by
  simp only [nested, List.forall_mem_cons]
  refine ⟨⟨trivial, fun c hc => ?_⟩, ⟨trivial, by simp [Call.body]⟩, by simp⟩
  rw [List.mem_singleton.1 hc]
  exact .intro trivial (by simp [Call.body])

theorem run_nested (inner outer n : Nat) :
    loopUsage.Run ((List.range n).reverse.map fun i => (given (nested inner outer)).run i)
      ((given (nested inner outer)).run n) :=
  run_given (asked_nested inner outer) n

/-- A task that stays within the advance it is part of turns nothing back. -/
theorem nested_time_forward : ∃ h, loopUsage.Run h ((given (nested 5 20)).run 14) ∧
    (h.map Machine.now).head? = some 15 ∧ ∀ n ∈ h, ¬ n.Overtaken :=
  ⟨_, run_nested 5 20 14, by decide +kernel,
    (run_nested 5 20 14).time_forward_iff.1.1 (by decide +kernel)⟩

/-- A task that goes further turns time back. -/
theorem nested_time_falls_back : ∃ h, loopUsage.Run h ((given (nested 100 20)).run 14) ∧
    ¬ ((((given (nested 100 20)).run 14) :: h).map Machine.now).Pairwise (· ≥ ·) :=
  ⟨_, run_nested 100 20 14, by decide +kernel⟩

end LoopProgram

end Novella
