import Novella.Proofs.Timer.RepeatingTimers

/-!
# Timers in a run

Machines whose tasks use timers write a log. A run is watched as long as the tasks are fair: they
leave the timeouts of timers to the timers, and none of them moves time while time is being moved.
Then the log is a chronicle, and what is true of timers there is true in the run: when a timer
rings, its callback is performed next.

The orders of a machine say how far an advance has come, and which timer is about to ring.

## Main definitions

* `Timekeeping.Fair` — a machine whose next step is fair
* `Timekeeping.log` — what has happened to the timers and their loop
* `Timekeeping.Watch` — runs with fair steps only
* `Timekeeping.Lifecycle` — the life of a timer that rings once
* `Timekeeping.Rhythm` — the rhythm of a timer that rings again and again

## Main results

* `Timekeeping.Watch.chronicle` — the log of a watched run is a chronicle
* `Timekeeping.Watch.lifecycle` — the life of a timer
* `Timekeeping.Watch.rhythm` — the rhythm of a timer
-/

namespace Novella

namespace Schedule

variable {τ : Type} {b : Bell τ} {s : Schedule τ} {log : List (Entry τ)}

/-- The calls leave the timeouts of timers alone. -/
def AllFair (b : Bell τ) : Schedule τ → List (Call τ) → Prop
  | _, [] => True
  | s, c :: cs => s.Fair b c ∧ AllFair b (s.make b.ring c) cs

/-- Writes calls down. -/
def writeCalls (b : Bell τ) : Schedule τ → List (Call τ) → List (Entry τ) → List (Entry τ)
  | _, [], log => log
  | s, c :: cs, log => writeCalls b (s.make b.ring c) cs (⟨s, .call c⟩ :: log)

/-- Calls take no time. -/
theorem elapsed_writeCalls (b : Bell τ) (s : Schedule τ) (calls : List (Call τ))
    (log : List (Entry τ)) : elapsed (writeCalls b s calls log) = elapsed log := by
  induction calls generalizing s log with
  | nil => rfl
  | cons c cs ih =>
    rw [writeCalls, ih, Chronicle.elapsed_cons]
    exact Nat.zero_add _

/-- What is written down are calls. -/
theorem exists_writeCalls_eq (b : Bell τ) (s : Schedule τ) (calls : List (Call τ))
    (log : List (Entry τ)) : ∃ es, writeCalls b s calls log = es ++ log ∧
      ∀ e ∈ es, ∃ c, e.deed = .call c := by
  induction calls generalizing s log with
  | nil => exact ⟨[], rfl, nofun⟩
  | cons c cs ih =>
    obtain ⟨es, hes, hcalls⟩ := ih (s.make b.ring c) (⟨s, .call c⟩ :: log)
    refine ⟨es ++ [⟨s, .call c⟩], ?_, List.forall_mem_append.2 ⟨hcalls, ?_⟩⟩
    · rw [writeCalls, hes, List.append_assoc]
      rfl
    · exact List.forall_mem_singleton.2 ⟨c, rfl⟩

theorem underWay_writeCalls (b : Bell τ) (s : Schedule τ) (calls : List (Call τ))
    (log : List (Entry τ)) : underWay (writeCalls b s calls log) = underWay log := by
  induction calls generalizing s log with
  | nil => rfl
  | cons c cs ih => exact ih (s.make b.ring c) (⟨s, .call c⟩ :: log)

theorem now_foldl_make (f : Nat → τ) (s : Schedule τ) (calls : List (Call τ)) :
    (calls.foldl (make f) s).loop.now = s.loop.now := by
  induction calls generalizing s with
  | nil => rfl
  | cons c cs ih => rw [List.foldl_cons, ih, now_make]

/-- Fair calls go on with a chronicle. -/
theorem Chronicle.calls (h : Chronicle b log s none) {calls : List (Call τ)}
    (hf : s.AllFair b calls) :
    Chronicle b (writeCalls b s calls log) (calls.foldl (Schedule.make b.ring) s) none := by
  induction calls generalizing s log with
  | nil => exact h
  | cons c cs ih => exact ih (h.next ⟨rfl, hf.1⟩) hf.2

end Schedule

open Schedule

variable {σ τ : Type} [World σ τ]

namespace Order

/-- The order goes on with an advance. -/
def GoesOn : Order τ → Prop
  | depart _ | runUntil _ => True
  | _ => False

end Order

namespace Timekeeping

variable {u : Timekeeping σ} {h : List (Machine σ τ)} {m : Machine σ τ} {past : List (Entry τ)}
  {s : σ} {rest turn : List (Order τ)} {e : Entry τ} {k : Nat}

/-- The tasks of the timeouts of timers. -/
def bell (u : Timekeeping σ) : Bell τ := ⟨u.ring, u.ring?, u.ring?_eq_some⟩

/-- The order may be given by anybody: it rings no timer, and does not pretend that time is being
moved. -/
def IsOpen (u : Timekeeping σ) : Order τ → Prop
  | .perform t => u.ring? t = none
  | .drain | .advance _ => True
  | _ => False

/-- The next step is fair: a task leaves the timeouts of timers alone, and time is not moved while
it is being moved. -/
def Fair (u : Timekeeping σ) (m : Machine σ τ) : Prop :=
  match m.agenda with
  | .perform t :: _ => u.ring? t = none →
    (u.schedule m.world).AllFair u.bell (u.calls t m.world) ∧
      ∀ o ∈ (World.perform t m.world).2, u.IsOpen o
  | .advance _ :: rest => ∀ o ∈ rest, ¬ o.GoesOn
  | _ => True

/-- Writes down what happens to the timers and their loop when the machine takes a step. -/
def write (u : Timekeeping σ) (m : Machine σ τ) (log : List (Entry τ)) : List (Entry τ) :=
  let s := u.schedule m.world
  match m.agenda with
  | .perform t :: _ =>
    match u.ring? t with
    | some k => ⟨s, .ring k⟩ :: log
    | none => writeCalls u.bell s (u.calls t m.world) log
  | .drain :: _ => if s.loop.microtasks = [] then log else ⟨s, .take⟩ :: log
  | .advance d :: _ => ⟨s, .advance d⟩ :: log
  | .runUntil target :: _ =>
    match s.loop.due? target with
    | some x => ⟨s, .leave x⟩ :: log
    | none => ⟨s, .arrive target⟩ :: log
  | _ => log

/-- What has happened to the timers and their loop, the last thing first. -/
def log (u : Timekeeping σ) : List (Machine σ τ) → List (Entry τ)
  | [] => []
  | m :: h => u.write m (u.log h)

/-- A machine is reached from a new loop by fair steps and by turns of the host, who may do what it
likes with the world but for the timers, which it uses through tasks. The list holds the machines
that took a step, the last one first. -/
inductive Watch (u : Timekeeping σ) : List (Machine σ τ) → Machine σ τ → Prop where
  /-- Nothing has happened yet. -/
  | start {s : σ} : u.schedule s = {} → Watch u [] ⟨s, []⟩
  /-- The machine takes a step. -/
  | step {h : List (Machine σ τ)} {m : Machine σ τ} : Watch u h m → u.Fair m →
    Watch u (m :: h) m.step
  /-- The host has its turn. -/
  | turn {h : List (Machine σ τ)} {s s' : σ} {orders : List (Order τ)} :
    Watch u h ⟨s, []⟩ → u.schedule s' = u.schedule s → (∀ o ∈ orders, u.IsOpen o) →
    Watch u h ⟨s', orders⟩

/-- What is written down when an order is carried out. -/
inductive Does (u : Timekeeping σ) (s : σ) : Order τ → Entry τ → Prop
  /-- A task makes calls. -/
  | call (t : τ) (found : Schedule τ) (c : Call τ) : Does u s (.perform t) ⟨found, .call c⟩
  /-- The task of its timeout rings a timer. -/
  | ring (k : Nat) : Does u s (.perform (u.ring k)) ⟨u.schedule s, .ring k⟩
  /-- A microtask is taken. -/
  | take : Does u s .drain ⟨u.schedule s, .take⟩
  /-- An advance begins. -/
  | advance (d : Nat) : Does u s (.advance d) ⟨u.schedule s, .advance d⟩
  /-- What is due is started. -/
  | leave {target : Nat} {x : Timeout τ} : (u.schedule s).loop.due? target = some x →
    Does u s (.runUntil target) ⟨u.schedule s, .leave x⟩
  /-- An advance comes to its end. -/
  | arrive (target : Nat) : Does u s (.runUntil target) ⟨u.schedule s, .arrive target⟩

theorem does_of_write {o : Order τ} (he : u.write ⟨s, o :: rest⟩ past = e :: past) :
    u.Does s o e := by
  cases o with
  | perform t =>
    cases ht : u.ring? t with
    | none =>
      obtain ⟨es, hes, hcalls⟩ := exists_writeCalls_eq u.bell (u.schedule s) (u.calls t s) past
      simp only [write, ht, hes] at he
      obtain rfl : es = [e] := List.append_cancel_right he
      obtain ⟨c, hc⟩ := hcalls e (List.mem_singleton_self e)
      obtain ⟨found, d⟩ := e
      obtain rfl : d = .call c := hc
      exact .call t found c
    | some k =>
      simp only [write, ht] at he
      obtain rfl := (List.cons.inj he).1
      exact u.ring?_eq_some.1 ht ▸ .ring k
  | drain =>
    simp only [write] at he
    split at he
    · exact absurd he.symm (List.cons_ne_self e past)
    · exact (List.cons.inj he).1 ▸ .take
  | advance d => exact (List.cons.inj he).1 ▸ .advance d
  | runUntil target =>
    cases hx : (u.schedule s).loop.due? target with
    | none =>
      simp only [write, hx] at he
      exact (List.cons.inj he).1 ▸ .arrive target
    | some x =>
      simp only [write, hx] at he
      exact (List.cons.inj he).1 ▸ .leave hx
  | depart d => exact absurd he.symm (List.cons_ne_self e past)
  | halt => exact absurd he.symm (List.cons_ne_self e past)

/-! ### Orders -/

/-- The order goes on with an advance to the time `total`. -/
def GoesTo (now total : Nat) : Order τ → Prop
  | .depart d => now + d = total
  | .runUntil target => target = total
  | _ => False

/-- How the orders of a machine are laid out after a log, when a timer may be about to ring. -/
inductive Laid (u : Timekeeping σ) (log : List (Entry τ)) (now : Nat) :
    Option Nat → List (Order τ) → Prop
  /-- No advance is under way. -/
  | free {rest : List (Order τ)} : underWay log = false → (∀ o ∈ rest, u.IsOpen o) →
    Laid u log now none rest
  /-- An advance is under way, and will go on when tasks are done and no microtask is left. -/
  | under (turn : List (Order τ)) {rest : List (Order τ)} {o : Order τ} :
    (∀ a ∈ turn, u.IsOpen a) → GoesTo now (elapsed log) o → (∀ a ∈ rest, u.IsOpen a) →
    Laid u log now none (turn ++ .drain :: o :: rest)
  /-- An advance goes on. -/
  | next {rest : List (Order τ)} {o : Order τ} : GoesTo now (elapsed log) o →
    (∀ a ∈ rest, u.IsOpen a) → Laid u log now none (o :: rest)
  /-- A timer is about to ring. -/
  | rings (k : Nat) {rest : List (Order τ)} : (∀ a ∈ rest, u.IsOpen a) →
    Laid u log now (some k) (.perform (u.ring k) :: .drain :: .runUntil (elapsed log) :: rest)

theorem GoesTo.goesOn {now total : Nat} {o : Order τ} (h : GoesTo now total o) : o.GoesOn := by
  cases o with
  | depart | runUntil => trivial
  | _ => exact h.elim

/-- The layout goes with how far time is to be moved, and whether it is being moved. -/
theorem Laid.of_eq {log log' : List (Entry τ)} {now : Nat} {due : Option Nat}
    (h : u.Laid log now due rest) (he : elapsed log' = elapsed log)
    (hu : underWay log' = underWay log) : u.Laid log' now due rest := by
  cases h with
  | free hpast hopen => exact .free (hu.trans hpast) hopen
  | under turn hturn ho hrest => exact .under turn hturn (he ▸ ho) hrest
  | next ho hrest => exact .next (he ▸ ho) hrest
  | rings k hrest => exact he ▸ .rings k hrest

/-- The log is a chronicle, and the orders go with it. -/
structure Keeps (u : Timekeeping σ) (past : List (Entry τ)) (due : Option Nat)
    (m : Machine σ τ) : Prop where
  /-- The log is a chronicle. -/
  chronicle : Chronicle u.bell past (u.schedule m.world) due
  /-- The orders go with it. -/
  laid : u.Laid past (u.schedule m.world).loop.now due m.agenda

/-- A timer that runs has its callback performed when it rings. -/
theorem orders_of_ring {t : Timer τ} (ht : (u.schedule s).timers[k]? = some t)
    (hp : t.isPending = true) : (World.perform (u.ring k) s).2 = [.perform t.callback] := by
  have hcallback : ((u.schedule s).ring u.ring k).2 = some t.callback := by
    simp only [Schedule.ring, ht, hp, if_true]
  rw [(u.perform_ring k s).2, hcallback]
  rfl

/-- It takes no time to ring. -/
theorem now_step_ring (k : Nat) :
    (Machine.step ⟨s, .perform (u.ring k) :: rest⟩).now = (u.schedule s).loop.now := by
  simp only [Machine.now, Machine.step]
  rw [← u.loop_schedule, (u.perform_ring k s).1, now_ring]

namespace Keeps

/-- A task is performed that rings no timer. -/
theorem perform {t : τ} (h : u.Keeps past none ⟨s, .perform t :: rest⟩) (ht : u.ring? t = none)
    (hf : u.Fair ⟨s, .perform t :: rest⟩)
    (hl : u.Laid past (u.schedule s).loop.now none ((World.perform t s).2 ++ rest)) :
    u.Keeps (u.write ⟨s, .perform t :: rest⟩ past) none (Machine.step ⟨s, .perform t :: rest⟩) := by
  have hw : u.write ⟨s, .perform t :: rest⟩ past =
      writeCalls u.bell (u.schedule s) (u.calls t s) past := by
    simp only [write, ht]
  have hs := u.schedule_perform s ht
  rw [hw]
  refine ⟨?_, ?_⟩
  · simp only [Machine.step]
    rw [hs]
    exact h.chronicle.calls (hf ht).1
  · refine Laid.of_eq ?_ (elapsed_writeCalls ..) (underWay_writeCalls ..)
    simp only [Machine.step]
    rw [hs, Schedule.now_foldl_make]
    exact hl

/-- The next microtask is taken, if there is one. -/
theorem drain (h : u.Keeps past none ⟨s, .drain :: rest⟩)
    (hnone : u.Laid past (u.schedule s).loop.now none rest)
    (hsome : ∀ t, u.ring? t = none →
      u.Laid past (u.schedule s).loop.now none (.perform t :: .drain :: rest)) :
    u.Keeps (u.write ⟨s, .drain :: rest⟩ past) none (Machine.step ⟨s, .drain :: rest⟩) := by
  cases hp : (World.loop s).popMicrotask? with
  | none =>
    have hw : u.write ⟨s, .drain :: rest⟩ past = past := by
      simp only [write, u.loop_schedule, Loop.popMicrotask?_eq_none.1 hp, if_true]
    rw [Machine.step_of_popMicrotask?_eq_none hp, hw]
    exact ⟨h.chronicle, hnone⟩
  | some x =>
    obtain ⟨t, l⟩ := x
    rw [Machine.step_of_popMicrotask? hp]
    obtain ⟨vs, hv, rfl⟩ := Loop.eq_of_popMicrotask? hp
    have hw : u.write ⟨s, .drain :: rest⟩ past = ⟨u.schedule s, .take⟩ :: past := by
      simp [write, u.loop_schedule, hv]
    have hmicro := h.chronicle.tuned.loop.microtasks
    rw [u.loop_schedule, hv] at hmicro
    have hloop : u.schedule (World.withLoop s { World.loop s with microtasks := vs }) =
        (u.schedule s).follow u.bell .take := by
      rw [u.schedule_withLoop, follow, u.loop_schedule, hv]
      rfl
    rw [hw]
    refine ⟨?_, ?_⟩
    · simp only [hloop]
      exact h.chronicle.next rfl
    · simp only [hloop]
      exact (hsome t (hmicro t List.mem_cons_self)).of_eq (Nat.zero_add _) rfl

/-- An advance begins. -/
theorem advance {d : Nat} (h : u.Keeps past none ⟨s, .advance d :: rest⟩)
    (hpast : underWay past = false) (hrest : ∀ o ∈ rest, u.IsOpen o) :
    u.Keeps (u.write ⟨s, .advance d :: rest⟩ past) none
      (Machine.step ⟨s, .advance d :: rest⟩) := by
  have hnow : (u.schedule s).loop.now = elapsed past := h.chronicle.now_eq_elapsed hpast
  refine ⟨h.chronicle.next (d := .advance d) ⟨rfl, hnow⟩, .under [] nofun ?_ hrest⟩
  show (u.schedule s).loop.now + d = d + elapsed past
  omega

/-- What is due is started, or an advance comes to its end. -/
theorem runUntil {target : Nat} (h : u.Keeps past none ⟨s, .runUntil target :: rest⟩)
    (ht : target = elapsed past) (hrest : ∀ o ∈ rest, u.IsOpen o) :
    ∃ due, u.Keeps (u.write ⟨s, .runUntil target :: rest⟩ past) due
      (Machine.step ⟨s, .runUntil target :: rest⟩) := by
  subst ht
  cases hx : (u.schedule s).loop.due? (elapsed past) with
  | none =>
    have hw : u.write ⟨s, .runUntil (elapsed past) :: rest⟩ past =
        ⟨u.schedule s, .arrive (elapsed past)⟩ :: past := by
      simp only [write, hx]
    have hchronicle := h.chronicle.next (d := .arrive (elapsed past)) ⟨rfl, rfl, hx⟩
    rw [u.loop_schedule] at hx
    rw [hw, Machine.step_of_due_eq_none hx, ← u.loop_schedule]
    exact ⟨none, u.schedule_withLoop s _ ▸ hchronicle, .free rfl hrest⟩
  | some x =>
    have hw : u.write ⟨s, .runUntil (elapsed past) :: rest⟩ past =
        ⟨u.schedule s, .leave x⟩ :: past := by
      simp only [write, hx]
    have hchronicle := h.chronicle.next (d := .leave x) ⟨rfl, hx⟩
    have helapsed : elapsed past = elapsed (⟨u.schedule s, .leave x⟩ :: past) :=
      (Nat.zero_add _).symm
    rw [u.loop_schedule] at hx
    rw [hw, Machine.step_of_due hx, ← u.loop_schedule]
    refine ⟨u.bell.ring? x.task, ?_, ?_⟩
    · rw [u.schedule_withLoop]
      exact hchronicle
    cases hk : u.ring? x.task with
    | none =>
      have hd : u.bell.ring? x.task = none := hk
      rw [hd]
      exact .under [.perform x.task] (List.forall_mem_singleton.2 hk) helapsed hrest
    | some k =>
      have hd : u.bell.ring? x.task = some k := hk
      rw [hd, u.ring?_eq_some.1 hk, helapsed]
      exact .rings k hrest

/-- A timer rings: its callback is performed next. -/
theorem ring {total : Nat}
    (h : u.Keeps past (some k) ⟨s, .perform (u.ring k) :: .drain :: .runUntil total :: rest⟩)
    (htotal : total = elapsed past) (hrest : ∀ o ∈ rest, u.IsOpen o) :
    u.Keeps (u.write ⟨s, .perform (u.ring k) :: .drain :: .runUntil total :: rest⟩ past) none
      (Machine.step ⟨s, .perform (u.ring k) :: .drain :: .runUntil total :: rest⟩) := by
  have hw : u.write ⟨s, .perform (u.ring k) :: .drain :: .runUntil total :: rest⟩ past =
      ⟨u.schedule s, .ring k⟩ :: past := by
    simp only [write, u.ring?_eq_some.2 rfl]
  obtain ⟨t, ht, hp, -⟩ := h.chronicle.tuned.due rfl
  rw [hw]
  refine ⟨?_, ?_⟩
  · simp only [Machine.step]
    rw [(u.perform_ring k s).1]
    exact h.chronicle.next (d := .ring k) rfl
  · simp only [Machine.step]
    rw [u.orders_of_ring ht hp]
    exact .under [.perform t.callback]
      (List.forall_mem_singleton.2 (h.chronicle.tuned.callback ht))
      (htotal.trans (Nat.zero_add _).symm) hrest

/-- **A fair step goes on with the chronicle.** -/
theorem step {due : Option Nat} (h : u.Keeps past due m) (hf : u.Fair m) :
    ∃ due, u.Keeps (u.write m past) due m.step := by
  obtain ⟨s, agenda⟩ := m
  have hlaid := h.laid
  dsimp only at hlaid
  cases hlaid with
  | free hpast hopen =>
    cases agenda with
    | nil => exact ⟨none, h.chronicle, .free hpast nofun⟩
    | cons o rest =>
      obtain ⟨ho, hrest⟩ := List.forall_mem_cons.1 hopen
      cases o with
      | perform t =>
        exact ⟨none, h.perform ho hf (.free hpast (List.forall_mem_append.2 ⟨(hf ho).2, hrest⟩))⟩
      | drain =>
        exact ⟨none, h.drain (.free hpast hrest) fun t ht =>
          .free hpast (List.forall_mem_cons.2 ⟨ht, List.forall_mem_cons.2 ⟨trivial, hrest⟩⟩)⟩
      | advance d => exact ⟨none, h.advance hpast hrest⟩
      | _ => exact ho.elim
  | @under turn rest o hopen ho hrest =>
    cases turn with
    | nil =>
      exact ⟨none, h.drain (.next ho hrest) fun t ht =>
        .under [.perform t] (List.forall_mem_singleton.2 ht) ho hrest⟩
    | cons a turn =>
      obtain ⟨ha, hturn⟩ := List.forall_mem_cons.1 hopen
      cases a with
      | perform t =>
        refine ⟨none, h.perform ha hf ?_⟩
        change u.Laid _ _ none ((World.perform t s).2 ++ (turn ++ _))
        rw [← List.append_assoc]
        exact .under _ (List.forall_mem_append.2 ⟨(hf ha).2, hturn⟩) ho hrest
      | drain =>
        exact ⟨none, h.drain (.under turn hturn ho hrest) fun t ht =>
          .under (.perform t :: .drain :: turn)
            (List.forall_mem_cons.2 ⟨ht, List.forall_mem_cons.2 ⟨trivial, hturn⟩⟩) ho hrest⟩
      | advance d =>
        -- the task moves time while it is being moved
        exact absurd ho.goesOn (hf o (by simp))
      | _ => exact ha.elim
  | @next rest o ho hrest =>
    cases o with
    | depart d =>
      refine ⟨none, h.chronicle, .next ?_ hrest⟩
      rw [← u.loop_schedule]
      exact ho
    | runUntil target => exact h.runUntil ho hrest
    | _ => exact ho.elim
  | rings k hrest => exact ⟨none, h.ring rfl hrest⟩

end Keeps

namespace Watch

/-- What is kept in a watched run. -/
theorem keeps (w : u.Watch h m) : ∃ due, u.Keeps (u.log h) due m := by
  induction w with
  | start hs => exact ⟨none, by rw [hs]; exact .start, .free rfl nofun⟩
  | step _ hf ih =>
    obtain ⟨due, k⟩ := ih
    exact k.step hf
  | @turn h s s' orders _ hs horders ih =>
    obtain ⟨due, k⟩ := ih
    have hlaid := k.laid
    dsimp only at hlaid
    generalize hagenda : ([] : List (Order τ)) = agenda at hlaid
    cases hlaid with
    | free hpast => exact ⟨none, hs ▸ k.chronicle, .free hpast horders⟩
    | under turn => exact absurd hagenda (by simp)
    | next => cases hagenda
    | rings => cases hagenda

/-- **The log of a watched run is a chronicle.** -/
theorem chronicle (w : u.Watch h m) :
    ∃ due, Chronicle u.bell (u.log h) (u.schedule m.world) due := by
  obtain ⟨due, k⟩ := w.keeps
  exact ⟨due, k.chronicle⟩

end Watch

/-! ### The life of a timer -/

/-- Timer `k`, which is now `t`, lives as a timer should that rings once. -/
structure Lifecycle (u : Timekeeping σ) (h : List (Machine σ τ)) (m : Machine σ τ) (k : Nat)
    (t : Timer τ) : Prop where
  /-- It runs when the loop holds a timeout for it, and else not. Between the moment at which the
  timeout is taken off the loop and the ring, which is the next thing that happens, there is no
  telling. -/
  running_iff : m.agenda.head? ≠ some (.perform (u.ring k)) →
    (t.state = .running ↔ ∃ x ∈ (u.schedule m.world).loop.timeouts, x.task = u.ring k)
  /-- There is no more than one such timeout. -/
  unique : ((u.schedule m.world).loop.rings u.bell k).length ≤ 1
  /-- The timeout is due when the duration has passed since the timer was started last. -/
  deadline {x : Timeout τ} : x ∈ (u.schedule m.world).loop.timeouts → x.task = u.ring k →
    ∃ after e before, u.log h = after ++ e :: before ∧ e.starts k = true ∧ Untouched k after ∧
      x.deadline = e.found.loop.now + t.duration
  /-- While the timer runs, the time that is left and the time since it was started last make up the
  duration. -/
  remaining : t.state = .running → ∃ after e before left, u.log h = after ++ e :: before ∧
    e.starts k = true ∧ Untouched k after ∧ t.remaining? m.now = some left ∧
      left + (m.now - e.found.loop.now) = t.duration
  /-- To invoke the callback is to perform it next, at once if the timer rings. -/
  performs {e : Entry τ} : u.write m (u.log h) = e :: u.log h → e.invokes k (u.log h) = true →
    (∃ rest, m.step.agenda = .perform t.callback :: rest) ∧
      (e.rings k = true → m.step.now = e.found.loop.now)
  /-- The callback is invoked at most once for each start. -/
  invocations_le : invocations k (u.log h) ≤ (u.log h).countP (Entry.starts k)
  /-- Once started, the timer rings when its duration has passed, and not before, if it is not
  paused, cancelled or skipped. -/
  punctual : Punctual k (u.log h) 0 t.duration
  /-- To skip the timer does not invoke the callback: it is left with the loop, for a timeout that
  is due at once. -/
  skip {after before : List (Entry τ)} {e : Entry τ} : u.log h = after ++ e :: before →
    e.skips k = true → e.invokes k before = false ∧
      let x : Timeout τ := ⟨e.found.loop.now, e.found.loop.nextId, t.callback⟩
      x ∈ (u.schedule m.world).loop.timeouts ∨ (∃ a ∈ after, a.deed = .leave x) ∨
        ∃ a ∈ after, a.deed = .call (.loop (.clear x.id))
  /-- If the timer goes on for timers that were paused, it rings when they have all run for as long
  as the first one was made for. -/
  handover {total spent : Nat} : Handover (u.log h) total k spent →
    Punctual k (u.log h) spent total

namespace Keeps

variable {due : Option Nat} {t : Timer τ}

/-- The timer that is about to ring is next on the agenda. -/
theorem due_ne_some (h : u.Keeps past due m) (hm : m.agenda.head? ≠ some (.perform (u.ring k))) :
    due ≠ some k := by
  rintro rfl
  have hlaid := h.laid
  generalize m.agenda = agenda at hm hlaid
  cases hlaid
  exact hm rfl

theorem running_iff (h : u.Keeps past due m) (ht : (u.schedule m.world).timers[k]? = some t)
    (hk : due ≠ some k) :
    t.state = .running ↔ ∃ x ∈ (u.schedule m.world).loop.timeouts, x.task = u.ring k := by
  constructor
  · intro hs
    obtain ⟨id, hr⟩ := h.chronicle.tuned.exists_rings_eq hk ht (decide_eq_true hs)
    exact ⟨_, Loop.mem_rings.1 (hr ▸ List.mem_singleton_self _)⟩
  · rintro ⟨x, hx⟩
    obtain ⟨v, hv, hp, -⟩ :=
      h.chronicle.tuned.timer_of_mem_rings (b := u.bell) (Loop.mem_rings.2 hx)
    obtain rfl := Option.some.inj (ht.symm.trans hv)
    exact of_decide_eq_true hp

theorem unique (h : u.Keeps past due m) :
    ((u.schedule m.world).loop.rings u.bell k).length ≤ 1 := by
  cases hr : (u.schedule m.world).loop.rings u.bell k with
  | nil => exact Nat.zero_le 1
  | cons x xs =>
    obtain ⟨t, -, -, -, hone, -⟩ :=
      h.chronicle.tuned.timer_of_mem_rings (x := x) (hr ▸ List.mem_cons_self)
    rw [← hr, hone]
    exact Nat.le_refl 1

theorem deadline (h : u.Keeps past due m) (ht : (u.schedule m.world).timers[k]? = some t)
    (hr : t.repeats = false) {x : Timeout τ} (hx : x ∈ (u.schedule m.world).loop.timeouts)
    (hk : x.task = u.ring k) : ∃ after e before, past = after ++ e :: before ∧
      e.starts k = true ∧ Untouched k after ∧ x.deadline = e.found.loop.now + t.duration := by
  obtain ⟨v, hv, hp, hxv, -⟩ :=
    h.chronicle.tuned.timer_of_mem_rings (b := u.bell) (Loop.mem_rings.2 ⟨hx, hk⟩)
  obtain rfl := Option.some.inj (ht.symm.trans hv)
  obtain ⟨after, e, before, heq, he, hu, hat⟩ := h.chronicle.exists_start ht hr hp
  exact ⟨after, e, before, heq, he, hu, by rw [hxv, hat]⟩

theorem remaining (h : u.Keeps past due m) (ht : (u.schedule m.world).timers[k]? = some t)
    (hr : t.repeats = false) (hs : t.state = .running) :
    ∃ after e before left, past = after ++ e :: before ∧ e.starts k = true ∧
      Untouched k after ∧ t.remaining? m.now = some left ∧
        left + (m.now - e.found.loop.now) = t.duration := by
  have hp : t.isPending = true := decide_eq_true hs
  obtain ⟨after, e, before, heq, he, hu, hat⟩ := h.chronicle.exists_start ht hr hp
  have hnow := h.chronicle.now_le ht hp
  rw [u.loop_schedule] at hnow
  refine ⟨after, e, before, _, heq, he, hu, by rw [Timer.remaining?, hs], ?_⟩
  rw [← hat]
  simp only [Machine.now]
  omega

/-- A timer rings when it is about to. -/
theorem due_eq_some (h : u.Keeps past due ⟨s, .perform (u.ring k) :: rest⟩) : due = some k := by
  have hring : ¬ u.IsOpen (.perform (u.ring k)) := fun hopen => by
    cases (u.ring?_eq_some.2 rfl).symm.trans hopen
  have hlaid := h.laid
  dsimp only at hlaid
  generalize ha : Order.perform (u.ring k) :: rest = agenda at hlaid
  cases hlaid with
  | free _ hopen => exact absurd (hopen _ (ha ▸ List.mem_cons_self)) hring
  | under turn hopen =>
    cases turn with
    | nil => cases ha
    | cons a turn => exact absurd (hopen _ ((List.cons.inj ha).1 ▸ List.mem_cons_self)) hring
  | next ho => exact ((List.cons.inj ha).1 ▸ ho : GoesTo _ _ (.perform (u.ring k))).elim
  | rings j =>
    have hj : u.ring k = u.ring j := Order.perform.inj (List.cons.inj ha).1
    exact (u.ring?_eq_some.2 rfl).symm.trans (hj ▸ u.ring?_eq_some.2 rfl)

/-- The callback of a timer that rings is performed next. -/
theorem performs_of_ring (h : u.Keeps past due ⟨s, .perform (u.ring k) :: rest⟩)
    (ht : (u.schedule s).timers[k]? = some t) :
    (Machine.step ⟨s, .perform (u.ring k) :: rest⟩).agenda = .perform t.callback :: rest := by
  obtain ⟨v, hv, hp, -⟩ := h.chronicle.tuned.due h.due_eq_some
  obtain rfl := Option.some.inj (ht.symm.trans hv)
  simp only [Machine.step, u.orders_of_ring ht hp]
  rfl

/-- A timeout that makes up for a skip has the task that was left then. -/
theorem task_of_mem_skipped (h : u.Keeps past due m)
    (ht : (u.schedule m.world).timers[k]? = some t) {x : Timeout τ}
    (hx : x ∈ (u.schedule m.world).loop.timeouts) (hid : x.id ∈ skipped k past) :
    x.task = t.callback := by
  obtain ⟨e, he, hid⟩ := List.mem_map.1 hid
  obtain ⟨hmem, hk⟩ := List.mem_filter.1 he
  obtain ⟨v, hv, rfl⟩ := h.chronicle.eq_of_mem_skipped hx hmem hk hid.symm
  obtain ⟨after, before, rfl⟩ := List.append_of_mem hmem
  obtain ⟨w, hw, hmake⟩ := h.chronicle.sameMake hv
  obtain rfl := Option.some.inj (ht.symm.trans hw)
  exact hmake.callback.symm

/-- A callback that is invoked is performed next, by a timer that rings at once. -/
theorem performs (h : u.Keeps past due m) (ht : (u.schedule m.world).timers[k]? = some t)
    (he : u.write m past = e :: past) (hi : e.invokes k past = true) :
    (∃ rest, m.step.agenda = .perform t.callback :: rest) ∧
      (e.rings k = true → m.step.now = e.found.loop.now) := by
  rw [Entry.invokes, Bool.or_eq_true] at hi
  obtain ⟨s, agenda⟩ := m
  cases agenda with
  | nil => exact absurd he.symm (List.cons_ne_self e past)
  | cons o rest =>
    cases does_of_write he with
    | ring j =>
      have hj : j = k := by simpa [Entry.rings, Entry.makesUp] using hi
      subst hj
      exact ⟨⟨rest, h.performs_of_ring ht⟩, fun _ => now_step_ring j⟩
    | @leave target x hx =>
      have hid : x.id ∈ skipped k past := by simpa [Entry.rings, Entry.makesUp] using hi
      have hmem : x ∈ (u.schedule s).loop.timeouts :=
        (Loop.due?_eq_some hx).1 ▸ List.mem_cons_self
      rw [u.loop_schedule] at hx
      refine ⟨⟨_, by rw [Machine.step_of_due hx, h.task_of_mem_skipped ht hmem hid]⟩, fun hr => ?_⟩
      cases hr
    | _ => simp [Entry.rings, Entry.makesUp] at hi

/-- What is skipped is left with the loop. -/
theorem skip (h : u.Keeps past due m) (ht : (u.schedule m.world).timers[k]? = some t)
    {after before : List (Entry τ)} (hlog : past = after ++ e :: before) (he : e.skips k = true) :
    e.invokes k before = false ∧
      let x : Timeout τ := ⟨e.found.loop.now, e.found.loop.nextId, t.callback⟩
      x ∈ (u.schedule m.world).loop.timeouts ∨ (∃ a ∈ after, a.deed = .leave x) ∨
        ∃ a ∈ after, a.deed = .call (.loop (.clear x.id)) := by
  subst hlog
  obtain ⟨hd, hskip⟩ := Entry.skips_eq_true.1 he
  obtain ⟨v, hv, -⟩ := skip_eq_true hskip
  obtain ⟨w, hw, hmake⟩ := h.chronicle.sameMake hv
  obtain rfl := Option.some.inj (ht.symm.trans hw)
  refine ⟨by simp [Entry.invokes, Entry.rings, Entry.makesUp, hd], ?_⟩
  rw [hmake.callback]
  exact h.chronicle.waits_of_skips he hv

end Keeps

/-- **The life of a timer** that rings once, in a watched run. -/
theorem Watch.lifecycle {t : Timer τ} (w : u.Watch h m)
    (ht : (u.schedule m.world).timers[k]? = some t) (hr : t.repeats = false) :
    u.Lifecycle h m k t := by
  obtain ⟨due, hk⟩ := w.keeps
  refine ⟨fun hm => hk.running_iff ht (hk.due_ne_some hm), hk.unique, hk.deadline ht hr,
    hk.remaining ht hr, hk.performs ht, hk.chronicle.invocations_le fun v hv => ?_,
    hk.chronicle.punctual ht (Nat.zero_add _), ?_, ?_⟩
  · obtain rfl := Option.some.inj (ht.symm.trans hv)
    exact hr
  · exact hk.skip ht
  · intro total spent hh
    obtain ⟨v, hv, -, htotal⟩ := hk.chronicle.handover hh
    obtain rfl := Option.some.inj (ht.symm.trans hv)
    exact hk.chronicle.punctual ht htotal

/-! ### The rhythm of a timer -/

/-- Timer `k`, which is now `t` and was started after the log `before`, in the entry `e`, rings as a
timer should that repeats. -/
structure Rhythm (u : Timekeeping σ) (h : List (Machine σ τ)) (m : Machine σ τ) (k : Nat)
    (t : Timer τ) (after : List (Entry τ)) (e : Entry τ) (before : List (Entry τ)) : Prop where
  /-- It still runs. -/
  running : t.state = .running
  /-- It has rung at the ends of its intervals. -/
  times : ringTimes k after = beats e.found.loop.now t.duration (ringTimes k after).length
  /-- When there is nothing to be done it has rung as often as the interval goes into the time that
  has passed. -/
  count : m.agenda = [] → (ringTimes k after).length = (m.now - e.found.loop.now) / t.duration
  /-- This time is that of all advances since the start, if it was not made during one. -/
  total : m.agenda = [] → underWay before = false → m.now = e.found.loop.now + elapsed after
  /-- To ring is to perform the callback next, and at once. -/
  performs {a : Entry τ} : u.write m (u.log h) = a :: u.log h → a.rings k = true →
    (∃ rest, m.step.agenda = .perform t.callback :: rest) ∧ m.step.now = a.found.loop.now
  /-- The callback has not been invoked but by a ring, if the timer was not skipped before. -/
  invoked {later mid : List (Entry τ)} {a : Entry τ} : after = later ++ a :: mid →
    (∀ x ∈ before, x.skips k = false) → a.invokes k (mid ++ e :: before) = a.rings k

/-- When there is nothing to be done no time is being moved. -/
theorem Keeps.underWay_eq_false {due : Option Nat} (h : u.Keeps past due m)
    (hm : m.agenda = []) : underWay past = false := by
  have hlaid := h.laid
  generalize m.agenda = agenda at hm hlaid
  cases hlaid with
  | free hpast => exact hpast
  | under turn => exact absurd hm (by simp)
  | next => cases hm
  | rings => cases hm

/-- **The rhythm of a timer** that repeats and is not stopped, in a watched run. -/
theorem Watch.rhythm {t : Timer τ} {after before : List (Entry τ)} (w : u.Watch h m)
    (ht : (u.schedule m.world).timers[k]? = some t) (hr : t.repeats = true) (hd : 0 < t.duration)
    (hlog : u.log h = after ++ e :: before) (he : e.starts k = true)
    (hstops : ∀ a ∈ after, a.stops k = false) : u.Rhythm h m k t after e before := by
  obtain ⟨due, hk⟩ := w.keeps
  have hchronicle := hk.chronicle
  rw [hlog] at hchronicle
  obtain ⟨hp, n, htimes, -⟩ := hchronicle.ringTimes_eq_beats he ht hr hstops
  have hrest (hm : m.agenda = []) : underWay (after ++ e :: before) = false :=
    hlog ▸ hk.underWay_eq_false hm
  obtain ⟨hstart, -⟩ := Entry.starts_eq_true.1 he
  refine ⟨of_decide_eq_true hp, ?_, fun hm => ?_, fun hm hbefore => ?_,
    fun {a} hw hrings => ?_, fun {later mid a} hafter hbefore => ?_⟩
  · rw [htimes, length_beats]
  · rw [hchronicle.length_ringTimes he ht hr hstops (hrest hm) hd, u.loop_schedule]
    rfl
  · obtain ⟨_, hc, hmay⟩ := hchronicle.of_append
    have hnow := hchronicle.now_eq_elapsed (hrest hm)
    have hzero : e.deed.distance = 0 := by
      rw [hstart]
      rfl
    rw [elapsed_append, Chronicle.elapsed_cons, hzero, Nat.zero_add, ← hc.now_eq_elapsed hbefore,
      u.loop_schedule] at hnow
    exact hnow.trans (Nat.add_comm ..)
  · have hi : a.invokes k (u.log h) = true := by
      rw [Entry.invokes, hrings]
      rfl
    obtain ⟨hperforms, hnow⟩ := hk.performs ht hw hi
    exact ⟨hperforms, hnow hrings⟩
  · -- since the start nobody has skipped the timer, which would have stopped it
    subst hafter
    refine Entry.invokes_eq_rings (List.forall_mem_append.2
      ⟨fun x hx => ?_, List.forall_mem_cons.2 ⟨?_, hbefore⟩⟩)
    · refine Bool.eq_false_iff.2 fun hk => ?_
      have hs := hstops x (List.mem_append_right _ (List.mem_cons_of_mem a hx))
      cases (Entry.stops_of_skips hk).symm.trans hs
    · simp [Entry.skips, hstart]

end Timekeeping

end Novella
