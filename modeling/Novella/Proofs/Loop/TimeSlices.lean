import Novella.Proofs.Loop.Scheduling

/-!
# Time in slices

Time may be moved forward at one go or slice by slice: the same tasks are performed, in the same
order and at the same time, and they leave the same world behind. The tasks may be any that move no
time themselves.

Two machines are compared that have the same to do, but for the advance that is under way: the first
has its whole length before it, the second only the first slice, with the other one behind. They
keep step until nothing more is due in the first slice. There the second machine stops, at a time at
which nothing happens to the first, and sets out again for the same target. Then they are the same.

## Main definitions

* `Incident`, `Machine.incidents` — the tasks of a run, with the worlds that they find
* `Machine.Matches` — a step of one machine is taken by another, after silent steps
* `Machine.Slices` — the second machine has to stop on its way

## Main results

* `Machine.Slices.matched` — both machines take the same steps, but for the stop
* `Usage.advance_add` — to advance twice is to advance once
-/

namespace Novella

variable {σ τ : Type}

/-- A task is taken up, in the world that it finds. -/
inductive Incident (σ τ : Type) where
  /-- A microtask is taken off the loop. -/
  | microtask (t : τ) (s : σ)
  /-- A timeout is started. -/
  | timeout (x : Timeout τ) (s : σ)
  /-- A task is performed. -/
  | task (t : τ) (s : σ)

/-- What is due is due for every later target. -/
theorem Loop.due?_of_le {l : Loop τ} {x : Timeout τ} {target later : Nat}
    (h : l.due? target = some x) (hle : target ≤ later) : l.due? later = some x := by
  obtain ⟨hx, hd⟩ := Option.filter_eq_some_iff.1 h
  exact Option.filter_eq_some_iff.2
    ⟨hx, decide_eq_true (Nat.le_trans (of_decide_eq_true hd) hle)⟩

variable [World σ τ]

namespace Machine

variable {m n : Machine σ τ} {R : Machine σ τ → Machine σ τ → Prop} {s : σ}
  {rest : List (Order τ)} {target : Nat}

/-- The task that is taken up in the next step. -/
def incident? (m : Machine σ τ) : Option (Incident σ τ) :=
  let l := World.loop m.world
  match m.agenda with
  | .perform t :: _ => some (.task t m.world)
  | .drain :: _ => l.popMicrotask?.map fun x => .microtask x.1 (World.withLoop m.world x.2)
  | .runUntil target :: _ =>
    (l.due? target).map fun x => .timeout x (World.withLoop m.world (l.leave x))
  | _ => none

/-- The tasks that are taken up in some steps. -/
def incidents : Nat → Machine σ τ → List (Incident σ τ)
  | 0, _ => []
  | k + 1, m => m.incident?.toList ++ incidents k m.step

theorem incidents_add (k l : Nat) (m : Machine σ τ) :
    incidents (k + l) m = incidents k m ++ incidents l (m.run k) := by
  induction k generalizing m with
  | zero => rw [Nat.zero_add]; rfl
  | succ k ih => rw [Nat.succ_add, incidents, incidents, ih, run_succ, List.append_assoc]

/-! ### Silent steps -/

/-- The second machine takes the step of the first one after some silent steps. -/
def Matches (R : Machine σ τ → Machine σ τ → Prop) (m n : Machine σ τ) : Prop :=
  ∃ k, incidents k n = [] ∧ (n.run k).incident? = m.incident? ∧ R m.step (n.run (k + 1))

theorem Matches.of_step (hi : n.incident? = m.incident?) (h : R m.step n.step) : Matches R m n :=
  ⟨0, rfl, hi, by rw [run_succ]; exact h⟩

theorem Matches.incidents {k : Nat} (hsilent : incidents k n = [])
    (hi : (n.run k).incident? = m.incident?) : incidents (k + 1) n = m.incident?.toList := by
  rw [incidents_add, hsilent, List.nil_append, Machine.incidents, Machine.incidents,
    List.append_nil, hi]

/-- What the first machine does the second one comes to do. -/
theorem exists_incidents_eq (hR : ∀ m n, R m n → Matches R m n) (h : R m n) (k : Nat) :
    ∃ l, k ≤ l ∧ incidents l n = incidents k m ∧ R (m.run k) (n.run l) := by
  induction k generalizing m n with
  | zero => exact ⟨0, Nat.le_refl _, rfl, h⟩
  | succ k ih =>
    obtain ⟨j, hsilent, hi, hstep⟩ := hR m n h
    obtain ⟨l, hl, hil, hr⟩ := ih hstep
    refine ⟨j + 1 + l, by omega, ?_, ?_⟩
    · rw [incidents_add, Matches.incidents hsilent hi, hil, incidents]
    · rwa [run_succ, run_add]

/-- The second machine does nothing else. -/
theorem exists_incidents_eq' (hR : ∀ m n, R m n → Matches R m n) (h : R m n) (l : Nat) :
    ∃ k, incidents k m = incidents l n := by
  induction l using Nat.strongRecOn generalizing m n with
  | ind l ih =>
    obtain ⟨j, hsilent, hi, hstep⟩ := hR m n h
    rcases Nat.lt_or_ge j l with hlt | hge
    · -- the matching step has been taken
      obtain ⟨i, rfl⟩ : ∃ i, l = j + 1 + i := Nat.exists_eq_add_of_le hlt
      obtain ⟨k, hk⟩ := ih i (by omega) hstep
      refine ⟨k + 1, ?_⟩
      rw [incidents_add (j + 1), Matches.incidents hsilent hi, incidents, hk]
    · obtain ⟨i, rfl⟩ := Nat.exists_eq_add_of_le hge
      rw [incidents_add] at hsilent
      exact ⟨0, (List.append_eq_nil_iff.1 hsilent).1.symm⟩

/-! ### A stop on the way -/

/-- The second order leaves `b` milliseconds of the first one for later. -/
inductive Cut (b : Nat) : Order τ → Order τ → Prop
  /-- The advance has not departed. -/
  | depart (a : Nat) : Cut b (.depart (a + b)) (.depart a)
  /-- The advance is under way. -/
  | runUntil (target : Nat) : Cut b (.runUntil (target + b)) (.runUntil target)

/-- Two machines with the same to do, but that the second one stops on its way. -/
inductive Slices (u : Usage σ) (b : Nat) (rest : List (Order τ)) :
    Machine σ τ → Machine σ τ → Prop
  /-- Time is about to be moved. -/
  | start {s : σ} (a : Nat) : u.Holds (World.loop s) →
    Slices u b rest ⟨s, .advance (a + b) :: rest⟩ ⟨s, .advance a :: .advance b :: rest⟩
  /-- Tasks are done before the advance goes on. -/
  | under {s : σ} (turn : List (Order τ)) {o o' : Order τ} : u.Holds (World.loop s) →
    (∀ x ∈ turn, x.IsBrief u.Held) → Cut b o o' →
    Slices u b rest ⟨s, turn ++ .drain :: o :: rest⟩
      ⟨s, turn ++ .drain :: o' :: .advance b :: rest⟩
  /-- The advance goes on. -/
  | next {s : σ} {o o' : Order τ} : u.Holds (World.loop s) → (World.loop s).microtasks = [] →
    Cut b o o' → Slices u b rest ⟨s, o :: rest⟩ ⟨s, o' :: .advance b :: rest⟩
  /-- The stop is behind. -/
  | same (m : Machine σ τ) : Slices u b rest m m

/-- Where nothing is due any more, a machine that stops sets out again without a task. -/
theorem run_stop (hm : (World.loop s).microtasks = []) (hd : (World.loop s).due? target = none)
    (b : Nat) (rest : List (Order τ)) :
    incidents 4 (⟨s, .runUntil target :: .advance b :: rest⟩ : Machine σ τ) = [] ∧
      run 4 ⟨s, .runUntil target :: .advance b :: rest⟩ =
        ⟨World.withLoop s { World.loop s with now := target }, .runUntil (target + b) :: rest⟩ := by
  obtain ⟨s', hs'⟩ : ∃ s', s' = World.withLoop s { World.loop s with now := target } := ⟨_, rfl⟩
  have hl : World.loop s' = { World.loop s with now := target } := by rw [hs', World.loop_withLoop]
  have hnone : (World.loop s').popMicrotask? = none := by
    rw [hl, Loop.popMicrotask?_eq_none]
    exact hm
  have hstop : step ⟨s, .runUntil target :: .advance b :: rest⟩ = ⟨s', .advance b :: rest⟩ :=
    hs' ▸ step_of_due_eq_none hd
  have hagain : step ⟨s', .advance b :: rest⟩ = ⟨s', .drain :: .depart b :: rest⟩ := rfl
  have hdrain : step ⟨s', .drain :: .depart b :: rest⟩ = ⟨s', .depart b :: rest⟩ :=
    step_of_popMicrotask?_eq_none hnone
  have hdepart : step ⟨s', .depart b :: rest⟩ = ⟨s', .runUntil (target + b) :: rest⟩ := by
    rw [step, hl]
  constructor
  · simp only [incidents, hstop, hagain, hdrain]
    simp [incident?, hd, hnone]
  · rw [run_succ, run_succ, run_succ, run_succ, hstop, hagain, hdrain, hdepart, run, hs']

namespace Slices

variable {u : Usage σ} {b : Nat}

/-- The first step behind the stop makes both machines the same. -/
theorem matches_stop (hm : (World.loop s).microtasks = [])
    (hd : (World.loop s).due? target = none) :
    Matches (Slices u b rest) ⟨s, .runUntil (target + b) :: rest⟩
      ⟨s, .runUntil target :: .advance b :: rest⟩ := by
  obtain ⟨hsilent, hrun⟩ := run_stop hm hd b rest
  refine ⟨4, hsilent, ?_, ?_⟩
  · rw [hrun]
    simp [incident?, Loop.due?, Loop.leave]
  · rw [run_add, hrun, run_succ, run]
    have hdue : (World.loop (World.withLoop s { World.loop s with now := target })).due?
        (target + b) = (World.loop s).due? (target + b) := by
      rw [World.loop_withLoop]
      rfl
    cases hd' : (World.loop s).due? (target + b) with
    | none =>
      rw [step_of_due_eq_none hd', step_of_due_eq_none (hdue.trans hd')]
      simpa using .same _
    | some x =>
      rw [step_of_due hd', step_of_due (hdue.trans hd')]
      simpa [Loop.leave] using .same _

/-- Both machines take up the same microtask, if there is one. -/
theorem matches_drain {later later' : List (Order τ)} (hl : u.Holds (World.loop s))
    (hnone : (World.loop s).microtasks = [] → Slices u b rest ⟨s, later⟩ ⟨s, later'⟩)
    (hsome : ∀ t l, u.Held t → u.Holds l → Slices u b rest
      ⟨World.withLoop s l, .perform t :: .drain :: later⟩
      ⟨World.withLoop s l, .perform t :: .drain :: later'⟩) :
    Matches (Slices u b rest) ⟨s, .drain :: later⟩ ⟨s, .drain :: later'⟩ := by
  refine .of_step rfl ?_
  cases hp : (World.loop s).popMicrotask? with
  | none =>
    rw [step_of_popMicrotask?_eq_none hp, step_of_popMicrotask?_eq_none hp]
    exact hnone (Loop.popMicrotask?_eq_none.1 hp)
  | some x =>
    obtain ⟨t, l⟩ := x
    obtain ⟨ht, hl'⟩ := hl.popMicrotask hp
    rw [step_of_popMicrotask? hp, step_of_popMicrotask? hp]
    exact hsome t l ht hl'

/-- **Both machines take the same steps, but for the stop.** -/
theorem matched (hb : u.Brief) (h : Slices u b rest m n) : Matches (Slices u b rest) m n := by
  cases h with
  | same m => exact .of_step rfl (.same _)
  | @start s a hl => exact .of_step rfl (.under [] hl (by simp) (.depart a))
  | @next s o o' hl hm hc =>
    cases hc with
    | depart a =>
      refine .of_step rfl ?_
      change Slices u b rest ⟨s, .runUntil ((World.loop s).now + (a + b)) :: rest⟩
        ⟨s, .runUntil ((World.loop s).now + a) :: .advance b :: rest⟩
      rw [← Nat.add_assoc]
      exact .next hl hm (.runUntil _)
    | runUntil target =>
      cases hd : (World.loop s).due? target with
      | none => exact matches_stop hm hd
      | some x =>
        have hd' := Loop.due?_of_le hd (Nat.le_add_right target b)
        refine .of_step (by simp [incident?, hd, hd']) ?_
        rw [step_of_due hd, step_of_due hd']
        refine .under [.perform x.task] ?_ (List.forall_mem_singleton.2 ?_) (.runUntil target)
        · rw [World.loop_withLoop]
          exact hl.leave x
        · exact hl.timeouts x ((Loop.due?_eq_some hd).1 ▸ List.mem_cons_self)
  | @under s turn o o' hl ht hc =>
    cases turn with
    | nil =>
      refine matches_drain hl (fun hm => .next hl hm hc) fun t l ht hl' => ?_
      exact .under [.perform t] (by rwa [World.loop_withLoop]) (List.forall_mem_singleton.2 ht) hc
    | cons a turn =>
      obtain ⟨ha, hmore⟩ := List.forall_mem_cons.1 ht
      cases a with
      | perform t =>
        refine .of_step rfl ?_
        simp only [List.cons_append, step]
        rw [← List.append_assoc, ← List.append_assoc]
        exact .under _ (hl.perform (m := ⟨s, []⟩) (u.asked ha))
          (List.forall_mem_append.2 ⟨hb t s ha, hmore⟩) hc
      | drain =>
        refine matches_drain hl (fun _ => .under turn hl hmore hc) fun t l ht hl' => ?_
        exact .under (.perform t :: .drain :: turn) (by rwa [World.loop_withLoop])
          (List.forall_mem_cons.2 ⟨ht, List.forall_mem_cons.2 ⟨trivial, hmore⟩⟩) hc
      | advance d => exact ha.elim
      | depart d => exact ha.elim
      | runUntil target => exact ha.elim
      | halt => exact ha.elim

/-- A machine at rest is compared with itself. -/
theorem agenda_ne_nil (h : Slices u b rest m n) : m = n ∨ m.agenda ≠ [] ∧ n.agenda ≠ [] := by
  cases h with
  | same => exact .inl rfl
  | _ => exact .inr ⟨by simp, by simp⟩

end Slices

end Machine

/-- **To advance twice is to advance once.** Whatever waits on the loop, and whatever the tasks do
that move no time themselves: in both cases the same tasks are taken up, one after another, and each
finds the same world, with the same time; and if they come to an end, they leave the same world
behind. -/
theorem Usage.advance_add {u : Usage σ} (hb : u.Brief) {s : σ} (hs : u.Holds (World.loop s))
    (a b : Nat) (rest : List (Order τ)) :
    let once : Machine σ τ := ⟨s, .advance (a + b) :: rest⟩
    let twice : Machine σ τ := ⟨s, .advance a :: .advance b :: rest⟩
    (∀ k, ∃ l, twice.incidents l = once.incidents k) ∧
      (∀ l, ∃ k, once.incidents k = twice.incidents l) ∧
      ∀ s', (∃ k, once.run k = ⟨s', []⟩) ↔ ∃ l, twice.run l = ⟨s', []⟩ := by
  intro once twice
  have h : Machine.Slices u b rest once twice := .start a hs
  have hR (m n : Machine σ τ) (h : Machine.Slices u b rest m n) :
      Machine.Matches (Machine.Slices u b rest) m n := h.matched hb
  refine ⟨fun k => ?_, Machine.exists_incidents_eq' hR h, fun s' => ⟨?_, ?_⟩⟩
  · obtain ⟨l, -, hl, -⟩ := Machine.exists_incidents_eq hR h k
    exact ⟨l, hl⟩
  · rintro ⟨k, hk⟩
    obtain ⟨l, -, -, hr⟩ := Machine.exists_incidents_eq hR h k
    rw [hk] at hr
    exact ⟨l, (hr.agenda_ne_nil.resolve_right fun hn => hn.1 rfl).symm⟩
  · rintro ⟨l, hl⟩
    obtain ⟨k, hle, -, hr⟩ := Machine.exists_incidents_eq hR h l
    -- the second machine rests by the time that the first one has taken as many steps
    obtain ⟨i, rfl⟩ := Nat.exists_eq_add_of_le hle
    have hi : twice.run (l + i) = ⟨s', []⟩ := by
      rw [Machine.run_add, hl]
      exact Machine.run_of_agenda_eq_nil rfl i
    rw [hi] at hr
    exact ⟨l, hr.agenda_ne_nil.resolve_right fun hn => hn.2 rfl⟩

namespace LoopProgram

/-- The desk after the calls of `errands` that schedule timeouts. -/
def scheduledErrands : Desk := ((given errands).run 3).world

/-- The timeouts of `errands` are started alike if twenty milliseconds pass at one go, or if there
is a stop between those that are due after ten and the one that is due after twenty. -/
theorem advance_add_errands :
    briefUsage.Brief ∧ briefUsage.Holds (World.loop scheduledErrands) ∧ ∃ l s',
      Machine.run l ⟨scheduledErrands, [.advance 12, .advance 8]⟩ = ⟨s', []⟩ ∧
        (World.loop s').now = 20 := by
  have hs : briefUsage.Holds (World.loop scheduledErrands) :=
    ((run_given asked_errands 3).keeps brief_briefUsage).holds
  have hrest : (Machine.run 19 ⟨scheduledErrands, [.advance (12 + 8)]⟩).agenda = [] := rfl
  have hnow :
      (World.loop (Machine.run 19 ⟨scheduledErrands, [.advance (12 + 8)]⟩).world).now = 20 := rfl
  obtain ⟨l, hl⟩ := ((Usage.advance_add brief_briefUsage hs 12 8 []).2.2 _).1
    ⟨19, congrArg (Machine.mk _) hrest⟩
  exact ⟨brief_briefUsage, hs, l, _, hl, hnow⟩

end LoopProgram

end Novella
