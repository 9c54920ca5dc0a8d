import Novella.Proofs.Restore.PastTimers

/-!
# What a host sees

A host gives input, lets time pass and loads scenes, one after another, each when all that came of
the one before is over. What it sees of this are the signals and the positions that the script comes
to, each with its time. Machines of which one is the other one after a past show the same.

## Main definitions

* `Input`, `Machine.goOn` — what the host does, and the turns that it leads to
* `sights`, `Shows` — what is seen of some turns

## Main results

* `Machine.Carries.shows_iff` — a machine shows the same with a past and without
-/

namespace Novella

open Player

/-- What a host may do to a script that runs. -/
inductive Input where
  /-- It gives input. -/
  | next
  /-- It loads the scene that is asked for, if any is. -/
  | load
  /-- It lets time pass. -/
  | advance (d : Nat)

/-- What the machine has to do then. -/
def Input.begin (p : Player) : Input → Machine Player Task
  | next => ⟨p, [.perform (.call .nobody .next)]⟩
  | load => ⟨p.load.1, []⟩
  | advance d => ⟨p, [.advance d]⟩

/-- The machine goes on, or takes up the next input if there is nothing to do. -/
def Machine.goOn (m : Machine Player Task) (inputs : List Input) :
    Machine Player Task × List Input :=
  match m.agenda, inputs with
  | [], i :: inputs => (i.begin m.world, inputs)
  | _, inputs => (m.step, inputs)

/-- What is seen of the next turns. -/
def sights (start : Nat) : Nat → Machine Player Task × List Input → List Sight
  | 0, _ => []
  | n + 1, x => (x.1.sight? start).toList ++ sights start n (x.1.goOn x.2)

/-- This is what is seen of some turns. -/
def Shows (start : Nat) (x : Machine Player Task × List Input) (ss : List Sight) : Prop :=
  ∃ n, sights start n x = ss

theorem sights_prefix (start k n : Nat) (x : Machine Player Task × List Input) :
    sights start k x <+: sights start (k + n) x := by
  induction k generalizing x with
  | zero => exact List.nil_prefix
  | succ k ih =>
    rw [Nat.add_right_comm, sights, sights]
    exact (List.prefix_append_right_inj _).2 (ih _)

/-- There is one thing that is seen first. -/
theorem Shows.head_eq {start : Nat} {x : Machine Player Task × List Input} {s t : Sight}
    {ss ts : List Sight} (h : Shows start x (s :: ss)) (h' : Shows start x (t :: ts)) : s = t := by
  obtain ⟨k, hk⟩ := h
  obtain ⟨n, hn⟩ := h'
  have hs : s :: ss <+: sights start (k + n) x := hk ▸ sights_prefix start k n x
  have ht : t :: ts <+: sights start (k + n) x := by
    rw [← hn, Nat.add_comm]
    exact sights_prefix start n k x
  obtain ⟨us, hus⟩ := hs
  obtain ⟨vs, hvs⟩ := ht
  exact List.head_eq_of_cons_eq (hus.trans hvs.symm)

namespace Machine

variable {σ : Shift} {m n l : Machine Player Task} {p q : Player} {inputs : List Input}
  {start : Nat}

theorem goOn_of_busy (h : m.agenda ≠ []) (inputs : List Input) :
    m.goOn inputs = (m.step, inputs) := by
  rw [goOn]
  exact fun _ _ ha _ => h ha

/-- Nothing is seen where nothing is to be done. -/
theorem sight?_of_nil (h : m.agenda = []) : m.sight? start = none := by
  have hsig : m.signal? = none := by
    rw [signal?, h]
  rw [sight?, step_of_agenda_eq_nil h]
  exact if_pos ⟨hsig, rfl⟩

/-- Steps that are not seen do not matter. -/
theorem sights_of_leads (h : Leads Unseen m l) (start : Nat) (inputs : List Input) :
    ∃ j, (∀ k, sights start (j + k) (m, inputs) = sights start k (l, inputs)) ∧
      ∀ k ≤ j, sights start k (m, inputs) = [] := by
  induction h with
  | refl =>
    refine ⟨0, fun k => by rw [Nat.zero_add], fun k hk => ?_⟩
    rw [Nat.le_zero.1 hk]
    rfl
  | @step m l hm _ ih =>
    obtain ⟨j, hj, hnil⟩ := ih
    have hstep (k : Nat) : sights start (k + 1) (m, inputs) = sights start k (m.step, inputs) := by
      rw [sights, hm.sight?, goOn_of_busy hm.busy]
      rfl
    refine ⟨j + 1, fun k => ?_, fun k hk => ?_⟩
    · rw [Nat.add_right_comm, hstep, hj]
    · cases k with
      | zero => rfl
      | succ k =>
        rw [hstep]
        exact hnil k (Nat.le_of_succ_le_succ hk)

theorem shows_of_leads (h : Leads Unseen m l) (start : Nat) (inputs : List Input)
    (ss : List Sight) : Shows start (m, inputs) ss ↔ Shows start (l, inputs) ss := by
  obtain ⟨j, hj, hnil⟩ := sights_of_leads h start inputs
  constructor
  · rintro ⟨k, rfl⟩
    rcases Nat.le_total k j with hk | hk
    · exact ⟨0, (hnil k hk).symm⟩
    · obtain ⟨k, rfl⟩ := Nat.exists_eq_add_of_le hk
      exact ⟨k, (hj k).symm⟩
  · rintro ⟨k, rfl⟩
    exact ⟨j + k, hj k⟩

namespace Carries

/-- An input is taken up in both. -/
theorem begin (h : Player.Matches σ p q) (i : Input) : Carries σ (i.begin p) (i.begin q) := by
  cases i with
  | load =>
    exact ⟨h.load.world.toCarries, .nil, fun _ => h.load.world.now,
      fun _ ho => absurd ho (Option.not_mem_none _), trivial⟩
  | next =>
    have hown : Order.IsPending (.perform (.call .nobody .next)) := ⟨rfl, .inl rfl⟩
    refine ⟨h.toCarries, Laced.nil.own hown, fun _ => h.now, fun o ho hd => ?_, nofun, trivial⟩
    · obtain rfl := Option.some.inj ho
      exact hd.elim
  | advance d =>
    have hown : Order.IsPending (.advance d) := trivial
    refine ⟨h.toCarries, Laced.nil.own hown, fun _ => h.now, fun o ho hd => ?_, nofun, trivial⟩
    · obtain rfl := Option.some.inj ho
      exact hd.elim

/-- Both machines take a turn, after unseen steps. -/
theorem goOn (h : Carries σ m n) (inputs : List Input) :
    ∃ f l, Leads Unseen m l ∧ (∀ start, l.sight? (start + σ.time) = n.sight? start) ∧
      Carries { σ with timeout := f } (l.goOn inputs).1 (n.goOn inputs).1 ∧
        (l.goOn inputs).2 = (n.goOn inputs).2 := by
  by_cases hn : n.agenda = []
  · obtain ⟨f, p, agenda, hlead, hc, ⟨rfl, -⟩ | ⟨o, rest, rest', -, hcons, -⟩⟩ := h.catchUp
    · refine ⟨f, ⟨p, []⟩, hlead, fun start => ?_, ?_⟩
      · rw [sight?_of_nil hn, sight?_of_nil rfl]
      · obtain ⟨q, agenda⟩ := n
        obtain rfl : agenda = [] := hn
        cases inputs with
        | nil => exact ⟨hc, rfl⟩
        | cons i inputs => exact ⟨.begin ⟨hc.world, hc.now fun target heq => by cases heq⟩ i, rfl⟩
    · cases hn.symm.trans hcons
  · obtain ⟨f, l, hlead, hab⟩ := h.follow hn
    obtain ⟨f', hc⟩ := hab.step
    refine ⟨f', l, hlead, hab.sight, ?_⟩
    rw [goOn_of_busy hab.busy, goOn_of_busy hn]
    exact ⟨hc, rfl⟩

/-- **A machine with a past** shows what the machine without it shows. -/
theorem shows_iff (h : Carries σ m n) (start : Nat) (inputs : List Input) (ss : List Sight) :
    Shows (start + σ.time) (m, inputs) ss ↔ Shows start (n, inputs) ss := by
  constructor
  · rintro ⟨k, rfl⟩
    induction k using Nat.strongRecOn generalizing σ m n inputs with
    | ind k ih =>
      obtain ⟨f, l, hlead, hsight, hc, hinputs⟩ := h.goOn inputs
      obtain ⟨j, hj, hnil⟩ := sights_of_leads hlead (start + σ.time) inputs
      rcases Nat.lt_or_ge j k with hk | hk
      · obtain ⟨k', rfl⟩ := Nat.exists_eq_add_of_lt hk
        obtain ⟨i, hi⟩ := ih k' (by omega) hc (l.goOn inputs).2
        rw [hinputs] at hi
        refine ⟨i + 1, ?_⟩
        rw [Nat.add_assoc, hj, sights, sights, hsight]
        exact congrArg _ (hi.trans (by rw [← hinputs]))
      · exact ⟨0, (hnil k hk).symm⟩
  · rintro ⟨k, rfl⟩
    induction k generalizing σ m n inputs with
    | zero => exact ⟨0, rfl⟩
    | succ k ih =>
      obtain ⟨f, l, hlead, hsight, hc, hinputs⟩ := h.goOn inputs
      rw [shows_of_leads hlead]
      obtain ⟨i, hi⟩ := ih hc (n.goOn inputs).2
      refine ⟨i + 1, ?_⟩
      rw [sights, sights, hsight]
      exact congrArg _ (.trans (by rw [← hinputs]) hi)

end Carries

end Machine

end Novella
