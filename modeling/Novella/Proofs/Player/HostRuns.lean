import Novella.Proofs.Player.Deliveries
import Novella.Session

/-!
# Runs of a player with its host

A player does nothing by itself. Its host calls it when nothing is left to do, and has left other
calls with it, to be made when text appears, when a cell changes or when a command of the host is
run. A *run* is any sequence of machine steps and turns of the host, together with its history, the
machines that took a step so far, the last one first.

What a host may do is a test on calls. It extends to the calls that a call leaves behind, so a host
that passes it keeps passing it when its listeners have their turn. Hosts that keep their hands off
the cells of the script have steady machines only, so a property of histories and courses that every
move preserves holds all along a run.

## Main definitions

* `Player.Begins` — the players that a run starts from
* `Run` — runs and their histories

## Main results

* `Run.invariant`, `Run.invariant_turn` — what every move preserves holds in every run
-/

namespace Novella

/-! ### Beginnings -/

namespace Player

/-- What the host may put on an empty agenda. -/
def IsHostOrder (P : HostCall → Prop) (o : Order Task) : Prop :=
  (∃ a c, o = .perform (.call a c) ∧ c.Within P) ∨ ∃ d, o = .advance d

/-- The players that a run starts from: one that is driven by its host alone, and the one of a
session. -/
inductive Begins : Player → Prop where
  /-- A player without a session. -/
  | standard (source : SceneSource) (filter : DebugFilter) (settings : Settings) :
      Begins (.standard source filter settings)
  /-- The player of a session. -/
  | session (source : SceneSource) (filter : DebugFilter) (settings : Settings) (clock : Instant) :
      Begins (Session.playerOf source filter settings clock)

/-- A player without scenes of its own. -/
def plain (speed : TextSpeed) : Player := .standard (.ofTexts []) {} { textSpeed := speed }

theorem begins_plain (speed : TextSpeed) : (plain speed).Begins := .standard ..

end Player

open Player

/-- The course at the beginning. -/
def Course.fresh : Course where
  scene := ""
  index := 0
  turns := []
  lines := none
  phase := .idle
  queue := []
  generation := 0
  live := []
  loadVersion := 0
  loadRequest := none
  requests := #[]

/-- A cell that the player alone observes. -/
theorem Attended.first {α : Type} (r : Reaction) (v : α) :
    Attended r 0 (({ value := v } : Cell α Reaction).observe r (fun _ => true) false) :=
  ⟨⟨[], _, [], rfl, ⟨rfl, by simp⟩, ⟨rfl, rfl, fun _ => rfl, rfl⟩, by simp⟩, Nat.zero_lt_one⟩

/-- A cell that begins a page before the player hears it. -/
theorem Attended.second {α : Type} (r : Reaction) (v : α) :
    Attended r 1 ((({ value := v } : Cell α Reaction).observe .openPage (fun _ => true)
      false).observe r (fun _ => true) false) := by
  refine ⟨⟨[_], _, [], rfl, ⟨rfl, fun o ho => ?_⟩, ⟨rfl, rfl, fun _ => rfl, rfl⟩, by simp⟩,
    Nat.one_lt_two⟩
  rw [List.mem_singleton.1 ho]
  exact ⟨rfl, fun _ => rfl, rfl⟩

/-- Nothing is left with the player of a new session. -/
theorem Session.tame_playerOf (P : HostCall → Prop) (source : SceneSource) (filter : DebugFilter)
    (settings : Settings) (clock : Instant) : (playerOf source filter settings clock).Tame P := by
  have ht := Tame.following (((Tame.of_empty (p := {
      source, filter
      stage := { settings := { value := settings } }
      book := { history := History.ofLimit settings.historyLimit.toNat, clock } })
    rfl rfl rfl).observe (P := P) .index .openPage (fun _ => true) false).observe
      .settings .limitHistory (fun _ => true) false)
  exact ht.of_eq rfl rfl ht.listeners

/-- The player of a session hears the index after the book. -/
theorem Session.steady_playerOf (source : SceneSource) (filter : DebugFilter) (settings : Settings)
    (clock : Instant) : Steady 1 ⟨playerOf source filter settings clock, []⟩ .fresh := by
  refine .quiet (tame_playerOf ..) ⟨@fun x hx => ?_, @fun x hx => ?_, .nil, rfl⟩ fun o ho =>
    absurd ho List.not_mem_nil
  · rcases hx with rfl | rfl
    · exact .first .loadScene ""
    · exact .second .runLine 0
  · rcases hx with rfl | rfl <;> exact iff_of_false Bool.false_ne_true List.not_mem_nil

theorem Player.Begins.steady {p : Player} (h : p.Begins) : ∃ k, Steady k ⟨p, []⟩ .fresh := by
  cases h with
  | standard source filter settings =>
    refine ⟨0, .quiet ?_ ⟨@fun x hx => ?_, @fun x hx => ?_, .nil, rfl⟩ fun o ho =>
      absurd ho List.not_mem_nil⟩
    · exact Tame.following (.of_empty rfl rfl rfl)
    · rcases hx with rfl | rfl
      · exact .first .loadScene ""
      · exact .first .runLine 0
    · rcases hx with rfl | rfl <;> exact iff_of_false Bool.false_ne_true List.not_mem_nil
  | session source filter settings clock => exact ⟨1, Session.steady_playerOf ..⟩

/-! ### Runs -/

/-- A machine is reached from another one by its own steps and by turns of a host whose calls pass
the test `P`. The list holds the machines that took a step, the last one first. -/
inductive Run (P : HostCall → Prop) (m₀ : Machine Player Task) :
    List (Machine Player Task) → Machine Player Task → Prop where
  /-- Nothing has happened yet. -/
  | start : Run P m₀ [] m₀
  /-- The machine takes a step. -/
  | step {h : List (Machine Player Task)} {m : Machine Player Task} :
      Run P m₀ h m → Run P m₀ (m :: h) m.step
  /-- The host calls. The pages, the list of events and the last answer are its own business. -/
  | turn {h : List (Machine Player Task)} {p : Player} (book : Book) (events : Array Event)
      (answer : Answer) {orders : Orders} :
      Run P m₀ h ⟨p, []⟩ → (∀ o ∈ orders, IsHostOrder P o) →
      Run P m₀ h ⟨{ p with book, events, answer }, orders⟩
  /-- The host connects a hook. -/
  | connect {h : List (Machine Player Task)} {p : Player} (hook : Hook) {l : Listener} :
      Run P m₀ h ⟨p, []⟩ → (∀ c ∈ l.body, c.Within P) →
      Run P m₀ h (continuing (p.connect hook l))
  /-- The host connects a hook of the session. -/
  | connectToBook {h : List (Machine Player Task)} {p : Player} (hook : Hook) {l : Listener} :
      Run P m₀ h ⟨p, []⟩ → (∀ c ∈ l.body, c.Within P) →
      Run P m₀ h (continuing (p.connectToBook hook l))

/-! ### Steps on end -/

namespace Machine

/-- The machines that take the next `n` steps, the last one first. -/
def trail : Nat → Machine Player Task → List (Machine Player Task)
  | 0, _ => []
  | n + 1, m => m.step.trail n ++ [m]

end Machine

/-- The machine that makes calls for the host, one after the other. -/
def Player.called (p : Player) (calls : List HostCall) : Machine Player Task :=
  ⟨p, calls.map (fun c => .perform (.call .caller c))⟩

namespace Run

variable {P : HostCall → Prop} {m₀ m : Machine Player Task} {h : List (Machine Player Task)}

theorem steps (r : Run P m₀ h m) (n : Nat) : Run P m₀ (m.trail n ++ h) (m.run n) := by
  induction n generalizing h m with
  | zero => exact r
  | succ n ih =>
    rw [Machine.run_succ, Machine.trail, List.append_assoc]
    exact ih r.step

/-- The machine takes some steps. -/
theorem steps_self (m : Machine Player Task) (n : Nat) : Run P m (m.trail n) (m.run n) := by
  have hs := (start : Run P m [] m).steps n
  rwa [List.append_nil] at hs

/-- The host makes calls, and the machine takes some steps. -/
theorem calls {p : Player} (r : Run P m₀ [] ⟨p, []⟩) {calls : List HostCall}
    (hc : ∀ c ∈ calls, c.Within P) (n : Nat) :
    Run P m₀ ((p.called calls).trail n) ((p.called calls).run n) := by
  have hr : Run P m₀ [] (p.called calls) := by
    refine r.turn p.book p.events p.answer fun o ho => ?_
    obtain ⟨c, hm, rfl⟩ := List.mem_map.1 ho
    exact .inl ⟨.caller, c, rfl, hc c hm⟩
  have hs := hr.steps n
  rwa [List.append_nil] at hs

end Run

/-! ### Courses of runs -/

namespace Steady

variable {k : Nat} {p : Player} {c : Course}

/-- When nothing is left to do nothing is being delivered. -/
theorem of_rest (h : Steady k ⟨p, []⟩ c) : p.Tame HostCall.KeepsPlace ∧ p.Follows k c := by
  generalize hm : (⟨p, []⟩ : Machine Player Task) = m at h
  cases h with
  | quiet ht hf _ =>
    cases hm
    exact ⟨ht, hf⟩
  | deliver => cases hm
  | @hear q x i orders c _ _ _ _ hi _ =>
    have hne : hearing k i x (q.stage.cell x).value ≠ [] := by
      rcases Nat.lt_or_eq_of_le hi with hlt | rfl
      · rw [hearing_of_lt hlt]
        exact List.cons_ne_nil _ _
      · rw [hearing_self]
        exact List.cons_ne_nil _ _
    exact absurd (List.append_eq_nil_iff.1 (Machine.mk.inj hm).2.symm).1 hne

end Steady

namespace Run

variable {m₀ m : Machine Player Task} {h : List (Machine Player Task)} {k : Nat} {c₀ : Course}

/-- **What every move preserves holds in every run**, also if it is said of the machine. The turns
of the host leave the inside of the player as it is. -/
theorem invariant_turn {I : List (Machine Player Task) → Machine Player Task → Course → Prop}
    (hs : Steady k m₀ c₀) (start : I [] m₀ c₀)
    (step : ∀ {h m c c'}, Steady k m c → I h m c → Moves m c c' → Steady k m.step c' →
      I (m :: h) m.step c')
    (turn : ∀ {h p q c orders}, Steady k ⟨p, []⟩ c → I h ⟨p, []⟩ c → q.inside = p.inside →
      I h ⟨q, orders⟩ c)
    (r : Run HostCall.KeepsPlace m₀ h m) : ∃ c, Steady k m c ∧ I h m c := by
  induction r with
  | start => exact ⟨c₀, hs, start⟩
  | step _ ih =>
    obtain ⟨c, hm, hi⟩ := ih
    obtain ⟨c', hmove, hm'⟩ := hm.step
    exact ⟨c', hm', step hm hi hmove hm'⟩
  | @turn h p book events answer orders _ ho ih =>
    obtain ⟨c, hm, hi⟩ := ih
    obtain ⟨ht, hf⟩ := hm.of_rest
    refine ⟨c, .quiet (ht.of_eq rfl rfl ht.listeners) (hf.of_core rfl) fun o h => ?_,
      turn hm hi rfl⟩
    rcases ho o h with ⟨a, d, rfl, hd⟩ | ⟨d, rfl⟩
    · exact .inl hd
    · exact .inl trivial
  | @connect h p hook l _ hl ih =>
    obtain ⟨c, hm, hi⟩ := ih
    obtain ⟨ht, hf⟩ := hm.of_rest
    have hc := ht.connect hook hl
    exact ⟨c, .quiet hc.tame (hf.of_inside (inside_connect ..)) fun o h => .inl (hc.orders o h),
      turn hm hi (inside_connect ..)⟩
  | @connectToBook h p hook l _ hl ih =>
    obtain ⟨c, hm, hi⟩ := ih
    obtain ⟨ht, hf⟩ := hm.of_rest
    have hc := ht.connectToBook hook hl
    exact ⟨c, .quiet hc.tame (hf.of_inside (inside_connectToBook ..)) fun o h =>
      .inl (hc.orders o h), turn hm hi (inside_connectToBook ..)⟩

/-- What is said of histories and courses only is left alone by the host. -/
theorem invariant {I : List (Machine Player Task) → Course → Prop}
    (hs : Steady k m₀ c₀) (start : I [] c₀)
    (step : ∀ {h m c c'}, Steady k m c → I h c → Moves m c c' → Steady k m.step c' →
      I (m :: h) c')
    (r : Run HostCall.KeepsPlace m₀ h m) : ∃ c, Steady k m c ∧ I h c :=
  r.invariant_turn (I := fun h _ c => I h c) hs start step fun _ hi _ => hi

theorem steady (hs : Steady k m₀ c₀) (r : Run HostCall.KeepsPlace m₀ h m) : ∃ c, Steady k m c := by
  obtain ⟨c, hm, -⟩ := r.invariant (I := fun _ _ => True) hs trivial fun _ _ _ _ => trivial
  exact ⟨c, hm⟩

end Run

end Novella
