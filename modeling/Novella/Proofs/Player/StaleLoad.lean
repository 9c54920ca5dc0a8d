import Novella.Proofs.Player.SceneChange

/-!
# Answers to requests for a scene

The host fetches scenes while the script and its readers go on, so an answer may come when nobody
waits for it any more. A request is *open* from when the scene is heard until it is answered or the
scene changes, and only the answer to an open request should count.

The player goes by the number of scenes asked for and by its phase. Both change when the scene is
heard and not when it is written. So the answers that count are those to open requests, and those
that come after a change of the scene but before the scene has been delivered.

## Main definitions

* `IsOpen` — the requests that wait for an answer
* `Machine.Counts`, `Machine.Ignores` — answers that take effect, and those that do not
* `Machine.Heeds` — an answer is treated as it should be

## Main results

* `answer_heeded_iff` — every answer is treated as it should be, unless the scene waits
-/

namespace Novella

open Player

/-! ### Open requests -/

namespace Machine

variable (m : Machine Player Task)

/-- The machine is about to ask for a scene by this request. -/
def Issues (r : LoadRequest) : Prop :=
  m.hears? = some .scene ∧ m.step.world.loadRequest = some r

instance (r : LoadRequest) : Decidable (m.Issues r) := inferInstanceAs (Decidable (_ ∧ _))

/-- The answer takes effect: the host is told so, or the lines or the phase change. -/
def Counts : Prop :=
  (∃ a k lines rest, m.agenda = .perform (.call a (.complete k lines)) :: rest ∧
      m.step.agenda = .perform (.report a (.flag true)) :: rest) ∨
    m.step.world.lines ≠ m.world.lines ∨ m.step.world.phase ≠ m.world.phase

/-- The answer takes no effect, and the host is told so. -/
structure Ignores : Prop where
  /-- The host is told that the request was not open. -/
  answer {a : Audience} {k : Nat} {lines : Option (List String)} {rest : Orders} :
    m.agenda = .perform (.call a (.complete k lines)) :: rest →
      m.step.agenda = .perform (.report a (.flag false)) :: rest
  /-- The lines stay. -/
  lines : m.step.world.lines = m.world.lines
  /-- The phase stays. -/
  phase : m.step.world.phase = m.world.phase
  /-- The index stays. -/
  index : m.step.world.stage.index = m.world.stage.index
  /-- Nothing is queued. -/
  microtasks : m.step.world.loop.microtasks = m.world.loop.microtasks

end Machine

/-- The request has been issued, and since then it has not been answered and the scene has not
changed. -/
def IsOpen (h : List (Machine Player Task)) (r : LoadRequest) : Prop :=
  Since (fun n => ¬ n.ChangesScene ∧ n.answer?.map Prod.fst ≠ some r) (fun n => n.Issues r) h

/-- The answer to the request takes effect only if the request is open, and else none at all. -/
def Machine.Heeds (m : Machine Player Task) (h : List (Machine Player Task)) (r : LoadRequest) :
    Prop :=
  (m.Counts → IsOpen h r) ∧ (¬ IsOpen h r → m.Ignores)

/-- A request is not open once the scene has changed, even if that has not been heard. -/
theorem not_isOpen_of_sceneChanged {h : List (Machine Player Task)} {r : LoadRequest}
    (hc : SceneChanged h) : ¬ IsOpen h r := by
  induction h with
  | nil => exact id
  | cons n h ih =>
    rintro (⟨hh, -⟩ | ⟨hn, ho⟩)
    · rcases hc with hc | ⟨hne, -⟩
      · exact Machine.not_changesScene (Moves.jump?_of_hears? hh) hc
      · exact hne hh
    · rcases hc with hc | ⟨-, hc⟩
      · exact hn.1 hc
      · exact ih hc ho

/-- A request that was issued when the scene was last heard is open while the scene has not changed.
-/
theorem isOpen_of_since {h : List (Machine Player Task)} {r : LoadRequest}
    (hs : Since (fun n => n.hears? ≠ some .scene ∧ n.answer?.map Prod.fst ≠ some r)
      (fun n => n.Issues r) h) (hc : ¬ SceneChanged h) : IsOpen h r := by
  induction h with
  | nil => exact hs
  | cons n h ih =>
    rcases hs with hi | ⟨⟨hne, ha⟩, hs⟩
    · exact .inl hi
    · have hn : ¬ n.ChangesScene := fun hn => hc (.inl hn)
      exact .inr ⟨⟨hn, ha⟩, ih hs fun h => hc (.inr ⟨hne, h⟩)⟩

/-! ### What an answer does -/

namespace Machine

variable {m : Machine Player Task} {r : LoadRequest} {x : Except SourceError (List String)}

theorem step_complete {p : Player} {a : Audience} {k : Nat} {lines : Option (List String)}
    {rest : Orders} (hr : p.requests[k]? = some r) :
    Machine.step ⟨p, .perform (.call a (.complete k lines)) :: rest⟩ =
      ⟨(p.completeLoad r (found r lines)).1,
        .perform (.report a (.flag (p.completeLoad r (found r lines)).2)) :: rest⟩ := by
  have hp : Player.perform (.call a (.complete k lines)) p =
      ((p.completeLoad r (found r lines)).1,
        [.perform (.report a (.flag (p.completeLoad r (found r lines)).2))]) := by
    simp only [Player.perform, Player.call, hr]
    cases lines <;> rfl
  rw [Steady.step_perform, hp]
  rfl

theorem step_load {p : Player} {rest : Orders} (hr : p.loadRequest = some r) :
    Machine.step ⟨p, .perform .load :: rest⟩ =
      ⟨({ p with loadRequest := none }.completeLoad r (p.source r.scene)).1,
        .settle :: .perform .load :: rest⟩ := by
  have hp : Player.perform .load p =
      (({ p with loadRequest := none }.completeLoad r (p.source r.scene)).1,
        [.settle, .perform .load]) := by
    simp only [Player.perform, Player.load, takeRequest, hr]
  rw [Steady.step_perform, hp]
  rfl

theorem completeLoad_of_not {p : Player} (h : ¬ (r.version = p.loadVersion ∧ p.phase = .loading)) :
    (p.completeLoad r x).2 = false ∧ (p.completeLoad r x).1.inside = p.inside := by
  unfold completeLoad
  rw [if_pos (Decidable.not_and_iff_or_not.1 h)]
  exact ⟨rfl, inside_trace ..⟩

theorem completeLoad_of_accepts {p : Player} (h : r.version = p.loadVersion ∧ p.phase = .loading) :
    (p.completeLoad r x).2 = true ∧ (p.completeLoad r x).1.phase ≠ .loading := by
  unfold completeLoad
  rw [if_neg fun hn => hn.elim (· h.1) (· h.2)]
  cases x with
  | ok lines => exact ⟨rfl, by simp [notify, store]⟩
  | error e => exact ⟨rfl, by simp [logError, note]⟩

/-- What only the host sees has no part in this. -/
theorem unchanged_of_inside {p q : Player} (h : q.inside = p.inside) :
    q.lines = p.lines ∧ q.phase = p.phase ∧ q.stage.index = p.stage.index ∧
      q.loop.microtasks = p.loop.microtasks := by
  have hl := congrArg Player.lines h
  have hp := congrArg Player.phase h
  have hi := congrArg (fun p => p.stage.index) h
  have hm := congrArg (fun p => p.loop.microtasks) h
  exact ⟨hl, hp, hi, hm⟩

/-- An answer to a request that the player does not wait for takes no effect. -/
theorem ignores_of_not_accepts (ha : m.answer? = some (r, x)) (h : ¬ m.Accepts r) : m.Ignores := by
  obtain ⟨p, agenda⟩ := m
  rcases answer?_eq_some ha with ⟨a, k, lines, rest, rfl, hr, -⟩ | ⟨rest, rfl, hr, -⟩
  · obtain ⟨hf, hin⟩ := completeLoad_of_not (x := found r lines) h
    obtain ⟨hl, hp, hi, hm⟩ := unchanged_of_inside hin
    refine ⟨fun heq => ?_, ?_, ?_, ?_, ?_⟩
    · cases heq
      rw [step_complete hr, hf]
    all_goals rw [step_complete hr]
    · exact hl
    · exact hp
    · exact hi
    · exact hm
  · obtain ⟨-, hin⟩ := completeLoad_of_not (p := { p with loadRequest := none })
      (x := p.source r.scene) h
    obtain ⟨hl, hp, hi, hm⟩ := unchanged_of_inside hin
    refine ⟨fun heq => (by cases heq), ?_, ?_, ?_, ?_⟩
    all_goals rw [step_load hr]
    · exact hl
    · exact hp
    · exact hi
    · exact hm

/-- An answer to the request that the player waits for takes effect. -/
theorem counts_of_accepts (ha : m.answer? = some (r, x)) (h : m.Accepts r) : m.Counts := by
  obtain ⟨p, agenda⟩ := m
  have hp : p.phase = .loading := h.2
  rcases answer?_eq_some ha with ⟨a, k, lines, rest, rfl, hr, -⟩ | ⟨rest, rfl, hr, -⟩
  · obtain ⟨ht, -⟩ := completeLoad_of_accepts (x := found r lines) h
    exact .inl ⟨a, k, lines, rest, rfl, by rw [step_complete hr, ht]⟩
  · obtain ⟨-, hph⟩ := completeLoad_of_accepts (p := { p with loadRequest := none })
      (x := p.source r.scene) h
    refine .inr (.inr ?_)
    rw [step_load hr]
    exact fun heq => hph (heq.trans hp)

theorem Ignores.not_counts (h : m.Ignores) : ¬ m.Counts := by
  rintro (⟨a, k, lines, rest, hm, hs⟩ | hl | hp)
  · cases (h.answer hm).symm.trans hs
  · exact hl h.lines
  · exact hp h.phase

end Machine

/-! ### What a course has to do with its request -/

namespace Course

variable {c c' : Course} {r : LoadRequest}

/-- The course waits for one request at most, and all others are older. -/
structure Expects (c : Course) (r : LoadRequest) : Prop where
  /-- It is the last one. -/
  version : r.version = c.loadVersion
  /-- There is no other like it. -/
  unique {q : LoadRequest} : c.Knows q → q.version = c.loadVersion → q = r

theorem Expects.mono (h : c.Expects r) (hv : c'.loadVersion = c.loadVersion)
    (hk : ∀ {q}, c'.Knows q → c.Knows q) : c'.Expects r :=
  ⟨by rw [hv]; exact h.version, fun hq hqv => h.unique (hk hq) (hv ▸ hqv)⟩

end Course

/-- What a history has to do with the request that its course waits for. -/
structure Expected (h : List (Machine Player Task)) (c : Course) : Prop where
  /-- The scene waits if it has changed. -/
  waits : .scene ∈ c.turns ↔ SceneChanged h
  /-- No request is newer than the last one. -/
  bound {r : LoadRequest} : c.Knows r → r.version ≤ c.loadVersion
  /-- The last one was issued when the scene was last heard, and has not been answered since. -/
  issued : c.phase = .loading → ∃ r, c.Expects r ∧
    Since (fun n => n.hears? ≠ some .scene ∧ n.answer?.map Prod.fst ≠ some r)
      (fun n => n.Issues r) h

namespace Expected

variable {k : Nat} {m : Machine Player Task} {h : List (Machine Player Task)} {c c' : Course}

/-- A step that neither answers the request nor issues one. -/
theorem of_quiet (he : Expected h c) (hw : .scene ∈ c'.turns ↔ SceneChanged (m :: h))
    (hb : ∀ {q}, c'.Knows q → q.version ≤ c'.loadVersion) (hv : c'.loadVersion = c.loadVersion)
    (hk : ∀ {q}, c'.Knows q → c.Knows q) (hp : c'.phase = .loading → c.phase = .loading)
    (hh : m.hears? ≠ some .scene) (ha : ∀ r x, m.answer? = some (r, x) → ¬ c.Awaits r) :
    Expected (m :: h) c' := by
  refine ⟨hw, hb, fun hl => ?_⟩
  obtain ⟨r, hr, hs⟩ := he.issued (hp hl)
  refine ⟨r, hr.mono hv hk, .inr ⟨⟨hh, fun heq => ?_⟩, hs⟩⟩
  obtain ⟨⟨q, x⟩, hq, rfl⟩ := Option.map_eq_some_iff.1 heq
  exact ha q x hq ⟨hr.version, hp hl⟩

theorem step (hs : Steady k m c) (he : Expected h c) (hm : Moves m c c')
    (hs' : Steady k m.step c') : Expected (m :: h) c' := by
  have hw := scene_waits_iff hs hm he.waits
  have hb {q : LoadRequest} : c'.Knows q → q.version ≤ c'.loadVersion := hm.bound he.bound
  have quiet (ha : m.answer? = none) (r : LoadRequest) (x : Except SourceError (List String))
      (h : m.answer? = some (r, x)) : ¬ c.Awaits r := by
    cases ha.symm.trans h
  cases hm with
  | @jump s i hj hc =>
    obtain ⟨ts, ts', heq, -⟩ := c.jump_eq s i
    have hh : m.hears? ≠ some .scene := by simp [Machine.hears?_of_jump? hj]
    rw [heq] at hw hb ⊢
    exact he.of_quiet hw hb rfl id id hh (quiet (Machine.answer?_of_jump? hj))
  | @answer r x c₀ ha hc hr =>
    have hh : m.hears? ≠ some .scene := by simp [Machine.hears?_of_answer? ha]
    have hk₀ := Course.KeepsScene.of_asked hr
    obtain ⟨request, rfl⟩ := Moves.exists_request hr
    by_cases haw : Course.Awaits { c with loadRequest := request } r
    · exact ⟨hw, hb, fun hp => absurd hp (Course.phase_answer haw x)⟩
    · rw [Course.answer_of_not_awaits haw] at hw hb ⊢
      refine he.of_quiet hw hb hk₀.loadVersion hk₀.known hk₀.phase hh fun q y hq => ?_
      cases ha.symm.trans hq
      exact haw
  | @scene ts hh ht =>
    have hreq : (Course.loadScene { c with turns := ts } c.scene).loadRequest =
        m.step.world.loadRequest := by rw [hs'.course_eq]; rfl
    refine ⟨hw, hb, fun hp => ?_⟩
    obtain ⟨phase, version, request, heq, hcase⟩ :=
      Course.loadScene_eq { c with turns := ts } c.scene
    rw [heq] at hp hreq ⊢
    rcases hcase with ⟨rfl, -⟩ | ⟨-, rfl, rfl⟩
    · cases hp
    · refine ⟨⟨c.scene, c.loadVersion + 1⟩, ⟨rfl, fun hq hv => ?_⟩, .inl ⟨hh, hreq.symm⟩⟩
      rcases hq with hq | hq
      · exact absurd hv (Nat.ne_of_lt (Nat.lt_succ_of_le (he.bound (.inl hq))))
      · cases hq
        rfl
  | index hh ht _ hr =>
    have hk := hr.keepsScene
    exact he.of_quiet hw hb hk.loadVersion hk.known hk.phase (by simp [hh])
      (quiet (Moves.answer?_of_hears? hh))
  | inner hj ha hh hi =>
    have hk := hi.keepsScene
    exact he.of_quiet hw hb hk.loadVersion hk.known hk.phase (by simp [hh]) (quiet ha)

theorem fresh : Expected [] .fresh :=
  ⟨iff_of_false List.not_mem_nil id,
    fun h => h.elim (fun h => absurd h (Array.not_mem_empty _)) (fun h => by cases h),
    fun h => by cases h⟩

end Expected

/-! ### The result -/

/-- **Stale answers.** An answer to a request takes effect only if the request is open, and
otherwise none at all, exactly unless it comes in the time between a change of the scene and its
delivery to the player who still waits for the old one. -/
theorem answer_heeded_iff {p : Player} (hp : p.Begins) {h : List (Machine Player Task)}
    {m : Machine Player Task} (run : Run HostCall.KeepsPlace ⟨p, []⟩ h m) {r : LoadRequest}
    {x : Except SourceError (List String)} (ha : m.answer? = some (r, x)) :
    m.Heeds h r ↔ ¬ (m.Accepts r ∧ m.world.stage.scene.scheduled = true) := by
  obtain ⟨k, hs⟩ := hp.steady
  obtain ⟨c, hm, he⟩ := run.invariant (I := Expected) hs .fresh Expected.step
  have hscene : m.world.stage.scene.scheduled = true ↔ SceneChanged h := by
    rw [← he.waits]
    rcases Machine.answer?_eq_some ha with ⟨a, n, lines, rest, hag, -⟩ | ⟨rest, hag, -⟩ <;>
      exact hm.waits hag (fun _ h => by cases h) (fun _ _ _ h => by cases h) (.inl rfl)
  have hopen (hacc : m.Accepts r) (hn : ¬ m.world.stage.scene.scheduled = true) : IsOpen h r := by
    have hc := hm.course_eq
    obtain ⟨r', hr', hsince⟩ := he.issued (by rw [hc]; exact hacc.2)
    have hr : r = r' := hr'.unique (hm.knows_of_answer? ha) (by rw [hc]; exact hacc.1)
    exact isOpen_of_since (hr ▸ hsince) fun h => hn (hscene.2 h)
  constructor
  · rintro hheeds ⟨hacc, hsch⟩
    exact not_isOpen_of_sceneChanged (hscene.1 hsch) (hheeds.1 (Machine.counts_of_accepts ha hacc))
  · intro hn
    refine ⟨fun hcounts => ?_, fun hno => ?_⟩
    · have hacc : m.Accepts r := Decidable.byContradiction fun hacc =>
        (Machine.ignores_of_not_accepts ha hacc).not_counts hcounts
      exact hopen hacc fun hsch => hn ⟨hacc, hsch⟩
    · refine Machine.ignores_of_not_accepts ha fun hacc => hno ?_
      exact hopen hacc fun hsch => hn ⟨hacc, hsch⟩

/-! ### Two answers -/

/-- A host that asks for a scene, makes some calls and then answers the request. -/
def answering (calls : List HostCall) : Machine Player Task :=
  (Player.plain .instant).called
    ([.goto "a" 0, .settle, .take] ++ calls ++ [.complete 0 (some ["click"])])

theorem run_answering {calls : List HostCall} (hc : ∀ c ∈ calls, c.Within HostCall.KeepsPlace)
    (n : Nat) :
    Run HostCall.KeepsPlace ⟨.plain .instant, []⟩ ((answering calls).trail n)
      ((answering calls).run n) := by
  refine Run.calls .start (fun c hm => ?_) n
  simp only [List.mem_append, List.mem_cons, List.not_mem_nil, or_false] at hm
  rcases hm with ((rfl | rfl | rfl) | hm) | rfl
  · exact .of_body_eq_nil trivial rfl
  · exact .of_body_eq_nil trivial rfl
  · exact .of_body_eq_nil trivial rfl
  · exact hc c hm
  · exact .of_body_eq_nil trivial rfl

/-- An answer to a request that nothing has come in the way of. -/
theorem answer_in_time_heeded :
    ((answering []).run 13).Heeds ((answering []).trail 13) ⟨"a", 1⟩ := by
  have ha : ((answering []).run 13).answer? = some (⟨"a", 1⟩, .ok ["click"]) := rfl
  have hw : ¬ ((answering []).run 13).world.stage.scene.scheduled = true := by decide +kernel
  have run := run_answering (fun c (hc : c ∈ []) => by cases hc) 13
  exact (answer_heeded_iff (begins_plain _) run ha).2 fun h => hw h.2

/-- An answer that comes right after a jump to another scene. It takes effect, though its request is
not open any more. -/
theorem answer_after_jump_not_heeded :
    Run HostCall.KeepsPlace ⟨.plain .instant, []⟩
        ((answering [.goto "b" 0]).trail 15) ((answering [.goto "b" 0]).run 15) ∧
      ((answering [.goto "b" 0]).run 15).answer? = some (⟨"a", 1⟩, .ok ["click"]) ∧
        ¬ ((answering [.goto "b" 0]).run 15).Heeds ((answering [.goto "b" 0]).trail 15)
          ⟨"a", 1⟩ := by
  have ha : ((answering [.goto "b" 0]).run 15).answer? = some (⟨"a", 1⟩, .ok ["click"]) := rfl
  refine ⟨run_answering (fun c hc => ?_) 15, ha, fun hheeds => ?_⟩
  · rw [List.mem_singleton.1 hc]
    exact .of_body_eq_nil trivial rfl
  · have hcounts := Machine.counts_of_accepts ha (by decide +kernel)
    exact not_isOpen_of_sceneChanged (by decide +kernel) (hheeds.1 hcounts)

end Novella
