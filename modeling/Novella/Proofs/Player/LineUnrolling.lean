import Novella.Proofs.Player.LineSteps

/-!
# A line runs as what it comes to

What a line comes to is said by recursion on its text, and a player runs it by a queue: it takes an
instruction from the front, and a condition that holds puts its body there instead. The two agree,
and it does not matter who finishes an instruction, or when. What is dispatched is always a front
part of what the line comes to. When nothing is left the index moves on, once, and that is also how
the line is left: until then an instruction is under way.

A condition is done at once, so nothing comes between it and its body, and the variables are those
that the line was started with. Only then may the rest of the line be a matter of time.

## Main definitions

* `Unrolling` — how far a line has come
* `Carried` — what becomes of a line

## Main results

* `Unrolling.step` — what is dispatched is what comes next
* `Run.carried` — a line runs as what it comes to
-/

namespace Novella

open Player

/-! ### How far a line has come -/

/-- How far a line has come that comes to `all`: what has begun, and how often it has been left. -/
inductive Unrolling (look : Variable → Value) (all : List Instruction) :
    List Instruction → Nat → Machine Player Task → Prop where
  /-- A condition is done, and its body is to be run. -/
  | branching {before : List Instruction} {m : Machine Player Task} {rest : Orders} :
      m.agenda = .perform (.conclude m.world.desk.current .completed) :: rest →
      m.world.desk.Busy → m.world.stage.progress.get = look →
      all = before ++ m.world.queue.flatMap (Line.unroll look) → Unrolling look all before 0 m
  /-- What is left are no conditions. -/
  | running {before : List Instruction} {m : Machine Player Task} :
      m.world.desk.Busy → Closing m.world.queue → all = before ++ m.world.queue →
      Unrolling look all before 0 m
  /-- Nothing is left. -/
  | left {m : Machine Player Task} :
      ¬ m.world.desk.Busy → m.world.queue = [] → Unrolling look all all 1 m

namespace Unrolling

variable {look : Variable → Value} {all before rest : List Instruction} {n : Nat}
  {m : Machine Player Task} {q : Player} {more : Orders} {i : Instruction}

theorem isPrefix (h : Unrolling look all before n m) : before <+: all := by
  cases h with
  | branching _ _ _ heq => exact ⟨_, heq.symm⟩
  | running _ _ heq => exact ⟨_, heq.symm⟩
  | left _ _ => exact List.prefix_refl _

theorem count_eq (h : Unrolling look all before n m) :
    n = if m.world.desk.Busy then 0 else 1 := by
  cases h with
  | branching _ hb _ _ => rw [if_pos hb]
  | running hb _ _ => rw [if_pos hb]
  | left hb _ => rw [if_neg hb]

theorem eq_of_not_busy (h : Unrolling look all before n m) (hb : ¬ m.world.desk.Busy) :
    before = all := by
  cases h with
  | branching _ hb' _ _ => exact absurd hb' hb
  | running hb' _ _ => exact absurd hb' hb
  | left _ _ => rfl

/-- The next instruction begins, and what it stands for comes before the rest. -/
theorem begins (hd : Desk.Begins { q.desk with queue := rest } i q.runNext)
    (hclosing : Closing rest)
    (hlook : i.opcode = Instruction.ifOpcode → q.stage.progress.get = look)
    (hall : all = before ++ (i :: rest).flatMap (Line.unroll look)) :
    Unrolling look all (before ++ [i]) 0 ⟨q.runNext.1, q.runNext.2 ++ more⟩ := by
  have hbusy : q.runNext.1.desk.Busy := by
    change Ticket.instruction q.runNext.1.generation ∈ q.runNext.1.live
    rw [hd.live, hd.generation]
    exact List.mem_cons_self
  have hqueue : q.runNext.1.queue = i.taken q.stage.progress.get ++ rest := hd.queue
  rw [List.flatMap_cons, Line.unroll_eq_cons] at hall
  by_cases hif : i.opcode = Instruction.ifOpcode
  · obtain ⟨hstage, horders⟩ := hd.done (.inl hif)
    have hag : q.runNext.2 ++ more =
        .perform (.conclude (.instruction q.runNext.1.generation) .completed) :: more := by
      rw [horders, hd.generation]
      rfl
    refine .branching hag hbusy ?_ ?_
    · change q.runNext.1.stage.progress.get = look
      rw [hstage]
      exact hlook hif
    · change all = _ ++ q.runNext.1.queue.flatMap (Line.unroll look)
      rw [hqueue, hlook hif, List.flatMap_append, hall]
      simp
  · have htaken (look : Variable → Value) : i.taken look = [] := by
      rw [Instruction.taken, Instruction.body?_of_ne hif]
      rfl
    rw [htaken, List.nil_append] at hqueue
    rw [htaken, hclosing.flatMap_unroll] at hall
    refine .running hbusy ?_ ?_
    · exact hqueue.symm ▸ hclosing
    · change all = _ ++ q.runNext.1.queue
      rw [hqueue, hall]
      simp

/-- The line goes on with what comes next. -/
theorem goOn (ha : m.Advances) (hr : m.Readies q more)
    (hlook : ∀ i ∈ m.coming, i.opcode = Instruction.ifOpcode → m.world.stage.progress.get = look)
    (hall : all = before ++ m.coming.flatMap (Line.unroll look)) :
    Unrolling look all (before ++ m.dispatched?.toList) (if m.Leaves then 1 else 0) m.step := by
  have hprogress : q.stage.progress = m.world.stage.progress := hr.value .vars
  simp only [Machine.dispatched?_of_advances ha, Machine.leaves_iff ha]
  rcases hr.cases with ⟨hc, hs⟩ | ⟨i, rest, hc, hclosing, hd⟩
  · rw [hc] at hall ⊢
    obtain rfl : all = before := by simpa using hall
    rw [hs, List.head?_nil, Option.toList_none, List.append_nil]
    exact left hr.not_busy (hr.queue.trans hc)
  · rw [hc] at hall hlook ⊢
    rw [hr.step]
    refine begins hd hclosing (fun hif => ?_) hall
    rw [hprogress]
    exact hlook i List.mem_cons_self hif

/-- **The start of a line.** Its first instruction begins, or it is left at once. -/
theorem start {line : String} (ho : m.world.desk.InOrder) (hl : m.line? = some line) :
    Unrolling m.world.stage.progress.get
      (Line.expand m.world.stage.progress.get line) m.dispatched?.toList
      (if m.Leaves then 1 else 0) m.step := by
  obtain ⟨q, more, hr⟩ := Machine.readies_of_line? ho hl
  have hall : Line.expand m.world.stage.progress.get line =
      [] ++ m.coming.flatMap (Line.unroll m.world.stage.progress.get) := by
    rw [Machine.coming, hl]
    exact Line.expand_eq ..
  exact goOn (.inl (by simp [hl])) hr (fun _ _ _ => rfl) hall

/-- **One step.** What is dispatched is what comes next, unless the line is interrupted. -/
theorem step (h : Unrolling look all before n m) (ho : m.world.desk.InOrder)
    (hj : m.jump? = none) (hh : m.hears? = none) :
    Unrolling look all (before ++ m.dispatched?.toList) (n + if m.Leaves then 1 else 0) m.step := by
  have hl : m.line? = none := Machine.line?_eq_none (by simp [hh])
  have hcoming : m.coming = m.world.queue := by
    rw [Machine.coming, hl]
    rfl
  have stays (hna : m.world.desk.Busy → m.world.desk.current ∈ m.step.world.live)
      (hnext : Unrolling look all before n m.step) : Unrolling look all
        (before ++ m.dispatched?.toList) (n + if m.Leaves then 1 else 0) m.step := by
    have hna := Machine.not_advances hl hna
    rw [Machine.dispatched?_eq_none hna, if_neg fun h => hna h.1, Option.toList_none,
      List.append_nil]
    exact hnext
  cases h with
  | branching hag hb hlook hall =>
    obtain ⟨ha, hr⟩ := Machine.readies_of_conclude ho hb hag
    rw [Nat.zero_add]
    exact goOn ha hr (fun _ _ _ => hlook) (hcoming ▸ hall)
  | running hb hc hall =>
    cases m.work with
    | rest _ hr _ =>
      have hlive : m.step.world.live = m.world.live := hr.live
      have hqueue : m.step.world.queue = m.world.queue := hr.queue
      refine stays (fun hb => hlive ▸ hb) (.running ?_ (hqueue ▸ hc) (hqueue ▸ hall))
      rw [Desk.Busy, Desk.current, hr.live, hr.generation]
      exact hb
    | spend t _ ht hd =>
      have hlive : m.step.world.live = m.world.live.erase t := congrArg Desk.live hd
      have hqueue : m.step.world.queue = m.world.queue := congrArg Desk.queue hd
      have hkeep : m.world.desk.current ∈ m.world.live.erase t :=
        (List.mem_erase_of_ne ht.symm).2 hb
      exact stays (fun _ => hlive ▸ hkeep) (.running (hd ▸ hkeep) (hqueue ▸ hc) (hqueue ▸ hall))
    | goOn _ _ hd hs =>
      obtain ⟨ha, hr⟩ := Machine.readies_of_goOn ho hl hb hd hs
      rw [Nat.zero_add]
      refine goOn ha hr (fun i hi hif => ?_) ?_
      · rw [hc i (hcoming ▸ hi)] at hif
        exact absurd hif (by decide)
      · rw [hcoming, hc.flatMap_unroll]
        exact hall
    | start hline => exact absurd (hl.symm.trans hline) (by simp)
    | drop _ hout _ => exact (hout.elim (· hj) (· hh)).elim
  | left hb hq =>
    refine stays (fun h => absurd h hb) ?_
    cases m.work with
    | rest _ hr _ =>
      refine .left ?_ (hr.queue.trans hq)
      rw [Desk.Busy, Desk.current, hr.live, hr.generation]
      exact hb
    | spend t _ ht hd =>
      refine .left ?_ ((congrArg Desk.queue hd).trans hq)
      rw [hd]
      exact fun hm => hb (List.mem_of_mem_erase hm)
    | goOn _ hb' _ _ => exact absurd hb' hb
    | start hline => exact absurd (hl.symm.trans hline) (by simp)
    | drop _ hout _ => exact (hout.elim (· hj) (· hh)).elim

/-- The host has its turn. -/
theorem of_desk {p : Player} (h : Unrolling look all before n ⟨p, []⟩) (hd : q.desk = p.desk)
    (orders : Orders) : Unrolling look all before n ⟨q, orders⟩ := by
  have hb : q.desk.Busy ↔ p.desk.Busy := by rw [hd]
  have hq : q.queue = p.queue := congrArg Desk.queue hd
  cases h with
  | branching hag _ _ _ => cases hag
  | running hbusy hc hall => exact .running (hb.2 hbusy) (hq ▸ hc) (hq ▸ hall)
  | left hbusy hnil => exact .left (fun h => hbusy (hb.1 h)) (hq.trans hnil)

end Unrolling

/-! ### Lines -/

/-- The instructions that have begun, in order. -/
def dispatched (h : List (Machine Player Task)) : List Instruction :=
  h.reverse.filterMap Machine.dispatched?

theorem dispatched_cons (m : Machine Player Task) (h : List (Machine Player Task)) :
    dispatched (m :: h) = dispatched h ++ m.dispatched?.toList := by
  rw [dispatched, dispatched, List.reverse_cons, List.filterMap_append]
  cases hi : m.dispatched? <;> simp [hi]

/-- What becomes of a line that the first machine starts. The others are those that have taken a
step since, and the one that it has come to. -/
structure Carried (line : String) (m : Machine Player Task) (h : List (Machine Player Task))
    (n : Machine Player Task) : Prop where
  /-- What has been dispatched is a front part of what the line comes to. -/
  isPrefix : dispatched (h ++ [m]) <+: Line.expand m.world.stage.progress.get line
  /-- It comes to no more instructions than it has characters. -/
  bounded : (Line.expand m.world.stage.progress.get line).length ≤ line.length
  /-- Either an instruction is under way, or the line has been left, once. -/
  count : (h ++ [m]).countP (fun x => decide x.Leaves) = if n.world.desk.Busy then 0 else 1
  /-- When the line has been left all that it comes to has been dispatched. -/
  complete {x : Machine Player Task} : x ∈ h ++ [m] → x.Leaves →
    dispatched (h ++ [m]) = Line.expand m.world.stage.progress.get line
  /-- With that the index moves on. -/
  leaves {x : Machine Player Task} : x ∈ h ++ [m] → x.Leaves →
    x.step.world.stage.index.value = x.world.stage.index.value + 1
  /-- Otherwise only jumps within the scene move it, and the host. -/
  index {x : Machine Player Task} : x ∈ h ++ [m] → ¬ x.Leaves → ¬ x.SetsIndex →
    (∀ i ∈ x.dispatched?, i.opcode ≠ "skip") →
      x.step.world.stage.index.value = x.world.stage.index.value
  /-- What counts as dispatched has been dispatched. -/
  dispatch {x : Machine Player Task} {i : Instruction} : x ∈ h ++ [m] → x.dispatched? = some i →
    ∃ (p : Player) (more : Orders), x.step = ⟨(p.dispatch i).1, (p.dispatch i).2 ++ more⟩
  /-- No other instruction has begun. -/
  dispatches {x : Machine Player Task} : x ∈ h ++ [m] → x.Dispatches → x.dispatched? ≠ none
  /-- An instruction that fails is over with the next step, and no cell has another value. -/
  fails {x : Machine Player Task} {i : Instruction} : x ∈ h ++ [m] → x.dispatched? = some i →
    i.Fails x.world.commands x.world.stage.progress →
      (∀ c, (x.step.world.stage.cell c).value = (x.world.stage.cell c).value) ∧ x.step.Advances

/-- How far a line has come when the host has had its turns. -/
theorem Run.unrolling {P : HostCall → Prop} {line : String} {m n : Machine Player Task}
    {h : List (Machine Player Task)} (hm : m.world.desk.InOrder) (hl : m.line? = some line)
    (r : Run P m.step h n) (hout : ∀ x ∈ h, x.jump? = none ∧ x.hears? = none) :
    Unrolling m.world.stage.progress.get (Line.expand m.world.stage.progress.get line)
      (dispatched (h ++ [m])) ((h ++ [m]).countP (fun x => decide x.Leaves)) n ∧
        ∀ x ∈ h, x.world.desk.InOrder := by
  induction r with
  | start =>
    refine ⟨?_, fun x hx => absurd hx List.not_mem_nil⟩
    have hs := Unrolling.start hm hl
    rw [List.nil_append, dispatched_cons, List.countP_singleton]
    simpa [dispatched] using hs
  | @step h n r ih =>
    obtain ⟨⟨hj, hh⟩, hout⟩ := List.forall_mem_cons.1 hout
    obtain ⟨hu, ho⟩ := ih hout
    have hn := r.inOrder hm.step
    refine ⟨?_, List.forall_mem_cons.2 ⟨hn, ho⟩⟩
    have hs := hu.step hn hj hh
    rw [List.cons_append, dispatched_cons, List.countP_cons]
    simpa using hs
  | @turn h p book events answer orders _ _ ih =>
    obtain ⟨hu, ho⟩ := ih hout
    exact ⟨hu.of_desk (q := { p with book, events, answer }) rfl orders, ho⟩
  | connect hook _ _ ih =>
    obtain ⟨hu, ho⟩ := ih hout
    exact ⟨hu.of_desk (desk_of_inside (inside_connect ..)) _, ho⟩
  | connectToBook hook _ _ ih =>
    obtain ⟨hu, ho⟩ := ih hout
    exact ⟨hu.of_desk (desk_of_inside (inside_connectToBook ..)) _, ho⟩

/-- **A line runs as what it comes to.** Whoever finishes its instructions, and whenever that is:
as long as the script is not moved, the line is carried out. -/
theorem Run.carried {P Q : HostCall → Prop} {p : Player} (hp : p.Begins)
    {h h' : List (Machine Player Task)} {m n : Machine Player Task} (r : Run P ⟨p, []⟩ h m)
    {line : String} (hl : m.line? = some line) (s : Run Q m.step h' n)
    (hout : ∀ x ∈ h', x.jump? = none ∧ x.hears? = none) : Carried line m h' n := by
  have hm : m.world.desk.InOrder := r.inOrder hp.inOrder
  obtain ⟨hu, ho⟩ := s.unrolling hm hl hout
  have hall {x : Machine Player Task} (hx : x ∈ h' ++ [m]) :
      x.world.desk.InOrder ∧ (x.line? = none → x.jump? = none ∧ x.hears? = none) := by
    rcases List.mem_append.1 hx with hx | hx
    · exact ⟨ho x hx, fun _ => hout x hx⟩
    · obtain rfl := List.mem_singleton.1 hx
      exact ⟨hm, fun hn => absurd (hn.symm.trans hl) (by simp)⟩
  refine ⟨hu.isPrefix, Line.length_expand_le .., hu.count_eq, fun hx hleaves => ?_,
    fun hx => Machine.index_of_leaves (hall hx).1,
    fun hx hn => Machine.index_of_not_leaves (hall hx).1 hn (hall hx).2,
    fun hx => Machine.exists_dispatch (hall hx).1, fun hx => (Machine.dispatches_iff (hall hx).1).1,
    fun hx => Machine.of_fails (hall hx).1⟩
  refine hu.eq_of_not_busy fun hb => ?_
  have hzero := hu.count_eq
  rw [if_pos hb, List.countP_eq_zero] at hzero
  exact hzero _ hx (by simpa using hleaves)

/-- A host that has a line of two conditions played. Its own command finishes within its call, and
the page break at the end waits for the host. -/
def conditional : Machine Player Task :=
  (Player.plain .instant).called
    [.register "go" (some .finishThenHold) [], .goto "a" 0, .settle, .take,
      .complete 0 (some ["if 1 = 1 if 0 <> 2 go now\\"]), .settle, .next]

theorem run_conditional (n : Nat) :
    Run (fun _ => True) ⟨.plain .instant, []⟩ (conditional.trail n) (conditional.run n) := by
  refine Run.calls .start (fun c hc => ?_) n
  simp only [List.mem_cons, List.not_mem_nil, or_false] at hc
  rcases hc with rfl | rfl | rfl | rfl | rfl | rfl | rfl <;> exact .of_body_eq_nil trivial rfl

/-- Both conditions hold, and the line is left when the host turns the page. -/
theorem conditional_carried :
    Carried "if 1 = 1 if 0 <> 2 go now\\" (conditional.run 21)
        ((conditional.run 21).step.trail 12) ((conditional.run 21).step.run 12) ∧
      (dispatched ((conditional.run 21).step.trail 12 ++ [conditional.run 21])).map
        Instruction.opcode = ["if", "if", "go", "\\"] ∧
      ¬ ((conditional.run 21).step.run 12).world.desk.Busy := by
  obtain ⟨hline, hover, hopcodes, hidle⟩ :
      (conditional.run 21).line? = some "if 1 = 1 if 0 <> 2 go now\\" ∧
        (∀ x ∈ (conditional.run 21).step.trail 12, x.jump? = none ∧ x.hears? = none) ∧
        (dispatched ((conditional.run 21).step.trail 12 ++ [conditional.run 21])).map
          Instruction.opcode = ["if", "if", "go", "\\"] ∧
        ¬ ((conditional.run 21).step.run 12).world.desk.Busy := by decide +kernel
  exact ⟨Run.carried (begins_plain _) (run_conditional 21) hline
    (Run.steps_self (P := fun _ => True) _ 12) hover, hopcodes, hidle⟩

end Novella
