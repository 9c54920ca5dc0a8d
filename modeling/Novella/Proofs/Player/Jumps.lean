import Novella.Proofs.Player.LineSteps
import Novella.Proofs.Save.Persistence
import Novella.Proofs.Script.LineRejoining

/-!
# Jumps within a scene

A jump by `n` lines writes an index that is one line short, because the line moves the index on when
it is left. An index before the first line is taken for the first line, and so a jump ends up at the
second line at the earliest. It goes where it says unless that is the first line.

The jump may be the line itself or stand in the body of conditions. Either way no time passes until
the line is left, and then the index waits to be heard. Nothing but jumps of the host and another
scene come between that and the line that is started next.

## Main definitions

* `Line.Jumps` — lines that are a jump
* `Machine.Starts` — the line at an index is started
* `Leaping` — how far a jump has come

## Main results

* `skipTarget_add_one` — where a jump goes
* `Leaping.step` — a jump goes on
* `Run.leaping` — what becomes of a jump
* `skips_exactly_iff` — a jump goes exactly where it says, unless that is the first line
-/

namespace Novella

open Player

/-! ### Targets -/

theorem toInt_toInt64 {i : UInt64} (hi : i.toNat < 2 ^ 63) : i.toInt64.toInt = i.toNat := by
  rw [← Int64.toInt_toBitVec, UInt64.toBitVec_toInt64]
  exact BitVec.toInt_eq_toNat_of_lt (by rw [UInt64.toNat_toBitVec]; omega)

/-- The index that a jump writes is one line short, unless that would be before the first line. -/
theorem toNat_skipTarget {i : UInt64} {n : Int64} {j : Nat} (hi : i.toNat < 2 ^ 63)
    (hj : (j : Int) = i.toNat + n.toInt) (hlt : j < 2 ^ 63) : (skipTarget i n).toNat = j - 1 := by
  have hmin : Int64.minValue.toInt = -2 ^ 63 := by decide
  have hmax : Int64.maxValue.toInt = 2 ^ 63 - 1 := by decide
  have hn := n.toInt_lt
  have hless : (Int64.ofIntClamp (n.toInt - 1)).toInt = n.toInt - 1 :=
    Int64.toInt_ofIntClamp (by omega) (by omega)
  have hsum : (Int64.ofIntClamp (i.toNat + (n.toInt - 1))).toInt = i.toNat + (n.toInt - 1) :=
    Int64.toInt_ofIntClamp (by omega) (by omega)
  have hsize : (i.toNat + (n.toInt - 1)).toNat < UInt64.size := by
    rw [show UInt64.size = 2 ^ 64 from rfl]
    omega
  rw [skipTarget, hless, toInt_toInt64 hi, hsum, UInt64.toNat_ofNat_of_lt' hsize]
  omega

/-- So a jump goes where it says, but never to the first line. -/
theorem toNat_skipTarget_add_one {i : UInt64} {n : Int64} {j : Nat} (hi : i.toNat < 2 ^ 63)
    (hj : (j : Int) = i.toNat + n.toInt) (hlt : j < 2 ^ 63) :
    (skipTarget i n + 1).toNat = max j 1 := by
  rw [UInt64.toNat_add, toNat_skipTarget hi hj hlt, UInt64.toNat_one, Nat.mod_eq_of_lt (by omega)]
  omega

/-! ### Lines that are a jump -/

namespace Line

/-- The line is a jump by `n` lines, alone or as the body of conditions that hold. -/
inductive Jumps (look : Variable → Value) (n : Int64) : String → Prop where
  /-- The line is the jump. -/
  | plain {line argument : String} : instructions line = [⟨"skip", argument⟩] →
      Numeral.int64? (Text.trim argument.toList) = some n → Jumps look n line
  /-- The line is a condition that holds, and the jump is in its body. -/
  | taken {line body : String} {i : Instruction} : instructions line = [i] →
      i.body? look = some body → Jumps look n body → Jumps look n line

/-- A jump by any number is written as one expects. -/
theorem instructions_skip (n : Int64) :
    instructions (String.ofList ("skip ".toList ++ Numeral.ofInt n.toInt)) =
      [⟨"skip", String.ofList (Numeral.ofInt n.toInt)⟩] := by
  have hblank : ∀ c ∈ Numeral.ofInt n.toInt, Text.isBlank c = false := fun c =>
    Numeral.isBlank_of_mem_ofInt
  obtain ⟨c, hc⟩ : ∃ c, (Numeral.ofInt n.toInt).getLast? = some c := by
    refine Option.ne_none_iff_exists'.1 fun h => ?_
    have hread := Numeral.int64?_ofInt n
    rw [List.getLast?_eq_none_iff.1 h] at hread
    cases hread
  have hmem := List.mem_of_getLast? hc
  have hend : ∀ c ∈ ("skip ".toList ++ Numeral.ofInt n.toInt).getLast?,
      Text.isBlank c = false := by
    rw [List.getLast?_append, hc]
    rintro _ ⟨⟩
    exact hblank c hmem
  have htrim : Text.trim ("skip ".toList ++ Numeral.ofInt n.toInt) =
      "skip ".toList ++ Numeral.ofInt n.toInt := Text.trimEnd_eq_self hend
  have hcut : cut ("skip ".toList ++ Numeral.ofInt n.toInt) =
      ("skip".toList, Numeral.ofInt n.toInt) := by
    change ("skip".toList, Text.trim (Numeral.ofInt n.toInt)) = _
    rw [Numeral.trim_ofInt]
  have hlast : ¬ (splitsPageBreak "skip".toList = true ∧
      (Numeral.ofInt n.toInt).getLast? = some '\\') := by
    rintro ⟨-, hm⟩
    have hall := List.all_eq_true.1 (Numeral.all_ofInt n.toInt) _ (List.mem_of_getLast? hm)
    cases hall
  rw [instructions, String.toList_ofList, htrim]
  split
  · next h => cases h
  · rw [hcut]
    exact if_neg hlast

theorem jumps_written (look : Variable → Value) (n : Int64) :
    Jumps look n (String.ofList ("skip ".toList ++ Numeral.ofInt n.toInt)) := by
  refine .plain (instructions_skip n) ?_
  rw [String.toList_ofList, Numeral.trim_ofInt]
  exact Numeral.int64?_ofInt n

end Line

namespace Machine

/-- No line is started, the host does not jump, and no other scene is heard of. -/
structure KeepsLine (m : Machine Player Task) : Prop where
  /-- No line is started. -/
  line : m.line? = none
  /-- The host does not jump. -/
  jump : m.jump? = none
  /-- No other scene is heard of. -/
  scene : m.hears? ≠ some .scene

instance : DecidablePred KeepsLine := fun m =>
  decidable_of_iff (m.line? = none ∧ m.jump? = none ∧ m.hears? ≠ some .scene)
    ⟨fun h => ⟨h.1, h.2.1, h.2.2⟩, fun h => ⟨h.line, h.jump, h.scene⟩⟩

/-- The line at index `j` of these lines is started. -/
def Starts (m : Machine Player Task) (lines : List String) (j : Nat) : Prop :=
  m.world.stage.index.value.toNat = j ∧ ∃ line, m.line? = some line ∧ lines[j]? = some line

end Machine

namespace Course

variable {c c' : Course} {lines : List String}

/-- These are the lines that the player reads. -/
structure Reads (c : Course) (lines : List String) : Prop where
  /-- They have been loaded. -/
  lines : c.lines = some lines
  /-- No others are on their way. -/
  phase : c.phase ≠ .loading

theorem Reads.of_keepsScene (h : c.Reads lines) (hk : c.KeepsScene c') : c'.Reads lines :=
  ⟨hk.lines.trans h.lines, fun hp => h.phase (hk.phase hp)⟩

/-- As long as nobody jumps and the scene is not heard, the lines stay. -/
theorem Reads.step {m : Machine Player Task} (h : c.Reads lines) (hm : Moves m c c')
    (hj : m.jump? = none) (hs : m.hears? ≠ some .scene) : c'.Reads lines := by
  cases hm with
  | jump hjump => cases hj.symm.trans hjump
  | @answer r x c₀ ha hc hreq =>
    have hk := KeepsScene.of_asked hreq
    have hno : ¬ c₀.Awaits r := fun hw => h.phase (hk.phase hw.2)
    rw [answer_of_not_awaits hno]
    exact h.of_keepsScene hk
  | scene hh => exact absurd hh hs
  | @index ts _ _ _ _ hr =>
    have ht : Reads { c with turns := ts } lines := ⟨h.lines, h.phase⟩
    exact ht.of_keepsScene hr.keepsScene
  | inner _ _ _ hi => exact h.of_keepsScene hi.keepsScene

/-- Another index waits to be heard. -/
theorem mem_turns_moveTo {i : UInt64} (h : c.index ≠ i) : .index ∈ (c.moveTo i).turns := by
  rw [moveTo, if_neg h, mem_turn]
  exact .inr rfl

end Course

/-! ### A jump -/

/-- A jump is done at once, and leaves the rest of the line alone. -/
theorem Player.runNext_skip {p : Player} (h : p.commands.Scripted) {argument : String}
    {rest : List Instruction} (hq : p.queue = ⟨"skip", argument⟩ :: rest) :
    p.runNext.2 = [.perform (.conclude (.instruction (p.generation + 1)) .completed)] := by
  have hc : p.commands.get? "skip" = some (some .skip) := h.get?_skip
  rw [runNext, hq]
  dsimp only
  rw [dispatch_of_command hc]
  rfl

/-- A jump by `n` lines out of the line at index `i` has been started. -/
inductive Leaping (i : UInt64) (n : Int64) (m : Machine Player Task) (c : Course) : Prop where
  /-- A condition is done, and the jump is in its body. -/
  | branching {line : String} {rest : Orders} :
      m.agenda = .perform (.conclude m.world.desk.current .completed) :: rest →
      m.world.desk.Busy → m.world.queue = Line.instructions line →
      Line.Jumps m.world.stage.progress.get n line → m.world.stage.index.value = i → Leaping i n m c
  /-- The jump is done. -/
  | jumped {rest : Orders} :
      m.agenda = .perform (.conclude m.world.desk.current .completed) :: rest →
      m.world.desk.Busy → m.world.queue = [] → m.world.stage.index.value = skipTarget i n →
      Leaping i n m c
  /-- The line has been left, and the player has still to hear of it. -/
  | left : ¬ c.Busy → c.index = skipTarget i n + 1 → .index ∈ c.turns → Leaping i n m c

namespace Leaping

variable {i : UInt64} {n : Int64} {k : Nat} {m : Machine Player Task} {c c' : Course}
  {q : Player} {more : Orders} {line : String}

/-- The instruction under way is done with the next step. -/
theorem agenda_of_begins {instruction : Instruction} {rest : List Instruction}
    (hr : m.Readies q more) (hd : Desk.Begins { q.desk with queue := rest } instruction q.runNext)
    (ho : q.runNext.2 = [.perform (.conclude (.instruction (q.generation + 1)) .completed)]) :
    m.step.agenda = .perform (.conclude m.step.world.desk.current .completed) :: more ∧
      m.step.world.desk.Busy := by
  rw [hr.step]
  constructor
  · change q.runNext.2 ++ more =
      .perform (.conclude (.instruction q.runNext.1.generation) .completed) :: more
    rw [ho, hd.generation]
    rfl
  · change Ticket.instruction q.runNext.1.generation ∈ q.runNext.1.live
    rw [hd.live, hd.generation]
    exact List.mem_cons_self

/-- A line that is a jump begins, or the body of a condition. -/
theorem of_readies (hn : n ≠ 0) (hr : m.Readies q more) (hc : m.coming = Line.instructions line)
    (hj : Line.Jumps m.world.stage.progress.get n line) (hi : m.world.stage.index.value = i) :
    Leaping i n m.step c := by
  have hprogress : q.stage.progress = m.world.stage.progress := hr.value .vars
  have hindex : q.stage.index.value = i := (hr.value .index).trans hi
  rcases hr.cases with ⟨hnil, -⟩ | ⟨instruction, rest, hcons, -, hd⟩
  · cases hj with
    | plain hl _ => cases (hc.trans hl).symm.trans hnil
    | taken hl _ _ => cases (hc.trans hl).symm.trans hnil
  · have hstep : m.step.world = q.runNext.1 := by rw [hr.step]
    have hqueue := hd.queue
    cases hj with
    | @plain _ argument hl hread =>
      cases (hc.trans hl).symm.trans hcons
      have hskip : q.commands.get? "skip" = some (some .skip) := hr.inOrder.scripted.get?_skip
      obtain ⟨hag, hb⟩ := agenda_of_begins hr hd
        (Player.runNext_skip hr.inOrder.scripted (hr.queue.trans hcons))
      refine .jumped hag hb ?_ ?_
      · rw [hstep, hqueue]
        rfl
      · have hdisplay := hd.display
        rw [Instruction.changes_of_command hskip, changes_skip _ _ hread hn] at hdisplay
        have hstage : q.runNext.1.stage = _ := congrArg Display.stage hdisplay
        rw [hstep, hstage, ← hindex]
        exact value_cell_write q .index _
    | @taken _ body instruction hl hbody hj =>
      cases (hc.trans hl).symm.trans hcons
      have hif := (Instruction.length_of_body? hbody).1
      obtain ⟨hstage, horders⟩ := hd.done (.inl hif)
      obtain ⟨hag, hb⟩ := agenda_of_begins hr hd horders
      have hstage : m.step.world.stage = q.stage := by rw [hstep]; exact hstage
      have hbody : m.step.world.queue = Line.instructions body := by
        rw [hstep, hqueue]
        change instruction.taken q.stage.progress.get ++ [] = Line.instructions body
        rw [hprogress, Instruction.taken, hbody]
        exact List.append_nil _
      refine .branching hag hb hbody ?_ ?_
      · rw [hstage, hprogress]
        exact hj
      · rw [hstage]
        exact hindex

/-- The line is left when the jump is done. -/
theorem of_jumped (hs : Steady k m c) (ho : m.world.desk.InOrder) (hm : Moves m c c')
    (hs' : Steady k m.step c') {rest : Orders}
    (hag : m.agenda = .perform (.conclude m.world.desk.current .completed) :: rest)
    (hb : m.world.desk.Busy) (hq : m.world.queue = [])
    (hi : m.world.stage.index.value = skipTarget i n) : Leaping i n m.step c' := by
  obtain ⟨-, hr⟩ := Machine.readies_of_conclude ho hb hag
  have hline : m.line? = none := by rw [Machine.line?, hag]
  have hcoming : m.coming = [] := by rw [Machine.coming, hline]; exact hq
  have hindex : c.index = skipTarget i n := by rw [hs.course_eq]; exact hi
  have hindex' : c'.index = skipTarget i n + 1 := by
    rcases hr.cases with ⟨-, hstep⟩ | ⟨_, _, hcons, -⟩
    · rw [hs'.course_eq, hstep]
      exact (value_cell_write _ .index _).trans (congrArg (· + 1) hi)
    · cases hcoming.symm.trans hcons
  have hne : c'.index ≠ c.index := by
    rw [hindex, hindex']
    exact fun h => absurd (UInt64.add_eq_left.1 h) (by decide)
  have hqueue : c.queue = [] := by rw [hs.course_eq]; exact hq
  have hnodup : c.live.Nodup := by rw [hs.course_eq]; exact ho.nodup
  have hj : m.jump? = none := by rw [Machine.jump?, hag]
  have hh : m.hears? = none := by rw [Machine.hears?, hag]
  cases hm with
  | jump hjump => cases hj.symm.trans hjump
  | answer ha =>
    rw [Machine.answer?, hag] at ha
    cases ha
  | scene hears => cases hh.symm.trans hears
  | index hears => cases hh.symm.trans hears
  | inner _ _ _ hinner =>
    cases hinner with
    | stay => exact absurd rfl hne
    | suspend => exact absurd rfl hne
    | spent => exact absurd rfl hne
    | take => exact absurd rfl hne
    | finish _ ha =>
      cases ha with
      | dispatch hcons => cases hqueue.symm.trans hcons
      | leave =>
        obtain ⟨ts, heq, -⟩ := Course.moveTo_eq
          { c with live := c.live.erase (.instruction c.generation) } (c.index + 1)
        refine .left ?_ hindex' (Course.mem_turns_moveTo fun h => hne ?_)
        · dsimp only
          rw [heq]
          exact hnodup.not_mem_erase
        · dsimp only
          rw [heq]
          exact h.symm

/-- **One step.** A jump goes on, until the player hears of it. -/
theorem step {lines : List String} (hn : n ≠ 0) (hlt : (skipTarget i n + 1).toNat < lines.length)
    (hs : Steady k m c) (ho : m.world.desk.InOrder) (hr : c.Reads lines) (h : Leaping i n m c)
    (hm : Moves m c c') (hs' : Steady k m.step c') (hk : m.KeepsLine) : Leaping i n m.step c' := by
  cases h with
  | branching hag hb hq hj hi =>
    have hcoming : m.coming = m.world.queue := by rw [Machine.coming, hk.line]; rfl
    exact of_readies hn (Machine.readies_of_conclude ho hb hag).2 (hcoming.trans hq) hj hi
  | jumped hag hb hq hi => exact of_jumped hs ho hm hs' hag hb hq hi
  | left hb hi ht =>
    cases hm with
    | jump hj => cases hk.jump.symm.trans hj
    | @answer r x c₀ ha hc hreq =>
      obtain ⟨request, rfl⟩ := Moves.exists_request hreq
      have hno : ¬ Course.Awaits { c with loadRequest := request } r := fun h => hr.phase h.2
      rw [Course.answer_of_not_awaits hno]
      exact .left hb hi ht
    | scene hh => exact absurd hh hk.scene
    | index hh _ hline =>
      rw [hk.line, if_neg hr.phase, hr.lines, hi, Option.bind_some] at hline
      exact absurd (List.getElem?_eq_none_iff.1 hline.symm) (Nat.not_le.2 hlt)
    | inner _ _ _ hinner =>
      cases hinner with
      | stay => exact .left hb hi ht
      | suspend => exact .left hb hi ht
      | spent => exact .left (fun h => hb (List.mem_of_mem_erase h)) hi ht
      | finish hlive => exact absurd hlive hb
      | take => exact .left hb hi ht

end Leaping

/-- A jump has been started from a line, and the player has not come to another one. -/
structure Leaps (lines : List String) (i : UInt64) (n : Int64) (m : Machine Player Task)
    (c : Course) : Prop where
  /-- All is in order. -/
  inOrder : m.world.desk.InOrder
  /-- The lines are those of the jump. -/
  reads : c.Reads lines
  /-- The jump is under way. -/
  leaping : Leaping i n m c

section

variable {p : Player} {k : Nat} {h h' : List (Machine Player Task)} {m x : Machine Player Task}
  {line : String} {lines : List String} {n : Int64}

/-- A line that is a jump is started. -/
theorem Leaps.start {c : Course} (hs : Steady k m c) (ho : m.world.desk.InOrder) (hn : n ≠ 0)
    (hline : m.line? = some line) (hr : c.Reads lines)
    (hj : Line.Jumps m.world.stage.progress.get n line) :
    ∃ c', Steady k m.step c' ∧ Leaps lines m.world.stage.index.value n m.step c' := by
  obtain ⟨c', hm, hs'⟩ := hs.step
  obtain ⟨q, more, hready⟩ := Machine.readies_of_line? ho hline
  have hcoming : m.coming = Line.instructions line := by rw [Machine.coming, hline]; rfl
  have hh := Machine.hears?_of_line? hline
  exact ⟨c', hs', ho.step, hr.step hm (Moves.jump?_of_hears? hh) (by simp [hh]),
    .of_readies hn hready hcoming hj rfl⟩

/-- **What becomes of a jump.** It is under way or waits to be heard, until a line is started. -/
theorem Run.leaps {c₀ : Course} {i : UInt64} (hn : n ≠ 0)
    (hlt : (skipTarget i n + 1).toNat < lines.length) (hs : Steady k m c₀)
    (hl : Leaps lines i n m c₀) (r : Run HostCall.KeepsPlace m h x)
    (hkeeps : ∀ y ∈ h, y.KeepsLine) : ∃ c, Steady k x c ∧ Leaps lines i n x c := by
  obtain ⟨c, hc, hx⟩ := r.invariant_turn
    (I := fun h m c => (∀ y ∈ h, y.KeepsLine) → Leaps lines i n m c) hs (fun _ => hl)
    (fun hs hi hm hs' hk => by
      obtain ⟨hy, hk⟩ := List.forall_mem_cons.1 hk
      have hi := hi hk
      exact ⟨hi.inOrder.step, hi.reads.step hm hy.jump hy.scene,
        hi.leaping.step hn hlt hs hi.inOrder hi.reads hm hs' hy⟩)
    (fun _ hi hq hk => by
      have hi := hi hk
      refine ⟨hi.inOrder.rests (.of_eq (desk_of_inside hq)), hi.reads, ?_⟩
      -- the host has its turn only when the line has been left
      cases hi.leaping with
      | branching hag => cases hag
      | jumped hag => cases hag
      | left hb hi ht => exact .left hb hi ht)
  exact ⟨c, hc, hx hkeeps⟩

namespace Leaps

variable {c : Course} {i : UInt64}

/-- While nothing is to be done the delivery of the index waits. -/
theorem deliver_mem (hl : Leaps lines i n m c) (hs : Steady k m c) (hag : m.agenda = []) :
    .deliver .index ∈ m.world.loop.microtasks := by
  cases hl.leaping with
  | branching h => cases hag.symm.trans h
  | jumped h => cases hag.symm.trans h
  | left _ _ ht =>
    obtain ⟨p, orders⟩ := m
    obtain rfl : orders = [] := hag
    rw [← hs.of_rest.2.turns_eq] at ht
    obtain ⟨t, htask, hturn⟩ := List.mem_flatMap.1 ht
    cases t with
    | deliver y =>
      by_cases hy : y.IsPlace
      · rw [Task.turn, if_pos hy, List.mem_singleton] at hturn
        exact hturn ▸ htask
      · rw [Task.turn, if_neg hy] at hturn
        exact absurd hturn List.not_mem_nil
    | _ => cases hturn

/-- The line that is started is that of the target. -/
theorem starts (hl : Leaps lines i n m c) (hs : Steady k m c) (hline : m.line? = some line) :
    m.Starts lines (skipTarget i n + 1).toNat := by
  obtain ⟨id, v, rest, hag, -⟩ := Machine.hear_of_line? (m := m) (by simp [hline])
  cases hl.leaping with
  | branching h => cases hag.symm.trans h
  | jumped h => cases hag.symm.trans h
  | left _ hi _ =>
    obtain ⟨-, -, lines', hlines, hget⟩ := hs.of_line? hline
    cases hl.reads.lines.symm.trans hlines
    rw [hi] at hget
    rw [hs.course_eq] at hi
    exact ⟨congrArg UInt64.toNat hi, line, hline, hget⟩

end Leaps

/-- **Jumps are exact.** A line that is a jump by `n` lines is started at an index `i`, and `i + n`
is the index of a line, too. Then nothing but the index keeps the player from going on, and the line
that is started next is the one at `i + n`, exactly unless that is the first line. -/
theorem skips_exactly_iff (hp : p.Begins) (r : Run HostCall.KeepsPlace ⟨p, []⟩ h m)
    (hline : m.line? = some line) (hlines : m.world.lines = some lines)
    (hsize : lines.length < 2 ^ 63) (hn : n ≠ 0)
    (hjump : Line.Jumps m.world.stage.progress.get n line) {j : Nat}
    (hj : (j : Int) = m.world.stage.index.value.toNat + n.toInt) (hlt : j < lines.length)
    (s : Run HostCall.KeepsPlace m.step h' x) (hkeeps : ∀ y ∈ h', y.KeepsLine) :
    (x.agenda = [] → .deliver .index ∈ x.world.loop.microtasks) ∧
      (x.line? ≠ none → (x.Starts lines j ↔ j ≠ 0)) := by
  obtain ⟨k, hfresh⟩ := hp.steady
  obtain ⟨c, hs⟩ := r.steady hfresh
  obtain ⟨hphase, -, lines', hlines', hget⟩ := hs.of_line? hline
  have hreads : c.Reads lines := ⟨by rw [hs.course_eq]; exact hlines, hphase⟩
  cases hreads.lines.symm.trans hlines'
  have hin : m.world.stage.index.value.toNat < lines.length := by
    rw [hs.course_eq] at hget
    exact (List.getElem?_eq_some_iff.1 hget).1
  have htarget : (skipTarget m.world.stage.index.value n + 1).toNat = max j 1 :=
    toNat_skipTarget_add_one (by omega) hj (by omega)
  -- the scene has a second line, or else there is nowhere to jump to
  have hone : 1 < lines.length ∨ j ≠ 0 := by
    have hzero : n.toInt ≠ 0 := fun h => hn (Int64.toInt_inj.1 h)
    omega
  obtain ⟨c₁, hs₁, hl₁⟩ := Leaps.start hs (r.inOrder hp.inOrder) hn hline hreads hjump
  obtain ⟨c₂, hs₂, hl₂⟩ := s.leaps hn (by omega) hs₁ hl₁ hkeeps
  refine ⟨hl₂.deliver_mem hs₂, fun hne => ?_⟩
  obtain ⟨line', hline'⟩ := Option.ne_none_iff_exists'.1 hne
  have hstarts := hl₂.starts hs₂ hline'
  rw [htarget] at hstarts
  constructor
  · rintro ⟨hindex, -⟩ rfl
    exact absurd (hstarts.1.symm.trans hindex) (by simp)
  · intro hpos
    rwa [Nat.max_eq_left (Nat.one_le_iff_ne_zero.2 hpos)] at hstarts

end

/-! ### Two jumps -/

/-- A host that has a scene played from index `i` on. -/
def playingAt (i : UInt64) (lines : List String) : Machine Player Task :=
  (Player.plain .instant).called
    [.goto "a" i, .settle, .take, .complete 0 (some lines), .settle]

theorem run_playingAt (i : UInt64) (lines : List String) (n : Nat) :
    Run HostCall.KeepsPlace ⟨.plain .instant, []⟩ ((playingAt i lines).trail n)
      ((playingAt i lines).run n) := by
  refine Run.calls .start (fun c hc => ?_) n
  simp only [List.mem_cons, List.not_mem_nil, or_false] at hc
  rcases hc with rfl | rfl | rfl | rfl | rfl <;> exact .of_body_eq_nil trivial rfl

/-- A scene whose first line goes on to the third one. -/
def hopping : List String := ["if 1 = 1 if 2 > 1 skip 2", "`passed@", "click"]

/-- The jump stands in two conditions, and goes where it says. -/
theorem hopping_starts_third_line :
    (((playingAt 0 hopping).run 19).step.run 5).line? = some "click" ∧
      (((playingAt 0 hopping).run 19).step.run 5).Starts hopping 2 := by
  have hif : Line.instructions "if 1 = 1 if 2 > 1 skip 2" =
      [⟨"if", "1 = 1 if 2 > 1 skip 2"⟩] := by decide +kernel
  have hbody : Line.instructions "if 2 > 1 skip 2" = [⟨"if", "2 > 1 skip 2"⟩] := by decide +kernel
  have hskip : String.ofList ("skip ".toList ++ Numeral.ofInt (2 : Int64).toInt) = "skip 2" := by
    decide +kernel
  obtain ⟨hfirst, hsecond, hstart, hlines, htarget, hkeeps, hline⟩ :
      Instruction.body? ((playingAt 0 hopping).run 19).world.stage.progress.get
          ⟨"if", "1 = 1 if 2 > 1 skip 2"⟩ = some "if 2 > 1 skip 2" ∧
        Instruction.body? ((playingAt 0 hopping).run 19).world.stage.progress.get
          ⟨"if", "2 > 1 skip 2"⟩ = some "skip 2" ∧
        ((playingAt 0 hopping).run 19).line? = some "if 1 = 1 if 2 > 1 skip 2" ∧
        ((playingAt 0 hopping).run 19).world.lines = some hopping ∧
        ((2 : Nat) : Int) =
          ((playingAt 0 hopping).run 19).world.stage.index.value.toNat + (2 : Int64).toInt ∧
        (∀ y ∈ ((playingAt 0 hopping).run 19).step.trail 5, y.KeepsLine) ∧
        (((playingAt 0 hopping).run 19).step.run 5).line? = some "click" := by decide +kernel
  have hjumps := Line.Jumps.taken hif hfirst
    (.taken hbody hsecond (hskip ▸ Line.jumps_written _ 2))
  exact ⟨hline, ((skips_exactly_iff (begins_plain _) (run_playingAt 0 hopping 19) hstart hlines
    (by decide) (by decide) hjumps htarget (by decide) (Run.steps_self _ 5) hkeeps).2
    (by simp [hline])).2 (by decide)⟩

/-- A scene whose last line goes back to the first one. -/
def returning : List String := ["click", "`passed@", "skip -2"]

/-- The jump is cut short: the second line is started instead of the first. -/
theorem returning_starts_second_line :
    Run HostCall.KeepsPlace ⟨.plain .instant, []⟩ ((playingAt 2 returning).trail 22)
        ((playingAt 2 returning).run 22) ∧
      ((playingAt 2 returning).run 22).line? = some "skip -2" ∧
      ((playingAt 2 returning).run 22).world.stage.index.value = 2 ∧
      (∀ y ∈ ((playingAt 2 returning).run 22).step.trail 3, y.KeepsLine) ∧
      (((playingAt 2 returning).run 22).step.run 3).line? ≠ none ∧
        ¬ (((playingAt 2 returning).run 22).step.run 3).Starts returning 0 ∧
          (((playingAt 2 returning).run 22).step.run 3).Starts returning 1 := by
  obtain ⟨hstart, hstarted, hkeeps, hline, hindex⟩ :
      ((playingAt 2 returning).run 22).line? = some "skip -2" ∧
        ((playingAt 2 returning).run 22).world.stage.index.value = 2 ∧
        (∀ y ∈ ((playingAt 2 returning).run 22).step.trail 3, y.KeepsLine) ∧
        (((playingAt 2 returning).run 22).step.run 3).line? = some "`passed@" ∧
        (((playingAt 2 returning).run 22).step.run 3).world.stage.index.value = 1 := by
    decide +kernel
  refine ⟨run_playingAt 2 returning 22, hstart, hstarted, hkeeps, by simp [hline], fun h => ?_, ?_⟩
  · have hzero := h.1
    rw [hindex] at hzero
    cases hzero
  · exact ⟨by rw [hindex]; rfl, "`passed@", hline, rfl⟩

end Novella
