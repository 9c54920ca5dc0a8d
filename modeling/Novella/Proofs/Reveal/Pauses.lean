import Mathlib.Data.List.Infix
import Novella.Proofs.Reveal.Showing

/-!
# Pauses need input

A text halts at its pause points, `@`, the end of a line and the end of the page, and nothing but
input takes it past one. Of the six modes of a text there are two in which it is suspended at a
pause point. There, input passes the point; in every other mode it passes none, whatever else it
does.

So each pause point takes an input of its own. How many are still to be passed is read off the mode
and the rest of the text, and a single task changes that number only by input at a pause point, and
then by one. What is true of a run follows by adding up.

A text that has no timed pauses and is shown without delay halts at its pause points only. If the
host only watches, such a text is at a pause point, or finished, whenever a call from outside is
over, and so every input from outside passes a pause point until there are none left.

## Main definitions

* `Reveal.pauses`, `Reveal.page` — the pause points of a text, and the part that is shown
* `Reveal.owed`, `Reveal.due` — the pause points that are still to be passed
* `ReadsOn` — one state of a text after another, with so many pause points passed in between
* `Machine.inputs` — the inputs in a run
* `Player.Ready` — a text that waits for input, or is finished

## Main results

* `Turns.perform`, `Shown.turns` — what a task and a step make of a text
* `Shown.readsOn_run`, `Shown.still_run` — what a run makes of it, and of one that is suspended
* `Player.Ready.call`, `Player.Ready.calls` — what calls from outside make of it
* `pauses_need_input` — the pause points of a text and the inputs
-/

namespace Novella

namespace Reveal

/-! ### Pause points -/

/-- The character wants input. -/
def wantsInput (c : Char) : Bool := c = '@' || c = '\n' || c = '\\'

/-- The number of pause points that want input. -/
def pauses (cs : List Char) : Nat := cs.countP wantsInput

/-- The text up to the end of its page, which is the first backslash. -/
def page : List Char → List Char
  | [] => []
  | c :: cs => if c = '\\' then [c] else c :: page cs

/-- The text has no timed pauses. -/
def IsUntimed (cs : List Char) : Prop := ∀ rest, rest <:+ cs → inlineWait? rest = none

instance (cs : List Char) : Decidable (IsUntimed cs) :=
  decidable_of_iff (∀ rest ∈ cs.tails, inlineWait? rest = none) (by simp [IsUntimed])

/-- Between the text and its rest there are no pause points that want input. -/
def Skips (cs rest : List Char) : Prop :=
  ∃ read, cs = read ++ rest ∧ ∀ c ∈ read, wantsInput c = false

theorem pauses_append (cs ds : List Char) : pauses (cs ++ ds) = pauses cs + pauses ds :=
  List.countP_append

theorem IsUntimed.of_suffix {cs rest : List Char} (h : IsUntimed cs) (hr : rest <:+ cs) :
    IsUntimed rest := fun _ hs => h _ (hs.trans hr)

namespace Skips

variable {cs ds rest : List Char} {c : Char}

theorem refl (cs : List Char) : Skips cs cs := ⟨[], rfl, nofun⟩

theorem cons (hc : wantsInput c = false) (h : Skips cs rest) : Skips (c :: cs) rest := by
  obtain ⟨read, rfl, hread⟩ := h
  exact ⟨c :: read, rfl, List.forall_mem_cons.2 ⟨hc, hread⟩⟩

theorem suffix (h : Skips cs rest) : rest <:+ cs := by
  obtain ⟨read, rfl, -⟩ := h
  exact List.suffix_append read rest

theorem pauses_eq (h : Skips cs rest) : pauses cs = pauses rest := by
  obtain ⟨read, rfl, hread⟩ := h
  have hnone : pauses read = 0 := List.countP_eq_zero.2 fun c hc => by simp [hread c hc]
  rw [pauses_append, hnone, Nat.zero_add]

theorem pauses_page_eq (h : Skips cs rest) : pauses (page cs) = pauses (page rest) := by
  obtain ⟨read, rfl, hread⟩ := h
  induction read with
  | nil => rfl
  | cons c read ih =>
    obtain ⟨hc, hread⟩ := List.forall_mem_cons.1 hread
    have hne : c ≠ '\\' := by
      rintro rfl
      cases hc
    rw [List.cons_append, page, if_neg hne, pauses, List.countP_cons_of_neg (by simp [hc])]
    exact ih hread

end Skips

theorem wantsInput_of_not_isPause {c : Char} {cs : List Char} (h : isPause (c :: cs) = false) :
    wantsInput c = false := by
  rw [isPause, Bool.or_eq_false_iff] at h
  exact h.1

theorem skips_stretch (cs : List Char) : Skips cs (afterStretch cs) := by
  induction cs with
  | nil => exact .refl []
  | cons c cs ih =>
    rw [afterStretch]
    split
    · exact .refl _
    · next h => exact ih.cons (wantsInput_of_not_isPause (by simpa using h))

theorem skips_of_dropPause? {cs rest : List Char} (h : dropPause? cs = some rest) :
    Skips cs rest := by
  unfold dropPause? at h
  split at h
  · next c cs =>
    split at h
    · next hc =>
      cases h
      have hdigits : Skips cs (cs.dropWhile Char.isDigit) := by
        refine ⟨cs.takeWhile Char.isDigit, List.takeWhile_append_dropWhile.symm, fun d hd => ?_⟩
        have hdigit : d.isDigit = true := List.mem_takeWhile_imp hd
        by_contra hw
        simp only [wantsInput, Bool.not_eq_false, Bool.or_eq_true, decide_eq_true_eq] at hw
        rcases hw with (rfl | rfl) | rfl <;> exact absurd hdigit (by decide)
      refine (hdigits.cons ?_).cons rfl
      rcases hc.1 with rfl | rfl <;> rfl
    · cases h
  · cases h

/-- A stretch ends at a pause point, or where the text ends. -/
theorem atBoundary_afterStretch (cs : List Char) : atBoundary (afterStretch cs) = true := by
  induction cs with
  | nil => rfl
  | cons c cs ih =>
    rw [afterStretch]
    split
    · next h => rwa [atBoundary, List.isEmpty_cons, Bool.false_or]
    · exact ih

/-- A scan passes over no pause point, or halts at one. -/
theorem skips_scan (delay : Nat) (text : List Char) :
    match scan delay text with
    | .done => text = []
    | .wait _ rest => Skips text rest ∧ ¬ IsUntimed text
    | .pause rest => text = '@' :: rest
    | .lineBreak rest => text = '\n' :: rest
    | .pageBreak rest => text = '\\' :: rest
    | .emit _ rest => Skips text rest ∧ atBoundary text = false ∧ atBoundary rest = true
    | .tick => delay ≠ 0 := by
  cases text with
  | nil => rfl
  | cons c cs =>
    rw [scan]
    cases hw : inlineWait? (c :: cs) with
    | some x =>
      refine ⟨skips_of_dropPause? ?_, fun h => ?_⟩
      · rw [← map_snd_inlineWait?, hw]
        rfl
      · cases hw.symm.trans (h _ (List.suffix_refl _))
    | none =>
      dsimp only
      by_cases ha : c = '@'
      · rw [if_pos ha, ha]
      · rw [if_neg ha]
        by_cases hn : c = '\n'
        · rw [if_pos hn, hn]
        · rw [if_neg hn]
          by_cases hb : c = '\\'
          · rw [if_pos hb, hb]
          · rw [if_neg hb]
            by_cases hd : delay = 0
            · rw [if_pos hd]
              refine ⟨skips_stretch (c :: cs), ?_, atBoundary_afterStretch (c :: cs)⟩
              simp [atBoundary, isPause, ha, hn, hb, hw]
            · rw [if_neg hd]
              exact hd

/-! ### States of a text -/

/-- Whether the text is suspended at a pause point. -/
def Mode.isSuspended : Mode → Bool
  | .awaitingInput => true
  | .pageEnd => true
  | _ => false

/-- Whether the text is on its way to the next pause point. -/
def Mode.isOnWay : Mode → Bool
  | .running => true
  | .ticking => true
  | .waiting => true
  | _ => false

/-- The pause points of the text that are still to be passed. -/
def owed (v : Reveal) : Nat := pauses v.rest + v.mode.isSuspended.toNat

/-- The pause points of the page that are still to be passed. -/
def due (v : Reveal) : Nat :=
  match v.mode with
  | .done => 0
  | .pageEnd => 1
  | mode => pauses (page v.rest) + mode.isSuspended.toNat

theorem Mode.isSuspended_of_isOnWay {mode : Mode} (h : mode.isOnWay) :
    mode.isSuspended = false := by
  cases mode <;> first | rfl | cases h

theorem owed_of_isOnWay {v : Reveal} (h : v.mode.isOnWay) : v.owed = pauses v.rest := by
  rw [owed]
  cases hm : v.mode <;> rw [hm] at h <;> first | rfl | cases h

theorem due_of_isOnWay {v : Reveal} (h : v.mode.isOnWay) : v.due = pauses (page v.rest) := by
  rw [due]
  cases hm : v.mode <;> rw [hm] at h <;> first | rfl | cases h

/-- A text that is suspended has still to pass a pause point. -/
theorem due_pos_of_isSuspended {v : Reveal} (h : v.mode.isSuspended) : 0 < v.due := by
  rw [due]
  cases hm : v.mode with
  | awaitingInput => exact Nat.succ_pos _
  | pageEnd => exact Nat.one_pos
  | _ =>
    rw [hm] at h
    cases h

/-- The text halts at its pause points only. -/
structure Brisk (v : Reveal) : Prop where
  /-- It is shown without delay. -/
  delay : v.delay = 0
  /-- It has no timed pauses. -/
  untimed : IsUntimed v.rest
  /-- It is not shown by the character. -/
  ticking : v.mode ≠ .ticking
  /-- It is not at a timed pause. -/
  waiting : v.mode ≠ .waiting

end Reveal

open Reveal

/-- The text `w` is `v` later on, when `n` more pause points have been passed. -/
structure ReadsOn (n : Nat) (v w : Reveal) : Prop where
  /-- So many pause points less are left of the text. -/
  owed : v.owed = w.owed + n
  /-- So many pause points less are left of the page. -/
  due : v.due = w.due + n
  /-- A text that is finished stays so. -/
  ended : v.mode = .done → w.mode = .done
  /-- And if it halts at pause points only, it goes on doing so. -/
  brisk : v.Brisk → w.Brisk

namespace ReadsOn

variable {u v w : Reveal} {m n : Nat}

theorem refl (v : Reveal) : ReadsOn 0 v v := ⟨rfl, rfl, id, id⟩

theorem trans (h : ReadsOn m u v) (h' : ReadsOn n v w) : ReadsOn (m + n) u w where
  owed := by rw [h.owed, h'.owed]; omega
  due := by rw [h.due, h'.due]; omega
  ended := h'.ended ∘ h.ended
  brisk := h'.brisk ∘ h.brisk

/-- Timers and holds do not matter. -/
theorem of_eq (hr : w.rest = v.rest) (hm : w.mode = v.mode) (hd : w.delay = v.delay) :
    ReadsOn 0 v w where
  owed := by rw [Reveal.owed, Reveal.owed, hr, hm, Nat.add_zero]
  due := by rw [Reveal.due, Reveal.due, hr, hm, Nat.add_zero]
  ended h := hm.trans h
  brisk h := ⟨hd.trans h.delay, hr ▸ h.untimed, hm ▸ h.ticking, hm ▸ h.waiting⟩

/-- A text that is on its way goes on. -/
theorem skip (hs : Skips v.rest w.rest) (hv : v.mode.isOnWay) (hw : w.mode.isOnWay)
    (hb : v.Brisk → w.delay = 0 ∧ w.mode = .running) : ReadsOn 0 v w where
  owed := by
    rw [owed_of_isOnWay hv, owed_of_isOnWay hw, hs.pauses_eq, Nat.add_zero]
  due := by
    rw [due_of_isOnWay hv, due_of_isOnWay hw, hs.pauses_page_eq, Nat.add_zero]
  ended hd := by
    rw [hd] at hv
    cases hv
  brisk h := by
    obtain ⟨hd, hm⟩ := hb h
    exact ⟨hd, h.untimed.of_suffix hs.suffix, by simp [hm], by simp [hm]⟩

/-- A text that is on its way halts. -/
theorem of_isOnWay (hv : v.mode.isOnWay) (hs : w.rest <:+ v.rest) (hw : w.mode.isOnWay = false)
    (hd : w.delay = v.delay) (howed : w.owed = pauses v.rest)
    (hdue : w.due = pauses (page v.rest)) : ReadsOn 0 v w where
  owed := by rw [owed_of_isOnWay hv, howed, Nat.add_zero]
  due := by rw [due_of_isOnWay hv, hdue, Nat.add_zero]
  ended h := by
    rw [h] at hv
    cases hv
  brisk h := by
    refine ⟨hd.trans h.delay, h.untimed.of_suffix hs, fun hm => ?_, fun hm => ?_⟩
    · rw [hm] at hw
      cases hw
    · rw [hm] at hw
      cases hw

/-- It comes to a pause point. -/
theorem halt {c : Char} (hv : v.mode.isOnWay) (hr : v.rest = c :: w.rest)
    (hc : c = '@' ∨ c = '\n') (hw : w.mode = .awaitingInput) (hd : w.delay = v.delay) :
    ReadsOn 0 v w := by
  have hwants : wantsInput c = true := by rcases hc with rfl | rfl <;> rfl
  have hne : c ≠ '\\' := by rcases hc with rfl | rfl <;> decide
  refine .of_isOnWay hv (hr ▸ List.suffix_cons c _) (by rw [hw]; rfl) hd ?_ ?_
  · rw [Reveal.owed, hw, hr, pauses, pauses, List.countP_cons_of_pos hwants]
    rfl
  · rw [Reveal.due, hw, hr, page, if_neg hne, pauses, pauses, List.countP_cons_of_pos hwants]
    rfl

/-- It comes to the end of the page. -/
theorem endPage (hv : v.mode.isOnWay) (hr : v.rest = '\\' :: w.rest) (hw : w.mode = .pageEnd)
    (hd : w.delay = v.delay) : ReadsOn 0 v w := by
  refine .of_isOnWay hv (hr ▸ List.suffix_cons _ _) (by rw [hw]; rfl) hd ?_ ?_
  · rw [Reveal.owed, hw, hr, pauses, pauses, List.countP_cons_of_pos rfl]
    rfl
  · rw [Reveal.due, hw, hr, page, if_pos rfl]
    rfl

/-- It comes to its end. -/
theorem finish (hv : v.mode.isOnWay) (hr : v.rest = []) (hw : w.mode = .done) (hn : w.rest = [])
    (hd : w.delay = v.delay) : ReadsOn 0 v w := by
  refine .of_isOnWay hv (hn ▸ List.nil_suffix) (by rw [hw]; rfl) hd ?_ ?_
  · rw [Reveal.owed, hw, hn, hr]
    rfl
  · rw [Reveal.due, hw, hr]
    rfl

/-- Input takes a text past a pause point. -/
theorem pass (hv : v.mode = .awaitingInput) (hw : w.mode = .running) (hr : w.rest = v.rest)
    (hd : w.delay = v.delay) : ReadsOn 1 v w where
  owed := by
    rw [Reveal.owed, Reveal.owed, hv, hw, hr]
    rfl
  due := by
    rw [Reveal.due, Reveal.due, hv, hw, hr]
    rfl
  ended h := by cases hv.symm.trans h
  brisk h := ⟨hd.trans h.delay, hr ▸ h.untimed, by simp [hw], by simp [hw]⟩

/-- Input finishes a text at the end of the page. -/
theorem passPage (hv : v.mode = .pageEnd) (hw : w.mode = .done) (hr : w.rest = v.rest)
    (hd : w.delay = v.delay) : ReadsOn 1 v w where
  owed := by
    rw [Reveal.owed, Reveal.owed, hv, hw, hr]
    rfl
  due := by
    rw [Reveal.due, Reveal.due, hv, hw]
  ended h := by cases hv.symm.trans h
  brisk h := ⟨hd.trans h.delay, hr ▸ h.untimed, by simp [hw], by simp [hw]⟩

end ReadsOn


/-! ### What a task makes of a text -/

namespace Player

/-- The texts of a player, and the handler that receives input. -/
def reading (p : Player) : Array Reveal × Option Handler := (p.reveals, p.active)

variable {p q : Player} {v w : Reveal} {a : Option Handler} {k n : Nat}

theorem reading_of_inside (h : q.inside = p.inside) : q.reading = p.reading := by
  have hr := congrArg reading h
  exact hr

@[simp] theorem reading_trace (p : Player) (c : LogCategory) (l : LogLevel) (s : String) :
    (p.trace c l s).reading = p.reading := reading_of_inside (inside_trace ..)

@[simp] theorem reading_emit (p : Player) (s : Signal) : (p.emit s).1.reading = p.reading :=
  reading_of_inside (inside_emit ..)

theorem reading_modifyReveal (h : p.reading = (#[v], a)) (f : Reveal → Reveal) :
    (p.modifyReveal 0 f).reading = (#[f v], a) := by
  obtain ⟨hr, ha⟩ := Prod.mk.inj h
  rw [reading, modifyReveal, hr, ← ha]
  rfl

theorem reading_armReveal (h : p.reading = (#[v], a)) (mode : Mode) (d : Nat) (repeats : Bool)
    (act : Act) : (p.armReveal 0 mode d repeats act).reading =
      (#[{ v with mode, timer := some p.schedule.timers.size }], a) :=
  reading_modifyReveal (p := p.startTimer d repeats (.reveal 0 act)) h _

theorem reading_stopReveal (h : p.reading = (#[v], a)) (u : Reveal) (mode : Mode) :
    (p.stopReveal 0 u mode).reading = (#[{ v with mode, timer := none }], a) := by
  rw [stopReveal]
  split
  · next i _ => exact reading_modifyReveal (p := p.cancelTimer i) h _
  · exact reading_modifyReveal h _

theorem reading_finish (p : Player) (k : Nat) :
    (p.finish (.call k)).1.reading = p.reading ∧ (p.finish (.call k)).2 = [] := by
  rw [finish]
  split <;> exact ⟨rfl, rfl⟩

end Player

open Player

/-- The text `v` has become `w`, and `n` pause points have been passed. If it was suspended and
passed none, nothing has been heard of it. If it runs, it may do so on its own, or an order is left
that takes it further. -/
structure Turns (own : Prop) (n : Nat) (v w : Reveal) (p : Player) (x : Player × Orders) :
    Prop where
  /-- This is the text. -/
  reveals : x.1.reveals = #[w]
  /-- It keeps its ticket. -/
  ticket : w.ticket = v.ticket
  /-- Input goes where it went. -/
  active : ∀ a, p.active = some a → x.1.active = some a
  /-- It has been read on. -/
  readsOn : ReadsOn n v w
  /-- A text that is suspended stays so, and nothing is heard of it. -/
  still : v.mode.isSuspended → n = 0 →
    w.mode = v.mode ∧ w.rest = v.rest ∧ ∀ k, x.1.marks k = p.marks k
  /-- A text that runs is taken further. -/
  driven : w.mode = .running → own ∨ ∃ o ∈ x.2, isDrive o = true

namespace Turns

variable {p q : Player} {u v v' w : Reveal} {a : Option Handler} {k n : Nat} {own : Prop}
  {x : Player × Orders}

/-- A text that was on its way. -/
theorem of_isOnWay (h : p.reading = (#[u], a)) (hx : x.1.reading = (#[w], a))
    (ht : w.ticket = v.ticket) (hv : v.mode.isOnWay) (hr : ReadsOn 0 v w)
    (hd : w.mode = .running → own ∨ ∃ o ∈ x.2, isDrive o = true) : Turns own 0 v w p x where
  reveals := congrArg Prod.fst hx
  ticket := ht
  active b hb := (congrArg Prod.snd hx).trans ((congrArg Prod.snd h).symm.trans hb)
  readsOn := hr
  still hs := absurd hs (by rw [Mode.isSuspended_of_isOnWay hv]; decide)
  driven := hd

theorem mono {own' : Prop} (h : Turns own n v w p x) (ho : own → own') : Turns own' n v w p x :=
  { h with driven := fun hm => (h.driven hm).imp_left ho }

theorem proceed (h : p.reading = (#[v], a)) (ht : v.ticket = .call k) (hm : v.mode = .running) :
    ∃ w, Turns False 0 v w p (p.proceed 0 v) := by
  have goOn (rest : List Char) (mode : Mode) :
      (p.modifyReveal 0 (fun v => { v with rest, mode })).reading = (#[{ v with rest, mode }], a) :=
    reading_modifyReveal h _
  have hv : v.mode.isOnWay := by rw [hm]; rfl
  have hs := skips_scan v.delay v.rest
  rw [Player.proceed]
  dsimp only
  cases hscan : scan v.delay v.rest with
  | done =>
    rw [hscan] at hs
    rw [ht]
    refine ⟨_, .of_isOnWay h (w := { v with rest := [], mode := .done }) ?_ rfl hv
      (.finish hv hs rfl rfl rfl) fun h => by cases h⟩
    rw [(reading_finish _ k).1, reading_trace, goOn]
  | wait ms rest =>
    rw [hscan] at hs
    refine ⟨_, .of_isOnWay h (reading_armReveal ((reading_trace ..).trans (goOn rest .running)) ..)
      rfl hv (.skip hs.1 hv rfl fun hb => absurd hb.untimed hs.2) fun h => by cases h⟩
  | pause rest =>
    rw [hscan] at hs
    exact ⟨_, .of_isOnWay h ((reading_trace ..).trans (goOn rest .awaitingInput)) rfl hv
      (.halt hv hs (.inl rfl) rfl rfl) fun h => by cases h⟩
  | lineBreak rest =>
    rw [hscan] at hs
    exact ⟨_, .of_isOnWay h
      ((reading_emit ..).trans ((reading_trace ..).trans (goOn rest .awaitingInput))) rfl hv
      (.halt hv hs (.inr rfl) rfl rfl) fun h => by cases h⟩
  | pageBreak rest =>
    rw [hscan] at hs
    exact ⟨_, .of_isOnWay h
      ((reading_emit ..).trans ((reading_trace ..).trans (goOn rest .pageEnd))) rfl hv
      (.endPage hv hs rfl rfl) fun h => by cases h⟩
  | emit token rest =>
    rw [hscan] at hs
    refine ⟨_, .of_isOnWay h ((reading_emit ..).trans (goOn rest .running)) rfl hv
      (.skip hs.1 hv rfl fun hb => ⟨hb.delay, rfl⟩) fun _ => .inr ?_⟩
    exact ⟨_, List.mem_append_right _ List.mem_cons_self, rfl⟩
  | tick =>
    rw [hscan] at hs
    exact ⟨_, .of_isOnWay h (reading_armReveal h ..) rfl hv
      (.skip (.refl _) hv rfl fun hb => absurd hb.delay hs) fun h => by cases h⟩

/-- A text runs from where it is. -/
theorem runReveal (h : p.reading = (#[v'], a)) (hq : q.reading = (#[u], a))
    (ht : u.ticket = .call k) (hu : u.ticket = v.ticket)
    (hr : ReadsOn n v { u with mode := .running }) (hv : v.mode.isOnWay ∨ n ≠ 0) :
    ∃ w, Turns False n v w p (q.runReveal 0) := by
  have hm := reading_modifyReveal hq (fun v => { v with mode := .running })
  obtain ⟨w, hw⟩ := proceed (v := { u with mode := .running }) hm ht rfl
  have hrun : q.runReveal 0 = (q.modifyReveal 0 fun v => { v with mode := .running }).proceed 0
      { u with mode := .running } := by
    unfold Player.runReveal
    simp only [(Prod.mk.inj hm).1, List.getElem?_toArray, List.getElem?_cons_zero]
  rw [hrun]
  refine ⟨w, hw.reveals, hw.ticket.trans hu, fun b hb => hw.active b ?_, hr.trans hw.readsOn,
    fun hs hn => ?_, hw.driven⟩
  · exact (Prod.mk.inj hq).2.trans ((Prod.mk.inj h).2.symm.trans hb)
  · rcases hv with hv | hv
    · rw [Mode.isSuspended_of_isOnWay hv] at hs
      cases hs
    · exact absurd hn hv

/-- A text that does not move. -/
theorem same {h : Nat} (hx : x.1.reading = p.reading)
    (hp : p.reading = (#[{ v with holds := h }], a)) (hm : ∀ k, x.1.marks k = p.marks k) :
    Turns (v.mode = .running) 0 v { v with holds := h } p x where
  reveals := (congrArg Prod.fst hx).trans (congrArg Prod.fst hp)
  ticket := rfl
  active _ hb := (congrArg Prod.snd hx).trans hb
  readsOn := .of_eq rfl rfl rfl
  still _ _ := ⟨rfl, rfl, hm⟩
  driven := .inl

/-- The text is kept for so long. -/
theorem keeping {f : Player → Player × Orders} {g : Reveal → Reveal}
    (h : Turns own n v w (p.modifyReveal 0 g)
      (f (p.modifyReveal 0 (fun v => { v with holds := v.holds + 1 })))) :
    Turns own n v w p (p.keeping 0 f) := by
  refine ⟨h.reveals, h.ticket, h.active, h.readsOn, h.still, fun hm => (h.driven hm).imp_right ?_⟩
  rintro ⟨o, ho, hd⟩
  exact ⟨o, List.mem_append_left _ ho, hd⟩

theorem tickReveal {h : Nat} (hp : p.reading = (#[{ v with holds := h }], a))
    (hm : v.mode = .ticking) : ∃ w, Turns False 0 v w p (p.tickReveal 0 v) := by
  have hv : v.mode.isOnWay := by rw [hm]; rfl
  have stay {orders : Orders} : Turns False 0 v { v with holds := h } p (p, orders) :=
    .of_isOnWay hp hp rfl hv (.of_eq rfl rfl rfl) fun hr => by cases hm.symm.trans hr
  rw [Player.tickReveal]
  split
  · exact ⟨_, stay⟩
  · next c rest hrest =>
    split
    · exact ⟨_, stay⟩
    · next hc =>
      have hg := reading_modifyReveal hp fun v => { v with rest }
      have hs : Skips v.rest rest := by
        rw [hrest] at hc ⊢
        exact .cons (wantsInput_of_not_isPause (by simpa using hc)) (.refl rest)
      exact ⟨_, .of_isOnWay hp ((reading_emit ..).trans hg) rfl hv
        (.skip hs hv hv fun hb => absurd hm hb.ticking) fun hr => by cases hm.symm.trans hr⟩

/-- Input passes a pause point if the text is suspended at one. -/
theorem nudgeReveal {h : Nat} (hp : p.reading = (#[{ v with holds := h }], a))
    (ht : v.ticket = .call k) :
    ∃ w, Turns (v.mode = .running) v.mode.isSuspended.toNat v w p (p.nudgeReveal 0 v) := by
  have stay {s : Schedule Task} (hm : v.mode.isSuspended = false) :
      ∃ w, Turns (v.mode = .running) v.mode.isSuspended.toNat v w p
        ({ p with schedule := s }, []) := by
    rw [hm]
    exact ⟨_, same (x := ({ p with schedule := s }, [])) rfl hp fun _ => rfl⟩
  rw [Player.nudgeReveal]
  split
  · next hm =>
    have hv : v.mode.isOnWay := by rw [hm]; rfl
    have hg := reading_modifyReveal (reading_stopReveal hp v .running)
      fun v => { v with rest := afterStretch v.rest }
    have hr : ReadsOn 0 v { v with
        holds := h, mode := .running, timer := none, rest := afterStretch v.rest } :=
      .skip (skips_stretch v.rest) hv rfl fun hb => absurd hm hb.ticking
    rw [Mode.isSuspended_of_isOnWay hv]
    dsimp only
    split
    · exact ⟨_, .of_isOnWay hp hg rfl hv hr fun _ => .inr ⟨_, List.mem_cons_self, rfl⟩⟩
    · exact ⟨_, .of_isOnWay hp ((reading_emit ..).trans hg) rfl hv hr
        fun _ => .inr ⟨_, List.mem_append_right _ List.mem_cons_self, rfl⟩⟩
  · next hm =>
    rw [hm]
    obtain ⟨w, hw⟩ := runReveal (v := v) hp hp ht rfl (.pass hm rfl rfl rfl) (.inr Nat.one_ne_zero)
    exact ⟨w, hw.mono False.elim⟩
  · next hm =>
    have hg := reading_modifyReveal hp fun v => { v with mode := .done }
    have hx := (reading_finish _ k).1.trans hg
    rw [ht, hm]
    exact ⟨_, congrArg Prod.fst hx, rfl,
      fun b hb => (congrArg Prod.snd hx).trans ((congrArg Prod.snd hp).symm.trans hb),
      .passPage hm rfl rfl rfl, fun _ h => absurd h (by decide), fun h => by cases h⟩
  · next hm =>
    split
    · exact stay (by rw [hm]; rfl)
    · exact stay (by rw [hm]; rfl)
  · next hm => exact stay (by rw [hm]; rfl)
  · next hm => exact stay (by rw [hm]; rfl)

/-- Acts of the text pass no pause point. -/
theorem actReveal (hp : p.reading = (#[v], a)) (ht : v.ticket = .call k) {act : Act}
    (hrun : isDrive (.perform (.reveal 0 act)) = true → v.mode = .running) :
    ∃ w, Turns (v.mode = .running ∧ isDrive (.perform (.reveal 0 act)) = false) 0 v w p
      (p.actReveal 0 act) := by
  have hheld := reading_modifyReveal hp fun v => { v with holds := v.holds + 1 }
  have stay (hd : isDrive (.perform (.reveal 0 act)) = false) :
      ∃ w, Turns (v.mode = .running ∧ isDrive (.perform (.reveal 0 act)) = false) 0 v w p (p, []) :=
    ⟨_, (same (h := v.holds) (x := (p, [])) rfl hp fun _ => rfl).mono fun hm => ⟨hm, hd⟩⟩
  rw [Player.actReveal]
  simp only [(Prod.mk.inj hp).1, List.getElem?_toArray, List.getElem?_cons_zero]
  cases act with
  | run =>
    have hm := hrun rfl
    obtain ⟨w, hw⟩ := runReveal (v := v) hp hp ht rfl (.of_eq rfl hm.symm rfl)
      (.inl (by rw [hm]; rfl))
    exact ⟨w, hw.mono False.elim⟩
  | resume =>
    have hm := hrun rfl
    rw [if_pos hm]
    obtain ⟨w, hw⟩ := proceed hp ht hm
    exact ⟨w, hw.mono False.elim⟩
  | tick =>
    dsimp only
    split
    · next hc =>
      obtain ⟨w, hw⟩ := tickReveal hheld hc.2
      exact ⟨w, keeping (hw.mono False.elim)⟩
    · exact stay rfl
  | ticked =>
    dsimp only
    split
    · next hc =>
      have hv : v.mode.isOnWay := by rw [hc.1]; rfl
      obtain ⟨w, hw⟩ := runReveal (v := v) hp (reading_stopReveal hp v .running) ht rfl
        (.skip (.refl v.rest) hv rfl fun hb => absurd hc.1 hb.ticking) (.inl hv)
      exact ⟨w, hw.mono False.elim⟩
    · exact stay rfl
  | wake =>
    dsimp only
    split
    · next hc =>
      have hv : v.mode.isOnWay := by rw [hc.2]; rfl
      obtain ⟨w, hw⟩ := runReveal (v := v) hheld hheld ht rfl
        (.skip (.refl v.rest) hv rfl fun hb => absurd hc.2 hb.waiting) (.inl hv)
      exact ⟨w, keeping (hw.mono False.elim)⟩
    · exact stay rfl
  | release =>
    have hx := reading_modifyReveal hp fun v => { v with holds := v.holds - 1 }
    exact ⟨_, congrArg Prod.fst hx, rfl, fun _ hb => hb, .of_eq rfl rfl rfl,
      fun _ _ => ⟨rfl, rfl, fun _ => rfl⟩, fun hm => .inl ⟨hm, rfl⟩⟩

/-- Input reaches a text that receives it. -/
theorem next (hp : p.reading = (#[v], a)) (ht : v.ticket = .call k)
    (ha : a = none ∨ a = some (.reveal 0)) :
    ∃ n w, Turns (v.mode = .running) n v w p p.next ∧
      n = if a = none then 0 else v.mode.isSuspended.toNat := by
  have hactive : p.active = a := (Prod.mk.inj hp).2
  rcases ha with rfl | rfl
  · simp only [Player.next, hactive]
    exact ⟨0, _, same (h := v.holds) (x := (p, [])) rfl hp fun _ => rfl, rfl⟩
  · have hheld := reading_modifyReveal hp fun v => { v with holds := v.holds + 1 }
    obtain ⟨w, hw⟩ := nudgeReveal hheld ht
    simp only [Player.next, hactive, advanceHandler, (Prod.mk.inj hp).1, List.getElem?_toArray,
      List.getElem?_cons_zero]
    exact ⟨_, w, keeping hw, rfl⟩

end Turns

/-- The order gives input. -/
def isInput : Order Task → Bool
  | .perform (.call _ .next) => true
  | _ => false

/-- The number of inputs in the first `n` steps, from outside or from a hook. -/
def Machine.inputs : Nat → Machine Player Task → Nat
  | 0, _ => 0
  | n + 1, m => (m.agenda.head?.any isInput).toNat + m.step.inputs n

namespace Turns

variable {p q : Player} {v w : Reveal} {a : Option Handler} {k n : Nat} {own : Prop}
  {x : Player × Orders}

/-- Orders may follow. -/
theorem append (h : Turns own n v w p x) (orders : Orders) :
    Turns own n v w p (x.1, x.2 ++ orders) := by
  refine { h with driven := fun hm => (h.driven hm).imp_right ?_ }
  rintro ⟨o, ho, hd⟩
  exact ⟨o, List.mem_append_left _ ho, hd⟩

/-- The text receives input once its command has started. -/
theorem conclude (hp : p.reading = (#[v], a)) (ha : a = none ∨ a = some (.reveal 0)) :
    ∃ w, Turns (v.mode = .running) 0 v w p (p.conclude (.call k) (.pending (.reveal 0))) := by
  have hx := reading_modifyReveal hp fun v => { v with holds := v.holds - 1 }
  rw [Player.conclude]
  split
  · refine ⟨_, congrArg Prod.fst hx, rfl, fun b hb => ?_, .of_eq rfl rfl rfl,
      fun _ _ => ⟨rfl, rfl, fun _ => rfl⟩, .inl⟩
    rcases ha with rfl | rfl
    · cases (Prod.mk.inj hp).2.symm.trans hb
    · exact (Prod.mk.inj hp).2.symm.trans hb
  · exact ⟨_, congrArg Prod.fst hx, rfl, fun b hb => hb, .of_eq rfl rfl rfl,
      fun _ _ => ⟨rfl, rfl, fun _ => rfl⟩, .inl⟩

theorem report (p : Player) (x : Answer) (b : Audience) :
    (p.report x b).reading = p.reading ∧ ∀ k, (p.report x b).marks k = p.marks k := by
  cases b with
  | events =>
    rw [Player.report]
    split
    · exact ⟨rfl, fun _ => rfl⟩
    · exact ⟨rfl, fun k => marks_note_of_eq_none p rfl⟩
  | _ => exact ⟨rfl, fun _ => rfl⟩

/-- **What a task makes of a text.** Only input passes a pause point, one at a time, and it does if
the text receives it and is suspended. -/
theorem perform (hp : p.reading = (#[v], a)) (hv : v.ticket = .call k)
    (ha : a = none ∨ a = some (.reveal 0)) {t : Task} (ht : t.Belongs k)
    (hrun : isDrive (.perform t) = true → v.mode = .running) :
    ∃ n w, Turns (v.mode = .running ∧ isDrive (.perform t) = false) n v w p (Player.perform t p) ∧
      n = if isInput (.perform t) ∧ a ≠ none then v.mode.isSuspended.toNat else 0 := by
  have stay {x : Player × Orders} (hd : isDrive (.perform t) = false)
      (hx : x.1.reading = p.reading) (hm : ∀ k, x.1.marks k = p.marks k) :
      Turns (v.mode = .running ∧ isDrive (.perform t) = false) 0 v v p x :=
    (same (h := v.holds) hx hp hm).mono fun hr => ⟨hr, hd⟩
  cases t with
  | ring i => exact ⟨0, v, stay rfl rfl fun _ => rfl, rfl⟩
  | reveal r act =>
    obtain rfl : r = 0 := ht
    obtain ⟨w, hw⟩ := actReveal hp hv hrun
    exact ⟨0, w, hw, rfl⟩
  | conclude t c =>
    obtain ⟨rfl, rfl⟩ := ht
    obtain ⟨w, hw⟩ := conclude hp ha
    exact ⟨0, w, hw.mono fun hr => ⟨hr, rfl⟩, rfl⟩
  | call b c =>
    have hf := ht.holds
    cases c with
    | next =>
      obtain ⟨n, w, hw, hn⟩ := next hp hv ha
      refine ⟨n, w, (hw.append _).mono fun hr => ⟨hr, rfl⟩, hn.trans ?_⟩
      by_cases h : a = none <;> simp [h, isInput]
    | settle => exact ⟨0, v, stay rfl rfl fun _ => rfl, rfl⟩
    | advance d => exact ⟨0, v, stay rfl rfl fun _ => rfl, rfl⟩
    | runMicrotasks => exact ⟨0, v, stay rfl rfl fun _ => rfl, rfl⟩
    | _ => exact hf.elim
  | report b x =>
    obtain ⟨hr, hm⟩ := report p x b
    exact ⟨0, v, stay rfl hr hm, rfl⟩
  | _ => exact ht.elim

end Turns

/-! ### Runs -/

/-- Other orders leave the text alone. -/
theorem Machine.step_of_not_perform {m : Machine Player Task} {o : Order Task} {rest : Orders}
    (h : m.agenda = o :: rest) (ho : ∀ t, o ≠ .perform t) :
    ∃ s, m.step.world = { m.world with schedule := s } := by
  obtain ⟨p, agenda⟩ := m
  obtain rfl : agenda = o :: rest := h
  cases o with
  | perform t => exact absurd rfl (ho t)
  | drain =>
    rw [Machine.step]
    dsimp only
    split <;> exact ⟨_, rfl⟩
  | runUntil target =>
    rw [Machine.step]
    dsimp only
    split <;> exact ⟨_, rfl⟩
  | _ => exact ⟨_, rfl⟩

namespace Shown

variable {k : Nat} {text : List Char} {v w : Reveal} {m : Machine Player Task}

/-- **What a step makes of a text.** -/
theorem turns (h : Shown k text v (m.world, m.agenda)) :
    ∃ n w, Shown k text w (m.step.world, m.step.agenda) ∧ ReadsOn n v w ∧
      n ≤ (m.agenda.head?.any isInput).toNat ∧ (v.mode.isSuspended → n = 0 →
        w.mode = v.mode ∧ w.rest = v.rest ∧ m.step.world.marks k = m.world.marks k) := by
  obtain ⟨w, hw⟩ := h.step
  obtain ⟨live, marks, hh, -⟩ := h.holds
  obtain ⟨live', marks', hh', -⟩ := hw.holds
  have hreveals : m.world.reveals = #[v] := hh.reveals
  have hreveals' : m.step.world.reveals = #[w] := hh'.reveals
  have alone (hworld : ∃ s, m.step.world = { m.world with schedule := s }) :
      ∃ n w, Shown k text w (m.step.world, m.step.agenda) ∧ ReadsOn n v w ∧
        n ≤ (m.agenda.head?.any isInput).toNat ∧ (v.mode.isSuspended → n = 0 →
          w.mode = v.mode ∧ w.rest = v.rest ∧ m.step.world.marks k = m.world.marks k) := by
    obtain ⟨s, hs⟩ := hworld
    obtain rfl : v = w := by
      rw [hs] at hreveals'
      simpa using hreveals.symm.trans hreveals'
    exact ⟨0, v, hw, .refl v, Nat.zero_le _, fun _ _ => ⟨rfl, rfl, by rw [hs]; rfl⟩⟩
  cases ha : m.agenda with
  | nil =>
    rw [← ha]
    exact alone ⟨_, by rw [Machine.step_of_agenda_eq_nil ha]⟩
  | cons o rest =>
    rw [← ha]
    by_cases hperform : ∃ t, o = .perform t
    · obtain ⟨t, rfl⟩ := hperform
      have hrun : isDrive (.perform t) = true → v.mode = .running := fun hd => by
        by_contra hm
        have hcount := h.drives
        rw [if_neg hm, ha, List.countP_cons_of_pos hd] at hcount
        cases hcount
      have ht := h.orders _ (ha ▸ List.mem_cons_self)
      obtain ⟨n, w', hturns, hn⟩ := Turns.perform (p := m.world) (a := m.world.active)
        (by rw [reading, hreveals]) hh.ticket hh.active ht hrun
      have hstep : m.step.world = (Player.perform t m.world).1 := by
        rw [Machine.step, ha]
        rfl
      rw [hstep] at hreveals'
      obtain rfl : w' = w := by simpa using hturns.reveals.symm.trans hreveals'
      refine ⟨n, w', hw, hturns.readsOn, ?_, fun hs hz => ?_⟩
      · rw [hn, ha, List.head?_cons, Option.any_some]
        split
        · next hi =>
          rw [hi.1]
          exact Bool.toNat_le v.mode.isSuspended
        · exact Nat.zero_le _
      · obtain ⟨hmode, hrest, hmarks⟩ := hturns.still hs hz
        exact ⟨hmode, hrest, hstep ▸ hmarks k⟩
    · exact alone (Machine.step_of_not_perform ha fun t ht => hperform ⟨t, ht⟩)

/-- **A pause point takes an input of its own**, in a whole run. -/
theorem readsOn_run (h : Shown k text v (m.world, m.agenda)) (n : Nat) :
    ∃ t w, Shown k text w ((m.run n).world, (m.run n).agenda) ∧ ReadsOn t v w ∧ t ≤ m.inputs n := by
  induction n generalizing m v with
  | zero => exact ⟨0, v, h, .refl v, Nat.le_refl 0⟩
  | succ n ih =>
    obtain ⟨i, u, hu, hread, hi, -⟩ := h.turns
    obtain ⟨j, w, hw, hread', hj⟩ := ih hu
    rw [Machine.run_succ]
    exact ⟨i + j, w, hw, hread.trans hread', Nat.add_le_add hi hj⟩

/-- A text that is suspended stays so without input, and nothing is heard of it. -/
theorem still_run (h : Shown k text v (m.world, m.agenda)) (hv : v.mode.isSuspended) {n : Nat}
    (hn : m.inputs n = 0) :
    ∃ w, Shown k text w ((m.run n).world, (m.run n).agenda) ∧ w.mode = v.mode ∧ w.rest = v.rest ∧
      (m.run n).world.marks k = m.world.marks k := by
  induction n generalizing m v with
  | zero => exact ⟨v, h, rfl, rfl, rfl⟩
  | succ n ih =>
    obtain ⟨hhead, htail⟩ := Nat.add_eq_zero_iff.1 hn
    obtain ⟨i, u, hu, -, hi, hstill⟩ := h.turns
    obtain ⟨hmode, hrest, hmarks⟩ := hstill hv (Nat.le_zero.1 (hhead ▸ hi))
    obtain ⟨w, hw, hmode', hrest', hmarks'⟩ := ih hu (hmode ▸ hv) htail
    rw [Machine.run_succ]
    exact ⟨w, hw, hmode'.trans hmode, hrest'.trans hrest, hmarks'.trans hmarks⟩

end Shown

/-! ### Texts without timed pauses -/

namespace Player

/-- The host still only watches, and nothing new waits in the loop. -/
structure Bides (p q : Player) : Prop where
  /-- Listeners make no calls. -/
  listeners : (∀ l ∈ p.listeners, l.body = []) → ∀ l ∈ q.listeners, l.body = []
  /-- No timer is touched. -/
  schedule : q.schedule = p.schedule

namespace Bides

variable {p q r : Player}

theorem trans (h : p.Bides q) (h' : q.Bides r) : p.Bides r :=
  ⟨h'.listeners ∘ h.listeners, h'.schedule.trans h.schedule⟩

theorem trace (p : Player) (c : LogCategory) (l : LogLevel) (s : String) :
    p.Bides (p.trace c l s) := by
  rcases p.trace_eq c l s with h | ⟨e, h⟩ <;> rw [h] <;> exact ⟨id, rfl⟩

theorem emit (p : Player) (s : Signal) : p.Bides (p.emit s).1 := by
  have hs := congrArg Player.schedule (inside_emit p s)
  exact ⟨fun h => bodies_emit h s, hs⟩

theorem finish (p : Player) (k : Nat) : p.Bides (p.finish (.call k)).1 := by
  rw [Player.finish]
  split <;> exact ⟨id, rfl⟩

end Bides

end Player

namespace Player

/-- The player shows a text without delay, which has no timed pauses. Its host only watches, and
nothing waits in the loop. -/
structure Calm (k : Nat) (v : Reveal) (p : Player) : Prop where
  /-- This is the text. -/
  reveals : p.reveals = #[v]
  /-- Its ticket is the one of the call. -/
  ticket : v.ticket = .call k
  /-- It halts at its pause points only. -/
  brisk : v.Brisk
  /-- Listeners make no calls. -/
  listeners : ∀ l ∈ p.listeners, l.body = []
  /-- No microtask waits. -/
  microtasks : p.loop.microtasks = []
  /-- No timeout waits. -/
  timeouts : p.loop.timeouts = []

/-- The orders are carried out, with all that comes of them. -/
def Does (p : Player) (orders : Orders) (q : Player) : Prop :=
  ∀ rest, ∃ n, (Machine.mk p (orders ++ rest)).run n = ⟨q, rest⟩

namespace Does

variable {p q r : Player} {orders orders' : Orders}

theorem nil (p : Player) : p.Does [] p := fun _ => ⟨0, rfl⟩

theorem append (h : p.Does orders q) (h' : q.Does orders' r) : p.Does (orders ++ orders') r := by
  intro rest
  obtain ⟨n, hn⟩ := h (orders' ++ rest)
  obtain ⟨m, hm⟩ := h' rest
  exact ⟨n + m, by rw [List.append_assoc, Machine.run_add, hn, hm]⟩

theorem perform {t : Task} (h : (Player.perform t p).1.Does (Player.perform t p).2 q) :
    p.Does [.perform t] q := by
  intro rest
  obtain ⟨n, hn⟩ := h rest
  exact ⟨n + 1, by rw [Machine.run_succ]; exact hn⟩

end Does

namespace Calm

variable {p q : Player} {v w : Reveal} {k n : Nat} {own : Prop} {x : Player × Orders}

theorem of_turns (h : p.Calm k v) (hw : Turns own n v w p x) (hb : p.Bides x.1) : x.1.Calm k w where
  reveals := hw.reveals
  ticket := hw.ticket.trans h.ticket
  brisk := hw.readsOn.brisk h.brisk
  listeners := hb.listeners h.listeners
  microtasks := by rw [loop, hb.schedule]; exact h.microtasks
  timeouts := by rw [loop, hb.schedule]; exact h.timeouts

theorem of_bides (h : p.Calm k v) (hr : q.reading = p.reading) (hb : p.Bides q) : q.Calm k v where
  reveals := (Prod.mk.inj hr).1.trans h.reveals
  ticket := h.ticket
  brisk := h.brisk
  listeners := hb.listeners h.listeners
  microtasks := by rw [loop, hb.schedule]; exact h.microtasks
  timeouts := by rw [loop, hb.schedule]; exact h.timeouts

theorem bides_proceed (h : p.Calm k v) :
    p.Bides (p.proceed 0 v).1 ∧ ((p.proceed 0 v).2 = [] ∨
      atBoundary v.rest = false ∧ (p.proceed 0 v).2 = [.perform (.reveal 0 .resume)] ∧
        ∃ w, (p.proceed 0 v).1.reveals = #[w] ∧ w.mode = .running ∧ atBoundary w.rest) := by
  have goOn (rest : List Char) (mode : Mode) :
      p.Bides (p.modifyReveal 0 (fun v => { v with rest, mode })) := ⟨id, rfl⟩
  have hs := skips_scan v.delay v.rest
  rw [Player.proceed]
  dsimp only
  cases hscan : scan v.delay v.rest with
  | done =>
    rw [h.ticket]
    exact ⟨((goOn [] .done).trans (.trace ..)).trans (.finish ..), .inl (reading_finish _ k).2⟩
  | wait ms rest =>
    rw [hscan] at hs
    exact absurd h.brisk.untimed hs.2
  | pause rest => exact ⟨(goOn rest .awaitingInput).trans (.trace ..), .inl rfl⟩
  | lineBreak rest =>
    have hb := (goOn rest .awaitingInput).trans
      (.trace _ .text .trace "line break: waiting for input")
    exact ⟨hb.trans (.emit ..), .inl (orders_emit (hb.listeners h.listeners) _)⟩
  | pageBreak rest =>
    have hb := (goOn rest .pageEnd).trans (.trace _ .text .trace "page break")
    exact ⟨hb.trans (.emit ..), .inl (orders_emit (hb.listeners h.listeners) _)⟩
  | emit token rest =>
    rw [hscan] at hs
    have hm := reading_modifyReveal (a := p.active) (by rw [reading, h.reveals])
      fun v => { v with rest, mode := .running }
    refine ⟨(goOn rest .running).trans (.emit ..), .inr ⟨hs.2.1, ?_, _,
      congrArg Prod.fst ((reading_emit ..).trans hm), rfl, hs.2.2⟩⟩
    exact congrArg (· ++ [Order.perform (.reveal 0 .resume)])
      (orders_emit ((goOn rest .running).listeners h.listeners) _)
  | tick =>
    rw [hscan] at hs
    exact absurd h.brisk.delay hs

/-- A text that runs comes to its next pause point. A stretch ends there, so it is shown in one
piece. -/
theorem proceed (h : p.Calm k v) (hm : v.mode = .running) :
    ∃ q w, (p.proceed 0 v).1.Does (p.proceed 0 v).2 q ∧ q.Calm k w ∧ ReadsOn 0 v w ∧
      w.mode ≠ .running ∧ ∀ a, p.active = some a → q.active = some a := by
  have once {p : Player} {v : Reveal} (h : p.Calm k v) (hm : v.mode = .running) :
      ∃ w, (p.proceed 0 v).1.Calm k w ∧ Turns False 0 v w p (p.proceed 0 v) := by
    obtain ⟨w, hw⟩ := Turns.proceed (a := p.active) (by rw [reading, h.reveals]) h.ticket hm
    exact ⟨w, h.of_turns hw h.bides_proceed.1, hw⟩
  have halted {p : Player} {v : Reveal} (h : p.Calm k v) (hm : v.mode = .running)
      (hx : (p.proceed 0 v).2 = []) :
      ∃ w, (p.proceed 0 v).1.Calm k w ∧ ReadsOn 0 v w ∧ w.mode ≠ .running ∧
        ∀ a, p.active = some a → (p.proceed 0 v).1.active = some a := by
    obtain ⟨w, hw, hturns⟩ := once h hm
    refine ⟨w, hw, hturns.readsOn, fun hr => ?_, hturns.active⟩
    rcases hturns.driven hr with hf | ⟨o, ho, -⟩
    · exact hf
    · rw [hx] at ho
      exact absurd ho List.not_mem_nil
  rcases h.bides_proceed.2 with hx | ⟨-, hx, u, hu, hum, hub⟩
  · obtain ⟨w, hw⟩ := halted h hm hx
    exact ⟨_, w, hx ▸ .nil _, hw⟩
  · obtain ⟨w, hw, hturns⟩ := once h hm
    obtain rfl : w = u := by simpa using hw.reveals.symm.trans hu
    rcases hw.bides_proceed.2 with hx' | ⟨hb, -, -⟩
    · obtain ⟨w', hcalm, hread, hne, hactive⟩ := halted hw hum hx'
      refine ⟨_, w', ?_, hcalm, hturns.readsOn.trans hread, hne,
        fun a ha => hactive a (hturns.active a ha)⟩
      have hresume : Player.perform (.reveal 0 .resume) (p.proceed 0 v).1 =
          (p.proceed 0 v).1.proceed 0 w := by
        simp only [Player.perform, Player.actReveal, hu, List.getElem?_toArray,
          List.getElem?_cons_zero, if_pos hum]
      rw [hx]
      refine .perform ?_
      rw [hresume, hx']
      exact .nil _
    · rw [hb] at hub
      cases hub

/-- Whatever changes the text keeps the rest. -/
theorem modify (h : p.Calm k v) {f : Reveal → Reveal} (ht : (f v).ticket = v.ticket)
    (hb : (f v).Brisk) : (p.modifyReveal 0 f).Calm k (f v) where
  reveals := by rw [modifyReveal, h.reveals]; rfl
  ticket := ht.trans h.ticket
  brisk := hb
  listeners := h.listeners
  microtasks := h.microtasks
  timeouts := h.timeouts

theorem runReveal (h : p.Calm k v) (hr : ReadsOn n v { v with mode := .running }) :
    ∃ q w, (p.runReveal 0).1.Does (p.runReveal 0).2 q ∧ q.Calm k w ∧ ReadsOn n v w ∧
      w.mode ≠ .running ∧ ∀ a, p.active = some a → q.active = some a := by
  have hm := h.modify (f := fun v => { v with mode := .running }) rfl (hr.brisk h.brisk)
  have hrun : p.runReveal 0 = (p.modifyReveal 0 fun v => { v with mode := .running }).proceed 0
      { v with mode := .running } := by
    unfold Player.runReveal
    simp only [hm.reveals, List.getElem?_toArray, List.getElem?_cons_zero]
  obtain ⟨q, w, hq, hw, hread, hne, hactive⟩ := hm.proceed rfl
  exact ⟨q, w, hrun ▸ hq, hw, hr.trans hread, hne, hactive⟩

end Calm

/-- A text at a pause point, or finished, with nothing left to be done. -/
structure Ready (k : Nat) (v : Reveal) (p : Player) : Prop extends p.Calm k v where
  /-- It does not run. -/
  halted : v.mode ≠ .running
  /-- It receives input, if it is not finished. -/
  active : p.active = some (.reveal 0) ∨ p.active = none ∧ v.mode = .done

end Player

/-- The call gives input. -/
def HostCall.isNext : HostCall → Bool
  | next => true
  | _ => false

namespace Player

namespace Ready

variable {p q : Player} {v w : Reveal} {k n : Nat}

theorem suspended (h : p.Ready k v) (hd : v.mode ≠ .done) : v.mode.isSuspended := by
  cases hm : v.mode with
  | running => exact absurd hm h.halted
  | ticking => exact absurd hm h.brisk.ticking
  | waiting => exact absurd hm h.brisk.waiting
  | awaitingInput => rfl
  | pageEnd => rfl
  | done => exact absurd hm hd

/-- A text that was kept is given free. -/
theorem release {x : Player × Orders} (hq : x.1.Does x.2 q) (hw : q.Calm k w)
    (hm : w.mode ≠ .running) (ha : q.active = some (.reveal 0)) :
    ∃ r u, x.1.Does (x.2 ++ [.perform (.reveal 0 .release)]) r ∧ r.Ready k u ∧ ReadsOn 0 w u ∧
      u.mode = w.mode := by
  have hr := hw.modify (f := fun v => { v with holds := v.holds - 1 }) rfl
    ⟨hw.brisk.delay, hw.brisk.untimed, hw.brisk.ticking, hw.brisk.waiting⟩
  refine ⟨_, _, hq.append (.perform ?_), ⟨hr, hm, .inl ha⟩, .of_eq rfl rfl rfl, rfl⟩
  have hperform : Player.perform (.reveal 0 .release) q =
      (q.modifyReveal 0 fun v => { v with holds := v.holds - 1 }, []) := by
    simp only [Player.perform, actReveal, hw.reveals, List.getElem?_toArray,
      List.getElem?_cons_zero]
  rw [hperform]
  exact .nil _

/-- Input passes a pause point, unless the text is finished. -/
theorem next (h : p.Ready k v) :
    ∃ q w n, p.next.1.Does p.next.2 q ∧ q.Ready k w ∧ ReadsOn n v w ∧ n ≤ 1 ∧
      (w.mode = .done ∨ n = 1) := by
  rcases h.active with ha | ⟨ha, hd⟩
  · have hheld := h.modify (f := fun v => { v with holds := v.holds + 1 }) rfl
      ⟨h.brisk.delay, h.brisk.untimed, h.brisk.ticking, h.brisk.waiting⟩
    have hsame : ReadsOn 0 v { v with holds := v.holds + 1 } := .of_eq rfl rfl rfl
    have hnext : p.next = p.keeping 0 fun p => p.nudgeReveal 0 v := by
      simp only [Player.next, ha, advanceHandler, h.reveals, List.getElem?_toArray,
        List.getElem?_cons_zero]
    rw [hnext, keeping]
    by_cases hd : v.mode = .done
    · simp only [nudgeReveal, hd]
      obtain ⟨r, u, hr, hready, hread, hmode⟩ := release (x := (_, [])) (.nil _) hheld h.halted ha
      exact ⟨r, u, 0, hr, hready, hsame.trans hread, Nat.zero_le 1, .inl (hmode.trans hd)⟩
    · have hs := h.suspended hd
      cases hm : v.mode with
      | awaitingInput =>
        obtain ⟨q, w, hq, hw, hread, hne, hactive⟩ := hheld.runReveal (.pass hm rfl rfl rfl)
        obtain ⟨r, u, hr, hready, hread', -⟩ := release hq hw hne (hactive _ ha)
        simp only [nudgeReveal, hm]
        exact ⟨r, u, 1, hr, hready, (hsame.trans hread).trans hread', Nat.le_refl 1, .inr rfl⟩
      | pageEnd =>
        have hdone := hheld.modify (f := fun v => { v with mode := .done }) rfl
          ⟨h.brisk.delay, h.brisk.untimed, by simp, by simp⟩
        have hread : ReadsOn 1 v { v with holds := v.holds + 1, mode := .done } :=
          .passPage hm rfl rfl rfl
        obtain ⟨hreading, hnone⟩ := reading_finish
          ((p.modifyReveal 0 fun v => { v with holds := v.holds + 1 }).modifyReveal 0
            fun v => { v with mode := .done }) k
        obtain ⟨r, u, hr, hready, hread', hmode⟩ := release (x := (_, [])) (.nil _)
          (hdone.of_bides hreading (.finish ..)) (by simp) ((Prod.mk.inj hreading).2.trans ha)
        simp only [nudgeReveal, hm, h.ticket, hnone]
        exact ⟨r, u, 1, hr, hready, hread.trans hread', Nat.le_refl 1, .inl hmode⟩
      | _ =>
        rw [hm] at hs
        cases hs
  · have hnext : p.next = (p, []) := by simp only [Player.next, ha]
    rw [hnext]
    exact ⟨p, v, 0, .nil p, h, .refl v, Nat.zero_le 1, .inl hd⟩

theorem of_answer (h : p.Ready k v) (x : Answer) : (p.report x .caller).Ready k v :=
  { h with }

/-- Time that passes leaves the text alone. -/
theorem does_advance (h : p.Ready k v) (d : Nat) :
    ∃ q, p.Does [.advance d] q ∧ q.Ready k v := by
  have hm : (World.loop p).microtasks = [] := h.microtasks
  have ht : (World.loop p).timeouts = [] := h.timeouts
  refine ⟨World.withLoop p { World.loop p with now := (World.loop p).now + d },
    fun rest => ⟨4, ?_⟩, { h with }⟩
  simp [Machine.run, Machine.step, Loop.popMicrotask?, Loop.popDue?, hm, ht]

theorem does_drain (h : p.Ready k v) : p.Does [.drain] p := by
  have hm : (World.loop p).microtasks = [] := h.microtasks
  refine fun rest => ⟨1, ?_⟩
  simp [Machine.run, Machine.step, Loop.popMicrotask?, hm]

/-- **A call from outside** passes a pause point if it gives input, unless the text is finished. -/
theorem call (h : p.Ready k v) {c : HostCall} (hc : c.Within HostCall.Forward) :
    ∃ q w n, p.Does [.perform (.call .caller c)] q ∧ q.Ready k w ∧ ReadsOn n v w ∧
      n ≤ c.isNext.toNat ∧ (w.mode = .done ∨ n = c.isNext.toNat) := by
  have answered {x : Player × Orders} {q : Player} {w : Reveal} (hx : x.1.Does x.2 q)
      (hq : q.Ready k w)
      (hp : Player.perform (.call .caller c) p =
        (x.1, x.2 ++ [Order.perform (Task.report .caller .none)])) :
      ∃ r, p.Does [.perform (.call .caller c)] r ∧ r.Ready k w := by
    refine ⟨_, .perform ?_, hq.of_answer .none⟩
    rw [hp]
    exact hx.append (.perform (.nil _))
  have hf := hc.holds
  cases c with
  | next =>
    obtain ⟨q, w, n, hq, hw, hread, hle, hn⟩ := h.next
    obtain ⟨r, hr, hready⟩ := answered hq hw rfl
    exact ⟨r, w, n, hr, hready, hread, hle, hn⟩
  | settle =>
    obtain ⟨q, hq, hw⟩ := h.does_advance 0
    obtain ⟨r, hr, hready⟩ := answered (x := (p, [.settle])) hq hw rfl
    exact ⟨r, v, 0, hr, hready, .refl v, Nat.le_refl 0, .inr rfl⟩
  | advance d =>
    obtain ⟨q, hq, hw⟩ := h.does_advance d
    obtain ⟨r, hr, hready⟩ := answered (x := (p, [.advance d])) hq hw rfl
    exact ⟨r, v, 0, hr, hready, .refl v, Nat.le_refl 0, .inr rfl⟩
  | runMicrotasks =>
    obtain ⟨r, hr, hready⟩ := answered (x := (p, [.drain])) h.does_drain h rfl
    exact ⟨r, v, 0, hr, hready, .refl v, Nat.le_refl 0, .inr rfl⟩
  | _ => exact hf.elim

/-- And so do several calls, one after the other. -/
theorem calls (h : p.Ready k v) {calls : List HostCall}
    (hc : ∀ c ∈ calls, c.Within HostCall.Forward) :
    ∃ q w n, p.Does (calls.map fun c => .perform (.call .caller c)) q ∧ q.Ready k w ∧
      ReadsOn n v w ∧ n ≤ calls.countP HostCall.isNext ∧
      (w.mode = .done ∨ n = calls.countP HostCall.isNext) := by
  induction calls generalizing p v with
  | nil => exact ⟨p, v, 0, .nil p, h, .refl v, Nat.le_refl 0, .inr rfl⟩
  | cons c calls ih =>
    obtain ⟨hc, hcs⟩ := List.forall_mem_cons.1 hc
    obtain ⟨q, w, n, hq, hw, hread, hle, hn⟩ := h.call hc
    obtain ⟨r, u, m, hr, hu, hread', hle', hm⟩ := ih hw hcs
    have hcount : (c :: calls).countP HostCall.isNext =
        c.isNext.toNat + calls.countP HostCall.isNext := by
      rw [List.countP_cons, Nat.add_comm]
      cases c.isNext <;> rfl
    refine ⟨r, u, n + m, hq.append hr, hu, hread.trans hread', ?_, ?_⟩
    · omega
    · rcases hm with hm | hm
      · exact .inl hm
      · rcases hn with hn | hn
        · exact .inl (hread'.ended hn)
        · exact .inr (by omega)

/-- The command has started, and the text receives input from now on. -/
theorem start (h : p.Calm k v) (hm : v.mode ≠ .running) (hl : .call k ∈ p.live ∨ v.mode = .done)
    (ha : p.active = none ∨ p.active = some (.reveal 0)) :
    ∃ q w, p.Does [.perform (.conclude (.call k) (.pending (.reveal 0)))] q ∧ q.Ready k w ∧
      ReadsOn 0 v w := by
  have hheld := h.modify (f := fun v => { v with holds := v.holds - 1 }) rfl
    ⟨h.brisk.delay, h.brisk.untimed, h.brisk.ticking, h.brisk.waiting⟩
  by_cases hlive : .call k ∈ p.live
  · have hready : Ready k _ { p.modifyReveal 0 (fun v => { v with holds := v.holds - 1 }) with
        active := some (.reveal 0), phase := .awaiting } := ⟨{ hheld with }, hm, .inl rfl⟩
    refine ⟨_, _, .perform ?_, hready, .of_eq rfl rfl rfl⟩
    rw [Player.perform, conclude]
    split
    · exact .nil _
    · next hnot => exact absurd hlive hnot
  · have hd := hl.resolve_left hlive
    refine ⟨_, _, .perform ?_, ⟨hheld, hm, ha.symm.imp_right fun ha => ⟨ha, hd⟩⟩,
      .of_eq rfl rfl rfl⟩
    rw [Player.perform, conclude]
    split
    · next hmem => exact absurd hmem hlive
    · exact .nil _

end Ready

end Player

/-! ### Texts on their own -/

namespace Account

variable {k : Nat} {text rest : List Char} {mode : Mode} {live : List Ticket} {marks : List Mark}

theorem done_iff (h : Account k text mode rest live marks) : .done ∈ marks ↔ mode = .done := by
  cases h with
  | underway _ hd hu => exact iff_of_false hu.done hd
  | pageEnd hc => exact iff_of_false hc.done nofun
  | done hc => simp

theorem mem_live (h : Account k text mode rest live marks) : .call k ∈ live ∨ mode = .done := by
  cases h with
  | done => exact .inr rfl
  | _ => exact .inl List.mem_cons_self

theorem exists_read (h : Account k text mode rest live marks) : ∃ read, text = read ++ rest := by
  cases h with
  | underway _ _ hu =>
    obtain ⟨read, hr, -⟩ := hu.reads.read
    exact ⟨read, hr⟩
  | pageEnd hc | done hc =>
    obtain ⟨read, hr, -⟩ := hc.pages
    exact ⟨read, hr⟩

end Account

/-- The text before anything of it is shown. -/
def Player.opening (p : Player) (k : Nat) (text : String) : Reveal :=
  { rest := text.toList, delay := p.charDelay, ticket := .call k }

/-- The player with the text before it. -/
def Player.begun (p : Player) (k : Nat) (text : String) : Player :=
  { p with live := [.call k], reveals := #[p.opening k text] }

theorem Shown.opening {p : Player} (hp : p.Blank) (k : Nat) (text : String) {calls : List HostCall}
    (hc : ∀ c ∈ calls, c.Within HostCall.Forward) :
    Shown k text.toList (p.opening k text)
      ((p.showing k text calls).world, (p.showing k text calls).agenda) := by
  obtain ⟨v, hv⟩ := Shown.showing hp k text hc
  obtain ⟨live, marks, hh, -⟩ := hv.holds
  have hreveals := hh.reveals
  rw [hp.showing_eq] at hreveals
  obtain rfl : p.opening k text = v := by simpa [Player.opening] using hreveals
  exact hv

/-- A host that only watches carries out its calls one by one. The text is finished in the end if
and only if there was enough input for its pause points. -/
theorem Shown.finished_iff {p : Player} (hp : p.Blank) (k : Nat) (text : String)
    {calls : List HostCall} (hc : ∀ c ∈ calls, c.Within HostCall.Forward)
    (hdelay : p.charDelay = 0) (htext : IsUntimed text.toList)
    (hl : ∀ l ∈ p.listeners, l.body = []) :
    ∃ n q, (p.showing k text calls).run n = ⟨q, []⟩ ∧
      (.done ∈ q.marks k ↔ pauses (page text.toList) ≤ calls.countP HostCall.isNext) := by
  have hshown := Shown.opening hp k text hc
  have known {n : Nat} {q : Player} {w : Reveal} {orders : Orders} (hq : q.reveals = #[w])
      (hn : (p.showing k text calls).run n = ⟨q, orders⟩) : Shown k text.toList w (q, orders) := by
    obtain ⟨u, hu⟩ := hshown.run n
    rw [hn] at hu
    obtain ⟨live, marks, hh, -⟩ := hu.holds
    obtain rfl : w = u := by simpa using hq.symm.trans hh.reveals
    exact hu
  -- the text comes to its first pause point, and its command starts
  have hcalm : (p.begun k text).Calm k (p.opening k text) :=
    ⟨rfl, rfl, ⟨hdelay, htext, nofun, nofun⟩, hl, hp.microtasks, hp.timeouts⟩
  obtain ⟨q, w, hq, hw, hread, hne, -⟩ := hcalm.runReveal (.of_eq rfl rfl rfl)
  have hrun : (p.begun k text).Does [.perform (.reveal 0 .run)] q := .perform hq
  obtain ⟨n, hn⟩ := hrun (.perform (.conclude (.call k) (.pending (.reveal 0))) ::
    calls.map fun c => .perform (.call .caller c))
  obtain ⟨live, marks, hh, ha⟩ := (known hw.reveals (hp.showing_eq k text calls ▸ hn)).holds
  obtain ⟨r, u, hr, hu, hread'⟩ :=
    Ready.start hw hne (by rw [show q.live = live from hh.live]; exact ha.mem_live) hh.active
  -- and then one call after the other is made
  obtain ⟨s, v, i, hs, hv, hread'', hle, hi⟩ := hu.calls hc
  obtain ⟨j, hj⟩ := ((hrun.append hr).append hs) []
  rw [List.append_nil] at hj
  have hend : (p.showing k text calls).run j = ⟨s, []⟩ := hp.showing_eq k text calls ▸ hj
  refine ⟨j, s, hend, ?_⟩
  obtain ⟨live, marks, hh, ha⟩ := (known hv.reveals hend).holds
  have hdue : pauses (page text.toList) = v.due + i := by
    have hstart : (p.opening k text).due = pauses (page text.toList) := rfl
    have hall := ((hread.trans hread').trans hread'').due
    omega
  rw [show s.marks k = marks from hh.marks, ha.done_iff, hdue]
  constructor
  · intro hd
    have hzero : v.due = 0 := by rw [due, hd]
    omega
  · intro hm
    by_contra hd
    have hcount := hi.resolve_left hd
    have hpos := due_pos_of_isSuspended (hv.suspended hd)
    omega

/-- **Pause points need input.** However the host gives input and lets time pass, from outside and
when it hears of the text, no more pause points are passed than there were inputs. A text that is
suspended stays so without input, and nothing is heard of it. It is never finished before there was
an input for each pause point of its page. Without delay and timed pauses it is finished with the
last of them, and with its own turn if there are none. -/
theorem pauses_need_input {p : Player} (hp : p.Blank) (k : Nat) (text : String)
    {calls : List HostCall} (hc : ∀ c ∈ calls, c.Within HostCall.Forward) :
    (∀ n, ∃ v read, ((p.showing k text calls).run n).world.reveals[0]? = some v ∧
      text.toList = read ++ v.rest ∧
      pauses read ≤ (p.showing k text calls).inputs n + v.mode.isSuspended.toNat) ∧
    (∀ n j v, ((p.showing k text calls).run n).world.reveals[0]? = some v →
      v.mode.isSuspended → ((p.showing k text calls).run n).inputs j = 0 →
        .done ∉ ((p.showing k text calls).run n).world.marks k ∧
        ((p.showing k text calls).run (n + j)).world.marks k =
          ((p.showing k text calls).run n).world.marks k ∧
        ∃ w, ((p.showing k text calls).run (n + j)).world.reveals[0]? = some w ∧
          w.mode = v.mode ∧ w.rest = v.rest) ∧
    (∀ n, .done ∈ ((p.showing k text calls).run n).world.marks k →
      pauses (page text.toList) ≤ (p.showing k text calls).inputs n) ∧
    (p.charDelay = 0 → IsUntimed text.toList → (∀ l ∈ p.listeners, l.body = []) →
      ∃ n q, (p.showing k text calls).run n = ⟨q, []⟩ ∧
        (.done ∈ q.marks k ↔ pauses (page text.toList) ≤ calls.countP HostCall.isNext)) := by
  have hshown := Shown.opening hp k text hc
  have reveal {v : Reveal} {x : Player × Orders} (h : Shown k text.toList v x) :
      x.1.reveals[0]? = some v := by
    obtain ⟨live, marks, hh, -⟩ := h.holds
    rw [hh.reveals]
    rfl
  have hstart : (p.opening k text).due = pauses (page text.toList) := rfl
  refine ⟨fun n => ?_, fun n j v hv hs hn => ?_, fun n hd => ?_, Shown.finished_iff hp k text hc⟩
  · obtain ⟨t, w, hw, hread, ht⟩ := hshown.readsOn_run n
    obtain ⟨live, marks, hh, ha⟩ := hw.holds
    obtain ⟨read, hr⟩ := ha.exists_read
    refine ⟨w, read, reveal hw, hr, ?_⟩
    have howed : pauses text.toList + 0 = w.owed + t := hread.owed
    rw [hr, pauses_append, owed] at howed
    omega
  · obtain ⟨u, hu⟩ := hshown.run n
    obtain rfl : u = v := Option.some.inj ((reveal hu).symm.trans hv)
    obtain ⟨w, hw, hmode, hrest, hmarks⟩ := hu.still_run hs hn
    obtain ⟨live, marks, hh, ha⟩ := hu.holds
    rw [Machine.run_add]
    refine ⟨fun hd => ?_, hmarks, w, reveal hw, hmode, hrest⟩
    rw [hh.marks] at hd
    rw [ha.done_iff.1 hd] at hs
    cases hs
  · obtain ⟨t, w, hw, hread, ht⟩ := hshown.readsOn_run n
    obtain ⟨live, marks, hh, ha⟩ := hw.holds
    rw [hh.marks] at hd
    have hzero : w.due = 0 := by rw [due, ha.done_iff.1 hd]
    have hdue := hread.due
    omega

/-- A host that hears of tokens and pages and does nothing then. Texts are shown without delay. -/
def watching : Player :=
  { Player.standard (.ofTexts []) {} { textSpeed := .instant } with
    hooks :=
      { text := { receiver := some (.listener 0) }, page := { receiver := some (.listener 0) } } }

/-- A text with a pause, a second line and more after the end of its page. -/
theorem watched_text_paused :
    (∃ n q, (watching.showing 0 "a@b\nc\\d@" [.next, .advance 5, .next, .next]).run n = ⟨q, []⟩ ∧
      (.done ∈ q.marks 0 ↔ 3 ≤ 3)) ∧
    ((watching.showing 0 "a@b\nc\\d@" [.next, .advance 5, .next]).run 100).world.marks 0 =
      [.token "a", .token "b", .token "\n", .token "c", .page] := by
  have hb : watching.Blank :=
    ⟨rfl, rfl, rfl, rfl, rfl, rfl, ⟨0, rfl⟩, ⟨0, rfl⟩,
      fun _ hl => absurd hl (Array.not_mem_empty _)⟩
  refine ⟨(pauses_need_input hb 0 _ fun c hc => ?_).2.2.2 rfl (by decide)
    fun _ hl => absurd hl (Array.not_mem_empty _), by decide +kernel⟩
  simp only [List.mem_cons, List.not_mem_nil, or_false] at hc
  rcases hc with rfl | rfl | rfl | rfl <;> exact .of_body_eq_nil trivial rfl

end Novella
