import Novella.Proofs.Player.PendingCalls
import Novella.Proofs.Reveal.VisibleText
import Novella.Proofs.Timer.ScheduledTasks

/-!
# Showing a text

A text is shown on its own: it is the only one of its player, its ticket belongs to a call from
outside, and the host does nothing but give input and let time pass, both from outside and when it
hears of a token or of the end of the page. What it hears are the *marks* of the text.

At every moment the marks account for the text: what was shown and what the rest still shows is what
there is to see, until the end of the page or of the text has been reached. The text may go on in
three ways, by itself, by a timer or by input, but never in two at once. As long as it runs, there
is at most one task that takes it further, and timers and input pass it by.

## Main definitions

* `Mark`, `Player.marks` — what the host hears of a text
* `Account` — how the marks account for a text
* `Player.showing` — a player that shows a text, with a host that makes calls
* `Faithful` — what the marks of a text say

## Main results

* `Underway.token`, `Underway.endPage`, `Underway.complete` — reading on keeps the account
* `Shown.step` — what shows a text goes on showing it
* `showing_faithful` — whatever happens meanwhile, what is shown of a text is what there is to see
-/

namespace Novella

open Player Reveal

/-- Calls that give input or let time pass. -/
def HostCall.Forward : HostCall → Prop
  | next => True
  | settle => True
  | advance _ => True
  | runMicrotasks => True
  | _ => False

/-! ### Marks -/

/-- What the host hears of a text. -/
inductive Mark where
  /-- A piece of it. -/
  | token (s : String)
  /-- The end of its page. -/
  | page
  /-- Its instruction is finished. -/
  | done
deriving DecidableEq, Repr

/-- The characters of a mark. -/
def Mark.chars : Mark → List Char
  | token s => s.toList
  | _ => []

/-- The mark of an event, for the text of a call. -/
def Event.mark? (k : Nat) : Event → Option Mark
  | .occurred (.signal (.text s)) => some (.token s)
  | .occurred (.signal .page) => some .page
  | .done j => if j = k then some .done else none
  | _ => none

/-- The characters of all marks together. -/
def shown (marks : List Mark) : List Char := marks.flatMap Mark.chars

@[simp] theorem shown_append (l l' : List Mark) : shown (l ++ l') = shown l ++ shown l' :=
  List.flatMap_append

@[simp] theorem shown_token (s : String) : shown [.token s] = s.toList := List.append_nil _

@[simp] theorem shown_page : shown [.page] = [] := rfl

@[simp] theorem shown_done : shown [.done] = [] := rfl

namespace Player

/-- The marks that the host has heard. -/
def marks (p : Player) (k : Nat) : List Mark := p.events.toList.filterMap (Event.mark? k)

theorem marks_note (p : Player) (k : Nat) (e : Event) :
    (p.note e).marks k = p.marks k ++ (e.mark? k).toList := by
  rw [marks, note, Array.toList_push, List.filterMap_append]
  cases h : e.mark? k <;> simp [marks, h]

theorem marks_note_of_eq_none (p : Player) {k : Nat} {e : Event} (h : e.mark? k = none) :
    (p.note e).marks k = p.marks k := by
  rw [marks_note, h]
  exact List.append_nil _

end Player

/-! ### Accounts -/

/-- The text has been read up to the rest, the marks show what has been seen, and it goes on. -/
structure Underway (text rest : List Char) (marks : List Mark) : Prop where
  /-- The marks show what has been seen. -/
  reads : Reads text (shown marks) rest
  /-- The page has not ended. -/
  page : .page ∉ marks
  /-- The text is not finished. -/
  done : .done ∉ marks

/-- The text has been read up to the rest, and there is nothing more to see. -/
structure Complete (text rest : List Char) (marks : List Mark) : Prop where
  /-- All there is to see is shown. -/
  shown : shown marks = visible text
  /-- The page has ended if its end was read. -/
  pages : ∃ read, text = read ++ rest ∧ marks.count .page = if '\\' ∈ read then 1 else 0
  /-- The text is not finished. -/
  done : .done ∉ marks

variable {k : Nat} {text rest rest' : List Char} {marks : List Mark}

namespace Underway

theorem start (text : List Char) : Underway text text [] :=
  ⟨.refl text, List.not_mem_nil, List.not_mem_nil⟩

/-- Reading on past what is not seen. -/
theorem skip (h : Underway text rest marks) (hr : Reads rest [] rest') :
    Underway text rest' marks := by
  refine ⟨?_, h.page, h.done⟩
  have ht := h.reads.trans hr
  rwa [List.append_nil] at ht

/-- Reading on, with a token for what is seen. -/
theorem token (h : Underway text rest marks) {s : String} (hr : Reads rest s.toList rest') :
    Underway text rest' (marks ++ [.token s]) := by
  refine ⟨?_, ?_, ?_⟩
  · rw [shown_append, shown_token]
    exact h.reads.trans hr
  · simp [h.page]
  · simp [h.done]

/-- Reading the end of the page. -/
theorem endPage (h : Underway text ('\\' :: rest) marks) :
    Complete text rest (marks ++ [.page]) := by
  obtain ⟨read, rfl, -⟩ := h.reads.read
  refine ⟨?_, ⟨read ++ ['\\'], by simp, ?_⟩, by simp [h.done]⟩
  · rw [h.reads.visible, visible_backslash, shown_append, shown_page]
  · rw [List.count_append, List.count_eq_zero_of_not_mem h.page]
    simp

/-- Reading to the end of the text. -/
theorem complete (h : Underway text [] marks) : Complete text [] marks := by
  obtain ⟨read, hr, hb⟩ := h.reads.read
  refine ⟨?_, ⟨read, hr, ?_⟩, h.done⟩
  · rw [h.reads.visible, visible_nil, List.append_nil]
  · rw [List.count_eq_zero_of_not_mem h.page, if_neg hb]

end Underway

/-- How the marks and the tickets not given back account for a text in a mode, with the rest that
is still to be read. -/
inductive Account (k : Nat) (text : List Char) :
    Mode → List Char → List Ticket → List Mark → Prop where
  /-- The text goes on. -/
  | underway {mode : Mode} {rest : List Char} {marks : List Mark} :
      mode ≠ .pageEnd → mode ≠ .done → Underway text rest marks →
      Account k text mode rest [.call k] marks
  /-- The page has ended. -/
  | pageEnd {rest : List Char} {marks : List Mark} :
      Complete text rest marks → Account k text .pageEnd rest [.call k] marks
  /-- The text is finished. -/
  | done {rest : List Char} {marks : List Mark} :
      Complete text rest marks → Account k text .done rest [] (marks ++ [.done])

/-- What the marks of a text say: the host sees what there is to see, and nothing twice. -/
structure Faithful (text rest : List Char) (marks : List Mark) : Prop where
  /-- What is shown comes first in what there is to see. -/
  shown : shown marks <+: visible text
  /-- When the text is finished all there is to see has been shown. -/
  finished : ∀ before after, marks = before ++ .done :: after → Novella.shown before = visible text
  /-- Nothing is shown after that. -/
  whole : .done ∈ marks → Novella.shown marks = visible text
  /-- It is finished once at most. -/
  done : marks.count .done ≤ 1
  /-- The page ends once at most. -/
  page : marks.count .page ≤ 1
  /-- It has ended if and only if its end has been read. -/
  page_iff : marks.count .page = 1 ↔ ∃ read, text = read ++ rest ∧ '\\' ∈ read

theorem Complete.page_iff (h : Complete text rest marks) :
    marks.count .page ≤ 1 ∧
      (marks.count .page = 1 ↔ ∃ read, text = read ++ rest ∧ '\\' ∈ read) := by
  obtain ⟨read, hr, hc⟩ := h.pages
  rw [hc]
  refine ⟨by split <;> simp, fun hone => ⟨read, hr, ?_⟩, ?_⟩
  · by_contra hb
    rw [if_neg hb] at hone
    cases hone
  · rintro ⟨read', hr', hb⟩
    obtain rfl : read' = read := List.append_cancel_right (hr'.symm.trans hr)
    exact if_pos hb

theorem Account.faithful {mode : Mode} {live : List Ticket} {marks : List Mark}
    (h : Account k text mode rest live marks) : Faithful text rest marks := by
  have never {marks : List Mark} (hd : .done ∉ marks) (before after : List Mark)
      (he : marks = before ++ .done :: after) : shown before = visible text := by
    refine absurd ?_ hd
    rw [he]
    exact List.mem_append_right _ List.mem_cons_self
  cases h with
  | underway _ _ hu =>
    have hp := List.count_eq_zero_of_not_mem hu.page
    refine ⟨hu.reads.isPrefix, never hu.done, fun hd => absurd hd hu.done, ?_, ?_, ?_⟩
    · rw [List.count_eq_zero_of_not_mem hu.done]
      exact Nat.zero_le 1
    · rw [hp]
      exact Nat.zero_le 1
    · rw [hp]
      refine iff_of_false Nat.zero_ne_one ?_
      rintro ⟨read, hr, hb⟩
      obtain ⟨read', hr', hb'⟩ := hu.reads.read
      obtain rfl : read = read' := List.append_cancel_right (hr.symm.trans hr')
      exact hb' hb
  | pageEnd hc =>
    refine ⟨hc.shown ▸ List.prefix_refl _, never hc.done, fun _ => hc.shown, ?_, hc.page_iff.1,
      hc.page_iff.2⟩
    rw [List.count_eq_zero_of_not_mem hc.done]
    exact Nat.zero_le 1
  | done hc =>
    rename_i marks
    have hp : (marks ++ [Mark.done]).count .page = marks.count .page := by simp
    have hs : shown (marks ++ [.done]) = visible text := by
      rw [shown_append, shown_done, List.append_nil, hc.shown]
    refine ⟨hs ▸ List.prefix_refl _, fun before after he => ?_, fun _ => hs, ?_, ?_, ?_⟩
    · -- the finish is the last mark
      rcases List.append_eq_append_iff.1 he with ⟨l, rfl, hl⟩ | ⟨l, rfl, hl⟩
      · cases l with
        | nil => rw [List.append_nil, hc.shown]
        | cons x l => simp at hl
      · cases l with
        | nil => rw [List.append_nil] at hc; exact hc.shown
        | cons x l =>
          refine absurd ?_ hc.done
          rw [List.cons_append, List.cons.injEq] at hl
          simp [hl.1]
    · rw [List.count_append, List.count_eq_zero_of_not_mem hc.done]
      exact Nat.le_refl 1
    · rw [hp]
      exact hc.page_iff.1
    · rw [hp]
      exact hc.page_iff.2

/-! ### Players that show a text -/

namespace Player

/-- Timers ring and move the text on. -/
def Task.IsAlarm : Task → Prop
  | .ring _ => True
  | .reveal r a => r = 0 ∧ (a = .tick ∨ a = .wake)
  | _ => False

/-- The task belongs to the showing of the text, or to what a host does meanwhile. -/
def Task.Belongs (k : Nat) : Task → Prop
  | .ring _ => True
  | .reveal r _ => r = 0
  | .conclude t c => t = .call k ∧ c = .pending (.reveal 0)
  | .call _ c => c.Within HostCall.Forward
  | .report _ _ => True
  | _ => False

theorem Task.IsAlarm.belongs {t : Task} (h : t.IsAlarm) : t.Belongs k := by
  cases t with
  | reveal r a => exact h.1
  | ring => trivial
  | _ => exact h.elim

/-- The order takes a text further that is running. -/
def isDrive : Order Task → Bool
  | .perform (.reveal _ .run) => true
  | .perform (.reveal _ .resume) => true
  | _ => false

theorem Task.IsAlarm.not_drive {t : Task} (h : t.IsAlarm) : isDrive (.perform t) = false := by
  cases t with
  | reveal r a => rcases h.2 with rfl | rfl <;> rfl
  | ring => rfl
  | _ => exact h.elim

end Player

/-- The order belongs to the showing of the text, or to what a host does meanwhile. -/
def Order.Belongs (k : Nat) : Order Task → Prop
  | .perform t => t.Belongs k
  | _ => True

namespace Player

theorem belongs_of_mem_calls {body : List HostCall} (h : ∀ c ∈ body, c.Within HostCall.Forward)
    (a : Audience) :
    ∀ o ∈ body.map (fun c => Order.perform (.call a c)), o.Belongs k ∧ isDrive o = false := by
  intro o ho
  obtain ⟨c, hc, rfl⟩ := List.mem_map.1 ho
  exact ⟨h c hc, rfl⟩

variable {p q : Player} {v : Reveal} {live : List Ticket}

/-- The player shows one text, whose state, tickets and marks are these, and has nothing else to
do. -/
structure Holds (k : Nat) (v : Reveal) (live : List Ticket) (marks : List Mark) (p : Player) :
    Prop where
  /-- This is the text. -/
  reveals : p.reveals = #[v]
  /-- Its ticket is the one of the call. -/
  ticket : v.ticket = .call k
  /-- These are the tickets. -/
  live : p.live = live
  /-- These are the marks. -/
  marks : p.marks k = marks
  /-- Input goes to the text or is not taken yet. -/
  active : p.active = none ∨ p.active = some (.reveal 0)
  /-- The host hears of tokens. -/
  text : ∃ i, p.hooks.text.receiver = some (.listener i)
  /-- The host hears of the end of the page. -/
  page : ∃ i, p.hooks.page.receiver = some (.listener i)
  /-- What it does then is to give input or to let time pass. -/
  listeners : ∀ l ∈ p.listeners, ∀ c ∈ l.body, c.Within HostCall.Forward
  /-- Timers move the text on. -/
  schedule : p.schedule.Only Task.IsAlarm

namespace Holds

theorem modify (h : p.Holds k v live marks) {f : Reveal → Reveal} (hf : (f v).ticket = v.ticket) :
    (p.modifyReveal 0 f).Holds k (f v) live marks := by
  refine { h with reveals := ?_, ticket := hf.trans h.ticket }
  rw [modifyReveal, h.reveals]
  rfl

theorem note (h : p.Holds k v live marks) {e : Event} :
    (p.note e).Holds k v live (marks ++ (e.mark? k).toList) :=
  { h with marks := by rw [marks_note, h.marks] }

theorem note_of_eq_none (h : p.Holds k v live marks) {e : Event} (he : e.mark? k = none) :
    (p.note e).Holds k v live marks :=
  { h with marks := by rw [marks_note_of_eq_none p he, h.marks] }

theorem trace (h : p.Holds k v live marks) (c : LogCategory) (l : LogLevel) (s : String) :
    (p.trace c l s).Holds k v live marks := by
  rw [Player.trace, DebugFilter.entry]
  split
  · exact h.note_of_eq_none rfl
  · exact h

theorem withSchedule (h : p.Holds k v live marks) {s : Schedule Task}
    (hs : s.Only Task.IsAlarm) : { p with schedule := s }.Holds k v live marks :=
  { h with schedule := hs }

/-- The host hears something, and may make its calls then. -/
theorem react (h : p.Holds k v live marks) (i : Nat) {o : Occurrence} {m : Mark}
    (hm : Event.mark? k (.occurred o) = some m) :
    (p.react i o).1.Holds k v live (marks ++ [m]) ∧
      ∀ x ∈ (p.react i o).2, x.Belongs k ∧ isDrive x = false := by
  have hn : (p.note (.occurred o)).Holds k v live (marks ++ [m]) := by
    have hn := h.note (e := .occurred o)
    rwa [hm] at hn
  have never : ∀ x ∈ ([] : Orders), x.Belongs k ∧ isDrive x = false :=
    fun _ hx => absurd hx List.not_mem_nil
  rw [Player.react]
  dsimp only
  split
  · next l hl =>
    have hb := h.listeners l (Array.mem_of_getElem? hl)
    split
    · refine ⟨{ hn with listeners := fun x hx => ?_ }, belongs_of_mem_calls hb .events⟩
      rcases Array.mem_or_eq_of_mem_setIfInBounds hx with hx | rfl
      · exact h.listeners x hx
      · exact hb
    · exact ⟨hn, never⟩
  · exact ⟨hn, never⟩

theorem emit_text (h : p.Holds k v live marks) (s : String) :
    (p.emit (.text s)).1.Holds k v live (marks ++ [.token s]) ∧
      ∀ x ∈ (p.emit (.text s)).2, x.Belongs k ∧ isDrive x = false := by
  obtain ⟨i, hi⟩ := h.text
  have he : p.emit (.text s) = p.react i (.signal (.text s)) := by
    simp only [emit, Signal.hook, Hooks.relay, hi, receive]
  rw [he]
  exact h.react i rfl

theorem emit_page (h : p.Holds k v live marks) :
    (p.emit .page).1.Holds k v live (marks ++ [.page]) ∧
      ∀ x ∈ (p.emit .page).2, x.Belongs k ∧ isDrive x = false := by
  obtain ⟨i, hi⟩ := h.page
  have he : p.emit .page = p.react i (.signal .page) := by
    simp only [emit, Signal.hook, Hooks.relay, hi, receive]
  rw [he]
  exact h.react i rfl

theorem arm (h : p.Holds k v live marks) (mode : Mode) (d : Nat) (repeats : Bool) {a : Act}
    (ha : a = .tick ∨ a = .wake) :
    (p.armReveal 0 mode d repeats a).Holds k { v with mode, timer := some p.schedule.timers.size }
      live marks := by
  have hring (i : Nat) : (Task.ring i).IsAlarm := trivial
  have ht : (Task.reveal 0 a).IsAlarm := ⟨rfl, ha⟩
  have hs : (p.startTimer d repeats (.reveal 0 a)).Holds k v live marks :=
    h.withSchedule ((h.schedule.addTimer ht).start hring _)
  exact hs.modify (f := fun v => { v with mode, timer := some p.schedule.timers.size }) rfl

theorem stop {u : Reveal} (h : p.Holds k u live marks) (v : Reveal) (mode : Mode) :
    (p.stopReveal 0 v mode).Holds k { u with mode, timer := none } live marks := by
  rw [stopReveal]
  split
  · next i _ =>
    have hs : (p.cancelTimer i).Holds k u live marks := h.withSchedule (h.schedule.cancel i)
    exact hs.modify (f := fun v => { v with mode, timer := none }) rfl
  · exact h.modify (f := fun v => { v with mode, timer := none }) rfl

/-- The text gives its ticket back. -/
theorem finish (h : p.Holds k v [.call k] marks) {t : Ticket} (ht : v.ticket = t) :
    ∃ q : Player, p.finish t = (q, []) ∧ q.Holds k v [] (marks ++ [.done]) := by
  have hl : { p with live := [] }.Holds k v [] marks := { h with live := rfl }
  refine ⟨{ p with live := [] }.note (.done k), ?_, ?_⟩
  · simp [Player.finish, ← ht, h.ticket, h.live]
  · have hn := hl.note (e := .done k)
    rwa [Event.mark?, if_pos rfl] at hn

end Holds

end Player

/-- The text is shown so far, and what is to be done goes on showing it. Only a running text is
taken further, and only once. -/
structure Shown (k : Nat) (text : List Char) (v : Reveal) (x : Player × Orders) : Prop where
  /-- The player holds the text, and the marks account for it. -/
  holds : ∃ live marks, x.1.Holds k v live marks ∧ Account k text v.mode v.rest live marks
  /-- What is to be done belongs to the showing. -/
  orders : ∀ o ∈ x.2, o.Belongs k
  /-- It takes the text further once at most. -/
  drives : x.2.countP isDrive ≤ if v.mode = .running then 1 else 0

/-- What a task leads to that leaves a running text alone. -/
structure Passes (k : Nat) (text : List Char) (v w : Reveal) (x : Player × Orders) : Prop
    extends Shown k text w x where
  /-- A running text runs on, and nothing takes it further. -/
  running : v.mode = .running → w.mode = .running ∧ x.2.countP isDrive = 0

namespace Account

variable {mode : Mode} {live : List Ticket} {marks : List Mark}

theorem of_underway (h : Account k text mode rest live marks) (hp : mode ≠ .pageEnd)
    (hd : mode ≠ .done) : live = [.call k] ∧ Underway text rest marks := by
  cases h with
  | underway _ _ hu => exact ⟨rfl, hu⟩
  | pageEnd => exact absurd rfl hp
  | done => exact absurd rfl hd

end Account

namespace Shown

variable {p : Player} {v u : Reveal} {live : List Ticket} {marks : List Mark} {x : Player × Orders}

/-- Nothing that is to be done takes the text further. -/
theorem quiet (h : x.1.Holds k v live marks) (ha : Account k text v.mode v.rest live marks)
    (ho : ∀ o ∈ x.2, o.Belongs k ∧ isDrive o = false) : Shown k text v x := by
  refine ⟨⟨live, marks, h, ha⟩, fun o hm => (ho o hm).1, ?_⟩
  rw [List.countP_eq_zero.2 fun o hm => by simp [(ho o hm).2]]
  exact Nat.zero_le _

/-- The text runs on. -/
theorem drive (h : x.1.Holds k v [.call k] marks) (hu : Underway text v.rest marks)
    (hm : v.mode = .running) (ho : ∀ o ∈ x.2, o.Belongs k ∧ isDrive o = false) (a : Act) :
    Shown k text v (x.1, x.2 ++ [.perform (.reveal 0 a)]) := by
  refine ⟨⟨_, marks, h, .underway ?_ ?_ hu⟩, fun o hmem => ?_, ?_⟩
  · rw [hm]
    decide
  · rw [hm]
    decide
  · rcases List.mem_append.1 hmem with hmem | hmem
    · exact (ho o hmem).1
    · rw [List.mem_singleton.1 hmem]
      exact rfl
  · rw [List.countP_append, List.countP_eq_zero.2 fun o hm => by simp [(ho o hm).2], if_pos hm,
      Nat.zero_add]
    exact List.countP_le_length

theorem forall_mem_nil : ∀ o ∈ ([] : Orders), o.Belongs k ∧ isDrive o = false :=
  fun _ ho => absurd ho List.not_mem_nil

/-! ### Going on -/

theorem proceed (h : p.Holds k v [.call k] marks) (hu : Underway text v.rest marks) :
    ∃ w, Shown k text w (p.proceed 0 v) := by
  have goOn (rest : List Char) (mode : Mode) :
      (p.modifyReveal 0 (fun v => { v with rest, mode })).Holds k { v with rest, mode } [.call k]
        marks := h.modify (f := fun v => { v with rest, mode }) rfl
  have hr := @reads_scan v.delay v.rest
  rw [Player.proceed]
  dsimp only
  cases hs : scan v.delay v.rest with
  | done =>
    rw [hs] at hr
    obtain ⟨q, hf, hq⟩ := ((goOn [] .done).trace .text .trace "text finished").finish
      (t := v.ticket) rfl
    have hc : Complete text [] marks := by
      rw [show v.rest = [] from hr] at hu
      exact hu.complete
    dsimp only
    rw [hf]
    exact ⟨_, .quiet hq (.done hc) forall_mem_nil⟩
  | wait ms rest =>
    rw [hs] at hr
    exact ⟨_, .quiet (((goOn rest .running).trace ..).arm .waiting _ _ (.inr rfl))
      (.underway (by simp) (by simp) (hu.skip hr)) forall_mem_nil⟩
  | pause rest =>
    rw [hs] at hr
    exact ⟨_, .quiet ((goOn rest .awaitingInput).trace ..)
      (.underway (by simp) (by simp) (hu.skip hr)) forall_mem_nil⟩
  | lineBreak rest =>
    rw [hs] at hr
    obtain ⟨he, ho⟩ := ((goOn rest .awaitingInput).trace .text .trace
      "line break: waiting for input").emit_text "\n"
    exact ⟨_, .quiet he (.underway (by simp) (by simp) (hu.token hr)) ho⟩
  | pageBreak rest =>
    rw [hs] at hr
    obtain ⟨he, ho⟩ := ((goOn rest .pageEnd).trace .text .trace "page break").emit_page
    refine ⟨_, .quiet he (.pageEnd ?_) ho⟩
    rw [show v.rest = '\\' :: rest from hr] at hu
    exact hu.endPage
  | emit token rest =>
    rw [hs] at hr
    obtain ⟨he, ho⟩ := (goOn rest .running).emit_text (String.ofList token)
    refine ⟨_, .drive he (hu.token ?_) rfl ho _⟩
    rw [String.toList_ofList]
    exact hr
  | tick =>
    exact ⟨_, .quiet (h.arm .ticking _ _ (.inl rfl)) (.underway (by simp) (by simp) hu)
      forall_mem_nil⟩

theorem runReveal (h : p.Holds k v [.call k] marks) (hu : Underway text v.rest marks) :
    ∃ w, Shown k text w (p.runReveal 0) := by
  have hr := h.modify (f := fun v => { v with mode := .running }) rfl
  unfold Player.runReveal
  simp only [hr.reveals, List.getElem?_toArray, List.getElem?_cons_zero]
  exact proceed hr hu

end Shown

namespace Passes

variable {p : Player} {v w u : Reveal} {live : List Ticket} {marks : List Mark}
  {x : Player × Orders}

/-- What leaves the text at rest. -/
theorem quiet (h : x.1.Holds k w live marks) (ha : Account k text w.mode w.rest live marks)
    (hm : v.mode = .running → w.mode = .running)
    (ho : ∀ o ∈ x.2, o.Belongs k ∧ isDrive o = false) : Passes k text v w x := by
  refine ⟨.quiet h ha ho, fun hr => ⟨hm hr, ?_⟩⟩
  exact List.countP_eq_zero.2 fun o hm => by simp [(ho o hm).2]

/-- A text that did not run may do anything. -/
theorem of_shown (h : Shown k text w x) (hm : v.mode ≠ .running) : Passes k text v w x :=
  ⟨h, fun hr => absurd hr hm⟩

/-- The text is kept for so long. -/
theorem keeping {f : Player → Player × Orders}
    (h : ∃ w, Passes k text v w (f (p.modifyReveal 0 (fun v => { v with holds := v.holds + 1 })))) :
    ∃ w, Passes k text v w (p.keeping 0 f) := by
  obtain ⟨w, ⟨hh, ho, hd⟩, hr⟩ := h
  rw [Player.keeping]
  dsimp only
  refine ⟨w, ⟨hh, fun o hm => ?_, ?_⟩, fun hv => ⟨(hr hv).1, ?_⟩⟩
  · rcases List.mem_append.1 hm with hm | hm
    · exact ho o hm
    · rw [List.mem_singleton.1 hm]
      exact rfl
  · rw [List.countP_append]
    exact hd
  · rw [List.countP_append, (hr hv).2]
    rfl

/-! ### Acts of a text -/

theorem tickReveal (h : p.Holds k u [.call k] marks) (hu : Underway text v.rest marks)
    (hr : u.rest = v.rest) (hm : u.mode = .ticking) (hv : v.mode = .ticking) :
    ∃ w, Passes k text v w (p.tickReveal 0 v) := by
  have hne : v.mode ≠ .running := by
    rw [hv]
    decide
  have ticked : ∀ o ∈ [Order.perform (Task.reveal 0 .ticked)], o.Belongs k ∧ isDrive o = false := by
    intro o ho
    rw [List.mem_singleton.1 ho]
    exact ⟨rfl, rfl⟩
  have account {w : Reveal} {marks : List Mark} (hw : w.mode = .ticking)
      (hu : Underway text w.rest marks) : Account k text w.mode w.rest [.call k] marks := by
    rw [hw]
    exact .underway nofun nofun hu
  rw [← hr] at hu
  rw [Player.tickReveal]
  split
  · exact ⟨_, .of_shown (.quiet h (account hm hu) ticked) hne⟩
  · next c rest hrest =>
    dsimp only
    split
    · exact ⟨_, .of_shown (.quiet h (account hm hu) ticked) hne⟩
    · next hp =>
      have hg := h.modify (f := fun v => { v with rest }) rfl
      obtain ⟨he, ho⟩ := hg.emit_text (String.singleton c)
      have ht : Underway text rest (marks ++ [Mark.token (String.singleton c)]) := by
        refine hu.token ?_
        rw [hr, hrest, String.toList_singleton]
        refine reads_cons ?_
        rw [← hrest]
        exact Bool.not_eq_true _ ▸ hp
      refine ⟨_, .of_shown (.quiet he (account hm ht) ?_) hne⟩
      intro o hmem
      exact (List.mem_append.1 hmem).elim (ho o) (ticked o)

theorem nudgeReveal (h : p.Holds k u live marks) (ha : Account k text u.mode u.rest live marks)
    (hr : u.rest = v.rest) (hm : u.mode = v.mode) (ht : u.ticket = v.ticket) :
    ∃ w, Passes k text v w (p.nudgeReveal 0 v) := by
  have next {w : Reveal} {x : Player × Orders} (hs : Shown k text w x) {mode : Mode}
      (hv : v.mode = mode) (hne : mode ≠ .running) : ∃ w, Passes k text v w x := by
    refine ⟨w, .of_shown hs ?_⟩
    rwa [hv]
  have stay {s : Schedule Task} (hs : p.schedule.Only Task.IsAlarm → s.Only Task.IsAlarm) :
      ∃ w, Passes k text v w ({ p with schedule := s }, []) :=
    ⟨u, .quiet (h.withSchedule (hs h.schedule)) ha (fun hv => hm.trans hv) Shown.forall_mem_nil⟩
  rw [Player.nudgeReveal]
  split
  · next hv =>
    -- the rest of the stretch is shown before the text runs on
    rw [hm, hv] at ha
    obtain ⟨rfl, hu⟩ := ha.of_underway (by decide) (by decide)
    have hg := (h.stop v .running).modify
      (f := fun v => { v with rest := afterStretch v.rest }) rfl
    have hreads := reads_stretch u.rest
    rw [← hr]
    dsimp only
    split
    · next hnil =>
      rw [hnil] at hreads
      exact next (.drive (x := (_, [])) hg (hu.skip hreads) rfl Shown.forall_mem_nil .run) hv
        (by decide)
    · obtain ⟨he, ho⟩ := hg.emit_text (String.ofList (stretch u.rest))
      refine next (.drive he (hu.token ?_) rfl ho .run) hv (by decide)
      rw [String.toList_ofList]
      exact hreads
  · next hv =>
    rw [hm, hv] at ha
    obtain ⟨rfl, hu⟩ := ha.of_underway (by decide) (by decide)
    obtain ⟨w, hs⟩ := Shown.runReveal h hu
    exact next hs hv (by decide)
  · next hv =>
    rw [hm, hv] at ha
    cases ha with
    | underway hp _ _ => exact absurd rfl hp
    | pageEnd hc =>
      have hg := h.modify (f := fun w => { w with mode := .done }) rfl
      obtain ⟨q, hf, hq⟩ := hg.finish (t := v.ticket) ht
      rw [hf]
      exact next (.quiet hq (.done hc) Shown.forall_mem_nil) hv (by decide)
  · split
    · exact stay (·.skip _)
    · exact stay id
  · exact stay id
  · exact stay id

/-! ### Tasks -/

/-- A text that does not act stays as it is. -/
theorem same (h : p.Holds k v live marks) (ha : Account k text v.mode v.rest live marks) :
    ∃ w, Passes k text v w (p, []) := ⟨v, .quiet h ha id Shown.forall_mem_nil⟩

theorem actReveal (h : p.Holds k v live marks) (ha : Account k text v.mode v.rest live marks)
    {a : Act} (hrun : a ≠ .run) (hresume : a ≠ .resume) :
    ∃ w, Passes k text v w (p.actReveal 0 a) := by
  have hheld := h.modify (f := fun v => { v with holds := v.holds + 1 }) rfl
  rw [Player.actReveal]
  simp only [h.reveals, List.getElem?_toArray, List.getElem?_cons_zero]
  cases a with
  | run => exact absurd rfl hrun
  | resume => exact absurd rfl hresume
  | tick =>
    dsimp only
    split
    · next hc =>
      rw [hc.2] at ha
      obtain ⟨rfl, hu⟩ := ha.of_underway (by decide) (by decide)
      exact keeping (tickReveal hheld hu rfl hc.2 hc.2)
    · exact same h ha
  | ticked =>
    dsimp only
    split
    · next hc =>
      rw [hc.1] at ha
      obtain ⟨rfl, hu⟩ := ha.of_underway (by decide) (by decide)
      obtain ⟨w, hs⟩ := Shown.runReveal (h.stop v .running) hu
      refine ⟨w, .of_shown hs ?_⟩
      rw [hc.1]
      decide
    · exact same h ha
  | wake =>
    dsimp only
    split
    · next hc =>
      rw [hc.2] at ha
      obtain ⟨rfl, hu⟩ := ha.of_underway (by decide) (by decide)
      obtain ⟨w, hs⟩ := Shown.runReveal hheld hu
      refine keeping ⟨w, .of_shown hs ?_⟩
      rw [hc.2]
      decide
    · exact same h ha
  | release =>
    exact ⟨_, .quiet (h.modify (f := fun v => { v with holds := v.holds - 1 }) rfl) ha id
      Shown.forall_mem_nil⟩

theorem next (h : p.Holds k v live marks) (ha : Account k text v.mode v.rest live marks) :
    ∃ w, Passes k text v w p.next := by
  rcases h.active with hn | hs
  · simp only [Player.next, hn]
    exact same h ha
  · have hheld := h.modify (f := fun v => { v with holds := v.holds + 1 }) rfl
    simp only [Player.next, hs, advanceHandler, h.reveals, List.getElem?_toArray,
      List.getElem?_cons_zero]
    exact keeping (nudgeReveal hheld ha rfl rfl rfl)

/-- A call by the host is followed by its report. -/
theorem call (h : p.Holds k v live marks) (ha : Account k text v.mode v.rest live marks)
    {c : HostCall} (hc : c.Within HostCall.Forward) (a : Audience) :
    ∃ w, Passes k text v w (Player.perform (.call a c) p) := by
  have then_report {w : Reveal} {x : Player × Orders} (hx : Passes k text v w x) (y : Answer) :
      ∃ w, Passes k text v w (x.1, x.2 ++ [Order.perform (Task.report a y)]) := by
    refine ⟨w, ⟨hx.holds, fun o hm => ?_, ?_⟩, fun hv => ⟨(hx.running hv).1, ?_⟩⟩
    · rcases List.mem_append.1 hm with hm | hm
      · exact hx.orders o hm
      · rw [List.mem_singleton.1 hm]
        exact trivial
    · rw [List.countP_append]
      exact hx.drives
    · rw [List.countP_append, (hx.running hv).2]
      rfl
  have wait {o : Order Task} (ho : o.Belongs k ∧ isDrive o = false) :
      ∃ w, Passes k text v w (p, [o] ++ [.perform (.report a .none)]) := by
    refine then_report (x := (p, [o])) (.quiet h ha id fun x hx => ?_) .none
    rw [List.mem_singleton.1 hx]
    exact ho
  have hf := hc.holds
  cases c with
  | next =>
    obtain ⟨w, hw⟩ := next h ha
    exact then_report hw .none
  | settle => exact wait ⟨trivial, rfl⟩
  | advance d => exact wait ⟨trivial, rfl⟩
  | runMicrotasks => exact wait ⟨trivial, rfl⟩
  | _ => exact hf.elim

theorem conclude (h : p.Holds k v live marks) (ha : Account k text v.mode v.rest live marks) :
    ∃ w, Passes k text v w (p.conclude (.call k) (.pending (.reveal 0))) := by
  have hg := h.modify (f := fun v => { v with holds := v.holds - 1 }) rfl
  rw [Player.conclude]
  split
  · exact ⟨_, .quiet { hg with active := .inr rfl } ha id Shown.forall_mem_nil⟩
  · exact ⟨_, .quiet hg ha id Shown.forall_mem_nil⟩

theorem report (h : p.Holds k v live marks) (ha : Account k text v.mode v.rest live marks)
    (x : Answer) (a : Audience) : ∃ w, Passes k text v w (p.report x a, []) := by
  cases a with
  | events =>
    rw [Player.report]
    split
    · exact same h ha
    · exact same (h.note_of_eq_none rfl) ha
  | caller => exact same { h with } ha
  | nobody => exact same h ha

/-- A task that does not take the text further. -/
theorem perform (h : p.Holds k v live marks) (ha : Account k text v.mode v.rest live marks)
    {t : Task} (ht : t.Belongs k) (hd : isDrive (.perform t) = false) :
    ∃ w, Passes k text v w (Player.perform t p) := by
  cases t with
  | ring i =>
    have hring (i : Nat) : (Task.ring i).IsAlarm := trivial
    obtain ⟨hs, hb⟩ := h.schedule.ring hring i
    refine ⟨v, .quiet (h.withSchedule hs) ha id fun o ho => ?_⟩
    obtain ⟨t, hm, rfl⟩ := List.mem_map.1 ho
    have ht := hb t (Option.mem_toList.1 hm)
    exact ⟨ht.belongs, ht.not_drive⟩
  | reveal r a =>
    obtain rfl : r = 0 := ht
    refine actReveal h ha ?_ ?_
    · rintro rfl
      cases hd
    · rintro rfl
      cases hd
  | conclude t c =>
    obtain ⟨rfl, rfl⟩ := ht
    exact conclude h ha
  | call a c => exact call h ha ht a
  | report a x => exact report h ha x a
  | _ => exact ht.elim

end Passes

namespace Shown

variable {p : Player} {v w : Reveal} {x : Player × Orders}

/-- The task that takes a running text further. -/
theorem perform_drive {live : List Ticket} {marks : List Mark} (h : p.Holds k v live marks)
    (ha : Account k text v.mode v.rest live marks) (hm : v.mode = .running) {t : Task}
    (ht : t.Belongs k) (hd : isDrive (.perform t) = true) :
    ∃ w, Shown k text w (Player.perform t p) := by
  rw [hm] at ha
  obtain ⟨rfl, hu⟩ := ha.of_underway nofun nofun
  cases t with
  | reveal r a =>
    obtain rfl : r = 0 := ht
    simp only [Player.perform, actReveal, h.reveals, List.getElem?_toArray,
      List.getElem?_cons_zero]
    cases a with
    | run => exact runReveal h hu
    | resume =>
      rw [if_pos hm]
      exact proceed h hu
    | _ => cases hd
  | _ => cases hd

/-- Whatever is performed first, it goes on as before. -/
theorem perform {rest : Orders} {t : Task} (h : Shown k text v (p, .perform t :: rest)) :
    ∃ w, Shown k text w ((Player.perform t p).1, (Player.perform t p).2 ++ rest) := by
  obtain ⟨⟨live, marks, hp, ha⟩, ho, hd⟩ := h
  obtain ⟨ht, ho⟩ := List.forall_mem_cons.1 ho
  have belongs {w : Reveal} (hw : Shown k text w (Player.perform t p)) :
      ∀ o ∈ (Player.perform t p).2 ++ rest, o.Belongs k :=
    fun o hm => (List.mem_append.1 hm).elim (hw.orders o) (ho o)
  dsimp only at hd
  cases hdrive : isDrive (.perform t) with
  | true =>
    rw [List.countP_cons_of_pos hdrive] at hd
    by_cases hm : v.mode = .running
    · obtain ⟨w, hw⟩ := perform_drive hp ha hm ht hdrive
      refine ⟨w, hw.holds, belongs hw, ?_⟩
      rw [if_pos hm] at hd
      rw [List.countP_append, Nat.le_zero.1 (Nat.le_of_succ_le_succ hd)]
      exact hw.drives
    · rw [if_neg hm] at hd
      cases hd
  | false =>
    rw [List.countP_cons_of_neg (by simp [hdrive])] at hd
    obtain ⟨w, hw⟩ := Passes.perform hp ha ht hdrive
    refine ⟨w, hw.holds, belongs hw.toShown, ?_⟩
    rw [List.countP_append]
    by_cases hm : v.mode = .running
    · obtain ⟨hrun, hzero⟩ := hw.running hm
      rw [hzero, Nat.zero_add, if_pos hrun]
      rwa [if_pos hm] at hd
    · rw [if_neg hm] at hd
      rw [Nat.le_zero.1 hd]
      exact hw.drives

/-- The loop moves on. -/
theorem turn {o : Order Task} {rest orders : Orders} {l : Loop Task}
    (h : Shown k text v (p, o :: rest)) (hl : { p.schedule with loop := l }.Only Task.IsAlarm)
    (ho : ∀ o ∈ orders, o.Belongs k ∧ isDrive o = false) :
    Shown k text v (World.withLoop p l, orders ++ rest) := by
  obtain ⟨⟨live, marks, hp, ha⟩, hall, hd⟩ := h
  refine ⟨⟨live, marks, hp.withSchedule hl, ha⟩, fun x hm => ?_, ?_⟩
  · rcases List.mem_append.1 hm with hm | hm
    · exact (ho x hm).1
    · exact hall x (List.mem_cons_of_mem _ hm)
  · rw [List.countP_append, List.countP_eq_zero.2 fun x hm => by simp [(ho x hm).2], Nat.zero_add]
    refine Nat.le_trans ?_ hd
    exact (List.sublist_cons_self o rest).countP_le

/-- What shows a text goes on showing it. -/
theorem step {m : Machine Player Task} (h : Shown k text v (m.world, m.agenda)) :
    ∃ w, Shown k text w (m.step.world, m.step.agenda) := by
  obtain ⟨p, agenda⟩ := m
  have only : p.schedule.Only Task.IsAlarm := by
    obtain ⟨live, marks, hp, -⟩ := h.holds
    exact hp.schedule
  cases agenda with
  | nil => exact ⟨v, h⟩
  | cons o rest =>
    have order {o : Order Task} (ho : o.Belongs k) (hd : isDrive o = false) :
        ∀ x ∈ [o], x.Belongs k ∧ isDrive x = false := by
      intro x hx
      rw [List.mem_singleton.1 hx]
      exact ⟨ho, hd⟩
    have task {t : Task} (ht : t.IsAlarm) {o : Orders}
        (ho : ∀ x ∈ o, x.Belongs k ∧ isDrive x = false) :
        ∀ x ∈ .perform t :: o, x.Belongs k ∧ isDrive x = false :=
      List.forall_mem_cons.2 ⟨⟨ht.belongs, ht.not_drive⟩, ho⟩
    cases o with
    | perform t => exact h.perform
    | drain =>
      cases hpop : (World.loop p).popMicrotask? with
      | none =>
        simp only [Machine.step, hpop]
        exact ⟨v, h.turn only forall_mem_nil⟩
      | some x =>
        obtain ⟨t, l⟩ := x
        obtain ⟨ht, hl⟩ := only.of_popMicrotask? hpop
        simp only [Machine.step, hpop]
        exact ⟨v, h.turn hl (task ht (order (o := .drain) trivial rfl))⟩
    | advance d =>
      have ho : ∀ o ∈ [Order.drain, .depart d], o.Belongs k ∧ isDrive o = false := by
        simp [Order.Belongs, isDrive]
      exact ⟨v, h.turn only ho⟩
    | depart d => exact ⟨v, h.turn only (order (o := .runUntil _) trivial rfl)⟩
    | runUntil target =>
      cases hpop : (World.loop p).popDue? target with
      | none =>
        simp only [Machine.step, hpop]
        refine ⟨v, h.turn (l := { World.loop p with now := target }) ?_ forall_mem_nil⟩
        exact ⟨only.microtasks, only.timeouts, only.timers⟩
      | some x =>
        obtain ⟨t, l⟩ := x
        obtain ⟨ht, hl⟩ := only.of_popDue? hpop
        have ho : ∀ o ∈ [Order.drain, .runUntil target], o.Belongs k ∧ isDrive o = false := by
          simp [Order.Belongs, isDrive]
        simp only [Machine.step, hpop]
        exact ⟨v, h.turn hl (task ht ho)⟩
    | halt =>
      obtain ⟨hh, -, -⟩ := h
      exact ⟨v, hh, fun o ho => absurd ho List.not_mem_nil, Nat.zero_le _⟩

/-- And so does a whole run. -/
theorem run {m : Machine Player Task} (h : Shown k text v (m.world, m.agenda)) (n : Nat) :
    ∃ w, Shown k text w ((m.run n).world, (m.run n).agenda) := by
  induction n generalizing m v with
  | zero => exact ⟨v, h⟩
  | succ n ih =>
    obtain ⟨w, hw⟩ := h.step
    rw [Machine.run_succ]
    exact ih hw

end Shown

/-! ### Texts on their own -/

namespace Player

/-- A player that has shown nothing and has nothing to do. Its host hears of tokens and of the ends
of pages, and gives input or lets time pass then. -/
structure Blank (p : Player) : Prop where
  /-- No text has begun. -/
  reveals : p.reveals = #[]
  /-- Nothing takes input. -/
  active : p.active = none
  /-- Nothing has been noted. -/
  events : p.events = #[]
  /-- No microtask waits. -/
  microtasks : p.loop.microtasks = []
  /-- No timeout waits. -/
  timeouts : p.loop.timeouts = []
  /-- There are no timers. -/
  timers : p.schedule.timers = #[]
  /-- The host hears of tokens. -/
  text : ∃ i, p.hooks.text.receiver = some (.listener i)
  /-- The host hears of the ends of pages. -/
  page : ∃ i, p.hooks.page.receiver = some (.listener i)
  /-- What it does then is to give input or to let time pass. -/
  listeners : ∀ l ∈ p.listeners, ∀ c ∈ l.body, c.Within HostCall.Forward

/-- The player begins to show a text under the ticket of a call, and then the host makes calls. -/
def showing (p : Player) (k : Nat) (text : String) (calls : List HostCall) : Machine Player Task :=
  let (q, orders, c) := { p with live := [.call k] }.execute .text "text" text (.call k)
  ⟨q, orders ++ .perform (.conclude (.call k) c) :: calls.map (fun c => .perform (.call .caller c))⟩

end Player

theorem Player.Blank.showing_eq {p : Player} (hp : p.Blank) (k : Nat) (text : String)
    (calls : List HostCall) :
    p.showing k text calls =
      ⟨{ p with
          live := [.call k]
          reveals := #[{ rest := text.toList, delay := p.charDelay, ticket := .call k }] },
        .perform (.reveal 0 .run) :: .perform (.conclude (.call k) (.pending (.reveal 0))) ::
          calls.map (fun c => .perform (.call .caller c))⟩ := by
  simp only [showing, execute, beginReveal, hp.reveals]
  rfl

theorem Shown.showing {p : Player} (hp : p.Blank) (k : Nat) (text : String) {calls : List HostCall}
    (hc : ∀ c ∈ calls, c.Within HostCall.Forward) :
    ∃ v, Shown k text.toList v
      ((p.showing k text calls).world, (p.showing k text calls).agenda) := by
  have only : p.schedule.Only Task.IsAlarm := by
    refine ⟨fun t ht => ?_, fun t ht => ?_, fun t ht => ?_⟩
    · rw [show p.schedule.loop.microtasks = [] from hp.microtasks] at ht
      exact absurd ht List.not_mem_nil
    · rw [show p.schedule.loop.timeouts = [] from hp.timeouts] at ht
      exact absurd ht List.not_mem_nil
    · rw [hp.timers] at ht
      exact absurd ht (Array.not_mem_empty t)
  have hcalls := belongs_of_mem_calls (k := k) hc .caller
  rw [hp.showing_eq]
  refine ⟨_, ⟨_, [], ⟨rfl, rfl, rfl, ?_, .inl hp.active, hp.text, hp.page, hp.listeners, only⟩,
    .underway nofun nofun (.start _)⟩, ?_, ?_⟩
  · exact congrArg (fun a : Array Event => a.toList.filterMap (Event.mark? k)) hp.events
  · refine List.forall_mem_cons.2 ⟨rfl, List.forall_mem_cons.2 ⟨⟨rfl, rfl⟩, ?_⟩⟩
    exact fun o ho => (hcalls o ho).1
  · dsimp only
    rw [List.countP_cons_of_pos rfl, List.countP_cons_of_neg Bool.false_ne_true,
      List.countP_eq_zero.2 fun o ho => by simp [(hcalls o ho).2]]
    exact Nat.le_refl 1

/-- **What is shown of a text is what there is to see**, whatever the time for a character is, and
however the host gives input and lets time pass, from outside and when it hears of the text. -/
theorem showing_faithful {p : Player} (hp : p.Blank) (k : Nat) (text : String)
    {calls : List HostCall} (hc : ∀ c ∈ calls, c.Within HostCall.Forward) (n : Nat) :
    ∃ v, ((p.showing k text calls).run n).world.reveals[0]? = some v ∧
      Faithful text.toList v.rest (((p.showing k text calls).run n).world.marks k) := by
  obtain ⟨v, hv⟩ := Shown.showing hp k text hc
  obtain ⟨w, hw⟩ := hv.run n
  obtain ⟨live, marks, hh, ha⟩ := hw.holds
  refine ⟨w, ?_, ?_⟩
  · rw [hh.reveals]
    rfl
  · rw [hh.marks]
    exact ha.faithful

/-- A host that hears of tokens and pages, and gives input at the first two of them. -/
def eager : Player :=
  { Player.standard (.ofTexts []) {} { textSpeed := .fast } with
    hooks := {
      text := { receiver := some (.listener 0) }
      page := { receiver := some (.listener 0) } }
    listeners := #[⟨fun _ => true, 2, [.next]⟩] }

/-- A text by the character, with a stretch cut short, a pause, and more after the end of the
page. -/
theorem eager_text_faithful :
    let m := (eager.showing 0 "abc@d\\e" [.advance 50, .next, .advance 50, .next]).run 100
    (∃ v, m.world.reveals[0]? = some v ∧ Faithful "abc@d\\e".toList v.rest (m.world.marks 0)) ∧
      m.world.marks 0 = [.token "a", .token "bc", .token "d", .page, .done] := by
  have hb : eager.Blank := by
    refine ⟨rfl, rfl, rfl, rfl, rfl, rfl, ⟨0, rfl⟩, ⟨0, rfl⟩, fun l hl c hc => ?_⟩
    obtain rfl : l = _ := by simpa [eager] using hl
    rw [List.mem_singleton.1 hc]
    exact .of_body_eq_nil trivial rfl
  refine ⟨showing_faithful hb 0 _ (fun c hc => ?_) 100, by decide +kernel⟩
  simp only [List.mem_cons, List.not_mem_nil, or_false] at hc
  rcases hc with rfl | rfl | rfl | rfl <;> exact .of_body_eq_nil trivial rfl

end Novella
