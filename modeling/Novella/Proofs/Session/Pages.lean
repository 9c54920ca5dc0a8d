import Novella.Proofs.Loop.Since
import Novella.Proofs.Player.BetweenLines
import Novella.Proofs.Save.History

/-!
# Pages

What a script shows is entered in the history of its session, page by page. A page is due at the
beginning, whenever the script is moved, and when a page ends. It is begun before the next line
starts, when the book hears the index. This may be long before the line starts, if its scene is
still to be loaded. But until then nothing is said, and the position stays as it is. So each page
holds what has been said since the line started for which it was begun, and its snapshot shows the
position before that line.

## Main definitions

* `Machine.said?` — the signal that the next step sends
* `Machine.Breaks`, `Machine.Opens` — where a page ends and where one is begun
* `Reads` — what has been said on the page that is read
* `Reckoning` — what the book has to do with what was said

## Main results

* `Recital.text_enters_page` — text is entered on the page that was begun for it
-/

namespace Novella

open Player

/-! ### What is said -/

namespace Machine

/-- The signal that the next step sends through a hook: it is kept there if nobody receives it. -/
def said? (m : Machine Player Task) (h : Hook) : Option Signal :=
  ((step ⟨{ m.world with hooks := {} }, m.agenda⟩).world.hooks.relay h).pending

/-- The text that the next step shows. -/
def token (m : Machine Player Task) : String :=
  match m.said? .text with
  | some (.text token) => token
  | _ => ""

/-- The script is moved, or a page ends: for what follows there will be another page. -/
def Breaks (m : Machine Player Task) : Prop := m.jump? ≠ none ∨ m.said? .page ≠ none

instance : DecidablePred Breaks := fun _ => inferInstanceAs (Decidable (_ ∨ _))

end Machine

namespace Player

variable {p q : Player}

theorem hooks_receive (p : Player) (s : Signal) (r : Receiver) :
    (p.receive s r).1.hooks = p.hooks := by
  cases r with
  | listener k => exact congrArg Surroundings.hooks (surroundings_react ..)
  | book =>
    have he : (p.enter s).hooks = p.hooks := by cases s <;> rfl
    rw [receive, passOn]
    split
    · exact (congrArg Surroundings.hooks (surroundings_react ..)).trans he
    · exact he

/-- What becomes of a signal is up to the hooks. -/
theorem hooks_send (h : q.hooks = p.hooks) (s : Option Signal) :
    (q.send s).hooks = (p.send s).hooks := by
  cases s with
  | none => exact h
  | some s =>
    rw [send, send, emit, emit, h]
    cases (p.hooks.relay s.hook).receiver with
    | none => rfl
    | some r =>
      dsimp only
      rw [hooks_receive, hooks_receive, h]

/-- When a cell is heard only a line that starts sends a signal. -/
theorem hooks_hear (p : Player) (c : CellName) (id : Nat) (v : c.Value) :
    (perform (.hear c id v) p).1.hooks = (p.send (p.signal? (.hear c id v))).hooks := by
  unfold perform
  dsimp only
  split
  · next d r heq =>
    have listener (n : Nat) (o : Occurrence) :
        ((p.store c (d, false)).react n o).1.hooks = p.hooks :=
      congrArg Surroundings.hooks (surroundings_react (p.store c (d, false)) ..)
    have page : (p.store c (d, false)).openPage.hooks = p.hooks := by
      rw [openPage]
      split <;> rfl
    cases c with
    | index =>
      have hr : (p.stage.index.hear id v).2 = some r := congrArg Prod.snd heq
      rw [signal?, hr]
      cases r with
      | runLine =>
        have hrun := surroundings_runLine (p.store .index (d, false)) v
        have hp : (p.store .index (d, false)).hooks = p.hooks := rfl
        exact (congrArg Surroundings.hooks hrun).trans (hooks_send hp (p.lineSignal? v))
      | listener n => exact listener n _
      | openPage => exact page
      | _ => rfl
    | scene =>
      cases r with
      | loadScene => exact congrArg Surroundings.hooks (surroundings_loadScene ..)
      | listener n => exact listener n _
      | openPage => exact page
      | _ => rfl
    | _ =>
      cases r with
      | listener n => exact listener n _
      | openPage => exact page
      | _ => rfl
  · next d heq =>
    cases c with
    | index =>
      rw [signal?, show (p.stage.index.hear id v).2 = none from congrArg Prod.snd heq]
      rfl
    | _ => rfl

end Player

namespace Attending

variable {S : SceneSource → Prop} {m : Machine Player Task} {c : Course}

/-- What is said is the signal of the next step. -/
theorem said?_eq (h : Attending S m c) (k : Hook) :
    m.said? k = m.signal?.filter (fun s => s.hook = k) := by
  obtain ⟨p, agenda⟩ := m
  have hsend (s : Option Signal) :
      ((send { p with hooks := {} } s).hooks.relay k).pending =
        s.filter (fun s => s.hook = k) := by
    cases s with
    | none => cases k <;> rfl
    | some s => cases s <;> cases k <;> rfl
  cases agenda with
  | nil => exact hsend none
  | cons o rest =>
    by_cases ho : ∃ t, o = .perform t
    · obtain ⟨t, rfl⟩ := ho
      have hs : signal? { p with hooks := {} } t = p.signal? t := by
        cases t with
        | conclude t x => cases x <;> rfl
        | call a d => cases d <;> rfl
        | _ => rfl
      rw [Machine.signal?_perform, ← hs, ← hsend]
      refine congrArg (fun x : Hooks Receiver => (x.relay k).pending) ?_
      by_cases hh : ∃ x id v, t = .hear x id v
      · obtain ⟨x, id, v, rfl⟩ := hh
        exact hooks_hear ..
      · refine congrArg Surroundings.hooks (surroundings_perform { p with hooks := {} }
          (fun x id v heq => hh ⟨x, id, v, heq⟩) ?_)
        rintro a d rfl
        exact h.isSessions rfl
    · obtain ⟨hsig, -⟩ := Machine.step_of_turn p rest (not_exists.1 ho) h.ne_halt
      obtain ⟨-, l, orders, hl, -⟩ := Machine.step_of_turn { p with hooks := {} } rest
        (not_exists.1 ho) h.ne_halt
      rw [hsig, Machine.said?]
      dsimp only
      rw [hl]
      exact hsend none

/-- What is read off the next step is read off its signal. -/
theorem said?_text (h : Attending S m c) {token : String} :
    m.said? .text = some (.text token) ↔ m.signal? = some (.text token) := by
  rw [h.said?_eq, Option.filter_eq_some_iff]
  exact ⟨And.left, fun hs => ⟨hs, rfl⟩⟩

theorem said?_page (h : Attending S m c) : m.said? .page ≠ none ↔ m.signal? = some .page := by
  rw [h.said?_eq]
  cases m.signal? with
  | none => simp
  | some s => cases s <;> simp [Signal.hook]

theorem token_eq (h : Attending S m c) {token : String} (hs : m.signal? = some (.text token)) :
    m.token = token := by
  rw [Machine.token, h.said?_text.2 hs]

theorem token_eq_empty (h : Attending S m c) (hs : ∀ token, m.signal? ≠ some (.text token)) :
    m.token = "" := by
  unfold Machine.token
  split
  · next token ht => exact absurd (h.said?_text.1 ht) (hs token)
  · rfl

theorem not_breaks (h : Attending S m c) (hj : m.jump? = none) (hs : m.signal? ≠ some .page) :
    ¬ m.Breaks := by
  rintro (hb | hb)
  · exact hb hj
  · exact hs (h.said?_page.1 hb)

end Attending

/-! ### Reading -/

/-- A snapshot of the position, dated by the next reading of the clock. -/
def Player.snapshot (p : Player) : SaveState :=
  ⟨p.stage.context, p.stage.progress, none, some p.book.clock.tick⟩

/-- The page that is due is begun. -/
def Machine.Opens (m : Machine Player Task) : Prop :=
  m.world.book.pageDue = true ∧ m.step.world.book.pageDue = false ∧
    m.step.world.book.history.last? = some { saveState := some m.world.snapshot }

/-- The page that was read has ended, or the script was moved, and no line has started since. -/
def Broken : List (Machine Player Task) → Prop :=
  Since (fun n => n.line? = none) Machine.Breaks

/-- A page has been begun at `opening` after the last one ended. Since then no line has started and
nothing has been broken off. -/
inductive Opened (opening : Machine Player Task) : List (Machine Player Task) → Prop where
  /-- The page is begun. -/
  | opens {h : List (Machine Player Task)} :
      Broken h → opening.Opens → opening.line? = none → ¬ opening.Breaks →
        Opened opening (opening :: h)
  /-- The line is waited for. -/
  | waits {n : Machine Player Task} {h : List (Machine Player Task)} :
      Opened opening h → n.line? = none → ¬ n.Breaks → Opened opening (n :: h)

/-- The page that has been begun at `opening` is read, and `first` is the first line that has
started since. The second list holds what has happened from this line on. -/
inductive Reads (opening first : Machine Player Task) :
    List (Machine Player Task) → List (Machine Player Task) → Prop where
  /-- The first line starts. -/
  | starts {h : List (Machine Player Task)} :
      Opened opening h → first.line? ≠ none → ¬ first.Breaks →
        Reads opening first (first :: h) [first]
  /-- The script goes on. -/
  | goesOn {n : Machine Player Task} {h read : List (Machine Player Task)} :
      Reads opening first h read → ¬ n.Breaks → Reads opening first (n :: h) (n :: read)

/-- The text that has been shown. -/
def told : List (Machine Player Task) → String
  | [] => ""
  | m :: h => told h ++ m.token

/-! ### Pages of the book -/

namespace History

variable {h : History} {page : Page}

theorem last?_trim (hl : 1 ≤ h.limit) : h.trim.last? = h.last? := by
  rw [last?, trim, List.getLast?_drop]
  split
  · next hle =>
    have hnil : h.pages = [] := List.eq_nil_of_length_eq_zero (by omega)
    rw [last?, hnil]
    rfl
  · rfl

theorem last?_setLimit (h : History) (n : Nat) : (h.setLimit n).last? = h.last? :=
  last?_trim (h := { h with limit := max n 1 }) (Nat.le_max_right ..)

theorem last?_breakPage (hl : 1 ≤ h.limit) (s : Option SaveState) (c : PageContent) :
    (h.breakPage s c).last? = some { content := c, saveState := s } := by
  refine Eq.trans (last?_trim ?_) List.getLast?_concat
  exact hl

end History

/-- The book is on the page with this text and snapshot. -/
structure Book.IsOn (b : Book) (text : String) (snapshot : SaveState) : Prop where
  /-- No page is due. -/
  due : b.pageDue = false
  /-- The last page. -/
  page : ∃ init page, b.history.pages = init ++ [page] ∧ page.text = text ∧
    page.saveState = some snapshot

namespace Book.IsOn

variable {b b' : Book} {text : String} {snapshot : SaveState}

theorem of_eq (h : b.IsOn text snapshot) (hd : b'.pageDue = b.pageDue)
    (hh : b'.history = b.history) : b'.IsOn text snapshot :=
  ⟨hd.trans h.due, hh ▸ h.page⟩

theorem of_last? {page : Page} (hd : b.pageDue = false) (hl : b.history.last? = some page)
    (ht : page.text = text) (hs : page.saveState = some snapshot) : b.IsOn text snapshot := by
  obtain ⟨init, hi⟩ := List.getLast?_eq_some_iff.1 hl
  exact ⟨hd, init, page, hi, ht, hs⟩

theorem setLimit (h : b.IsOn text snapshot) (n : Nat) (hd : b'.pageDue = b.pageDue)
    (hh : b'.history = b.history.setLimit n) : b'.IsOn text snapshot := by
  obtain ⟨init, page, hp, ht, hs⟩ := h.page
  refine of_last? (hd.trans h.due) ?_ ht hs
  rw [hh, History.last?_setLimit, History.last?, hp, List.getLast?_concat]

end Book.IsOn

/-! ### The account -/

namespace Touches

variable {S : SceneSource → Prop} {p q : Player} {text : String} {snapshot : SaveState}

/-- Without a signal the book stays on its page. At most pages that are too many go. -/
theorem book_of_none (h : Touches p none q) : q.book.pageDue = p.book.pageDue ∧
    (q.book.history = p.book.history ∨ ∃ n, q.book.history = p.book.history.setLimit n) := by
  cases h with
  | sends hq =>
    have hb : q.book = p.book := congrArg Surroundings.book hq
    exact ⟨congrArg Book.pageDue hb, .inl (congrArg Book.history hb)⟩
  | hears observers book _ hq _ hb =>
    obtain rfl : q.book = book := congrArg Surroundings.book hq
    rcases hb with hb | ⟨v, hb⟩
    · rw [hb]
      exact ⟨rfl, .inl rfl⟩
    · rw [hb]
      exact ⟨rfl, .inr ⟨_, rfl⟩⟩

/-- Signals are entered in the book. -/
theorem book_of_some {s : Signal} (hw : p.surroundings.Watching S)
    (h : Touches p (some s) q) : q.book.pageDue = (p.enter s).book.pageDue ∧
      q.book.history = (p.enter s).book.history := by
  cases h with
  | sends hq =>
    obtain ⟨hooks, hs⟩ := surroundings_emit_book (hw.hooks s.hook)
    have hb : q.book = { (p.enter s).book with hooks } :=
      congrArg Surroundings.book (hq.trans hs)
    rw [hb]
    exact ⟨rfl, rfl⟩
  | hears _ _ hs => cases hs

/-- The book of a player that says nothing stays on its page. -/
theorem isOn (hw : p.surroundings.Watching S) {s : Option Signal} (h : Touches p s q)
    (hp : s ≠ some .page) (ht : ∀ token, s ≠ some (.text token))
    (hb : p.book.IsOn text snapshot) : q.book.IsOn text snapshot := by
  cases s with
  | none =>
    obtain ⟨hd, hh | ⟨n, hh⟩⟩ := h.book_of_none
    · exact hb.of_eq hd hh
    · exact hb.setLimit n hd hh
  | some s =>
    obtain ⟨hd, hh⟩ := h.book_of_some hw
    cases s with
    | text token => exact absurd rfl (ht token)
    | page => exact absurd rfl hp
    | exit => exact hb.of_eq hd hh

/-- Text is entered on the page. -/
theorem isOn_text (hw : p.surroundings.Watching S) {token : String}
    (h : Touches p (some (.text token)) q) (hb : p.book.IsOn text snapshot) :
    q.book.IsOn (text ++ token) snapshot := by
  obtain ⟨hd, hh⟩ := h.book_of_some hw
  obtain ⟨init, page, hp, rfl, hs⟩ := hb.page
  refine ⟨hd.trans hb.due, init, { page with text := page.text ++ token }, ?_, rfl, hs⟩
  rw [hh]
  exact History.pages_appendText _ hp token

/-- A page that is due stays due. -/
theorem pageDue (hw : p.surroundings.Watching S) {s : Option Signal} (h : Touches p s q)
    (hs : p.book.pageDue = true ∨ s = some .page) : q.book.pageDue = true := by
  cases s with
  | none => exact h.book_of_none.1.trans (hs.resolve_right (by simp))
  | some s =>
    refine (h.book_of_some hw).1.trans ?_
    cases s with
    | page => rfl
    | text token => exact hs.resolve_right (by simp)
    | exit => exact hs.resolve_right (by simp)

theorem sound (hw : p.surroundings.Watching S) {s : Option Signal} (h : Touches p s q)
    (hs : p.book.history.Sound) : q.book.history.Sound := by
  cases s with
  | none =>
    rcases h.book_of_none.2 with hh | ⟨n, hh⟩
    · rwa [hh]
    · rw [hh]
      exact hs.setLimit n
  | some s =>
    rw [(h.book_of_some hw).2]
    cases s with
    | text token => exact hs.appendText token
    | _ => exact hs

end Touches

theorem Player.book_connectToBook (p : Player) (h : Hook) (l : Listener) :
    (p.connectToBook h l).1.book =
      { p.book with hooks := p.book.hooks.withRelay h ⟨some p.listeners.size, none⟩ } := by
  rw [connectToBook]
  dsimp only
  split
  · rw [addListener]
    exact congrArg Surroundings.book (surroundings_react ..)
  · rfl

namespace Session.Deed

variable {S : SceneSource → Prop} {s : Session} {m : Session.Move}

/-- A deed moves the script, with a page that is due then, or leaves the pages as they are but for
what the last one is about. -/
theorem book (h : s.Deed S m) :
    (m.machine.jump? ≠ none ∧ (m.1.player.book.history = s.player.book.history ∨
      ∃ x, m.1.player.book.history = s.player.book.history.rewindTo x)) ∨
    m.1.player.book.pageDue = s.player.book.pageDue ∧
      (m.1.player.book.history = s.player.book.history ∨ ∃ c, m.1.player.book.history =
        s.player.book.history.modifyLast fun page => { page with content := c }) := by
  have book_trace (p : Player) (c : LogCategory) (l : LogLevel) (t : String) :
      (p.trace c l t).book = p.book := congrArg Surroundings.book (surroundings_trace ..)
  cases h with
  | start scene =>
    exact .inl ⟨by simp [Move.machine, Session.start, silently, Machine.jump?], .inl rfl⟩
  | loadState x =>
    refine .inl ⟨by simp [Move.machine, Session.loadState, silently, Machine.jump?], .inr ⟨x, ?_⟩⟩
    exact congrArg Book.history (book_trace ..)
  | save h =>
    have hb := (congrArg Player.book (player_save h)).trans (book_trace ..)
    exact .inr ⟨(congrArg Book.pageDue hb).trans rfl, .inl ((congrArg Book.history hb).trans rfl)⟩
  | delete h =>
    have hp := player_delete h
    exact .inr ⟨congrArg (fun p => p.book.pageDue) hp, .inl (congrArg (fun p => p.book.history) hp)⟩
  | setSettings h | importText h =>
    have hp := player_takeOver h
    exact .inr ⟨congrArg (fun p => p.book.pageDue) hp, .inl (congrArg (fun p => p.book.history) hp)⟩
  | setPageContent c => exact .inr ⟨rfl, .inr ⟨c, rfl⟩⟩
  | setClock clock =>
    dsimp only
    unfold Session.setClock
    split
    · exact .inr ⟨rfl, .inl rfl⟩
    · exact .inr ⟨rfl, .inl rfl⟩
  | @connect k l hl =>
    have hb := book_connectToBook s.player k l
    exact .inr ⟨(congrArg Book.pageDue hb).trans rfl, .inl ((congrArg Book.history hb).trans rfl)⟩
  | _ => exact .inr ⟨rfl, .inl rfl⟩

theorem sound (h : s.Deed S m) (hs : s.player.book.history.Sound) :
    m.1.player.book.history.Sound := by
  rcases h.book with ⟨-, hh | ⟨x, hh⟩⟩ | ⟨-, hh | ⟨c, hh⟩⟩
  · rwa [hh]
  · rw [hh]
    exact hs.rewindTo x
  · rwa [hh]
  · rw [hh]
    exact hs.modifyLast _

end Session.Deed

/-- What the book has to do with what was said. -/
inductive Reckoning (h : List (Machine Player Task)) (m : Machine Player Task) (c : Course) :
    Prop where
  /-- The script has not been started yet. -/
  | fresh : c = .fresh → Vacant m.world m.agenda → Reckoning h m c
  /-- The script is going to be moved. -/
  | jump : m.jump? ≠ none → Reckoning h m c
  /-- A page is due. -/
  | due : m.world.book.pageDue = true → Hush m.world m.agenda → Broken h → Reckoning h m c
  /-- The page is begun, but no line has started yet. -/
  | opened {opening : Machine Player Task} :
      Opened opening h → m.world.book.IsOn "" opening.world.snapshot →
        m.world.position = opening.world.position →
          Vacant m.world m.agenda ∨ (∃ v rest, m.agenda = .perform (.hear .index 1 v) :: rest) →
            Reckoning h m c
  /-- The page is read. -/
  | reads {opening first : Machine Player Task} {read : List (Machine Player Task)} :
      Reads opening first h read → m.world.book.IsOn (told read) opening.world.snapshot →
        first.world.position = opening.world.position → Reckoning h m c

/-- Before it is started the script is not moved by anything else. -/
theorem Moves.of_fresh {m : Machine Player Task} {c : Course} (h : Moves m .fresh c)
    (hj : m.jump? = none) : m.hears? = none ∧ c = .fresh := by
  cases h with
  | jump hj' => cases hj.symm.trans hj'
  | answer _ _ hr =>
    rcases hr with ⟨hr, -⟩ | ⟨hr, -⟩
    · exact absurd hr (Array.not_mem_empty _)
    · cases hr
  | scene _ ht => cases ht
  | index _ ht => cases ht
  | inner _ _ hh hi =>
    refine ⟨hh, ?_⟩
    cases hi with
    | stay => rfl
    | suspend t ht => cases ht
    | spent t ht => cases ht
    | finish ht => cases ht
    | take hr => cases hr

namespace Attending

variable {S : SceneSource → Prop} {p : Player} {m : Machine Player Task} {c c' : Course}
  {rest : Orders} {text : String} {snapshot : SaveState} {v : UInt64}

theorem hears?_line (h : Attending S m c) (ha : m.agenda = .perform (.hear .index 1 v) :: rest) :
    m.hears? = some .index := by
  have hown := (h.steady.attended (x := .index) (.inr rfl)).hear_own v
  rw [Machine.hears?]
  rw [ha]
  exact if_pos ⟨.inr rfl, congrArg Prod.snd hown⟩

/-- No line starts as long as a page is due. -/
theorem line?_of_due (h : Attending S m c) (hd : m.world.book.pageDue = true) :
    m.line? = none := by
  cases hl : m.line? with
  | none => rfl
  | some line =>
    obtain ⟨v, rest, -, -, hn⟩ := h.agenda_of_hears? (Machine.hears?_of_line? hl)
    cases hd.symm.trans (hn rfl)

/-- A player that is due to begin a page says nothing if it is hushed. -/
theorem goes_of_due (h : Attending S m c) (hd : m.world.book.pageDue = true) :
    Goes m.world m.agenda m.signal? (m.step.world, m.step.agenda) := by
  refine h.arranged.goes h.steady h.balanced h.watched fun v rest ha => ?_
  obtain ⟨v, rest, -, -, hn⟩ := h.agenda_of_hears? (h.hears?_line ha)
  cases hd.symm.trans (hn rfl)

/-- The book hears the index. -/
theorem step_page (h : Attending S m c) (ha : m.agenda = .perform (.hear .index 0 v) :: rest) :
    m.signal? = none ∧ m.jump? = none ∧ m.step = ⟨m.world.openPage, rest⟩ := by
  obtain ⟨p, agenda⟩ := m
  obtain rfl : agenda = _ := ha
  have hp : Attended .runLine 1 p.stage.index := h.steady.attended (x := .index) (.inr rfl)
  refine ⟨?_, rfl, ?_⟩
  · show p.signal? (.hear .index 0 v) = none
    rw [signal?, hp.hear_page Nat.zero_lt_one v]
    rfl
  · rw [Steady.step_perform, perform_hear_page hp]
    rfl

/-- No line starts before the script is started. -/
theorem line?_of_fresh (h : Attending S m .fresh) (hj : m.jump? = none) : m.line? = none := by
  cases hl : m.line? with
  | none => rfl
  | some line =>
    obtain ⟨c', hm, -⟩ := h.step
    cases (hm.of_fresh hj).1.symm.trans (Machine.hears?_of_line? hl)

/-- Where something is said, no page begins. -/
theorem touches_of_signal? (h : Attending S m c) {s : Signal} (hs : m.signal? = some s) :
    Touches m.world (some s) m.step.world := by
  rw [← hs]
  exact h.touches fun v rest heq => by cases (h.step_page heq).1.symm.trans hs

/-- The book stays on its page until this ends, and what is said is entered there. -/
theorem isOn_step (h : Attending S m c) (hs : m.signal? ≠ some .page)
    (hb : m.world.book.IsOn text snapshot) : m.step.world.book.IsOn (text ++ m.token) snapshot := by
  by_cases ha : ∃ v rest, m.agenda = .perform (.hear .index 0 v) :: rest
  · obtain ⟨v, rest, ha⟩ := ha
    obtain ⟨hsig, -, hstep⟩ := h.step_page ha
    have hopen : m.world.openPage = m.world := if_neg (by simp [hb.due])
    rw [h.token_eq_empty (by simp [hsig]), String.append_empty, hstep, hopen]
    exact hb
  · have ht := h.touches fun v rest heq => ha ⟨v, rest, heq⟩
    by_cases hn : ∃ token, m.signal? = some (.text token)
    · obtain ⟨token, hn⟩ := hn
      rw [h.token_eq hn]
      exact Touches.isOn_text h.watching (hn ▸ ht) hb
    · rw [h.token_eq_empty (not_exists.1 hn), String.append_empty]
      exact ht.isOn h.watching hs (not_exists.1 hn) hb

theorem jump?_of_not_due (h : Attending S m c) (hd : m.world.book.pageDue = false) :
    m.jump? = none := by
  cases hj : m.jump? with
  | none => rfl
  | some s => cases (h.agenda_of_jump? hj).1.symm.trans hd

theorem sound_step (h : Attending S m c) (hs : m.world.book.history.Sound) :
    m.step.world.book.history.Sound := by
  by_cases ha : ∃ v rest, m.agenda = .perform (.hear .index 0 v) :: rest
  · obtain ⟨v, rest, ha⟩ := ha
    rw [(h.step_page ha).2.2, Player.openPage]
    split
    · exact hs.breakPage ..
    · exact hs
  · exact (h.touches fun v rest heq => ha ⟨v, rest, heq⟩).sound h.watching hs

/-- A hushed player stays so whatever the host does. -/
theorem hush_deed {s : Session} {move : Session.Move} (h : Attending S ⟨s.player, []⟩ c)
    (hu : Hush s.player []) (hd : s.Deed S move) : Hush move.1.player move.2 := by
  have hs := hd.spared
  have hsay {r : Nat} : move.1.player.Speaks r → s.player.Speaks r := by
    rw [Speaks, Speaks, hs.reveals]
    exact id
  refine ⟨fun ha => mt hsay (hu.active ?_), fun {o r} ho hr => ?_, ?_⟩
  · exact (congrArg Seat.active hs.seat).symm.trans ha
  · rcases hd.orders h.listeners with hl | ⟨-, d, -, hm⟩
    · cases (hl o ho).1.holder?.symm.trans hr
    · have hn : ∀ o ∈ move.2, o.holder? = none := by
        rw [hm]
        exact List.forall_mem_cons.2 ⟨rfl, List.forall_mem_singleton.2 rfl⟩
      cases (hn o ho).symm.trans hr
  · rw [show move.1.player.queue = s.player.queue from congrArg Seat.queue hs.seat]
    exact hu.queue

/-- Before the first line starts the player stays where it is and says nothing. -/
theorem step_opened (h : Attending S m c) (hl : Loading m c) (hline : m.line? = none)
    (hd : m.world.book.pageDue = false)
    (hv : Vacant m.world m.agenda ∨ ∃ v rest, m.agenda = .perform (.hear .index 1 v) :: rest) :
    m.signal? = none ∧ Vacant m.step.world m.step.agenda ∧
      m.step.world.position = m.world.position := by
  rcases hv with hv | ⟨v, rest, ha⟩
  · obtain ⟨hs, hv, hp⟩ := hv.step h hl.ordered hline
    exact ⟨hs, hv, hp (h.jump?_of_not_due hd)⟩
  · have hord := h.course_ordered hl.ordered
    obtain ⟨v', rest', ha', hlater, -⟩ := h.agenda_of_hears? (h.hears?_line ha)
    cases ha.symm.trans ha'
    obtain ⟨p, agenda⟩ := m
    obtain rfl : agenda = _ := ha
    have hatt : Attended .runLine 1 p.stage.index := h.steady.attended (x := .index) (.inr rfl)
    have hown := congrArg Prod.snd (hatt.hear_own v)
    have hnone (hp : p.phase ≠ .loading) : p.lines.bind (·[v.toNat]?) = none := by
      have hl' : Machine.line? ⟨p, .perform (.hear .index 1 v) :: rest⟩ =
          p.lines.bind (·[v.toNat]?) := if_pos ⟨hown, hp⟩
      exact hl' ▸ hline
    obtain ⟨hs, ho, hp, hv⟩ := Vacant.runLine hl.vacant hord hnone fun o ho =>
      (hlater o ho).isIdle
    have hrun : perform (.hear .index 1 v) p = p.runLine v := perform_hear_own (x := .index) hatt v
    have hsig : p.signal? (.hear .index 1 v) = p.lineSignal? v := if_pos hown
    rw [Machine.signal?_perform, Steady.step_perform, hrun, hsig, ho]
    exact ⟨hs, hv, hp⟩

end Attending

namespace Reckoning

variable {S : SceneSource → Prop} {h : List (Machine Player Task)} {m : Machine Player Task}
  {c c' : Course}

/-- The book is on the page that has been begun. -/
theorem open_page (ha : Attending S m c) (hsound : m.world.book.history.Sound) {v : UInt64}
    {rest : Orders} (hpage : m.agenda = .perform (.hear .index 0 v) :: rest)
    (hd : m.world.book.pageDue = true) (hb : Broken h) : Reckoning (m :: h) m.step c' := by
  obtain ⟨hs, hj, hstep⟩ := ha.step_page hpage
  have hopen : m.world.openPage.book.history.last? =
      some { saveState := some m.world.snapshot } := by
    rw [Player.openPage, if_pos hd]
    exact History.last?_breakPage hsound.limit ..
  have hdue := pageDue_openPage m.world
  refine .opened (.opens (show Broken h from hb) ?_ (ha.line?_of_due hd) ?_) ?_ ?_ (.inr ?_)
  · rw [Machine.Opens, hstep]
    exact ⟨hd, hdue, hopen⟩
  · exact ha.not_breaks hj (by simp [hs])
  · rw [hstep]
    exact .of_last? hdue hopen rfl rfl
  · rw [hstep]
    exact position_of_inside (inside_openPage _)
  · rw [hstep]
    obtain ⟨p, agenda⟩ := m
    obtain rfl : agenda = _ := hpage
    cases ha.arranged with
    | later hl _ => exact absurd (hl _ List.mem_cons_self (.inr rfl)) (by decide)
    | loose ht _ _ =>
      rcases ht with ⟨c, hc⟩ | ht
      · cases hc
      · exact ht.elim
    | hand ho => exact ho.elim
    | page v => exact ⟨v, _, rfl⟩

/-- The page ends. -/
theorem end_page (ha : Attending S m c) (hs : m.signal? = some .page) :
    Reckoning (m :: h) m.step c' := by
  exact .due ((ha.touches_of_signal? hs).pageDue ha.watching (.inr rfl)) (ha.laid.page hs)
    (.inl (.inr (ha.said?_page.2 hs)))

/-- What has happened in a step is accounted for. -/
theorem step (ha : Attending S m c) (hl : Attending.Loading m c)
    (hsound : m.world.book.history.Sound) (hm : Moves m c c') (hacc : Reckoning h m c) :
    Reckoning (m :: h) m.step c' := by
  by_cases hj : m.jump? = none
  · cases hacc with
    | fresh hc hv =>
      subst hc
      exact .fresh (hm.of_fresh hj).2 (hv.step ha hl.ordered (ha.line?_of_fresh hj)).2.1
    | jump hn => exact absurd hj hn
    | due hd hu hb =>
      by_cases hpage : ∃ v rest, m.agenda = .perform (.hear .index 0 v) :: rest
      · obtain ⟨v, rest, hpage⟩ := hpage
        exact open_page ha hsound hpage hd hb
      · have ht := ha.touches fun v rest heq => hpage ⟨v, rest, heq⟩
        refine .due (ht.pageDue ha.watching (.inl hd)) ((ha.goes_of_due hd).hushed hu) ?_
        exact .inr ⟨ha.line?_of_due hd, hb⟩
    | @opened opening ho hb hp hv =>
      by_cases hline : m.line? = none
      · obtain ⟨hs, hv, hp'⟩ := ha.step_opened hl hline hb.due hv
        have hn : m.signal? ≠ some .page := by simp [hs]
        have hon := ha.isOn_step hn hb
        rw [ha.token_eq_empty (by simp [hs])] at hon
        exact .opened (.waits ho hline (ha.not_breaks hj hn)) hon (hp'.trans hp) (.inl hv)
      · by_cases hs : m.signal? = some .page
        · exact end_page ha hs
        · exact .reads (.starts ho hline (ha.not_breaks hj hs)) (ha.isOn_step hs hb) hp
    | reads hr hb hp =>
      by_cases hs : m.signal? = some .page
      · exact end_page ha hs
      · exact .reads (.goesOn hr (ha.not_breaks hj hs)) (ha.isOn_step hs hb) hp
  · obtain ⟨s, hs⟩ := Option.ne_none_iff_exists'.1 hj
    obtain ⟨hd, d, rest, heq, -⟩ := ha.agenda_of_jump? hs
    obtain ⟨-, hv⟩ := ha.vacant_of_jump? hl.ordered hs
    have ht := ha.touches fun v rest' heq' => by cases heq.symm.trans heq'
    exact .due (ht.pageDue ha.watching (.inl hd)) hv.hush (.inl (.inl hj))

/-- Text is said on a page that is read, or by the first line there. -/
theorem of_text {token : String} (ha : Attending S m c) (hl : Attending.Loading m c)
    (hs : m.signal? = some (.text token)) (hacc : Reckoning h m c) :
    ∃ opening first read, Reads opening first (m :: h) (m :: read) ∧
      m.world.book.IsOn (told read) opening.world.snapshot ∧
        first.world.position = opening.world.position := by
  have hn : m.signal? ≠ some .page := by simp [hs]
  have hj : m.jump? = none := by
    cases hj : m.jump? with
    | none => rfl
    | some s => cases (ha.vacant_of_jump? hl.ordered hj).1.symm.trans hs
  cases hacc with
  | fresh hc hv =>
    subst hc
    cases (hv.step ha hl.ordered (ha.line?_of_fresh hj)).1.symm.trans hs
  | jump hj' => exact absurd hj hj'
  | due hd hu hb => exact absurd hs ((ha.goes_of_due hd).mute hu token)
  | @opened opening ho hb hp hv =>
    by_cases hline : m.line? = none
    · cases (ha.step_opened hl hline hb.due hv).1.symm.trans hs
    · exact ⟨opening, m, [], .starts ho hline (ha.not_breaks hj hn), hb, hp⟩
  | @reads opening first read hr hb hp =>
    exact ⟨opening, first, read, .goesOn hr (ha.not_breaks hj hn), hb, hp⟩

/-- What the host does is accounted for. -/
theorem deed {s : Session} {move : Session.Move} (ha : Attending S ⟨s.player, []⟩ c)
    (hd : s.Deed S move) (hacc : Reckoning h ⟨s.player, []⟩ c) : Reckoning h move.machine c := by
  have hs := hd.spared
  rcases hd.book with ⟨hj, -⟩ | ⟨hdue, hh⟩
  · exact .jump hj
  · have hon {text : String} {x : SaveState} (hb : s.player.book.IsOn text x) :
        move.1.player.book.IsOn text x := by
      rcases hh with hh | ⟨c, hh⟩
      · exact hb.of_eq hdue hh
      · obtain ⟨init, page, hp, ht, hx⟩ := hb.page
        refine ⟨hdue.trans hb.due, init, { page with content := c }, ?_, ht, hx⟩
        rw [hh]
        exact History.pages_modifyLast _ hp _
    cases hacc with
    | fresh hc hv => exact .fresh hc (ha.vacant_deed hv hd)
    | jump hj => exact absurd rfl hj
    | due hdue' hu hb => exact .due (hdue.trans hdue') (ha.hush_deed hu hd) hb
    | opened ho hb hp hv =>
      rcases hv with hv | ⟨v, rest, hv⟩
      · exact .opened ho (hon hb) (hs.position.trans hp) (.inl (ha.vacant_deed hv hd))
      · cases hv
    | reads hr hb hp => exact .reads hr (hon hb) hp

end Reckoning

/-! ### Recitals -/

namespace Recital

variable {S : SceneSource → Prop} {h : List (Machine Player Task)} {m : Session.Move}

/-- All along a recital what happens is accounted for. -/
theorem account (hr : Recital S h m) : ∃ c, Attending S m.machine c ∧
    Attending.Loading m.machine c ∧ m.1.player.book.history.Sound ∧ Reckoning h m.machine c := by
  refine hr.invariant (I := fun h m c => Attending.Loading m c ∧ m.world.book.history.Sound ∧
    Reckoning h m c) (fun ho => ?_) (fun ha ⟨hl, hs, hacc⟩ hd => ?_)
      fun ha ⟨hl, hs, hacc⟩ hm ha' => ?_
  · obtain ⟨slots, rfl⟩ := Session.exists_of_open? ho
    refine ⟨⟨⟨List.nodup_nil, fun ht => absurd ht List.not_mem_nil⟩, fun hp => by cases hp⟩,
      History.sound_ofLimit _, .fresh rfl ?_⟩
    exact ⟨rfl, rfl, fun hb => absurd hb List.not_mem_nil, fun o ho => absurd ho List.not_mem_nil⟩
  · exact ⟨hl.deed ha hd, hd.sound hs, hacc.deed ha hd⟩
  · exact ⟨hl.step ha hm ha', ha.sound_step hs, hacc.step ha hl hs hm⟩

/-- **Text is entered on the page that was begun for it.** When the script that is only watched says
something, a line has started since the last page break or jump. The text is added to the last page,
which was begun after the break and before the first line. On this page stands what has been said
since that line started, and its snapshot shows the position just before. -/
theorem text_enters_page (hr : Recital S h m) {token : String}
    (ht : m.machine.said? .text = some (.text token)) :
    ∃ opening first read, Reads opening first (m.machine :: h) read ∧ ∃ init page,
      m.1.player.book.history.pages = init ++ [page] ∧
        m.step.1.player.book.history.pages =
          init ++ [{ page with text := page.text ++ token }] ∧
            page.text ++ token = told read ∧
              page.saveState = some ⟨first.world.stage.context, first.world.stage.progress, none,
                some opening.world.book.clock.tick⟩ := by
  obtain ⟨c, ha, hl, -, hacc⟩ := hr.account
  have hs := ha.said?_text.1 ht
  obtain ⟨opening, first, read, hreads, hb, hpos⟩ := hacc.of_text ha hl hs
  obtain ⟨init, page, hp, htext, hx⟩ := hb.page
  refine ⟨opening, first, m.machine :: read, hreads, init, page, hp, ?_, ?_, ?_⟩
  · have hh := ((ha.touches_of_signal? hs).book_of_some ha.watching).2
    exact (congrArg History.pages hh).trans (History.pages_appendText _ hp token)
  · rw [htext, told, ha.token_eq hs]
  · obtain ⟨hc, hv⟩ := Prod.mk.inj hpos
    rw [hx, hc, hv]
    rfl

end Recital

/-- A session with a scene of one line. -/
def Session.greeting : Session :=
  ⟨(playerOf (.ofTexts [("a", "`hi")]) {} {} default).note (.log (Slots.openedEntry {})), ⟨{}, {}⟩⟩

/-- The scene has been started. -/
def Session.greeted : Session.Move := (greeting.start "a").run 23

/-- Time passes while the text is shown. -/
def Session.greetedFor (d n : Nat) : Session.Move := (greeted.1.advance d).run n

/-- The second character of a text is shown. -/
theorem second_character_enters_page :
    ∃ h, Recital (fun _ => True) h (Session.greetedFor 60 18) ∧
      (Session.greetedFor 60 18).machine.said? .text = some (.text "i") ∧
        ∃ opening first read, Reads opening first ((Session.greetedFor 60 18).machine :: h) read ∧
          told read = "hi" := by
  have hs : Session.open? (.ofTexts [("a", "`hi")]) {} {} default = .ok Session.greeting := rfl
  have hopen : Recital (fun _ => True) [] (Session.greeting, []) := .opened trivial hs
  obtain ⟨hdone, ht, hlast⟩ : Session.greeted.2.isEmpty = true ∧
      (Session.greetedFor 60 18).machine.said? .text = some (.text "i") ∧
      (Session.greetedFor 60 18).1.player.book.history.last?.map Page.text = some "h" := by
    decide +kernel
  have hrest : Session.greeted.2 = [] := List.isEmpty_iff.1 hdone
  have hr : Recital (fun _ => True) _ (Session.greetedFor 60 18) :=
    (((hopen.deed (.start "a")).steps 23).deed_of_rest hrest (.advance 60)).steps 18
  obtain ⟨opening, first, read, hreads, init, page, hp, hp', htold, hx⟩ := hr.text_enters_page ht
  refine ⟨_, hr, ht, opening, first, read, hreads, ?_⟩
  have hpage : (Session.greetedFor 60 18).1.player.book.history.last? = some page := by
    rw [History.last?, hp, List.getLast?_concat]
  rw [hpage] at hlast
  rw [← htold, Option.some.inj hlast]
  rfl

end Novella
