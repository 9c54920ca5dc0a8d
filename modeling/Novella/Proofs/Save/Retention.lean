import Mathlib.Data.List.DropRight
import Novella.Proofs.Save.History

/-!
# What a history keeps

A history is written on at its newest end. Were there no limit, pages and texts would pile up; with
a limit, what is left at any time is the newest part of the same pile. The limit may change, and a
load may take back what was written, so in general a page that has text stays, and goes on, until it
is among the oldest pages beyond the limit, until a load goes back to a page at or before it, or
until everything is cleared.

## Main definitions

* `History.Call` — what is asked of a history
* `History.Call.write` — what a call makes of the pages where there is no limit
* `History.evicts` — how many of the oldest pages go
* `History.Loses`, `History.IsLost` — the ways in which a page may go
* `History.place` — where a page is found later
* `History.Retentive` — what a history keeps, whatever is asked of it

## Main results

* `History.pages_foldl_make` — the newest pages are those there would be without a limit
* `History.Sound.kept` — a page with text stays unless it is lost
* `History.refines_unlimited_and_retains`
-/

namespace Novella

/-- The page goes on where the other ends. -/
def Page.Continues (p q : Page) : Prop := ∃ s, q = { p with text := p.text ++ s }

namespace Page

variable {p q r : Page}

@[refl]
theorem Continues.refl (p : Page) : p.Continues p := ⟨"", by simp⟩

theorem Continues.trans (hp : p.Continues q) (hq : q.Continues r) : p.Continues r := by
  obtain ⟨s, rfl⟩ := hp
  obtain ⟨t, rfl⟩ := hq
  exact ⟨s ++ t, by simp [String.append_assoc]⟩

/-- A page that has text keeps it. -/
theorem Continues.isEmpty_eq_false (hp : p.Continues q) (h : p.isEmpty = false) :
    q.isEmpty = false := by
  obtain ⟨s, rfl⟩ := hp
  simp only [isEmpty, decide_eq_false_iff_not, String.append_eq_empty_iff, not_and] at h ⊢
  exact fun hn => absurd hn h

end Page

namespace History

/-! ### Calls -/

/-- What is asked of a history. -/
inductive Call where
  /-- A page is added. -/
  | push (p : Page)
  /-- A page is begun. -/
  | breakPage (saveState : Option SaveState) (content : PageContent)
  /-- Text is added. -/
  | append (s : String)
  /-- Another limit is set. -/
  | setLimit (limit : ℕ)
  /-- A save state is loaded. -/
  | rewindTo (s : SaveState)
  /-- The pages are dropped. -/
  | clear

/-- Does what is asked. -/
def make (h : History) : Call → History
  | .push p => h.pushPage p
  | .breakPage s c => h.breakPage s c
  | .append s => h.appendText s
  | .setLimit n => h.setLimit n
  | .rewindTo s => h.rewindTo s
  | .clear => h.clear

namespace Call

/-- The call writes. -/
def IsWriting : Call → Prop
  | .push _ => True
  | .breakPage _ _ => True
  | .append _ => True
  | _ => False

/-- What the call makes of the pages where there is no limit. -/
def write : Call → List Page → List Page
  | .push p, pages => dropEmptyLast pages ++ [p]
  | .breakPage s c, pages => dropEmptyLast pages ++ [{ content := c, saveState := s }]
  | .append s, pages =>
    let p := pages.getLast?.getD {}
    pages.dropLast ++ [{ p with text := p.text ++ s }]
  | _, pages => pages

/-- The limit after the call. -/
def limitAfter (limit : ℕ) : Call → ℕ
  | .setLimit n => max n 1
  | _ => limit

end Call

variable {h : History} {p q page : Page} {pages init : List Page} {calls : List Call} {c : Call}
  {j n : ℕ}

/-- Text is added at the end of the newest page, which is begun if there is none. -/
theorem appendText_eq (h : History) (s : String) :
    h.appendText s = { h with pages := (Call.append s).write h.pages } := by
  rcases List.eq_nil_or_concat' h.pages with hp | ⟨init, page, hp⟩
  · simp [appendText, modifyLast, Call.write, hp]
  · simp [appendText, modifyLast, Call.write, hp]

theorem limit_make (h : History) (c : Call) : (h.make c).limit = c.limitAfter h.limit := by
  cases c with
  | append s => exact limit_appendText h s
  | _ => rfl

theorem limit_foldl_make (h : History) (calls : List Call) :
    (calls.foldl make h).limit = calls.foldl Call.limitAfter h.limit := by
  induction calls generalizing h with
  | nil => rfl
  | cons c cs ih => rw [List.foldl_cons, List.foldl_cons, ih, limit_make]

theorem Sound.clear (hs : h.Sound) : h.clear.Sound :=
  ⟨hs.limit, Nat.zero_le _, fun _ hp => absurd hp List.not_mem_nil⟩

theorem Sound.make (hs : h.Sound) (c : Call) : (h.make c).Sound := by
  cases c with
  | push p => exact hs.pushPage p
  | breakPage s c => exact hs.pushPage _
  | append s => exact hs.appendText s
  | setLimit n => exact hs.setLimit n
  | rewindTo x => exact hs.rewindTo x
  | clear => exact hs.clear

theorem Sound.foldl_make (hs : h.Sound) (calls : List Call) :
    (calls.foldl History.make h).Sound := by
  induction calls generalizing h with
  | nil => exact hs
  | cons c cs ih => exact ih (hs.make c)

/-! ### The pages without a limit -/

theorem rtake_rtake (pages : List Page) (m n : ℕ) :
    (pages.rtake n).rtake m = pages.rtake (min m n) := by
  simp [List.rtake_eq_reverse_take_reverse, List.take_take]

theorem dropEmptyLast_concat (init : List Page) (page : Page) :
    dropEmptyLast (init ++ [page]) = if page.isEmpty then init else init ++ [page] := by
  simp [dropEmptyLast]

/-- As there is room for a page, the newest one is always there to be written on. -/
theorem rtake_write (hw : c.IsWriting) (pages : List Page) (n : ℕ) :
    (c.write (pages.rtake (n + 1))).rtake (n + 1) = (c.write pages).rtake (n + 1) := by
  have hpush (p : Page) : (dropEmptyLast (pages.rtake (n + 1)) ++ [p]).rtake (n + 1) =
      (dropEmptyLast pages ++ [p]).rtake (n + 1) := by
    rw [List.rtake_concat_succ, List.rtake_concat_succ]
    refine congrArg (· ++ [p]) ?_
    rcases List.eq_nil_or_concat' pages with rfl | ⟨init, page, rfl⟩
    · rw [List.rtake_nil]
    · rw [List.rtake_concat_succ, dropEmptyLast_concat, dropEmptyLast_concat]
      split
      · rw [rtake_rtake, Nat.min_self]
      · rw [← List.rtake_concat_succ, rtake_rtake, Nat.min_eq_left (Nat.le_succ n)]
  cases c with
  | push p => exact hpush p
  | breakPage s c => exact hpush _
  | append s =>
    rcases List.eq_nil_or_concat' pages with rfl | ⟨init, page, rfl⟩
    · rw [List.rtake_nil]
    · simp only [Call.write, List.rtake_concat_succ, List.getLast?_concat, List.dropLast_concat,
        rtake_rtake, Nat.min_self]
  | _ => exact hw.elim

/-- The oldest pages beyond the limit go, and no others, unless the history goes back. -/
theorem Sound.pages_make (hs : h.Sound) (c : Call) :
    (h.make c).pages = (c.write h.pages).rtake (h.make c).limit ∨
      (∃ x, c = .rewindTo x) ∨ c = .clear := by
  cases c with
  | append s =>
    have hl := (hs.appendText s).length
    refine .inl ?_
    rw [appendText_eq] at hl
    rw [History.make, appendText_eq, List.rtake, Nat.sub_eq_zero_of_le hl, List.drop_zero]
  | rewindTo x => exact .inr (.inl ⟨x, rfl⟩)
  | clear => exact .inr (.inr rfl)
  | _ => exact .inl rfl

theorem limit_foldl_make_of_isWriting (hw : ∀ c ∈ calls, c.IsWriting) (h : History) :
    (calls.foldl make h).limit = h.limit := by
  induction calls generalizing h with
  | nil => rfl
  | cons c cs ih =>
    obtain ⟨hc, hcs⟩ := List.forall_mem_cons.1 hw
    rw [List.foldl_cons, ih hcs, limit_make]
    cases c with
    | setLimit n => exact hc.elim
    | _ => rfl

/-- **The newest pages are those there would be without a limit.** -/
theorem pages_foldl_make (limit : ℕ) (hw : ∀ c ∈ calls, c.IsWriting) :
    (calls.foldl make (ofLimit limit)).pages =
      (calls.foldl (fun pages c => c.write pages) []).rtake (max limit 1) := by
  obtain ⟨n, hn⟩ : ∃ n, max limit 1 = n + 1 := ⟨max limit 1 - 1, by omega⟩
  induction calls using List.reverseRecOn with
  | nil => exact (List.rtake_nil _).symm
  | append_singleton cs c ih =>
    obtain ⟨hcs, hc⟩ := List.forall_mem_append.1 hw
    have hc : c.IsWriting := hc c (List.mem_singleton_self c)
    have hlimit := limit_foldl_make_of_isWriting hw (ofLimit limit)
    rw [List.foldl_concat, show (ofLimit limit).limit = n + 1 from hn] at hlimit
    rw [List.foldl_concat, List.foldl_concat]
    rcases ((sound_ofLimit limit).foldl_make cs).pages_make c with hp | ⟨x, rfl⟩ | rfl
    · rw [hp, hlimit, ih hcs, hn, rtake_write hc]
    · exact hc.elim
    · exact hc.elim

/-! ### Pages that stay -/

/-- How many of the oldest pages a call takes away. -/
def evicts (h : History) (c : Call) : ℕ := (c.write h.pages).length - (h.make c).limit

/-- The ways in which a call takes away the page with a number. -/
inductive Loses (h : History) (j : ℕ) : Call → Prop
  /-- It is among the oldest ones beyond the limit. -/
  | evicted {c : Call} : j < h.evicts c → Loses h j c
  /-- No page after it began at the position that is gone back to. -/
  | rewound {x : SaveState} :
    (∀ p ∈ h.pages.drop (j + 1), beganAt x.fingerprint p = false) → Loses h j (.rewindTo x)
  /-- Everything is cleared. -/
  | cleared : Loses h j .clear

/-- One of the calls takes the page away. -/
def IsLost (h : History) (j : ℕ) : List Call → Prop
  | [] => False
  | c :: cs => h.Loses j c ∨ (h.make c).IsLost (j - h.evicts c) cs

/-- The number of the page after calls. -/
def place (h : History) (j : ℕ) : List Call → ℕ
  | [] => j
  | c :: cs => (h.make c).place (j - h.evicts c) cs

/-- Only a last page without text gives way. -/
theorem getElem?_dropEmptyLast (hp : pages[j]? = some p) (ht : p.isEmpty = false) :
    (dropEmptyLast pages)[j]? = some p := by
  rcases List.eq_nil_or_concat' pages with rfl | ⟨init, page, rfl⟩
  · exact hp
  · rw [dropEmptyLast_concat]
    split
    · next he =>
      rw [List.getElem?_append] at hp
      split at hp
      · exact hp
      · obtain ⟨-, rfl⟩ : j - init.length = 0 ∧ page = p := by
          simpa [List.getElem?_singleton] using hp
        exact absurd he (by simp [ht])
    · exact hp

/-- A page with text stays where it is, and may go on, however much is written. -/
theorem getElem?_write (c : Call) (hp : pages[j]? = some p) (ht : p.isEmpty = false) :
    ∃ q, (c.write pages)[j]? = some q ∧ p.Continues q := by
  have hpush (q : Page) : (dropEmptyLast pages ++ [q])[j]? = some p := by
    have hd := getElem?_dropEmptyLast hp ht
    rwa [List.getElem?_append_left (List.getElem?_eq_some_iff.1 hd).1]
  cases c with
  | push q => exact ⟨p, hpush q, .refl p⟩
  | breakPage s c => exact ⟨p, hpush _, .refl p⟩
  | append s =>
    rcases List.eq_nil_or_concat' pages with rfl | ⟨init, page, rfl⟩
    · exact absurd hp (by simp)
    · rw [Call.write, List.getLast?_concat, List.dropLast_concat]
      rw [List.getElem?_append] at hp ⊢
      split at hp
      · next hj => exact ⟨p, (if_pos hj).trans hp, .refl p⟩
      · next hj =>
        obtain ⟨hj0, rfl⟩ : j - init.length = 0 ∧ page = p := by
          simpa [List.getElem?_singleton] using hp
        exact ⟨{ page with text := page.text ++ s }, by simp [hj, hj0], s, rfl⟩
  | _ => exact ⟨p, hp, .refl p⟩

/-- What is left when a history goes back is what it began with. -/
theorem getElem?_pagesBefore {test : Page → Bool} (hp : pages[j]? = some p)
    (hl : ∃ q ∈ pages.drop (j + 1), test q = true) : (pagesBefore test pages)[j]? = some p := by
  induction pages generalizing j with
  | nil => exact absurd hp (by simp)
  | cons page later ih =>
    obtain ⟨q, hq, ht⟩ := hl
    rw [List.drop_succ_cons] at hq
    rw [pagesBefore, if_pos (List.any_eq_true.2 ⟨q, List.mem_of_mem_drop hq, ht⟩)]
    cases j with
    | zero => exact hp
    | succ j => exact ih hp ⟨q, hq, ht⟩

/-- A call takes a page with text away, or leaves it. -/
theorem Sound.kept_make (hs : h.Sound) (hp : h.pages[j]? = some p) (ht : p.isEmpty = false)
    (c : Call) :
    h.Loses j c ∨ ∃ q, (h.make c).pages[j - h.evicts c]? = some q ∧ p.Continues q := by
  rcases hs.pages_make c with hm | ⟨x, rfl⟩ | rfl
  · obtain ⟨q, hq, hc⟩ := getElem?_write c hp ht
    by_cases hj : j < h.evicts c
    · exact .inl (.evicted hj)
    · refine .inr ⟨q, ?_, hc⟩
      rw [hm, List.rtake, List.getElem?_drop]
      rw [evicts] at hj ⊢
      rwa [Nat.add_sub_cancel' (Nat.le_of_not_lt hj)]
  · by_cases hl : ∃ q ∈ h.pages.drop (j + 1), beganAt x.fingerprint q = true
    · have he : h.evicts (.rewindTo x) = 0 := Nat.sub_eq_zero_of_le hs.length
      rw [he]
      exact .inr ⟨p, getElem?_pagesBefore hp hl, .refl p⟩
    · exact .inl (.rewound (by simpa using hl))
  · exact .inl .cleared

/-- **A page with text stays unless it is lost.** -/
theorem Sound.kept (hs : h.Sound) (hp : h.pages[j]? = some p) (ht : p.isEmpty = false)
    (calls : List Call) :
    h.IsLost j calls ∨
      ∃ q, (calls.foldl History.make h).pages[h.place j calls]? = some q ∧ p.Continues q := by
  induction calls generalizing h j p with
  | nil => exact .inr ⟨p, hp, .refl p⟩
  | cons c cs ih =>
    rcases hs.kept_make hp ht c with hl | ⟨q, hq, hc⟩
    · exact .inl (.inl hl)
    · rcases ih (hs.make c) hq (hc.isEmpty_eq_false ht) with hl | ⟨r, hr, hc'⟩
      · exact .inl (.inr hl)
      · exact .inr ⟨r, hr, hc.trans hc'⟩

/-- What a history keeps, whatever has been asked of it. -/
structure Retentive (h : History) : Prop where
  /-- There are no more pages than the limit. -/
  length : h.pages.length ≤ h.limit
  /-- Only the newest page may be without text. -/
  text : ∀ p ∈ h.pages.dropLast, p.text ≠ ""
  /-- Text is added to the newest page, which is begun if there is none, and nothing goes. -/
  append : ∀ s, ∃ newest, newest = h.last?.getD {} ∧ (h.make (.append s)).pages =
    h.pages.dropLast ++ [{ newest with text := newest.text ++ s }]
  /-- What has text stays, and may go on, until it is among the oldest pages beyond the limit, or
  the history goes back to it or before it, or is cleared. -/
  kept : ∀ j p calls, h.pages[j]? = some p → p.text ≠ "" → h.IsLost j calls ∨
    ∃ q, (calls.foldl make h).pages[h.place j calls]? = some q ∧ p.Continues q

theorem Sound.retentive (hs : h.Sound) : h.Retentive where
  length := hs.length
  text p hp he := by simpa [Page.isEmpty, he] using hs.text p hp
  append s := ⟨_, rfl, congrArg pages (appendText_eq h s)⟩
  kept j p calls hp ht := hs.kept hp (decide_eq_false ht) calls

/-- **With a limit, what is left is the newest part of what there would be without one**, as long as
only pages and texts are added. The limit may also change, and a history may go back and be cleared:
there are never more pages than the limit, all but the newest have text, and a text that was added
goes only with its page. -/
theorem refines_unlimited_and_retains (limit : ℕ) :
    (∀ calls : List Call, (∀ c ∈ calls, c.IsWriting) →
      (calls.foldl make (ofLimit limit)).pages =
        (calls.foldl (fun pages c => c.write pages) []).rtake (max limit 1)) ∧
    ∀ calls : List Call,
      (calls.foldl make (ofLimit limit)).limit = calls.foldl Call.limitAfter (max limit 1) ∧
        (calls.foldl make (ofLimit limit)).Retentive :=
  ⟨fun _ hw => pages_foldl_make limit hw, fun calls =>
    ⟨limit_foldl_make _ calls, ((sound_ofLimit limit).foldl_make calls).retentive⟩⟩

/-- Of three pages the newest two are left where there is room for two. A page that still has its
text, when another text is added and there is room for one page only, is the newest. -/
theorem refines_unlimited_and_retains_two :
    (∀ c ∈ [Call.push { text := "a" }, .append "b", .push {}, .push { text := "c" }, .append "d",
        .breakPage none .choice], c.IsWriting) ∧
      ([Call.push { text := "a" }, .append "b", .push {}, .push { text := "c" }, .append "d",
        .breakPage none .choice].foldl make (ofLimit 2)).pages =
          [{ text := "cd" }, { content := .choice }] ∧
      ∃ q, ([Call.append "e", .setLimit 1].foldl make
          ([Call.push { text := "a" }, .append "b"].foldl make (ofLimit 2))).pages[0]? = some q ∧
        Page.Continues { text := "ab" } q := by
  have hw : ∀ c ∈ [Call.push { text := "a" }, .append "b", .push {}, .push { text := "c" },
      .append "d", .breakPage none .choice], c.IsWriting := by
    simp [Call.IsWriting]
  refine ⟨hw, ?_, ?_⟩
  · rw [(refines_unlimited_and_retains 2).1 _ hw]
    decide
  · have hk := ((refines_unlimited_and_retains 2).2
      [Call.push { text := "a" }, .append "b"]).2.kept 0 { text := "ab" } [.append "e", .setLimit 1]
        (by decide) (by decide)
    refine hk.resolve_left ?_
    rintro (h | h | h)
    · cases h with
      | evicted h => exact absurd h (by decide)
    · cases h with
      | evicted h => exact absurd h (by decide)
    · exact h

end History

end Novella
