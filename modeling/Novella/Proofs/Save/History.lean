import Novella.Proofs.Save.Persistence
import Novella.Save.History

/-!
# The history of a session

A history keeps no more pages than its limit, and only its last page may be without text. To go back
to a save state is to go back to the last page that began at its position: what is left are the
pages before, so there is room for a new one, which takes the place of none of them.

Pages are recognized by the fingerprint of their position. The text that a fingerprint is the digest
of says which position is meant.

## Main definitions

* `SaveState.At` — a save state of the same position
* `SaveState.Collides` — another position with the same fingerprint
* `History.Sound` — what is true of every history
* `History.Rewound` — the pages before the last one that began at a position

## Main results

* `SaveState.at_iff_canonicalText` — the text of a position says which one it is
* `History.rewound_rewindTo` — the history is rewound to a position
* `History.pages_breakPage_rewindTo` — a rewound history begins a page
-/

namespace Novella

/-! ### Positions -/

namespace SaveState

variable {x y : SaveState}

/-- The save states are of the same position. -/
def At (x y : SaveState) : Prop := x.context = y.context ∧ x.progress = y.progress

instance : DecidableRel At := fun _ _ => inferInstanceAs (Decidable (_ ∧ _))

/-- The fingerprints are the same, but not what they are digests of. -/
def Collides (x y : SaveState) : Prop :=
  x.fingerprint = y.fingerprint ∧ x.canonicalText ≠ y.canonicalText

theorem At.canonicalText (h : x.At y) : x.canonicalText = y.canonicalText := by
  rw [SaveState.canonicalText, SaveState.canonicalText, canonical, canonical, h.1, h.2]

/-- Records are read whatever the order of their fields. -/
theorem ofJson?_canonical (x : SaveState) :
    ofJson? (Json.asRead x.canonical) = some ⟨x.context, x.progress, none, none⟩ := by
  have haudio : Audio.ofJson? (Json.asRead (.object [
      ("loopedEffect", .string x.context.audio.loopedEffect),
      ("track", .string x.context.audio.track)])) = some x.context.audio := by
    rw [Audio.ofJson?, Json.fields?_object (by simp)]
    simp [Json.withDefault, List.lookup_cons]
  have hgraphics : Graphics.ofJson? (Json.asRead (.object [
      ("background", .string x.context.graphics.background),
      ("center", .string x.context.graphics.center),
      ("left", .string x.context.graphics.left),
      ("right", .string x.context.graphics.right)])) = some x.context.graphics := by
    rw [Graphics.ofJson?, Json.fields?_object (by simp)]
    simp [Json.withDefault, List.lookup_cons]
  have hprogress : Progress.ofJson? (Json.asRead (.object [
      ("counters", x.progress.parts.2.1),
      ("flags", x.progress.parts.1),
      ("temporaries", x.progress.parts.2.2)])) = some x.progress := by
    rw [← Progress.ofJson?_toJson x.progress, Progress.ofJson?, Progress.ofJson?, Progress.toJson,
      Json.fields?_object (by simp), Json.fields?_object (by simp)]
    simp [List.lookup_cons]
  rw [canonical, ofJson?, Json.fields?_object (by simp)]
  simp [List.lookup_cons, Json.required, Json.optional, Context.ofJson?, Json.fields?_object,
    Json.withDefault, haudio, hgraphics, hprogress]

theorem whole_canonical (x : SaveState) : Json.Whole x.canonical := by
  obtain ⟨hflags, hcounters, htemporaries⟩ := x.progress.whole_parts
  have haudio : Json.Whole (.object [
      ("loopedEffect", .string x.context.audio.loopedEffect),
      ("track", .string x.context.audio.track)]) :=
    .object (List.forall_mem_cons.2 ⟨.string _, List.forall_mem_singleton.2 (.string _)⟩)
  have hgraphics : Json.Whole (.object [
      ("background", .string x.context.graphics.background),
      ("center", .string x.context.graphics.center),
      ("left", .string x.context.graphics.left),
      ("right", .string x.context.graphics.right)]) :=
    .object (List.forall_mem_cons.2 ⟨.string _, List.forall_mem_cons.2 ⟨.string _,
      List.forall_mem_cons.2 ⟨.string _, List.forall_mem_singleton.2 (.string _)⟩⟩⟩)
  refine .object (List.forall_mem_cons.2 ⟨.object ?_, List.forall_mem_singleton.2 (.object ?_)⟩)
  · exact List.forall_mem_cons.2 ⟨haudio, List.forall_mem_cons.2 ⟨hgraphics,
      List.forall_mem_cons.2 ⟨.integer _, List.forall_mem_singleton.2 (.string _)⟩⟩⟩
  · exact List.forall_mem_cons.2 ⟨hcounters, List.forall_mem_cons.2 ⟨hflags,
      List.forall_mem_singleton.2 htemporaries⟩⟩

theorem read?_canonicalText (x : SaveState) :
    read? x.canonicalText = some ⟨x.context, x.progress, none, none⟩ := by
  rw [canonicalText, read?, Json.readText, String.toList_ofList,
    (Json.layout_compact x.whole_canonical).read, Option.bind_some, ofJson?_canonical]

/-- The text of a position says which one it is. -/
theorem at_iff_canonicalText : x.At y ↔ x.canonicalText = y.canonicalText := by
  refine ⟨At.canonicalText, fun h => ?_⟩
  have hx := x.read?_canonicalText
  rw [h, y.read?_canonicalText] at hx
  injection Option.some.inj hx with hc hp
  exact ⟨hc.symm, hp.symm⟩

/-- Where there are no collisions, fingerprints say whether positions are the same. -/
theorem fingerprint_eq_iff (h : ¬ x.Collides y) : x.fingerprint = y.fingerprint ↔ x.At y := by
  constructor
  · intro hf
    by_cases hc : x.canonicalText = y.canonicalText
    · exact at_iff_canonicalText.2 hc
    · exact absurd ⟨hf, hc⟩ h
  · intro ha
    rw [fingerprint, fingerprint, ha.canonicalText]

end SaveState

/-! ### Histories -/

namespace History

variable {h : History} {page : Page} {test : Page → Bool} {pages kept init : List Page}

/-- What is true of every history. -/
structure Sound (h : History) : Prop where
  /-- There is room for a page. -/
  limit : 1 ≤ h.limit
  /-- There are no more pages than the limit. -/
  length : h.pages.length ≤ h.limit
  /-- Only the last page may be without text. -/
  text : ∀ p ∈ h.pages.dropLast, p.isEmpty = false

theorem sound_ofLimit (n : Nat) : (ofLimit n).Sound :=
  ⟨Nat.le_max_right .., Nat.zero_le _, fun _ hp => absurd hp List.not_mem_nil⟩

theorem limit_modifyLast (h : History) (f : Page → Page) : (h.modifyLast f).limit = h.limit := by
  rw [modifyLast]
  split <;> rfl

theorem limit_appendText (h : History) (s : String) : (h.appendText s).limit = h.limit := by
  rw [appendText, limit_modifyLast]
  split <;> rfl

/-- The last page is changed. -/
theorem pages_modifyLast (h : History) (hp : h.pages = init ++ [page]) (f : Page → Page) :
    (h.modifyLast f).pages = init ++ [f page] := by
  rw [modifyLast, hp, List.getLast?_concat]
  simp

/-- Text is added to the last page. -/
theorem pages_appendText (h : History) (hp : h.pages = init ++ [page]) (s : String) :
    (h.appendText s).pages = init ++ [{ page with text := page.text ++ s }] := by
  rw [appendText, if_neg (by simp [hp])]
  exact pages_modifyLast h hp _

/-- Pages that are too many go. -/
theorem Sound.trim (hl : 1 ≤ h.limit) (ht : ∀ p ∈ h.pages.dropLast, p.isEmpty = false) :
    h.trim.Sound := by
  refine ⟨hl, h.length_pages_trim_le, fun p hp => ht p ?_⟩
  rw [History.trim, List.dropLast_eq_take, List.length_drop, List.take_drop] at hp
  have hp := List.mem_of_mem_drop hp
  rw [List.dropLast_eq_take]
  exact (List.take_subset_take_left _ (by omega)) hp

theorem Sound.setLimit (hs : h.Sound) (n : Nat) : (h.setLimit n).Sound :=
  Sound.trim (h := { h with limit := max n 1 }) (Nat.le_max_right ..) hs.text

theorem Sound.modifyLast (hs : h.Sound) (f : Page → Page) : (h.modifyLast f).Sound := by
  cases hp : h.pages.getLast? with
  | none =>
    rw [History.modifyLast, hp]
    exact hs
  | some page =>
    obtain ⟨init, hi⟩ := List.getLast?_eq_some_iff.1 hp
    have hl := hs.length
    have ht := hs.text
    rw [hi, List.length_append] at hl
    rw [hi, List.dropLast_concat] at ht
    refine ⟨(limit_modifyLast h f).symm ▸ hs.limit, ?_, ?_⟩
    · rw [limit_modifyLast, pages_modifyLast h hi, List.length_append]
      exact hl
    · rwa [pages_modifyLast h hi, List.dropLast_concat]

theorem Sound.appendText (hs : h.Sound) (s : String) : (h.appendText s).Sound := by
  refine Sound.modifyLast ?_ _
  split
  · exact ⟨hs.limit, hs.limit, fun p hp => absurd hp List.not_mem_nil⟩
  · exact hs

/-- Pages without text give way. -/
theorem isEmpty_of_mem_dropEmptyLast (ht : ∀ p ∈ pages.dropLast, p.isEmpty = false) :
    ∀ p ∈ dropEmptyLast pages, p.isEmpty = false := by
  unfold dropEmptyLast
  split
  · next page hp =>
    obtain ⟨init, rfl⟩ := List.getLast?_eq_some_iff.1 hp
    split
    · exact ht
    · next hn =>
      rw [List.dropLast_concat] at ht
      exact List.forall_mem_append.2 ⟨ht, List.forall_mem_singleton.2 (Bool.eq_false_iff.2 hn)⟩
  · next hp =>
    rw [List.getLast?_eq_none_iff.1 hp]
    exact fun p hp => absurd hp List.not_mem_nil

theorem Sound.pushPage (hs : h.Sound) (p : Page) : (h.pushPage p).Sound := by
  refine Sound.trim (h := { h with pages := dropEmptyLast h.pages ++ [p] }) hs.limit ?_
  rw [List.dropLast_concat]
  exact isEmpty_of_mem_dropEmptyLast hs.text

theorem Sound.breakPage (hs : h.Sound) (s : Option SaveState) (c : PageContent) :
    (h.breakPage s c).Sound := hs.pushPage _

/-! ### Going back -/

/-- These are the pages before the last one with the property. There are none if no page has it. -/
def Rewound (P : Page → Prop) (pages kept : List Page) : Prop :=
  (∀ p ∈ pages, ¬ P p) ∧ kept = [] ∨
    ∃ page later, pages = kept ++ page :: later ∧ P page ∧ ∀ p ∈ later, ¬ P p

theorem rewound_pagesBefore (test : Page → Bool) (pages : List Page) :
    Rewound (fun p => test p = true) pages (pagesBefore test pages) := by
  induction pages with
  | nil => exact .inl ⟨fun p hp => absurd hp List.not_mem_nil, rfl⟩
  | cons p ps ih =>
    rw [pagesBefore]
    split
    · next hany =>
      obtain ⟨q, hq, ht⟩ := List.any_eq_true.1 hany
      rcases ih with ⟨hn, -⟩ | ⟨page, later, hps, hpage, hlater⟩
      · exact absurd ht (hn q hq)
      · exact .inr ⟨page, later, congrArg (p :: ·) hps, hpage, hlater⟩
    · next hany =>
      have hn : ∀ q ∈ ps, ¬ test q = true := fun q hq ht => hany (List.any_eq_true.2 ⟨q, hq, ht⟩)
      by_cases hp : test p = true
      · exact .inr ⟨p, ps, rfl, hp, hn⟩
      · exact .inl ⟨List.forall_mem_cons.2 ⟨hp, hn⟩, rfl⟩

theorem Rewound.congr {P Q : Page → Prop} (hr : Rewound P pages kept)
    (h : ∀ p ∈ pages, P p ↔ Q p) : Rewound Q pages kept := by
  rcases hr with ⟨hn, hk⟩ | ⟨page, later, rfl, hp, hn⟩
  · exact .inl ⟨fun p hp => mt (h p hp).2 (hn p hp), hk⟩
  · obtain ⟨-, hl⟩ := List.forall_mem_append.1 h
    obtain ⟨hpage, hl⟩ := List.forall_mem_cons.1 hl
    exact .inr ⟨page, later, rfl, hpage.1 hp, fun q hq => mt (hl q hq).2 (hn q hq)⟩

/-- Where pages went there is room, and all that are left have text. -/
theorem Sound.of_rewound {P : Page → Prop} (hs : h.Sound) (hr : Rewound P h.pages kept) :
    kept.length < h.limit ∧ ∀ p ∈ kept, p.isEmpty = false := by
  rcases hr with ⟨-, rfl⟩ | ⟨page, later, hp, -, -⟩
  · exact ⟨hs.limit, fun p hp => absurd hp List.not_mem_nil⟩
  · have hl := hs.length
    have ht := hs.text
    rw [hp, List.length_append, List.length_cons] at hl
    rw [hp, List.dropLast_append_of_ne_nil (List.cons_ne_nil _ _)] at ht
    exact ⟨by omega, fun p hp => ht p (List.mem_append_left _ hp)⟩

theorem Sound.rewindTo (hs : h.Sound) (x : SaveState) : (h.rewindTo x).Sound := by
  obtain ⟨hl, ht⟩ := hs.of_rewound (rewound_pagesBefore (beganAt x.fingerprint) h.pages)
  exact ⟨hs.limit, Nat.le_of_lt hl, fun p hp => ht p (List.dropLast_subset _ hp)⟩

end History

/-- The page began at the position of the save state. -/
def Page.BeganAt (x : SaveState) (p : Page) : Prop := ∃ s ∈ p.saveState, s.At x

namespace History

variable {h : History} {x : SaveState}

/-- The history is rewound to the position, unless another one has the same fingerprint. -/
theorem rewound_rewindTo (h : History)
    (hc : ∀ p ∈ h.pages, ∀ s ∈ p.saveState, ¬ s.Collides x) :
    Rewound (Page.BeganAt x) h.pages (h.rewindTo x).pages := by
  refine (rewound_pagesBefore (beganAt x.fingerprint) h.pages).congr fun p hp => ?_
  rw [Page.BeganAt, beganAt]
  cases hs : p.saveState with
  | none => simp
  | some s => simp [← SaveState.fingerprint_eq_iff (hc p hp s hs)]

/-- A history that has been rewound has room for a page. -/
theorem pages_breakPage_rewindTo (hs : h.Sound) (s : Option SaveState) (c : PageContent) :
    ((h.rewindTo x).breakPage s c).pages =
      (h.rewindTo x).pages ++ [{ content := c, saveState := s }] := by
  obtain ⟨hl, ht⟩ := hs.of_rewound (rewound_pagesBefore (beganAt x.fingerprint) h.pages)
  have hd : dropEmptyLast (h.rewindTo x).pages = (h.rewindTo x).pages := by
    unfold dropEmptyLast
    split
    · next page hp => exact if_neg (by simp [ht page (List.mem_of_getLast? hp)])
    · rfl
  have hlen : (h.rewindTo x).pages.length < h.limit := hl
  rw [breakPage, pushPage, trim, hd, List.length_append, List.length_singleton]
  exact congrArg (List.drop · _) (Nat.sub_eq_zero_of_le hlen)

end History

end Novella
