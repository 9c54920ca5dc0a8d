import Mathlib.Algebra.Group.Nat.Defs
import Mathlib.Data.List.TakeWhile
import Novella.Reveal.Cursor

/-!
# The visible part of a text

What a reader gets to see of a text does not depend on how it is shown. It ends at the first
backslash; up to there every character counts but for `@` and for the timed pauses, which are `!w`
or `!d` with all the digits that follow, as long as there are any and their number fits 64 bits.

Here this is said without scanning the text in stretches, and scanning is shown to agree with it:
whatever a scan passes over accounts for what was visible there.

## Main definitions

* `Reveal.dropPause?` — the text after a timed pause
* `Reveal.visible` — what there is to see of a text
* `Reveal.Reads` — what has been seen when a part of the text has been read

## Main results

* `Reveal.reads_cons`, `Reveal.reads_stretch` — reading by characters and by stretches
* `Reveal.reads_scan` — what a scan passes over accounts for what was visible there
-/

namespace Novella.Reveal

/-- The text after the timed pause that it starts with. -/
def dropPause? : List Char → Option (List Char)
  | '!' :: c :: cs =>
    if (c = 'w' ∨ c = 'd') ∧ cs.takeWhile Char.isDigit ≠ [] ∧
        Nat.ofDigitChars 10 (cs.takeWhile Char.isDigit) 0 < 2 ^ 64 then
      some (cs.dropWhile Char.isDigit)
    else none
  | _ => none

/-- A timed pause is not empty, and there is no backslash in it. -/
theorem dropPause?_eq_some {cs rest : List Char} (h : dropPause? cs = some rest) :
    ∃ read, cs = read ++ rest ∧ read ≠ [] ∧ '\\' ∉ read := by
  unfold dropPause? at h
  split at h
  · next c cs =>
    split at h
    · next hc =>
      cases h
      refine ⟨'!' :: c :: cs.takeWhile Char.isDigit, ?_, List.cons_ne_nil _ _, ?_⟩
      · simp
      · rintro (_ | ⟨_, _ | ⟨_, hm⟩⟩)
        · exact absurd hc.1 (by decide)
        · exact absurd (List.mem_takeWhile_imp hm) (by decide)
    · cases h
  · cases h

theorem dropPause?_eq_none {cs : List Char} (h : ∀ c rest, cs ≠ '!' :: c :: rest) :
    dropPause? cs = none := by
  unfold dropPause?
  split
  · exact absurd rfl (h _ _)
  · rfl

theorem uint64?_takeWhile_isDigit (cs : List Char) :
    Numeral.uint64? (cs.takeWhile Char.isDigit) =
      if cs.takeWhile Char.isDigit ≠ [] ∧
          Nat.ofDigitChars 10 (cs.takeWhile Char.isDigit) 0 < 2 ^ 64 then
        some (UInt64.ofNat (Nat.ofDigitChars 10 (cs.takeWhile Char.isDigit) 0))
      else none := by
  have hdigit : ∀ c ∈ cs.takeWhile Char.isDigit, c.isDigit = true :=
    fun c hc => List.mem_takeWhile_imp hc
  generalize cs.takeWhile Char.isDigit = ds at hdigit
  have hread : Numeral.natural? ds = Numeral.digits? ds := by
    unfold Numeral.natural?
    split
    · -- a sign is no digit
      exact absurd (hdigit '+' List.mem_cons_self) (by decide)
    · rfl
  have hsize : UInt64.size = 2 ^ 64 := rfl
  rw [Numeral.uint64?, hread, Numeral.digits?]
  by_cases hne : ds ≠ []
  · rw [if_pos ⟨hne, List.all_eq_true.2 hdigit⟩, Option.bind_some, Numeral.toUInt64?, hsize]
    by_cases hlt : Nat.ofDigitChars 10 ds 0 < 2 ^ 64
    · rw [if_pos hlt, if_pos ⟨hne, hlt⟩]
    · rw [if_neg hlt, if_neg fun h => hlt h.2]
  · rw [if_neg fun h => hne h.1, if_neg fun h => hne h.1]
    rfl

/-- The scanner knows the same timed pauses. -/
theorem map_snd_inlineWait? (cs : List Char) :
    (inlineWait? cs).map Prod.snd = dropPause? cs := by
  unfold inlineWait?
  split
  · next c cs =>
    rw [uint64?_takeWhile_isDigit, dropPause?]
    by_cases hc : c = 'w' ∨ c = 'd'
    · simp only [hc, if_true, true_and]
      split <;> rfl
    · simp only [hc, if_false, false_and]
      rfl
  · next h =>
    rw [dropPause?_eq_none h]
    rfl

/-- What there is to see of a text. -/
def visible (text : List Char) : List Char :=
  match text with
  | [] => []
  | c :: cs =>
    if c = '\\' then []
    else if c = '@' then visible cs
    else
      match _h : dropPause? (c :: cs) with
      | some rest => visible rest
      | none => c :: visible cs
termination_by text.length
decreasing_by
  · simp
  · obtain ⟨read, hr, hne, -⟩ := dropPause?_eq_some _h
    have hl := congrArg List.length hr
    have hpos := List.length_pos_iff.2 hne
    simp only [List.length_append, List.length_cons] at hl ⊢
    omega
  · simp

@[simp] theorem visible_nil : visible [] = [] := by
  rw [visible]

@[simp] theorem visible_backslash (cs : List Char) : visible ('\\' :: cs) = [] := by
  rw [visible, if_pos rfl]

@[simp] theorem visible_at (cs : List Char) : visible ('@' :: cs) = visible cs := by
  rw [visible, if_neg (by decide), if_pos rfl]

theorem visible_of_dropPause? {cs rest : List Char} (h : dropPause? cs = some rest) :
    visible cs = visible rest := by
  cases cs with
  | nil => cases h
  | cons c cs =>
    have hc : c = '!' := by
      unfold dropPause? at h
      split at h
      · next heq => exact (List.cons.inj heq).1
      · cases h
    subst hc
    rw [visible, if_neg (by decide), if_neg (by decide)]
    split
    · next heq => rw [Option.some.inj (heq.symm.trans h)]
    · next heq => cases heq.symm.trans h

/-- A character that is neither a mark nor the start of a timed pause is seen. -/
theorem visible_cons {c : Char} {cs : List Char} (hb : c ≠ '\\') (ha : c ≠ '@')
    (hp : dropPause? (c :: cs) = none) : visible (c :: cs) = c :: visible cs := by
  rw [visible, if_neg hb, if_neg ha]
  split
  · next heq => cases heq.symm.trans hp
  · rfl

/-! ### Reading on -/

/-- When the text has been read up to the rest, without coming to the end of the page, this much of
it has been seen. -/
structure Reads (text seen rest : List Char) : Prop where
  /-- What has been seen and what the rest still shows is all there is to see. -/
  visible : visible text = seen ++ visible rest
  /-- The end of the page has not been read. -/
  read : ∃ read, text = read ++ rest ∧ '\\' ∉ read

namespace Reads

variable {text seen more rest next : List Char}

theorem refl (text : List Char) : Reads text [] text := ⟨rfl, [], rfl, List.not_mem_nil⟩

theorem trans (h : Reads text seen rest) (h' : Reads rest more next) :
    Reads text (seen ++ more) next := by
  obtain ⟨read, rfl, hr⟩ := h.read
  obtain ⟨read', rfl, hr'⟩ := h'.read
  refine ⟨?_, read ++ read', (List.append_assoc ..).symm, ?_⟩
  · rw [h.visible, h'.visible, List.append_assoc]
  · intro hm
    rcases List.mem_append.1 hm with hm | hm
    · exact hr hm
    · exact hr' hm

/-- What has been seen comes first in what there is to see. -/
theorem isPrefix (h : Reads text seen rest) : seen <+: Reveal.visible text :=
  ⟨Reveal.visible rest, h.visible.symm⟩

end Reads

variable {c : Char} {cs rest : List Char}

theorem isPause_cons :
    isPause (c :: cs) = (c = '@' || c = '\n' || c = '\\' || (dropPause? (c :: cs)).isSome) := by
  rw [isPause, ← map_snd_inlineWait?, Option.isSome_map]

/-- Between two pauses every character is seen. -/
theorem reads_cons (h : isPause (c :: cs) = false) : Reads (c :: cs) [c] cs := by
  simp only [isPause_cons, Bool.or_eq_false_iff, decide_eq_false_iff_not,
    Option.isSome_eq_false_iff, Option.isNone_iff_eq_none] at h
  obtain ⟨⟨⟨ha, -⟩, hb⟩, hp⟩ := h
  refine ⟨visible_cons hb ha hp, [c], rfl, ?_⟩
  intro hm
  exact hb (List.mem_singleton.1 hm).symm

/-- A stretch is seen as it is. -/
theorem reads_stretch (cs : List Char) : Reads cs (stretch cs) (afterStretch cs) := by
  induction cs with
  | nil => exact .refl []
  | cons c cs ih =>
    cases h : isPause (c :: cs) with
    | true =>
      simp only [stretch, afterStretch, h, if_true]
      exact .refl _
    | false =>
      simp only [stretch, afterStretch, h, Bool.false_eq_true, if_false]
      exact (reads_cons h).trans ih

/-- At a timed pause there is nothing to see. -/
theorem reads_of_dropPause? (h : dropPause? cs = some rest) : Reads cs [] rest := by
  obtain ⟨read, hr, -, hb⟩ := dropPause?_eq_some h
  exact ⟨visible_of_dropPause? h, read, hr, hb⟩

theorem reads_at (cs : List Char) : Reads ('@' :: cs) [] cs := by
  refine ⟨visible_at cs, ['@'], rfl, by decide⟩

/-- The end of a line is seen. -/
theorem reads_newline (cs : List Char) : Reads ('\n' :: cs) ['\n'] cs := by
  have hp : dropPause? ('\n' :: cs) = none := by
    refine dropPause?_eq_none fun c rest he => ?_
    exact absurd (List.cons.inj he).1 (by decide)
  exact ⟨visible_cons (by decide) (by decide) hp, ['\n'], rfl, by decide⟩

/-! ### Scans -/

/-- What a scan says of the text: what is seen when it is done, and whether it ends the page. -/
theorem reads_scan {delay : Nat} {text : List Char} :
    match scan delay text with
    | .done => text = []
    | .wait _ rest => Reads text [] rest
    | .pause rest => Reads text [] rest
    | .lineBreak rest => Reads text ['\n'] rest
    | .pageBreak rest => text = '\\' :: rest
    | .emit token rest => Reads text token rest
    | .tick => atBoundary text = false := by
  cases text with
  | nil => rfl
  | cons c cs =>
    rw [scan]
    cases hw : inlineWait? (c :: cs) with
    | some x =>
      obtain ⟨d, rest⟩ := x
      refine reads_of_dropPause? ?_
      rw [← map_snd_inlineWait?, hw]
      rfl
    | none =>
      have hp : dropPause? (c :: cs) = none := by
        rw [← map_snd_inlineWait?, hw]
        rfl
      dsimp only
      by_cases ha : c = '@'
      · rw [if_pos ha, ha]
        exact reads_at cs
      · rw [if_neg ha]
        by_cases hn : c = '\n'
        · rw [if_pos hn, hn]
          exact reads_newline cs
        · rw [if_neg hn]
          by_cases hb : c = '\\'
          · rw [if_pos hb, hb]
          · rw [if_neg hb]
            by_cases hd : delay = 0
            · rw [if_pos hd]
              exact reads_stretch (c :: cs)
            · rw [if_neg hd]
              simp [atBoundary, isPause_cons, ha, hn, hb, hp]

end Novella.Reveal
