import Mathlib.Data.List.Basic
import Mathlib.Data.List.TakeWhile
import Novella.Text.Blank
import Novella.Text.Numeral

/-!
# Trimmed texts

A text is trimmed when no blank stands at either end. Trimming leaves a trimmed text alone and makes
any other text one. Blanks in front of a text or behind it make no difference to what is left of it,
and nothing at all is left of a text only if it is blank.

## Main definitions

* `Text.IsTrimmed` — no blank stands at an end

## Main results

* `Text.isTrimmed_trim`, `Text.trim_of_isTrimmed` — trimming makes a text trimmed, once and for all
* `Text.trim_blanks_append`, `Text.trim_append_blanks` — blanks at an end make no difference
* `Text.trim_eq_nil_iff` — what is trimmed away altogether
-/

namespace Novella.Text

variable {cs ds blanks : List Char} {c : Char}

/-! ### Blanks at the end -/

/-- No blank stands at the end of a trimmed text. -/
theorem isBlank_getLast?_trim : ∀ c ∈ (trim cs).getLast?, isBlank c = false := by
  intro c hc
  rw [trim, trimEnd, List.getLast?_reverse] at hc
  have hhead := List.head?_dropWhile_not isBlank (trimStart cs).reverse
  rw [Option.mem_def.1 hc] at hhead
  simpa using hhead

theorem trimEnd_eq_self (h : ∀ c ∈ cs.getLast?, isBlank c = false) : trimEnd cs = cs := by
  rw [trimEnd]
  cases hcs : cs.reverse with
  | nil => rw [List.dropWhile_nil, ← hcs, List.reverse_reverse]
  | cons c ds =>
    have hc : isBlank c = false := h c (by rw [← List.head?_reverse, hcs]; rfl)
    rw [List.dropWhile_cons_of_neg (by simp [hc]), ← hcs, List.reverse_reverse]

theorem isBlank_getLast?_of_suffix (h : ∀ c ∈ cs.getLast?, isBlank c = false)
    (hs : ds <:+ cs) : ∀ c ∈ ds.getLast?, isBlank c = false := by
  obtain ⟨front, rfl⟩ := hs
  intro c hc
  refine h c ?_
  rw [Option.mem_def, List.getLast?_append, Option.mem_def.1 hc]
  rfl

/-- If no blank stands at the end, only the blanks at the front are trimmed. -/
theorem exists_gap (h : ∀ c ∈ cs.getLast?, isBlank c = false) :
    ∃ gap, (∀ c ∈ gap, isBlank c = true) ∧ cs = gap ++ trim cs := by
  refine ⟨cs.takeWhile isBlank, fun _ => List.mem_takeWhile_imp, ?_⟩
  have hend := isBlank_getLast?_of_suffix h (List.dropWhile_suffix isBlank)
  rw [trim, trimStart, trimEnd_eq_self hend, List.takeWhile_append_dropWhile]

theorem getLast?_trim (h : cs.getLast? = some c) (hc : isBlank c = false) :
    (trim cs).getLast? = some c := by
  have hend : ∀ d ∈ cs.getLast?, isBlank d = false := fun d hd => by
    rwa [← Option.some.inj (h.symm.trans hd)]
  obtain ⟨gap, hgap, heq⟩ := exists_gap hend
  rw [heq, List.getLast?_append] at h
  cases hlast : (trim cs).getLast? with
  | some d => simpa [hlast] using h
  | none =>
    rw [hlast, Option.none_or] at h
    rw [hgap c (List.mem_of_getLast? h)] at hc
    cases hc

/-! ### What is left -/

theorem trimEnd_isPrefix (cs : List Char) : trimEnd cs <+: cs := by
  have hs := List.dropWhile_suffix (l := cs.reverse) isBlank
  rwa [← List.reverse_prefix, List.reverse_reverse] at hs

theorem length_trim_le (cs : List Char) : (trim cs).length ≤ cs.length :=
  (trimEnd_isPrefix _).length_le.trans (List.dropWhile_suffix _).length_le

theorem mem_of_mem_trim (h : c ∈ trim cs) : c ∈ cs :=
  (List.dropWhile_suffix _).mem ((trimEnd_isPrefix _).mem h)

/-- No character that is not blank is trimmed away. -/
theorem mem_trim (h : c ∈ cs) (hc : isBlank c = false) : c ∈ trim cs := by
  have hdrop {ds : List Char} (hd : c ∈ ds) : c ∈ ds.dropWhile isBlank := by
    rw [← List.takeWhile_append_dropWhile (p := isBlank) (l := ds)] at hd
    refine (List.mem_append.1 hd).resolve_left fun hblank => ?_
    rw [List.mem_takeWhile_imp hblank] at hc
    cases hc
  exact List.mem_reverse.2 (hdrop (List.mem_reverse.2 (hdrop h)))

/-- A text without its blank ends begins with a character that is not blank. -/
theorem isBlank_of_trim_eq_cons (h : trim cs = c :: ds) : isBlank c = false := by
  obtain ⟨more, hmore⟩ := (show trim cs <+: trimStart cs from trimEnd_isPrefix _)
  rw [h] at hmore
  have hhead := List.head?_dropWhile_not isBlank cs
  rw [show cs.dropWhile isBlank = c :: (ds ++ more) from hmore.symm] at hhead
  simpa using hhead

/-! ### Trimmed texts -/

/-- No blank stands at the front of the text, and none at the end. -/
structure IsTrimmed (cs : List Char) : Prop where
  /-- Not at the front. -/
  front : ∀ c ∈ cs.head?, isBlank c = false
  /-- Not at the end. -/
  back : ∀ c ∈ cs.getLast?, isBlank c = false

instance (cs : List Char) : Decidable (IsTrimmed cs) :=
  decidable_of_iff (cs.head?.all (!isBlank ·) ∧ cs.getLast?.all (!isBlank ·)) <| by
    simp only [Option.all_eq_true, Bool.not_eq_true']
    exact ⟨fun h => ⟨h.1, h.2⟩, fun h => ⟨h.front, h.back⟩⟩

theorem isTrimmed_trim (cs : List Char) : IsTrimmed (trim cs) := by
  refine ⟨fun c hc => ?_, isBlank_getLast?_trim⟩
  cases htrim : trim cs with
  | nil => simp [htrim] at hc
  | cons d ds =>
    obtain rfl : d = c := by simpa [htrim] using hc
    exact isBlank_of_trim_eq_cons htrim

theorem trim_of_isTrimmed (h : IsTrimmed cs) : trim cs = cs := by
  have hstart : trimStart cs = cs := by
    cases cs with
    | nil => rfl
    | cons c cs => exact List.dropWhile_cons_of_neg (by simp [h.front c rfl])
  rw [trim, hstart, trimEnd_eq_self h.back]

/-- Neither end of the text is blank, so nothing is trimmed. -/
theorem trim_eq_self (h : ∀ c ∈ cs, isBlank c = false) : trim cs = cs :=
  trim_of_isTrimmed ⟨fun c hc => h c (List.mem_of_head? hc),
    fun c hc => h c (List.mem_of_getLast? hc)⟩

/-! ### Blanks around a text -/

theorem trimStart_eq_nil (h : ∀ c ∈ cs, isBlank c = true) : trimStart cs = [] := by
  rw [← List.append_nil cs, trimStart, List.dropWhile_append_of_pos h]
  rfl

theorem trimEnd_append_blanks (h : ∀ c ∈ blanks, isBlank c = true) :
    trimEnd (cs ++ blanks) = trimEnd cs := by
  rw [trimEnd, List.reverse_append,
    List.dropWhile_append_of_pos fun c hc => h c (List.mem_reverse.1 hc), trimEnd]

/-- Blanks in front make no difference. -/
theorem trim_blanks_append (h : ∀ c ∈ blanks, isBlank c = true) :
    trim (blanks ++ cs) = trim cs := by
  rw [trim, trimStart, List.dropWhile_append_of_pos h, trim, trimStart]

/-- Blanks behind make no difference. -/
theorem trim_append_blanks (h : ∀ c ∈ blanks, isBlank c = true) :
    trim (cs ++ blanks) = trim cs := by
  rw [trim, trimStart, List.dropWhile_append]
  split
  · next hcs =>
    have hstart : trimStart cs = [] := List.isEmpty_iff.1 hcs
    rw [trim, hstart, show blanks.dropWhile isBlank = [] from trimStart_eq_nil h]
  · rw [trimEnd_append_blanks h, trim, trimStart]

/-- Only blanks are trimmed away altogether. -/
theorem trim_eq_nil_iff : trim cs = [] ↔ ∀ c ∈ cs, isBlank c = true := by
  refine ⟨fun h c hc => ?_, fun h => ?_⟩
  · by_contra hblank
    have hleft := mem_trim hc (Bool.not_eq_true _ ▸ hblank)
    rw [h] at hleft
    exact absurd hleft List.not_mem_nil
  · rw [trim, trimStart_eq_nil h]
    rfl

/-! ### Numerals -/

theorem isBlank_of_isDigit (h : c.isDigit = true) : isBlank c = false := by
  have hc : 48 ≤ c.toNat ∧ c.toNat ≤ 57 := by
    simpa [Char.isDigit, UInt32.le_iff_toNat_le] using h
  simp only [isBlank, Bool.or_eq_false_iff, Bool.and_eq_false_iff, decide_eq_false_iff_not]
  omega

end Novella.Text

namespace Novella.Numeral

theorem isBlank_of_mem_ofInt {z : Int} {c : Char} (h : c ∈ ofInt z) : Text.isBlank c = false := by
  have hall := List.all_eq_true.1 (all_ofInt z) c h
  rw [Bool.or_eq_true, decide_eq_true_eq] at hall
  rcases hall with hd | rfl
  · exact Text.isBlank_of_isDigit hd
  · rfl

/-- A numeral has no blanks to be trimmed. -/
theorem trim_ofInt (z : Int) : Text.trim (ofInt z) = ofInt z :=
  Text.trim_eq_self fun _ => isBlank_of_mem_ofInt

end Novella.Numeral
