import Mathlib.Algebra.Group.Nat.Defs
import Novella.Date.Instant
import Novella.Proofs.Text.Trimming

/-!
# Written instants

An instant that is a moment of the calendar is read back from its written form, with all of its
nanoseconds. The written form has a part for each unit, and no two parts run together: each has as
many digits as it is read with, or is followed by a character that is no digit.

## Main definitions

* `Instant.IsMoment` — instants of the calendar

## Main results

* `Instant.number?_padded` — a padded number is read as it was written
* `Instant.read?_text` — a moment is read back from its text
* `Instant.isMoment_of_read?` — whatever is read is a moment
-/

namespace Novella

/-! ### Padded numerals -/

namespace Numeral

theorem isDigit_of_mem_padded {w n : Nat} {c : Char} (h : c ∈ padded w n) : c.isDigit = true := by
  rcases List.mem_append.1 h with h | h
  · rw [List.eq_of_mem_replicate h]
    rfl
  · exact isDigit_of_mem_ofNat h

theorem padded_ne_nil (w n : Nat) : padded w n ≠ [] :=
  List.append_ne_nil_of_right_ne_nil _ Nat.toDigits_ne_nil

theorem length_padded {w n : Nat} (hw : 0 < w) (hn : n < 10 ^ w) : (padded w n).length = w := by
  have hle : (ofNat n).length ≤ w := (Nat.length_toDigits_le_iff (by decide) hw).2 hn
  rw [padded, List.length_append, List.length_replicate, Nat.sub_add_cancel hle]

theorem ofDigitChars_padded (w n : Nat) : Nat.ofDigitChars 10 (padded w n) 0 = n := by
  rw [padded, Nat.ofDigitChars_append, Nat.ofDigitChars_replicate_zero, Nat.mul_zero, ofNat,
    Nat.ofDigitChars_ten_toDigits]

theorem digits?_eq {cs : List Char} (hne : cs ≠ []) (hd : ∀ c ∈ cs, c.isDigit = true) :
    digits? cs = some (Nat.ofDigitChars 10 cs 0) :=
  if_pos ⟨hne, List.all_eq_true.2 hd⟩

theorem digits?_padded (w n : Nat) : digits? (padded w n) = some n := by
  rw [digits?_eq (padded_ne_nil w n) fun _ => isDigit_of_mem_padded, ofDigitChars_padded]

end Numeral

namespace Instant

open Numeral

/-! ### Parts of a written instant -/

theorem trimStart_cons {c : Char} (h : Text.isBlank c = false) (cs : List Char) :
    Text.trimStart (c :: cs) = c :: cs :=
  List.dropWhile_cons_of_neg (by rw [h]; exact Bool.false_ne_true)

theorem trimStart_padded (w n : Nat) (rest : List Char) :
    Text.trimStart (padded w n ++ rest) = padded w n ++ rest := by
  obtain ⟨c, cs, hc⟩ := List.exists_cons_of_ne_nil (padded_ne_nil w n)
  have hdigit : c.isDigit = true := isDigit_of_mem_padded (hc ▸ List.mem_cons_self)
  rw [hc, List.cons_append, trimStart_cons (Text.isBlank_of_isDigit hdigit)]

/-- The digits of a padded number end where the number ends or where no more are read. -/
theorem number?_padded {w n k : Nat} {rest : List Char} (hk : (padded w n).length ≤ k)
    (hr : (rest.take (k - (padded w n).length)).takeWhile Char.isDigit = []) :
    number? k (padded w n ++ rest) = some (n, rest) := by
  have hdigits : ((padded w n ++ rest).take k).takeWhile Char.isDigit = padded w n := by
    rw [List.take_append, List.take_of_length_le hk,
      List.takeWhile_append_of_pos fun _ => isDigit_of_mem_padded, hr, List.append_nil]
  rw [number?, hdigits, digits?_padded, Option.map_some, List.drop_left]

theorem part?_padded {n : Nat} (hn : n < 100) (rest : List Char) :
    part? 2 (padded 2 n ++ rest) = some (n, rest) := by
  have hlen : (padded 2 n).length = 2 := length_padded (by decide) hn
  rw [part?, trimStart_padded]
  refine number?_padded (Nat.le_of_eq hlen) ?_
  rw [hlen]
  rfl

theorem separator?_cons {c : Char} (h : Text.isBlank c = false) (cs : List Char) :
    separator? c (c :: cs) = some cs := by
  rw [separator?, trimStart_cons h]
  exact if_pos rfl

/-- A year is read up to the separator, with its sign. -/
theorem year?_yearText (year : Int) (rest : List Char) :
    year? (yearText year ++ '-' :: rest) = some (year, '-' :: rest) := by
  -- after a sign all digits are read, and no digit follows them
  have hsigned : number? (padded 4 year.natAbs ++ '-' :: rest).length
      (padded 4 year.natAbs ++ '-' :: rest) = some (year.natAbs, '-' :: rest) := by
    have hle : (padded 4 year.natAbs).length ≤ (padded 4 year.natAbs ++ '-' :: rest).length := by
      rw [List.length_append]
      exact Nat.le_add_right _ _
    refine number?_padded hle ?_
    rw [List.length_append, Nat.add_sub_cancel_left, List.take_length]
    rfl
  rw [yearText]
  split
  · next h =>
    have hlen : (padded 4 year.toNat).length = 4 := length_padded (by decide) (by omega)
    have hread : number? 4 (padded 4 year.toNat ++ '-' :: rest) =
        some (year.toNat, '-' :: rest) := by
      refine number?_padded (Nat.le_of_eq hlen) ?_
      rw [hlen]
      rfl
    obtain ⟨c, cs, hc⟩ := List.exists_cons_of_ne_nil (padded_ne_nil 4 year.toNat)
    have hdigit : c.isDigit = true := isDigit_of_mem_padded (hc ▸ List.mem_cons_self)
    rw [year?, trimStart_padded]
    rw [hc, List.cons_append] at hread ⊢
    split
    · next heq => cases heq; exact absurd hdigit (by decide)
    · next heq => cases heq; exact absurd hdigit (by decide)
    · rw [hread, Option.map_some, Int.toNat_of_nonneg h.1]
  · next h =>
    by_cases hneg : year < 0
    · rw [if_pos hneg, List.cons_append, year?, trimStart_cons (by decide)]
      refine (congrArg (Option.map _) hsigned).trans ?_
      rw [Option.map_some, Int.ofNat_natAbs_of_nonpos (by omega), Int.neg_neg]
    · rw [if_neg hneg, List.cons_append, year?, trimStart_cons (by decide)]
      refine (congrArg (Option.map _) hsigned).trans ?_
      rw [Option.map_some, Int.natAbs_of_nonneg (by omega)]

theorem fraction?_padded {w m : Nat} (hw : 0 < w) (hw' : w ≤ 9) (hm : m < 10 ^ w)
    {c : Char} (hc : c.isDigit = false) (rest : List Char) :
    fraction? ('.' :: (padded w m ++ c :: rest)) = some (m * 10 ^ (9 - w), c :: rest) := by
  have hlen : (padded w m).length = w := length_padded hw hm
  have hdigits : (padded w m ++ c :: rest).takeWhile Char.isDigit = padded w m := by
    rw [List.takeWhile_append_of_pos fun _ => isDigit_of_mem_padded,
      List.takeWhile_cons_of_neg (by rw [hc]; exact Bool.false_ne_true), List.append_nil]
  have hall : ∀ d ∈ padded w m ++ List.replicate (9 - w) '0', d.isDigit = true := by
    intro d hd
    rcases List.mem_append.1 hd with hd | hd
    · exact isDigit_of_mem_padded hd
    · rw [List.eq_of_mem_replicate hd]
      rfl
  have hvalue : digits? (padded w m ++ List.replicate (9 - w) '0') = some (m * 10 ^ (9 - w)) := by
    rw [digits?_eq (List.append_ne_nil_of_left_ne_nil (padded_ne_nil w m) _) hall,
      Nat.ofDigitChars_append, ofDigitChars_padded, Nat.ofDigitChars_replicate_zero, Nat.mul_comm]
  rw [fraction?, hdigits, List.take_of_length_le (by omega), if_neg (padded_ne_nil w m), hlen,
    hvalue, Option.map_some, List.drop_left' hlen]

/-- The decimals are read as the nanoseconds that they were written for. -/
theorem fraction?_fractionText {n : Nat} (hn : n < 1000000000) :
    fraction? (fractionText n ++ ['Z']) = some (n, ['Z']) := by
  rw [fractionText]
  split
  · next h => rw [h]; rfl
  · split
    · next h =>
      rw [List.cons_append, fraction?_padded (by decide) (by decide) (by omega) (by decide)]
      exact congrArg (fun k => some (k, ['Z'])) (by omega)
    · split
      · next h =>
        rw [List.cons_append, fraction?_padded (by decide) (by decide) (by omega) (by decide)]
        exact congrArg (fun k => some (k, ['Z'])) (by omega)
      · rw [List.cons_append, fraction?_padded (by decide) (by decide) (by omega) (by decide)]
        exact congrArg (fun k => some (k, ['Z'])) (by omega)

/-! ### Moments -/

/-- The instant is a moment of the calendar. A leap second is the last one of its minute. -/
structure IsMoment (t : Instant) : Prop where
  /-- There is such a day. -/
  date : t.date.isValid = true
  /-- The day has such a second. -/
  second : t.second < 86400
  /-- The second has such a nanosecond. -/
  nano : t.nano < 1000000000 ∨ t.nano < 2000000000 ∧ t.second % 60 = 59

theorem date?_text {d : Date} (h : d.isValid = true) (rest : List Char) :
    date? (yearText d.year ++ '-' :: (padded 2 d.month ++ '-' :: (padded 2 d.day ++ rest))) =
      some (d, rest) := by
  have hparts : d.month < 100 ∧ d.day < 100 := by
    have hdays : Date.daysIn d.year d.month ≤ 31 := by
      unfold Date.daysIn
      split
      · split <;> omega
      · split <;> omega
    simp only [Date.isValid, Bool.and_eq_true, decide_eq_true_eq] at h
    omega
  simp only [date?, year?_yearText, separator?_cons (c := '-') (by decide), part?_padded hparts.1,
    part?_padded hparts.2, Option.bind_eq_bind, Option.bind_some, h, if_true]

/-- A time of day as it is written, from its hour, minute, second of the minute and nanosecond. -/
def timeText (hour minute second nano : Nat) : List Char :=
  padded 2 hour ++ ':' :: (padded 2 minute ++ ':' :: (padded 2 second ++
    (fractionText nano ++ ['Z'])))

theorem time?_timeText {hour minute second nano : Nat} (hhour : hour < 24)
    (hminute : minute < 60) (hsecond : second < 60) (hnano : nano < 1000000000) :
    time? (timeText hour minute second nano) =
      some ((hour * 3600 + minute * 60 + second, nano), ['Z']) := by
  simp only [timeText, time?, part?_padded (Nat.lt_trans hhour (by decide : 24 < 100)),
    part?_padded (Nat.lt_trans hminute (by decide : 60 < 100)),
    part?_padded (Nat.lt_trans hsecond (by decide : 60 < 100)),
    separator?_cons (c := ':') (by decide), fraction?_fractionText hnano, Option.bind_eq_bind,
    Option.bind_some]
  rw [if_neg (by omega), if_neg (Nat.ne_of_lt hsecond)]

/-- The sixtieth second is read as a leap second. -/
theorem time?_timeText_leap {hour minute nano : Nat} (hhour : hour < 24)
    (hminute : minute < 60) (hnano : nano < 1000000000) :
    time? (timeText hour minute 60 nano) =
      some ((hour * 3600 + minute * 60 + 59, nano + 1000000000), ['Z']) := by
  simp only [timeText, time?, part?_padded (Nat.lt_trans hhour (by decide : 24 < 100)),
    part?_padded (Nat.lt_trans hminute (by decide : 60 < 100)),
    part?_padded (by decide : 60 < 100),
    separator?_cons (c := ':') (by decide), fraction?_fractionText hnano, Option.bind_eq_bind,
    Option.bind_some]
  rw [if_neg (by omega), if_pos trivial]

theorem text_eq (t : Instant) :
    t.text = yearText t.date.year ++ '-' :: (padded 2 t.date.month ++ '-' ::
      (padded 2 t.date.day ++ 'T' :: timeText (t.second / 3600) (t.second / 60 % 60)
        (t.second % 60 + (if 1000000000 ≤ t.nano then 1 else 0))
        (if 1000000000 ≤ t.nano then t.nano - 1000000000 else t.nano))) := by
  simp only [text, timeText, List.append_assoc, List.cons_append]

/-- The time of a moment is read back, a leap second from the sixtieth of its minute. -/
theorem time?_text {t : Instant} (h : t.IsMoment) :
    time? (timeText (t.second / 3600) (t.second / 60 % 60)
      (t.second % 60 + (if 1000000000 ≤ t.nano then 1 else 0))
      (if 1000000000 ≤ t.nano then t.nano - 1000000000 else t.nano)) =
      some ((t.second, t.nano), ['Z']) := by
  have hsecond := h.second
  have hnano := h.nano
  have hhour : t.second / 3600 < 24 := by omega
  have hminute : t.second / 60 % 60 < 60 := Nat.mod_lt _ (by decide)
  have hclock : t.second / 3600 * 3600 + t.second / 60 % 60 * 60 + t.second % 60 = t.second := by
    omega
  by_cases hleap : 1000000000 ≤ t.nano
  · have hlast : t.second % 60 = 59 := by omega
    rw [if_pos hleap, if_pos hleap, hlast, time?_timeText_leap hhour hminute (by omega),
      Nat.sub_add_cancel hleap, ← hlast, hclock]
  · rw [if_neg hleap, if_neg hleap, Nat.add_zero,
      time?_timeText hhour hminute (Nat.mod_lt _ (by decide)) (by omega), hclock]

theorem before_zero {t : Instant} (h : t.IsMoment) :
    before t.date t.second t.nano 0 = some t := by
  have hsecond := h.second
  have hlow : ¬ ((t.second : Int) - 0 < 0) := by omega
  have hhigh : ¬ (86400 ≤ (t.second : Int) - 0) := by omega
  simp only [before, hlow, hhigh, if_false]
  rw [Int.sub_zero, Int.toNat_natCast]
  exact if_pos h.date

/-- A moment is read back from its text. -/
theorem read?_text {t : Instant} (h : t.IsMoment) : read? (String.ofList t.text) = some t := by
  have hoffset : offset? (Text.trimStart ['Z']) = some (0, []) := rfl
  simp only [read?, String.toList_ofList, text_eq, date?_text h.date, Option.bind_eq_bind,
    Option.bind_some, true_or, if_true, time?_text h, hoffset]
  exact before_zero h

/-! ### Whatever is read -/

theorem ofDigitChars_lt {cs : List Char} (h : ∀ c ∈ cs, c.isDigit = true) :
    Nat.ofDigitChars 10 cs 0 < 10 ^ cs.length := by
  induction cs with
  | nil => exact Nat.one_pos
  | cons c cs ih =>
    have hdigit : c.toNat ≤ 57 := by
      have := h c List.mem_cons_self
      simp only [Char.isDigit, Bool.and_eq_true, decide_eq_true_eq, ge_iff_le,
        UInt32.le_iff_toNat_le] at this
      exact this.2
    have hrest := ih fun d hd => h d (List.mem_cons_of_mem c hd)
    have hzero : '0'.toNat = 48 := rfl
    rw [Nat.ofDigitChars_cons, Nat.ofDigitChars_eq_ofDigitChars_zero, List.length_cons,
      Nat.pow_succ, Nat.mul_zero, Nat.zero_add, hzero]
    have hfirst : 10 ^ cs.length * (c.toNat - 48) ≤ 10 ^ cs.length * 9 :=
      Nat.mul_le_mul_left _ (by omega)
    omega

/-- Nine decimals at most are read as nanoseconds. -/
theorem lt_of_fraction? {cs rest : List Char} {nano : Nat}
    (h : fraction? cs = some (nano, rest)) : nano < 1000000000 := by
  unfold fraction? at h
  split at h
  · next cs =>
    dsimp only at h
    split at h
    · cases h
    · obtain ⟨n, hread, hn⟩ := Option.map_eq_some_iff.1 h
      obtain ⟨rfl, -⟩ := Prod.mk.inj hn
      obtain ⟨⟨-, hall⟩, hvalue⟩ := Option.ite_none_right_eq_some.1 hread
      obtain rfl := Option.some.inj hvalue
      refine Nat.lt_of_lt_of_eq (ofDigitChars_lt (List.all_eq_true.1 hall)) ?_
      refine (congrArg (10 ^ ·) ?_).trans (b := 10 ^ 9) rfl
      rw [List.length_append, List.length_replicate, Nat.add_sub_cancel' (List.length_take_le ..)]
  · cases h
    decide

/-- The time that is read is a time of day. -/
theorem of_time? {cs rest : List Char} {second nano : Nat}
    (h : time? cs = some ((second, nano), rest)) :
    second < 86400 ∧ (nano < 1000000000 ∨ nano < 2000000000 ∧ second % 60 = 59) := by
  simp only [time?, Option.bind_eq_bind, Option.bind_eq_some_iff, Prod.exists] at h
  obtain ⟨hour, _, _, _, _, minute, _, _, _, _, unit, _, _, n, _, hfraction, h⟩ := h
  have hnano := lt_of_fraction? hfraction
  split at h
  · cases h
  · split at h
    · cases h
      omega
    · cases h
      omega

/-- An offset is less than a day, in whole minutes. -/
theorem of_offset? {cs rest : List Char} {offset : Int} (h : offset? cs = some (offset, rest)) :
    -86400 < offset ∧ offset < 86400 ∧ offset % 60 = 0 := by
  unfold offset? at h
  split at h
  · cases h
  · split at h
    · cases h
      decide
    · split at h
      · cases h
        decide
      · split at h
        · simp only [Option.bind_eq_bind, Option.bind_eq_some_iff, Prod.exists] at h
          obtain ⟨hours, _, _, minutes, _, _, h⟩ := h
          split at h
          · cases h
          · cases h
            split <;> omega
        · cases h

theorem of_before {date : Date} {second nano : Nat} {offset : Int} {t : Instant}
    (h : before date second nano offset = some t) (hsecond : second < 86400)
    (hoffset : -86400 < offset ∧ offset < 86400 ∧ offset % 60 = 0) :
    t.date.isValid = true ∧ t.second < 86400 ∧ t.nano = nano ∧ t.second % 60 = second % 60 := by
  simp only [before] at h
  obtain ⟨hdate, hmoment⟩ := Option.ite_none_right_eq_some.1 h
  obtain rfl := Option.some.inj hmoment
  refine ⟨hdate, ?_⟩
  split
  · refine ⟨?_, rfl, ?_⟩ <;> dsimp only <;> omega
  · split
    · refine ⟨?_, rfl, ?_⟩ <;> dsimp only <;> omega
    · refine ⟨?_, rfl, ?_⟩ <;> dsimp only <;> omega

/-- Whatever is read is a moment. -/
theorem isMoment_of_read? {s : String} {t : Instant} (h : read? s = some t) : t.IsMoment := by
  simp only [read?, Option.bind_eq_bind, Option.bind_eq_some_iff, Prod.exists] at h
  obtain ⟨date, cs, -, h⟩ := h
  split at h
  · split at h
    · simp only [Option.bind_eq_some_iff, Prod.exists] at h
      obtain ⟨second, nano, cs, htime, offset, cs', hoffset, h⟩ := h
      obtain ⟨-, hbefore⟩ := Option.ite_none_right_eq_some.1 h
      have hclock := of_time? htime
      obtain ⟨hdate, hsecond, hnano, hunit⟩ := of_before hbefore hclock.1 (of_offset? hoffset)
      exact ⟨hdate, hsecond, by rw [hnano, hunit]; exact hclock.2⟩
    · cases h
  · cases h

end Instant

end Novella
