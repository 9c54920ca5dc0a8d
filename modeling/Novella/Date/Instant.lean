import Novella.Text.Blank
import Novella.Text.Numeral

/-!
# Instants

An instant is a moment in Universal Time, to the nanosecond, on the proleptic Gregorian calendar. A
leap second is the second before it with a thousand million nanoseconds more.

An instant is read from a date, a time and an offset as RFC 3339 has them, with some freedom: blanks
may stand around the parts, numbers may be short, and years may have a sign and more than four
digits. It is written with `Z` for the offset and with as many groups of three decimals as are
needed.

## Main definitions

* `Date`, `Instant` — days and moments
* `Instant.precedes` — the order of moments
* `Instant.read?`, `Instant.text` — the written form
-/

namespace Novella

/-- A day of the calendar. -/
structure Date where
  /-- The year, which may be zero or negative. -/
  year : Int
  /-- The month, from 1. -/
  month : Nat
  /-- The day of the month, from 1. -/
  day : Nat
deriving DecidableEq, Repr

namespace Date

/-- Whether the year has a 29th of February. -/
def isLeap (year : Int) : Bool := year % 4 = 0 && (year % 100 ≠ 0 || year % 400 = 0)

/-- The number of days of a month. -/
def daysIn (year : Int) (month : Nat) : Nat :=
  if month = 2 then if isLeap year then 29 else 28
  else if month = 4 ∨ month = 6 ∨ month = 9 ∨ month = 11 then 30
  else 31

/-- The first year of the calendar. -/
def firstYear : Int := -262143

/-- The last year of the calendar. -/
def lastYear : Int := 262142

/-- Whether there is such a day. -/
def isValid (d : Date) : Bool :=
  firstYear ≤ d.year && d.year ≤ lastYear && 1 ≤ d.month && d.month ≤ 12
    && 1 ≤ d.day && d.day ≤ daysIn d.year d.month

/-- The day after. -/
def next (d : Date) : Date :=
  if d.day < daysIn d.year d.month then { d with day := d.day + 1 }
  else if d.month < 12 then ⟨d.year, d.month + 1, 1⟩
  else ⟨d.year + 1, 1, 1⟩

/-- The day before. -/
def previous (d : Date) : Date :=
  if 1 < d.day then { d with day := d.day - 1 }
  else if 1 < d.month then ⟨d.year, d.month - 1, daysIn d.year (d.month - 1)⟩
  else ⟨d.year - 1, 12, 31⟩

end Date

/-- A moment in Universal Time. -/
structure Instant where
  /-- The day. -/
  date : Date
  /-- The second of the day, from 0. -/
  second : Nat
  /-- The nanosecond, which passes 999999999 in a leap second. -/
  nano : Nat
deriving DecidableEq, Repr

namespace Instant

instance : Inhabited Instant := ⟨⟨⟨1970, 1, 1⟩, 0, 0⟩⟩

/-- The parts of an instant, largest first. -/
def parts (t : Instant) : List Int :=
  [t.date.year, t.date.month, t.date.day, t.second, t.nano]

/-- Whether the first instant is earlier than the second. -/
def precedes (s t : Instant) : Bool := s.parts < t.parts

/-- The instant that many seconds and nanoseconds after the beginning of 1970. -/
def ofEpoch (seconds nano : Nat) : Instant :=
  ⟨Nat.repeat Date.next (seconds / 86400) ⟨1970, 1, 1⟩, seconds % 86400, nano⟩

/-- The instant a nanosecond later. -/
def tick (t : Instant) : Instant :=
  if t.nano + 1 < 1000000000 then { t with nano := t.nano + 1 }
  else if t.second + 1 < 86400 then ⟨t.date, t.second + 1, 0⟩
  else ⟨t.date.next, 0, 0⟩

/-! ### Writing -/

/-- The year with at least four digits, and with a sign if four digits are not enough. -/
def yearText (year : Int) : List Char :=
  if 0 ≤ year ∧ year ≤ 9999 then Numeral.padded 4 year.toNat
  else (if year < 0 then '-' else '+') :: Numeral.padded 4 year.natAbs

/-- The decimals of a second: none, three, six or nine. -/
def fractionText (nano : Nat) : List Char :=
  if nano = 0 then []
  else if nano % 1000000 = 0 then '.' :: Numeral.padded 3 (nano / 1000000)
  else if nano % 1000 = 0 then '.' :: Numeral.padded 6 (nano / 1000)
  else '.' :: Numeral.padded 9 nano

/-- The written form. A leap second is the sixtieth of its minute. -/
def text (t : Instant) : List Char :=
  let leap := 1000000000 ≤ t.nano
  let second := t.second % 60 + (if leap then 1 else 0)
  let nano := if leap then t.nano - 1000000000 else t.nano
  yearText t.date.year ++ '-' :: Numeral.padded 2 t.date.month ++ '-' ::
    Numeral.padded 2 t.date.day ++ 'T' :: Numeral.padded 2 (t.second / 3600) ++ ':' ::
    Numeral.padded 2 (t.second / 60 % 60) ++ ':' :: Numeral.padded 2 second ++
    fractionText nano ++ ['Z']

/-! ### Reading -/

/-- Reads one to `width` digits. -/
def number? (width : Nat) (cs : List Char) : Option (Nat × List Char) :=
  let digits := (cs.take width).takeWhile Char.isDigit
  (Numeral.digits? digits).map (fun n => (n, cs.drop digits.length))

/-- Reads one to `width` digits after blanks. -/
def part? (width : Nat) (cs : List Char) : Option (Nat × List Char) :=
  number? width (Text.trimStart cs)

/-- Reads a year: up to four digits, or any number of digits after a sign. -/
def year? (cs : List Char) : Option (Int × List Char) :=
  match Text.trimStart cs with
  | '-' :: cs => (number? cs.length cs).map (fun r => (-(r.1 : Int), r.2))
  | '+' :: cs => (number? cs.length cs).map (fun r => ((r.1 : Int), r.2))
  | cs => (number? 4 cs).map (fun r => ((r.1 : Int), r.2))

/-- Reads a separator after blanks. -/
def separator? (c : Char) (cs : List Char) : Option (List Char) :=
  match Text.trimStart cs with
  | d :: cs => if d = c then some cs else none
  | [] => none

/-- Reads a date. -/
def date? (cs : List Char) : Option (Date × List Char) := do
  let (year, cs) ← year? cs
  let (month, cs) ← part? 2 (← separator? '-' cs)
  let (day, cs) ← part? 2 (← separator? '-' cs)
  let date : Date := ⟨year, month, day⟩
  if date.isValid then some (date, cs) else none

/-- Reads the decimals of a second as nanoseconds; the tenth and later ones are passed over. -/
def fraction? (cs : List Char) : Option (Nat × List Char) :=
  match cs with
  | '.' :: cs =>
    let digits := cs.takeWhile Char.isDigit
    let used := digits.take 9
    if used = [] then none
    else
      (Numeral.digits? (used ++ List.replicate (9 - used.length) '0')).map
        (·, cs.drop digits.length)
  | cs => some (0, cs)

/-- Reads a time of day as its second and nanosecond. The sixtieth second is a leap second. -/
def time? (cs : List Char) : Option ((Nat × Nat) × List Char) := do
  let (hour, cs) ← part? 2 cs
  let (minute, cs) ← part? 2 (← separator? ':' cs)
  let (second, cs) ← part? 2 (← separator? ':' cs)
  let (nano, cs) ← fraction? cs
  if 23 < hour ∨ 59 < minute ∨ 60 < second then none
  else if second = 60 then some ((hour * 3600 + minute * 60 + 59, nano + 1000000000), cs)
  else some ((hour * 3600 + minute * 60 + second, nano), cs)

/-- Reads two digits. -/
def twoDigits? : List Char → Option (Nat × List Char)
  | a :: b :: cs =>
    if a.isDigit ∧ b.isDigit then some (Nat.ofDigitChars 10 [a, b] 0, cs) else none
  | _ => none

/-- Reads an offset from Universal Time in seconds, less than a day in size. -/
def offset? (cs : List Char) : Option (Int × List Char) :=
  match cs with
  | [] => none
  | c :: rest =>
    if (cs.take 3).map Char.toUpper = ['U', 'T', 'C'] then some (0, cs.drop 3)
    else if c = 'Z' ∨ c = 'z' then some (0, rest)
    else if c = '+' ∨ c = '-' ∨ c = '−' then do
      let (hours, rest) ← twoDigits? rest
      let (minutes, rest) ← twoDigits? (rest.dropWhile (fun c => c = ':' || Text.isBlank c))
      if 59 < minutes ∨ 23 < hours then none
      else
        let size : Int := hours * 3600 + minutes * 60
        some (if c = '+' then size else -size, rest)
    else none

/-- The instant that is `offset` seconds before the given moment, if it is on the calendar. -/
def before (date : Date) (second : Nat) (nano : Nat) (offset : Int) : Option Instant :=
  let s := (second : Int) - offset
  let t : Instant :=
    if s < 0 then ⟨date.previous, (s + 86400).toNat, nano⟩
    else if 86400 ≤ s then ⟨date.next, (s - 86400).toNat, nano⟩
    else ⟨date, s.toNat, nano⟩
  if t.date.isValid then some t else none

/-- Reads an instant, which is to be the whole text. -/
def read? (s : String) : Option Instant := do
  let (date, cs) ← date? s.toList
  match cs with
  | c :: cs =>
    if c = 'T' ∨ c = 't' ∨ c = ' ' then
      let ((second, nano), cs) ← time? cs
      let (offset, cs) ← offset? (Text.trimStart cs)
      if Text.trimStart cs = [] then before date second nano offset else none
    else none
  | [] => none

end Instant

end Novella
