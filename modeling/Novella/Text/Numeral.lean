/-!
# Decimal numerals

Numerals are runs of ASCII digits with an optional sign. A signed numeral may begin with a plus or
a minus, an unsigned one with a plus only. Reading fails when there is no digit, when another
character occurs, and when the number does not fit the word it is read into.

## Main definitions

* `Numeral.integer?`, `Numeral.natural?` — numerals of any length
* `Numeral.int64?`, `Numeral.uint64?`, `Numeral.uint32?` — numerals that fit a word
* `Numeral.ofNat`, `Numeral.ofInt` — the shortest numeral of a number
-/

namespace Novella.Numeral

/-- The number that a nonempty run of digits stands for. -/
def digits? (cs : List Char) : Option Nat :=
  if cs ≠ [] ∧ cs.all Char.isDigit then some (Nat.ofDigitChars 10 cs 0) else none

/-- Reads an unsigned numeral. -/
def natural? : List Char → Option Nat
  | '+' :: cs => digits? cs
  | cs => digits? cs

/-- Reads a signed numeral. -/
def integer? : List Char → Option Int
  | '-' :: cs => (digits? cs).map (fun n => -(n : Int))
  | '+' :: cs => (digits? cs).map Int.ofNat
  | cs => (digits? cs).map Int.ofNat

/-- The 64-bit signed word of a number, if it fits. -/
def toInt64? (n : Int) : Option Int64 :=
  if Int64.minValue.toInt ≤ n ∧ n ≤ Int64.maxValue.toInt then some (Int64.ofInt n) else none

/-- The 64-bit unsigned word of a number, if it fits. -/
def toUInt64? (n : Nat) : Option UInt64 :=
  if n < UInt64.size then some (UInt64.ofNat n) else none

/-- The 32-bit unsigned word of a number, if it fits. -/
def toUInt32? (n : Nat) : Option UInt32 :=
  if n < UInt32.size then some (UInt32.ofNat n) else none

/-- Reads a signed numeral that fits 64 bits. -/
def int64? (cs : List Char) : Option Int64 := (integer? cs).bind toInt64?

/-- Reads an unsigned numeral that fits 64 bits. -/
def uint64? (cs : List Char) : Option UInt64 := (natural? cs).bind toUInt64?

/-- Reads an unsigned numeral that fits 32 bits. -/
def uint32? (cs : List Char) : Option UInt32 := (natural? cs).bind toUInt32?

/-- The decimal digits of a number, without leading zeros. -/
def ofNat (n : Nat) : List Char := Nat.toDigits 10 n

/-- The decimal digits of a number, after a minus if it is negative. -/
def ofInt : Int → List Char
  | .ofNat n => ofNat n
  | .negSucc n => '-' :: ofNat (n + 1)

/-- The hexadecimal digit of a number below 16, in lower case. -/
def hexDigit (n : Nat) : Char := Nat.digitChar n

/-- The number padded with zeros on the left to at least `width` digits. -/
def padded (width n : Nat) : List Char :=
  List.replicate (width - (ofNat n).length) '0' ++ ofNat n

theorem isDigit_of_mem_ofNat {n : Nat} {c : Char} (h : c ∈ ofNat n) : c.isDigit = true :=
  Nat.isDigit_of_mem_toDigits (by decide) (by decide) h

theorem digits?_ofNat (n : Nat) : digits? (ofNat n) = some n := by
  have hne : Nat.toDigits 10 n ≠ [] := by
    intro h
    have := Nat.length_toDigits_pos (b := 10) (n := n)
    simp [h] at this
  have hall : (Nat.toDigits 10 n).all Char.isDigit = true :=
    List.all_eq_true.2 (fun _ hc => isDigit_of_mem_ofNat hc)
  rw [digits?, ofNat, if_pos ⟨hne, hall⟩, Nat.ofDigitChars_toDigits (by decide) (by decide)]

theorem natural?_ofNat (n : Nat) : natural? (ofNat n) = some n := by
  unfold natural?
  split
  · -- a sign is no digit
    rename_i cs h
    have hplus := isDigit_of_mem_ofNat (n := n) (h ▸ List.mem_cons_self)
    exact absurd hplus (by decide)
  · exact digits?_ofNat n

theorem integer?_ofInt (n : Int) : integer? (ofInt n) = some n := by
  cases n with
  | negSucc n => simp [ofInt, integer?, digits?_ofNat, Int.negSucc_eq]
  | ofNat n =>
    simp only [ofInt]
    unfold integer?
    split
    · rename_i cs h
      have hminus := isDigit_of_mem_ofNat (n := n) (h ▸ List.mem_cons_self)
      exact absurd hminus (by decide)
    · rename_i cs h
      have hplus := isDigit_of_mem_ofNat (n := n) (h ▸ List.mem_cons_self)
      exact absurd hplus (by decide)
    · simp [digits?_ofNat]

/-- A numeral is made of digits, with a minus perhaps. -/
theorem all_ofInt (n : Int) : (ofInt n).all (fun c => c.isDigit || c = '-') = true := by
  have hnat (k : Nat) : (ofNat k).all (fun c => c.isDigit || c = '-') = true :=
    List.all_eq_true.2 fun c hc => by rw [isDigit_of_mem_ofNat hc, Bool.true_or]
  cases n with
  | ofNat k => exact hnat k
  | negSucc k => exact hnat (k + 1)

theorem int64?_ofInt (n : Int64) : int64? (ofInt n.toInt) = some n := by
  have hmin := n.minValue_le_toInt
  have hmax := n.toInt_le
  rw [int64?, integer?_ofInt, Option.bind_some, toInt64?, if_pos ⟨hmin, hmax⟩, Int64.ofInt_toInt]

end Novella.Numeral
