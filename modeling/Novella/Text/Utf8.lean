/-!
# Characters from bytes

UTF-8 is decoded one character at a time. A byte that begins no character stands for itself as an
unreadable place and decoding goes on with the next byte, so the ASCII characters around it are
still found.

## Main definitions

* `Utf8.decode` — characters and unreadable bytes, in order
* `Utf8.decode?` — the text, if every byte is readable
* `Utf8.encode` — the bytes of a text
-/

namespace Novella.Utf8

/-- The payload of a continuation byte. -/
def continuation? (b : UInt8) : Option Nat :=
  if 0x80 ≤ b ∧ b ≤ 0xBF then some (b.toNat - 0x80) else none

/-- The character with code point `n`, if it needs at least the length it was written with. -/
def scalar? (least n : Nat) : Option Char :=
  if h : n.isValidChar then if least ≤ n then some (Char.ofNatAux n h) else none else none

/-- The character whose bytes the list begins with, and the number of bytes after the first. -/
def first? : List UInt8 → Option (Char × Nat)
  | [] => none
  | a :: rest =>
    if a < 0x80 then some (Char.ofNat a.toNat, 0)
    else if 0xC2 ≤ a ∧ a ≤ 0xDF then
      match rest with
      | b :: _ => do
        let y ← continuation? b
        let c ← scalar? 0x80 ((a.toNat - 0xC0) * 64 + y)
        return (c, 1)
      | _ => none
    else if 0xE0 ≤ a ∧ a ≤ 0xEF then
      match rest with
      | b :: c :: _ => do
        let y ← continuation? b
        let z ← continuation? c
        let c ← scalar? 0x800 (((a.toNat - 0xE0) * 64 + y) * 64 + z)
        return (c, 2)
      | _ => none
    else if 0xF0 ≤ a ∧ a ≤ 0xF4 then
      match rest with
      | b :: c :: d :: _ => do
        let y ← continuation? b
        let z ← continuation? c
        let w ← continuation? d
        let c ← scalar? 0x10000 ((((a.toNat - 0xF0) * 64 + y) * 64 + z) * 64 + w)
        return (c, 3)
      | _ => none
    else none

/-- The characters of the bytes, `none` in the place of an unreadable byte. -/
def decode (bytes : List UInt8) : List (Option Char) :=
  go bytes 0
where
  /-- Passes over the `pending` bytes that belong to the character before. -/
  go : List UInt8 → Nat → List (Option Char)
    | [], _ => []
    | _ :: bs, pending + 1 => go bs pending
    | b :: bs, 0 =>
      match first? (b :: bs) with
      | some (c, n) => some c :: go bs n
      | none => none :: go bs 0

/-- The text of the bytes, if they are well-formed UTF-8 throughout. -/
def decode? (bytes : List UInt8) : Option String :=
  ((decode bytes).mapM id).map String.ofList

/-- The bytes of a text. -/
def encode (s : String) : List UInt8 := s.toUTF8.toList

end Novella.Utf8
