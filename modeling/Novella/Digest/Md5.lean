import Novella.Text.Numeral

/-!
# MD5

The message digest of RFC 1321: the message is padded to whole blocks of sixty-four bytes, and each
block turns a state of four 32-bit words by sixty-four operations.

## Main definitions

* `Md5.digest` — the sixteen bytes of a message's digest
* `Md5.hex` — the digest as lower-case hexadecimal digits
-/

namespace Novella.Md5

/-- The four words of the state. -/
structure State where
  /-- The first word. -/
  a : UInt32
  /-- The second word. -/
  b : UInt32
  /-- The third word. -/
  c : UInt32
  /-- The fourth word. -/
  d : UInt32
deriving DecidableEq, Repr

/-- The state before the first block. -/
def State.start : State := ⟨0x67452301, 0xefcdab89, 0x98badcfe, 0x10325476⟩

/-- The words of two states added one by one. -/
def State.plus (s t : State) : State := ⟨s.a + t.a, s.b + t.b, s.c + t.c, s.d + t.d⟩

/-- The constants of the operations: the first 32 bits after the point of the sines of 1 to 64. -/
def sines : Array UInt32 :=
  #[0xd76aa478, 0xe8c7b756, 0x242070db, 0xc1bdceee, 0xf57c0faf, 0x4787c62a, 0xa8304613, 0xfd469501,
    0x698098d8, 0x8b44f7af, 0xffff5bb1, 0x895cd7be, 0x6b901122, 0xfd987193, 0xa679438e, 0x49b40821,
    0xf61e2562, 0xc040b340, 0x265e5a51, 0xe9b6c7aa, 0xd62f105d, 0x02441453, 0xd8a1e681, 0xe7d3fbc8,
    0x21e1cde6, 0xc33707d6, 0xf4d50d87, 0x455a14ed, 0xa9e3e905, 0xfcefa3f8, 0x676f02d9, 0x8d2a4c8a,
    0xfffa3942, 0x8771f681, 0x6d9d6122, 0xfde5380c, 0xa4beea44, 0x4bdecfa9, 0xf6bb4b60, 0xbebfbc70,
    0x289b7ec6, 0xeaa127fa, 0xd4ef3085, 0x04881d05, 0xd9d4d039, 0xe6db99e5, 0x1fa27cf8, 0xc4ac5665,
    0xf4292244, 0x432aff97, 0xab9423a7, 0xfc93a039, 0x655b59c3, 0x8f0ccc92, 0xffeff47d, 0x85845dd1,
    0x6fa87e4f, 0xfe2ce6e0, 0xa3014314, 0x4e0811a1, 0xf7537e82, 0xbd3af235, 0x2ad7d2bb, 0xeb86d391]

/-- How far each operation rotates, by its round and its place in a group of four. -/
def rotations : Array UInt32 := #[7, 12, 17, 22, 5, 9, 14, 20, 4, 11, 16, 23, 6, 10, 15, 21]

/-- A word rotated to the left. -/
def rotate (x n : UInt32) : UInt32 := (x <<< n) ||| (x >>> (32 - n))

/-- The round function of operation `i`. -/
def mix (i : Nat) (s : State) : UInt32 :=
  if i < 16 then (s.b &&& s.c) ||| (~~~s.b &&& s.d)
  else if i < 32 then (s.d &&& s.b) ||| (~~~s.d &&& s.c)
  else if i < 48 then s.b ^^^ s.c ^^^ s.d
  else s.c ^^^ (s.b ||| ~~~s.d)

/-- The index of the word of the block that operation `i` takes in. -/
def wordIndex (i : Nat) : Nat :=
  if i < 16 then i
  else if i < 32 then (5 * i + 1) % 16
  else if i < 48 then (3 * i + 5) % 16
  else (7 * i) % 16

/-- Operation `i` on a state, with the words of a block. -/
def operate (words : Array UInt32) (s : State) (i : Nat) : State :=
  let sum := s.a + mix i s + sines.getD i 0 + words.getD (wordIndex i) 0
  let turned := rotate sum (rotations.getD (4 * (i / 16) + i % 4) 0)
  ⟨s.d, s.b + turned, s.b, s.c⟩

/-- Takes a block into the state. -/
def absorb (s : State) (words : Array UInt32) : State :=
  s.plus ((List.range 64).foldl (operate words) s)

/-- The bytes of a number, lowest first. -/
def littleEndian : Nat → Nat → List UInt8
  | 0, _ => []
  | count + 1, n => UInt8.ofNat n :: littleEndian count (n / 256)

/-- The message with a one bit, zeros and its length in bits behind it. -/
def pad (message : List UInt8) : List UInt8 :=
  let zeros := (119 - message.length % 64) % 64
  message ++ 0x80 :: List.replicate zeros 0 ++ littleEndian 8 (8 * message.length)

/-- The words of some bytes, four bytes to a word, lowest first. -/
def words : List UInt8 → List UInt32
  | a :: b :: c :: d :: rest =>
    (a.toUInt32 ||| (b.toUInt32 <<< 8) ||| (c.toUInt32 <<< 16) ||| (d.toUInt32 <<< 24)) ::
      words rest
  | _ => []

/-- The state after `n` blocks of the words. -/
def run : Nat → List UInt32 → State → State
  | 0, _, s => s
  | n + 1, ws, s => run n (ws.drop 16) (absorb s (ws.take 16).toArray)

/-- The bytes of a message's digest. -/
def digest (message : List UInt8) : List UInt8 :=
  let padded := pad message
  let s := run (padded.length / 64) (words padded) .start
  [s.a, s.b, s.c, s.d].flatMap (fun w => littleEndian 4 w.toNat)

/-- The digest of a message in hexadecimal. -/
def hex (message : List UInt8) : String :=
  String.ofList ((digest message).flatMap
    (fun b => [Numeral.hexDigit (b.toNat / 16), Numeral.hexDigit (b.toNat % 16)]))

end Novella.Md5
