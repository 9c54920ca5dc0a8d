import Novella.Json.Basic

/-!
# Reading JSON

The grammar is that of RFC 8259, with blanks around the document and nothing else. Characters that
could not be decoded from bytes are allowed inside strings. What an escape stands for is worked out
string by string, and a string with a lone surrogate or an undecoded byte is unreadable. It is left
to the user of a document whether that matters.

## Main definitions

* `Quoted` — a string as read
* `Json.read` — the document that a text is
* `Json.validated` — a document without unreadable strings, numbers out of range, and deep nesting
-/

namespace Novella

/-- One place of a string as written. -/
inductive Quoted.Piece where
  /-- A character, written out or by a short escape. -/
  | char (c : Char)
  /-- A UTF-16 code unit, written as four hexadecimal digits. -/
  | unit (n : Nat)
  /-- A byte that is no character. -/
  | unreadable
deriving DecidableEq, Repr

/-- A string as read. -/
structure Quoted where
  /-- The text, if every place of it is readable. -/
  text : Option String
  /-- Whether it is written without escapes. -/
  plain : Bool
deriving DecidableEq, Repr

namespace Quoted

/-- The text of some pieces. A high surrogate stands before a low one, and no low one elsewhere. -/
def textOf : List Piece → Option (List Char)
  | [] => some []
  | .char c :: ps => (textOf ps).map (c :: ·)
  | .unreadable :: _ => none
  | .unit n :: .unit m :: ps =>
    if 0xD800 ≤ n ∧ n < 0xDC00 then
      if 0xDC00 ≤ m ∧ m < 0xE000 then
        (textOf ps).map (Char.ofNat (0x10000 + (n - 0xD800) * 0x400 + (m - 0xDC00)) :: ·)
      else none
    else if 0xDC00 ≤ n ∧ n < 0xE000 then none
    else (textOf (.unit m :: ps)).map (Char.ofNat n :: ·)
  | .unit n :: ps =>
    if 0xD800 ≤ n ∧ n < 0xE000 then none else (textOf ps).map (Char.ofNat n :: ·)

/-- The string written as these pieces. -/
def ofPieces (ps : List Piece) (plain : Bool) : Quoted :=
  ⟨(textOf ps).map String.ofList, plain⟩

/-- A string that holds a text, written without escapes. -/
def ofText (s : String) : Quoted := ⟨some s, true⟩

end Quoted

namespace Json

/-- A document as read. -/
abbrev Read := Json Quoted

/-- The characters of a text; `none` stands for a byte that is no character. -/
abbrev Source := List (Option Char)

/-- Whether a character is blank in JSON. -/
def isBlank : Option Char → Bool
  | some c => c = ' ' || c = '\n' || c = '\r' || c = '\t'
  | none => false

/-- The text from the first character that is not blank. -/
def skipBlanks (cs : Source) : Source := cs.dropWhile isBlank

/-- What follows the given characters at the front of a text. -/
def dropWord : List Char → Source → Option Source
  | [], cs => some cs
  | w :: ws, some c :: cs => if w = c then dropWord ws cs else none
  | _, _ => none

/-- The value of a hexadecimal digit. -/
def hexValue? : Option Char → Option Nat
  | some c =>
    if '0' ≤ c ∧ c ≤ '9' then some (c.toNat - '0'.toNat)
    else if 'a' ≤ c ∧ c ≤ 'f' then some (c.toNat - 'a'.toNat + 10)
    else if 'A' ≤ c ∧ c ≤ 'F' then some (c.toNat - 'A'.toNat + 10)
    else none
  | none => none

/-- The character that a short escape stands for. -/
def shortEscape? : Char → Option Char
  | '"' => some '"'
  | '\\' => some '\\'
  | '/' => some '/'
  | 'b' => some '\x08'
  | 'f' => some '\x0c'
  | 'n' => some '\n'
  | 'r' => some '\r'
  | 't' => some '\t'
  | _ => none

/-- Reads a string after its opening quote, and gives what follows the closing one. -/
def readPieces : Source → List Quoted.Piece → Bool → Option (Quoted × Source)
  | [], _, _ => none
  | some '"' :: cs, acc, plain => some (.ofPieces acc.reverse plain, cs)
  | some '\\' :: some 'u' :: a :: b :: c :: d :: cs, acc, _ => do
    let n := (((← hexValue? a) * 16 + (← hexValue? b)) * 16 + (← hexValue? c)) * 16
      + (← hexValue? d)
    readPieces cs (.unit n :: acc) false
  | some '\\' :: some e :: cs, acc, _ => do
    let c ← shortEscape? e
    readPieces cs (.char c :: acc) false
  | some '\\' :: _, _, _ => none
  | some c :: cs, acc, plain =>
    if c.toNat < 0x20 then none else readPieces cs (.char c :: acc) plain
  | none :: cs, acc, plain => readPieces cs (.unreadable :: acc) plain

/-- Reads a string with its quotes. -/
def readString (cs : Source) : Option (Quoted × Source) :=
  match cs with
  | some '"' :: cs => readPieces cs [] true
  | _ => none

/-- The digits at the front of a text, and what follows them. -/
def takeDigits : Source → List Char × Source
  | some c :: cs =>
    if c.isDigit then
      let (ds, rest) := takeDigits cs
      (c :: ds, rest)
    else ([], some c :: cs)
  | cs => ([], cs)

/-- The whole part of a number: a zero alone, or digits that begin with another one. -/
def readWhole (cs : Source) : Option (List Char × Source) :=
  match takeDigits cs with
  | ([], _) => none
  | ('0' :: _ :: _, _) => none
  | r => some r

/-- The part after a point, if there is one. -/
def readFraction : Source → Option (List Char × Source)
  | some '.' :: cs =>
    match takeDigits cs with
    | ([], _) => none
    | (ds, rest) => some ('.' :: ds, rest)
  | cs => some ([], cs)

/-- The exponent, if there is one. -/
def readExponent : Source → Option (List Char × Source)
  | some e :: cs =>
    if e = 'e' ∨ e = 'E' then
      let (sign, cs) := match cs with
        | some '+' :: cs => (['+'], cs)
        | some '-' :: cs => (['-'], cs)
        | cs => ([], cs)
      match takeDigits cs with
      | ([], _) => none
      | (ds, rest) => some (e :: sign ++ ds, rest)
    else some ([], some e :: cs)
  | cs => some ([], cs)

/-- Reads a number. -/
def readNumber (cs : Source) : Option (List Char × Source) := do
  let (sign, cs) := match cs with
    | some '-' :: cs => (['-'], cs)
    | cs => ([], cs)
  let (whole, cs) ← readWhole cs
  let (fraction, cs) ← readFraction cs
  let (exponent, cs) ← readExponent cs
  return (sign ++ whole ++ fraction ++ exponent, cs)

mutual

/-- Reads a value, blanks before it apart. The first argument bounds the depth of the recursion. -/
def readValue : Nat → Source → Option (Read × Source)
  | 0, _ => none
  | n + 1, cs =>
    match skipBlanks cs with
    | some 'n' :: cs => (dropWord "ull".toList cs).map (fun r => (.null, r))
    | some 't' :: cs => (dropWord "rue".toList cs).map (fun r => (.bool true, r))
    | some 'f' :: cs => (dropWord "alse".toList cs).map (fun r => (.bool false, r))
    | some '"' :: cs => (readPieces cs [] true).map (fun r => (.string r.1, r.2))
    | some '[' :: cs =>
      match skipBlanks cs with
      | some ']' :: cs => some (.array [], cs)
      | cs => (readItems n cs).map (fun r => (.array r.1, r.2))
    | some '\x7b' :: cs =>
      match skipBlanks cs with
      | some '\x7d' :: cs => some (.object [], cs)
      | cs => (readMembers n cs).map (fun r => (.object r.1, r.2))
    | cs => (readNumber cs).map (fun r => (.number r.1, r.2))

/-- Reads the items of an array from the first one to the closing bracket. -/
def readItems : Nat → Source → Option (List Read × Source)
  | 0, _ => none
  | n + 1, cs => do
    let (x, cs) ← readValue n cs
    match skipBlanks cs with
    | some ',' :: cs =>
      let (xs, cs) ← readItems n cs
      return (x :: xs, cs)
    | some ']' :: cs => return ([x], cs)
    | _ => none

/-- Reads the members of an object from the first one to the closing brace. -/
def readMembers : Nat → Source → Option (List (Quoted × Read) × Source)
  | 0, _ => none
  | n + 1, cs => do
    let (k, cs) ← readString (skipBlanks cs)
    match skipBlanks cs with
    | some ':' :: cs =>
      let (v, cs) ← readValue n cs
      match skipBlanks cs with
      | some ',' :: cs =>
        let (ms, cs) ← readMembers n cs
        return ((k, v) :: ms, cs)
      | some '\x7d' :: cs => return ([(k, v)], cs)
      | _ => none
    | _ => none

end

/-- The document that the whole text is, blanks around it apart. The depth of the recursion grows by
at most one for each character. -/
def read (cs : Source) : Option Read :=
  match readValue (cs.length + 1) cs with
  | some (j, rest) => if skipBlanks rest = [] then some j else none
  | none => none

/-- The document that a text is. -/
def readText (s : String) : Option Read := read (s.toList.map some)

/-! ### Validation -/

/-- A number cut into its significant digits and the power of ten they are multiplied by. -/
def scientific (token : List Char) : List Char × Int :=
  let cs := token.dropWhile (· = '-')
  let mantissa := cs.takeWhile (fun c => c.isDigit || c = '.')
  let exponent := (Numeral.integer? ((cs.dropWhile (fun c => c.isDigit || c = '.')).drop 1)).getD 0
  let fraction := (mantissa.dropWhile (· ≠ '.')).drop 1
  ((mantissa.filter Char.isDigit).dropWhile (· = '0'), exponent - fraction.length)

/-- Whether a number is small enough for a double: a larger one would round to infinity. -/
def isFinite (token : List Char) : Bool :=
  let (digits, exponent) := scientific token
  if digits = [] ∨ (digits.length : Int) + exponent < 300 then true
  else if (digits.length : Int) + exponent > 400 then false
  else
    let n := Nat.ofDigitChars 10 digits 0
    let bound := Nat.pow 2 1024 - Nat.pow 2 970
    if 0 ≤ exponent then n * Nat.pow 10 exponent.toNat < bound
    else n < bound * Nat.pow 10 (-exponent).toNat

mutual

/-- The document with its texts, if every string is readable, every number finite, and no value
inside more than `depth` arrays and objects. -/
def validatedAt : Nat → Read → Option Written
  | _, .null => some .null
  | _, .bool b => some (.bool b)
  | _, .number t => if isFinite t then some (.number t) else none
  | _, .string s => s.text.map .string
  | depth, .array xs =>
    if depth = 0 then none else (validatedItems (depth - 1) xs).map .array
  | depth, .object ms =>
    if depth = 0 then none else (validatedMembers (depth - 1) ms).map .object
termination_by structural _ x => x

/-- `validatedAt` on the items of an array. -/
def validatedItems : Nat → List Read → Option (List Written)
  | _, [] => some []
  | depth, x :: xs => do return (← validatedAt depth x) :: (← validatedItems depth xs)
termination_by structural _ x => x

/-- `validatedAt` on the members of an object. -/
def validatedMembers : Nat → List (Quoted × Read) → Option (List (String × Written))
  | _, [] => some []
  | depth, m :: ms => do return (← validatedMember depth m) :: (← validatedMembers depth ms)
termination_by structural _ x => x

/-- `validatedAt` on a member. -/
def validatedMember : Nat → Quoted × Read → Option (String × Written)
  | depth, (k, v) => do return (← k.text, ← validatedAt depth v)
termination_by structural _ x => x

end

/-- The number of arrays and objects that may contain one another in a validated document. -/
def maxNesting : Nat := 127

/-- The document with its texts, if every string is readable, every number finite, and arrays and
objects are not nested too deeply. -/
def validated (j : Read) : Option Written := validatedAt maxNesting j

end Json

end Novella
