import Novella.Text.Numeral

/-!
# Scanning shown text

Text is shown in stretches. Between them stand pause points: `@` and the end of a line wait for
input, a backslash ends the page and with it the text, and `!w` or `!d` with digits pauses for that
many milliseconds. Everything else is shown as it is.

A scan looks at the text that is left and says what to do next. With a delay between characters it
does not take the stretch itself, which is then shown by the character.

## Main definitions

* `Reveal.inlineWait?`, `Reveal.isPause` — the pause points
* `Reveal.stretch`, `Reveal.afterStretch` — the text up to the next pause point, and the rest
* `Reveal.scan` — what comes next
-/

namespace Novella.Reveal

/-- A timed pause at the start of the text, and the rest after it. -/
def inlineWait? : List Char → Option (UInt64 × List Char)
  | '!' :: c :: cs =>
    if c = 'w' ∨ c = 'd' then
      (Numeral.uint64? (cs.takeWhile Char.isDigit)).map (·, cs.dropWhile Char.isDigit)
    else none
  | _ => none

/-- Whether the text starts with a pause point. -/
def isPause : List Char → Bool
  | [] => false
  | c :: cs => c = '@' || c = '\n' || c = '\\' || (inlineWait? (c :: cs)).isSome

/-- Whether a stretch ends here: at a pause point or where the text ends. -/
def atBoundary (cs : List Char) : Bool := cs.isEmpty || isPause cs

/-- The text up to the next pause point. -/
def stretch : List Char → List Char
  | [] => []
  | c :: cs => if isPause (c :: cs) then [] else c :: stretch cs

/-- The text from the next pause point on. -/
def afterStretch : List Char → List Char
  | [] => []
  | c :: cs => if isPause (c :: cs) then c :: cs else afterStretch cs

/-- What comes next in a text. -/
inductive Scan where
  /-- The text ends. -/
  | done
  /-- A timed pause, and the rest. -/
  | wait (duration : UInt64) (rest : List Char)
  /-- Input is wanted before the rest. -/
  | pause (rest : List Char)
  /-- A new line begins, and input is wanted before the rest. -/
  | lineBreak (rest : List Char)
  /-- The page ends. -/
  | pageBreak (rest : List Char)
  /-- A stretch to show at once, and the rest. -/
  | emit (token rest : List Char)
  /-- A stretch to show by the character. -/
  | tick
deriving DecidableEq, Repr

/-- What comes next in a text that is shown with a delay between its characters. -/
def scan (delay : Nat) : List Char → Scan
  | [] => .done
  | c :: cs =>
    match inlineWait? (c :: cs) with
    | some (duration, rest) => .wait duration rest
    | none =>
      if c = '@' then .pause cs
      else if c = '\n' then .lineBreak cs
      else if c = '\\' then .pageBreak cs
      else if delay = 0 then .emit (stretch (c :: cs)) (afterStretch (c :: cs))
      else .tick

end Novella.Reveal
