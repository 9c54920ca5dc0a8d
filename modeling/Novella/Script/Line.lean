import Novella.Text.Blank

/-!
# Scene text and script lines

A scene is a text whose lines are script lines once they are trimmed and once blank lines and
comments, which begin with a semicolon, are left out. A script line stands for one instruction, or
for two when a page break closes it:

* a line that begins with a backquote shows the rest of the line;
* a line that begins with an exclamation mark has its argument from the first digit on;
* every other line is an opcode and, after the first space, its argument.

An argument that ends in a backslash is the command without it, followed by a page break. The lines
of `if` are left whole, because the marker at their end belongs to the body.

## Main definitions

* `Scene.lines` — the script lines of a scene's text
* `Instruction` — an opcode with its argument
* `Line.instructions` — what a script line stands for
-/

namespace Novella

/-- The lines of a text: each ends before a newline, and a carriage return before the newline is
dropped with it. Nothing follows the last newline. -/
def Scene.rawLines (cs : List Char) : List (List Char) :=
  go [] cs
where
  /-- Splits with the current line so far in `acc`, last character first. -/
  go (acc : List Char) : List Char → List (List Char)
    | [] => if acc = [] then [] else [acc.reverse]
    | '\n' :: cs =>
      (match acc with
        | '\r' :: acc => acc.reverse
        | acc => acc.reverse) :: go [] cs
    | c :: cs => go (c :: acc) cs

/-- Whether a trimmed line is to be run: it is neither blank nor a comment. -/
def Scene.isScript : List Char → Bool
  | [] => false
  | c :: _ => c ≠ ';'

/-- The script lines of a scene's text, trimmed, without blank lines and comments. -/
def Scene.lines (text : String) : List String :=
  (((rawLines text.toList).map Text.trim).filter isScript).map String.ofList

/-- One opcode and its argument as written. -/
structure Instruction where
  /-- The name of the command. -/
  opcode : String
  /-- What the command is given. -/
  argument : String
deriving DecidableEq, Repr

namespace Instruction

/-- The opcode of text to show. -/
def textOpcode : String := "`"

/-- The opcode of a page break. -/
def pageOpcode : String := "\\"

/-- A page break. -/
def pageBreak : Instruction := ⟨pageOpcode, ""⟩

end Instruction

namespace Line

/-- A command line cut into opcode and argument, by the character it begins with. -/
def cut : List Char → List Char × List Char
  | '`' :: cs => (['`'], cs)
  | '!' :: cs =>
    (('!' :: cs).takeWhile (fun c => !c.isDigit), ('!' :: cs).dropWhile (fun c => !c.isDigit))
  | cs => (cs.takeWhile (· ≠ ' '), Text.trim ((cs.dropWhile (· ≠ ' ')).drop 1))

/-- Whether a page break at the end of the argument is split off. -/
def splitsPageBreak (opcode : List Char) : Bool :=
  opcode ≠ Instruction.pageOpcode.toList && opcode ≠ "if".toList

/-- The instructions that a script line stands for, in the order in which they run. -/
def instructions (line : String) : List Instruction :=
  match Text.trim line.toList with
  | [] => []
  | cs =>
    let (opcode, argument) := cut cs
    if splitsPageBreak opcode ∧ argument.getLast? = some '\\' then
      [⟨String.ofList opcode, String.ofList argument.dropLast⟩, .pageBreak]
    else
      [⟨String.ofList opcode, String.ofList argument⟩]

end Line

end Novella
