import Novella.Player.Call
import Novella.Script.Line

/-!
# Command tables

A command table gives the opcodes of a script their meaning. An opcode may also be reserved: it is
known, but does nothing. Tables are merged only if no opcode is in both.

## Main definitions

* `Command` — what an opcode may mean
* `CommandTable` — the meaning of opcodes, with `CommandTable.merge?`
* `CommandTable.standard` — the opcodes of every script, listed by `CommandTable.entries_standard`
-/

namespace Novella

/-- What an opcode means. -/
inductive Command where
  /-- Show text. -/
  | text
  /-- End the page and wait for input. -/
  | pageBreak
  /-- Show an end of line. -/
  | lineBreak
  /-- Wait for input. -/
  | click
  /-- Wait for a time. -/
  | wait
  /-- Set the delay between characters. -/
  | setDelay
  /-- Take the delay between characters from the settings again. -/
  | resetDelay
  /-- Run an instruction on a condition. -/
  | branch
  /-- Skip lines. -/
  | skip
  /-- Return to the host. -/
  | exit
  /-- Change what is seen or heard. -/
  | cue (c : CueCommand)
  /-- Change a variable by an operand. -/
  | assign (op : Operation)
  /-- Add to a variable. -/
  | step (delta : Int64)
  /-- Call a command of the host. -/
  | host (b : Behavior) (body : List HostCall)

/-- The meaning of each opcode; a reserved one has none. -/
abbrev CommandTable := SortedMap String (Option Command)

namespace CommandTable

/-- The table with an opcode for each command. -/
def ofCommands (l : List (String × Command)) : CommandTable :=
  .ofList (l.map (fun e => (e.1, some e.2)))

/-- The opcodes for pictures. -/
def graphics : CommandTable :=
  ofCommands [("bg", .cue .background), ("ld", .cue .sprite), ("cl", .cue .clear)]

/-- The opcodes for sounds. -/
def audio : CommandTable :=
  ofCommands [
    ("play", .cue .music),
    ("mp3loop", .cue .music),
    ("playstop", .cue .stopMusic),
    ("wave", .cue .sound),
    ("waveloop", .cue .loopSound),
    ("wavestop", .cue .stopSound)]

/-- The opcodes for variables. -/
def vars : CommandTable :=
  ofCommands [
    ("mov", .assign .assign),
    ("add", .assign .add),
    ("sub", .assign .subtract),
    ("mul", .assign .multiply),
    ("div", .assign .divide),
    ("mod", .assign .modulo),
    ("inc", .step 1),
    ("dec", .step (-1))]

/-- The opcodes for text and the course of the script, two of them reserved. -/
def control : CommandTable :=
  (ofCommands [
    (Instruction.textOpcode, .text),
    (Instruction.pageOpcode, .pageBreak),
    ("br", .lineBreak),
    ("click", .click),
    ("wait", .wait),
    ("waittimer", .wait),
    ("!w", .wait),
    ("!d", .wait),
    ("!s", .setDelay),
    ("!sd", .resetDelay),
    ("if", .branch),
    ("skip", .skip),
    ("return", .exit)]).union (.ofList [("resettimer", none), ("setwindow", none)])

/-- The opcodes of every script. -/
def standard : CommandTable := ((control.union graphics).union audio).union vars

/-- The opcodes of every script in order. -/
theorem entries_standard : standard.entries = [
    ("!d", some .wait), ("!s", some .setDelay), ("!sd", some .resetDelay), ("!w", some .wait),
    ("\\", some .pageBreak), ("`", some .text), ("add", some (.assign .add)),
    ("bg", some (.cue .background)), ("br", some .lineBreak), ("cl", some (.cue .clear)),
    ("click", some .click), ("dec", some (.step (-1))), ("div", some (.assign .divide)),
    ("if", some .branch), ("inc", some (.step 1)), ("ld", some (.cue .sprite)),
    ("mod", some (.assign .modulo)), ("mov", some (.assign .assign)),
    ("mp3loop", some (.cue .music)), ("mul", some (.assign .multiply)),
    ("play", some (.cue .music)), ("playstop", some (.cue .stopMusic)), ("resettimer", none),
    ("return", some .exit), ("setwindow", none), ("skip", some .skip),
    ("sub", some (.assign .subtract)), ("wait", some .wait), ("waittimer", some .wait),
    ("wave", some (.cue .sound)), ("waveloop", some (.cue .loopSound)),
    ("wavestop", some (.cue .stopSound))] :=
  (rfl) -- in parentheses, so that a rewriting is no reason to sort the table again

/-- Both tables together, or an opcode that is in both. -/
def merge? (t u : CommandTable) : Except String CommandTable :=
  match u.keys.find? (fun k => t.contains k) with
  | some opcode => .error opcode
  | none => .ok (t.union u)

end CommandTable

end Novella
