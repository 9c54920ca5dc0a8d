import Novella.Proofs.Text.Trimming
import Novella.Script.Line

/-!
# Lines put back together

Nothing is lost when a line is cut into instructions. Put back together, opcode, argument and the
marker of a page break are the line again, but for the blanks after the opcode. Text and timers have
no blanks there, so of these nothing is lost at all.

A page break that closes a line becomes an instruction of its own, as long as there is an argument
before it. In a line without one the marker stands at the end of the opcode, and there it stays.
What is left then is a command that nobody knows, and no page break.

## Main definitions

* `Instruction.written` — an instruction as a line has it
* `Line.SameApart` — texts that are the same but for the blanks after an opcode
* `Line.hasArgument` — command lines with an argument
* `Line.Rejoins`, `Line.IsClosed` — what is said of the instructions of a line

## Main results

* `Line.exists_gap` — a line is its opcode, blanks and its argument
* `Line.instructions_rejoin` — instructions put back together, and whose page breaks are split off
-/

namespace Novella

/-! ### Written instructions -/

namespace Instruction

/-- Whether an opcode stands apart from its argument. Those of texts and timers do not. -/
def isSpaced (opcode : List Char) : Bool := opcode.head? ≠ some '`' && opcode.head? ≠ some '!'

/-- The instruction as a line has it, with a single space where there is room for blanks. -/
def written (i : Instruction) : List Char :=
  i.opcode.toList ++ (if isSpaced i.opcode.toList ∧ i.argument ≠ "" then [' '] else []) ++
    i.argument.toList

@[simp] theorem written_pageBreak : pageBreak.written = ['\\'] := rfl

end Instruction

open Instruction

namespace Line

/-- Two texts are the same but for the blanks after the opcode `o`, and the same if it has none. -/
def SameApart (o cs ds : List Char) : Prop :=
  ∃ gap gap' rest : List Char, (∀ c ∈ gap ++ gap', Text.isBlank c = true) ∧
    (isSpaced o = false → gap = gap') ∧ cs = o ++ gap ++ rest ∧ ds = o ++ gap' ++ rest

/-- Whether a command line has an argument: a text always has, a timer if it has a digit, and any
other command if there is a space. -/
def hasArgument : List Char → Bool
  | '`' :: _ => true
  | '!' :: cs => cs.any Char.isDigit
  | cs => cs.contains ' '

variable {cs before : List Char} {line : String}

theorem cut_spaced (htext : ∀ ds, cs ≠ '`' :: ds) (htimer : ∀ ds, cs ≠ '!' :: ds) :
    cut cs = (cs.takeWhile (· ≠ ' '), Text.trim ((cs.dropWhile (· ≠ ' ')).drop 1)) := by
  unfold cut
  split
  · exact absurd rfl (htext _)
  · exact absurd rfl (htimer _)
  · rfl

/-- A line is its opcode, blanks if they may stand there, and its argument. -/
theorem exists_gap (h : ∀ c ∈ cs.getLast?, Text.isBlank c = false) :
    ∃ gap, (∀ c ∈ gap, Text.isBlank c = true) ∧ (isSpaced (cut cs).1 = false → gap = []) ∧
      cs = (cut cs).1 ++ gap ++ (cut cs).2 := by
  unfold cut
  split
  · exact ⟨[], nofun, fun _ => rfl, rfl⟩
  · refine ⟨[], nofun, fun _ => rfl, ?_⟩
    rw [List.append_nil, List.takeWhile_append_dropWhile]
  · next htext htimer =>
    have hspaced : isSpaced (cs.takeWhile (· ≠ ' ')) = true := by
      rw [isSpaced, List.head?_takeWhile]
      cases cs with
      | nil => rfl
      | cons c cs =>
        have htext : c ≠ '`' := fun hc => htext cs (hc ▸ rfl)
        have htimer : c ≠ '!' := fun hc => htimer cs (hc ▸ rfl)
        by_cases hc : c = ' ' <;> simp [hc, htext, htimer]
    dsimp only
    rw [hspaced]
    have hsplit := List.takeWhile_append_dropWhile (p := (· ≠ ' ')) (l := cs)
    cases hrest : cs.dropWhile (· ≠ ' ') with
    | nil =>
      rw [hrest] at hsplit
      exact ⟨[], nofun, nofun, hsplit.symm.trans (List.append_nil _).symm⟩
    | cons c rest =>
      have hc : c = ' ' := by
        have hhead := List.head?_dropWhile_not (· ≠ ' ') cs
        rw [hrest] at hhead
        simpa using hhead
      rw [hrest] at hsplit
      have hsuffix : rest <:+ cs := ⟨cs.takeWhile (· ≠ ' ') ++ [c], by simpa using hsplit⟩
      obtain ⟨gap, hgap, heq⟩ := Text.exists_gap (Text.isBlank_getLast?_of_suffix h hsuffix)
      refine ⟨c :: gap, List.forall_mem_cons.2 ⟨hc ▸ by decide, hgap⟩, nofun, ?_⟩
      rw [List.drop_one, List.tail_cons, List.append_assoc, List.cons_append, ← heq, hsplit]

/-! ### Closing page breaks -/

/-- What ends a stretch within a text ends it there, too, if more follows. -/
theorem stretch_append {p : Char → Bool} {c : Char} (hc : c ∈ cs) (hp : p c = false)
    (ds : List Char) : (cs ++ ds).takeWhile p = cs.takeWhile p ∧
      (cs ++ ds).dropWhile p = cs.dropWhile p ++ ds := by
  have hall : ¬ ∀ c ∈ cs, p c = true := fun h => by simp [h c hc] at hp
  constructor
  · rw [List.takeWhile_append, if_neg fun hlen => hall ?_]
    exact List.takeWhile_eq_self_iff.1 ((List.takeWhile_prefix p).eq_of_length hlen)
  · rw [List.dropWhile_append, if_neg fun hnil => hall ?_]
    exact List.dropWhile_eq_nil_iff.1 (List.isEmpty_iff.1 hnil)

/-- A marker does not make a text or a timer of a line. -/
theorem spaced_append (htext : ∀ ds, before ≠ '`' :: ds) (htimer : ∀ ds, before ≠ '!' :: ds) :
    (∀ ds, before ++ ['\\'] ≠ '`' :: ds) ∧ ∀ ds, before ++ ['\\'] ≠ '!' :: ds := by
  cases before with
  | nil => exact ⟨by simp, by simp⟩
  | cons c cs =>
    refine ⟨fun ds h => htext cs ?_, fun ds h => htimer cs ?_⟩
    · rw [(List.cons.inj h).1]
    · rw [(List.cons.inj h).1]

/-- If there is an argument before it, the marker ends the argument. -/
theorem cut_marker_of_hasArgument (h : hasArgument before = true) :
    (cut (before ++ ['\\'])).1 = (cut before).1 ∧
      (cut (before ++ ['\\'])).2.getLast? = some '\\' := by
  unfold hasArgument at h
  split at h
  · next cs => exact ⟨rfl, by simp [cut]⟩
  · next cs =>
    obtain ⟨c, hc, hdigit⟩ := List.any_eq_true.1 h
    obtain ⟨htake, hdrop⟩ := stretch_append (p := fun c => !c.isDigit)
      (List.mem_cons_of_mem '!' hc) (by simp [hdigit]) ['\\']
    rw [List.cons_append] at htake hdrop
    simp only [List.cons_append, cut]
    rw [htake, hdrop]
    exact ⟨rfl, by simp⟩
  · next htext htimer =>
    obtain ⟨htake, hdrop⟩ := stretch_append (p := (· ≠ ' ')) (List.contains_iff_mem.1 h) (by simp)
      ['\\']
    obtain ⟨htext', htimer'⟩ := spaced_append htext htimer
    rw [cut_spaced htext htimer, cut_spaced htext' htimer', htake, hdrop]
    refine ⟨rfl, Text.getLast?_trim ?_ (by decide)⟩
    cases hrest : before.dropWhile (· ≠ ' ') with
    | nil =>
      have hspace := List.dropWhile_eq_nil_iff.1 hrest ' ' (List.contains_iff_mem.1 h)
      simp at hspace
    | cons c rest => simp

/-- Otherwise it ends the opcode. -/
theorem cut_marker_of_not_hasArgument (h : hasArgument before = false) :
    cut (before ++ ['\\']) = (before ++ ['\\'], []) := by
  unfold hasArgument at h
  split at h
  · cases h
  · next cs =>
    have hall : ∀ c ∈ '!' :: (cs ++ ['\\']), (!c.isDigit) = true := by
      simpa [or_imp, forall_and] using h
    simp only [List.cons_append, cut]
    rw [List.takeWhile_eq_self_iff.2 hall, List.dropWhile_eq_nil_iff.2 hall]
  · next htext htimer =>
    obtain ⟨htext', htimer'⟩ := spaced_append htext htimer
    have hall : ∀ c ∈ before ++ ['\\'], decide (c ≠ ' ') = true := by
      intro c hc
      rcases List.mem_append.1 hc with hc | hc
      · have hnot : ' ' ∉ before := by simpa using h
        exact decide_eq_true fun heq => hnot (heq ▸ hc)
      · rw [List.mem_singleton.1 hc]
        decide
    rw [cut_spaced htext' htimer', List.takeWhile_eq_self_iff.2 hall,
      List.dropWhile_eq_nil_iff.2 hall]
    rfl

/-! ### Lines -/

theorem instructions_of_ne_nil (h : Text.trim line.toList = cs) (hne : cs ≠ []) :
    instructions line =
      if splitsPageBreak (cut cs).1 ∧ (cut cs).2.getLast? = some '\\' then
        [⟨String.ofList (cut cs).1, String.ofList (cut cs).2.dropLast⟩, .pageBreak]
      else [⟨String.ofList (cut cs).1, String.ofList (cut cs).2⟩] := by
  rw [instructions, h]
  cases cs with
  | nil => exact absurd rfl hne
  | cons c cs => rfl

/-- An instruction is written like its opcode and argument with any blanks between them. -/
theorem sameApart_written {a : List Char} {i : Instruction} (gap more : List Char)
    (ha : i.argument.toList = a) (hgap : ∀ c ∈ gap, Text.isBlank c = true)
    (htight : isSpaced i.opcode.toList = false → gap = []) :
    SameApart i.opcode.toList (i.opcode.toList ++ gap ++ (a ++ more)) (i.written ++ more) := by
  refine ⟨gap, if isSpaced i.opcode.toList ∧ i.argument ≠ "" then [' '] else [], a ++ more,
    fun c hc => ?_, fun hs => ?_, rfl, ?_⟩
  · rcases List.mem_append.1 hc with hc | hc
    · exact hgap c hc
    · split at hc
      · rw [List.mem_singleton.1 hc]
        decide
      · exact absurd hc List.not_mem_nil
  · rw [htight hs, if_neg (by simp [hs])]
  · rw [written, ha, List.append_assoc, List.append_assoc]

/-- The instructions of a line are put back together. -/
theorem sameApart_instructions {i : Instruction} (hi : (instructions line).head? = some i) :
    SameApart i.opcode.toList (Text.trim line.toList) ((instructions line).flatMap written) := by
  generalize hcs : Text.trim line.toList = cs
  have hend : ∀ c ∈ cs.getLast?, Text.isBlank c = false := hcs ▸ Text.isBlank_getLast?_trim
  by_cases hne : cs = []
  · rw [instructions, hcs, hne] at hi
    cases hi
  obtain ⟨gap, hgap, htight, heq⟩ := exists_gap hend
  rw [instructions_of_ne_nil hcs hne] at hi ⊢
  split at hi
  · next hclosed =>
    -- the argument without its marker
    obtain rfl := Option.some.inj hi
    rw [if_pos hclosed]
    have harg := (List.dropLast_append_getLast? _ hclosed.2).symm
    have hsame := sameApart_written gap ['\\']
      (i := ⟨String.ofList (cut cs).1, String.ofList (cut cs).2.dropLast⟩)
      String.toList_ofList hgap (by rwa [String.toList_ofList])
    rw [← harg, String.toList_ofList, ← heq] at hsame
    simpa using hsame
  · next hone =>
    obtain rfl := Option.some.inj hi
    rw [if_neg hone]
    have hsame := sameApart_written gap []
      (i := ⟨String.ofList (cut cs).1, String.ofList (cut cs).2⟩)
      String.toList_ofList hgap (by rwa [String.toList_ofList])
    rw [List.append_nil, String.toList_ofList, ← heq] at hsame
    simpa using hsame

/-- The instructions are a command, as it is written in `before`, and a page break. -/
def IsClosed (is : List Instruction) (before : List Char) : Prop :=
  ∃ i, is = [i, .pageBreak] ∧ i.opcode.toList = (cut before).1 ∧
    SameApart i.opcode.toList before i.written

/-- A page break is split off if there is an argument before it. -/
theorem isClosed_instructions (h : Text.trim line.toList = before ++ ['\\'])
    (hsplits : splitsPageBreak (cut before).1 = true) (harg : hasArgument before = true) :
    IsClosed (instructions line) before := by
  obtain ⟨hopcode, hlast⟩ := cut_marker_of_hasArgument harg
  obtain ⟨gap, hgap, htight, heq⟩ := exists_gap (h ▸ Text.isBlank_getLast?_trim)
  rw [instructions_of_ne_nil h (by simp), hopcode, if_pos ⟨hsplits, hlast⟩]
  refine ⟨_, rfl, String.toList_ofList, ?_⟩
  have hsame := sameApart_written gap []
    (i := ⟨String.ofList (cut before).1, String.ofList (cut (before ++ ['\\'])).2.dropLast⟩)
    String.toList_ofList hgap (by rwa [String.toList_ofList, ← hopcode])
  have hbefore : before = (cut before).1 ++ gap ++ (cut (before ++ ['\\'])).2.dropLast := by
    rw [← List.dropLast_append_getLast? _ hlast, hopcode, ← List.append_assoc] at heq
    exact List.append_cancel_right heq
  rw [List.append_nil, List.append_nil, String.toList_ofList, ← hbefore] at hsame
  simpa using hsame

/-- Otherwise it stays at the end of the opcode. -/
theorem instructions_of_not_hasArgument (h : Text.trim line.toList = before ++ ['\\'])
    (harg : hasArgument before = false) :
    instructions line = [⟨String.ofList (before ++ ['\\']), ""⟩] := by
  rw [instructions_of_ne_nil h (by simp), cut_marker_of_not_hasArgument harg, if_neg (by simp)]

/-- **Nothing of a line is lost.** Put back together its instructions are the line again, but for
blanks. A page break that closes it is one of them if there is an argument before it, and is taken
for a part of the opcode if there is none. -/
theorem instructions_rejoin (line : String) :
    (instructions line = [] ↔ Text.trim line.toList = []) ∧
      (∀ i ∈ (instructions line).head?, SameApart i.opcode.toList (Text.trim line.toList)
        ((instructions line).flatMap written)) ∧
      ∀ before, Text.trim line.toList = before ++ ['\\'] →
        (cut before).1 ≠ pageOpcode.toList → (cut before).1 ≠ "if".toList →
          (IsClosed (instructions line) before ↔ hasArgument before = true) ∧
          (hasArgument before = false →
            instructions line = [⟨String.ofList (before ++ ['\\']), ""⟩]) := by
  refine ⟨⟨fun h => ?_, fun h => ?_⟩, fun i hi => sameApart_instructions hi,
    fun before h hpage hif => ⟨⟨fun hc => ?_, fun harg => ?_⟩, instructions_of_not_hasArgument h⟩⟩
  · by_contra hne
    rw [instructions_of_ne_nil rfl hne] at h
    split at h <;> cases h
  · rw [instructions, h]
  · obtain ⟨i, hi, -⟩ := hc
    by_contra harg
    rw [instructions_of_not_hasArgument h (by simpa using harg)] at hi
    cases hi
  · have hsplits : splitsPageBreak (cut before).1 = true := by
      rw [splitsPageBreak, decide_eq_true hpage, decide_eq_true hif]
      rfl
    exact isClosed_instructions h hsplits harg

/-- A picture is shown, and the page ends. -/
theorem picture_rejoins :
    Text.trim " bg  black, \\".toList = "bg  black, ".toList ++ ['\\'] ∧
      IsClosed (instructions " bg  black, \\") "bg  black, ".toList ∧
      instructions " bg  black, \\" = [⟨"bg", "black, "⟩, .pageBreak] := by
  have htrim : Text.trim " bg  black, \\".toList = "bg  black, ".toList ++ ['\\'] := by
    decide +kernel
  exact ⟨htrim, (((instructions_rejoin _).2.2 _ htrim (by decide +kernel)
    (by decide +kernel)).1).2 (by decide +kernel), by decide +kernel⟩

/-- A page break after a command without an argument is lost, and the command with it. -/
theorem bare_command_not_closed :
    Text.trim "click\\".toList = "click".toList ++ ['\\'] ∧
      (cut "click".toList).1 ≠ pageOpcode.toList ∧ (cut "click".toList).1 ≠ "if".toList ∧
      ¬ IsClosed (instructions "click\\") "click".toList := by
  refine ⟨by decide +kernel, by decide +kernel, by decide +kernel, ?_⟩
  rintro ⟨i, hi, -⟩
  have hone : (instructions "click\\").length = 1 := by decide +kernel
  rw [hi] at hone
  cases hone

end Line

end Novella
