import Novella.Proofs.Text.Trimming
import Novella.Script.Condition
import Novella.Script.Line

/-!
# What a line comes to

A line stands for one instruction, or for two when a page break closes it. If the instruction is a
condition that holds, the line in its body is run as well, before what follows. So a line comes to a
sequence of instructions that depends on the variables only, by recursion on its length: a body is
what a condition leaves over, and so it is shorter than its line.

## Main definitions

* `Instruction.body?` — the line that an instruction has run next
* `Line.expand` — what a line comes to
* `Closing` — nothing but page breaks is left of a line

## Main results

* `Condition.suffix_of_read` — reading a condition leaves a part of the text over
* `Line.expand_eq` — what a line comes to, by what it stands for
* `Line.length_expand_le` — it comes to no more instructions than it has characters
-/

namespace Novella

/-! ### What reading leaves over -/

namespace Condition

variable {cs rest : List Char} {t : Token}

theorem suffix_of_symbol? (h : symbol? cs = some (t, rest)) : rest <:+ cs := by
  unfold symbol? at h
  split at h
  all_goals first
    | (obtain ⟨-, rfl⟩ := Prod.mk.inj (Option.some.inj h)
       first | exact ⟨[_, _], rfl⟩ | exact ⟨[_], rfl⟩)
    | cases h

theorem suffix_of_quoted (h : quoted cs = .ok (t, rest)) : rest <:+ cs := by
  unfold quoted at h
  split at h
  · next c rest' heq =>
    cases h
    exact (List.suffix_cons c rest).trans (heq ▸ List.dropWhile_suffix _)
  · cases h

theorem suffix_of_reference {sigil : Char} (h : reference sigil cs = .ok (t, rest)) :
    rest <:+ cs := by
  unfold reference at h
  dsimp only at h
  split at h
  · cases h
    exact List.dropWhile_suffix _
  · cases h

theorem suffix_of_number {sign : List Char} (h : number sign cs = .ok (t, rest)) :
    rest <:+ cs := by
  unfold number at h
  dsimp only at h
  split at h
  · cases h
    exact List.dropWhile_suffix _
  · cases h

theorem exists_of_map_some {x : Except ConditionError (Token × List Char)}
    (h : some <$> x = .ok (some (t, rest))) : x = .ok (t, rest) := by
  cases x with
  | error e => cases h
  | ok a => exact congrArg Except.ok (Option.some.inj (Except.ok.inj h))

theorem suffix_of_token (h : token cs = .ok (some (t, rest))) : rest <:+ cs := by
  unfold token at h
  split at h
  · next hs =>
    cases h
    exact suffix_of_symbol? hs
  · split at h
    · cases h
    · exact (suffix_of_quoted (exists_of_map_some h)).trans (List.suffix_cons ..)
    · exact (suffix_of_reference (exists_of_map_some h)).trans (List.suffix_cons ..)
    · exact (suffix_of_reference (exists_of_map_some h)).trans (List.suffix_cons ..)
    · split at h
      · exact (suffix_of_number (exists_of_map_some h)).trans (List.suffix_cons ..)
      · cases h
        exact List.suffix_refl _
    · split at h
      · exact suffix_of_number (exists_of_map_some h)
      · cases h
        exact List.suffix_refl _

theorem suffix_of_peek (h : peek cs = .ok (some (t, rest))) : rest <:+ cs :=
  (suffix_of_token h).trans (List.dropWhile_suffix _)

theorem exists_of_bind_eq_ok {ε α β : Type} {x : Except ε α} {f : α → Except ε β} {b : β}
    (h : x >>= f = .ok b) : ∃ a, x = .ok a ∧ f a = .ok b := by
  cases x with
  | error e => cases h
  | ok a => exact ⟨a, rfl, h⟩

/-- What a parser has not read is the end of the text. -/
theorem suffix_of_parse {n : Nat} {goal : Goal} {e : Expr} (h : parse n goal cs = .ok (e, rest)) :
    rest <:+ cs := by
  induction n generalizing goal cs e rest with
  | zero => cases h
  | succ n ih =>
    cases goal with
    | disjunction =>
      rw [parse] at h
      obtain ⟨⟨l, rest'⟩, hl, h⟩ := exists_of_bind_eq_ok h
      exact (ih h).trans (ih hl)
    | conjunction =>
      rw [parse] at h
      obtain ⟨⟨l, rest'⟩, hl, h⟩ := exists_of_bind_eq_ok h
      exact (ih h).trans (ih hl)
    | disjuncts l =>
      rw [parse] at h
      obtain ⟨x, hx, h⟩ := exists_of_bind_eq_ok h
      split at h
      · obtain ⟨⟨r, rest'⟩, hr, h⟩ := exists_of_bind_eq_ok h
        exact ((ih h).trans (ih hr)).trans (suffix_of_peek hx)
      · cases h
        exact List.suffix_refl _
    | conjuncts l =>
      rw [parse] at h
      obtain ⟨x, hx, h⟩ := exists_of_bind_eq_ok h
      split at h
      · obtain ⟨⟨r, rest'⟩, hr, h⟩ := exists_of_bind_eq_ok h
        exact ((ih h).trans (ih hr)).trans (suffix_of_peek hx)
      · cases h
        exact List.suffix_refl _
    | comparison =>
      rw [parse] at h
      obtain ⟨⟨l, rest'⟩, hl, h⟩ := exists_of_bind_eq_ok h
      obtain ⟨x, hx, h⟩ := exists_of_bind_eq_ok h
      split at h
      · obtain ⟨⟨r, rest''⟩, hr, h⟩ := exists_of_bind_eq_ok h
        cases h
        exact ((ih hr).trans (suffix_of_peek hx)).trans (ih hl)
      · cases h
        exact ih hl
    | operand =>
      rw [parse] at h
      obtain ⟨x, hx, h⟩ := exists_of_bind_eq_ok h
      split at h
      · cases h
        exact suffix_of_peek hx
      · cases h
        exact suffix_of_peek hx
      · cases h
        exact suffix_of_peek hx
      · obtain ⟨⟨e', rest'⟩, he, h⟩ := exists_of_bind_eq_ok h
        obtain ⟨y, hy, h⟩ := exists_of_bind_eq_ok h
        split at h
        · cases h
          exact ((suffix_of_peek hy).trans (ih he)).trans (suffix_of_peek hx)
        · cases h
      · cases h

/-- What follows a condition is the end of the text. -/
theorem suffix_of_read {e : Expr} (h : read cs = .ok (e, rest)) : rest <:+ cs := by
  rw [read] at h
  obtain ⟨⟨e', rest'⟩, hp, h⟩ := exists_of_bind_eq_ok h
  cases h
  exact (List.dropWhile_suffix _).trans (suffix_of_parse hp)

end Condition

/-! ### Bodies -/

namespace Instruction

/-- The opcode of conditions. -/
def ifOpcode : String := "if"

/-- The line that the instruction has run next: the body of a condition that can be read, is not
empty and holds. -/
def body? (look : Variable → Value) (i : Instruction) : Option String :=
  if i.opcode = ifOpcode then
    match Condition.read i.argument.toList with
    | .error _ => none
    | .ok (condition, rest) =>
      let body := String.ofList (Text.trim rest)
      if body = "" then none
      else
        match condition.isTrue look with
        | .ok true => some body
        | _ => none
  else none

variable {look : Variable → Value} {i : Instruction} {body : String}

theorem body?_of_ne (h : i.opcode ≠ ifOpcode) : i.body? look = none := if_neg h

/-- A body is part of the argument of its condition. -/
theorem length_of_body? (h : i.body? look = some body) :
    i.opcode = ifOpcode ∧ body.length ≤ i.argument.length := by
  unfold body? at h
  split at h
  · next hif =>
    refine ⟨hif, ?_⟩
    split at h
    · cases h
    · next condition rest hread =>
      dsimp only at h
      split at h
      · cases h
      · split at h
        · cases h
          rw [← String.length_toList, String.toList_ofList]
          have hrest := (Condition.suffix_of_read hread).length_le
          exact Nat.le_trans (Text.length_trim_le rest) hrest
        · cases h
  · cases h

end Instruction

/-- What a condition that holds puts in front of the rest of its line. -/
def Instruction.taken (look : Variable → Value) (i : Instruction) : List Instruction :=
  (i.body? look).elim [] Line.instructions

/-! ### Lines -/

namespace Line

variable {look : Variable → Value} {line : String} {i : Instruction}

/-- Opcode and argument are parts of a command line. -/
theorem length_cut_le (cs : List Char) :
    (cut cs).1.length + (cut cs).2.length ≤ cs.length := by
  have hsplit (p : Char → Bool) (ds : List Char) :
      (ds.takeWhile p).length + (ds.dropWhile p).length = ds.length := by
    rw [← List.length_append, List.takeWhile_append_dropWhile]
  unfold cut
  split
  · exact Nat.le_of_eq (Nat.add_comm ..)
  · exact Nat.le_of_eq (hsplit _ _)
  · have htrim := Text.length_trim_le ((cs.dropWhile (· ≠ ' ')).drop 1)
    have := hsplit (· ≠ ' ') cs
    rw [List.length_drop] at htrim
    dsimp only
    omega

/-- A trimmed line has an opcode. -/
theorem cut_fst_ne_nil {c : Char} {cs : List Char} (h : Text.isBlank c = false) :
    (cut (c :: cs)).1 ≠ [] := by
  unfold cut
  split
  · exact List.cons_ne_nil _ _
  · simp
  · have hc : c ≠ ' ' := by
      rintro rfl
      exact absurd h (by decide)
    simp [hc]

/-- What a line stands for: nothing, one instruction, or an instruction that is no condition and a
page break. -/
inductive Form (line : String) : List Instruction → Prop where
  /-- The line is blank. -/
  | blank : Form line []
  /-- It is an opcode with its argument. -/
  | one (i : Instruction) : i.opcode.length + i.argument.length ≤ line.length → 1 ≤ line.length →
      Form line [i]
  /-- A page break closes it. -/
  | closed (i : Instruction) : i.opcode ≠ Instruction.ifOpcode → 2 ≤ line.length →
      Form line [i, .pageBreak]

theorem form_instructions (line : String) : Form line (instructions line) := by
  have htrim := Text.length_trim_le line.toList
  rw [String.length_toList] at htrim
  unfold instructions
  split
  · exact .blank
  · next cs hne =>
    have hcut := length_cut_le (Text.trim line.toList)
    have hopcode : (cut (Text.trim line.toList)).1 ≠ [] := by
      cases hcs : Text.trim line.toList with
      | nil => exact absurd hcs hne
      | cons c ds => exact cut_fst_ne_nil (Text.isBlank_of_trim_eq_cons hcs)
    have hpos := List.length_pos_iff.2 hopcode
    generalize cut (Text.trim line.toList) = r at hcut hopcode hpos ⊢
    obtain ⟨opcode, argument⟩ := r
    dsimp only at hcut hpos ⊢
    split
    · next hs =>
      refine .closed _ (fun hif => ?_) ?_
      · have : opcode = Instruction.ifOpcode.toList := by
          rw [← hif, String.toList_ofList]
        simp [splitsPageBreak, this, Instruction.ifOpcode] at hs
      · have hlast := List.length_pos_of_mem (List.mem_of_getLast? hs.2)
        omega
    · refine .one _ ?_ ?_
      · simp only [String.length_ofList]
        omega
      · omega

/-- The body of a condition is shorter than its line. -/
theorem length_body_lt (hi : i ∈ instructions line) {body : String}
    (hb : i.body? look = some body) : body.length < line.length := by
  obtain ⟨hif, hle⟩ := Instruction.length_of_body? hb
  have hform := form_instructions line
  generalize instructions line = l at hi hform
  cases hform with
  | blank => exact absurd hi List.not_mem_nil
  | one j hlen =>
    obtain rfl := List.mem_singleton.1 hi
    rw [hif] at hlen
    have htwo : Instruction.ifOpcode.length = 2 := rfl
    omega
  | closed j hne =>
    rcases List.mem_cons.1 hi with rfl | hi
    · exact absurd hif hne
    · rw [List.mem_singleton.1 hi] at hif
      exact absurd hif (by decide)

/-- What a line comes to with these variables: its instructions in order, each condition that holds
followed by what its body comes to. -/
def expand (look : Variable → Value) (line : String) : List Instruction :=
  (instructions line).attach.flatMap fun i =>
    i.1 :: match _ : i.1.body? look with
      | some body => expand look body
      | none => []
termination_by line.length
decreasing_by exact length_body_lt i.2 ‹_›

/-- What is run for one instruction. -/
def unroll (look : Variable → Value) (i : Instruction) : List Instruction :=
  i :: (i.body? look).elim [] (expand look)

theorem expand_eq (look : Variable → Value) (line : String) :
    expand look line = (instructions line).flatMap (unroll look) := by
  rw [expand]
  conv => rhs; rw [← List.attach_map_subtype_val (instructions line)]
  rw [List.flatMap_map]
  congr 1
  funext i
  rw [unroll]
  congr 1
  split <;> simp [*]

/-- An instruction that is no condition that holds stands for itself. -/
theorem unroll_eq_singleton (h : i.body? look = none) : unroll look i = [i] := by
  rw [unroll, h, Option.elim_none]

theorem unroll_eq_cons (look : Variable → Value) (i : Instruction) :
    unroll look i = i :: (i.taken look).flatMap (unroll look) := by
  rw [unroll, Instruction.taken]
  cases i.body? look with
  | none => rfl
  | some body => rw [Option.elim_some, Option.elim_some, expand_eq]

/-- **A line comes to no more instructions than it has characters.** -/
theorem length_expand_le (look : Variable → Value) (line : String) :
    (expand look line).length ≤ line.length := by
  induction hn : line.length using Nat.strongRecOn generalizing line with
  | ind n ih =>
    subst hn
    have hlt := @length_body_lt look line
    have hform := form_instructions line
    rw [expand_eq]
    generalize instructions line = l at hlt hform
    cases hform with
    | blank => exact Nat.zero_le _
    | one i _ hpos =>
      rw [List.flatMap_singleton]
      cases hb : i.body? look with
      | none => rw [unroll_eq_singleton hb]; exact hpos
      | some body =>
        have hbody := hlt List.mem_cons_self hb
        have := ih _ hbody body rfl
        rw [unroll, hb, Option.elim_some, List.length_cons]
        omega
    | closed i hne hpos =>
      have hi : unroll look i = [i] := unroll_eq_singleton (Instruction.body?_of_ne hne)
      have hp : unroll look .pageBreak = [.pageBreak] :=
        unroll_eq_singleton (Instruction.body?_of_ne (by decide))
      simpa [hi, hp] using hpos

end Line

/-! ### What is left of a line -/

/-- Nothing but page breaks is still to run. -/
def Closing (queue : List Instruction) : Prop := ∀ i ∈ queue, i = .pageBreak

theorem Closing.tail {queue : List Instruction} (h : Closing queue) : Closing queue.tail :=
  fun i hi => h i (List.mem_of_mem_tail hi)

theorem closing_nil : Closing [] := fun _ hi => absurd hi List.not_mem_nil

/-- A line is one instruction, with a page break after it at most. -/
theorem Line.closing_tail_instructions (line : String) : Closing (instructions line).tail := by
  rw [instructions]
  split
  · exact closing_nil
  · dsimp only
    split
    · exact fun i hi => List.mem_singleton.1 hi
    · exact closing_nil

theorem Closing.append {l rest : List Instruction} (hl : Closing l.tail) (h : Closing rest) :
    Closing (l ++ rest).tail := by
  cases l with
  | nil => exact h.tail
  | cons i l => exact fun j hj => (List.mem_append.1 hj).elim (hl j) (h j)

theorem Instruction.closing_tail_taken (look : Variable → Value) (i : Instruction) :
    Closing (i.taken look).tail := by
  rw [taken]
  cases i.body? look with
  | none => exact closing_nil
  | some body => exact Line.closing_tail_instructions body

/-- Page breaks stand for themselves. -/
theorem Closing.flatMap_unroll {queue : List Instruction} (h : Closing queue)
    (look : Variable → Value) : queue.flatMap (Line.unroll look) = queue := by
  induction queue with
  | nil => rfl
  | cons i rest ih =>
    obtain ⟨rfl, hrest⟩ := List.forall_mem_cons.1 h
    have hi : Line.unroll look .pageBreak = [.pageBreak] :=
      Line.unroll_eq_singleton (Instruction.body?_of_ne (by decide))
    rw [List.flatMap_cons, hi, ih hrest, List.singleton_append]

end Novella
