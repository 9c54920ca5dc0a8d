import Novella.Proofs.Script.LineRejoining

/-!
# Scenes line by line

The saved place in a scene is the number of a line, so it must not depend on how the text of the
scene was put together. It does not. The script lines of two texts with a newline between them are
those of the first one and then those of the second one, and a text without a newline comes to one
script line or to none. Whether a newline is written with a carriage return makes no difference, nor
does a newline at the end, because all that these rules decide about is blank and trimmed away.

What is read is in a normal form. Put together again, it makes a text that is read in the same way.

## Main definitions

* `Scene.IsNewline` — the two ways to write a newline
* `Scene.Joins` — a text that is put together from its parts
* `Scene.IsScriptLine` — what a script line looks like

## Main results

* `Scene.lines_eq_splitOn` — script lines by the newlines of the text alone
* `Scene.lines_append`, `Scene.lines_joins` — the lines of texts that are put together
* `Scene.isScriptLine_of_mem`, `Scene.lines_of_joins` — what is read is in normal form, and what is
  in normal form is read as it is
* `Scene.line_by_line` — all of this
-/

namespace Novella

namespace Scene

variable {text joined line newline : String} {ls : List String}

/-! ### Pieces of a text -/

/-- What is left of pieces of a text: those that are run, trimmed. -/
def remaining (pieces : List (List Char)) : List (List Char) :=
  (pieces.map Text.trim).filter isScript

theorem lines_eq_remaining (text : String) :
    lines text = (remaining (rawLines text.toList)).map String.ofList := rfl

theorem remaining_append (ps qs : List (List Char)) :
    remaining (ps ++ qs) = remaining ps ++ remaining qs := by
  rw [remaining, List.map_append, List.filter_append, remaining, remaining]

theorem remaining_cons (p : List Char) (ps : List (List Char)) :
    remaining (p :: ps) =
      (if isScript (Text.trim p) then [Text.trim p] else []) ++ remaining ps := by
  rw [remaining, List.map_cons, List.filter_cons, remaining]
  split <;> rfl

theorem remaining_cons_congr {p q : List Char} (h : Text.trim p = Text.trim q)
    (ps : List (List Char)) : remaining (p :: ps) = remaining (q :: ps) := by
  rw [remaining_cons, h, ← remaining_cons]

/-- The carriage return before a newline is blank. -/
theorem trim_beforeNewline (acc : List Char) :
    Text.trim (match acc with
      | '\r' :: acc => acc.reverse
      | acc => acc.reverse) = Text.trim acc.reverse := by
  split
  · rw [List.reverse_cons, Text.trim_append_blanks (List.forall_mem_singleton.2 rfl)]
  · rfl

theorem modifyHead_nothing (pieces : List (List Char)) :
    pieces.modifyHead (([] : List Char).reverse ++ ·) = pieces :=
  congrFun List.modifyHead_id pieces

/-- The rules for carriage returns and for the end of the text decide about blanks only. Here `acc`
is the open piece, last character first. -/
theorem remaining_go (acc cs : List Char) :
    remaining (rawLines.go acc cs) =
      remaining ((cs.splitOn '\n').modifyHead (acc.reverse ++ ·)) := by
  fun_induction rawLines.go acc cs with
  | case1 => rfl
  | case2 acc h => simp
  | case3 acc cs ih =>
    -- at a newline the open piece is closed, with or without its carriage return
    rw [modifyHead_nothing] at ih
    rw [List.splitOn_cons_eq_if_modifyHead, if_pos (by rfl), List.modifyHead_cons, List.append_nil]
    refine (remaining_cons_congr (trim_beforeNewline acc) _).trans ?_
    rw [remaining_cons, ih, ← remaining_cons]
  | case4 acc c cs hc ih =>
    have hc : ¬ (c == '\n') = true := by simpa using hc
    rw [ih, List.splitOn_cons_eq_if_modifyHead, if_neg hc, List.modifyHead_modifyHead]
    simp [Function.comp_def]

/-- The script lines of a text by its newlines alone. -/
theorem lines_eq_splitOn (text : String) :
    lines text = (remaining (text.toList.splitOn '\n')).map String.ofList := by
  rw [lines_eq_remaining, rawLines, remaining_go, modifyHead_nothing]

/-! ### Texts put together -/

theorem lines_append_newline (a b : String) : lines (a ++ "\n" ++ b) = lines a ++ lines b := by
  have hsplit : (a ++ "\n" ++ b).toList = a.toList ++ '\n' :: b.toList := by simp
  rw [lines_eq_splitOn, hsplit, List.splitOn_append_cons_self, remaining_append, List.map_append,
    ← lines_eq_splitOn, ← lines_eq_splitOn]

/-- Without a newline there is one script line, or none if the text is blank or a comment. -/
theorem lines_of_not_mem (h : '\n' ∉ line.toList) :
    lines line =
      if Text.trim line.toList = [] ∨ (Text.trim line.toList).head? = some ';' then []
      else [Text.trimmed line] := by
  rw [lines_eq_splitOn, List.splitOn_eq_singleton h, remaining_cons, Text.trimmed]
  cases Text.trim line.toList with
  | nil => rfl
  | cons c cs => by_cases hc : c = ';' <;> simp [isScript, remaining, hc]

/-- A carriage return at the end of a text is blank, too. -/
theorem lines_append_return (a : String) : lines (a ++ "\r") = lines a := by
  have hlast {line : String} (h : '\n' ∉ line.toList) : lines (line ++ "\r") = lines line := by
    have hreturn : (line ++ "\r").toList = line.toList ++ ['\r'] := String.toList_append
    rw [lines_of_not_mem (by simp [h]), lines_of_not_mem h, Text.trimmed, Text.trimmed, hreturn,
      Text.trim_append_blanks (List.forall_mem_singleton.2 rfl)]
  by_cases h : '\n' ∈ a.toList
  · -- it belongs to what follows the last newline
    obtain ⟨back, front, heq, hback⟩ := List.eq_append_cons_of_mem (List.mem_reverse.2 h)
    have ha : a = String.ofList front.reverse ++ "\n" ++ String.ofList back.reverse := by
      rw [← String.toList_inj, ← List.reverse_reverse a.toList, heq]
      simp
    rw [ha, String.append_assoc, lines_append_newline, lines_append_newline,
      hlast (by simpa using hback)]
  · exact hlast h

/-- A newline is a line feed, with a carriage return before it or not. -/
def IsNewline (s : String) : Prop := s = "\n" ∨ s = "\r\n"

theorem lines_append (h : IsNewline newline) (a b : String) :
    lines (a ++ newline ++ b) = lines a ++ lines b := by
  rcases h with rfl | rfl
  · exact lines_append_newline a b
  · rw [show a ++ "\r\n" ++ b = a ++ "\r" ++ "\n" ++ b by simp [String.append_assoc],
      lines_append_newline, lines_append_return]

/-- The text is put together from the parts, with a newline of either kind between any two. -/
inductive Joins : List String → String → Prop where
  /-- No parts make an empty text. -/
  | nil : Joins [] ""
  /-- A single part is the text. -/
  | single (a : String) : Joins [a] a
  /-- There is a newline between a part and the ones that follow. -/
  | cons (a : String) {b newline joined : String} {parts : List String} :
      IsNewline newline → Joins (b :: parts) joined →
      Joins (a :: b :: parts) (a ++ newline ++ joined)

theorem joins_intercalate (h : IsNewline newline) :
    ∀ parts, Joins parts (newline.intercalate parts)
  | [] => String.intercalate_nil ▸ .nil
  | [a] => String.intercalate_singleton ▸ .single a
  | a :: b :: parts => String.intercalate_cons_cons ▸ .cons a h (joins_intercalate h (b :: parts))

/-- The lines of all parts in turn are the lines of the whole. -/
theorem lines_joins (h : Joins ls joined) : lines joined = ls.flatMap lines := by
  induction h with
  | nil => rfl
  | single a => rw [List.flatMap_singleton]
  | cons a hn _ ih => rw [List.flatMap_cons, lines_append hn, ih]

/-! ### Script lines -/

/-- Script lines are single lines without blank ends that are neither blank nor comments. -/
structure IsScriptLine (line : String) : Prop where
  /-- It is a single line. -/
  single : '\n' ∉ line.toList
  /-- It has no blank ends. -/
  trimmed : Text.IsTrimmed line.toList
  /-- It is not blank. -/
  not_blank : ∃ c ∈ line.toList, Text.isBlank c = false
  /-- It is not a comment. -/
  not_comment : line.toList.head? ≠ some ';'

/-- The pieces between the newlines have none. -/
theorem not_mem_of_mem_splitOn {c : Char} {p cs : List Char} (h : p ∈ cs.splitOn c) : c ∉ p := by
  induction cs generalizing p with
  | nil =>
    obtain rfl : p = [] := by simpa using h
    exact List.not_mem_nil
  | cons d cs ih =>
    rw [List.splitOn_cons_eq_if_modifyHead] at h
    split at h
    · rcases List.mem_cons.1 h with rfl | h
      · exact List.not_mem_nil
      · exact ih h
    · next hd =>
      obtain ⟨q, qs, hq⟩ := List.exists_cons_of_ne_nil (List.splitOn_ne_nil c cs)
      rw [hq, List.modifyHead_cons] at h
      rcases List.mem_cons.1 h with rfl | h
      · have hcq : c ∉ q := ih (hq ▸ List.mem_cons_self)
        simp [hcq, show ¬ c = d from fun heq => hd (by simp [heq])]
      · exact ih (hq ▸ List.mem_cons_of_mem _ h)

theorem isScriptLine_of_mem (h : line ∈ lines text) : IsScriptLine line := by
  rw [lines_eq_splitOn] at h
  obtain ⟨cs, hcs, rfl⟩ := List.mem_map.1 h
  obtain ⟨hmem, hscript⟩ := List.mem_filter.1 hcs
  obtain ⟨p, hp, rfl⟩ := List.mem_map.1 hmem
  have hsingle : '\n' ∉ Text.trim p := fun hn =>
    not_mem_of_mem_splitOn hp (Text.mem_of_mem_trim hn)
  have htrimmed := Text.isTrimmed_trim p
  cases htrim : Text.trim p with
  | nil =>
    rw [htrim] at hscript
    cases hscript
  | cons c cs =>
    rw [htrim] at hscript hsingle htrimmed
    refine ⟨?_, ?_, ?_, ?_⟩ <;> rw [String.toList_ofList]
    · exact hsingle
    · exact htrimmed
    · exact ⟨c, List.mem_cons_self, htrimmed.front c rfl⟩
    · simpa [isScript] using hscript

namespace IsScriptLine

theorem ne_nil (h : IsScriptLine line) : line.toList ≠ [] := by
  obtain ⟨c, hc, -⟩ := h.not_blank
  exact List.ne_nil_of_mem hc

/-- A script line is read as it is. -/
theorem lines_eq (h : IsScriptLine line) : lines line = [line] := by
  have htrim := Text.trim_of_isTrimmed h.trimmed
  rw [lines_of_not_mem h.single, Text.trimmed, htrim, if_neg (not_or.2 ⟨h.ne_nil, h.not_comment⟩),
    String.ofList_toList]

/-- A script line stands for an instruction at least. -/
theorem instructions_ne_nil (h : IsScriptLine line) : Line.instructions line ≠ [] := by
  rw [Line.instructions_of_ne_nil (Text.trim_of_isTrimmed h.trimmed) h.ne_nil]
  split <;> exact List.cons_ne_nil _ _

end IsScriptLine

/-- Script lines are read as they are, however they are put together. -/
theorem lines_of_joins (h : ∀ line ∈ ls, IsScriptLine line) (hj : Joins ls joined) :
    lines joined = ls := by
  rw [lines_joins hj, List.flatMap_congr fun line hl => (h line hl).lines_eq,
    List.flatMap_singleton']

/-- **Scenes are read line by line.** The lines of two texts with a newline between them are those
of the first and then those of the second one, and a text without a newline comes to one line, or to
none if it is blank or a comment. What is read is in normal form and stands for an instruction at
least, and when it is put together again and read again it stays the same. -/
theorem line_by_line :
    (∀ a b newline, IsNewline newline → lines (a ++ newline ++ b) = lines a ++ lines b) ∧
    (∀ line : String, '\n' ∉ line.toList →
      lines line =
        if line.toList.all Text.isBlank ∨ (Text.trim line.toList).head? = some ';' then []
        else [Text.trimmed line]) ∧
    (∀ text, ∀ line ∈ lines text, IsScriptLine line ∧ Line.instructions line ≠ []) ∧
    (∀ text joined, Joins (lines text) joined → lines joined = lines text) ∧
    ∀ text, lines ("\n".intercalate (lines text)) = lines text := by
  have hnormal {text : String} : ∀ line ∈ lines text, IsScriptLine line :=
    fun _ => isScriptLine_of_mem
  refine ⟨fun a b _ h => lines_append h a b, fun line h => ?_,
    fun _ line h => ⟨hnormal line h, (hnormal line h).instructions_ne_nil⟩,
    fun _ _ hj => lines_of_joins hnormal hj,
    fun text => lines_of_joins hnormal (joins_intercalate (.inl rfl) _)⟩
  simpa only [Text.trim_eq_nil_iff, ← List.all_eq_true] using lines_of_not_mem h

/-- A scene with comments and with newlines of both kinds. -/
theorem commented_line_by_line :
    IsNewline "\r\n" ∧
      lines ("; night\n\n  bg black  " ++ "\r\n" ++ "`Hello@\n;\n") =
        lines "; night\n\n  bg black  " ++ lines "`Hello@\n;\n" ∧
      '\n' ∉ "  bg black  \r".toList ∧ lines "  bg black  \r" = ["bg black"] ∧
      "bg black" ∈ lines "; night\n\n  bg black  " ∧
      IsScriptLine "bg black" ∧ Line.instructions "bg black" ≠ [] ∧
      Joins (lines "  bg black  \n;\r\n`Hello@\n") "bg black\r\n`Hello@" ∧
      lines "bg black\r\n`Hello@" = ["bg black", "`Hello@"] := by
  obtain ⟨happend, hline, hscript, hjoined, -⟩ := line_by_line
  have hsingle : '\n' ∉ "  bg black  \r".toList := by decide +kernel
  have hmem : "bg black" ∈ lines "; night\n\n  bg black  " := by decide +kernel
  have hlines : lines "  bg black  \n;\r\n`Hello@\n" = ["bg black", "`Hello@"] := by
    decide +kernel
  have hjoins : Joins (lines "  bg black  \n;\r\n`Hello@\n") "bg black\r\n`Hello@" := by
    rw [hlines]
    exact .cons "bg black" (.inr rfl) (.single "`Hello@")
  obtain ⟨hshape, hne⟩ := hscript _ _ hmem
  refine ⟨.inr rfl, happend _ _ _ (.inr rfl), hsingle, ?_, hmem, hshape, hne, hjoins,
    (hjoined _ _ hjoins).trans hlines⟩
  rw [hline _ hsingle]
  decide +kernel

end Scene

end Novella
