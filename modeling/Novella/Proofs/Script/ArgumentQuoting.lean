import Mathlib.Data.List.Forall2
import Mathlib.Data.List.Induction
import Novella.Proofs.Text.Trimming
import Novella.Script.Arguments

/-!
# Argument lists and quotes

Quotes protect the commas of an argument. So a list of arguments can be written down and read again:
every argument between quotes, or bare if it has no comma, and the blanks around it do not matter.
Only quotes themselves and blank ends cannot be written, and an empty argument that stands alone,
since nothing tells it from a list without arguments.

Whatever the text, there is one argument more than there are commas outside of quotes, unless the
text is a single argument that is blank.

## Main definitions

* `Arguments.IsPlain` — arguments without quotes and blank ends
* `Arguments.Entry` — how an argument may be written
* `Arguments.outerCommas` — how many commas stand outside of quotes
* `Arguments.Scan.Reads` — what a scan knows of the text it has taken

## Main results

* `Arguments.Scan.reads_foldl` — a scan knows quotes, commas and the first argument
* `Arguments.split_listing` — a list that is written down is read again
* `Arguments.length_split` — how many arguments there are
* `Arguments.lists_read_back` — both together
-/

namespace Novella

namespace Arguments

variable {s : Scan} {cs w : List Char} {arg : String} {args : List String}
  {entries : List (List Char)}

/-! ### Lists in writing -/

/-- Neither a quote nor a blank end would come back. -/
structure IsPlain (arg : String) : Prop where
  /-- There is no quote. -/
  no_quote : '"' ∉ arg.toList
  /-- There are no blank ends. -/
  trimmed : Text.IsTrimmed arg.toList

instance (arg : String) : Decidable (IsPlain arg) :=
  decidable_of_iff ('"' ∉ arg.toList ∧ Text.IsTrimmed arg.toList)
    ⟨fun h => ⟨h.1, h.2⟩, fun h => ⟨h.no_quote, h.trimmed⟩⟩

/-- An argument is written between quotes, or bare if it has no comma, with any blanks around it. -/
inductive Entry (arg : String) : List Char → Prop where
  /-- Between quotes. -/
  | quoted (before behind : List Char) : (∀ c ∈ before, Text.isBlank c = true) →
      (∀ c ∈ behind, Text.isBlank c = true) →
      Entry arg (before ++ '"' :: (arg.toList ++ '"' :: behind))
  /-- Bare. -/
  | bare (before behind : List Char) : ',' ∉ arg.toList → (∀ c ∈ before, Text.isBlank c = true) →
      (∀ c ∈ behind, Text.isBlank c = true) → Entry arg (before ++ (arg.toList ++ behind))

/-- Blanks neither divide nor protect. -/
theorem not_mem_blanks (h : ∀ c ∈ cs, Text.isBlank c = true) : '"' ∉ cs ∧ ',' ∉ cs :=
  ⟨fun hc => absurd (h _ hc) (by decide), fun hc => absurd (h _ hc) (by decide)⟩

namespace Scan

theorem next_quote (s : Scan) : s.next '"' = { s with quoted := !s.quoted } := rfl

/-- A comma that is not protected ends the argument. -/
theorem next_comma (hs : s.quoted = false) :
    s.next ',' = { s with closed := Text.trim s.current.reverse :: s.closed, current := [] } := by
  rw [next, if_neg (by decide), if_pos ⟨rfl, hs⟩]

theorem next_of_ne {c : Char} (hquote : c ≠ '"') (hcomma : c = ',' → s.quoted = true) :
    s.next c = { s with current := c :: s.current } := by
  rw [next, if_neg hquote, if_neg fun h => by simp [hcomma h.1] at h]

/-- Without quotes, and without commas that are not protected, a text is taken as it is. -/
theorem foldl_next (hquote : '"' ∉ cs) (hcomma : s.quoted = true ∨ ',' ∉ cs) :
    cs.foldl next s = { s with current := cs.reverse ++ s.current } := by
  induction cs generalizing s with
  | nil => rfl
  | cons c cs ih =>
    rw [List.mem_cons, not_or] at hquote
    have hnext : s.next c = { s with current := c :: s.current } := by
      refine next_of_ne (Ne.symm hquote.1) fun hc => hcomma.resolve_right fun h => h ?_
      exact hc ▸ List.mem_cons_self
    have hrest : s.quoted = true ∨ ',' ∉ cs := hcomma.imp_right (mt (List.mem_cons_of_mem c))
    rw [List.foldl_cons, hnext, ih (s := { s with current := c :: s.current }) hquote.2 hrest,
      List.reverse_cons, List.append_assoc]
    rfl

/-- A written argument is taken between its blanks, without its quotes. -/
theorem foldl_entry (h : Entry arg w) (hquote : '"' ∉ arg.toList) (hs : s.quoted = false) :
    ∃ before behind, (∀ c ∈ before, Text.isBlank c = true) ∧
      (∀ c ∈ behind, Text.isBlank c = true) ∧
      w.foldl next s =
        { s with current := (before ++ (arg.toList ++ behind)).reverse ++ s.current } := by
  cases h with
  | quoted before behind hbefore hbehind =>
    refine ⟨before, behind, hbefore, hbehind, ?_⟩
    obtain ⟨hq, hc⟩ := not_mem_blanks hbefore
    obtain ⟨hq', hc'⟩ := not_mem_blanks hbehind
    rw [List.foldl_append, foldl_next hq (.inr hc), List.foldl_cons, next_quote, List.foldl_append,
      foldl_next hquote (.inl (by simp [hs])), List.foldl_cons, next_quote,
      foldl_next hq' (.inr hc')]
    simp
  | bare before behind hcomma hbefore hbehind =>
    refine ⟨before, behind, hbefore, hbehind, foldl_next ?_ (.inr ?_)⟩
    · simp [hquote, not_mem_blanks hbefore, not_mem_blanks hbehind]
    · simp [hcomma, not_mem_blanks hbefore, not_mem_blanks hbehind]

/-- So what is between commas is the argument that was written. -/
theorem exists_current (h : Entry arg w) (ha : IsPlain arg) (closed : List (List Char)) :
    ∃ current, Text.trim current.reverse = arg.toList ∧
      w.foldl next ⟨closed, [], false⟩ = ⟨closed, current, false⟩ := by
  obtain ⟨before, behind, hbefore, hbehind, heq⟩ :=
    foldl_entry (s := ⟨closed, [], false⟩) h ha.no_quote rfl
  refine ⟨_, ?_, heq⟩
  rw [List.append_nil, List.reverse_reverse, Text.trim_blanks_append hbefore,
    Text.trim_append_blanks hbehind, Text.trim_of_isTrimmed ha.trimmed]

/-- The rest of a list is read after the arguments that are closed. An empty argument alone gets
lost. -/
theorem arguments_foldl_listing (h : List.Forall₂ Entry args entries) (hne : args ≠ [])
    (ha : ∀ arg ∈ args, IsPlain arg) (closed : List (List Char)) :
    (([','].intercalate entries).foldl next ⟨closed, [], false⟩).arguments =
      if closed = [] ∧ args = [""] then [] else closed.reverse ++ args.map String.toList := by
  induction h generalizing closed with
  | nil => exact absurd rfl hne
  | @cons arg w args entries hw hrest ih =>
    obtain ⟨current, htrim, hcurrent⟩ := exists_current hw (ha _ List.mem_cons_self) closed
    cases hrest with
    | nil =>
      rw [List.intercalate_singleton, hcurrent, arguments, htrim]
      simp [and_comm]
    | cons hw' hrest' =>
      have ih := ih (List.cons_ne_nil _ _) (fun b hb => ha b (List.mem_cons_of_mem _ hb))
        (arg.toList :: closed)
      rw [List.intercalate_cons_cons, List.foldl_append, List.foldl_append, hcurrent,
        List.foldl_cons, List.foldl_nil, next_comma rfl, htrim, ih]
      simp

end Scan

/-- A list that is written down is read again, unless it is an empty argument alone. -/
theorem split_listing (h : List.Forall₂ Entry args entries) (ha : ∀ arg ∈ args, IsPlain arg) :
    split (String.ofList ([','].intercalate entries)) = if args = [""] then [] else args := by
  cases args with
  | nil =>
    cases h
    rfl
  | cons arg args =>
    rw [split, String.toList_ofList, Scan.arguments_foldl_listing h (List.cons_ne_nil _ _) ha []]
    by_cases hempty : arg :: args = [""]
    · rw [if_pos ⟨rfl, hempty⟩, if_pos hempty, List.map_nil]
    · rw [if_neg fun h => hempty h.2, if_neg hempty, List.reverse_nil, List.nil_append,
        List.map_map]
      simp [Function.comp_def]

/-! ### Commas outside of quotes -/

/-- The commas outside of quotes: an even number of quotes stands before them. -/
def outerCommas (cs : List Char) : Nat :=
  (List.range cs.length).countP fun i => cs[i]? = some ',' ∧ (cs.take i).count '"' % 2 = 0

theorem outerCommas_concat (cs : List Char) (c : Char) :
    outerCommas (cs ++ [c]) =
      outerCommas cs + if c = ',' ∧ cs.count '"' % 2 = 0 then 1 else 0 := by
  rw [outerCommas, List.length_append, List.length_singleton, List.range_succ, List.countP_append,
    outerCommas]
  congr 1
  · refine List.countP_congr fun i hi => ?_
    have hlt : i < cs.length := List.mem_range.1 hi
    rw [List.getElem?_append_left hlt, List.take_append_of_le_length hlt.le]
  · simp [List.countP_cons]

theorem outerCommas_eq_zero (h : ',' ∉ cs) : outerCommas cs = 0 := by
  refine List.countP_eq_zero.2 fun i _ hi => h ?_
  exact List.mem_of_getElem? (of_decide_eq_true hi).1

namespace Scan

/-- What a scan knows of the text it has taken. -/
structure Reads (s : Scan) (cs : List Char) : Prop where
  /-- Whether the number of quotes is odd. -/
  quoted : s.quoted = decide (cs.count '"' % 2 = 1)
  /-- How many commas stand outside of quotes. -/
  closed : s.closed.length = outerCommas cs
  /-- The first argument, until it is closed. -/
  current : s.closed = [] → s.current.reverse = cs.filter (· ≠ '"')

/-- One more character is taken. -/
theorem Reads.next (h : s.Reads cs) (c : Char) : (s.next c).Reads (cs ++ [c]) := by
  by_cases hquote : c = '"'
  · -- a quote changes the parity, and nothing else
    subst hquote
    refine ⟨?_, ?_, fun hclosed => ?_⟩
    · rw [next_quote, h.quoted, List.count_append, List.count_singleton_self]
      dsimp only
      rw [← decide_not, decide_eq_decide]
      omega
    · rw [next_quote, outerCommas_concat, if_neg (by simp)]
      exact h.closed
    · rw [next_quote, List.filter_append, ← h.current hclosed]
      simp
  by_cases hcomma : c = ',' ∧ s.quoted = false
  · -- a comma counts, as the quotes before it are even in number
    obtain ⟨rfl, hs⟩ := hcomma
    have heven : cs.count '"' % 2 = 0 := by
      have hodd := h.quoted
      rw [hs, eq_comm, decide_eq_false_iff_not] at hodd
      omega
    rw [next_comma hs]
    refine ⟨?_, ?_, fun hclosed => absurd hclosed (List.cons_ne_nil _ _)⟩
    · rw [List.count_append, List.count_singleton, if_neg (by decide)]
      exact h.quoted
    · rw [outerCommas_concat, if_pos ⟨rfl, heven⟩, List.length_cons, h.closed]
  · -- any other character goes into the open argument, a protected comma, too
    have hprotected : c = ',' → s.quoted = true := fun hc => by simpa [hc] using hcomma
    rw [next_of_ne hquote hprotected]
    refine ⟨?_, ?_, fun hclosed => ?_⟩
    · rw [List.count_append, List.count_singleton, if_neg (by simp [hquote])]
      exact h.quoted
    · have hodd : ¬ (c = ',' ∧ cs.count '"' % 2 = 0) := fun ⟨hc, heven⟩ => by
        have hquoted := hprotected hc
        rw [h.quoted, decide_eq_true_iff] at hquoted
        omega
      rw [outerCommas_concat, if_neg hodd]
      exact h.closed
    · rw [List.reverse_cons, h.current hclosed, List.filter_append, List.filter_singleton]
      simp [hquote]

theorem reads_foldl (cs : List Char) : (cs.foldl Scan.next {}).Reads cs := by
  induction cs using List.reverseRecOn with
  | nil => exact ⟨rfl, rfl, fun _ => rfl⟩
  | append_singleton cs c ih =>
    rw [List.foldl_append]
    exact ih.next c

/-- There is only one argument, and it is blank, if there are only blanks and quotes. -/
theorem Reads.blank_iff (h : s.Reads cs) :
    s.closed = [] ∧ Text.trim s.current.reverse = [] ↔
      cs.all (fun c => c = '"' || Text.isBlank c) = true := by
  simp only [List.all_eq_true, Bool.or_eq_true, decide_eq_true_iff]
  constructor
  · rintro ⟨hclosed, htrim⟩ c hc
    rw [h.current hclosed, Text.trim_eq_nil_iff] at htrim
    by_cases hquote : c = '"'
    · exact .inl hquote
    · exact .inr (htrim c (List.mem_filter.2 ⟨hc, decide_eq_true hquote⟩))
  · intro hall
    have hcomma : ',' ∉ cs := fun hc => absurd (hall _ hc) (by decide)
    have hclosed : s.closed = [] := by
      rw [← List.length_eq_zero_iff, h.closed, outerCommas_eq_zero hcomma]
    refine ⟨hclosed, ?_⟩
    rw [h.current hclosed, Text.trim_eq_nil_iff]
    intro c hc
    obtain ⟨hc, hquote⟩ := List.mem_filter.1 hc
    exact (hall c hc).resolve_left (of_decide_eq_true hquote)

theorem length_arguments (s : Scan) :
    s.arguments.length =
      if s.closed = [] ∧ Text.trim s.current.reverse = [] then 0 else s.closed.length + 1 := by
  rw [arguments]
  simp only [and_comm]
  split <;> simp

end Scan

/-- There is one argument more than commas outside of quotes, unless the only one is blank. -/
theorem length_split (argument : String) :
    (split argument).length =
      if argument.toList.all (fun c => c = '"' || Text.isBlank c) then 0
      else outerCommas argument.toList + 1 := by
  have hreads := Scan.reads_foldl argument.toList
  rw [split, List.length_map, Scan.length_arguments]
  exact if_congr hreads.blank_iff rfl (by rw [hreads.closed])

/-- **Lists of arguments are read back.** A list that is written with quotes where there are commas,
and with any blanks around the arguments, is read as it was, except that an empty argument alone
gets lost. Of any text, as many arguments are read as there are commas outside of quotes and one
more, or none at all if the only one is blank. -/
theorem lists_read_back :
    (∀ (args : List String) (entries : List (List Char)), (∀ arg ∈ args, IsPlain arg) →
      List.Forall₂ Entry args entries →
        split (String.ofList ([','].intercalate entries)) = if args = [""] then [] else args) ∧
    ∀ argument : String,
      (split argument).length =
        if argument.toList.all (fun c => c = '"' || Text.isBlank c) then 0
        else outerCommas argument.toList + 1 :=
  ⟨fun _ _ ha h => split_listing h ha, length_split⟩

/-- A letter, a picture with a comma in its name, an empty argument and a number. -/
theorem picture_reads_back :
    (∀ arg ∈ ["c", "bg/a, b", "", "%10"], IsPlain arg) ∧
      List.Forall₂ Entry ["c", "bg/a, b", "", "%10"]
        [" c ".toList, "\"bg/a, b\"".toList, " \"\"".toList, "%10\t".toList] ∧
      split " c ,\"bg/a, b\", \"\",%10\t" = ["c", "bg/a, b", "", "%10"] := by
  have hplain : ∀ arg ∈ ["c", "bg/a, b", "", "%10"], IsPlain arg := by decide +kernel
  have hnone : ∀ c ∈ ([] : List Char), Text.isBlank c = true := List.forall_mem_nil _
  have hspace : ∀ c ∈ [' '], Text.isBlank c = true := List.forall_mem_singleton.2 rfl
  have hletter : Entry "c" " c ".toList := by
    rw [show " c ".toList = [' '] ++ ("c".toList ++ [' ']) by decide +kernel]
    exact .bare _ _ (by decide +kernel) hspace hspace
  have hname : Entry "bg/a, b" "\"bg/a, b\"".toList := by
    rw [show "\"bg/a, b\"".toList = [] ++ '"' :: ("bg/a, b".toList ++ ['"']) by decide +kernel]
    exact .quoted _ _ hnone hnone
  have hempty : Entry "" " \"\"".toList := by
    rw [show " \"\"".toList = [' '] ++ '"' :: ("".toList ++ ['"']) by decide +kernel]
    exact .quoted _ _ hspace hnone
  have hnumber : Entry "%10" "%10\t".toList := by
    rw [show "%10\t".toList = [] ++ ("%10".toList ++ ['\t']) by decide +kernel]
    exact .bare _ _ (by decide +kernel) hnone (List.forall_mem_singleton.2 rfl)
  have hentries := List.Forall₂.cons hletter (.cons hname (.cons hempty (.cons hnumber .nil)))
  have hread := lists_read_back.1 _ _ hplain hentries
  rw [if_neg (by decide)] at hread
  refine ⟨hplain, hentries, Eq.trans (congrArg split ?_) hread⟩
  decide +kernel

end Arguments

end Novella
