import Novella.Proofs.Date.WrittenInstants
import Novella.Proofs.Script.LineExpansion

/-!
# The grammar of conditions

The reader of conditions looks one token ahead, past the end of the expression and into the body of
the line. Here its grammar stands on its own: which characters make a token, and which texts an
expression has, with blanks before any token, either spelling of an operator and any parentheses
that are not needed. The reader takes exactly the texts of the grammar off the front, and it stops
in front of a body that does not look like a token.

## Main definitions

* `Condition.Token.Written` — the written forms of a token
* `Condition.Derives` — the texts that an expression has at a level of the grammar
* `Condition.print` — one of them, with parentheses where the grammar needs them
* `Condition.IsBody` — a text that no condition goes on with

## Main results

* `Condition.read_append` — a text of the grammar is read as the expression it stands for
* `Condition.exists_of_read` — whatever is read has the form of the grammar
* `Condition.read_print` — printing and reading agree, and the body is left alone
-/

namespace Novella

namespace Text

theorem isWordChar_of_isDigit {c : Char} (h : c.isDigit = true) : isWordChar c = true := by
  have hc : 48 ≤ c.toNat ∧ c.toNat ≤ 57 := by
    simpa [Char.isDigit, UInt32.le_iff_toNat_le] using h
  have hlow : c.toNat < 0x80 := by omega
  simp [isWordChar, isAlphanumeric, hlow, Char.isAlphanum, h]

/-- Blanks are no part of a word. -/
theorem isWordChar_of_isBlank {c : Char} (h : isBlank c = true) : isWordChar c = false := by
  have hrange {m k n : Nat} (hall : ∀ i < k, isWordChar (Char.ofNat (m + i)) = false) (hm : m ≤ n)
      (hn : n < m + k) : isWordChar (Char.ofNat n) = false := by
    have hi := hall (n - m) (by omega)
    rwa [Nat.add_sub_of_le hm] at hi
  have hlow : ∀ i < 5, isWordChar (Char.ofNat (0x9 + i)) = false := by decide +kernel
  have hhigh : ∀ i < 11, isWordChar (Char.ofNat (0x2000 + i)) = false := by decide +kernel
  have hsingle : ∀ n ∈ [0x20, 0x85, 0xA0, 0x1680, 0x2028, 0x2029, 0x202F, 0x205F, 0x3000],
      isWordChar (Char.ofNat n) = false := by decide +kernel
  simp only [isBlank, Bool.or_eq_true, Bool.and_eq_true, decide_eq_true_eq] at h
  rw [← Char.ofNat_toNat c]
  rcases h with (((((((((h | h) | h) | h) | h) | h) | h) | h) | h) | h) | h
  · exact hrange hlow h.1 (Nat.lt_succ_of_le h.2)
  all_goals first
    | exact hrange hhigh h.1 (Nat.lt_succ_of_le h.2)
    | exact h ▸ hsingle _ (by decide)

end Text

namespace Condition

/-! ### Tokens -/

/-- The written forms of the operators and parentheses. -/
def symbols : List (Token × List Char) :=
  [(.compare .eq, ['=', '=']), (.compare .eq, ['=']), (.compare .ne, ['!', '=']),
   (.compare .ne, ['<', '>']), (.compare .le, ['<', '=']), (.compare .lt, ['<']),
   (.compare .ge, ['>', '=']), (.compare .gt, ['>']), (.and, ['&', '&']), (.or, ['|', '|']),
   (.opening, ['(']), (.closing, [')'])]

/-- The written forms of a token. -/
inductive Token.Written : Token → List Char → Prop where
  /-- An operator or a parenthesis. -/
  | symbol {t : Token} {text : List Char} : (t, text) ∈ symbols → Written t text
  /-- A text in quotes, which holds none. -/
  | str {s : List Char} : '"' ∉ s → Written (.str (String.ofList s)) ('"' :: s ++ ['"'])
  /-- A reference. -/
  | var {v : Variable} {text : List Char} : Variable.ofChars? text = some v → Written (.var v) text
  /-- Digits, with a minus before them or not. -/
  | int {sign digits : List Char} {n : Int64} : sign = [] ∨ sign = ['-'] →
      (∀ d ∈ digits, d.isDigit = true) → Numeral.int64? (sign ++ digits) = some n →
      Written (.int n) (sign ++ digits)

/-- The operand that is a token by itself. -/
def Token.operand? : Token → Option Expr
  | .int n => some (.literal (.int n))
  | .str s => some (.literal (.str s))
  | .var v => some (.var v)
  | _ => none

/-- The token ends where the text goes on like this. -/
def Token.Ends : Token → List Char → Prop
  | .int _, tail | .var _, tail => ∀ c ∈ tail.head?, Text.isWordChar c = false
  | .compare _, tail => ∀ c ∈ tail.head?, c ≠ '=' ∧ c ≠ '>'
  | _, _ => True

/-- A token begins here, well formed or not. -/
def beginsToken : List Char → Bool
  | [] => false
  | c :: cs =>
    c ∈ ['=', '<', '>', '(', ')', '"', '%', '$'] || c.isDigit ||
      c = '-' && cs.head?.any Char.isDigit || c = '!' && cs.head? = some '=' ||
      c = '&' && cs.head? = some '&' || c = '|' && cs.head? = some '|'

variable {cs tail text rest : List Char} {t : Token} {c : Char}

theorem ne_of_isDigit {d : Char} (h : c.isDigit = true) (hd : d.isDigit = false) : c ≠ d := by
  rintro rfl
  exact Bool.false_ne_true (hd.symm.trans h)

/-- An operator or a parenthesis is a token. -/
theorem symbol?_eq_none (h : beginsToken (c :: cs) = false) : symbol? (c :: cs) = none := by
  unfold symbol?
  split
  case h_13 => rfl
  all_goals
    next heq =>
      obtain ⟨rfl, rfl⟩ := List.cons.inj heq
      exact absurd h.symm Bool.false_ne_true

/-- No operator and no parenthesis begins with a digit. -/
theorem symbol?_of_isDigit (h : c.isDigit = true) : symbol? (c :: cs) = none := by
  unfold symbol?
  split
  case h_13 => rfl
  all_goals
    next heq =>
      obtain ⟨rfl, rfl⟩ := List.cons.inj heq
      exact absurd h (by decide)

theorem token_of_isDigit (h : c.isDigit = true) :
    token (c :: cs) = some <$> number [] (c :: cs) := by
  have hne {d : Char} (hd : d.isDigit = false) : c ≠ d := ne_of_isDigit h hd
  simp [token, symbol?_of_isDigit h, hne, h]

theorem token_minus (h : c.isDigit = true) :
    token ('-' :: c :: cs) = some <$> number ['-'] (c :: cs) :=
  if_pos h

/-- A stretch of characters ends where the next one is none of them. -/
theorem takeWhile_stretch {p : Char → Bool} (hp : ∀ c ∈ cs, p c = true)
    (ht : ∀ c ∈ tail.head?, p c = false) :
    (cs ++ tail).takeWhile p = cs ∧ (cs ++ tail).dropWhile p = tail := by
  rw [List.takeWhile_append_of_pos hp, List.dropWhile_append_of_pos hp]
  cases tail with
  | nil => exact ⟨List.append_nil _, rfl⟩
  | cons c tail =>
    have hc : ¬ p c = true := Bool.eq_false_iff.1 (ht c rfl)
    rw [List.takeWhile_cons_of_neg hc, List.dropWhile_cons_of_neg hc]
    exact ⟨List.append_nil _, rfl⟩

theorem number_append {sign digits : List Char} {n : Int64}
    (hd : ∀ d ∈ digits, d.isDigit = true) (hn : Numeral.int64? (sign ++ digits) = some n)
    (ht : ∀ c ∈ tail.head?, Text.isWordChar c = false) :
    number sign (digits ++ tail) = .ok (.int n, tail) := by
  have htail : ∀ c ∈ tail.head?, c.isDigit = false := by
    intro c hc
    refine Bool.eq_false_iff.2 fun h => ?_
    exact Bool.false_ne_true ((ht c hc).symm.trans (Text.isWordChar_of_isDigit h))
  obtain ⟨htake, hdrop⟩ := takeWhile_stretch hd htail
  simp only [number, htake, hdrop, hn]

theorem quoted_append {s : List Char} (hs : '"' ∉ s) :
    quoted (s ++ '"' :: tail) = .ok (.str (String.ofList s), tail) := by
  have hne : ∀ c ∈ s, decide (c ≠ '"') = true := by
    intro c hc
    exact decide_eq_true fun h => hs (h ▸ hc)
  rw [quoted, List.dropWhile_append_of_pos hne, List.takeWhile_append_of_pos hne]
  simp

theorem exists_of_ofChars? {v : Variable} (h : Variable.ofChars? cs = some v) :
    ∃ sigil name, cs = sigil :: name ∧ (sigil = '%' ∨ sigil = '$') ∧
      ∀ c ∈ name, Text.isWordChar c = true := by
  have hname {name : List Char} (hn : Variable.isName name = true) :
      ∀ c ∈ name, Text.isWordChar c = true :=
    List.all_eq_true.1 (Bool.and_eq_true_iff.1 hn).2
  unfold Variable.ofChars? at h
  split at h
  · split at h
    · next hn => exact ⟨'%', _, rfl, .inl rfl, hname hn⟩
    · cases h
  · split at h
    · next hn => exact ⟨'$', _, rfl, .inr rfl, hname hn⟩
    · cases h
  · cases h

theorem reference_append {sigil : Char} {name : List Char} {v : Variable}
    (hv : Variable.ofChars? (sigil :: name) = some v)
    (hname : ∀ c ∈ name, Text.isWordChar c = true)
    (ht : ∀ c ∈ tail.head?, Text.isWordChar c = false) :
    reference sigil (name ++ tail) = .ok (.var v, tail) := by
  obtain ⟨htake, hdrop⟩ := takeWhile_stretch hname ht
  simp only [reference, htake, hdrop, hv]

theorem symbol?_append (h : (t, text) ∈ symbols) (ht : t.Ends tail) :
    symbol? (text ++ tail) = some (t, tail) := by
  simp only [symbols, List.mem_cons, List.not_mem_nil, or_false, Prod.mk.injEq] at h
  rcases h with ⟨rfl, rfl⟩ | ⟨rfl, rfl⟩ | ⟨rfl, rfl⟩ | ⟨rfl, rfl⟩ | ⟨rfl, rfl⟩ | ⟨rfl, rfl⟩ |
    ⟨rfl, rfl⟩ | ⟨rfl, rfl⟩ | ⟨rfl, rfl⟩ | ⟨rfl, rfl⟩ | ⟨rfl, rfl⟩ | ⟨rfl, rfl⟩
  all_goals first
    | rfl
    | cases tail with
      | nil => rfl
      | cons c cs =>
        obtain ⟨heq, hgt⟩ := ht c rfl
        simp [symbol?, heq, hgt]

theorem token_of_symbol? (h : symbol? cs = some (t, rest)) : token cs = .ok (some (t, rest)) := by
  unfold token
  rw [h]

/-- What is read behind a sign, a quote or a sigil is the token. -/
theorem map_some_ok {x : Except ConditionError (Token × List Char)} (h : x = .ok (t, rest)) :
    some <$> x = .ok (some (t, rest)) := by
  rw [h]
  rfl

/-- A written token is read up to its end. -/
theorem token_append (h : t.Written text) (ht : t.Ends tail) :
    token (text ++ tail) = .ok (some (t, tail)) := by
  cases h with
  | symbol h => exact token_of_symbol? (symbol?_append h ht)
  | @str s hs =>
    have hq : quoted (s ++ '"' :: tail) = .ok (.str (String.ofList s), tail) := quoted_append hs
    simpa [token, symbol?] using map_some_ok hq
  | var hv =>
    obtain ⟨sigil, name, rfl, rfl | rfl, hname⟩ := exists_of_ofChars? hv
    · exact map_some_ok (reference_append hv hname ht)
    · exact map_some_ok (reference_append hv hname ht)
  | @int sign digits n hsign hd hn =>
    have hnum := map_some_ok (number_append hd hn ht)
    cases digits with
    | nil => rcases hsign with rfl | rfl <;> cases hn
    | cons d ds =>
      have hdigit := hd d List.mem_cons_self
      rcases hsign with rfl | rfl
      · exact (token_of_isDigit hdigit).trans hnum
      · exact (token_minus hdigit).trans hnum

theorem mem_symbols_of_symbol? (h : symbol? cs = some (t, rest)) :
    ∃ text, cs = text ++ rest ∧ (t, text) ∈ symbols := by
  unfold symbol? at h
  split at h
  all_goals first
    | (obtain ⟨rfl, rfl⟩ := Prod.mk.inj (Option.some.inj h)
       first | exact ⟨[_, _], rfl, by decide⟩ | exact ⟨[_], rfl, by decide⟩)
    | cases h

theorem written_of_quoted (h : quoted cs = .ok (t, rest)) :
    ∃ text, '"' :: cs = text ++ rest ∧ t.Written text := by
  rw [quoted] at h
  split at h
  · next q rest' hdrop =>
    cases h
    have hq : q = '"' := by
      have hhead := List.head?_dropWhile_not (· ≠ '"') cs
      rw [hdrop] at hhead
      simpa using hhead
    have hs : '"' ∉ cs.takeWhile (· ≠ '"') := by
      intro hm
      simpa using List.all_eq_true.1 List.all_takeWhile _ hm
    have hcs : cs = cs.takeWhile (· ≠ '"') ++ '"' :: rest := by
      rw [← hq, ← hdrop, hq, List.takeWhile_append_dropWhile]
    refine ⟨'"' :: cs.takeWhile (· ≠ '"') ++ ['"'], ?_, .str hs⟩
    rw [List.append_assoc, List.singleton_append, List.cons_append, ← hcs]
  · cases h

theorem written_of_reference {sigil : Char} (h : reference sigil cs = .ok (t, rest)) :
    ∃ text, sigil :: cs = text ++ rest ∧ t.Written text := by
  simp only [reference] at h
  split at h
  · next v hv =>
    cases h
    exact ⟨_, congrArg (sigil :: ·) List.takeWhile_append_dropWhile.symm, .var hv⟩
  · cases h

theorem written_of_number {sign : List Char} (hs : sign = [] ∨ sign = ['-'])
    (h : number sign cs = .ok (t, rest)) : ∃ text, sign ++ cs = text ++ rest ∧ t.Written text := by
  simp only [number] at h
  split at h
  · next n hn =>
    cases h
    refine ⟨sign ++ cs.takeWhile Char.isDigit, ?_, .int hs (fun d hd => ?_) hn⟩
    · rw [List.append_assoc, List.takeWhile_append_dropWhile]
    · exact List.all_eq_true.1 List.all_takeWhile d hd
  · cases h

/-- What is read as a token is a written form of it. -/
theorem written_of_token (h : token cs = .ok (some (t, rest))) (ht : t ≠ .other) :
    ∃ text, cs = text ++ rest ∧ t.Written text := by
  unfold token at h
  split at h
  · next hs =>
    cases h
    obtain ⟨text, rfl, hm⟩ := mem_symbols_of_symbol? hs
    exact ⟨text, rfl, .symbol hm⟩
  · split at h
    · cases h
    · exact written_of_quoted (exists_of_map_some h)
    · exact written_of_reference (exists_of_map_some h)
    · exact written_of_reference (exists_of_map_some h)
    · split at h
      · exact written_of_number (.inr rfl) (exists_of_map_some h)
      · cases h
        exact absurd rfl ht
    · split at h
      · exact written_of_number (.inl rfl) (exists_of_map_some h)
      · cases h
        exact absurd rfl ht

/-- Where no token begins, something else does. -/
theorem token_of_not_begins (h : beginsToken (c :: cs) = false) :
    token (c :: cs) = .ok (some (.other, c :: cs)) := by
  simp only [token, symbol?_eq_none h]
  split
  · next heq => cases heq
  · next heq =>
    obtain ⟨rfl, rfl⟩ := List.cons.inj heq
    exact absurd h.symm Bool.false_ne_true
  · next heq =>
    obtain ⟨rfl, rfl⟩ := List.cons.inj heq
    exact absurd h.symm Bool.false_ne_true
  · next heq =>
    obtain ⟨rfl, rfl⟩ := List.cons.inj heq
    exact absurd h.symm Bool.false_ne_true
  · next d ds heq =>
    obtain ⟨rfl, rfl⟩ := List.cons.inj heq
    refine if_neg fun hd => ?_
    simp [beginsToken, hd] at h
  · next d ds _ heq =>
    obtain ⟨rfl, rfl⟩ := List.cons.inj heq
    refine if_neg fun hd => ?_
    simp [beginsToken, hd] at h

/-! ### Tokens behind blanks -/

/-- A token with blanks before it. -/
inductive Token.Spaced : Token → List Char → Prop where
  /-- The blanks, and then the token. -/
  | mk {t : Token} {blanks text : List Char} : (∀ c ∈ blanks, Text.isBlank c = true) →
      t.Written text → Spaced t (blanks ++ text)

/-- What the first character of a written token tells about the token. -/
structure Token.Begins (t : Token) (c : Char) : Prop where
  /-- A token does not begin with a blank. -/
  not_blank : Text.isBlank c = false
  /-- Operators and parentheses do not go on with a word. -/
  not_word : t.operand? = none → Text.isWordChar c = false
  /-- No other token goes on with a comparison operator. -/
  not_compare : (∀ op, t ≠ .compare op) → c ≠ '=' ∧ c ≠ '>'

theorem Token.begins_of_isDigit {n : Int64} (h : c.isDigit = true) : (Token.int n).Begins c :=
  ⟨Text.isBlank_of_isDigit h, nofun, fun _ => ⟨ne_of_isDigit h rfl, ne_of_isDigit h rfl⟩⟩

theorem Token.begins_of_symbols : ∀ x ∈ symbols, ∃ c cs, x.2 = c :: cs ∧ x.1.Begins c := by
  simp only [symbols, List.forall_mem_cons, List.not_mem_nil, false_imp_iff, implies_true, and_true]
  refine ⟨?_, ?_, ?_, ?_, ?_, ?_, ?_, ?_, ?_, ?_, ?_, ?_⟩
  all_goals refine ⟨_, _, rfl, by decide, fun _ => by decide, fun h => ?_⟩
  all_goals first
    | exact ⟨by decide, by decide⟩
    | exact absurd rfl (h _)

theorem Token.Written.begins (h : t.Written text) : ∃ c cs, text = c :: cs ∧ t.Begins c := by
  cases h with
  | symbol h => exact begins_of_symbols _ h
  | str _ => exact ⟨'"', _, rfl, by decide, nofun, fun _ => by decide⟩
  | var hv =>
    obtain ⟨sigil, name, rfl, rfl | rfl, -⟩ := exists_of_ofChars? hv
    · exact ⟨'%', name, rfl, by decide, nofun, fun _ => by decide⟩
    · exact ⟨'$', name, rfl, by decide, nofun, fun _ => by decide⟩
  | @int sign digits n hsign hd hn =>
    rcases hsign with rfl | rfl
    · cases digits with
      | nil => cases hn
      | cons d ds => exact ⟨d, ds, rfl, begins_of_isDigit (hd d List.mem_cons_self)⟩
    · exact ⟨'-', digits, rfl, by decide, nofun, fun _ => by decide⟩

/-- The text of a token begins with a blank or with the token. -/
theorem Token.Spaced.begins (h : t.Spaced text) :
    ∀ c ∈ (text ++ tail).head?, Text.isBlank c = true ∨ t.Begins c := by
  obtain ⟨hb, hw⟩ := h
  rename_i blanks text
  obtain ⟨c, cs, rfl, hc⟩ := hw.begins
  cases blanks with
  | nil =>
    rintro d ⟨⟩
    exact .inr hc
  | cons b bs =>
    rintro d ⟨⟩
    exact .inl (hb _ List.mem_cons_self)

theorem Token.Spaced.apart (h : t.Spaced text) (ht : t.operand? = none) :
    ∀ c ∈ (text ++ tail).head?, Text.isWordChar c = false := by
  intro c hc
  rcases h.begins c hc with hb | hb
  · exact Text.isWordChar_of_isBlank hb
  · exact hb.not_word ht

theorem Token.Spaced.ends_compare (h : t.Spaced text) (ht : ∀ op, t ≠ .compare op)
    (op : Comparison) : (Token.compare op).Ends (text ++ tail) := by
  intro c hc
  rcases h.begins c hc with hb | hb
  · have hne : ∀ d, Text.isBlank d = false → c ≠ d := by
      rintro d hd rfl
      exact Bool.false_ne_true (hd.symm.trans hb)
    exact ⟨hne '=' (by decide), hne '>' (by decide)⟩
  · exact hb.not_compare ht

/-- A token is read up to its end, with the blanks before it. -/
theorem peek_append (h : t.Spaced text) (ht : t.Ends tail) :
    peek (text ++ tail) = .ok (some (t, tail)) := by
  obtain ⟨hb, hw⟩ := h
  obtain ⟨c, cs, rfl, hc⟩ := hw.begins
  rw [peek, Text.trimStart, List.append_assoc, List.dropWhile_append_of_pos hb, List.cons_append,
    List.dropWhile_cons_of_neg (by simp [hc.not_blank]), ← List.cons_append]
  exact token_append hw ht

/-- What is read as a token is a written form of it, with blanks before it. -/
theorem spaced_of_peek (h : peek cs = .ok (some (t, rest))) (ht : t ≠ .other) :
    ∃ text, cs = text ++ rest ∧ t.Spaced text := by
  obtain ⟨text, hcs, hw⟩ := written_of_token h ht
  refine ⟨cs.takeWhile Text.isBlank ++ text, ?_, .mk (fun c hc => ?_) hw⟩
  · rw [List.append_assoc, ← hcs]
    exact List.takeWhile_append_dropWhile.symm
  · exact List.all_eq_true.1 List.all_takeWhile c hc

/-! ### The grammar -/

/-- The levels of the grammar, by the operators that stand outside parentheses. -/
inductive Level where
  /-- A literal, a variable or an expression in parentheses. -/
  | operand
  /-- An operand, or two with a comparison between them. -/
  | comparison
  /-- Comparisons joined by `&&`. -/
  | conjunction
  /-- Conjunctions joined by `||`. -/
  | disjunction

/-- The token goes on with an expression at this level. -/
def Level.Joins : Level → Token → Prop
  | .comparison, .compare _ => True
  | .conjunction, .compare _ | .conjunction, .and => True
  | .disjunction, .compare _ | .disjunction, .and | .disjunction, .or => True
  | _, _ => False

/-- The texts that an expression has at a level of the grammar. -/
inductive Derives : Level → Expr → List Char → Prop where
  /-- A literal or a variable. -/
  | token {t : Token} {e : Expr} {text : List Char} : t.operand? = some e → t.Spaced text →
      Derives .operand e text
  /-- An expression in parentheses. -/
  | paren {e : Expr} {opening text closing : List Char} : Token.opening.Spaced opening →
      Derives .disjunction e text → Token.closing.Spaced closing →
      Derives .operand e (opening ++ text ++ closing)
  /-- An operand by itself. -/
  | operand {e : Expr} {text : List Char} : Derives .operand e text → Derives .comparison e text
  /-- Two operands that are compared. -/
  | compare {op : Comparison} {l r : Expr} {left sign right : List Char} :
      Derives .operand l left → (Token.compare op).Spaced sign → Derives .operand r right →
      Derives .comparison (.compare op l r) (left ++ sign ++ right)
  /-- A comparison by itself. -/
  | comparison {e : Expr} {text : List Char} : Derives .comparison e text →
      Derives .conjunction e text
  /-- A conjunction and one more comparison. -/
  | and {l r : Expr} {left sign right : List Char} : Derives .conjunction l left →
      Token.and.Spaced sign → Derives .comparison r right →
      Derives .conjunction (.and l r) (left ++ sign ++ right)
  /-- A conjunction by itself. -/
  | conjunction {e : Expr} {text : List Char} : Derives .conjunction e text →
      Derives .disjunction e text
  /-- A disjunction and one more conjunction. -/
  | or {l r : Expr} {left sign right : List Char} : Derives .disjunction l left →
      Token.or.Spaced sign → Derives .conjunction r right →
      Derives .disjunction (.or l r) (left ++ sign ++ right)

/-! ### Texts of the grammar are read -/

variable {k : Level} {e : Expr}

/-- The last token ends where the text goes on like this, and an expression at this level does. -/
structure Stops (k : Level) (tail : List Char) : Prop where
  /-- A name or a number ends. -/
  apart : ∀ c ∈ tail.head?, Text.isWordChar c = false
  /-- No operator follows that would go on with the expression. -/
  next : ∃ o, peek tail = .ok o ∧ ∀ t rest, o = some (t, rest) → ¬ k.Joins t

namespace Stops

/-- An operator or a closing parenthesis follows that belongs elsewhere. -/
theorem of_spaced (h : t.Spaced text) (ht : t.operand? = none) (hk : ¬ k.Joins t)
    (he : t.Ends tail) : Stops k (text ++ tail) := by
  refine ⟨h.apart ht, _, peek_append h he, ?_⟩
  rintro t' rest ⟨⟩
  exact hk

theorem conjunction (h : Stops .disjunction tail) : Stops .conjunction tail := by
  obtain ⟨o, ho, hj⟩ := h.next
  refine ⟨h.apart, o, ho, fun t rest heq hjoins => hj t rest heq ?_⟩
  cases t <;> simp_all [Level.Joins]

theorem comparison (h : Stops .conjunction tail) : Stops .comparison tail := by
  obtain ⟨o, ho, hj⟩ := h.next
  refine ⟨h.apart, o, ho, fun t rest heq hjoins => hj t rest heq ?_⟩
  cases t <;> simp_all [Level.Joins]

end Stops

theorem Derives.ends_compare (h : Derives .operand e text) (op : Comparison) :
    (Token.compare op).Ends (text ++ tail) := by
  cases h with
  | token ht hs =>
    refine hs.ends_compare (fun op heq => ?_) op
    rw [heq] at ht
    cases ht
  | paren ho _ _ =>
    rw [List.append_assoc, List.append_assoc]
    exact ho.ends_compare (by simp) op

/-- The goal of a level is reached with enough depth: at the lower levels the expression is read,
and at the upper ones it is what more operands are joined to. -/
def Reads : Level → Expr → List Char → Prop
  | .operand, e, text => ∀ tail n, (∀ c ∈ tail.head?, Text.isWordChar c = false) →
    4 * text.length ≤ n → parse (n + 1) .operand (text ++ tail) = .ok (e, tail)
  | .comparison, e, text => ∀ tail n, Stops .comparison tail → 4 * text.length + 1 ≤ n →
    parse (n + 1) .comparison (text ++ tail) = .ok (e, tail)
  | .conjunction, e, text => ∀ tail n, Stops .comparison tail → 4 * text.length + 2 ≤ n →
    ∃ m, n ≤ m + text.length ∧
      parse (n + 1) .conjunction (text ++ tail) = parse m (.conjuncts e) tail
  | .disjunction, e, text => ∀ tail n, Stops .conjunction tail → 4 * text.length + 3 ≤ n →
    ∃ m, n ≤ m + text.length ∧
      parse (n + 1) .disjunction (text ++ tail) = parse m (.disjuncts e) tail

theorem ok_bind {α β : Type} (a : α) (f : α → Except ConditionError β) :
    (Except.ok a >>= f) = f a := rfl

/-- Nothing more is joined where the conjunction stops. -/
theorem parse_conjuncts (h : Stops .conjunction tail) (n : Nat) :
    parse (n + 1) (.conjuncts e) tail = .ok (e, tail) := by
  obtain ⟨o, ho, hj⟩ := h.next
  rw [parse, ho, ok_bind]
  split
  · next rest => exact absurd trivial (hj _ _ rfl)
  · rfl

/-- Nothing more is joined where the disjunction stops. -/
theorem parse_disjuncts (h : Stops .disjunction tail) (n : Nat) :
    parse (n + 1) (.disjuncts e) tail = .ok (e, tail) := by
  obtain ⟨o, ho, hj⟩ := h.next
  rw [parse, ho, ok_bind]
  split
  · next rest => exact absurd trivial (hj _ _ rfl)
  · rfl

theorem Token.Spaced.length_pos (h : t.Spaced text) : 0 < text.length := by
  obtain ⟨-, hw⟩ := h
  obtain ⟨c, cs, rfl, -⟩ := hw.begins
  rw [List.length_append, List.length_cons]
  omega

namespace Reads

variable {l r : Expr} {left sign right : List Char}

theorem token (ht : t.operand? = some e) (hs : t.Spaced text) : Reads .operand e text := by
  intro tail n hapart _
  have hends : t.Ends tail := by
    cases t <;> first | exact hapart | exact trivial | cases ht
  rw [parse, peek_append hs hends, ok_bind]
  cases t <;> cases ht <;> rfl

theorem paren {opening closing : List Char} (ho : Token.opening.Spaced opening)
    (h : Reads .disjunction e text) (hc : Token.closing.Spaced closing) :
    Reads .operand e (opening ++ text ++ closing) := by
  intro tail n hapart hn
  have hopen := ho.length_pos
  have hclose := hc.length_pos
  simp only [List.length_append] at hn
  obtain ⟨n, rfl⟩ : ∃ m, n = m + 1 := ⟨n - 1, by omega⟩
  have hstops : Stops .disjunction (closing ++ tail) := .of_spaced hc rfl id trivial
  obtain ⟨m, hm, hinner⟩ := h (closing ++ tail) n hstops.conjunction (by omega)
  obtain ⟨m, rfl⟩ : ∃ l, m = l + 1 := ⟨m - 1, by omega⟩
  rw [parse_disjuncts hstops] at hinner
  have hpeek : peek (opening ++ text ++ closing ++ tail) =
      .ok (some (.opening, text ++ (closing ++ tail))) := by
    rw [List.append_assoc, List.append_assoc]
    exact peek_append ho trivial
  rw [parse, hpeek, ok_bind]
  dsimp only
  rw [hinner, ok_bind]
  dsimp only
  rw [peek_append hc trivial, ok_bind]
  rfl

theorem operand (h : Reads .operand e text) : Reads .comparison e text := by
  intro tail n hstops hn
  obtain ⟨n, rfl⟩ : ∃ m, n = m + 1 := ⟨n - 1, by omega⟩
  obtain ⟨o, ho, hj⟩ := hstops.next
  rw [parse, h tail n hstops.apart (by omega), ok_bind]
  dsimp only
  rw [ho, ok_bind]
  split
  · exact absurd trivial (hj _ _ rfl)
  · rfl

theorem compare {op : Comparison} (hl : Reads .operand l left)
    (hs : (Token.compare op).Spaced sign) (hd : Derives .operand r right)
    (hr : Reads .operand r right) :
    Reads .comparison (.compare op l r) (left ++ sign ++ right) := by
  intro tail n hstops hn
  simp only [List.length_append] at hn
  obtain ⟨n, rfl⟩ : ∃ m, n = m + 1 := ⟨n - 1, by omega⟩
  have hleft := hl (sign ++ (right ++ tail)) n (hs.apart rfl) (by omega)
  have hright := hr tail n hstops.apart (by omega)
  rw [List.append_assoc, List.append_assoc, parse, hleft, ok_bind]
  dsimp only
  rw [peek_append hs (hd.ends_compare op), ok_bind]
  dsimp only
  rw [hright, ok_bind]
  rfl

theorem comparison (h : Reads .comparison e text) : Reads .conjunction e text := by
  intro tail n hstops hn
  obtain ⟨n, rfl⟩ : ∃ m, n = m + 1 := ⟨n - 1, by omega⟩
  refine ⟨n + 1, by omega, ?_⟩
  rw [parse, h tail n hstops (by omega), ok_bind]

theorem and (hl : Reads .conjunction l left) (hs : Token.and.Spaced sign)
    (hr : Reads .comparison r right) :
    Reads .conjunction (.and l r) (left ++ sign ++ right) := by
  intro tail n hstops hn
  simp only [List.length_append] at hn ⊢
  have hsign := hs.length_pos
  have hstop : Stops .comparison (sign ++ (right ++ tail)) := .of_spaced hs rfl id trivial
  obtain ⟨m, hm, hleft⟩ := hl (sign ++ (right ++ tail)) n hstop (by omega)
  obtain ⟨m, rfl⟩ : ∃ j, m = j + 2 := ⟨m - 2, by omega⟩
  have hright := hr tail m hstops (by omega)
  refine ⟨m + 1, by omega, ?_⟩
  rw [List.append_assoc, List.append_assoc, hleft, parse, peek_append hs trivial, ok_bind]
  dsimp only
  rw [hright, ok_bind]

theorem conjunction (h : Reads .conjunction e text) : Reads .disjunction e text := by
  intro tail n hstops hn
  obtain ⟨n, rfl⟩ : ∃ m, n = m + 1 := ⟨n - 1, by omega⟩
  obtain ⟨m, hm, hinner⟩ := h tail n hstops.comparison (by omega)
  obtain ⟨m, rfl⟩ : ∃ j, m = j + 1 := ⟨m - 1, by omega⟩
  refine ⟨n + 1, by omega, ?_⟩
  rw [parse, hinner, parse_conjuncts hstops, ok_bind]

theorem or (hl : Reads .disjunction l left) (hs : Token.or.Spaced sign)
    (hr : Reads .conjunction r right) :
    Reads .disjunction (.or l r) (left ++ sign ++ right) := by
  intro tail n hstops hn
  simp only [List.length_append] at hn ⊢
  have hsign := hs.length_pos
  have hstop : Stops .conjunction (sign ++ (right ++ tail)) := .of_spaced hs rfl id trivial
  obtain ⟨m, hm, hleft⟩ := hl (sign ++ (right ++ tail)) n hstop (by omega)
  obtain ⟨m, rfl⟩ : ∃ j, m = j + 2 := ⟨m - 2, by omega⟩
  obtain ⟨i, hi, hright⟩ := hr tail m hstops.comparison (by omega)
  obtain ⟨i, rfl⟩ : ∃ j, i = j + 1 := ⟨i - 1, by omega⟩
  rw [parse_conjuncts hstops] at hright
  refine ⟨m + 1, by omega, ?_⟩
  rw [List.append_assoc, List.append_assoc, hleft, parse, peek_append hs trivial, ok_bind]
  dsimp only
  rw [hright, ok_bind]

end Reads

/-- Texts of the grammar are read. -/
theorem Derives.reads (h : Derives k e text) : Reads k e text := by
  induction h with
  | token ht hs => exact .token ht hs
  | paren ho _ hc ih => exact .paren ho ih hc
  | operand _ ih => exact .operand ih
  | compare _ hs hr ihl ihr => exact .compare ihl hs hr ihr
  | comparison _ ih => exact .comparison ih
  | and _ hs _ ihl ihr => exact .and ihl hs ihr
  | conjunction _ ih => exact .conjunction ih
  | or _ hs _ ihl ihr => exact .or ihl hs ihr

/-- **A text of the grammar is read as the expression it stands for**, and what follows is left. -/
theorem read_append (h : Derives .disjunction e text) (hs : Stops .disjunction tail) :
    read (text ++ tail) = .ok (e, Text.trimStart tail) := by
  obtain ⟨m, hm, hp⟩ := h.reads tail (4 * (text ++ tail).length + 3) hs.conjunction
    (by rw [List.length_append]; omega)
  obtain ⟨m, rfl⟩ : ∃ j, m = j + 1 := ⟨m - 1, by rw [List.length_append] at hm; omega⟩
  rw [read, depth, hp, parse_disjuncts hs, ok_bind]
  rfl

/-! ### What is read has the form of the grammar -/

/-- What has been read towards a goal. -/
def Explains : Goal → Expr → List Char → Prop
  | .operand, e, text => Derives .operand e text
  | .comparison, e, text => Derives .comparison e text
  | .conjunction, e, text => Derives .conjunction e text
  | .conjuncts l, e, text => ∀ left, Derives .conjunction l left →
    Derives .conjunction e (left ++ text)
  | .disjunction, e, text => Derives .disjunction e text
  | .disjuncts l, e, text => ∀ left, Derives .disjunction l left →
    Derives .disjunction e (left ++ text)

/-- What is read with this depth is explained. -/
def Explained (n : Nat) : Prop :=
  ∀ {goal : Goal} {cs rest : List Char} {e : Expr}, parse n goal cs = .ok (e, rest) →
    ∃ text, cs = text ++ rest ∧ Explains goal e text

namespace Explained

variable {n : Nat} {l : Expr}

theorem operand (ih : Explained n) (h : parse (n + 1) .operand cs = .ok (e, rest)) :
    ∃ text, cs = text ++ rest ∧ Derives .operand e text := by
  rw [parse] at h
  obtain ⟨o, ho, hnext⟩ := exists_of_bind_eq_ok h
  -- a literal or a variable is one token
  have hword {t : Token} {e' : Expr} {rest' : List Char}
      (ho : peek cs = .ok (some (t, rest'))) (ht : t.operand? = some e') :
      ∃ text, cs = text ++ rest' ∧ Derives .operand e' text := by
    obtain ⟨text, hcs, hs⟩ := spaced_of_peek ho fun heq => by
      rw [heq] at ht
      cases ht
    exact ⟨text, hcs, .token ht hs⟩
  split at hnext
  · cases hnext
    exact hword ho rfl
  · cases hnext
    exact hword ho rfl
  · cases hnext
    exact hword ho rfl
  · next rest' =>
    obtain ⟨opening, hcs, hopen⟩ := spaced_of_peek ho (by simp)
    obtain ⟨⟨e', rest''⟩, he, hclosing⟩ := exists_of_bind_eq_ok hnext
    obtain ⟨text, hrest, htext⟩ := ih he
    obtain ⟨o, ho', hend⟩ := exists_of_bind_eq_ok hclosing
    split at hend
    · obtain ⟨closing, hrest', hclose⟩ := spaced_of_peek ho' (by simp)
      cases hend
      exact ⟨opening ++ text ++ closing, by simp [hcs, hrest, hrest'],
        .paren hopen htext hclose⟩
    · cases hend
  · cases hnext

theorem comparison (ih : Explained n) (h : parse (n + 1) .comparison cs = .ok (e, rest)) :
    ∃ text, cs = text ++ rest ∧ Derives .comparison e text := by
  rw [parse] at h
  obtain ⟨⟨l, rest'⟩, hl, hnext⟩ := exists_of_bind_eq_ok h
  obtain ⟨left, hcs, hleft⟩ := ih hl
  obtain ⟨o, ho, hnext⟩ := exists_of_bind_eq_ok hnext
  split at hnext
  · next op rest'' =>
    obtain ⟨sign, hrest, hsign⟩ := spaced_of_peek ho (by simp)
    obtain ⟨⟨r, rest'⟩, hr, hend⟩ := exists_of_bind_eq_ok hnext
    obtain ⟨right, hrest', hright⟩ := ih hr
    cases hend
    exact ⟨left ++ sign ++ right, by simp [hcs, hrest, hrest'], .compare hleft hsign hright⟩
  · cases hnext
    exact ⟨left, hcs, .operand hleft⟩

theorem conjuncts (ih : Explained n) (h : parse (n + 1) (.conjuncts l) cs = .ok (e, rest)) :
    ∃ text, cs = text ++ rest ∧ Explains (.conjuncts l) e text := by
  rw [parse] at h
  obtain ⟨o, ho, hnext⟩ := exists_of_bind_eq_ok h
  split at hnext
  · next rest' =>
    obtain ⟨sign, hcs, hsign⟩ := spaced_of_peek ho (by simp)
    obtain ⟨⟨r, rest''⟩, hr, hloop⟩ := exists_of_bind_eq_ok hnext
    obtain ⟨right, hrest, hright⟩ := ih hr
    obtain ⟨more, hrest', hmore⟩ := ih hloop
    refine ⟨sign ++ right ++ more, by simp [hcs, hrest, hrest'], fun left hleft => ?_⟩
    have hand := hmore _ (.and hleft hsign hright)
    simpa using hand
  · cases hnext
    exact ⟨[], rfl, fun left hleft => by rwa [List.append_nil]⟩

theorem disjuncts (ih : Explained n) (h : parse (n + 1) (.disjuncts l) cs = .ok (e, rest)) :
    ∃ text, cs = text ++ rest ∧ Explains (.disjuncts l) e text := by
  rw [parse] at h
  obtain ⟨o, ho, hnext⟩ := exists_of_bind_eq_ok h
  split at hnext
  · next rest' =>
    obtain ⟨sign, hcs, hsign⟩ := spaced_of_peek ho (by simp)
    obtain ⟨⟨r, rest''⟩, hr, hloop⟩ := exists_of_bind_eq_ok hnext
    obtain ⟨right, hrest, hright⟩ := ih hr
    obtain ⟨more, hrest', hmore⟩ := ih hloop
    refine ⟨sign ++ right ++ more, by simp [hcs, hrest, hrest'], fun left hleft => ?_⟩
    have hor := hmore _ (.or hleft hsign hright)
    simpa using hor
  · cases hnext
    exact ⟨[], rfl, fun left hleft => by rwa [List.append_nil]⟩

end Explained

theorem explains_of_parse (n : Nat) : Explained n := by
  induction n with
  | zero => exact fun h => by cases h
  | succ n ih =>
    intro goal cs rest e h
    cases goal with
    | operand => exact ih.operand h
    | comparison => exact ih.comparison h
    | conjuncts l => exact ih.conjuncts h
    | disjuncts l => exact ih.disjuncts h
    | conjunction =>
      rw [parse] at h
      obtain ⟨⟨l, rest'⟩, hl, hloop⟩ := exists_of_bind_eq_ok h
      obtain ⟨left, hcs, hleft⟩ := ih hl
      obtain ⟨more, hrest, hmore⟩ := ih hloop
      exact ⟨left ++ more, by simp [hcs, hrest], hmore left (.comparison hleft)⟩
    | disjunction =>
      rw [parse] at h
      obtain ⟨⟨l, rest'⟩, hl, hloop⟩ := exists_of_bind_eq_ok h
      obtain ⟨left, hcs, hleft⟩ := ih hl
      obtain ⟨more, hrest, hmore⟩ := ih hloop
      exact ⟨left ++ more, by simp [hcs, hrest], hmore left (.conjunction hleft)⟩

theorem Stops.of_blank (h : ∀ c ∈ tail, Text.isBlank c = true) : Stops k tail := by
  refine ⟨fun c hc => ?_, none, ?_, nofun⟩
  · exact Text.isWordChar_of_isBlank (h c (List.mem_of_head? hc))
  · rw [peek, Text.trimStart_eq_nil h]
    rfl

/-- **Whatever is read has the form of the grammar**, and by itself it is read as the same
expression. -/
theorem exists_of_read (h : read cs = .ok (e, rest)) :
    ∃ text blanks, cs = text ++ blanks ++ rest ∧ Derives .disjunction e text ∧
      (∀ c ∈ blanks, Text.isBlank c = true) ∧ read (text ++ blanks) = .ok (e, []) := by
  rw [read] at h
  obtain ⟨⟨e', rest'⟩, hp, h⟩ := exists_of_bind_eq_ok h
  cases h
  obtain ⟨text, rfl, hd⟩ := explains_of_parse _ hp
  have hb : ∀ c ∈ rest'.takeWhile Text.isBlank, Text.isBlank c = true :=
    List.all_eq_true.1 List.all_takeWhile
  refine ⟨text, rest'.takeWhile Text.isBlank, ?_, hd, hb, ?_⟩
  · rw [List.append_assoc, Text.trimStart, List.takeWhile_append_dropWhile]
  · rw [read_append hd (.of_blank hb), Text.trimStart_eq_nil hb]

/-! ### Printing -/

/-- The expression can be written down: its texts hold no quote, and its variables are those that
references stand for. -/
def Writable : Expr → Prop
  | .literal (.int _) => True
  | .literal (.str s) => '"' ∉ s.toList
  | .var v => ∃ token, Variable.read token = .ok v
  | .compare _ l r | .and l r | .or l r => Writable l ∧ Writable r

/-- The sign of a comparison. -/
def sign : Comparison → List Char
  | .eq => ['=', '=']
  | .ne => ['!', '=']
  | .lt => ['<']
  | .le => ['<', '=']
  | .gt => ['>']
  | .ge => ['>', '=']

/-- The operators outside all parentheses tell the level of an expression. -/
def level : Expr → Level
  | .literal _ | .var _ => .operand
  | .compare .. => .comparison
  | .and .. => .conjunction
  | .or .. => .disjunction

/-- Whether the expression has parts. -/
def isCompound : Expr → Bool
  | .literal _ | .var _ => false
  | _ => true

/-- Whether the expression is a disjunction. -/
def isOr : Expr → Bool
  | .or .. => true
  | _ => false

/-- The text, in parentheses if need be. -/
def enclosed (b : Bool) (text : List Char) : List Char :=
  if b then '(' :: text ++ [')'] else text

/-- The text of an expression. Compound operands of a comparison, compound right operands and
disjunctions under `&&` stand in parentheses. -/
def print : Expr → List Char
  | .literal (.int n) => Numeral.ofInt n.toInt
  | .literal (.str s) => '"' :: s.toList ++ ['"']
  | .var v => v.text.toList
  | .compare op l r =>
    enclosed (isCompound l) (print l) ++ (' ' :: sign op) ++
      (' ' :: enclosed (isCompound r) (print r))
  | .and l r =>
    enclosed (isOr l) (print l) ++ [' ', '&', '&'] ++ (' ' :: enclosed (isCompound r) (print r))
  | .or l r => print l ++ [' ', '|', '|'] ++ (' ' :: enclosed (isCompound r) (print r))

/-- A condition is not continued by this text, whose first character is no blank. -/
def IsBody (b : List Char) : Prop :=
  (∀ c ∈ b.head?, Text.isBlank c = false) ∧ beginsToken b = false

theorem text_of_ofChars? {v : Variable} (h : Variable.ofChars? cs = some v) :
    v.text.toList = cs := by
  unfold Variable.ofChars? at h
  split at h
  · split at h
    · cases h
      unfold Variable.flagOrCounter
      split <;> simp [Variable.text]
    · cases h
  · split at h
    · cases h
      simp [Variable.text]
    · cases h
  · cases h

theorem Token.written_ofInt (n : Int64) : (Token.int n).Written (Numeral.ofInt n.toInt) := by
  have hn := Numeral.int64?_ofInt n
  have hdigit {m : Nat} : ∀ d ∈ Numeral.ofNat m, d.isDigit = true := fun d hd =>
    Numeral.isDigit_of_mem_ofNat hd
  revert hn
  cases n.toInt with
  | ofNat m => exact fun hn => @Written.int [] _ n (.inl rfl) hdigit hn
  | negSucc m => exact fun hn => @Written.int ['-'] _ n (.inr rfl) hdigit hn

theorem written_sign (op : Comparison) : (Token.compare op).Written (sign op) := by
  cases op <;> exact .symbol (by decide)

theorem Token.Written.spaced (h : t.Written text) : t.Spaced text :=
  @Spaced.mk t [] text (by simp) h

theorem Token.Spaced.cons_blank (h : t.Spaced text) : t.Spaced (' ' :: text) := by
  obtain ⟨hb, hw⟩ := h
  rw [← List.cons_append]
  exact .mk (List.forall_mem_cons.2 ⟨by decide, hb⟩) hw

/-- A blank may stand before every expression. -/
theorem Derives.cons_blank (h : Derives k e text) : Derives k e (' ' :: text) := by
  induction h with
  | token ht hs => exact .token ht hs.cons_blank
  | paren ho hd hc _ => exact .paren ho.cons_blank hd hc
  | operand _ ih => exact .operand ih
  | compare _ hs hr ih _ => exact .compare ih hs hr
  | comparison _ ih => exact .comparison ih
  | and _ hs hr ih _ => exact .and ih hs hr
  | conjunction _ ih => exact .conjunction ih
  | or _ hs hr ih _ => exact .or ih hs hr

theorem Derives.to_conjunction (h : Derives k e text) (hk : k ≠ .disjunction) :
    Derives .conjunction e text := by
  cases k with
  | operand => exact .comparison (.operand h)
  | comparison => exact .comparison h
  | conjunction => exact h
  | disjunction => exact absurd rfl hk

theorem Derives.to_disjunction (h : Derives k e text) : Derives .disjunction e text := by
  by_cases hk : k = .disjunction
  · exact hk ▸ h
  · exact .conjunction (h.to_conjunction hk)

theorem Derives.parenthesised (h : Derives k e text) :
    Derives .operand e (enclosed true text) := by
  have hopen : Token.opening.Spaced ['('] := (Token.Written.symbol (by decide)).spaced
  have hclose : Token.closing.Spaced [')'] := (Token.Written.symbol (by decide)).spaced
  exact .paren hopen h.to_disjunction hclose

theorem Derives.enclosed_compound (h : Derives (level e) e text) :
    Derives .operand e (enclosed (isCompound e) text) := by
  cases e with
  | literal x => exact h
  | var v => exact h
  | compare op l r => exact h.parenthesised
  | and l r => exact h.parenthesised
  | or l r => exact h.parenthesised

theorem Derives.enclosed_or (h : Derives (level e) e text) :
    Derives .conjunction e (enclosed (isOr e) text) := by
  cases e with
  | literal x => exact h.to_conjunction (by simp [level])
  | var v => exact h.to_conjunction (by simp [level])
  | compare op l r => exact h.to_conjunction (by simp [level])
  | and l r => exact h.to_conjunction (by simp [level])
  | or l r => exact h.parenthesised.to_conjunction (by simp)

/-- What is printed has the form of the grammar. -/
theorem derives_print (h : Writable e) : Derives (level e) e (print e) := by
  induction e with
  | literal x =>
    cases x with
    | int n => exact .token rfl (Token.written_ofInt n).spaced
    | str s =>
      have hs := (Token.Written.str h).spaced
      rw [String.ofList_toList] at hs
      exact .token rfl hs
  | var v =>
    obtain ⟨token, htoken⟩ := h
    have hv : Variable.ofChars? v.text.toList = some v := by
      rw [Variable.read] at htoken
      split at htoken
      · next w hw =>
        cases htoken
        rwa [text_of_ofChars? hw]
      · cases htoken
    exact .token rfl (Token.Written.var hv).spaced
  | compare op l r ihl ihr =>
    have hl := (ihl h.1).enclosed_compound
    have hr := (ihr h.2).enclosed_compound
    exact .compare hl (written_sign op).spaced.cons_blank hr.cons_blank
  | and l r ihl ihr =>
    have hsign : Token.and.Spaced [' ', '&', '&'] :=
      (Token.Written.symbol (by decide)).spaced.cons_blank
    have hr := (ihr h.2).enclosed_compound
    exact .and (ihl h.1).enclosed_or hsign (.operand hr.cons_blank)
  | or l r ihl ihr =>
    have hsign : Token.or.Spaced [' ', '|', '|'] :=
      (Token.Written.symbol (by decide)).spaced.cons_blank
    have hr := (ihr h.2).enclosed_compound
    exact .or (ihl h.1).to_disjunction hsign (.comparison (.operand hr.cons_blank))

theorem IsBody.stops {b : List Char} (h : IsBody b) : Stops .disjunction (' ' :: b) := by
  refine ⟨by rintro c ⟨⟩; decide, ?_⟩
  cases b with
  | nil => exact ⟨none, rfl, nofun⟩
  | cons c cs =>
    have htrim : Text.trimStart (' ' :: c :: cs) = c :: cs := by
      rw [Text.trimStart, List.dropWhile_cons_of_pos (by decide)]
      exact Instant.trimStart_cons (h.1 c rfl) cs
    refine ⟨some (.other, c :: cs), ?_, ?_⟩
    · rw [peek, htrim]
      exact token_of_not_begins h.2
    · rintro t rest ⟨⟩
      exact id

theorem IsBody.trimStart {b : List Char} (h : IsBody b) : Text.trimStart (' ' :: b) = b := by
  rw [Text.trimStart, List.dropWhile_cons_of_pos (by decide)]
  cases b with
  | nil => rfl
  | cons c cs => exact Instant.trimStart_cons (h.1 c rfl) cs

/-- **Printing and reading agree.** An expression that is printed is read back, and the body behind
it is left as it is; the same holds of every other text that the grammar gives the expression. And
whatever is read stands at the front of its text, where it reads the same without what follows. -/
theorem read_print :
    (∀ e b, Writable e → IsBody b → read (print e ++ ' ' :: b) = .ok (e, b)) ∧
      (∀ e text b, Derives .disjunction e text → IsBody b →
        read (text ++ ' ' :: b) = .ok (e, b)) ∧
      ∀ cs e rest, read cs = .ok (e, rest) →
        ∃ consumed, cs = consumed ++ rest ∧ read consumed = .ok (e, []) := by
  have hread : ∀ e text b, Derives .disjunction e text → IsBody b →
      read (text ++ ' ' :: b) = .ok (e, b) := by
    intro e text b ht hb
    rw [read_append ht hb.stops, hb.trimStart]
  refine ⟨fun e b he hb => ?_, hread, fun cs e rest h => ?_⟩
  · exact hread e _ b (derives_print he).to_disjunction hb
  · obtain ⟨text, blanks, hcs, -, -, hr⟩ := exists_of_read h
    exact ⟨text ++ blanks, hcs, hr⟩

/-- The counter is over ten or the flag is set, and the text is not the one in quotes. -/
def mixed : Expr :=
  .and (.or (.compare .gt (.var (.counter "ark")) (.literal (.int (-10)))) (.var (.flag "2")))
    (.compare .ne (.var (.temporary "name")) (.literal (.str "a && b")))

/-- A printed condition is read back in front of a body that begins with an exclamation mark. -/
theorem read_print_mixed :
    print mixed = "(%ark > -10 || %flg2) && ($name != \"a && b\")".toList ∧ Writable mixed ∧
      IsBody "!5".toList ∧ read (print mixed ++ ' ' :: "!5".toList) = .ok (mixed, "!5".toList) := by
  have hquoted : Writable (.literal (.str "a && b")) := by
    intro hm
    revert hm
    decide
  have hw : Writable mixed :=
    ⟨⟨⟨⟨"%ark".toList, rfl⟩, trivial⟩, "%flg2".toList, rfl⟩, ⟨"$name".toList, rfl⟩, hquoted⟩
  have hb : IsBody "!5".toList := ⟨by rintro c ⟨⟩; decide, by decide⟩
  exact ⟨by decide, hw, hb, read_print.1 mixed _ hw hb⟩

end Condition

end Novella
