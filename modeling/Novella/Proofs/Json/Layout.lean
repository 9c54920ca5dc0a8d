import Mathlib.Data.List.DropRight
import Novella.Json.Decode
import Novella.Json.Writer

/-!
# Layouts of documents

Between its tokens a document may be written with blanks at will. The compact form and the pretty
form are two such layouts, and they differ in nothing but their blanks. A layout is read as the
document that was laid out, whatever its blanks are, with each string as its quotes and escapes have
it.

## Main definitions

* `Json.quoted`, `Json.asRead` — strings and documents as they are read
* `Json.Layout` — the layouts of a document
* `Json.Whole` — documents whose numbers are integers

## Main results

* `Json.Layout.read` — every layout of a document is read as that document
* `Json.layout_compact`, `Json.layout_pretty` — both written forms are layouts
-/

namespace Novella.Json

/-! ### Strings -/

/-- The string as it is read from its written form. -/
def quoted (s : String) : Quoted := ⟨some s, s.toList.all (fun c => escape c = [c])⟩

/-- The place that a character is read as. -/
def piece (c : Char) : Quoted.Piece := if (escape c).length = 6 then .unit c.toNat else .char c

theorem hexValue?_hexDigit : ∀ n < 16, hexValue? (some (Numeral.hexDigit n)) = some n := by
  decide

/-- The characters that have an escape, and all others. -/
theorem escape_cases (c : Char) :
    (∃ e, escape c = ['\\', e] ∧ e ≠ 'u' ∧ shortEscape? e = some c) ∨
      (c.toNat < 0x20 ∧ escape c =
        ['\\', 'u', '0', '0', Numeral.hexDigit (c.toNat / 16), Numeral.hexDigit (c.toNat % 16)]) ∨
      (escape c = [c] ∧ c ≠ '"' ∧ c ≠ '\\' ∧ ¬ c.toNat < 0x20) := by
  unfold escape
  split
  · exact .inl ⟨_, rfl, by decide, rfl⟩
  · exact .inl ⟨_, rfl, by decide, rfl⟩
  · exact .inl ⟨_, rfl, by decide, rfl⟩
  · exact .inl ⟨_, rfl, by decide, rfl⟩
  · exact .inl ⟨_, rfl, by decide, rfl⟩
  · exact .inl ⟨_, rfl, by decide, rfl⟩
  · exact .inl ⟨_, rfl, by decide, rfl⟩
  · next hquote hback _ _ _ _ _ =>
    split
    · next h => exact .inr (.inl ⟨h, rfl⟩)
    · next h => exact .inr (.inr ⟨rfl, hquote, hback, h⟩)

/-- A character is read as its piece, and its escape makes the string one that is not plain. -/
theorem readPieces_escape (c : Char) (rest : Source) (acc : List Quoted.Piece) (plain : Bool) :
    readPieces ((escape c).map some ++ rest) acc plain =
      readPieces rest (piece c :: acc) (plain && escape c = [c]) := by
  rcases escape_cases c with ⟨e, he, hu, hs⟩ | ⟨hlt, he⟩ | ⟨he, hquote, hback, hge⟩
  · have hne : ['\\', e] ≠ [c] := fun h => by cases h
    have hp : piece c = .char c := by rw [piece, he]; rfl
    rw [hp, he]
    simp [readPieces, hu, hs, hne]
  · have hhigh := hexValue?_hexDigit (c.toNat / 16) (by omega)
    have hlow := hexValue?_hexDigit (c.toNat % 16) (by omega)
    have hn : ((0 * 16 + 0) * 16 + c.toNat / 16) * 16 + c.toNat % 16 = c.toNat := by omega
    have hzero : hexValue? (some '0') = some 0 := by decide
    have hp : piece c = .unit c.toNat := by rw [piece, he]; rfl
    have hne : escape c ≠ [c] := by rw [he]; exact fun h => by cases h
    rw [hp, decide_eq_false hne, Bool.and_false, he]
    simp only [List.map_cons, List.map_nil, List.cons_append, List.nil_append, readPieces, hzero,
      hhigh, hlow, Option.bind_eq_bind, Option.bind_some, hn]
  · have hp : piece c = .char c := by rw [piece, he]; rfl
    rw [hp, he, decide_eq_true rfl, Bool.and_true]
    simp only [List.map_cons, List.map_nil, List.cons_append, List.nil_append]
    rw [readPieces.eq_def]
    simp [hback, hge]

theorem readPieces_flatMap (cs : List Char) (rest : Source) (acc : List Quoted.Piece)
    (plain : Bool) :
    readPieces ((cs.flatMap escape).map some ++ some '"' :: rest) acc plain =
      some (.ofPieces (acc.reverse ++ cs.map piece) (plain && cs.all (fun c => escape c = [c])),
        rest) := by
  induction cs generalizing acc plain with
  | nil => simp [readPieces]
  | cons c cs ih =>
    rw [List.flatMap_cons, List.map_append, List.append_assoc, readPieces_escape, ih,
      List.reverse_cons, List.append_assoc, List.all_cons, Bool.and_assoc]
    rfl

/-- A unit below the surrogates stands for itself. -/
theorem textOf_unit {n : Nat} (h : n < 0xD800) (ps : List Quoted.Piece) :
    Quoted.textOf (.unit n :: ps) = (Quoted.textOf ps).map (Char.ofNat n :: ·) := by
  have hn : ¬ (0xD800 ≤ n) := Nat.not_le_of_lt h
  have hhigh : ¬ (0xDC00 ≤ n) := fun hd => hn (Nat.le_trans (by decide) hd)
  cases ps with
  | nil => simp [Quoted.textOf, hn]
  | cons q ps => cases q <;> simp [Quoted.textOf, hn, hhigh]

/-- The pieces of a text are those of its characters. -/
theorem textOf_map_piece (cs : List Char) : Quoted.textOf (cs.map piece) = some cs := by
  induction cs with
  | nil => rfl
  | cons c cs ih =>
    rw [List.map_cons, piece]
    split
    · next hlen =>
      have hlt : c.toNat < 0x20 := by
        rcases escape_cases c with ⟨e, he, -⟩ | ⟨h, -⟩ | ⟨he, -⟩
        · rw [he] at hlen; cases hlen
        · exact h
        · rw [he] at hlen; cases hlen
      rw [textOf_unit (Nat.lt_trans hlt (by decide)), ih, Char.ofNat_toNat]
      rfl
    · rw [Quoted.textOf, ih]
      rfl

/-- A string is read from its written form, up to the closing quote. -/
theorem readPieces_quote (s : String) (rest : Source) :
    readPieces ((s.toList.flatMap escape).map some ++ some '"' :: rest) [] true =
      some (quoted s, rest) := by
  rw [readPieces_flatMap, List.reverse_nil, List.nil_append, Bool.true_and, Quoted.ofPieces,
    textOf_map_piece, Option.map_some, String.ofList_toList]
  rfl

/-! ### Numbers -/

/-- The text does not go on with a number. -/
def Ends (rest : Source) : Prop :=
  ∀ c cs, rest = some c :: cs → c.isDigit = false ∧ c ≠ '.' ∧ c ≠ 'e' ∧ c ≠ 'E'

theorem Ends.nil : Ends [] := fun _ _ h => by cases h

theorem Ends.cons {c : Char} (rest : Source)
    (h : c.isDigit = false ∧ c ≠ '.' ∧ c ≠ 'e' ∧ c ≠ 'E') : Ends (some c :: rest) :=
  fun _ _ heq => by cases heq; exact h

theorem takeDigits_append {ds : List Char} {rest : Source} (hd : ∀ c ∈ ds, c.isDigit = true)
    (hr : Ends rest) : takeDigits (ds.map some ++ rest) = (ds, rest) := by
  induction ds with
  | nil =>
    cases rest with
    | nil => rfl
    | cons o cs =>
      cases o with
      | none => rfl
      | some c =>
        have hc := (hr c cs rfl).1
        simp [takeDigits, hc]
  | cons c ds ih =>
    obtain ⟨hc, hds⟩ := List.forall_mem_cons.1 hd
    simp [takeDigits, hc, ih hds]

/-- No numeral but that of zero begins with a zero. -/
theorem eq_nil_of_ofNat_eq {n : Nat} {ds : List Char} (h : Numeral.ofNat n = '0' :: ds) :
    ds = [] := by
  induction n using Nat.strongRecOn generalizing ds with
  | ind n ih =>
    rw [Numeral.ofNat, Nat.toDigits_eq_if (by decide)] at h
    split at h
    · exact (List.cons.inj h).2.symm
    · next hn =>
      obtain ⟨d, t, ht⟩ := List.exists_cons_of_ne_nil (Nat.toDigits_ne_nil (n := n / 10) (b := 10))
      rw [ht, List.cons_append] at h
      obtain ⟨rfl, -⟩ := List.cons.inj h
      -- the numeral of a tenth would be that of zero
      obtain rfl := ih (n / 10) (by omega) ht
      have hzero := Numeral.digits?_ofNat (n / 10)
      rw [Numeral.ofNat, ht] at hzero
      have : (0 : Nat) = n / 10 := Option.some.inj hzero
      omega

theorem readWhole_ofNat (n : Nat) {rest : Source} (hr : Ends rest) :
    readWhole ((Numeral.ofNat n).map some ++ rest) = some (Numeral.ofNat n, rest) := by
  rw [readWhole, takeDigits_append (fun c => Numeral.isDigit_of_mem_ofNat) hr]
  split
  · next h => exact absurd (congrArg Prod.fst h) Nat.toDigits_ne_nil
  · next h =>
    have := eq_nil_of_ofNat_eq (congrArg Prod.fst h)
    cases this
  · rfl

theorem readFraction_of_ends {rest : Source} (hr : Ends rest) :
    readFraction rest = some ([], rest) := by
  unfold readFraction
  split
  · next cs => exact absurd rfl (hr '.' cs rfl).2.1
  · rfl

theorem readExponent_of_ends {rest : Source} (hr : Ends rest) :
    readExponent rest = some ([], rest) := by
  unfold readExponent
  split
  · next e cs =>
    obtain ⟨-, -, he, hE⟩ := hr e cs rfl
    rw [if_neg (fun h => h.elim he hE)]
  · rfl

theorem readNumber_ofInt (n : Int) {rest : Source} (hr : Ends rest) :
    readNumber ((Numeral.ofInt n).map some ++ rest) = some (Numeral.ofInt n, rest) := by
  cases n with
  | negSucc n =>
    simp [readNumber, Numeral.ofInt, readWhole_ofNat _ hr, readFraction_of_ends hr,
      readExponent_of_ends hr]
  | ofNat n =>
    have hnone (cs : Source) : (Numeral.ofNat n).map some ++ rest ≠ some '-' :: cs := by
      obtain ⟨d, ds, hd⟩ := List.exists_cons_of_ne_nil (Nat.toDigits_ne_nil (n := n) (b := 10))
      have hdigit := Numeral.isDigit_of_mem_ofNat (n := n) (hd ▸ List.mem_cons_self)
      rw [Numeral.ofNat, hd]
      intro h
      cases h
      exact absurd hdigit (by decide)
    rw [Numeral.ofInt, readNumber]
    · simp [readWhole_ofNat _ hr, readFraction_of_ends hr, readExponent_of_ends hr]
    · exact hnone

/-! ### Layouts -/

/-- The characters are blanks. -/
def Blank (cs : List Char) : Prop := ∀ c ∈ cs, isBlank (some c) = true

theorem Blank.nil : Blank [] := fun _ h => absurd h List.not_mem_nil

theorem skipBlanks_append {cs : List Char} (h : Blank cs) (rest : Source) :
    skipBlanks (cs.map some ++ rest) = skipBlanks rest := by
  unfold skipBlanks
  rw [List.dropWhile_append_of_pos]
  intro o ho
  obtain ⟨c, hc, rfl⟩ := List.mem_map.1 ho
  exact h c hc

@[simp] theorem skipBlanks_cons {c : Char} (h : isBlank (some c) = false) (rest : Source) :
    skipBlanks (some c :: rest) = some c :: rest := by
  rw [skipBlanks, List.dropWhile_cons_of_neg (by rw [h]; exact Bool.false_ne_true)]

mutual

/-- A layout of a document whose numbers are integers: its tokens in their order, with blanks
between them. -/
inductive Layout : Written → List Char → Prop where
  /-- The absent value. -/
  | null : Layout .null "null".toList
  /-- True or false. -/
  | bool (b : Bool) : Layout (.bool b) (if b then "true" else "false").toList
  /-- An integer. -/
  | integer (n : Int) : Layout (.ofInt n) (Numeral.ofInt n)
  /-- A string. -/
  | string (s : String) : Layout (.string s) (quote s)
  /-- An array without items. -/
  | noItems : Layout (.array []) ['[', ']']
  /-- An array. -/
  | array {xs : List Written} {c : List Char} : Items xs c → Layout (.array xs) ('[' :: c)
  /-- An object without members. -/
  | noMembers : Layout (.object []) ['\x7b', '\x7d']
  /-- An object. -/
  | object {ms : List (String × Written)} {c : List Char} :
      Members ms c → Layout (.object ms) ('\x7b' :: c)

/-- The items of an array, up to the closing bracket. -/
inductive Items : List Written → List Char → Prop where
  /-- The last item. -/
  | last {x : Written} {a b c : List Char} :
      Blank a → Layout x c → Blank b → Items [x] (a ++ (c ++ (b ++ [']'])))
  /-- An item and more of them. -/
  | cons {x : Written} {xs : List Written} {a c r : List Char} :
      Blank a → Layout x c → Items xs r → Items (x :: xs) (a ++ (c ++ ',' :: r))

/-- The members of an object, up to the closing brace. -/
inductive Members : List (String × Written) → List Char → Prop where
  /-- The last member. -/
  | last {k : String} {v : Written} {a b c d : List Char} :
      Blank a → Blank b → Layout v c → Blank d →
        Members [(k, v)] (a ++ (quote k ++ ':' :: (b ++ (c ++ (d ++ ['\x7d'])))))
  /-- A member and more of them. -/
  | cons {k : String} {v : Written} {ms : List (String × Written)} {a b c r : List Char} :
      Blank a → Blank b → Layout v c → Members ms r →
        Members ((k, v) :: ms) (a ++ (quote k ++ ':' :: (b ++ (c ++ ',' :: r))))

end

/-- The document as it is read from a layout of it. -/
def asRead (j : Written) : Read := j.map quoted

theorem isBlank_of_number {c : Char} (h : c.isDigit = true ∨ c = '-') :
    isBlank (some c) = false := by
  rw [Bool.eq_false_iff]
  intro hb
  simp only [isBlank, Bool.or_eq_true, decide_eq_true_eq] at hb
  rcases hb with ((rfl | rfl) | rfl) | rfl <;> exact absurd h (by decide)

/-- A digit or a minus begins a number. -/
theorem readValue_number {n : Nat} {c : Char} {cs : Source} (h : c.isDigit = true ∨ c = '-') :
    readValue (n + 1) (some c :: cs) =
      (readNumber (some c :: cs)).map (fun r => (.number r.1, r.2)) := by
  rw [readValue, skipBlanks_cons (isBlank_of_number h)]
  split
  -- no other value begins with such a character
  iterate 6 next heq => cases heq; exact absurd h (by decide)
  · rfl

/-! ### What comes first -/

theorem head_ofInt (n : Int) :
    ∃ c ds, Numeral.ofInt n = c :: ds ∧ (c.isDigit = true ∨ c = '-') := by
  cases n with
  | negSucc n => exact ⟨_, _, rfl, .inr rfl⟩
  | ofNat n =>
    obtain ⟨d, ds, hd⟩ := List.exists_cons_of_ne_nil (Nat.toDigits_ne_nil (n := n) (b := 10))
    have hdigit := Numeral.isDigit_of_mem_ofNat (n := n) (hd ▸ List.mem_cons_self)
    exact ⟨d, ds, hd, .inl hdigit⟩

/-- A layout begins with a character that is no blank and closes no array. -/
theorem Layout.head {j : Written} {cs : List Char} (h : Layout j cs) :
    ∃ c ds, cs = c :: ds ∧ isBlank (some c) = false ∧ c ≠ ']' := by
  cases h with
  | null => exact ⟨_, _, rfl, by decide, by decide⟩
  | bool b => cases b <;> exact ⟨_, _, rfl, by decide, by decide⟩
  | integer n =>
    obtain ⟨c, ds, hc, hd⟩ := head_ofInt n
    refine ⟨c, ds, hc, isBlank_of_number hd, ?_⟩
    rintro rfl
    exact absurd hd (by decide)
  | _ => exact ⟨_, _, rfl, by decide, by decide⟩

theorem skipBlanks_skipBlanks (cs : Source) : skipBlanks (skipBlanks cs) = skipBlanks cs :=
  List.dropWhile_idempotent _ _

theorem readValue_skipBlanks (n : Nat) (cs : Source) :
    readValue n (skipBlanks cs) = readValue n cs := by
  cases n with
  | zero => rfl
  | succ n => rw [readValue, readValue, skipBlanks_skipBlanks]

theorem readItems_skipBlanks (n : Nat) (cs : Source) :
    readItems n (skipBlanks cs) = readItems n cs := by
  cases n with
  | zero => rfl
  | succ n => rw [readItems, readItems, readValue_skipBlanks]

theorem readMembers_skipBlanks (n : Nat) (cs : Source) :
    readMembers n (skipBlanks cs) = readMembers n cs := by
  cases n with
  | zero => rfl
  | succ n => rw [readMembers, readMembers, skipBlanks_skipBlanks]

/-- Blanks before a value are passed over. -/
theorem readValue_append {n : Nat} {a : List Char} (h : Blank a) (rest : Source) :
    readValue n (a.map some ++ rest) = readValue n rest := by
  rw [← readValue_skipBlanks, skipBlanks_append h, readValue_skipBlanks]

theorem Items.head {xs : List Written} {cs : List Char} (h : Items xs cs) (rest : Source) :
    ∃ c ds, skipBlanks (cs.map some ++ rest) = some c :: ds ∧ c ≠ ']' := by
  cases h with
  | last ha hx hb =>
    obtain ⟨c, ds, rfl, hc, hne⟩ := hx.head
    rw [List.map_append, List.append_assoc, skipBlanks_append ha]
    exact ⟨c, _, skipBlanks_cons hc _, hne⟩
  | cons ha hx hxs =>
    obtain ⟨c, ds, rfl, hc, hne⟩ := hx.head
    rw [List.map_append, List.append_assoc, skipBlanks_append ha]
    exact ⟨c, _, skipBlanks_cons hc _, hne⟩

theorem Members.head {ms : List (String × Written)} {cs : List Char} (h : Members ms cs)
    (rest : Source) : ∃ ds, skipBlanks (cs.map some ++ rest) = some '"' :: ds := by
  cases h with
  | last ha _ _ _ =>
    rw [List.map_append, List.append_assoc, skipBlanks_append ha]
    exact ⟨_, skipBlanks_cons (by decide) _⟩
  | cons ha _ _ _ =>
    rw [List.map_append, List.append_assoc, skipBlanks_append ha]
    exact ⟨_, skipBlanks_cons (by decide) _⟩

/-! ### Reading layouts -/

theorem ends_comma (rest : Source) : Ends (some ',' :: rest) := .cons _ (by decide)

theorem ends_append {b : List Char} (hb : Blank b) {rest : Source} (hr : Ends rest) :
    Ends (b.map some ++ rest) := by
  cases b with
  | nil => exact hr
  | cons c b =>
    have hc := hb c List.mem_cons_self
    simp only [isBlank, Bool.or_eq_true, decide_eq_true_eq] at hc
    refine .cons _ ?_
    rcases hc with ((rfl | rfl) | rfl) | rfl <;> decide

theorem readString_quote (s : String) (rest : Source) :
    readString ((quote s).map some ++ rest) = some (quoted s, rest) := by
  have h := readPieces_quote s rest
  simpa [quote, readString] using h

theorem skipBlanks_quote (s : String) (rest : Source) :
    skipBlanks ((quote s).map some ++ rest) = (quote s).map some ++ rest :=
  skipBlanks_cons (by decide) _

/-! One token of an array or an object is read at a time. -/

section Tokens

variable {n : Nat} {x : Read} {k : Quoted} {cs rest ds : Source}

theorem readValue_string (n : Nat) (cs : Source) :
    readValue (n + 1) (some '"' :: cs) =
      (readPieces cs [] true).map (fun r => (.string r.1, r.2)) := rfl

theorem readValue_array {c : Char} (hc : skipBlanks cs = some c :: ds) (hne : c ≠ ']') :
    readValue (n + 1) (some '[' :: cs) = (readItems n cs).map (fun r => (.array r.1, r.2)) := by
  rw [readValue, skipBlanks_cons (by decide)]
  simp only [hc]
  split
  · next heq => cases heq; exact absurd rfl hne
  · rw [← hc, readItems_skipBlanks]

theorem readValue_object (hc : skipBlanks cs = some '"' :: ds) :
    readValue (n + 1) (some '\x7b' :: cs) =
      (readMembers n cs).map (fun r => (.object r.1, r.2)) := by
  rw [readValue, skipBlanks_cons (by decide)]
  simp only [hc]
  split
  · next heq => cases heq
  · rw [← hc, readMembers_skipBlanks]

theorem readItems_close (h : readValue n cs = some (x, rest))
    (hb : skipBlanks rest = some ']' :: ds) : readItems (n + 1) cs = some ([x], ds) := by
  rw [readItems, h, Option.bind_eq_bind, Option.bind_some]
  dsimp only
  rw [hb]
  rfl

theorem readItems_comma (h : readValue n cs = some (x, rest))
    (hb : skipBlanks rest = some ',' :: ds) :
    readItems (n + 1) cs = (readItems n ds).map (fun r => (x :: r.1, r.2)) := by
  rw [readItems, h, Option.bind_eq_bind, Option.bind_some]
  dsimp only
  rw [hb]
  cases hi : readItems n ds <;> simp [hi]

/-- The name of a member is read, and what follows it. -/
theorem readMembers_name {value : Source} (hk : readString (skipBlanks cs) = some (k, value))
    (hcolon : skipBlanks value = some ':' :: ds) :
    readMembers (n + 1) cs = (do
      let (v, cs) ← readValue n ds
      match skipBlanks cs with
      | some ',' :: cs =>
        let (ms, cs) ← readMembers n cs
        return ((k, v) :: ms, cs)
      | some '\x7d' :: cs => return ([(k, v)], cs)
      | _ => none) := by
  rw [readMembers, hk, Option.bind_eq_bind, Option.bind_some]
  dsimp only
  rw [hcolon]
  rfl

theorem readMembers_close {value vs : Source} (hk : readString (skipBlanks cs) = some (k, value))
    (hcolon : skipBlanks value = some ':' :: vs) (h : readValue n vs = some (x, rest))
    (hb : skipBlanks rest = some '\x7d' :: ds) :
    readMembers (n + 1) cs = some ([(k, x)], ds) := by
  rw [readMembers_name hk hcolon, h, Option.bind_eq_bind, Option.bind_some]
  dsimp only
  rw [hb]
  rfl

theorem readMembers_comma {value vs : Source} (hk : readString (skipBlanks cs) = some (k, value))
    (hcolon : skipBlanks value = some ':' :: vs) (h : readValue n vs = some (x, rest))
    (hb : skipBlanks rest = some ',' :: ds) :
    readMembers (n + 1) cs = (readMembers n ds).map (fun r => ((k, x) :: r.1, r.2)) := by
  rw [readMembers_name hk hcolon, h, Option.bind_eq_bind, Option.bind_some]
  dsimp only
  rw [hb]
  cases hm : readMembers n ds <;> simp [hm]

end Tokens

theorem member_name {a : List Char} (ha : Blank a) (k : String) (rest : Source) :
    readString (skipBlanks (a.map some ++ ((quote k).map some ++ rest))) =
      some (quoted k, rest) := by
  rw [skipBlanks_append ha, skipBlanks_quote, readString_quote]

mutual

/-- A layout is read as the document that was laid out. -/
theorem Layout.readValue {j : Written} {cs : List Char} (h : Layout j cs) {n : Nat}
    (hn : cs.length ≤ n) {rest : Source} (hr : Ends rest) :
    Json.readValue n (cs.map some ++ rest) = some (asRead j, rest) := by
  obtain ⟨c, ds, hc, -, -⟩ := h.head
  have hpos : 0 < cs.length := by rw [hc]; exact Nat.succ_pos _
  obtain ⟨n, rfl⟩ : ∃ m, n = m + 1 := ⟨n - 1, by omega⟩
  match h with
  | .null => rfl
  | .bool b => cases b <;> rfl
  | .integer k =>
    obtain ⟨d, ds, hd, hnum⟩ := head_ofInt k
    have hk := readNumber_ofInt k hr
    rw [hd] at hk ⊢
    rw [List.map_cons, List.cons_append, readValue_number hnum]
    rw [List.map_cons, List.cons_append] at hk
    rw [hk, Option.map_some, ← hd]
    rfl
  | .string s =>
    have hs : (quote s).map some ++ rest =
        some '"' :: ((s.toList.flatMap escape).map some ++ some '"' :: rest) := by simp [quote]
    rw [hs, readValue_string, readPieces_quote]
    rfl
  | .noItems => rfl
  | .array hxs =>
    obtain ⟨d, ds, hd, hne⟩ := hxs.head rest
    rw [List.map_cons, List.cons_append, readValue_array hd hne,
      hxs.readItems (Nat.le_of_succ_le_succ hn)]
    rfl
  | .noMembers => rfl
  | .object hms =>
    obtain ⟨ds, hd⟩ := hms.head rest
    rw [List.map_cons, List.cons_append, readValue_object hd,
      hms.readMembers (Nat.le_of_succ_le_succ hn)]
    rfl

theorem Items.readItems {xs : List Written} {cs : List Char} (h : Items xs cs) {n : Nat}
    (hn : cs.length ≤ n) (rest : Source) :
    Json.readItems n (cs.map some ++ rest) = some (mapItems quoted xs, rest) := by
  match h with
  | .last (a := a) (c := cs) (b := b) ha hx hb =>
    simp only [List.length_append, List.length_cons, List.length_nil] at hn
    obtain ⟨n, rfl⟩ : ∃ m, n = m + 1 := ⟨n - 1, by omega⟩
    simp only [List.map_append, List.map_cons, List.map_nil, List.append_assoc, List.cons_append,
      List.nil_append]
    refine readItems_close ((readValue_append ha _).trans (hx.readValue (by omega) ?_)) ?_
    · exact ends_append hb (.cons _ (by decide))
    · rw [skipBlanks_append hb, skipBlanks_cons (by decide)]
  | .cons (a := a) (c := cs) (r := ds) ha hx hxs =>
    simp only [List.length_append, List.length_cons] at hn
    obtain ⟨n, rfl⟩ : ∃ m, n = m + 1 := ⟨n - 1, by omega⟩
    simp only [List.map_append, List.map_cons, List.append_assoc, List.cons_append]
    rw [readItems_comma ((readValue_append ha _).trans (hx.readValue (by omega) (ends_comma _)))
      (skipBlanks_cons (by decide) _), hxs.readItems (by omega)]
    rfl

theorem Members.readMembers {ms : List (String × Written)} {cs : List Char} (h : Members ms cs)
    {n : Nat} (hn : cs.length ≤ n) (rest : Source) :
    Json.readMembers n (cs.map some ++ rest) = some (mapMembers quoted ms, rest) := by
  match h with
  | .last (k := k) (a := a) (b := b) (c := cs) (d := d) ha hb hv hd =>
    simp only [List.length_append, List.length_cons, List.length_nil] at hn
    obtain ⟨n, rfl⟩ : ∃ m, n = m + 1 := ⟨n - 1, by omega⟩
    simp only [List.map_append, List.map_cons, List.map_nil, List.append_assoc, List.cons_append,
      List.nil_append]
    have hend : Ends (d.map some ++ some '\x7d' :: rest) := ends_append hd (.cons _ (by decide))
    refine readMembers_close (member_name ha k _) (skipBlanks_cons (by decide) _)
      ((readValue_append hb _).trans (hv.readValue (by omega) hend)) ?_
    rw [skipBlanks_append hd, skipBlanks_cons (by decide)]
  | .cons (k := k) (a := a) (b := b) (c := cs) (r := ds) ha hb hv hms =>
    simp only [List.length_append, List.length_cons] at hn
    obtain ⟨n, rfl⟩ : ∃ m, n = m + 1 := ⟨n - 1, by omega⟩
    simp only [List.map_append, List.map_cons, List.append_assoc, List.cons_append]
    rw [readMembers_comma (member_name ha k _) (skipBlanks_cons (by decide) _)
      ((readValue_append hb _).trans (hv.readValue (by omega) (ends_comma _)))
      (skipBlanks_cons (by decide) _), hms.readMembers (by omega)]
    rfl

end

/-- A layout is read as its document when it is all there is. -/
theorem Layout.read {j : Written} {cs : List Char} (h : Layout j cs) :
    Json.read (cs.map some) = some (asRead j) := by
  have hread := h.readValue (n := (cs.map some).length + 1)
    (by rw [List.length_map]; exact Nat.le_succ _) .nil
  rw [List.append_nil] at hread
  rw [Json.read, hread]
  rfl

/-! ### The two written forms -/

/-- The numbers of the document are integers. -/
inductive Whole : Written → Prop where
  /-- There is no number. -/
  | null : Whole .null
  /-- There is no number. -/
  | bool (b : Bool) : Whole (.bool b)
  /-- An integer. -/
  | integer (n : Int) : Whole (.ofInt n)
  /-- There is no number. -/
  | string (s : String) : Whole (.string s)
  /-- The items have such numbers only. -/
  | array {xs : List Written} : (∀ x ∈ xs, Whole x) → Whole (.array xs)
  /-- The members have such numbers only. -/
  | object {ms : List (String × Written)} : (∀ m ∈ ms, Whole m.2) → Whole (.object ms)

/-- Items that are set apart by commas, each after the blanks `a`, with the blanks `b` at the
end. -/
theorem Items.of_join {f : List Written → List Char} {g : Written → List Char} {a b : List Char}
    (ha : Blank a) (hb : Blank b) (hone : ∀ x, f [x] = a ++ g x)
    (hmore : ∀ x y xs, f (x :: y :: xs) = a ++ g x ++ ',' :: f (y :: xs)) {x : Written}
    {xs : List Written} (h : ∀ y ∈ x :: xs, Layout y (g y)) :
    Items (x :: xs) (f (x :: xs) ++ (b ++ [']'])) := by
  induction xs generalizing x with
  | nil =>
    rw [hone, List.append_assoc]
    exact .last ha (h x List.mem_cons_self) hb
  | cons y ys ih =>
    obtain ⟨hx, hys⟩ := List.forall_mem_cons.1 h
    rw [hmore, List.append_assoc, List.append_assoc]
    exact .cons ha hx (ih hys)

/-- Members that are set apart by commas, each after the blanks `a` and with the blanks `d` before
its value, and with the blanks `b` at the end. -/
theorem Members.of_join {f : List (String × Written) → List Char} {g : Written → List Char}
    {a b d : List Char} (ha : Blank a) (hb : Blank b) (hd : Blank d)
    (hone : ∀ m, f [m] = a ++ (quote m.1 ++ ':' :: (d ++ g m.2)))
    (hmore : ∀ m n ms, f (m :: n :: ms) =
      a ++ (quote m.1 ++ ':' :: (d ++ g m.2)) ++ ',' :: f (n :: ms))
    {m : String × Written} {ms : List (String × Written)}
    (h : ∀ n ∈ m :: ms, Layout n.2 (g n.2)) :
    Members (m :: ms) (f (m :: ms) ++ (b ++ ['\x7d'])) := by
  induction ms generalizing m with
  | nil =>
    have hlast := Members.last (k := m.1) ha hd (h m List.mem_cons_self) hb
    rw [hone]
    simpa only [List.append_assoc, List.cons_append] using hlast
  | cons n ns ih =>
    obtain ⟨hm, hns⟩ := List.forall_mem_cons.1 h
    have hcons := Members.cons (k := m.1) ha hd hm (ih hns)
    rw [hmore]
    simpa only [List.append_assoc, List.cons_append] using hcons

/-- The compact form is a layout without blanks. -/
theorem layout_compact {j : Written} (h : Whole j) : Layout j (compact j) := by
  induction h with
  | null => exact .null
  | bool b => exact .bool b
  | integer n => exact .integer n
  | string s => exact .string s
  | @array xs _ ih =>
    cases xs with
    | nil => exact .noItems
    | cons x xs =>
      exact .array (.of_join (f := compactItems) (g := compact) .nil .nil (fun _ => rfl)
        (fun _ _ _ => rfl) ih)
  | @object ms _ ih =>
    cases ms with
    | nil => exact .noMembers
    | cons m ms =>
      exact .object (.of_join (f := compactMembers) (g := compact) .nil .nil .nil
        (fun ⟨_, _⟩ => rfl) (fun ⟨_, _⟩ _ _ => rfl) ih)

theorem blank_newline (level : Nat) : Blank (newline level) := by
  intro c hc
  rcases List.mem_cons.1 hc with rfl | hc
  · rfl
  · rw [List.eq_of_mem_replicate hc]
    rfl

/-- The pretty form is a layout, at every level. -/
theorem layout_prettyAt {j : Written} (h : Whole j) (level : Nat) :
    Layout j (prettyAt level j) := by
  induction h generalizing level with
  | null => exact .null
  | bool b => exact .bool b
  | integer n => exact .integer n
  | string s => exact .string s
  | @array xs _ ih =>
    cases xs with
    | nil => exact .noItems
    | cons x xs =>
      have hi := Items.of_join (f := prettyItems (level + 1)) (g := prettyAt (level + 1))
        (blank_newline (level + 1)) (blank_newline level) (fun _ => rfl) (fun _ _ _ => rfl)
        (fun y hy => ih y hy (level + 1))
      rw [← List.append_assoc] at hi
      exact .array hi
  | @object ms _ ih =>
    cases ms with
    | nil => exact .noMembers
    | cons m ms =>
      have hblank : Blank [' '] := fun c hc => by rw [List.mem_singleton.1 hc]; rfl
      have hm := Members.of_join (f := prettyMembers (level + 1)) (g := prettyAt (level + 1))
        (blank_newline (level + 1)) (blank_newline level) hblank
        (fun ⟨_, _⟩ => rfl)
        (fun ⟨_, _⟩ _ _ => rfl) (fun y hy => ih y hy (level + 1))
      rw [← List.append_assoc] at hm
      exact .object hm

theorem layout_pretty {j : Written} (h : Whole j) : Layout j (pretty j) := layout_prettyAt h 0

end Novella.Json
