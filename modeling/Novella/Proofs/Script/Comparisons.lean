import Novella.Proofs.Text.Trimming
import Novella.Script.Condition

/-!
# How values compare

Two values are compared as numbers if both have an integer view, and as texts otherwise. Which of
the two it is changes from pair to pair, and still equality is an equivalence: the integer view can
be read off the text, so each value counts as its integer view or, if there is none, as its text,
and two values are equal exactly when they count as the same.

An expression has no value only when its evaluation comes to values that have no order.

## Main definitions

* `Value.standing` — what a value counts as
* `Comparison.Lawful` — the laws of comparison
* `Expr.Comes` — the evaluation of an expression comes to a part of it

## Main results

* `Comparison.lawful_holds` — values are compared lawfully
* `Expr.eval_eq_error_iff` — only an order that does not exist leaves an expression without a value
* `Expr.comparing_lawful` — both together
-/

namespace Novella

/-! ### Views -/

namespace Value

variable {x y : Value}

/-- The integer view can be read off the text. -/
theorem int?_eq (x : Value) : x.int? = Numeral.int64? (Text.trim x.text.toList) := by
  cases x with
  | str s => rfl
  | int n =>
    rw [int?, text, String.toList_ofList, Numeral.trim_ofInt, Numeral.int64?_ofInt]

/-- What a value counts as: its integer view or, if it has none, its text. -/
def standing (x : Value) : Int64 ⊕ String :=
  match x.int? with
  | some n => .inl n
  | none => .inr x.text

theorem standing_of_some {n : Int64} (h : x.int? = some n) : x.standing = .inl n := by
  rw [standing, h]

theorem standing_of_none (h : x.int? = none) : x.standing = .inr x.text := by
  rw [standing, h]

theorem standing_of_text (h : x.text = y.text) : x.standing = y.standing := by
  rw [standing, standing, int?_eq, int?_eq, h]

theorem int?_of_standing (h : x.standing = y.standing) : x.int? = y.int? := by
  cases hx : x.int? <;> cases hy : y.int?
  · rfl
  · rw [standing_of_none hx, standing_of_some hy] at h
    cases h
  · rw [standing_of_some hx, standing_of_none hy] at h
    cases h
  · rw [standing_of_some hx, standing_of_some hy] at h
    rw [Sum.inl.inj h]

end Value

/-! ### Pairs of values -/

namespace Comparison

variable {op : Comparison} {a b c a' b' : Value} {m n : Int64}

/-- The operators that ask for an order. -/
def orders : List Comparison := [lt, le, gt, ge]

theorem holds_of_some (ha : a.int? = some m) (hb : b.int? = some n) :
    op.holds a b = .ok (op.onInts m.toInt n.toInt) := by
  unfold holds
  rw [ha, hb]

theorem holds_of_text (ha : a.text = a'.text) (hb : b.text = b'.text) :
    op.holds a b = op.holds a' b' := by
  unfold holds
  rw [Value.int?_eq a, Value.int?_eq b, ha, hb, ← Value.int?_eq, ← Value.int?_eq]

/-- Texts are compared for equality only. -/
theorem holds_of_none (h : a.int? = none ∨ b.int? = none) :
    op.holds a b =
      match op with
      | eq => .ok (a.text = b.text)
      | ne => .ok (a.text ≠ b.text)
      | _ => .error (.notComparable a.text b.text) := by
  unfold holds
  cases ha : a.int? with
  | none => rfl
  | some m =>
    have hb : b.int? = none := h.resolve_left (by simp [ha])
    cases op <;> simp only [hb]

/-- Either both values have an integer view or one has none. -/
theorem views (a b : Value) :
    (∃ m n, a.int? = some m ∧ b.int? = some n) ∨ a.int? = none ∨ b.int? = none := by
  cases ha : a.int? with
  | none => exact .inr (.inl rfl)
  | some m =>
    cases hb : b.int? with
    | none => exact .inr (.inr rfl)
    | some n => exact .inl ⟨m, n, rfl, rfl⟩

/-- Texts are the same when the values count as the same, where one has no integer view. -/
theorem text_eq_iff (h : a.int? = none ∨ b.int? = none) :
    a.text = b.text ↔ a.standing = b.standing := by
  refine ⟨Value.standing_of_text, fun hs => ?_⟩
  have hint := Value.int?_of_standing hs
  have ha : a.int? = none := h.elim id hint.trans
  rw [Value.standing_of_none ha, Value.standing_of_none (hint ▸ ha)] at hs
  exact Sum.inr.inj hs

/-- Values are equal when they count as the same. -/
theorem holds_eq (a b : Value) : eq.holds a b = .ok (decide (a.standing = b.standing)) := by
  rcases views a b with ⟨m, n, hm, hn⟩ | h
  · rw [holds_of_some hm hn, Value.standing_of_some hm, Value.standing_of_some hn]
    simp only [onInts, Int64.toInt_inj, Sum.inl.injEq]
  · rw [holds_of_none h]
    simp only [text_eq_iff h]

theorem holds_eq_true_iff : eq.holds a b = .ok true ↔ a.standing = b.standing := by
  rw [holds_eq, Except.ok.injEq, decide_eq_true_iff]

theorem holds_ne (a b : Value) : ne.holds a b = .ok (!decide (a.standing = b.standing)) := by
  rcases views a b with ⟨m, n, hm, hn⟩ | h
  · rw [holds_of_some hm hn, Value.standing_of_some hm, Value.standing_of_some hn]
    simp only [onInts, ne_eq, Int64.toInt_inj, Sum.inl.injEq, decide_not]
  · rw [holds_of_none h]
    simp only [ne_eq, text_eq_iff h, decide_not]

/-- Values that count as the same compare in the same way with every other value. -/
theorem toOption_holds (ha : a.standing = a'.standing) (hb : b.standing = b'.standing) :
    (op.holds a b).toOption = (op.holds a' b').toOption := by
  have hia := Value.int?_of_standing ha
  have hib := Value.int?_of_standing hb
  by_cases heq : op = eq
  · rw [heq, holds_eq, holds_eq, ha, hb]
  by_cases hne : op = ne
  · rw [hne, holds_ne, holds_ne, ha, hb]
  rcases views a b with ⟨m, n, hm, hn⟩ | hnone
  · rw [holds_of_some hm hn, holds_of_some (hia ▸ hm) (hib ▸ hn)]
  · -- the two errors tell the texts apart, but both are errors
    rw [holds_of_none hnone, holds_of_none (hia ▸ hib ▸ hnone)]
    cases op <;> first | rfl | contradiction

/-- A comparison fails where an order is asked for that does not exist. -/
theorem of_holds_eq_error {x : ConditionError} (h : op.holds a b = .error x) :
    op ∈ orders ∧ (a.int? = none ∨ b.int? = none) ∧ x = .notComparable a.text b.text := by
  rcases views a b with ⟨m, n, hm, hn⟩ | hnone
  · rw [holds_of_some hm hn] at h
    cases h
  · rw [holds_of_none hnone] at h
    cases op <;> cases h <;> exact ⟨by decide, hnone, rfl⟩

end Comparison

/-! ### The laws -/

/-- The laws of comparison. -/
structure Comparison.Lawful
    (compare : Comparison → Value → Value → Except ConditionError Bool) : Prop where
  /-- Whether two values are equal can always be told. -/
  equal : ∀ a b, ∃ t, compare .eq a b = .ok t
  /-- Inequality is the negation of equality. -/
  unequal : ∀ a b, compare .ne a b = (compare .eq a b).map (!·)
  /-- Each value is equal to itself. -/
  refl : ∀ a, compare .eq a a = .ok true
  /-- The sides of an equality can change places. -/
  symm : ∀ a b, compare .eq a b = compare .eq b a
  /-- Values that are equal to one value are equal to each other. -/
  trans : ∀ a b c, compare .eq a b = .ok true → compare .eq b c = .ok true →
    compare .eq a c = .ok true
  /-- An integer is equal to its decimal numeral, and compares as it does. -/
  numeral : ∀ (n : Int64) (s : String), s = String.ofList (Numeral.ofInt n.toInt) →
    compare .eq (.int n) (.str s) = .ok true ∧
      ∀ op b, compare op (.int n) b = compare op (.str s) b ∧
        compare op b (.int n) = compare op b (.str s)
  /-- Equal values compare in the same way with any third one. -/
  congr : ∀ op a b c, compare .eq a b = .ok true →
    (compare op a c).toOption = (compare op b c).toOption ∧
      (compare op c a).toOption = (compare op c b).toOption
  /-- Values with integer views are ordered as the integers are. -/
  ordered : ∀ a b m n, a.int? = some m → b.int? = some n →
    compare .eq a b = .ok (m.toInt = n.toInt) ∧
      compare .lt a b = .ok (m.toInt < n.toInt) ∧ compare .le a b = .ok (m.toInt ≤ n.toInt) ∧
        compare .gt a b = .ok (m.toInt > n.toInt) ∧ compare .ge a b = .ok (m.toInt ≥ n.toInt)
  /-- Of two values with integer views one is at most the other. -/
  total : ∀ a b, a.int?.isSome → b.int?.isSome →
    compare .le a b = .ok true ∨ compare .le b a = .ok true
  /-- Values that are at most each other are equal. -/
  antisymm : ∀ a b, compare .le a b = .ok true → compare .le b a = .ok true →
    compare .eq a b = .ok true
  /-- Other values have no order. -/
  unordered : ∀ a b, a.int? = none ∨ b.int? = none →
    ∀ op ∈ orders, compare op a b = .error (.notComparable a.text b.text)

/-- Values are compared lawfully. -/
theorem Comparison.lawful_holds : Lawful holds where
  equal a b := ⟨_, holds_eq a b⟩
  unequal a b := by
    rw [holds_ne, holds_eq]
    rfl
  refl a := holds_eq_true_iff.2 rfl
  symm a b := by
    rw [holds_eq, holds_eq]
    simp only [eq_comm]
  trans a b c hab hbc :=
    holds_eq_true_iff.2 ((holds_eq_true_iff.1 hab).trans (holds_eq_true_iff.1 hbc))
  numeral := by
    rintro n _ rfl
    have htext : (Value.int n).text =
        (Value.str (String.ofList (Numeral.ofInt n.toInt))).text := rfl
    exact ⟨holds_eq_true_iff.2 (Value.standing_of_text htext),
      fun op b => ⟨holds_of_text htext rfl, holds_of_text rfl htext⟩⟩
  congr op a b c h :=
    ⟨toOption_holds (holds_eq_true_iff.1 h) rfl, toOption_holds rfl (holds_eq_true_iff.1 h)⟩
  ordered a b m n hm hn :=
    ⟨holds_of_some hm hn, holds_of_some hm hn, holds_of_some hm hn, holds_of_some hm hn,
      holds_of_some hm hn⟩
  total a b ha hb := by
    obtain ⟨m, hm⟩ := Option.isSome_iff_exists.1 ha
    obtain ⟨n, hn⟩ := Option.isSome_iff_exists.1 hb
    rw [holds_of_some hm hn, holds_of_some hn hm]
    simpa [onInts] using Int.le_total m.toInt n.toInt
  antisymm a b hab hba := by
    rcases views a b with ⟨m, n, hm, hn⟩ | hnone
    · rw [holds_of_some hm hn] at hab ⊢
      rw [holds_of_some hn hm] at hba
      have hle : m.toInt ≤ n.toInt := by simpa [onInts] using hab
      have hge : n.toInt ≤ m.toInt := by simpa [onInts] using hba
      simp [onInts, Int.le_antisymm hle hge]
    · rw [holds_of_none hnone] at hab
      cases hab
  unordered a b h op hop := by
    rw [holds_of_none h]
    cases op <;> first | rfl | exact absurd hop (by decide)

/-! ### Expressions -/

namespace Expr

variable {lookup : Variable → Value} {e d l r : Expr} {x : ConditionError} {a : Value}

/-- The evaluation of the first expression comes to the second one, a part of it. It comes to the
right side of a comparison only if the left side has a value, and to the right side of `&&` and `||`
only if the left side leaves the answer open. -/
inductive Comes (lookup : Variable → Value) : Expr → Expr → Prop where
  /-- The evaluation begins with the whole expression. -/
  | refl (e : Expr) : Comes lookup e e
  /-- The left side is compared. -/
  | compareLeft {op : Comparison} {l r d : Expr} : Comes lookup l d →
      Comes lookup (.compare op l r) d
  /-- The right side is compared with the value of the left one. -/
  | compareRight {op : Comparison} {l r d : Expr} {a : Value} : l.eval lookup = .ok a →
      Comes lookup r d → Comes lookup (.compare op l r) d
  /-- The left side of `&&` is looked at. -/
  | andLeft {l r d : Expr} : Comes lookup l d → Comes lookup (.and l r) d
  /-- The left side of `&&` is true. -/
  | andRight {l r d : Expr} {a : Value} : l.eval lookup = .ok a → a.isTruthy = true →
      Comes lookup r d → Comes lookup (.and l r) d
  /-- The left side of `||` is looked at. -/
  | orLeft {l r d : Expr} : Comes lookup l d → Comes lookup (.or l r) d
  /-- The left side of `||` is not true. -/
  | orRight {l r d : Expr} {a : Value} : l.eval lookup = .ok a → a.isTruthy = false →
      Comes lookup r d → Comes lookup (.or l r) d

/-- The expression orders two values that have no order. -/
inductive Unordered (lookup : Variable → Value) : Expr → ConditionError → Prop where
  /-- One of the values has no integer view. -/
  | intro {op : Comparison} {l r : Expr} {a b : Value} : op ∈ Comparison.orders →
      l.eval lookup = .ok a → r.eval lookup = .ok b → a.int? = none ∨ b.int? = none →
      Unordered lookup (.compare op l r) (.notComparable a.text b.text)

theorem eval_compare_eq_error_iff {op : Comparison} :
    (compare op l r).eval lookup = .error x ↔
      l.eval lookup = .error x ∨ ∃ a, l.eval lookup = .ok a ∧
        (r.eval lookup = .error x ∨ ∃ b, r.eval lookup = .ok b ∧ op.holds a b = .error x) := by
  rw [eval]
  cases l.eval lookup with
  | error y => simp [bind, Except.bind]
  | ok a =>
    cases r.eval lookup with
    | error y => simp [bind, Except.bind]
    | ok b => cases hh : op.holds a b <;> simp [bind, Except.bind, pure, Except.pure, hh]

theorem eval_and_eq_error_iff :
    (and l r).eval lookup = .error x ↔
      l.eval lookup = .error x ∨
        ∃ a, l.eval lookup = .ok a ∧ a.isTruthy = true ∧ r.eval lookup = .error x := by
  rw [eval]
  cases l.eval lookup with
  | error y => simp [bind, Except.bind]
  | ok a =>
    cases ht : a.isTruthy <;> cases r.eval lookup <;>
      simp [bind, Except.bind, pure, Except.pure, ht]

theorem eval_or_eq_error_iff :
    (or l r).eval lookup = .error x ↔
      l.eval lookup = .error x ∨
        ∃ a, l.eval lookup = .ok a ∧ a.isTruthy = false ∧ r.eval lookup = .error x := by
  rw [eval]
  cases l.eval lookup with
  | error y => simp [bind, Except.bind]
  | ok a =>
    cases ht : a.isTruthy <;> cases r.eval lookup <;>
      simp [bind, Except.bind, pure, Except.pure, ht]

theorem Unordered.eval (h : Unordered lookup e x) : e.eval lookup = .error x := by
  obtain ⟨hop, hl, hr, hnone⟩ := h
  exact eval_compare_eq_error_iff.2 (.inr ⟨_, hl, .inr ⟨_, hr,
    Comparison.lawful_holds.unordered _ _ hnone _ hop⟩⟩)

/-- What leaves a part without a value leaves the whole without one. -/
theorem Comes.eval (h : Comes lookup e d) (hd : d.eval lookup = .error x) :
    e.eval lookup = .error x := by
  induction h with
  | refl => exact hd
  | compareLeft _ ih => exact eval_compare_eq_error_iff.2 (.inl (ih hd))
  | compareRight hl _ ih => exact eval_compare_eq_error_iff.2 (.inr ⟨_, hl, .inl (ih hd)⟩)
  | andLeft _ ih => exact eval_and_eq_error_iff.2 (.inl (ih hd))
  | andRight hl ht _ ih => exact eval_and_eq_error_iff.2 (.inr ⟨_, hl, ht, ih hd⟩)
  | orLeft _ ih => exact eval_or_eq_error_iff.2 (.inl (ih hd))
  | orRight hl ht _ ih => exact eval_or_eq_error_iff.2 (.inr ⟨_, hl, ht, ih hd⟩)

/-- Where an expression has no value, its evaluation has come to values that have no order. -/
theorem exists_of_eval_eq_error (h : e.eval lookup = .error x) :
    ∃ d, Comes lookup e d ∧ Unordered lookup d x := by
  induction e with
  | literal y => cases h
  | var v => cases h
  | compare op l r ihl ihr =>
    rcases eval_compare_eq_error_iff.1 h with hl | ⟨a, hl, hr | ⟨b, hr, ho⟩⟩
    · obtain ⟨d, hc, hd⟩ := ihl hl
      exact ⟨d, .compareLeft hc, hd⟩
    · obtain ⟨d, hc, hd⟩ := ihr hr
      exact ⟨d, .compareRight hl hc, hd⟩
    · obtain ⟨hop, hnone, rfl⟩ := Comparison.of_holds_eq_error ho
      exact ⟨_, .refl _, .intro hop hl hr hnone⟩
  | and l r ihl ihr =>
    rcases eval_and_eq_error_iff.1 h with hl | ⟨a, hl, ht, hr⟩
    · obtain ⟨d, hc, hd⟩ := ihl hl
      exact ⟨d, .andLeft hc, hd⟩
    · obtain ⟨d, hc, hd⟩ := ihr hr
      exact ⟨d, .andRight hl ht hc, hd⟩
  | or l r ihl ihr =>
    rcases eval_or_eq_error_iff.1 h with hl | ⟨a, hl, ht, hr⟩
    · obtain ⟨d, hc, hd⟩ := ihl hl
      exact ⟨d, .orLeft hc, hd⟩
    · obtain ⟨d, hc, hd⟩ := ihr hr
      exact ⟨d, .orRight hl ht hc, hd⟩

theorem eval_eq_error_iff :
    e.eval lookup = .error x ↔ ∃ d, Comes lookup e d ∧ Unordered lookup d x :=
  ⟨exists_of_eval_eq_error, fun ⟨_, hc, hd⟩ => hc.eval hd.eval⟩

theorem isTrue_eq_error_iff : e.isTrue lookup = .error x ↔ e.eval lookup = .error x := by
  rw [isTrue]
  cases e.eval lookup <;> simp [Except.map]

theorem eval_compare {op : Comparison} {b : Value} (hl : l.eval lookup = .ok a)
    (hr : r.eval lookup = .ok b) :
    (compare op l r).eval lookup = (op.holds a b).map Value.ofBool := by
  cases hh : op.holds a b <;>
    simp [eval, hl, hr, hh, bind, Except.bind, pure, Except.pure, Except.map]

theorem eval_and (hl : l.eval lookup = .ok a) :
    (and l r).eval lookup =
      if a.isTruthy then (r.eval lookup).map fun b => .ofBool b.isTruthy
      else .ok (.ofBool false) := by
  cases ht : a.isTruthy <;> cases hr : r.eval lookup <;>
    simp [eval, hl, ht, hr, bind, Except.bind, pure, Except.pure, Except.map]

theorem eval_or (hl : l.eval lookup = .ok a) :
    (or l r).eval lookup =
      if a.isTruthy then .ok (.ofBool true)
      else (r.eval lookup).map fun b => .ofBool b.isTruthy := by
  cases ht : a.isTruthy <;> cases hr : r.eval lookup <;>
    simp [eval, hl, ht, hr, bind, Except.bind, pure, Except.pure, Except.map]

/-- Values are compared lawfully, and a comparison has the value that the comparison of its sides
gives. An expression has no value exactly when its evaluation comes to an order between values that
have none. The right side of `&&` and `||` gives the answer if the left side leaves it open, and
cannot leave the whole without a value if the left side gives the answer. -/
theorem comparing_lawful :
    Comparison.Lawful Comparison.holds ∧
      ∀ lookup : Variable → Value,
        (∀ (e : Expr) (x : ConditionError),
          (e.eval lookup = .error x ↔ ∃ d, Comes lookup e d ∧ Unordered lookup d x) ∧
            (e.isTrue lookup = .error x ↔ e.eval lookup = .error x)) ∧
          ∀ (l r : Expr) (a : Value), l.eval lookup = .ok a →
            (∀ (op : Comparison) (b : Value), r.eval lookup = .ok b →
              (compare op l r).eval lookup = (op.holds a b).map Value.ofBool) ∧
            (a.isTruthy = false → (and l r).eval lookup = .ok (.ofBool false) ∧
              (or l r).eval lookup = (r.eval lookup).map fun b => .ofBool b.isTruthy) ∧
            (a.isTruthy = true → (or l r).eval lookup = .ok (.ofBool true) ∧
              (and l r).eval lookup = (r.eval lookup).map fun b => .ofBool b.isTruthy) := by
  refine ⟨Comparison.lawful_holds, fun lookup => ⟨fun _ _ => ⟨eval_eq_error_iff,
    isTrue_eq_error_iff⟩, fun l r a hl => ⟨fun _ _ hr => eval_compare hl hr, fun ht => ?_,
    fun ht => ?_⟩⟩⟩
  · rw [eval_and hl, eval_or hl, ht]
    exact ⟨rfl, rfl⟩
  · rw [eval_and hl, eval_or hl, ht]
    exact ⟨rfl, rfl⟩

/-- With `$door` holding the text `shut`, the numerals ` 7` and `07` are equal since both are equal
to the integer, `$door < 7` has no value, and neither `0 && $door < 7` nor `7 || $door < 7` comes to
that order, although `7 && $door < 7` does. -/
theorem comparing_lawful_shut :
    let lookup : Variable → Value := fun _ => .str "shut"
    let seven : Expr := .literal (.int 7)
    let order : Expr := .compare .lt (.var (.temporary "door")) seven
    let unordered : ConditionError := .notComparable "shut" "7"
    Comparison.eq.holds (.str " 7") (.str "07") = .ok true ∧
      (compare .ge (.literal (.str " 7")) seven).eval lookup = .ok (.int 1) ∧
      order.eval lookup = .error unordered ∧
      (and (.literal (.int 0)) order).eval lookup = .ok (.int 0) ∧
      (or seven order).eval lookup = .ok (.int 1) ∧
      (and seven order).isTrue lookup = .error unordered := by
  intro lookup seven order unordered
  obtain ⟨hlaws, heval⟩ := comparing_lawful
  obtain ⟨herror, hvalue⟩ := heval lookup
  have hseven : seven.eval lookup = .ok (.int 7) := rfl
  have horders : Comparison.lt ∈ Comparison.orders := by decide
  have hshut : (Value.str "shut").int? = none := by decide +kernel
  have hdoor : Unordered lookup order unordered := .intro horders rfl hseven (.inl hshut)
  refine ⟨hlaws.trans _ (.int 7) _ (by decide +kernel) (by decide +kernel), ?_,
    (herror order unordered).1.2 ⟨order, .refl order, hdoor⟩, ?_, ?_, ?_⟩
  · have hge := (hlaws.ordered (.str " 7") (.int 7) 7 7 (by decide +kernel) rfl).2.2.2.2
    rw [(hvalue (.literal (.str " 7")) seven (.str " 7") rfl).1 .ge (.int 7) hseven, hge]
    rfl
  · exact ((hvalue (.literal (.int 0)) order (.int 0) rfl).2.1 rfl).1
  · exact ((hvalue seven order (.int 7) hseven).2.2 rfl).1
  · exact (herror (and seven order) unordered).2.2
      ((herror (and seven order) unordered).1.2 ⟨order, .andRight hseven rfl (.refl order), hdoor⟩)

end Expr

end Novella
