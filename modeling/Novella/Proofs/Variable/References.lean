import Novella.Player.World
import Novella.Proofs.Script.ConditionGrammar
import Novella.Proofs.Variable.Assignments

/-!
# References and what they refer to

A reference that was read is written as it was read, blank ends apart, and reads as itself again. So
two different references are never written alike, although flags, counters and temporaries share
their names and differ only by what stands before them. A change of one variable is not seen through
a reference to another one.

## Main results

* `Variable.read_text` — a reference reads as itself
* `Progress.get_of_set` — a variable shows what it was given, and all others what they did
* `Variable.references_apart` — references do not get in each other's way
-/

namespace Novella

namespace Variable

variable {token : List Char} {v w : Variable}

/-- A token is a sigil with word characters behind it, so it has no blank ends. -/
theorem trim_of_ofChars? (h : ofChars? token = some v) : Text.trim token = token := by
  obtain ⟨sigil, name, rfl, hsigil, hname⟩ := Condition.exists_of_ofChars? h
  refine Text.trim_eq_self (List.forall_mem_cons.2 ⟨?_, fun c hc => ?_⟩)
  · rcases hsigil with rfl | rfl <;> rfl
  · by_contra hblank
    rw [Bool.not_eq_false] at hblank
    exact absurd (hname c hc) (by rw [Text.isWordChar_of_isBlank hblank]; exact Bool.false_ne_true)

theorem read_eq_ok_iff : read token = .ok v ↔ ofChars? (Text.trim token) = some v := by
  rw [read]
  cases ofChars? (Text.trim token) <;> simp

/-- A reference is written as it was read. -/
theorem text_of_read (h : read token = .ok v) : v.text.toList = Text.trim token :=
  Condition.text_of_ofChars? (read_eq_ok_iff.1 h)

/-- A reference reads as itself. -/
theorem read_text (h : read token = .ok v) : read v.text.toList = .ok v := by
  have htoken := read_eq_ok_iff.1 h
  rw [text_of_read h, read_eq_ok_iff, trim_of_ofChars? htoken, htoken]

theorem eq_of_text {token' : List Char} (hv : read token = .ok v) (hw : read token' = .ok w)
    (h : v.text = w.text) : v = w := by
  have hread := read_text hv
  rw [h, read_text hw] at hread
  exact (Except.ok.inj hread).symm

end Variable

namespace Progress

variable {p q : Progress} {v w : Variable} {x : Value}

theorem get_eq_stored? (p : Progress) (w : Variable) :
    p.get w = (p.stored? w).getD (({} : Progress).get w) := by
  cases w with
  | flag id =>
    rw [get, stored?]
    cases p.flags.contains id <;> rfl
  | counter name =>
    rw [get, stored?]
    cases p.counters.get? name <;> rfl
  | temporary name => rfl

theorem SameBut.get (h : p.SameBut q v) (hw : w ≠ v) : q.get w = p.get w := by
  rw [get_eq_stored?, h w hw, ← get_eq_stored?]

/-- A variable shows what it was given, and all others what they did. -/
theorem get_of_set (h : p.set v x = .ok q) :
    v.shows? x = some (q.get v) ∧ ∀ w ≠ v, q.get w = p.get w := by
  cases hx : v.shows? x with
  | none =>
    obtain ⟨e, he⟩ := set_of_shows?_eq_none (p := p) hx
    rw [he] at h
    cases h
  | some y =>
    obtain ⟨q', hq', hget, hsame⟩ := set_of_shows? (p := p) hx
    obtain rfl : q' = q := Except.ok.inj (hq'.symm.trans h)
    exact ⟨congrArg some hget.symm, fun w hw => hsame.get hw⟩

/-- A flag or a counter refuses what has no integer view. -/
theorem of_set_eq_error {e : VariableError} (h : p.set v x = .error e) :
    (∀ name, v ≠ .temporary name) ∧ x.int? = none ∧ e = .notAnInteger v.text x.text := by
  cases hx : x.int? with
  | some n => cases v <;> simp [set, requireInt, hx, bind, Except.bind, pure, Except.pure] at h
  | none =>
    cases v <;> simp [set, requireInt, hx, bind, Except.bind, pure, Except.pure] at h
    all_goals exact ⟨fun _ => by simp, rfl, h.symm⟩

end Progress

/-- Writing a variable for a host: the variable shows the value and the others stay, or nothing at
all is changed. -/
theorem Player.call_setVariable (p : Player) (token : String) (x : Value) :
    (∃ v q, Variable.read token.toList = .ok v ∧ p.stage.progress.set v x = .ok q ∧
      p.call (.setVariable token x) = (p.write .vars q, .none, [])) ∨
    ∃ e, p.call (.setVariable token x) = (p, .refused e, []) := by
  rw [Player.call]
  cases hv : Variable.read token.toList with
  | error e => exact .inr ⟨e, rfl⟩
  | ok v =>
    cases hq : p.stage.progress.set v x with
    | error e => exact .inr ⟨e, by simp [Except.bind, hq]⟩
    | ok q => exact .inl ⟨v, q, rfl, hq, by simp [Except.bind, hq]⟩

/-- References do not get in each other's way. Each one reads as itself, so different ones are
written differently. A change through one of them is not seen through another one, and it is seen
through itself: as the value of a temporary, as the integer view of a counter, and as one or zero of
a flag. A change that is refused changes nothing. -/
theorem Variable.references_apart :
    (∀ (token : List Char) (v : Variable), read token = .ok v → read v.text.toList = .ok v) ∧
    (∀ (token token' : List Char) (v w : Variable),
      read token = .ok v → read token' = .ok w → v ≠ w →
        v.text ≠ w.text ∧
          ∀ (p q : Progress) (x : Value), p.set v x = .ok q → q.get w = p.get w) ∧
    (∀ (p q : Progress) (x : Value),
      (∀ name, p.set (.temporary name) x = .ok q → q.get (.temporary name) = x) ∧
      (∀ name, p.set (.counter name) x = .ok q →
        ∃ n, x.int? = some n ∧ q.get (.counter name) = .int n) ∧
      (∀ id, p.set (.flag id) x = .ok q →
        ∃ n, x.int? = some n ∧ q.get (.flag id) = .int (if n = 0 then 0 else 1)) ∧
      ∀ v e, p.set v x = .error e → x.int? = none ∧ e = .notAnInteger v.text x.text) ∧
    ∀ (p q : Player) (token : String) (x : Value) (answer : Answer) (orders : Player.Orders),
      p.call (.setVariable token x) = (q, answer, orders) →
        (∃ v, read token.toList = .ok v ∧
          p.stage.progress.set v x = .ok q.stage.progress ∧ answer = .none) ∨
        (∃ e, answer = .refused e) ∧ q = p := by
  refine ⟨fun _ _ => read_text, fun _ _ v w hv hw hne => ⟨mt (eq_of_text hv hw) hne,
    fun _ _ _ hset => (Progress.get_of_set hset).2 w hne.symm⟩, fun p q x => ⟨?_, ?_, ?_, ?_⟩, ?_⟩
  · intro name hset
    exact (Option.some.inj (Progress.get_of_set hset).1).symm
  · intro name hset
    obtain ⟨n, hn, hget⟩ := Option.map_eq_some_iff.1 (Progress.get_of_set hset).1
    exact ⟨n, hn, hget.symm⟩
  · intro id hset
    obtain ⟨n, hn, hget⟩ := Option.map_eq_some_iff.1 (Progress.get_of_set hset).1
    refine ⟨n, hn, hget.symm.trans ?_⟩
    by_cases h0 : n = 0 <;> simp [Value.ofBool, h0]
  · intro v e hset
    exact (Progress.of_set_eq_error hset).2
  · intro p q token x answer orders hcall
    rcases p.call_setVariable token x with ⟨v, progress, hv, hset, heq⟩ | ⟨e, heq⟩
    · rw [heq] at hcall
      cases hcall
      refine .inl ⟨v, hv, ?_, rfl⟩
      rw [hset]
      exact congrArg Except.ok (Player.value_cell_write p .vars progress).symm
    · rw [heq] at hcall
      cases hcall
      exact .inr ⟨⟨e, rfl⟩, rfl⟩

/-- The flag `%flg1`, the counter `%flg` and the temporary `$flg1` are told apart. The text ` 5`
sets the flag and is one for it, the others stay, and the counter refuses the text `on`, also for a
host. -/
theorem Variable.references_apart_flg :
    let flag : Variable := .flag "1"
    let counter : Variable := .counter "flg"
    let temporary : Variable := .temporary "flg1"
    let p : Player := { source := .ofTexts [] }
    (read flag.text.toList = .ok flag ∧ flag.text ≠ counter.text ∧ flag.text ≠ temporary.text) ∧
      (∃ q, ({} : Progress).set flag (.str " 5") = .ok q ∧ q.get flag = .int 1 ∧
        q.get counter = .int 0 ∧ q.get temporary = .str "") ∧
      (p.call (.setVariable "%flg" (.str "on"))).1 = p := by
  intro flag counter temporary p
  obtain ⟨hself, hapart, hset, hhost⟩ := references_apart
  have hflag : read " %flg1".toList = .ok flag := by decide +kernel
  have hcounter : read "%flg".toList = .ok counter := by decide +kernel
  have htemporary : read "$flg1 ".toList = .ok temporary := by decide +kernel
  obtain ⟨hfc, hkeepc⟩ := hapart _ _ _ _ hflag hcounter (by decide)
  obtain ⟨hft, hkeept⟩ := hapart _ _ _ _ hflag htemporary (by decide)
  refine ⟨⟨hself _ _ hflag, hfc, hft⟩, ?_, ?_⟩
  · have hshows : flag.shows? (.str " 5") = some (.int 1) := by decide +kernel
    obtain ⟨q, hq, -⟩ := Progress.set_of_shows? (p := {}) hshows
    obtain ⟨n, hn, hget⟩ := (hset {} q (.str " 5")).2.2.1 "1" hq
    have hfive : (Value.str " 5").int? = some 5 := by decide +kernel
    obtain rfl : n = 5 := Option.some.inj (hn.symm.trans hfive)
    exact ⟨q, hq, hget, hkeepc {} q _ hq, hkeept {} q _ hq⟩
  · refine (hhost p _ "%flg" (.str "on") _ _ rfl).elim (fun ⟨v, hv, hq, _⟩ => ?_) And.right
    obtain rfl : v = counter := Except.ok.inj (hv.symm.trans hcounter)
    obtain ⟨e, he⟩ : ∃ e, p.stage.progress.set counter (.str "on") = .error e :=
      Progress.set_of_shows?_eq_none (by decide +kernel)
    rw [he] at hq
    cases hq

end Novella
