import Novella.Player.Instruction
import Novella.Proofs.Script.LineExpansion

/-!
# Commands on variables

A command on variables changes the variable that it names, or it logs an error and changes nothing.
There is nothing in between: the target is read, then the operand, then the new value is computed,
and only when the variable takes that value is anything written.

Arithmetic is that of the integers, clamped to 64 bits. A text that reads as an integer counts as
one, in the operand and in the variable.

## Main definitions

* `Progress.SameBut` — at most one variable differs
* `Assignment.Asks` — what a command asks for: a variable, an operation and an operand
* `Operation.result?`, `Variable.holding` — the result, and how a variable shows it
* `CarriedOut` — what a command leaves

## Main results

* `Progress.set_of_shows?` — a variable that takes a value shows it, and the others stay
* `Assignment.combine_of_exact` — results are exact, and then clamped
* `Player.execute_carriedOut` — every command on variables, whatever its argument
-/

namespace Novella

/-! ### One variable -/

namespace Progress

variable {p q : Progress} {v : Variable} {x : Value}

/-- What is stored for a variable, if anything is. -/
def stored? (p : Progress) : Variable → Option Value
  | .flag id => if p.flags.contains id then some (.ofBool true) else none
  | .counter name => (p.counters.get? name).map .int
  | .temporary name => p.temporaries.get? name

/-- Nothing is stored differently but for the variable `v`. -/
def SameBut (p q : Progress) (v : Variable) : Prop := ∀ w ≠ v, q.stored? w = p.stored? w

end Progress

/-- The value that a variable shows when it is given `x`, if it takes it. Flags and counters take
integers, and a flag tells zero from the others. -/
def Variable.shows? : Variable → Value → Option Value
  | .flag _, x => x.int?.map fun n => .ofBool (n ≠ 0)
  | .counter _, x => x.int?.map .int
  | .temporary _, x => some x

/-- What a variable shows of an integer. -/
def Variable.holding : Variable → Int64 → Value
  | .flag _, n => .ofBool (n ≠ 0)
  | _, n => .int n

theorem Variable.shows?_int (v : Variable) (n : Int64) :
    v.shows? (.int n) = some (v.holding n) := by
  cases v <;> rfl

namespace Progress

variable {p q : Progress} {v : Variable} {x y : Value}

/-- A variable that takes a value shows it, and the others stay. -/
theorem set_of_shows? (h : v.shows? x = some y) :
    ∃ q, p.set v x = .ok q ∧ q.get v = y ∧ p.SameBut q v := by
  cases v with
  | temporary name =>
    cases h
    refine ⟨_, rfl, by simp [get], fun w hw => ?_⟩
    cases w with
    | temporary other =>
      have hne : other ≠ name := fun he => hw (he ▸ rfl)
      exact SortedMap.get?_insert_of_ne _ hne x
    | _ => rfl
  | counter name =>
    obtain ⟨n, hn, rfl⟩ := Option.map_eq_some_iff.1 h
    refine ⟨{ p with counters := p.counters.insert name n }, ?_, by simp [get], fun w hw => ?_⟩
    · simp [set, requireInt, hn, bind, Except.bind, pure, Except.pure]
    · cases w with
      | counter other =>
        have hne : other ≠ name := fun he => hw (he ▸ rfl)
        exact congrArg (Option.map Value.int) (SortedMap.get?_insert_of_ne _ hne n)
      | _ => rfl
  | flag id =>
    obtain ⟨n, hn, rfl⟩ := Option.map_eq_some_iff.1 h
    refine ⟨{ p with flags := if n = 0 then p.flags.erase id else p.flags.insert id () }, ?_, ?_,
      fun w hw => ?_⟩
    · simp [set, requireInt, hn, bind, Except.bind, pure, Except.pure]
    · by_cases h0 : n = 0 <;> simp [get, SortedMap.contains, h0]
    · cases w with
      | flag other =>
        have hne : other ≠ id := fun he => hw (he ▸ rfl)
        have hget : (if n = 0 then p.flags.erase id else p.flags.insert id ()).get? other =
            p.flags.get? other := by
          split
          · exact SortedMap.get?_erase_of_ne _ hne
          · exact SortedMap.get?_insert_of_ne _ hne ()
        rw [stored?, stored?, SortedMap.contains, hget, SortedMap.contains]
      | _ => rfl

/-- A variable that does not take a value refuses it. -/
theorem set_of_shows?_eq_none (h : v.shows? x = none) : ∃ e, p.set v x = .error e := by
  cases v with
  | temporary name => cases h
  | counter name | flag name =>
    have hn : x.int? = none := Option.map_eq_none_iff.1 h
    exact ⟨_, by rw [set, requireInt, hn]; rfl⟩

end Progress

/-! ### What is asked for -/

/-- The exact result of an operation on integers. There is none when zero is the divisor. -/
def Operation.result? : Operation → Int → Int → Option Int
  | .assign, _, b => some b
  | .add, a, b => some (a + b)
  | .subtract, a, b => some (a - b)
  | .multiply, a, b => some (a * b)
  | .divide, a, b => if b = 0 then none else some (a.tdiv b)
  | .modulo, a, b => if b = 0 then none else some (a.tmod b)

namespace Assignment

/-- The opcodes that take a variable and an operand. -/
def binary : List (String × Operation) :=
  [("mov", .assign), ("add", .add), ("sub", .subtract), ("mul", .multiply), ("div", .divide),
    ("mod", .modulo)]

/-- The opcodes that take a variable only, with what they add. -/
def unary : List (String × Int64) := [("inc", 1), ("dec", -1)]

/-- The opcodes of the commands on variables. -/
def opcodes : List String := binary.map Prod.fst ++ unary.map Prod.fst

/-- A command asks for an operation on a variable, with an operand that has this value. -/
inductive Asks (p : Progress) (opcode argument : String) : Variable → Operation → Value → Prop where
  /-- Before the first comma stands the variable, and behind it a condition that has a value. -/
  | apply {op : Operation} {token text : List Char} {v : Variable} {e : Expr} {y : Value} :
      (opcode, op) ∈ binary → argument.toList = token ++ ',' :: text → ',' ∉ token →
      Variable.read token = .ok v → Condition.read text = .ok (e, []) → e.eval p.get = .ok y →
      Asks p opcode argument v op y
  /-- The whole argument is the variable. -/
  | step {delta : Int64} {v : Variable} :
      (opcode, delta) ∈ unary → Variable.read argument.toList = .ok v →
      Asks p opcode argument v .add (.int delta)

variable {p : Progress} {opcode argument : String} {v : Variable} {op : Operation} {x y z : Value}
  {o : Outcome}

/-! ### The new value -/

/-- The integer nearest to `n` that fits 64 bits. -/
def clamped (n : Int) : Int := max Int64.minValue.toInt (min Int64.maxValue.toInt n)

theorem toInt_ofIntClamp (n : Int) : (Int64.ofIntClamp n).toInt = clamped n := by
  have hrange : Int64.minValue.toInt ≤ Int64.maxValue.toInt := by decide
  rw [Int64.ofIntClamp, clamped]
  split
  · split
    · rw [Int64.toInt_ofIntLE]
      omega
    · omega
  · omega

theorem toInt_eq_zero_iff {b : Int64} : b.toInt = 0 ↔ b = 0 := by
  rw [← Int64.toInt_inj]
  rfl

/-- Integers are combined exactly, and then clamped. -/
theorem combine_of_exact {a b : Int64} {n : Int} (ha : x.int? = some a) (hb : y.int? = some b)
    (hop : op ≠ .assign) (hn : op.result? a.toInt b.toInt = some n) :
    combine v op x y = .ok (.int (Int64.ofIntClamp n)) := by
  cases op with
  | assign => exact absurd rfl hop
  | add | subtract | multiply =>
    cases hn
    simp only [combine, ha, hb, Operation.onInts]
  | divide | modulo =>
    rw [Operation.result?] at hn
    split at hn
    · cases hn
    · next hne =>
      cases hn
      have hne : b ≠ ⟨⟨0#64⟩⟩ := fun h => hne (toInt_eq_zero_iff.2 h)
      unfold combine
      rw [ha, hb]
      split <;> simp_all [Operation.onInts]

/-- Zero does not divide. -/
theorem combine_of_exact_eq_none {a b : Int64} (ha : x.int? = some a) (hb : y.int? = some b)
    (hn : op.result? a.toInt b.toInt = none) :
    combine v op x y = .error (.divisionByZero v.text) := by
  cases op with
  | divide | modulo =>
    rw [Operation.result?] at hn
    split at hn
    · next hzero =>
      obtain rfl := toInt_eq_zero_iff.1 hzero
      unfold combine
      rw [ha, hb]
      rfl
    · cases hn
  | _ => cases hn

/-! ### Storing -/

theorem store_of_shows? (hc : combine v op (p.get v) y = .ok x) (hx : v.shows? x = some z) :
    ∃ o, store p v op y = .ok o ∧ p.SameBut o.progress v ∧ o.progress.get v = z := by
  obtain ⟨q, hq, hz, hsame⟩ := Progress.set_of_shows? (p := p) hx
  refine ⟨⟨v, x, q⟩, ?_, hsame, hz⟩
  rw [store, hc]
  show (Except.mapError _ (p.set v x) >>= _) = _
  rw [hq]
  rfl

theorem store_of_shows?_eq_none (hc : combine v op (p.get v) y = .ok x) (hx : v.shows? x = none) :
    ∃ e, store p v op y = .error e := by
  obtain ⟨e, he⟩ := Progress.set_of_shows?_eq_none (p := p) hx
  refine ⟨.refused e, ?_⟩
  rw [store, hc]
  show (Except.mapError _ (p.set v x) >>= _) = _
  rw [he]
  rfl

theorem store_of_error {e : VariableError} (hc : combine v op (p.get v) y = .error e) :
    ∃ e, store p v op y = .error e := ⟨.refused e, by rw [store, hc]; rfl⟩

/-- Nothing is stored, or one variable. -/
theorem store_cases (p : Progress) (v : Variable) (op : Operation) (y : Value) :
    (∃ e, store p v op y = .error e) ∨
      ∃ o, store p v op y = .ok o ∧ p.SameBut o.progress v := by
  cases hc : combine v op (p.get v) y with
  | error e => exact .inl (store_of_error hc)
  | ok x =>
    cases hx : v.shows? x with
    | none => exact .inl (store_of_shows?_eq_none hc hx)
    | some z =>
      obtain ⟨o, ho, hsame, -⟩ := store_of_shows? hc hx
      exact .inr ⟨o, ho, hsame⟩

/-! ### Reading the argument -/

theorem eq_ok_of_mapError {ε ε' α : Type} {f : ε → ε'} {r : Except ε α} {a : α}
    (h : r.mapError f = .ok a) : r = .ok a := by
  cases r with
  | error e => cases h
  | ok b => exact congrArg Except.ok (Except.ok.inj h)

theorem operand_eq_ok_iff {text : List Char} :
    operand p text = .ok y ↔
      ∃ e, Condition.read text = .ok (e, []) ∧ e.eval p.get = .ok y := by
  rw [operand]
  cases hr : Condition.read text with
  | error e => exact ⟨nofun, fun ⟨_, h, _⟩ => by cases h⟩
  | ok r =>
    obtain ⟨e, rest⟩ := r
    cases rest with
    | cons c cs => exact ⟨nofun, fun ⟨_, h, _⟩ => by cases h⟩
    | nil =>
      show Except.mapError _ (e.eval p.get) = .ok y ↔ _
      refine ⟨fun h => ⟨e, rfl, eq_ok_of_mapError h⟩, fun ⟨_, h, hy⟩ => ?_⟩
      cases h
      rw [hy]
      rfl

/-- The argument is cut at its first comma. -/
theorem apply_eq {token text : List Char} (ha : argument.toList = token ++ ',' :: text)
    (hc : ',' ∉ token) : apply p op argument = (do
      let v ← (Variable.read token).mapError .refused
      store p v op (← operand p text)) := by
  have hall : ∀ c ∈ token, decide (c ≠ ',') = true := fun c h =>
    decide_eq_true fun heq => hc (heq ▸ h)
  rw [apply, ha, List.dropWhile_append_of_pos hall, List.takeWhile_append_of_pos hall,
    List.dropWhile_cons_of_neg (by simp), List.takeWhile_cons_of_neg (by simp), List.append_nil]

theorem get?_of_mem_binary (h : (opcode, op) ∈ binary) :
    CommandTable.standard.get? opcode = some (some (.assign op)) := by
  simp only [binary, List.mem_cons, Prod.mk.injEq, List.not_mem_nil, or_false] at h
  refine SortedMap.get?_of_mem ?_
  rcases h with ⟨rfl, rfl⟩ | ⟨rfl, rfl⟩ | ⟨rfl, rfl⟩ | ⟨rfl, rfl⟩ | ⟨rfl, rfl⟩ | ⟨rfl, rfl⟩ <;>
    simp only [CommandTable.entries_standard, List.mem_cons, true_or, or_true]

theorem get?_of_mem_unary {delta : Int64} (h : (opcode, delta) ∈ unary) :
    CommandTable.standard.get? opcode = some (some (.step delta)) := by
  simp only [unary, List.mem_cons, Prod.mk.injEq, List.not_mem_nil, or_false] at h
  refine SortedMap.get?_of_mem ?_
  rcases h with ⟨rfl, rfl⟩ | ⟨rfl, rfl⟩ <;>
    simp only [CommandTable.entries_standard, List.mem_cons, true_or, or_true]

theorem asks_of_apply (hop : (opcode, op) ∈ binary) (h : apply p op argument = .ok o) :
    ∃ v y, Asks p opcode argument v op y ∧ store p v op y = .ok o := by
  have hsplit := List.takeWhile_append_dropWhile (p := (· ≠ ',')) (l := argument.toList)
  have hnot : ',' ∉ argument.toList.takeWhile (· ≠ ',') := fun hm => by
    simpa using List.all_eq_true.1 List.all_takeWhile ',' hm
  have hhead := List.head?_dropWhile_not (· ≠ ',') argument.toList
  cases hrest : argument.toList.dropWhile (· ≠ ',') with
  | nil =>
    rw [apply, hrest] at h
    cases h
  | cons c text =>
    rw [hrest] at hsplit hhead
    obtain rfl : c = ',' := by simpa using hhead
    rw [apply_eq hsplit.symm hnot] at h
    obtain ⟨v, hv, h⟩ := Condition.exists_of_bind_eq_ok h
    obtain ⟨y, hy, h⟩ := Condition.exists_of_bind_eq_ok h
    obtain ⟨e, he, hy⟩ := operand_eq_ok_iff.1 hy
    exact ⟨v, y, .apply hop hsplit.symm hnot (eq_ok_of_mapError hv) he hy, h⟩

theorem asks_of_step {delta : Int64} (hop : (opcode, delta) ∈ unary)
    (h : step p delta argument = .ok o) :
    ∃ v, Asks p opcode argument v .add (.int delta) ∧ store p v .add (.int delta) = .ok o := by
  obtain ⟨v, hv, h⟩ := Condition.exists_of_bind_eq_ok h
  exact ⟨v, .step hop (eq_ok_of_mapError hv), h⟩

/-- What is asked for is carried out. -/
theorem Asks.apply_eq {op' : Operation} (hop : (opcode, op) ∈ binary)
    (h : Asks p opcode argument v op' y) :
    Assignment.apply p op argument = store p v op' y := by
  have hget := get?_of_mem_binary hop
  cases h with
  | @apply _ token text _ e _ hop' ha hc hv hr he =>
    cases hget.symm.trans (get?_of_mem_binary hop')
    rw [Assignment.apply_eq ha hc, hv, operand_eq_ok_iff.2 ⟨e, hr, he⟩]
    rfl
  | step hop' _ => cases hget.symm.trans (get?_of_mem_unary hop')

theorem Asks.step_eq {delta : Int64} (hop : (opcode, delta) ∈ unary)
    (h : Asks p opcode argument v op y) :
    Assignment.step p delta argument = store p v op y := by
  have hget := get?_of_mem_unary hop
  cases h with
  | apply hop' _ _ _ _ _ => cases hget.symm.trans (get?_of_mem_binary hop')
  | step hop' hv =>
    cases hget.symm.trans (get?_of_mem_unary hop')
    show (Variable.read argument.toList).mapError _ >>= _ = _
    rw [hv]
    rfl

end Assignment

/-! ### Commands -/

namespace Player

/-- The player logs an error, and nothing changes. -/
def Refuses (p q : Player) : Prop := ∃ text, q = p.logError text

/-- One variable is written, and what it shows then is `z`. -/
def Sets (p q : Player) (v : Variable) (z : Value) : Prop :=
  ∃ progress text, q = (p.write .vars progress).trace .vars .debug text ∧
    p.stage.progress.SameBut progress v ∧ progress.get v = z

end Player

open Assignment

/-- What a command on variables leaves of a player. -/
structure CarriedOut (p q : Player) (opcode argument : String) : Prop where
  /-- Nothing is stopped. -/
  fault : q.fault = p.fault
  /-- An error is logged, or the variable that the argument names is set. -/
  atomic : p.Refuses q ∨ ∃ v op y z, Asks p.stage.progress opcode argument v op y ∧ p.Sets q v z
  /-- Results are exact, and then clamped. -/
  computed {v : Variable} {op : Operation} {y : Value} {a b : Int64} {n : Int} :
    Asks p.stage.progress opcode argument v op y → op ≠ .assign →
      (p.stage.progress.get v).int? = some a → y.int? = some b →
        op.result? a.toInt b.toInt = some n → ∃ m, m.toInt = clamped n ∧ p.Sets q v (v.holding m)
  /-- Zero does not divide. -/
  undivided {v : Variable} {op : Operation} {y : Value} {a b : Int64} :
    Asks p.stage.progress opcode argument v op y → (p.stage.progress.get v).int? = some a →
      y.int? = some b → op.result? a.toInt b.toInt = none → p.Refuses q
  /-- An assigned operand is taken as it is, or not at all. -/
  assigned {v : Variable} {y : Value} : Asks p.stage.progress opcode argument v .assign y →
    (v.shows? y).elim (p.Refuses q) (p.Sets q v)

namespace Player

variable {p : Player} {opcode argument : String} {r : Except AssignmentError Outcome}

theorem refuses_of_error {e : AssignmentError} (h : r = .error e) :
    p.Refuses (p.storeOutcome opcode argument r) := ⟨_, by rw [h]; rfl⟩

theorem sets_of_ok {o : Outcome} {v : Variable} (h : r = .ok o)
    (hsame : p.stage.progress.SameBut o.progress v) :
    p.Sets (p.storeOutcome opcode argument r) v (o.progress.get v) :=
  ⟨o.progress, _, by rw [h]; rfl, hsame, rfl⟩

/-- The outcome of what is asked for is stored, and nothing if nothing is asked for. -/
theorem storeOutcome_carriedOut
    (hsound : ∀ {o}, r = .ok o → ∃ v op y, Asks p.stage.progress opcode argument v op y ∧
      Assignment.store p.stage.progress v op y = .ok o)
    (hcomplete : ∀ {v op y}, Asks p.stage.progress opcode argument v op y →
      r = Assignment.store p.stage.progress v op y) :
    CarriedOut p (p.storeOutcome opcode argument r) opcode argument where
  fault := by
    cases r with
    | error e => rfl
    | ok o =>
      rw [storeOutcome, trace, DebugFilter.entry]
      split <;> rfl
  atomic := by
    cases hr : r with
    | error e => exact .inl (refuses_of_error rfl)
    | ok o =>
      obtain ⟨v, op, y, hask, hs⟩ := hsound hr
      rcases store_cases p.stage.progress v op y with ⟨e, he⟩ | ⟨o', ho, hsame⟩
      · cases hs.symm.trans he
      · cases hs.symm.trans ho
        exact .inr ⟨v, op, y, _, hask, sets_of_ok rfl hsame⟩
  computed := @fun v op y a b n hask hop ha hb hn => by
    have hc := combine_of_exact (v := v) ha hb hop hn
    obtain ⟨o, ho, hsame, hz⟩ := store_of_shows? hc (Variable.shows?_int _ _)
    exact ⟨_, toInt_ofIntClamp _, hz ▸ sets_of_ok ((hcomplete hask).trans ho) hsame⟩
  undivided := fun hask ha hb hn => by
    obtain ⟨e, he⟩ := store_of_error (combine_of_exact_eq_none ha hb hn)
    exact refuses_of_error ((hcomplete hask).trans he)
  assigned := @fun v y hask => by
    have hc : combine v .assign (p.stage.progress.get v) y = .ok y := rfl
    cases hy : v.shows? y with
    | none =>
      obtain ⟨e, he⟩ := store_of_shows?_eq_none hc hy
      exact refuses_of_error ((hcomplete hask).trans he)
    | some z =>
      obtain ⟨o, ho, hsame, hz⟩ := store_of_shows? hc hy
      exact hz ▸ sets_of_ok ((hcomplete hask).trans ho) hsame

/-- **Every command on variables**, whatever its argument, is done at once and carried out. -/
theorem execute_carriedOut (p : Player) {opcode : String} (h : opcode ∈ opcodes)
    (argument : String) (t : Ticket) :
    ∃ command q, CommandTable.standard.get? opcode = some (some command) ∧
      p.execute command opcode argument t = (q, [], .completed) ∧
      CarriedOut p q opcode argument := by
  rcases List.mem_append.1 h with h | h
  · obtain ⟨⟨_, op⟩, hop, rfl⟩ := List.mem_map.1 h
    refine ⟨_, _, get?_of_mem_binary hop, rfl, storeOutcome_carriedOut (fun ho => ?_) ?_⟩
    · obtain ⟨v, y, hask, hs⟩ := asks_of_apply hop ho
      exact ⟨v, op, y, hask, hs⟩
    · exact fun hask => hask.apply_eq hop
  · obtain ⟨⟨_, delta⟩, hop, rfl⟩ := List.mem_map.1 h
    refine ⟨_, _, get?_of_mem_unary hop, rfl, storeOutcome_carriedOut (fun ho => ?_) ?_⟩
    · obtain ⟨v, hask, hs⟩ := asks_of_step hop ho
      exact ⟨v, .add, _, hask, hs⟩
    · exact fun hask => hask.step_eq hop

/-- A player whose counter `c` is the smallest number. -/
def lowest : Player :=
  { source := .ofTexts []
    stage := { vars := { value := { counters := .ofList [("c", Int64.minValue)] } } } }

/-- Divided by minus one it becomes the largest number. -/
theorem lowest_divided :
    "div" ∈ opcodes ∧ ∃ q, lowest.execute (.assign .divide) "div" "%c, -1" (.call 0) =
        (q, [], .completed) ∧
      CarriedOut lowest q "div" "%c, -1" ∧
      lowest.Sets q (.counter "c") (.int Int64.maxValue) := by
  obtain ⟨command, q, hget, hexec, hq⟩ :=
    execute_carriedOut lowest (by decide : "div" ∈ opcodes) "%c, -1" (.call 0)
  have hcommand : command = .assign .divide := by
    have h : CommandTable.standard.get? "div" = some (some (.assign .divide)) :=
      get?_of_mem_binary (by decide)
    rw [h] at hget
    exact (Option.some.inj (Option.some.inj hget)).symm
  have hask : Asks lowest.stage.progress "div" "%c, -1" (.counter "c") .divide (.int (-1)) :=
    @Asks.apply _ _ _ _ "%c".toList " -1".toList _ (.literal (.int (-1))) _ (by decide) rfl
      (by decide) rfl rfl rfl
  obtain ⟨m, hm, hsets⟩ := hq.computed hask (by decide) rfl rfl rfl
  have hmax : m = Int64.maxValue := Int64.toInt_inj.1 (hm.trans (by decide +kernel))
  subst hcommand
  exact ⟨by decide, q, hexec, hq, hmax ▸ hsets⟩

end Player

end Novella
