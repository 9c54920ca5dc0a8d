import Novella.Proofs.Save.WriteThrough

/-!
# Exports are imported as they were

An export is written as any record is. But an import takes the text for a document of any kind
first, in which numbers have to be in range, values not too deeply nested, and of several members
of an object with one name only the last one counts; and how a string was written is forgotten by
the time that records are looked for. For what is exported all this makes no difference.

So an import brings back what was exported: the settings, if they were, and the slots that the
filter picked. Slots that import them take them over in the place of their own, and importing them
again changes nothing more.

## Main definitions

* `Json.Proper` — documents that an import takes as they are
* `Json.bare` — a document with its texts only
* `SaveStorage.Working` — storage whose writes do not fail

## Main results

* `Json.Proper.validated`, `Json.Proper.lastWins` — nothing is refused, and nothing is dropped
* `SaveFile.importText_exportText` — what was exported is imported
* `SaveFile.get?_pick` — the slots that a filter picks
* `Slots.import_export` — both, and what comes of the slots that import them
-/

namespace Novella

/-! ### Documents that are taken as they are -/

namespace Json

/-- The numbers of the document are integers of moderate size, no object has two members of one
name, and no value is inside more than `depth` arrays and objects. -/
inductive Proper : Nat → Written → Prop where
  /-- An integer with at most twenty digits. -/
  | integer {depth : Nat} {n : Int} : n.natAbs < 10 ^ 20 → Proper depth (.ofInt n)
  /-- A string. -/
  | string {depth : Nat} (s : String) : Proper depth (.string s)
  /-- An array one level further out than its items. -/
  | array {depth : Nat} {xs : List Written} : (∀ x ∈ xs, Proper depth x) →
      Proper (depth + 1) (.array xs)
  /-- An object one level further out than its members. -/
  | object {depth : Nat} {ms : List (String × Written)} : (ms.map (·.1)).Nodup →
      (∀ m ∈ ms, Proper depth m.2) → Proper (depth + 1) (.object ms)

theorem Proper.mono {d d' : Nat} {j : Written} (h : Proper d j) (hd : d ≤ d') : Proper d' j := by
  induction h generalizing d' with
  | integer hn => exact .integer hn
  | string s => exact .string s
  | array _ ih =>
    obtain ⟨k, rfl⟩ : ∃ k, d' = k + 1 := ⟨d' - 1, by omega⟩
    exact .array fun x hx => ih x hx (by omega)
  | object hnames _ ih =>
    obtain ⟨k, rfl⟩ : ∃ k, d' = k + 1 := ⟨d' - 1, by omega⟩
    exact .object hnames fun m hm => ih m hm (by omega)

theorem Proper.whole {depth : Nat} {j : Written} (h : Proper depth j) : Whole j := by
  induction h with
  | integer _ => exact .integer _
  | string s => exact .string s
  | array _ ih => exact .array ih
  | object _ _ ih => exact .object ih

/-- An integer has no fraction and no exponent. -/
theorem scientific_ofInt (n : Int) :
    scientific (Numeral.ofInt n) = ((Numeral.ofNat n.natAbs).dropWhile (· = '0'), 0) := by
  have hdigit (k : Nat) : ∀ c ∈ Numeral.ofNat k, c.isDigit = true := fun c hc =>
    Numeral.isDigit_of_mem_ofNat hc
  have hdot (k : Nat) : ∀ c ∈ Numeral.ofNat k, c ≠ '.' := by
    rintro c hc rfl
    exact absurd (hdigit k _ hc) (by decide)
  have hsign : (Numeral.ofInt n).dropWhile (· = '-') = Numeral.ofNat n.natAbs := by
    have hminus (k : Nat) : (Numeral.ofNat k).dropWhile (· = '-') = Numeral.ofNat k := by
      obtain ⟨c, cs, hc⟩ := List.exists_cons_of_ne_nil (l := Numeral.ofNat k) Nat.toDigits_ne_nil
      have hne : c ≠ '-' := by
        rintro rfl
        exact absurd (hdigit k '-' (hc ▸ List.mem_cons_self)) (by decide)
      rw [hc, List.dropWhile_cons_of_neg (by simpa using hne)]
    cases n with
    | ofNat k => exact hminus k
    | negSucc k => exact (List.dropWhile_cons_of_pos (by decide)).trans (hminus (k + 1))
  have hall : ∀ c ∈ Numeral.ofNat n.natAbs, (c.isDigit || c = '.') = true := fun c hc => by
    rw [hdigit _ c hc, Bool.true_or]
  have htake : (Numeral.ofNat n.natAbs).takeWhile (fun c => c.isDigit || c = '.') =
      Numeral.ofNat n.natAbs := List.takeWhile_eq_self_iff.2 hall
  have hrest : (Numeral.ofNat n.natAbs).dropWhile (fun c => c.isDigit || c = '.') = [] :=
    List.dropWhile_eq_nil_iff.2 hall
  have hfraction : (Numeral.ofNat n.natAbs).dropWhile (· ≠ '.') = [] :=
    List.dropWhile_eq_nil_iff.2 fun c hc => decide_eq_true (hdot _ c hc)
  have hfilter : (Numeral.ofNat n.natAbs).filter Char.isDigit = Numeral.ofNat n.natAbs :=
    List.filter_eq_self.2 (hdigit _)
  simp only [scientific, hsign, htake, hrest, hfraction, hfilter]
  rfl

theorem isFinite_ofInt {n : Int} (h : n.natAbs < 10 ^ 20) : isFinite (Numeral.ofInt n) = true := by
  have hlen : (Numeral.ofNat n.natAbs).length ≤ 20 :=
    (Nat.length_toDigits_le_iff (by decide) (by decide)).2 h
  have hle := (List.dropWhile_sublist (· = '0') (l := Numeral.ofNat n.natAbs)).length_le
  simp only [isFinite, scientific_ofInt]
  refine if_pos (.inr ?_)
  omega

theorem validatedItems_map {depth : Nat} {xs : List Written}
    (h : ∀ x ∈ xs, validatedAt depth (asRead x) = some x) :
    validatedItems depth (xs.map asRead) = some xs := by
  induction xs with
  | nil => rfl
  | cons x xs ih =>
    obtain ⟨hx, hxs⟩ := List.forall_mem_cons.1 h
    rw [List.map_cons, validatedItems, hx, ih hxs]
    rfl

theorem validatedMembers_map {depth : Nat} {ms : List (String × Written)}
    (h : ∀ m ∈ ms, validatedAt depth (asRead m.2) = some m.2) :
    validatedMembers depth (ms.map (fun m => (quoted m.1, asRead m.2))) = some ms := by
  induction ms with
  | nil => rfl
  | cons m ms ih =>
    obtain ⟨hm, hms⟩ := List.forall_mem_cons.1 h
    rw [List.map_cons, validatedMembers, validatedMember, hm, ih hms]
    rfl

theorem Proper.validatedAt {depth : Nat} {j : Written} (h : Proper depth j) :
    validatedAt depth (asRead j) = some j := by
  induction h with
  | integer hn => exact if_pos (isFinite_ofInt hn)
  | string s => rfl
  | array _ ih =>
    rw [asRead_array, Json.validatedAt, if_neg (Nat.succ_ne_zero _), Nat.add_sub_cancel,
      validatedItems_map ih]
    rfl
  | object _ _ ih =>
    rw [asRead_object, Json.validatedAt, if_neg (Nat.succ_ne_zero _), Nat.add_sub_cancel,
      validatedMembers_map ih]
    rfl

theorem lastWinsItems_eq_map (xs : List Written) : lastWinsItems xs = xs.map lastWins := by
  induction xs with
  | nil => rfl
  | cons x xs ih => rw [lastWinsItems, ih, List.map_cons]

theorem lastWinsMembers_eq_map (ms : List (String × Written)) :
    lastWinsMembers ms = ms.map (fun m => (m.1, lastWins m.2)) := by
  induction ms with
  | nil => rfl
  | cons m ms ih => rw [lastWinsMembers, ih, List.map_cons, lastWinsMember]

theorem keepLast_of_nodup {α : Type} {ms : List (String × α)} (h : (ms.map (·.1)).Nodup) :
    keepLast ms = ms := by
  induction ms with
  | nil => rfl
  | cons m ms ih =>
    obtain ⟨hm, hms⟩ := List.nodup_cons.1 h
    have hnone : ¬ (ms.any fun n => n.1 = m.1) = true := by
      intro hany
      obtain ⟨n, hn, heq⟩ := List.any_eq_true.1 hany
      exact hm (List.mem_map.2 ⟨n, hn, of_decide_eq_true heq⟩)
    rw [keepLast, if_neg hnone, ih hms]

/-- No member is dropped. -/
theorem Proper.lastWins {depth : Nat} {j : Written} (h : Proper depth j) : lastWins j = j := by
  induction h with
  | integer hn => rfl
  | string s => rfl
  | @array _ xs _ ih =>
    have hmap : xs.map Json.lastWins = xs := (List.map_congr_left ih).trans (List.map_id' xs)
    rw [Json.lastWins, lastWinsItems_eq_map, hmap]
  | @object _ ms hnames _ ih =>
    have hmap : ms.map (fun m => (m.1, Json.lastWins m.2)) = ms := by
      refine Eq.trans (List.map_congr_left fun m hm => ?_) (List.map_id ms)
      rw [ih m hm]
      rfl
    rw [Json.lastWins, lastWinsMembers_eq_map, hmap, keepLast_of_nodup hnames]

/-! ### Texts only -/

/-- The document with its texts, as if they had been written without escapes. -/
def bare (j : Read) : Read := j.map fun q => { q with plain := true }

theorem bare_array (xs : List Read) : bare (.array xs) = .array (xs.map bare) :=
  congrArg Json.array (mapItems_eq_map _ xs)

theorem bare_object (ms : List (Quoted × Read)) :
    bare (.object ms) = .object (ms.map fun m => ({ m.1 with plain := true }, bare m.2)) :=
  congrArg Json.object (mapMembers_eq_map _ ms)

/-- How strings were written is forgotten. -/
theorem Proper.map_ofText {depth : Nat} {j : Written} (h : Proper depth j) :
    j.map Quoted.ofText = bare (asRead j) := by
  induction h with
  | integer hn => rfl
  | string s => rfl
  | array _ ih =>
    rw [asRead_array, bare_array, List.map_map, Json.map, mapItems_eq_map]
    exact congrArg Json.array (List.map_congr_left ih)
  | object _ _ ih =>
    rw [asRead_object, bare_object, List.map_map, Json.map, mapMembers_eq_map]
    exact congrArg Json.object (List.map_congr_left fun m hm => Prod.ext rfl (ih m hm))

@[simp] theorem toText?_bare (j : Read) : toText? (bare j) = toText? j := by
  cases j <;> rfl

@[simp] theorem toInt?_bare (j : Read) : toInt? (bare j) = toInt? j := by
  cases j <;> rfl

@[simp] theorem toInt64?_bare (j : Read) : toInt64? (bare j) = toInt64? j := by
  rw [toInt64?, toInt?_bare, toInt64?]

@[simp] theorem toUInt64?_bare (j : Read) : toUInt64? (bare j) = toUInt64? j := by
  rw [toUInt64?, toInt?_bare, toUInt64?]

section Readers

variable {α β : Type} {f : Read → Option α}

theorem toList?_bare (hf : ∀ j, f (bare j) = f j) (j : Read) :
    toList? f (bare j) = toList? f j := by
  cases j with
  | array xs =>
    rw [bare_array]
    simp only [toList?, List.mapM_map, Function.comp_def, hf]
  | _ => rfl

theorem entries?_bare {g : Read → Option β} (hg : ∀ j, g (bare j) = g j) (j : Read) :
    entries? Quoted.text g (bare j) = entries? Quoted.text g j := by
  cases j with
  | object ms =>
    rw [bare_object]
    simp only [entries?, List.mapM_map, Function.comp_def, hg]
  | _ => rfl

@[simp] theorem withDefault_map_bare (d : α) (o : Option Read) :
    withDefault d f (o.map bare) = withDefault d (fun j => f (bare j)) o := by
  cases o <;> rfl

@[simp] theorem required_map_bare (o : Option Read) :
    required f (o.map bare) = required (fun j => f (bare j)) o := by
  cases o <;> rfl

@[simp] theorem optional_map_bare (o : Option Read) :
    optional f (o.map bare) = optional (fun j => f (bare j)) o := by
  cases o with
  | none => rfl
  | some j => cases j <;> rfl

theorem mapM_eq_map {γ : Type} {f : γ → Option β} {g : γ → Option α} {h : α → β}
    (hf : ∀ x, f x = (g x).map h) (xs : List γ) : xs.mapM f = (xs.mapM g).map (List.map h) := by
  induction xs with
  | nil => rfl
  | cons x xs ih =>
    rw [List.mapM_cons, List.mapM_cons, ih, hf]
    cases g x with
    | none => rfl
    | some a => cases xs.mapM g <;> rfl

end Readers

theorem valuesOf_bare (name : String) (ms : List (Quoted × Read)) :
    valuesOf name (ms.map fun m => ({ m.1 with plain := true }, bare m.2)) =
      (valuesOf name ms).map bare := by
  simp only [valuesOf, List.filter_map, List.map_map, Function.comp_def]

/-- The fields of a record are found by their names however these were written. -/
theorem fields?_bare (names : List String) (j : Read) :
    fields? names (bare j) = (fields? names j).map (List.map (Option.map bare)) := by
  cases j with
  | array xs =>
    rw [bare_array, fields?, fields?, List.length_map]
    split
    · simp
    · rfl
  | object ms =>
    rw [bare_object, fields?, fields?, List.all_map]
    simp only [valuesOf_bare, Function.comp_def]
    split
    · refine mapM_eq_map (fun name => ?_) names
      rcases valuesOf name ms with _ | ⟨v, _ | ⟨w, vs⟩⟩
      · rfl
      · rfl
      · rfl
    · rfl
  | _ => rfl

end Json

/-! ### Readers of records -/

@[simp] theorem TextSpeed.ofJson?_bare (j : Json.Read) : ofJson? (Json.bare j) = ofJson? j := by
  cases j with
  | object ms =>
    rcases ms with _ | ⟨⟨k, v⟩, _ | ⟨⟨k', v'⟩, ms⟩⟩
    · rfl
    · cases v <;> rfl
    · cases v <;> rfl
  | _ => rfl

@[simp] theorem Settings.ofJson?_bare (j : Json.Read) : ofJson? (Json.bare j) = ofJson? j := by
  rw [ofJson?, ofJson?, Json.fields?_bare]
  cases Json.fields? ["textSpeed", "historyLimit", "autoPlayDelayMs"] j with
  | none => rfl
  | some l => rcases l with _ | ⟨a, _ | ⟨b, _ | ⟨c, _ | ⟨d, l⟩⟩⟩⟩ <;> simp

@[simp] theorem Value.ofJson?_bare (j : Json.Read) : ofJson? (Json.bare j) = ofJson? j := by
  cases j <;> rfl

@[simp] theorem Progress.ofJson?_bare (j : Json.Read) : ofJson? (Json.bare j) = ofJson? j := by
  have hflags := Json.toList?_bare Json.toText?_bare
  have hcounters := Json.entries?_bare Json.toInt64?_bare
  have htemporaries := Json.entries?_bare Value.ofJson?_bare
  rw [ofJson?, ofJson?, Json.fields?_bare]
  cases Json.fields? ["flags", "counters", "temporaries"] j with
  | none => rfl
  | some l =>
    rcases l with _ | ⟨a, _ | ⟨b, _ | ⟨c, _ | ⟨d, l⟩⟩⟩⟩ <;>
      simp [hflags, hcounters, htemporaries]

@[simp] theorem Audio.ofJson?_bare (j : Json.Read) : ofJson? (Json.bare j) = ofJson? j := by
  rw [ofJson?, ofJson?, Json.fields?_bare]
  cases Json.fields? ["track", "loopedEffect"] j with
  | none => rfl
  | some l => rcases l with _ | ⟨a, _ | ⟨b, _ | ⟨c, l⟩⟩⟩ <;> simp

@[simp] theorem Graphics.ofJson?_bare (j : Json.Read) : ofJson? (Json.bare j) = ofJson? j := by
  rw [ofJson?, ofJson?, Json.fields?_bare]
  cases Json.fields? ["background", "left", "center", "right"] j with
  | none => rfl
  | some l => rcases l with _ | ⟨a, _ | ⟨b, _ | ⟨c, _ | ⟨d, _ | ⟨e, l⟩⟩⟩⟩⟩ <;> simp

@[simp] theorem Context.ofJson?_bare (j : Json.Read) : ofJson? (Json.bare j) = ofJson? j := by
  rw [ofJson?, ofJson?, Json.fields?_bare]
  cases Json.fields? ["scene", "index", "audio", "graphics"] j with
  | none => rfl
  | some l => rcases l with _ | ⟨a, _ | ⟨b, _ | ⟨c, _ | ⟨d, _ | ⟨e, l⟩⟩⟩⟩⟩ <;> simp

@[simp] theorem SaveState.dateOfJson?_bare (j : Json.Read) :
    dateOfJson? (Json.bare j) = dateOfJson? j := by
  rw [dateOfJson?, Json.toText?_bare, dateOfJson?]

@[simp] theorem SaveState.ofJson?_bare (j : Json.Read) : ofJson? (Json.bare j) = ofJson? j := by
  rw [ofJson?, ofJson?, Json.fields?_bare]
  cases Json.fields? ["context", "progress", "text", "date"] j with
  | none => rfl
  | some l => rcases l with _ | ⟨a, _ | ⟨b, _ | ⟨c, _ | ⟨d, _ | ⟨e, l⟩⟩⟩⟩⟩ <;> simp

/-! ### Documents of records -/

namespace SortedMap

variable {α β : Type} [LT α] [LE α] [Std.IsLinearOrder α] [Std.LawfulOrderLT α]

omit [Std.IsLinearOrder α] in
/-- No key occurs twice. -/
theorem nodup_map_fst (m : SortedMap α β) : (m.entries.map (·.1)).Nodup :=
  List.pairwise_map.2 (m.sorted.imp fun h => Std.ne_of_lt h)

variable [DecidableEq α]

omit [Std.IsLinearOrder α] in
theorem mem_entries_iff {m : SortedMap α β} {k : α} {v : β} :
    (k, v) ∈ m.entries ↔ m.get? k = some v := by
  refine ⟨fun h => ?_, mem_of_get?_eq_some⟩
  have hfirst : ∀ es : List (α × β), es.Pairwise (fun a b => a.1 < b.1) → (k, v) ∈ es →
      es.find? (fun e => e.1 = k) = some (k, v) := by
    intro es hes hm
    induction es with
    | nil => exact absurd hm List.not_mem_nil
    | cons e es ih =>
      obtain ⟨he, hes⟩ := List.pairwise_cons.1 hes
      rcases List.mem_cons.1 hm with rfl | hm
      · exact List.find?_cons_of_pos (by simp)
      · have hne : e.1 ≠ k := Std.ne_of_lt (he _ hm)
        rw [List.find?_cons_of_neg (by simpa using hne), ih hes hm]
  rw [get?, hfirst _ m.sorted h, Option.map_some]

/-- Maps are the same if all look-ups are. -/
theorem ext_get? {m n : SortedMap α β} (h : ∀ k, m.get? k = n.get? k) : m = n := by
  have hnodup (m : SortedMap α β) : m.entries.Nodup :=
    m.sorted.imp fun hlt heq => Std.ne_of_lt hlt (congrArg Prod.fst heq)
  refine ext (List.Perm.eq_of_pairwise (fun a b _ _ hab hba => ?_) m.sorted n.sorted ?_)
  · exact absurd rfl (Std.ne_of_lt (Std.lt_trans hab hba))
  · refine (List.perm_ext_iff_of_nodup (hnodup m) (hnodup n)).2 fun e => ?_
    rw [mem_entries_iff, mem_entries_iff, h]

omit [LE α] [Std.IsLinearOrder α] [Std.LawfulOrderLT α] in
theorem get?_filter (p : α → Bool) (m : SortedMap α β) (k : α) :
    (m.filter fun k _ => p k).get? k = if p k then m.get? k else none := by
  simp only [get?, filter, List.find?_filter]
  by_cases hp : p k = true
  · rw [if_pos hp]
    congr 2
    funext e
    by_cases he : e.1 = k <;> simp [he, hp]
  · rw [if_neg hp, Option.map_eq_none_iff, List.find?_eq_none]
    rintro e - hboth
    obtain ⟨he, rfl⟩ : p e.1 = true ∧ e.1 = k := by simpa using hboth
    exact hp he

end SortedMap

namespace Json

theorem Proper.ofUInt64 {depth : Nat} (n : UInt64) : Proper depth (.ofInt (n.toNat : Int)) := by
  have hn : n.toNat < 2 ^ 64 := n.toNat_lt
  refine .integer ?_
  omega

theorem Proper.ofInt64 {depth : Nat} (n : Int64) : Proper depth (.ofInt n.toInt) := by
  have hmin := n.le_toInt
  have hmax := n.toInt_lt
  refine .integer ?_
  omega

end Json

open Json (Proper)

theorem Settings.proper_toJson (s : Settings) : Proper 1 s.toJson :=
  .object (by simp) (List.forall_mem_cons.2 ⟨.string _, List.forall_mem_cons.2 ⟨.ofUInt64 _,
    List.forall_mem_singleton.2 (.ofUInt64 _)⟩⟩)

theorem Progress.proper_toJson (p : Progress) : Proper 2 p.toJson := by
  have hflags : Proper 1 p.parts.1 := .array fun x hx => by
    obtain ⟨s, -, rfl⟩ := List.mem_map.1 hx
    exact .string s
  have hcounters : Proper 1 p.parts.2.1 := by
    refine .object ?_ fun m hm => ?_
    · rw [List.map_map]
      exact p.counters.nodup_map_fst
    · obtain ⟨e, -, rfl⟩ := List.mem_map.1 hm
      exact .ofInt64 e.2
  have htemporaries : Proper 1 p.parts.2.2 := by
    refine .object ?_ fun m hm => ?_
    · rw [List.map_map]
      exact p.temporaries.nodup_map_fst
    · obtain ⟨⟨k, v⟩, -, rfl⟩ := List.mem_map.1 hm
      cases v with
      | int n => exact .ofInt64 n
      | str s => exact .string s
  exact .object (by simp) (List.forall_mem_cons.2 ⟨hflags, List.forall_mem_cons.2 ⟨hcounters,
    List.forall_mem_singleton.2 htemporaries⟩⟩)

theorem Context.proper_toJson (c : Context) : Proper 2 c.toJson := by
  have haudio : Proper 1 c.audio.toJson :=
    .object (by simp) (List.forall_mem_cons.2 ⟨.string _, List.forall_mem_singleton.2 (.string _)⟩)
  have hgraphics : Proper 1 c.graphics.toJson :=
    .object (by simp) (List.forall_mem_cons.2 ⟨.string _, List.forall_mem_cons.2 ⟨.string _,
      List.forall_mem_cons.2 ⟨.string _, List.forall_mem_singleton.2 (.string _)⟩⟩⟩)
  exact .object (by simp) (List.forall_mem_cons.2 ⟨.string _, List.forall_mem_cons.2
    ⟨.ofUInt64 _, List.forall_mem_cons.2 ⟨haudio, List.forall_mem_singleton.2 hgraphics⟩⟩⟩)

theorem SaveState.proper_present {depth : Nat} {name : String} {j : Option Json.Written}
    (h : ∀ v ∈ j, Proper depth v) : ∀ m ∈ present name j, Proper depth m.2 := by
  cases j with
  | none => exact fun m hm => absurd hm List.not_mem_nil
  | some v => exact List.forall_mem_singleton.2 (h v rfl)

theorem SaveState.proper_toJson (x : SaveState) : Proper 3 x.toJson := by
  obtain ⟨ms, hms, hnames, -⟩ := x.lookup_toJson
  obtain rfl := Json.object.inj hms
  refine .object hnames fun m hm => ?_
  rcases List.mem_append.1 hm with hm | hdate
  · rcases List.mem_append.1 hm with hm | htext
    · have hboth : ∀ m ∈ [("context", x.context.toJson), ("progress", x.progress.toJson)],
          Proper 2 m.2 := List.forall_mem_cons.2 ⟨x.context.proper_toJson,
        List.forall_mem_singleton.2 x.progress.proper_toJson⟩
      exact hboth m hm
    · refine proper_present (fun v hv => ?_) m htext
      obtain ⟨s, -, rfl⟩ := Option.map_eq_some_iff.1 hv
      exact .string s
  · refine proper_present (fun v hv => ?_) m hdate
    obtain ⟨t, -, rfl⟩ := Option.map_eq_some_iff.1 hv
    exact .string _

theorem SlotMap.proper_toJson (m : SlotMap) : Proper 4 m.toJson := by
  have hname {i j : SlotId} (h : String.ofList (Numeral.ofNat i.toNat) =
      String.ofList (Numeral.ofNat j.toNat)) : i = j := by
    have hi := idOf?_quoted i
    rw [h, idOf?_quoted] at hi
    exact (Option.some.inj hi).symm
  refine .object ?_ fun x hx => ?_
  · rw [List.map_map]
    exact List.pairwise_map.2 (m.sorted.imp fun hlt heq => Std.ne_of_lt hlt (hname heq))
  · obtain ⟨e, -, rfl⟩ := List.mem_map.1 hx
    exact e.2.proper_toJson

/-! ### Exports -/

/-- The number of a slot is read from its name, however that was written. -/
theorem SlotMap.idOf?_bare {k : Quoted} {id : SlotId} (h : idOf? k = some id) :
    idOf? { k with plain := true } = some id := by
  simp only [idOf?, Option.bind_eq_bind, Option.bind_eq_some_iff, Option.ite_none_right_eq_some]
    at h ⊢
  obtain ⟨s, hs, n, hn, ⟨-, hcs⟩, heq⟩ := h
  exact ⟨s, hs, n, hn, ⟨trivial, hcs⟩, heq⟩

theorem SlotMap.ofJson?_bare {m : SlotMap} (h : ∀ e ∈ m.entries, e.2.OnCalendar) :
    ofJson? (Json.bare (Json.asRead m.toJson)) = some m := by
  have hentries : Json.entries? idOf? SaveState.ofJson? (Json.bare (Json.asRead m.toJson)) =
      some m.entries := by
    rw [toJson, Json.asRead_object, Json.bare_object, Json.entries?, List.map_map, List.map_map]
    refine mapM_map_of_forall fun e he => ?_
    have hid := idOf?_bare (idOf?_quoted e.1)
    have hstate := SaveState.ofJson?_toJson (h e he)
    simp only [Function.comp_apply, hid, SaveState.ofJson?_bare, hstate, Option.bind_eq_bind,
      Option.bind_some]
    rfl
  rw [ofJson?, hentries, Option.map_some, SortedMap.ofList_entries]

namespace SaveFile

/-- The dates of all slots are moments of the calendar. -/
def OnCalendar (f : SaveFile) : Prop := ∀ m ∈ f.saveStates, ∀ e ∈ m.entries, e.2.OnCalendar

theorem lookup_toJson (f : SaveFile) :
    ∃ ms, f.toJson = .object ms ∧ (ms.map (·.1)).Nodup ∧
      ms.lookup "settings" = f.settings.map Settings.toJson ∧
      ms.lookup "saveStates" = f.saveStates.map SlotMap.toJson := by
  refine ⟨_, rfl, ?_⟩
  cases f.settings <;> cases f.saveStates <;> simp [SaveState.present, List.lookup_cons]

theorem proper_toJson (f : SaveFile) : Proper Json.maxNesting f.toJson := by
  obtain ⟨ms, hms, hnames, -⟩ := f.lookup_toJson
  obtain rfl := Json.object.inj hms
  have hfile : Proper 5 f.toJson := by
    refine .object hnames fun m hm => ?_
    rcases List.mem_append.1 hm with hm | hm
    · refine SaveState.proper_present (fun v hv => ?_) m hm
      obtain ⟨s, -, rfl⟩ := Option.map_eq_some_iff.1 hv
      exact s.proper_toJson.mono (by decide)
    · refine SaveState.proper_present (fun v hv => ?_) m hm
      obtain ⟨m, -, rfl⟩ := Option.map_eq_some_iff.1 hv
      exact m.proper_toJson
  exact hfile.mono (by decide)

theorem ofJson?_bare {f : SaveFile} (h : f.OnCalendar) :
    ofJson? (Json.bare (Json.asRead f.toJson)) = some f := by
  obtain ⟨ms, hms, hnames, hsettings, hslots⟩ := f.lookup_toJson
  have hs : Json.optional Settings.ofJson? ((f.settings.map Settings.toJson).map Json.asRead) =
      some f.settings :=
    Json.optional_map (fun s _ => Settings.ofJson?_toJson s) fun _ h => by cases h
  have hm : Json.optional (fun j => SlotMap.ofJson? (Json.bare j))
      ((f.saveStates.map SlotMap.toJson).map Json.asRead) = some f.saveStates :=
    Json.optional_map (fun m hm => SlotMap.ofJson?_bare (h m hm)) fun _ h => by cases h
  rw [ofJson?, hms, Json.fields?_bare, Json.fields?_object hnames]
  simp only [List.map_cons, List.map_nil, Option.map_some, Option.bind_eq_bind, Option.bind_some,
    hsettings, hslots, Json.optional_map_bare, Settings.ofJson?_bare, hs, hm]
  rfl

theorem onCalendar_pick {settings : Option Settings} {slots : SlotMap}
    {filter : Option (List SlotId)} (h : ∀ e ∈ slots.entries, e.2.OnCalendar) :
    OnCalendar ⟨settings, pick slots filter⟩ := by
  intro m hm e he
  unfold pick at hm
  split at hm
  · cases hm
    exact h e he
  · cases hm
  · cases hm
    exact h e (List.mem_filter.1 he).1

/-- **What was exported is imported.** -/
theorem importText_exportText {settings : Option Settings} {slots : SlotMap}
    {filter : Option (List SlotId)} (h : ∀ e ∈ slots.entries, e.2.OnCalendar) :
    importText (exportText settings slots filter) = .ok ⟨settings, pick slots filter⟩ := by
  have hproper := proper_toJson ⟨settings, pick slots filter⟩
  have hread : (Json.readText (exportText settings slots filter)).bind Json.validated =
      some (toJson ⟨settings, pick slots filter⟩) := by
    rw [exportText, Json.readText, String.toList_ofList,
      (Json.layout_pretty hproper.whole).read, Option.bind_some]
    exact hproper.validatedAt
  obtain ⟨ms, hms, -⟩ := lookup_toJson ⟨settings, pick slots filter⟩
  rw [importText, hread, hms]
  dsimp only
  rw [← hms, hproper.lastWins, hproper.map_ofText, ofJson?_bare (onCalendar_pick h)]

/-- What a filter picks. -/
theorem get?_pick {slots : SlotMap} {ids : List SlotId} (hids : ids ≠ []) :
    ∃ m, pick slots (some ids) = some m ∧
      ∀ id, m.get? id = if id ∈ ids then slots.get? id else none := by
  obtain ⟨first, rest, rfl⟩ := List.exists_cons_of_ne_nil hids
  refine ⟨_, rfl, fun id => ?_⟩
  rw [SortedMap.get?_filter fun id => (first :: rest).contains id]
  simp only [List.contains_iff_mem]

/-- The empty filter is the one that leaves the slots out. -/
theorem pick_eq_none_iff {slots : SlotMap} {filter : Option (List SlotId)} :
    pick slots filter = none ↔ filter = some [] := by
  constructor
  · intro h
    unfold pick at h
    split at h
    · cases h
    · rfl
    · cases h
  · rintro rfl
    rfl

end SaveFile

/-! ### Imports -/

section Import

variable {σ : Type} [SaveStorage σ]

/-- No write fails, however many there have been. -/
def SaveStorage.Working (s : σ) : Prop :=
  ∃ works : σ → Prop, works s ∧
    ∀ t, works t → ∀ d, ∃ t', SaveStorage.write t d = (.ok (), t') ∧ works t'

/-- Storage of games that takes documents goes on doing so. -/
theorem Storage.working_of_writable {s : Storage} (h : s.Writable) : SaveStorage.Working s := by
  refine ⟨Writable, h, fun t ht d => ?_⟩
  have hwrite := write_of_writable ht d
  refine ⟨{ t with content := .document ((t.documentOf d).map some) }, ?_, ht.working, ht.kind, ?_⟩
  · simp only [SaveStorage.write, hwrite]
  · rintro reason ⟨⟩

namespace Slots

/-- What an import makes of the data. -/
def merged (d : StoredData) (f : SaveFile) : StoredData where
  settings := f.settings.getD d.settings
  saveStates := d.saveStates.union (f.saveStates.getD ∅)

/-- What was taken over once is there already. -/
theorem merged_merged (d : StoredData) (f : SaveFile) : merged (merged d f) f = merged d f := by
  have hsettings : f.settings.getD (f.settings.getD d.settings) = f.settings.getD d.settings := by
    cases f.settings <;> rfl
  have hslots : (d.saveStates.union (f.saveStates.getD ∅)).union (f.saveStates.getD ∅) =
      d.saveStates.union (f.saveStates.getD ∅) := by
    refine SortedMap.ext_get? fun id => ?_
    rw [SortedMap.get?_union, SortedMap.get?_union]
    cases (f.saveStates.getD ∅).get? id <;> rfl
  rw [merged, merged, hsettings, hslots]

/-- Working storage takes what is imported, and goes on working. -/
theorem importText_of_working {s : Slots σ} (hs : SaveStorage.Working s.storage) {text : String}
    {f : SaveFile} (hf : SaveFile.importText text = .ok f) :
    ∃ storage, s.importText text = (.ok (), ⟨storage, merged s.data f⟩) ∧
      SaveStorage.write s.storage (merged s.data f) = (.ok (), storage) ∧
      SaveStorage.Working storage := by
  obtain ⟨works, hworks, hall⟩ := hs
  obtain ⟨storage, hwrite, hnext⟩ := hall _ hworks (merged s.data f)
  have hcommit : s.commit (merged s.data f) = (.ok (), ⟨storage, merged s.data f⟩) := by
    rw [commit, hwrite]
  refine ⟨storage, ?_, hwrite, works, hnext, hall⟩
  rw [importText, hf]
  exact hcommit

/-- To import a document a second time changes nothing, and the storage holds the same again. -/
theorem importText_twice {s : Slots σ} (hs : SaveStorage.Working s.storage) {text : String}
    {f : SaveFile} (hf : SaveFile.importText text = .ok f) :
    ∃ s' s'', s.importText text = (.ok (), s') ∧ s'.data = merged s.data f ∧
      s'.importText text = (.ok (), s'') ∧ s''.data = s'.data ∧
      ([LawfulSaveStorage σ] → s.data.OnCalendar →
        SaveStorage.read s''.storage = SaveStorage.read s'.storage) := by
  obtain ⟨storage, hfirst, hwrite, hworking⟩ := importText_of_working hs hf
  obtain ⟨storage', hsecond, hwrite', -⟩ :=
    importText_of_working (s := ⟨storage, merged s.data f⟩) hworking hf
  rw [merged_merged] at hsecond hwrite'
  refine ⟨_, _, hfirst, rfl, hsecond, rfl, ?_⟩
  intro _ hd
  have hmerged : (merged s.data f).OnCalendar := by
    intro e he
    rcases SortedMap.mem_of_mem_union he with he | he
    · exact hd e he
    · exact SaveFile.onCalendar_of_importText hf e he
  rw [LawfulSaveStorage.read_of_write_ok hmerged hwrite',
    LawfulSaveStorage.read_of_write_ok hmerged hwrite]

/-- **Export and import agree.** What was exported can be imported, and it is the settings that were
given, if any, and the slots that the filter picks: no map of slots for the empty filter, all slots
without a filter, and otherwise those whose numbers the filter names. Slots with working storage
that import it have the imported slots in the place of their own and the imported settings, if
there are any; to import it again changes nothing. -/
theorem import_export {settings : Option Settings} {slots : SlotMap}
    {filter : Option (List SlotId)} (h : ∀ e ∈ slots.entries, e.2.OnCalendar) :
    ∃ f, SaveFile.importText (SaveFile.exportText settings slots filter) = .ok f ∧
      f.settings = settings ∧ (f.saveStates = none ↔ filter = some []) ∧
      (filter = none → f.saveStates = some slots) ∧
      (∀ ids, filter = some ids → ids ≠ [] → ∃ m, f.saveStates = some m ∧
        ∀ id, m.get? id = if id ∈ ids then slots.get? id else none) ∧
      ∀ (σ : Type) [SaveStorage σ] (s : Slots σ), SaveStorage.Working s.storage →
        ∃ s' s'', s.importText (SaveFile.exportText settings slots filter) = (.ok (), s') ∧
          s'.settings = settings.getD s.settings ∧
          (∀ id, s'.get? id = ((f.saveStates.getD ∅).get? id).or (s.get? id)) ∧
          s'.importText (SaveFile.exportText settings slots filter) = (.ok (), s'') ∧
          s''.data = s'.data ∧
          ([LawfulSaveStorage σ] → s.data.OnCalendar →
            SaveStorage.read s''.storage = SaveStorage.read s'.storage) := by
  have himport := @SaveFile.importText_exportText settings slots filter h
  refine ⟨_, himport, rfl, SaveFile.pick_eq_none_iff, ?_, ?_, ?_⟩
  · rintro rfl
    rfl
  · rintro ids rfl hids
    exact SaveFile.get?_pick hids
  · intro σ _ s hs
    obtain ⟨s', s'', hfirst, hdata, hsecond, hsame, hread⟩ := importText_twice hs himport
    refine ⟨s', s'', hfirst, ?_, fun id => ?_, hsecond, hsame, hread⟩
    · rw [Slots.settings, hdata]
      rfl
    · rw [Slots.get?, hdata]
      exact SortedMap.get?_union _ _ id

/-- Two slots are exported, one of which is picked, along with one that is empty. The text comes
into storage that has another slot of that number. -/
theorem import_export_picked :
    let x : SaveState := ⟨{ scene := "ma\"in\n" }, {}, none, some ⟨⟨2024, 2, 29⟩, 0, 0⟩⟩
    let slots : SlotMap := .ofList [(3, x), (7, x)]
    let s : Slots Storage := ⟨{}, { saveStates := .ofList [(1, x), (3, ⟨{}, {}, none, none⟩)] }⟩
    ∃ f, SaveFile.importText (SaveFile.exportText (some {}) slots (some [3, 42, 3])) = .ok f ∧
      ∃ m, f.saveStates = some m ∧ m.get? 3 = some x ∧ m.get? 7 = none ∧ m.get? 42 = none ∧
        ∃ s', s.importText (SaveFile.exportText (some {}) slots (some [3, 42, 3])) = (.ok (), s') ∧
          s'.get? 3 = some x ∧ s'.get? 1 = some x := by
  have hmoment : Instant.IsMoment ⟨⟨2024, 2, 29⟩, 0, 0⟩ := ⟨by decide, by decide, .inl (by decide)⟩
  intro x slots s
  have hslots : ∀ e ∈ slots.entries, e.2.OnCalendar := by
    intro e he t ht
    have hx : e.2 = x := by
      rcases List.mem_cons.1 (SortedMap.mem_of_mem_ofList he) with rfl | he
      · rfl
      · rw [List.mem_singleton.1 he]
    rw [hx] at ht
    exact Option.some.inj ht ▸ hmoment
  have hs : SaveStorage.Working s.storage :=
    Storage.working_of_writable ⟨rfl, by decide, fun _ h => by cases h⟩
  obtain ⟨f, hf, -, -, -, hpicked, hinto⟩ :=
    @import_export (some {}) slots (some [3, 42, 3]) hslots
  obtain ⟨m, hm, hget⟩ := hpicked _ rfl (by simp)
  obtain ⟨s', -, hs', -, hunion, -⟩ := hinto Storage s hs
  have h3 : m.get? 3 = some x := (hget 3).trans (by decide)
  refine ⟨f, hf, m, hm, h3, (hget 7).trans (by decide), (hget 42).trans (by decide), s', hs', ?_,
    ?_⟩
  · rw [hunion, hm, Option.getD_some, h3]
    rfl
  · rw [hunion, hm, Option.getD_some, hget]
    decide

end Slots

end Import

end Novella
