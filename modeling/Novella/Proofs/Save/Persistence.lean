import Novella.Proofs.Date.WrittenInstants
import Novella.Proofs.Json.Layout
import Novella.Proofs.Text.Encoding
import Novella.Save.Slots

/-!
# What is saved is read back

Every record has its reader, which takes back what is written for the record. The document of a
record is an object that names each of its fields once, so a reader finds the fields again, whatever
their order; the layout of the text does not matter, since the compact and the pretty form are read
as the same document.

The one value that a text may fail to bring back is a date that is on no calendar.

## Main definitions

* `SaveState.OnCalendar`, `StoredData.OnCalendar` — all dates are moments

## Main results

* `Json.fields?_object` — the fields of a record are found by their names
* `SaveState.ofJson?_toJson`, `StoredData.ofJson?_toJson` — documents are read back
* `saves_read_back` — files of saves and stored data are read back in every written form
-/

namespace Novella

/-! ### Records -/

namespace Json

theorem mapItems_eq_map {σ ρ : Type} (f : σ → ρ) (xs : List (Json σ)) :
    mapItems f xs = xs.map (map f) := by
  induction xs with
  | nil => rfl
  | cons x xs ih => rw [mapItems, ih, List.map_cons]

theorem mapMembers_eq_map {σ ρ : Type} (f : σ → ρ) (ms : List (σ × Json σ)) :
    mapMembers f ms = ms.map (fun m => (f m.1, m.2.map f)) := by
  induction ms with
  | nil => rfl
  | cons m ms ih => rw [mapMembers, ih, List.map_cons, mapMember]

theorem asRead_array (xs : List Written) : asRead (.array xs) = .array (xs.map asRead) :=
  congrArg Json.array (mapItems_eq_map quoted xs)

theorem asRead_object (ms : List (String × Written)) :
    asRead (.object ms) = .object (ms.map (fun m => (quoted m.1, asRead m.2))) :=
  congrArg Json.object (mapMembers_eq_map quoted ms)

/-- No two members have the same name, so there is one value at most for a name. -/
theorem filter_eq_toList_lookup {α : Type} {ms : List (String × α)} (h : (ms.map (·.1)).Nodup)
    (name : String) :
    (ms.filter (fun m => m.1 = name)).map (·.2) = (ms.lookup name).toList := by
  induction ms with
  | nil => rfl
  | cons m ms ih =>
    obtain ⟨hm, hms⟩ := List.nodup_cons.1 h
    by_cases hname : m.1 = name
    · have hrest : ms.filter (fun m => m.1 = name) = [] := by
        rw [List.filter_eq_nil_iff]
        intro n hn heq
        exact hm (List.mem_map.2 ⟨n, hn, (of_decide_eq_true heq).trans hname.symm⟩)
      have hself : (name == m.1) = true := beq_iff_eq.2 hname.symm
      rw [List.filter_cons_of_pos (by simpa using hname), hrest, List.lookup_cons, hself]
      rfl
    · have hne : (name == m.1) = false := beq_eq_false_iff_ne.2 (Ne.symm hname)
      rw [List.filter_cons_of_neg (by simpa using hname), ih hms, List.lookup_cons, hne]

theorem valuesOf_asRead {ms : List (String × Written)} (h : (ms.map (·.1)).Nodup) (name : String) :
    valuesOf name (ms.map (fun m => (quoted m.1, asRead m.2))) =
      ((ms.lookup name).map asRead).toList := by
  rw [Option.toList_map, ← filter_eq_toList_lookup h]
  simp only [valuesOf, List.filter_map, List.map_map, Function.comp_def, quoted,
    Option.some.injEq]

/-- The fields of a record are found by their names, wherever they stand. -/
theorem fields?_object {ms : List (String × Written)} (h : (ms.map (·.1)).Nodup)
    (names : List String) :
    fields? names (asRead (.object ms)) =
      some (names.map (fun name => (ms.lookup name).map asRead)) := by
  have hreadable : (ms.map (fun m => (quoted m.1, asRead m.2))).all
      (fun m => m.1.text.isSome) = true := by simp [quoted]
  rw [asRead_object, fields?, if_pos hreadable]
  simp only [valuesOf_asRead h]
  induction names with
  | nil => rfl
  | cons name names ih =>
    rw [List.mapM_cons, ih, List.map_cons]
    cases ms.lookup name with
    | none => rfl
    | some v => rfl

/-! ### Numbers and texts -/

/-- An integer is written without a leading zero, and zero without a sign. -/
theorem ofInt_ne_minusZero (n : Int) : Numeral.ofInt n ≠ ['-', '0'] := by
  intro h
  have hn : some n = some 0 := (Numeral.integer?_ofInt n).symm.trans (congrArg _ h)
  obtain rfl := Option.some.inj hn
  exact absurd h (by decide)

theorem toInt?_ofInt (n : Int) : toInt? (asRead (.ofInt n)) = some n := by
  have h : toInt? (.number (Numeral.ofInt n)) = some n := by
    rw [toInt?, if_neg (ofInt_ne_minusZero n), if_pos (Numeral.all_ofInt n), Numeral.integer?_ofInt]
  exact h

@[simp] theorem toInt64?_ofInt (n : Int64) : toInt64? (asRead (.ofInt n.toInt)) = some n := by
  have hfits := Numeral.int64?_ofInt n
  rw [Numeral.int64?, Numeral.integer?_ofInt, Option.bind_some] at hfits
  rw [toInt64?, toInt?_ofInt, Option.bind_some, hfits]

@[simp] theorem toUInt64?_ofInt (n : UInt64) :
    toUInt64? (asRead (.ofInt (n.toNat : Int))) = some n := by
  have hsign : ¬ ((n.toNat : Int) < 0) := Int.not_lt.2 (Int.natCast_nonneg _)
  have hfits : n.toNat < UInt64.size := n.toNat_lt
  rw [toUInt64?, toInt?_ofInt, Option.bind_some, if_neg hsign, Int.toNat_natCast,
    Numeral.toUInt64?, if_pos hfits, UInt64.ofNat_toNat]

@[simp] theorem toText?_string (s : String) : toText? (asRead (.string s)) = some s := rfl

theorem toList?_array {α : Type} {f : Read → Option α} {g : α → Written} (xs : List α)
    (h : ∀ x ∈ xs, f (asRead (g x)) = some x) :
    toList? f (asRead (.array (xs.map g))) = some xs := by
  rw [asRead_array, toList?, List.map_map]
  exact mapM_map_of_forall h

theorem entries?_object {α β : Type} {k : Quoted → Option α} {f : Read → Option β}
    {n : α → String} {g : β → Written} (es : List (α × β))
    (hk : ∀ e ∈ es, k (quoted (n e.1)) = some e.1)
    (hf : ∀ e ∈ es, f (asRead (g e.2)) = some e.2) :
    entries? k f (asRead (.object (es.map (fun e => (n e.1, g e.2))))) = some es := by
  rw [asRead_object, entries?, List.map_map]
  refine mapM_map_of_forall fun e he => ?_
  simp only [Function.comp_apply, hk e he, hf e he, Option.bind_eq_bind, Option.bind_some]
  rfl

end Json

/-! ### Settings, variables and places -/

theorem TextSpeed.ofJson?_name (t : TextSpeed) :
    ofJson? (Json.asRead (.string t.name)) = some t := by
  cases t <;> rfl

@[simp] theorem Settings.ofJson?_toJson (s : Settings) :
    ofJson? (Json.asRead s.toJson) = some s := by
  rw [ofJson?, toJson, Json.fields?_object (by simp)]
  simp [Json.withDefault, TextSpeed.ofJson?_name, List.lookup_cons]

@[simp] theorem Value.ofJson?_toJson (v : Value) : ofJson? (Json.asRead v.toJson) = some v := by
  cases v with
  | int n => exact congrArg (Option.map int) (Json.toInt64?_ofInt n)
  | str s => rfl

@[simp] theorem Progress.ofJson?_toJson (p : Progress) :
    ofJson? (Json.asRead p.toJson) = some p := by
  have hflags := Json.toList?_array (f := Json.toText?) (g := .string) p.flags.toList
    fun x _ => Json.toText?_string x
  have hcounters := Json.entries?_object (k := Quoted.text) (f := Json.toInt64?) (n := id)
    (g := fun n => .ofInt n.toInt) p.counters.entries (fun _ _ => rfl)
    fun e _ => Json.toInt64?_ofInt e.2
  have htemporaries := Json.entries?_object (k := Quoted.text) (f := Value.ofJson?) (n := id)
    (g := Value.toJson) p.temporaries.entries (fun _ _ => rfl)
    fun e _ => Value.ofJson?_toJson e.2
  rw [ofJson?, toJson, parts, Json.fields?_object (by simp)]
  simp only [id] at hcounters htemporaries
  simp [Json.withDefault, List.lookup_cons, hflags, hcounters, htemporaries]

@[simp] theorem Audio.ofJson?_toJson (a : Audio) : ofJson? (Json.asRead a.toJson) = some a := by
  rw [ofJson?, toJson, Json.fields?_object (by simp)]
  simp [Json.withDefault, List.lookup_cons]

@[simp] theorem Graphics.ofJson?_toJson (g : Graphics) :
    ofJson? (Json.asRead g.toJson) = some g := by
  rw [ofJson?, toJson, Json.fields?_object (by simp)]
  simp [Json.withDefault, List.lookup_cons]

@[simp] theorem Context.ofJson?_toJson (c : Context) :
    ofJson? (Json.asRead c.toJson) = some c := by
  rw [ofJson?, toJson, Json.fields?_object (by simp)]
  simp [Json.withDefault, List.lookup_cons]

/-! ### Save states and slots -/

/-- The date of the save state is a moment of the calendar, if it has one. -/
def SaveState.OnCalendar (x : SaveState) : Prop := ∀ t ∈ x.date, t.IsMoment

/-- The dates of all slots are moments of the calendar. -/
def StoredData.OnCalendar (d : StoredData) : Prop := ∀ e ∈ d.saveStates.entries, e.2.OnCalendar

theorem SaveState.dateOfJson?_text {t : Instant} (h : t.IsMoment) :
    dateOfJson? (Json.asRead (.string (String.ofList t.text))) = some t := by
  rw [dateOfJson?, Json.toText?_string, Option.bind_some, Instant.read?_text h]

/-- A field that was written only if there is a value is read as what there was. -/
theorem Json.optional_map {α : Type} {f : Read → Option α} {g : α → Written} {x : Option α}
    (hf : ∀ a ∈ x, f (asRead (g a)) = some a) (hnull : ∀ a, asRead (g a) ≠ .null) :
    optional f ((x.map g).map asRead) = some x := by
  cases x with
  | none => rfl
  | some a =>
    rw [Option.map_some, Option.map_some]
    unfold optional
    split
    · next h => cases h
    · next h => exact absurd (Option.some.inj h) (hnull a)
    · next h => rw [← Option.some.inj h, hf a rfl, Option.map_some]

theorem SaveState.lookup_toJson (x : SaveState) :
    ∃ ms, x.toJson = .object ms ∧ (ms.map (·.1)).Nodup ∧
      ms.lookup "context" = some x.context.toJson ∧
      ms.lookup "progress" = some x.progress.toJson ∧
      ms.lookup "text" = x.preview.map .string ∧
      ms.lookup "date" = x.date.map (fun t => .string (String.ofList t.text)) := by
  refine ⟨_, rfl, ?_⟩
  cases x.preview <;> cases x.date <;> simp [present, List.lookup_cons]

theorem SaveState.ofJson?_toJson {x : SaveState} (h : x.OnCalendar) :
    ofJson? (Json.asRead x.toJson) = some x := by
  obtain ⟨ms, hx, hnames, hcontext, hprogress, htext, hdate⟩ := x.lookup_toJson
  rw [hx, ofJson?, Json.fields?_object hnames]
  have hpreview := Json.optional_map (f := Json.toText?) (g := .string) (x := x.preview)
    (fun a _ => Json.toText?_string a) fun _ h => by cases h
  have hmoment := Json.optional_map (f := dateOfJson?)
    (g := fun t : Instant => .string (String.ofList t.text)) (x := x.date)
    (fun t ht => dateOfJson?_text (h t ht)) fun _ h => by cases h
  simp only [List.map_cons, List.map_nil, hcontext, hprogress, htext, hdate, Option.map_some,
    Json.required, Context.ofJson?_toJson, Progress.ofJson?_toJson, hpreview, hmoment,
    Option.bind_eq_bind, Option.bind_some]
  rfl

theorem Json.escape_of_isDigit {c : Char} (h : c.isDigit = true) : escape c = [c] := by
  have hge : ¬ c.toNat < 0x20 := by
    have hc : 48 ≤ c.toNat ∧ c.toNat ≤ 57 := by
      simpa [Char.isDigit, UInt32.le_iff_toNat_le] using h
    omega
  unfold escape
  split
  iterate 7 exact absurd h (by decide)
  exact if_neg hge

/-- The name of a slot is its number, without escapes and leading zeros. -/
theorem SlotMap.idOf?_quoted (id : SlotId) :
    idOf? (Json.quoted (String.ofList (Numeral.ofNat id.toNat))) = some id := by
  have hplain : (Numeral.ofNat id.toNat).all (fun c => Json.escape c = [c]) = true :=
    List.all_eq_true.2 fun c hc =>
      decide_eq_true (Json.escape_of_isDigit (Numeral.isDigit_of_mem_ofNat hc))
  have hfits : id.toNat < UInt32.size := id.toNat_lt
  have hread : Numeral.uint32? (Numeral.ofNat id.toNat) = some id := by
    rw [Numeral.uint32?, Numeral.natural?_ofNat, Option.bind_some, Numeral.toUInt32?,
      if_pos hfits, UInt32.ofNat_toNat]
  simp only [idOf?, Json.quoted, String.toList_ofList, hplain, hread, Option.bind_eq_bind,
    Option.bind_some, and_self, if_true]

theorem SlotMap.ofJson?_toJson {m : SlotMap} (h : ∀ e ∈ m.entries, e.2.OnCalendar) :
    ofJson? (Json.asRead m.toJson) = some m := by
  have hentries := Json.entries?_object (k := idOf?) (f := SaveState.ofJson?)
    (n := fun id : SlotId => String.ofList (Numeral.ofNat id.toNat)) (g := SaveState.toJson)
    m.entries (fun e _ => idOf?_quoted e.1) fun e he => SaveState.ofJson?_toJson (h e he)
  rw [ofJson?, toJson, hentries, Option.map_some, SortedMap.ofList_entries]

theorem StoredData.ofJson?_toJson {d : StoredData} (h : d.OnCalendar) :
    ofJson? (Json.asRead d.toJson) = some d := by
  rw [ofJson?, toJson, Json.fields?_object (by simp)]
  simp [Json.withDefault, List.lookup_cons, SlotMap.ofJson?_toJson h]

/-! ### The written forms -/

theorem Progress.whole_parts (p : Progress) :
    Json.Whole p.parts.1 ∧ Json.Whole p.parts.2.1 ∧ Json.Whole p.parts.2.2 := by
  refine ⟨.array fun x hx => ?_, .object fun m hm => ?_, .object fun m hm => ?_⟩
  · obtain ⟨s, -, rfl⟩ := List.mem_map.1 hx
    exact .string s
  · obtain ⟨e, -, rfl⟩ := List.mem_map.1 hm
    exact .integer _
  · obtain ⟨⟨k, v⟩, -, rfl⟩ := List.mem_map.1 hm
    cases v with
    | int n => exact .integer _
    | str s => exact .string s

theorem Progress.whole_toJson (p : Progress) : Json.Whole p.toJson := by
  obtain ⟨hflags, hcounters, htemporaries⟩ := p.whole_parts
  exact .object (List.forall_mem_cons.2 ⟨hflags, List.forall_mem_cons.2 ⟨hcounters,
    List.forall_mem_singleton.2 htemporaries⟩⟩)

theorem Settings.whole_toJson (s : Settings) : Json.Whole s.toJson :=
  .object (List.forall_mem_cons.2 ⟨.string _, List.forall_mem_cons.2 ⟨.integer _,
    List.forall_mem_singleton.2 (.integer _)⟩⟩)

theorem Context.whole_toJson (c : Context) : Json.Whole c.toJson := by
  have haudio : Json.Whole c.audio.toJson :=
    .object (List.forall_mem_cons.2 ⟨.string _, List.forall_mem_singleton.2 (.string _)⟩)
  have hgraphics : Json.Whole c.graphics.toJson :=
    .object (List.forall_mem_cons.2 ⟨.string _, List.forall_mem_cons.2 ⟨.string _,
      List.forall_mem_cons.2 ⟨.string _, List.forall_mem_singleton.2 (.string _)⟩⟩⟩)
  exact .object (List.forall_mem_cons.2 ⟨.string _, List.forall_mem_cons.2 ⟨.integer _,
    List.forall_mem_cons.2 ⟨haudio, List.forall_mem_singleton.2 hgraphics⟩⟩⟩)

theorem SaveState.whole_present {name : String} {j : Option Json.Written}
    (h : ∀ v ∈ j, Json.Whole v) : ∀ m ∈ present name j, Json.Whole m.2 := by
  cases j with
  | none => exact fun m hm => absurd hm List.not_mem_nil
  | some v => exact List.forall_mem_singleton.2 (h v rfl)

theorem SaveState.whole_toJson (x : SaveState) : Json.Whole x.toJson := by
  refine .object fun m hm => ?_
  rcases List.mem_append.1 hm with hm | hdate
  · rcases List.mem_append.1 hm with hm | htext
    · have hboth : ∀ m ∈ [("context", x.context.toJson), ("progress", x.progress.toJson)],
          Json.Whole m.2 := List.forall_mem_cons.2 ⟨x.context.whole_toJson,
        List.forall_mem_singleton.2 x.progress.whole_toJson⟩
      exact hboth m hm
    · refine whole_present (fun v hv => ?_) m htext
      obtain ⟨s, -, rfl⟩ := Option.map_eq_some_iff.1 hv
      exact .string s
  · refine whole_present (fun v hv => ?_) m hdate
    obtain ⟨t, -, rfl⟩ := Option.map_eq_some_iff.1 hv
    exact .string _

theorem StoredData.whole_toJson (d : StoredData) : Json.Whole d.toJson := by
  have hslots : Json.Whole d.saveStates.toJson := .object fun m hm => by
    obtain ⟨e, -, rfl⟩ := List.mem_map.1 hm
    exact e.2.whole_toJson
  exact .object (List.forall_mem_cons.2 ⟨d.settings.whole_toJson,
    List.forall_mem_singleton.2 hslots⟩)

/-- A save state is read back from any layout of its document. -/
theorem SaveState.read?_layout {x : SaveState} (h : x.OnCalendar) {cs : List Char}
    (hcs : Json.Layout x.toJson cs) : read? (String.ofList cs) = some x := by
  rw [read?, Json.readText, String.toList_ofList, hcs.read, Option.bind_some, ofJson?_toJson h]

/-- The bytes of a save state are those of its save state. -/
theorem SaveState.ofBytes_text {x : SaveState} (h : x.OnCalendar) :
    ofBytes (Utf8.encode x.text) = .ok x := by
  rw [ofBytes, Utf8.decode?_encode]
  dsimp only
  rw [text, read?_layout h (Json.layout_pretty x.whole_toJson)]

namespace Storage

/-- The storage takes documents. -/
structure Writable (s : Storage) : Prop where
  /-- It takes them now. -/
  working : s.failing = false
  /-- It takes them at all. -/
  kind : s.kind ≠ .readOnly
  /-- Its place can be reached. -/
  content : ∀ reason, s.content ≠ .blocked reason

theorem write_of_writable {s : Storage} (h : s.Writable) (d : StoredData) :
    s.write d = .ok { s with content := .document ((s.documentOf d).map some) } := by
  have htakes : ¬ (s.failing = true ∨ s.kind = .readOnly) := by
    rw [h.working]
    exact not_or.2 ⟨Bool.false_ne_true, h.kind⟩
  rw [write, if_neg htakes]
  split
  · next reason hblocked => exact absurd hblocked (h.content reason)
  · rfl

theorem layout_documentOf (s : Storage) (d : StoredData) :
    Json.Layout d.toJson (s.documentOf d) := by
  unfold documentOf
  split
  · exact Json.layout_pretty d.whole_toJson
  · exact Json.layout_compact d.whole_toJson

/-- What was written is in the storage. -/
theorem read_of_write {s s' : Storage} {d : StoredData} (h : d.OnCalendar)
    (hw : s.write d = .ok s') : s'.read = .ok (some d) := by
  unfold write at hw
  split at hw
  · cases hw
  · split at hw
    · cases hw
    · cases hw
      simp only [read]
      rw [(s.layout_documentOf d).read, Option.bind_some, StoredData.ofJson?_toJson h]

/-- What was written is found in a file with its text. -/
theorem read_inDirectory {find : String → Files.Found} {directory : String} {d : StoredData}
    (h : d.OnCalendar) {cs : List Char} (hcs : Json.Layout d.toJson cs)
    (hfile : find (pathIn directory) = .file (Utf8.encode (String.ofList cs))) :
    (inDirectory find directory).read = .ok (some d) := by
  simp only [inDirectory, hfile, contentOf, read, Utf8.decode_encode, String.toList_ofList]
  rw [hcs.read, Option.bind_some, StoredData.ofJson?_toJson h]

end Storage

/-- Whatever is saved is read back as it was: a save state from its bytes; settings and slots from
the storage that took them, in the compact and in the pretty form, and from a file with their text
when a directory is opened. -/
theorem saves_read_back :
    (∀ x : SaveState, x.OnCalendar → SaveState.ofBytes (Utf8.encode x.text) = .ok x) ∧
    ∀ d : StoredData, d.OnCalendar → ∀ s : Storage, s.Writable →
      ∃ s', s.write d = .ok s' ∧ s'.read = .ok (some d) ∧
        s'.raw? = some (String.ofList (s.documentOf d)) ∧
        ∀ find directory,
          find (Storage.pathIn directory) =
            .file (Utf8.encode (String.ofList (s.documentOf d))) →
          (Storage.inDirectory find directory).read = .ok (some d) := by
  refine ⟨fun x hx => SaveState.ofBytes_text hx, fun d hd s hs => ?_⟩
  have hwrite := Storage.write_of_writable hs d
  refine ⟨_, hwrite, Storage.read_of_write hd hwrite, ?_, fun find directory hfile => ?_⟩
  · simp only [Storage.raw?, List.map_map, Function.comp_def, Option.getD_some, List.map_id']
  · exact Storage.read_inDirectory hd (s.layout_documentOf d) hfile

/-- A save with escapes, a negative counter, a number and a text, taken in a leap second. -/
theorem leap_second_save_reads_back :
    let x : SaveState := {
      context := { scene := "\"a\\b\"\n\u0001é", index := 18446744073709551615 }
      progress := {
        flags := .ofList ["seen"]
        counters := .ofList [("n", -9223372036854775808)]
        temporaries := .ofList [("t", .str "7"), ("u", .int 7)] }
      preview := some "…"
      date := some ⟨⟨9999, 12, 31⟩, 86399, 1999999999⟩ }
    let d : StoredData := { saveStates := .ofList [(4294967295, x)] }
    SaveState.ofBytes (Utf8.encode x.text) = .ok x ∧
      (∃ s', Storage.write {} d = .ok s' ∧ s'.read = .ok (some d)) ∧
      ∃ s', Storage.write { kind := .file "saves/shiori.json" } d = .ok s' ∧
        s'.read = .ok (some d) := by
  have hmoment : Instant.IsMoment ⟨⟨9999, 12, 31⟩, 86399, 1999999999⟩ :=
    ⟨by decide, by decide, .inr (by decide)⟩
  intro x d
  have hx : x.OnCalendar := fun t ht => Option.some.inj ht ▸ hmoment
  have hd : d.OnCalendar := fun e he => by
    obtain rfl := List.mem_singleton.1 he
    exact hx
  have hmemory : Storage.Writable {} := ⟨rfl, by decide, fun _ h => by cases h⟩
  have hfile : Storage.Writable { kind := .file "saves/shiori.json" } :=
    ⟨rfl, by decide, fun _ h => by cases h⟩
  obtain ⟨hbytes, hstored⟩ := saves_read_back
  obtain ⟨s, hs, hread, -⟩ := hstored d hd _ hmemory
  obtain ⟨s', hs', hread', -⟩ := hstored d hd _ hfile
  exact ⟨hbytes x hx, ⟨s, hs, hread⟩, s', hs', hread'⟩

end Novella
