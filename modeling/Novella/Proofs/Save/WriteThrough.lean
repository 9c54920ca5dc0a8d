import Novella.Proofs.Save.Persistence

/-!
# Slots and their storage agree

Slots are written through: whatever the calls are, and whichever of the writes fail, the storage
holds what the slots hold. It is enough that a storage keeps what it had when a write fails and has
what was written when it does not; then each call either changes both or changes neither.

A call that does not fail changes what it names and nothing else. Calls that need no write, such as
emptying an empty slot, cannot fail.

## Main definitions

* `LawfulSaveStorage` — storage that keeps its data when a write fails
* `Slots.Call`, `Slots.call`, `Slots.run` — calls and what they leave
* `Slots.Call.Changes` — what a call changes
* `Slots.Stored` — storage and slots agree
* `Refusing` — storage with writes that fail at given times

## Main results

* `Slots.stored_call` — a call keeps storage and slots in agreement
* `Slots.call_changes` — a call that does not fail changes what it names
* `Slots.write_through` — both, after any calls
-/

namespace Novella

/-! ### Lawful storage -/

/-- Storage that has what was written last. Dates that it gives back are on the calendar, and it
takes data with such dates. -/
class LawfulSaveStorage (σ : Type) [SaveStorage σ] : Prop where
  /-- Data that was written is there. -/
  read_of_write_ok : ∀ {s s' : σ} {d : StoredData}, d.OnCalendar →
    SaveStorage.write s d = (.ok (), s') → SaveStorage.read s' = .ok (some d)
  /-- A write that fails leaves the data that was there. -/
  read_of_write_error : ∀ {s s' : σ} {d : StoredData} {e : StorageError},
    SaveStorage.write s d = (.error e, s') → SaveStorage.read s' = SaveStorage.read s
  /-- The dates are moments. -/
  onCalendar_of_read : ∀ {s : σ} {d : StoredData}, SaveStorage.read s = .ok (some d) → d.OnCalendar

/-- A field of a save state is read as a moment if it is read as a date. -/
theorem SaveState.onCalendar_of_ofJson? {j : Json.Read} {x : SaveState} (h : ofJson? j = some x) :
    x.OnCalendar := by
  intro t ht
  obtain ⟨fields, -, h⟩ := Option.bind_eq_some_iff.1 h
  split at h
  · next date =>
    simp only [Option.bind_eq_bind, Option.bind_eq_some_iff] at h
    obtain ⟨_, -, _, -, _, -, o, hdate, h⟩ := h
    cases h
    obtain rfl : o = some t := ht
    unfold Json.optional at hdate
    split at hdate
    · cases hdate
    · cases hdate
    · obtain ⟨u, hu, heq⟩ := Option.map_eq_some_iff.1 hdate
      obtain rfl := Option.some.inj heq
      obtain ⟨s, -, hs⟩ := Option.bind_eq_some_iff.1 hu
      exact Instant.isMoment_of_read? hs
  · cases h

theorem exists_of_mem_mapM {α β : Type} {f : α → Option β} {xs : List α} {ys : List β}
    (h : xs.mapM f = some ys) {y : β} (hy : y ∈ ys) : ∃ x ∈ xs, f x = some y := by
  induction xs generalizing ys with
  | nil =>
    cases h
    exact absurd hy List.not_mem_nil
  | cons x xs ih =>
    rw [List.mapM_cons] at h
    obtain ⟨z, hz, h⟩ := Option.bind_eq_some_iff.1 h
    obtain ⟨zs, hzs, h⟩ := Option.bind_eq_some_iff.1 h
    cases h
    rcases List.mem_cons.1 hy with rfl | hy
    · exact ⟨x, List.mem_cons_self, hz⟩
    · obtain ⟨w, hw, hf⟩ := ih hzs hy
      exact ⟨w, List.mem_cons_of_mem x hw, hf⟩

/-- Slots that were read have dates that were read. -/
theorem SlotMap.onCalendar_of_ofJson? {j : Json.Read} {m : SlotMap} (h : ofJson? j = some m) :
    ∀ e ∈ m.entries, e.2.OnCalendar := by
  intro e he
  obtain ⟨es, hes, rfl⟩ := Option.map_eq_some_iff.1 h
  unfold Json.entries? at hes
  split at hes
  · obtain ⟨n, -, hn⟩ := exists_of_mem_mapM hes (SortedMap.mem_of_mem_ofList he)
    simp only [Option.bind_eq_bind, Option.bind_eq_some_iff] at hn
    obtain ⟨id, -, x, hx, hn⟩ := hn
    cases hn
    exact SaveState.onCalendar_of_ofJson? hx
  · cases hes

theorem StoredData.onCalendar_empty : OnCalendar {} := fun _ h => absurd h List.not_mem_nil

theorem StoredData.onCalendar_of_ofJson? {j : Json.Read} {d : StoredData}
    (h : ofJson? j = some d) : d.OnCalendar := by
  obtain ⟨fields, -, h⟩ := Option.bind_eq_some_iff.1 h
  split at h
  · next slots =>
    simp only [Option.bind_eq_bind, Option.bind_eq_some_iff] at h
    obtain ⟨settings, -, m, hm, h⟩ := h
    cases h
    cases slots with
    | none =>
      cases hm
      exact onCalendar_empty
    | some j => exact SlotMap.onCalendar_of_ofJson? hm
  · cases h

/-- Imported slots have dates that were read. -/
theorem SaveFile.onCalendar_of_importText {text : String} {f : SaveFile}
    (h : importText text = .ok f) : ∀ e ∈ (f.saveStates.getD ∅).entries, e.2.OnCalendar := by
  unfold importText at h
  split at h
  · cases h
  · split at h
    · next g hg =>
      cases h
      obtain ⟨fields, -, hg⟩ := Option.bind_eq_some_iff.1 hg
      split at hg
      · next slots =>
        simp only [Option.bind_eq_bind, Option.bind_eq_some_iff] at hg
        obtain ⟨settings, -, m, hm, hg⟩ := hg
        cases hg
        unfold Json.optional at hm
        split at hm
        · cases hm
          exact fun e he => absurd he List.not_mem_nil
        · cases hm
          exact fun e he => absurd he List.not_mem_nil
        · obtain ⟨n, hn, rfl⟩ := Option.map_eq_some_iff.1 hm
          exact SlotMap.onCalendar_of_ofJson? hn
      · cases hg
    · cases h
  · cases h

/-- The storage of games is lawful. -/
instance : LawfulSaveStorage Storage where
  read_of_write_ok := by
    intro s s' d hd h
    simp only [SaveStorage.write] at h
    split at h
    · next hw =>
      cases h
      exact Storage.read_of_write hd hw
    · cases h
  read_of_write_error := by
    intro s s' d e h
    simp only [SaveStorage.write] at h
    split at h
    · cases h
    · cases h
      rfl
  onCalendar_of_read := by
    intro s d h
    simp only [SaveStorage.read, Storage.read] at h
    split at h
    · cases h
    · cases h
    · split at h
      · next hd =>
        cases h
        obtain ⟨j, -, hj⟩ := Option.bind_eq_some_iff.1 hd
        exact StoredData.onCalendar_of_ofJson? hj
      · cases h

/-- Storage that fails to write when it is told to: the list says it for each write to come. -/
structure Refusing (σ : Type) where
  /-- What it keeps the data in. -/
  inner : σ
  /-- Whether the writes to come are refused. -/
  refusals : List Bool

instance {σ : Type} [SaveStorage σ] : SaveStorage (Refusing σ) where
  read s := SaveStorage.read s.inner
  write s d :=
    if s.refusals.head? = some true then
      (.error (.inaccessible "readonly" "read-only storage"), ⟨s.inner, s.refusals.tail⟩)
    else
      let (r, inner) := SaveStorage.write s.inner d
      (r, ⟨inner, s.refusals.tail⟩)

instance {σ : Type} [SaveStorage σ] [LawfulSaveStorage σ] : LawfulSaveStorage (Refusing σ) where
  read_of_write_ok := by
    intro s s' d hd h
    simp only [SaveStorage.write] at h
    split at h
    · cases h
    · obtain ⟨hr, rfl⟩ := Prod.mk.inj h
      exact LawfulSaveStorage.read_of_write_ok (σ := σ) hd (Prod.ext hr rfl)
  read_of_write_error := by
    intro s s' d e h
    simp only [SaveStorage.write] at h
    split at h
    · cases h
      rfl
    · obtain ⟨hr, rfl⟩ := Prod.mk.inj h
      exact LawfulSaveStorage.read_of_write_error (σ := σ) (Prod.ext hr rfl)
  onCalendar_of_read := LawfulSaveStorage.onCalendar_of_read (σ := σ)

namespace Slots

/-! ### Calls -/

/-- A call that may change the slots. -/
inductive Call where
  /-- Fills a slot. -/
  | store (id : SlotId) (x : SaveState)
  /-- Empties a slot. -/
  | delete (id : SlotId)
  /-- Replaces the settings. -/
  | setSettings (x : Settings)
  /-- Takes over what a text holds. -/
  | importText (text : String)

namespace Call

/-- The dates in what is stored are moments. -/
def OnCalendar : Call → Prop
  | .store _ x => x.OnCalendar
  | _ => True

/-- What a call that does not fail makes of the data. -/
def Changes (d d' : StoredData) : Call → Prop
  | .store id x => d'.settings = d.settings ∧ d'.saveStates.get? id = some x ∧
      ∀ k ≠ id, d'.saveStates.get? k = d.saveStates.get? k
  | .delete id => d'.settings = d.settings ∧ d'.saveStates.get? id = none ∧
      ∀ k ≠ id, d'.saveStates.get? k = d.saveStates.get? k
  | .setSettings x => d'.settings = x ∧ d'.saveStates = d.saveStates
  | .importText text => ∃ f, SaveFile.importText text = .ok f ∧
      d'.settings = f.settings.getD d.settings ∧
      ∀ k, d'.saveStates.get? k = ((f.saveStates.getD ∅).get? k).or (d.saveStates.get? k)

/-- The data that a call is to write, if it needs a write. -/
def next? (d : StoredData) : Call → Except StorageError (Option StoredData)
  | .store id x => .ok (some { d with saveStates := d.saveStates.insert id x })
  | .delete id =>
    .ok (if d.saveStates.contains id then some { d with saveStates := d.saveStates.erase id }
      else none)
  | .setSettings x => .ok (if d.settings = x then none else some { d with settings := x })
  | .importText text => (SaveFile.importText text).map fun f => some {
      settings := f.settings.getD d.settings
      saveStates := d.saveStates.union (f.saveStates.getD ∅) }

/-- What is written has only dates on the calendar. -/
theorem onCalendar_of_next? {c : Call} {d d' : StoredData} (hc : c.OnCalendar)
    (hd : d.OnCalendar) (h : c.next? d = .ok (some d')) : d'.OnCalendar := by
  intro e he
  cases c with
  | store id x =>
    cases h
    rcases SortedMap.mem_of_mem_insertEntry he with rfl | he
    · exact hc
    · exact hd e he
  | delete id =>
    obtain ⟨-, heq⟩ := Option.ite_none_right_eq_some.1 (Except.ok.inj h)
    cases heq
    exact hd e (List.mem_filter.1 he).1
  | setSettings x =>
    obtain ⟨-, heq⟩ := Option.ite_none_left_eq_some.1 (Except.ok.inj h)
    cases heq
    exact hd e he
  | importText text =>
    cases hf : SaveFile.importText text with
    | error _ =>
      rw [next?, hf] at h
      cases h
    | ok f =>
      rw [next?, hf] at h
      cases h
      rcases SortedMap.mem_of_mem_union he with he | he
      · exact hd e he
      · exact SaveFile.onCalendar_of_importText hf e he

/-- What is written differs from what was there as the call says. A call that needs no write names
what is there already. -/
theorem changes_of_next? {c : Call} {d : StoredData} {o : Option StoredData}
    (h : c.next? d = .ok o) : c.Changes d (o.getD d) := by
  cases c with
  | store id x =>
    cases h
    exact ⟨rfl, SortedMap.get?_insert_self .., fun k hk => SortedMap.get?_insert_of_ne _ hk _⟩
  | delete id =>
    cases h
    split
    · exact ⟨rfl, SortedMap.get?_erase_self .., fun k hk => SortedMap.get?_erase_of_ne _ hk⟩
    · next hempty =>
      refine ⟨rfl, ?_, fun _ _ => rfl⟩
      exact Option.not_isSome_iff_eq_none.1 hempty
  | setSettings x =>
    cases h
    split
    · next hsame => exact ⟨hsame, rfl⟩
    · exact ⟨rfl, rfl⟩
  | importText text =>
    cases hf : SaveFile.importText text with
    | error _ =>
      rw [next?, hf] at h
      cases h
    | ok f =>
      rw [next?, hf] at h
      cases h
      exact ⟨f, hf, rfl, SortedMap.get?_union _ _⟩

end Call

section Run

variable {σ : Type} [SaveStorage σ]

/-- What a call leaves, with the error if it failed. -/
def call (s : Slots σ) : Call → Change σ Unit
  | .store id x => s.store id x
  | .delete id =>
    let (r, s) := s.delete id
    (r.map fun _ => (), s)
  | .setSettings x => s.setSettings x
  | .importText text => s.importText text

/-- To empty a slot fails or is done as its call is. -/
theorem call_delete (s : Slots σ) {id : SlotId} {r : Except StorageError Bool}
    (h : (s.delete id).1 = r) : (s.call (.delete id)).1 = r.map fun _ => () := by
  rw [call]
  dsimp only
  rw [h]

/-- What calls leave. -/
def run (s : Slots σ) (calls : List Call) : Slots σ := calls.foldl (fun s c => (s.call c).2) s

/-- The storage holds what the slots hold; where nothing was stored, the slots are as at first. -/
def Stored (s : Slots σ) : Prop :=
  ∃ o, SaveStorage.read s.storage = .ok o ∧ o.getD {} = s.data

/-- A call fails before it writes, has nothing to write, or is a single write. -/
theorem call_eq (s : Slots σ) (c : Call) :
    s.call c = match c.next? s.data with
      | .error e => (.error e, s)
      | .ok none => (.ok (), s)
      | .ok (some d) => s.commit d := by
  cases c with
  | store id x => rfl
  | delete id =>
    rw [call, delete, Call.next?]
    by_cases hfull : s.data.saveStates.contains id = true
    · rw [if_pos hfull, if_pos hfull]
      -- the answer is of another type, with the same error
      cases hcommit : s.commit { s.data with saveStates := s.data.saveStates.erase id } with
      | mk r t =>
        simp only [hcommit]
        cases r <;> rfl
    · rw [if_neg hfull, if_neg hfull]
      rfl
  | setSettings x =>
    rw [call, setSettings, Call.next?]
    split <;> rfl
  | importText text =>
    rw [call, importText, Call.next?]
    cases SaveFile.importText text <;> rfl

theorem stored_open? {s : σ} {t : Slots σ} (h : open? s = .ok t) : t.Stored := by
  cases hr : SaveStorage.read s with
  | error e =>
    rw [open?, hr] at h
    cases h
  | ok o =>
    rw [open?, hr] at h
    cases h
    exact ⟨o, hr, rfl⟩

variable [LawfulSaveStorage σ]

theorem Stored.onCalendar {s : Slots σ} (h : s.Stored) : s.data.OnCalendar := by
  obtain ⟨o, hr, hd⟩ := h
  rw [← hd]
  cases o with
  | none => exact StoredData.onCalendar_empty
  | some d => exact LawfulSaveStorage.onCalendar_of_read hr

/-- A write changes both the storage and the slots, or neither. -/
theorem stored_commit {s : Slots σ} (h : s.Stored) {d : StoredData} (hd : d.OnCalendar) :
    (s.commit d).2.Stored := by
  rw [commit]
  split
  · next hw => exact ⟨some d, LawfulSaveStorage.read_of_write_ok hd hw, rfl⟩
  · next hw =>
    obtain ⟨o, hr, ho⟩ := h
    exact ⟨o, (LawfulSaveStorage.read_of_write_error hw).trans hr, ho⟩

omit [LawfulSaveStorage σ] in
theorem data_commit (s : Slots σ) (d : StoredData) :
    (s.commit d).1 = .ok () ∧ (s.commit d).2.data = d ∨
      (∃ e, (s.commit d).1 = .error e) ∧ (s.commit d).2.data = s.data := by
  rw [commit]
  split
  · exact .inl ⟨rfl, rfl⟩
  · exact .inr ⟨⟨_, rfl⟩, rfl⟩

/-- A call keeps storage and slots in agreement. -/
theorem stored_call {s : Slots σ} (h : s.Stored) {c : Call} (hc : c.OnCalendar) :
    (s.call c).2.Stored := by
  rw [call_eq]
  split
  · exact h
  · exact h
  · next hnext => exact stored_commit h (Call.onCalendar_of_next? hc h.onCalendar hnext)

omit [LawfulSaveStorage σ] in
/-- A call that fails leaves the slots; another one changes what it names. -/
theorem call_changes (s : Slots σ) (c : Call) :
    (s.call c).1 = .ok () ∧ c.Changes s.data (s.call c).2.data ∨
      (∃ e, (s.call c).1 = .error e) ∧ (s.call c).2.data = s.data := by
  rw [call_eq]
  split
  · exact .inr ⟨⟨_, rfl⟩, rfl⟩
  · next hnext => exact .inl ⟨rfl, Call.changes_of_next? hnext⟩
  · next d hnext =>
    rcases s.data_commit d with ⟨hr, hd⟩ | hfailed
    · have hchanges := Call.changes_of_next? hnext
      rw [Option.getD_some, ← hd] at hchanges
      exact .inl ⟨hr, hchanges⟩
    · exact .inr hfailed

theorem stored_run {s : Slots σ} (h : s.Stored) {calls : List Call}
    (hcalls : ∀ c ∈ calls, c.OnCalendar) : (s.run calls).Stored := by
  induction calls generalizing s with
  | nil => exact h
  | cons c calls ih =>
    obtain ⟨hc, hcalls⟩ := List.forall_mem_cons.1 hcalls
    exact ih (stored_call h hc) hcalls

/-- Slots are written through. After any calls to slots that were opened, of which any may fail, the
storage holds what the slots hold. Whatever is called next, that stays so; a call that fails leaves
slots and settings as they were, and one that does not changes what it names and nothing else. -/
theorem write_through {storage : σ} {s : Slots σ} (hopen : open? storage = .ok s)
    {calls : List Call} (hcalls : ∀ c ∈ calls, c.OnCalendar) {c : Call} (hc : c.OnCalendar) :
    (s.run calls).Stored ∧ ((s.run calls).call c).2.Stored ∧
      (((s.run calls).call c).1 = .ok () ∧
          c.Changes (s.run calls).data ((s.run calls).call c).2.data ∨
        (∃ e, ((s.run calls).call c).1 = .error e) ∧
          ((s.run calls).call c).2.data = (s.run calls).data) :=
  have hstored := stored_run (stored_open? hopen) hcalls
  ⟨hstored, stored_call hstored hc, call_changes _ c⟩

end Run

/-- A save is stored, new settings are refused, and the slot is emptied. -/
theorem write_through_refused :
    let storage : Refusing Storage := ⟨{}, [false, true, false]⟩
    let s : Slots (Refusing Storage) := ⟨storage, {}⟩
    let calls : List Call := [.store 1 ⟨{}, {}, none, some ⟨⟨2024, 2, 29⟩, 0, 0⟩⟩,
      .setSettings { textSpeed := .slow }, .importText "?"]
    open? storage = .ok s ∧ (s.run calls).Stored ∧ ((s.run calls).call (.delete 1)).2.Stored := by
  have hmoment : Instant.IsMoment ⟨⟨2024, 2, 29⟩, 0, 0⟩ := ⟨by decide, by decide, .inl (by decide)⟩
  intro storage s calls
  have hopen : open? storage = .ok s := rfl
  have hcalls : ∀ c ∈ calls, c.OnCalendar := List.forall_mem_cons.2
    ⟨fun t ht => Option.some.inj ht ▸ hmoment, List.forall_mem_cons.2 ⟨trivial,
      List.forall_mem_singleton.2 trivial⟩⟩
  obtain ⟨hrun, hcall, -⟩ := write_through hopen hcalls (c := .delete 1) trivial
  exact ⟨hopen, hrun, hcall⟩

end Slots

end Novella
