/-!
# Finite maps in key order

A `SortedMap α β` lists its entries with strictly increasing keys. The order is a field of the
structure, so two maps with the same entries are the same map: equality of maps is decidable, and a
text written from the entries is written in one way only.

## Main definitions

* `SortedMap` — the map, with `get?`, `insert`, `erase`, `filter` and `union`
* `SortedSet` — a set of keys, as a map to `Unit`

## Main results

* `SortedMap.get?_of_mem` — each entry is found under its key
* `SortedMap.get?_insert_self`, `SortedMap.get?_insert_of_ne` — what `insert` does to a look-up
* `SortedMap.get?_erase_self`, `SortedMap.get?_erase_of_ne` — what `erase` does to a look-up
* `SortedMap.get?_union` — what `union` does to a look-up
* `SortedMap.ofList_entries` — a map is made of its own entries
-/

namespace Novella

/-- A finite map whose entries are listed in increasing order of their keys. -/
structure SortedMap (α β : Type) [LT α] where
  /-- The entries, smallest key first. -/
  entries : List (α × β)
  /-- The keys increase strictly, so no key occurs twice. -/
  sorted : entries.Pairwise (fun a b => a.1 < b.1)

namespace SortedMap

section Basic

variable {α β : Type} [LT α]

instance [DecidableEq α] [DecidableEq β] : DecidableEq (SortedMap α β) := fun m n =>
  if h : m.entries = n.entries then
    isTrue (by cases m; cases n; simp_all)
  else
    isFalse (fun e => h (e ▸ rfl))

/-- The map without entries. -/
def empty : SortedMap α β := ⟨[], List.Pairwise.nil⟩

instance : EmptyCollection (SortedMap α β) := ⟨empty⟩

instance : Inhabited (SortedMap α β) := ⟨empty⟩

@[simp] theorem entries_empty : (∅ : SortedMap α β).entries = [] := rfl

/-- The keys in increasing order. -/
def keys (m : SortedMap α β) : List α := m.entries.map (·.1)

/-- The number of entries. -/
def size (m : SortedMap α β) : Nat := m.entries.length

/-- Whether there is no entry. -/
def isEmpty (m : SortedMap α β) : Bool := m.entries.isEmpty

/-- The value stored under `k`. -/
def get? [DecidableEq α] (m : SortedMap α β) (k : α) : Option β :=
  (m.entries.find? (fun e => e.1 = k)).map (·.2)

/-- Whether `k` has a value. -/
def contains [DecidableEq α] (m : SortedMap α β) (k : α) : Bool := (m.get? k).isSome

/-- The entries whose key and value pass the test. -/
def filter (p : α → β → Bool) (m : SortedMap α β) : SortedMap α β :=
  ⟨m.entries.filter (fun e => p e.1 e.2), m.sorted.filter _⟩

/-- The map without the key `k`. -/
def erase [DecidableEq α] (m : SortedMap α β) (k : α) : SortedMap α β :=
  m.filter (fun k' _ => k' ≠ k)

end Basic

section Ordered

variable {α β : Type} [LT α] [LE α] [DecidableLT α] [DecidableEq α]
  [Std.IsLinearOrder α] [Std.LawfulOrderLT α]

/-- Puts an entry at its place in a list of entries, instead of an entry with the same key. -/
def insertEntry (k : α) (v : β) : List (α × β) → List (α × β)
  | [] => [(k, v)]
  | e :: es =>
    if k < e.1 then (k, v) :: e :: es
    else if k = e.1 then (k, v) :: es
    else e :: insertEntry k v es

omit [LE α] [Std.IsLinearOrder α] [Std.LawfulOrderLT α] in
theorem mem_of_mem_insertEntry {k : α} {v : β} {e : α × β} {l : List (α × β)}
    (h : e ∈ insertEntry k v l) : e = (k, v) ∨ e ∈ l := by
  induction l with
  | nil => simpa [insertEntry] using h
  | cons a l ih =>
    simp only [insertEntry] at h
    split at h
    · simpa using h
    · split at h
      · simp only [List.mem_cons] at h ⊢
        exact h.imp_right Or.inr
      · simp only [List.mem_cons] at h ⊢
        rcases h with h | h
        · exact Or.inr (Or.inl h)
        · exact (ih h).imp_right Or.inr

theorem pairwise_insertEntry {k : α} {v : β} {l : List (α × β)}
    (h : l.Pairwise (fun a b => a.1 < b.1)) :
    (insertEntry k v l).Pairwise (fun a b => a.1 < b.1) := by
  induction l with
  | nil => simp [insertEntry]
  | cons a l ih =>
    have ⟨ha, hl⟩ := List.pairwise_cons.1 h
    simp only [insertEntry]
    split
    · -- the new key is the smallest
      rename_i hk
      refine List.pairwise_cons.2 ⟨fun b hb => ?_, h⟩
      rcases List.mem_cons.1 hb with rfl | hb
      · exact hk
      · exact Std.lt_trans hk (ha b hb)
    · rename_i hk
      split
      · rename_i he
        exact List.pairwise_cons.2 ⟨fun b hb => he ▸ ha b hb, hl⟩
      · rename_i he
        refine List.pairwise_cons.2 ⟨fun b hb => ?_, ih hl⟩
        rcases mem_of_mem_insertEntry hb with rfl | hb
        · exact Std.lt_of_le_of_ne (Std.not_lt.1 hk) (Ne.symm he)
        · exact ha b hb

/-- Stores `v` under `k`, instead of the value stored there before. -/
def insert (m : SortedMap α β) (k : α) (v : β) : SortedMap α β :=
  ⟨insertEntry k v m.entries, pairwise_insertEntry m.sorted⟩

/-- The map with the entries of a list; of two entries with one key the later one stays. -/
def ofList (l : List (α × β)) : SortedMap α β :=
  l.foldl (fun m e => m.insert e.1 e.2) ∅

/-- Both maps together; where both have a key, the second one's value is taken. -/
def union (m n : SortedMap α β) : SortedMap α β :=
  n.entries.foldl (fun m e => m.insert e.1 e.2) m

/-! ### Entries -/

theorem mem_of_mem_foldl_insert {es : List (α × β)} {m : SortedMap α β} {e : α × β}
    (h : e ∈ (es.foldl (fun m e => m.insert e.1 e.2) m).entries) : e ∈ m.entries ∨ e ∈ es := by
  induction es generalizing m with
  | nil => exact .inl h
  | cons a es ih =>
    rcases ih h with h | h
    · rcases mem_of_mem_insertEntry h with rfl | h
      · exact .inr List.mem_cons_self
      · exact .inl h
    · exact .inr (List.mem_cons_of_mem _ h)

theorem mem_of_mem_union {m n : SortedMap α β} {e : α × β} (h : e ∈ (m.union n).entries) :
    e ∈ m.entries ∨ e ∈ n.entries := mem_of_mem_foldl_insert h

theorem mem_of_mem_ofList {l : List (α × β)} {e : α × β} (h : e ∈ (ofList l).entries) : e ∈ l :=
  (mem_of_mem_foldl_insert h).resolve_left List.not_mem_nil

omit [LE α] [DecidableLT α] [Std.IsLinearOrder α] [Std.LawfulOrderLT α] in
theorem mem_of_get?_eq_some {m : SortedMap α β} {k : α} {v : β} (h : m.get? k = some v) :
    (k, v) ∈ m.entries := by
  obtain ⟨⟨k', v'⟩, he, rfl⟩ := Option.map_eq_some_iff.1 h
  have hk : k' = k := by simpa using List.find?_some he
  rw [← hk]
  exact List.mem_of_find?_eq_some he

/-! ### Look-ups -/

omit [LE α] [Std.IsLinearOrder α] [Std.LawfulOrderLT α] in
theorem find?_insertEntry_self (k : α) (v : β) (l : List (α × β)) :
    (insertEntry k v l).find? (fun e => e.1 = k) = some (k, v) := by
  induction l with
  | nil => simp [insertEntry]
  | cons a l ih =>
    simp only [insertEntry]
    split
    · simp
    · split
      · simp
      · rename_i he
        simp [Ne.symm he, ih]

omit [LE α] [Std.IsLinearOrder α] [Std.LawfulOrderLT α] in
theorem find?_insertEntry_of_ne {k k' : α} (h : k' ≠ k) (v : β) (l : List (α × β)) :
    (insertEntry k v l).find? (fun e => e.1 = k') = l.find? (fun e => e.1 = k') := by
  induction l with
  | nil => simp [insertEntry, Ne.symm h]
  | cons a l ih =>
    simp only [insertEntry]
    split
    · simp [Ne.symm h]
    · split
      · rename_i he
        subst he
        simp [Ne.symm h]
      · by_cases ha : a.1 = k' <;> simp [ha, ih]

omit [LE α] [DecidableLT α] [Std.IsLinearOrder α] [Std.LawfulOrderLT α] in
@[simp] theorem get?_empty (k : α) : (∅ : SortedMap α β).get? k = none := rfl

@[simp] theorem get?_insert_self (m : SortedMap α β) (k : α) (v : β) :
    (m.insert k v).get? k = some v := by
  simp [get?, insert, find?_insertEntry_self]

omit [DecidableLT α] [Std.IsLinearOrder α] in
/-- No key occurs twice, so each entry is found under its key. -/
theorem get?_of_mem {m : SortedMap α β} {k : α} {v : β} (h : (k, v) ∈ m.entries) :
    m.get? k = some v := by
  obtain ⟨before, after, heq⟩ := List.append_of_mem h
  have hsorted := heq ▸ m.sorted
  have hnone : before.find? (fun e => e.1 = k) = none := List.find?_eq_none.2 fun e he => by
    have hlt : e.1 < k := (List.pairwise_append.1 hsorted).2.2 e he _ List.mem_cons_self
    simpa using Std.ne_of_lt hlt
  simp [get?, heq, hnone]

theorem get?_insert_of_ne (m : SortedMap α β) {k k' : α} (h : k' ≠ k) (v : β) :
    (m.insert k v).get? k' = m.get? k' := by
  simp [get?, insert, find?_insertEntry_of_ne h]

omit [LE α] [DecidableLT α] [Std.IsLinearOrder α] [Std.LawfulOrderLT α] in
@[simp] theorem get?_erase_self (m : SortedMap α β) (k : α) : (m.erase k).get? k = none := by
  simp [get?, erase, filter]

omit [LE α] [DecidableLT α] [Std.IsLinearOrder α] [Std.LawfulOrderLT α] in
theorem get?_erase_of_ne (m : SortedMap α β) {k k' : α} (h : k' ≠ k) :
    (m.erase k).get? k' = m.get? k' := by
  simp only [get?, erase, filter, List.find?_filter]
  congr 2
  funext e
  by_cases he : e.1 = k' <;> simp [he, h]

/-! ### Maps from lists -/

omit [LE α] [DecidableLT α] [DecidableEq α] [Std.IsLinearOrder α] [Std.LawfulOrderLT α] in
theorem ext {m n : SortedMap α β} (h : m.entries = n.entries) : m = n := by
  cases m
  cases n
  cases h
  rfl

theorem insertEntry_of_forall_lt {k : α} {v : β} {l : List (α × β)} (h : ∀ e ∈ l, e.1 < k) :
    insertEntry k v l = l ++ [(k, v)] := by
  induction l with
  | nil => rfl
  | cons a l ih =>
    have ha : a.1 < k := h a List.mem_cons_self
    rw [insertEntry, if_neg (Std.not_lt.2 (Std.le_of_lt ha)), if_neg (Std.ne_of_lt ha).symm,
      ih fun e he => h e (List.mem_cons_of_mem a he), List.cons_append]

theorem entries_foldl_insert {m : SortedMap α β} {es : List (α × β)}
    (h : (m.entries ++ es).Pairwise (fun a b => a.1 < b.1)) :
    (es.foldl (fun m e => m.insert e.1 e.2) m).entries = m.entries ++ es := by
  induction es generalizing m with
  | nil => exact (List.append_nil _).symm
  | cons e es ih =>
    have hlt : ∀ a ∈ m.entries, a.1 < e.1 := fun a ha =>
      (List.pairwise_append.1 h).2.2 a ha e List.mem_cons_self
    have hinsert : (m.insert e.1 e.2).entries = m.entries ++ [e] := insertEntry_of_forall_lt hlt
    have hassoc : m.entries ++ e :: es = (m.insert e.1 e.2).entries ++ es := by
      rw [hinsert, List.append_assoc, List.singleton_append]
    rw [hassoc] at h ⊢
    exact ih h

/-- The map is made of its own entries. -/
@[simp] theorem ofList_entries (m : SortedMap α β) : ofList m.entries = m :=
  ext (entries_foldl_insert m.sorted)

theorem get?_foldl_insert {es : List (α × β)} (h : es.Pairwise (fun a b => a.1 < b.1))
    (m : SortedMap α β) (k : α) :
    (es.foldl (fun m e => m.insert e.1 e.2) m).get? k =
      ((es.find? (fun e => e.1 = k)).map (·.2)).or (m.get? k) := by
  induction es generalizing m with
  | nil => rfl
  | cons a es ih =>
    have ⟨ha, hes⟩ := List.pairwise_cons.1 h
    rw [List.foldl_cons, ih hes, List.find?_cons]
    by_cases hk : a.1 = k
    · -- the keys after it are greater, so it is the one that counts
      have hnone : es.find? (fun e => e.1 = k) = none := List.find?_eq_none.2 fun e he => by
        have hne : e.1 ≠ k := hk ▸ (Std.ne_of_lt (ha e he)).symm
        simpa using hne
      rw [hnone, hk, get?_insert_self]
      simp
    · rw [get?_insert_of_ne _ (Ne.symm hk)]
      simp [hk]

/-- In a union the second map is asked first. -/
theorem get?_union (m n : SortedMap α β) (k : α) :
    (m.union n).get? k = (n.get? k).or (m.get? k) := get?_foldl_insert n.sorted m k

end Ordered

end SortedMap

/-- A finite set, listed in increasing order. -/
abbrev SortedSet (α : Type) [LT α] := SortedMap α Unit

namespace SortedSet

variable {α : Type} [LT α] [LE α] [DecidableLT α] [DecidableEq α]
  [Std.IsLinearOrder α] [Std.LawfulOrderLT α]

/-- The set with the members of a list. -/
def ofList (l : List α) : SortedSet α := SortedMap.ofList (l.map (·, ()))

/-- The members in increasing order. -/
def toList (s : SortedSet α) : List α := s.keys

/-- The set is made of its own members. -/
@[simp] theorem ofList_toList (s : SortedSet α) : ofList s.toList = s := by
  rw [ofList, toList, SortedMap.keys, List.map_map]
  exact (congrArg SortedMap.ofList (List.map_id s.entries)).trans s.ofList_entries

end SortedSet

end Novella
