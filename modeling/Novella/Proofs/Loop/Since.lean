/-!
# Since

A history is a list of points, the last one first. Often it matters that something held at one of
them and that nothing has undone it afterwards.

## Main definitions

* `Since` — something held once, and something else has held ever since

## Main results

* `Since.exists_mem` — it held at some point
-/

namespace Novella

/-- At some point `q` held, and `p` has held ever since. The last point is the first of the list. -/
def Since {α : Type} (p q : α → Prop) : List α → Prop
  | [] => False
  | a :: h => q a ∨ p a ∧ Since p q h

instance {α : Type} {p q : α → Prop} [DecidablePred p] [DecidablePred q] :
    DecidablePred (Since p q) := fun h =>
  go h
where
  /-- Decides along the list. -/
  go : (h : List α) → Decidable (Since p q h)
    | [] => inferInstanceAs (Decidable False)
    | a :: h =>
      have := go h
      inferInstanceAs (Decidable (q a ∨ p a ∧ Since p q h))

namespace Since

variable {α : Type} {p q : α → Prop} {h : List α}

theorem exists_mem (hs : Since p q h) : ∃ a ∈ h, q a := by
  induction h with
  | nil => exact hs.elim
  | cons a h ih =>
    rcases hs with ha | ⟨-, hs⟩
    · exact ⟨a, List.mem_cons_self, ha⟩
    · obtain ⟨b, hb, hq⟩ := ih hs
      exact ⟨b, List.mem_cons_of_mem _ hb, hq⟩

/-- What held last was an instance of something. -/
theorem exists_of_imp {ι : Type} {q' : ι → α → Prop} (hq : ∀ {a}, q a → ∃ i, q' i a)
    (hs : Since p q h) : ∃ i, Since p (q' i) h := by
  induction h with
  | nil => exact hs.elim
  | cons a h ih =>
    rcases hs with ha | ⟨hp, hs⟩
    · obtain ⟨i, hi⟩ := hq ha
      exact ⟨i, .inl hi⟩
    · obtain ⟨i, hi⟩ := ih hs
      exact ⟨i, .inr ⟨hp, hi⟩⟩

end Since

end Novella
