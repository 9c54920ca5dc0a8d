import Novella.Proofs.Save.History
import Novella.Proofs.Save.ImportExport
import Novella.Proofs.Text.Encoding

/-!
# What a fingerprint identifies

The text that a fingerprint is the digest of is the same for two save states exactly when their
positions are, whatever their previews and dates. The digest can be read back from the way it is
written. So two positions share a fingerprint only where the digest itself does not keep two
different messages apart.

## Main definitions

* `Md5.Collision` — two messages with one digest

## Main results

* `Md5.hex_eq_iff` — the text of a digest says which one it is
* `SaveState.fingerprints_identify` — fingerprints tell positions apart, collisions aside
-/

namespace Novella

/-! ### Digests -/

namespace Md5

/-- Two messages with one digest. -/
def Collision (a b : List UInt8) : Prop := a ≠ b ∧ digest a = digest b

theorem hexDigit_inj {m n : Nat} (hm : m < 16) (hn : n < 16)
    (h : Numeral.hexDigit m = Numeral.hexDigit n) : m = n := by
  have hv := Json.hexValue?_hexDigit m hm
  rw [h, Json.hexValue?_hexDigit n hn] at hv
  exact (Option.some.inj hv).symm

/-- Bytes are known by their digits. -/
theorem flatMap_hexDigit_inj {as bs : List UInt8}
    (h : as.flatMap (fun b => [Numeral.hexDigit (b.toNat / 16), Numeral.hexDigit (b.toNat % 16)]) =
      bs.flatMap (fun b => [Numeral.hexDigit (b.toNat / 16), Numeral.hexDigit (b.toNat % 16)])) :
    as = bs := by
  induction as generalizing bs with
  | nil =>
    cases bs with
    | nil => rfl
    | cons b bs => simp at h
  | cons a as ih =>
    cases bs with
    | nil => simp at h
    | cons b bs =>
      simp only [List.flatMap_cons, List.cons_append, List.nil_append, List.cons.injEq] at h
      obtain ⟨hhigh, hlow, htail⟩ := h
      have ha := a.toNat_lt
      have hb := b.toNat_lt
      have hhigh := hexDigit_inj (by omega) (by omega) hhigh
      have hlow := hexDigit_inj (by omega) (by omega) hlow
      rw [ih htail, UInt8.toNat_inj.1 (show a.toNat = b.toNat by omega)]

/-- The text of a digest says which one it is. -/
theorem hex_eq_iff (a b : List UInt8) : hex a = hex b ↔ digest a = digest b := by
  refine ⟨fun h => flatMap_hexDigit_inj (String.ofList_injective h), fun h => ?_⟩
  rw [hex, hex, h]

end Md5

theorem Utf8.encode_inj {s t : String} (h : encode s = encode t) : s = t := by
  have hs := decode?_encode s
  rw [h, decode?_encode t] at hs
  exact (Option.some.inj hs).symm

/-! ### Positions -/

/-- Progresses are the same when the same flags are set, the same counters have numbers, and the
same temporaries have values. -/
theorem Progress.eq_iff (p q : Progress) :
    p = q ↔
      (∀ id, p.flags.contains id = q.flags.contains id) ∧
        (∀ name, p.counters.get? name = q.counters.get? name) ∧
          ∀ name, p.temporaries.get? name = q.temporaries.get? name := by
  refine ⟨fun h => h ▸ ⟨fun _ => rfl, fun _ => rfl, fun _ => rfl⟩, fun ⟨hf, hc, ht⟩ => ?_⟩
  have hflags : p.flags = q.flags := SortedMap.ext_get? fun id => by
    have hid : (p.flags.get? id).isSome = (q.flags.get? id).isSome := hf id
    cases hp : p.flags.get? id <;> cases hq : q.flags.get? id <;> simp [hp, hq] at hid ⊢
  cases p
  cases q
  cases hflags
  cases SortedMap.ext_get? hc
  cases SortedMap.ext_get? ht
  rfl

namespace SaveState

/-- The text that a fingerprint is the digest of is the same for two save states exactly when their
positions are. So fingerprints tell positions apart, unless the digest of two different texts is the
same. Positions are the same in every name and number that they are made of. -/
theorem fingerprints_identify (x y : SaveState) :
    (x.canonicalText = y.canonicalText ↔ x.context = y.context ∧ x.progress = y.progress) ∧
      (x.progress = y.progress ↔
        (∀ id, x.progress.flags.contains id = y.progress.flags.contains id) ∧
          (∀ name, x.progress.counters.get? name = y.progress.counters.get? name) ∧
            ∀ name, x.progress.temporaries.get? name = y.progress.temporaries.get? name) ∧
      (x.fingerprint = y.fingerprint ↔
        (x.context = y.context ∧ x.progress = y.progress) ∨
          Md5.Collision (Utf8.encode x.canonicalText) (Utf8.encode y.canonicalText)) := by
  have htext : x.canonicalText = y.canonicalText ↔
      x.context = y.context ∧ x.progress = y.progress :=
    at_iff_canonicalText.symm
  refine ⟨htext, Progress.eq_iff _ _, ?_⟩
  rw [fingerprint, fingerprint, Md5.hex_eq_iff, ← htext]
  constructor
  · intro hdigest
    by_cases hc : x.canonicalText = y.canonicalText
    · exact .inl hc
    · exact .inr ⟨mt Utf8.encode_inj hc, hdigest⟩
  · rintro (hc | ⟨-, hdigest⟩)
    · rw [hc]
    · exact hdigest

end SaveState

end Novella
