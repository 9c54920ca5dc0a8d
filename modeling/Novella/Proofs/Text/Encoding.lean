import Novella.Text.Utf8

/-!
# Texts as bytes

The bytes of a text are those of its characters, one after the other, and each character is found
again at the front of its bytes, whatever follows.

## Main results

* `Utf8.first?_utf8EncodeChar` — a character is read from its bytes
* `Utf8.decode_encode` — what was encoded is decoded without an unreadable place
-/

namespace Novella

/-- What was made of the items is read back item by item. -/
theorem mapM_map_of_forall {α β : Type} {f : β → Option α} {g : α → β} {xs : List α}
    (h : ∀ x ∈ xs, f (g x) = some x) : (xs.map g).mapM f = some xs := by
  induction xs with
  | nil => rfl
  | cons x xs ih =>
    obtain ⟨hx, hxs⟩ := List.forall_mem_cons.1 h
    rw [List.map_cons, List.mapM_cons, hx, ih hxs]
    rfl

namespace Utf8

/-! ### Bytes of a text -/

theorem toList_loop (bs : ByteArray) (i : Nat) (acc : List UInt8) :
    ByteArray.toList.loop bs i acc = acc.reverse ++ bs.data.toList.drop i := by
  fun_induction ByteArray.toList.loop bs i acc with
  | case1 i acc hi ih =>
    have hget : bs.data.toList.drop i = bs.get! i :: bs.data.toList.drop (i + 1) := by
      have hi : i < bs.data.toList.length := hi
      rw [List.drop_eq_getElem_cons hi, Array.getElem_toList]
      congr 1
      exact (getElem!_pos bs.data i hi).symm
    rw [ih, hget, List.reverse_cons, List.append_assoc, List.singleton_append]
  | case2 i acc hi =>
    have hi : bs.data.toList.length ≤ i := Nat.le_of_not_lt hi
    rw [List.drop_eq_nil_of_le hi, List.append_nil]

theorem encode_ofList (cs : List Char) :
    encode (String.ofList cs) = cs.flatMap String.utf8EncodeChar := by
  rw [encode, String.toUTF8_eq_toByteArray, String.toByteArray_ofList, List.utf8Encode,
    ByteArray.toList, toList_loop, List.toList_data_toByteArray]
  rfl

/-! ### The first character -/

theorem continuation?_ofNat {n : Nat} (h : n < 64) :
    continuation? (UInt8.ofNat (n + 128)) = some n := by
  have hn : (UInt8.ofNat (n + 128)).toNat = n + 128 :=
    UInt8.toNat_ofNat_of_lt' (Nat.lt_trans (Nat.add_lt_add_right h 128) (by decide))
  have hb : 0x80 ≤ UInt8.ofNat (n + 128) ∧ UInt8.ofNat (n + 128) ≤ 0xBF := by
    rw [UInt8.le_iff_toNat_le, UInt8.le_iff_toNat_le, hn]
    exact ⟨Nat.le_add_left .., Nat.add_le_add_right (Nat.le_of_lt_succ h) 128⟩
  rw [continuation?, if_pos hb, hn]
  exact congrArg some (Nat.add_sub_cancel n 128)

theorem scalar?_toNat {c : Char} {least : Nat} (h : least ≤ c.toNat) :
    scalar? least c.toNat = some c := by
  have hv : c.toNat.isValidChar := c.valid
  rw [scalar?, dif_pos hv, if_pos h]
  exact congrArg some (Char.ext (UInt32.ofNatLT_toNat _))

theorem toNat_lt_of_char (c : Char) : c.toNat < 0x110000 := by
  rcases c.valid with h | ⟨-, h⟩
  · exact Nat.lt_trans h (by decide)
  · exact h

theorem toNat_byte {n : Nat} (h : n < 256) : (UInt8.ofNat n).toNat = n :=
  UInt8.toNat_ofNat_of_lt' h

/-- A character is found at the front of its bytes, whatever follows. -/
theorem first?_utf8EncodeChar (c : Char) (rest : List UInt8) :
    ∃ b bs, String.utf8EncodeChar c = b :: bs ∧
      first? (b :: (bs ++ rest)) = some (c, bs.length) := by
  have hmax := toNat_lt_of_char c
  rw [String.utf8EncodeChar.eq_1, show c.val.toNat = c.toNat from rfl]
  split
  · next h1 =>
    refine ⟨_, _, rfl, ?_⟩
    have ha : (UInt8.ofNat c.toNat).toNat = c.toNat := toNat_byte (by omega)
    simp only [first?.eq_def, UInt8.lt_iff_toNat_lt, ha, UInt8.reduceToNat]
    rw [if_pos (by omega), Char.ofNat_toNat]
    rfl
  · next h1 =>
    split
    · next h2 =>
      refine ⟨_, _, rfl, ?_⟩
      have ha : (UInt8.ofNat (c.toNat / 64 % 32 + 192)).toNat = c.toNat / 64 + 192 := by
        rw [toNat_byte (by omega), Nat.mod_eq_of_lt (by omega)]
      have hv : (c.toNat / 64 + 192 - 0xC0) * 64 + c.toNat % 64 = c.toNat := by omega
      simp only [first?.eq_def, UInt8.lt_iff_toNat_lt, UInt8.le_iff_toNat_le, ha,
        UInt8.reduceToNat, List.cons_append, List.nil_append]
      rw [if_neg (by omega), if_pos (by omega), continuation?_ofNat (by omega), Option.bind_eq_bind,
        Option.bind_some, hv, scalar?_toNat (by omega)]
      rfl
    · next h2 =>
      split
      · next h3 =>
        refine ⟨_, _, rfl, ?_⟩
        have ha : (UInt8.ofNat (c.toNat / 4096 % 16 + 224)).toNat = c.toNat / 4096 + 224 := by
          rw [toNat_byte (by omega), Nat.mod_eq_of_lt (by omega)]
        have hv : ((c.toNat / 4096 + 224 - 0xE0) * 64 + c.toNat / 64 % 64) * 64 + c.toNat % 64 =
            c.toNat := by omega
        simp only [first?.eq_def, UInt8.lt_iff_toNat_lt, UInt8.le_iff_toNat_le, ha,
          UInt8.reduceToNat, List.cons_append, List.nil_append]
        rw [if_neg (by omega), if_neg (by omega), if_pos (by omega),
          continuation?_ofNat (by omega), continuation?_ofNat (by omega), Option.bind_eq_bind,
          Option.bind_some, Option.bind_some, hv, scalar?_toNat (by omega)]
        rfl
      · next h3 =>
        refine ⟨_, _, rfl, ?_⟩
        have ha : (UInt8.ofNat (c.toNat / 262144 % 8 + 240)).toNat = c.toNat / 262144 + 240 := by
          rw [toNat_byte (by omega), Nat.mod_eq_of_lt (by omega)]
        have hv : (((c.toNat / 262144 + 240 - 0xF0) * 64 + c.toNat / 4096 % 64) * 64 +
            c.toNat / 64 % 64) * 64 + c.toNat % 64 = c.toNat := by omega
        simp only [first?.eq_def, UInt8.lt_iff_toNat_lt, UInt8.le_iff_toNat_le, ha,
          UInt8.reduceToNat, List.cons_append, List.nil_append]
        rw [if_neg (by omega), if_neg (by omega), if_neg (by omega), if_pos (by omega),
          continuation?_ofNat (by omega), continuation?_ofNat (by omega),
          continuation?_ofNat (by omega), Option.bind_eq_bind,
          Option.bind_some, Option.bind_some, Option.bind_some, hv, scalar?_toNat (by omega)]
        rfl

/-! ### The whole text -/

theorem go_append (cs bs : List UInt8) : decode.go (cs ++ bs) cs.length = decode.go bs 0 := by
  induction cs with
  | nil => rfl
  | cons c cs ih => exact ih

theorem decode_flatMap (cs : List Char) :
    decode (cs.flatMap String.utf8EncodeChar) = cs.map some := by
  induction cs with
  | nil => rfl
  | cons c cs ih =>
    obtain ⟨b, bs, hc, hf⟩ := first?_utf8EncodeChar c (cs.flatMap String.utf8EncodeChar)
    rw [List.flatMap_cons, hc, List.map_cons, ← ih, List.cons_append, decode, decode.go, hf]
    exact congrArg _ (go_append bs _)

/-- What was encoded is decoded without an unreadable place. -/
theorem decode_encode (s : String) : decode (encode s) = s.toList.map some := by
  have hs := decode_flatMap s.toList
  rwa [← encode_ofList, String.ofList_toList] at hs

/-- What was encoded is the text that is decoded. -/
theorem decode?_encode (s : String) : decode? (encode s) = some s := by
  rw [decode?, decode_encode, mapM_map_of_forall (f := id) (g := some) fun _ _ => rfl,
    Option.map_some,
    String.ofList_toList]

end Utf8

end Novella
