import Mathlib.Algebra.Group.Nat.Defs
import Mathlib.Data.List.Basic
import TableParser.Text.Utf8
/-!
Numbers and texts as bytes.

A number is the join of its bytes, each shifted back to its place, and a text is what its UTF-8
bytes spell.

Main statements: `word16_bytes`, `word32_bytes` and `Utf8.decode_eq_ok`.
-/

namespace TableParser

/-! ### Numbers -/

/-- The bits of one byte of a number, put back in its place. -/
theorem testBit_byte {n k w i : Nat} (hw : k + 8 ≤ w) :
    ((n >>> k % 2 ^ 8) <<< k % 2 ^ w).testBit i = true ↔
      (k ≤ i ∧ i < k + 8) ∧ n.testBit i = true := by
  rw [Nat.testBit_mod_two_pow, Nat.testBit_shiftLeft, Nat.testBit_mod_two_pow,
    Nat.testBit_shiftRight]
  simp only [Bool.and_eq_true, decide_eq_true_eq]
  constructor
  · rintro ⟨-, hle, hlt, hbit⟩
    rw [Nat.add_sub_cancel' hle] at hbit
    exact ⟨⟨hle, by omega⟩, hbit⟩
  · rintro ⟨⟨hle, hlt⟩, hbit⟩
    rw [Nat.add_sub_cancel' hle]
    exact ⟨by omega, hle, by omega, hbit⟩

theorem testBit_low {n i : Nat} : (n % 2 ^ 8).testBit i = true ↔ i < 8 ∧ n.testBit i = true := by
  rw [Nat.testBit_mod_two_pow, Bool.and_eq_true, decide_eq_true_eq]

/-- A number below a power of two has no bit at the power or above. -/
theorem lt_of_testBit {n w i : Nat} (h : n < 2 ^ w) (hi : n.testBit i = true) : i < w := by
  refine Nat.lt_of_not_le fun hle => ?_
  rw [Nat.testBit_lt_two_pow (Nat.lt_of_lt_of_le h (Nat.pow_le_pow_right (by decide) hle))] at hi
  cases hi

theorem word16_bytes (n : UInt16) :
    n.toUInt8.toUInt16 ||| ((n >>> 8).toUInt8.toUInt16 <<< 8) = n := by
  have hbytes : (n.toUInt8.toUInt16 ||| ((n >>> 8).toUInt8.toUInt16 <<< 8)).toNat =
      n.toNat % 2 ^ 8 ||| ((n.toNat >>> 8 % 2 ^ 8) <<< 8 % 2 ^ 16) := by
    simp
  refine UInt16.toNat_inj.1 (Nat.eq_of_testBit_eq fun i => Bool.eq_iff_iff.2 ?_)
  rw [hbytes]
  simp only [Nat.testBit_or, Bool.or_eq_true, testBit_low, testBit_byte (Nat.le_refl 16),
    ← or_and_right]
  constructor
  · exact And.right
  · intro hbit
    have hlt := lt_of_testBit n.toNat_lt hbit
    exact ⟨by omega, hbit⟩

theorem word32_bytes (n : UInt32) : n.toUInt8.toUInt32 ||| ((n >>> 8).toUInt8.toUInt32 <<< 8) |||
    ((n >>> 16).toUInt8.toUInt32 <<< 16) ||| ((n >>> 24).toUInt8.toUInt32 <<< 24) = n := by
  have hbytes : (n.toUInt8.toUInt32 ||| ((n >>> 8).toUInt8.toUInt32 <<< 8) |||
      ((n >>> 16).toUInt8.toUInt32 <<< 16) ||| ((n >>> 24).toUInt8.toUInt32 <<< 24)).toNat =
      n.toNat % 2 ^ 8 ||| ((n.toNat >>> 8 % 2 ^ 8) <<< 8 % 2 ^ 32) |||
        ((n.toNat >>> 16 % 2 ^ 8) <<< 16 % 2 ^ 32) |||
          ((n.toNat >>> 24 % 2 ^ 8) <<< 24 % 2 ^ 32) := by
    simp
  refine UInt32.toNat_inj.1 (Nat.eq_of_testBit_eq fun i => Bool.eq_iff_iff.2 ?_)
  rw [hbytes]
  simp only [Nat.testBit_or, Bool.or_eq_true, testBit_low, testBit_byte (show 8 + 8 ≤ 32 by decide),
    testBit_byte (show 16 + 8 ≤ 32 by decide), testBit_byte (show 24 + 8 ≤ 32 by decide),
    ← or_and_right]
  constructor
  · exact And.right
  · intro hbit
    have hlt := lt_of_testBit n.toNat_lt hbit
    exact ⟨by omega, hbit⟩

/-! ### Texts -/

namespace Utf8

/-- The bytes of a text are those it is stored as. -/
theorem encode_bytes (s : String) : (⟨(encode s).toArray⟩ : ByteArray) = s.toByteArray := by
  rw [← String.utf8Encode_toList, List.utf8Encode]
  exact ByteArray.ext List.data_toByteArray.symm

/-- Bytes are read as the one text that they are the bytes of. -/
theorem decode_eq_ok {bytes : List UInt8} {s : String} :
    decode bytes = .ok s ↔ encode s = bytes := by
  have hbytes : encode s = bytes ↔ s.toByteArray = ⟨bytes.toArray⟩ := by
    rw [← encode_bytes, ByteArray.mk.injEq, List.toArray_eq_iff]
  rw [hbytes, decode, String.fromUTF8?]
  constructor
  · intro h
    split at h
    · next s' hs' =>
      cases h
      split at hs'
      · cases hs'; rfl
      · cases hs'
    · cases h
  · intro h
    rw [dif_pos (h ▸ s.isValidUTF8)]
    exact congrArg Except.ok (String.toByteArray_inj.1 h.symm)

theorem length_encode (s : String) : (encode s).length = s.utf8ByteSize := by
  rw [← String.size_toByteArray, ← encode_bytes]
  rfl

end Utf8

end TableParser
