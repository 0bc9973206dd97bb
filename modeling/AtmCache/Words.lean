import Mathlib.Data.Nat.Digits.Lemmas
import Mathlib.Data.UInt

/-!
# Words from bytes

The number that some bytes hold, lowest byte first (`of_bytes`), and a 64-bit word that is put
together from single bytes by shifting each to its place (`or_byte`).
-/
namespace Words

/-- The number whose digits in base 256 are the bytes, lowest first. -/
def of_bytes (bytes : List UInt8) : Nat := Nat.ofDigits 256 (bytes.map UInt8.toNat)

theorem of_bytes_concat (bytes : List UInt8) (b : UInt8) :
    of_bytes (bytes ++ [b]) = of_bytes bytes + 2^(8 * bytes.length) * b.toNat := by
  rw [of_bytes,List.map_append,Nat.ofDigits_append,List.length_map,Nat.pow_mul,List.map_singleton,Nat.ofDigits_singleton]
  rfl

theorem of_bytes_lt (bytes : List UInt8) : of_bytes bytes < 2^(8 * bytes.length) := by
  rw [of_bytes,Nat.pow_mul,← List.length_map UInt8.toNat]
  apply Nat.ofDigits_lt_base_pow_length (by omega)
  intro digit member
  obtain ⟨b,_,rfl⟩ := List.mem_map.mp member
  exact b.toNat_lt

/-- One more byte, shifted to the place behind the bytes that a word already holds. -/
theorem or_byte (place : UInt64) {word : UInt64} {bytes : List UInt8} (holds : word.toNat = of_bytes bytes)
    (next : place.toNat = 8 * bytes.length) (room : bytes.length < 8) (b : UInt8) :
    (word ||| b.toUInt64 <<< place).toNat = of_bytes (bytes ++ [b]) := by
  have inside : place.toNat % 64 = 8 * bytes.length := by omega
  have fits : b.toNat <<< (8 * bytes.length) < 2^64 := by
    rw [Nat.shiftLeft_eq]
    calc b.toNat * 2^(8 * bytes.length) < 2^8 * 2^(8 * bytes.length) :=
          Nat.mul_lt_mul_of_pos_right b.toNat_lt (by positivity)
      _ ≤ 2^8 * 2^56 := Nat.mul_le_mul_left _ (Nat.pow_le_pow_right (by omega) (by omega))
      _ = 2^64 := by norm_num
  rw [UInt64.toNat_or,UInt64.toNat_shiftLeft,inside,UInt8.toNat_toUInt64,Nat.mod_eq_of_lt fits,holds,Nat.or_comm,
    ← Nat.shiftLeft_add_eq_or_of_lt (of_bytes_lt bytes),Nat.shiftLeft_eq,of_bytes_concat]
  ring

end Words
