import Mathlib.Data.Nat.Digits.Lemmas
import Mathlib.Tactic.Ring

/-!
# Numbers written with digits

The number that a list of digits writes, highest first (`number`), also of two texts one behind the
other (`number_append`). A number that is smaller than what its last digits can write has zeros
before them (`number_front`).
-/
namespace Numerals

def number (base : Nat) (digits : List Nat) : Nat := Nat.ofDigits base digits.reverse

theorem number_append (base : Nat) (front back : List Nat) :
    number base (front ++ back) = number base front * base ^ back.length + number base back := by
  rw [number,List.reverse_append,Nat.ofDigits_append,List.length_reverse,Nat.mul_comm,Nat.add_comm]
  rfl

theorem number_concat (base : Nat) (digits : List Nat) (d : Nat) :
    number base (digits ++ [d]) = number base digits * base + d := by
  rw [number_append,List.length_singleton,pow_one,number,number,List.reverse_singleton,Nat.ofDigits_singleton]

/-- A number written in base 10 is that number. -/
theorem number_toDigits (n : Nat) : number 10 ((Nat.toDigits 10 n).map (fun c => c.toNat - 48)) = n := by
  induction n using Nat.strongRecOn with
  | ind n ih =>
    have ten : 1 < 10 := by decide
    rw [Nat.toDigits_eq_if ten]
    split
    · rename_i small
      rw [List.map_singleton,Nat.toNat_digitChar_sub_48_of_lt_ten small,number,List.reverse_singleton,Nat.ofDigits_singleton]
    · rename_i large
      have last : n % 10 < 10 := Nat.mod_lt n (by decide)
      rw [List.map_append,List.map_singleton,number_concat,ih (n/10) (by omega),Nat.toNat_digitChar_sub_48_of_lt_ten last]
      omega

theorem number_front {base : Nat} {front back : List Nat} (small : number base (front ++ back) < base ^ back.length) :
    number base front = 0 := by
  rw [number_append] at small
  by_contra nonzero
  have least : base ^ back.length ≤ number base front * base ^ back.length :=
    Nat.le_mul_of_pos_left _ (Nat.pos_of_ne_zero nonzero)
  omega

end Numerals
