import AtmCache.Runs
import Mathlib.Algebra.Order.Ring.Nat
import Mathlib.Tactic.Ring

/-!
# The machine under the program

The ways in which a call can end without returning, the 32-bit counter type
`atm_uint_t`, and `atm_util_next_power`, whose doubling loop wraps.
-/
namespace AtmCache

/-- How a call ends when it does not return: `exit` after a fatal message was logged,
    a loop that never ends, or a memory fault. -/
inductive Fault where
  | exit (text : String)
  | hang
  | outOfBounds
  | useAfterFree
  | doubleFree
  | nullDeref
  deriving DecidableEq, Repr

def u32 (n : Nat) : Nat := n % 2^32

theorem u32_of_lt {n : Nat} (small : n < 2^32) : u32 n = n := Nat.mod_eq_of_lt small

/-- Subtraction of two `atm_uint_t` values. -/
def sub32 (a b : Nat) : Nat := u32 (a + 2^32 - b)

theorem sub32_of_le {a b : Nat} (le : b ≤ a) (small : a < 2^32) : sub32 a b = a - b := by
  rw [sub32,u32]
  omega

/-- The bytes that `atm_alloc`, whose parameter is an `atm_uint_t`, allocates for a request. -/
def atm_alloc (size : Nat) : Nat := u32 size

def ATM_UTIL_POWER_INIT_SIZE : Nat := 4

/-- The loop of `atm_util_next_power` for at most `fuel` rounds. -/
def atm_util_next_power_loop (num : Nat) : Nat → Nat → Option Nat
  | 0, _ => none
  | fuel+1, res => if num ≤ res then some res else atm_util_next_power_loop num fuel (u32 (res * 2))

/-- After 30 doublings `res` has wrapped to 0 and stays there, so a loop that runs for
    32 rounds runs for ever (`next_power_loop_none`). -/
def atm_util_next_power (num : Nat) : Except Fault Nat :=
  match atm_util_next_power_loop num 32 ATM_UTIL_POWER_INIT_SIZE with
  | some res => .ok res
  | none => .error .hang

private theorem next_power_loop_zero {num : Nat} (positive : 0 < num) :
    ∀ fuel, atm_util_next_power_loop num fuel 0 = none := by
  intro fuel
  induction fuel with
  | zero => rfl
  | succ fuel ih =>
    rw [atm_util_next_power_loop,if_neg (by omega)]
    exact ih

private theorem next_power_loop_large {num : Nat} (large : 2^31 < num) :
    ∀ fuel k, k ≤ 31 → atm_util_next_power_loop num fuel (2^k) = none := by
  intro fuel
  induction fuel with
  | zero => intro k _; rfl
  | succ fuel ih =>
    intro k bound
    have below : 2^k ≤ 2^31 := Nat.pow_le_pow_right (by omega) bound
    rw [atm_util_next_power_loop,if_neg (by omega),← Nat.pow_succ]
    rcases Nat.lt_or_eq_of_le bound with less | rfl
    · rw [u32_of_lt (Nat.pow_lt_pow_right (by omega) (by omega))]
      exact ih (k+1) (by omega)
    · exact next_power_loop_zero (by omega) fuel

/-- No number of rounds ends the loop for a number above `2^31`. -/
theorem next_power_loop_none {num : Nat} (large : 2^31 < num) (fuel : Nat) :
    atm_util_next_power_loop num fuel ATM_UTIL_POWER_INIT_SIZE = none :=
  next_power_loop_large large fuel 2 (by omega)

private theorem next_power_loop_some {num : Nat} (small : num ≤ 2^31) :
    ∀ fuel k, k ≤ 31 → 32 ≤ fuel + k → (∀ j, 2 ≤ j → num ≤ 2^j → k ≤ j) →
      ∃ j, k ≤ j ∧ j ≤ 31 ∧ atm_util_next_power_loop num fuel (2^k) = some (2^j) ∧ num ≤ 2^j ∧
        ∀ i, 2 ≤ i → num ≤ 2^i → j ≤ i := by
  intro fuel
  induction fuel with
  | zero => intro k bound enough; omega
  | succ fuel ih =>
    intro k bound enough least
    rw [atm_util_next_power_loop]
    by_cases reached : num ≤ 2^k
    · exact ⟨k,le_rfl,bound,if_pos reached,reached,least⟩
    · have notLast : k ≠ 31 := by rintro rfl; exact reached small
      have wrapFree : u32 (2^k * 2) = 2^(k+1) := by
        rw [← Nat.pow_succ]
        exact u32_of_lt (Nat.pow_lt_pow_right (by omega) (by omega))
      rw [if_neg reached,wrapFree]
      obtain ⟨j,above,top,found⟩ := ih (k+1) (by omega) (by omega) (by
        intro j two fits
        have := least j two fits
        rcases Nat.lt_or_eq_of_le this with less | rfl
        · exact less
        · exact absurd fits reached)
      exact ⟨j,by omega,top,found⟩

/-- Up to `2^31` the result is the least power of two that is at least 4 and the number. -/
theorem next_power_ok {num : Nat} (small : num ≤ 2^31) :
    ∃ j, 2 ≤ j ∧ j ≤ 31 ∧ atm_util_next_power num = .ok (2^j) ∧ num ≤ 2^j ∧ ∀ i, 2 ≤ i → num ≤ 2^i → j ≤ i := by
  obtain ⟨j,two,top,found,enough,least⟩ := next_power_loop_some small 32 2 (by omega) (by omega) (fun j two _ => two)
  have start : ATM_UTIL_POWER_INIT_SIZE = 2^2 := rfl
  exact ⟨j,two,top,by rw [atm_util_next_power,start,found],enough,least⟩

/-- A power found for any number is a 32-bit power of two that is large enough. -/
theorem next_power_eq_ok {num res : Nat} (found : atm_util_next_power num = .ok res) :
    ∃ j, 2 ≤ j ∧ j ≤ 31 ∧ res = 2^j ∧ num ≤ 2^j := by
  by_cases small : num ≤ 2^31
  · obtain ⟨j,two,top,same,enough,_⟩ := next_power_ok small
    rw [same] at found
    cases found
    exact ⟨j,two,top,rfl,enough⟩
  · rw [atm_util_next_power,next_power_loop_none (by omega)] at found
    cases found

end AtmCache
