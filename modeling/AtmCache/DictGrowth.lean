import AtmCache.DictLook
import Mathlib.Order.Bounds.Basic

/-!
# The size of the table to migrate to

A migration doubles `size`, takes the next power of two and multiplies it by the size of
a pointer for `atm_alloc`, all three for a table of up to `2^32` entries. Each step has its
own limit. From `2^31` entries on the doubled size wraps, above `2^30` the search for the
power never ends, and above `2^27` the byte count is a multiple of `2^32`, so the block has no
slot. Up to `2^27` entries all three are exact (`grows_soundly_iff`).
-/
namespace AtmCache.Dict
open Runs
variable {K V : Type}

/-- A call of `atm_dict_rehash` starts a migration here. -/
structure Starts (d : Dictionary K V) : Prop where
  needed : atm_dict_rehash_needed d = true
  alone : d.ht_backup = none
  rest : d.rehash_index = 0

/-- The powers of two that are large enough for twice the entries, and not below the first size. -/
def LargeEnough (size : Nat) : Set Nat := {p | (∃ j, p = 2^j) ∧ max ATM_UTIL_POWER_INIT_SIZE (size * 2) ≤ p}

/-- All that the growth computes is exact, and the new block has a cell for every slot. -/
structure GrowsSoundly (d : Dictionary K V) (bak : Table K V) : Prop where
  doubled : d.ht_active.size * 2 < 2^32
  power : atm_util_next_power (u32 (d.ht_active.size * 2)) = .ok bak.bktab_size
  least : IsLeast (LargeEnough d.ht_active.size) bak.bktab_size
  request : atm_alloc (pointer_size * bak.bktab_size) = pointer_size * bak.bktab_size
  slots : ∀ i < bak.bktab_size, ∃ s, bak.slot i = .ok s

variable {d : Dictionary K V}

theorem backup_starts (starts : Starts d) : atm_dict_rehash_backup d =
    atm_util_next_power (u32 (d.ht_active.size * 2)) >>= fun bsz => .ok (atm_dict_table_new bsz) := by
  simp only [atm_dict_rehash_backup,starts.alone,starts.rest,ne_eq,not_true_eq_false,↓reduceIte,pure_eq_ok]

theorem four_le_two_pow {j : Nat} : ATM_UTIL_POWER_INIT_SIZE ≤ 2^j ↔ 2 ≤ j := by
  rw [show ATM_UTIL_POWER_INIT_SIZE = 2^2 from rfl]
  exact Nat.pow_le_pow_iff_right (by omega)

/-! ### Within the limits -/

/-- The power found for a doubled size that did not wrap. -/
theorem power_least {size : Nat} (small : size * 2 ≤ 2^31) :
    ∃ j, atm_util_next_power (u32 (size * 2)) = .ok (2^j) ∧ IsLeast (LargeEnough size) (2^j) := by
  rw [u32_of_lt (by omega)]
  obtain ⟨j,two,_,found,enough,least⟩ := next_power_ok small
  refine ⟨j,found,⟨⟨j,rfl⟩,max_le (four_le_two_pow.mpr two) enough⟩,?_⟩
  rintro _ ⟨⟨i,rfl⟩,fits⟩
  obtain ⟨four,double⟩ := max_le_iff.mp fits
  exact Nat.pow_le_pow_right (by omega) (least i (four_le_two_pow.mp four) double)

/-- A table of up to `2^28` slots is allocated whole. -/
theorem request_exact {j : Nat} (high : j ≤ 28) : atm_alloc (pointer_size * 2^j) = pointer_size * 2^j := by
  have : 2^j ≤ 2^28 := Nat.pow_le_pow_right (by omega) high
  exact u32_of_lt (by simp only [pointer_size]; omega)

theorem new_slot {bsz i : Nat} (exact : atm_alloc (pointer_size * bsz) = pointer_size * bsz) (inside : i < bsz) :
    (atm_dict_table_new bsz : Table K V).slot i = .ok .null := by
  have slots : (atm_dict_table_new bsz : Table K V).bktab = List.replicate bsz .null := by
    simp only [atm_dict_table_new,exact]
    rw [Nat.mul_div_cancel_left _ (by decide)]
  rw [Table.slot,slots,List.getElem?_replicate,if_pos inside]

theorem grows_within (starts : Starts d) (small : d.ht_active.size ≤ 2^27) :
    ∃ bak, atm_dict_rehash_backup d = .ok bak ∧ GrowsSoundly d bak := by
  obtain ⟨j,found,least⟩ := power_least (show d.ht_active.size * 2 ≤ 2^31 by omega)
  have four : ATM_UTIL_POWER_INIT_SIZE ≤ 2^28 := by decide
  have high : j ≤ 28 := (Nat.pow_le_pow_iff_right (show 1 < 2 by omega)).mp
    (least.2 ⟨⟨28,rfl⟩,max_le four (by omega)⟩)
  refine ⟨atm_dict_table_new (2^j),by rw [backup_starts starts,found]; rfl,by omega,found,least,request_exact high,?_⟩
  exact fun i inside => ⟨_,new_slot (request_exact high) inside⟩

/-! ### Beyond them -/

/-- Between `2^27` and `2^30` entries the new table has a size, and no slot. -/
theorem grows_short (starts : Starts d) (large : 2^27 < d.ht_active.size) (small : d.ht_active.size ≤ 2^30) :
    ∃ bak, atm_dict_rehash_backup d = .ok bak ∧ d.ht_active.size * 2 ≤ bak.bktab_size ∧ bak.bktab = [] := by
  obtain ⟨j,found,⟨_,fits⟩,_⟩ := power_least (show d.ht_active.size * 2 ≤ 2^31 by omega)
  have enough : d.ht_active.size * 2 ≤ 2^j := (max_le_iff.mp fits).2
  have above : 29 ≤ j := by
    by_contra less
    have : 2^j ≤ 2^28 := Nat.pow_le_pow_right (by omega) (by omega)
    omega
  exact ⟨atm_dict_table_new (2^j),by rw [backup_starts starts,found]; rfl,enough,table_new_short above⟩

theorem short_not_sound {bak : Table K V} (some : 0 < bak.bktab_size) (none : bak.bktab = []) : ¬GrowsSoundly d bak := by
  intro sound
  obtain ⟨s,found⟩ := sound.slots 0 some
  rw [Table.slot,none] at found
  cases found

/-- Up to `2^31` entries no power is ever found. -/
theorem grows_hangs (starts : Starts d) (large : 2^30 < d.ht_active.size) (small : d.ht_active.size < 2^31) :
    atm_dict_rehash_backup d = .error .hang := by
  rw [backup_starts starts,u32_of_lt (by omega),atm_util_next_power,next_power_loop_none (by omega)]
  rfl

/-- From `2^31` entries on the table to migrate to is not even as large as the number of entries. -/
theorem grows_wraps (starts : Starts d) (large : 2^31 ≤ d.ht_active.size) {bak : Table K V}
    (made : atm_dict_rehash_backup d = .ok bak) : bak.bktab_size ≤ d.ht_active.size := by
  rw [backup_starts starts] at made
  obtain ⟨bsz,found,same⟩ := bind_eq_ok.mp made
  cases same
  obtain ⟨j,_,top,rfl,_⟩ := next_power_eq_ok found
  have : 2^j ≤ 2^31 := Nat.pow_le_pow_right (by omega) top
  simp only [atm_dict_table_new]
  omega

/-- A call that starts a migration grows the dictionary soundly exactly up to `2^27` entries. -/
theorem grows_soundly_iff (starts : Starts d) :
    (∃ bak, atm_dict_rehash_backup d = .ok bak ∧ GrowsSoundly d bak) ↔ d.ht_active.size ≤ 2^27 := by
  refine ⟨?_,grows_within starts⟩
  rintro ⟨bak,made,sound⟩
  have doubled := sound.doubled
  by_contra large
  by_cases middle : d.ht_active.size ≤ 2^30
  · obtain ⟨short,made',enough,none⟩ := grows_short starts (by omega) middle
    rw [made] at made'
    cases made'
    exact short_not_sound (by omega) none sound
  · rw [grows_hangs starts (by omega) (by omega)] at made
    cases made

theorem crowded_starts (n : Nat) : Starts (crowded n) where
  needed := by simp [atm_dict_rehash_needed,crowded]
  alone := rfl
  rest := rfl

theorem grows_soundly_crowded : (∃ bak, atm_dict_rehash_backup (crowded 256) = .ok bak ∧ GrowsSoundly (crowded 256) bak) ↔
    256 ≤ 2^27 :=
  grows_soundly_iff (crowded_starts 256)

/-- A full table of `2^28` slots grows to a table of `2^29` slots in a block of no bytes. -/
theorem crowded_grows_short : DictSound one_slot (crowded (2^28)) ∧ Starts (crowded (2^28)) ∧
    (∃ bak, atm_dict_rehash_backup (crowded (2^28)) = .ok bak ∧ 2^29 ≤ bak.bktab_size ∧ bak.slot 0 = .error .outOfBounds) ∧
    ¬ ∃ bak, atm_dict_rehash_backup (crowded (2^28)) = .ok bak ∧ GrowsSoundly (crowded (2^28)) bak := by
  have size : (crowded (2^28)).ht_active.size = 2^28 := rfl
  obtain ⟨bak,made,enough,none⟩ := grows_short (crowded_starts (2^28)) (by rw [size]; omega) (by rw [size]; omega)
  refine ⟨crowded_sound (by omega),crowded_starts _,⟨bak,made,by rw [size] at enough; omega,?_⟩,?_⟩
  · rw [Table.slot,none]
    rfl
  · rintro ⟨other,again,sound⟩
    rw [made] at again
    cases again
    exact short_not_sound (by omega) none sound

end AtmCache.Dict
