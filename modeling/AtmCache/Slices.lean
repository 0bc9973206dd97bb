import Mathlib.Data.List.Basic
import Mathlib.Tactic.Ring

/-!
# Parts of a block

Reading some cells of a block (`slice`): of one that is put together from parts, and of one of equal
cells. Words of one length that stand one behind the other take that length each (`flatten_length`).
-/
namespace Slices
universe u
variable {α : Type u}

/-- `n` cells of a block from position `i` on. -/
def slice (block : List α) (i n : Nat) : List α := (block.drop i).take n

theorem slice_length {block : List α} {i n : Nat} (fits : i + n ≤ block.length) : (slice block i n).length = n := by
  rw [slice,List.length_take,List.length_drop]
  omega

theorem slice_mid (before mid after : List α) : slice (before ++ mid ++ after) before.length mid.length = mid := by
  rw [slice,List.append_assoc,List.drop_left,List.take_left]

theorem slice_at {before mid after : List α} {i n : Nat} (start : before.length = i) (length : mid.length = n) :
    slice (before ++ mid ++ after) i n = mid := by
  rw [← start,← length,slice_mid]

theorem slice_replicate {a : α} {k i n : Nat} (fits : i + n ≤ k) : slice (List.replicate k a) i n = List.replicate n a := by
  rw [slice,List.drop_replicate,List.take_replicate]
  congr 1
  omega

/-- A read behind the first part of a block. -/
theorem slice_right (before after : List α) (i n : Nat) :
    slice (before ++ after) (before.length + i) n = slice after i n := by
  rw [slice,slice,List.drop_append,List.drop_eq_nil_of_le (by omega),List.nil_append,Nat.add_sub_cancel_left]

/-! ### Blocks of words -/

theorem flatten_length {words : List (List α)} {t : Nat} (each : ∀ w ∈ words, w.length = t) :
    words.flatten.length = t * words.length := by
  induction words with
  | nil => rfl
  | cons w words ih =>
    obtain ⟨first,later⟩ := List.forall_mem_cons.mp each
    rw [List.flatten_cons,List.length_append,first,ih later,List.length_cons]
    ring

end Slices
