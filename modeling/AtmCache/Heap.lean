import Mathlib.Data.List.Basic
import Mathlib.Tactic.Common

/-!
# A heap of cells

A heap is the list of all cells ever allocated; an address is a position, and a
freed cell is `none`. Addresses are not reused, so that an address that is kept
too long is seen.
-/
namespace Heap
universe u
variable {α : Type u}

abbrev Addr := Nat

abbrev Cells (α : Type u) := List (Option α)

def get (h : Cells α) (a : Addr) : Option α := (h[a]?).join

/-- The heap with a new cell, whose address is the old length. -/
def alloc (h : Cells α) (x : α) : Cells α := h ++ [some x]

def put (h : Cells α) (a : Addr) (x : α) : Cells α := h.set a (some x)

def free (h : Cells α) (a : Addr) : Cells α := h.set a none

theorem get_lt {h : Cells α} {a : Addr} {x : α} (found : get h a = some x) : a < h.length := by
  by_contra beyond
  rw [get,List.getElem?_eq_none (Nat.le_of_not_lt beyond)] at found
  cases found

theorem get_alloc_new (h : Cells α) (x : α) : get (alloc h x) h.length = some x := by
  simp [get,alloc]

theorem get_alloc_old {h : Cells α} (x : α) {a : Addr} (old : a < h.length) : get (alloc h x) a = get h a := by
  rw [get,alloc,List.getElem?_append_left old,get]

theorem get_put_self {h : Cells α} {a : Addr} {x : α} (found : get h a = some x) (y : α) : get (put h a y) a = some y := by
  simp [get,put,get_lt found]

theorem get_put_other (h : Cells α) {a b : Addr} (other : b ≠ a) (y : α) : get (put h a y) b = get h b := by
  rw [get,put,List.getElem?_set_ne (Ne.symm other),get]

theorem put_alloc_new (h : Cells α) (x y : α) : put (alloc h x) h.length y = alloc h y := by
  rw [put,alloc,List.set_append_right _ _ (Nat.le_refl _),Nat.sub_self]
  rfl

theorem put_alloc_old (h : Cells α) (x y : α) {a : Addr} (old : a < h.length) :
    put (alloc h x) a y = alloc (put h a y) x := by
  rw [put,alloc,List.set_append_left _ _ old,alloc,put]

theorem alloc_length (h : Cells α) (x : α) : (alloc h x).length = h.length + 1 := List.length_append

/-- A cell after a write is the one written or as it was. -/
theorem get_of_put {h : Cells α} {a b : Addr} {x y z : α} (there : get h a = some x) (found : get (put h a y) b = some z) :
    (b = a ∧ z = y) ∨ (b ≠ a ∧ get h b = some z) := by
  by_cases same : b = a
  · rw [same,get_put_self there] at found
    exact .inl ⟨same,(Option.some.inj found).symm⟩
  · rw [get_put_other h same] at found
    exact .inr ⟨same,found⟩

theorem put_same {h : Cells α} {a : Addr} {x : α} (found : get h a = some x) : put h a x = h := by
  have inside := get_lt found
  have here : h[a] = some x := by
    rw [get,List.getElem?_eq_getElem inside] at found
    exact found
  rw [put,← here,List.set_getElem_self]

@[simp] theorem put_length (h : Cells α) (a : Addr) (x : α) : (put h a x).length = h.length := List.length_set

@[simp] theorem free_length (h : Cells α) (a : Addr) : (free h a).length = h.length := List.length_set

theorem map_get_put {h : Cells α} {a : Addr} {as : List Addr} (outside : a ∉ as) (y : α) :
    as.map (get (put h a y)) = as.map (get h) :=
  List.map_congr_left (fun _ member => get_put_other h (fun same => outside (by rw [← same]; exact member)) y)

theorem get_free_other (h : Cells α) {a b : Addr} (other : b ≠ a) : get (free h a) b = get h b := by
  rw [get,free,List.getElem?_set_ne (Ne.symm other),get]

theorem get_free_self (h : Cells α) (a : Addr) : get (free h a) a = none := by
  by_cases inside : a < h.length
  · simp [get,free,inside]
  · simp [get,free,Nat.le_of_not_lt inside]

/-- What is left after a cell is freed was there before. -/
theorem get_of_free {h : Cells α} {a b : Addr} {x : α} (found : get (free h a) b = some x) :
    b ≠ a ∧ get h b = some x := by
  by_cases same : b = a
  · rw [same,get_free_self] at found
    cases found
  · exact ⟨same,(get_free_other h same).symm.trans found⟩

/-- The heap after some cells are freed. -/
theorem get_foldl_free (as : List Addr) (h : Cells α) (b : Addr) :
    get (as.foldl free h) b = if b ∈ as then none else get h b := by
  induction as generalizing h with
  | nil => rfl
  | cons a as ih =>
    rw [List.foldl_cons,ih]
    by_cases later : b ∈ as
    · rw [if_pos later,if_pos (List.mem_cons_of_mem a later)]
    · rw [if_neg later]
      by_cases same : b = a
      · rw [same,get_free_self,if_pos List.mem_cons_self]
      · rw [get_free_other h same,if_neg (List.not_mem_cons_of_ne_of_not_mem same later)]

@[simp] theorem foldl_free_length (as : List Addr) (h : Cells α) : (as.foldl free h).length = h.length := by
  induction as generalizing h with
  | nil => rfl
  | cons a as ih => rw [List.foldl_cons,ih,free_length]

/-- A cell of a longer heap is the new one or an old one. -/
theorem get_of_alloc {h : Cells α} {x y : α} {a : Addr} (found : get (alloc h x) a = some y) :
    (a = h.length ∧ y = x) ∨ get h a = some y := by
  by_cases old : a < h.length
  · exact .inr ((get_alloc_old x old).symm.trans found)
  · have here := get_lt found
    rw [alloc,List.length_append,List.length_singleton] at here
    have last : a = h.length := Nat.le_antisymm (Nat.le_of_lt_succ here) (Nat.le_of_not_lt old)
    rw [last,get_alloc_new] at found
    exact .inl ⟨last,(Option.some.inj found).symm⟩

end Heap
