import Mathlib.Algebra.Ring.Nat
import Mathlib.Data.List.Basic
import Mathlib.Data.List.Perm.Basic
import Mathlib.Tactic.Common

/-!
# Lists with one element replaced

A list is cut at the element that is replaced; what is gathered from all elements
changes, up to order, by what is gathered from that one.
-/
namespace ListSets
universe u v
variable {α : Type u} {β : Type v}

theorem split_at {l : List α} {i : Nat} {a : α} (found : l[i]? = some a) :
    l = l.take i ++ a :: l.drop (i+1) := by
  obtain ⟨inside,same⟩ := List.getElem?_eq_some_iff.mp found
  rw [← same,← List.drop_eq_getElem_cons inside,List.take_append_drop]

theorem set_at {l : List α} {i : Nat} {a : α} (found : l[i]? = some a) (b : α) :
    l.set i b = l.take i ++ b :: l.drop (i+1) := by
  obtain ⟨inside,_⟩ := List.getElem?_eq_some_iff.mp found
  rw [List.set_eq_take_append_cons_drop,if_pos inside]

theorem flatMap_set_perm (f : α → List β) {l : List α} {i : Nat} {a : α} (found : l[i]? = some a) (b : α) :
    (f a ++ (l.set i b).flatMap f).Perm (f b ++ l.flatMap f) := by
  have whole : l.flatMap f = (l.take i).flatMap f ++ (f a ++ (l.drop (i+1)).flatMap f) := by
    conv_lhs => rw [split_at found]
    simp
  rw [set_at found,whole]
  simp only [List.flatMap_append,List.flatMap_cons]
  calc (f a ++ ((l.take i).flatMap f ++ (f b ++ (l.drop (i+1)).flatMap f))).Perm
        (f a ++ (f b ++ ((l.take i).flatMap f ++ (l.drop (i+1)).flatMap f))) :=
          List.Perm.append_left _ (List.perm_append_comm_assoc ..)
    _ |>.Perm (f b ++ (f a ++ ((l.take i).flatMap f ++ (l.drop (i+1)).flatMap f))) :=
          List.perm_append_comm_assoc ..
    _ |>.Perm (f b ++ ((l.take i).flatMap f ++ (f a ++ (l.drop (i+1)).flatMap f))) :=
          List.Perm.append_left _ (List.perm_append_comm_assoc ..)

/-- The count of a list, of which one element has a weight, and of the list with another one instead. -/
theorem countP_set (p : α → Bool) {l : List α} {i : Nat} {a : α} (found : l[i]? = some a) (b : α) :
    (l.set i b).countP p + (p a).toNat = l.countP p + (p b).toNat := by
  have whole : l.countP p = (l.take i ++ a :: l.drop (i+1)).countP p := by rw [← split_at found]
  have one : ∀ x, (if p x = true then 1 else 0) = (p x).toNat := fun x => by cases p x <;> rfl
  rw [set_at found,whole]
  simp only [List.countP_append,List.countP_cons,one]
  omega

theorem countP_set_same {p : α → Bool} {l : List α} {i : Nat} {a b : α} (found : l[i]? = some a) (alike : p b = p a) :
    (l.set i b).countP p = l.countP p := by
  have counted := countP_set p found b
  rw [alike] at counted
  exact Nat.add_right_cancel counted

theorem mem_set_self {l : List α} {i : Nat} {a : α} (found : l[i]? = some a) (b : α) : b ∈ l.set i b :=
  List.mem_set (List.getElem?_eq_some_iff.mp found).1 b

/-- An element other than the one that is replaced stays. -/
theorem mem_set_of_mem {l : List α} {i : Nat} {a : α} (found : l[i]? = some a) (b : α) {x : α} (member : x ∈ l) :
    x = a ∨ x ∈ l.set i b := by
  rw [split_at found] at member
  rw [set_at found]
  simp only [List.mem_append,List.mem_cons] at member ⊢
  rcases member with before | same | after
  · exact .inr (.inl before)
  · exact .inl same
  · exact .inr (.inr (.inr after))

/-- What a list with one element replaced holds is the new element, or stands elsewhere in the old list. -/
theorem of_mem_set {l : List α} {i : Nat} {a b : α} (member : b ∈ l.set i a) : b = a ∨ ∃ j, j ≠ i ∧ l[j]? = some b := by
  obtain ⟨j,found⟩ := List.mem_iff_getElem?.mp member
  by_cases same : j = i
  · rw [same] at found
    have inside : i < l.length := by
      have here := (List.getElem?_eq_some_iff.mp found).1
      rwa [List.length_set] at here
    rw [List.getElem?_set_self inside] at found
    exact .inl (Option.some.inj found).symm
  · rw [List.getElem?_set_ne (Ne.symm same)] at found
    exact .inr ⟨j,same,found⟩

/-- The sum over a list without repetitions, of a function that changes at one element only. -/
theorem sum_map_changed {f g : α → Nat} {l : List α} (nodup : l.Nodup) {a : α} (member : a ∈ l)
    (others : ∀ b ∈ l, b ≠ a → g b = f b) : (l.map g).sum + f a = (l.map f).sum + g a := by
  induction l with
  | nil => exact absurd member List.not_mem_nil
  | cons b l ih =>
    obtain ⟨outside,rest⟩ := List.nodup_cons.mp nodup
    obtain ⟨first,later⟩ := List.forall_mem_cons.mp others
    rw [List.map_cons,List.map_cons,List.sum_cons,List.sum_cons]
    rcases List.mem_cons.mp member with rfl | inside
    · have same : l.map g = l.map f :=
        List.map_congr_left (fun b there => later b there (fun alike => outside (by rw [← alike]; exact there)))
      rw [same]
      omega
    · have kept := first (fun alike => outside (by rw [alike]; exact inside))
      have total := ih rest inside later
      omega

/-- The sum over a list where one element is replaced. -/
theorem sum_map_set (f : α → Nat) {l : List α} {i : Nat} {a : α} (found : l[i]? = some a) (b : α) :
    ((l.set i b).map f).sum + f a = (l.map f).sum + f b := by
  have before : l.map f = _ := congrArg (List.map f) (split_at found)
  rw [before,set_at found b]
  simp only [List.map_append,List.map_cons,List.sum_append,List.sum_cons]
  omega

end ListSets
