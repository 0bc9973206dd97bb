import Mathlib.Data.List.DropRight
import Mathlib.Tactic.Common

/-!
# Trimming a list

`trim p l` is `l` without its longest prefix of members of `p` and the longest suffix of
them in the rest. What is left does not start in `p` (`trim_starts`), so that there is
nothing to trim the second time (`trim_trim`).
-/
namespace Trims
universe u
variable {α : Type u}

def trim (p : α → Bool) (l : List α) : List α := (l.dropWhile p).rdropWhile p

variable {p : α → Bool} {l : List α}

theorem trim_front_part (p : α → Bool) (l : List α) : trim p l <+: l.dropWhile p := List.rdropWhile_prefix p _

theorem trim_sublist (p : α → Bool) (l : List α) : (trim p l).Sublist l :=
  (trim_front_part p l).sublist.trans (List.dropWhile_sublist p)

/-- What is cut off at the end leaves the first element alone, if that is not in `p`. -/
theorem rdropWhile_head {c : α} (rest : List α) (kept : p c = false) :
    ∃ rest', (c :: rest).rdropWhile p = c :: rest' := by
  cases shape : (c :: rest).rdropWhile p with
  | nil =>
    have all := List.rdropWhile_eq_nil_iff.mp shape c List.mem_cons_self
    rw [kept] at all
    cases all
  | cons d rest' =>
    obtain ⟨cut,whole⟩ := shape ▸ List.rdropWhile_prefix p (l := c :: rest)
    rw [List.cons_append,List.cons.injEq] at whole
    exact ⟨rest',by rw [whole.1]⟩

theorem trim_starts {c : α} (first : (trim p l).head? = some c) : p c = false := by
  have kept := List.head?_dropWhile_not p l
  cases shape : l.dropWhile p with
  | nil => simp [trim,shape] at first
  | cons d rest =>
    rw [shape] at kept
    have kept : p d = false := by simpa using kept
    obtain ⟨rest',same⟩ := rdropWhile_head rest kept
    rw [trim,shape,same] at first
    cases first
    exact kept

theorem takeWhile_trim (p : α → Bool) (l : List α) : (trim p l).takeWhile p = [] := by
  cases shape : trim p l with
  | nil => rfl
  | cons c rest =>
    have kept : p c = false := trim_starts (l := l) (by rw [shape]; rfl)
    rw [List.takeWhile_cons_of_neg (by rw [kept]; decide)]

theorem dropWhile_trim (p : α → Bool) (l : List α) : (trim p l).dropWhile p = trim p l := by
  have whole := List.takeWhile_append_dropWhile (p := p) (l := trim p l)
  rwa [takeWhile_trim,List.nil_append] at whole

theorem trim_trim (p : α → Bool) (l : List α) : trim p (trim p l) = trim p l := by
  rw [trim,dropWhile_trim]
  exact List.rdropWhile_idempotent p _

/-- A list that neither starts nor ends in `p` stays as it is. -/
theorem trim_same (first : ∀ c ∈ l.head?, p c = false) (last : ∀ c ∈ l.getLast?, p c = false) : trim p l = l := by
  cases l with
  | nil => rfl
  | cons c rest =>
    have kept : ¬ p c = true := by rw [first c rfl]; decide
    rw [trim,List.dropWhile_cons_of_neg kept,List.rdropWhile_eq_self_iff]
    intro some
    rw [last _ (List.getLast?_eq_getLast_of_ne_nil some)]
    decide

/-- Only the members of the list matter. -/
theorem trim_congr {q : α → Bool} (same : ∀ c ∈ l, p c = q c) : trim p l = trim q l := by
  have front : l.dropWhile p = l.dropWhile q := by
    induction l with
    | nil => rfl
    | cons c rest ih =>
      rw [List.dropWhile_cons,List.dropWhile_cons,same c List.mem_cons_self,
        ih (fun d member => same d (List.mem_cons_of_mem c member))]
  have back : ∀ m : List α, (∀ c ∈ m, p c = q c) → m.rdropWhile p = m.rdropWhile q := by
    intro m
    induction m using List.reverseRecOn with
    | nil => exact fun _ => rfl
    | append_singleton init c ih =>
      intro same
      rw [List.rdropWhile_concat,List.rdropWhile_concat,same c (by simp),
        ih (fun d member => same d (List.mem_append_left _ member))]
  rw [trim,trim,front]
  exact back _ (fun c member => same c (List.dropWhile_sublist q |>.subset member))

end Trims
