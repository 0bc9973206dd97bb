import Mathlib.Data.List.Perm.Basic
import Mathlib.Data.Fintype.Card
import Mathlib.Data.Fintype.EquivFin
import Mathlib.Tactic.Common

/-!
# Finite maps over keys up to an equivalence

A list of bindings stands for the partial map that looks up the first binding
whose key matches. When no two keys of the list match, the order of the list does
not matter (`Holds.perm`), and inserting, overwriting and erasing one binding
change the map at one class of keys. `LiveCount` counts the classes a map is
defined on without choosing representatives.
-/
namespace KeyMaps
universe u v
variable {K : Type u} {V : Type v}

/-- A Boolean comparison of keys that is an equivalence. -/
structure IsEquiv (eqv : K → K → Bool) : Prop where
  refl : ∀ a, eqv a a = true
  symm : ∀ {a b}, eqv a b = true → eqv b a = true
  trans : ∀ {a b c}, eqv a b = true → eqv b c = true → eqv a c = true

theorem IsEquiv.comm {eqv : K → K → Bool} (equiv : IsEquiv eqv) (a b : K) : eqv a b = eqv b a := by
  cases left : eqv a b with
  | true => exact (equiv.symm left).symm
  | false =>
    cases right : eqv b a with
    | true => rw [equiv.symm right] at left; cases left
    | false => rfl

theorem IsEquiv.congr {eqv : K → K → Bool} (equiv : IsEquiv eqv) {a b : K} (same : eqv a b = true) (c : K) :
    eqv a c = eqv b c := by
  cases left : eqv a c with
  | true => exact (equiv.trans (equiv.symm same) left).symm
  | false =>
    cases right : eqv b c with
    | true => rw [equiv.trans same right] at left; cases left
    | false => rfl

structure Binding (K : Type u) (V : Type v) where
  key : K
  val : V
  deriving DecidableEq, Repr

/-- The value of the first binding that matches a key. -/
def find (eqv : K → K → Bool) (es : List (Binding K V)) (k : K) : Option V :=
  (es.find? (fun e => eqv e.key k)).map Binding.val

/-- The list with the value of the first binding that matches replaced. -/
def setFirst (p : Binding K V → Bool) (v : V) : List (Binding K V) → List (Binding K V)
  | [] => []
  | e :: rest => if p e then ⟨e.key,v⟩ :: rest else e :: setFirst p v rest

/-- The map after a key is given a value. -/
def set (eqv : K → K → Bool) (f : K → Option V) (k : K) (v : V) : K → Option V :=
  fun k' => if eqv k k' then some v else f k'

/-- The map after a key is removed. -/
def del (eqv : K → K → Bool) (f : K → Option V) (k : K) : K → Option V :=
  fun k' => if eqv k k' then none else f k'

/-- No two bindings have matching keys. -/
def Distinct (eqv : K → K → Bool) (es : List (Binding K V)) : Prop :=
  es.Pairwise (fun a b => eqv a.key b.key = false)

/-- A list of bindings with distinct keys that stands for the map `f`. -/
structure Holds (eqv : K → K → Bool) (es : List (Binding K V)) (f : K → Option V) : Prop where
  distinct : Distinct eqv es
  found : ∀ k, find eqv es k = f k

/-- `n` classes of keys have a value under `f`. -/
def LiveCount (eqv : K → K → Bool) (f : K → Option V) (n : Nat) : Prop :=
  ∃ ks : List K, ks.Pairwise (fun a b => eqv a b = false) ∧
    (∀ k, (f k).isSome = true ↔ ∃ k' ∈ ks, eqv k' k = true) ∧ ks.length = n

section
variable {eqv : K → K → Bool}

@[simp] theorem find_nil (k : K) : find eqv ([] : List (Binding K V)) k = none := rfl

theorem find_cons (e : Binding K V) (es : List (Binding K V)) (k : K) :
    find eqv (e :: es) k = if eqv e.key k then some e.val else find eqv es k := by
  cases matched : eqv e.key k <;> simp [find,matched]

theorem find_append (es es' : List (Binding K V)) (k : K) :
    find eqv (es ++ es') k = (find eqv es k).or (find eqv es' k) := by
  induction es with
  | nil => simp
  | cons e es ih =>
    rw [List.cons_append,find_cons,find_cons,ih]
    cases eqv e.key k <;> simp

theorem find_isSome_iff (es : List (Binding K V)) (k : K) :
    (find eqv es k).isSome = true ↔ ∃ e ∈ es, eqv e.key k = true := by
  simp [find]

theorem find_eq_none_iff (es : List (Binding K V)) (k : K) :
    find eqv es k = none ↔ ∀ e ∈ es, eqv e.key k = false := by
  simp [find]

theorem find_of_mem (equiv : IsEquiv eqv) {es : List (Binding K V)} (distinct : Distinct eqv es)
    {e : Binding K V} (member : e ∈ es) {k : K} (matched : eqv e.key k = true) : find eqv es k = some e.val := by
  induction es with
  | nil => cases member
  | cons first rest ih =>
    obtain ⟨apart,restDistinct⟩ := List.pairwise_cons.mp distinct
    rw [find_cons]
    rcases List.mem_cons.mp member with rfl | later
    · simp [matched]
    · have different : eqv first.key k = false := by
        have far := apart e later
        rw [equiv.comm first.key k,← equiv.congr matched,equiv.comm e.key]
        exact far
      simp [different,ih restDistinct later]

theorem distinct_perm (equiv : IsEquiv eqv) {es es' : List (Binding K V)} (perm : es.Perm es') :
    Distinct eqv es ↔ Distinct eqv es' :=
  perm.pairwise_iff (fun {a b} far => by rw [equiv.comm]; exact far)

/-- Reordering bindings with distinct keys does not change what is found. -/
theorem find_perm (equiv : IsEquiv eqv) {es es' : List (Binding K V)} (perm : es.Perm es')
    (distinct : Distinct eqv es) (k : K) : find eqv es k = find eqv es' k := by
  cases right : find eqv es' k with
  | none =>
    rw [find_eq_none_iff] at right ⊢
    exact fun e member => right e (perm.mem_iff.mp member)
  | some v =>
    obtain ⟨e,found,rfl⟩ := Option.map_eq_some_iff.mp right
    have member := List.mem_of_find?_eq_some found
    exact find_of_mem equiv distinct (perm.mem_iff.mpr member) (by simpa using List.find?_some found)

theorem Holds.perm (equiv : IsEquiv eqv) {es es' : List (Binding K V)} {f : K → Option V}
    (holds : Holds eqv es f) (perm : es.Perm es') : Holds eqv es' f :=
  ⟨(distinct_perm equiv perm).mp holds.distinct,fun k => by rw [← find_perm equiv perm holds.distinct,holds.found]⟩

theorem holds_nil : Holds eqv ([] : List (Binding K V)) (fun _ => none) :=
  ⟨List.Pairwise.nil,fun _ => rfl⟩

theorem Holds.insert {es : List (Binding K V)} {f : K → Option V} (holds : Holds eqv es f) {k : K}
    (absent : ∀ e ∈ es, eqv k e.key = false) (v : V) : Holds eqv (⟨k,v⟩ :: es) (set eqv f k v) := by
  refine ⟨List.pairwise_cons.mpr ⟨absent,holds.distinct⟩,fun k' => ?_⟩
  rw [find_cons,set,holds.found]

theorem Holds.erase (equiv : IsEquiv eqv) {es rest : List (Binding K V)} {f : K → Option V}
    (holds : Holds eqv es f) {e : Binding K V} (split : es.Perm (e :: rest)) {k : K}
    (matched : eqv e.key k = true) : Holds eqv rest (del eqv f k) := by
  have reordered := holds.perm equiv split
  obtain ⟨apart,restDistinct⟩ := List.pairwise_cons.mp reordered.distinct
  refine ⟨restDistinct,fun k' => ?_⟩
  have whole := reordered.found k'
  rw [find_cons] at whole
  cases same : eqv k k' with
  | false =>
    have different : eqv e.key k' = false := by rw [equiv.congr matched]; exact same
    simpa [del,same,different] using whole
  | true =>
    have both : eqv e.key k' = true := equiv.trans matched same
    simp only [del,same,↓reduceIte]
    rw [find_eq_none_iff]
    intro other member
    rw [equiv.comm,← equiv.congr both]
    exact apart other member

theorem Holds.erase_absent (equiv : IsEquiv eqv) {es : List (Binding K V)} {f : K → Option V}
    (holds : Holds eqv es f) {k : K} (absent : ∀ e ∈ es, eqv e.key k = false) : Holds eqv es (del eqv f k) := by
  refine ⟨holds.distinct,fun k' => ?_⟩
  rw [del]
  split
  · rename_i same
    rw [find_eq_none_iff]
    intro e member
    rw [equiv.comm,← equiv.congr same,equiv.comm]
    exact absent e member
  · exact holds.found k'

theorem setFirst_keys (p : Binding K V → Bool) (v : V) (es : List (Binding K V)) :
    (setFirst p v es).map Binding.key = es.map Binding.key := by
  induction es with
  | nil => rfl
  | cons e rest ih =>
    rw [setFirst]
    split
    · rfl
    · rw [List.map_cons,List.map_cons,ih]

/-- The keys are those from before. -/
theorem setFirst_each {Q : K → Prop} {es : List (Binding K V)} (each : ∀ e ∈ es, Q e.key) (p : Binding K V → Bool) (v : V) :
    ∀ e ∈ setFirst p v es, Q e.key := by
  intro e member
  have key : e.key ∈ es.map Binding.key := by
    rw [← setFirst_keys p v es]
    exact List.mem_map_of_mem member
  obtain ⟨old,there,same⟩ := List.mem_map.mp key
  rw [← same]
  exact each old there

theorem setFirst_length (p : Binding K V → Bool) (v : V) (es : List (Binding K V)) :
    (setFirst p v es).length = es.length := by
  rw [← List.length_map Binding.key,setFirst_keys,List.length_map]

/-- Replacing the first value is taking the first match out and putting it back with the value. -/
theorem setFirst_perm {p : Binding K V → Bool} {es : List (Binding K V)} {e : Binding K V} (v : V)
    (found : es.find? p = some e) :
    ∃ rest, es.Perm (e :: rest) ∧ (setFirst p v es).Perm (⟨e.key,v⟩ :: rest) := by
  induction es with
  | nil => cases found
  | cons first rest ih =>
    rw [List.find?_cons] at found
    cases matched : p first with
    | true =>
      simp only [matched,Option.some.injEq] at found
      subst found
      exact ⟨rest,List.Perm.refl _,by simp [setFirst,matched]⟩
    | false =>
      simp only [matched] at found
      obtain ⟨others,whole,changed⟩ := ih found
      refine ⟨first :: others,(whole.cons first).trans (List.Perm.swap ..),?_⟩
      rw [setFirst]
      simp only [matched,Bool.false_eq_true,↓reduceIte]
      exact (changed.cons first).trans (List.Perm.swap ..)

/-- Overwriting the first match of a key sets it in the map that the list stands for. -/
theorem find_setFirst (equiv : IsEquiv eqv) {es : List (Binding K V)} {k : K} {e : Binding K V}
    (found : es.find? (fun e => eqv e.key k) = some e) (v : V) (k' : K) :
    find eqv (setFirst (fun e => eqv e.key k) v es) k' = set eqv (find eqv es) k v k' := by
  induction es with
  | nil => cases found
  | cons first rest ih =>
    rw [List.find?_cons] at found
    rw [setFirst,set,find_cons]
    cases matched : eqv first.key k with
    | true =>
      rw [if_pos rfl,find_cons,equiv.congr matched]
      cases eqv k k' <;> simp
    | false =>
      rw [matched] at found
      rw [if_neg Bool.false_ne_true,find_cons,ih found,set]
      cases other : eqv first.key k' with
      | false => simp
      | true =>
        have apart : eqv k k' = false := by
          cases same : eqv k k' with
          | false => rfl
          | true => rw [equiv.trans other (equiv.symm same)] at matched; cases matched
        simp [apart]

theorem eraseP_perm {p : Binding K V → Bool} {es : List (Binding K V)} {e : Binding K V}
    (found : es.find? p = some e) : es.Perm (e :: es.eraseP p) := by
  induction es with
  | nil => cases found
  | cons first rest ih =>
    rw [List.find?_cons] at found
    cases matched : p first with
    | true =>
      simp only [matched,Option.some.injEq] at found
      subst found
      simp [matched]
    | false =>
      simp only [matched] at found
      rw [List.eraseP_cons]
      simp only [matched,cond_false]
      exact ((ih found).cons first).trans (List.Perm.swap ..)

theorem Holds.overwrite (equiv : IsEquiv eqv) {es rest : List (Binding K V)} {f : K → Option V}
    (holds : Holds eqv es f) {e : Binding K V} (split : es.Perm (e :: rest)) {k : K}
    (matched : eqv e.key k = true) (v : V) : Holds eqv (⟨e.key,v⟩ :: rest) (set eqv f k v) := by
  have reordered := holds.perm equiv split
  obtain ⟨apart,restDistinct⟩ := List.pairwise_cons.mp reordered.distinct
  refine ⟨List.pairwise_cons.mpr ⟨apart,restDistinct⟩,fun k' => ?_⟩
  have whole := reordered.found k'
  rw [find_cons] at whole ⊢
  rw [set,← equiv.congr matched k']
  cases same : eqv e.key k' with
  | true => rfl
  | false => simpa [same] using whole

theorem Holds.liveCount {es : List (Binding K V)} {f : K → Option V} (holds : Holds eqv es f) :
    LiveCount eqv f es.length := by
  refine ⟨es.map Binding.key,List.pairwise_map.mpr holds.distinct,fun k => ?_,List.length_map ..⟩
  rw [← holds.found,find_isSome_iff]
  simp

/-- Keys that do not match are no more than keys that cover them. -/
theorem distinct_le (equiv : IsEquiv eqv) {ks ks' : List K} (distinct : ks.Pairwise (fun a b => eqv a b = false))
    (covered : ∀ k ∈ ks, ∃ k' ∈ ks', eqv k' k = true) : ks.length ≤ ks'.length := by
  have positions : ∀ i : Fin ks.length, ∃ j : Fin ks'.length, eqv ks'[j] ks[i] = true := by
    intro i
    obtain ⟨k',member,matched⟩ := covered ks[i] (List.getElem_mem _)
    obtain ⟨j,inside,rfl⟩ := List.mem_iff_getElem.mp member
    exact ⟨⟨j,inside⟩,matched⟩
  choose place matched using positions
  have injective : Function.Injective place := by
    intro i j same
    have both : eqv ks[i] ks[j] = true :=
      equiv.trans (equiv.symm (matched i)) (by rw [same]; exact matched j)
    rcases Nat.lt_trichotomy i.val j.val with less | equal | greater
    · have apart := List.pairwise_iff_getElem.mp distinct i.val j.val i.isLt j.isLt less
      simp only [Fin.getElem_fin] at both
      rw [both] at apart
      cases apart
    · exact Fin.ext equal
    · have apart := List.pairwise_iff_getElem.mp distinct j.val i.val j.isLt i.isLt greater
      simp only [Fin.getElem_fin] at both
      rw [equiv.symm both] at apart
      cases apart
  simpa using Fintype.card_le_of_injective place injective

/-- A map has one number of live classes. -/
theorem LiveCount.unique (equiv : IsEquiv eqv) {f : K → Option V} {n m : Nat} (left : LiveCount eqv f n)
    (right : LiveCount eqv f m) : n = m := by
  obtain ⟨ks,distinct,live,rfl⟩ := left
  obtain ⟨ks',distinct',live',rfl⟩ := right
  refine Nat.le_antisymm (distinct_le equiv distinct fun k member => ?_) (distinct_le equiv distinct' fun k member => ?_)
  · exact (live' k).mp ((live k).mpr ⟨k,member,equiv.refl k⟩)
  · exact (live k).mp ((live' k).mpr ⟨k,member,equiv.refl k⟩)

end
end KeyMaps
