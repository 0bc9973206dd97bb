import Mathlib.Data.List.Basic
import Mathlib.Data.List.Induction
import Mathlib.Tactic.Common

/-!
# Doubly linked segments

What is known of a memory is a partial function from addresses to nodes. A segment is a list of
addresses with their values whose nodes are linked in both directions (`Seg`), between a node
before it and one behind it. Segments split where lists do (`seg_append`), their ends can be linked to other
nodes (`seg_before`, `seg_behind`), and the links lead through the values, forwards and
backwards (`forward`, `backward`).
-/
namespace Links
universe u v
variable {A : Type u} {V : Type v}

structure Node (A : Type u) (V : Type v) where
  prev : Option A
  val : V
  next : Option A

/-- The address of the first node, or of the one behind. -/
def first : List (A × V) → Option A → Option A
  | [], behind => behind
  | p :: _, _ => some p.1

/-- The address of the last node, or of the one before. -/
def last : List (A × V) → Option A → Option A
  | [], before => before
  | p :: rest, _ => last rest (some p.1)

/-- The nodes of the list are linked in order, from the node `before` to the node `behind`. -/
def Seg (look : A → Option (Node A V)) : Option A → Option A → List (A × V) → Prop
  | _, _, [] => True
  | before, behind, p :: rest =>
    look p.1 = some ⟨before,p.2,first rest behind⟩ ∧ Seg look (some p.1) behind rest

/-- Links lead from an address through some values to NULL. -/
def Path (link : A → Option (V × Option A)) : Option A → List V → Prop
  | none, [] => True
  | some a, v :: vs => ∃ b, link a = some (v,b) ∧ Path link b vs
  | _, _ => False

variable {look look' : A → Option (Node A V)} {before behind : Option A} {ps qs : List (A × V)}

theorem first_append : first (ps ++ qs) behind = first ps (first qs behind) := by
  cases ps <;> rfl

theorem last_append : last (ps ++ qs) before = last qs (last ps before) := by
  induction ps generalizing before with
  | nil => rfl
  | cons p ps ih => exact ih

theorem first_eq_none : first ps none = none ↔ ps = [] := by
  cases ps <;> simp [first]

theorem last_snoc (p : A × V) : last (ps ++ [p]) before = some p.1 := last_append

theorem last_eq_none : last ps none = none ↔ ps = [] := by
  rcases List.eq_nil_or_concat ps with rfl | ⟨init,p,rfl⟩
  · simp [last]
  · simp [List.concat_eq_append,last_snoc]

theorem seg_append : Seg look before behind (ps ++ qs) ↔
    Seg look before (first qs behind) ps ∧ Seg look (last ps before) behind qs := by
  induction ps generalizing before with
  | nil => simp [Seg,last]
  | cons p ps ih => simp only [List.cons_append,Seg,ih,first_append,last,and_assoc]

/-- Two memories with the same nodes have the same segments. -/
theorem seg_frame (same : ∀ p ∈ ps, look' p.1 = look p.1) (seg : Seg look before behind ps) : Seg look' before behind ps := by
  induction ps generalizing before with
  | nil => trivial
  | cons p ps ih =>
    obtain ⟨here,later⟩ := List.forall_mem_cons.mp same
    exact ⟨here.trans seg.1,ih later seg.2⟩

/-- A memory with more nodes has the same segments. -/
theorem seg_mono (more : ∀ a n, look a = some n → look' a = some n) (seg : Seg look before behind ps) :
    Seg look' before behind ps := by
  induction ps generalizing before with
  | nil => trivial
  | cons p ps ih => exact ⟨more _ _ seg.1,ih seg.2⟩

/-- Every address of a segment has its value. -/
theorem seg_val {p : A × V} (seg : Seg look before behind ps) (member : p ∈ ps) : ∃ n, look p.1 = some n ∧ n.val = p.2 := by
  induction ps generalizing before with
  | nil => cases member
  | cons q ps ih =>
    rcases List.mem_cons.mp member with rfl | inner
    · exact ⟨_,seg.1,rfl⟩
    · exact ih seg.2 inner

/-- The last node is linked to another one behind it. -/
theorem seg_behind {p : A × V} {other : Option A} (same : ∀ q ∈ ps, look' q.1 = look q.1)
    (changed : look' p.1 = (look p.1).map (fun n => { n with next := other })) (seg : Seg look before behind (ps ++ [p])) :
    Seg look' before other (ps ++ [p]) := by
  obtain ⟨init,here,_⟩ := seg_append.mp seg
  refine seg_append.mpr ⟨seg_frame same init,?_,trivial⟩
  rw [changed,here]
  rfl

/-- The first node is linked to another one before it. -/
theorem seg_before {p : A × V} {other : Option A} (same : ∀ q ∈ ps, look' q.1 = look q.1)
    (changed : look' p.1 = (look p.1).map (fun n => { n with prev := other })) (seg : Seg look before behind (p :: ps)) :
    Seg look' other behind (p :: ps) := by
  refine ⟨?_,seg_frame same seg.2⟩
  rw [changed,seg.1]
  rfl

/-! ### Following the links -/

theorem path_mono {link link' : A → Option (V × Option A)} (more : ∀ a x, link a = some x → link' a = some x)
    {start : Option A} {vs : List V} (path : Path link start vs) : Path link' start vs := by
  induction vs generalizing start with
  | nil =>
    cases start with
    | none => trivial
    | some a => exact path
  | cons v vs ih =>
    cases start with
    | none => exact path
    | some a =>
      obtain ⟨b,here,later⟩ := path
      exact ⟨b,more _ _ here,ih later⟩

theorem forward (seg : Seg look before none ps) :
    Path (fun a => (look a).map (fun n => (n.val,n.next))) (first ps none) (ps.map Prod.snd) := by
  induction ps generalizing before with
  | nil => trivial
  | cons p ps ih =>
    refine ⟨first ps none,?_,ih seg.2⟩
    dsimp only
    rw [seg.1]
    rfl

theorem backward (seg : Seg look none behind ps) :
    Path (fun a => (look a).map (fun n => (n.val,n.prev))) (last ps none) (ps.map Prod.snd).reverse := by
  induction ps using List.reverseRecOn generalizing behind with
  | nil => trivial
  | append_singleton ps p ih =>
    obtain ⟨init,here,_⟩ := seg_append.mp seg
    rw [last_snoc,List.map_append,List.reverse_append]
    refine ⟨last ps none,?_,ih init⟩
    dsimp only
    rw [here]
    rfl

end Links
