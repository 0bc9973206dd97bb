import AtmCache.ListSets
import AtmCache.TaskModel

/-!
# A blocking queue whose list operations are done at once

What the blocking queue is meant to be: a value is pushed, and the first one is taken, in one step each, the
former under `qlock` and the latter after it was left. `Does` says what a step of a thread can do, and the
section on sleepers that a thread which sleeps is not forgotten: while a reader sleeps, for every value in the queue
there is a thread that has yet to signal or that is up and will take one (`Covered`), since the test and the
falling asleep are under `qlock` and so is a push. With one reader the queue is one whose pop waits for a value and
takes it in one step (`Lone`).
-/
namespace AtmCache.QueueSpec
open Runs
open Tasks (Stop)

/-- Where a thread is in a push. -/
inductive PushAt (α : Type) where
  | lock (val : α)
  | list_push (val : α)
  | unlock
  | signal
  deriving DecidableEq, Repr

/-- Where a thread is while it waits for a value. -/
inductive WaitAt where
  | lock
  | test
  | asleep
  | woken
  | unlock
  deriving DecidableEq, Repr

/-- Where a thread is; `list_lpop` is the rest of a pop. -/
inductive At (α : Type) where
  | out
  | push (pc : PushAt α)
  | wait (pc : WaitAt)
  | list_lpop
  deriving DecidableEq, Repr

/-- The list operations that were done. -/
inductive Op (α : Type) where
  | push (val : α)
  | lpop (res : Option α)
  deriving DecidableEq, Repr

/-- The values with the thread that holds `qlock`, and where each thread is. `ops` is what was done to `vals`. -/
structure Queue (α : Type) where
  vals : List α
  qlock : Option Nat
  threads : List (At α)
  ops : List (Op α)
  deriving DecidableEq, Repr

/-- A thread begins a push or a pop, goes on, wakes another thread or none, or is no longer asleep because its time
    is over. -/
inductive Label (α : Type) where
  | push (i : Nat) (val : α)
  | pop (i : Nat)
  | go (i : Nat)
  | signal (i : Nat) (j : Option Nat)
  | timeout (j : Nat)
  deriving DecidableEq, Repr

variable {α : Type}

def queue (n : Nat) : Queue α := ⟨[],none,List.replicate n .out,[]⟩

def Queue.move (s : Queue α) (i : Nat) (a : At α) : Queue α := { s with threads := s.threads.set i a }

@[simp] theorem move_vals (s : Queue α) (i : Nat) (a : At α) : (s.move i a).vals = s.vals := rfl

/-! ### What a step does -/

def At.holds : At α → Bool
  | .push (.list_push _) => true
  | .push .unlock => true
  | .wait .test => true
  | .wait .unlock => true
  | _ => false

/-- Taking `qlock`. -/
def Enters (a b : At α) : Prop :=
  (∃ val, a = .push (.lock val) ∧ b = .push (.list_push val)) ∨ ((a = .wait .lock ∨ a = .wait .woken) ∧ b = .wait .test)

/-- Leaving `qlock` for good. -/
def Leaves (a b : At α) : Prop :=
  (a = .push .unlock ∧ b = .push .signal) ∨ (a = .wait .unlock ∧ b = .list_lpop)

inductive Does (s : Queue α) : Label α → Queue α → Prop where
  | push {i : Nat} {val : α} (here : s.threads[i]? = some .out) : Does s (.push i val) (s.move i (.push (.lock val)))
  | pop {i : Nat} (here : s.threads[i]? = some .out) : Does s (.pop i) (s.move i (.wait .lock))
  | lock {i : Nat} {a b : At α} (here : s.threads[i]? = some a) (enters : Enters a b) (free : s.qlock = none) :
      Does s (.go i) { s.move i b with qlock := some i }
  | unlock {i : Nat} {a b : At α} (here : s.threads[i]? = some a) (leaves : Leaves a b) :
      Does s (.go i) { s.move i b with qlock := none }
  | list_push {i : Nat} {val : α} (here : s.threads[i]? = some (.push (.list_push val))) :
      Does s (.go i) { s.move i (.push .unlock) with vals := s.vals ++ [val], ops := s.ops ++ [.push val] }
  | sleep {i : Nat} (here : s.threads[i]? = some (.wait .test)) (empty : u32 s.vals.length = 0) :
      Does s (.go i) { s.move i (.wait .asleep) with qlock := none }
  | ready {i : Nat} (here : s.threads[i]? = some (.wait .test)) (some : u32 s.vals.length ≠ 0) :
      Does s (.go i) (s.move i (.wait .unlock))
  | list_lpop {i : Nat} (here : s.threads[i]? = some .list_lpop) :
      Does s (.go i) { s.move i .out with vals := s.vals.tail, ops := s.ops ++ [.lpop s.vals.head?] }
  | wake {i j : Nat} (here : s.threads[i]? = some (.push .signal)) (there : s.threads[j]? = some (.wait .asleep)) :
      Does s (.signal i (some j)) ((s.move i .out).move j (.wait .woken))
  | wake_none {i : Nat} (here : s.threads[i]? = some (.push .signal)) (nobody : .wait .asleep ∉ s.threads) :
      Does s (.signal i none) (s.move i .out)
  | timeout {j : Nat} (there : s.threads[j]? = some (.wait .asleep)) : Does s (.timeout j) (s.move j (.wait .woken))

variable {s s' : Queue α} {l : Label α} {i j : Nat} {a b : At α}

/-! ### The lock -/

/-- `qlock` is held by the thread that is where the code holds it. -/
def Held (s : Queue α) : Prop := ∀ i, s.qlock = some i ↔ ∃ a, s.threads[i]? = some a ∧ a.holds = true

theorem set_here (here : s.threads[i]? = some a) (b : At α) : (s.threads.set i b)[i]? = some b :=
  List.getElem?_set_self (List.getElem?_eq_some_iff.mp here).1

theorem held_moved (ok : Held s) (here : s.threads[i]? = some a) (threads : s'.threads = s.threads.set i b)
    (self : s'.qlock = some i ↔ b.holds = true) (others : ∀ j, j ≠ i → (s'.qlock = some j ↔ s.qlock = some j)) : Held s' := by
  intro j
  rw [threads]
  by_cases same : j = i
  · subst same
    rw [set_here here,self]
    simp
  · rw [others j same,List.getElem?_set_ne (Ne.symm same)]
    exact ok j

theorem held_same (ok : Held s) (here : s.threads[i]? = some a) (threads : s'.threads = s.threads.set i b)
    (qlock : s'.qlock = s.qlock) (alike : b.holds = a.holds) : Held s' := by
  refine held_moved ok here threads ?_ (fun j _ => by rw [qlock])
  rw [qlock,ok i,here,alike]
  simp

theorem held_taken (ok : Held s) (here : s.threads[i]? = some a) (threads : s'.threads = s.threads.set i b)
    (free : s.qlock = none) (taken : s'.qlock = some i) (holds : b.holds = true) : Held s' := by
  refine held_moved ok here threads (by simp [taken,holds]) ?_
  intro j other
  simp [taken,free,Ne.symm other]

theorem held_left (ok : Held s) (here : s.threads[i]? = some a) (threads : s'.threads = s.threads.set i b)
    (holds : a.holds = true) (left : s'.qlock = none) (out : b.holds = false) : Held s' := by
  have mine : s.qlock = some i := (ok i).mpr ⟨a,here,holds⟩
  refine held_moved ok here threads (by simp [left,out]) ?_
  intro j other
  simp [left,mine,Ne.symm other]

theorem held_step (ok : Held s) (does : Does s l s') : Held s' := by
  cases does with
  | push here => exact held_same ok here rfl rfl rfl
  | pop here => exact held_same ok here rfl rfl rfl
  | lock here enters free =>
    rcases enters with ⟨val,_,rfl⟩ | ⟨_,rfl⟩
    · exact held_taken ok here rfl free rfl rfl
    · exact held_taken ok here rfl free rfl rfl
  | unlock here leaves =>
    rcases leaves with ⟨rfl,rfl⟩ | ⟨rfl,rfl⟩
    · exact held_left ok here rfl rfl rfl rfl
    · exact held_left ok here rfl rfl rfl rfl
  | list_push here => exact held_same ok here rfl rfl rfl
  | sleep here empty => exact held_left ok here rfl rfl rfl rfl
  | ready here some => exact held_same ok here rfl rfl rfl
  | list_lpop here => exact held_same ok here rfl rfl rfl
  | @wake i j here there =>
    have first : Held (s.move i .out) := held_same ok here rfl rfl rfl
    have other : j ≠ i := by
      rintro rfl
      rw [here] at there
      cases there
    have asleep : (s.move i .out).threads[j]? = some (.wait .asleep) := (List.getElem?_set_ne (Ne.symm other)).trans there
    exact held_same first asleep rfl rfl rfl
  | wake_none here nobody => exact held_same ok here rfl rfl rfl
  | timeout there => exact held_same ok there rfl rfl rfl

/-! ### The values -/

def Op.pushed : Op α → Option α
  | .push val => some val
  | .lpop _ => none

def Op.taken : Op α → Option α
  | .push _ => none
  | .lpop res => res

/-- What was pushed has been taken, in that order, or is in the queue. -/
def Ordered (s : Queue α) : Prop := s.ops.filterMap Op.pushed = s.ops.filterMap Op.taken ++ s.vals

theorem ordered_step (ok : Ordered s) (does : Does s l s') : Ordered s' := by
  cases does with
  | @list_push i val here =>
    rw [Ordered] at ok ⊢
    simp only [List.filterMap_append,ok,List.append_assoc]
    rfl
  | list_lpop here =>
    rw [Ordered] at ok ⊢
    simp only [List.filterMap_append,ok,List.append_assoc]
    cases s.vals <;> simp [Op.pushed,Op.taken,List.filterMap_cons]
  | _ => exact ok

/-! ### Sleepers -/

/-- A thread that has still to signal, or a reader that is up. -/
def At.helps : At α → Bool
  | .push .unlock => true
  | .push .signal => true
  | .wait .asleep => false
  | .wait _ => true
  | .list_lpop => true
  | _ => false

/-- While a reader sleeps, there is such a thread for every value. -/
def Covered (s : Queue α) : Prop := .wait .asleep ∈ s.threads → s.vals.length ≤ s.threads.countP At.helps

theorem asleep_before (new : b ≠ .wait .asleep) (asleep : .wait .asleep ∈ s.threads.set i b) : .wait .asleep ∈ s.threads := by
  rcases ListSets.of_mem_set asleep with same | ⟨j,_,found⟩
  · exact absurd same.symm new
  · exact List.mem_of_getElem? found

theorem covered_moved (ok : Covered s) (here : s.threads[i]? = some a) (threads : s'.threads = s.threads.set i b)
    (new : b ≠ .wait .asleep) (less : s'.vals.length + a.helps.toNat ≤ s.vals.length + b.helps.toNat) : Covered s' := by
  intro asleep
  rw [threads] at asleep ⊢
  have before := ok (asleep_before new asleep)
  have counted := ListSets.countP_set At.helps here b
  omega

theorem covered_step (ok : Covered s) (does : Does s l s') (short : s.vals.length < 2^32) : Covered s' := by
  cases does with
  | push here => exact covered_moved ok here rfl (by simp) (by simp [At.helps])
  | pop here => exact covered_moved ok here rfl (by simp) (by simp [At.helps])
  | lock here enters free =>
    rcases enters with ⟨val,rfl,rfl⟩ | ⟨rfl | rfl,rfl⟩
    · exact covered_moved ok here rfl (by simp) (by simp [At.helps])
    · exact covered_moved ok here rfl (by simp) (by simp [At.helps])
    · exact covered_moved ok here rfl (by simp) (by simp [At.helps])
  | unlock here leaves =>
    rcases leaves with ⟨rfl,rfl⟩ | ⟨rfl,rfl⟩
    · exact covered_moved ok here rfl (by simp) (by simp [At.helps])
    · exact covered_moved ok here rfl (by simp) (by simp [At.helps])
  | list_push here => exact covered_moved ok here rfl (by simp) (by simp [At.helps])
  | sleep here empty =>
    -- The test was under `qlock`, so nothing is in the queue.
    intro _
    rw [u32_of_lt short] at empty
    exact empty ▸ Nat.zero_le _
  | ready here some => exact covered_moved ok here rfl (by simp) (by simp [At.helps])
  | list_lpop here =>
    by_cases empty : s.vals = []
    · intro _
      simp [empty]
    · have positive := List.length_pos_iff.mpr empty
      exact covered_moved ok here rfl (by simp) (by simp [At.helps]; omega)
  | @wake i j here there =>
    intro _
    have other : j ≠ i := by
      rintro rfl
      rw [here] at there
      cases there
    have asleep : (s.threads.set i .out)[j]? = some (.wait .asleep) := (List.getElem?_set_ne (Ne.symm other)).trans there
    have before := ok (List.mem_of_getElem? there)
    have out := ListSets.countP_set At.helps here .out
    have up := ListSets.countP_set At.helps asleep (.wait .woken)
    simp only [At.helps,Bool.toNat_true,Bool.toNat_false] at out up
    show s.vals.length ≤ ((s.threads.set i .out).set j (.wait .woken)).countP At.helps
    omega
  | wake_none here nobody => exact fun asleep => absurd (asleep_before (by simp) asleep) nobody
  | timeout there => exact covered_moved ok there rfl (by simp) (by simp [At.helps])

structure Sound (s : Queue α) : Prop where
  held : Held s
  ordered : Ordered s
  covered : Covered s

theorem new_sound (n : Nat) : Sound (queue n : Queue α) where
  held := by
    intro i
    constructor
    · intro taken
      cases taken
    · rintro ⟨a,here,holds⟩
      rw [List.eq_of_mem_replicate (List.mem_of_getElem? here)] at holds
      cases holds
  ordered := rfl
  covered := fun _ => Nat.zero_le _

/-! ### One reader -/

/-- The thread has called `atm_queue_pop`. -/
def At.reads : At α → Bool
  | .wait _ => true
  | .list_lpop => true
  | _ => false

/-- It has seen a value. -/
def At.ready : At α → Bool
  | .wait .unlock => true
  | .list_lpop => true
  | _ => false

/-- Only the thread `r` reads, and what it has seen is still there. -/
structure Lone (r : Nat) (s : Queue α) : Prop where
  alone : ∀ i a, s.threads[i]? = some a → a.reads = true → i = r
  there : ∀ a ∈ s.threads, a.ready = true → s.vals ≠ []

variable {r : Nat}

theorem lone_moved (ok : Lone r s) (threads : s'.threads = s.threads.set i b) (reads : b.reads = true → i = r)
    (there : b.ready = true → s'.vals ≠ []) (kept : s.vals ≠ [] → s'.vals ≠ []) : Lone r s' where
  alone := by
    intro j c found reading
    rw [threads,List.getElem?_set] at found
    split_ifs at found with here
    · cases found
      exact here ▸ reads reading
    · exact ok.alone j c found reading
  there := by
    intro c member ready
    rw [threads] at member
    rcases ListSets.of_mem_set member with rfl | ⟨j,_,old⟩
    · exact there ready
    · exact kept (ok.there c (List.mem_of_getElem? old) ready)

theorem lone_step (ok : Lone r s) (does : Does s l s') (one : ∀ i, l = .pop i → i = r) : Lone r s' := by
  cases does with
  | push here => exact lone_moved ok rfl (by simp [At.reads]) (by simp [At.ready]) id
  | @pop i here => exact lone_moved ok rfl (fun _ => one i rfl) (by simp [At.ready]) id
  | @lock i a b here enters free =>
    rcases enters with ⟨val,rfl,rfl⟩ | ⟨waits,rfl⟩
    · exact lone_moved ok rfl (by simp [At.reads]) (by simp [At.ready]) id
    · refine lone_moved ok rfl (fun _ => ok.alone i a here ?_) (by simp [At.ready]) id
      rcases waits with rfl | rfl
      · rfl
      · rfl
  | @unlock i a b here leaves =>
    rcases leaves with ⟨rfl,rfl⟩ | ⟨rfl,rfl⟩
    · exact lone_moved ok rfl (by simp [At.reads]) (by simp [At.ready]) id
    · exact lone_moved ok rfl (fun _ => ok.alone i _ here rfl) (fun _ => ok.there _ (List.mem_of_getElem? here) rfl) id
  | list_push here => exact lone_moved ok rfl (by simp [At.reads]) (by simp [At.ready]) (by simp)
  | @sleep i here empty => exact lone_moved ok rfl (fun _ => ok.alone i _ here rfl) (by simp [At.ready]) id
  | @ready i here some =>
    refine lone_moved ok rfl (fun _ => ok.alone i _ here rfl) ?_ id
    rintro _ empty
    rw [move_vals] at empty
    rw [empty] at some
    exact some rfl
  | @list_lpop i here =>
    -- No other thread has seen a value.
    have mine := ok.alone i _ here rfl
    have others : ∀ c ∈ s.threads.set i .out, ¬ c.ready = true := by
      intro c member ready
      rcases ListSets.of_mem_set member with rfl | ⟨j,other,old⟩
      · cases ready
      · have reads : c.reads = true := by
          cases c with
          | wait pc => rfl
          | list_lpop => rfl
          | _ => cases ready
        exact other ((ok.alone j c old reads).trans mine.symm)
    have moved : Lone r (s.move i .out) := lone_moved ok rfl (by simp [At.reads]) (by simp [At.ready]) id
    exact ⟨moved.alone,fun c member ready => absurd ready (others c member)⟩
  | @wake i j here there =>
    have first : Lone r (s.move i .out) := lone_moved ok rfl (by simp [At.reads]) (by simp [At.ready]) id
    exact lone_moved first rfl (fun _ => ok.alone j _ there rfl) (by simp [At.ready]) id
  | wake_none here nobody => exact lone_moved ok rfl (by simp [At.reads]) (by simp [At.ready]) id
  | @timeout j there => exact lone_moved ok rfl (fun _ => ok.alone j _ there rfl) (by simp [At.ready]) id

/-- The queue whose `atm_queue_pop` waits for a value and takes it in one step. -/
def at_once (q : List Nat) : Op Nat → Except Stop (List Nat)
  | .push val => .ok (q ++ [val])
  | .lpop res => do
    let (val,rest) ← Tasks.atm_queue_pop_blocking q
    if val = res then return rest else throw .disabled

theorem ops_step {s s' : Queue Nat} {l : Label Nat} (ok : Lone r s) (ran : run at_once [] s.ops = .ok s.vals)
    (does : Does s l s') :
    run at_once [] s'.ops = .ok s'.vals := by
  cases does with
  | list_push here => exact (run_snoc_ok at_once).mpr ⟨s.vals,ran,rfl⟩
  | list_lpop here =>
    have some := ok.there _ (List.mem_of_getElem? here) rfl
    refine (run_snoc_ok at_once).mpr ⟨s.vals,ran,?_⟩
    simp only [at_once,Tasks.atm_queue_pop_blocking,if_neg some,ok_bind,↓reduceIte,pure_eq_ok]
  | _ => exact ran

theorem at_once_some {q q' : List Nat} {res : Option Nat} (done : at_once q (.lpop res) = .ok q') : ∃ val, res = some val := by
  cases q with
  | nil => cases done
  | cons val rest =>
    rw [at_once,Tasks.atm_queue_pop_blocking,if_neg (List.cons_ne_nil _ _),ok_bind] at done
    dsimp only at done
    split at done
    · rename_i same
      exact ⟨val,same.symm⟩
    · cases done

theorem at_once_served {q : List Nat} {ops : List (Op Nat)} {res : Option Nat} (ran : run at_once [] ops = .ok q)
    (member : .lpop res ∈ ops) : ∃ val, res = some val := by
  obtain ⟨before,after,rfl⟩ := List.append_of_mem member
  rw [run_append,bind_eq_ok] at ran
  obtain ⟨t,_,later⟩ := ran
  rw [run_cons,bind_eq_ok] at later
  obtain ⟨u,first,_⟩ := later
  exact at_once_some first

end AtmCache.QueueSpec
