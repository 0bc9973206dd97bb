import AtmCache.ListModel
import AtmCache.QueueSpec

/-!
# The blocking queue

`atm_queue.c` for a queue of type `ATM_QUEUE_BLOCK`, called by any number of threads, with `vals` as a list of
`atm_list.c` in memory. A step is a call of the thread library, the test of the loop, or one statement of
`atm_list_push` or `atm_list_lpop`. A thread in `pthread_cond_timedwait` sleeps without `qlock` until it is signalled
or its time is over, and takes `qlock` again before it goes on. `atm_list_lpop` comes after `qlock` was let go, so
that its statements can lie between those of other list operations.
-/
namespace AtmCache.Queues
open Heap AtmCache.Lists Runs
open Tasks (Stop)
open QueueSpec (Label Op WaitAt)

variable {α : Type}

/-- The memory of the list; its values have no functions. -/
abbrev Store (α : Type) := Mem α Unit

/-- The address of `queue->vals`. -/
def vals : Addr := 0

def the_list (m : Store α) : Except Fault (Lst α Unit) := deref m.lists (some vals)

def on_list (m : Store α) (f : Lst α Unit → Lst α Unit) : Except Fault (Store α) := do
  return { m with lists := put m.lists vals (f (← the_list m)) }

def list_size (m : Store α) : Except Fault Nat := do return (← the_list m).size

/-! ### List operations by statements -/

/-- Where a thread is in `atm_list_push`, with its entry. -/
inductive PushStep where
  | new
  | test (entry : Addr)
  | head (entry : Addr)
  | first (entry : Addr)
  | next (entry : Addr)
  | prev (entry : Addr)
  | tail (entry : Addr)
  | size
  deriving DecidableEq, Repr

/-- Where a thread is in `atm_list_lpop`, with the entry that it takes out. -/
inductive LpopStep where
  | head
  | next (res : Addr)
  | prev (res : Addr)
  | tail (res : Addr)
  | size (res : Addr)
  | isol (res : Addr)
  | val (res : Addr)
  deriving DecidableEq, Repr

/-- A statement of `atm_list_push` and the next one. The entry is made before `list->tail` is tested. -/
def push_step (m : Store α) (v : α) : PushStep → Except Fault (Store α × Option PushStep)
  | .new => do
    let (m,entry) := atm_list_entry_new m (some v)
    let m ← update_entry m (some entry) (fun e => { e with list := some vals })
    return (m,some (if (← the_list m).tail = none then .test entry else .next entry))
  | .test entry => do
    if (← the_list m).head = none then return (m,some (.head entry)) else throw (.exit "atm_list_push: list currapt")
  | .head entry => do return (← on_list m (fun lst => { lst with head := some entry }),some (.first entry))
  | .first entry => do return (← on_list m (fun lst => { lst with tail := some entry }),some .size)
  | .next entry => do
    return (← update_entry m (← the_list m).tail (fun e => { e with next := some entry }),some (.prev entry))
  | .prev entry => do
    let lst ← the_list m
    return (← update_entry m (some entry) (fun e => { e with prev := lst.tail }),some (.tail entry))
  | .tail entry => do return (← on_list m (fun lst => { lst with tail := some entry }),some .size)
  | .size => do return (← on_list m (fun lst => { lst with size := u32 (lst.size + 1) }),none)

/-- What comes after a statement of `atm_list_lpop`. -/
inductive Then (α : Type) where
  | goto (pc : LpopStep)
  | res (v : Option α)
  deriving DecidableEq, Repr

def lpop_step (m : Store α) : LpopStep → Except Fault (Store α × Then α)
  | .head => do
    match (← the_list m).head with
    | none => return (m,.res none)
    | some res => return (m,.goto (.next res))
  | .next res => do
    let e ← deref m.entries (some res)
    return (← on_list m (fun lst => { lst with head := e.next }),.goto (.prev res))
  | .prev res => do
    let lst ← the_list m
    let m ← (if lst.head ≠ none then update_entry m lst.head (fun e => { e with prev := none }) else .ok m)
    return (m,.goto (.tail res))
  | .tail res => do
    return (← on_list m (fun lst => if lst.tail = some res then { lst with tail := none } else lst),.goto (.size res))
  | .size res => do return (← on_list m (fun lst => { lst with size := sub32 lst.size 1 }),.goto (.isol res))
  | .isol res => do return (← atm_list_entry_isol m (some res),.goto (.val res))
  | .val res => do
    let (m,v) ← take_value m (some res)
    return (m,.res v)

/-! ### The queue -/

/-- Where a thread is in `atm_queue_push`. -/
inductive PushAt (α : Type) where
  | lock (val : α)
  | unlock
  | signal
  deriving DecidableEq, Repr

/-- Where a thread is; a push is in its list operation under `qlock`, a pop after `qlock` was left. -/
inductive At (α : Type) where
  | out
  | push (pc : PushAt α)
  | list_push (val : α) (pc : PushStep)
  | wait (pc : WaitAt)
  | list_lpop (pc : LpopStep)
  deriving DecidableEq, Repr

/-- `atm_queue_t` with the thread that holds `qlock`, where each thread is, and the list operations that
    have returned. -/
structure Queue (α : Type) where
  mem : Store α
  qlock : Option Nat
  threads : List (At α)
  ops : List (Op α)

/-- The queue and `n` threads that use it. -/
def atm_queue_new (v_type : Option (T α Unit)) (f_type n : Nat) : Queue α :=
  ⟨(atm_list_new ⟨[],[],[]⟩ v_type f_type).1,none,List.replicate n .out,[]⟩

def atm_queue_size (s : Queue α) : Except Fault Nat := list_size s.mem

def Queue.move (s : Queue α) (i : Nat) (a : At α) : Queue α := { s with threads := s.threads.set i a }

def pthread_mutex_lock (s : Queue α) (i : Nat) (next : At α) : Except Stop (Queue α) :=
  if s.qlock = none then .ok { s.move i next with qlock := some i } else .error .disabled

def pthread_mutex_unlock (s : Queue α) (i : Nat) (next : At α) : Queue α := { s.move i next with qlock := none }

def atm_queue_push (s : Queue α) (i : Nat) : PushAt α → Except Stop (Queue α)
  | .lock val => pthread_mutex_lock s i (.list_push val .new)
  | .unlock => .ok (pthread_mutex_unlock s i (.push .signal))
  | .signal => .error .disabled

def atm_queue_nonempty_wait (s : Queue α) (i : Nat) : WaitAt → Except Stop (Queue α)
  | .lock => pthread_mutex_lock s i (.wait .test)
  | .test => do
    if (← (atm_queue_size s).mapError .fault) = 0 then return pthread_mutex_unlock s i (.wait .asleep)
    else return s.move i (.wait .unlock)
  | .asleep => .error .disabled
  | .woken => pthread_mutex_lock s i (.wait .test)
  | .unlock => .ok (pthread_mutex_unlock s i (.list_lpop .head))

def after_push (s : Queue α) (i : Nat) (val : α) (m : Store α) : Option PushStep → Queue α
  | some pc => { s.move i (.list_push val pc) with mem := m }
  | none => { s.move i (.push .unlock) with mem := m, ops := s.ops ++ [.push val] }

def atm_list_push (s : Queue α) (i : Nat) (val : α) (pc : PushStep) : Except Stop (Queue α) := do
  let (m,next) ← (push_step s.mem val pc).mapError .fault
  return after_push s i val m next

def after_lpop (s : Queue α) (i : Nat) (m : Store α) : Then α → Queue α
  | .goto pc => { s.move i (.list_lpop pc) with mem := m }
  | .res v => { s.move i .out with mem := m, ops := s.ops ++ [.lpop v] }

def atm_list_lpop (s : Queue α) (i : Nat) (pc : LpopStep) : Except Stop (Queue α) := do
  let (m,next) ← (lpop_step s.mem pc).mapError .fault
  return after_lpop s i m next

def At.sleeps : At α → Bool
  | .wait .asleep => true
  | _ => false

/-- At least one of the threads that sleep is woken, if there are any. -/
def pthread_cond_signal (s : Queue α) (i : Nat) : Option Nat → Except Stop (Queue α)
  | some j =>
    match s.threads[j]? with
    | some (.wait .asleep) => .ok ((s.move i .out).move j (.wait .woken))
    | _ => .error .disabled
  | none => if s.threads.any At.sleeps then .error .disabled else .ok (s.move i .out)

/-- A thread calls `atm_queue_push` or `atm_queue_pop`, goes on, wakes another thread or none by
    `pthread_cond_signal`, or is no longer asleep because its time is over. -/
def step (s : Queue α) : Label α → Except Stop (Queue α)
  | .push i val =>
    match s.threads[i]? with
    | some .out => .ok (s.move i (.push (.lock val)))
    | _ => .error .disabled
  | .pop i =>
    match s.threads[i]? with
    | some .out => .ok (s.move i (.wait .lock))
    | _ => .error .disabled
  | .go i =>
    match s.threads[i]? with
    | some (.push pc) => atm_queue_push s i pc
    | some (.list_push val pc) => atm_list_push s i val pc
    | some (.wait pc) => atm_queue_nonempty_wait s i pc
    | some (.list_lpop pc) => atm_list_lpop s i pc
    | _ => .error .disabled
  | .signal i j =>
    match s.threads[i]? with
    | some (.push .signal) => pthread_cond_signal s i j
    | _ => .error .disabled
  | .timeout j =>
    match s.threads[j]? with
    | some (.wait .asleep) => .ok (s.move j (.wait .woken))
    | _ => .error .disabled

/-- The steps with which calls go on, while no time is over. -/
def inner : Label α → Bool
  | .go _ => true
  | .signal _ _ => true
  | _ => false

/-! ### List operations that do not overlap -/

/-- The thread has begun a list operation and has not left it. -/
def At.inside : At α → Bool
  | .list_push _ .new => false
  | .list_push _ _ => true
  | .list_lpop .head => false
  | .list_lpop _ => true
  | _ => false

def At.lists : At α → Bool
  | .list_push _ _ => true
  | .list_lpop _ => true
  | _ => false

/-- A thread takes a step of a list operation only while no other one is inside of one. -/
def Alone (s : Queue α) : Label α → Prop
  | .go i => (s.threads[i]?).any At.lists = true → ∀ j < s.threads.length, j ≠ i → (s.threads[j]?).any At.inside = false
  | _ => True

/-- The counter of the list has 32 bits. -/
def Short (s : Queue α) : Prop :=
  (s.ops.filterMap Op.pushed).length < (s.ops.filterMap Op.taken).length + 2^32

instance (s : Queue α) (l : Label α) : Decidable (Alone s l) :=
  match l with
  | .go _ => inferInstanceAs (Decidable (_ → _))
  | .push _ _ | .pop _ | .signal _ _ | .timeout _ => .isTrue trivial

instance (s : Queue α) : Decidable (Short s) := inferInstanceAs (Decidable (_ < _))

/-! ### What a step does -/

/-- Taking `qlock`. -/
def Enters (a b : At α) : Prop :=
  (∃ val, a = .push (.lock val) ∧ b = .list_push val .new) ∨ ((a = .wait .lock ∨ a = .wait .woken) ∧ b = .wait .test)

/-- Leaving `qlock` for good. -/
def Leaves (a b : At α) : Prop :=
  (a = .push .unlock ∧ b = .push .signal) ∨ (a = .wait .unlock ∧ b = .list_lpop .head)

inductive Does (s : Queue α) : Label α → Queue α → Prop where
  | push {i : Nat} {val : α} (here : s.threads[i]? = some .out) : Does s (.push i val) (s.move i (.push (.lock val)))
  | pop {i : Nat} (here : s.threads[i]? = some .out) : Does s (.pop i) (s.move i (.wait .lock))
  | lock {i : Nat} {a b : At α} (here : s.threads[i]? = some a) (enters : Enters a b) (free : s.qlock = none) :
      Does s (.go i) { s.move i b with qlock := some i }
  | unlock {i : Nat} {a b : At α} (here : s.threads[i]? = some a) (leaves : Leaves a b) :
      Does s (.go i) { s.move i b with qlock := none }
  | list_push {i : Nat} {val : α} {pc : PushStep} {m : Store α} {next : Option PushStep}
      (here : s.threads[i]? = some (.list_push val pc)) (did : push_step s.mem val pc = .ok (m,next)) :
      Does s (.go i) (after_push s i val m next)
  | sleep {i : Nat} (here : s.threads[i]? = some (.wait .test)) (empty : atm_queue_size s = .ok 0) :
      Does s (.go i) { s.move i (.wait .asleep) with qlock := none }
  | ready {i n : Nat} (here : s.threads[i]? = some (.wait .test)) (size : atm_queue_size s = .ok n) (some : n ≠ 0) :
      Does s (.go i) (s.move i (.wait .unlock))
  | list_lpop {i : Nat} {pc : LpopStep} {m : Store α} {next : Then α} (here : s.threads[i]? = some (.list_lpop pc))
      (did : lpop_step s.mem pc = .ok (m,next)) : Does s (.go i) (after_lpop s i m next)
  | wake {i j : Nat} (here : s.threads[i]? = some (.push .signal)) (there : s.threads[j]? = some (.wait .asleep)) :
      Does s (.signal i (some j)) ((s.move i .out).move j (.wait .woken))
  | wake_none {i : Nat} (here : s.threads[i]? = some (.push .signal)) (nobody : .wait .asleep ∉ s.threads) :
      Does s (.signal i none) (s.move i .out)
  | timeout {j : Nat} (there : s.threads[j]? = some (.wait .asleep)) : Does s (.timeout j) (s.move j (.wait .woken))

variable {s s' : Queue α} {l : Label α}

theorem mapError_ok {β : Type} {c : Except Fault β} {b : β} (done : c.mapError Stop.fault = .ok b) : c = .ok b := by
  cases c with
  | error f => cases done
  | ok x =>
    cases done
    rfl

theorem lock_does {i : Nat} {a b : At α} (here : s.threads[i]? = some a) (enters : Enters a b)
    (done : pthread_mutex_lock s i b = .ok s') : Does s (.go i) s' := by
  rw [pthread_mutex_lock] at done
  split at done
  · rename_i free
    cases done
    exact .lock here enters free
  · cases done

theorem not_sleeps (nobody : ¬ s.threads.any At.sleeps = true) : .wait .asleep ∉ s.threads := by
  intro asleep
  exact nobody (List.any_eq_true.mpr ⟨_,asleep,rfl⟩)

theorem wait_does {i : Nat} {pc : WaitAt} (here : s.threads[i]? = some (.wait pc))
    (done : atm_queue_nonempty_wait s i pc = .ok s') : Does s (.go i) s' := by
  cases pc with
  | lock => exact lock_does here (.inr ⟨.inl rfl,rfl⟩) done
  | test =>
    obtain ⟨n,size,rest⟩ := bind_eq_ok.mp done
    have size := mapError_ok size
    split at rest
    · rename_i empty
      cases rest
      exact .sleep here (by rw [size,empty])
    · rename_i some
      cases rest
      exact .ready here size some
  | asleep => cases done
  | woken => exact lock_does here (.inr ⟨.inr rfl,rfl⟩) done
  | unlock =>
    cases done
    exact .unlock here (.inr ⟨rfl,rfl⟩)

theorem go_does {i : Nat} (done : step s (.go i) = .ok s') : Does s (.go i) s' := by
  rw [step] at done
  split at done
  · rename_i pc here
    cases pc with
    | lock val => exact lock_does here (.inl ⟨val,rfl,rfl⟩) done
    | unlock =>
      cases done
      exact .unlock here (.inl ⟨rfl,rfl⟩)
    | signal => cases done
  · rename_i val pc here
    obtain ⟨⟨m,next⟩,did,last⟩ := bind_eq_ok.mp done
    cases last
    exact .list_push here (mapError_ok did)
  · rename_i pc here
    exact wait_does here done
  · rename_i pc here
    obtain ⟨⟨m,next⟩,did,last⟩ := bind_eq_ok.mp done
    cases last
    exact .list_lpop here (mapError_ok did)
  · cases done

theorem step_does (done : step s l = .ok s') : Does s l s' := by
  cases l with
  | push i val =>
    rw [step] at done
    split at done
    · rename_i here
      cases done
      exact .push here
    · cases done
  | pop i =>
    rw [step] at done
    split at done
    · rename_i here
      cases done
      exact .pop here
    · cases done
  | go i => exact go_does done
  | signal i j =>
    rw [step] at done
    split at done
    · rename_i here
      cases j with
      | some j =>
        rw [pthread_cond_signal] at done
        split at done
        · rename_i there
          cases done
          exact .wake here there
        · cases done
      | none =>
        rw [pthread_cond_signal] at done
        split at done
        · cases done
        · rename_i nobody
          cases done
          exact .wake_none here (not_sleeps nobody)
    · cases done
  | timeout j =>
    rw [step] at done
    split at done
    · rename_i there
      cases done
      exact .timeout there
    · cases done

end AtmCache.Queues
