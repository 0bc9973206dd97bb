import AtmCache.ArrWords
import AtmCache.SlotModel

/-!
# What is read through the arrays of pointers

`atm_task_add_worker` stores the address of a worker and `atm_task_get_active_worker` follows the slot to it
(`Stored`). The loops over `workers` take the slot itself for the worker: they are right about no
worker, and `atm_task_load` does not return (`stored_seen_iff`). `bg_routine` holds the first
bytes of the functions that were registered, and `atm_ctx_callback_loop` calls the slots.
-/
namespace AtmCache.Slots
open CStrings Heap Runs Slices Arrays
open Tasks (Stop)

variable {m m' : Mem} {w : Ptr} {b : Addr}

/-! ### Numbers -/

theorem uint_of_bytes (low : Ptr → Nat) (n : Nat) : uint_of_cells low (bytes_of_uint n) = some (u32 n) := by
  simp only [bytes_of_uint,uint_of_cells,UInt8.toNat_ofNat',Option.some.injEq,u32]
  omega

theorem load_uint_of_load {p : Ptr} {n : Nat} (done : load m p 4 = .ok (bytes_of_uint n)) : load_uint m p = .ok (u32 n) := by
  rw [load_uint,done,ok_bind,uint_of_bytes]
  rfl

theorem cells_of_ptr_inj {p q : Ptr} (same : cells_of_ptr p = cells_of_ptr q) : p = q :=
  Option.some.inj (by rw [← ptr_of_cells_of_ptr p,same,ptr_of_cells_of_ptr])

/-! ### Structures in memory -/

def list_cells (size : Nat) : List Cell := zeros 32 ++ bytes_of_uint size ++ zeros 4

def queue_cells (vals : Ptr) : List Cell := bytes_of_uint ATM_QUEUE_BLOCK ++ zeros 4 ++ cells_of_ptr vals ++ zeros 88

def worker_cells (q tid : Ptr) : List Cell :=
  cells_of_ptr q ++ cells_of_ptr tid ++ (bytes_of_uint ATM_TASK_WORK_ACTIVE ++ zeros 4)

theorem list_length (size : Nat) : (list_cells size).length = 40 := rfl

theorem queue_length (vals : Ptr) : (queue_cells vals).length = 104 := by
  rw [queue_cells,List.length_append,List.length_append,ptr_cells_length]
  rfl

theorem worker_length (q tid : Ptr) : (worker_cells q tid).length = 24 := by
  rw [worker_cells,List.length_append,List.length_append,ptr_cells_length,ptr_cells_length]
  rfl

/-- What `tid` is: 0, or what `pthread_self` has returned. -/
def IsThread (tid : Ptr) : Prop := tid = .null ∨ ∃ k, tid = .handle k

def IsList (m : Mem) (l : Ptr) : Prop := ∃ b size, l = .block b 0 ∧ get m.heap b = some (list_cells size)

def IsQueue (m : Mem) (q : Ptr) : Prop := ∃ b l, q = .block b 0 ∧ get m.heap b = some (queue_cells l) ∧ IsList m l

/-- A worker that is ACTIVE, with its queue. -/
def IsWorker (m : Mem) (w : Ptr) : Prop :=
  ∃ b q tid, w = .block b 0 ∧ get m.heap b = some (worker_cells q tid) ∧ IsThread tid ∧ IsQueue m q

theorem load_list {size : Nat} (found : get m.heap b = some (list_cells size)) :
    load_uint m (list_size (.block b 0)) = .ok (u32 size) := load_uint_of_load (load_block found rfl rfl)

theorem load_queue_type {l : Ptr} (found : get m.heap b = some (queue_cells l)) :
    load_uint m (.block b 0) = .ok ATM_QUEUE_BLOCK := by
  have cut : queue_cells l = [] ++ bytes_of_uint ATM_QUEUE_BLOCK ++ (zeros 4 ++ cells_of_ptr l ++ zeros 88) := by
    simp only [queue_cells,List.append_assoc,List.nil_append]
  rw [cut] at found
  exact load_uint_of_load (load_block found rfl rfl)

theorem load_queue_vals {l : Ptr} (found : get m.heap b = some (queue_cells l)) :
    load_ptr m (queue_vals (.block b 0)) = .ok l := load_ptr_of_load (load_block found rfl (ptr_cells_length l))

theorem load_blking_tasks {q tid : Ptr} (found : get m.heap b = some (worker_cells q tid)) :
    load_ptr m (.block b 0) = .ok q := by
  have cut : worker_cells q tid = [] ++ cells_of_ptr q ++ (cells_of_ptr tid ++ (bytes_of_uint ATM_TASK_WORK_ACTIVE ++ zeros 4)) := by
    simp only [worker_cells,List.append_assoc,List.nil_append]
  rw [cut] at found
  exact load_ptr_of_load (load_block found rfl (ptr_cells_length q))

theorem load_tid {q tid : Ptr} (found : get m.heap b = some (worker_cells q tid)) :
    load_ptr m (worker_tid (.block b 0)) = .ok tid :=
  load_ptr_of_load (load_block found (ptr_cells_length q) (ptr_cells_length tid))

theorem load_status {q tid : Ptr} (found : get m.heap b = some (worker_cells q tid)) :
    load_uint m (worker_status (.block b 0)) = .ok ATM_TASK_WORK_ACTIVE := by
  have cut : worker_cells q tid = cells_of_ptr q ++ cells_of_ptr tid ++ bytes_of_uint ATM_TASK_WORK_ACTIVE ++ zeros 4 :=
    (List.append_assoc ..).symm
  rw [cut] at found
  refine load_uint_of_load (load_block found ?_ rfl)
  rw [List.length_append,ptr_cells_length,ptr_cells_length]
  rfl

/-! ### Writes that keep the structures -/

/-- Workers keep their queues, queues their lists; what else is in them may change. -/
structure Keeps (m m' : Mem) : Prop where
  lists : ∀ b size, get m.heap b = some (list_cells size) → ∃ size', get m'.heap b = some (list_cells size')
  queues : ∀ b l, get m.heap b = some (queue_cells l) → get m'.heap b = some (queue_cells l)
  workers : ∀ b q tid, IsThread tid → get m.heap b = some (worker_cells q tid) →
    ∃ tid', IsThread tid' ∧ get m'.heap b = some (worker_cells q tid')

theorem Keeps.trans {m'' : Mem} (first : Keeps m m') (later : Keeps m' m'') : Keeps m m'' where
  lists := by
    intro b size found
    obtain ⟨size',found⟩ := first.lists b size found
    exact later.lists b size' found
  queues := fun b l found => later.queues b l (first.queues b l found)
  workers := by
    intro b q tid thread found
    obtain ⟨tid',thread,found⟩ := first.workers b q tid thread found
    exact later.workers b q tid' thread found

theorem IsWorker.keep (worker : IsWorker m w) (keeps : Keeps m m') : IsWorker m' w := by
  obtain ⟨b,_,tid,rfl,found,thread,bq,_,rfl,queue,bl,size,rfl,list⟩ := worker
  obtain ⟨tid',thread,found⟩ := keeps.workers b _ tid thread found
  obtain ⟨size',list⟩ := keeps.lists bl size list
  exact ⟨b,_,tid',rfl,found,thread,bq,_,rfl,keeps.queues bq _ queue,bl,size',rfl,list⟩

/-- The small blocks are left as they are. -/
theorem keeps_of_same (same : ∀ b cells, get m.heap b = some cells → cells.length ≠ pointer_size → cells.length < 256 →
    get m'.heap b = some cells) : Keeps m m' where
  lists := fun b size found => ⟨size,same b _ found (by rw [list_length]; decide) (by rw [list_length]; decide)⟩
  queues := fun b l found => same b _ found (by rw [queue_length]; decide) (by rw [queue_length]; decide)
  workers := fun b q tid thread found =>
    ⟨tid,thread,same b _ found (by rw [worker_length]; decide) (by rw [worker_length]; decide)⟩

/-- Blocks of different lengths are different blocks. -/
theorem other_block {a : Addr} {x y : List Cell} (there : get m.heap a = some x) (found : get m.heap b = some y)
    (lengths : x.length ≠ y.length) : a ≠ b := by
  rintro rfl
  rw [there] at found
  exact lengths (congrArg List.length (Option.some.inj found))

theorem keeps_put_size {size : Nat} (found : get m.heap b = some (list_cells size)) (size' : Nat) :
    Keeps m { m with heap := put m.heap b (list_cells size') } where
  lists := by
    intro a old there
    by_cases here : a = b
    · rw [here]
      exact ⟨size',get_put_self found _⟩
    · exact ⟨old,(get_put_other _ here _).trans there⟩
  queues := by
    intro a l there
    have other := other_block there found (by rw [queue_length,list_length]; decide)
    exact (get_put_other _ other _).trans there
  workers := by
    intro a q tid thread there
    have other := other_block there found (by rw [worker_length,list_length]; decide)
    exact ⟨tid,thread,(get_put_other _ other _).trans there⟩

theorem keeps_put_tid {q tid tid' : Ptr} (found : get m.heap b = some (worker_cells q tid)) (thread' : IsThread tid') :
    Keeps m { m with heap := put m.heap b (worker_cells q tid') } where
  lists := by
    intro a size there
    have other := other_block there found (by rw [list_length,worker_length]; decide)
    exact ⟨size,(get_put_other _ other _).trans there⟩
  queues := by
    intro a l there
    have other := other_block there found (by rw [queue_length,worker_length]; decide)
    exact (get_put_other _ other _).trans there
  workers := by
    intro a q' old thread there
    by_cases here : a = b
    · rw [here] at there ⊢
      rw [found] at there
      have same := Option.some.inj there
      simp only [worker_cells,List.append_assoc] at same
      have first := (List.append_inj same (by rw [ptr_cells_length,ptr_cells_length])).1
      rw [← cells_of_ptr_inj first]
      exact ⟨tid',thread',get_put_self found _⟩
    · exact ⟨old,thread,(get_put_other _ here _).trans there⟩

/-! ### Arrays and the structures -/

variable {arr arr' : Arr} {words : List (List Cell)}

theorem pointers_congr (pointers : Pointers m arr words) (same : get m'.heap arr._vals = get m.heap arr._vals) :
    Pointers m' arr words :=
  ⟨⟨pointers.each,pointers.length,pointers.room,same.trans pointers.block⟩,pointers.size,pointers.power⟩

theorem pointers_long (pointers : Pointers m arr words) {cells : List Cell} (found : get m.heap arr._vals = some cells) :
    256 ≤ cells.length := by
  obtain ⟨k,low,_,_,bytes⟩ := pointers.bytes
  rw [pointers.block] at found
  rw [← Option.some.inj found,pointers.cells_length,bytes]
  exact (Nat.pow_le_pow_right (by omega) (by omega) : 2^8 ≤ 2^(k+3))

/-- A small block is not the one of the array. -/
theorem pointers_apart (pointers : Pointers m arr words) {cells : List Cell} (found : get m.heap b = some cells)
    (small : cells.length < 256) : b ≠ arr._vals := by
  rintro rfl
  exact absurd (pointers_long pointers found) (Nat.not_le_of_lt small)

theorem keeps_of_elsewhere (pointers : Pointers m arr words) (elsewhere : Elsewhere arr._vals m m') : Keeps m m' := by
  refine keeps_of_same (fun b cells found _ small => ?_)
  rw [elsewhere.same b (get_lt found) (pointers_apart pointers found small),found]

/-! ### Workers that are read at their own address -/

theorem worker_load_ok (worker : IsWorker m w) : ∃ n, atm_task_worker_load m w = .ok n := by
  obtain ⟨b,_,tid,rfl,found,_,bq,_,rfl,queue,bl,size,rfl,list⟩ := worker
  refine ⟨u32 size,?_⟩
  rw [atm_task_worker_load,load_blking_tasks found,ok_bind,atm_queue_size,if_neg (fun same => by cases same),
    load_queue_vals queue,ok_bind,
    load_list list]

theorem load_worker_ok (worker : IsWorker m w) (sums : Nat × Nat) : ∃ n,
    atm_task_worker_load m w = .ok n ∧ load_worker m sums w = .ok (u32 (sums.1 + n),u32 (sums.2 + 1)) := by
  obtain ⟨n,load⟩ := worker_load_ok worker
  obtain ⟨b,q,tid,rfl,found,_⟩ := worker
  refine ⟨n,load,?_⟩
  rw [load_worker,if_neg (fun same => by cases same),load_status found,ok_bind,if_pos rfl,load]
  rfl

/-- All workers are counted. -/
theorem load_fold_ok {ws : List Ptr} (workers : ∀ w ∈ ws, IsWorker m w) : ∀ sums : Nat × Nat, sums.2 + ws.length < 2^32 →
    ∃ ts, ws.foldlM (load_worker m) sums = .ok (ts,sums.2 + ws.length) := by
  induction ws with
  | nil => exact fun sums _ => ⟨sums.1,rfl⟩
  | cons w ws ih =>
    intro sums few
    rw [List.length_cons] at few
    obtain ⟨first,later⟩ := List.forall_mem_cons.mp workers
    obtain ⟨n,_,counted⟩ := load_worker_ok first sums
    rw [u32_of_lt (by omega : sums.2 + 1 < 2^32)] at counted
    obtain ⟨ts,rest⟩ := ih later (u32 (sums.1 + n),sums.2 + 1) (by simp only; omega)
    refine ⟨ts,?_⟩
    rw [List.foldlM_cons,counted,ok_bind,rest,List.length_cons,Nat.add_assoc,Nat.add_comm 1]

/-! ### Slots that are read as workers -/

/-- The queue of the slot is the worker, and the list of that queue is its `tid`. -/
theorem slot_load_fails {p : Ptr} (slot : load_ptr m p = .ok w) (worker : IsWorker m w) (n : Nat) :
    atm_task_worker_load m p ≠ .ok n := by
  obtain ⟨b,q,tid,rfl,found,thread,_⟩ := worker
  rw [atm_task_worker_load,slot,ok_bind,atm_queue_size,if_neg (fun same => by cases same),
    show queue_vals (.block b 0) = worker_tid (.block b 0) from rfl,
    load_tid found,ok_bind]
  rcases thread with rfl | ⟨k,rfl⟩
  · exact fun same => by cases same
  · exact fun same => by cases same

/-- The bytes at the `status` of the last slot are zeros. -/
theorem last_slot_fails {ws : List Ptr} (pointers : Pointers m arr ((ws ++ [w]).map cells_of_ptr)) (worker : IsWorker m w)
    (sums sums' : Nat × Nat) : load_worker m sums (atm_arr_get arr ws.length) ≠ .ok sums' := by
  have last : ((ws ++ [w]).map cells_of_ptr)[ws.length]? = some (cells_of_ptr w) := by
    rw [List.getElem?_map,List.getElem?_concat_length]
    rfl
  have place := get_slot pointers (List.getElem?_eq_some_iff.mp last).1
  have slot := load_ptr_of_load (load_slot pointers last)
  rw [place] at slot ⊢
  intro done
  rw [load_worker,if_neg (fun same => by cases same)] at done
  obtain ⟨status,read,rest⟩ := bind_eq_ok.mp done
  have active : status = ATM_TASK_WORK_ACTIVE := by
    obtain ⟨cells,loaded,number⟩ := bind_eq_ok.mp read
    have behind : pointer_size * ((ws ++ [w]).map cells_of_ptr).length ≤ pointer_size * ws.length + 16 := by
      rw [List.length_map,List.length_append,List.length_singleton,pointer_size]
      omega
    rw [load_behind pointers behind loaded] at number
    cases number
    rfl
  rw [if_pos active] at rest
  obtain ⟨n,counted,_⟩ := bind_eq_ok.mp rest
  exact slot_load_fails slot worker n counted

end AtmCache.Slots
