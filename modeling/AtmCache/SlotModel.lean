import AtmCache.ArrModel
import AtmCache.TaskModel

/-!
# Pointers in arrays

`atm_task.c` and `atm_ctx.c` on the bytes of memory, with `workers` and `bg_routine` as the arrays of
`atm_arr.c`. Of a list of tasks only its counter is used, so the entries are left out; the bytes
of members that are not read here are zeros. Creating a thread succeeds, and a thread
that is joined has ended.
-/
namespace AtmCache.Slots
open Heap Runs Arrays
open Tasks (Stop)

def ATM_TASK_WORK_ACTIVE : Nat := 0
def ATM_TASK_WORK_PASSIVE : Nat := 1
def ATM_TASK_WORK_RETIRED : Nat := 2

def ATM_QUEUE_BLOCK : Nat := 1
def ATM_QUEUE_NONBLOCK : Nat := 2

/-! ### Members of structures -/

/-- The address of `vals` in an `atm_queue_t`. -/
def queue_vals (q : Ptr) : Ptr := q.add 8

/-- The address of `size` in an `atm_list_t`. -/
def list_size (l : Ptr) : Ptr := l.add 32

/-- The addresses of `tid` and `status` in an `atm_task_worker_t`, whose first member is `blking_tasks`. -/
def worker_tid (w : Ptr) : Ptr := w.add 8

def worker_status (w : Ptr) : Ptr := w.add 16

/-- `atm_free` -/
def mem_free (m : Mem) : Ptr → Except Fault Mem
  | .null => .ok m
  | .block b 0 => if get m.heap b = none then .error .doubleFree else .ok { m with heap := free m.heap b }
  | _ => .error .outOfBounds

/-! ### Queues -/

def atm_list_new (m : Mem) : Mem × Ptr :=
  let (m,res) := mem_alloc m 40
  (m,.block res 0)

def atm_list_free (m : Mem) (l : Ptr) : Except Fault Mem := mem_free m l

def atm_list_push (m : Mem) (l : Ptr) : Except Fault Mem :=
  if l = .null then .ok m else do store m (list_size l) (bytes_of_uint ((← load_uint m (list_size l)) + 1))

/-- `atm_list_lpop` of a list that is not empty -/
def atm_list_lpop (m : Mem) (l : Ptr) : Except Fault Mem := do
  store m (list_size l) (bytes_of_uint (sub32 (← load_uint m (list_size l)) 1))

/-- `atm_queue_new` with `ATM_QUEUE_BLOCK` -/
def atm_queue_new (m : Mem) : Except Fault (Mem × Ptr) := do
  let (m,res) := mem_alloc m 104
  let m ← store m (.block res 0) (bytes_of_uint ATM_QUEUE_BLOCK)
  let (m,vals) := atm_list_new m
  let m ← store m (queue_vals (.block res 0)) (cells_of_ptr vals)
  return (m,.block res 0)

def atm_queue_free (m : Mem) (q : Ptr) : Except Fault Mem :=
  if q = .null then .ok m
  else do
    let m ← atm_list_free m (← load_ptr m (queue_vals q))
    mem_free m q

def atm_queue_push (m : Mem) (q : Ptr) : Except Fault Mem :=
  if q = .null then .ok m
  else do
    let btyp ← load_uint m q
    if btyp = ATM_QUEUE_NONBLOCK ∨ btyp = ATM_QUEUE_BLOCK then atm_list_push m (← load_ptr m (queue_vals q))
    else return m

def atm_queue_size (m : Mem) (q : Ptr) : Except Fault Nat :=
  if q = .null then .ok 0 else do load_uint m (list_size (← load_ptr m (queue_vals q)))

/-! ### Workers -/

def atm_task_worker_load (m : Mem) (worker : Ptr) : Except Fault Nat := do atm_queue_size m (← load_ptr m worker)

def atm_task_worker_new (m : Mem) : Except Fault (Mem × Ptr) := do
  let (m,res) := mem_alloc m 24
  let (m,q) ← atm_queue_new m
  let m ← store m (.block res 0) (cells_of_ptr q)
  let m ← store m (worker_status (.block res 0)) (bytes_of_uint ATM_TASK_WORK_ACTIVE)
  let m ← store m (worker_tid (.block res 0)) (cells_of_ptr .null)
  return (m,.block res 0)

def atm_task_worker_free (m : Mem) (w : Ptr) : Except Fault Mem := do
  let m ← (if (← load m (worker_tid w) pointer_size) = zeros pointer_size then .ok m
    else store m (worker_status w) (bytes_of_uint ATM_TASK_WORK_RETIRED))
  let m ← atm_queue_free m (← load_ptr m w)
  mem_free m w

/-- The array, and the worker that was created. What `atm_arr_add` is given is the address of the
    local variable `w`. -/
def atm_task_add_worker (m : Mem) (workers : Arr) : Except Fault (Mem × Arr × Ptr) := do
  let (m,w) ← atm_task_worker_new m
  let m ← store m (worker_status w) (bytes_of_uint ATM_TASK_WORK_ACTIVE)
  let (m,var) := mem_alloc m pointer_size
  let m ← store m (.block var 0) (cells_of_ptr w)
  let (m,workers,_) ← atm_arr_add m workers (.block var 0)
  return ({ m with heap := free m.heap var },workers,w)

/-! ### The consumers of `workers` -/

/-- What a loop over an array gets from `atm_arr_get`. -/
def slots (arr : Arr) : List Ptr := (List.range arr.length).map (atm_arr_get arr)

/-- One round of the loop of `atm_task_load`, on `ts` and `ws`. -/
def load_worker (m : Mem) (sums : Nat × Nat) (worker : Ptr) : Except Fault (Nat × Nat) :=
  if worker = .null then .ok sums
  else do
    if (← load_uint m (worker_status worker)) = ATM_TASK_WORK_ACTIVE then
      return (u32 (sums.1 + (← atm_task_worker_load m worker)),u32 (sums.2 + 1))
    else return sums

/-- The summed queue lengths and the number of the ACTIVE ones of some workers. -/
def load_sums (m : Mem) (workers : List Ptr) : Except Fault (Nat × Nat) := workers.foldlM (load_worker m) (0,0)

def atm_task_load (m : Mem) (workers : Arr) : Except Stop Nat :=
  match load_sums m (slots workers) with
  | .ok (ts,ws) => if ws = 0 then .error .divByZero else .ok (ts / ws)
  | .error f => .error (.fault f)

/-- The loop of `atm_task_del_worker`. -/
def retire_first (m : Mem) : List Ptr → Except Fault (Mem × Bool)
  | [] => .ok (m,false)
  | worker :: rest =>
    if worker = .null then retire_first m rest
    else do
      if (← load_uint m (worker_status worker)) = ATM_TASK_WORK_ACTIVE then
        return (← store m (worker_status worker) (bytes_of_uint ATM_TASK_WORK_PASSIVE),true)
      else retire_first m rest

def atm_task_del_worker (workernum : Nat) (m : Mem) (workers : Arr) : Except Fault (Mem × Bool) :=
  if workers.length ≤ u32 workernum then .ok (m,false) else retire_first m (slots workers)

/-- One round of the recycling loop of `atm_task_get_active_worker`, on `workers_tmp`. -/
def recycle_worker (s : Mem × Arr) (wtmp : Ptr) : Except Fault (Mem × Arr) := do
  if (← load_uint s.1 (worker_status wtmp)) ≠ ATM_TASK_WORK_RETIRED then
    let (m,workers_tmp,_) ← atm_arr_add s.1 s.2 wtmp
    return (m,workers_tmp)
  else return (← atm_task_worker_free s.1 wtmp,s.2)

def recycle (m : Mem) (workers : Arr) : Except Fault (Mem × Arr) := do
  match atm_arr_new m pointer_size with
  | (m,some workers_tmp) =>
    let (m,workers_tmp) ← (slots workers).foldlM recycle_worker (m,workers_tmp)
    return (← mem_free m (.block workers._vals 0),workers_tmp)
  | (_,none) => throw .nullDeref

/-! ### Runs -/

/-- The memory, `workers` and `workers_round`, and the workers that were created, in order. -/
structure State where
  mem : Mem
  workers : Arr
  workers_round : Nat
  added : List Ptr

/-- The slot is followed once, to the worker. -/
def atm_task_get_active_worker (s : State) : Except Fault (State × Ptr) := do
  let s := if 0 < s.workers.length then { s with workers_round := u32 (s.workers_round + 1) } else s
  let wi := if 0 < s.workers.length then s.workers_round % s.workers.length else 0
  let worker ← load_ptr s.mem (atm_arr_get s.workers wi)
  if (← load_uint s.mem (worker_status worker)) = ATM_TASK_WORK_RETIRED then
    let (mem,workers) ← recycle s.mem s.workers
    return ({ s with mem := mem, workers := workers },worker)
  else return (s,worker)

def atm_task_notify_handle (s : State) : Except Fault State := do
  let (s,curr_worker) ← atm_task_get_active_worker s
  return { s with mem := ← atm_queue_push s.mem (← load_ptr s.mem curr_worker) }

/-- A worker is added, a task is dispatched, or the thread of the `i`-th worker that was added sets its `tid`
    or takes a task from its queue. -/
inductive Label where
  | add
  | dispatch
  | enter (i : Nat)
  | pop (i : Nat)
  deriving DecidableEq, Repr

def or_stop {α : Type} (c : Except Fault α) : Except Stop α := c.mapError .fault

def step (s : State) : Label → Except Stop State
  | .add => do
    let (mem,workers,w) ← or_stop (atm_task_add_worker s.mem s.workers)
    return { s with mem := mem, workers := workers, added := s.added ++ [w] }
  | .dispatch => or_stop (atm_task_notify_handle s)
  | .enter i =>
    match s.added[i]? with
    | some w => do return { s with mem := ← or_stop (store s.mem (worker_tid w) (cells_of_ptr (.handle i))) }
    | none => .error .disabled
  | .pop i =>
    match s.added[i]? with
    | some w => do
      let q ← or_stop (load_ptr s.mem w)
      if (← or_stop (atm_queue_size s.mem q)) = 0 then throw .disabled
      else return { s with mem := ← or_stop (do atm_list_lpop s.mem (← load_ptr s.mem (queue_vals q))) }
    | none => .error .disabled

/-- `workers` as `atm_task_worker_init` creates it. -/
def init (m : Mem) : State :=
  let (m,workers) := mem_alloc m (ATM_ARR_INITIAL_LEN * pointer_size)
  ⟨m,⟨workers,ATM_ARR_INITIAL_LEN,0,pointer_size⟩,0,[]⟩

/-! ### Callbacks -/

/-- `loop_count`, and the functions that were called, in order. -/
structure Calls where
  loop_count : Nat
  invoked : List Nat
  deriving DecidableEq, Repr

/-- A call of anything but the entry of a function is undefined. -/
def invoke (invoked : List Nat) : Ptr → Except Fault (List Nat)
  | .code f => .ok (invoked ++ [f])
  | .null => .ok invoked
  | _ => .error .outOfBounds

def atm_ctx_callback_loop (bg_routine : Arr) (c : Calls) : Except Fault Calls := do
  let c := { c with loop_count := u32 (c.loop_count + 1) }
  if c.loop_count % 10000 = 0 then return { c with invoked := ← (slots bg_routine).foldlM invoke c.invoked }
  else return c

/-- The first `k` calls after `atm_ctx_init`. -/
def calls (bg_routine : Arr) : Nat → Except Fault Calls
  | 0 => .ok ⟨0,[]⟩
  | k+1 => do atm_ctx_callback_loop bg_routine (← calls bg_routine k)

/-- `atm_arr_add(atm_ctx->bg_routine,f)` for some functions. -/
def register (m : Mem) (bg_routine : Arr) (fs : List Nat) : Except Fault (Mem × Arr) :=
  fs.foldlM (fun s f => do
    let (m,bg_routine,_) ← atm_arr_add s.1 s.2 (.code f)
    return (m,bg_routine)) (m,bg_routine)

end AtmCache.Slots
