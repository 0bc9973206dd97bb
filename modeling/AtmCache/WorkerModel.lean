import AtmCache.Heap
import AtmCache.TaskModel

/-!
# Workers that are freed

`atm_task.c` with workers in a heap: each slot of `workers` is read as the address of a worker. What
was freed is recorded. The thread of a RETIRED worker is at its end, so that joining it returns;
creating a thread succeeds.
-/
namespace AtmCache.Workers
open Heap Runs
open Tasks (Status Stop)

/-- `atm_task_worker_t` with the tasks of its queue; `tid` is 0 until its thread has started. -/
structure Worker where
  blking_tasks : List Nat
  status : Status
  tid : Nat
  deriving DecidableEq, Repr

/-- `workers` and `workers_round`, and the workers and the tasks that were freed, in order -/
structure Pool where
  heap : Cells Worker
  workers : List Addr
  workers_round : Nat
  freed : List Addr
  freed_tasks : List Nat
  deriving DecidableEq, Repr

/-- Following the pointer to a worker. -/
def deref (h : Cells Worker) (worker : Addr) : Except Fault Worker :=
  match get h worker with
  | some w => .ok w
  | none => .error .useAfterFree

/-! ### Recycling -/

def atm_task_worker_free (p : Pool) (worker : Addr) : Except Fault Pool := do
  let w ← deref p.heap worker
  let heap := if w.tid ≠ 0 then put p.heap worker { w with status := .ATM_TASK_WORK_RETIRED } else p.heap
  return ⟨free heap worker,p.workers,p.workers_round,p.freed ++ [worker],p.freed_tasks ++ w.blking_tasks⟩

/-- One round of the loop of `atm_task_get_active_worker`, on `workers_tmp`. -/
def recycle_worker (s : Pool × List Addr) (wtmp : Addr) : Except Fault (Pool × List Addr) := do
  if (← deref s.1.heap wtmp).status ≠ .ATM_TASK_WORK_RETIRED then return (s.1,s.2 ++ [wtmp])
  else return (← atm_task_worker_free s.1 wtmp,s.2)

def recycle (p : Pool) : Except Fault Pool := do
  let (p,workers_tmp) ← p.workers.foldlM recycle_worker (p,[])
  return { p with workers := workers_tmp }

/-- No slot is NULL. -/
def atm_task_get_active_worker (p : Pool) : Except Fault (Pool × Addr) :=
  let p := if 0 < p.workers.length then { p with workers_round := u32 (p.workers_round + 1) } else p
  let wi := if 0 < p.workers.length then p.workers_round % p.workers.length else 0
  match p.workers[wi]? with
  | none => .error .nullDeref
  | some worker => do
    if (← deref p.heap worker).status = .ATM_TASK_WORK_RETIRED then return (← recycle p,worker)
    else return (p,worker)

/-- `atm_queue_push` to the queue of a worker -/
def push_task (t : Nat) (w : Worker) : Worker := { w with blking_tasks := w.blking_tasks ++ [t] }

def atm_task_notify_handle (p : Pool) (t : Nat) : Except Fault Pool := do
  let (p,curr_worker) ← atm_task_get_active_worker p
  return { p with heap := put p.heap curr_worker (push_task t (← deref p.heap curr_worker)) }

/-! ### The pool -/

def atm_task_worker_load (w : Worker) : Nat := Tasks.atm_queue_size w.blking_tasks

/-- One round of the loop of `atm_task_load`, on `ts` and `ws`. -/
def load_worker (h : Cells Worker) (sums : Nat × Nat) (worker : Addr) : Except Fault (Nat × Nat) := do
  let w ← deref h worker
  if w.status = .ATM_TASK_WORK_ACTIVE then return (u32 (sums.1 + atm_task_worker_load w),sums.2 + 1) else return sums

def atm_task_load (p : Pool) : Except Stop Nat := do
  let (ts,ws) ← (p.workers.foldlM (load_worker p.heap) (0,0)).mapError .fault
  if ws = 0 then .error .divByZero else .ok (ts / ws)

def atm_task_worker_new (h : Cells Worker) : Cells Worker × Addr := (alloc h ⟨[],.ATM_TASK_WORK_ACTIVE,0⟩,h.length)

def atm_task_add_worker (p : Pool) : Pool :=
  let (heap,w) := atm_task_worker_new p.heap
  { p with heap := heap, workers := p.workers ++ [w] }

/-- The loop of `atm_task_del_worker`. -/
def retire_first (h : Cells Worker) : List Addr → Except Fault (Cells Worker)
  | [] => .ok h
  | worker :: rest => do
    let w ← deref h worker
    if w.status = .ATM_TASK_WORK_ACTIVE then return put h worker { w with status := .ATM_TASK_WORK_PASSIVE }
    else retire_first h rest

def atm_task_del_worker (workernum : Nat) (p : Pool) : Except Fault Pool :=
  if p.workers.length ≤ workernum then .ok p else do return { p with heap := ← retire_first p.heap p.workers }

def atm_task_init (workernum : Nat) : Pool := Nat.repeat atm_task_add_worker workernum ⟨[],[],0,[],[]⟩

def atm_task_moniter_routine (workernum : Nat) (p : Pool) : Except Stop Pool := do
  let load := Tasks.int_of_uint (← atm_task_load p)
  if Tasks.ATM_TASK_HIGH_LOAD_THRESHOLD < load then return atm_task_add_worker p
  else if load < Tasks.ATM_TASK_LOW_LOAD_THRESHOLD then (atm_task_del_worker workernum p).mapError .fault
  else return p

/-- One round of the loop of `atm_task_worker_func`. -/
def atm_task_worker_round (w : Worker) : Except Stop Worker :=
  if w.status = .ATM_TASK_WORK_RETIRED then .error .disabled
  else do
    match ← Tasks.atm_queue_pop_blocking w.blking_tasks with
    | (some _,rest) => return { w with blking_tasks := rest }
    | (none,rest) =>
      if w.status = .ATM_TASK_WORK_PASSIVE then return ⟨rest,.ATM_TASK_WORK_RETIRED,w.tid⟩
      else return { w with blking_tasks := rest }

/-! ### Runs -/

/-- A call of the main loop, or the start or a round of the thread of the worker in slot `i`. -/
inductive Label where
  | moniter
  | dispatch (t : Nat)
  | enter (i tid : Nat)
  | work (i : Nat)
  deriving DecidableEq, Repr

/-- The thread of the worker in a slot changes the worker. -/
def on_worker (p : Pool) (i : Nat) (f : Worker → Except Stop Worker) : Except Stop Pool :=
  match p.workers[i]? with
  | some worker => do
    let w ← (deref p.heap worker).mapError .fault
    return { p with heap := put p.heap worker (← f w) }
  | none => .error .disabled

def step (workernum : Nat) (p : Pool) : Label → Except Stop Pool
  | .moniter => atm_task_moniter_routine workernum p
  | .dispatch t => (atm_task_notify_handle p t).mapError .fault
  | .enter i tid => on_worker p i (fun w => .ok { w with tid := tid })
  | .work i => on_worker p i atm_task_worker_round

end AtmCache.Workers
