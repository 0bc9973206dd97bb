import AtmCache.Machine

/-!
# The worker pool

`atm_task.c` with each slot of `workers` read as the worker that it points to. Worker threads
take tasks from the blocking queues of their workers; dispatched tasks and
`atm_task_moniter_routine` come from the main loop. Creating a thread succeeds.
-/
namespace AtmCache.Tasks
open Runs

/-- What ends or holds up a step: a thread that has to wait, a division by zero, or a memory fault. -/
inductive Stop where
  | disabled
  | divByZero
  | fault (f : Fault)
  deriving DecidableEq, Repr

/-- A step that has to wait has not been taken. -/
def Waits (e : Stop) : Prop := e = .disabled

inductive Status where
  | ATM_TASK_WORK_ACTIVE
  | ATM_TASK_WORK_PASSIVE
  | ATM_TASK_WORK_RETIRED
  deriving DecidableEq, Repr

def ATM_TASK_HIGH_LOAD_THRESHOLD : Int := 10
def ATM_TASK_LOW_LOAD_THRESHOLD : Int := 3

/-- `atm_task_worker_t`; tasks are told apart by numbers. -/
structure Worker where
  blking_tasks : List Nat
  status : Status
  deriving DecidableEq, Repr

/-- `workers` and `workers_round` -/
structure Pool where
  workers : List Worker
  workers_round : Nat
  deriving DecidableEq, Repr

/-! ### Load -/

/-- An `atm_uint_t` stored in an `atm_int_t`. -/
def int_of_uint (n : Nat) : Int := if n < 2^31 then n else n - 2^32

/-- `atm_queue_size` of an `ATM_QUEUE_BLOCK` queue, whose counter has 32 bits. -/
def atm_queue_size (q : List Nat) : Nat := u32 q.length

def atm_task_worker_load (w : Worker) : Nat := atm_queue_size w.blking_tasks

/-- One round of the loop of `atm_task_load`, on `ts` and `ws`. -/
def load_worker (sums : Nat × Nat) (w : Worker) : Nat × Nat :=
  if w.status = .ATM_TASK_WORK_ACTIVE then (u32 (sums.1 + atm_task_worker_load w),sums.2 + 1) else sums

def atm_task_load (p : Pool) : Except Stop Nat :=
  let (ts,ws) := p.workers.foldl load_worker (0,0)
  if ws = 0 then .error .divByZero else .ok (ts / ws)

/-! ### Adding and deleting workers -/

def atm_task_worker_new : Worker := ⟨[],.ATM_TASK_WORK_ACTIVE⟩

def atm_task_add_worker (p : Pool) : Pool := { p with workers := p.workers ++ [atm_task_worker_new] }

/-- The loop of `atm_task_del_worker`. -/
def retire_first : List Worker → List Worker
  | [] => []
  | w :: rest =>
    if w.status = .ATM_TASK_WORK_ACTIVE then { w with status := .ATM_TASK_WORK_PASSIVE } :: rest
    else w :: retire_first rest

def atm_task_del_worker (workernum : Nat) (p : Pool) : Pool :=
  if p.workers.length ≤ workernum then p else { p with workers := retire_first p.workers }

def atm_task_worker_init (nworker : Nat) : Pool := Nat.repeat atm_task_add_worker nworker ⟨[],0⟩

def atm_task_init (workernum : Nat) : Pool := atm_task_worker_init workernum

def atm_task_moniter_routine (workernum : Nat) (p : Pool) : Except Stop Pool := do
  let load := int_of_uint (← atm_task_load p)
  if ATM_TASK_HIGH_LOAD_THRESHOLD < load then return atm_task_add_worker p
  else if load < ATM_TASK_LOW_LOAD_THRESHOLD then return atm_task_del_worker workernum p
  else return p

/-! ### Tasks -/

/-- The slot of the worker that is returned; none when that worker has just been freed. -/
def atm_task_get_active_worker (p : Pool) : Except Stop (Pool × Option Nat) :=
  let p := if 0 < p.workers.length then { p with workers_round := u32 (p.workers_round + 1) } else p
  let wi := if 0 < p.workers.length then p.workers_round % p.workers.length else 0
  match p.workers[wi]? with
  | none => .error (.fault .nullDeref)
  | some worker =>
    if worker.status = .ATM_TASK_WORK_RETIRED then
      .ok ({ p with workers := p.workers.filter (fun w => w.status ≠ .ATM_TASK_WORK_RETIRED) },none)
    else .ok (p,some wi)

/-- `atm_queue_push` to the queue of a worker -/
def push_task (t : Nat) (w : Worker) : Worker := { w with blking_tasks := w.blking_tasks ++ [t] }

/-- `atm_task_notify_handle`, which the main loop calls for every dispatched task -/
def atm_task_notify_handle (p : Pool) (t : Nat) : Except Stop Pool := do
  match ← atm_task_get_active_worker p with
  | (p,some i) => return { p with workers := p.workers.modify i (push_task t) }
  | (_,none) => throw (.fault .useAfterFree)

/-- `atm_queue_pop` of an `ATM_QUEUE_BLOCK` queue with one reader, which waits while it is empty -/
def atm_queue_pop_blocking (q : List Nat) : Except Stop (Option Nat × List Nat) :=
  if q = [] then .error .disabled else .ok (q.head?,q.tail)

/-- One round of the loop of `atm_task_worker_func`. -/
def atm_task_worker_round (w : Worker) : Except Stop Worker :=
  if w.status = .ATM_TASK_WORK_RETIRED then .error .disabled
  else do
    match ← atm_queue_pop_blocking w.blking_tasks with
    | (some _,rest) => return { w with blking_tasks := rest }
    | (none,rest) =>
      if w.status = .ATM_TASK_WORK_PASSIVE then return ⟨rest,.ATM_TASK_WORK_RETIRED⟩
      else return { w with blking_tasks := rest }

/-! ### Runs -/

/-- A call of the main loop, or a round of the thread of worker `i`. -/
inductive Label where
  | moniter
  | dispatch (t : Nat)
  | work (i : Nat)
  deriving DecidableEq, Repr

def step (workernum : Nat) (p : Pool) : Label → Except Stop Pool
  | .moniter => atm_task_moniter_routine workernum p
  | .dispatch t => atm_task_notify_handle p t
  | .work i =>
    match p.workers[i]? with
    | some w => do return { p with workers := p.workers.set i (← atm_task_worker_round w) }
    | none => .error .disabled

end AtmCache.Tasks
