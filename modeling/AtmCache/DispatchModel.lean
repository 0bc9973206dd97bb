import Mathlib.Logic.Function.Basic
import AtmCache.PipeModel
import AtmCache.WorkerModel

/-!
# Dispatched tasks

A task from `atm_task_dispatch` to the end of its `run`. Any thread sends it through the notify pipe; the
callback of the message gives it to the queue of a worker, and the thread of the worker takes it from
there and runs it. The main loop runs the handler of the pipe and, outside of it, the monitor. Each slot
of `workers` is read as the address of a worker, and one list operation of a queue is one step,
also that of `atm_queue_pop`, which comes after `qlock` was let go.
-/
namespace AtmCache.Dispatch
open Heap Runs
open Pipes (Pipe)
open Workers (Pool Worker)
open Tasks (Stop)

/-- `notify_pipe`, the pool, and what the thread of each worker is running. `assigned` are the tasks that
    the main loop has given to workers and `executed` those whose `run` has returned, in order. -/
structure System where
  notify_pipe : Pipe Nat
  pool : Pool
  running : Addr → Option Nat
  assigned : List (Addr × Nat)
  executed : List (Addr × Nat)

/-- `atm_task_init` -/
def atm_task_init (workernum : Nat) : System := ⟨Pipes.atm_pipe_new,Workers.atm_task_init workernum,fun _ => none,[],[]⟩

/-- A step of the notify pipe, where a push is `atm_task_dispatch`; a call of the monitor; the start of the
    thread of the worker in slot `i`, its next task, and the end of that task. -/
inductive Label where
  | pipe (l : Pipes.Label Nat)
  | moniter
  | enter (i tid : Nat)
  | take (i : Nat)
  | finish (i : Nat)
  deriving DecidableEq, Repr

/-- The callback of a task's message. -/
def atm_task_notify_handle (s : System) (t : Nat) : Except Stop System := do
  let (_,curr_worker) ← (Workers.atm_task_get_active_worker s.pool).mapError .fault
  let pool ← (Workers.atm_task_notify_handle s.pool t).mapError .fault
  return { s with pool := pool, assigned := s.assigned ++ [(curr_worker,t)] }

/-- The message whose callback a step of the pipe runs. -/
def message (p : Pipe Nat) : Pipes.Label Nat → Option Nat
  | .pop => (Pipes.atm_queue_pop p.mqueue).1
  | _ => none

/-- The loop of `atm_task_worker_func` up to `run`: the worker, and the task if there is one. -/
def atm_task_worker_func (w : Worker) : Except Stop (Worker × Option Nat) :=
  if w.tid = 0 ∨ w.status = .ATM_TASK_WORK_RETIRED then .error .disabled
  else do
    match ← Tasks.atm_queue_pop_blocking w.blking_tasks with
    | (some t,rest) => return ({ w with blking_tasks := rest },some t)
    | (none,rest) =>
      if w.status = .ATM_TASK_WORK_PASSIVE then return (⟨rest,.ATM_TASK_WORK_RETIRED,w.tid⟩,none)
      else return ({ w with blking_tasks := rest },none)

/-- A step of the pipe, with the callback. -/
def pipe_step (capacity : Nat) (s : System) (l : Pipes.Label Nat) : Except Stop System := do
  let p ← (Pipes.step capacity s.notify_pipe l).mapError (fun _ => .disabled)
  match message s.notify_pipe l with
  | some t => atm_task_notify_handle { s with notify_pipe := p } t
  | none => return { s with notify_pipe := p }

/-- The next task of a thread that runs none. -/
def take (s : System) (i : Nat) : Except Stop System :=
  match s.pool.workers[i]? with
  | none => .error .disabled
  | some worker =>
    if s.running worker = none then do
      let (w,t) ← atm_task_worker_func (← (Workers.deref s.pool.heap worker).mapError .fault)
      return { s with
        pool := { s.pool with heap := put s.pool.heap worker w }
        running := Function.update s.running worker t }
    else .error .disabled

def finish (s : System) (i : Nat) : Except Stop System :=
  match s.pool.workers[i]? with
  | none => .error .disabled
  | some worker =>
    match s.running worker with
    | none => .error .disabled
    | some t => .ok { s with
        running := Function.update s.running worker none
        executed := s.executed ++ [(worker,t)] }

def step (capacity workernum : Nat) (s : System) : Label → Except Stop System
  | .pipe l => pipe_step capacity s l
  | .moniter =>
    if s.notify_pipe.handler = .idle then do
      return { s with pool := ← Workers.atm_task_moniter_routine workernum s.pool }
    else .error .disabled
  | .enter i tid => do
    let start := fun w : Worker => if w.tid = 0 ∧ tid ≠ 0 then .ok { w with tid := tid } else .error .disabled
    return { s with pool := ← Workers.on_worker s.pool i start }
  | .take i => take s i
  | .finish i => finish s i

/-- The task that a step dispatches. -/
def Label.dispatches : Label → Option Nat
  | .pipe l => l.pushes
  | _ => none

/-- All tasks dispatched in a run, in order. -/
def dispatched (ls : List Label) : List Nat := ls.filterMap Label.dispatches

/-- Steps that go on with what was dispatched, without the monitor. -/
def Label.inner : Label → Bool
  | .pipe l => l.pushes.isNone
  | .moniter => false
  | .enter _ _ => true
  | .take _ => true
  | .finish _ => true

end AtmCache.Dispatch
