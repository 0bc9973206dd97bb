import AtmCache.DispatchRuns
import AtmCache.ListSets

/-!
# Dispatched tasks come to their end

The messages of the pipe, the tasks in the queues and those that are running are so much work that is left (`work`),
and every step of the pipe or of a worker's thread takes from it. Such a step waits or can be done. So
without further dispatches the threads come to rest, and then every task was run.
-/
namespace AtmCache.Dispatch
open Heap Runs
open Pipes (Pipe PipeOk)
open Workers (Worker Sound)

variable {capacity n : Nat} {s s' : System} {l : Label} {ls : List Label} {ts : List Nat} {worker : Addr} {w w' : Worker}

/-! ### The steps that are left -/

/-- The steps that are left to the thread of a worker: two for a task in its queue. -/
def left (s : System) (worker : Addr) : Nat :=
  (Heap.get s.pool.heap worker).elim 0 (fun w => 2 * w.blking_tasks.length + if w.tid = 0 then 1 else 0) +
    if s.running worker = none then 0 else 1

def work (s : System) : Nat := 4 * Pipes.work s.notify_pipe + (s.pool.workers.map (left s)).sum

theorem left_found (found : Heap.get s.pool.heap worker = some w) :
    left s worker = 2 * w.blking_tasks.length + (if w.tid = 0 then 1 else 0) + if s.running worker = none then 0 else 1 := by
  rw [left,found]
  rfl

/-- One worker has something to do more or less. -/
theorem left_changed (sound : Sound s.pool) (member : worker ∈ s.pool.workers) (slots : s'.pool.workers = s.pool.workers)
    (others : ∀ b, b ≠ worker → left s' b = left s b) :
    (s'.pool.workers.map (left s')).sum + left s worker = (s.pool.workers.map (left s)).sum + left s' worker := by
  rw [slots]
  exact ListSets.sum_map_changed sound.nodup member (fun b _ => others b)

theorem left_put (pool : s'.pool.heap = put s.pool.heap worker w')
    (same : ∀ b, b ≠ worker → s'.running b = s.running b) : ∀ b, b ≠ worker → left s' b = left s b := by
  intro b other
  rw [left,pool,get_put_other _ other,same b other]
  rfl

/-- Every inner step takes from what is left. -/
theorem step_work (ok : PipeOk s.notify_pipe) (traced : Traced n ts s) (done : step capacity n s l = .ok s')
    (inner : l.inner = true) : work s' < work s := by
  rcases step_cases traced.sound done with ⟨k,q,rfl,_,piped,rfl⟩ | ⟨t,rest,worker,w,_,processing,_,turn,found,_,same⟩ |
    ⟨q,rfl,_,_⟩ | ⟨i,tid,worker,w,_,slot,found,fresh,started,same⟩ | ⟨i,worker,w,t,rest,_,slot,found,idle,_,queue,same⟩ |
    ⟨i,worker,t,_,slot,busy,same⟩
  · have less := Pipes.step_work ok piped (Option.isNone_iff_eq_none.mp inner)
    have split : work { s with notify_pipe := q } = 4 * Pipes.work q + (s.pool.workers.map (left s)).sum := rfl
    rw [split,work]
    omega
  · -- The message leaves the pipe, and its task is two steps of a worker.
    have popped : Pipes.step capacity s.notify_pipe .pop = .ok s'.notify_pipe := by
      rw [Pipes.step,if_pos processing,same]
    have less := Pipes.step_work ok popped rfl
    have pool : s'.pool.heap = put s.pool.heap worker (Workers.push_task t w) := by rw [same]
    have running : s'.running = s.running := by rw [same]
    have total := left_changed traced.sound (List.mem_of_getElem? turn) (show s'.pool.workers = _ by rw [same])
      (left_put pool (fun b _ => by rw [running]))
    have more : Heap.get s'.pool.heap worker = some (Workers.push_task t w) := by rw [pool,get_put_self found]
    rw [left_found found,left_found more,running,Workers.push_task,List.length_append,List.length_singleton] at total
    dsimp only at total
    rw [work,work]
    omega
  · cases inner
  · have pool : s'.pool.heap = put s.pool.heap worker { w with tid := tid } := by rw [same]
    have running : s'.running = s.running := by rw [same]
    have total := left_changed traced.sound (List.mem_of_getElem? slot) (show s'.pool.workers = _ by rw [same])
      (left_put pool (fun b _ => by rw [running]))
    have entered : Heap.get s'.pool.heap worker = some { w with tid := tid } := by rw [pool,get_put_self found]
    rw [left_found found,left_found entered,running,if_pos fresh,if_neg started] at total
    rw [work,work,show s'.notify_pipe = s.notify_pipe by rw [same]]
    dsimp only at total
    omega
  · have pool : s'.pool.heap = put s.pool.heap worker { w with blking_tasks := rest } := by rw [same]
    have running : s'.running = Function.update s.running worker (some t) := by rw [same]
    have total := left_changed traced.sound (List.mem_of_getElem? slot) (show s'.pool.workers = _ by rw [same])
      (left_put pool (fun b other => by rw [running,Function.update_of_ne other]))
    have taken : Heap.get s'.pool.heap worker = some { w with blking_tasks := rest } := by rw [pool,get_put_self found]
    rw [left_found found,left_found taken,running,Function.update_self,idle,queue,List.length_cons,if_pos rfl,
      if_neg (Option.some_ne_none t)] at total
    rw [work,work,show s'.notify_pipe = s.notify_pipe by rw [same]]
    dsimp only at total
    omega
  · obtain ⟨w,found⟩ := traced.sound.here worker (List.mem_of_getElem? slot)
    have pool : s'.pool = s.pool := by rw [same]
    have running : s'.running = Function.update s.running worker none := by rw [same]
    have others : ∀ b, b ≠ worker → left s' b = left s b := by
      intro b other
      rw [left,left,pool,running,Function.update_of_ne other]
    have total := left_changed traced.sound (List.mem_of_getElem? slot) (show s'.pool.workers = _ by rw [same]) others
    have kept : Heap.get s'.pool.heap worker = some w := by rw [pool,found]
    rw [left_found found,left_found kept,running,Function.update_self,busy,if_pos rfl,if_neg (Option.some_ne_none t)] at total
    rw [work,work,show s'.notify_pipe = s.notify_pipe by rw [same]]
    omega

/-! ### Going on -/

/-- The pipe of a step, seen alone. -/
theorem step_pipe (sound : Sound s.pool) (done : step capacity n s l = .ok s') :
    s'.notify_pipe = s.notify_pipe ∨ ∃ k, Pipes.step capacity s.notify_pipe k = .ok s'.notify_pipe := by
  rcases step_cases sound done with ⟨k,q,_,_,piped,rfl⟩ | ⟨t,rest,worker,w,_,processing,_,_,_,_,rfl⟩ | ⟨q,_,_,rfl⟩ |
    ⟨i,tid,worker,w,_,_,_,_,_,rfl⟩ | ⟨i,worker,w,t,rest,_,_,_,_,_,_,rfl⟩ | ⟨i,worker,t,_,_,_,rfl⟩
  · exact .inr ⟨k,piped⟩
  · exact .inr ⟨.pop,by rw [Pipes.step,if_pos processing]⟩
  · exact .inl rfl
  · exact .inl rfl
  · exact .inl rfl
  · exact .inl rfl

/-- The invariant of a run with enough threads and room in the pipe. -/
structure SystemOk (n : Nat) (ts : List Nat) (s : System) : Prop where
  pipe : PipeOk s.notify_pipe
  traced : Traced n ts s

theorem step_ok (room : 0 < capacity) (ok : SystemOk n ts s) (done : step capacity n s l = .ok s') :
    SystemOk n (ts ++ l.dispatches.toList) s' := by
  refine ⟨?_,step_traced ok.traced done⟩
  rcases step_pipe ok.traced.sound done with same | ⟨k,piped⟩
  · rw [same]
    exact ok.pipe
  · exact Pipes.step_ok room ok.pipe piped

theorem run_ok (room : 0 < capacity) (ran : run (step capacity n) (atm_task_init n) ls = .ok s) : SystemOk n (dispatched ls) s := by
  refine run_keeps (P := fun ls s => SystemOk n (dispatched ls) s) ⟨Pipes.new_ok,init_traced n⟩ ?_ ran
  intro pre l t u ok done
  rw [dispatched_append,dispatched_singleton]
  exact step_ok room ok done

theorem run_work (room : 0 < capacity) (ok : SystemOk n ts s) (ran : run (step capacity n) s ls = .ok s')
    (inner : ∀ l ∈ ls, l.inner = true) : ls.length ≤ work s := by
  induction ls generalizing s ts with
  | nil => exact Nat.zero_le _
  | cons l ls ih =>
    obtain ⟨t,first,later⟩ := bind_eq_ok.mp (run_cons (step capacity n) s l ls ▸ ran)
    obtain ⟨here,rest⟩ := List.forall_mem_cons.mp inner
    have lower := step_work ok.pipe ok.traced first here
    have shorter := ih (step_ok room ok first) later rest
    rw [List.length_cons]
    omega

end AtmCache.Dispatch
