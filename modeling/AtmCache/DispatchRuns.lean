import Mathlib.Data.List.Perm.Basic
import AtmCache.DispatchModel
import AtmCache.PipeWake
import AtmCache.WorkerRuns

/-!
# Dispatched tasks are run once

No worker becomes RETIRED, since no task is NULL. So what was dispatched is in the queue of the pipe, or was given to one
worker, which runs what it is given in order (`Traced`).
-/
namespace AtmCache.Dispatch
open Heap Runs
open Pipes (Pipe)
open Workers (Pool Worker Sound seen retired)
open Tasks (Stop)

variable {capacity n : Nat} {s s' : System} {l : Label} {ls : List Label} {ts : List Nat} {p p' : Pool} {h h' : Cells Worker}
  {worker : Addr} {w w' : Worker}

/-! ### What a step can be -/

theorem deref_iff : Workers.deref h worker = .ok w ↔ get h worker = some w := by
  rw [Workers.deref]
  cases get h worker with
  | none => exact ⟨(fun same => by cases same),(fun same => by cases same)⟩
  | some v => exact ⟨(fun same => by cases same; rfl),(fun same => by cases same; rfl)⟩

theorem mapError_ok {E F α : Type} {f : E → F} {c : Except E α} {a : α} : c.mapError f = .ok a ↔ c = .ok a := by
  cases c with
  | error e => exact ⟨(fun same => by cases same),(fun same => by cases same)⟩
  | ok b => exact ⟨(fun same => by cases same; rfl),(fun same => by cases same; rfl)⟩

/-- A task is pushed to the queue of the worker whose turn it is. -/
theorem notify_handle_cases (sound : Sound s.pool) {t : Nat} (done : atm_task_notify_handle s t = .ok s') :
    ∃ worker w, s.pool.candidate = some worker ∧ get s.pool.heap worker = some w ∧ w.status ≠ .ATM_TASK_WORK_RETIRED ∧
      s' = { s with
        pool := { s.pool with
          heap := put s.pool.heap worker (Workers.push_task t w)
          workers_round := u32 (s.pool.workers_round + 1) }
        assigned := s.assigned ++ [(worker,t)] } := by
  obtain ⟨⟨q,curr_worker⟩,active,rest⟩ := bind_eq_ok.mp done
  obtain ⟨q',pushed,last⟩ := bind_eq_ok.mp rest
  rw [mapError_ok] at active pushed
  by_cases staffed : ∃ worker, worker ∈ s.pool.workers
  · obtain ⟨worker,turn⟩ := Workers.candidate_some staffed
    obtain ⟨w,found⟩ := sound.here worker (List.mem_of_getElem? turn)
    rw [Workers.get_active_worker_ok sound turn] at active
    rw [Workers.notify_handle_ok sound turn found] at pushed
    split at pushed
    · cases pushed
    · rename_i live
      cases pushed
      cases last
      cases active
      exact ⟨_,w,turn,found,live,rfl⟩
  · have empty : s.pool.workers = [] := List.eq_nil_iff_forall_not_mem.mpr (fun worker member => staffed ⟨worker,member⟩)
    obtain ⟨_,⟨heap,workers,workers_round,freed,freed_tasks⟩,_,_,_⟩ := s
    cases empty
    cases active

/-- A thread takes the first task of its queue; without a task it waits. -/
theorem worker_func_cases {t : Option Nat} (done : atm_task_worker_func w = .ok (w',t)) :
    ∃ first rest, w.blking_tasks = first :: rest ∧ w.tid ≠ 0 ∧ t = some first ∧ w' = { w with blking_tasks := rest } := by
  rw [atm_task_worker_func] at done
  split at done
  · cases done
  · rename_i running
    obtain ⟨blking_tasks,status,tid⟩ := w
    cases blking_tasks with
    | nil => cases done
    | cons first rest =>
      cases done
      exact ⟨first,rest,rfl,fun unstarted => running (.inl unstarted),rfl,rfl⟩

/-- Everything that a step can be. -/
theorem step_cases (sound : Sound s.pool) (done : step capacity n s l = .ok s') :
    (∃ k q, l = .pipe k ∧ message s.notify_pipe k = none ∧ Pipes.step capacity s.notify_pipe k = .ok q ∧
      s' = { s with notify_pipe := q }) ∨
    (∃ t rest worker w, l = .pipe .pop ∧ s.notify_pipe.handler = .processing ∧ s.notify_pipe.mqueue = t :: rest ∧
      s.pool.candidate = some worker ∧ get s.pool.heap worker = some w ∧ w.status ≠ .ATM_TASK_WORK_RETIRED ∧
      s' = { s with
        notify_pipe := Pipes.process_msgs s.notify_pipe
        pool := { s.pool with
          heap := put s.pool.heap worker (Workers.push_task t w)
          workers_round := u32 (s.pool.workers_round + 1) }
        assigned := s.assigned ++ [(worker,t)] }) ∨
    (∃ q, l = .moniter ∧ Workers.atm_task_moniter_routine n s.pool = .ok q ∧ s' = { s with pool := q }) ∨
    (∃ i tid worker w, l = .enter i tid ∧ s.pool.workers[i]? = some worker ∧ get s.pool.heap worker = some w ∧ w.tid = 0 ∧
      tid ≠ 0 ∧ s' = { s with pool := { s.pool with heap := put s.pool.heap worker { w with tid := tid } } }) ∨
    (∃ i worker w t rest, l = .take i ∧ s.pool.workers[i]? = some worker ∧ get s.pool.heap worker = some w ∧
      s.running worker = none ∧ w.tid ≠ 0 ∧ w.blking_tasks = t :: rest ∧
      s' = { s with
        pool := { s.pool with heap := put s.pool.heap worker { w with blking_tasks := rest } }
        running := Function.update s.running worker (some t) }) ∨
    (∃ i worker t, l = .finish i ∧ s.pool.workers[i]? = some worker ∧ s.running worker = some t ∧
      s' = { s with
        running := Function.update s.running worker none
        executed := s.executed ++ [(worker,t)] }) := by
  cases l with
  | pipe k =>
    obtain ⟨q,piped,rest⟩ := bind_eq_ok.mp (show pipe_step capacity s k = _ from done)
    rw [mapError_ok] at piped
    cases sent : message s.notify_pipe k with
    | none =>
      rw [sent] at rest
      cases rest
      exact .inl ⟨k,q,rfl,sent,piped,rfl⟩
    | some t =>
      rw [sent] at rest
      obtain ⟨worker,w,turn,found,live,same⟩ := notify_handle_cases (s := { s with notify_pipe := q }) sound rest
      cases k with
      | pop =>
        rw [Pipes.step] at piped
        split at piped
        · rename_i processing
          cases piped
          obtain ⟨others,queue⟩ : ∃ others, s.notify_pipe.mqueue = t :: others := List.head?_eq_some_iff.mp sent
          exact .inr (.inl ⟨t,others,worker,w,rfl,processing,queue,turn,found,live,same⟩)
        · cases piped
      | push _ _ => cases sent
      | write _ => cases sent
      | wait => cases sent
      | lock => cases sent
      | read => cases sent
      | unlock => cases sent
  | moniter =>
    rw [step] at done
    split at done
    · obtain ⟨q,monitored,last⟩ := bind_eq_ok.mp done
      cases last
      exact .inr (.inr (.inl ⟨q,rfl,monitored,rfl⟩))
    · cases done
  | enter i tid =>
    obtain ⟨q,entered,last⟩ := bind_eq_ok.mp (show (Workers.on_worker s.pool i _ >>= _) = _ from done)
    cases last
    obtain ⟨worker,w,w',slot,found,changed,rfl⟩ := Workers.on_worker_ok sound entered
    split at changed
    · rename_i fresh
      cases changed
      exact .inr (.inr (.inr (.inl ⟨i,tid,worker,w,rfl,slot,found,fresh.1,fresh.2,rfl⟩)))
    · cases changed
  | take i =>
    rw [step,take] at done
    cases slot : s.pool.workers[i]? with
    | none =>
      rw [slot] at done
      cases done
    | some worker =>
      rw [slot] at done
      dsimp only at done
      split at done
      · rename_i idle
        obtain ⟨w,followed,rest⟩ := bind_eq_ok.mp done
        rw [mapError_ok,deref_iff] at followed
        obtain ⟨⟨w',t⟩,round,last⟩ := bind_eq_ok.mp rest
        obtain ⟨first,others,queue,started,rfl,rfl⟩ := worker_func_cases round
        cases last
        exact .inr (.inr (.inr (.inr (.inl ⟨i,worker,w,first,others,rfl,slot,followed,idle,started,queue,rfl⟩))))
      · cases done
  | finish i =>
    rw [step,finish] at done
    cases slot : s.pool.workers[i]? with
    | none =>
      rw [slot] at done
      cases done
    | some worker =>
      rw [slot] at done
      dsimp only at done
      cases busy : s.running worker with
      | none =>
        rw [busy] at done
        cases done
      | some t =>
        rw [busy] at done
        cases done
        exact .inr (.inr (.inr (.inr (.inr ⟨i,worker,t,rfl,slot,busy,rfl⟩))))

/-! ### Queues -/

/-- The tasks in the queue of a worker. -/
def queued (h : Cells Worker) (worker : Addr) : List Nat := (seen h worker).blking_tasks

theorem queued_found (found : get h worker = some w) : queued h worker = w.blking_tasks := by
  rw [queued,Workers.seen_found found]
  rfl

theorem queued_put (found : get h worker = some w) (w' : Worker) (other : Addr) :
    queued (put h worker w') other = if other = worker then w'.blking_tasks else queued h other := by
  by_cases same : other = worker
  · rw [if_pos same,same,queued_found (get_put_self found w')]
  · rw [if_neg same,queued,seen,get_put_other _ same]
    rfl

theorem retired_put (found : get h worker = some w) (live : w'.status ≠ .ATM_TASK_WORK_RETIRED) {other : Addr}
    (alive : retired h other = false) : retired (put h worker w') other = false := by
  by_cases same : other = worker
  · rw [same]
    exact Bool.eq_false_iff.mpr (fun yes => live ((Workers.retired_found (get_put_self found w')).mp yes))
  · rw [retired,get_put_other _ same]
    exact alive

theorem live_of_alive (found : get h worker = some w) (alive : retired h worker = false) :
    w.status ≠ .ATM_TASK_WORK_RETIRED := by
  intro dead
  rw [(Workers.retired_found found).mpr dead] at alive
  cases alive

/-- The queues are as they were, and no worker has become RETIRED. -/
structure Calm (h h' : Cells Worker) : Prop where
  queued : ∀ worker, queued h' worker = queued h worker
  alive : ∀ worker, retired h worker = false → retired h' worker = false

theorem Calm.refl (h : Cells Worker) : Calm h h := ⟨fun _ => rfl,fun _ alive => alive⟩

theorem put_calm (found : get h worker = some w) (same : w'.blking_tasks = w.blking_tasks)
    (live : w'.status ≠ .ATM_TASK_WORK_RETIRED) : Calm h (put h worker w') := by
  refine ⟨fun other => ?_,fun other alive => retired_put found live alive⟩
  rw [queued_put found]
  split
  · rename_i here
    rw [same,here,queued_found found]
  · rfl

theorem alloc_calm (h : Cells Worker) : Calm h (alloc h ⟨[],.ATM_TASK_WORK_ACTIVE,0⟩) := by
  have old : ∀ worker, get (alloc h ⟨[],.ATM_TASK_WORK_ACTIVE,0⟩) worker = get h worker ∨
      get h worker = none ∧ get (alloc h ⟨[],.ATM_TASK_WORK_ACTIVE,0⟩) worker = some ⟨[],.ATM_TASK_WORK_ACTIVE,0⟩ := by
    intro worker
    cases found : get (alloc h ⟨[],.ATM_TASK_WORK_ACTIVE,0⟩) worker with
    | none =>
      refine .inl ?_
      cases there : get h worker with
      | none => rfl
      | some w => rw [← found,get_alloc_old _ (get_lt there),there]
    | some w =>
      rcases get_of_alloc found with ⟨new,rfl⟩ | there
      · refine .inr ⟨?_,rfl⟩
        rw [new,Heap.get,List.getElem?_eq_none (Nat.le_refl _)]
        rfl
      · exact .inl there.symm
  refine ⟨fun worker => ?_,fun worker alive => ?_⟩
  · rcases old worker with same | ⟨absent,new⟩
    · rw [queued,seen,same]
      rfl
    · rw [queued,queued,seen,seen,absent,new]
      rfl
  · rcases old worker with same | ⟨_,new⟩
    · rw [retired,same]
      exact alive
    · rw [retired,new]
      rfl

theorem retire_first_calm {slots : List Addr} (done : Workers.retire_first h slots = .ok h') : Calm h h' := by
  induction slots with
  | nil =>
    cases done
    exact Calm.refl h
  | cons worker slots ih =>
    obtain ⟨w,found,rest⟩ := bind_eq_ok.mp done
    split at rest
    · cases rest
      exact put_calm (deref_iff.mp found) rfl (fun same => by cases same)
    · exact ih rest

/-- The monitor leaves all queues alone. -/
theorem moniter_calm (done : Workers.atm_task_moniter_routine n p = .ok p') :
    Calm p.heap p'.heap ∧ p'.freed_tasks = p.freed_tasks := by
  obtain ⟨load,_,rest⟩ := bind_eq_ok.mp done
  dsimp only at rest
  split at rest
  · cases rest
    exact ⟨alloc_calm p.heap,rfl⟩
  · split at rest
    · rw [mapError_ok,Workers.atm_task_del_worker] at rest
      split at rest
      · cases rest
        exact ⟨Calm.refl _,rfl⟩
      · obtain ⟨heap,retiring,last⟩ := bind_eq_ok.mp rest
        cases last
        exact ⟨retire_first_calm retiring,rfl⟩
    · cases rest
      exact ⟨Calm.refl _,rfl⟩

/-! ### Where a task is -/

/-- The tasks of one worker. -/
def of (worker : Addr) (given : List (Addr × Nat)) : List Nat := (given.filter (fun a => a.1 = worker)).map Prod.snd

theorem of_append (worker : Addr) (given more : List (Addr × Nat)) : of worker (given ++ more) = of worker given ++ of worker more := by
  rw [of,List.filter_append,List.map_append]
  rfl

theorem of_singleton (worker a : Addr) (t : Nat) : of worker [(a,t)] = if worker = a then [t] else [] := by
  by_cases same : worker = a
  · rw [if_pos same,of,List.filter_cons_of_pos (by simpa using same.symm)]
    rfl
  · rw [if_neg same,of,List.filter_cons_of_neg (by simpa using Ne.symm same)]
    rfl

/-- What holds after the dispatch of the tasks `ts` to `n` workers at least. -/
structure Traced (n : Nat) (ts : List Nat) (s : System) : Prop where
  sound : Sound s.pool
  staffed : n ≤ s.pool.workers.length
  order : s.notify_pipe.called ++ s.notify_pipe.mqueue = ts
  called : s.assigned.map Prod.snd = s.notify_pipe.called
  each : ∀ worker, of worker s.assigned = of worker s.executed ++ (s.running worker).toList ++ queued s.pool.heap worker
  slots : ∀ a ∈ s.assigned, a.1 ∈ s.pool.workers
  alive : ∀ worker, retired s.pool.heap worker = false
  kept : s.pool.freed = [] ∧ s.pool.freed_tasks = []

/-- At first there are no tasks. -/
theorem init_calm (n : Nat) : Calm [] (Workers.atm_task_init n).heap ∧ (Workers.atm_task_init n).freed_tasks = [] := by
  rw [Workers.atm_task_init]
  induction n with
  | zero => exact ⟨Calm.refl [],rfl⟩
  | succ n ih =>
    obtain ⟨before,freed_tasks⟩ := ih
    have calm := alloc_calm (Nat.repeat Workers.atm_task_add_worker n ⟨[],[],0,[],[]⟩).heap
    exact ⟨⟨fun worker => (calm.queued worker).trans (before.queued worker),
      fun worker none => calm.alive worker (before.alive worker none)⟩,freed_tasks⟩

theorem init_traced (n : Nat) : Traced n [] (atm_task_init n) := by
  obtain ⟨reached,_⟩ := Workers.init_ok n
  obtain ⟨calm,freed_tasks⟩ := init_calm n
  have empty : ∀ worker, queued (Workers.atm_task_init n).heap worker = [] := fun worker => (calm.queued worker).trans rfl
  have alive : ∀ worker, retired (Workers.atm_task_init n).heap worker = false := fun worker => calm.alive worker rfl
  refine ⟨reached.sound,reached.slots,rfl,rfl,fun worker => ?_,(fun _ member => absurd member List.not_mem_nil),alive,reached.freed,freed_tasks⟩
  exact (empty worker).symm

/-- A step of the pipe without a callback. -/
theorem quiet_called {q : Pipe Nat} {k : Pipes.Label Nat} (quiet : message s.notify_pipe k = none)
    (done : Pipes.step capacity s.notify_pipe k = .ok q) : q.called = s.notify_pipe.called := by
  rcases Pipes.step_cases done with ⟨t,m,_,_,rfl⟩ | ⟨t,_,_,rfl⟩ | ⟨_,_,_,rfl⟩ | ⟨_,_,rfl⟩ | ⟨processed,_,_,rfl⟩ | ⟨rfl,_,rfl⟩ |
    ⟨_,_,rfl⟩
  · rfl
  · rw [Pipes.notify_write]
    dsimp only
    split <;> rfl
  · rfl
  · rfl
  · rw [Pipes.handle_read]
    split
    · rfl
    · dsimp only
      split
      · rfl
      · split <;> rfl
  · have empty : s.notify_pipe.mqueue = [] := List.head?_eq_none_iff.mp quiet
    rw [Pipes.process_msgs_nil empty]
  · rfl

theorem step_traced (traced : Traced n ts s) (done : step capacity n s l = .ok s') : Traced n (ts ++ l.dispatches.toList) s' := by
  rcases step_cases traced.sound done with ⟨k,q,rfl,quiet,piped,rfl⟩ |
    ⟨t,rest,worker,w,rfl,_,queue,turn,found,live,rfl⟩ | ⟨q,rfl,monitored,rfl⟩ | ⟨i,tid,worker,w,rfl,slot,found,_,_,rfl⟩ |
    ⟨i,worker,w,t,rest,rfl,slot,found,idle,_,queue,rfl⟩ | ⟨i,worker,t,rfl,slot,busy,rfl⟩
  · refine ⟨traced.sound,traced.staffed,?_,traced.called.trans (quiet_called quiet piped).symm,traced.each,traced.slots,traced.alive,traced.kept⟩
    rw [← traced.order]
    exact Pipes.step_order piped
  · have pushed : (Workers.push_task t w).status ≠ .ATM_TASK_WORK_RETIRED := live
    refine ⟨traced.sound.put found _ _,traced.staffed,?_,?_,fun other => ?_,?_,fun other => retired_put found pushed (traced.alive other),
      traced.kept⟩
    · rw [← traced.order,Pipes.process_msgs_cons queue,queue]
      simp [Label.dispatches,Pipes.Label.pushes]
    · rw [List.map_append,traced.called,Pipes.process_msgs_cons queue]
      rfl
    · dsimp only
      rw [of_append,of_singleton,traced.each,queued_put found]
      by_cases same : other = worker
      · rw [if_pos same,if_pos same,same,queued_found found,List.append_assoc]
        rfl
      · rw [if_neg same,if_neg same,List.append_nil]
    · intro a member
      rcases List.mem_append.mp member with old | new
      · exact traced.slots a old
      · rw [List.mem_singleton.mp new]
        exact List.mem_of_getElem? turn
  · obtain ⟨grows,_⟩ := Workers.moniter_ok traced.sound monitored
    obtain ⟨calm,freed_tasks⟩ := moniter_calm monitored
    refine ⟨grows.sound,traced.staffed.trans grows.slots.length_le,?_,traced.called,fun other => ?_,fun a member => grows.slots.subset (traced.slots a member),
      fun other => calm.alive other (traced.alive other),grows.freed.trans traced.kept.1,freed_tasks.trans traced.kept.2⟩
    · exact traced.order.trans (List.append_nil _).symm
    · dsimp only
      rw [calm.queued]
      exact traced.each other
  · have live := live_of_alive found (traced.alive worker)
    have calm : Calm s.pool.heap (put s.pool.heap worker { w with tid := tid }) := put_calm found rfl live
    refine ⟨traced.sound.put found _ s.pool.workers_round,traced.staffed,?_,traced.called,fun other => ?_,traced.slots,
      fun other => calm.alive other (traced.alive other),traced.kept⟩
    · exact traced.order.trans (List.append_nil _).symm
    · dsimp only
      rw [calm.queued]
      exact traced.each other
  · have alive := live_of_alive found (traced.alive worker)
    have live : ({ w with blking_tasks := rest } : Worker).status ≠ .ATM_TASK_WORK_RETIRED := alive
    refine ⟨traced.sound.put found _ s.pool.workers_round,traced.staffed,?_,traced.called,fun other => ?_,traced.slots,
      fun other => retired_put found live (traced.alive other),traced.kept⟩
    · exact traced.order.trans (List.append_nil _).symm
    · dsimp only
      rw [traced.each,queued_put found]
      by_cases same : other = worker
      · rw [if_pos same,same,Function.update_self,idle,queued_found found,queue]
        simp
      · rw [if_neg same,Function.update_of_ne same]
  · refine ⟨traced.sound,traced.staffed,?_,traced.called,fun other => ?_,traced.slots,traced.alive,traced.kept⟩
    · exact traced.order.trans (List.append_nil _).symm
    · dsimp only
      rw [traced.each,of_append,of_singleton]
      by_cases same : other = worker
      · rw [if_pos same,same,Function.update_self,busy]
        simp
      · rw [if_neg same,Function.update_of_ne same,List.append_nil]

theorem dispatched_append (ls ls' : List Label) : dispatched (ls ++ ls') = dispatched ls ++ dispatched ls' :=
  List.filterMap_append

theorem dispatched_singleton (l : Label) : dispatched [l] = l.dispatches.toList := by
  cases sent : l.dispatches <;> simp [dispatched,sent]

theorem run_traced (ran : run (step capacity n) (atm_task_init n) ls = .ok s) : Traced n (dispatched ls) s := by
  refine run_keeps (P := fun ls s => Traced n (dispatched ls) s) (init_traced n) ?_ ran
  intro pre l t u traced done
  rw [dispatched_append,dispatched_singleton]
  exact step_traced traced done

/-! ### Once -/

theorem count_of (worker : Addr) (t : Nat) (given : List (Addr × Nat)) : (of worker given).count t = given.count (worker,t) := by
  induction given with
  | nil => rfl
  | cons a given ih =>
    rw [← List.singleton_append,of_append,List.count_append,List.count_append,ih]
    obtain ⟨b,u⟩ := a
    have one : (of worker [(b,u)]).count t = [(b,u)].count (worker,t) := by
      rw [of_singleton,List.count_singleton]
      by_cases same : worker = b
      · rw [if_pos same,same,List.count_singleton]
        simp
      · rw [if_neg same,List.count_nil]
        simp [Ne.symm same]
    rw [one]

/-- What has been done with the dispatched tasks `ts`. -/
structure RunOnce (ts : List Nat) (s : System) : Prop where
  /-- Tasks are given to workers in the order of their dispatch; the others wait in the pipe. -/
  order : s.assigned.map Prod.snd ++ s.notify_pipe.mqueue = ts
  /-- A worker runs the tasks it was given in their order: some were run, one may be running, and the others wait. -/
  each : ∀ worker, of worker s.assigned = of worker s.executed ++ (s.running worker).toList ++ queued s.pool.heap worker
  /-- No task is run that was not dispatched, or more often than it was. -/
  once : (s.executed.map Prod.snd).Subperm ts
  /-- No task is freed with a worker. -/
  kept : s.pool.freed_tasks = []

/-- In every run each dispatched task is run at most once, by the worker that it was given to, and none is lost. -/
theorem tasks_run_once (ran : run (step capacity n) (atm_task_init n) ls = .ok s) : RunOnce (dispatched ls) s := by
  have traced := run_traced ran
  have order : s.assigned.map Prod.snd ++ s.notify_pipe.mqueue = dispatched ls := by rw [traced.called,traced.order]
  refine ⟨order,traced.each,?_,traced.kept.2⟩
  have given : s.executed.Subperm s.assigned := by
    refine List.subperm_ext_iff.mpr (fun a _ => ?_)
    obtain ⟨worker,t⟩ := a
    rw [← count_of,← count_of,traced.each,List.append_assoc,List.count_append]
    exact Nat.le_add_right _ _
  obtain ⟨some_given,alike,inside⟩ := given
  rw [← order]
  exact ⟨some_given.map Prod.snd,alike.map _,(inside.map _).trans (List.prefix_append _ _).sublist⟩

/-- Two tasks for two workers, one of which has run its task. -/
def two_tasks : List Label :=
  [.enter 0 5,.enter 1 6,.pipe (.push 0 10),.pipe (.push 1 20),.pipe (.write 0),.pipe .wait,.pipe .lock,.pipe .read,
    .pipe .pop,.take 1,.pipe .pop,.finish 1,.take 0]

theorem tasks_run_once_two : ∃ s, run (step 65536 2) (atm_task_init 2) two_tasks = .ok s ∧ s.executed = [(1,10)] ∧
    s.running 0 = some 20 ∧ RunOnce [10,20] s := by
  obtain ⟨s,ran⟩ : ∃ s, run (step 65536 2) (atm_task_init 2) two_tasks = .ok s := exists_ok (by decide)
  have seen : (run (step 65536 2) (atm_task_init 2) two_tasks).map (fun s => (s.executed,s.running 0)) = .ok ([(1,10)],some 20) := by
    decide
  rw [ran] at seen
  obtain ⟨executed,running⟩ := Prod.mk.inj (Except.ok.inj seen)
  exact ⟨s,ran,executed,running,tasks_run_once ran⟩

end AtmCache.Dispatch
