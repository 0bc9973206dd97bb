import Mathlib.Data.List.Nodup
import AtmCache.WorkerModel

/-!
# Recycled workers

Recycling leaves exactly the workers that are not RETIRED, in order, and frees every RETIRED one once.
It runs when the worker whose turn it is is RETIRED, and that worker, which has
just been freed, is returned.
-/
namespace AtmCache.Workers
open Heap Runs
open Tasks (Status)

variable {p p' : Pool} {h : Cells Worker} {a worker : Addr} {w : Worker}

def retired (h : Cells Worker) (worker : Addr) : Bool :=
  (get h worker).any (fun w => w.status = .ATM_TASK_WORK_RETIRED)

def Pool.live (p : Pool) : List Addr := p.workers.filter (fun worker => !retired p.heap worker)

def Pool.dead (p : Pool) : List Addr := p.workers.filter (retired p.heap)

/-- Slots hold different workers, all of which are in memory. -/
structure Sound (p : Pool) : Prop where
  here : ∀ worker ∈ p.workers, ∃ w, get p.heap worker = some w
  nodup : p.workers.Nodup

/-- The worker whose turn it is. -/
def Pool.candidate (p : Pool) : Option Addr := p.workers[u32 (p.workers_round + 1) % p.workers.length]?

/-- Recycling runs. -/
def Recycles (p : Pool) : Prop := ∃ worker, p.candidate = some worker ∧ retired p.heap worker = true

/-- What recycling does to a pool. -/
structure Recycled (p p' : Pool) : Prop where
  workers : p'.workers = p.live
  once : ∀ worker ∈ p.workers, retired p.heap worker = true → p'.freed.count worker = p.freed.count worker + 1
  only : p'.freed = p.freed ++ p.dead
  heap : ∀ worker, get p'.heap worker = if worker ∈ p.dead then none else get p.heap worker

/-- The worker that is returned can be given a task, and the workers were recycled properly if at all. -/
structure Assigned (p p' : Pool) (worker : Addr) : Prop where
  usable : ∃ w, get p'.heap worker = some w ∧ w.status ≠ .ATM_TASK_WORK_RETIRED
  member : worker ∈ p'.workers
  recycled : Recycles p → Recycled p p'

/-! ### Recycling -/

theorem retired_found (found : get h worker = some w) :
    retired h worker = true ↔ w.status = .ATM_TASK_WORK_RETIRED := by
  simp [retired,found]

theorem deref_found (found : get h worker = some w) : deref h worker = .ok w := by
  rw [deref,found]

theorem free_put (h : Cells Worker) (worker : Addr) (w : Worker) : free (put h worker w) worker = free h worker :=
  List.set_set ..

/-- The tasks that are freed with some workers. -/
def tasks (h : Cells Worker) (workers : List Addr) : List Nat :=
  workers.flatMap (fun worker => (get h worker).elim [] Worker.blking_tasks)

/-- A pool in which some workers are freed. -/
def Pool.without (p : Pool) (dead : List Addr) : Pool :=
  ⟨dead.foldl free p.heap,p.workers,p.workers_round,p.freed ++ dead,p.freed_tasks ++ tasks p.heap dead⟩

theorem worker_free_ok (found : get p.heap worker = some w) : atm_task_worker_free p worker = .ok (p.without [worker]) := by
  have freed : free (if w.tid ≠ 0 then put p.heap worker { w with status := .ATM_TASK_WORK_RETIRED } else p.heap) worker =
      free p.heap worker := by
    split
    · exact free_put ..
    · rfl
  rw [atm_task_worker_free,deref_found found,ok_bind]
  dsimp only
  rw [freed,pure_eq_ok,Pool.without,tasks,List.flatMap_singleton,found]
  rfl

/-- Freeing one worker and then others. -/
theorem without_cons {dead : List Addr} (outside : worker ∉ dead) :
    (p.without [worker]).without dead = p.without (worker :: dead) := by
  have others : tasks (free p.heap worker) dead = tasks p.heap dead := by
    refine List.flatMap_congr (fun other member => ?_)
    rw [get_free_other _ (fun same => outside (by rw [← same]; exact member))]
  have split : tasks p.heap (worker :: dead) = tasks p.heap [worker] ++ tasks p.heap dead := by
    rw [tasks,tasks,tasks,← List.flatMap_append,List.singleton_append]
  simp only [Pool.without,List.foldl_cons,List.foldl_nil,others,split,List.append_assoc,List.singleton_append]

/-- The loop keeps the slots that are not RETIRED and frees the others. -/
theorem recycle_loop (slots : List Addr) : ∀ (p : Pool) (workers_tmp : List Addr), slots.Nodup →
    (∀ worker ∈ slots, ∃ w, get p.heap worker = some w) →
    slots.foldlM recycle_worker (p,workers_tmp) =
      .ok (p.without (slots.filter (retired p.heap)),workers_tmp ++ slots.filter (fun worker => !retired p.heap worker)) := by
  induction slots with
  | nil =>
    intro p workers_tmp _ _
    simp [Pool.without,tasks,pure_eq_ok]
  | cons worker slots ih =>
    intro p workers_tmp nodup here
    obtain ⟨outside,rest⟩ := List.nodup_cons.mp nodup
    obtain ⟨⟨w,found⟩,later⟩ := List.forall_mem_cons.mp here
    rw [List.foldlM_cons,recycle_worker,deref_found found,ok_bind]
    dsimp only
    by_cases dead : w.status = .ATM_TASK_WORK_RETIRED
    · have yes : retired p.heap worker = true := (retired_found found).mpr dead
      have same : ∀ other ∈ slots, get (p.without [worker]).heap other = get p.heap other :=
        fun other member => get_free_other _ (fun same => outside (by rw [← same]; exact member))
      have retires : ∀ other ∈ slots, retired (p.without [worker]).heap other = retired p.heap other := by
        intro other member
        rw [retired,same other member,retired]
      have lives : ∀ other ∈ slots, (!retired (p.without [worker]).heap other) = !retired p.heap other :=
        fun other member => by rw [retires other member]
      have there : ∀ other ∈ slots, ∃ w, get (p.without [worker]).heap other = some w := by
        intro other member
        rw [same other member]
        exact later other member
      have fresh : worker ∉ slots.filter (retired p.heap) := fun member => outside (List.mem_filter.mp member).1
      rw [if_neg (fun live => live dead),worker_free_ok found,ok_bind,pure_eq_ok,ok_bind,ih _ _ rest there,
        List.filter_congr retires,List.filter_congr lives,without_cons fresh,List.filter_cons_of_pos yes,
        List.filter_cons_of_neg (by simp [yes])]
    · have no : retired p.heap worker = false := Bool.eq_false_iff.mpr (fun yes => dead ((retired_found found).mp yes))
      rw [if_pos dead,pure_eq_ok,ok_bind,ih p _ rest later,List.filter_cons_of_neg (by simp [no]),
        List.filter_cons_of_pos (by simp [no]),List.append_assoc,List.singleton_append]

theorem recycle_ok (sound : Sound p) : recycle p = .ok { p.without p.dead with workers := p.live } := by
  rw [recycle,recycle_loop p.workers p [] sound.nodup sound.here,ok_bind]
  rfl

/-- Recycling does what it is for. -/
theorem recycled (sound : Sound p) (round : Nat) :
    Recycled p { p.without p.dead with workers := p.live, workers_round := round } := by
  refine ⟨rfl,fun worker member dead => ?_,rfl,fun worker => get_foldl_free p.dead p.heap worker⟩
  have inside : worker ∈ p.dead := List.mem_filter.mpr ⟨member,dead⟩
  have once : p.dead.count worker = 1 := List.count_eq_one_of_mem (sound.nodup.filter _) inside
  exact List.count_append.trans (congrArg _ once)

/-! ### The worker that is returned -/

/-- The pool that is left, and the worker, by whether that worker is RETIRED. -/
theorem get_active_worker_ok (sound : Sound p) (turn : p.candidate = some worker) :
    atm_task_get_active_worker p = .ok
      (if retired p.heap worker then { p.without p.dead with workers := p.live, workers_round := u32 (p.workers_round + 1) }
        else { p with workers_round := u32 (p.workers_round + 1) },worker) := by
  obtain ⟨inside,_⟩ := List.getElem?_eq_some_iff.mp turn
  have positive : 0 < p.workers.length := by omega
  obtain ⟨w,found⟩ := sound.here worker (List.mem_of_getElem? turn)
  have sound' : Sound { p with workers_round := u32 (p.workers_round + 1) } := ⟨sound.here,sound.nodup⟩
  have slot : p.workers[u32 (p.workers_round + 1) % p.workers.length]? = some worker := turn
  simp only [atm_task_get_active_worker,positive,↓reduceIte,slot,deref_found found,ok_bind,recycle_ok sound',pure_eq_ok]
  by_cases dead : w.status = .ATM_TASK_WORK_RETIRED
  · rw [if_pos dead,if_pos ((retired_found found).mpr dead)]
    rfl
  · rw [if_neg dead,if_neg (fun yes => dead ((retired_found found).mp yes))]

theorem recycles_iff (turn : p.candidate = some worker) : Recycles p ↔ retired p.heap worker = true := by
  constructor
  · rintro ⟨other,same,dead⟩
    rw [turn] at same
    cases same
    exact dead
  · exact fun dead => ⟨worker,turn,dead⟩

/-- With workers it is the turn of one of them. -/
theorem candidate_some (staffed : ∃ worker, worker ∈ p.workers) : ∃ worker, p.candidate = some worker := by
  obtain ⟨worker,member⟩ := staffed
  exact ⟨_,List.getElem?_eq_getElem (Nat.mod_lt _ (List.length_pos_of_mem member))⟩

/-- The worker that is returned is in use exactly when the worker whose turn it is is not RETIRED.
    Recycling itself is right, and when it does not run nothing changes but the round; so the array is
    left without RETIRED workers, and the worker in use, exactly when none was RETIRED. -/
theorem get_active_worker_assigned_iff (sound : Sound p) (staffed : ∃ worker ∈ p.workers, retired p.heap worker = false) :
    ∃ p' worker, atm_task_get_active_worker p = .ok (p',worker) ∧ (Assigned p p' worker ↔ ¬ Recycles p) ∧
      (Recycles p → Recycled p p') ∧ (¬ Recycles p → p' = { p with workers_round := u32 (p.workers_round + 1) }) ∧
      ((Assigned p p' worker ∧ p'.workers = p.live) ↔ ∀ other ∈ p.workers, retired p.heap other = false) := by
  obtain ⟨other,listed,_⟩ := staffed
  obtain ⟨worker,turn⟩ := candidate_some ⟨other,listed⟩
  have member : worker ∈ p.workers := List.mem_of_getElem? turn
  obtain ⟨w,found⟩ := sound.here worker member
  refine ⟨_,worker,get_active_worker_ok sound turn,?_⟩
  by_cases dead : retired p.heap worker = true
  · have runs : Recycles p := (recycles_iff turn).mpr dead
    have inside : worker ∈ p.dead := List.mem_filter.mpr ⟨member,dead⟩
    have done := recycled sound (u32 (p.workers_round + 1))
    have gone : ¬ Assigned p { p.without p.dead with workers := p.live, workers_round := u32 (p.workers_round + 1) } worker := by
      rintro ⟨⟨v,still,_⟩,_,_⟩
      rw [done.heap,if_pos inside] at still
      cases still
    rw [if_pos dead]
    refine ⟨⟨fun good => absurd good gone,fun quiet => absurd runs quiet⟩,fun _ => done,fun quiet => absurd runs quiet,
      ⟨fun good => absurd good.1 gone,fun all => ?_⟩⟩
    rw [all worker member] at dead
    cases dead
  · have quiet : ¬ Recycles p := fun runs => dead ((recycles_iff turn).mp runs)
    have good : Assigned p { p with workers_round := u32 (p.workers_round + 1) } worker :=
      ⟨⟨w,found,fun same => dead ((retired_found found).mpr same)⟩,member,fun runs => absurd runs quiet⟩
    rw [if_neg dead]
    refine ⟨⟨fun _ => quiet,fun _ => good⟩,fun runs => absurd runs quiet,fun _ => rfl,?_⟩
    have kept : p.workers = p.live ↔ ∀ other ∈ p.workers, retired p.heap other = false := by
      rw [Pool.live,eq_comm,List.filter_eq_self]
      simp
    exact ⟨fun both => kept.mp both.2,fun all => ⟨good,kept.mpr all⟩⟩

/-- Worker 0 is RETIRED, worker 1 is ACTIVE. -/
def one_retired (workers_round : Nat) : Pool :=
  ⟨[some ⟨[],.ATM_TASK_WORK_RETIRED,5⟩,some ⟨[],.ATM_TASK_WORK_ACTIVE,6⟩],[0,1],workers_round,[],[]⟩

theorem one_retired_sound (workers_round : Nat) : Sound (one_retired workers_round) := by
  refine ⟨fun worker member => ?_,show ([0,1] : List Addr).Nodup by decide⟩
  rcases List.mem_cons.mp member with rfl | member
  · exact ⟨_,rfl⟩
  · cases List.mem_singleton.mp member
    exact ⟨_,rfl⟩

theorem get_active_worker_assigned_iff_other :
    ∃ p' worker, atm_task_get_active_worker (one_retired 0) = .ok (p',worker) ∧ Assigned (one_retired 0) p' worker := by
  have staffed : ∃ worker ∈ (one_retired 0).workers, retired (one_retired 0).heap worker = false := ⟨1,by decide,by decide⟩
  obtain ⟨p',worker,done,good,_⟩ := get_active_worker_assigned_iff (one_retired_sound 0) staffed
  refine ⟨p',worker,done,good.mpr ?_⟩
  rintro ⟨turn,same,dead⟩
  cases same
  cases dead

/-- The turn of a RETIRED worker: it is freed and returned, although worker 1 could be. -/
theorem freed_worker_is_returned : Sound (one_retired 1) ∧ retired (one_retired 1).heap 1 = false ∧
    ∃ p', atm_task_get_active_worker (one_retired 1) = .ok (p',0) ∧ get p'.heap 0 = none ∧ 0 ∉ p'.workers ∧ p'.freed = [0] ∧
      ¬ Assigned (one_retired 1) p' 0 := by
  refine ⟨one_retired_sound 1,by decide,_,rfl,by decide,by decide,rfl,?_⟩
  rintro ⟨_,member,_⟩
  exact absurd member (by decide)

/-! ### Dispatching -/

theorem notify_handle_ok (sound : Sound p) (turn : p.candidate = some worker) (found : get p.heap worker = some w) (t : Nat) :
    atm_task_notify_handle p t = if w.status = .ATM_TASK_WORK_RETIRED then .error .useAfterFree
      else .ok { p with heap := put p.heap worker (push_task t w), workers_round := u32 (p.workers_round + 1) } := by
  rw [atm_task_notify_handle,get_active_worker_ok sound turn,ok_bind]
  dsimp only
  by_cases dead : w.status = .ATM_TASK_WORK_RETIRED
  · have yes := (retired_found found).mpr dead
    have inside : worker ∈ p.dead := List.mem_filter.mpr ⟨List.mem_of_getElem? turn,yes⟩
    have gone : get (p.dead.foldl free p.heap) worker = none := (get_foldl_free ..).trans (if_pos inside)
    rw [if_pos yes,if_pos dead]
    simp only [Pool.without,deref,gone,error_bind]
  · rw [if_neg (fun yes => dead ((retired_found found).mp yes)),if_neg dead,deref_found found]
    rfl

/-- A dispatched task reaches a queue exactly when recycling does not run. -/
theorem notify_handle_returns_iff (sound : Sound p) (staffed : ∃ worker, worker ∈ p.workers) (t : Nat) :
    (∃ p', atm_task_notify_handle p t = .ok p') ↔ ¬ Recycles p := by
  obtain ⟨worker,turn⟩ := candidate_some staffed
  obtain ⟨w,found⟩ := sound.here worker (List.mem_of_getElem? turn)
  rw [notify_handle_ok sound turn found,recycles_iff turn,retired_found found]
  split <;> simp_all

end AtmCache.Workers
