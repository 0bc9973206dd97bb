import AtmCache.TaskPool
import AtmCache.WorkerRecycle

/-!
# Runs of the pool with addresses

Without addresses the pool is the one of `TaskModel` (`Pool.view`), and each step is a step of that
pool; the start of a thread is not seen. In every state that is reached slots hold different
workers, and no worker was freed: a run does not get past recycling, which returns a freed
worker, whose queue is read at once.
-/
namespace AtmCache.Workers
open Heap Runs
open Tasks (Status Stop)

variable {n : Nat} {p p' : Pool} {h h' : Cells Worker} {worker : Addr} {w w' : Worker} {slots : List Addr} {l : Label}

/-! ### What is seen -/

def Worker.seen (w : Worker) : Tasks.Worker := ⟨w.blking_tasks,w.status⟩

/-- The worker at an address. -/
def seen (h : Cells Worker) (worker : Addr) : Tasks.Worker := (get h worker).elim Tasks.atm_task_worker_new Worker.seen

def Pool.view (p : Pool) : Tasks.Pool := ⟨p.workers.map (seen p.heap),p.workers_round⟩

def Label.seen : Label → Option Tasks.Label
  | .moniter => some .moniter
  | .dispatch t => some (.dispatch t)
  | .enter _ _ => none
  | .work i => some (.work i)

theorem seen_found (found : get h worker = some w) : seen h worker = w.seen := by
  rw [seen,found]
  rfl

/-- The worker in a slot that is seen. -/
theorem view_slot {i : Nat} (slot : p.workers[i]? = some worker) (found : get p.heap worker = some w) :
    p.view.workers[i]? = some w.seen := by
  rw [Pool.view,List.getElem?_map,slot,Option.map_some,seen_found found]

/-- Changing one worker is seen in its slot. -/
theorem view_put (sound : Sound p) {i : Nat} (slot : p.workers[i]? = some worker) (found : get p.heap worker = some w)
    (w' : Worker) : p.workers.map (seen (put p.heap worker w')) = (p.workers.map (seen p.heap)).set i w'.seen := by
  obtain ⟨inside,_⟩ := List.getElem?_eq_some_iff.mp slot
  refine List.ext_getElem? (fun j => ?_)
  rw [List.getElem?_set,List.getElem?_map,List.getElem?_map,List.length_map]
  by_cases same : i = j
  · subst same
    rw [if_pos rfl,if_pos inside,slot,Option.map_some,seen_found (get_put_self found w')]
  · rw [if_neg same]
    refine Option.map_congr (fun other there => ?_)
    have apart : other ≠ worker := by
      rintro rfl
      exact same ((List.getElem?_inj inside sound.nodup).mp (slot.trans there.symm))
    rw [seen,get_put_other _ apart,seen]

/-- A worker that changes is still a worker. -/
theorem Sound.put (sound : Sound p) (found : get p.heap worker = some w) (w' : Worker) (round : Nat) :
    Sound { p with heap := put p.heap worker w', workers_round := round } := by
  refine ⟨fun other member => ?_,sound.nodup⟩
  by_cases same : other = worker
  · rw [same]
    exact ⟨w',get_put_self found w'⟩
  · obtain ⟨v,there⟩ := sound.here other member
    exact ⟨v,(get_put_other _ same _).trans there⟩

/-- What a step leaves: the slots are sound, they are the old ones and maybe more, and nothing was freed. -/
structure Grows (p p' : Pool) : Prop where
  sound : Sound p'
  slots : p.workers <+: p'.workers
  freed : p'.freed = p.freed

theorem Sound.grows (sound : Sound p) : Grows p p := ⟨sound,List.prefix_refl _,rfl⟩

/-! ### Adding and deleting workers -/

theorem add_worker_grows (sound : Sound p) : Grows p (atm_task_add_worker p) := by
  have old : ∀ worker ∈ p.workers, worker < p.heap.length := by
    intro worker member
    obtain ⟨w,found⟩ := sound.here worker member
    exact get_lt found
  refine ⟨⟨fun worker member => ?_,?_⟩,List.prefix_append _ _,rfl⟩
  · rcases List.mem_append.mp member with inside | new
    · obtain ⟨w,found⟩ := sound.here worker inside
      exact ⟨w,(get_alloc_old _ (get_lt found)).trans found⟩
    · rw [List.mem_singleton.mp new]
      exact ⟨_,get_alloc_new p.heap _⟩
  · refine List.nodup_append.mpr ⟨sound.nodup,List.nodup_singleton _,fun a member b new => ?_⟩
    rw [List.mem_singleton.mp new]
    exact Nat.ne_of_lt (old a member)

theorem add_worker_view (sound : Sound p) : (atm_task_add_worker p).view = Tasks.atm_task_add_worker p.view := by
  have old : p.workers.map (seen (alloc p.heap ⟨[],.ATM_TASK_WORK_ACTIVE,0⟩)) = p.workers.map (seen p.heap) := by
    refine List.map_congr_left (fun worker member => ?_)
    obtain ⟨w,found⟩ := sound.here worker member
    rw [seen,get_alloc_old _ (get_lt found),seen]
  have new : seen (alloc p.heap ⟨[],.ATM_TASK_WORK_ACTIVE,0⟩) p.heap.length = Tasks.atm_task_worker_new := by
    rw [seen,get_alloc_new]
    rfl
  simp only [Pool.view,atm_task_add_worker,atm_task_worker_new,Tasks.atm_task_add_worker,List.map_append,old,List.map_singleton,
    new]

theorem load_view (slots : List Addr) (here : ∀ worker ∈ slots, ∃ w, get h worker = some w) : ∀ sums,
    slots.foldlM (load_worker h) sums = .ok ((slots.map (seen h)).foldl Tasks.load_worker sums) := by
  induction slots with
  | nil => exact fun sums => rfl
  | cons worker slots ih =>
    intro sums
    obtain ⟨⟨w,found⟩,later⟩ := List.forall_mem_cons.mp here
    have one : load_worker h sums worker = .ok (Tasks.load_worker sums w.seen) := by
      rw [load_worker,deref_found found,ok_bind,Tasks.load_worker]
      by_cases active : w.status = .ATM_TASK_WORK_ACTIVE
      · rw [if_pos active,if_pos (show w.seen.status = _ from active)]
        rfl
      · rw [if_neg active,if_neg (show ¬ w.seen.status = _ from active)]
        rfl
    rw [List.foldlM_cons,one,ok_bind,ih later,List.map_cons,List.foldl_cons,seen_found found]

/-- The load is the one that is seen. -/
theorem task_load_view (sound : Sound p) : atm_task_load p = Tasks.atm_task_load p.view := by
  rw [atm_task_load,load_view p.workers sound.here]
  rfl

/-- The loop makes the first ACTIVE worker PASSIVE. -/
theorem retire_first_view (slots : List Addr) (nodup : slots.Nodup) (here : ∀ worker ∈ slots, ∃ w, get h worker = some w) :
    ∃ h', retire_first h slots = .ok h' ∧ slots.map (seen h') = Tasks.retire_first (slots.map (seen h)) ∧
      (∀ worker ∈ slots, ∃ w, get h' worker = some w) ∧ ∀ worker, worker ∉ slots → get h' worker = get h worker := by
  induction slots with
  | nil => exact ⟨h,rfl,rfl,here,fun _ _ => rfl⟩
  | cons worker slots ih =>
    obtain ⟨outside,rest⟩ := List.nodup_cons.mp nodup
    obtain ⟨⟨w,found⟩,later⟩ := List.forall_mem_cons.mp here
    rw [retire_first,deref_found found,ok_bind,List.map_cons,seen_found found,Tasks.retire_first]
    by_cases active : w.status = .ATM_TASK_WORK_ACTIVE
    · have other : ∀ b ∈ slots, get (put h worker { w with status := .ATM_TASK_WORK_PASSIVE }) b = get h b :=
        fun b member => get_put_other _ (fun same : b = worker => outside (same ▸ member)) _
      rw [if_pos active,if_pos (show w.seen.status = _ from active)]
      refine ⟨_,rfl,?_,List.forall_mem_cons.mpr ⟨⟨_,get_put_self found _⟩,fun b member => ?_⟩,fun b absent => ?_⟩
      · rw [List.map_cons,seen_found (get_put_self found _)]
        exact congrArg _ (List.map_congr_left (fun b member => by rw [seen,other b member,seen]))
      · rw [other b member]
        exact later b member
      · exact get_put_other _ (List.ne_of_not_mem_cons absent) _
    · obtain ⟨h',retired',viewed,there,kept⟩ := ih rest later
      have same : get h' worker = some w := (kept worker outside).trans found
      rw [if_neg active,if_neg (show ¬ w.seen.status = _ from active)]
      refine ⟨h',retired',?_,List.forall_mem_cons.mpr ⟨⟨w,same⟩,there⟩,fun b absent => kept b (List.not_mem_of_not_mem_cons absent)⟩
      rw [List.map_cons,seen_found same,viewed]

theorem del_worker_view (sound : Sound p) (n : Nat) :
    ∃ p', atm_task_del_worker n p = .ok p' ∧ Grows p p' ∧ p'.view = Tasks.atm_task_del_worker n p.view := by
  have length : p.view.workers.length = p.workers.length := List.length_map ..
  rw [atm_task_del_worker,Tasks.atm_task_del_worker,length]
  by_cases small : p.workers.length ≤ n
  · rw [if_pos small,if_pos small]
    exact ⟨p,rfl,sound.grows,rfl⟩
  · obtain ⟨h',done,viewed,there,_⟩ := retire_first_view p.workers sound.nodup sound.here
    rw [if_neg small,if_neg small,done]
    refine ⟨_,rfl,⟨⟨there,sound.nodup⟩,List.prefix_refl _,rfl⟩,?_⟩
    rw [Pool.view]
    dsimp only
    rw [viewed]
    rfl

/-! ### Tasks -/

/-- The dispatch of the pool without addresses. -/
theorem notify_handle_view (sound : Sound p) (t : Nat) :
    Tasks.atm_task_notify_handle p.view t = ((atm_task_notify_handle p t).map Pool.view).mapError .fault := by
  by_cases staffed : ∃ worker, worker ∈ p.workers
  · obtain ⟨worker,turn⟩ := candidate_some staffed
    obtain ⟨w,found⟩ := sound.here worker (List.mem_of_getElem? turn)
    obtain ⟨inside,_⟩ := List.getElem?_eq_some_iff.mp turn
    have positive : 0 < p.workers.length := by omega
    have slot : (p.workers.map (seen p.heap))[u32 (p.workers_round + 1) % p.workers.length]? = some w.seen :=
      view_slot turn found
    rw [notify_handle_ok sound turn found]
    simp only [Tasks.atm_task_notify_handle,Tasks.atm_task_get_active_worker,Pool.view,List.length_map,positive,↓reduceIte,slot]
    by_cases dead : w.status = .ATM_TASK_WORK_RETIRED
    · simp only [Worker.seen,dead,↓reduceIte,ok_bind,throw_eq_error]
      rfl
    · simp only [Worker.seen,dead,↓reduceIte,ok_bind,pure_eq_ok]
      rw [List.modify_eq_set_getElem?,slot]
      have pushed := (view_put sound turn found (push_task t w)).symm
      exact congrArg (fun workers => (Except.ok ⟨workers,u32 (p.workers_round + 1)⟩ : Except Stop Tasks.Pool)) pushed
  · have empty : p.workers = [] := List.eq_nil_iff_forall_not_mem.mpr (fun worker member => staffed ⟨worker,member⟩)
    obtain ⟨heap,workers,workers_round,freed,freed_tasks⟩ := p
    cases empty
    rfl

/-- A dispatch that returned has freed nothing. -/
theorem notify_handle_grows (sound : Sound p) {t : Nat} (done : atm_task_notify_handle p t = .ok p') : Grows p p' := by
  by_cases staffed : ∃ worker, worker ∈ p.workers
  · obtain ⟨worker,turn⟩ := candidate_some staffed
    obtain ⟨w,found⟩ := sound.here worker (List.mem_of_getElem? turn)
    rw [notify_handle_ok sound turn found] at done
    split at done
    · cases done
    · cases done
      exact ⟨sound.put found _ _,List.prefix_refl _,rfl⟩
  · have empty : p.workers = [] := List.eq_nil_iff_forall_not_mem.mpr (fun worker member => staffed ⟨worker,member⟩)
    obtain ⟨heap,workers,workers_round,freed,freed_tasks⟩ := p
    cases empty
    cases done

/-- The round of a thread does not look at its `tid`. -/
theorem worker_round_view (w : Worker) : Tasks.atm_task_worker_round w.seen = (atm_task_worker_round w).map Worker.seen := by
  obtain ⟨blking_tasks,status,tid⟩ := w
  cases blking_tasks <;> cases status <;> rfl

theorem on_worker_ok (sound : Sound p) {i : Nat} {f : Worker → Except Stop Worker} (done : on_worker p i f = .ok p') :
    ∃ worker w w', p.workers[i]? = some worker ∧ get p.heap worker = some w ∧ f w = .ok w' ∧
      p' = { p with heap := put p.heap worker w' } := by
  rw [on_worker] at done
  cases slot : p.workers[i]? with
  | none =>
    rw [slot] at done
    cases done
  | some worker =>
    obtain ⟨w,found⟩ := sound.here worker (List.mem_of_getElem? slot)
    rw [slot] at done
    dsimp only at done
    rw [deref_found found] at done
    obtain ⟨w',changed,last⟩ := bind_eq_ok.mp (show (f w >>= fun w' => _) = _ from done)
    cases last
    exact ⟨worker,w,w',rfl,found,changed,rfl⟩

/-! ### Steps and runs -/

theorem moniter_ok (sound : Sound p) (done : atm_task_moniter_routine n p = .ok p') :
    Grows p p' ∧ Tasks.atm_task_moniter_routine n p.view = .ok p'.view := by
  obtain ⟨load,loaded,rest⟩ := bind_eq_ok.mp done
  rw [task_load_view sound] at loaded
  rw [Tasks.atm_task_moniter_routine,loaded,ok_bind]
  dsimp only at rest ⊢
  by_cases high : Tasks.ATM_TASK_HIGH_LOAD_THRESHOLD < Tasks.int_of_uint load
  · rw [if_pos high] at rest ⊢
    cases rest
    exact ⟨add_worker_grows sound,by rw [add_worker_view sound]; rfl⟩
  · rw [if_neg high] at rest ⊢
    by_cases low : Tasks.int_of_uint load < Tasks.ATM_TASK_LOW_LOAD_THRESHOLD
    · obtain ⟨q,deleted,grows,viewed⟩ := del_worker_view sound n
      rw [if_pos low] at rest ⊢
      rw [deleted] at rest
      cases rest
      exact ⟨grows,by rw [viewed]; rfl⟩
    · rw [if_neg low] at rest ⊢
      cases rest
      exact ⟨sound.grows,rfl⟩

/-- A step adds slots at most and frees nothing, and is seen as a step of the pool without addresses. -/
theorem step_ok (sound : Sound p) (done : step n p l = .ok p') :
    Grows p p' ∧ (l.seen = none → p'.view = p.view) ∧ ∀ k, l.seen = some k → Tasks.step n p.view k = .ok p'.view := by
  cases l with
  | moniter =>
    obtain ⟨grows,viewed⟩ := moniter_ok sound done
    exact ⟨grows,(fun unseen => by cases unseen),fun k same => by cases same; exact viewed⟩
  | dispatch t =>
    rw [step] at done
    cases handled : atm_task_notify_handle p t with
    | error f =>
      rw [handled] at done
      cases done
    | ok q =>
      rw [handled] at done
      cases done
      refine ⟨notify_handle_grows sound handled,(fun unseen => by cases unseen),fun k same => ?_⟩
      cases same
      exact (notify_handle_view sound t).trans (by rw [handled]; rfl)
  | enter i tid =>
    obtain ⟨worker,w,w',slot,found,changed,rfl⟩ := on_worker_ok sound done
    cases changed
    refine ⟨⟨sound.put found _ p.workers_round,List.prefix_refl _,rfl⟩,fun _ => ?_,fun k same => by cases same⟩
    obtain ⟨inside,same⟩ := List.getElem?_eq_some_iff.mp (view_slot slot found)
    have kept : (p.workers.map (seen p.heap)).set i w.seen = p.workers.map (seen p.heap) := by
      rw [← same]
      exact List.set_getElem_self inside
    exact congrArg (fun workers => Tasks.Pool.mk workers p.workers_round) ((view_put sound slot found _).trans kept)
  | work i =>
    obtain ⟨worker,w,w',slot,found,changed,rfl⟩ := on_worker_ok sound done
    refine ⟨⟨sound.put found _ p.workers_round,List.prefix_refl _,rfl⟩,(fun unseen => by cases unseen),fun k same => ?_⟩
    cases same
    have round : Tasks.atm_task_worker_round w.seen = .ok w'.seen := by
      rw [worker_round_view,changed]
      rfl
    rw [Tasks.step,view_slot slot found]
    dsimp only
    rw [round]
    exact congrArg (fun workers => (Except.ok ⟨workers,p.workers_round⟩ : Except Stop Tasks.Pool)) (view_put sound slot found w').symm

/-- What holds of every pool that is reached. -/
structure Reached (n : Nat) (p : Pool) : Prop where
  sound : Sound p
  slots : n ≤ p.workers.length
  freed : p.freed = []

theorem Reached.grow (reached : Reached n p) (grows : Grows p p') : Reached n p' :=
  ⟨grows.sound,reached.slots.trans grows.slots.length_le,grows.freed.trans reached.freed⟩

theorem init_ok (n : Nat) : Reached n (atm_task_init n) ∧ (atm_task_init n).view = Tasks.atm_task_init n := by
  rw [atm_task_init,Tasks.atm_task_init,Tasks.atm_task_worker_init]
  induction n with
  | zero => exact ⟨⟨⟨fun _ member => absurd member List.not_mem_nil,List.nodup_nil⟩,Nat.le_refl 0,rfl⟩,rfl⟩
  | succ n ih =>
    obtain ⟨⟨sound,slots,freed⟩,viewed⟩ := ih
    rw [Nat.repeat,Nat.repeat,← viewed]
    refine ⟨⟨(add_worker_grows sound).sound,?_,freed⟩,add_worker_view sound⟩
    rw [atm_task_add_worker,List.length_append]
    exact Nat.succ_le_succ slots

/-- A run is seen as a run of the pool without addresses. No worker has left its slot or was freed. -/
theorem run_view {ls : List Label} (ran : run (step n) (atm_task_init n) ls = .ok p) :
    Reached n p ∧ run (Tasks.step n) (Tasks.atm_task_init n) (ls.filterMap Label.seen) = .ok p.view := by
  obtain ⟨start,viewed⟩ := init_ok n
  rw [← viewed]
  refine run_mapped (Tasks.step n) Pool.view Label.seen (I := Reached n) start ?_ ?_ ?_ ran
  · exact fun _ _ _ reached done => reached.grow (step_ok reached.sound done).1
  · exact fun _ _ _ reached done => (step_ok reached.sound done).2.1
  · exact fun _ _ _ k reached done => (step_ok reached.sound done).2.2 k

/-- In every state that is reached, a dispatch goes on exactly when the worker whose turn it is is not RETIRED. -/
theorem dispatch_returns_iff (positive : 1 ≤ n) {ls : List Label} (ran : run (step n) (atm_task_init n) ls = .ok p) (t : Nat) :
    (∃ p', step n p (.dispatch t) = .ok p') ↔ ¬ Recycles p := by
  have reached := (run_view ran).1
  have staffed : ∃ worker, worker ∈ p.workers := List.exists_mem_of_length_pos (positive.trans reached.slots)
  rw [← notify_handle_returns_iff reached.sound staffed t,step]
  cases atm_task_notify_handle p t with
  | error f =>
    constructor
    · rintro ⟨_,done⟩
      cases done
    · rintro ⟨_,done⟩
      cases done
  | ok q => exact ⟨fun _ => ⟨q,rfl⟩,fun _ => ⟨q,rfl⟩⟩

end AtmCache.Workers
