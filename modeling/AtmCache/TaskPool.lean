import AtmCache.TaskModel

/-!
# The size of the worker pool

`atm_task_del_worker` compares the configured size with the number of slots, and a PASSIVE worker keeps
its slot: its thread waits for a task and never retires. Once a worker was added, every
call at a low load takes one more ACTIVE worker away. The pool keeps its size in exactly the runs in
which each such call finds a worker to spare.
-/
namespace AtmCache.Tasks
open Runs

variable {n : Nat} {p p' : Pool} {l : Label} {ls : List Label}

def Worker.active (w : Worker) : Bool := w.status = .ATM_TASK_WORK_ACTIVE

/-- The number of ACTIVE workers. -/
def Pool.active (p : Pool) : Nat := p.workers.countP Worker.active

/-- At least `n` workers are ACTIVE, and the load can be computed. -/
def Staffed (n : Nat) (p : Pool) : Prop := n ≤ p.active ∧ ∃ load, atm_task_load p = .ok load

/-- A call of `atm_task_moniter_routine` at a low load, with more slots than `n`, finds more than `n` ACTIVE workers. -/
def Spared (n : Nat) (p : Pool) (l : Label) : Prop :=
  l = .moniter → (∃ load, atm_task_load p = .ok load ∧ int_of_uint load < ATM_TASK_LOW_LOAD_THRESHOLD) →
    n < p.workers.length → n < p.active

/-! ### Counting ACTIVE workers -/

theorem load_counts (ws : List Worker) :
    ∀ sums, (ws.foldl load_worker sums).2 = sums.2 + ws.countP Worker.active := by
  induction ws with
  | nil => exact fun sums => rfl
  | cons w ws ih =>
    intro sums
    rw [List.foldl_cons,ih,List.countP_cons,load_worker]
    by_cases active : w.status = .ATM_TASK_WORK_ACTIVE
    · have yes : w.active = true := decide_eq_true active
      rw [if_pos active,if_pos yes]
      omega
    · have no : ¬ w.active = true := by simpa [Worker.active] using active
      rw [if_neg active,if_neg no]
      omega

/-- The division is by the number of ACTIVE workers. -/
theorem load_returns_iff : (∃ load, atm_task_load p = .ok load) ↔ 0 < p.active := by
  have count : (p.workers.foldl load_worker (0,0)).2 = p.active := (load_counts p.workers (0,0)).trans (Nat.zero_add _)
  rw [atm_task_load]
  dsimp only
  rw [count]
  by_cases none : p.active = 0
  · rw [if_pos none]
    constructor
    · rintro ⟨load,absent⟩
      cases absent
    · omega
  · rw [if_neg none]
    exact ⟨fun _ => Nat.pos_of_ne_zero none,fun _ => ⟨_,rfl⟩⟩

theorem add_worker_active (p : Pool) : (atm_task_add_worker p).active = p.active + 1 := by
  rw [Pool.active,atm_task_add_worker,List.countP_append]
  rfl

theorem retire_first_active {ws : List Worker} (some : 0 < ws.countP Worker.active) :
    (retire_first ws).countP Worker.active + 1 = ws.countP Worker.active := by
  induction ws with
  | nil => exact absurd some (Nat.lt_irrefl 0)
  | cons w ws ih =>
    rw [retire_first]
    by_cases active : w.status = .ATM_TASK_WORK_ACTIVE
    · have yes : w.active = true := decide_eq_true active
      rw [if_pos active,List.countP_cons_of_pos yes,List.countP_cons_of_neg (by simp [Worker.active])]
    · have no : ¬ w.active = true := by simpa [Worker.active] using active
      rw [List.countP_cons_of_neg no] at some
      rw [if_neg active,List.countP_cons_of_neg no,List.countP_cons_of_neg no,ih some]

theorem init_active (n : Nat) : (atm_task_init n).active = n := by
  rw [atm_task_init,atm_task_worker_init]
  induction n with
  | zero => rfl
  | succ n ih => rw [Nat.repeat,add_worker_active,ih]

/-- A list with one element changed, whose activity stays as it was. -/
theorem set_active {ws : List Worker} {i : Nat} {w w' : Worker} (found : ws[i]? = some w) (same : w'.active = w.active) :
    (ws.set i w').countP Worker.active = ws.countP Worker.active := by
  obtain ⟨inside,rfl⟩ := List.getElem?_eq_some_iff.mp found
  have split : ws = ws.take i ++ ws[i] :: ws.drop (i+1) := by
    rw [← List.drop_eq_getElem_cons inside,List.take_append_drop]
  have changed : ws.set i w' = ws.take i ++ w' :: ws.drop (i+1) := List.set_eq_take_append_cons_drop.trans (if_pos inside)
  rw [changed]
  conv_rhs => rw [split]
  rw [List.countP_append,List.countP_append,List.countP_cons,List.countP_cons,same]

/-! ### What the steps do -/

/-- A task goes to a worker that exists; nothing else changes. -/
theorem notify_handle_active {t : Nat} (done : atm_task_notify_handle p t = .ok p') : p'.active = p.active := by
  obtain ⟨⟨q,slot⟩,got,rest⟩ := bind_eq_ok.mp done
  cases slot with
  | none => cases rest
  | some i =>
    cases rest
    have same : q.workers = p.workers := by
      rw [atm_task_get_active_worker] at got
      split at got
      · cases got
      · split at got
        · cases got
        · cases got
          split <;> rfl
    rw [Pool.active,Pool.active,← same]
    cases found : q.workers[i]? with
    | none => rw [List.modify_eq_self (List.getElem?_eq_none_iff.mp found)]
    | some w => rw [List.modify_eq_set_getElem?,found]; exact set_active found rfl

/-- A thread that takes a task keeps its status. -/
theorem worker_round_active {w w' : Worker} (done : atm_task_worker_round w = .ok w') : w'.status = w.status := by
  rw [atm_task_worker_round] at done
  split at done
  · cases done
  · obtain ⟨⟨t,rest⟩,popped,last⟩ := bind_eq_ok.mp done
    rw [atm_queue_pop_blocking] at popped
    split at popped
    · cases popped
    · rename_i some
      cases popped
      obtain ⟨first,others,same⟩ := List.exists_cons_of_ne_nil some
      rw [same] at last
      cases last
      rfl

/-- Every step but a call that deletes a worker keeps all ACTIVE workers. -/
theorem step_active (done : step n p l = .ok p') :
    p.active ≤ p'.active ∨ (l = .moniter ∧ n < p.workers.length ∧ 0 < p.active ∧ p'.active + 1 = p.active ∧
      ∃ load, atm_task_load p = .ok load ∧ int_of_uint load < ATM_TASK_LOW_LOAD_THRESHOLD) := by
  cases l with
  | moniter =>
    obtain ⟨load,loaded,rest⟩ := bind_eq_ok.mp done
    dsimp only at rest
    split at rest
    · cases rest
      exact .inl (by rw [add_worker_active]; exact Nat.le_succ _)
    · split at rest
      · rename_i low
        cases rest
        rw [atm_task_del_worker]
        by_cases small : p.workers.length ≤ n
        · exact .inl (by rw [if_pos small])
        · have positive := load_returns_iff.mp ⟨load,loaded⟩
          rw [if_neg small]
          exact .inr ⟨rfl,by omega,positive,retire_first_active positive,load,loaded,low⟩
      · cases rest
        exact .inl le_rfl
  | dispatch t => exact .inl (le_of_eq (notify_handle_active done).symm)
  | work i =>
    rw [step] at done
    cases found : p.workers[i]? with
    | none => simp [found] at done
    | some w =>
      simp only [found] at done
      obtain ⟨w',worked,rest⟩ := bind_eq_ok.mp done
      cases rest
      have same : w'.active = w.active := by rw [Worker.active,Worker.active,worker_round_active worked]
      exact .inl (le_of_eq (set_active found same).symm)

/-! ### Runs -/

/-- From `n` workers on, the pool keeps `n` ACTIVE workers throughout a run exactly when no call of
    `atm_task_moniter_routine` at a low load takes one of the last `n`. -/
theorem staffed_iff (positive : 1 ≤ n) (ran : run (step n) (atm_task_init n) ls = .ok p) :
    Always (step n) (atm_task_init n) ls (fun _ p => Staffed n p) ↔ EachStep (step n) (atm_task_init n) ls (Spared n) := by
  have staffed : ∀ {p : Pool}, n ≤ p.active → Staffed n p := fun {p} enough =>
    ⟨enough,load_returns_iff.mpr (by omega)⟩
  have within : EachStep (step n) (atm_task_init n) ls (fun _ _ => True) := fun _ _ _ _ _ => trivial
  refine always_iff_eachStep (I := fun _ p => n ≤ p.active) (le_of_eq (init_active n).symm) (fun _ _ enough => staffed enough)
    ?_ ?_ within ran
  · intro pre l t u enough _ spared done
    rcases step_active done with kept | ⟨isMoniter,slots,_,fewer,low⟩
    · exact enough.trans kept
    · have more := spared isMoniter low slots
      omega
  · intro pre l t u enough _ rough done after
    simp only [Spared,not_forall] at rough
    obtain ⟨rfl,low,slots,few⟩ := rough
    obtain ⟨load,loaded,small⟩ := low
    have deleted : step n t .moniter = .ok { t with workers := retire_first t.workers } := by
      have notHigh : ¬ ATM_TASK_HIGH_LOAD_THRESHOLD < int_of_uint load := by
        simp only [ATM_TASK_HIGH_LOAD_THRESHOLD,ATM_TASK_LOW_LOAD_THRESHOLD] at small ⊢
        omega
      rw [step,atm_task_moniter_routine,loaded,ok_bind]
      dsimp only
      rw [if_neg notHigh,if_pos small,atm_task_del_worker,if_neg (by omega)]
      rfl
    rw [deleted] at done
    cases done
    have fewer : (retire_first t.workers).countP Worker.active + 1 = t.active := retire_first_active (by
      have := load_returns_iff.mp ⟨load,loaded⟩
      exact this)
    have left : n ≤ (retire_first t.workers).countP Worker.active := after.1
    omega

/-- Whether a call is spared is found out from the pool. -/
instance sparedDecidable (n : Nat) (p : Pool) : (l : Label) → Decidable (Spared n p l)
  | .moniter =>
    match loaded : atm_task_load p with
    | .ok load =>
      decidable_of_iff (int_of_uint load < ATM_TASK_LOW_LOAD_THRESHOLD → n < p.workers.length → n < p.active) <| by
        constructor
        · rintro spared - ⟨load',same,low⟩
          rw [loaded] at same
          cases same
          exact spared low
        · exact fun spared low => spared rfl ⟨load,loaded,low⟩
    | .error e => .isTrue <| by
      rintro - ⟨load,same,_⟩
      rw [loaded] at same
      cases same
  | .dispatch _ => .isTrue fun isMoniter => nomatch isMoniter
  | .work _ => .isTrue fun isMoniter => nomatch isMoniter

/-- Eleven tasks for one worker, a second worker for the load, one PASSIVE worker after it, and another task. -/
def busy_then_relieved : List Label :=
  (List.range 11).map .dispatch ++ [.moniter] ++ List.replicate 11 (.work 0) ++ [.moniter,.dispatch 11,.work 0]

theorem staffed_iff_relieved : ∃ p, run (step 1) (atm_task_init 1) busy_then_relieved = .ok p ∧
    p.workers.map Worker.status = [.ATM_TASK_WORK_PASSIVE,.ATM_TASK_WORK_ACTIVE] ∧
      (Always (step 1) (atm_task_init 1) busy_then_relieved (fun _ p => Staffed 1 p) ↔
        EachStep (step 1) (atm_task_init 1) busy_then_relieved (Spared 1)) ∧
          EachStep (step 1) (atm_task_init 1) busy_then_relieved (Spared 1) := by
  have ran : run (step 1) (atm_task_init 1) busy_then_relieved =
      .ok ⟨[⟨[],.ATM_TASK_WORK_PASSIVE⟩,⟨[],.ATM_TASK_WORK_ACTIVE⟩],12⟩ := by decide
  exact ⟨_,ran,rfl,staffed_iff (by decide) ran,by decide +kernel⟩

/-- Eleven tasks for one worker, a second worker for the load, and quiet after that. -/
def busy_then_quiet : List Label :=
  (List.range 11).map .dispatch ++ [.moniter] ++ List.replicate 11 (.work 0) ++ [.moniter,.moniter]

/-- Both workers are PASSIVE, and the next call divides by zero. -/
theorem pool_runs_empty : ∃ p, run (step 1) (atm_task_init 1) busy_then_quiet = .ok p ∧ p.active = 0 ∧
    ¬ Staffed 1 p ∧ step 1 p .moniter = .error .divByZero := by
  refine ⟨⟨[⟨[],.ATM_TASK_WORK_PASSIVE⟩,⟨[],.ATM_TASK_WORK_PASSIVE⟩],11⟩,by decide,rfl,fun staffed => ?_,rfl⟩
  exact absurd staffed.1 (by decide)

end AtmCache.Tasks
