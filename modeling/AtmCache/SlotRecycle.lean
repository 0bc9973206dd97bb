import AtmCache.SlotRuns

/-!
# What is deleted and recycled

`atm_task_del_worker` and the recycling loop of `atm_task_get_active_worker` on the slots of a run, against the
same work on the workers that are stored there. The threads may have set the statuses of the workers in any way.
A round of the recycling loop copies its slot or frees what it takes for a worker; after the latter the old array
is gone, and the loop or the free at its end fails (`recycle_returns`).
-/
namespace AtmCache.Slots
open CStrings Heap Runs Slices Arrays

variable {m m' : Mem} {w : Ptr} {arr arr' : Arr} {words : List (List Cell)} {s : State}

/-- Some workers get other statuses. -/
def mark (m : Mem) (statuses : List (Ptr × Nat)) : Except Fault Mem :=
  statuses.foldlM (fun m x => store m (worker_status x.1) (bytes_of_uint x.2)) m

/-- Memories of a state with any statuses of its workers. -/
def Marked (s : State) (m : Mem) : Prop := ∃ statuses, (∀ x ∈ statuses, x.1 ∈ s.added) ∧ mark s.mem statuses = .ok m

/-- The first worker that is ACTIVE becomes PASSIVE, if there are more than are configured. -/
def DelRight (workernum : Nat) (s : State) : Prop := ∀ m, Marked s m →
  atm_task_del_worker workernum m s.workers =
    if s.added.length ≤ u32 workernum then .ok (m,false) else retire_first m s.added

/-- The workers that are not RETIRED. -/
def unretired (m : Mem) (ws : List Ptr) : List Ptr :=
  ws.filter (fun w => load_uint m (worker_status w) ≠ .ok ATM_TASK_WORK_RETIRED)

/-- The RETIRED workers are freed and no others, which the new array holds in order. -/
def RecycleRight (s : State) : Prop := ∀ m, Marked s m →
  ∃ m' workers, recycle m s.workers = .ok (m',workers) ∧
    (∀ w ∈ s.added, load_uint m' (worker_status w) = .error .useAfterFree ↔
      load_uint m (worker_status w) = .ok ATM_TASK_WORK_RETIRED) ∧
    workers.length = (unretired m s.added).length ∧
    ∀ (i : Nat) (w : Ptr), (unretired m s.added)[i]? = some w → load_ptr m' (atm_arr_get workers i) = .ok w

theorem marked_self (s : State) : Marked s s.mem := ⟨[],fun _ member => absurd member List.not_mem_nil,rfl⟩

theorem marked_none (empty : s.added = []) (marked : Marked s m) : m = s.mem := by
  obtain ⟨statuses,among,done⟩ := marked
  cases statuses with
  | nil =>
    cases done
    rfl
  | cons x xs =>
    have member := among x List.mem_cons_self
    rw [empty] at member
    exact absurd member List.not_mem_nil

/-! ### Deleting -/

theorem store_other {b offset : Nat} {data : List Cell} (done : store m (.block b offset) data = .ok m') {a : Addr}
    (other : a ≠ b) :
    get m'.heap a = get m.heap a := by
  simp only [store] at done
  split at done
  · split at done
    · cases done
      exact get_put_other _ other _
    · cases done
  · cases done

theorem retire_first_other {b : Addr} {ps : List Ptr} {res : Bool} (inside : ∀ p ∈ ps, ∃ offset, p = .block b offset)
    (done : retire_first m ps = .ok (m',res)) {a : Addr} (other : a ≠ b) : get m'.heap a = get m.heap a := by
  induction ps with
  | nil =>
    cases done
    rfl
  | cons p ps ih =>
    obtain ⟨⟨offset,rfl⟩,later⟩ := List.forall_mem_cons.mp inside
    rw [retire_first,if_neg (fun same => by cases same)] at done
    obtain ⟨status,_,rest⟩ := bind_eq_ok.mp done
    split at rest
    · obtain ⟨m₁,written,last⟩ := bind_eq_ok.mp rest
      cases last
      exact store_other written other
    · exact ih later rest

/-- Every slot is in the block of the array. -/
theorem slots_inside (stored : Stored s) : ∀ p ∈ slots s.workers, ∃ offset, p = .block s.workers._vals offset := by
  intro p there
  obtain ⟨i,below,rfl⟩ := List.mem_map.mp there
  exact ⟨_,get_slot stored.pointers (by rw [← stored.pointers.length]; exact List.mem_range.mp below)⟩

/-- `atm_task_del_worker` makes no worker PASSIVE. -/
theorem del_worker_misses {workernum : Nat} {res : Bool} (stored : Stored s)
    (done : atm_task_del_worker workernum s.mem s.workers = .ok (m',res)) :
    ∀ w ∈ s.added, load_uint m' (worker_status w) = .ok ATM_TASK_WORK_ACTIVE := by
  intro w member
  obtain ⟨b,q,tid,rfl,found,_⟩ := stored.workers w member
  have apart := pointers_apart stored.pointers found (by rw [worker_length]; decide)
  rw [atm_task_del_worker] at done
  split at done
  · cases done
    exact load_status found
  · exact load_status ((retire_first_other (slots_inside stored) done apart).trans found)

/-- A worker gets another status. -/
theorem set_status (worker : IsWorker m w) (n : Nat) :
    ∃ b cells, w = .block b 0 ∧ get m.heap b = some cells ∧ cells.length = 24 ∧
      ∃ cells', store m (worker_status w) (bytes_of_uint n) = .ok { m with heap := put m.heap b cells' } ∧
        load_uint { m with heap := put m.heap b cells' } (worker_status w) = .ok (u32 n) := by
  obtain ⟨b,q,tid,rfl,found,_⟩ := worker
  have lengths : (cells_of_ptr q ++ cells_of_ptr tid).length = 16 := by
    rw [List.length_append,ptr_cells_length,ptr_cells_length]
    rfl
  have replaced : splice (worker_cells q tid) 16 (bytes_of_uint n) =
      cells_of_ptr q ++ cells_of_ptr tid ++ bytes_of_uint n ++ zeros 4 := by
    rw [worker_cells,← List.append_assoc,← lengths]
    exact splice_append _ _ _ rfl
  have written := store_block (m := m) found
    (by rw [worker_length]; exact (by decide : 16 + 4 ≤ 24) : 16 + (bytes_of_uint n).length ≤ (worker_cells q tid).length)
  rw [replaced] at written
  exact ⟨b,_,rfl,found,worker_length q tid,_,written,load_uint_of_load (load_block (get_put_self found _) lengths rfl)⟩

theorem del_right_iff (stored : Stored s) {workernum : Nat} : DelRight workernum s ↔ s.added.length ≤ u32 workernum := by
  have length : s.workers.length = s.added.length := by rw [stored.pointers.length,List.length_map]
  constructor
  · intro right
    by_contra many
    have same := right s.mem (marked_self s)
    rw [if_neg many] at same
    -- the first worker would be made PASSIVE
    cases added : s.added with
    | nil =>
      rw [added] at many
      exact many (Nat.zero_le _)
    | cons w ws =>
      have member : w ∈ s.added := by
        rw [added]
        exact List.mem_cons_self
      obtain ⟨b,_,rfl,_,_,cells',written,passive⟩ := set_status (stored.workers w member) ATM_TASK_WORK_PASSIVE
      obtain ⟨_,_,_,here,found,_⟩ := stored.workers _ member
      cases here
      rw [added,retire_first,if_neg (fun same => by cases same),load_status found,ok_bind,if_pos rfl,written,ok_bind] at same
      rw [del_worker_misses stored same _ member] at passive
      cases passive
  · intro few m _
    rw [atm_task_del_worker,length,if_pos few,if_pos few]

/-! ### Recycling -/

/-- The blocks below `n` are as they were, and the new array lies behind them. -/
structure Copying (n : Nat) (m₀ m : Mem) (arr : Arr) : Prop where
  pointers : ∃ words, Pointers m arr words
  behind : n ≤ arr._vals
  longer : n ≤ m.heap.length
  same : ∀ b < n, get m.heap b = get m₀.heap b

variable {n : Nat} {m₀ : Mem} {a : Addr}

/-- A round copies the slot, or frees the block that the slot is in. -/
theorem round_copies (copying : Copying n m₀ m arr) (old : a < n) {offset : Nat}
    (done : recycle_worker (m,arr) (.block a offset) = .ok (m',arr')) : get m'.heap a = none ∨ Copying n m₀ m' arr' := by
  obtain ⟨words,pointers⟩ := copying.pointers
  have behind := copying.behind
  have longer := copying.longer
  obtain ⟨status,_,rest⟩ := bind_eq_ok.mp done
  split at rest
  · obtain ⟨⟨m₁,arr₁,i⟩,stored,last⟩ := bind_eq_ok.mp rest
    cases last
    obtain ⟨data,_,after,elsewhere,place⟩ := add_pointers pointers (fun same => by cases same)
      (fun b offset same => by cases same; exact ⟨old.trans_le longer,Nat.ne_of_lt (old.trans_le behind)⟩) stored
    refine .inr ⟨⟨_,after⟩,?_,longer.trans elsewhere.longer,fun b below => ?_⟩
    · rcases place with same | same
      · exact behind.trans (Nat.le_of_eq same.symm)
      · exact longer.trans (Nat.le_of_eq same.symm)
    · rw [elsewhere.same b (below.trans_le longer) (Nat.ne_of_lt (below.trans_le behind))]
      exact copying.same b below
  · obtain ⟨m₁,freed,last⟩ := bind_eq_ok.mp rest
    cases last
    rw [atm_task_worker_free] at freed
    obtain ⟨tid,_,freed⟩ := bind_eq_ok.mp freed
    obtain ⟨m₂,_,freed⟩ := bind_eq_ok.mp freed
    obtain ⟨q,_,freed⟩ := bind_eq_ok.mp freed
    obtain ⟨m₃,_,freed⟩ := bind_eq_ok.mp freed
    cases offset with
    | zero =>
      rw [mem_free] at freed
      split at freed
      · cases freed
      · cases freed
        exact .inl (get_free_self _ _)
    | succ offset => cases freed

/-- No status is read from a block that is free. -/
theorem round_needs {offset : Nat} (gone : get m.heap a = none) : recycle_worker (m,arr) (.block a offset) ≠ .ok (m',arr') := by
  intro done
  obtain ⟨status,read,_⟩ := bind_eq_ok.mp done
  obtain ⟨cells,loaded,_⟩ := bind_eq_ok.mp read
  rw [worker_status,Ptr.add,load,gone] at loaded
  cases loaded

theorem rounds_copy {ps : List Ptr} (inside : ∀ p ∈ ps, ∃ offset, p = .block a offset) (copying : Copying n m₀ m arr)
    (old : a < n)
    (done : ps.foldlM recycle_worker (m,arr) = .ok (m',arr')) : get m'.heap a = none ∨ Copying n m₀ m' arr' := by
  induction ps generalizing m arr with
  | nil =>
    cases done
    exact .inr copying
  | cons p ps ih =>
    obtain ⟨⟨offset,rfl⟩,later⟩ := List.forall_mem_cons.mp inside
    rw [List.foldlM_cons] at done
    obtain ⟨⟨m₁,arr₁⟩,first,rest⟩ := bind_eq_ok.mp done
    rcases round_copies copying old first with gone | copying
    · cases ps with
      | nil =>
        cases rest
        exact .inl gone
      | cons q ps =>
        obtain ⟨⟨offset',rfl⟩,_⟩ := List.forall_mem_cons.mp later
        rw [List.foldlM_cons] at rest
        obtain ⟨⟨m₂,arr₂⟩,second,_⟩ := bind_eq_ok.mp rest
        exact absurd second (round_needs gone)
    · exact ih later copying rest

/-- When the recycling loop returns, it has freed nothing but the old array. -/
theorem recycle_returns (inside : ∀ p ∈ slots arr, ∃ offset, p = .block arr._vals offset) (old : arr._vals < m.heap.length)
    (done : recycle m arr = .ok (m',arr')) : ∀ b < m.heap.length, b ≠ arr._vals → get m'.heap b = get m.heap b := by
  intro b below other
  obtain ⟨m₁,tmp,created,pointers,_,place⟩ := new_pointers m
  have grown : m₁ = (mem_alloc m (ATM_ARR_INITIAL_LEN * pointer_size)).1 := (Prod.mk.inj created).1.symm
  have copying : Copying m.heap.length m m₁ tmp := by
    refine ⟨⟨[],pointers⟩,Nat.le_of_eq place.symm,?_,fun c low => ?_⟩
    · rw [grown,mem_alloc,alloc_length]
      exact Nat.le_succ _
    · rw [grown]
      exact get_alloc_old _ low
  rw [recycle,created] at done
  obtain ⟨⟨m₂,tmp₂⟩,copied,rest⟩ := bind_eq_ok.mp done
  obtain ⟨m₃,freed,last⟩ := bind_eq_ok.mp rest
  cases last
  rw [mem_free] at freed
  split at freed
  · cases freed
  · rename_i live
    cases freed
    rcases rounds_copy inside copying old copied with gone | copying
    · exact absurd gone live
    · exact (get_free_other _ other).trans (copying.same b below)

/-- What is read in a block that is not free may be no number, but it is there. -/
theorem load_uint_live {b offset : Nat} {cells : List Cell} (found : get m.heap b = some cells) :
    load_uint m (.block b offset) ≠ .error .useAfterFree := by
  rw [load_uint]
  simp only [load,found]
  split
  · rw [ok_bind]
    split
    · exact fun same => by cases same
    · exact fun same => by cases same
  · exact fun same => by cases same

theorem recycle_right_iff (stored : Stored s) : RecycleRight s ↔ s.added = [] := by
  constructor
  · intro right
    cases added : s.added with
    | nil => rfl
    | cons w ws =>
      -- a worker that its thread has set to RETIRED is not freed
      have member : w ∈ s.added := by
        rw [added]
        exact List.mem_cons_self
      obtain ⟨b,cells,rfl,found,small,cells',written,retired⟩ := set_status (stored.workers w member) ATM_TASK_WORK_RETIRED
      have marked : Marked s { s.mem with heap := put s.mem.heap b cells' } := by
        refine ⟨[(.block b 0,ATM_TASK_WORK_RETIRED)],fun x here => ?_,?_⟩
        · rw [List.mem_singleton.mp here]
          exact member
        · rw [mark,List.foldlM_cons,written]
          rfl
      obtain ⟨m',workers,returned,freed,_⟩ := right _ marked
      have gone := (freed _ member).mpr retired
      have apart := pointers_apart stored.pointers found (by rw [small]; decide)
      have low := get_lt found
      have kept := recycle_returns (slots_inside stored)
        (by rw [put_length]; exact get_lt stored.pointers.block) returned b (by rw [put_length]; exact low) apart
      exact absurd gone (load_uint_live (kept.trans (get_put_self found cells')))
  · intro empty m marked
    rw [marked_none empty marked]
    have none_left : slots s.workers = [] := by
      rw [slots,stored.pointers.length,List.length_map,empty]
      rfl
    obtain ⟨m₁,tmp,created,pointers,_,place⟩ := new_pointers s.mem
    have live : get m₁.heap s.workers._vals ≠ none := by
      rw [← (Prod.mk.inj created).1]
      refine ne_of_eq_of_ne (get_alloc_old _ (get_lt stored.pointers.block)) ?_
      rw [stored.pointers.block]
      exact fun same => by cases same
    refine ⟨{ m₁ with heap := free m₁.heap s.workers._vals },tmp,?_,fun w member => ?_,?_,fun i w found => ?_⟩
    · rw [recycle,created,none_left]
      dsimp only
      rw [List.foldlM_nil]
      show (mem_free m₁ (.block s.workers._vals 0) >>= _) = _
      rw [mem_free,if_neg live]
      rfl
    · rw [empty] at member
      exact absurd member List.not_mem_nil
    · rw [pointers.length,empty]
      rfl
    · rw [empty] at found
      cases found

end AtmCache.Slots
