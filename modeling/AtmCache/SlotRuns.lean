import AtmCache.SlotReads

/-!
# Producers and consumers of `workers` and `bg_routine`

In every run the array holds the workers that were added (`stored_run`).
-/
namespace AtmCache.Slots
open CStrings Heap Runs Slices Arrays
open Tasks (Stop)

variable {m m' : Mem} {w p : Ptr} {b : Addr} {arr arr' : Arr} {words : List (List Cell)} {s t : State}

/-! ### A new worker -/

/-- A later block does not change a write. -/
theorem store_alloc {data : List Cell} (done : store m p data = .ok m') (cells : List Cell) :
    store { m with heap := alloc m.heap cells } p data = .ok { m' with heap := alloc m'.heap cells } := by
  cases p with
  | null => cases done
  | code f => cases done
  | handle k => cases done
  | block b offset =>
    simp only [store] at done
    split at done
    · rename_i before found
      have old := get_lt found
      split at done
      · rename_i fits
        cases done
        rw [store_block ((get_alloc_old cells old).trans found) fits,put_alloc_old _ _ _ old]
      · cases done
    · cases done

theorem queue_new (m : Mem) : atm_queue_new m =
    .ok ({ m with heap := alloc (alloc m.heap (queue_cells (.block (m.heap.length + 1) 0))) (list_cells 0) },
      .block m.heap.length 0) := by
  have typed : store { m with heap := alloc m.heap (zeros 104) } (.block m.heap.length 0) (bytes_of_uint ATM_QUEUE_BLOCK) =
      .ok { m with heap := alloc m.heap (bytes_of_uint ATM_QUEUE_BLOCK ++ zeros 100) } := store_new (by decide)
  have linked : store { m with heap := alloc m.heap (bytes_of_uint ATM_QUEUE_BLOCK ++ zeros 100) }
      (.block m.heap.length 8) (cells_of_ptr (.block (m.heap.length + 1) 0)) =
      .ok { m with heap := alloc m.heap (queue_cells (.block (m.heap.length + 1) 0)) } := by
    rw [store_new (by rw [ptr_cells_length]; decide)]
    rfl
  have later := store_alloc linked (zeros 40)
  simp only [atm_queue_new,mem_alloc,atm_list_new]
  rw [typed,ok_bind]
  simp only [alloc_length]
  exact (congrArg (· >>= _) later).trans rfl

theorem worker_new (m : Mem) : atm_task_worker_new m =
    .ok ({ m with heap := alloc (alloc (alloc m.heap (worker_cells (.block (m.heap.length + 1) 0) .null))
      (queue_cells (.block (m.heap.length + 2) 0))) (list_cells 0) },.block m.heap.length 0) := by
  have linked : store { m with heap := alloc m.heap (zeros 24) } (.block m.heap.length 0)
      (cells_of_ptr (.block (m.heap.length + 1) 0)) =
      .ok { m with heap := alloc m.heap (worker_cells (.block (m.heap.length + 1) 0) .null) } := by
    rw [store_new (by rw [ptr_cells_length]; decide)]
    rfl
  have active : store { m with heap := alloc m.heap (worker_cells (.block (m.heap.length + 1) 0) .null) }
      (.block m.heap.length 16) (bytes_of_uint ATM_TASK_WORK_ACTIVE) =
      .ok { m with heap := alloc m.heap (worker_cells (.block (m.heap.length + 1) 0) .null) } := by
    rw [store_new (by rw [worker_length]; decide)]
    rfl
  have nobody : store { m with heap := alloc m.heap (worker_cells (.block (m.heap.length + 1) 0) .null) }
      (.block m.heap.length 8) (cells_of_ptr .null) =
      .ok { m with heap := alloc m.heap (worker_cells (.block (m.heap.length + 1) 0) .null) } := by
    rw [store_new (by rw [worker_length]; decide)]
    rfl
  simp only [atm_task_worker_new,mem_alloc]
  rw [queue_new,ok_bind]
  simp only [alloc_length]
  refine (congrArg (· >>= _) (store_alloc (store_alloc linked _) _)).trans ?_
  simp only [ok_bind]
  refine (congrArg (· >>= _) (store_alloc (store_alloc active _) _)).trans ?_
  simp only [ok_bind]
  exact (congrArg (· >>= _) (store_alloc (store_alloc nobody _) _)).trans rfl

/-- Memory to which blocks were added. -/
structure Grows (m m' : Mem) : Prop where
  longer : m.heap.length ≤ m'.heap.length
  same : ∀ a < m.heap.length, get m'.heap a = get m.heap a

theorem grows_alloc (m : Mem) (cells : List Cell) : Grows m { m with heap := alloc m.heap cells } where
  longer := by
    rw [alloc_length]
    exact Nat.le_succ _
  same := fun _ old => get_alloc_old cells old

theorem Grows.trans {m'' : Mem} (first : Grows m m') (later : Grows m' m'') : Grows m m'' where
  longer := first.longer.trans later.longer
  same := fun a old => (later.same a (old.trans_le first.longer)).trans (first.same a old)

theorem Grows.keeps (grows : Grows m m') : Keeps m m' :=
  keeps_of_same (fun b _ found _ _ => (grows.same b (get_lt found)).trans found)

theorem new_is_worker (done : atm_task_worker_new m = .ok (m',w)) : IsWorker m' w ∧ Grows m m' := by
  rw [worker_new] at done
  cases done
  refine ⟨⟨m.heap.length,.block (m.heap.length + 1) 0,.null,rfl,?_,.inl rfl,m.heap.length + 1,.block (m.heap.length + 2) 0,rfl,?_,
    m.heap.length + 2,0,rfl,?_⟩,?_⟩
  · have below : m.heap.length < m.heap.length + 1 := Nat.lt_succ_self _
    rw [get_alloc_old _ (by rw [alloc_length,alloc_length]; exact Nat.lt_succ_of_lt below),
      get_alloc_old _ (by rw [alloc_length]; exact below),get_alloc_new]
  · rw [get_alloc_old _ (by rw [alloc_length,alloc_length]; exact Nat.lt_succ_self _)]
    exact (congrArg (get _) (alloc_length ..).symm).trans (get_alloc_new ..)
  · exact (congrArg (get _) (by rw [alloc_length,alloc_length])).trans (get_alloc_new ..)
  · exact ((grows_alloc m _).trans (grows_alloc _ _)).trans (grows_alloc _ _)

/-! ### Adding a worker -/

theorem pointers_grow (pointers : Pointers m arr words) (grows : Grows m m') : Pointers m' arr words :=
  pointers_congr pointers (grows.same arr._vals (get_lt pointers.block))

theorem mark_active (worker : IsWorker m w) :
    store m (worker_status w) (bytes_of_uint ATM_TASK_WORK_ACTIVE) = .ok m := by
  obtain ⟨b,q,tid,rfl,found,_⟩ := worker
  have lengths : (cells_of_ptr q ++ cells_of_ptr tid).length = 16 := by
    rw [List.length_append,ptr_cells_length,ptr_cells_length]
    rfl
  have same : splice (worker_cells q tid) 16 (bytes_of_uint ATM_TASK_WORK_ACTIVE) = worker_cells q tid := by
    rw [worker_cells,← List.append_assoc,← lengths]
    exact splice_append _ _ _ rfl
  have written := store_block (m := m) found
    (by rw [worker_length]; decide : 16 + (bytes_of_uint ATM_TASK_WORK_ACTIVE).length ≤ (worker_cells q tid).length)
  rw [same,put_same found] at written
  exact written

/-- The array gets the address of the worker, which the local variable holds. -/
theorem add_worker_ok {s : Mem × Arr × Ptr} (pointers : Pointers m arr words) (done : atm_task_add_worker m arr = .ok s) :
    Pointers s.1 s.2.1 (words ++ [cells_of_ptr s.2.2]) ∧ IsWorker s.1 s.2.2 ∧ Keeps m s.1 := by
  rw [atm_task_add_worker] at done
  obtain ⟨⟨m₁,w⟩,created,rest⟩ := bind_eq_ok.mp done
  obtain ⟨worker,first⟩ := new_is_worker created
  obtain ⟨m₂,marked,rest⟩ := bind_eq_ok.mp rest
  rw [mark_active worker] at marked
  cases marked
  dsimp only [mem_alloc] at rest
  obtain ⟨m₃,held,rest⟩ := bind_eq_ok.mp rest
  have whole : splice (zeros pointer_size) 0 (cells_of_ptr w) = cells_of_ptr w := by
    have copied := splice_append [] (zeros pointer_size) [] (ptr_cells_length w)
    rw [List.append_nil,List.append_nil] at copied
    exact copied
  rw [store_new (by rw [ptr_cells_length]; decide),whole] at held
  cases held
  obtain ⟨⟨m₄,arr₄,i⟩,stored,rest⟩ := bind_eq_ok.mp rest
  cases rest
  have second := grows_alloc m₁ (cells_of_ptr w)
  have before := pointers_grow (pointers_grow pointers first) second
  have var := get_alloc_new m₁.heap (cells_of_ptr w)
  have apart := pointers_apart before var (by rw [ptr_cells_length]; decide)
  have inside := get_lt var
  have value : Ptr.block m₁.heap.length 0 ≠ .null := (fun same => by cases same)
  obtain ⟨data,read,after,elsewhere,place⟩ := add_pointers before value
    (fun a offset same => by cases same; exact ⟨inside,apart⟩) stored
  have copied : data = cells_of_ptr w := by
    have here : load { m₁ with heap := alloc m₁.heap (cells_of_ptr w) } (.block m₁.heap.length 0) pointer_size =
        .ok (cells_of_ptr w) :=
      load_block (by rw [var,List.append_nil,List.nil_append] :
        get _ _ = some ([] ++ cells_of_ptr w ++ [])) rfl (ptr_cells_length w)
    rw [read] at here
    exact Except.ok.inj here
  rw [copied] at after
  have local_left : get m₄.heap m₁.heap.length = some (cells_of_ptr w) := by rw [elsewhere.same _ inside apart,var]
  have moved : arr₄._vals ≠ m₁.heap.length := by
    rcases place with same | same
    · rw [same]
      exact apart.symm
    · rw [same]
      exact Nat.ne_of_gt inside
  have freed : Keeps m₄ { m₄ with heap := free m₄.heap m₁.heap.length } := by
    refine keeps_of_same (fun b cells found long _ => (get_free_other _ ?_).trans found)
    rintro rfl
    rw [local_left] at found
    cases found
    exact long (ptr_cells_length w)
  have later : Keeps m₁ { m₄ with heap := free m₄.heap m₁.heap.length } :=
    (second.keeps.trans (keeps_of_elsewhere before elsewhere)).trans freed
  exact ⟨pointers_congr after (get_free_other _ moved),worker.keep later,first.keeps.trans later⟩

/-! ### The queue and the thread of a worker -/

theorem write_size {l : Ptr} {n : Nat} (pointers : Pointers m arr words) (list : IsList m l)
    (done : store m (list_size l) (bytes_of_uint n) = .ok m') : Pointers m' arr words ∧ Keeps m m' := by
  obtain ⟨b,size,rfl,found⟩ := list
  have replaced : splice (list_cells size) 32 (bytes_of_uint n) = list_cells n :=
    splice_append (zeros 32) (bytes_of_uint size) (zeros 4) rfl
  have written := store_block (m := m) found
    (by rw [list_length]; exact (by decide : 32 + 4 ≤ 40) : 32 + (bytes_of_uint n).length ≤ (list_cells size).length)
  rw [replaced] at written
  cases written.symm.trans done
  have apart := pointers_apart pointers found (by rw [list_length]; decide)
  exact ⟨pointers_congr pointers (get_put_other _ apart.symm _),keeps_put_size found n⟩

theorem write_tid {tid : Ptr} (pointers : Pointers m arr words) (worker : IsWorker m w) (thread : IsThread tid)
    (done : store m (worker_tid w) (cells_of_ptr tid) = .ok m') : Pointers m' arr words ∧ Keeps m m' := by
  obtain ⟨b,q,old,rfl,found,_⟩ := worker
  have replaced : splice (worker_cells q old) 8 (cells_of_ptr tid) = worker_cells q tid := by
    have lengths := ptr_cells_length q
    rw [worker_cells,show 8 = (cells_of_ptr q).length from lengths.symm]
    exact splice_append _ _ _ ((ptr_cells_length tid).trans (ptr_cells_length old).symm)
  have written := store_block (m := m) found
    (by rw [worker_length,ptr_cells_length]; decide : 8 + (cells_of_ptr tid).length ≤ (worker_cells q old).length)
  rw [replaced] at written
  cases written.symm.trans done
  have apart := pointers_apart pointers found (by rw [worker_length]; decide)
  exact ⟨pointers_congr pointers (get_put_other _ apart.symm _),keeps_put_tid found thread⟩

theorem push_keeps {q : Ptr} (pointers : Pointers m arr words) (queue : IsQueue m q)
    (done : atm_queue_push m q = .ok m') : Pointers m' arr words ∧ Keeps m m' := by
  obtain ⟨b,l,rfl,found,list⟩ := queue
  rw [atm_queue_push,if_neg (fun same => by cases same),load_queue_type found,ok_bind,if_pos (.inr rfl),load_queue_vals found,ok_bind,
    atm_list_push] at done
  split at done
  · cases done
    exact ⟨pointers,keeps_of_same (fun _ _ found _ _ => found)⟩
  · obtain ⟨size,_,rest⟩ := bind_eq_ok.mp done
    exact write_size pointers list rest

/-! ### Runs -/

/-- The array holds the workers that were added. -/
structure Stored (s : State) : Prop where
  pointers : Pointers s.mem s.workers (s.added.map cells_of_ptr)
  workers : ∀ w ∈ s.added, IsWorker s.mem w

theorem stored_init (m : Mem) : Stored (init m) where
  pointers := ⟨⟨fun w member => absurd member List.not_mem_nil,rfl,Nat.zero_le _,get_alloc_new m.heap _⟩,rfl,5,by decide,by decide,rfl⟩
  workers := fun w member => absurd member List.not_mem_nil

theorem stored_keep {mem : Mem} (stored : Stored s)
    (kept : Pointers mem s.workers (s.added.map cells_of_ptr) ∧ Keeps s.mem mem) : Stored { s with mem := mem } where
  pointers := kept.1
  workers := fun w member => (stored.workers w member).keep kept.2

/-- The slot of the turn is followed to the worker that was added there. -/
theorem get_active_worker_ok {s' : State × Ptr} (stored : Stored s) (done : atm_task_get_active_worker s = .ok s') :
    ∃ round, s'.1 = { s with workers_round := round } ∧ s.added[round % s.added.length]? = some s'.2 := by
  have length : s.workers.length = s.added.length := by rw [stored.pointers.length,List.length_map]
  rw [atm_task_get_active_worker] at done
  by_cases nonempty : 0 < s.workers.length
  · simp only [if_pos nonempty] at done
    obtain ⟨w,followed,rest⟩ := bind_eq_ok.mp done
    have turn : u32 (s.workers_round + 1) % s.workers.length < s.added.length := by
      rw [← length]
      exact Nat.mod_lt _ nonempty
    have found := List.getElem?_eq_getElem turn
    have here := load_ptr_of_load (load_slot stored.pointers (by rw [List.getElem?_map,found]; rfl))
    rw [here] at followed
    cases followed
    obtain ⟨b,q,tid,same,there,_⟩ := stored.workers _ (List.mem_of_getElem? found)
    rw [same,load_status there,ok_bind,if_neg (by decide)] at rest
    cases rest
    refine ⟨u32 (s.workers_round + 1),rfl,?_⟩
    rw [← length,found,same]
  · simp only [if_neg nonempty,atm_arr_get] at done
    cases done

theorem notify_stored (stored : Stored s) (done : atm_task_notify_handle s = .ok t) : Stored t ∧ t.added = s.added := by
  obtain ⟨⟨s',w⟩,active,rest⟩ := bind_eq_ok.mp done
  obtain ⟨round,same,found⟩ := get_active_worker_ok stored active
  cases same
  obtain ⟨b,q,tid,rfl,there,_,queue⟩ := stored.workers w (List.mem_of_getElem? found)
  simp only [load_blking_tasks there,ok_bind] at rest
  obtain ⟨mem,pushed,last⟩ := bind_eq_ok.mp rest
  cases last
  have kept := stored_keep stored (push_keeps stored.pointers queue pushed)
  exact ⟨⟨kept.pointers,kept.workers⟩,rfl⟩

theorem or_stop_ok {α : Type} {c : Except Fault α} {a : α} (done : or_stop c = .ok a) : c = .ok a := by
  cases c with
  | error f => cases done
  | ok x =>
    cases done
    rfl

/-- A step keeps the array right, and only `add` adds a worker. -/
theorem step_ok {a : Label} (stored : Stored s) (done : step s a = .ok t) :
    Stored t ∧ t.added.length = s.added.length + [a].count .add := by
  cases a with
  | add =>
    obtain ⟨⟨mem,workers,w⟩,added,last⟩ := bind_eq_ok.mp done
    cases last
    obtain ⟨pointers,worker,keeps⟩ := add_worker_ok stored.pointers (or_stop_ok added)
    refine ⟨⟨by rw [List.map_append]; exact pointers,fun w' member => ?_⟩,List.length_append⟩
    rcases List.mem_append.mp member with old | new
    · exact (stored.workers w' old).keep keeps
    · rw [List.mem_singleton.mp new]
      exact worker
  | dispatch =>
    obtain ⟨kept,same⟩ := notify_stored stored (or_stop_ok done)
    exact ⟨kept,congrArg List.length same⟩
  | enter i =>
    simp only [step] at done
    split at done
    · rename_i w found
      obtain ⟨mem,written,last⟩ := bind_eq_ok.mp done
      cases last
      have worker := stored.workers w (List.mem_of_getElem? found)
      exact ⟨stored_keep stored (write_tid stored.pointers worker (.inr ⟨i,rfl⟩) (or_stop_ok written)),rfl⟩
    · cases done
  | pop i =>
    simp only [step] at done
    split at done
    · rename_i w found
      obtain ⟨b,_,tid,rfl,there,_,bq,l,rfl,queue,list⟩ := stored.workers w (List.mem_of_getElem? found)
      obtain ⟨q,first,rest⟩ := bind_eq_ok.mp done
      cases (load_blking_tasks there).symm.trans (or_stop_ok first)
      obtain ⟨size,_,rest⟩ := bind_eq_ok.mp rest
      split at rest
      · cases rest
      · obtain ⟨mem,popped,last⟩ := bind_eq_ok.mp rest
        cases last
        have popped := or_stop_ok popped
        rw [load_queue_vals queue,ok_bind] at popped
        obtain ⟨_,_,written⟩ := bind_eq_ok.mp popped
        exact ⟨stored_keep stored (write_size stored.pointers list written),rfl⟩
    · cases done

/-- The array holds the workers that were added, one for each `add`. -/
theorem stored_run {l : List Label} (ran : run step (init m) l = .ok s) : Stored s ∧ s.added.length = l.count .add := by
  refine run_keeps (P := fun l s => Stored s ∧ s.added.length = l.count .add) ⟨stored_init m,rfl⟩ ?_ ran
  rintro pre a t u ⟨stored,count⟩ done
  obtain ⟨kept,length⟩ := step_ok stored done
  exact ⟨kept,by rw [length,count,List.count_append]⟩

end AtmCache.Slots
