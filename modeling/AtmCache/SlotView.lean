import AtmCache.SlotRecycle

/-!
# What the consumers see

Every slot holds the worker that was added there (`stored_followed`), and no consumer that takes the slot
for the worker finds it: a run is as it should be only while nothing was added (`consumers_see_iff`).
-/
namespace AtmCache.Slots
open CStrings Heap Runs Slices Arrays
open Tasks (Stop)

variable {m m' : Mem} {w : Ptr} {arr arr' : Arr} {words : List (List Cell)} {s t : State} {l : List Label} {fs : List Nat}

/-! ### Workers -/

/-- The record that a loop over `workers` looks at is the worker that was added. -/
def SlotsSeen (s : State) : Prop := ∀ i w, s.added[i]? = some w → atm_arr_get s.workers i = w

/-- The load is the summed queue lengths over the number of the ACTIVE workers. -/
def LoadRight (s : State) : Prop :=
  ∀ ts ws, load_sums s.mem s.added = .ok (ts,ws) → 0 < ws → atm_task_load s.mem s.workers = .ok (ts / ws)

theorem stored_followed (stored : Stored s) {i : Nat} (found : s.added[i]? = some w) :
    load_ptr s.mem (atm_arr_get s.workers i) = .ok w :=
  load_ptr_of_load (load_slot stored.pointers (by rw [List.getElem?_map,found]; rfl))

/-- No slot is the worker that it holds. -/
theorem slot_not_worker (stored : Stored s) {i : Nat} (found : s.added[i]? = some w) : atm_arr_get s.workers i ≠ w := by
  obtain ⟨inside,_⟩ := List.getElem?_eq_some_iff.mp found
  obtain ⟨b,q,tid,rfl,there,_⟩ := stored.workers w (List.mem_of_getElem? found)
  rw [get_slot stored.pointers (by rw [List.length_map]; exact inside)]
  intro same
  have block := (Ptr.block.inj same).1
  exact pointers_apart stored.pointers there (by rw [worker_length]; decide) block.symm

theorem slots_seen_iff (stored : Stored s) : SlotsSeen s ↔ s.added = [] := by
  constructor
  · intro seen
    cases added : s.added with
    | nil => rfl
    | cons w ws =>
      have found : s.added[0]? = some w := by rw [added]; rfl
      exact absurd (seen 0 w found) (slot_not_worker stored found)
  · intro empty i w found
    rw [empty] at found
    cases found

/-- The loop of `atm_task_load` does not get past the last slot. -/
theorem load_fails (stored : Stored s) (n : Nat) : atm_task_load s.mem s.workers ≠ .ok n := by
  have length : s.workers.length = s.added.length := by rw [stored.pointers.length,List.length_map]
  intro done
  rw [atm_task_load] at done
  split at done
  · rename_i ts ws sums
    rcases List.eq_nil_or_concat s.added with empty | ⟨before,w,added⟩
    · rw [slots,length,empty] at sums
      cases sums
      cases done
    · rw [List.concat_eq_append] at added
      have pointers := stored.pointers
      rw [added] at pointers
      rw [load_sums,slots,length,added,List.length_append,List.length_singleton,List.range_succ,List.map_append,
        List.foldlM_append] at sums
      obtain ⟨earlier,_,last⟩ := bind_eq_ok.mp sums
      obtain ⟨sums',counted,_⟩ := bind_eq_ok.mp last
      exact last_slot_fails pointers (stored.workers w (by rw [added]; exact List.mem_concat_self)) earlier sums' counted
  · cases done

theorem load_right_iff (stored : Stored s) : LoadRight s ↔ s.added = [] := by
  constructor
  · intro right
    by_contra some_worker
    obtain ⟨k,_,high,capacity,_⟩ := stored.pointers.bytes
    have few : 2^k ≤ 2^28 := Nat.pow_le_pow_right (by omega) high
    have room := stored.pointers.room
    rw [List.length_map] at room
    obtain ⟨ts,sums⟩ := load_fold_ok stored.workers (0,0) (by omega)
    rw [Nat.zero_add] at sums
    exact load_fails stored _ (right ts _ sums (List.length_pos_of_ne_nil some_worker))
  · intro empty ts ws sums positive
    rw [empty] at sums
    cases sums
    exact absurd positive (Nat.lt_irrefl 0)

theorem added_nil_iff (ran : run step (init m) l = .ok s) : s.added = [] ↔ Label.add ∉ l := by
  rw [← List.length_eq_zero_iff,(stored_run ran).2,List.count_eq_zero]

/-! ### Callbacks -/

/-- After `k` calls every registered function was called once for each 10000th of them, in order. -/
def InvokesAll (bg_routine : Arr) (fs : List Nat) : Prop :=
  ∀ k, ∃ n, calls bg_routine k = .ok ⟨n,(List.replicate (k / 10000) fs).flatten⟩

theorem register_pointers {s : Mem × Arr} (pointers : Pointers m arr words) (done : register m arr fs = .ok s) :
    ∃ words', Pointers s.1 s.2 words' ∧ words'.length = words.length + fs.length := by
  induction fs generalizing m arr words with
  | nil =>
    cases done
    exact ⟨words,pointers,rfl⟩
  | cons f fs ih =>
    rw [register,List.foldlM_cons] at done
    obtain ⟨⟨m₁,arr₁⟩,first,rest⟩ := bind_eq_ok.mp done
    obtain ⟨⟨m₂,arr₂,i⟩,added,same⟩ := bind_eq_ok.mp first
    cases same
    have value : Ptr.code f ≠ .null := (fun same => by cases same)
    obtain ⟨data,_,after,_⟩ := add_pointers pointers value (fun _ _ block => (by cases block)) added
    obtain ⟨words',last,length⟩ := ih after rest
    refine ⟨words',last,?_⟩
    rw [length,List.length_append,List.length_singleton,List.length_cons]
    omega

/-- The first slot is called, which is no function. -/
theorem invoke_slots_fails (pointers : Pointers m arr words) (some_word : 0 < words.length) (invoked : List Nat) :
    (slots arr).foldlM invoke invoked = .error .outOfBounds := by
  have first : atm_arr_get arr 0 = .block arr._vals (pointer_size * 0) := get_slot pointers some_word
  have head : List.range arr.length = 0 :: (List.range (arr.length - 1)).map Nat.succ := by
    rw [← List.range_succ_eq_map]
    congr 1
    rw [pointers.length]
    omega
  rw [slots,head,List.map_cons,List.foldlM_cons,first]
  rfl

theorem calls_before : ∀ k < 10000, calls arr k = .ok ⟨k,[]⟩ := by
  intro k
  induction k with
  | zero => exact fun _ => rfl
  | succ k ih =>
    intro less
    rw [calls,ih (by omega),ok_bind,atm_ctx_callback_loop]
    simp only [u32_of_lt (by omega : k + 1 < 2^32)]
    rw [if_neg (by omega)]
    rfl

theorem calls_none (empty : arr.length = 0) : ∀ k, ∃ n, calls arr k = .ok ⟨n,[]⟩ := by
  intro k
  induction k with
  | zero => exact ⟨0,rfl⟩
  | succ k ih =>
    obtain ⟨n,earlier⟩ := ih
    refine ⟨u32 (n + 1),?_⟩
    rw [calls,earlier,ok_bind,atm_ctx_callback_loop,slots,empty]
    split
    · rfl
    · rfl

/-- The 10000th call does not return. -/
theorem calls_fails (pointers : Pointers m arr words) (some_word : 0 < words.length) :
    calls arr 10000 = .error .outOfBounds := by
  rw [show 10000 = 9999 + 1 from rfl,calls,calls_before 9999 (by decide),ok_bind,atm_ctx_callback_loop]
  simp only [u32_of_lt (by decide : 9999 + 1 < 2^32)]
  rw [if_pos (by decide),invoke_slots_fails pointers some_word]
  rfl

theorem invokes_iff {s : Mem × Arr} (pointers : Pointers m arr []) (registered : register m arr fs = .ok s) :
    InvokesAll s.2 fs ↔ fs = [] := by
  obtain ⟨words,last,length⟩ := register_pointers pointers registered
  rw [List.length_nil,Nat.zero_add] at length
  constructor
  · intro all
    by_contra some_function
    obtain ⟨n,called⟩ := all 10000
    rw [calls_fails last (by rw [length]; exact List.length_pos_of_ne_nil some_function)] at called
    cases called
  · rintro rfl k
    obtain ⟨n,called⟩ := calls_none (last.length.trans length) k
    refine ⟨n,called.trans ?_⟩
    rw [List.flatten_eq_nil_iff.mpr (fun x member => List.eq_of_mem_replicate member)]

/-- A slot that is followed once is the worker that was stored; what the loops over `workers` and `bg_routine` do is
    right exactly while the array is empty, or, for the delete, not longer than is configured. -/
theorem consumers_see_iff {m₁ m₂ : Mem} {bg_routine : Arr} {b : Mem × Arr} (ran : run step (init m) l = .ok s)
    (created : atm_arr_new m₁ pointer_size = (m₂,some bg_routine)) (registered : register m₂ bg_routine fs = .ok b) :
    (∀ i w, s.added[i]? = some w → load_ptr s.mem (atm_arr_get s.workers i) = .ok w) ∧
      (SlotsSeen s ↔ Label.add ∉ l) ∧ (LoadRight s ↔ Label.add ∉ l) ∧
      (∀ workernum, DelRight workernum s ↔ l.count .add ≤ u32 workernum) ∧ (RecycleRight s ↔ Label.add ∉ l) ∧
      (InvokesAll b.2 fs ↔ fs = []) := by
  obtain ⟨stored,count⟩ := stored_run ran
  obtain ⟨m',arr,same,pointers,_⟩ := new_pointers m₁
  rw [created] at same
  cases same
  rw [slots_seen_iff stored,load_right_iff stored,recycle_right_iff stored,added_nil_iff ran]
  refine ⟨fun i w found => stored_followed stored found,Iff.rfl,Iff.rfl,fun workernum => ?_,Iff.rfl,
    invokes_iff pointers registered⟩
  rw [del_right_iff stored,count]

/-- A memory with one function and no block. -/
def one_function : Mem := ⟨[],[List.replicate 8 0xc3],fun _ => 0⟩

theorem consumers_see_one : ∃ s b, run step (init one_function) [.add] = .ok s ∧
    register (atm_arr_new one_function pointer_size).1 ⟨0,32,0,8⟩ [0] = .ok b ∧
      load_ptr s.mem (atm_arr_get s.workers 0) = .ok (.block 1 0) ∧ ¬ SlotsSeen s ∧ ¬ LoadRight s ∧
      ¬ DelRight 0 s ∧ DelRight 1 s ∧ ¬ RecycleRight s ∧ ¬ InvokesAll b.2 [0] := by
  obtain ⟨s,ran⟩ : ∃ s, run step (init one_function) [.add] = .ok s := exists_ok (by decide +kernel)
  obtain ⟨b,registered⟩ : ∃ b, register (atm_arr_new one_function pointer_size).1 ⟨0,32,0,8⟩ [0] = .ok b :=
    exists_ok (by decide +kernel)
  have added : (run step (init one_function) [.add]).map State.added = .ok [.block 1 0] := by decide +kernel
  rw [ran] at added
  obtain ⟨followed,seen,right,del,recycled,all⟩ := consumers_see_iff ran rfl registered
  refine ⟨s,b,ran,registered,followed 0 _ (by rw [Except.ok.inj added]; rfl),fun holds => ?_,fun holds => ?_,fun holds => ?_,
    (del 1).mpr (by decide),fun holds => ?_,fun holds => ?_⟩
  · exact absurd (seen.mp holds) (by decide)
  · exact absurd (right.mp holds) (by decide)
  · exact absurd ((del 0).mp holds) (by decide)
  · exact absurd (recycled.mp holds) (by decide)
  · exact absurd (all.mp holds) (by decide)

/-- The worker is at block 1 and its slot in block 0; the slot is followed to `tid`, which is 0. The delete returns true and
    leaves the worker ACTIVE. -/
theorem one_worker_not_seen : ∃ s b, run step (init one_function) [.add] = .ok s ∧
    register (atm_arr_new one_function pointer_size).1 ⟨0,32,0,8⟩ [0] = .ok b ∧
      (s.added = [.block 1 0] ∧ atm_arr_get s.workers 0 = .block 0 0 ∧ ¬ SlotsSeen s) ∧
        (load_sums s.mem s.added = .ok (0,1) ∧ atm_task_load s.mem s.workers = .error (.fault .nullDeref) ∧ ¬ LoadRight s) ∧
        ((∃ m', atm_task_del_worker 0 s.mem s.workers = .ok (m',true) ∧
          load_uint m' (worker_status (.block 1 0)) = .ok ATM_TASK_WORK_ACTIVE) ∧ ¬ DelRight 0 s) ∧ ¬ RecycleRight s ∧
          calls b.2 10000 = .error .outOfBounds ∧ ¬ InvokesAll b.2 [0] := by
  obtain ⟨s,ran⟩ : ∃ s, run step (init one_function) [.add] = .ok s := exists_ok (by decide +kernel)
  obtain ⟨b,registered⟩ : ∃ b, register (atm_arr_new one_function pointer_size).1 ⟨0,32,0,8⟩ [0] = .ok b :=
    exists_ok (by decide +kernel)
  have places : (run step (init one_function) [.add]).map (fun s => (s.added,atm_arr_get s.workers 0)) =
      .ok ([.block 1 0],.block 0 0) := by decide +kernel
  have loads : (run step (init one_function) [.add]).map (fun s => (load_sums s.mem s.added,atm_task_load s.mem s.workers)) =
      .ok (.ok (0,1),.error (.fault .nullDeref)) := by decide +kernel
  have deletes : (run step (init one_function) [.add]).map (fun s => (atm_task_del_worker 0 s.mem s.workers).map Prod.snd) =
      .ok (.ok true) := by decide +kernel
  rw [ran] at places loads deletes
  obtain ⟨added,slot⟩ := Prod.mk.inj (Except.ok.inj places)
  have stored := (stored_run ran).1
  have misses : ∃ m', atm_task_del_worker 0 s.mem s.workers = .ok (m',true) ∧
      load_uint m' (worker_status (.block 1 0)) = .ok ATM_TASK_WORK_ACTIVE := by
    have returned : (atm_task_del_worker 0 s.mem s.workers).map Prod.snd = .ok true := Except.ok.inj deletes
    cases done : atm_task_del_worker 0 s.mem s.workers with
    | error f =>
      rw [done] at returned
      cases returned
    | ok r =>
      rw [done] at returned
      obtain ⟨m',res⟩ := r
      cases returned
      exact ⟨m',rfl,del_worker_misses stored done _ (by rw [added]; exact List.mem_singleton_self _)⟩
  obtain ⟨sums,load⟩ := Prod.mk.inj (Except.ok.inj loads)
  obtain ⟨m',arr,same,pointers,_⟩ := new_pointers one_function
  cases same
  obtain ⟨words,last,length⟩ := register_pointers pointers registered
  have fails := calls_fails last (by rw [length]; decide)
  refine ⟨s,b,ran,registered,⟨added,slot,fun seen => ?_⟩,⟨sums,load,fun right => ?_⟩,⟨misses,fun right => ?_⟩,
    fun right => ?_,fails,fun all => ?_⟩
  · have same := seen 0 (.block 1 0) (by rw [added]; rfl)
    rw [slot] at same
    cases same
  · have same := right 0 1 sums (by decide)
    rw [load] at same
    cases same
  · have few := (del_right_iff stored).mp right
    rw [added] at few
    exact absurd few (by decide)
  · have none_left := (recycle_right_iff stored).mp right
    rw [added] at none_left
    cases none_left
  · obtain ⟨n,called⟩ := all 10000
    rw [fails] at called
    cases called

end AtmCache.Slots
