import AtmCache.DictMoves
import AtmCache.DictMap

/-!
# The representation of a dictionary

`Represented` is what holds of the counters and slots of both tables after every
run of calls that return, whatever the sizes of its tables. A slot that was passed by
a migration keeps its bucket, emptied, and is counted no more.
-/
namespace AtmCache.Dict
open KeyMaps Runs
variable {K V : Type}

/-- One table: its sizes, and every entry in the slot of its hash. From `2^29` slots on the
    block is smaller than the table. -/
structure TableRep (T : KeyType K) (t : Table K V) : Prop where
  power : ∃ j, t.bktab_size = 2^j
  sized : t.bktab_size < 2^28 → t.bktab.length = t.bktab_size
  total : t.size = (t.bktab.map (fun s => s.entries.length)).sum
  live : ∀ (i : Nat) (s : Slot K V), t.bktab[i]? = some s → s ≠ .freed
  placed : ∀ (i : Nat) (s : Slot K V), t.bktab[i]? = some s →
    ∀ e ∈ s.entries, (T.hash e.key).toNat % t.bktab_size = i

structure Represented (T : KeyType K) (d : Dictionary K V) : Prop where
  active : TableRep T d.ht_active
  backup : ∀ bak, d.ht_backup = some bak → TableRep T bak
  passed : ∀ (i : Nat) (s : Slot K V), i < d.rehash_index → d.ht_active.bktab[i]? = some s →
    s = .null ∨ s = .bucket []
  active_used : d.ht_active.bktab_used = d.ht_active.used_from d.rehash_index
  backup_used : ∀ bak, d.ht_backup = some bak → bak.bktab_used = bak.used_from 0
  cursor_single : d.ht_backup = none → d.rehash_index = 0
  cursor_double : d.ht_backup ≠ none → d.rehash_index ≤ d.ht_active.bktab_size

variable {T : KeyType K}

/-! ### One table -/

theorem TableRep.counted {t : Table K V} (rep : TableRep T t) : t.size = t.entries.length := by
  rw [rep.total,Table.entries,List.length_flatMap]

theorem table_new_rep (j : Nat) : TableRep T (atm_dict_table_new (2^j) : Table K V) ∧
    (atm_dict_table_new (2^j) : Table K V).used_from 0 = 0 := by
  have null : ∀ (i : Nat) (s : Slot K V), (atm_dict_table_new (2^j) : Table K V).bktab[i]? = some s → s = .null := by
    intro i s found
    simp only [atm_dict_table_new,List.getElem?_replicate] at found
    split at found
    · exact (Option.some.inj found).symm
    · cases found
  refine ⟨⟨⟨j,rfl⟩,fun small => ?_,?_,?_,?_⟩,?_⟩
  · simp only [atm_dict_table_new,List.length_replicate] at small ⊢
    rw [atm_alloc,u32_of_lt (by simp only [pointer_size]; omega)]
    exact Nat.mul_div_cancel_left _ (by decide)
  · simp [atm_dict_table_new,Slot.entries]
  · intro i s found
    rw [null i s found]
    simp
  · intro i s found e member
    rw [null i s found] at member
    cases member
  · rw [used_from_eq_zero]
    intro i s _ found
    rw [null i s found]
    rfl

/-- Replacing the contents of one slot keeps a table represented, when the new contents
    belong there and the size changes by as many entries. -/
theorem TableRep.put {t : Table K V} (rep : TableRep T t) {i : Nat} {s : Slot K V} (found : t.bktab[i]? = some s)
    {l : List (Entry K V)} (here : ∀ e ∈ l, atm_dict_hkey T t e.key = i) {used size : Nat}
    (total : size + s.entries.length = t.size + l.length) : TableRep T (t.put i l used size) := by
  refine ⟨rep.power,by simpa [Table.put] using rep.sized,?_,?_,?_⟩
  · have lengths := put_length found l used size
    rw [← List.length_flatMap,← Table.entries]
    have counted := rep.counted
    have stored : (t.put i l used size).size = size := rfl
    omega
  · intro j s' found'
    simp only [Table.put] at found'
    rw [List.getElem?_set] at found'
    split at found'
    · split at found'
      · cases found'
        simp
      · cases found'
    · exact rep.live j s' found'
  · intro j s' found' e member
    simp only [Table.put] at found'
    rw [List.getElem?_set] at found'
    split at found'
    · rename_i same
      subst same
      split at found'
      · cases found'
        exact here e member
      · cases found'
    · exact rep.placed j s' found' e member

/-- What keeps a table represented, and its count of buckets as right as it was. -/
structure Replaces (T : KeyType K) (t t' : Table K V) : Prop where
  rep : TableRep T t'
  slots : t'.bktab_size = t.bktab_size
  used : t'.bktab_used + t.used_from 0 = t.bktab_used + t'.used_from 0

theorem push_entry_rep {t t' : Table K V} {e : Entry K V} (rep : TableRep T t)
    (done : atm_dict_table_push_entry T t e = .ok t') : Replaces T t t' := by
  obtain ⟨s,found,alive,rfl⟩ := push_entry_returns done
  refine ⟨rep.put found ?_ ?_,rfl,?_⟩
  · intro x member
    rcases List.mem_append.mp member with old | new
    · exact rep.placed _ _ found x old
    · rw [List.mem_singleton.mp new]
  · rw [List.length_append,List.length_singleton]
    omega
  · have counts := used_from_put found (s.entries ++ [e]) (t.bktab_used + if s.allocated then 0 else 1) (t.size + 1)
      (Nat.zero_le _)
    have stored : (t.put (atm_dict_hkey T t e.key) (s.entries ++ [e]) (t.bktab_used + if s.allocated then 0 else 1)
        (t.size + 1)).bktab_used = t.bktab_used + if s.allocated then 0 else 1 := rfl
    rw [stored]
    cases allocated : s.allocated with
    | true =>
      simp only [allocated,↓reduceIte] at counts ⊢
      omega
    | false =>
      simp only [allocated,Bool.false_eq_true,↓reduceIte] at counts ⊢
      omega

theorem table_set_rep {t t' : Table K V} {k : K} {v : V} (rep : TableRep T t)
    (done : atm_dict_table_set T t k v = .ok t') : Replaces T t t' := by
  rcases table_set_returns done with ⟨l,e,found,_,rfl⟩ | ⟨_,pushed⟩
  · refine ⟨rep.put found ?_ (by simp [Slot.entries,setFirst_length]),rfl,by rw [used_from_bucket found]; rfl⟩
    exact setFirst_each (Q := fun key => atm_dict_hkey T t key = atm_dict_hkey T t k) (rep.placed _ _ found) _ v
  · exact push_entry_rep rep pushed

/-- Deleting takes entries out of one bucket that is not empty. -/
theorem table_del_rep (refl : ∀ k, T.match_key k k = true) {t t' : Table K V} {free_type : FreeType} {k : K} {res : Bool}
    {record : List (Freed K V)} (rep : TableRep T t) (done : atm_dict_table_del T free_type t k = .ok (res,t',record)) :
    TableRep T t' ∧ t'.bktab_size = t.bktab_size ∧ t'.bktab_used = t.bktab_used ∧
      (∀ cursor, t'.used_from cursor = t.used_from cursor) ∧
      ∀ (i : Nat) (s : Slot K V), t'.bktab[i]? = some s → t.bktab[i]? = some s ∨
        ∃ l, t.bktab[i]? = some (.bucket l) ∧ l ≠ [] := by
  rcases table_del_returns done with ⟨_,_,rfl,_⟩ | ⟨l,e,found,sought,_,rfl,_⟩
  · exact ⟨rep,rfl,rfl,fun _ => rfl,fun i s here => .inl here⟩
  · have member := List.mem_of_find?_eq_some sought
    have length := List.length_eraseP_of_mem (p := fun x => T.match_key x.key e.key) member (refl e.key)
    have positive := List.length_pos_of_mem member
    refine ⟨rep.put found ?_ ?_,rfl,rfl,fun cursor => used_from_bucket found _ _ _ cursor,?_⟩
    · exact fun x inside => rep.placed _ _ found x (List.mem_of_mem_eraseP inside)
    · have total := (put_length found [] 0 0).symm
      have counted := rep.counted
      simp only [Slot.entries,List.length_nil] at total ⊢
      omega
    · intro i s here
      simp only [Table.put] at here
      rw [List.getElem?_set] at here
      split at here
      · rename_i same
        subst same
        exact .inr ⟨l,found,List.ne_nil_of_mem member⟩
      · exact .inl here

/-! ### Rehash -/

theorem push_all_rep {bak bak' : Table K V} {l : List (Entry K V)} (rep : TableRep T bak)
    (counted : bak.bktab_used = bak.used_from 0) (done : l.foldlM (atm_dict_table_push_entry T) bak = .ok bak') :
    TableRep T bak' ∧ bak'.bktab_used = bak'.used_from 0 := by
  refine run_keeps (P := fun _ t => TableRep T t ∧ t.bktab_used = t.used_from 0) ⟨rep,counted⟩ ?_ done
  rintro _ e t t' ⟨rep,counted⟩ pushed
  obtain ⟨rep',_,used⟩ := push_entry_rep rep pushed
  exact ⟨rep',by omega⟩

/-- Passing a slot empties its bucket and takes it out of the count. -/
theorem passed_rep {act : Table K V} {i : Nat} {s : Slot K V} (rep : TableRep T act)
    (used : act.bktab_used = act.used_from i) (found : act.bktab[i]? = some s) :
    TableRep T (act.passed i) ∧ (act.passed i).bktab_size = act.bktab_size ∧
      (act.passed i).bktab_used = (act.passed i).used_from (i+1) ∧
      ((act.passed i).bktab[i]? = some .null ∨ (act.passed i).bktab[i]? = some (.bucket [])) := by
  obtain ⟨inside,same⟩ := List.getElem?_eq_some_iff.mp found
  have tail : act.used_from i = act.used_from (i+1) + if s.allocated then 1 else 0 := by
    rw [Table.used_from,Table.used_from,List.drop_eq_getElem_cons inside,List.countP_cons,same]
  cases s with
  | freed => exact absurd rfl (rep.live i _ found)
  | null =>
    have unchanged : act.passed i = act := by simp only [Table.passed,found]
    rw [unchanged]
    simp only [Slot.allocated,Bool.false_eq_true,↓reduceIte] at tail
    exact ⟨rep,rfl,by omega,.inl found⟩
  | bucket l =>
    have changed : act.passed i = act.put i [] (act.bktab_used - 1) (act.size - l.length) := by
      simp only [Table.passed,found]
    have lengths := put_length found [] (act.bktab_used - 1) (act.size - l.length)
    have counted := rep.counted
    simp only [Slot.entries,List.length_nil] at lengths
    simp only [Slot.allocated,↓reduceIte] at tail
    rw [changed]
    refine ⟨rep.put found (fun e member => absurd member List.not_mem_nil) ?_,rfl,?_,.inr ?_⟩
    · simp only [Slot.entries,List.length_nil]
      omega
    · have later : (act.put i [] (act.bktab_used - 1) (act.size - l.length)).used_from (i+1) = act.used_from (i+1) := by
        rw [Table.used_from,Table.used_from,Table.put,List.drop_set_of_lt (by omega)]
      rw [later]
      simp only [Table.put]
      omega
    · simp only [Table.put]
      rw [List.getElem?_set_self inside]

/-- A rehash that returns restores the representation. -/
theorem rehash_rep {d d' : Dictionary K V} (rep : Represented T d) (done : atm_dict_rehash T d = .ok d') :
    Represented T d' := by
  rcases rehash_returns done with rfl | ⟨bak,act',bak',i',found,inside,moved,finished⟩
  · exact rep
  obtain ⟨target,counted⟩ : TableRep T bak ∧ bak.bktab_used = bak.used_from 0 := by
    rcases rehash_backup_returns found with two | ⟨_,_,j,rfl⟩
    · exact ⟨rep.backup bak two,rep.backup_used bak two⟩
    · obtain ⟨new,unused⟩ := table_new_rep (T := T) (V := V) j
      exact ⟨new,by rw [unused]; rfl⟩
  -- The two tables after the round, with the cursor that it leaves.
  obtain ⟨active,used,passed,within,target',counted'⟩ :
      TableRep T act' ∧ act'.bktab_used = act'.used_from i' ∧
      (∀ (i : Nat) (s : Slot K V), i < i' → act'.bktab[i]? = some s → s = .null ∨ s = .bucket []) ∧
      i' ≤ act'.bktab_size ∧ TableRep T bak' ∧ bak'.bktab_used = bak'.used_from 0 := by
    rcases rehash_loop_returns moved with ⟨rfl,rfl,rfl⟩ | ⟨s,slot,_,pushed,rfl,rfl⟩
    · exact ⟨rep.active,rep.active_used,rep.passed,by omega,target,counted⟩
    · obtain ⟨active,size,used,emptied⟩ := passed_rep rep.active rep.active_used slot
      refine ⟨active,used,fun i s' low here => ?_,by omega,push_all_rep target counted pushed⟩
      rcases Nat.lt_succ_iff_lt_or_eq.mp low with less | rfl
      · rw [passed_slot _ (by omega)] at here
        exact rep.passed i s' less here
      · rcases emptied with null | bucket
        · rw [null] at here
          exact .inl (Option.some.inj here).symm
        · rw [bucket] at here
          exact .inr (Option.some.inj here).symm
  rcases rehash_finish_returns finished with ⟨_,record,_,rfl⟩ | rfl
  · exact ⟨target',fun _ other => (by cases other),fun _ _ low => absurd low (Nat.not_lt_zero _),counted',
      fun _ other => (by cases other),fun _ => rfl,fun other => absurd rfl other⟩
  · refine ⟨active,?_,passed,used,?_,fun one => (by cases one),fun _ => within⟩
    · rintro _ ⟨⟩
      exact target'
    · rintro _ ⟨⟩
      exact counted'

/-! ### Calls and runs -/

theorem set_table_rep {d d' : Dictionary K V} {k : K} {v : V} (rep : Represented T d)
    (done : atm_dict_set_table T d k v = .ok d') : Represented T d' := by
  unfold atm_dict_set_table at done
  cases two : d.ht_backup with
  | none =>
    simp only [two] at done
    obtain ⟨t,wrote,same⟩ := bind_eq_ok.mp done
    cases same
    obtain ⟨active,_,used⟩ := table_set_rep rep.active wrote
    have start := rep.cursor_single two
    have before := rep.active_used
    rw [start] at before
    refine ⟨active,fun _ other => (by cases other),fun i s low => ?_,?_,fun _ other => (by cases other),fun _ => start,
      fun other => absurd rfl other⟩
    · simp only [start] at low
      exact absurd low (Nat.not_lt_zero _)
    · simp only [start]
      omega
  | some bak =>
    simp only [two] at done
    obtain ⟨t,wrote,same⟩ := bind_eq_ok.mp done
    cases same
    obtain ⟨target,_,used⟩ := table_set_rep (rep.backup bak two) wrote
    have before := rep.backup_used bak two
    refine ⟨rep.active,?_,rep.passed,rep.active_used,?_,fun one => (by cases one),
      fun _ => rep.cursor_double (by simp [two])⟩
    · rintro _ ⟨⟩
      exact target
    · rintro _ ⟨⟩
      omega

/-- A `del` works on the active table, and on the backup where the active table has no match. -/
theorem del_table_rep (refl : ∀ k, T.match_key k k = true) {d d' : Dictionary K V} {k : K} (rep : Represented T d)
    (done : atm_dict_del_table T d k = .ok d') : Represented T d' := by
  obtain ⟨⟨res,act,record⟩,tried,rest⟩ := bind_eq_ok.mp done
  obtain ⟨active,size,used,counts,slots⟩ := table_del_rep refl rep.active tried
  have active_used : act.bktab_used = act.used_from d.rehash_index := by rw [used,counts,rep.active_used]
  have passed : ∀ (i : Nat) (s : Slot K V), i < d.rehash_index → act.bktab[i]? = some s →
      s = .null ∨ s = .bucket [] := by
    intro i s low here
    rcases slots i s here with same | ⟨l,found,some⟩
    · exact rep.passed i s low same
    · rcases rep.passed i _ low found with null | bare
      · cases null
      · cases bare
        exact absurd rfl some
  have backup_kept : ∀ (record : List (Freed K V)), Represented T { d with ht_active := act, record := record } := by
    intro record
    exact ⟨active,rep.backup,passed,active_used,rep.backup_used,rep.cursor_single,
      fun two => by simp only [size]; exact rep.cursor_double two⟩
  cases res with
  | true => cases rest; exact backup_kept _
  | false =>
    cases two : d.ht_backup with
    | none =>
      simp only [two] at rest
      cases rest
      exact two ▸ backup_kept _
    | some bak =>
      simp only [two] at rest
      obtain ⟨⟨_,bak',record'⟩,tried',same⟩ := bind_eq_ok.mp rest
      cases same
      obtain ⟨target,_,used',counts',_⟩ := table_del_rep refl (rep.backup bak two) tried'
      refine ⟨active,?_,passed,active_used,?_,fun one => (by cases one),
        fun _ => by simp only [size]; exact rep.cursor_double (by simp [two])⟩
      · rintro _ ⟨⟩
        exact target
      · rintro _ ⟨⟩
        rw [used',counts',rep.backup_used bak two]

theorem step_rep (refl : ∀ k, T.match_key k k = true) {d d' : Dictionary K V} {op : Op K V} (rep : Represented T d)
    (done : step T d op = .ok d') : Represented T d' := by
  cases op with
  | set k v =>
    obtain ⟨d₁,first,second⟩ := (step_mutates rfl).mp done
    exact rehash_rep (set_table_rep rep first) second
  | del k =>
    obtain ⟨d₁,first,second⟩ := (step_mutates rfl).mp done
    exact rehash_rep (del_table_rep refl rep first) second
  | resize_enable =>
    cases done
    exact ⟨rep.active,rep.backup,rep.passed,rep.active_used,rep.backup_used,rep.cursor_single,rep.cursor_double⟩
  | resize_disable =>
    cases done
    exact ⟨rep.active,rep.backup,rep.passed,rep.active_used,rep.backup_used,rep.cursor_single,rep.cursor_double⟩

theorem new_rep (free_type : FreeType) : Represented T (atm_dict_new free_type : Dictionary K V) := by
  obtain ⟨table,unused⟩ := table_new_rep (T := T) (V := V) 8
  exact ⟨table,fun _ other => (by cases other),fun _ _ low => absurd low (Nat.not_lt_zero _),unused.symm,
    fun _ other => (by cases other),fun _ => rfl,fun other => absurd rfl other⟩

/-- Every state that calls reach is represented. -/
theorem represented (refl : ∀ k, T.match_key k k = true) {free_type : FreeType} {ops : List (Op K V)} {d : Dictionary K V}
    (ran : run (step T) (atm_dict_new free_type) ops = .ok d) : Represented T d :=
  run_keeps (P := fun _ d => Represented T d) (new_rep free_type) (fun _ _ _ _ rep done => step_rep refl rep done) ran

theorem represented_again : ∃ d, run (step (modulo 16)) (atm_dict_new .shallow) set_again = .ok d ∧ d.ht_backup.isSome = true ∧
    Represented (modulo 16) d := by
  have started : (run (step (modulo 16)) (atm_dict_new .shallow) set_again).map (fun d => d.ht_backup.isSome) = .ok true := by
    decide +kernel
  obtain ⟨d,ran⟩ : ∃ d, run (step (modulo 16)) (atm_dict_new .shallow) set_again = .ok d := exists_ok (by decide +kernel)
  rw [ran] at started
  exact ⟨d,ran,Except.ok.inj started,represented (modulo_lawful 16).equiv.refl ran⟩

end AtmCache.Dict
