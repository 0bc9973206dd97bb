import AtmCache.DictOwn

/-!
# Dictionaries that are only set

A bucket is made for an entry, and only a `del` can empty it again. As long as a dictionary
is only set, no empty bucket lies at the cursor or after it (`DictFilled`), the active table is never
stranded, and below `2^27` entries every `set` returns (`set_total`).
-/
namespace AtmCache.Dict
open KeyMaps Runs
variable {K V : Type} {T : KeyType K}

/-- No bucket is empty from the cursor on. -/
def Filled (t : Table K V) (cursor : Nat) : Prop :=
  ∀ (i : Nat) (l : List (Entry K V)), cursor ≤ i → t.bktab[i]? = some (.bucket l) → l ≠ []

structure DictFilled (d : Dictionary K V) : Prop where
  active : Filled d.ht_active d.rehash_index
  backup : ∀ bak, d.ht_backup = some bak → Filled bak 0

/-! ### Tables -/

theorem table_new_filled (bsz : Nat) : Filled (atm_dict_table_new bsz : Table K V) 0 := by
  intro i l _ found
  simp only [atm_dict_table_new,List.getElem?_replicate] at found
  split at found
  · cases found
  · cases found

theorem put_filled {t : Table K V} {cursor : Nat} (filled : Filled t cursor) {l : List (Entry K V)} (some : l ≠ [])
    (i used size : Nat) : Filled (t.put i l used size) cursor := by
  intro j l' above found
  simp only [Table.put,List.getElem?_set] at found
  split at found
  · split at found
    · cases found
      exact some
    · cases found
  · exact filled j l' above found

theorem push_entry_filled {t t' : Table K V} {e : Entry K V} {cursor : Nat} (filled : Filled t cursor)
    (done : atm_dict_table_push_entry T t e = .ok t') : Filled t' cursor := by
  obtain ⟨s,_,_,rfl⟩ := push_entry_returns done
  exact put_filled filled (by simp) _ _ _

theorem table_set_filled {t t' : Table K V} {k : K} {v : V} {cursor : Nat} (filled : Filled t cursor)
    (done : atm_dict_table_set T t k v = .ok t') : Filled t' cursor := by
  rcases table_set_returns done with ⟨l,e,_,first,rfl⟩ | ⟨_,pushed⟩
  · refine put_filled filled (fun nil => ?_) _ _ _
    have same := setFirst_length (fun e => T.match_key e.key k) v l
    rw [nil,List.length_nil] at same
    rw [List.length_eq_zero_iff.mp same.symm] at first
    cases first
  · exact push_entry_filled filled pushed

theorem push_all_filled {bak bak' : Table K V} {l : List (Entry K V)} (filled : Filled bak 0)
    (done : l.foldlM (atm_dict_table_push_entry T) bak = .ok bak') : Filled bak' 0 :=
  run_keeps (P := fun _ t => Filled t 0) filled (fun _ _ _ _ filled pushed => push_entry_filled filled pushed) done

/-- The slot that the cursor passes is the only one that a migration empties. -/
theorem passed_filled {act : Table K V} {cursor : Nat} (filled : Filled act cursor) :
    Filled (act.passed cursor) (cursor + 1) := by
  intro i l above found
  rw [passed_slot act (by omega)] at found
  exact filled i l (by omega) found

/-! ### Calls -/

theorem new_filled (free_type : FreeType) : DictFilled (atm_dict_new free_type : Dictionary K V) :=
  ⟨table_new_filled _,fun _ other => (by cases other)⟩

theorem rehash_filled {d d' : Dictionary K V} (filled : DictFilled d) (done : atm_dict_rehash T d = .ok d') :
    DictFilled d' := by
  rcases rehash_returns done with rfl | ⟨bak,act',bak',i',found,_,moved,finished⟩
  · exact filled
  have target : Filled bak 0 := by
    rcases rehash_backup_returns found with two | ⟨_,_,j,rfl⟩
    · exact filled.backup bak two
    · exact table_new_filled _
  obtain ⟨active,target'⟩ : Filled act' i' ∧ Filled bak' 0 := by
    rcases rehash_loop_returns moved with ⟨rfl,rfl,rfl⟩ | ⟨s,_,_,pushed,rfl,rfl⟩
    · exact ⟨filled.active,target⟩
    · exact ⟨passed_filled filled.active,push_all_filled target pushed⟩
  rcases rehash_finish_returns finished with ⟨_,record,_,rfl⟩ | rfl
  · exact ⟨target',fun _ other => (by cases other)⟩
  · refine ⟨active,?_⟩
    rintro _ ⟨⟩
    exact target'

theorem set_table_filled {d d' : Dictionary K V} {k : K} {v : V} (filled : DictFilled d)
    (done : atm_dict_set_table T d k v = .ok d') : DictFilled d' := by
  unfold atm_dict_set_table at done
  cases two : d.ht_backup with
  | none =>
    simp only [two] at done
    obtain ⟨t,wrote,same⟩ := bind_eq_ok.mp done
    cases same
    exact ⟨table_set_filled filled.active wrote,fun _ other => (by cases other)⟩
  | some bak =>
    simp only [two] at done
    obtain ⟨t,wrote,same⟩ := bind_eq_ok.mp done
    cases same
    refine ⟨filled.active,?_⟩
    rintro _ ⟨⟩
    exact table_set_filled (filled.backup bak two) wrote

/-- A stranded table has an empty bucket at the cursor or after it. -/
theorem filled_not_stranded {act : Table K V} {cursor : Nat} (filled : Filled act cursor) (live : Slot.freed ∉ act.bktab) :
    ¬ Stranded act cursor := by
  rintro ⟨bare,i,s,above,found,bucket,empty⟩
  cases s with
  | null => cases bucket
  | freed => exact live (List.mem_of_getElem? found)
  | bucket l =>
    have some := filled i l above found
    by_cases here : i = cursor
    · exact some (entries_eq_nil.mp (empty here) i _ found)
    · exact some (bare i _ here found)

/-- A dictionary that was only ever set. While its tables fit their blocks it is well-formed. -/
structure OnlySet (T : KeyType K) (d : Dictionary K V) : Prop where
  tallied : DictTallied d
  filled : DictFilled d
  sized : atm_dict_size d ≤ 2^27 → DictOk T 0 d

theorem new_only_set (free_type : FreeType) : OnlySet T (atm_dict_new free_type : Dictionary K V) :=
  ⟨(new_tallied free_type).1,new_filled free_type,fun _ => (new_ok free_type).1⟩

theorem active_le_size (d : Dictionary K V) : d.ht_active.size ≤ atm_dict_size d := Nat.le_add_right ..

theorem set_size {d d' : Dictionary K V} {k : K} {v : V} (tallied : DictTallied d)
    (done : atm_dict_set_table T d k v = .ok d') : atm_dict_size d ≤ atm_dict_size d' ∧ atm_dict_size d' ≤ atm_dict_size d + 1 := by
  obtain ⟨tallied',_,_,effect⟩ := set_table_owned tallied done
  rw [dict_size_eq tallied,dict_size_eq tallied']
  rcases effect with ⟨_,after⟩ | ⟨_,e,rest,before,after⟩
  · rw [after.length_eq,List.length_cons]
    omega
  · rw [after.length_eq,before.length_eq,List.length_cons,List.length_cons]
    omega

theorem rehash_size {d d' : Dictionary K V} (tallied : DictTallied d) (done : atm_dict_rehash T d = .ok d') :
    atm_dict_size d' = atm_dict_size d := by
  have carried := rehash_carries tallied done
  rw [dict_size_eq carried.tallied,dict_size_eq tallied,carried.entries.length_eq]

theorem set_only_set {d d' : Dictionary K V} {k : K} {v : V} (before : OnlySet T d)
    (done : atm_dict_set T d k v = .ok d') : OnlySet T d' := by
  obtain ⟨d₁,first,second⟩ := bind_eq_ok.mp done
  obtain ⟨low,_⟩ := set_size before.tallied first
  have tallied₁ := (set_table_owned before.tallied first).1
  have same := rehash_size tallied₁ second
  refine ⟨(rehash_carries tallied₁ second).tallied,rehash_filled (set_table_filled before.filled first) second,fun small => ?_⟩
  obtain ⟨d₂,again,ok₁,_⟩ := set_table_ok (before.sized (by omega)) k v
  rw [first] at again
  cases again
  exact (rehash_keeps ok₁ (fun _ _ => by have := active_le_size d₁; omega) second).1

theorem set_size_le {d d' : Dictionary K V} {k : K} {v : V} (tallied : DictTallied d)
    (done : atm_dict_set T d k v = .ok d') : atm_dict_size d' ≤ atm_dict_size d + 1 := by
  obtain ⟨d₁,first,second⟩ := bind_eq_ok.mp done
  rw [rehash_size (set_table_owned tallied first).1 second]
  exact (set_size tallied first).2

/-- A `set` of a dictionary with room that was only ever set returns. -/
theorem set_total {d : Dictionary K V} (before : OnlySet T d) (room : atm_dict_size d < 2^27) (k : K) (v : V) :
    ∃ d', atm_dict_set T d k v = .ok d' := by
  obtain ⟨d₁,first,ok₁,_⟩ := set_table_ok (before.sized (by omega)) k v
  obtain ⟨_,high⟩ := set_size before.tallied first
  have clear := filled_not_stranded (set_table_filled before.filled first).active ok₁.active.table.live
  have fits : GrowthFits d₁ := fun _ _ => by have := active_le_size d₁; omega
  rcases rehash_cases ok₁ fits with ⟨_,done,_⟩ | ⟨_,stranded,_⟩ | ⟨_,_,d',done,_⟩
  · exact ⟨d₁,by rw [atm_dict_set,first,ok_bind,done]⟩
  · exact absurd stranded clear
  · exact ⟨d',by rw [atm_dict_set,first,ok_bind,done]⟩

theorem table_get_total {t : Table K V} (ok : TableOk T t) (k : K) : ∃ r, atm_dict_table_get T t k = .ok r :=
  ⟨_,by rw [atm_dict_table_get,ok.sound.entry]; rfl⟩

theorem get_total {slack : Nat} {d : Dictionary K V} (ok : DictOk T slack d) (k : K) : ∃ r, atm_dict_get T d k = .ok r := by
  obtain ⟨r,first⟩ := table_get_total ok.active.table k
  rw [atm_dict_get,first,ok_bind]
  cases r with
  | some v => exact ⟨some v,rfl⟩
  | none =>
    cases two : d.ht_backup with
    | none => exact ⟨none,rfl⟩
    | some bak => exact table_get_total (ok.double bak two).target k

/-- No run of `set` calls leaves the program, while fewer than `2^27` calls are made. -/
theorem only_set_runs {free_type : FreeType} {ops : List (Op K V)} (sets : ∀ op ∈ ops, ∃ k v, op = .set k v)
    (short : ops.length ≤ 2^27) : ∃ d, run (step T) (atm_dict_new free_type) ops = .ok d ∧ OnlySet T d ∧
      atm_dict_size d ≤ ops.length := by
  induction ops using List.reverseRecOn with
  | nil =>
    refine ⟨_,rfl,new_only_set free_type,?_⟩
    rw [dict_size_eq (new_tallied free_type).1,(new_tallied free_type).2]
    exact le_rfl
  | append_singleton ops op ih =>
    rw [List.length_append,List.length_singleton] at short ⊢
    obtain ⟨d,ran,before,size⟩ := ih (fun op member => sets op (List.mem_append_left _ member)) (by omega)
    obtain ⟨k,v,rfl⟩ := sets op (List.mem_append_right _ List.mem_cons_self)
    obtain ⟨d',done⟩ := set_total before (by omega) k v
    have grown := set_size_le before.tallied done
    exact ⟨d',(run_snoc_ok _).mpr ⟨d,ran,done⟩,set_only_set before done,by omega⟩

end AtmCache.Dict
