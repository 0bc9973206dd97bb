import AtmCache.DictLate

/-!
# The keys that a dictionary sees

The functions of a type are only ever called for the keys of the entries and the key of the call.
So a type that is no equivalence on all values, such as that of strings with broken headers,
can be replaced by one that is, as long as every key in use is one where both agree (`SameOn`).
-/
namespace AtmCache.Dict
open KeyMaps Runs
variable {K V : Type} {T T' : KeyType K} {P : K → Prop}

/-- Two types agree on the keys that satisfy `P`. -/
structure SameOn (P : K → Prop) (T T' : KeyType K) : Prop where
  matched : ∀ {a b}, P a → P b → T.match_key a b = T'.match_key a b
  hashed : ∀ {k}, P k → T.hash k = T'.hash k

def TableKeys (P : K → Prop) (t : Table K V) : Prop := ∀ e ∈ t.entries, P e.key

structure DictKeys (P : K → Prop) (d : Dictionary K V) : Prop where
  active : TableKeys P d.ht_active
  backup : ∀ bak, d.ht_backup = some bak → TableKeys P bak

/-! ### One table -/

theorem hkey_same (same : SameOn P T T') (t : Table K V) {k : K} (here : P k) :
    atm_dict_hkey T t k = atm_dict_hkey T' t k := by
  rw [atm_dict_hkey,atm_dict_hkey,same.hashed here]

theorem bucket_same (same : SameOn P T T') (t : Table K V) {k : K} (here : P k) :
    atm_dict_bucket T t k = atm_dict_bucket T' t k := by
  rw [atm_dict_bucket,atm_dict_bucket,hkey_same same t here]

/-- The keys of a list that a bucket pointer leads to. -/
theorem bucket_keys {t : Table K V} (keys : TableKeys P t) {k : K} {l : List (Entry K V)}
    (read : atm_dict_bucket T t k = .ok (some l)) : ∀ e ∈ l, P e.key := by
  intro e member
  rcases bucket_returns read with ⟨_,none⟩ | ⟨l',found,some⟩
  · cases none
  · cases some
    exact keys e (mem_entries.mpr ⟨_,_,found,member⟩)

theorem find_same (same : SameOn P T T') {l : List (Entry K V)} (keys : ∀ e ∈ l, P e.key) {k : K} (here : P k) :
    l.find? (fun e => T.match_key e.key k) = l.find? (fun e => T'.match_key e.key k) := by
  induction l with
  | nil => rfl
  | cons e l ih =>
    rw [List.find?_cons,List.find?_cons,same.matched (keys e List.mem_cons_self) here,
      ih (fun e member => keys e (List.mem_cons_of_mem _ member))]

theorem setFirst_same (same : SameOn P T T') {l : List (Entry K V)} (keys : ∀ e ∈ l, P e.key) {k : K} (here : P k) (v : V) :
    setFirst (fun e => T.match_key e.key k) v l = setFirst (fun e => T'.match_key e.key k) v l := by
  induction l with
  | nil => rfl
  | cons e l ih =>
    rw [setFirst,setFirst,same.matched (keys e List.mem_cons_self) here,
      ih (fun e member => keys e (List.mem_cons_of_mem _ member))]

theorem entry_same (same : SameOn P T T') {t : Table K V} (keys : TableKeys P t) {k : K} (here : P k) :
    atm_dict_entry T t k = atm_dict_entry T' t k := by
  rw [atm_dict_entry,atm_dict_entry,← bucket_same same t here]
  cases read : atm_dict_bucket T t k with
  | error f => rfl
  | ok r =>
    cases r with
    | none => rfl
    | some l =>
      rw [ok_bind,ok_bind]
      dsimp only
      rw [find_same same (bucket_keys keys read) here]

theorem table_get_same (same : SameOn P T T') {t : Table K V} (keys : TableKeys P t) {k : K} (here : P k) :
    atm_dict_table_get T t k = atm_dict_table_get T' t k := by
  rw [atm_dict_table_get,atm_dict_table_get,entry_same same keys here]

theorem push_entry_same (same : SameOn P T T') (t : Table K V) {e : Entry K V} (here : P e.key) :
    atm_dict_table_push_entry T t e = atm_dict_table_push_entry T' t e := by
  rw [atm_dict_table_push_entry,atm_dict_table_push_entry,bucket_same same t here,hkey_same same t here]

theorem table_set_same (same : SameOn P T T') {t : Table K V} (keys : TableKeys P t) {k : K} (here : P k) (v : V) :
    atm_dict_table_set T t k v = atm_dict_table_set T' t k v := by
  rw [atm_dict_table_set,atm_dict_table_set,← entry_same same keys here]
  cases sought : atm_dict_entry T t k with
  | error f => rfl
  | ok r =>
    rw [ok_bind,ok_bind]
    cases r with
    | none => exact push_entry_same same t here
    | some e =>
      dsimp only
      rw [← bucket_same same t here]
      cases read : atm_dict_bucket T t k with
      | error f => rfl
      | ok b =>
        cases b with
        | none => rfl
        | some l =>
          rw [ok_bind,ok_bind]
          dsimp only
          rw [hkey_same same t here,setFirst_same same (bucket_keys keys read) here]

theorem push_all_same (same : SameOn P T T') {l : List (Entry K V)} (keys : ∀ e ∈ l, P e.key) (bak : Table K V) :
    l.foldlM (atm_dict_table_push_entry T) bak = l.foldlM (atm_dict_table_push_entry T') bak := by
  induction l generalizing bak with
  | nil => rfl
  | cons e l ih =>
    rw [List.foldlM_cons,List.foldlM_cons,push_entry_same same bak (keys e List.mem_cons_self)]
    exact bind_congr (fun t => ih (fun e member => keys e (List.mem_cons_of_mem _ member)) t)

/-! ### Calls -/

theorem rehash_same (same : SameOn P T T') {d : Dictionary K V} (keys : TableKeys P d.ht_active) :
    atm_dict_rehash T d = atm_dict_rehash T' d := by
  rw [atm_dict_rehash,atm_dict_rehash]
  by_cases needed : atm_dict_rehash_needed d = true
  · rw [if_pos needed,if_pos needed]
    refine bind_congr (fun bak => ?_)
    have round : atm_dict_rehash_loop T rehash_loop_time d.ht_active bak d.rehash_index =
        atm_dict_rehash_loop T' rehash_loop_time d.ht_active bak d.rehash_index := by
      simp only [rehash_loop_time,atm_dict_rehash_loop]
      cases read : d.ht_active.slot d.rehash_index >>= Slot.list with
      | error f => rfl
      | ok r =>
        cases r with
        | none => rfl
        | some l =>
          have inside : ∀ e ∈ l, P e.key := by
            intro e member
            obtain ⟨s,slot,list⟩ := bind_eq_ok.mp read
            cases s with
            | null => cases list
            | freed => cases list
            | bucket l' =>
              cases list
              rw [Table.slot] at slot
              split at slot
              · cases slot
                rename_i found
                exact keys e (mem_entries.mpr ⟨_,_,found,member⟩)
              · cases slot
          rw [ok_bind,ok_bind]
          dsimp only
          rw [push_all_same same inside]
    rw [round]
  · rw [if_neg needed,if_neg needed]

theorem get_same (same : SameOn P T T') {d : Dictionary K V} (keys : DictKeys P d) {k : K} (here : P k) :
    atm_dict_get T d k = atm_dict_get T' d k := by
  rw [atm_dict_get,atm_dict_get,table_get_same same keys.active here]
  refine bind_congr (fun res => ?_)
  cases res with
  | some v => rfl
  | none =>
    cases two : d.ht_backup with
    | none => rfl
    | some bak => exact table_get_same same (keys.backup bak two) here

theorem set_table_same (same : SameOn P T T') {d : Dictionary K V} (keys : DictKeys P d) {k : K} (here : P k) (v : V) :
    atm_dict_set_table T d k v = atm_dict_set_table T' d k v := by
  rw [atm_dict_set_table,atm_dict_set_table]
  cases two : d.ht_backup with
  | none =>
    dsimp only
    rw [table_set_same same keys.active here]
  | some bak =>
    dsimp only
    rw [table_set_same same (keys.backup bak two) here]

/-- The keys of the entries after a `set`: those from before and its own. -/
theorem table_set_keys {t t' : Table K V} (keys : TableKeys P t) {k : K} (here : P k) {v : V}
    (done : atm_dict_table_set T t k v = .ok t') : TableKeys P t' := by
  rcases table_set_returns done with ⟨l,e,slot,_,rfl⟩ | ⟨_,pushed⟩
  · intro x member
    obtain ⟨i,s,found,inside⟩ := mem_entries.mp member
    simp only [Table.put,List.getElem?_set] at found
    split at found
    · split at found
      · cases found
        exact setFirst_each (fun e member => keys e (mem_entries.mpr ⟨_,_,slot,member⟩)) _ v x inside
      · cases found
    · exact keys x (mem_entries.mpr ⟨i,s,found,inside⟩)
  · intro x member
    rcases List.mem_cons.mp ((push_entry_perm pushed).mem_iff.mp member) with rfl | old
    · exact here
    · exact keys x old

theorem set_table_keys {d d' : Dictionary K V} (keys : DictKeys P d) {k : K} (here : P k) {v : V}
    (done : atm_dict_set_table T d k v = .ok d') : DictKeys P d' := by
  unfold atm_dict_set_table at done
  cases two : d.ht_backup with
  | none =>
    simp only [two] at done
    obtain ⟨t,wrote,same⟩ := bind_eq_ok.mp done
    cases same
    exact ⟨table_set_keys keys.active here wrote,fun _ other => (by cases other)⟩
  | some bak =>
    simp only [two] at done
    obtain ⟨t,wrote,same⟩ := bind_eq_ok.mp done
    cases same
    refine ⟨keys.active,?_⟩
    rintro _ ⟨⟩
    exact table_set_keys (keys.backup bak two) here wrote

theorem passed_keys {t : Table K V} (keys : TableKeys P t) (i : Nat) : TableKeys P (t.passed i) := by
  intro e member
  obtain ⟨j,s,found,inside⟩ := mem_entries.mp member
  by_cases other : j = i
  · subst other
    unfold Table.passed at found
    split at found
    · rename_i l slot
      simp only [Table.put,List.getElem?_set] at found
      split at found
      · split at found
        · cases found
          cases inside
        · cases found
      · exact keys e (mem_entries.mpr ⟨j,s,found,inside⟩)
    · exact keys e (mem_entries.mpr ⟨j,s,found,inside⟩)
  · rw [passed_slot t other] at found
    exact keys e (mem_entries.mpr ⟨j,s,found,inside⟩)

theorem rehash_keys {d d' : Dictionary K V} (keys : DictKeys P d) (done : atm_dict_rehash T d = .ok d') : DictKeys P d' := by
  rcases rehash_returns done with rfl | ⟨bak,act',bak',i',found,_,moved,finished⟩
  · exact keys
  have target : TableKeys P bak := by
    rcases rehash_backup_returns found with two | ⟨_,_,j,rfl⟩
    · exact keys.backup bak two
    · intro e member
      rw [(table_new_tallied _).2] at member
      cases member
  obtain ⟨active,target'⟩ : TableKeys P act' ∧ TableKeys P bak' := by
    rcases rehash_loop_returns moved with ⟨rfl,rfl,_⟩ | ⟨s,slot,_,pushed,rfl,_⟩
    · exact ⟨keys.active,target⟩
    · refine ⟨passed_keys keys.active _,fun e member => ?_⟩
      rcases List.mem_append.mp ((push_all_perm pushed).mem_iff.mp member) with new | old
      · exact keys.active e (mem_entries.mpr ⟨_,s,slot,new⟩)
      · exact target e old
  rcases rehash_finish_returns finished with ⟨_,record,_,rfl⟩ | rfl
  · exact ⟨target',fun _ other => (by cases other)⟩
  · refine ⟨active,?_⟩
    rintro _ ⟨⟩
    exact target'

theorem set_keys {d d' : Dictionary K V} (keys : DictKeys P d) {k : K} (here : P k) {v : V}
    (done : atm_dict_set T d k v = .ok d') : DictKeys P d' := by
  obtain ⟨d₁,first,second⟩ := bind_eq_ok.mp done
  exact rehash_keys (set_table_keys keys here first) second

theorem set_same (same : SameOn P T T') {d : Dictionary K V} (keys : DictKeys P d) {k : K} (here : P k) (v : V) :
    atm_dict_set T d k v = atm_dict_set T' d k v := by
  rw [atm_dict_set,atm_dict_set,set_table_same same keys here]
  cases done : atm_dict_set_table T' d k v with
  | error f => rfl
  | ok d₁ =>
    rw [ok_bind,ok_bind]
    exact rehash_same same (set_table_keys keys here done).active

theorem new_keys (free_type : FreeType) : DictKeys P (atm_dict_new free_type : Dictionary K V) := by
  refine ⟨fun e member => ?_,fun _ other => (by cases other)⟩
  have empty : (atm_dict_new free_type : Dictionary K V).ht_active.entries = [] := (table_new_tallied _).2
  rw [empty] at member
  cases member

end AtmCache.Dict
