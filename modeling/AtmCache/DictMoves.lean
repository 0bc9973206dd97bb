import AtmCache.DictRehash

/-!
# What a call that returned has done

`DictTables` and `DictRehash` start from well-formed tables and show that a call
returns. Here nothing is assumed of the tables: that a call returned says which
slots it read and what it wrote. Properties that hold in all runs, also in those
whose tables outgrow their blocks, are proved from these lemmas.
-/
namespace AtmCache.Dict
open KeyMaps Runs
variable {K V : Type} {T : KeyType K}

/-! ### One table -/

theorem bucket_returns {t : Table K V} {k : K} {r : Option (List (Entry K V))}
    (done : atm_dict_bucket T t k = .ok r) :
    (t.bktab[atm_dict_hkey T t k]? = some .null ∧ r = none) ∨
      ∃ l, t.bktab[atm_dict_hkey T t k]? = some (.bucket l) ∧ r = some l := by
  unfold atm_dict_bucket Table.slot at done
  cases found : t.bktab[atm_dict_hkey T t k]? with
  | none => simp [found] at done
  | some s =>
    cases s with
    | null =>
      simp only [found,ok_bind,Slot.list,Except.ok.injEq] at done
      exact .inl ⟨rfl,done.symm⟩
    | bucket l =>
      simp only [found,ok_bind,Slot.list,Except.ok.injEq] at done
      exact .inr ⟨l,rfl,done.symm⟩
    | freed => simp [found,Slot.list] at done

/-- A lookup that returned searched the list of the key's slot. -/
theorem entry_returns {t : Table K V} {k : K} {r : Option (Entry K V)} (done : atm_dict_entry T t k = .ok r) :
    (r = none ∧ (t.chain T k).find? (fun e => T.match_key e.key k) = none) ∨
      ∃ l e, t.bktab[atm_dict_hkey T t k]? = some (.bucket l) ∧ atm_dict_bucket T t k = .ok (some l) ∧
        l.find? (fun e => T.match_key e.key k) = some e ∧ r = some e := by
  obtain ⟨b,read,rest⟩ := bind_eq_ok.mp done
  rcases bucket_returns read with ⟨found,rfl⟩ | ⟨l,found,rfl⟩
  · cases rest
    exact .inl ⟨rfl,by rw [chain_eq found]; rfl⟩
  · cases sought : l.find? (fun e => T.match_key e.key k) with
    | none =>
      simp only [sought] at rest
      cases rest
      exact .inl ⟨rfl,by rw [chain_eq found]; exact sought⟩
    | some e =>
      simp only [sought] at rest
      cases rest
      exact .inr ⟨l,e,found,read,sought,rfl⟩

theorem push_entry_returns {t t' : Table K V} {e : Entry K V} (done : atm_dict_table_push_entry T t e = .ok t') :
    ∃ s, t.bktab[atm_dict_hkey T t e.key]? = some s ∧ s ≠ .freed ∧
      t' = t.put (atm_dict_hkey T t e.key) (s.entries ++ [e]) (t.bktab_used + if s.allocated then 0 else 1)
        (t.size + 1) := by
  obtain ⟨b,read,rest⟩ := bind_eq_ok.mp done
  rcases bucket_returns read with ⟨found,rfl⟩ | ⟨l,found,rfl⟩
  · cases rest
    exact ⟨.null,found,by simp,rfl⟩
  · cases rest
    exact ⟨.bucket l,found,by simp,rfl⟩

theorem table_set_returns {t t' : Table K V} {k : K} {v : V} (done : atm_dict_table_set T t k v = .ok t') :
    (∃ l e, t.bktab[atm_dict_hkey T t k]? = some (.bucket l) ∧ l.find? (fun e => T.match_key e.key k) = some e ∧
      t' = t.put (atm_dict_hkey T t k) (setFirst (fun e => T.match_key e.key k) v l) t.bktab_used t.size) ∨
    ((t.chain T k).find? (fun e => T.match_key e.key k) = none ∧ atm_dict_table_push_entry T t ⟨k,v⟩ = .ok t') := by
  obtain ⟨r,sought,rest⟩ := bind_eq_ok.mp done
  rcases entry_returns sought with ⟨rfl,absent⟩ | ⟨l,e,found,read,first,rfl⟩
  · exact .inr ⟨absent,rest⟩
  · simp only [read,ok_bind] at rest
    cases rest
    exact .inl ⟨l,e,found,first,rfl⟩

theorem table_del_returns {t t' : Table K V} {free_type : FreeType} {k : K} {res : Bool} {record : List (Freed K V)}
    (done : atm_dict_table_del T free_type t k = .ok (res,t',record)) :
    ((t.chain T k).find? (fun e => T.match_key e.key k) = none ∧ res = false ∧ t' = t ∧ record = []) ∨
    ∃ l e, t.bktab[atm_dict_hkey T t k]? = some (.bucket l) ∧ l.find? (fun e => T.match_key e.key k) = some e ∧
      res = true ∧
      t' = t.put (atm_dict_hkey T t k) (l.eraseP (fun x => T.match_key x.key e.key)) t.bktab_used (t.size - 1) ∧
      record = atm_dict_entry_free free_type e := by
  obtain ⟨r,sought,rest⟩ := bind_eq_ok.mp done
  rcases entry_returns sought with ⟨rfl,absent⟩ | ⟨l,e,found,read,first,rfl⟩
  · cases rest
    exact .inl ⟨absent,rfl,rfl,rfl⟩
  · simp only [read,ok_bind] at rest
    cases rest
    exact .inr ⟨l,e,found,first,rfl,rfl,rfl⟩

theorem put_length {t : Table K V} {i : Nat} {s : Slot K V} (found : t.bktab[i]? = some s) (l : List (Entry K V))
    (used size : Nat) : s.entries.length + (t.put i l used size).entries.length = l.length + t.entries.length := by
  simpa using (put_perm found l used size).length_eq

theorem push_entry_perm {t t' : Table K V} {e : Entry K V} (done : atm_dict_table_push_entry T t e = .ok t') :
    t'.entries.Perm (e :: t.entries) := by
  obtain ⟨s,found,_,rfl⟩ := push_entry_returns done
  have moved := put_perm found (s.entries ++ [e]) (t.bktab_used + if s.allocated then 0 else 1) (t.size + 1)
  rw [List.append_assoc] at moved
  exact (List.perm_append_left_iff s.entries).mp moved

/-- The entries of a bucket that was pushed whole. -/
theorem push_all_perm {bak bak' : Table K V} {l : List (Entry K V)}
    (done : l.foldlM (atm_dict_table_push_entry T) bak = .ok bak') : bak'.entries.Perm (l ++ bak.entries) := by
  refine run_keeps (P := fun pushed t => t.entries.Perm (pushed ++ bak.entries)) (List.Perm.refl _) ?_ done
  intro pushed e t t' perm push
  calc t'.entries.Perm (e :: t.entries) := push_entry_perm push
    _ |>.Perm (e :: (pushed ++ bak.entries)) := perm.cons e
    _ |>.Perm (pushed ++ [e] ++ bak.entries) := by
      rw [List.append_assoc]
      exact List.perm_middle.symm

/-! ### Rehash -/

/-- The round of the migration loop: it stops at an empty table or passes one slot. -/
theorem rehash_loop_returns {act bak act' bak' : Table K V} {i i' : Nat}
    (done : atm_dict_rehash_loop T rehash_loop_time act bak i = .ok (act',bak',i')) :
    (act' = act ∧ bak' = bak ∧ i' = i) ∨
    ∃ s, act.bktab[i]? = some s ∧ s ≠ .freed ∧ s.entries.foldlM (atm_dict_table_push_entry T) bak = .ok bak' ∧
      act' = act.passed i ∧ i' = i + 1 := by
  rw [rehash_loop_time,atm_dict_rehash_loop] at done
  split at done
  · cases done
    exact .inl ⟨rfl,rfl,rfl⟩
  · split at done
    · split at done
      · cases done
      · cases done
        exact .inl ⟨rfl,rfl,rfl⟩
    · split at done
      · split at done
        · cases done
        · cases done
          exact .inl ⟨rfl,rfl,rfl⟩
      · obtain ⟨r,read,rest⟩ := bind_eq_ok.mp done
        unfold Table.slot at read
        cases found : act.bktab[i]? with
        | none => simp [found] at read
        | some s =>
          cases s with
          | freed => simp [found,Slot.list] at read
          | null =>
            simp only [found,ok_bind,Slot.list,Except.ok.injEq] at read
            subst read
            cases rest
            exact .inr ⟨.null,rfl,by simp,rfl,by simp only [Table.passed,found],rfl⟩
          | bucket l =>
            simp only [found,ok_bind,Slot.list,Except.ok.injEq] at read
            subst read
            obtain ⟨filled,pushed,last⟩ := bind_eq_ok.mp rest
            cases last
            exact .inr ⟨.bucket l,rfl,by simp,pushed,by simp only [Table.passed,found]; rfl,rfl⟩

theorem rehash_finish_returns {d d' : Dictionary K V} {act bak : Table K V} {i : Nat}
    (done : atm_dict_rehash_finish d act bak i = .ok d') :
    (act.size = 0 ∧ ∃ record, atm_dict_table_free act = .ok record ∧
      d' = { d with ht_active := bak, ht_backup := none, rehash_index := 0, record := d.record ++ record }) ∨
    d' = { d with ht_active := act, ht_backup := some bak, rehash_index := i } := by
  rw [atm_dict_rehash_finish] at done
  split at done
  · rename_i empty
    split at done
    · cases done
    · split at done
      · cases done
      · obtain ⟨record,freed,rest⟩ := bind_eq_ok.mp done
        cases rest
        exact .inl ⟨empty,record,freed,rfl⟩
  · cases done
    exact .inr rfl

theorem rehash_backup_returns {d : Dictionary K V} {bak : Table K V} (done : atm_dict_rehash_backup d = .ok bak) :
    d.ht_backup = some bak ∨ (d.ht_backup = none ∧ d.rehash_index = 0 ∧ ∃ j, bak = atm_dict_table_new (2^j)) := by
  unfold atm_dict_rehash_backup at done
  cases two : d.ht_backup with
  | some other =>
    simp only [two,Except.ok.injEq] at done
    exact .inl (by rw [done])
  | none =>
    simp only [two] at done
    split at done
    · cases done
    · rename_i start
      obtain ⟨bsz,found,rest⟩ := bind_eq_ok.mp done
      obtain ⟨j,_,_,rfl,_⟩ := next_power_eq_ok found
      cases rest
      exact .inr ⟨rfl,by simpa using start,j,rfl⟩

theorem rehash_idle {d d' : Dictionary K V} (idle : atm_dict_rehash_needed d = false) (done : atm_dict_rehash T d = .ok d') :
    d' = d := by
  simp only [atm_dict_rehash,idle,Bool.false_eq_true,↓reduceIte,Except.ok.injEq] at done
  exact done.symm

theorem rehash_moves {d d' : Dictionary K V} (needed : atm_dict_rehash_needed d = true)
    (done : atm_dict_rehash T d = .ok d') :
    ∃ bak act' bak' i', atm_dict_rehash_backup d = .ok bak ∧ d.rehash_index < d.ht_active.bktab_size ∧
      atm_dict_rehash_loop T rehash_loop_time d.ht_active bak d.rehash_index = .ok (act',bak',i') ∧
      atm_dict_rehash_finish d act' bak' i' = .ok d' := by
  rw [atm_dict_rehash,if_pos needed] at done
  obtain ⟨bak,found,rest⟩ := bind_eq_ok.mp done
  split at rest
  · rename_i inside
    obtain ⟨⟨act',bak',i'⟩,moved,last⟩ := bind_eq_ok.mp rest
    exact ⟨bak,act',bak',i',found,inside,moved,last⟩
  · cases rest

theorem rehash_returns {d d' : Dictionary K V} (done : atm_dict_rehash T d = .ok d') :
    d' = d ∨ ∃ bak act' bak' i', atm_dict_rehash_backup d = .ok bak ∧ d.rehash_index < d.ht_active.bktab_size ∧
      atm_dict_rehash_loop T rehash_loop_time d.ht_active bak d.rehash_index = .ok (act',bak',i') ∧
      atm_dict_rehash_finish d act' bak' i' = .ok d' := by
  cases needed : atm_dict_rehash_needed d with
  | false => exact .inl (rehash_idle needed done)
  | true => exact .inr (rehash_moves needed done)

end AtmCache.Dict
