import AtmCache.DictFill
import AtmCache.DictRep

/-!
# Dictionaries that are only set, during migrations

A `set` during a migration writes to the backup while lookups ask the active table first, so that it
can take effect late. Without `del` nothing else goes wrong: what the calls have set is found
in the backup first and then in the active table (`latest`), what a lookup finds is the same in the other
order (`visible`), and both are one map when no migration is under way. A key that was set is never
missing, and what is found for it only ever changes to what was set last.
-/
namespace AtmCache.Dict
open KeyMaps Runs
variable {K V : Type} {T : KeyType K}

/-- What a lookup finds in one table. -/
def Table.first (T : KeyType K) (t : Table K V) (k : K) : Option V := find T.match_key (t.chain T k) k

/-- What lookups find in the backup, if there is one. -/
def backup_first (T : KeyType K) (d : Dictionary K V) (k : K) : Option V := d.ht_backup.bind (fun bak => bak.first T k)

/-- What `atm_dict_get` finds. -/
def visible (T : KeyType K) (d : Dictionary K V) (k : K) : Option V := (d.ht_active.first T k).or (backup_first T d k)

/-- What the calls have set. -/
def latest (T : KeyType K) (d : Dictionary K V) (k : K) : Option V := (backup_first T d k).or (d.ht_active.first T k)

/-! ### One table -/

theorem chain_put {t : Table K V} {i : Nat} {s : Slot K V} (found : t.bktab[i]? = some s) (l : List (Entry K V))
    (used size : Nat) (k : K) :
    (t.put i l used size).chain T k = if atm_dict_hkey T t k = i then l else t.chain T k := by
  have inside : i < t.bktab.length := (List.getElem?_eq_some_iff.mp found).1
  have place : atm_dict_hkey T (t.put i l used size) k = atm_dict_hkey T t k := rfl
  unfold Table.chain
  rw [place]
  by_cases here : atm_dict_hkey T t k = i
  · rw [if_pos here,here]
    simp only [Table.put,List.getElem?_set_self inside,Slot.entries]
  · rw [if_neg here]
    simp only [Table.put,List.getElem?_set_ne (Ne.symm here)]

/-- Keys in different slots do not match. -/
theorem match_apart (lawful : T.Lawful) {t : Table K V} {a b : K} (apart : atm_dict_hkey T t b ≠ atm_dict_hkey T t a) :
    T.match_key a b = false := by
  cases matched : T.match_key a b with
  | false => rfl
  | true => exact absurd (by rw [atm_dict_hkey,atm_dict_hkey,lawful.hash_eq matched]) apart

theorem push_entry_first (lawful : T.Lawful) {t t' : Table K V} {e : Entry K V}
    (done : atm_dict_table_push_entry T t e = .ok t') (k : K) :
    t'.first T k = (t.first T k).or (find T.match_key [e] k) := by
  obtain ⟨s,found,_,rfl⟩ := push_entry_returns done
  unfold Table.first
  rw [chain_put found]
  by_cases here : atm_dict_hkey T t k = atm_dict_hkey T t e.key
  · rw [if_pos here,find_append,chain_eq (here ▸ found)]
  · rw [if_neg here,find_cons,match_apart lawful here]
    simp

/-- The entries of a bucket that is pushed whole come after those that were there. -/
theorem push_all_first (lawful : T.Lawful) {bak bak' : Table K V} {l : List (Entry K V)}
    (done : l.foldlM (atm_dict_table_push_entry T) bak = .ok bak') (k : K) :
    bak'.first T k = (bak.first T k).or (find T.match_key l k) := by
  refine run_keeps (P := fun pushed t => t.first T k = (bak.first T k).or (find T.match_key pushed k))
    (by simp) ?_ done
  intro pushed e t t' before push
  rw [push_entry_first lawful push,before,find_append,Option.or_assoc]

theorem table_set_first (lawful : T.Lawful) {t t' : Table K V} {k : K} {v : V}
    (done : atm_dict_table_set T t k v = .ok t') : t'.first T = KeyMaps.set T.match_key (t.first T) k v := by
  funext k'
  rcases table_set_returns done with ⟨l,e,slot,first,rfl⟩ | ⟨absent,pushed⟩
  · unfold Table.first
    rw [chain_put slot]
    by_cases here : atm_dict_hkey T t k' = atm_dict_hkey T t k
    · have chain : t.chain T k' = l := chain_eq (here ▸ slot)
      rw [if_pos here,find_setFirst lawful.equiv first,KeyMaps.set,KeyMaps.set,chain]
    · rw [if_neg here,KeyMaps.set,match_apart lawful here]
      rfl
  · rw [push_entry_first lawful pushed,find_cons,KeyMaps.set]
    cases matched : T.match_key k k' with
    | false => simp
    | true =>
      -- No entry matches `k`, so none matches `k'`.
      have nothing : t.first T k' = none := by
        have same : atm_dict_hkey T t k' = atm_dict_hkey T t k := by
          rw [atm_dict_hkey,atm_dict_hkey,lawful.hash_eq matched]
        have chain : t.chain T k' = t.chain T k := by rw [Table.chain,Table.chain,same]
        rw [Table.first,chain,find_eq_none_iff]
        intro e member
        rw [List.find?_eq_none] at absent
        have other := absent e member
        rw [lawful.equiv.comm,← lawful.equiv.congr matched,lawful.equiv.comm]
        simpa using other
      rw [nothing]
      rfl

theorem chain_member {t : Table K V} {k : K} {e : Entry K V} (member : e ∈ t.chain T k) : e ∈ t.entries := by
  unfold Table.chain at member
  cases found : t.bktab[atm_dict_hkey T t k]? with
  | none => simp [found] at member
  | some s =>
    rw [found] at member
    exact mem_entries.mpr ⟨_,s,found,member⟩

theorem first_empty {t : Table K V} (empty : t.entries = []) (k : K) : t.first T k = none := by
  rw [Table.first,find_eq_none_iff]
  intro e member
  have inside := chain_member member
  rw [empty] at inside
  cases inside

theorem TableRep.first_empty {t : Table K V} (rep : TableRep T t) (empty : t.size = 0) (k : K) : t.first T k = none :=
  Dict.first_empty (List.length_eq_zero_iff.mp (by rw [← rep.counted,empty])) k

/-- The entries of one slot are all that lookups of its keys can find. -/
theorem slot_first (lawful : T.Lawful) {t : Table K V} (rep : TableRep T t) {i : Nat} {s : Slot K V}
    (found : t.bktab[i]? = some s) (k : K) :
    find T.match_key s.entries k = if atm_dict_hkey T t k = i then t.first T k else none := by
  by_cases here : atm_dict_hkey T t k = i
  · rw [if_pos here,Table.first,chain_eq (here ▸ found)]
  · rw [if_neg here,find_eq_none_iff]
    intro e member
    have place : atm_dict_hkey T t e.key = i := rep.placed i s found e member
    exact match_apart lawful (place ▸ here)

theorem passed_first {t : Table K V} {i : Nat} {s : Slot K V} (found : t.bktab[i]? = some s) (k : K) :
    (t.passed i).first T k = if atm_dict_hkey T t k = i then none else t.first T k := by
  unfold Table.passed
  rw [found]
  cases s with
  | bucket l =>
    show find T.match_key ((t.put i [] _ _).chain T k) k = _
    rw [chain_put found]
    by_cases here : atm_dict_hkey T t k = i
    · rw [if_pos here,if_pos here]
      rfl
    · rw [if_neg here,if_neg here]
      rfl
  | null =>
    by_cases here : atm_dict_hkey T t k = i
    · rw [if_pos here]
      show find T.match_key (t.chain T k) k = none
      rw [chain_eq (here ▸ found)]
      rfl
    · rw [if_neg here]
  | freed =>
    by_cases here : atm_dict_hkey T t k = i
    · rw [if_pos here]
      show find T.match_key (t.chain T k) k = none
      rw [chain_eq (here ▸ found)]
      rfl
    · rw [if_neg here]

/-! ### Calls -/

/-- What lookups find only changes to what was set last. -/
structure Settles (T : KeyType K) (latest' : K → Option V) (d d' : Dictionary K V) : Prop where
  latest : latest T d' = latest'
  visible : ∀ k, visible T d' k = visible T d k ∨ visible T d' k = latest' k

/-- A round of the migration moves the entries of one slot behind those of the backup. -/
theorem round_settles (lawful : T.Lawful) {act bak act' bak' : Table K V} {i i' : Nat} (rep : TableRep T act)
    (moved : atm_dict_rehash_loop T rehash_loop_time act bak i = .ok (act',bak',i')) (k : K) :
    (bak'.first T k).or (act'.first T k) = (bak.first T k).or (act.first T k) ∧
      ((act'.first T k).or (bak'.first T k) = (act.first T k).or (bak.first T k) ∨
        (act'.first T k).or (bak'.first T k) = (bak.first T k).or (act.first T k)) := by
  rcases rehash_loop_returns moved with ⟨rfl,rfl,_⟩ | ⟨s,found,_,pushed,rfl,_⟩
  · exact ⟨rfl,.inl rfl⟩
  · rw [push_all_first lawful pushed,slot_first lawful rep found,passed_first found]
    by_cases here : atm_dict_hkey T act k = i
    · rw [if_pos here,if_pos here]
      exact ⟨by simp,.inr (by simp)⟩
    · rw [if_neg here,if_neg here]
      exact ⟨by simp,.inl (by simp)⟩

theorem rehash_settles (lawful : T.Lawful) {d d' : Dictionary K V} (rep : Represented T d)
    (done : atm_dict_rehash T d = .ok d') : Settles T (latest T d) d d' := by
  rcases rehash_returns done with rfl | ⟨bak,act',bak',i',found,_,moved,finished⟩
  · exact ⟨rfl,fun _ => .inl rfl⟩
  have before : ∀ k, backup_first T d k = bak.first T k := by
    intro k
    rcases rehash_backup_returns found with two | ⟨one,_,j,rfl⟩
    · rw [backup_first,two]
      rfl
    · have empty : (atm_dict_table_new (2^j) : Table K V).entries = [] := (table_new_tallied _).2
      rw [backup_first,one,first_empty empty]
      rfl
  have round := round_settles lawful rep.active moved
  -- The tables that are left hold what the two tables held after the round.
  obtain ⟨first,second⟩ : (∀ k, latest T d' k = (bak'.first T k).or (act'.first T k)) ∧
      ∀ k, visible T d' k = (act'.first T k).or (bak'.first T k) := by
    rcases rehash_finish_returns finished with ⟨empty,record,_,rfl⟩ | rfl
    · have active : TableRep T act' := by
        rcases rehash_loop_returns moved with ⟨rfl,_,_⟩ | ⟨s,slot,_,_,rfl,_⟩
        · exact rep.active
        · exact (passed_rep rep.active rep.active_used slot).1
      have nothing := active.first_empty empty
      exact ⟨fun k => by rw [nothing]; simp [latest,backup_first],fun k => by rw [nothing]; simp [visible,backup_first]⟩
    · exact ⟨fun k => rfl,fun k => rfl⟩
  refine ⟨funext fun k => ?_,fun k => ?_⟩
  · rw [first,(round k).1,latest,before]
  · rw [second,visible,latest,before]
    exact (round k).2

theorem set_table_settles (lawful : T.Lawful) {d d' : Dictionary K V} {k : K} {v : V}
    (done : atm_dict_set_table T d k v = .ok d') :
    Settles T (KeyMaps.set T.match_key (latest T d) k v) d d' := by
  unfold atm_dict_set_table at done
  cases two : d.ht_backup with
  | none =>
    simp only [two] at done
    obtain ⟨t,wrote,same⟩ := bind_eq_ok.mp done
    cases same
    have now : ∀ k', visible T { d with ht_active := t, ht_backup := none } k' =
        KeyMaps.set T.match_key (latest T d) k v k' := by
      intro k'
      simp [visible,backup_first,latest,two,table_set_first lawful wrote,KeyMaps.set]
    refine ⟨funext fun k' => ?_,fun k' => .inr (now k')⟩
    rw [← now k']
    simp [visible,latest,backup_first]
  | some bak =>
    simp only [two] at done
    obtain ⟨t,wrote,same⟩ := bind_eq_ok.mp done
    cases same
    have written := table_set_first lawful wrote
    have last : ∀ k', (KeyMaps.set T.match_key (bak.first T) k v k').or (d.ht_active.first T k') =
        KeyMaps.set T.match_key (latest T d) k v k' := by
      intro k'
      rw [KeyMaps.set,KeyMaps.set,latest,backup_first,two,Option.bind_some]
      cases T.match_key k k' <;> simp
    refine ⟨funext fun k' => ?_,fun k' => ?_⟩
    · rw [← last k']
      simp [latest,backup_first,written]
    · -- The active table answers as before, and the backup only where the active table does not.
      rw [← last k',visible,visible,backup_first,backup_first,two,Option.bind_some,Option.bind_some,written]
      cases d.ht_active.first T k' with
      | none => exact .inr (by simp)
      | some old => exact .inl (by simp)

theorem set_settles (lawful : T.Lawful) {d d' : Dictionary K V} (rep : Represented T d) {k : K} {v : V}
    (done : atm_dict_set T d k v = .ok d') : Settles T (KeyMaps.set T.match_key (latest T d) k v) d d' := by
  obtain ⟨d₁,first,second⟩ := bind_eq_ok.mp done
  have wrote := set_table_settles lawful first
  have moved := rehash_settles lawful (set_table_rep rep first) second
  refine ⟨moved.latest.trans wrote.latest,fun k' => ?_⟩
  rcases moved.visible k' with same | now
  · rw [same]
    exact wrote.visible k'
  · exact .inr (now.trans (congrFun wrote.latest k'))

theorem get_visible {d : Dictionary K V} {k : K} {r : Option V} (got : atm_dict_get T d k = .ok r) :
    r = visible T d k := by
  have table : ∀ {t : Table K V} {r : Option V}, atm_dict_table_get T t k = .ok r → r = t.first T k := by
    intro t r got
    obtain ⟨e,sought,same⟩ := bind_eq_ok.mp got
    cases same
    rcases entry_returns sought with ⟨rfl,absent⟩ | ⟨l,e,slot,_,first,rfl⟩
    · rw [Table.first,find,absent]
    · rw [Table.first,find,chain_eq slot,Slot.entries,first]
  obtain ⟨r₁,first,rest⟩ := bind_eq_ok.mp got
  rw [visible,← table first]
  cases r₁ with
  | some v =>
    cases rest
    rfl
  | none =>
    rw [Option.none_or]
    cases two : d.ht_backup with
    | none =>
      rw [two] at rest
      cases rest
      rw [backup_first,two]
      rfl
    | some bak =>
      rw [two] at rest
      rw [backup_first,two]
      exact table rest

/-! ### Runs -/

/-- Every call is a `set`. -/
def Sets (ops : List (Op K V)) : Prop := ∀ op ∈ ops, ∃ k v, op = .set k v

/-- What lookups answer after some calls: each answer was right at some time, none is missing, and with one table
    all of them are right. -/
structure Late (T : KeyType K) (ops : List (Op K V)) (d : Dictionary K V) : Prop where
  answers : ops.length ≤ 2^27 → ∀ k, ∃ r, atm_dict_get T d k = .ok r
  past : ∀ k r, atm_dict_get T d k = .ok r → ∃ pre, pre <+: ops ∧ r = last_set T pre k
  kept : ∀ k r, atm_dict_get T d k = .ok r → r.isSome = (last_set T ops k).isSome
  settled : d.ht_backup = none → ∀ k r, atm_dict_get T d k = .ok r → r = last_set T ops k

/-- A call that leaves every answer as it is or corrects it. -/
def Corrects (T : KeyType K) (ops : List (Op K V)) (d d' : Dictionary K V) : Prop :=
  ∀ k r r', atm_dict_get T d k = .ok r → atm_dict_get T d' k = .ok r' → r' = r ∨ r' = last_set T ops k

/-- The invariant of a run: what the tables hold together is what was set, and what lookups find was set once. -/
structure Tracks (T : KeyType K) (ops : List (Op K V)) (d : Dictionary K V) : Prop where
  rep : Represented T d
  latest : latest T d = last_set T ops
  past : ∀ k, ∃ pre, pre <+: ops ∧ visible T d k = last_set T pre k

theorem new_tracks (free_type : FreeType) : Tracks T [] (atm_dict_new free_type : Dictionary K V) := by
  have empty : (atm_dict_new free_type : Dictionary K V).ht_active.entries = [] := (table_new_tallied _).2
  have nothing : ∀ k, (atm_dict_new free_type : Dictionary K V).ht_active.first T k = none := first_empty empty
  refine ⟨new_rep free_type,funext fun k => ?_,fun k => ⟨[],List.prefix_rfl,?_⟩⟩
  · rw [latest,nothing]
    rfl
  · rw [visible,nothing]
    rfl

theorem set_tracks (lawful : T.Lawful) {ops : List (Op K V)} {d d' : Dictionary K V} (tracks : Tracks T ops d) {k : K}
    {v : V} (done : step T d (.set k v) = .ok d') : Tracks T (ops ++ [.set k v]) d' := by
  have settles := set_settles lawful tracks.rep done
  have now : latest T d' = last_set T (ops ++ [.set k v]) := by
    rw [settles.latest,tracks.latest,last_set_snoc]
    rfl
  refine ⟨step_rep lawful.equiv.refl tracks.rep done,now,fun k' => ?_⟩
  rcases settles.visible k' with same | last
  · obtain ⟨pre,inside,found⟩ := tracks.past k'
    exact ⟨pre,inside.trans (List.prefix_append ops _),same.trans found⟩
  · exact ⟨_,List.prefix_rfl,by rw [last,← settles.latest,now]⟩

theorem tracks_late {ops : List (Op K V)} {d : Dictionary K V} (tracks : Tracks T ops d)
    (answers : ops.length ≤ 2^27 → ∀ k, ∃ r, atm_dict_get T d k = .ok r) : Late T ops d := by
  refine ⟨answers,fun k r got => ?_,fun k r got => ?_,fun one k r got => ?_⟩
  · rw [get_visible got]
    exact tracks.past k
  · rw [get_visible got,← tracks.latest,visible,latest]
    cases backup_first T d k <;> cases d.ht_active.first T k <;> rfl
  · rw [get_visible got,← tracks.latest,visible,latest,backup_first,one,Option.bind_none,Option.or_none,Option.none_or]

theorem sets_tracks (lawful : T.Lawful) {free_type : FreeType} {ops : List (Op K V)} (sets : Sets ops) {d : Dictionary K V}
    (ran : run (step T) (atm_dict_new free_type) ops = .ok d) : Tracks T ops d := by
  induction ops using List.reverseRecOn generalizing d with
  | nil =>
    cases ran
    exact new_tracks free_type
  | append_singleton ops op ih =>
    obtain ⟨d₁,before,last⟩ := (run_snoc_ok _).mp ran
    obtain ⟨k,v,rfl⟩ := sets op (List.mem_append_right _ List.mem_cons_self)
    exact set_tracks lawful (ih (fun op member => sets op (List.mem_append_left _ member)) before) last

theorem sets_late (lawful : T.Lawful) {free_type : FreeType} {ops : List (Op K V)} (sets : Sets ops) :
    Always (step T) (atm_dict_new free_type) ops (Late T) := by
  intro pre d isPre ran
  have earlier : Sets pre := fun op member => sets op (isPre.subset member)
  refine tracks_late (sets_tracks lawful earlier ran) (fun short k => ?_)
  obtain ⟨d',again,only,size⟩ : ∃ d, run (step T) (atm_dict_new free_type) pre = .ok d ∧ OnlySet T d ∧
      atm_dict_size d ≤ pre.length := only_set_runs earlier short
  rw [ran] at again
  cases again
  exact get_total (only.sized (by omega)) k

/-- In a run of `set` calls a lookup never misses a key that was set and never finds a value that was not set for it;
    every answer changes to the value set last only, and is that value whenever no migration is under way. -/
theorem sets_take_effect (lawful : T.Lawful) {free_type : FreeType} {ops : List (Op K V)} (sets : Sets ops) :
    (ops.length ≤ 2^27 → ∃ d, run (step T) (atm_dict_new free_type) ops = .ok d) ∧
      Always (step T) (atm_dict_new free_type) ops (Late T) ∧
      ∀ pre op d d', pre ++ [op] <+: ops → run (step T) (atm_dict_new free_type) pre = .ok d → step T d op = .ok d' →
        Corrects T (pre ++ [op]) d d' := by
  refine ⟨fun short => ?_,sets_late lawful sets,fun pre op d d' isPre ran done => ?_⟩
  · obtain ⟨d,ran,_⟩ := only_set_runs sets short
    exact ⟨d,ran⟩
  · have both : Sets (pre ++ [op]) := fun op member => sets op (isPre.subset member)
    obtain ⟨k,v,rfl⟩ := both op (List.mem_append_right _ List.mem_cons_self)
    have before := sets_tracks lawful (fun op member => both op (List.mem_append_left _ member)) ran
    have after := sets_tracks lawful both ((run_snoc_ok _).mpr ⟨d,ran,done⟩)
    have settles := set_settles lawful before.rep done
    intro k' r r' got got'
    rw [get_visible got,get_visible got',← after.latest,settles.latest]
    exact settles.visible k'

/-- In the run that sets a key again while it is migrated. -/
theorem sets_take_effect_again : ∃ d, run (step (modulo 16)) (atm_dict_new .shallow) set_again = .ok d ∧
    Late (modulo 16) set_again d := by
  have sets : Sets set_again := by
    intro op member
    rcases List.mem_append.mp member with first | last
    · obtain ⟨k,_,rfl⟩ := List.mem_map.mp first
      exact ⟨_,_,rfl⟩
    · cases List.mem_singleton.mp last
      exact ⟨_,_,rfl⟩
  have short : set_again.length ≤ 2^27 := by simp [set_again]
  obtain ⟨returns,late,_⟩ := @sets_take_effect _ _ _ (modulo_lawful 16) .shallow set_again sets
  obtain ⟨d,ran⟩ := returns short
  exact ⟨d,ran,late _ d List.prefix_rfl ran⟩

/-! ### Few keys -/

/-- A dictionary that has one table of the initial size. -/
structure OneTable (T : KeyType K) (ks : List K) (ops : List (Op K V)) (d : Dictionary K V) : Prop where
  ok : DictOk T 0 d
  holds : Holds T.match_key d.entries (last_set T ops)
  covered : ∀ e ∈ d.entries, ∃ k ∈ ks, T.match_key k e.key = true
  single : d.ht_backup = none
  initial : d.ht_active.bktab_size = ATM_DICT_INITIAL_BUCKET_SIZE
  resize : d.enable_resize = true

theorem set_one_table (lawful : T.Lawful) {ks : List K} (few : ks.length < ATM_DICT_INITIAL_BUCKET_SIZE)
    {ops : List (Op K V)} {d d' : Dictionary K V} (one : OneTable T ks ops d) {k : K} {v : V}
    (known : ∃ k' ∈ ks, T.match_key k' k = true) (done : step T d (.set k v) = .ok d') :
    OneTable T ks (ops ++ [.set k v]) d' := by
  obtain ⟨d₁,first,second⟩ := (step_mutates rfl).mp done
  obtain ⟨d₂,again,ok₁,shape,_,effect⟩ := set_table_ok one.ok k v
  obtain rfl : d₂ = d₁ := Except.ok.inj (again.symm.trans first)
  have holds := set_holds lawful one.ok one.holds (.inl one.single) again
  have single : d₂.ht_backup = none := by simpa [one.single] using shape.backup
  have covered : ∀ e ∈ d₂.entries, ∃ k ∈ ks, T.match_key k e.key = true := by
    intro x member
    rcases effect with ⟨e,rest,_,before,after⟩ | ⟨_,after⟩
    · rcases List.mem_cons.mp (after.mem_iff.mp member) with rfl | old
      · exact one.covered e (before.mem_iff.mpr List.mem_cons_self)
      · exact one.covered x (before.mem_iff.mpr (List.mem_cons_of_mem _ old))
    · rcases List.mem_cons.mp (after.mem_iff.mp member) with rfl | old
      · exact known
      · exact one.covered x old
  have count : d₂.ht_active.size < ATM_DICT_INITIAL_BUCKET_SIZE := by
    have length : (d₂.entries.map Binding.key).length ≤ ks.length := by
      refine distinct_le lawful.equiv (List.pairwise_map.mpr holds.distinct) (fun k member => ?_)
      obtain ⟨e,inside,rfl⟩ := List.mem_map.mp member
      exact covered e inside
    have total := ok₁.sound.size
    rw [atm_dict_size,single] at total
    rw [List.length_map] at length
    dsimp only at total
    omega
  have idle : atm_dict_rehash_needed d₂ = false := by
    rw [atm_dict_rehash_needed,single]
    dsimp only
    rw [if_pos (shape.resize.trans one.resize),shape.slots,one.initial,decide_eq_false_iff_not]
    omega
  obtain rfl := rehash_idle idle second
  refine ⟨step_ok lawful.equiv.refl one.ok (fun _ d₃ before _ needed => ?_) done,?_,covered,single,
    shape.slots.trans one.initial,shape.resize.trans one.resize⟩
  · obtain rfl : d₃ = d' := Except.ok.inj (before.symm.trans first)
    rw [idle] at needed
    cases needed
  · rw [last_set_snoc]
    exact holds

/-- With fewer different keys than the first table has slots, no migration ever starts. -/
theorem few_keys_single (lawful : T.Lawful) {free_type : FreeType} {ops : List (Op K V)} (sets : Sets ops) {ks : List K}
    (covered : ∀ k v, .set k v ∈ ops → ∃ k' ∈ ks, T.match_key k' k = true)
    (few : ks.length < ATM_DICT_INITIAL_BUCKET_SIZE) {d : Dictionary K V}
    (ran : run (step T) (atm_dict_new free_type) ops = .ok d) : OneTable T ks ops d := by
  induction ops using List.reverseRecOn generalizing d with
  | nil =>
    cases ran
    obtain ⟨ok,empty⟩ := new_ok (T := T) (V := V) free_type
    refine ⟨ok,by rw [empty]; exact holds_nil,fun e member => ?_,rfl,rfl,rfl⟩
    rw [empty] at member
    cases member
  | append_singleton ops op ih =>
    obtain ⟨d₁,before,last⟩ := (run_snoc_ok _).mp ran
    obtain ⟨k,v,rfl⟩ := sets op (List.mem_append_right _ List.mem_cons_self)
    have earlier := ih (fun op member => sets op (List.mem_append_left _ member))
      (fun k v member => covered k v (List.mem_append_left _ member)) before
    exact set_one_table lawful few earlier (covered k v (List.mem_append_right _ List.mem_cons_self)) last

end AtmCache.Dict
