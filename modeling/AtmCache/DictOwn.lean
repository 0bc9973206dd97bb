import AtmCache.DictMoves
import AtmCache.DictMap

/-!
# Who owns the keys and values of a dictionary

A `set` hands a key object and a value object over to a dictionary that frees deeply.
Each is then held by one entry, or was passed once to the `free` of its type. A `set` that
overwrites an entry drops the old value and the new key, and a clear or a free of
a dictionary with entries drops all that they hold.
-/
namespace AtmCache.Dict
open KeyMaps Runs
variable {K V : Type}

/-- A key or a value that was handed over. Types `K` and `V` are of objects: two
    objects with one text are two members. -/
inductive Object (K V : Type) where
  | key (k : K)
  | val (v : V)
  deriving DecidableEq, Repr

def objects (e : Entry K V) : List (Object K V) := [.key e.key,.val e.val]

def Freed.objects : Freed K V → List (Object K V)
  | .key k => [.key k]
  | .val v => [.val v]
  | .bucket _ => []

/-- A dictionary, or none when it was freed, with all that was freed and handed over. -/
structure Custody (K V : Type) where
  dict : Option (Dictionary K V)
  record : List (Freed K V)
  handed : List (Object K V)
  deriving DecidableEq, Repr

inductive Act (K V : Type) where
  | set (k : K) (v : V)
  | del (k : K)
  | clear
  | free
  deriving DecidableEq, Repr

def custody_new : Custody K V where
  dict := some (atm_dict_new .deep)
  record := []
  handed := []

/-- A call on the dictionary, which is no more there once it was freed. -/
def custody_step (T : KeyType K) (s : Custody K V) (a : Act K V) : Except Fault (Custody K V) :=
  match s.dict with
  | none => .error .useAfterFree
  | some d =>
    match a with
    | .set k v => do
      let d ← atm_dict_set T d k v
      return { dict := some d, record := d.record, handed := s.handed ++ [.key k,.val v] }
    | .del k => do
      let d ← atm_dict_del T d k
      return { s with dict := some d, record := d.record }
    | .clear => do
      let d ← atm_dict_clear d
      return { s with dict := some d, record := d.record }
    | .free => do
      let record ← atm_dict_free d
      return { s with dict := none, record := d.record ++ record }

/-- What the entries of the dictionary refer to. -/
def Custody.held (s : Custody K V) : List (Object K V) :=
  match s.dict with
  | some d => d.entries.flatMap objects
  | none => []

def Custody.freed (s : Custody K V) : List (Object K V) := s.record.flatMap Freed.objects

/-- Every object handed over is held by one entry or was freed once. -/
def Owned [DecidableEq K] [DecidableEq V] (s : Custody K V) : Prop :=
  ∀ o ∈ s.handed, s.held.count o + s.freed.count o = 1

/-- A `set` hands over objects that were not handed over before. -/
def HandsFresh (s : Custody K V) : Act K V → Prop
  | .set k v => .key k ∉ s.handed ∧ .val v ∉ s.handed
  | .del _ => True
  | .clear => True
  | .free => True

/-- A `set` finds no matching entry in the table that it writes to; a clear or a free finds
    the dictionary empty. -/
def Gentle (T : KeyType K) (s : Custody K V) (a : Act K V) : Prop :=
  ∀ d, s.dict = some d → match a with
    | .set k _ => atm_dict_table_contains T (d.ht_backup.getD d.ht_active) k = .ok false
    | .del _ => True
    | .clear => atm_dict_size d = 0
    | .free => atm_dict_size d = 0

/-- A table that counts its entries and has no more slots than it states. -/
structure Tallied (t : Table K V) : Prop where
  short : t.bktab.length ≤ t.bktab_size
  counted : t.size = t.entries.length

structure DictTallied (d : Dictionary K V) : Prop where
  active : Tallied d.ht_active
  backup : ∀ bak, d.ht_backup = some bak → Tallied bak

variable {T : KeyType K}

/-! ### One table -/

theorem Tallied.put {t : Table K V} (tallied : Tallied t) {i : Nat} {s : Slot K V} (found : t.bktab[i]? = some s)
    {l : List (Entry K V)} {used size : Nat} (total : size + s.entries.length = t.size + l.length) :
    Tallied (t.put i l used size) := by
  refine ⟨by simpa [Table.put] using tallied.short,?_⟩
  have lengths := put_length found l used size
  have counted := tallied.counted
  have stored : (t.put i l used size).size = size := rfl
  omega

theorem table_new_tallied (bsz : Nat) : Tallied (atm_dict_table_new bsz : Table K V) ∧
    (atm_dict_table_new bsz : Table K V).entries = [] := by
  have empty : (atm_dict_table_new bsz : Table K V).entries = [] := by
    rw [Table.entries,List.flatMap_eq_nil_iff]
    intro s member
    rw [List.eq_of_mem_replicate member]
    rfl
  refine ⟨⟨?_,by rw [empty]; rfl⟩,empty⟩
  have block : atm_alloc (pointer_size * bsz) ≤ pointer_size * bsz := Nat.mod_le ..
  simp only [atm_dict_table_new,List.length_replicate]
  exact Nat.div_le_of_le_mul block

theorem push_entry_tallied {t t' : Table K V} {e : Entry K V} (tallied : Tallied t)
    (done : atm_dict_table_push_entry T t e = .ok t') : Tallied t' := by
  obtain ⟨s,found,_,rfl⟩ := push_entry_returns done
  exact tallied.put found (by rw [List.length_append,List.length_singleton]; omega)

theorem push_all_tallied {bak bak' : Table K V} {l : List (Entry K V)} (tallied : Tallied bak)
    (done : l.foldlM (atm_dict_table_push_entry T) bak = .ok bak') : Tallied bak' :=
  run_keeps (P := fun _ t => Tallied t) tallied (fun _ _ _ _ tallied push => push_entry_tallied tallied push) done

theorem contains_returns {t : Table K V} {k : K} {b : Bool} (done : atm_dict_table_contains T t k = .ok b) :
    b = ((t.chain T k).find? (fun e => T.match_key e.key k)).isSome := by
  obtain ⟨r,sought,rest⟩ := bind_eq_ok.mp done
  cases rest
  rcases entry_returns sought with ⟨rfl,absent⟩ | ⟨l,e,found,_,first,rfl⟩
  · rw [absent]
  · rw [chain_eq found,Slot.entries,first]

/-- A `set` of a key that the table contains changes one value; any other adds an entry. -/
theorem table_set_tallied {t t' : Table K V} {k : K} {v : V} (tallied : Tallied t)
    (done : atm_dict_table_set T t k v = .ok t') : Tallied t' ∧
      ((atm_dict_table_contains T t k = .ok false ∧ t'.entries.Perm (⟨k,v⟩ :: t.entries)) ∨
        (atm_dict_table_contains T t k = .ok true ∧
          ∃ e rest, t.entries.Perm (e :: rest) ∧ t'.entries.Perm (⟨e.key,v⟩ :: rest))) := by
  obtain ⟨r,sought,_⟩ := bind_eq_ok.mp done
  have contains : atm_dict_table_contains T t k = .ok r.isSome := by simp [atm_dict_table_contains,sought]
  have answer := contains_returns contains
  rcases table_set_returns done with ⟨l,e,found,first,rfl⟩ | ⟨absent,pushed⟩
  · refine ⟨tallied.put found (by simp [Slot.entries,setFirst_length]),.inr ⟨?_,?_⟩⟩
    · rw [contains,answer,chain_eq found,Slot.entries,first,Option.isSome_some]
    · exact ⟨e,overwrite_perm found first v t.bktab_used t.size⟩
  · refine ⟨push_entry_tallied tallied pushed,.inl ⟨?_,push_entry_perm pushed⟩⟩
    rw [contains,answer,absent,Option.isSome_none]

/-- With an equivalence the entry that leaves the list is the one whose objects are freed. -/
theorem eraseP_same (equiv : IsEquiv T.match_key) {l : List (Entry K V)} {k : K} {e : Entry K V}
    (first : l.find? (fun e => T.match_key e.key k) = some e) :
    l.Perm (e :: l.eraseP (fun x => T.match_key x.key e.key)) := by
  have matched : T.match_key e.key k = true := by simpa using List.find?_some first
  have same : (fun x : Entry K V => T.match_key x.key e.key) = fun x => T.match_key x.key k := by
    funext x
    rw [equiv.comm x.key e.key,equiv.congr matched,equiv.comm]
  rw [same]
  exact eraseP_perm first

theorem table_del_tallied (equiv : IsEquiv T.match_key) {t t' : Table K V} {free_type : FreeType} {k : K} {res : Bool}
    {record : List (Freed K V)} (tallied : Tallied t)
    (done : atm_dict_table_del T free_type t k = .ok (res,t',record)) : Tallied t' ∧
      ((t' = t ∧ record = []) ∨
        ∃ e, t.entries.Perm (e :: t'.entries) ∧ record = atm_dict_entry_free free_type e) := by
  rcases table_del_returns done with ⟨_,_,rfl,rfl⟩ | ⟨l,e,found,first,_,rfl,rfl⟩
  · exact ⟨tallied,.inl ⟨rfl,rfl⟩⟩
  · have split := eraseP_same equiv first
    have length := split.length_eq
    rw [List.length_cons] at length
    have moved := put_perm found (l.eraseP (fun x => T.match_key x.key e.key)) t.bktab_used (t.size - 1)
    have total := put_length found (l.eraseP (fun x => T.match_key x.key e.key)) t.bktab_used (t.size - 1)
    have counted := tallied.counted
    have whole : t.entries.Perm (e :: (t.put (atm_dict_hkey T t k) (l.eraseP (fun x => T.match_key x.key e.key))
        t.bktab_used (t.size - 1)).entries) := by
      have both := moved.symm.trans ((split.append_right _).trans List.perm_middle.symm)
      exact (List.perm_append_left_iff _).mp both
    have some := whole.length_eq
    rw [List.length_cons] at some
    exact ⟨tallied.put found (by simp only [Slot.entries]; omega),.inr ⟨e,whole,rfl⟩⟩

/-! ### Clear -/

theorem clear_loop_returns {slots slots' : List (Slot K V)} {n : Nat} {record : List (Freed K V)}
    (done : atm_dict_table_clear_loop n slots = .ok (slots',record)) :
    n ≤ slots.length ∧ slots' = (slots.take n).map Slot.cleared ++ slots.drop n ∧
      record.flatMap Freed.objects = [] := by
  induction slots generalizing n slots' record with
  | nil =>
    cases n with
    | zero => cases done; exact ⟨le_rfl,rfl,rfl⟩
    | succ n => cases done
  | cons s rest ih =>
    cases n with
    | zero => cases done; exact ⟨Nat.zero_le _,rfl,rfl⟩
    | succ n =>
      cases s with
      | freed => cases done
      | null =>
        obtain ⟨⟨later,record'⟩,looped,same⟩ := bind_eq_ok.mp done
        cases same
        obtain ⟨enough,slots,nothing⟩ := ih looped
        exact ⟨Nat.succ_le_succ enough,by rw [slots]; rfl,nothing⟩
      | bucket l =>
        obtain ⟨⟨later,record'⟩,looped,same⟩ := bind_eq_ok.mp done
        cases same
        obtain ⟨enough,slots,nothing⟩ := ih looped
        exact ⟨Nat.succ_le_succ enough,by rw [slots]; rfl,nothing⟩

theorem cleared_entries (s : Slot K V) : s.cleared.entries = [] := by
  cases s <;> rfl

/-- A clear that returns leaves no entry and frees no key and no value. -/
theorem table_clear_returns {t t' : Table K V} {record : List (Freed K V)} (tallied : Tallied t)
    (done : atm_dict_table_clear t = .ok (t',record)) :
    Tallied t' ∧ t'.entries = [] ∧ record.flatMap Freed.objects = [] := by
  obtain ⟨⟨slots,record'⟩,looped,same⟩ := bind_eq_ok.mp done
  obtain ⟨enough,rfl,nothing⟩ := clear_loop_returns looped
  cases same
  have whole : t.bktab.length = t.bktab_size := le_antisymm tallied.short enough
  have bytes : t.bktab_size / pointer_size ≤ t.bktab_size := Nat.div_le_self ..
  rw [← whole,List.take_length,List.drop_length,List.append_nil]
  have empty : (memset_slots (t.bktab.map Slot.cleared) t.bktab_size).flatMap Slot.entries = [] := by
    rw [List.flatMap_eq_nil_iff]
    intro s member
    rcases List.mem_append.mp member with zeroed | kept
    · rw [List.eq_of_mem_replicate zeroed]
      rfl
    · obtain ⟨s',_,rfl⟩ := List.mem_map.mp (List.mem_of_mem_drop kept)
      exact cleared_entries s'
  rw [whole]
  refine ⟨⟨?_,by rw [Table.entries,empty]; rfl⟩,empty,nothing⟩
  simp only [memset_slots,List.length_append,List.length_replicate,List.length_drop,List.length_map]
  omega

theorem table_free_returns {t : Table K V} {record : List (Freed K V)} (tallied : Tallied t)
    (done : atm_dict_table_free t = .ok record) : record.flatMap Freed.objects = [] := by
  obtain ⟨⟨t',record'⟩,cleared,same⟩ := bind_eq_ok.mp done
  cases same
  exact (table_clear_returns tallied cleared).2.2

/-! ### Rehash -/

theorem passed_tallied {act : Table K V} {i : Nat} {s : Slot K V} (tallied : Tallied act)
    (found : act.bktab[i]? = some s) (alive : s ≠ .freed) :
    Tallied (act.passed i) ∧ (s.entries ++ (act.passed i).entries).Perm act.entries := by
  cases s with
  | freed => exact absurd rfl alive
  | null =>
    have unchanged : act.passed i = act := by simp only [Table.passed,found]
    rw [unchanged]
    exact ⟨tallied,List.Perm.refl _⟩
  | bucket l =>
    have changed : act.passed i = act.put i [] (act.bktab_used - 1) (act.size - l.length) := by
      simp only [Table.passed,found]
    have lengths := put_length found [] (act.bktab_used - 1) (act.size - l.length)
    have counted := tallied.counted
    simp only [Slot.entries,List.length_nil] at lengths
    rw [changed]
    exact ⟨tallied.put found (by simp only [Slot.entries,List.length_nil]; omega),
      by simpa [Slot.entries] using put_perm found [] (act.bktab_used - 1) (act.size - l.length)⟩

/-- What a call that frees no key and no value and drops no entry leaves. -/
structure Carries (d d' : Dictionary K V) : Prop where
  tallied : DictTallied d'
  entries : d'.entries.Perm d.entries
  type : d'.free_type = d.free_type
  freed : d'.record.flatMap Freed.objects = d.record.flatMap Freed.objects

theorem rehash_carries {d d' : Dictionary K V} (tallied : DictTallied d) (done : atm_dict_rehash T d = .ok d') :
    Carries d d' := by
  rcases rehash_returns done with rfl | ⟨bak,act',bak',i',found,_,moved,finished⟩
  · exact ⟨tallied,List.Perm.refl _,rfl,rfl⟩
  obtain ⟨target,whole⟩ : Tallied bak ∧ d.entries = d.ht_active.entries ++ bak.entries := by
    rcases rehash_backup_returns found with two | ⟨one,_,j,rfl⟩
    · exact ⟨tallied.backup bak two,by simp only [Dictionary.entries,two]⟩
    · obtain ⟨new,empty⟩ := table_new_tallied (K := K) (V := V) (2^j)
      exact ⟨new,by simp only [Dictionary.entries,one,empty]⟩
  -- The round moves entries from one table to the other.
  obtain ⟨active,target',perm⟩ : Tallied act' ∧ Tallied bak' ∧ (act'.entries ++ bak'.entries).Perm d.entries := by
    rw [whole]
    rcases rehash_loop_returns moved with ⟨rfl,rfl,rfl⟩ | ⟨s,slot,alive,pushed,rfl,rfl⟩
    · exact ⟨tallied.active,target,List.Perm.refl _⟩
    · obtain ⟨active,left⟩ := passed_tallied tallied.active slot alive
      have target' := push_all_tallied target pushed
      have added := push_all_perm pushed
      refine ⟨active,target',(added.append_left _).trans ((List.perm_append_comm_assoc ..).trans ?_)⟩
      rw [← List.append_assoc]
      exact left.append_right _
  rcases rehash_finish_returns finished with ⟨empty,record,freed,rfl⟩ | rfl
  · have none : act'.entries = [] := by rw [← List.length_eq_zero_iff,← active.counted,empty]
    rw [none,List.nil_append] at perm
    refine ⟨⟨target',fun _ other => (by cases other)⟩,by simpa [Dictionary.entries] using perm,rfl,?_⟩
    rw [List.flatMap_append,table_free_returns active freed,List.append_nil]
  · refine ⟨⟨active,?_⟩,perm,rfl,rfl⟩
    rintro _ ⟨⟩
    exact target'

/-! ### The calls -/

theorem set_table_owned {d d' : Dictionary K V} {k : K} {v : V} (tallied : DictTallied d)
    (done : atm_dict_set_table T d k v = .ok d') :
    DictTallied d' ∧ d'.free_type = d.free_type ∧ d'.record = d.record ∧
      ((atm_dict_table_contains T (d.ht_backup.getD d.ht_active) k = .ok false ∧
          d'.entries.Perm (⟨k,v⟩ :: d.entries)) ∨
        (atm_dict_table_contains T (d.ht_backup.getD d.ht_active) k = .ok true ∧
          ∃ e rest, d.entries.Perm (e :: rest) ∧ d'.entries.Perm (⟨e.key,v⟩ :: rest))) := by
  unfold atm_dict_set_table at done
  cases two : d.ht_backup with
  | none =>
    simp only [two] at done
    obtain ⟨t,wrote,same⟩ := bind_eq_ok.mp done
    cases same
    obtain ⟨active,effect⟩ := table_set_tallied tallied.active wrote
    refine ⟨⟨active,fun _ other => (by cases other)⟩,rfl,rfl,?_⟩
    simpa [Dictionary.entries,two] using effect
  | some bak =>
    simp only [two] at done
    obtain ⟨t,wrote,same⟩ := bind_eq_ok.mp done
    cases same
    obtain ⟨target,effect⟩ := table_set_tallied (tallied.backup bak two) wrote
    refine ⟨⟨tallied.active,?_⟩,rfl,rfl,?_⟩
    · rintro _ ⟨⟩
      exact target
    · simp only [Dictionary.entries,two,Option.getD_some]
      rcases effect with ⟨absent,after⟩ | ⟨present,e,rest,before,after⟩
      · exact .inl ⟨absent,(after.append_left _).trans List.perm_middle⟩
      · exact .inr ⟨present,e,d.ht_active.entries ++ rest,(before.append_left _).trans List.perm_middle,
          (after.append_left _).trans List.perm_middle⟩

theorem del_table_owned (equiv : IsEquiv T.match_key) {d d' : Dictionary K V} {k : K} (tallied : DictTallied d)
    (done : atm_dict_del_table T d k = .ok d') : DictTallied d' ∧ d'.free_type = d.free_type ∧
      ((d'.entries = d.entries ∧ d'.record = d.record) ∨
        ∃ e, d.entries.Perm (e :: d'.entries) ∧ d'.record = d.record ++ atm_dict_entry_free d.free_type e) := by
  obtain ⟨⟨res,act,record⟩,tried,rest⟩ := bind_eq_ok.mp done
  obtain ⟨active,effect⟩ := table_del_tallied equiv tallied.active tried
  have first : ∀ {d' : Dictionary K V}, d' = { d with ht_active := act, record := d.record ++ record } →
      DictTallied d' ∧ d'.free_type = d.free_type ∧ ((d'.entries = d.entries ∧ d'.record = d.record) ∨
        ∃ e, d.entries.Perm (e :: d'.entries) ∧ d'.record = d.record ++ atm_dict_entry_free d.free_type e) := by
    rintro _ rfl
    refine ⟨⟨active,tallied.backup⟩,rfl,?_⟩
    rcases effect with ⟨rfl,rfl⟩ | ⟨e,perm,rfl⟩
    · exact .inl ⟨rfl,List.append_nil _⟩
    · exact .inr ⟨e,perm.append_right _,rfl⟩
  cases res with
  | true => cases rest; exact first rfl
  | false =>
    cases two : d.ht_backup with
    | none =>
      simp only [two] at rest
      cases rest
      exact first (by rw [two])
    | some bak =>
      simp only [two] at rest
      obtain ⟨⟨_,bak',record'⟩,tried',same⟩ := bind_eq_ok.mp rest
      cases same
      obtain ⟨target,effect'⟩ := table_del_tallied equiv (tallied.backup bak two) tried'
      obtain ⟨rfl,rfl⟩ : act = d.ht_active ∧ record = [] := by
        rcases table_del_returns tried with ⟨_,_,rfl,rfl⟩ | ⟨_,_,_,_,other,_⟩
        · exact ⟨rfl,rfl⟩
        · cases other
      refine ⟨⟨active,?_⟩,rfl,?_⟩
      · rintro _ ⟨⟩
        exact target
      · simp only [Dictionary.entries,two,List.append_nil]
        rcases effect' with ⟨rfl,rfl⟩ | ⟨e,perm,rfl⟩
        · exact .inl ⟨rfl,List.append_nil _⟩
        · exact .inr ⟨e,(perm.append_left _).trans List.perm_middle,rfl⟩

theorem clear_owned {d d' : Dictionary K V} (tallied : DictTallied d) (done : atm_dict_clear d = .ok d') :
    DictTallied d' ∧ d'.free_type = d.free_type ∧ d'.entries = [] ∧
      d'.record.flatMap Freed.objects = d.record.flatMap Freed.objects := by
  obtain ⟨⟨act,record⟩,cleared,rest⟩ := bind_eq_ok.mp done
  obtain ⟨active,empty,nothing⟩ := table_clear_returns tallied.active cleared
  cases two : d.ht_backup with
  | none =>
    simp only [two] at rest
    cases rest
    refine ⟨⟨active,fun _ other => (by cases other)⟩,rfl,by simp [Dictionary.entries,empty],?_⟩
    rw [List.flatMap_append,nothing,List.append_nil]
  | some bak =>
    simp only [two] at rest
    obtain ⟨⟨bak',record'⟩,cleared',rest'⟩ := bind_eq_ok.mp rest
    obtain ⟨record'',freed,same⟩ := bind_eq_ok.mp rest'
    obtain ⟨target,_,nothing'⟩ := table_clear_returns (tallied.backup bak two) cleared'
    cases same
    refine ⟨⟨active,fun _ other => (by cases other)⟩,rfl,by simp [Dictionary.entries,empty],?_⟩
    simp only [List.flatMap_append,nothing,nothing',table_free_returns target freed,List.append_nil]

theorem free_owned {d : Dictionary K V} {record : List (Freed K V)} (tallied : DictTallied d)
    (done : atm_dict_free d = .ok record) : record.flatMap Freed.objects = [] := by
  obtain ⟨record',freed,rest⟩ := bind_eq_ok.mp done
  have nothing := table_free_returns tallied.active freed
  cases two : d.ht_backup with
  | none =>
    simp only [two] at rest
    cases rest
    exact nothing
  | some bak =>
    simp only [two] at rest
    obtain ⟨record'',freed',same⟩ := bind_eq_ok.mp rest
    cases same
    rw [List.flatMap_append,nothing,table_free_returns (tallied.backup bak two) freed',List.append_nil]

/-! ### The values of a dictionary -/

/-- A table finds only values that its entries hold. -/
theorem table_get_value {t : Table K V} {k : K} {v : V} (got : atm_dict_table_get T t k = .ok (some v)) :
    ∃ e ∈ t.entries, e.val = v := by
  obtain ⟨r,sought,same⟩ := bind_eq_ok.mp got
  rcases entry_returns sought with ⟨rfl,_⟩ | ⟨l,e,found,_,first,rfl⟩
  · cases same
  · cases same
    exact ⟨e,mem_entries.mpr ⟨_,_,found,List.mem_of_find?_eq_some first⟩,rfl⟩

theorem get_value {d : Dictionary K V} {k : K} {v : V} (got : atm_dict_get T d k = .ok (some v)) :
    ∃ e ∈ d.entries, e.val = v := by
  obtain ⟨r,first,rest⟩ := bind_eq_ok.mp got
  cases r with
  | some v' =>
    cases rest
    obtain ⟨e,member,same⟩ := table_get_value first
    exact ⟨e,List.mem_append_left _ member,same⟩
  | none =>
    cases two : d.ht_backup with
    | none =>
      rw [two] at rest
      cases rest
    | some bak =>
      rw [two] at rest
      obtain ⟨e,member,same⟩ := table_get_value rest
      refine ⟨e,?_,same⟩
      rw [Dictionary.entries,two]
      exact List.mem_append_right _ member

/-- A `set` adds no value but its own. -/
theorem set_values {P : V → Prop} {d d' : Dictionary K V} {k : K} {v : V} (tallied : DictTallied d)
    (all : ∀ e ∈ d.entries, P e.val) (new : P v) (done : atm_dict_set T d k v = .ok d') :
    DictTallied d' ∧ ∀ e ∈ d'.entries, P e.val := by
  obtain ⟨d₁,first,second⟩ := bind_eq_ok.mp done
  obtain ⟨tallied₁,_,_,effect⟩ := set_table_owned tallied first
  obtain ⟨tallied',entries,_,_⟩ := rehash_carries tallied₁ second
  refine ⟨tallied',fun e member => ?_⟩
  have member := entries.mem_iff.mp member
  rcases effect with ⟨_,after⟩ | ⟨_,x,rest,before,after⟩
  · rcases List.mem_cons.mp (after.mem_iff.mp member) with rfl | old
    · exact new
    · exact all e old
  · rcases List.mem_cons.mp (after.mem_iff.mp member) with rfl | old
    · exact new
    · exact all e (before.mem_iff.mpr (List.mem_cons_of_mem _ old))

theorem new_tallied (free_type : FreeType) :
    DictTallied (atm_dict_new free_type : Dictionary K V) ∧ (atm_dict_new free_type : Dictionary K V).entries = [] := by
  obtain ⟨table,empty⟩ := table_new_tallied (K := K) (V := V) ATM_DICT_INITIAL_BUCKET_SIZE
  exact ⟨⟨table,fun _ other => (by cases other)⟩,by simpa [Dictionary.entries,atm_dict_new] using empty⟩

/-! ### Runs -/

/-- Held and freed objects are those handed over, each of them once. -/
structure Accounted (s : Custody K V) : Prop where
  dict : ∀ d, s.dict = some d → DictTallied d ∧ d.free_type = .deep ∧ s.record = d.record
  perm : (s.held ++ s.freed).Perm s.handed
  distinct : s.handed.Nodup

theorem new_accounted : Accounted (custody_new : Custody K V) := by
  obtain ⟨tallied,empty⟩ := new_tallied (K := K) (V := V) .deep
  refine ⟨?_,?_,List.nodup_nil⟩
  · rintro _ ⟨⟩
    exact ⟨tallied,rfl,rfl⟩
  · simp only [Custody.held,Custody.freed,custody_new,empty]
    exact List.Perm.refl _

theorem dict_size_eq {d : Dictionary K V} (tallied : DictTallied d) : atm_dict_size d = d.entries.length := by
  cases two : d.ht_backup with
  | none => simp [atm_dict_size,Dictionary.entries,two,tallied.active.counted]
  | some bak => simp [atm_dict_size,Dictionary.entries,two,tallied.active.counted,(tallied.backup bak two).counted]

theorem custody_alive {s s' : Custody K V} {a : Act K V} (accounted : Accounted s) (done : custody_step T s a = .ok s') :
    ∃ d, s.dict = some d ∧ DictTallied d ∧ d.free_type = .deep ∧ s.record = d.record := by
  cases alive : s.dict with
  | none => simp [custody_step,alive] at done
  | some d => exact ⟨d,rfl,accounted.dict d alive⟩

theorem del_accounted (equiv : IsEquiv T.match_key) {s s' : Custody K V} {k : K} (accounted : Accounted s)
    (done : custody_step T s (.del k) = .ok s') : Accounted s' := by
  obtain ⟨d,alive,tallied,deep,record⟩ := custody_alive accounted done
  simp only [custody_step,alive] at done
  obtain ⟨d',changed,same⟩ := bind_eq_ok.mp done
  obtain ⟨d₁,first,second⟩ := bind_eq_ok.mp changed
  obtain ⟨tallied₁,type₁,effect⟩ := del_table_owned equiv tallied first
  obtain ⟨tallied',entries,type,freed⟩ := rehash_carries tallied₁ second
  cases same
  refine ⟨?_,?_,accounted.distinct⟩
  · rintro _ ⟨⟩
    exact ⟨tallied',by rw [type,type₁,deep],rfl⟩
  · have before := accounted.perm
    simp only [Custody.held,Custody.freed,alive,record] at before
    simp only [Custody.held,Custody.freed,freed]
    refine ((entries.flatMap_right objects).append_right _).trans (List.Perm.trans ?_ before)
    rcases effect with ⟨same,record₁⟩ | ⟨e,perm,record₁⟩
    · rw [same,record₁]
    · rw [record₁,deep,List.flatMap_append]
      have moved : (d.entries.flatMap objects).Perm (objects e ++ d₁.entries.flatMap objects) :=
        perm.flatMap_right objects
      refine List.Perm.trans ?_ (moved.append_right _).symm
      show (d₁.entries.flatMap objects ++ (d.record.flatMap Freed.objects ++ objects e)).Perm _
      rw [← List.append_assoc]
      exact List.perm_append_comm

/-- The calls that meet the condition keep the account. -/
theorem gentle_accounted (equiv : IsEquiv T.match_key) {s s' : Custody K V} {a : Act K V} (accounted : Accounted s)
    (fresh : HandsFresh s a) (gentle : Gentle T s a) (done : custody_step T s a = .ok s') : Accounted s' := by
  obtain ⟨d,alive,tallied,deep,record⟩ := custody_alive accounted done
  have before := accounted.perm
  simp only [Custody.held,Custody.freed,alive,record] at before
  cases a with
  | del k => exact del_accounted equiv accounted done
  | set k v =>
    simp only [custody_step,alive] at done
    obtain ⟨d',changed,same⟩ := bind_eq_ok.mp done
    obtain ⟨d₁,first,second⟩ := bind_eq_ok.mp changed
    obtain ⟨tallied₁,type₁,record₁,effect⟩ := set_table_owned tallied first
    obtain ⟨tallied',entries,type,freed⟩ := rehash_carries tallied₁ second
    have absent : atm_dict_table_contains T (d.ht_backup.getD d.ht_active) k = .ok false := gentle d alive
    have added : d₁.entries.Perm (⟨k,v⟩ :: d.entries) := by
      rcases effect with ⟨_,added⟩ | ⟨present,_⟩
      · exact added
      · rw [absent] at present
        cases present
    cases same
    refine ⟨?_,?_,?_⟩
    · rintro _ ⟨⟩
      exact ⟨tallied',by rw [type,type₁,deep],rfl⟩
    · simp only [Custody.held,Custody.freed,freed,record₁]
      have moved : (d'.entries.flatMap objects).Perm ([.key k,.val v] ++ d.entries.flatMap objects) :=
        (entries.trans added).flatMap_right objects
      refine (moved.append_right _).trans (List.Perm.trans ?_ (before.append_right _))
      rw [List.append_assoc]
      exact List.perm_append_comm
    · rw [List.nodup_append]
      refine ⟨accounted.distinct,by simp,?_⟩
      rintro o member _ new rfl
      simp only [List.mem_cons,List.not_mem_nil,or_false] at new
      rcases new with rfl | rfl
      · exact fresh.1 member
      · exact fresh.2 member
  | clear =>
    have size : atm_dict_size d = 0 := gentle d alive
    rw [dict_size_eq tallied,List.length_eq_zero_iff] at size
    simp only [custody_step,alive] at done
    obtain ⟨d',cleared,same⟩ := bind_eq_ok.mp done
    obtain ⟨tallied',type,empty,freed⟩ := clear_owned tallied cleared
    cases same
    refine ⟨?_,?_,accounted.distinct⟩
    · rintro _ ⟨⟩
      exact ⟨tallied',by rw [type,deep],rfl⟩
    · simpa only [Custody.held,Custody.freed,empty,freed,size] using before
  | free =>
    have size : atm_dict_size d = 0 := gentle d alive
    rw [dict_size_eq tallied,List.length_eq_zero_iff] at size
    simp only [custody_step,alive] at done
    obtain ⟨freed,gone,same⟩ := bind_eq_ok.mp done
    have nothing := free_owned tallied gone
    cases same
    refine ⟨fun _ other => (by cases other),?_,accounted.distinct⟩
    simpa only [Custody.held,Custody.freed,List.flatMap_append,nothing,List.append_nil,size,List.flatMap_nil] using before

section
variable [DecidableEq K] [DecidableEq V]

theorem owned_of_accounted {s : Custody K V} (accounted : Accounted s) : Owned s := by
  intro o member
  rw [← List.count_append,accounted.perm.count_eq]
  exact List.count_eq_one_of_mem accounted.distinct member

/-- An entry whose dictionary lets go of it without a `free` loses its key. -/
theorem dropped {s s' : Custody K V} {d : Dictionary K V} (accounted : Accounted s) (alive : s.dict = some d)
    {e : Entry K V} (member : e ∈ d.entries) (handed : s'.handed = s.handed) (held : s'.held = [])
    (freed : s'.freed = s.freed) : ¬ Owned s' := by
  intro owned
  have holds : Object.key e.key ∈ s.held := by
    simp only [Custody.held,alive]
    exact List.mem_flatMap.mpr ⟨e,member,List.mem_cons_self⟩
  have known := accounted.perm.mem_iff.mp (List.mem_append_left _ holds)
  have once := owned_of_accounted accounted _ known
  have after := owned (.key e.key) (by rw [handed]; exact known)
  rw [held,freed,List.count_nil] at after
  have positive := List.count_pos_iff.mpr holds
  omega

/-- The other calls drop an object at once. -/
theorem rough_drops {s s' : Custody K V} {a : Act K V} (accounted : Accounted s) (fresh : HandsFresh s a)
    (rough : ¬ Gentle T s a) (done : custody_step T s a = .ok s') : ¬ Owned s' := by
  obtain ⟨d,alive,tallied,deep,record⟩ := custody_alive accounted done
  have some_entry : atm_dict_size d ≠ 0 → ∃ e, e ∈ d.entries := fun size => by
    rw [dict_size_eq tallied] at size
    exact List.exists_mem_of_length_pos (Nat.pos_of_ne_zero size)
  cases a with
  | del k => exact absurd (fun _ _ => trivial) rough
  | set k v =>
    simp only [custody_step,alive] at done
    obtain ⟨d',changed,same⟩ := bind_eq_ok.mp done
    obtain ⟨d₁,first,second⟩ := bind_eq_ok.mp changed
    obtain ⟨tallied₁,type₁,record₁,effect⟩ := set_table_owned tallied first
    obtain ⟨tallied',entries,type,freed⟩ := rehash_carries tallied₁ second
    rcases effect with ⟨absent,_⟩ | ⟨_,e,rest,old,new⟩
    · refine absurd (fun other same => ?_) rough
      cases alive.symm.trans same
      exact absent
    cases same
    intro owned
    -- The key that came with the call is not among the objects that are held or freed.
    have count := owned (.key k) (by simp)
    have unknown : Object.key k ∉ s.held ++ s.freed := fun member => fresh.1 (accounted.perm.mem_iff.mp member)
    simp only [Custody.held,Custody.freed,alive,record,List.mem_append,not_or] at unknown
    have unfreed : Object.key k ∉ d'.record.flatMap Freed.objects := by
      rw [freed,record₁]
      exact unknown.2
    have unheld : Object.key k ∉ d'.entries.flatMap objects := by
      intro member
      apply unknown.1
      have member := ((entries.trans new).flatMap_right objects).mem_iff.mp member
      rw [(old.flatMap_right objects).mem_iff]
      simp only [List.flatMap_cons,List.mem_append,objects,List.mem_cons,List.not_mem_nil,or_false] at member ⊢
      rcases member with (key | value) | other
      · exact .inl (.inl key)
      · cases value
      · exact .inr other
    simp only [Custody.held,Custody.freed,List.count_eq_zero_of_not_mem unheld,
      List.count_eq_zero_of_not_mem unfreed] at count
    cases count
  | clear =>
    simp only [Gentle,not_forall] at rough
    obtain ⟨other,same,size⟩ := rough
    cases alive.symm.trans same
    obtain ⟨e,member⟩ := some_entry size
    simp only [custody_step,alive] at done
    obtain ⟨d',cleared,same⟩ := bind_eq_ok.mp done
    obtain ⟨_,_,empty,freed⟩ := clear_owned tallied cleared
    cases same
    exact dropped accounted alive member rfl (by simp only [Custody.held,empty,List.flatMap_nil])
      (by simp only [Custody.freed,freed,record])
  | free =>
    simp only [Gentle,not_forall] at rough
    obtain ⟨other,same,size⟩ := rough
    cases alive.symm.trans same
    obtain ⟨e,member⟩ := some_entry size
    simp only [custody_step,alive] at done
    obtain ⟨freed,gone,same⟩ := bind_eq_ok.mp done
    have nothing := free_owned tallied gone
    cases same
    exact dropped accounted alive member rfl rfl
      (by simp only [Custody.freed,record,List.flatMap_append,nothing,List.append_nil])

/-- In the runs whose `set`s hand over fresh objects, every object is owned throughout exactly
    when no `set` overwrites an entry and only an empty dictionary is cleared or freed. -/
theorem owned_iff_gentle (equiv : IsEquiv T.match_key) {acts : List (Act K V)} {s : Custody K V}
    (fresh : EachStep (custody_step T) custody_new acts HandsFresh)
    (ran : run (custody_step T) custody_new acts = .ok s) :
    Always (custody_step T) custody_new acts (fun _ s => Owned s) ↔
      EachStep (custody_step T) custody_new acts (Gentle T) :=
  always_iff_eachStep (I := fun _ s => Accounted s) new_accounted (fun _ _ => owned_of_accounted)
    (fun _ _ _ _ accounted fresh gentle done => gentle_accounted equiv accounted fresh gentle done)
    (fun _ _ _ _ accounted fresh rough done => rough_drops accounted fresh rough done) fresh ran

end

/-- Objects with a text, by which they match; the other component tells them apart. -/
def texts : KeyType (Nat × Nat) where
  match_key := fun a b => a.2 == b.2
  hash := fun k => UInt64.ofNat k.2

theorem texts_equiv : IsEquiv texts.match_key :=
  ⟨by simp [texts],by simp [texts],by simp [texts]⟩

def Act.objects : Act K V → List (Object K V)
  | .set k v => [.key k,.val v]
  | .del _ => []
  | .clear => []
  | .free => []

theorem custody_handed {s s' : Custody K V} {a : Act K V} (done : custody_step T s a = .ok s') :
    s'.handed = s.handed ++ a.objects := by
  cases alive : s.dict with
  | none => simp [custody_step,alive] at done
  | some d =>
    simp only [custody_step,alive] at done
    cases a with
    | set k v =>
      obtain ⟨_,_,same⟩ := bind_eq_ok.mp done
      cases same
      rfl
    | del k =>
      obtain ⟨_,_,same⟩ := bind_eq_ok.mp done
      cases same
      exact (List.append_nil _).symm
    | clear =>
      obtain ⟨_,_,same⟩ := bind_eq_ok.mp done
      cases same
      exact (List.append_nil _).symm
    | free =>
      obtain ⟨_,_,same⟩ := bind_eq_ok.mp done
      cases same
      exact (List.append_nil _).symm

/-- Calls that name each object once hand over fresh objects. -/
theorem fresh_of_distinct {acts : List (Act K V)} {s : Custody K V}
    (distinct : (s.handed ++ acts.flatMap Act.objects).Nodup) : EachStep (custody_step T) s acts HandsFresh := by
  induction acts generalizing s with
  | nil => exact eachStep_nil s _
  | cons a acts ih =>
    rw [List.flatMap_cons,← List.append_assoc] at distinct
    refine eachStep_cons.mpr ⟨?_,fun t done => ih (by rw [custody_handed done]; exact distinct)⟩
    have apart := (List.nodup_append.mp (List.nodup_append.mp distinct).1).2.2
    cases a with
    | set k v =>
      exact ⟨fun member => apart _ member (.key k) (by simp [Act.objects]) rfl,
        fun member => apart _ member (.val v) (by simp [Act.objects]) rfl⟩
    | del k => trivial
    | clear => trivial
    | free => trivial

theorem owned_iff_gentle_short : ∃ s,
    run (custody_step texts) custody_new [.set (0,7) 10,.set (1,8) 20,.del (2,7)] = .ok s ∧
    (Always (custody_step texts) custody_new [.set (0,7) 10,.set (1,8) 20,.del (2,7)] (fun _ s => Owned s) ↔
      EachStep (custody_step texts) custody_new [.set (0,7) 10,.set (1,8) 20,.del (2,7)] (Gentle texts)) :=
  let ⟨s,ran⟩ := exists_ok (show (run (custody_step texts) custody_new
    [.set (0,7) 10,.set (1,8) 20,.del (2,7)]).toBool = true by decide +kernel)
  ⟨s,ran,owned_iff_gentle texts_equiv (fresh_of_distinct (by decide)) ran⟩

/-- The second key with the text 7 and the first value are neither held nor freed. -/
theorem overwrite_drops : ∃ s, run (custody_step texts) custody_new [.set (0,7) 10,.set (1,7) 20] = .ok s ∧
    EachStep (custody_step texts) custody_new [.set (0,7) 10,.set (1,7) 20] HandsFresh ∧
    s.handed = [.key (0,7),.val 10,.key (1,7),.val 20] ∧ s.held ++ s.freed = [.key (0,7),.val 20] ∧ ¬ Owned s := by
  have ran : (run (custody_step texts) custody_new [.set (0,7) 10,.set (1,7) 20] >>= fun s =>
      .ok (s.handed,s.held ++ s.freed)) = (.ok ([.key (0,7),.val 10,.key (1,7),.val 20],[.key (0,7),.val 20]) :
        Except Fault (List (Object (Nat × Nat) Nat) × List (Object (Nat × Nat) Nat))) := by decide +kernel
  obtain ⟨s,executed,same⟩ := bind_eq_ok.mp ran
  obtain ⟨handed,left⟩ := Prod.mk.inj (Except.ok.inj same)
  refine ⟨s,executed,fresh_of_distinct (by decide),handed,left,fun owned => ?_⟩
  have once := owned (.key (1,7)) (by rw [handed]; decide)
  rw [← List.count_append,left] at once
  revert once
  decide

end AtmCache.Dict
