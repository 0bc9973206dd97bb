import AtmCache.DictRehash

/-!
# The dictionary as a finite map

What `atm_dict_set` and `atm_dict_del` do to the entries before the rehash, and
the runs in which the dictionary is the map that its calls describe. A `set` during a
migration writes to the backup only: when the active table still holds the key
the dictionary has two entries for it from then on.
-/
namespace AtmCache.Dict
open KeyMaps Runs
variable {K V : Type} {T : KeyType K}

/-! ### Lookups -/

theorem distinct_tables {eqv : K → K → Bool} {d : Dictionary K V} (distinct : Distinct eqv d.entries) :
    Distinct eqv d.ht_active.entries ∧ ∀ bak, d.ht_backup = some bak → Distinct eqv bak.entries := by
  obtain ⟨left,right,_⟩ := List.pairwise_append.mp distinct
  refine ⟨left,fun bak two => ?_⟩
  simpa [two,Distinct] using right

/-- A dictionary whose tables can be searched. -/
structure DictSound (T : KeyType K) (d : Dictionary K V) : Prop where
  active : TableSound T d.ht_active
  backup : ∀ bak, d.ht_backup = some bak → TableSound T bak

theorem DictOk.sound {slack : Nat} {d : Dictionary K V} (ok : DictOk T slack d) : DictSound T d :=
  ⟨ok.active.table.sound,fun bak two => (ok.double bak two).target.sound⟩

theorem DictSound.size {d : Dictionary K V} (sound : DictSound T d) : atm_dict_size d = d.entries.length := by
  cases two : d.ht_backup with
  | none => simp [atm_dict_size,Dictionary.entries,two,sound.active.counted]
  | some bak => simp [atm_dict_size,Dictionary.entries,two,sound.active.counted,(sound.backup bak two).counted]

/-- While no two keys match, both tables together answer like one list of entries. -/
theorem DictSound.get (lawful : T.Lawful) {d : Dictionary K V} (sound : DictSound T d)
    (distinct : Distinct T.match_key d.entries) (k : K) :
    atm_dict_get T d k = .ok (find T.match_key d.entries k) := by
  obtain ⟨left,right⟩ := distinct_tables distinct
  rw [atm_dict_get,sound.active.get lawful left,Dictionary.entries,find_append]
  cases first : find T.match_key d.ht_active.entries k with
  | some v => simp
  | none =>
    cases two : d.ht_backup with
    | none => simp
    | some bak => simp [(sound.backup bak two).get lawful (right bak two)]

theorem DictSound.contains (lawful : T.Lawful) {d : Dictionary K V} (sound : DictSound T d)
    (distinct : Distinct T.match_key d.entries) (k : K) :
    atm_dict_contains T d k = .ok (find T.match_key d.entries k).isSome := by
  obtain ⟨left,right⟩ := distinct_tables distinct
  rw [atm_dict_contains,sound.active.contains lawful left,Dictionary.entries,find_append]
  cases first : find T.match_key d.ht_active.entries k with
  | some v => simp
  | none =>
    cases two : d.ht_backup with
    | none => simp
    | some bak => simp [(sound.backup bak two).contains lawful (right bak two)]

/-! ### What the calls do before they rehash -/

/-- What no `set` or `del` changes before it rehashes. -/
structure SameShape (d d' : Dictionary K V) : Prop where
  backup : d'.ht_backup.isSome = d.ht_backup.isSome
  cursor : d'.rehash_index = d.rehash_index
  slots : d'.ht_active.bktab_size = d.ht_active.bktab_size
  resize : d'.enable_resize = d.enable_resize
  type : d'.free_type = d.free_type

/-- A `set` overwrites the entry of the table it writes to, or adds one. -/
theorem set_table_ok {d : Dictionary K V} (ok : DictOk T 0 d) (k : K) (v : V) :
    ∃ d', atm_dict_set_table T d k v = .ok d' ∧ DictOk T 1 d' ∧ SameShape d d' ∧ d'.record = d.record ∧
      ((∃ e rest, ((d.ht_backup.getD d.ht_active).chain T k).find? (fun e => T.match_key e.key k) = some e ∧
          d.entries.Perm (e :: rest) ∧ d'.entries.Perm (⟨e.key,v⟩ :: rest)) ∨
        (((d.ht_backup.getD d.ht_active).chain T k).find? (fun e => T.match_key e.key k) = none ∧
          d'.entries.Perm (⟨k,v⟩ :: d.entries))) := by
  cases two : d.ht_backup with
  | none =>
    obtain ⟨atStart,small⟩ := ok.single two
    obtain ⟨t,done,okT,size,used,effect⟩ := table_set_ok ok.active.table k v
    have counted := ok.active.used
    rw [atStart] at counted
    have length : t.size ≤ d.ht_active.size + 1 := by
      rw [okT.counted,ok.active.table.counted]
      rcases effect with ⟨e,rest,_,before,after⟩ | ⟨_,after⟩
      · rw [before.length_eq,after.length_eq]; simp
      · rw [after.length_eq]; simp
    refine ⟨{ d with ht_active := t },by simp [atm_dict_set_table,two,done],
      ⟨⟨okT,?_,?_⟩,fun _ => ⟨atStart,?_⟩,fun bak other => ?_⟩,⟨by simp [two],rfl,size,rfl,rfl⟩,rfl,?_⟩
    · simp only [atStart]
      omega
    · simp [atStart]
    · simp only [size]
      omega
    · simp [two] at other
    · rcases effect with ⟨e,rest,found,before,after⟩ | ⟨absent,after⟩
      · exact .inl ⟨e,rest,by simpa using found,by simpa [Dictionary.entries,two] using before,
          by simpa [Dictionary.entries,two] using after⟩
      · exact .inr ⟨by simpa using absent,by simpa [Dictionary.entries,two] using after⟩
  | some bak =>
    obtain ⟨target,counted,inside,pace⟩ := ok.double bak two
    obtain ⟨t,done,okT,size,used,effect⟩ := table_set_ok target k v
    have length : t.size ≤ bak.size + 1 := by
      rw [okT.counted,target.counted]
      rcases effect with ⟨e,rest,_,before,after⟩ | ⟨_,after⟩
      · rw [before.length_eq,after.length_eq]; simp
      · rw [after.length_eq]; simp
    refine ⟨{ d with ht_backup := some t },by simp [atm_dict_set_table,two,done],
      ⟨ok.active,fun one => (by cases one),fun other same => ?_⟩,⟨by simp [two],rfl,rfl,rfl,rfl⟩,rfl,?_⟩
    · cases same
      exact ⟨okT,by omega,inside,by simp only [size]; omega⟩
    · rcases effect with ⟨e,rest,found,before,after⟩ | ⟨absent,after⟩
      · refine .inl ⟨e,d.ht_active.entries ++ rest,by simpa using found,?_,?_⟩
        · simp only [Dictionary.entries,two]
          exact (before.append_left _).trans List.perm_middle
        · simp only [Dictionary.entries]
          exact (after.append_left _).trans List.perm_middle
      · refine .inr ⟨by simpa using absent,?_⟩
        simp only [Dictionary.entries,two]
        exact (after.append_left _).trans List.perm_middle

private theorem put_rest {t : Table K V} (ok : TableOk T t) {i : Nat} {l l' : List (Entry K V)} {x : Entry K V}
    (found : t.bktab[i]? = some (.bucket l)) (split : l.Perm (x :: l')) :
    TableOk T (t.put i l' t.bktab_used (t.size - 1)) ∧
      t.entries.Perm (x :: (t.put i l' t.bktab_used (t.size - 1)).entries) := by
  have length := split.length_eq
  simp only [List.length_cons] at length
  have moved := put_perm found l' t.bktab_used (t.size - 1)
  have total := moved.length_eq
  simp only [Slot.entries,List.length_append,← ok.counted] at total
  refine ⟨replaced ok found (fun e member => ?_) (by simp only [Slot.entries]; omega),?_⟩
  · exact ok.placed i _ found e (split.mem_iff.mpr (List.mem_cons_of_mem _ member))
  · have both : (l' ++ t.entries).Perm (l' ++ (x :: (t.put i l' t.bktab_used (t.size - 1)).entries)) :=
      moved.symm.trans ((split.append_right _).trans List.perm_middle.symm)
    exact (List.perm_append_left_iff l').mp both

/-- A `del` takes out one entry that matches, from the active table first. -/
theorem del_table_ok (refl : ∀ k, T.match_key k k = true) {d : Dictionary K V} (ok : DictOk T 0 d) (k : K) :
    ∃ d', atm_dict_del_table T d k = .ok d' ∧ DictOk T 0 d' ∧ SameShape d d' ∧
      ((∃ e x, T.match_key e.key k = true ∧ T.match_key x.key e.key = true ∧ d.entries.Perm (x :: d'.entries) ∧
          d'.record = d.record ++ atm_dict_entry_free d.free_type e) ∨
        (d' = d ∧ (d.ht_active.chain T k).find? (fun e => T.match_key e.key k) = none ∧
          ∀ bak, d.ht_backup = some bak → (bak.chain T k).find? (fun e => T.match_key e.key k) = none)) := by
  rcases table_del_ok refl ok.active.table d.free_type k with
    ⟨absent,done⟩ | ⟨e,x,l,found,again,slot,split,done⟩
  · cases two : d.ht_backup with
    | none =>
      refine ⟨d,?_,ok,⟨rfl,rfl,rfl,rfl,rfl⟩,.inr ⟨rfl,absent,fun bak other => by cases other⟩⟩
      cases d
      simp_all [atm_dict_del_table]
    | some bak =>
      obtain ⟨target,counted,inside,pace⟩ := ok.double bak two
      rcases table_del_ok refl target d.free_type k with ⟨absent',done'⟩ | ⟨e,x,l,found,again,slot,split,done'⟩
      · refine ⟨d,?_,ok,⟨rfl,rfl,rfl,rfl,rfl⟩,.inr ⟨rfl,absent,fun other same => ?_⟩⟩
        · cases d
          simp_all [atm_dict_del_table]
        · cases same
          exact absent'
      · obtain ⟨okT,perm⟩ := put_rest target slot split
        have length := perm.length_eq
        rw [List.length_cons,← target.counted,← okT.counted] at length
        refine ⟨{ d with
          ht_backup := some (bak.put (atm_dict_hkey T bak k) (l.eraseP (fun x => T.match_key x.key e.key))
            bak.bktab_used (bak.size - 1))
          record := d.record ++ [] ++ atm_dict_entry_free d.free_type e },by simp [atm_dict_del_table,done,two,done'],
          ⟨ok.active,fun one => (by cases one),fun other same => ?_⟩,⟨by simp [two],rfl,rfl,rfl,rfl⟩,
          .inl ⟨e,x,by simpa using List.find?_some found,again,?_,by simp⟩⟩
        · cases same
          exact ⟨okT,by rw [used_from_bucket slot]; exact counted,inside,by simp only [Table.put] at length ⊢; omega⟩
        · simp only [Dictionary.entries,two]
          exact (perm.append_left _).trans List.perm_middle
  · obtain ⟨okT,perm⟩ := put_rest ok.active.table slot split
    have length := perm.length_eq
    rw [List.length_cons,← ok.active.table.counted,← okT.counted] at length
    have active' : ActiveOk T (d.ht_active.put (atm_dict_hkey T d.ht_active k)
        (l.eraseP (fun x => T.match_key x.key e.key)) d.ht_active.bktab_used (d.ht_active.size - 1)) d.rehash_index := by
      refine ⟨okT,by rw [used_from_bucket slot]; exact ok.active.used,fun i s low here => ?_⟩
      simp only [Table.put] at here
      rw [List.getElem?_set] at here
      split at here
      · rename_i same
        subst same
        have nothing := ok.active.below _ _ low slot
        simp only [Slot.entries] at nothing
        rw [nothing] at split
        simpa using split.length_eq
      · exact ok.active.below i s low here
    refine ⟨{ d with
      ht_active := d.ht_active.put (atm_dict_hkey T d.ht_active k) (l.eraseP (fun x => T.match_key x.key e.key))
        d.ht_active.bktab_used (d.ht_active.size - 1)
      record := d.record ++ atm_dict_entry_free d.free_type e },by simp [atm_dict_del_table,done],
      ⟨active',fun one => ?_,fun bak two => ?_⟩,⟨rfl,rfl,rfl,rfl,rfl⟩,
      .inl ⟨e,x,by simpa using List.find?_some found,again,?_,rfl⟩⟩
    · obtain ⟨atStart,small⟩ := ok.single one
      exact ⟨atStart,by simp only [Table.put] at length ⊢; omega⟩
    · obtain ⟨target,counted,inside,pace⟩ := ok.double bak two
      exact ⟨target,counted,inside,by simp only [Table.put] at length ⊢; omega⟩
    · exact perm.append_right _

/-! ### Steps and runs -/

def Op.mutates : Op K V → Bool
  | .set _ _ => true
  | .del _ => true
  | .resize_enable => false
  | .resize_disable => false

/-- A migration that the call starts makes a table of at most `2^28` slots. -/
def Fits (T : KeyType K) (d : Dictionary K V) (op : Op K V) : Prop :=
  op.mutates = true → ∀ d', before_rehash T d op = .ok d' → GrowthFits d'

/-- The call is no `set`, during a migration, of a key that the active table still holds. -/
def Fresh (T : KeyType K) (d : Dictionary K V) : Op K V → Prop
  | .set k _ => d.ht_backup = none ∨ atm_dict_table_contains T d.ht_active k = .ok false
  | .del _ => True
  | .resize_enable => True
  | .resize_disable => True

instance freshDecidable [DecidableEq K] [DecidableEq V] (T : KeyType K) (d : Dictionary K V) :
    (op : Op K V) → Decidable (Fresh T d op)
  | .set _ _ => inferInstanceAs (Decidable (_ ∨ _))
  | .del _ => .isTrue trivial
  | .resize_enable => .isTrue trivial
  | .resize_disable => .isTrue trivial

/-- The dictionary answers as the map `f`. -/
structure Refines (T : KeyType K) (f : K → Option V) (d : Dictionary K V) : Prop where
  get : ∀ k, atm_dict_get T d k = .ok (f k)
  contains : ∀ k, atm_dict_contains T d k = .ok (f k).isSome
  size : LiveCount T.match_key f (atm_dict_size d)

theorem last_set_snoc (ops : List (Op K V)) (op : Op K V) :
    last_set T (ops ++ [op]) = Op.effect T (last_set T ops) op := by
  simp only [last_set,List.foldl_append,List.foldl_cons,List.foldl_nil]

theorem new_ok (free_type : FreeType) :
    DictOk T 0 (atm_dict_new free_type : Dictionary K V) ∧ (atm_dict_new free_type : Dictionary K V).entries = [] := by
  obtain ⟨table,empty,unused⟩ := table_new_ok (T := T) (V := V) (j := 8) (by omega) (by omega)
  refine ⟨⟨⟨table,unused.symm,fun i s low => by simp [atm_dict_new] at low⟩,fun _ => ⟨rfl,?_⟩,fun bak two => ?_⟩,?_⟩
  · simp [atm_dict_new,atm_dict_table_new,force_resize_ratio,ATM_DICT_INITIAL_BUCKET_SIZE]
  · simp [atm_dict_new] at two
  · simpa [Dictionary.entries,atm_dict_new,ATM_DICT_INITIAL_BUCKET_SIZE] using empty

/-- A call that returns: its effect on the tables, and then a rehash that returns. -/
theorem step_mutates {d d' : Dictionary K V} {op : Op K V} (mutates : op.mutates = true) :
    step T d op = .ok d' ↔ ∃ d₁, before_rehash T d op = .ok d₁ ∧ atm_dict_rehash T d₁ = .ok d' := by
  cases op with
  | set k v => exact bind_eq_ok
  | del k => exact bind_eq_ok
  | resize_enable => cases mutates
  | resize_disable => cases mutates

/-- A call that only switches resizing. -/
theorem step_idle {d : Dictionary K V} {op : Op K V} (idle : ¬ op.mutates = true) :
    ∃ d', step T d op = .ok d' ∧ d'.ht_active = d.ht_active ∧ d'.ht_backup = d.ht_backup ∧
      d'.rehash_index = d.rehash_index := by
  cases op with
  | set k v => exact absurd rfl idle
  | del k => exact absurd rfl idle
  | resize_enable => exact ⟨_,rfl,rfl,rfl,rfl⟩
  | resize_disable => exact ⟨_,rfl,rfl,rfl,rfl⟩

theorem rehash_keeps {d d' : Dictionary K V} (ok : DictOk T 1 d) (fits : GrowthFits d)
    (done : atm_dict_rehash T d = .ok d') : DictOk T 0 d' ∧ d'.entries.Perm d.entries := by
  rcases rehash_cases ok fits with ⟨_,same,ok'⟩ | ⟨_,_,text,failed⟩ | ⟨_,_,d'',same,migrated⟩
  · rw [same] at done
    cases done
    exact ⟨ok',List.Perm.refl _⟩
  · rw [failed] at done
    cases done
  · rw [same] at done
    cases done
    exact ⟨migrated.ok,migrated.entries⟩

theorem DictOk.mono {slack more : Nat} {d : Dictionary K V} (ok : DictOk T slack d) (le : slack ≤ more) :
    DictOk T more d := by
  refine ⟨ok.active,fun one => ?_,fun bak two => ?_⟩
  · exact ⟨(ok.single one).1,by have := (ok.single one).2; omega⟩
  · obtain ⟨target,counted,inside,pace⟩ := ok.double bak two
    exact ⟨target,counted,inside,by omega⟩

theorem before_rehash_ok (refl : ∀ k, T.match_key k k = true) {d : Dictionary K V} (ok : DictOk T 0 d) (op : Op K V) :
    ∃ d₁, before_rehash T d op = .ok d₁ ∧ DictOk T 1 d₁ ∧ SameShape d d₁ := by
  cases op with
  | set k v =>
    obtain ⟨d₁,done,ok₁,shape,_⟩ := set_table_ok ok k v
    exact ⟨d₁,done,ok₁,shape⟩
  | del k =>
    obtain ⟨d₁,done,ok₁,shape,_⟩ := del_table_ok refl ok k
    exact ⟨d₁,done,ok₁.mono (by omega),shape⟩
  | resize_enable => exact ⟨d,rfl,ok.mono (by omega),rfl,rfl,rfl,rfl,rfl⟩
  | resize_disable => exact ⟨d,rfl,ok.mono (by omega),rfl,rfl,rfl,rfl,rfl⟩

theorem before_rehash_kept (refl : ∀ k, T.match_key k k = true) {d d₁ : Dictionary K V} (ok : DictOk T 0 d) (op : Op K V)
    (done : before_rehash T d op = .ok d₁) : DictOk T 1 d₁ := by
  obtain ⟨d₂,same,ok₁,_⟩ := before_rehash_ok refl ok op
  rw [done] at same
  cases same
  exact ok₁

/-- Every call that returns keeps the invariant, whatever keys it is given. -/
theorem step_ok (refl : ∀ k, T.match_key k k = true) {d d' : Dictionary K V} (ok : DictOk T 0 d) {op : Op K V}
    (fits : Fits T d op) (done : step T d op = .ok d') : DictOk T 0 d' := by
  by_cases mutates : op.mutates = true
  · obtain ⟨d₁,first,second⟩ := (step_mutates mutates).mp done
    have ok₁ := before_rehash_kept refl ok op first
    exact (rehash_keeps ok₁ (fits mutates d₁ first) second).1
  · obtain ⟨d₂,same,active,backup,cursor⟩ := step_idle (T := T) (d := d) mutates
    rw [done] at same
    cases same
    exact ⟨by rw [active,cursor]; exact ok.active,fun one => by rw [active,cursor]; exact ok.single (backup ▸ one),
      fun bak two => by rw [active,cursor]; exact ok.double bak (backup ▸ two)⟩

theorem refines_of_holds (lawful : T.Lawful) {f : K → Option V} {d : Dictionary K V} (ok : DictOk T 0 d)
    (holds : Holds T.match_key d.entries f) : Refines T f d := by
  refine ⟨fun k => ?_,fun k => ?_,?_⟩
  · rw [ok.sound.get lawful holds.distinct,holds.found]
  · rw [ok.sound.contains lawful holds.distinct,holds.found]
  · rw [ok.sound.size]
    exact holds.liveCount

/-- A `set` of a key that the active table does not hold during a migration sets it in the map. -/
theorem set_holds (lawful : T.Lawful) {f : K → Option V} {d d₁ : Dictionary K V} (ok : DictOk T 0 d)
    (holds : Holds T.match_key d.entries f) {k : K} {v : V} (fresh : Fresh T d (.set k v))
    (done : atm_dict_set_table T d k v = .ok d₁) : Holds T.match_key d₁.entries (KeyMaps.set T.match_key f k v) := by
  obtain ⟨d₂,same,_,_,_,effect⟩ := set_table_ok ok k v
  rw [done] at same
  cases same
  rcases effect with ⟨e,rest,found,before,after⟩ | ⟨absent,after⟩
  · have matched : T.match_key e.key k = true := by simpa using List.find?_some found
    exact (holds.overwrite lawful.equiv before matched v).perm lawful.equiv after.symm
  · refine (holds.insert (fun e member => ?_) v).perm lawful.equiv after.symm
    rw [lawful.equiv.comm]
    obtain ⟨left,right⟩ := distinct_tables holds.distinct
    have notIn : ∀ {t : Table K V}, TableOk T t → Distinct T.match_key t.entries →
        (t.chain T k).find? (fun e => T.match_key e.key k) = none → ∀ e ∈ t.entries, T.match_key e.key k = false := by
      intro t okT apart none
      have nothing := okT.sound.find_chain lawful apart k
      rw [none] at nothing
      exact (find_eq_none_iff _ _).mp nothing.symm
    cases two : d.ht_backup with
    | none =>
      simp only [Dictionary.entries,two,List.append_nil] at member
      exact notIn ok.active.table left (by simpa [two] using absent) e member
    | some bak =>
      simp only [Dictionary.entries,two,List.mem_append] at member
      rcases member with member | member
      · rcases fresh with one | gone
        · simp [two] at one
        · refine notIn ok.active.table left ?_ e member
          simpa [atm_dict_table_contains,ok.active.table.sound.entry] using gone
      · exact notIn (ok.double bak two).target (right bak two) (by simpa [two] using absent) e member

theorem del_holds (lawful : T.Lawful) {f : K → Option V} {d d₁ : Dictionary K V} (ok : DictOk T 0 d)
    (holds : Holds T.match_key d.entries f) {k : K} (done : atm_dict_del_table T d k = .ok d₁) :
    Holds T.match_key d₁.entries (KeyMaps.del T.match_key f k) := by
  obtain ⟨d₂,same,_,_,effect⟩ := del_table_ok lawful.equiv.refl ok k
  rw [done] at same
  cases same
  rcases effect with ⟨e,x,matched,again,split,_⟩ | ⟨rfl,left,right⟩
  · exact holds.erase lawful.equiv split (lawful.equiv.trans again matched)
  · refine holds.erase_absent lawful.equiv (fun e member => ?_)
    obtain ⟨leftApart,rightApart⟩ := distinct_tables holds.distinct
    simp only [Dictionary.entries,List.mem_append] at member
    rcases member with member | member
    · have nothing := ok.active.table.sound.find_chain lawful leftApart k
      rw [left] at nothing
      exact (find_eq_none_iff _ _).mp nothing.symm e member
    · cases two : d₁.ht_backup with
      | none => simp [two] at member
      | some bak =>
        simp only [two] at member
        have nothing := (ok.double bak two).target.sound.find_chain lawful (rightApart bak two) k
        rw [right bak two] at nothing
        exact (find_eq_none_iff _ _).mp nothing.symm e member

/-- Every call that meets `Fresh` does to the dictionary what it does to the map. -/
theorem step_holds (lawful : T.Lawful) {f : K → Option V} {d d' : Dictionary K V} (ok : DictOk T 0 d)
    (holds : Holds T.match_key d.entries f) {op : Op K V} (fits : Fits T d op) (fresh : Fresh T d op)
    (done : step T d op = .ok d') : Holds T.match_key d'.entries (Op.effect T f op) := by
  cases op with
  | set k v =>
    obtain ⟨d₁,first,second⟩ := (step_mutates rfl).mp done
    have ok₁ := before_rehash_kept lawful.equiv.refl ok (.set k v) first
    exact (set_holds lawful ok holds fresh first).perm lawful.equiv
      (rehash_keeps ok₁ (fits rfl d₁ first) second).2.symm
  | del k =>
    obtain ⟨d₁,first,second⟩ := (step_mutates rfl).mp done
    have ok₁ := before_rehash_kept lawful.equiv.refl ok (.del k) first
    exact (del_holds lawful ok holds first).perm lawful.equiv (rehash_keeps ok₁ (fits rfl d₁ first) second).2.symm
  | resize_enable => cases done; exact holds
  | resize_disable => cases done; exact holds

/-- A `set` of a key that the active table still holds leaves one entry too many. -/
theorem stale_set_breaks (lawful : T.Lawful) {f : K → Option V} {d d' : Dictionary K V} (ok : DictOk T 0 d)
    (holds : Holds T.match_key d.entries f) {op : Op K V} (fits : Fits T d op) (stale : ¬ Fresh T d op)
    (done : step T d op = .ok d') : ¬ Refines T (Op.effect T f op) d' := by
  intro refines
  cases op with
  | del k => exact stale trivial
  | resize_enable => exact stale trivial
  | resize_disable => exact stale trivial
  | set k v =>
    simp only [Fresh,not_or] at stale
    obtain ⟨⟨bak,two⟩,inActive⟩ : (∃ bak, d.ht_backup = some bak) ∧ _ :=
      ⟨Option.ne_none_iff_exists'.mp stale.1,stale.2⟩
    -- The key is bound in the active table, and so not in the backup.
    obtain ⟨e,chain⟩ : ∃ e, (d.ht_active.chain T k).find? (fun e => T.match_key e.key k) = some e := by
      rw [← Option.isSome_iff_exists]
      simpa [atm_dict_table_contains,ok.active.table.sound.entry] using inActive
    have matched : T.match_key e.key k = true := by simpa using List.find?_some chain
    have member : e ∈ d.ht_active.entries := (ok.active.table.sound.mem_chain.mp (List.mem_of_find?_eq_some chain)).1
    obtain ⟨d₁,first,second⟩ := (step_mutates rfl).mp done
    have ok₁ := before_rehash_kept lawful.equiv.refl ok (.set k v) first
    obtain ⟨ok',perm⟩ := rehash_keeps ok₁ (fits rfl d₁ first) second
    obtain ⟨d₃,same,_,_,_,effect⟩ := set_table_ok ok k v
    rw [show atm_dict_set_table T d k v = .ok d₁ from first] at same
    cases same
    have grown : d'.entries.length = d.entries.length + 1 := by
      rw [perm.length_eq]
      rcases effect with ⟨e',_,found,_,_⟩ | ⟨_,after⟩
      · rw [two,Option.getD_some] at found
        have matched' : T.match_key e'.key k = true := by simpa using List.find?_some found
        have member' := ((ok.double bak two).target.sound.mem_chain.mp (List.mem_of_find?_eq_some found)).1
        have apart := (List.pairwise_append.mp holds.distinct).2.2 e member e' (by simpa [two] using member')
        rw [lawful.equiv.trans matched (lawful.equiv.symm matched')] at apart
        cases apart
      · rw [after.length_eq]; simp
    have inDict : e ∈ d.entries := List.mem_append_left _ member
    obtain ⟨before,after,whole⟩ := List.append_of_mem inDict
    have split : d.entries.Perm (e :: (before ++ after)) := by rw [whole]; exact List.perm_middle
    have count := (holds.overwrite lawful.equiv split matched v).liveCount
    have size := refines.size
    rw [ok'.sound.size,grown] at size
    have equal := LiveCount.unique lawful.equiv size count
    have length := split.length_eq
    simp only [List.length_cons] at equal length
    omega

/-- In the runs whose migrations fit, the dictionary is the map of its calls throughout
    exactly when no call sets, during a migration, a key of the active table. -/
theorem refines_iff_fresh (lawful : T.Lawful) {free_type : FreeType} {ops : List (Op K V)} {d : Dictionary K V}
    (fits : EachStep (step T) (atm_dict_new free_type) ops (Fits T))
    (ran : run (step T) (atm_dict_new free_type) ops = .ok d) :
    Always (step T) (atm_dict_new free_type) ops (fun pre d => Refines T (last_set T pre) d) ↔
      EachStep (step T) (atm_dict_new free_type) ops (Fresh T) := by
  refine always_iff_eachStep (I := fun ops d => DictOk T 0 d ∧ Holds T.match_key d.entries (last_set T ops))
    ?_ ?_ ?_ ?_ fits ran
  · obtain ⟨ok,empty⟩ := new_ok (T := T) (V := V) free_type
    exact ⟨ok,by rw [empty]; exact holds_nil⟩
  · exact fun pre t inv => refines_of_holds lawful inv.1 inv.2
  · exact fun pre op t u inv fits fresh done =>
      ⟨step_ok lawful.equiv.refl inv.1 fits done,
        by rw [last_set_snoc]; exact step_holds lawful inv.1 inv.2 fits fresh done⟩
  · exact fun pre op t u inv fits stale done => by
      rw [last_set_snoc]; exact stale_set_breaks lawful inv.1 inv.2 fits stale done

/-! ### Short runs -/

theorem before_rehash_length (refl : ∀ k, T.match_key k k = true) {d d₁ : Dictionary K V} (ok : DictOk T 0 d)
    {op : Op K V} (done : before_rehash T d op = .ok d₁) : d₁.entries.length ≤ d.entries.length + 1 := by
  cases op with
  | set k v =>
    obtain ⟨d₂,same,_,_,_,effect⟩ := set_table_ok ok k v
    rw [show atm_dict_set_table T d k v = .ok d₁ from done] at same
    cases same
    rcases effect with ⟨e,rest,_,before,after⟩ | ⟨_,after⟩
    · rw [before.length_eq,after.length_eq]; simp
    · rw [after.length_eq]; simp
  | del k =>
    obtain ⟨d₂,same,_,_,effect⟩ := del_table_ok refl ok k
    rw [show atm_dict_del_table T d k = .ok d₁ from done] at same
    cases same
    rcases effect with ⟨e,x,_,_,split,_⟩ | ⟨rfl,_⟩
    · rw [split.length_eq]; simp; omega
    · omega
  | resize_enable => cases done; omega
  | resize_disable => cases done; omega

/-- A run of at most `2^27` calls starts no migration that is too large. -/
theorem fits_of_short (refl : ∀ k, T.match_key k k = true) {free_type : FreeType} {ops : List (Op K V)}
    (short : ops.length ≤ 2^27) : EachStep (step T) (atm_dict_new free_type) ops (Fits T) := by
  have room : ∀ {d : Dictionary K V} {op : Op K V} {n : Nat}, DictOk T 0 d → d.entries.length ≤ n → n < 2^27 →
      Fits T d op := by
    intro d op n ok bound below mutates d₁ done one needed
    have ok₁ := before_rehash_kept refl ok op done
    have total := before_rehash_length refl ok done
    have active : d₁.ht_active.size ≤ d₁.entries.length := by
      rw [ok₁.active.table.counted,Dictionary.entries,List.length_append]
      exact Nat.le_add_right ..
    omega
  refine eachStep_of_invariant (P := fun pre d => DictOk T 0 d ∧ d.entries.length ≤ pre.length) ?_ ?_ ?_
  · obtain ⟨ok,empty⟩ := new_ok (T := T) (V := V) free_type
    exact ⟨ok,by simp [empty]⟩
  · intro pre op d isPre inv
    have length := isPre.length_le
    rw [List.length_append,List.length_singleton] at length
    exact room inv.1 inv.2 (by omega)
  · intro pre op d d' inv fits done
    refine ⟨step_ok refl inv.1 fits done,?_⟩
    rw [List.length_append,List.length_singleton]
    by_cases mutates : op.mutates = true
    · obtain ⟨d₁,first,second⟩ := (step_mutates mutates).mp done
      have ok₁ := before_rehash_kept refl inv.1 op first
      have total := before_rehash_length refl inv.1 first
      rw [(rehash_keeps ok₁ (fits mutates d₁ first) second).2.length_eq]
      have := inv.2
      omega
    · obtain ⟨d₂,same,active,backup,_⟩ := step_idle (T := T) (d := d) mutates
      rw [done] at same
      cases same
      have unchanged : d'.entries = d.entries := by rw [Dictionary.entries,Dictionary.entries,active,backup]
      rw [unchanged]
      exact Nat.le_succ_of_le inv.2

/-! ### A run that goes wrong -/

/-- Numbers as keys, with `n` hash values. -/
def modulo (n : Nat) : KeyType Nat where
  match_key := fun a b => a == b
  hash := fun k => UInt64.ofNat (k % n)

theorem modulo_lawful (n : Nat) : (modulo n).Lawful where
  equiv := ⟨by simp [modulo],by simp [modulo],by simp [modulo]⟩
  hash_eq := by simp [modulo]

/-- 256 keys start a migration. A key is new and one is deleted before it ends, and others are set afterwards. -/
def migrated : List (Op Nat Nat) :=
  (List.range 256).map (fun k => .set k k) ++ [.set 256 1,.del 5] ++ (List.range 254).map (fun k => .set (300 + k) k)

theorem refines_iff_fresh_migrated : ∃ d, run (step (modulo 16)) (atm_dict_new .deep) migrated = .ok d ∧
    Always (step (modulo 16)) (atm_dict_new .deep) migrated (fun pre d => Refines (modulo 16) (last_set (modulo 16) pre) d) := by
  obtain ⟨d,ran⟩ : ∃ d, run (step (modulo 16)) (atm_dict_new .deep) migrated = .ok d := exists_ok (by decide +kernel)
  have fresh : EachStep (step (modulo 16)) (atm_dict_new .deep) migrated (Fresh (modulo 16)) := by decide +kernel
  have fits : EachStep (step (modulo 16)) (atm_dict_new .deep) migrated (Fits (modulo 16)) :=
    fits_of_short (modulo_lawful 16).equiv.refl (by decide +kernel)
  exact ⟨d,ran,(refines_iff_fresh (modulo_lawful 16) fits ran).mpr fresh⟩

/-- The 256th key starts a migration; when it is set again, in the next call, it is still
    in the active table. -/
def set_again : List (Op Nat Nat) := (List.range 256).map (fun k => .set k k) ++ [.set 255 7]

theorem set_again_stale : ∃ d, run (step (modulo 16)) (atm_dict_new .shallow) set_again = .ok d ∧
    atm_dict_get (modulo 16) d 255 = .ok (some 255) ∧ last_set (modulo 16) set_again 255 = some 7 ∧
    atm_dict_size d = 257 ∧ ¬ Refines (modulo 16) (last_set (modulo 16) set_again) d := by
  have ran : (run (step (modulo 16)) (atm_dict_new .shallow) set_again >>= fun d =>
      .ok (atm_dict_get (modulo 16) d 255,atm_dict_size d)) = .ok (.ok (some 255),257) := by decide +kernel
  have wanted : last_set (modulo 16) set_again 255 = some 7 := by decide +kernel
  obtain ⟨d,executed,same⟩ := bind_eq_ok.mp ran
  obtain ⟨got,size⟩ := Prod.mk.inj (Except.ok.inj same)
  refine ⟨d,executed,got,wanted,size,fun refines => ?_⟩
  have answer := refines.get 255
  rw [got,wanted] at answer
  simp at answer

end AtmCache.Dict
