import AtmCache.DictMoves
import AtmCache.DictMap

/-!
# The pace of a migration

Every call that changes the dictionary adds at most one entry and moves the cursor by
one slot. A migration starts with at least twice as many slots as entries, so the
entries of both tables and the slots that the cursor has still to pass stay
below the slots of the backup (`Paced`), whichever ratio started it.
-/
namespace AtmCache.Dict
open Runs
variable {K V : Type} {T : KeyType K}

/-- Both tables have at most `2^28` slots. -/
def TablesWithin (d : Dictionary K V) : Prop :=
  d.ht_active.bktab_size ≤ 2^28 ∧ ∀ bak, d.ht_backup = some bak → bak.bktab_size ≤ 2^28

/-- What a migration has still to do fits the backup, with room for `slack` entries too many. -/
def Paced (slack : Nat) (d : Dictionary K V) : Prop :=
  ∀ bak, d.ht_backup = some bak →
    d.ht_active.size + bak.size + (d.ht_active.bktab_size - d.rehash_index) < bak.bktab_size + slack

/-- A pending migration keeps ahead of the entries that may still arrive. -/
structure KeepsPace (d : Dictionary K V) : Prop where
  cursor : d.ht_backup ≠ none → d.rehash_index < d.ht_active.bktab_size
  pace : ∀ bak, d.ht_backup = some bak →
    d.ht_active.size + bak.size + (d.ht_active.bktab_size - d.rehash_index) ≤ bak.bktab_size
  /-- Had the migration moved every entry already, its table would be due for no other one. -/
  pending : ∀ bak, d.ht_backup = some bak → ∀ resize, atm_dict_rehash_needed { d with
    ht_active := { bak with size := atm_dict_size d }, ht_backup := none, enable_resize := resize } = false

/-- A call that ends a migration leaves a table with more slots than entries, due for no
    other migration. -/
def EndsRoomy (T : KeyType K) (d : Dictionary K V) (op : Op K V) : Prop :=
  op.mutates = true → ∀ d₁ d', before_rehash T d op = .ok d₁ → atm_dict_rehash_needed d₁ = true →
    atm_dict_rehash T d₁ = .ok d' → d'.ht_backup = none →
      d'.ht_active.size < d'.ht_active.bktab_size ∧ atm_dict_rehash_needed d' = false

/-! ### What a call does to the sizes -/

theorem table_set_size {t t' : Table K V} {k : K} {v : V} (done : atm_dict_table_set T t k v = .ok t') :
    t'.bktab_size = t.bktab_size ∧ t'.size ≤ t.size + 1 := by
  rcases table_set_returns done with ⟨l,e,_,_,rfl⟩ | ⟨_,pushed⟩
  · exact ⟨rfl,Nat.le_succ _⟩
  · obtain ⟨s,_,_,rfl⟩ := push_entry_returns pushed
    exact ⟨rfl,le_rfl⟩

theorem table_del_size {t t' : Table K V} {free_type : FreeType} {k : K} {res : Bool} {record : List (Freed K V)}
    (done : atm_dict_table_del T free_type t k = .ok (res,t',record)) :
    t'.bktab_size = t.bktab_size ∧ t'.size ≤ t.size := by
  rcases table_del_returns done with ⟨_,_,rfl,_⟩ | ⟨l,e,_,_,_,rfl,_⟩
  · exact ⟨rfl,le_rfl⟩
  · exact ⟨rfl,Nat.sub_le _ _⟩

theorem push_all_size {bak bak' : Table K V} {l : List (Entry K V)}
    (done : l.foldlM (atm_dict_table_push_entry T) bak = .ok bak') :
    bak'.bktab_size = bak.bktab_size ∧ bak'.size = bak.size + l.length := by
  refine run_keeps (P := fun pushed t => t.bktab_size = bak.bktab_size ∧ t.size = bak.size + pushed.length) ⟨rfl,rfl⟩ ?_ done
  rintro pushed e t t' ⟨slots,size⟩ push
  obtain ⟨s,_,_,rfl⟩ := push_entry_returns push
  refine ⟨slots,?_⟩
  simp only [Table.put,List.length_append,List.length_singleton]
  omega

/-- A `set` uses up one unit of slack at most, and a `del` none. -/
theorem before_rehash_paced {d d₁ : Dictionary K V} {op : Op K V} (paced : Paced 0 d)
    (done : before_rehash T d op = .ok d₁) : Paced 1 d₁ := by
  cases op with
  | set k v =>
    have done : atm_dict_set_table T d k v = .ok d₁ := done
    unfold atm_dict_set_table at done
    cases two : d.ht_backup with
    | none =>
      simp only [two] at done
      obtain ⟨t,_,same⟩ := bind_eq_ok.mp done
      cases same
      exact fun bak other => (by cases other)
    | some bak =>
      simp only [two] at done
      obtain ⟨t,wrote,same⟩ := bind_eq_ok.mp done
      cases same
      obtain ⟨slots,size⟩ := table_set_size wrote
      have before := paced bak two
      rintro _ ⟨⟩
      simp only [slots]
      omega
  | del k =>
    obtain ⟨⟨res,act,record⟩,tried,rest⟩ := bind_eq_ok.mp (show atm_dict_del_table T d k = .ok d₁ from done)
    obtain ⟨slots,size⟩ := table_del_size tried
    intro bak' two'
    cases two : d.ht_backup with
    | none =>
      have one : d₁.ht_backup = none := by
        simp only [two] at rest
        cases res with
        | true => cases rest; rfl
        | false => cases rest; rfl
      cases one.symm.trans two'
    | some bak =>
      have before := paced bak two
      simp only [two] at rest
      cases res with
      | true =>
        cases rest
        cases two'
        simp only [slots]
        omega
      | false =>
        obtain ⟨⟨_,t,record'⟩,tried',same⟩ := bind_eq_ok.mp rest
        cases same
        cases two'
        obtain ⟨slots',size'⟩ := table_del_size tried'
        simp only [slots,slots']
        omega
  | resize_enable =>
    cases done
    exact fun bak two => Nat.lt_succ_of_lt (paced bak two)
  | resize_disable =>
    cases done
    exact fun bak two => Nat.lt_succ_of_lt (paced bak two)

/-! ### What a rehash does to them -/

/-- A full table, by the ratio in force, has at least as many entries as slots. -/
theorem full_of_needed {d : Dictionary K V} (positive : 0 < d.ht_active.bktab_size) (one : d.ht_backup = none)
    (needed : atm_dict_rehash_needed d = true) : d.ht_active.bktab_size ≤ d.ht_active.size := by
  simp only [atm_dict_rehash_needed,one] at needed
  split at needed
  · simpa using needed
  · have ratio : force_resize_ratio ≤ d.ht_active.size / d.ht_active.bktab_size := by simpa using needed
    have enough := (Nat.le_div_iff_mul_le positive).mp ratio
    simp only [force_resize_ratio] at enough
    omega

/-- A table with more slots than entries is due for no migration. -/
theorem not_needed_of_room {d : Dictionary K V} (one : d.ht_backup = none) (room : d.ht_active.size < d.ht_active.bktab_size) :
    atm_dict_rehash_needed d = false := by
  simp only [atm_dict_rehash_needed,one,force_resize_ratio,Nat.div_eq_of_lt room]
  split
  · simpa using room
  · rfl

/-- The table to migrate to, old or new, has room for all that the migration has to do. -/
theorem backup_room {d : Dictionary K V} {bak : Table K V} (positive : 0 < d.ht_active.bktab_size) (paced : Paced 1 d)
    (short : d.ht_backup = none → d.ht_active.size * 2 < 2^32) (needed : atm_dict_rehash_needed d = true)
    (made : atm_dict_rehash_backup d = .ok bak) :
    d.ht_active.size + bak.size + (d.ht_active.bktab_size - d.rehash_index) ≤ bak.bktab_size := by
  cases two : d.ht_backup with
  | some other =>
    simp only [atm_dict_rehash_backup,two,Except.ok.injEq] at made
    subst made
    exact Nat.lt_succ_iff.mp (paced other two)
  | none =>
    have full := full_of_needed positive two needed
    simp only [atm_dict_rehash_backup,two] at made
    split at made
    · cases made
    · obtain ⟨bsz,found,same⟩ := bind_eq_ok.mp made
      cases same
      obtain ⟨j,_,_,rfl,enough⟩ := next_power_eq_ok found
      rw [u32_of_lt (short two)] at enough
      simp only [atm_dict_table_new]
      omega

/-- The end of a call leaves room where the round before it left some. -/
theorem finish_paced {d d' : Dictionary K V} {act bak : Table K V} {cursor : Nat}
    (done : atm_dict_rehash_finish d act bak cursor = .ok d')
    (room : act.size + bak.size + (act.bktab_size - cursor) < bak.bktab_size ∨ (act.size = 0 ∧ bak.size < bak.bktab_size)) :
    Paced 0 d' ∧ (d'.ht_backup = none → d'.ht_active.size < d'.ht_active.bktab_size) := by
  unfold atm_dict_rehash_finish at done
  split at done
  · split at done
    · cases done
    · split at done
      · cases done
      · obtain ⟨record,_,same⟩ := bind_eq_ok.mp done
        cases same
        refine ⟨fun _ other => (by cases other),fun _ => ?_⟩
        show bak.size < bak.bktab_size
        omega
  · cases done
    refine ⟨?_,fun other => (by cases other)⟩
    rintro _ ⟨⟩
    show act.size + bak.size + (act.bktab_size - cursor) < bak.bktab_size + 0
    omega

/-- A rehash restores the pace, and the table of a migration that ends has room. -/
theorem rehash_paced {d d' : Dictionary K V} (ok : DictOk T 1 d) (fits : GrowthFits d) (paced : Paced 1 d)
    (done : atm_dict_rehash T d = .ok d') :
    Paced 0 d' ∧ (atm_dict_rehash_needed d = true → d'.ht_backup = none →
      d'.ht_active.size < d'.ht_active.bktab_size) := by
  cases needed : atm_dict_rehash_needed d with
  | false =>
    cases rehash_idle needed done
    refine ⟨fun bak two => ?_,fun yes => absurd yes Bool.false_ne_true⟩
    simp [atm_dict_rehash_needed,two] at needed
  | true =>
    obtain ⟨bak,made,target,counted,inside,_,_⟩ := backup_ok ok fits needed
    have room := backup_room ok.active.table.positive paced (fun one => by have := fits one needed; omega) needed made
    have whole : atm_dict_rehash T d =
        atm_dict_rehash_loop T rehash_loop_time d.ht_active bak d.rehash_index >>= fun r =>
          atm_dict_rehash_finish d r.1 r.2.1 r.2.2 := by
      simp [atm_dict_rehash,needed,made,inside]
    rw [done] at whole
    rcases rehash_loop_cases ok.active inside target counted with
      ⟨_,empty,loop⟩ | ⟨_,_,text,loop⟩ | ⟨_,bak',loop,target',_,slots,perm⟩
    · rw [loop,ok_bind] at whole
      have finished : atm_dict_rehash_finish d d.ht_active bak d.rehash_index = .ok d' := whole.symm
      obtain ⟨paced',roomy⟩ := finish_paced finished (.inr ⟨empty,by omega⟩)
      exact ⟨paced',fun _ => roomy⟩
    · rw [loop,error_bind] at whole
      cases whole
    · rw [loop,ok_bind] at whole
      have finished : atm_dict_rehash_finish d (d.ht_active.passed d.rehash_index) bak' (d.rehash_index + 1) = .ok d' :=
        whole.symm
      obtain ⟨active',same,_⟩ := passed_ok ok.active inside
      have total := perm.length_eq
      simp only [List.length_append,← active'.table.counted,← target'.counted,← ok.active.table.counted,
        ← target.counted] at total
      obtain ⟨paced',roomy⟩ := finish_paced finished (.inl (by omega))
      exact ⟨paced',fun _ => roomy⟩

/-- A call that migrates to a table of at most `2^28` slots started with at most `2^27` entries. -/
theorem fits_of_tables {d d₁ d' : Dictionary K V} {op : Op K V} (refl : ∀ k, T.match_key k k = true) (ok : DictOk T 0 d)
    (within : TablesWithin d) (first : before_rehash T d op = .ok d₁)
    (second : atm_dict_rehash T d₁ = .ok d') (within' : TablesWithin d') : GrowthFits d₁ := by
  intro one needed
  have ok₁ := before_rehash_kept refl ok op first
  obtain ⟨d₂,same,_,shape⟩ := before_rehash_ok refl ok op
  rw [first] at same
  cases same
  have slots := shape.slots
  obtain ⟨_,small⟩ := ok₁.single one
  simp only [force_resize_ratio] at small
  have bound := within.1
  obtain ⟨bak,act',bak',i',made,_,moved,finished⟩ := rehash_moves needed second
  simp only [atm_dict_rehash_backup,one] at made
  split at made
  · cases made
  · obtain ⟨bsz,found,same⟩ := bind_eq_ok.mp made
    cases same
    obtain ⟨j,_,_,rfl,enough⟩ := next_power_eq_ok found
    rw [u32_of_lt (by omega)] at enough
    have kept : bak'.bktab_size = 2^j := by
      rcases rehash_loop_returns moved with ⟨_,rfl,_⟩ | ⟨s,_,_,pushed,_,_⟩
      · rfl
      · exact (push_all_size pushed).1
    have limit : bak'.bktab_size ≤ 2^28 := by
      rcases rehash_finish_returns finished with ⟨_,record,_,rfl⟩ | rfl
      · exact within'.1
      · exact within'.2 _ rfl
    omega

/-! ### Runs -/

theorem new_paced (free_type : FreeType) : Paced 0 (atm_dict_new free_type : Dictionary K V) :=
  fun _ other => (by cases other)

/-- A run that returns, with tables of at most `2^28` slots throughout, starts no larger migration. -/
theorem fits_of_within (refl : ∀ k, T.match_key k k = true) {free_type : FreeType} {ops : List (Op K V)}
    {d : Dictionary K V} (ran : run (step T) (atm_dict_new free_type) ops = .ok d)
    (within : Always (step T) (atm_dict_new free_type) ops (fun _ d => TablesWithin d)) :
    EachStep (step T) (atm_dict_new free_type) ops (Fits T) := by
  refine eachStep_of_invariant
    (P := fun pre d => run (step T) (atm_dict_new free_type) pre = .ok d ∧ DictOk T 0 d) ⟨rfl,(new_ok free_type).1⟩ ?_ ?_
  · rintro pre op t inside ⟨before,ok⟩ mutates d₁ first
    obtain ⟨u,after⟩ := run_shorten _ ran inside
    obtain ⟨t',before',done⟩ := (run_snoc_ok _).mp after
    rw [before] at before'
    cases before'
    obtain ⟨d₂,same,second⟩ := (step_mutates mutates).mp done
    rw [first] at same
    cases same
    exact fits_of_tables refl ok (within pre t ((List.prefix_append pre [op]).trans inside) before) first second
      (within _ u inside after)
  · rintro pre op t u ⟨before,ok⟩ fits done
    exact ⟨(run_snoc_ok _).mpr ⟨t,before,done⟩,step_ok refl ok fits done⟩

/-- The other way round, runs that start no larger migration have no larger table. -/
theorem within_of_fits (refl : ∀ k, T.match_key k k = true) {free_type : FreeType} {ops : List (Op K V)}
    (fits : EachStep (step T) (atm_dict_new free_type) ops (Fits T)) :
    Always (step T) (atm_dict_new free_type) ops (fun _ d => TablesWithin d) := by
  intro pre t isPre before
  have ok : DictOk T 0 t := run_invariant (P := fun _ t => DictOk T 0 t) (new_ok free_type).1
    (fun _ op t u ok fit done => step_ok refl ok fit done) (eachStep_shorten fits isPre) before
  have limit : ∀ {t : Table K V}, TableOk T t → t.bktab_size ≤ 2^28 := by
    intro t table
    obtain ⟨j,_,high,same⟩ := table.power
    rw [same]
    exact Nat.pow_le_pow_right (by omega) high
  exact ⟨limit ok.active.table,fun bak two => limit (ok.double bak two).target⟩

/-- What every call that returns keeps. -/
theorem step_paced (refl : ∀ k, T.match_key k k = true) {d d' : Dictionary K V} {op : Op K V} (ok : DictOk T 0 d)
    (fits : Fits T d op) (paced : Paced 0 d) (done : step T d op = .ok d') : Paced 0 d' := by
  by_cases mutates : op.mutates = true
  · obtain ⟨d₁,first,second⟩ := (step_mutates mutates).mp done
    exact (rehash_paced (before_rehash_kept refl ok op first) (fits mutates d₁ first)
      (before_rehash_paced paced first) second).1
  · obtain ⟨d₂,same,active,backup,cursor⟩ := step_idle (T := T) (d := d) mutates
    rw [done] at same
    cases same
    intro bak two
    rw [active,cursor]
    exact paced bak (backup ▸ two)

theorem keeps_pace {d : Dictionary K V} (ok : DictOk T 0 d) (paced : Paced 0 d) : KeepsPace d := by
  refine ⟨fun two => ?_,fun bak two => le_of_lt (paced bak two),fun bak two resize => ?_⟩
  · obtain ⟨bak,some⟩ := Option.ne_none_iff_exists'.mp two
    exact (ok.double bak some).inside
  · have ahead := paced bak two
    refine not_needed_of_room rfl ?_
    simp only [atm_dict_size,two]
    omega

/-- In every run that returns with tables of at most `2^28` slots, every migration keeps pace
    with the calls, and leaves a table with room when it ends. -/
theorem migrations_keep_pace (refl : ∀ k, T.match_key k k = true) {free_type : FreeType} {ops : List (Op K V)}
    {d : Dictionary K V} (ran : run (step T) (atm_dict_new free_type) ops = .ok d)
    (within : Always (step T) (atm_dict_new free_type) ops (fun _ d => TablesWithin d)) :
    Always (step T) (atm_dict_new free_type) ops (fun _ d => KeepsPace d) ∧
      EachStep (step T) (atm_dict_new free_type) ops (EndsRoomy T) := by
  have fits := fits_of_within refl ran within
  have reach : ∀ pre t, pre <+: ops → run (step T) (atm_dict_new free_type) pre = .ok t → DictOk T 0 t ∧ Paced 0 t := by
    intro pre t isPre before
    exact run_invariant (P := fun _ t => DictOk T 0 t ∧ Paced 0 t) ⟨(new_ok free_type).1,new_paced free_type⟩
      (fun _ op t u inv fit done => ⟨step_ok refl inv.1 fit done,step_paced refl inv.1 fit inv.2 done⟩)
      (eachStep_shorten fits isPre) before
  constructor
  · intro pre t isPre before
    obtain ⟨ok,paced⟩ := reach pre t isPre before
    exact keeps_pace ok paced
  · intro pre op t inside before mutates d₁ d' first needed second one
    obtain ⟨ok,paced⟩ := reach pre t ((List.prefix_append pre [op]).trans inside) before
    have roomy := (rehash_paced (before_rehash_kept refl ok op first) (fits pre op t inside before mutates d₁ first)
      (before_rehash_paced paced first) second).2 needed one
    exact ⟨roomy,not_needed_of_room one roomy⟩

theorem migrations_keep_pace_started : ∃ d, run (step (modulo 16)) (atm_dict_new .shallow) set_again = .ok d ∧
    Always (step (modulo 16)) (atm_dict_new .shallow) set_again (fun _ d => KeepsPace d) ∧
    EachStep (step (modulo 16)) (atm_dict_new .shallow) set_again (EndsRoomy (modulo 16)) := by
  obtain ⟨d,ran⟩ := exists_ok
    (show (run (step (modulo 16)) (atm_dict_new .shallow) set_again).toBool = true by decide +kernel)
  have refl := (modulo_lawful 16).equiv.refl
  exact ⟨d,ran,migrations_keep_pace refl ran (within_of_fits refl (fits_of_short refl (by decide +kernel)))⟩

end AtmCache.Dict
