import AtmCache.DictFill
import AtmCache.DictGrowth
import AtmCache.DictPace

/-!
# Dictionaries that outgrow their blocks

A dictionary that is only set grows to a table of `2^28` slots. When that one is full the next migration gets a block
without slots, and from then on no `set` returns, nor does a `get` of a key that is not in the active table
(`set_returns_iff`, `get_returns_iff`).
-/
namespace AtmCache.Dict
open Runs
variable {K V : Type} {T : KeyType K} {d d' d₁ : Dictionary K V} {k : K} {v : V}

/-- A migration was started to a block without slots. -/
def Slotless (d : Dictionary K V) : Prop := ∃ bak, d.ht_backup = some bak ∧ bak.bktab = []

/-- Tables whose slots are all there, with room for another entry. -/
structure Roomy (T : KeyType K) (d : Dictionary K V) : Prop where
  ok : DictOk T 0 d
  paced : Paced 0 d
  room : d.ht_backup = none → d.ht_active.size < d.ht_active.bktab_size

/-- A dictionary that was only ever set, of any size. -/
structure Grown (T : KeyType K) (d : Dictionary K V) : Prop where
  filled : DictFilled d
  resize : d.enable_resize = true
  tables : Roomy T d ∨ (Slotless d ∧ TableSound T d.ht_active)

/-- The entry of this key is the one that fills a table of `2^28` slots. -/
structure Last (T : KeyType K) (d : Dictionary K V) (k : K) : Prop where
  one : d.ht_backup = none
  slots : d.ht_active.bktab_size = 2^28
  left : d.ht_active.size + 1 = 2^28
  new : atm_dict_table_contains T d.ht_active k = .ok false

/-- A `set` of this key has slots to write to, and where it fills the table of `2^28` slots, slot 0 stays empty. -/
def Storable (T : KeyType K) (d : Dictionary K V) (k : K) : Prop :=
  ¬ Slotless d ∧ (Last T d k → d.ht_active.bktab[0]? = some .null ∧ atm_dict_hkey T d.ht_active k ≠ 0)

/-- A `get` of this key does not come to a backup without slots. -/
def Readable (T : KeyType K) (d : Dictionary K V) (k : K) : Prop :=
  Slotless d → atm_dict_table_contains T d.ht_active k = .ok true

theorem new_grown (free_type : FreeType) : Grown T (atm_dict_new free_type : Dictionary K V) :=
  ⟨new_filled free_type,rfl,.inl ⟨(new_ok free_type).1,new_paced free_type,fun _ => Nat.zero_lt_succ 255⟩⟩

/-! ### Without slots -/

theorem short_entry {t : Table K V} (short : t.bktab = []) (k : K) : atm_dict_entry T t k = .error .outOfBounds := by
  simp [atm_dict_entry,atm_dict_bucket,Table.slot,short]

theorem slotless_set (slotless : Slotless d) (k : K) (v : V) : atm_dict_set_table T d k v = .error .outOfBounds := by
  obtain ⟨bak,two,short⟩ := slotless
  simp only [atm_dict_set_table,two,atm_dict_table_set,short_entry short,error_bind]

theorem roomy_not_slotless (roomy : Roomy T d) : ¬ Slotless d := by
  rintro ⟨bak,two,short⟩
  have target := (roomy.ok.double bak two).target
  have sized := target.sized
  have positive := target.positive
  rw [short,List.length_nil] at sized
  omega

/-! ### The start of a migration -/

theorem set_table_active (one : d.ht_backup = none) (done : atm_dict_set_table T d k v = .ok d₁) :
    d₁.ht_backup = none ∧ d₁.ht_active.bktab_size = d.ht_active.bktab_size ∧ d₁.ht_active.size ≤ d.ht_active.size + 1 := by
  simp only [atm_dict_set_table,one] at done
  obtain ⟨t,wrote,same⟩ := bind_eq_ok.mp done
  cases same
  obtain ⟨slots,size⟩ := table_set_size wrote
  exact ⟨rfl,slots,size⟩

theorem set_table_one (roomy : Roomy T d) (done : atm_dict_set_table T d k v = .ok d₁) (one : d₁.ht_backup = none) :
    d.ht_backup = none := by
  obtain ⟨d₂,again,_,shape,_⟩ := set_table_ok roomy.ok k v
  rw [done] at again
  cases again
  have same := shape.backup
  rw [one] at same
  exact Option.isNone_iff_eq_none.mp (by simpa using same.symm)

/-- After a `set` the active table is full at most. -/
theorem set_table_full (roomy : Roomy T d) (done : atm_dict_set_table T d k v = .ok d₁) (one : d₁.ht_backup = none) :
    d₁.ht_active.size ≤ d₁.ht_active.bktab_size ∧ d₁.ht_active.bktab_size ≤ 2^28 := by
  have single := set_table_one roomy done one
  obtain ⟨_,slots,size⟩ := set_table_active single done
  obtain ⟨j,_,high,power⟩ := roomy.ok.active.table.power
  have bound : 2^j ≤ 2^28 := Nat.pow_le_pow_right (by omega) high
  have room := roomy.room single
  omega

theorem rehash_resize {d d' : Dictionary K V} (done : atm_dict_rehash T d = .ok d') : d'.enable_resize = d.enable_resize := by
  rcases rehash_returns done with rfl | ⟨_,_,_,_,_,_,_,finished⟩
  · rfl
  · rcases rehash_finish_returns finished with ⟨_,_,_,rfl⟩ | rfl
    · rfl
    · rfl

theorem set_table_resize (done : atm_dict_set_table T d k v = .ok d₁) : d₁.enable_resize = d.enable_resize := by
  unfold atm_dict_set_table at done
  split at done
  · obtain ⟨_,_,same⟩ := bind_eq_ok.mp done
    cases same
    rfl
  · obtain ⟨_,_,same⟩ := bind_eq_ok.mp done
    cases same
    rfl

/-- An old key leaves the number of entries, and a new one adds an entry to the bucket of its slot. -/
theorem set_table_new (roomy : Roomy T d) (one : d.ht_backup = none) (done : atm_dict_set_table T d k v = .ok d₁) :
    (atm_dict_table_contains T d.ht_active k = .ok true ∧ d₁.ht_active.size = d.ht_active.size) ∨
    (atm_dict_table_contains T d.ht_active k = .ok false ∧ d₁.ht_active.size = d.ht_active.size + 1 ∧
      ∃ l, d₁.ht_active.bktab = d.ht_active.bktab.set (atm_dict_hkey T d.ht_active k) (.bucket l)) := by
  have entry := roomy.ok.active.table.sound.entry k
  simp only [atm_dict_set_table,one] at done
  obtain ⟨t,wrote,same⟩ := bind_eq_ok.mp done
  cases same
  rcases table_set_returns wrote with ⟨l,e,slot,first,rfl⟩ | ⟨absent,pushed⟩
  · have chain : d.ht_active.chain T k = l := by rw [Table.chain,slot]; rfl
    exact .inl ⟨by rw [atm_dict_table_contains,entry,ok_bind,chain,first]; rfl,rfl⟩
  · obtain ⟨s,_,_,rfl⟩ := push_entry_returns pushed
    exact .inr ⟨by rw [atm_dict_table_contains,entry,ok_bind,absent]; rfl,rfl,_,rfl⟩

/-- The migration that gets a short block is the one of the full table of `2^28` slots. -/
theorem starts_short_iff (roomy : Roomy T d) (resize : d.enable_resize = true) (done : atm_dict_set_table T d k v = .ok d₁) :
    StartsShort d₁ ↔ Last T d k := by
  obtain ⟨j,_,high,power⟩ := roomy.ok.active.table.power
  have resized := (set_table_resize done).trans resize
  constructor
  · rintro ⟨one₁,needed,large⟩
    have one := set_table_one roomy done one₁
    obtain ⟨_,slots,_⟩ := set_table_active one done
    obtain ⟨most,bound⟩ := set_table_full roomy done one₁
    have room := roomy.room one
    rw [u32_of_lt (by omega)] at large
    have full : d₁.ht_active.bktab_size ≤ d₁.ht_active.size := by
      simp only [atm_dict_rehash_needed,one₁,resized] at needed
      simpa using needed
    have highest : 2^27 < 2^j := by omega
    obtain rfl : j = 28 := by
      have := (Nat.pow_lt_pow_iff_right (by decide)).mp highest
      omega
    rcases set_table_new roomy one done with ⟨_,size⟩ | ⟨new,size,_⟩
    · omega
    · exact ⟨one,power,by omega,new⟩
  · rintro ⟨one,slots,left,new⟩
    obtain ⟨one₁,same,_⟩ := set_table_active one done
    rcases set_table_new roomy one done with ⟨old,_⟩ | ⟨_,size,_⟩
    · rw [new] at old
      cases old
    · have grown : d₁.ht_active.size = 2^28 := size.trans left
      refine ⟨one₁,?_,by rw [grown]; decide⟩
      simp only [atm_dict_rehash_needed,one₁,resized]
      simp [same,slots,grown]

/-- Slot 0 of the table that was filled. -/
theorem last_slot (roomy : Roomy T d) (last : Last T d k) (done : atm_dict_set_table T d k v = .ok d₁) :
    d₁.ht_active.bktab[0]? = some .null ↔ d.ht_active.bktab[0]? = some .null ∧ atm_dict_hkey T d.ht_active k ≠ 0 := by
  rcases set_table_new roomy last.one done with ⟨old,_⟩ | ⟨_,_,l,slots⟩
  · rw [last.new] at old
    cases old
  · rw [slots,List.getElem?_set]
    by_cases here : atm_dict_hkey T d.ht_active k = 0
    · rw [if_pos here]
      constructor
      · intro null
        split at null <;> cases null
      · exact fun both => absurd here both.2
    · rw [if_neg here]
      exact ⟨fun null => ⟨null,here⟩,fun both => both.1⟩

/-- A migration that does not get a short block fits one. -/
theorem fits_of_not_short
    (full : d₁.ht_backup = none → d₁.ht_active.size ≤ d₁.ht_active.bktab_size ∧ d₁.ht_active.bktab_size ≤ 2^28)
    (long : ¬ StartsShort d₁) : GrowthFits d₁ := by
  intro one needed
  obtain ⟨most,slots⟩ := full one
  by_contra large
  exact long ⟨one,needed,by rw [u32_of_lt (by omega)]; omega⟩

/-- The first round of a migration to a block without slots goes through where slot 0 is NULL. -/
theorem short_loop {act bak : Table K V} (active : ActiveOk T act 0) (filled : Filled act 0) (full : act.size ≠ 0)
    (short : bak.bktab = []) {r : Table K V × Table K V × Nat} :
    atm_dict_rehash_loop T rehash_loop_time act bak 0 = .ok r ↔ act.bktab[0]? = some .null ∧ r = (act,bak,1) := by
  have positive := active.table.positive
  have used : act.bktab_used ≠ 0 := fun none => full (active.size_of_used none)
  have inside : 0 < act.bktab.length := by rw [active.table.sized]; exact positive
  rw [rehash_loop_time,atm_dict_rehash_loop,if_neg (by omega),if_neg used,if_neg full,Table.slot]
  obtain ⟨s,found⟩ : ∃ s, act.bktab[0]? = some s := ⟨_,List.getElem?_eq_getElem inside⟩
  rw [found]
  cases s with
  | null =>
    refine ⟨fun done => ⟨rfl,(Except.ok.inj done).symm⟩,?_⟩
    rintro ⟨_,rfl⟩
    rfl
  | freed => exact absurd (List.mem_of_getElem? found) active.table.live
  | bucket l =>
    constructor
    · intro done
      obtain ⟨_,read,rest⟩ := bind_eq_ok.mp done
      cases read
      obtain ⟨bak',pushed,_⟩ := bind_eq_ok.mp rest
      exact absurd (push_all_short short pushed).1 (filled 0 l (by omega) found)
    · rintro ⟨null,_⟩
      cases null

/-- A migration that gets a short block starts where slot 0 is NULL. -/
theorem short_rehash (ok : DictOk T 1 d₁) (filled : Filled d₁.ht_active 0) (full : d₁.ht_active.size ≤ 2^28)
    (short : StartsShort d₁) : (∃ d', atm_dict_rehash T d₁ = .ok d') ↔ d₁.ht_active.bktab[0]? = some .null := by
  obtain ⟨one,needed,large⟩ := short
  rw [u32_of_lt (by omega)] at large
  have start := (ok.single one).1
  have positive := ok.active.table.positive
  obtain ⟨bak,made,_,block⟩ := grows_short ⟨needed,one,start⟩ (by omega) (by omega)
  have active : ActiveOk T d₁.ht_active 0 := start ▸ ok.active
  have whole : atm_dict_rehash T d₁ = atm_dict_rehash_loop T rehash_loop_time d₁.ht_active bak 0 >>= fun r =>
      atm_dict_rehash_finish d₁ r.1 r.2.1 r.2.2 := by
    simp [atm_dict_rehash,needed,made,start,positive]
  have loop := @short_loop K V T _ bak active filled (by omega) block
  rw [whole]
  constructor
  · rintro ⟨d',done⟩
    obtain ⟨r,moved,_⟩ := bind_eq_ok.mp done
    exact (loop.mp moved).1
  · intro null
    have left : d₁.ht_active.size ≠ 0 := by omega
    rw [loop.mpr ⟨null,rfl⟩,ok_bind,atm_dict_rehash_finish]
    exact ⟨_,if_neg left⟩

/-! ### Every call -/

/-- A `set` returns exactly when it has slots to write to and starts no migration that fails at once. -/
theorem set_returns_iff (grown : Grown T d) (k : K) (v : V) : (∃ d', atm_dict_set T d k v = .ok d') ↔ Storable T d k := by
  rcases grown.tables with roomy | ⟨slotless,_⟩
  · obtain ⟨d₁,first,ok₁,_⟩ := set_table_ok roomy.ok k v
    have filled := (set_table_filled grown.filled first).active
    have full := set_table_full roomy first
    have begins := starts_short_iff roomy grown.resize first
    rw [atm_dict_set,first,ok_bind]
    by_cases short : StartsShort d₁
    · have last := begins.mp short
      obtain ⟨most,slots⟩ := full short.1
      rw [(ok₁.single short.1).1] at filled
      rw [short_rehash ok₁ filled (by omega) short,last_slot roomy last first]
      exact ⟨fun null => ⟨roomy_not_slotless roomy,fun _ => null⟩,fun storable => storable.2 last⟩
    · have clear := filled_not_stranded filled ok₁.active.table.live
      refine iff_of_true ?_ ⟨roomy_not_slotless roomy,fun last => absurd (begins.mpr last) short⟩
      rcases rehash_cases ok₁ (fits_of_not_short full short) with ⟨_,done,_⟩ | ⟨_,stranded,_⟩ | ⟨_,_,d',done,_⟩
      · exact ⟨d₁,done⟩
      · exact absurd stranded clear
      · exact ⟨d',done⟩
  · rw [atm_dict_set,slotless_set slotless]
    constructor
    · rintro ⟨_,done⟩
      cases done
    · rintro ⟨slots,_⟩
      exact absurd slotless slots

/-- A `get` returns exactly when it does not come to a backup without slots. -/
theorem get_returns_iff (grown : Grown T d) (k : K) : (∃ r, atm_dict_get T d k = .ok r) ↔ Readable T d k := by
  rcases grown.tables with roomy | ⟨slotless,active⟩
  · exact ⟨fun _ slotless => absurd slotless (roomy_not_slotless roomy),fun _ => get_total roomy.ok k⟩
  · obtain ⟨bak,two,short⟩ := slotless
    simp only [atm_dict_get,Readable,atm_dict_table_get,atm_dict_table_contains,active.entry,two,ok_bind,pure_eq_ok]
    cases (d.ht_active.chain T k).find? (fun e => T.match_key e.key k) with
    | some e => exact ⟨fun _ _ => rfl,fun _ => ⟨some e.val,rfl⟩⟩
    | none =>
      constructor
      · rintro ⟨_,done⟩
        obtain ⟨e,read,_⟩ := bind_eq_ok.mp done
        rw [short_entry short] at read
        cases read
      · intro held
        cases held ⟨bak,two,short⟩

/-- A `set` that returns, also one that starts a migration to a block without slots. -/
theorem set_grown (grown : Grown T d) (done : atm_dict_set T d k v = .ok d') : Grown T d' := by
  obtain ⟨d₁,first,second⟩ := bind_eq_ok.mp done
  have resize := (set_table_resize first).trans grown.resize
  refine ⟨rehash_filled (set_table_filled grown.filled first) second,(rehash_resize second).trans resize,?_⟩
  rcases grown.tables with roomy | ⟨slotless,_⟩
  · obtain ⟨d₂,again,ok₁,_⟩ := set_table_ok roomy.ok k v
    rw [first] at again
    cases again
    by_cases short : StartsShort d₁
    · obtain ⟨active,_,bak,two,block,_⟩ := rehash_short ok₁.sound short second
      exact .inr ⟨⟨bak,two,block⟩,active⟩
    · have fits := fits_of_not_short (set_table_full roomy first) short
      have paced : Paced 1 d₁ := @before_rehash_paced _ _ _ _ _ (.set k v) roomy.paced first
      obtain ⟨paced',ends⟩ := rehash_paced ok₁ fits paced second
      refine .inl ⟨(rehash_keeps ok₁ fits second).1,paced',fun one => ?_⟩
      cases needed : atm_dict_rehash_needed d₁ with
      | true => exact ends needed one
      | false =>
        cases rehash_idle needed second
        simp only [atm_dict_rehash_needed,one,resize] at needed
        simpa using needed
  · rw [slotless_set slotless] at first
    cases first

end AtmCache.Dict
