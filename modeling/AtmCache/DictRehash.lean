import AtmCache.DictTables
import Mathlib.Tactic.Linarith

/-!
# One call of `atm_dict_rehash`

`DictOk` is the invariant of a dictionary between two calls. With a `slack` of
one it is what `atm_dict_set` and `atm_dict_del` leave for `atm_dict_rehash`,
which restores it (`rehash_cases`). While a migration goes on, the two tables
together with the slots the cursor has still to pass fit the backup (`pace`).
-/
namespace AtmCache.Dict
open KeyMaps Runs
variable {K V : Type}

/-- All entries of the dictionary, those of the active table first. -/
def Dictionary.entries (d : Dictionary K V) : List (Entry K V) :=
  d.ht_active.entries ++ match d.ht_backup with
    | some bak => bak.entries
    | none => []

/-- A migration from `act` to `bak` whose next slot is `cursor`. -/
structure Migrating (T : KeyType K) (slack : Nat) (act bak : Table K V) (cursor : Nat) : Prop where
  target : TableOk T bak
  counted : bak.bktab_used = bak.used_from 0
  inside : cursor < act.bktab_size
  pace : act.size + bak.size + (act.bktab_size - cursor) ≤ bak.bktab_size + slack

/-- An active table that the cursor has emptied up to its slot. -/
structure ActiveOk (T : KeyType K) (act : Table K V) (cursor : Nat) : Prop where
  table : TableOk T act
  used : act.bktab_used = act.used_from cursor
  below : ∀ i s, i < cursor → act.bktab[i]? = some s → s.entries = []

/-- The invariant of a dictionary, with room for `slack` entries too many. -/
structure DictOk (T : KeyType K) (slack : Nat) (d : Dictionary K V) : Prop where
  active : ActiveOk T d.ht_active d.rehash_index
  single : d.ht_backup = none → d.rehash_index = 0 ∧
    d.ht_active.size < force_resize_ratio * d.ht_active.bktab_size + slack
  double : ∀ bak, d.ht_backup = some bak → Migrating T slack d.ht_active bak d.rehash_index

/-- The slots other than the one at the cursor have no entry, and a bucket is left after
    the cursor, or at the cursor where that one is empty too. -/
structure Stranded (act : Table K V) (cursor : Nat) : Prop where
  bare : ∀ i s, i ≠ cursor → act.bktab[i]? = some s → s.entries = []
  left : ∃ i s, cursor ≤ i ∧ act.bktab[i]? = some s ∧ s.allocated = true ∧ (i = cursor → act.entries = [])

/-- A migration that this state starts makes a table of at most `2^28` slots. -/
def GrowthFits (d : Dictionary K V) : Prop :=
  d.ht_backup = none → atm_dict_rehash_needed d = true → d.ht_active.size ≤ 2^27

variable {T : KeyType K}

/-! ### Counting buckets and entries -/

theorem used_from_eq_zero {t : Table K V} {cursor : Nat} :
    t.used_from cursor = 0 ↔ ∀ i s, cursor ≤ i → t.bktab[i]? = some s → s.allocated = false := by
  simp only [Table.used_from,List.countP_eq_zero]
  constructor
  · intro none i s above found
    have member : s ∈ t.bktab.drop cursor := by
      rw [List.mem_iff_getElem?]
      exact ⟨i - cursor,by rw [List.getElem?_drop]; simpa [Nat.add_sub_cancel' above] using found⟩
    simpa using none s member
  · intro none s member
    obtain ⟨i,found⟩ := List.mem_iff_getElem?.mp member
    rw [List.getElem?_drop] at found
    simp [none (cursor + i) s (by omega) found]

theorem entries_eq_nil {t : Table K V} :
    t.entries = [] ↔ ∀ (i : Nat) (s : Slot K V), t.bktab[i]? = some s → s.entries = [] := by
  simp only [Table.entries,List.flatMap_eq_nil_iff]
  constructor
  · intro all i s found
    exact all s (List.mem_of_getElem? found)
  · intro all s member
    obtain ⟨i,found⟩ := List.mem_iff_getElem?.mp member
    exact all i s found

theorem size_eq_zero {t : Table K V} (ok : TableOk T t) : t.size = 0 ↔ t.entries = [] := by
  rw [ok.counted,List.length_eq_zero_iff]

theorem entries_of_not_allocated {s : Slot K V} (none : s.allocated = false) : s.entries = [] := by
  cases s with
  | null => rfl
  | bucket l => cases none
  | freed => rfl

/-- With no bucket left to migrate the active table is empty. -/
theorem ActiveOk.size_of_used {act : Table K V} {cursor : Nat} (ok : ActiveOk T act cursor)
    (none : act.bktab_used = 0) : act.size = 0 := by
  rw [size_eq_zero ok.table,entries_eq_nil]
  intro i s found
  by_cases below : i < cursor
  · exact ok.below i s below found
  · exact entries_of_not_allocated (used_from_eq_zero.mp (ok.used.symm.trans none) i s (by omega) found)

/-! ### Tables made and freed -/

theorem table_new_sound {j : Nat} (high : j ≤ 28) :
    TableSound T (atm_dict_table_new (2^j) : Table K V) ∧ (atm_dict_table_new (2^j) : Table K V).entries = [] ∧
      (atm_dict_table_new (2^j) : Table K V).used_from 0 = 0 := by
  have fits : pointer_size * 2^j < 2^32 := by
    have : 2^j ≤ 2^28 := Nat.pow_le_pow_right (by omega) high
    simp only [pointer_size]
    omega
  have length : atm_alloc (pointer_size * 2^j) / pointer_size = 2^j := by
    rw [atm_alloc,u32_of_lt fits]
    exact Nat.mul_div_cancel_left _ (by decide)
  have slots : (atm_dict_table_new (2^j) : Table K V).bktab = List.replicate (2^j) .null := by
    simp only [atm_dict_table_new,length]
  have null : ∀ (i : Nat) (s : Slot K V), (atm_dict_table_new (2^j) : Table K V).bktab[i]? = some s → s = .null := by
    intro i s found
    rw [slots,List.getElem?_replicate] at found
    split at found
    · exact (Option.some.inj found).symm
    · cases found
  have empty : (atm_dict_table_new (2^j) : Table K V).entries = [] := by
    rw [entries_eq_nil]
    intro i s found
    rw [null i s found]
    rfl
  refine ⟨⟨by rw [slots]; simp [atm_dict_table_new],Nat.two_pow_pos j,?_,?_,by rw [empty]; rfl⟩,empty,?_⟩
  · rw [slots]
    simp
  · intro i s found e member
    rw [null i s found] at member
    cases member
  · rw [used_from_eq_zero]
    intro i s _ found
    rw [null i s found]
    rfl

theorem table_new_ok {j : Nat} (low : 8 ≤ j) (high : j ≤ 28) :
    TableOk T (atm_dict_table_new (2^j) : Table K V) ∧ (atm_dict_table_new (2^j) : Table K V).entries = [] ∧
      (atm_dict_table_new (2^j) : Table K V).used_from 0 = 0 := by
  obtain ⟨sound,empty,unused⟩ := table_new_sound (T := T) (K := K) (V := V) high
  exact ⟨⟨sound.sized,⟨j,low,high,rfl⟩,sound.live,sound.placed,sound.counted⟩,empty,unused⟩

/-- The buckets of a table, in the order of the slots. -/
def buckets : List (Slot K V) → List (Freed K V)
  | [] => []
  | .bucket l :: rest => .bucket l :: buckets rest
  | .null :: rest => buckets rest
  | .freed :: rest => buckets rest

/-- What a clear does to one slot: the bucket is freed, the pointer stays. -/
def Slot.cleared : Slot K V → Slot K V
  | .bucket _ => .freed
  | .null => .null
  | .freed => .freed

theorem clear_loop_ok {slots : List (Slot K V)} (live : Slot.freed ∉ slots) :
    atm_dict_table_clear_loop slots.length slots = .ok (slots.map Slot.cleared,buckets slots) := by
  induction slots with
  | nil => rfl
  | cons s rest ih =>
    have later := ih (fun member => live (List.mem_cons_of_mem _ member))
    cases s with
    | null => simp [atm_dict_table_clear_loop,later,Slot.cleared,buckets]
    | bucket l => simp [atm_dict_table_clear_loop,later,Slot.cleared,buckets]
    | freed => exact absurd List.mem_cons_self live

theorem table_free_ok {t : Table K V} (ok : TableOk T t) : atm_dict_table_free t = .ok (buckets t.bktab) := by
  have loop := clear_loop_ok ok.live
  rw [ok.sized] at loop
  simp [atm_dict_table_free,atm_dict_table_clear,loop]

/-! ### The migration of one bucket -/

theorem push_all_ok {bak : Table K V} (ok : TableOk T bak) (counted : bak.bktab_used = bak.used_from 0)
    (l : List (Entry K V)) :
    ∃ bak', l.foldlM (atm_dict_table_push_entry T) bak = .ok bak' ∧ TableOk T bak' ∧
      bak'.bktab_used = bak'.used_from 0 ∧ bak'.bktab_size = bak.bktab_size ∧
      bak'.entries.Perm (l ++ bak.entries) := by
  induction l generalizing bak with
  | nil => exact ⟨bak,rfl,ok,counted,rfl,List.Perm.refl _⟩
  | cons e rest ih =>
    obtain ⟨next,pushed,okNext,perm,size,used⟩ := push_entry_ok ok e
    obtain ⟨bak',all,ok',counted',size',perm'⟩ := ih okNext (by omega)
    refine ⟨bak',by simp [List.foldlM_cons,pushed,all],ok',counted',size'.trans size,perm'.trans ?_⟩
    exact (perm.append_left rest).trans (List.perm_middle.trans (by simp))

/-- The active table after its cursor passed the slot that it points to. -/
def Table.passed (act : Table K V) (cursor : Nat) : Table K V :=
  match act.bktab[cursor]? with
  | some (.bucket l) => act.put cursor [] (act.bktab_used - 1) (act.size - l.length)
  | _ => act

theorem passed_ok {act : Table K V} {cursor : Nat} (ok : ActiveOk T act cursor) (inside : cursor < act.bktab_size) :
    ActiveOk T (act.passed cursor) (cursor + 1) ∧ (act.passed cursor).bktab_size = act.bktab_size ∧
      ∃ l, (l ++ (act.passed cursor).entries).Perm act.entries ∧ (act.passed cursor).size + l.length = act.size ∧
        (act.bktab[cursor]? = some .null ∧ l = [] ∨ act.bktab[cursor]? = some (.bucket l)) := by
  obtain ⟨s,found,alive⟩ := ok.table.sound.slot_at inside
  have tail : act.used_from cursor = act.used_from (cursor+1) + if s.allocated then 1 else 0 := by
    obtain ⟨within,same⟩ := List.getElem?_eq_some_iff.mp found
    rw [Table.used_from,Table.used_from,List.drop_eq_getElem_cons within,List.countP_cons,same]
  cases s with
  | freed => exact absurd rfl alive
  | null =>
    have same : act.passed cursor = act := by simp only [Table.passed,found]
    rw [same]
    refine ⟨⟨ok.table,?_,?_⟩,rfl,[],List.Perm.refl _,rfl,.inl ⟨found,rfl⟩⟩
    · have := ok.used
      simp only [Slot.allocated,Bool.false_eq_true,↓reduceIte] at tail
      omega
    · intro i s before slot
      rcases Nat.lt_succ_iff_lt_or_eq.mp before with less | rfl
      · exact ok.below i s less slot
      · rw [found] at slot
        cases slot
        rfl
  | bucket l =>
    have moved := put_perm found [] (act.bktab_used - 1) (act.size - l.length)
    have same : act.passed cursor = act.put cursor [] (act.bktab_used - 1) (act.size - l.length) := by
      simp only [Table.passed,found]
    have enough : l.length ≤ act.size := by
      have lengths := moved.length_eq
      simp only [Slot.entries,List.length_append,List.nil_append,← ok.table.counted] at lengths
      omega
    rw [same]
    refine ⟨⟨replaced ok.table found (by simp) (by simp [Slot.entries]; omega),?_,?_⟩,rfl,l,
      by simpa [Slot.entries] using moved,by simp [Table.put]; omega,.inr found⟩
    · have changed : (act.put cursor [] (act.bktab_used - 1) (act.size - l.length)).used_from (cursor+1) =
          act.used_from (cursor+1) := by
        rw [Table.used_from,Table.used_from,Table.put,List.drop_set_of_lt (by omega)]
      have := ok.used
      simp only [Slot.allocated,↓reduceIte] at tail
      simp only [changed]
      simp only [Table.put]
      omega
    · intro i s before slot
      simp only [Table.put] at slot
      rw [List.getElem?_set] at slot
      split at slot
      · split at slot
        · cases slot; rfl
        · cases slot
      · exact ok.below i s (by omega) slot

/-- One round of the migration loop: it stops at an empty table, leaves the program when
    only empty buckets are left, and moves the slot at the cursor otherwise. -/
theorem rehash_loop_cases {act bak : Table K V} {cursor : Nat} (ok : ActiveOk T act cursor)
    (inside : cursor < act.bktab_size) (target : TableOk T bak) (counted : bak.bktab_used = bak.used_from 0) :
    (act.bktab_used = 0 ∧ act.size = 0 ∧
      atm_dict_rehash_loop T rehash_loop_time act bak cursor = .ok (act,bak,cursor)) ∨
    (act.bktab_used ≠ 0 ∧ act.size = 0 ∧ ∃ text,
      atm_dict_rehash_loop T rehash_loop_time act bak cursor = .error (.exit text)) ∨
    (act.size ≠ 0 ∧ ∃ bak', atm_dict_rehash_loop T rehash_loop_time act bak cursor =
        .ok (act.passed cursor,bak',cursor + 1) ∧ TableOk T bak' ∧ bak'.bktab_used = bak'.used_from 0 ∧
      bak'.bktab_size = bak.bktab_size ∧ ((act.passed cursor).entries ++ bak'.entries).Perm (act.entries ++ bak.entries)) := by
  have notEnd : cursor ≠ act.bktab_size := by omega
  have positive := ok.table.positive
  rw [rehash_loop_time,atm_dict_rehash_loop,if_neg notEnd]
  by_cases none : act.bktab_used = 0
  · have empty := ok.size_of_used none
    exact .inl ⟨none,empty,by rw [if_pos none,if_neg (by simp [empty])]⟩
  · rw [if_neg none]
    by_cases empty : act.size = 0
    · exact .inr (.inl ⟨none,empty,_,by rw [if_pos empty,if_pos (by omega)]⟩)
    · refine .inr (.inr ⟨empty,?_⟩)
      rw [if_neg empty]
      obtain ⟨_,_,l,perm,_,slot⟩ := passed_ok ok inside
      rcases slot with ⟨slot,rfl⟩ | slot
      · refine ⟨bak,?_,target,counted,rfl,perm.append_right _⟩
        simp [Table.slot,slot,Slot.list,atm_dict_rehash_loop,Table.passed]
      · obtain ⟨bak',pushed,ok',counted',size',perm'⟩ := push_all_ok target counted l
        refine ⟨bak',?_,ok',counted',size',?_⟩
        · simp [Table.slot,slot,Slot.list,pushed,atm_dict_rehash_loop,Table.passed,Table.put]
        · calc ((act.passed cursor).entries ++ bak'.entries).Perm
                ((act.passed cursor).entries ++ (l ++ bak.entries)) := perm'.append_left _
            _ |>.Perm (l ++ ((act.passed cursor).entries ++ bak.entries)) := List.perm_append_comm_assoc ..
            _ |>.Perm (act.entries ++ bak.entries) := by
                rw [← List.append_assoc]
                exact perm.append_right _

/-! ### The whole call -/

/-- What a call that has work to do leaves behind: the same entries, and either no backup
    or a cursor one slot further. -/
structure Migrated (T : KeyType K) (d d' : Dictionary K V) : Prop where
  ok : DictOk T 0 d'
  entries : d'.entries.Perm d.entries
  same_type : d'.free_type = d.free_type
  same_resize : d'.enable_resize = d.enable_resize
  progress : (d'.ht_backup = none ∧ d'.rehash_index = 0 ∧ ∃ slots, d'.record = d.record ++ buckets slots) ∨
    (d'.ht_backup ≠ none ∧ d'.rehash_index = d.rehash_index + 1 ∧
      d'.ht_active.bktab_size = d.ht_active.bktab_size ∧ d'.record = d.record)

/-- The end of a call: an empty active table gives way to the backup, unless empty buckets
    are left in it. -/
theorem finish_cases {d : Dictionary K V} {act bak : Table K V} {cursor : Nat} (ok : ActiveOk T act cursor)
    (within : cursor ≤ act.bktab_size) (target : TableOk T bak) (counted : bak.bktab_used = bak.used_from 0)
    (room : act.size + bak.size ≤ bak.bktab_size) :
    (act.size = 0 ∧ act.bktab_used = 0 ∧ ∃ d', atm_dict_rehash_finish d act bak cursor = .ok d' ∧
      DictOk T 0 d' ∧ d'.entries = bak.entries ∧ d'.free_type = d.free_type ∧ d'.enable_resize = d.enable_resize ∧
      d'.ht_backup = none ∧ d'.rehash_index = 0 ∧ d'.record = d.record ++ buckets act.bktab) ∨
    (act.size = 0 ∧ act.bktab_used ≠ 0 ∧ ∃ text, atm_dict_rehash_finish d act bak cursor = .error (.exit text)) ∨
    (act.size ≠ 0 ∧ cursor < act.bktab_size ∧ atm_dict_rehash_finish d act bak cursor =
      .ok { d with ht_active := act, ht_backup := some bak, rehash_index := cursor }) := by
  rw [atm_dict_rehash_finish]
  by_cases empty : act.size = 0
  · rw [if_pos empty,if_neg (by omega)]
    by_cases spent : act.bktab_used = 0
    · refine .inl ⟨empty,spent,_,by rw [if_neg (by simpa using spent),table_free_ok ok.table,ok_bind]; rfl,?_⟩
      have positive := target.positive
      refine ⟨⟨⟨target,counted,fun i s low => by simp at low⟩,fun _ => ⟨rfl,?_⟩,fun other two => by cases two⟩,
        by simp [Dictionary.entries],rfl,rfl,rfl,rfl,rfl⟩
      simp only [force_resize_ratio]
      omega
    · exact .inr (.inl ⟨empty,spent,_,by rw [if_pos (by simpa using spent)]⟩)
  · refine .inr (.inr ⟨empty,?_,by rw [if_neg empty]⟩)
    by_contra atEnd
    apply empty
    rw [size_eq_zero ok.table,entries_eq_nil]
    intro i s found
    obtain ⟨inside,_⟩ := List.getElem?_eq_some_iff.mp found
    exact ok.below i s (by rw [ok.table.sized] at inside; omega) found

/-- The table that a call migrates to, and the slots and entries for which it has room. -/
theorem backup_ok {d : Dictionary K V} (ok : DictOk T 1 d) (fits : GrowthFits d)
    (needed : atm_dict_rehash_needed d = true) :
    ∃ bak, atm_dict_rehash_backup d = .ok bak ∧ TableOk T bak ∧ bak.bktab_used = bak.used_from 0 ∧
      d.rehash_index < d.ht_active.bktab_size ∧ d.entries = d.ht_active.entries ++ bak.entries ∧
      d.ht_active.size + bak.size + (d.ht_active.bktab_size - d.rehash_index) ≤ bak.bktab_size + 1 := by
  have positive := ok.active.table.positive
  cases two : d.ht_backup with
  | some bak =>
    obtain ⟨target,counted,inside,pace⟩ := ok.double bak two
    exact ⟨bak,by simp [atm_dict_rehash_backup,two],target,counted,inside,by simp [Dictionary.entries,two],pace⟩
  | none =>
    obtain ⟨atStart,_⟩ := ok.single two
    have small := fits two needed
    have full : d.ht_active.bktab_size ≤ d.ht_active.size := by
      simp only [atm_dict_rehash_needed,two] at needed
      split at needed
      · simpa using needed
      · have ratio : force_resize_ratio ≤ d.ht_active.size / d.ht_active.bktab_size := by simpa using needed
        have := (Nat.le_div_iff_mul_le positive).mp ratio
        simp only [force_resize_ratio] at this
        omega
    have large : 256 ≤ d.ht_active.bktab_size := by
      obtain ⟨j,low,_,same⟩ := ok.active.table.power
      rw [same]
      exact Nat.pow_le_pow_right (n := 2) (by omega) low
    obtain ⟨j,_,_,power,enough,least⟩ := next_power_ok (show d.ht_active.size * 2 ≤ 2^31 by omega)
    have low : 8 ≤ j := by
      by_contra less
      have : 2^j ≤ 2^8 := Nat.pow_le_pow_right (by omega) (by omega)
      omega
    have high : j ≤ 28 := least 28 (by omega) (by omega)
    obtain ⟨target,empty,unused⟩ := table_new_ok (T := T) (V := V) low high
    refine ⟨atm_dict_table_new (2^j),?_,target,by rw [unused]; rfl,by omega,by simp [Dictionary.entries,two,empty],?_⟩
    · simp [atm_dict_rehash_backup,two,atStart,u32_of_lt (show d.ht_active.size * 2 < 2^32 by omega),power]
    · simp only [atm_dict_table_new]
      omega

theorem passed_slot (act : Table K V) {cursor i : Nat} (other : i ≠ cursor) :
    (act.passed cursor).bktab[i]? = act.bktab[i]? := by
  unfold Table.passed
  split
  · unfold Table.put
    rw [List.getElem?_set_ne (Ne.symm other)]
  · rfl

/-- Before a round that has nothing to move: empty buckets are all that can be left. -/
theorem stranded_empty {act : Table K V} {cursor : Nat} (ok : ActiveOk T act cursor) (empty : act.size = 0) :
    Stranded act cursor ↔ act.bktab_used ≠ 0 := by
  have none := (size_eq_zero ok.table).mp empty
  rw [ok.used,Ne,used_from_eq_zero]
  constructor
  · rintro stranded unused
    obtain ⟨i,s,above,found,bucket,_⟩ := stranded.left
    rw [unused i s above found] at bucket
    cases bucket
  · intro used
    push Not at used
    obtain ⟨i,s,above,found,bucket⟩ := used
    exact ⟨fun j s' _ found' => entries_eq_nil.mp none j s' found',i,s,above,found,by simpa using bucket,fun _ => none⟩

/-- Before a round that moves a slot: it strands the table when it moves all that is left
    and passes over a bucket. -/
theorem stranded_passed {act : Table K V} {cursor : Nat} (ok : ActiveOk T act cursor) (inside : cursor < act.bktab_size)
    (full : act.size ≠ 0) :
    Stranded act cursor ↔ (act.passed cursor).size = 0 ∧ (act.passed cursor).bktab_used ≠ 0 := by
  obtain ⟨ok',_⟩ := passed_ok ok inside
  have some : act.entries ≠ [] := fun nil => full ((size_eq_zero ok.table).mpr nil)
  rw [size_eq_zero ok'.table,entries_eq_nil,ok'.used,Ne,used_from_eq_zero]
  constructor
  · rintro ⟨bare,i,s,above,found,bucket,atCursor⟩
    have beyond : i ≠ cursor := fun same => some (atCursor same)
    refine ⟨fun j s' found' => ?_,fun unused => ?_⟩
    · by_cases here : j = cursor
      · exact ok'.below j s' (by omega) found'
      · rw [passed_slot act here] at found'
        exact bare j s' here found'
    · have gone := unused i s (by omega) (by rw [passed_slot act beyond]; exact found)
      rw [gone] at bucket
      cases bucket
  · rintro ⟨empty,used⟩
    push Not at used
    obtain ⟨i,s,above,found,bucket⟩ := used
    have beyond : i ≠ cursor := by omega
    rw [passed_slot act beyond] at found
    refine ⟨fun j s' other found' => empty j s' (by rw [passed_slot act other]; exact found'),
      i,s,by omega,found,by simpa using bucket,fun same => absurd same beyond⟩

/-- Everything that a call of `atm_dict_rehash` does. -/
theorem rehash_cases {d : Dictionary K V} (ok : DictOk T 1 d) (fits : GrowthFits d) :
    (atm_dict_rehash_needed d = false ∧ atm_dict_rehash T d = .ok d ∧ DictOk T 0 d) ∨
    (atm_dict_rehash_needed d = true ∧ Stranded d.ht_active d.rehash_index ∧
      ∃ text, atm_dict_rehash T d = .error (.exit text)) ∨
    (atm_dict_rehash_needed d = true ∧ ¬ Stranded d.ht_active d.rehash_index ∧
      ∃ d', atm_dict_rehash T d = .ok d' ∧ Migrated T d d') := by
  cases needed : atm_dict_rehash_needed d with
  | false =>
    refine .inl ⟨rfl,by simp [atm_dict_rehash,needed],ok.active,fun one => ?_,fun bak two => ?_⟩
    · refine ⟨(ok.single one).1,?_⟩
      have positive := ok.active.table.positive
      simp only [atm_dict_rehash_needed,one] at needed
      split at needed
      · have : d.ht_active.size < d.ht_active.bktab_size := by simpa using needed
        simp only [force_resize_ratio]
        omega
      · have ratio : d.ht_active.size / d.ht_active.bktab_size < force_resize_ratio := by simpa using needed
        exact (Nat.div_lt_iff_lt_mul positive).mp ratio
    · simp [atm_dict_rehash_needed,two] at needed
  | true =>
    right
    obtain ⟨bak,made,target,counted,inside,entries,pace⟩ := backup_ok ok fits needed
    have whole : atm_dict_rehash T d =
        atm_dict_rehash_loop T rehash_loop_time d.ht_active bak d.rehash_index >>= fun r =>
          atm_dict_rehash_finish d r.1 r.2.1 r.2.2 := by
      simp [atm_dict_rehash,needed,made,inside]
    rcases rehash_loop_cases ok.active inside target counted with
      ⟨spent,empty,loop⟩ | ⟨left,empty,text,loop⟩ | ⟨full,bak',loop,target',counted',size',perm⟩
    · rw [loop,ok_bind] at whole
      -- The active table was emptied by deletions: the call only swaps the tables.
      rcases finish_cases (d := d) ok.active (by omega) target counted (by omega) with
        ⟨_,_,d',done,ok',same,type,resize,one,start,record⟩ | ⟨_,left,_⟩ | ⟨full,_⟩
      · have clear : ¬ Stranded d.ht_active d.rehash_index := by rw [stranded_empty ok.active empty]; simpa using spent
        refine .inr ⟨rfl,clear,d',whole.trans done,ok',?_,type,resize,.inl ⟨one,start,_,record⟩⟩
        rw [same,entries,(size_eq_zero ok.active.table).mp empty]
        exact List.Perm.refl _
      · exact absurd spent left
      · exact absurd empty full
    · rw [loop,error_bind] at whole
      exact .inl ⟨rfl,(stranded_empty ok.active empty).mpr left,text,whole⟩
    · rw [loop,ok_bind] at whole
      obtain ⟨active',size,l,_,total,_⟩ := passed_ok ok.active inside
      have pace' : (d.ht_active.passed d.rehash_index).size + bak'.size +
          ((d.ht_active.passed d.rehash_index).bktab_size - (d.rehash_index + 1)) ≤ bak'.bktab_size := by
        have lengths := perm.length_eq
        simp only [List.length_append,← active'.table.counted,← target'.counted,← ok.active.table.counted,
          ← target.counted] at lengths
        omega
      rcases finish_cases (d := d) active' (by omega) target' counted' (by omega) with
        ⟨empty,spent,d',done,ok',same,type,resize,one,start,record⟩ | ⟨empty,left,text,failed⟩ | ⟨full',inside',done⟩
      · have clear : ¬ Stranded d.ht_active d.rehash_index := by rw [stranded_passed ok.active inside full]; simp [spent]
        refine .inr ⟨rfl,clear,d',whole.trans done,ok',?_,type,resize,.inl ⟨one,start,_,record⟩⟩
        rw [same,entries]
        simpa [(size_eq_zero active'.table).mp empty] using perm
      · exact .inl ⟨rfl,(stranded_passed ok.active inside full).mpr ⟨empty,left⟩,text,whole.trans failed⟩
      · have clear : ¬ Stranded d.ht_active d.rehash_index := by
          rw [stranded_passed ok.active inside full]
          exact fun both => full' both.1
        have ok' : DictOk T 0 { d with
            ht_active := d.ht_active.passed d.rehash_index, ht_backup := some bak', rehash_index := d.rehash_index + 1 } := by
          refine ⟨active',fun one => (by cases one),fun other two => ?_⟩
          cases two
          exact ⟨target',counted',inside',pace'⟩
        refine .inr ⟨rfl,clear,_,whole.trans done,ok',?_,rfl,rfl,.inr ⟨by simp,rfl,size,rfl⟩⟩
        rw [entries]
        simpa [Dictionary.entries] using perm

end AtmCache.Dict
