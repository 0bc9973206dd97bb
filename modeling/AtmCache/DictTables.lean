import AtmCache.DictModel
import AtmCache.ListSets

/-!
# One table of the dictionary

What each operation on a table does to the entries it holds, and the invariant
`TableOk` that all of them keep. Every operation changes one slot, so all
the bookkeeping is done once, for a slot whose contents are replaced (`replaced`).
-/
namespace AtmCache.Dict
open KeyMaps ListSets Runs
variable {K V : Type}

/-! ### Entries and the invariant -/

def Slot.entries : Slot K V → List (Entry K V)
  | .bucket l => l
  | .null => []
  | .freed => []

/-- The slot has a bucket. -/
def Slot.allocated : Slot K V → Bool
  | .null => false
  | .bucket _ => true
  | .freed => true

/-- All entries of a table, slot by slot. -/
def Table.entries (t : Table K V) : List (Entry K V) := t.bktab.flatMap Slot.entries

/-- The entries of the slot to which a key belongs. -/
def Table.chain (T : KeyType K) (t : Table K V) (k : K) : List (Entry K V) :=
  match t.bktab[atm_dict_hkey T t k]? with
  | some s => s.entries
  | none => []

/-- The slots that `bktab_used` counts, from the one at the cursor of a migration on. -/
def Table.used_from (t : Table K V) (cursor : Nat) : Nat := (t.bktab.drop cursor).countP Slot.allocated

/-- A table whose block has the size it states, without freed buckets, with every
    entry in the slot of its hash. -/
structure TableOk (T : KeyType K) (t : Table K V) : Prop where
  sized : t.bktab.length = t.bktab_size
  power : ∃ j, 8 ≤ j ∧ j ≤ 28 ∧ t.bktab_size = 2^j
  live : Slot.freed ∉ t.bktab
  placed : ∀ i s, t.bktab[i]? = some s → ∀ e ∈ s.entries, atm_dict_hkey T t e.key = i
  counted : t.size = t.entries.length

/-- What a lookup relies on: `TableOk` without a bound on the number of slots. -/
structure TableSound (T : KeyType K) (t : Table K V) : Prop where
  sized : t.bktab.length = t.bktab_size
  positive : 0 < t.bktab_size
  live : Slot.freed ∉ t.bktab
  placed : ∀ i s, t.bktab[i]? = some s → ∀ e ∈ s.entries, atm_dict_hkey T t e.key = i
  counted : t.size = t.entries.length

variable {T : KeyType K} {t : Table K V}

theorem chain_eq {k : K} {s : Slot K V} (found : t.bktab[atm_dict_hkey T t k]? = some s) : t.chain T k = s.entries := by
  simp only [Table.chain,found]

theorem mem_entries {e : Entry K V} :
    e ∈ t.entries ↔ ∃ (i : Nat) (s : Slot K V), t.bktab[i]? = some s ∧ e ∈ s.entries := by
  simp only [Table.entries,List.mem_flatMap]
  constructor
  · rintro ⟨s,member,inside⟩
    obtain ⟨i,found⟩ := List.mem_iff_getElem?.mp member
    exact ⟨i,s,found,inside⟩
  · rintro ⟨i,s,found,inside⟩
    exact ⟨s,List.mem_of_getElem? found,inside⟩

/-! ### Lookups in one table -/

theorem TableSound.hkey_lt (sound : TableSound T t) (k : K) : atm_dict_hkey T t k < t.bktab_size :=
  Nat.mod_lt _ sound.positive

theorem TableSound.slot_at (sound : TableSound T t) {i : Nat} (inside : i < t.bktab_size) :
    ∃ s, t.bktab[i]? = some s ∧ s ≠ .freed := by
  rw [← sound.sized] at inside
  refine ⟨t.bktab[i],List.getElem?_eq_getElem inside,fun freed => sound.live ?_⟩
  rw [← freed]
  exact List.getElem_mem inside

/-- The entries of the slot of a key are the entries with its slot index. -/
theorem TableSound.mem_chain (sound : TableSound T t) {k : K} {e : Entry K V} :
    e ∈ t.chain T k ↔ e ∈ t.entries ∧ atm_dict_hkey T t e.key = atm_dict_hkey T t k := by
  obtain ⟨s,found,_⟩ := sound.slot_at (sound.hkey_lt k)
  rw [chain_eq found,mem_entries]
  constructor
  · intro member
    exact ⟨⟨_,s,found,member⟩,sound.placed _ s found e member⟩
  · rintro ⟨⟨i,s',found',member⟩,same⟩
    have place := sound.placed i s' found' e member
    rw [same] at place
    subst place
    rw [found] at found'
    cases found'
    exact member

theorem TableSound.bucket (sound : TableSound T t) (k : K) :
    (t.bktab[atm_dict_hkey T t k]? = some .null ∧ t.chain T k = [] ∧ atm_dict_bucket T t k = .ok none) ∨
    ∃ l, t.bktab[atm_dict_hkey T t k]? = some (.bucket l) ∧ t.chain T k = l ∧ atm_dict_bucket T t k = .ok (some l) := by
  obtain ⟨s,found,alive⟩ := sound.slot_at (sound.hkey_lt k)
  have chain := chain_eq found
  cases s with
  | null => exact .inl ⟨found,chain,by simp [atm_dict_bucket,Table.slot,found,Slot.list]⟩
  | bucket l => exact .inr ⟨l,found,chain,by simp [atm_dict_bucket,Table.slot,found,Slot.list]⟩
  | freed => exact absurd rfl alive

theorem TableSound.entry (sound : TableSound T t) (k : K) :
    atm_dict_entry T t k = .ok ((t.chain T k).find? (fun e => T.match_key e.key k)) := by
  rcases sound.bucket k with ⟨_,chain,read⟩ | ⟨l,_,chain,read⟩
  · simp [atm_dict_entry,read,chain]
  · simp [atm_dict_entry,read,chain]

/-- A lookup in one slot is a lookup in the whole table. -/
theorem TableSound.find_chain (lawful : T.Lawful) (sound : TableSound T t) (distinct : Distinct T.match_key t.entries)
    (k : K) : ((t.chain T k).find? (fun e => T.match_key e.key k)).map Binding.val = find T.match_key t.entries k := by
  cases inChain : (t.chain T k).find? (fun e => T.match_key e.key k) with
  | none =>
    symm
    rw [Option.map_none,find_eq_none_iff]
    intro e member
    by_contra matched
    have matched : T.match_key e.key k = true := by simpa using matched
    have place : e ∈ t.chain T k := sound.mem_chain.mpr
      ⟨member,by simp only [atm_dict_hkey,lawful.hash_eq matched]⟩
    have none := List.find?_eq_none.mp inChain e place
    simp [matched] at none
  | some e =>
    symm
    exact find_of_mem lawful.equiv distinct (sound.mem_chain.mp (List.mem_of_find?_eq_some inChain)).1
      (by simpa using List.find?_some inChain)

theorem TableSound.get (lawful : T.Lawful) (sound : TableSound T t) (distinct : Distinct T.match_key t.entries) (k : K) :
    atm_dict_table_get T t k = .ok (find T.match_key t.entries k) := by
  simp [atm_dict_table_get,sound.entry,sound.find_chain lawful distinct]

theorem TableSound.contains (lawful : T.Lawful) (sound : TableSound T t) (distinct : Distinct T.match_key t.entries)
    (k : K) : atm_dict_table_contains T t k = .ok (find T.match_key t.entries k).isSome := by
  simp [atm_dict_table_contains,sound.entry,← sound.find_chain lawful distinct]

theorem TableOk.positive (ok : TableOk T t) : 0 < t.bktab_size := by
  obtain ⟨j,_,_,same⟩ := ok.power
  rw [same]
  exact Nat.two_pow_pos j

theorem TableOk.sound (ok : TableOk T t) : TableSound T t := ⟨ok.sized,ok.positive,ok.live,ok.placed,ok.counted⟩

/-! ### A slot with its contents replaced -/

/-- The table with the slot `i` pointing to a bucket that holds `l`. -/
def Table.put (t : Table K V) (i : Nat) (l : List (Entry K V)) (used size : Nat) : Table K V :=
  { t with bktab := t.bktab.set i (.bucket l), bktab_used := used, size := size }

theorem put_perm {i : Nat} {s : Slot K V} (found : t.bktab[i]? = some s) (l : List (Entry K V)) (used size : Nat) :
    (s.entries ++ (t.put i l used size).entries).Perm (l ++ t.entries) :=
  flatMap_set_perm Slot.entries found (.bucket l)

theorem TableSound.put (sound : TableSound T t) {i : Nat} {s : Slot K V} (found : t.bktab[i]? = some s)
    {l : List (Entry K V)} (here : ∀ e ∈ l, atm_dict_hkey T t e.key = i) {used size : Nat}
    (total : size + s.entries.length = t.size + l.length) : TableSound T (t.put i l used size) := by
  refine ⟨by simpa [Table.put] using sound.sized,sound.positive,?_,?_,?_⟩
  · intro member
    rcases List.mem_or_eq_of_mem_set member with old | new
    · exact sound.live old
    · cases new
  · intro j s' found' e member
    simp only [Table.put] at found'
    rw [List.getElem?_set] at found'
    split at found'
    · rename_i same
      subst same
      split at found'
      · cases found'; exact here e member
      · cases found'
    · exact sound.placed j s' found' e member
  · have lengths := (put_perm found l used size).length_eq
    simp only [List.length_append,← sound.counted] at lengths
    have stored : (t.put i l used size).size = size := rfl
    omega

theorem replaced (ok : TableOk T t) {i : Nat} {s : Slot K V} (found : t.bktab[i]? = some s) {l : List (Entry K V)}
    (here : ∀ e ∈ l, atm_dict_hkey T t e.key = i) {used size : Nat}
    (total : size + s.entries.length = t.size + l.length) : TableOk T (t.put i l used size) := by
  have sound : TableSound T (t.put i l used size) := ok.sound.put found here total
  obtain ⟨sized,_,live,placed,counted⟩ := sound
  exact ⟨sized,ok.power,live,placed,counted⟩

theorem used_from_put {i : Nat} {s : Slot K V} (found : t.bktab[i]? = some s) (l : List (Entry K V)) (used size : Nat)
    {cursor : Nat} (above : cursor ≤ i) :
    (t.put i l used size).used_from cursor + (if s.allocated then 1 else 0) = t.used_from cursor + 1 := by
  obtain ⟨inside,_⟩ := List.getElem?_eq_some_iff.mp found
  have before : (t.bktab.take i).drop cursor ++ s :: t.bktab.drop (i+1) = t.bktab.drop cursor := by
    conv_rhs => rw [split_at found,List.drop_append_of_le_length (by simp; omega)]
  have after : (t.put i l used size).bktab.drop cursor =
      (t.bktab.take i).drop cursor ++ .bucket l :: t.bktab.drop (i+1) := by
    simp only [Table.put]
    rw [set_at found,List.drop_append_of_le_length (by simp; omega)]
  rw [Table.used_from,Table.used_from,after,← before]
  simp only [List.countP_append,List.countP_cons,Slot.allocated,↓reduceIte]
  omega

/-- Replacing the contents of a bucket changes no count of buckets. -/
theorem used_from_bucket {i : Nat} {old : List (Entry K V)} (found : t.bktab[i]? = some (.bucket old))
    (l : List (Entry K V)) (used size : Nat) (cursor : Nat) :
    (t.put i l used size).used_from cursor = t.used_from cursor := by
  by_cases above : cursor ≤ i
  · simpa [Slot.allocated] using used_from_put found l used size above
  · rw [Table.used_from,Table.used_from,Table.put,List.drop_set_of_lt (by omega)]

/-! ### Specifications of the operations -/

/-- Pushing an entry adds it, in a new bucket where the slot had none. -/
theorem push_entry_ok (ok : TableOk T t) (e : Entry K V) :
    ∃ t', atm_dict_table_push_entry T t e = .ok t' ∧ TableOk T t' ∧ t'.entries.Perm (e :: t.entries) ∧
      t'.bktab_size = t.bktab_size ∧ t'.bktab_used + t.used_from 0 = t.bktab_used + t'.used_from 0 := by
  rcases ok.sound.bucket e.key with ⟨found,_,read⟩ | ⟨l,found,_,read⟩
  · refine ⟨t.put (atm_dict_hkey T t e.key) [e] (t.bktab_used + 1) (t.size + 1),
      by simp [atm_dict_table_push_entry,read,Table.put],replaced ok found (by simp) (by simp [Slot.entries]),
      put_perm found [e] _ _,rfl,?_⟩
    have counts := used_from_put found [e] (t.bktab_used + 1) (t.size + 1) (Nat.zero_le _)
    simp only [Slot.allocated,Bool.false_eq_true,↓reduceIte] at counts
    simp only [Table.put] at counts ⊢
    omega
  · refine ⟨t.put (atm_dict_hkey T t e.key) (l ++ [e]) t.bktab_used (t.size + 1),
      by simp [atm_dict_table_push_entry,read,Table.put],replaced ok found ?_ (by simp [Slot.entries]; omega),?_,rfl,?_⟩
    · intro x member
      rcases List.mem_append.mp member with old | new
      · exact ok.placed _ _ found x old
      · rw [List.mem_singleton.mp new]
    · have moved := put_perm found (l ++ [e]) t.bktab_used (t.size + 1)
      simp only [Slot.entries,List.append_assoc] at moved
      exact (List.perm_append_left_iff l).mp moved
    · rw [used_from_bucket found]
      rfl

/-- Overwriting in a bucket puts one entry in the place of another. -/
theorem overwrite_perm {i : Nat} {l : List (Entry K V)} {p : Entry K V → Bool} {e : Entry K V}
    (found : t.bktab[i]? = some (.bucket l)) (first : l.find? p = some e) (v : V) (used size : Nat) :
    ∃ rest, t.entries.Perm (e :: rest) ∧ (t.put i (setFirst p v l) used size).entries.Perm (⟨e.key,v⟩ :: rest) := by
  obtain ⟨rest,whole,changed⟩ := setFirst_perm v first
  obtain ⟨others,here⟩ : ∃ others, t.entries.Perm (l ++ others) :=
    ⟨_,by simpa [Slot.entries] using (put_perm found [] used size).symm⟩
  have moved := put_perm found (setFirst p v l) used size
  have both := (moved.trans (here.append_left _)).trans (List.perm_append_comm_assoc ..)
  exact ⟨rest ++ others,here.trans (whole.append_right others),
    ((List.perm_append_left_iff l).mp both).trans (changed.append_right others)⟩

/-- Setting a key overwrites the first entry that matches in its slot or adds an entry. -/
theorem table_set_ok (ok : TableOk T t) (k : K) (v : V) :
    ∃ t', atm_dict_table_set T t k v = .ok t' ∧ TableOk T t' ∧ t'.bktab_size = t.bktab_size ∧
      t'.bktab_used + t.used_from 0 = t.bktab_used + t'.used_from 0 ∧
      ((∃ e rest, (t.chain T k).find? (fun e => T.match_key e.key k) = some e ∧ t.entries.Perm (e :: rest) ∧
          t'.entries.Perm (⟨e.key,v⟩ :: rest)) ∨
        ((t.chain T k).find? (fun e => T.match_key e.key k) = none ∧ t'.entries.Perm (⟨k,v⟩ :: t.entries))) := by
  cases sought : (t.chain T k).find? (fun e => T.match_key e.key k) with
  | none =>
    obtain ⟨t',pushed,ok',perm,size,used⟩ := push_entry_ok ok ⟨k,v⟩
    exact ⟨t',by simp [atm_dict_table_set,ok.sound.entry,sought,pushed],ok',size,used,.inr ⟨rfl,perm⟩⟩
  | some e =>
    rcases ok.sound.bucket k with ⟨_,chain,_⟩ | ⟨l,found,chain,read⟩
    · simp [chain] at sought
    · rw [chain] at sought
      refine ⟨t.put (atm_dict_hkey T t k) (setFirst (fun e => T.match_key e.key k) v l) t.bktab_used t.size,
        by simp [atm_dict_table_set,ok.sound.entry,chain,sought,read,Table.put],?_,rfl,?_,.inl ?_⟩
      · refine replaced ok found ?_ (by simp [Slot.entries,setFirst_length])
        exact setFirst_each (Q := fun key => atm_dict_hkey T t key = atm_dict_hkey T t k) (ok.placed _ _ found) _ v
      · rw [used_from_bucket found]
        rfl
      · obtain ⟨rest,whole,changed⟩ := overwrite_perm found sought v t.bktab_used t.size
        exact ⟨e,rest,rfl,whole,changed⟩

/-- Deleting a key takes out one entry of its slot whose key matches, if there is one. -/
theorem table_del_ok (refl : ∀ k, T.match_key k k = true) (ok : TableOk T t) (free_type : FreeType) (k : K) :
    ((t.chain T k).find? (fun e => T.match_key e.key k) = none ∧ atm_dict_table_del T free_type t k = .ok (false,t,[])) ∨
    ∃ e x l, (t.chain T k).find? (fun e => T.match_key e.key k) = some e ∧ T.match_key x.key e.key = true ∧
      t.bktab[atm_dict_hkey T t k]? = some (.bucket l) ∧ l.Perm (x :: l.eraseP (fun x => T.match_key x.key e.key)) ∧
      atm_dict_table_del T free_type t k =
        .ok (true,t.put (atm_dict_hkey T t k) (l.eraseP (fun x => T.match_key x.key e.key)) t.bktab_used (t.size - 1),
          atm_dict_entry_free free_type e) := by
  cases sought : (t.chain T k).find? (fun e => T.match_key e.key k) with
  | none => exact .inl ⟨rfl,by simp [atm_dict_table_del,ok.sound.entry,sought]⟩
  | some e =>
    rcases ok.sound.bucket k with ⟨_,chain,_⟩ | ⟨l,found,chain,read⟩
    · simp [chain] at sought
    · rw [chain] at sought
      obtain ⟨x,again⟩ : ∃ x, l.find? (fun x => T.match_key x.key e.key) = some x := by
        cases second : l.find? (fun x => T.match_key x.key e.key) with
        | some x => exact ⟨x,rfl⟩
        | none =>
          have none := List.find?_eq_none.mp second e (List.mem_of_find?_eq_some sought)
          simp [refl] at none
      exact .inr ⟨e,x,l,rfl,by simpa using List.find?_some again,found,eraseP_perm again,
        by simp [atm_dict_table_del,ok.sound.entry,chain,sought,read,Table.put]⟩

end AtmCache.Dict
