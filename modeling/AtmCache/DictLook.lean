import AtmCache.DictMoves
import AtmCache.DictMap

/-!
# What a rehash shows to lookups

A rehash moves entries between tables of different sizes and may swap the tables. As long
as no two keys match, a lookup depends on the entries of both tables only, so it
answers as before (`rehash_sound`). The exception is a migration to a table of more than
`2^28` slots: the byte count of its block wraps to 0, and a lookup that comes to
that table reads outside of it.
-/
namespace AtmCache.Dict
open KeyMaps Runs
variable {K V : Type} {T : KeyType K}

/-- `d'` has the entries of `d` and gives the same answers. -/
structure Unseen (T : KeyType K) (d d' : Dictionary K V) : Prop where
  entries : d'.entries.Perm d.entries
  size : atm_dict_size d' = atm_dict_size d
  get : ∀ k, atm_dict_get T d' k = atm_dict_get T d k
  contains : ∀ k, atm_dict_contains T d' k = atm_dict_contains T d k
  distinct : Distinct T.match_key d'.entries

/-- The call starts a migration to a table whose byte count wraps. -/
def StartsShort (d : Dictionary K V) : Prop :=
  d.ht_backup = none ∧ atm_dict_rehash_needed d = true ∧ 2^28 < u32 (d.ht_active.size * 2)

/-! ### The tables after a call -/

theorem push_entry_sound {t t' : Table K V} {e : Entry K V} (sound : TableSound T t)
    (done : atm_dict_table_push_entry T t e = .ok t') : TableSound T t' := by
  obtain ⟨s,found,_,rfl⟩ := push_entry_returns done
  refine sound.put found ?_ (by rw [List.length_append,List.length_singleton]; omega)
  intro x member
  rcases List.mem_append.mp member with old | new
  · exact sound.placed _ _ found x old
  · rw [List.mem_singleton.mp new]

theorem push_all_sound {bak bak' : Table K V} {l : List (Entry K V)} (sound : TableSound T bak)
    (done : l.foldlM (atm_dict_table_push_entry T) bak = .ok bak') : TableSound T bak' :=
  run_keeps (P := fun _ t => TableSound T t) sound (fun _ _ _ _ sound push => push_entry_sound sound push) done

/-- Passing a slot takes its entries out of the active table. -/
theorem passed_sound {act : Table K V} {i : Nat} {s : Slot K V} (sound : TableSound T act)
    (found : act.bktab[i]? = some s) :
    TableSound T (act.passed i) ∧ (s.entries ++ (act.passed i).entries).Perm act.entries := by
  cases s with
  | freed => exact absurd (List.mem_of_getElem? found) sound.live
  | null =>
    have same : act.passed i = act := by simp only [Table.passed,found]
    rw [same]
    exact ⟨sound,List.Perm.refl _⟩
  | bucket l =>
    have same : act.passed i = act.put i [] (act.bktab_used - 1) (act.size - l.length) := by
      simp only [Table.passed,found]
    have moved := put_perm found [] (act.bktab_used - 1) (act.size - l.length)
    have lengths := moved.length_eq
    simp only [Slot.entries,List.length_append,List.nil_append,← sound.counted] at lengths
    rw [same]
    exact ⟨sound.put found (by simp) (by simp only [Slot.entries,List.length_nil]; omega),by simpa using moved⟩

/-- The round of a call between two sound tables. -/
theorem rehash_loop_sound {act bak act' bak' : Table K V} {i i' : Nat} (active : TableSound T act)
    (target : TableSound T bak) (done : atm_dict_rehash_loop T rehash_loop_time act bak i = .ok (act',bak',i')) :
    TableSound T act' ∧ TableSound T bak' ∧ (act'.entries ++ bak'.entries).Perm (act.entries ++ bak.entries) := by
  rcases rehash_loop_returns done with ⟨rfl,rfl,rfl⟩ | ⟨s,found,_,pushed,rfl,rfl⟩
  · exact ⟨active,target,List.Perm.refl _⟩
  · obtain ⟨active',left⟩ := passed_sound active found
    have target' := push_all_sound target pushed
    have perm := push_all_perm pushed
    refine ⟨active',target',?_⟩
    calc ((act.passed i).entries ++ bak'.entries).Perm
          ((act.passed i).entries ++ (s.entries ++ bak.entries)) := perm.append_left _
      _ |>.Perm (s.entries ++ ((act.passed i).entries ++ bak.entries)) := List.perm_append_comm_assoc ..
      _ |>.Perm (act.entries ++ bak.entries) := by
        rw [← List.append_assoc]
        exact left.append_right _

/-- The table to migrate to, unless its block is too short. -/
theorem rehash_backup_sound {d : Dictionary K V} {bak : Table K V} (sound : DictSound T d)
    (needed : atm_dict_rehash_needed d = true) (fits : ¬ StartsShort d) (made : atm_dict_rehash_backup d = .ok bak) :
    TableSound T bak ∧ d.entries = d.ht_active.entries ++ bak.entries := by
  cases two : d.ht_backup with
  | some other =>
    simp only [atm_dict_rehash_backup,two,Except.ok.injEq] at made
    subst made
    exact ⟨sound.backup other two,by simp only [Dictionary.entries,two]⟩
  | none =>
    simp only [atm_dict_rehash_backup,two] at made
    split at made
    · cases made
    · obtain ⟨bsz,found,same⟩ := bind_eq_ok.mp made
      cases same
      have small : u32 (d.ht_active.size * 2) ≤ 2^28 := Nat.not_lt.mp (fun large => fits ⟨two,needed,large⟩)
      obtain ⟨j,_,_,power,_,least⟩ := next_power_ok (show u32 (d.ht_active.size * 2) ≤ 2^31 by omega)
      rw [power] at found
      cases found
      obtain ⟨new,empty,_⟩ := table_new_sound (T := T) (K := K) (V := V) (least 28 (by omega) small)
      exact ⟨new,by simp only [Dictionary.entries,two,empty]⟩

/-- A call that does not start a migration to a short block keeps the tables sound and
    their entries. -/
theorem rehash_sound {d d' : Dictionary K V} (sound : DictSound T d) (fits : ¬ StartsShort d)
    (done : atm_dict_rehash T d = .ok d') : DictSound T d' ∧ d'.entries.Perm d.entries := by
  cases needed : atm_dict_rehash_needed d with
  | false =>
    cases rehash_idle needed done
    exact ⟨sound,List.Perm.refl _⟩
  | true =>
    obtain ⟨bak,act',bak',i',made,_,moved,finished⟩ := rehash_moves needed done
    obtain ⟨target,whole⟩ := rehash_backup_sound sound needed fits made
    obtain ⟨active',target',perm⟩ := rehash_loop_sound sound.active target moved
    rw [whole]
    rcases rehash_finish_returns finished with ⟨empty,record,_,rfl⟩ | rfl
    · have none : act'.entries = [] := List.eq_nil_of_length_eq_zero (by rw [← active'.counted,empty])
      refine ⟨⟨target',fun _ other => (by cases other)⟩,?_⟩
      simpa [Dictionary.entries,none] using perm
    · refine ⟨⟨active',?_⟩,by simpa [Dictionary.entries] using perm⟩
      rintro _ ⟨⟩
      exact target'

/-- Two dictionaries with the same entries give the same answers. -/
theorem unseen_of_perm (lawful : T.Lawful) {d d' : Dictionary K V} (sound : DictSound T d) (sound' : DictSound T d')
    (perm : d'.entries.Perm d.entries) (distinct : Distinct T.match_key d.entries) : Unseen T d d' := by
  have distinct' := (distinct_perm lawful.equiv perm).mpr distinct
  have same := find_perm lawful.equiv perm distinct'
  refine ⟨perm,by rw [sound'.size,sound.size,perm.length_eq],fun k => ?_,fun k => ?_,distinct'⟩
  · rw [sound'.get lawful distinct',sound.get lawful distinct,same]
  · rw [sound'.contains lawful distinct',sound.contains lawful distinct,same]

/-! ### A block that is too short -/

/-- From `2^29` slots on the byte count is a multiple of `2^32`. -/
theorem table_new_short {j : Nat} (large : 29 ≤ j) : (atm_dict_table_new (2^j) : Table K V).bktab = [] := by
  have wraps : pointer_size * 2^j % 2^32 = 0 := by
    have product : pointer_size * 2^j = 2^(3 + j) := by rw [Nat.pow_add]; rfl
    rw [product]
    exact Nat.mod_eq_zero_of_dvd (Nat.pow_dvd_pow 2 (by omega))
  simp only [atm_dict_table_new,atm_alloc,u32,wraps]
  rfl

/-- A table without slots takes no entry. -/
theorem push_all_short {bak bak' : Table K V} {l : List (Entry K V)} (short : bak.bktab = [])
    (done : l.foldlM (atm_dict_table_push_entry T) bak = .ok bak') : l = [] ∧ bak' = bak := by
  cases l with
  | nil =>
    cases done
    exact ⟨rfl,rfl⟩
  | cons e rest =>
    rw [List.foldlM_cons] at done
    obtain ⟨t,pushed,_⟩ := bind_eq_ok.mp done
    obtain ⟨s,found,_⟩ := push_entry_returns pushed
    simp [short] at found

/-- A migration that starts with a short block moves no entry. -/
theorem rehash_short {d d' : Dictionary K V} (sound : DictSound T d) (starts : StartsShort d)
    (done : atm_dict_rehash T d = .ok d') :
    TableSound T d'.ht_active ∧ d'.ht_active.entries.Perm d.entries ∧
      ∃ bak, d'.ht_backup = some bak ∧ bak.bktab = [] ∧ bak.size = 0 := by
  obtain ⟨one,needed,large⟩ := starts
  obtain ⟨bak,act',bak',i',made,_,moved,finished⟩ := rehash_moves needed done
  have whole : d.entries = d.ht_active.entries := by simp [Dictionary.entries,one]
  obtain ⟨short,empty⟩ : bak.bktab = [] ∧ bak.size = 0 := by
    simp only [atm_dict_rehash_backup,one] at made
    split at made
    · cases made
    · obtain ⟨bsz,found,same⟩ := bind_eq_ok.mp made
      cases same
      obtain ⟨j,_,_,rfl,enough⟩ := next_power_eq_ok found
      have above : 29 ≤ j := by
        by_contra less
        have : 2^j ≤ 2^28 := Nat.pow_le_pow_right (by omega) (by omega)
        omega
      exact ⟨table_new_short above,rfl⟩
  obtain ⟨active',perm,rfl⟩ : TableSound T act' ∧ act'.entries.Perm d.entries ∧ bak' = bak := by
    rw [whole]
    rcases rehash_loop_returns moved with ⟨rfl,rfl,_⟩ | ⟨s,found,_,pushed,rfl,_⟩
    · exact ⟨sound.active,List.Perm.refl _,rfl⟩
    · obtain ⟨nothing,same⟩ := push_all_short short pushed
      obtain ⟨active',left⟩ := passed_sound sound.active found
      rw [nothing] at left
      exact ⟨active',left,same⟩
  rcases rehash_finish_returns finished with ⟨drained,_⟩ | rfl
  · have total := perm.length_eq
    rw [whole,← active'.counted,← sound.active.counted,drained] at total
    rw [← total] at large
    exact absurd large (by decide)
  · exact ⟨active',perm,bak',rfl,short,empty⟩

/-- A lookup of a key that the active table does not hold reads outside of a short backup. -/
theorem get_short (lawful : T.Lawful) {d : Dictionary K V} {bak : Table K V} (active : TableSound T d.ht_active)
    (distinct : Distinct T.match_key d.ht_active.entries) (two : d.ht_backup = some bak) (short : bak.bktab = [])
    {k : K} (absent : find T.match_key d.ht_active.entries k = none) :
    atm_dict_get T d k = .error .outOfBounds := by
  rw [atm_dict_get,active.get lawful distinct,absent]
  simp [two,atm_dict_table_get,atm_dict_entry,atm_dict_bucket,Table.slot,short]

/-- A call of `atm_dict_rehash` that returns is not seen exactly when it does not start a
    migration to a short block, or when every key there is has an entry. -/
theorem rehash_unseen_iff (lawful : T.Lawful) {d d' : Dictionary K V} (sound : DictSound T d)
    (distinct : Distinct T.match_key d.entries) (done : atm_dict_rehash T d = .ok d') :
    Unseen T d d' ↔ (StartsShort d → ∀ k, ∃ e ∈ d.entries, T.match_key e.key k = true) := by
  by_cases starts : StartsShort d
  · obtain ⟨active',perm,bak,two,short,empty⟩ := rehash_short sound starts done
    have distinct' := (distinct_perm lawful.equiv perm).mpr distinct
    have same := find_perm lawful.equiv perm distinct'
    constructor
    · intro unseen _ k
      rw [← find_isSome_iff]
      by_contra missing
      have absent : find T.match_key d.entries k = none := by simpa using missing
      have answer := unseen.get k
      rw [get_short lawful active' distinct' two short (by rw [same,absent]),sound.get lawful distinct] at answer
      cases answer
    · intro all
      have held : ∀ k, ∃ v, find T.match_key d.entries k = some v := by
        intro k
        rw [← Option.isSome_iff_exists,find_isSome_iff]
        exact all starts k
      have entries : d'.entries = d'.ht_active.entries := by
        simp [Dictionary.entries,two,Table.entries,short]
      refine ⟨by rw [entries]; exact perm,?_,fun k => ?_,fun k => ?_,by rw [entries]; exact distinct'⟩
      · rw [sound.size,← perm.length_eq,← active'.counted]
        simp [atm_dict_size,two,empty]
      · obtain ⟨v,found⟩ := held k
        rw [sound.get lawful distinct,atm_dict_get,active'.get lawful distinct',same,found]
        rfl
      · obtain ⟨v,found⟩ := held k
        rw [sound.contains lawful distinct,atm_dict_contains,active'.contains lawful distinct',same,found]
        rfl
  · obtain ⟨sound',perm⟩ := rehash_sound sound starts done
    exact ⟨fun _ short => absurd short starts,fun _ => unseen_of_perm lawful sound sound' perm distinct⟩

/-! ### A table that has grown to `2^28` slots -/

/-- Numbers as keys, all with the hash 1. -/
def one_slot : KeyType Nat where
  match_key := fun a b => a == b
  hash := fun _ => 1

theorem one_slot_lawful : one_slot.Lawful where
  equiv := ⟨by simp [one_slot],by simp [one_slot],by simp [one_slot]⟩
  hash_eq := by simp [one_slot]

/-- A table of `n` slots after `n` sets of different keys, which all went to slot 1. -/
def crowded (n : Nat) : Dictionary Nat Nat where
  free_type := .shallow
  ht_active := {
    bktab := .null :: .bucket ((List.range n).map (fun k => ⟨k,k⟩)) :: List.replicate (n - 2) .null
    bktab_size := n
    bktab_used := 1
    size := n }
  ht_backup := none
  enable_resize := true
  rehash_index := 0
  record := []

theorem crowded_entries (n : Nat) : (crowded n).entries = (List.range n).map (fun k => ⟨k,k⟩) := by
  simp [Dictionary.entries,crowded,Table.entries,Slot.entries]

theorem crowded_sound {n : Nat} (some : 2 ≤ n) : DictSound one_slot (crowded n) := by
  refine ⟨⟨?_,by simp only [crowded]; omega,by simp [crowded],?_,?_⟩,fun bak two => by simp [crowded] at two⟩
  · simp only [crowded,List.length_cons,List.length_replicate]
    omega
  · intro i s found e member
    have second : atm_dict_hkey one_slot (crowded n).ht_active e.key = 1 := by
      simp only [atm_dict_hkey,one_slot,crowded]
      exact Nat.mod_eq_of_lt some
    rw [second]
    rcases i with _ | _ | i
    · simp only [crowded,List.getElem?_cons_zero,Option.some.injEq] at found
      rw [← found] at member
      cases member
    · rfl
    · simp only [crowded,List.getElem?_cons_succ] at found
      rw [List.getElem?_replicate] at found
      split at found
      · cases found
        cases member
      · cases found
  · have whole := crowded_entries n
    simp only [Dictionary.entries,crowded,List.append_nil] at whole
    simp only [crowded,whole,List.length_map,List.length_range]

theorem crowded_distinct (n : Nat) : Distinct one_slot.match_key (crowded n).entries := by
  rw [crowded_entries,Distinct,List.pairwise_map]
  exact List.nodup_range.imp (fun {a b} different => by simpa [one_slot] using different)

theorem crowded_rehash {n bsz : Nat} (some : 2 ≤ n) (power : atm_util_next_power (u32 (n * 2)) = .ok bsz) :
    atm_dict_rehash one_slot (crowded n) =
      .ok { crowded n with ht_backup := .some (atm_dict_table_new bsz), rehash_index := 1 } := by
  have needed : atm_dict_rehash_needed (crowded n) = true := by simp [atm_dict_rehash_needed,crowded]
  have made : atm_dict_rehash_backup (crowded n) = .ok (atm_dict_table_new bsz) := by
    simp [atm_dict_rehash_backup,crowded,power]
  have moved : atm_dict_rehash_loop one_slot rehash_loop_time (crowded n).ht_active (atm_dict_table_new bsz) 0 =
      .ok ((crowded n).ht_active,atm_dict_table_new bsz,1) := by
    rw [rehash_loop_time,atm_dict_rehash_loop,if_neg (by simp only [crowded]; omega),if_neg (by simp [crowded]),
      if_neg (by simp only [crowded]; omega)]
    rfl
  rw [atm_dict_rehash,if_pos needed,made,ok_bind,if_pos (by simp only [crowded]; omega)]
  rw [show (crowded n).rehash_index = 0 from rfl,moved,ok_bind]
  simp only [atm_dict_rehash_finish]
  rw [if_neg (by simp only [crowded]; omega)]

theorem rehash_unseen_iff_crowded : ∃ d', atm_dict_rehash one_slot (crowded 256) = .ok d' ∧
    Unseen one_slot (crowded 256) d' := by
  have done : atm_dict_rehash one_slot (crowded 256) = .ok { crowded 256 with
      ht_backup := .some (atm_dict_table_new 512), rehash_index := 1 } := crowded_rehash (by omega) (by decide)
  refine ⟨_,done,(rehash_unseen_iff one_slot_lawful (crowded_sound (by omega)) (crowded_distinct 256) done).mpr ?_⟩
  exact fun starts => absurd starts.2.2 (by simp only [crowded]; decide)

/-- The set that fills a table of `2^28` slots starts a migration to `2^29` slots. -/
theorem crowded_start_seen : ∃ d', DictSound one_slot (crowded (2^28)) ∧
    Distinct one_slot.match_key (crowded (2^28)).entries ∧ atm_dict_rehash one_slot (crowded (2^28)) = .ok d' ∧
    atm_dict_get one_slot (crowded (2^28)) (2^28) = .ok none ∧ atm_dict_get one_slot d' (2^28) = .error .outOfBounds ∧
    ¬ Unseen one_slot (crowded (2^28)) d' := by
  have sound : DictSound one_slot (crowded (2^28)) := crowded_sound (by omega)
  have distinct := crowded_distinct (2^28)
  have absent : find one_slot.match_key (crowded (2^28)).entries (2^28) = none := by
    rw [find_eq_none_iff,crowded_entries]
    intro e member
    obtain ⟨k,inside,rfl⟩ := List.mem_map.mp member
    have small := List.mem_range.mp inside
    simp only [one_slot,beq_eq_false_iff_ne]
    omega
  have got : atm_dict_get one_slot (crowded (2^28)) (2^28) = .ok none := by rw [sound.get one_slot_lawful distinct,absent]
  have done : atm_dict_rehash one_slot (crowded (2^28)) = .ok { crowded (2^28) with
      ht_backup := .some (atm_dict_table_new (2^29)), rehash_index := 1 } := crowded_rehash (by omega) (by decide)
  have whole : (crowded (2^28)).entries = (crowded (2^28)).ht_active.entries := by
    rw [Dictionary.entries]
    exact List.append_nil _
  rw [whole] at absent distinct
  have lost := get_short one_slot_lawful (d := { crowded (2^28) with
    ht_backup := .some (atm_dict_table_new (2^29)), rehash_index := 1 }) sound.active distinct rfl
    (table_new_short (by omega)) absent
  refine ⟨_,sound,crowded_distinct _,done,got,lost,fun unseen => ?_⟩
  have answer := unseen.get (2^28)
  rw [got,lost] at answer
  cases answer

end AtmCache.Dict
