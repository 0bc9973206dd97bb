import AtmCache.Machine
import AtmCache.KeyMaps

/-!
# The dictionary of `atm_dict.c`

A bucket is made by `atm_dict_bucket_new` for one slot and its pointer is never
copied, so a slot stands for the bucket it points to. A slot whose bucket was
freed keeps its pointer (`freed`), and reading or freeing it again is a fault.
The list of a bucket holds its entries in order. Counters are natural numbers;
the three places where 32 bits can matter (`size*2`, `atm_util_next_power` and
the byte count of `atm_dict_table_new`) wrap as in C. Locks are not modelled: every
public function holds the dictionary's lock from its first access to its last.
-/
namespace AtmCache.Dict
open KeyMaps Runs

/-- What the dictionary uses of the `atm_T_t` of its keys. -/
structure KeyType (K : Type) where
  match_key : K → K → Bool
  hash : K → UInt64

/-- `match` is an equivalence and `hash` respects it. -/
structure KeyType.Lawful {K : Type} (T : KeyType K) : Prop where
  equiv : IsEquiv T.match_key
  hash_eq : ∀ {a b}, T.match_key a b = true → T.hash a = T.hash b

/-- `atm_dict_entry_t`; its `dict` field is the dictionary that holds it. Values are not NULL. -/
abbrev Entry (K V : Type) := Binding K V

inductive Slot (K V : Type) where
  | null
  | bucket (list : List (Entry K V))
  | freed
  deriving DecidableEq, Repr

structure Table (K V : Type) where
  bktab : List (Slot K V)
  bktab_size : Nat
  bktab_used : Nat
  size : Nat
  deriving DecidableEq, Repr

inductive FreeType where
  | shallow
  | deep
  deriving DecidableEq, Repr

/-- An object passed to `free`: a key or a value to the function of its type, or a
    bucket, with the entries still on its list, to `atm_dict_bucket_free`. -/
inductive Freed (K V : Type) where
  | key (k : K)
  | val (v : V)
  | bucket (list : List (Entry K V))
  deriving DecidableEq, Repr

/-- `atm_dict_t`, with a record of all that the dictionary has freed. -/
structure Dictionary (K V : Type) where
  free_type : FreeType
  ht_active : Table K V
  ht_backup : Option (Table K V)
  enable_resize : Bool
  rehash_index : Nat
  record : List (Freed K V)
  deriving DecidableEq, Repr

variable {K V : Type}

def ATM_DICT_INITIAL_BUCKET_SIZE : Nat := 256
def force_resize_ratio : Nat := 5
def rehash_loop_time : Nat := 1
/-- `sizeof(atm_dict_bucket_t *)` -/
def pointer_size : Nat := 8

/-! ### One table -/

def atm_dict_table_new (bsz : Nat) : Table K V where
  bktab := List.replicate (atm_alloc (pointer_size * bsz) / pointer_size) .null
  bktab_size := bsz
  bktab_used := 0
  size := 0

/-- Reading `bktab[i]`. -/
def Table.slot (t : Table K V) (i : Nat) : Except Fault (Slot K V) :=
  match t.bktab[i]? with
  | some s => .ok s
  | none => .error .outOfBounds

/-- Following a bucket pointer to its list; NULL gives nothing. -/
def Slot.list : Slot K V → Except Fault (Option (List (Entry K V)))
  | .null => .ok none
  | .bucket l => .ok (some l)
  | .freed => .error .useAfterFree

variable (T : KeyType K)

def atm_dict_hkey (t : Table K V) (k : K) : Nat := (T.hash k).toNat % t.bktab_size

/-- `atm_dict_bucket` and the list that its callers read from the result. -/
def atm_dict_bucket (t : Table K V) (k : K) : Except Fault (Option (List (Entry K V))) :=
  t.slot (atm_dict_hkey T t k) >>= Slot.list

def atm_dict_entry (t : Table K V) (k : K) : Except Fault (Option (Entry K V)) := do
  match ← atm_dict_bucket T t k with
  | none => return none
  | some l => return l.find? (fun e => T.match_key e.key k)

def atm_dict_table_contains (t : Table K V) (k : K) : Except Fault Bool := do
  return (← atm_dict_entry T t k).isSome

def atm_dict_table_get (t : Table K V) (k : K) : Except Fault (Option V) := do
  return (← atm_dict_entry T t k).map Binding.val

/-- The objects that `atm_dict_entry_free` passes on. -/
def atm_dict_entry_free (free_type : FreeType) (e : Entry K V) : List (Freed K V) :=
  match free_type with
  | .shallow => []
  | .deep => [.key e.key,.val e.val]

/-- Deletes the first entry that matches, if any; `atm_list_del` searches the list
    again, for the key of the entry found. -/
def atm_dict_table_del (free_type : FreeType) (t : Table K V) (k : K) :
    Except Fault (Bool × Table K V × List (Freed K V)) := do
  match ← atm_dict_entry T t k with
  | none => return (false,t,[])
  | some e =>
    match ← atm_dict_bucket T t k with
    | none => throw .nullDeref
    | some l =>
      return (true,{ t with
        bktab := t.bktab.set (atm_dict_hkey T t k) (.bucket (l.eraseP (fun x => T.match_key x.key e.key)))
        size := t.size - 1 },atm_dict_entry_free free_type e)

def atm_dict_table_push_entry (t : Table K V) (e : Entry K V) : Except Fault (Table K V) := do
  match ← atm_dict_bucket T t e.key with
  | none => return { t with
      bktab := t.bktab.set (atm_dict_hkey T t e.key) (.bucket [e])
      bktab_used := t.bktab_used + 1
      size := t.size + 1 }
  | some l => return { t with
      bktab := t.bktab.set (atm_dict_hkey T t e.key) (.bucket (l ++ [e]))
      size := t.size + 1 }

def atm_dict_table_set (t : Table K V) (k : K) (v : V) : Except Fault (Table K V) := do
  match ← atm_dict_entry T t k with
  | some _ =>
    match ← atm_dict_bucket T t k with
    | none => throw .nullDeref
    | some l => return { t with
        bktab := t.bktab.set (atm_dict_hkey T t k) (.bucket (setFirst (fun e => T.match_key e.key k) v l)) }
  | none => atm_dict_table_push_entry T t ⟨k,v⟩

/-- The loop of `atm_dict_table_clear` over the slots that are left. Freeing a bucket
    frees its list but not the entries on it. -/
def atm_dict_table_clear_loop : Nat → List (Slot K V) → Except Fault (List (Slot K V) × List (Freed K V))
  | 0, slots => .ok (slots,[])
  | _+1, [] => .error .outOfBounds
  | n+1, .null :: rest => do
    let (slots,record) ← atm_dict_table_clear_loop n rest
    return (.null :: slots,record)
  | n+1, .bucket l :: rest => do
    let (slots,record) ← atm_dict_table_clear_loop n rest
    return (.freed :: slots,.bucket l :: record)
  | _+1, .freed :: _ => .error .doubleFree

/-- `memset` of the slots to zero for a number of bytes. Sizes are powers of two from
    256 on, so that no slot is zeroed in part. -/
def memset_slots (slots : List (Slot K V)) (bytes : Nat) : List (Slot K V) :=
  List.replicate (bytes / pointer_size) .null ++ slots.drop (bytes / pointer_size)

def atm_dict_table_clear (t : Table K V) : Except Fault (Table K V × List (Freed K V)) := do
  let (slots,record) ← atm_dict_table_clear_loop t.bktab_size t.bktab
  return ({ t with
    bktab := memset_slots slots t.bktab_size
    bktab_used := 0
    size := 0 },record)

def atm_dict_table_free (t : Table K V) : Except Fault (List (Freed K V)) := do
  let (_,record) ← atm_dict_table_clear t
  return record

/-! ### Incremental rehash -/

/-- The ratio is a division; no table has `bktab_size` 0. -/
def atm_dict_rehash_needed (d : Dictionary K V) : Bool :=
  match d.ht_backup with
  | some _ => true
  | none =>
    if d.enable_resize then d.ht_active.bktab_size ≤ d.ht_active.size
    else force_resize_ratio ≤ d.ht_active.size / d.ht_active.bktab_size

/-- The migration loop: active table, backup table and `rehash_index` after at most
    `loop_time` rounds. The entries of a bucket are popped one by one and pushed to the backup. -/
def atm_dict_rehash_loop : Nat → Table K V → Table K V → Nat → Except Fault (Table K V × Table K V × Nat)
  | 0, act, bak, i => .ok (act,bak,i)
  | loop_time+1, act, bak, i =>
    if i = act.bktab_size then .ok (act,bak,i)
    else if act.bktab_used = 0 then
      if act.size ≠ 0 then .error (.exit "data currapt! in rehash end,size [%lu]") else .ok (act,bak,i)
    else if act.size = 0 then
      if act.bktab_size ≠ 0 then .error (.exit "data currapt! in rehash end,bktab_size [%lu]") else .ok (act,bak,i)
    else do
      match ← act.slot i >>= Slot.list with
      | none => atm_dict_rehash_loop loop_time act bak (i+1)
      | some l =>
        let bak ← l.foldlM (atm_dict_table_push_entry T) bak
        atm_dict_rehash_loop loop_time { act with
          bktab := act.bktab.set i (.bucket [])
          bktab_used := act.bktab_used - 1
          size := act.size - l.length } bak (i+1)

/-- The check at the end of `atm_dict_rehash`: an empty active table is replaced by the backup. -/
def atm_dict_rehash_finish (d : Dictionary K V) (act bak : Table K V) (i : Nat) : Except Fault (Dictionary K V) :=
  if act.size = 0 then
    if act.bktab_size < i then
      .error (.exit "data currapt! rehash_index on rehash finish,rehash_index[%u], bktab_size[%u]")
    else if act.bktab_used ≠ 0 then
      .error (.exit "data currapt! bktab_used on rehash finish,bktab_used[%u]")
    else do
      let record ← atm_dict_table_free act
      return { d with ht_active := bak, ht_backup := none, rehash_index := 0, record := d.record ++ record }
  else .ok { d with ht_active := act, ht_backup := some bak, rehash_index := i }

/-- The backup table that `atm_dict_rehash` works with: the one there is, or a new one. -/
def atm_dict_rehash_backup (d : Dictionary K V) : Except Fault (Table K V) :=
  match d.ht_backup with
  | some bak => .ok bak
  | none =>
    if d.rehash_index ≠ 0 then .error (.exit "data currapt rehash_index")
    else do
      let bsz ← atm_util_next_power (u32 (d.ht_active.size * 2))
      return atm_dict_table_new bsz

def atm_dict_rehash (d : Dictionary K V) : Except Fault (Dictionary K V) :=
  if atm_dict_rehash_needed d then do
    let bak ← atm_dict_rehash_backup d
    if d.rehash_index < d.ht_active.bktab_size then
      let (act,bak,i) ← atm_dict_rehash_loop T rehash_loop_time d.ht_active bak d.rehash_index
      atm_dict_rehash_finish d act bak i
    else throw (.exit "data currapt! in rehash loop prechecking")
  else .ok d

/-! ### The public functions -/

def atm_dict_new (free_type : FreeType) : Dictionary K V where
  free_type := free_type
  ht_active := atm_dict_table_new ATM_DICT_INITIAL_BUCKET_SIZE
  ht_backup := none
  enable_resize := true
  rehash_index := 0
  record := []

def atm_dict_contains (d : Dictionary K V) (k : K) : Except Fault Bool := do
  let res ← atm_dict_table_contains T d.ht_active k
  match res, d.ht_backup with
  | false, some bak => atm_dict_table_contains T bak k
  | _, _ => return res

def atm_dict_get (d : Dictionary K V) (k : K) : Except Fault (Option V) := do
  let res ← atm_dict_table_get T d.ht_active k
  match res, d.ht_backup with
  | none, some bak => atm_dict_table_get T bak k
  | _, _ => return res

/-- The part of `atm_dict_set` before it calls `atm_dict_rehash`. -/
def atm_dict_set_table (d : Dictionary K V) (k : K) (v : V) : Except Fault (Dictionary K V) :=
  match d.ht_backup with
  | some bak => do return { d with ht_backup := some (← atm_dict_table_set T bak k v) }
  | none => do return { d with ht_active := ← atm_dict_table_set T d.ht_active k v }

def atm_dict_set (d : Dictionary K V) (k : K) (v : V) : Except Fault (Dictionary K V) := do
  atm_dict_rehash T (← atm_dict_set_table T d k v)

/-- The part of `atm_dict_del` before it calls `atm_dict_rehash`. -/
def atm_dict_del_table (d : Dictionary K V) (k : K) : Except Fault (Dictionary K V) := do
  let (res,act,record) ← atm_dict_table_del T d.free_type d.ht_active k
  match res, d.ht_backup with
  | false, some bak =>
    let (_,bak,record') ← atm_dict_table_del T d.free_type bak k
    return { d with ht_active := act, ht_backup := some bak, record := d.record ++ record ++ record' }
  | _, _ => return { d with ht_active := act, record := d.record ++ record }

def atm_dict_del (d : Dictionary K V) (k : K) : Except Fault (Dictionary K V) := do
  atm_dict_rehash T (← atm_dict_del_table T d k)

def atm_dict_size (d : Dictionary K V) : Nat :=
  d.ht_active.size + match d.ht_backup with
    | some bak => bak.size
    | none => 0

def atm_dict_resize_enable (d : Dictionary K V) : Dictionary K V := { d with enable_resize := true }
def atm_dict_resize_disable (d : Dictionary K V) : Dictionary K V := { d with enable_resize := false }

/-- Clears both tables, then frees the backup, which clears it once more. -/
def atm_dict_clear (d : Dictionary K V) : Except Fault (Dictionary K V) := do
  let (act,record) ← atm_dict_table_clear d.ht_active
  match d.ht_backup with
  | none => return { d with ht_active := act, rehash_index := 0, record := d.record ++ record }
  | some bak =>
    let (bak,record') ← atm_dict_table_clear bak
    let record'' ← atm_dict_table_free bak
    return { d with
      ht_active := act
      ht_backup := none
      rehash_index := 0
      record := d.record ++ record ++ record' ++ record'' }

/-- The objects that freeing the dictionary passes on. -/
def atm_dict_free (d : Dictionary K V) : Except Fault (List (Freed K V)) := do
  let record ← atm_dict_table_free d.ht_active
  match d.ht_backup with
  | none => return record
  | some bak => return record ++ (← atm_dict_table_free bak)

/-! ### Runs of calls -/

/-- A call that changes the dictionary, `atm_dict_clear` apart. -/
inductive Op (K V : Type) where
  | set (k : K) (v : V)
  | del (k : K)
  | resize_enable
  | resize_disable
  deriving DecidableEq, Repr

/-- The dictionary in which a call reaches `atm_dict_rehash`. -/
def before_rehash (d : Dictionary K V) : Op K V → Except Fault (Dictionary K V)
  | .set k v => atm_dict_set_table T d k v
  | .del k => atm_dict_del_table T d k
  | .resize_enable => .ok d
  | .resize_disable => .ok d

def step (d : Dictionary K V) : Op K V → Except Fault (Dictionary K V)
  | .set k v => atm_dict_set T d k v
  | .del k => atm_dict_del T d k
  | .resize_enable => .ok (atm_dict_resize_enable d)
  | .resize_disable => .ok (atm_dict_resize_disable d)

/-- What a call does to the map that the dictionary stands for. -/
def Op.effect (f : K → Option V) : Op K V → K → Option V
  | .set k v => KeyMaps.set T.match_key f k v
  | .del k => KeyMaps.del T.match_key f k
  | .resize_enable => f
  | .resize_disable => f

/-- The value of the last `set` of a matching key with no `del` after it. -/
def last_set (ops : List (Op K V)) : K → Option V := ops.foldl (Op.effect T) (fun _ => none)

/-- A call of any public function on a dictionary. -/
inductive Call (K V : Type) where
  | op (op : Op K V)
  | get (k : K)
  | contains (k : K)
  | size
  | clear
  deriving DecidableEq, Repr

/-- What a call returns. -/
inductive Answer (V : Type) where
  | void
  | value (v : Option V)
  | truth (b : Bool)
  | number (n : Nat)
  deriving DecidableEq, Repr

def call (d : Dictionary K V) : Call K V → Except Fault (Dictionary K V × Answer V)
  | .op op => do return (← step T d op,.void)
  | .get k => do return (d,.value (← atm_dict_get T d k))
  | .contains k => do return (d,.truth (← atm_dict_contains T d k))
  | .size => .ok (d,.number (atm_dict_size d))
  | .clear => do return (← atm_dict_clear d,.void)

/-- One call in a run that keeps the answers so far. -/
def perform (s : Dictionary K V × List (Answer V)) (c : Call K V) : Except Fault (Dictionary K V × List (Answer V)) := do
  let (d,a) ← call T s.1 c
  return (d,s.2 ++ [a])

end AtmCache.Dict
