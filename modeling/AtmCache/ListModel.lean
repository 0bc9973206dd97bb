import AtmCache.Heap
import AtmCache.Machine
import AtmCache.Runs

/-!
# The lists of `atm_list.c`

Entries and lists live in two heaps, and a list owns the entries that point back to it. A value is
an address that the list does not follow, with `none` for NULL. Of a type the function `match` is
kept, and whether there is a function `free`; what it was called on is recorded. `atm_list_next` is
called until it returns NULL.
-/
namespace AtmCache.Lists
open Heap Runs

def ATM_FREE_SHALLOW : Nat := 0
def ATM_FREE_DEEP : Nat := 1

/-- The functions of an `atm_T_t`, as far as it has them. -/
structure T (V H : Type) where
  match_ : Option (Option V → H → Bool)
  free : Bool

/-- `atm_list_t` -/
structure Lst (V H : Type) where
  free_type : Nat
  v_type : Option (T V H)
  head : Option Addr
  tail : Option Addr
  size : Nat

/-- `atm_list_entry_t` -/
structure Entry (V : Type) where
  list : Option Addr
  val : Option V
  prev : Option Addr
  next : Option Addr
  deriving DecidableEq, Repr

structure Mem (V H : Type) where
  lists : Cells (Lst V H)
  entries : Cells (Entry V)
  freed : List (Option V)

variable {V H : Type}

/-! ### Memory -/

/-- Following a pointer. -/
def deref {α : Type} (h : Cells α) : Option Addr → Except Fault α
  | none => .error .nullDeref
  | some a =>
    match get h a with
    | some x => .ok x
    | none => .error .useAfterFree

/-- Writing members of an entry. -/
def update_entry (m : Mem V H) (entry : Option Addr) (f : Entry V → Entry V) : Except Fault (Mem V H) :=
  match entry with
  | none => .error .nullDeref
  | some a =>
    match get m.entries a with
    | some e => .ok { m with entries := put m.entries a (f e) }
    | none => .error .useAfterFree

/-- `atm_free` of an entry -/
def free_entry (m : Mem V H) : Option Addr → Except Fault (Mem V H)
  | none => .ok m
  | some a =>
    match get m.entries a with
    | some _ => .ok { m with entries := free m.entries a }
    | none => .error .doubleFree

/-! ### Entries -/

def atm_list_entry_isol (m : Mem V H) (entry : Option Addr) : Except Fault (Mem V H) :=
  if entry = none then .ok m else update_entry m entry (fun e => { e with prev := none, next := none })

def atm_list_entry_new (m : Mem V H) (val : Option V) : Mem V H × Addr :=
  ({ m with entries := alloc m.entries ⟨none,val,none,none⟩ },m.entries.length)

/-- `v_type->free(e->val)` -/
def free_value (m : Mem V H) (lst : Lst V H) (val : Option V) : Except Fault (Mem V H) :=
  match lst.v_type with
  | some t =>
    if t.free then .ok { m with freed := m.freed ++ [val] } else .error (.exit "free is null will FREE_DEEP flag")
  | none => .error (.exit "free is null will FREE_DEEP flag")

def atm_list_entry_free (m : Mem V H) (entry : Option Addr) : Except Fault (Mem V H) := do
  let e ← deref m.entries entry
  let lst ← deref m.lists e.list
  let m ← atm_list_entry_isol m entry
  let m ← (if lst.free_type = ATM_FREE_DEEP then free_value m lst e.val else .ok m)
  free_entry m entry

/-- `list->v_type->match(curr->val, entry)` -/
def call_match (lst : Lst V H) (val : Option V) (hint : H) : Except Fault Bool :=
  match lst.v_type with
  | none => .error .nullDeref
  | some t =>
    match t.match_ with
    | none => .error .nullDeref
    | some f => .ok (f val hint)

def find_loop (m : Mem V H) (lst : Lst V H) (hint : H) : Nat → Option Addr → Except Fault (Option Addr)
  | 0, _ => .error .hang
  | _+1, none => .ok none
  | fuel+1, some curr => do
    let e ← deref m.entries (some curr)
    if ← call_match lst e.val hint then return some curr else find_loop m lst hint fuel e.next

/-- A bound on the rounds of a loop over a list. -/
def rounds (m : Mem V H) : Nat := m.entries.length + 1

def atm_list_find_linear (m : Mem V H) (list : Option Addr) (hint : H) : Except Fault (Option Addr) :=
  match list with
  | none => .ok none
  | some l => do
    let lst ← deref m.lists (some l)
    find_loop m lst hint (rounds m) lst.head

def atm_list_find_entry (m : Mem V H) (list : Option Addr) (hint : H) : Except Fault (Option Addr) :=
  atm_list_find_linear m list hint

/-- The list is written back at the end, here and below. -/
def atm_list_lpop_entry (m : Mem V H) (list : Option Addr) : Except Fault (Mem V H × Option Addr) :=
  match list with
  | none => .ok (m,none)
  | some l => do
    let lst ← deref m.lists (some l)
    match lst.head with
    | none => return (m,none)
    | some res =>
      let lst := { lst with head := (← deref m.entries (some res)).next }
      let m ← (if lst.head ≠ none then update_entry m lst.head (fun e => { e with prev := none }) else .ok m)
      let lst := if lst.tail = some res then { lst with tail := none } else lst
      let m ← atm_list_entry_isol m (some res)
      return ({ m with lists := put m.lists l { lst with size := sub32 lst.size 1 } },some res)

def atm_list_rpop_entry (m : Mem V H) (list : Option Addr) : Except Fault (Mem V H × Option Addr) :=
  match list with
  | none => .ok (m,none)
  | some l => do
    let lst ← deref m.lists (some l)
    match lst.tail with
    | none => return (m,none)
    | some res =>
      let lst := { lst with tail := (← deref m.entries (some res)).prev }
      let m ← (if lst.tail ≠ none then update_entry m lst.tail (fun e => { e with next := none }) else .ok m)
      let lst := if lst.head = some res then { lst with head := none } else lst
      let m ← atm_list_entry_isol m (some res)
      return ({ m with lists := put m.lists l { lst with size := sub32 lst.size 1 } },some res)

/-! ### Lists -/

def atm_list_new (m : Mem V H) (v_type : Option (T V H)) (f_type : Nat) : Mem V H × Addr :=
  ({ m with lists := alloc m.lists ⟨f_type,v_type,none,none,0⟩ },m.lists.length)

def atm_list_push (m : Mem V H) (list : Option Addr) (val : Option V) : Except Fault (Mem V H) :=
  match list with
  | none => .ok m
  | some l => do
    let (m,entry) := atm_list_entry_new m val
    let m ← update_entry m (some entry) (fun e => { e with list := some l })
    let lst ← deref m.lists (some l)
    let (m,lst) ← (
      if lst.tail = none then
        if lst.head = none then .ok (m,{ lst with head := some entry, tail := some entry })
        else .error (.exit "atm_list_push: list currapt")
      else do
        let m ← update_entry m lst.tail (fun e => { e with next := some entry })
        let m ← update_entry m (some entry) (fun e => { e with prev := lst.tail })
        return (m,{ lst with tail := some entry }))
    return { m with lists := put m.lists l { lst with size := u32 (lst.size + 1) } }

/-- The four cases of `atm_list_del`. -/
def del_entry (m : Mem V H) (lst : Lst V H) : Option Addr → Option Addr → Except Fault (Mem V H × Lst V H)
  | none, none => .ok (m,{ lst with head := none, tail := none })
  | none, some next => do
    return (← update_entry m (some next) (fun e => { e with prev := none }),{ lst with head := some next })
  | some prev, none => do
    return (← update_entry m (some prev) (fun e => { e with next := none }),{ lst with tail := some prev })
  | some prev, some next => do
    let m ← update_entry m (some prev) (fun e => { e with next := some next })
    return (← update_entry m (some next) (fun e => { e with prev := some prev }),lst)

def atm_list_del (m : Mem V H) (list : Option Addr) (hint : H) : Except Fault (Mem V H) :=
  match list with
  | none => .ok m
  | some l => do
    match ← atm_list_find_entry m list hint with
    | none => return m
    | some curr =>
      let e ← deref m.entries (some curr)
      let lst ← deref m.lists (some l)
      let (m,lst) ← del_entry m lst e.prev e.next
      atm_list_entry_free { m with lists := put m.lists l { lst with size := sub32 lst.size 1 } } (some curr)

/-- The value of an entry that was popped, which is freed. -/
def take_value (m : Mem V H) : Option Addr → Except Fault (Mem V H × Option V)
  | none => .ok (m,none)
  | some entry => do
    let e ← deref m.entries (some entry)
    return (← free_entry m (some entry),e.val)

def atm_list_lpop (m : Mem V H) (list : Option Addr) : Except Fault (Mem V H × Option V) := do
  let (m,entry) ← atm_list_lpop_entry m list
  take_value m entry

def atm_list_rpop (m : Mem V H) (list : Option Addr) : Except Fault (Mem V H × Option V) := do
  let (m,entry) ← atm_list_rpop_entry m list
  take_value m entry

/-- The value of an entry, NULL without one. -/
def peek_value (m : Mem V H) : Option Addr → Except Fault (Option V)
  | none => .ok none
  | some entry => do return (← deref m.entries (some entry)).val

def atm_list_lpeek (m : Mem V H) (list : Option Addr) : Except Fault (Option V) :=
  match list with
  | none => .ok none
  | some l => do peek_value m (← deref m.lists (some l)).head

def atm_list_rpeek (m : Mem V H) (list : Option Addr) : Except Fault (Option V) :=
  match list with
  | none => .ok none
  | some l => do peek_value m (← deref m.lists (some l)).tail

def clear_loop (list : Option Addr) : Nat → Mem V H → Except Fault (Mem V H)
  | 0, _ => .error .hang
  | fuel+1, m => do
    let (m,e) ← atm_list_lpop_entry m list
    if e = none then return m
    else do
      let m ← atm_list_entry_free m e
      clear_loop list fuel m

def atm_list_clear (m : Mem V H) (list : Option Addr) : Except Fault (Mem V H) :=
  if list = none then .ok m else clear_loop list (rounds m) m

/-! ### Iterators -/

/-- `atm_list_iter_t` -/
structure Iter where
  list : Addr
  curr : Option Addr
  deriving DecidableEq, Repr

def atm_list_iter_new (m : Mem V H) : Option Addr → Except Fault (Option Iter)
  | none => .ok none
  | some l => do return some ⟨l,(← deref m.lists (some l)).head⟩

def atm_list_next (m : Mem V H) : Option Iter → Except Fault (Option V × Option Iter)
  | none => .ok (none,none)
  | some it =>
    match it.curr with
    | none => .ok (none,some it)
    | some curr => do
      let e ← deref m.entries (some curr)
      return (e.val,some { it with curr := e.next })

/-- `while ((v = atm_list_next(it)) != NULL)`: the values in order. -/
def iterate_loop (m : Mem V H) : Nat → Option Iter → Except Fault (List V)
  | 0, _ => .error .hang
  | fuel+1, it => do
    match ← atm_list_next m it with
    | (none,_) => return []
    | (some v,it) => return v :: (← iterate_loop m fuel it)

def iterate (m : Mem V H) (list : Option Addr) : Except Fault (List V) := do
  iterate_loop m (rounds m) (← atm_list_iter_new m list)

/-! ### Runs of calls -/

inductive Answer (V : Type) where
  | value (v : Option V)
  | values (vs : List V)
  deriving DecidableEq, Repr

/-- The memory, and what the calls have returned, in order. -/
structure State (V H : Type) where
  mem : Mem V H
  answers : List (Answer V)

def no_lists : State V H := ⟨⟨[],[],[]⟩,[]⟩

/-- A call; the values that are pushed are not NULL. -/
inductive Op (V H : Type) where
  | new (v_type : Option (T V H)) (f_type : Nat)
  | push (list : Option Addr) (val : V)
  | lpop (list : Option Addr)
  | rpop (list : Option Addr)
  | del (list : Option Addr) (hint : H)
  | clear (list : Option Addr)
  | lpeek (list : Option Addr)
  | rpeek (list : Option Addr)
  | iterate (list : Option Addr)

def step (s : State V H) : Op V H → Except Fault (State V H)
  | .new v_type f_type => .ok { s with mem := (atm_list_new s.mem v_type f_type).1 }
  | .push list val => do return { s with mem := ← atm_list_push s.mem list (some val) }
  | .lpop list => do
    let (mem,v) ← atm_list_lpop s.mem list
    return ⟨mem,s.answers ++ [.value v]⟩
  | .rpop list => do
    let (mem,v) ← atm_list_rpop s.mem list
    return ⟨mem,s.answers ++ [.value v]⟩
  | .del list hint => do return { s with mem := ← atm_list_del s.mem list hint }
  | .clear list => do return { s with mem := ← atm_list_clear s.mem list }
  | .lpeek list => do return { s with answers := s.answers ++ [.value (← atm_list_lpeek s.mem list)] }
  | .rpeek list => do return { s with answers := s.answers ++ [.value (← atm_list_rpeek s.mem list)] }
  | .iterate list => do return { s with answers := s.answers ++ [.values (← iterate s.mem list)] }

end AtmCache.Lists
