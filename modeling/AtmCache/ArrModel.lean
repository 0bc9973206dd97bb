import AtmCache.CStrings
import AtmCache.Heap
import AtmCache.Machine
import AtmCache.Slices

/-!
# The arrays of `atm_arr.c`

An array copies `tsize` bytes from the address that `atm_arr_add` is given, and `atm_arr_get`
returns the address of a slot. Memory is a heap of blocks of bytes; a byte is a number or
a part of a pointer, so that what was stored as a pointer is read back as one and bytes
read at the wrong place are told apart from it.
-/
namespace AtmCache.Arrays
open CStrings Heap Runs Slices

/-- An address: NULL, a byte of a block, the entry of a function, or a value of an opaque type
    that some library has made. -/
inductive Ptr where
  | null
  | block (b : Addr) (offset : Nat)
  | code (f : Nat)
  | handle (k : Nat)
  deriving DecidableEq, Repr

inductive Cell where
  | byte (b : UInt8)
  | part (p : Ptr) (k : Nat)
  deriving DecidableEq, Repr

/-- `code` is the machine code from the entry of each function on, `low` the number that the
    first four bytes of an address make. -/
structure Mem where
  heap : Cells (List Cell)
  code : List (List UInt8)
  low : Ptr → Nat

/-! ### Addresses -/

/-- `sizeof(void *)` -/
def pointer_size : Nat := 8

def zeros (n : Nat) : List Cell := List.replicate n (.byte 0)

/-- The bytes of an address. -/
def cells_of_ptr : Ptr → List Cell
  | .null => zeros pointer_size
  | p => (List.range pointer_size).map (.part p)

/-- The address that eight bytes make, if they make one. -/
def ptr_of_cells (cells : List Cell) : Option Ptr :=
  if cells = zeros pointer_size then some .null
  else
    match cells with
    | .part p 0 :: _ => if cells = cells_of_ptr p then some p else none
    | _ => none

def Ptr.add : Ptr → Nat → Ptr
  | .null, _ => .null
  | .block b offset, n => .block b (offset + n)
  | .code f, _ => .code f
  | .handle k, _ => .handle k

/-- The bytes of a number, the lowest first. -/
def bytes_of_uint (n : Nat) : List Cell :=
  [.byte (.ofNat n),.byte (.ofNat (n / 2^8)),.byte (.ofNat (n / 2^16)),.byte (.ofNat (n / 2^24))]

/-- The `atm_uint_t` that four bytes make. -/
def uint_of_cells (low : Ptr → Nat) : List Cell → Option Nat
  | [.byte a,.byte b,.byte c,.byte d] => some (a.toNat + 2^8 * b.toNat + 2^16 * c.toNat + 2^24 * d.toNat)
  | [.part p 0,.part _ 1,.part _ 2,.part _ 3] => some (u32 (low p))
  | _ => none

/-! ### Memory -/

/-- `n` bytes at an address. -/
def load (m : Mem) (p : Ptr) (n : Nat) : Except Fault (List Cell) :=
  match p with
  | .null => .error .nullDeref
  | .block b offset =>
    match get m.heap b with
    | some cells => if offset + n ≤ cells.length then .ok (slice cells offset n) else .error .outOfBounds
    | none => .error .useAfterFree
  | .code f =>
    match m.code[f]? with
    | some bytes => if n ≤ bytes.length then .ok ((bytes.take n).map .byte) else .error .outOfBounds
    | none => .error .outOfBounds
  | .handle _ => .error .outOfBounds

def store (m : Mem) (p : Ptr) (data : List Cell) : Except Fault Mem :=
  match p with
  | .null => .error .nullDeref
  | .block b offset =>
    match get m.heap b with
    | some cells =>
      if offset + data.length ≤ cells.length then .ok { m with heap := put m.heap b (splice cells offset data) }
      else .error .outOfBounds
    | none => .error .useAfterFree
  | .code _ => .error .outOfBounds
  | .handle _ => .error .outOfBounds

def memcpy (m : Mem) (dest src : Ptr) (n : Nat) : Except Fault Mem := do store m dest (← load m src n)

/-- An address read from memory; other bytes are the address of nothing. -/
def load_ptr (m : Mem) (p : Ptr) : Except Fault Ptr := do
  match ptr_of_cells (← load m p pointer_size) with
  | some q => return q
  | none => throw .outOfBounds

def load_uint (m : Mem) (p : Ptr) : Except Fault Nat := do
  match uint_of_cells m.low (← load m p 4) with
  | some n => return n
  | none => throw .outOfBounds

/-- A new block of zeros. -/
def mem_alloc (m : Mem) (n : Nat) : Mem × Addr := ({ m with heap := alloc m.heap (zeros n) },m.heap.length)

/-! ### Arrays -/

def ATM_ARR_INITIAL_LEN : Nat := 32

def ATM_OK : Int := 0
def ATM_ERROR : Int := -1

/-- `atm_arr_t` -/
structure Arr where
  _vals : Addr
  capacity : Nat
  length : Nat
  tsize : Nat
  deriving DecidableEq, Repr

/-- NULL for `tsize` 0. -/
def atm_arr_new (m : Mem) (tsize : Nat) : Mem × Option Arr :=
  if 0 < tsize then
    let (m,vals) := mem_alloc m (ATM_ARR_INITIAL_LEN * tsize)
    (m,some ⟨vals,ATM_ARR_INITIAL_LEN,0,tsize⟩)
  else (m,none)

/-- `atm_realloc` -/
def mem_realloc (m : Mem) (p : Addr) (osz nsz : Nat) : Except Fault (Mem × Addr) := do
  let len := min osz nsz
  let (m,new) := mem_alloc m (atm_alloc nsz)
  let m ← (if 0 < len then memcpy m (.block new 0) (.block p 0) len else .ok m)
  return ({ m with heap := free m.heap p },new)

/-- The part of `atm_arr_add` for a full array. -/
def arr_grow (m : Mem) (arr : Arr) : Except Fault (Mem × Arr) := do
  let osz := u32 (arr.capacity * arr.tsize)
  let nsz := u32 (u32 (arr.capacity * arr.tsize) * 2)
  let (m,new) ← mem_realloc m arr._vals osz nsz
  if new ≠ arr._vals then return (m,{ arr with capacity := u32 (arr.capacity * 2), _vals := new })
  else throw (.exit "can not realloc atm_arr, atm_realloc(%p,%u,%u)")

def atm_arr_add (m : Mem) (arr : Arr) (v : Ptr) : Except Fault (Mem × Arr × Nat) :=
  if v = .null then .ok (m,arr,0)
  else do
    let s := u32 (u32 (arr.length * 3) / 2 + 1)
    let (m,arr) ← (if arr.capacity < s then arr_grow m arr else .ok (m,arr))
    let m ← memcpy m (.block arr._vals (u32 (arr.tsize * arr.length))) v arr.tsize
    let arr := { arr with length := u32 (arr.length + 1) }
    return (m,arr,sub32 arr.length 1)

/-- The address of a slot; NULL behind the last one. -/
def atm_arr_get (arr : Arr) (i : Nat) : Ptr := if i < arr.length then .block arr._vals (u32 (arr.tsize * i)) else .null

def atm_arr_set (m : Mem) (arr : Option Arr) (i : Nat) (v : Ptr) : Except Fault (Mem × Int) :=
  match arr with
  | none => .ok (m,ATM_ERROR)
  | some arr =>
    if i < arr.length then do return (← memcpy m (.block arr._vals (u32 (i * arr.tsize))) v arr.tsize,ATM_OK)
    else .ok (m,ATM_ERROR)

/-- The capacity after a delete. -/
def del_capacity (arr : Arr) : Nat :=
  if u32 (arr.length * 4) < arr.capacity ∧ ATM_ARR_INITIAL_LEN * 2 ≤ arr.capacity then arr.capacity / 2 else arr.capacity

/-- `memcpy` of `l` bytes, if there are any. -/
def copy_part (m : Mem) (dest src : Ptr) (l : Nat) : Except Fault Mem := if 0 < l then memcpy m dest src l else .ok m

/-- The elements before and behind the `i`-th are copied to a new block; `atm_calloc` does not wrap. -/
def arr_remove (m : Mem) (arr : Arr) (i : Nat) : Except Fault (Mem × Arr) := do
  let newcap := del_capacity arr
  let (m,vn) := mem_alloc m (newcap * arr.tsize)
  let m ← copy_part m (.block vn 0) (.block arr._vals 0) (u32 (i * arr.tsize))
  let m ← copy_part m (.block vn (u32 (i * arr.tsize))) (.block arr._vals (u32 (u32 (i+1) * arr.tsize)))
    (u32 (sub32 (sub32 arr.length 1) i * arr.tsize))
  return ({ m with heap := free m.heap arr._vals },
    { arr with _vals := vn, length := sub32 arr.length 1, capacity := newcap })

def atm_arr_del (m : Mem) (arr : Option Arr) (i : Nat) : Except Fault (Mem × Option Arr × Int) :=
  match arr with
  | none => .ok (m,none,ATM_ERROR)
  | some arr =>
    if i < arr.length then do
      let (m,arr) ← arr_remove m arr i
      return (m,some arr,ATM_OK)
    else .ok (m,some arr,ATM_ERROR)

end AtmCache.Arrays
