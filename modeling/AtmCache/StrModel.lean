import AtmCache.Machine
import AtmCache.CStrings

/-!
# The strings of `atm_str.c`

A string is a block of bytes behind a packed header of eight bytes; `Str` is the
header with the bytes of the block after it. A `char *` argument is given by the
bytes before its terminating NUL. A pointer variable owns its block: the functions
take and return strings by value, and `Appended` records whether the pointer
returned is the one that was passed and which blocks `atm_str_free` released.
Every read and write of bytes is checked against the block.
-/
namespace AtmCache.Strings
open CStrings Runs

abbrev Byte := UInt8

/-- `atm_str_hdr_t` -/
structure Str where
  cap : Nat
  len : Nat
  val : List Byte
  deriving DecidableEq, Repr

def ATM_WORDLEN : Nat := 8
/-- `sizeof(atm_str_hdr_t)` -/
def hdrlen : Nat := 8

/-! ### Bytes -/

/-- The memory of a `char *` argument. -/
def c_string (s : List Byte) : List Byte := s ++ [0]

def strlen (block : List Byte) : Except Fault Nat :=
  if 0 ∈ block then .ok (block.idxOf 0) else .error .outOfBounds

/-- Reading the first `n` bytes of a block. -/
def read_bytes (block : List Byte) (n : Nat) : Except Fault (List Byte) :=
  if n ≤ block.length then .ok (block.take n) else .error .outOfBounds

/-- Writing bytes into a block from position `i` on. -/
def write_bytes (block : List Byte) (i : Nat) (data : List Byte) : Except Fault (List Byte) :=
  if i + data.length ≤ block.length then .ok (splice block i data) else .error .outOfBounds

/-- `memcpy` or `memmove` of the first `n` bytes of a block to the start of another. -/
def memcpy (dest src : List Byte) (n : Nat) : Except Fault (List Byte) := do
  write_bytes dest 0 (← read_bytes src n)

/-- `strcat` of two blocks that do not overlap. -/
def strcat (dest src : List Byte) : Except Fault (List Byte) := do
  let i ← strlen dest
  let n ← strlen src
  write_bytes dest i (src.take n ++ [0])

/-- The copying loop of `strcat` when both arguments are one block: it reads what it has written. -/
def strcat_self_loop (i : Nat) : Nat → Nat → List Byte → Except Fault (List Byte)
  | 0, _, _ => .error .outOfBounds
  | fuel+1, j, block =>
    match block[j]? with
    | none => .error .outOfBounds
    | some c =>
      if i + j < block.length then
        if c = 0 then .ok (block.set (i+j) 0) else strcat_self_loop i fuel (j+1) (block.set (i+j) c)
      else .error .outOfBounds

def strcat_self (block : List Byte) : Except Fault (List Byte) := do
  let i ← strlen block
  strcat_self_loop i (block.length+1) 0 block

/-- `strchr(cset, c) != NULL`; the terminating NUL is part of the set. -/
def strchr (cset : List Byte) (c : Byte) : Bool := c = 0 || cset.contains c

/-! ### Making strings -/

def atm_str_size (slen : Nat) : Nat :=
  if 0 < slen then u32 (slen - slen % ATM_WORDLEN + ATM_WORDLEN) else 0

/-- `atm_alloc` of a header with its bytes, all zero; the callers write the header. -/
def hdr_alloc (size : Nat) : Except Fault (List Byte) :=
  if hdrlen ≤ atm_alloc size then .ok (List.replicate (atm_alloc size - hdrlen) 0) else .error .outOfBounds

def atm_str_new : Option (List Byte) → Except Fault (Option Str)
  | none => .ok none
  | some str => do
    let slen := u32 (← strlen (c_string str))
    let size := atm_str_size (u32 (hdrlen + slen + 1))
    let val ← hdr_alloc size
    let val ← (if 0 < slen then memcpy val (c_string str) slen else .ok val)
    return some ⟨sub32 size (hdrlen+1),slen,val⟩

/-- `size` bytes of the old block, header included, are copied to the new one. -/
def atm_str_dup : Option Str → Except Fault (Option Str)
  | none => .ok none
  | some str => do
    let size := u32 (hdrlen + str.cap + 1)
    let val ← hdr_alloc size
    let val ← memcpy val str.val (size - hdrlen)
    return some ⟨str.cap,str.len,val⟩

def atm_str_len : Option Str → Nat
  | none => 0
  | some str => str.len

/-! ### Appending -/

structure Appended where
  str : Option Str
  same_block : Bool
  freed : List Str
  deriving DecidableEq, Repr

/-- The body of `atm_str_grow` for `need > 0` and a string that is not NULL. -/
def atm_str_grow_block (str : Str) (need : Nat) : Except Fault Appended :=
  let avail := sub32 str.cap str.len
  if avail < need then do
    let newlen := u32 (str.len + need)
    let newsz := atm_str_size (u32 (hdrlen + newlen + 1))
    let val ← hdr_alloc newsz
    let val ← memcpy val str.val str.len
    return ⟨some ⟨sub32 newsz (hdrlen+1),newlen,val⟩,false,[str]⟩
  else .ok ⟨some str,true,[]⟩

def atm_str_grow (str : Option Str) (need : Nat) : Except Fault Appended :=
  if 0 < need then
    match str with
    | some s => atm_str_grow_block s need
    | none => do
      match ← atm_str_new (some []) with
      | none => throw .nullDeref
      | some s =>
        let res ← atm_str_grow_block s need
        return { res with same_block := false }
  else .ok ⟨str,true,[]⟩

/-- What the four concatenations do after `atm_str_grow`: add `slen` to the header, then `strcat`. -/
def append_grown (slen : Nat) (cat : Appended → List Byte → Except Fault (List Byte)) (res : Appended) :
    Except Fault Appended :=
  match res.str with
  | none => .error .nullDeref
  | some h => do
    let val ← cat res h.val
    return { res with str := some ⟨h.cap,u32 (h.len + slen),val⟩ }

/-- The common body of the four concatenations. -/
def append (dest : Option Str) (slen : Nat) (cat : Appended → List Byte → Except Fault (List Byte)) :
    Except Fault Appended := atm_str_grow dest slen >>= append_grown slen cat

def atm_str_cats (dest : Option Str) : Option (List Byte) → Except Fault Appended
  | none => .ok ⟨dest,true,[]⟩
  | some src => do
    let slen := u32 (← strlen (c_string src))
    append dest slen (fun _ val => strcat val (c_string src))

def atm_str_cats_dup (dest : Option Str) (src : Option (List Byte)) : Except Fault Appended := do
  let dup ← atm_str_dup dest
  match src with
  | none => return ⟨dup,false,[]⟩
  | some src =>
    let slen := u32 (← strlen (c_string src))
    append dup slen (fun _ val => strcat val (c_string src))

/-- With `same`, `dest` and `src` are one pointer: when `dest` has moved, `src` dangles. -/
def atm_str_cat (dest src : Option Str) (same : Bool) : Except Fault Appended :=
  match src with
  | none => .ok ⟨dest,true,[]⟩
  | some s => append dest s.len (fun res val =>
      if same then if res.same_block then strcat_self val else .error .useAfterFree
      else strcat val s.val)

def atm_str_cat_dup (dest src : Option Str) : Except Fault Appended := do
  let dup ← atm_str_dup dest
  match src with
  | none => return ⟨dup,false,[]⟩
  | some s => append dup s.len (fun _ val => strcat val s.val)

/-! ### Changes in place -/

/-- The first loop of `atm_str_trim`: `left` bytes lie from `sp` to `end`. -/
def trim_start (val cset : List Byte) : Nat → Nat → Except Fault Nat
  | 0, sp => .ok sp
  | left+1, sp =>
    match val[sp]? with
    | none => .error .outOfBounds
    | some c => if strchr cset c then trim_start val cset left (sp+1) else .ok sp

/-- The second loop, from `ep + 1` downwards, while `ep > sp`. -/
def trim_end (val cset : List Byte) (sp : Nat) : Nat → Except Fault Nat
  | 0 => .ok 0
  | ep+1 =>
    if sp < ep then
      match val[ep]? with
      | none => .error .outOfBounds
      | some c => if strchr cset c then trim_end val cset sp ep else .ok (ep+1)
    else .ok (ep+1)

def atm_str_trim (str : Option Str) (cset : List Byte) : Except Fault (Option Str) :=
  match str with
  | none => .error .nullDeref
  | some s => do
    let sp ← trim_start s.val cset s.len 0
    let ep ← trim_end s.val cset sp s.len
    let len := ep - sp
    let val ← (if sp ≠ 0 then memcpy s.val (s.val.drop sp) len else .ok s.val)
    let val ← write_bytes val len [0]
    return some ⟨s.cap,u32 len,val⟩

/-- `if (str[i]>='A' && str[i]<='Z') str[i] += offset;` -/
def lower (c : Byte) : Byte := if 65 ≤ c ∧ c ≤ 90 then c + 32 else c
def upper (c : Byte) : Byte := if 97 ≤ c ∧ c ≤ 122 then c - 32 else c

/-- The loop of `atm_str_tolower` and `atm_str_toupper`; the length is read into an `int`,
    which is negative from `2^31` on. -/
def map_case (f : Byte → Byte) : Option Str → Except Fault (Option Str)
  | none => .ok none
  | some s => do
    let len := if s.len < 2^31 then s.len else 0
    let val ← write_bytes s.val 0 ((← read_bytes s.val len).map f)
    return some { s with val := val }

def atm_str_tolower (str : Option Str) : Except Fault (Option Str) := map_case lower str
def atm_str_toupper (str : Option Str) : Except Fault (Option Str) := map_case upper str

/-! ### Comparing -/

/-- `strcmp` of two texts; only the sign is used. -/
def strcmp : List Byte → List Byte → Int
  | [], [] => 0
  | [], _ :: _ => -1
  | _ :: _, [] => 1
  | a :: s, b :: t => if a = b then strcmp s t else if a < b then -1 else 1

def ATM_CMP_EQ : Int := 0
def ATM_CMP_GT : Int := 1
def ATM_CMP_LT : Int := -1

/-- Equal pointers have equal blocks, which compare equal. -/
def atm_str_cmp : Option Str → Option Str → Except Fault Int
  | none, none => .ok ATM_CMP_EQ
  | str1, str2 =>
    if atm_str_len str2 < atm_str_len str1 then .ok ATM_CMP_GT
    else if atm_str_len str1 < atm_str_len str2 then .ok ATM_CMP_LT
    else
      match str1, str2 with
      | some s1, some s2 => do return strcmp (s1.val.take (← strlen s1.val)) (s2.val.take (← strlen s2.val))
      | _, _ => throw .nullDeref

def atm_str_eqs (str1 : Option Str) (s : List Byte) : Except Fault Bool := do
  return (← atm_str_cmp str1 (← atm_str_new (some s))) = ATM_CMP_EQ

/-- A comparison that does not return is no match here; it would need NULL and an empty string. -/
def atm_str_match (str1 str2 : Option Str) : Bool :=
  match atm_str_cmp str1 str2 with
  | .ok res => res = ATM_CMP_EQ
  | .error _ => false

/-- The hash function of the dictionary over the bytes that the header counts. -/
def atm_str_hash (siphash : List Byte → UInt64) : Option Str → UInt64
  | none => siphash []
  | some str => siphash (str.val.take str.len)

/-! ### Splitting -/

/-- The variables of `atm_str_split`: quote type, quote depth, separator mode, the token
    with its length and the table of tokens. -/
structure Split where
  qty : Byte
  inq : Nat
  trb : Bool
  t : List Byte
  ti : Nat
  sl : List (List Byte)
  deriving DecidableEq, Repr

def char_size : Nat := 8

/-- A byte inside quotes: `"` is 34 and `'` is 39. -/
def split_quoted (c : Byte) (s : Split) : Split :=
  if c = 34 then
    if s.qty = 34 then { s with inq := s.inq - 1, qty := if 0 < s.inq - 1 then 39 else 0 }
    else if s.qty = 39 then { s with inq := s.inq + 1, qty := 34 }
    else s
  else if c = 39 then
    if s.qty = 34 then { s with inq := s.inq + 1, qty := 39 }
    else if s.qty = 39 then { s with inq := s.inq - 1, qty := if 0 < s.inq - 1 then 34 else 0 }
    else s
  else s

/-- `t[ti++] = *p` -/
def split_put (c : Byte) (s : Split) : Except Fault Split := do
  return { s with t := ← write_bytes s.t s.ti [c], ti := s.ti + 1 }

/-- `sl[sli++] = t` in a table for `len` pointers, whose byte count is an `atm_uint_t`. -/
def split_store (len : Nat) (s : Split) : Except Fault Split :=
  if s.sl.length < atm_alloc (char_size * len) / char_size then .ok { s with sl := s.sl ++ [s.t] } else .error .outOfBounds

def split_token (len : Nat) : List Byte := List.replicate (atm_alloc (len + 1)) 0

/-- One round of the loop. -/
def split_byte (sep : Byte) (len : Nat) (s : Split) (c : Byte) : Except Fault Split :=
  if c = 0 then .ok s
  else if 0 < s.inq then split_put c (split_quoted c s)
  else
    let s := if c = 34 ∨ c = 39 then { s with qty := c, inq := s.inq + 1 } else s
    if c = sep then
      if s.trb = false then do
        if 0 < (← strlen s.t) then
          let s ← split_store len s
          return { s with t := split_token len, ti := 0, trb := true }
        else return { s with trb := true }
      else .ok s
    else split_put c { s with trb := false }

/-- From `2^31` on `len` is negative and the loop does not run. The last token is never the
    one that was stored last. The result ends with NULL. -/
def atm_str_split (str : List Byte) (sep : Byte) (len : Nat) : Except Fault (Option (List (Option Str))) := do
  let bytes ← read_bytes str (if len < 2^31 then len else 0)
  let s ← bytes.foldlM (split_byte sep len) ⟨0,0,false,split_token len,0,[]⟩
  let s ← (do if 0 < (← strlen s.t) then split_store len s else return s)
  if s.sl = [] then return none
  else if s.sl.length < atm_alloc (char_size * (s.sl.length + 1)) / char_size then do
    let res ← s.sl.mapM (fun t => do atm_str_new (some (t.take (← strlen t))))
    return some (res ++ [none])
  else throw .outOfBounds

/-- The pointers before the NULL. -/
def atm_str_split_size : Option (List (Option Str)) → Except Fault Nat
  | none => .ok 0
  | some argv => if none ∈ argv then .ok (argv.takeWhile Option.isSome).length else .error .outOfBounds

/-! ### Runs of calls -/

/-- The pointer variables of a program, NULL at first. -/
abbrev Vars := Nat → Option Str

def no_strings : Vars := fun _ => none

/-- A call whose result is stored in the first variable. -/
inductive Op where
  | new (x : Nat) (str : Option (List Byte))
  | dup (x y : Nat)
  | cats (x : Nat) (src : Option (List Byte))
  | cats_dup (x y : Nat) (src : Option (List Byte))
  | cat (x y : Nat)
  | cat_dup (x y z : Nat)
  | trim (x : Nat) (cset : List Byte)
  | tolower (x : Nat)
  | toupper (x : Nat)
  deriving DecidableEq, Repr

/-- The variable that a call stores its result in. -/
def Op.target : Op → Nat
  | .new x _ => x
  | .dup x _ => x
  | .cats x _ => x
  | .cats_dup x _ _ => x
  | .cat x _ => x
  | .cat_dup x _ _ => x
  | .trim x _ => x
  | .tolower x => x
  | .toupper x => x

def result (vars : Vars) : Op → Except Fault (Option Str)
  | .new _ str => atm_str_new str
  | .dup _ y => atm_str_dup (vars y)
  | .cats x src => Appended.str <$> atm_str_cats (vars x) src
  | .cats_dup _ y src => Appended.str <$> atm_str_cats_dup (vars y) src
  | .cat x y => Appended.str <$> atm_str_cat (vars x) (vars y) (x = y)
  | .cat_dup _ y z => Appended.str <$> atm_str_cat_dup (vars y) (vars z)
  | .trim x cset => atm_str_trim (vars x) cset
  | .tolower x => atm_str_tolower (vars x)
  | .toupper x => atm_str_toupper (vars x)

def step (vars : Vars) (op : Op) : Except Fault Vars := do
  return Function.update vars op.target (← result vars op)

end AtmCache.Strings
