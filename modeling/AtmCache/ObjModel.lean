import AtmCache.SipModel

/-!
# Keys by pointer

`atm_str_cmp`, `atm_str_match` and `atm_str_hash` on pointers to strings, with the test for equal
pointers that comes first, and the objects of `atm_obj.c` over them. A `v_type` is a pointer to
a record of function pointers, any of which may be NULL; the records are given by `types`. An
object is read through its pointer only, so it stands for itself, and NULL is `none`.
-/
namespace AtmCache.Objects
open Runs Strings

/-- A `void *` that points to the bytes of a string, or NULL. -/
abbrev Ptr := Option Nat

/-- The strings in memory, by the address of their bytes. -/
abbrev Mem := Nat → Option Str

/-- What a pointer to a string points to; NULL stays NULL. -/
def block (m : Mem) : Ptr → Except Fault (Option Str)
  | none => .ok none
  | some p =>
    match m p with
    | some s => .ok (some s)
    | none => .error .useAfterFree

/-! ### Strings -/

def atm_str_cmp (m : Mem) (str1 str2 : Ptr) : Except Fault Int :=
  if str1 = str2 then .ok ATM_CMP_EQ
  else do Strings.atm_str_cmp (← block m str1) (← block m str2)

def atm_str_eq (m : Mem) (str1 str2 : Ptr) : Except Fault Bool := do
  return (← atm_str_cmp m str1 str2) = 0

def atm_str_match (m : Mem) (str1 str2 : Ptr) : Except Fault Bool := atm_str_eq m str1 str2

/-- The bytes from a pointer on; no byte is read from NULL, whose length is 0. -/
def bytes : Option Str → List Byte
  | none => []
  | some s => s.val

/-- `atm_dict_hash` is `atm_siphash`. -/
def atm_str_hash (siphash_seed : Vector Byte 16) (m : Mem) (str : Ptr) : Except Fault UInt64 := do
  let ss ← block m str
  let len := atm_str_len ss
  Siphash.atm_siphash siphash_seed (bytes ss) (UInt32.ofNat len)

/-! ### Objects -/

/-- The function pointers of an `atm_T_t` that compare and hash. -/
structure T where
  match_fn : Option (Mem → Ptr → Ptr → Except Fault Bool)
  hash : Option (Mem → Ptr → Except Fault UInt64)
  compare : Option (Mem → Ptr → Ptr → Except Fault Int)

def ATM_STR_TYPE (siphash_seed : Vector Byte 16) : T := ⟨some atm_str_match,some (atm_str_hash siphash_seed),some atm_str_cmp⟩

/-- `atm_obj_t` -/
structure Obj where
  v_type : Option Nat
  value : Ptr
  deriving DecidableEq, Repr

variable (types : Nat → T) (m : Mem)

def atm_obj_match : Option Obj → Option Obj → Except Fault Bool
  | none, none => .ok true
  | some _, none => .ok false
  | none, some _ => .ok false
  | some o1, some o2 =>
    if o1.v_type ≠ o2.v_type then .ok false
    else if o1.value = o2.value then .ok true
    else
      match o1.v_type, o2.v_type with
      | some t, some _ =>
        match (types t).match_fn with
        | some match_fn => match_fn m o1.value o2.value
        | none => .ok false
      | _, _ => .ok false

def atm_obj_hash : Option Obj → Except Fault UInt64
  | some ⟨some t,value⟩ =>
    match (types t).hash with
    | some hash => hash m value
    | none => .ok 0
  | _ => .ok 0

/-- The pointer `compare` is called without a test. -/
def atm_obj_compare : Option Obj → Option Obj → Except Fault Int
  | some ⟨some t1,val1⟩, some ⟨some t2,val2⟩ =>
    if t1 = t2 then
      match (types t1).compare with
      | some compare => compare m val1 val2
      | none => .error .nullDeref
    else .ok 0
  | _, _ => .ok 0

end AtmCache.Objects
