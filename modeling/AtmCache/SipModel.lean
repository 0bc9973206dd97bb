import AtmCache.StrModel
import AtmCache.Words

/-!
# The hash of `atm_siphash.c`

`atm_siphash` and `atm_siphash_nocase` differ in how they load eight bytes of the input and in how
they take a byte of the rest; what they share is written once (`siphash_with`). The seed is the
array that `atm_siphash_init` fills. The loads are those of a CPU that reads words of unaligned
bytes, lowest byte first (`UNALIGNED_LE_CPU`). Every read is checked against the block.
-/
namespace AtmCache.Siphash
open Runs Strings

/-- The variables `v0` to `v3`. -/
structure State where
  v0 : UInt64
  v1 : UInt64
  v2 : UInt64
  v3 : UInt64
  deriving DecidableEq, Repr

/-- `siptlw` of an `atm_int_t`; 'A' is 65, 'Z' is 90 and 'a' is 97. -/
def siptlw (c : Int) : Int := if 65 ≤ c ∧ c ≤ 90 then c + (97 - 65) else c

/-- `(uint64_t)b` -/
def plain_byte (b : Byte) : UInt64 := b.toUInt64

/-- `(uint64_t)siptlw(b)`: the byte becomes an `int` and its result an unsigned word. -/
def nocase_byte (b : Byte) : UInt64 := UInt64.ofInt (siptlw b.toNat)

/-! ### Reading -/

def byte_at (block : List Byte) (p : Nat) : Except Fault Byte :=
  match block[p]? with
  | some c => .ok c
  | none => .error .outOfBounds

/-- The bytes `p[0]` to `p[7]`. -/
def word_at (block : List Byte) (p : Nat) : Except Fault (Vector Byte 8) :=
  if fits : p + 8 ≤ block.length then
    .ok ⟨((block.drop p).take 8).toArray,by rw [List.size_toArray,List.length_take,List.length_drop]; omega⟩
  else .error .outOfBounds

/-- `*((uint64_t*)(p))` -/
def U8TO64_LE (p : Vector Byte 8) : UInt64 := UInt64.ofNat (Words.of_bytes p.toList)

/-- The eight bytes shifted to their places, as the loads of other CPUs and `U8TO64_LE_NOCASE` do it. -/
def shifted_bytes (byte : Byte → UInt64) (p : Vector Byte 8) : UInt64 :=
  byte p[0] ||| byte p[1] <<< 8 ||| byte p[2] <<< 16 ||| byte p[3] <<< 24 |||
    byte p[4] <<< 32 ||| byte p[5] <<< 40 ||| byte p[6] <<< 48 ||| byte p[7] <<< 56

def U8TO64_LE_NOCASE (p : Vector Byte 8) : UInt64 := shifted_bytes nocase_byte p

/-! ### Mixing -/

def ROTL (x b : UInt64) : UInt64 := x <<< b ||| x >>> (64 - b)

def SIPROUND (s : State) : State :=
  let v0 := s.v0 + s.v1
  let v1 := ROTL s.v1 13
  let v1 := v1 ^^^ v0
  let v0 := ROTL v0 32
  let v2 := s.v2 + s.v3
  let v3 := ROTL s.v3 16
  let v3 := v3 ^^^ v2
  let v0 := v0 + v3
  let v3 := ROTL v3 21
  let v3 := v3 ^^^ v0
  let v2 := v2 + v1
  let v1 := ROTL v1 17
  let v1 := v1 ^^^ v2
  let v2 := ROTL v2 32
  ⟨v0,v1,v2,v3⟩

/-- The variables once the seed is mixed in. -/
def seeded (siphash_seed : Vector Byte 16) : State :=
  let k0 := U8TO64_LE (siphash_seed.extract 0 8)
  let k1 := U8TO64_LE (siphash_seed.extract 8 16)
  ⟨0x736f6d6570736575 ^^^ k0,0x646f72616e646f6d ^^^ k1,0x6c7967656e657261 ^^^ k0,0x7465646279746573 ^^^ k1⟩

/-- One word: the body of the loop, and what is done with the last word `b`. -/
def mix (s : State) (m : UInt64) : State :=
  let s := SIPROUND { s with v3 := s.v3 ^^^ m }
  { s with v0 := s.v0 ^^^ m }

/-- The loop from `p` to `end`, which lies `n` words further on. -/
def siphash_loop (word : Vector Byte 8 → UInt64) (block : List Byte) : Nat → Nat → State → Except Fault State
  | 0, _, s => .ok s
  | n+1, p, s => do siphash_loop word block n (p+8) (mix s (word (← word_at block p)))

/-- The cases of the `switch` from `left` downwards, each of which falls through to the next. -/
def siphash_tail (byte : Byte → UInt64) (block : List Byte) (p : Nat) : Nat → UInt64 → Except Fault UInt64
  | 0, b => .ok b
  | left+1, b => do
    siphash_tail byte block p left (b ||| byte (← byte_at block (p+left)) <<< UInt64.ofNat (8 * left))

/-- The common body of the two hash functions. -/
def siphash_with (word : Vector Byte 8 → UInt64) (byte : Byte → UInt64) (siphash_seed : Vector Byte 16)
    (input : List Byte) (inlen : UInt32) : Except Fault UInt64 := do
  let stop := (inlen - inlen % 8).toNat
  let left := (inlen &&& 7).toNat
  let s ← siphash_loop word input (stop / 8) 0 (seeded siphash_seed)
  let b ← siphash_tail byte input stop left (inlen.toUInt64 <<< 56)
  let s := mix s b
  let s := SIPROUND (SIPROUND { s with v2 := s.v2 ^^^ 0xff })
  return s.v0 ^^^ s.v1 ^^^ s.v2 ^^^ s.v3

/-- The block `input` has at least `inlen` bytes where the function returns. -/
def atm_siphash : Vector Byte 16 → List Byte → UInt32 → Except Fault UInt64 := siphash_with U8TO64_LE plain_byte

def atm_siphash_nocase : Vector Byte 16 → List Byte → UInt32 → Except Fault UInt64 :=
  siphash_with U8TO64_LE_NOCASE nocase_byte

end AtmCache.Siphash
