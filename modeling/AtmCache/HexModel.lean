import AtmCache.ConfigModel
import AtmCache.StrHeader

/-!
# The hex dump of `atm_util.c`

`atm_util_hexdump` writes "0x" and two digits for each byte into a block of exactly that many
bytes (`hexdump_eq`). The digits can be read back (`decode_digits`), so that different bytes have
different dumps. The block has no byte left for a NUL, and so no dump is a string: whoever
looks for its end leaves the block (`strlen_dump`).
-/
namespace AtmCache.Hex
open Strings CStrings Runs
open AtmCache.Configuration (chars)

def hexdict : List Byte := chars "0123456789abcdef"

/-- `hexdict[n]` -/
def hex_char (n : Nat) : Except Fault Byte :=
  match (c_string hexdict)[n]? with
  | some c => .ok c
  | none => .error .outOfBounds

/-- The loop with `left` bytes to go; `s` is the place in the block that is written next. -/
def atm_util_hexdump_loop (p : List Byte) : Nat → Nat → Nat → List Byte → Except Fault (List Byte)
  | 0, _, _, res => .ok res
  | left+1, i, s, res =>
    match p[i]? with
    | none => .error .outOfBounds
    | some b => do
      let res ← write_bytes res s [← hex_char ((b.toNat &&& 0xf0) >>> 4)]
      let res ← write_bytes res (s+1) [← hex_char (b.toNat &&& 0x0f)]
      atm_util_hexdump_loop p left (i+1) (s+2) res

/-- The block that is returned; `calloc` takes its size modulo `2^64`. -/
def atm_util_hexdump (p : List Byte) (len : Nat) : Except Fault (List Byte) := do
  let res := List.replicate ((len * 2 + 2) % 2^64) 0
  let res ← write_bytes res 0 (chars "0")
  let res ← write_bytes res 1 (chars "x")
  atm_util_hexdump_loop p len 0 2 res

/-! ### Digits -/

def digit (n : Nat) : Byte := hexdict.getD n 0

/-- Two digits for each byte. -/
def digits (p : List Byte) : List Byte := p.flatMap (fun b => [digit (b.toNat / 16),digit (b.toNat % 16)])

/-- The value of a digit, lowercase only. -/
def value (c : Byte) : Option Nat := if c ∈ hexdict then some (hexdict.idxOf c) else none

def decode : List Byte → Option (List Byte)
  | [] => some []
  | [_] => none
  | high :: low :: rest => do
    let h ← value high
    let l ← value low
    return UInt8.ofNat (16 * h + l) :: (← decode rest)

theorem value_digit : ∀ n < 16, value (digit n) = some n := by decide +kernel

theorem digit_nonzero : ∀ n < 16, digit n ≠ 0 := by decide +kernel

theorem hex_char_digit : ∀ n < 16, hex_char n = .ok (digit n) := by decide +kernel

theorem high_lt (b : Byte) : b.toNat / 16 < 16 := by
  have := b.toNat_lt
  omega

theorem high_half (b : Byte) : (b.toNat &&& 0xf0) >>> 4 = b.toNat / 16 := by
  have cut : b.toNat / 16 &&& 15 = b.toNat / 16 % 16 := Nat.and_two_pow_sub_one_eq_mod _ 4
  rw [Nat.shiftRight_and_distrib,Nat.shiftRight_eq_div_pow]
  exact cut.trans (Nat.mod_eq_of_lt (high_lt b))

theorem low_half (b : Byte) : b.toNat &&& 0x0f = b.toNat % 16 := Nat.and_two_pow_sub_one_eq_mod _ 4

theorem digits_cons (b : Byte) (p : List Byte) :
    digits (b :: p) = digit (b.toNat / 16) :: digit (b.toNat % 16) :: digits p := rfl

theorem digits_length (p : List Byte) : (digits p).length = p.length * 2 := by
  induction p with
  | nil => rfl
  | cons b p ih =>
    rw [digits_cons,List.length_cons,List.length_cons,List.length_cons,ih]
    omega

theorem digits_clean (p : List Byte) : 0 ∉ digits p := by
  intro member
  obtain ⟨b,_,here⟩ := List.mem_flatMap.mp member
  have low : b.toNat % 16 < 16 := Nat.mod_lt _ (by omega)
  rcases List.mem_pair.mp here with zero | zero
  · exact digit_nonzero _ (high_lt b) zero.symm
  · exact digit_nonzero _ low zero.symm

/-- Decoding gives the bytes back. -/
theorem decode_digits (p : List Byte) : decode (digits p) = some p := by
  induction p with
  | nil => rfl
  | cons b p ih =>
    have low : b.toNat % 16 < 16 := Nat.mod_lt _ (by omega)
    have whole : UInt8.ofNat (16 * (b.toNat / 16) + b.toNat % 16) = b := by
      rw [Nat.div_add_mod,UInt8.ofNat_toNat]
    rw [digits_cons,decode,value_digit _ (high_lt b),value_digit _ low,ih]
    simp only [Option.bind_eq_bind,Option.bind_some,whole]
    rfl

/-! ### The block -/

theorem write_next (front rest : List Byte) (old c : Byte) :
    write_bytes (front ++ old :: rest) front.length [c] = .ok (front ++ c :: rest) := by
  rw [write_bytes_ok (by simp)]
  have place : splice (front ++ [old] ++ rest) front.length [c] = front ++ [c] ++ rest := splice_append front [old] rest rfl
  simp only [List.append_assoc,List.singleton_append] at place
  rw [place]

/-- The loop fills the rest of the block with the digits of the rest of the bytes. -/
theorem hexdump_loop_eq (todo : List Byte) : ∀ done front : List Byte,
    atm_util_hexdump_loop (done ++ todo) todo.length done.length front.length
      (front ++ List.replicate (todo.length * 2) 0) = .ok (front ++ digits todo) := by
  induction todo with
  | nil =>
    intro done front
    rfl
  | cons b todo ih =>
    intro done front
    have here : (done ++ b :: todo)[done.length]? = some b := by simp
    have room : List.replicate ((todo.length + 1) * 2) (0 : Byte) = 0 :: 0 :: List.replicate (todo.length * 2) 0 := by
      rw [Nat.add_mul]
      rfl
    have high := hex_char_digit _ (high_lt b)
    have low := hex_char_digit (b.toNat % 16) (Nat.mod_lt _ (by omega))
    have second := write_next (front ++ [digit (b.toNat / 16)]) (List.replicate (todo.length * 2) 0) 0
      (digit (b.toNat % 16))
    have next := ih (done ++ [b]) (front ++ [digit (b.toNat / 16),digit (b.toNat % 16)])
    simp only [List.length_append,List.length_cons,List.length_nil,List.append_assoc,List.cons_append,
      List.nil_append] at second next
    rw [List.length_cons,atm_util_hexdump_loop,here]
    dsimp only
    rw [high_half,low_half,high,ok_bind,room,write_next,ok_bind,low,ok_bind,second,ok_bind,digits_cons]
    exact next

/-- The dump of bytes is "0x" with their digits, in a block of just that length. -/
theorem hexdump_eq {p : List Byte} (fits : 2 * p.length + 2 < 2^64) :
    atm_util_hexdump p p.length = .ok (chars "0x" ++ digits p) := by
  have size : (p.length * 2 + 2) % 2^64 = p.length * 2 + 2 := Nat.mod_eq_of_lt (by omega)
  have first : write_bytes (List.replicate (p.length * 2 + 2) 0) 0 (chars "0") =
      .ok (chars "0" ++ 0 :: List.replicate (p.length * 2) 0) := write_next [] _ 0 48
  have second : write_bytes (chars "0" ++ 0 :: List.replicate (p.length * 2) 0) 1 (chars "x") =
      .ok (chars "0x" ++ List.replicate (p.length * 2) 0) := write_next [48] _ 0 120
  unfold atm_util_hexdump
  dsimp only
  rw [size,first,ok_bind,second,ok_bind]
  exact hexdump_loop_eq p [] (chars "0x")

theorem dump_clean (p : List Byte) : 0 ∉ chars "0x" ++ digits p := by
  rw [List.mem_append]
  exact fun member => member.elim (by decide +kernel) (digits_clean p)

/-- A dump fills its block, and the search for its end leaves it. -/
theorem strlen_dump {p res : List Byte} (fits : 2 * p.length + 2 < 2^64)
    (done : atm_util_hexdump p p.length = .ok res) :
    res.length = p.length * 2 + 2 ∧ strlen res = .error .outOfBounds := by
  rw [hexdump_eq fits] at done
  cases done
  constructor
  · rw [List.length_append,digits_length]
    exact Nat.add_comm ..
  · rw [strlen,if_neg (dump_clean p)]

/-- Different bytes have different dumps. -/
theorem hexdump_injective {p q : List Byte} (fits : 2 * p.length + 2 < 2^64) (fits' : 2 * q.length + 2 < 2^64)
    (same : atm_util_hexdump p p.length = atm_util_hexdump q q.length) : p = q := by
  rw [hexdump_eq fits,hexdump_eq fits',Except.ok.injEq,List.append_cancel_left_eq] at same
  have back := decode_digits p
  rw [same,decode_digits] at back
  exact (Option.some.inj back).symm

/-! ### A string -/

/-- A dump as a string: it ends in its block, and its text is "0x" with digits that decode to the bytes. -/
structure Dumped (p res : List Byte) : Prop where
  terminated : 0 ∈ res
  shown : text 0 res = chars "0x" ++ digits p
  decoded : decode ((text 0 res).drop 2) = some p

/-- The dump of bytes is a string, and only theirs. -/
def DumpsWell (p : List Byte) : Prop :=
  ∃ res, atm_util_hexdump p p.length = .ok res ∧ Dumped p res ∧
    ∀ q : List Byte, 2 * q.length + 2 < 2^64 → atm_util_hexdump q q.length = .ok res → q = p

/-- All of the digits are there for every input, and for none of them the end. -/
theorem dumps_well_never {p : List Byte} (fits : 2 * p.length + 2 < 2^64) : ¬ DumpsWell p := by
  rintro ⟨res,done,dumped,_⟩
  rw [hexdump_eq fits] at done
  cases done
  exact dump_clean p dumped.terminated

theorem dumps_well_never_bytes : ¬ DumpsWell [0,171,16] := dumps_well_never (by decide)

/-- The dump of the byte 171 is the block "0xab", and the search for its end leaves it. -/
theorem byte_dump_open : atm_util_hexdump [171] 1 = .ok (chars "0xab") ∧
    strlen (chars "0xab") = .error .outOfBounds ∧ ¬ DumpsWell [171] := by
  have dumped : atm_util_hexdump [171] 1 = .ok (chars "0xab") := by decide +kernel
  refine ⟨dumped,by decide +kernel,?_⟩
  rintro ⟨res,done,string,_⟩
  rw [show ([171] : List Byte).length = 1 from rfl,dumped] at done
  cases done
  exact absurd string.terminated (by decide +kernel)

end AtmCache.Hex
