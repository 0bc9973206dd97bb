import AtmCache.SipModel

/-!
# The hash that ignores case

`atm_siphash_nocase` of an input is `atm_siphash` of the lowered input. Eight bytes that are
shifted to their places make the word that one load reads (`shifted_bytes_plain`), a byte that
went through `siptlw` is the lowered byte (`nocase_byte_eq`), and so both functions mix the same
words. The reads of both stay within the first `inlen` bytes (`siphash_with_returns`).
-/
namespace AtmCache.Siphash
open Runs Strings

variable {word : Vector Byte 8 → UInt64} {byte : Byte → UInt64}

/-! ### Bytes and words -/

theorem siptlw_byte (b : Byte) : siptlw b.toNat = ((lower b).toNat : Int) := by
  have small : b.toNat < 2^8 := b.toNat_lt
  by_cases capital : 65 ≤ b.toNat ∧ b.toNat ≤ 90
  · have inside : 65 ≤ b ∧ b ≤ 90 := capital
    rw [siptlw,if_pos (by omega),lower,if_pos inside,UInt8.toNat_add]
    change (b.toNat : Int) + (97 - 65) = ((b.toNat + 32) % 2^8 : Nat)
    omega
  · have outside : ¬(65 ≤ b ∧ b ≤ 90) := capital
    rw [siptlw,if_neg (by omega),lower,if_neg outside]

theorem nocase_byte_eq (b : Byte) : nocase_byte b = plain_byte (lower b) := by
  have small : (lower b).toNat < 2^8 := (lower b).toNat_lt
  apply UInt64.toNat_inj.mp
  rw [nocase_byte,siptlw_byte,UInt64.ofInt,plain_byte,UInt8.toNat_toUInt64,UInt64.toNat_ofNat']
  omega

/-- The eight shifted bytes are the word that one load reads. -/
theorem shifted_bytes_plain (p : Vector Byte 8) : shifted_bytes plain_byte p = U8TO64_LE p := by
  have bytes : p.toList = [p[0],p[1],p[2],p[3],p[4],p[5],p[6],p[7]] := by
    apply List.ext_getElem
    · exact Vector.length_toList
    · intro i inside _
      rw [Vector.length_toList] at inside
      rcases i with _ | _ | _ | _ | _ | _ | _ | _ | i
      all_goals first | rfl | omega
  have w0 : (plain_byte p[0]).toNat = Words.of_bytes [p[0]] := (UInt8.toNat_toUInt64 _).trans (by simp [Words.of_bytes])
  have w1 := Words.or_byte 8 w0 rfl (by simp) p[1]
  have w2 := Words.or_byte 16 w1 rfl (by simp) p[2]
  have w3 := Words.or_byte 24 w2 rfl (by simp) p[3]
  have w4 := Words.or_byte 32 w3 rfl (by simp) p[4]
  have w5 := Words.or_byte 40 w4 rfl (by simp) p[5]
  have w6 := Words.or_byte 48 w5 rfl (by simp) p[6]
  have w7 := Words.or_byte 56 w6 rfl (by simp) p[7]
  have fits : Words.of_bytes [p[0],p[1],p[2],p[3],p[4],p[5],p[6],p[7]] < 2^64 := Words.of_bytes_lt _
  apply UInt64.toNat_inj.mp
  rw [U8TO64_LE,bytes,UInt64.toNat_ofNat',Nat.mod_eq_of_lt fits]
  exact w7

theorem shifted_bytes_congr {byte' : Byte → UInt64} {f : Byte → Byte} (same : ∀ b, byte b = byte' (f b))
    (p : Vector Byte 8) : shifted_bytes byte p = shifted_bytes byte' (p.map f) := by
  simp only [shifted_bytes,same,Vector.getElem_map]

theorem nocase_word_eq (p : Vector Byte 8) : U8TO64_LE_NOCASE p = U8TO64_LE (p.map lower) := by
  rw [U8TO64_LE_NOCASE,shifted_bytes_congr nocase_byte_eq,shifted_bytes_plain]

/-! ### Reads of a mapped block -/

theorem byte_at_map (f : Byte → Byte) (block : List Byte) (p : Nat) :
    byte_at (block.map f) p = byte_at block p >>= fun b => .ok (f b) := by
  rw [byte_at,byte_at,List.getElem?_map]
  cases block[p]? with
  | none => rfl
  | some b => rfl

theorem word_at_map (f : Byte → Byte) (block : List Byte) (p : Nat) :
    word_at (block.map f) p = word_at block p >>= fun w => .ok (w.map f) := by
  by_cases fits : p + 8 ≤ block.length
  · have fits' : p + 8 ≤ (block.map f).length := by rwa [List.length_map]
    rw [word_at,word_at,dif_pos fits,dif_pos fits',ok_bind]
    congr 1
    apply Vector.toArray_inj.mp
    simp
  · have beyond : ¬p + 8 ≤ (block.map f).length := by rwa [List.length_map]
    rw [word_at,word_at,dif_neg fits,dif_neg beyond]
    rfl

theorem byte_at_ok {block : List Byte} {p : Nat} (inside : p < block.length) : ∃ b, byte_at block p = .ok b :=
  ⟨block[p],by rw [byte_at,List.getElem?_eq_getElem inside]⟩

theorem word_at_ok {block : List Byte} {p : Nat} (fits : p + 8 ≤ block.length) : ∃ w, word_at block p = .ok w :=
  ⟨_,dif_pos fits⟩

/-! ### The functions -/

section
variable {word' : Vector Byte 8 → UInt64} {byte' : Byte → UInt64} {f : Byte → Byte}

theorem siphash_loop_map (same : ∀ w, word w = word' (w.map f)) (block : List Byte) :
    ∀ n p s, siphash_loop word block n p s = siphash_loop word' (block.map f) n p s := by
  intro n
  induction n with
  | zero => intro p s; rfl
  | succ n ih =>
    intro p s
    rw [siphash_loop,siphash_loop,word_at_map]
    cases word_at block p with
    | error e => rw [error_bind,error_bind,error_bind]
    | ok w => rw [ok_bind,ok_bind,ok_bind,ih,same w]

theorem siphash_tail_map (same : ∀ b, byte b = byte' (f b)) (block : List Byte) (p : Nat) :
    ∀ left b, siphash_tail byte block p left b = siphash_tail byte' (block.map f) p left b := by
  intro left
  induction left with
  | zero => intro b; rfl
  | succ left ih =>
    intro b
    rw [siphash_tail,siphash_tail,byte_at_map]
    cases byte_at block (p+left) with
    | error e => rfl
    | ok c =>
      rw [ok_bind,ok_bind,ok_bind,← same c]
      exact ih _

/-- Two functions that read an input and its image in the same way hash alike. -/
theorem siphash_with_map (same : ∀ w, word w = word' (w.map f)) (same' : ∀ b, byte b = byte' (f b))
    (siphash_seed : Vector Byte 16) (input : List Byte) (inlen : UInt32) :
    siphash_with word byte siphash_seed input inlen = siphash_with word' byte' siphash_seed (input.map f) inlen := by
  rw [siphash_with,siphash_with,siphash_loop_map same]
  congr 1
  funext s
  rw [siphash_tail_map same']

end

theorem siphash_loop_returns (word : Vector Byte 8 → UInt64) (block : List Byte) :
    ∀ n p s, p + 8 * n ≤ block.length → ∃ s', siphash_loop word block n p s = .ok s' := by
  intro n
  induction n with
  | zero => intro p s _; exact ⟨s,rfl⟩
  | succ n ih =>
    intro p s inside
    obtain ⟨w,read⟩ : ∃ w, word_at block p = .ok w := word_at_ok (by omega)
    rw [siphash_loop,read,ok_bind]
    exact ih _ _ (by omega)

theorem siphash_tail_returns (byte : Byte → UInt64) (block : List Byte) (p : Nat) :
    ∀ left b, p + left ≤ block.length → ∃ b', siphash_tail byte block p left b = .ok b' := by
  intro left
  induction left with
  | zero => intro b _; exact ⟨b,rfl⟩
  | succ left ih =>
    intro b inside
    obtain ⟨c,read⟩ : ∃ c, byte_at block (p+left) = .ok c := byte_at_ok (by omega)
    rw [siphash_tail,read,ok_bind]
    exact ih _ (by omega)

/-- The whole words and the rest of the bytes. -/
theorem stop_left (inlen : UInt32) :
    (inlen - inlen % 8).toNat = 8 * (inlen.toNat / 8) ∧ (inlen &&& 7).toNat = inlen.toNat % 8 := by
  have part : (inlen % 8).toNat = inlen.toNat % 8 := UInt32.toNat_mod inlen 8
  have le : inlen % 8 ≤ inlen := by
    rw [UInt32.le_iff_toNat_le,part]
    exact Nat.mod_le _ _
  constructor
  · rw [UInt32.toNat_sub_of_le _ _ le,part]
    omega
  · rw [UInt32.toNat_and]
    exact Nat.and_two_pow_sub_one_eq_mod inlen.toNat 3

/-- No read goes beyond the first `inlen` bytes. -/
theorem siphash_with_returns (word : Vector Byte 8 → UInt64) (byte : Byte → UInt64) (siphash_seed : Vector Byte 16)
    {input : List Byte} {inlen : UInt32} (inside : inlen.toNat ≤ input.length) :
    ∃ hash, siphash_with word byte siphash_seed input inlen = .ok hash := by
  obtain ⟨stop,left⟩ := stop_left inlen
  rw [siphash_with,stop,left,Nat.mul_div_cancel_left _ (by omega)]
  obtain ⟨s,looped⟩ := siphash_loop_returns word input (inlen.toNat / 8) 0 (seeded siphash_seed) (by omega)
  obtain ⟨b,tailed⟩ := siphash_tail_returns byte input (8 * (inlen.toNat / 8)) (inlen.toNat % 8) (inlen.toUInt64 <<< 56)
    (by omega)
  simp only [looped,tailed,ok_bind,pure_eq_ok]
  exact ⟨_,rfl⟩

/-! ### Only the first bytes -/

theorem byte_at_take {block : List Byte} {p n : Nat} (inside : p < n) : byte_at (block.take n) p = byte_at block p := by
  rw [byte_at,byte_at,List.getElem?_take_of_lt inside]

theorem word_at_take {block : List Byte} {p n : Nat} (inside : p + 8 ≤ n) : word_at (block.take n) p = word_at block p := by
  have same : ((block.take n).drop p).take 8 = (block.drop p).take 8 := by
    rw [List.drop_take,List.take_take,Nat.min_eq_left (by omega)]
  by_cases fits : p + 8 ≤ block.length
  · have fits' : p + 8 ≤ (block.take n).length := by rw [List.length_take]; omega
    rw [word_at,word_at,dif_pos fits,dif_pos fits']
    congr 1
    exact Vector.toArray_inj.mp (congrArg List.toArray same)
  · have beyond : ¬p + 8 ≤ (block.take n).length := by rw [List.length_take]; omega
    rw [word_at,word_at,dif_neg fits,dif_neg beyond]

theorem siphash_loop_take (block : List Byte) (n : Nat) :
    ∀ k p s, p + 8 * k ≤ n → siphash_loop word (block.take n) k p s = siphash_loop word block k p s := by
  intro k
  induction k with
  | zero => intro p s _; rfl
  | succ k ih =>
    intro p s inside
    rw [siphash_loop,siphash_loop,word_at_take (by omega)]
    cases word_at block p with
    | error e => rfl
    | ok w => exact ih (p+8) _ (by omega)

theorem siphash_tail_take (block : List Byte) (n p : Nat) :
    ∀ left b, p + left ≤ n → siphash_tail byte (block.take n) p left b = siphash_tail byte block p left b := by
  intro left
  induction left with
  | zero => intro b _; rfl
  | succ left ih =>
    intro b inside
    rw [siphash_tail,siphash_tail,byte_at_take (by omega)]
    cases byte_at block (p+left) with
    | error e => rfl
    | ok c => exact ih _ (by omega)

/-- The bytes after the first `inlen` do not matter. -/
theorem siphash_with_take (siphash_seed : Vector Byte 16) (input : List Byte) (inlen : UInt32) :
    siphash_with word byte siphash_seed (input.take inlen.toNat) inlen = siphash_with word byte siphash_seed input inlen := by
  obtain ⟨stop,left⟩ := stop_left inlen
  simp only [siphash_with,stop,left]
  rw [Nat.mul_div_cancel_left _ (by omega),siphash_loop_take input _ _ _ _ (by omega)]
  congr 1
  funext s
  rw [siphash_tail_take input _ _ _ _ (by omega)]

/-! ### Upper and lower case -/

/-- For every seed and every input the hash that ignores case is the hash of the lowered input, so that
    inputs that differ in case only have one hash. -/
theorem nocase_of_lowered (siphash_seed : Vector Byte 16) (input : List Byte) (inlen : UInt32)
    (inside : inlen.toNat ≤ input.length) :
    ∃ hash, atm_siphash siphash_seed (input.map lower) inlen = .ok hash ∧
      atm_siphash_nocase siphash_seed input inlen = .ok hash ∧
      ∀ input', input'.map lower = input.map lower → atm_siphash_nocase siphash_seed input' inlen = .ok hash := by
  have equal : ∀ input, atm_siphash_nocase siphash_seed input inlen = atm_siphash siphash_seed (input.map lower) inlen :=
    fun input => siphash_with_map nocase_word_eq nocase_byte_eq siphash_seed input inlen
  obtain ⟨hash,returned⟩ := siphash_with_returns U8TO64_LE_NOCASE nocase_byte siphash_seed inside
  have hashed : atm_siphash siphash_seed (input.map lower) inlen = .ok hash := (equal input).symm.trans returned
  refine ⟨hash,hashed,returned,?_⟩
  intro input' same
  rw [equal,same,hashed]

theorem nocase_of_lowered_mixed :
    ∃ hash, atm_siphash (Vector.replicate 16 0) ([72,101,76,76,79,32,200,87,79,82,76].map lower) 11 = .ok hash ∧
      atm_siphash_nocase (Vector.replicate 16 0) [72,101,76,76,79,32,200,87,79,82,76] 11 = .ok hash ∧
      ∀ input', input'.map lower = [72,101,76,76,79,32,200,87,79,82,76].map lower →
        atm_siphash_nocase (Vector.replicate 16 0) input' 11 = .ok hash :=
  nocase_of_lowered (Vector.replicate 16 0) [72,101,76,76,79,32,200,87,79,82,76] 11 (by decide)

end AtmCache.Siphash
