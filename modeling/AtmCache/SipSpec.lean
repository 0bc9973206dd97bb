import AtmCache.SipCase

/-!
# The hash as SipHash

What `atm_siphash` is for: the message is padded to whole words, with its length as the last byte, and the words
are mixed into a state that the seed fills (`siphash`, for any number of rounds). The loop over the input and
the `switch` over the rest compute it with one round for a word and two at the end. The padding can be
undone (`padded_words_inj`).
-/
namespace AtmCache.Siphash
open Runs Strings

/-! ### The abstract hash -/

/-- A message with zeros up to seven bytes beyond its whole words, and the lowest byte of its length. -/
def padded (m : List Byte) : List Byte := m ++ List.replicate (7 - m.length % 8) 0 ++ [UInt8.ofNat m.length]

/-- The words of some bytes, lowest byte first. -/
def words (bytes : List Byte) : List UInt64 :=
  (List.range (bytes.length / 8)).map (fun i => UInt64.ofNat (Words.of_bytes ((bytes.drop (8 * i)).take 8)))

def compress (c : Nat) (s : State) (m : UInt64) : State :=
  let s := SIPROUND^[c] { s with v3 := s.v3 ^^^ m }
  { s with v0 := s.v0 ^^^ m }

def finalize (d : Nat) (s : State) : UInt64 :=
  let s := SIPROUND^[d] { s with v2 := s.v2 ^^^ 0xff }
  s.v0 ^^^ s.v1 ^^^ s.v2 ^^^ s.v3

/-- SipHash with `c` rounds for each word and `d` rounds at the end. -/
def siphash (c d : Nat) (siphash_seed : Vector Byte 16) (m : List Byte) : UInt64 :=
  finalize d ((words (padded m)).foldl (compress c) (seeded siphash_seed))

/-! ### Padding -/

theorem padded_length (m : List Byte) : (padded m).length = 8 * (m.length / 8 + 1) := by
  simp only [padded,List.length_append,List.length_replicate,List.length_singleton]
  omega

theorem words_length (bytes : List Byte) : (words bytes).length = bytes.length / 8 := by
  rw [words,List.length_map,List.length_range]

/-- Bytes of one length that make the same number are the same. -/
theorem of_bytes_inj {a b : List Byte} (length : a.length = b.length) (same : Words.of_bytes a = Words.of_bytes b) : a = b := by
  have small : ∀ (bytes : List Byte), ∀ digit ∈ bytes.map UInt8.toNat, digit < 256 := by
    intro bytes digit member
    obtain ⟨c,_,rfl⟩ := List.mem_map.mp member
    exact c.toNat_lt
  have digits := Nat.ofDigits_inj_of_len_eq (by omega) (by simpa using length) (small a) (small b) same
  exact List.map_injective_iff.mpr (fun _ _ alike => UInt8.toNat_inj.mp alike) digits

theorem words_inj {a b : List Byte} (whole : a.length % 8 = 0) (length : a.length = b.length) (same : words a = words b) :
    a = b := by
  refine List.ext_getElem? (fun j => ?_)
  by_cases inside : j < a.length
  · have chunk : (a.drop (8 * (j/8))).take 8 = (b.drop (8 * (j/8))).take 8 := by
      have at_ := congrArg (fun ws => ws[j/8]?) same
      have index : j/8 < a.length/8 := by omega
      have index' : j/8 < b.length/8 := by omega
      simp only [words,List.getElem?_map,List.getElem?_range index,List.getElem?_range index',Option.map_some] at at_
      have alike := congrArg UInt64.toNat (Option.some.inj at_)
      have fits : ∀ bytes : List Byte, Words.of_bytes ((bytes.drop (8 * (j/8))).take 8) < 2^64 := by
        intro bytes
        refine (Words.of_bytes_lt _).trans_le (Nat.pow_le_pow_right (by omega) ?_)
        rw [List.length_take]
        omega
      rw [UInt64.toNat_ofNat',UInt64.toNat_ofNat',Nat.mod_eq_of_lt (fits a),Nat.mod_eq_of_lt (fits b)] at alike
      refine of_bytes_inj ?_ alike
      simp only [List.length_take,List.length_drop]
      omega
    have here := congrArg (fun bytes => bytes[j % 8]?) chunk
    simp only [List.getElem?_take,List.getElem?_drop,show j % 8 < 8 by omega,↓reduceIte,show 8 * (j/8) + j % 8 = j by omega] at here
    exact here
  · rw [List.getElem?_eq_none (by omega),List.getElem?_eq_none (by omega)]

/-- Different messages have different words. -/
theorem padded_words_inj {a b : List Byte} (same : words (padded a) = words (padded b)) : a = b := by
  have blocks : a.length / 8 = b.length / 8 := by
    have count := congrArg List.length same
    rw [words_length,words_length,padded_length,padded_length] at count
    omega
  have bytes : padded a = padded b :=
    words_inj (by rw [padded_length]; omega) (by rw [padded_length,padded_length,blocks]) same
  obtain ⟨front,last⟩ := List.append_inj' bytes rfl
  have lengths : a.length = b.length := by
    have low := congrArg UInt8.toNat (List.singleton_inj.mp last)
    rw [UInt8.toNat_ofNat',UInt8.toNat_ofNat'] at low
    omega
  exact (List.append_inj front lengths).1

/-! ### The loop and the rest -/

theorem mix_eq (s : State) (m : UInt64) : mix s m = compress 1 s m := rfl

theorem word_at_eq {block : List Byte} {p : Nat} (fits : p + 8 ≤ block.length) :
    U8TO64_LE <$> word_at block p = .ok (UInt64.ofNat (Words.of_bytes ((block.drop p).take 8))) := by
  rw [word_at,dif_pos fits]
  rfl

/-- The loop mixes the words from `p` on. -/
theorem siphash_loop_eq (block : List Byte) : ∀ n p s, p + 8 * n ≤ block.length →
    siphash_loop U8TO64_LE block n p s =
      .ok (((List.range n).map (fun i => UInt64.ofNat (Words.of_bytes ((block.drop (p + 8 * i)).take 8)))).foldl (compress 1) s) := by
  intro n
  induction n with
  | zero => exact fun p s _ => rfl
  | succ n ih =>
    intro p s inside
    obtain ⟨w,read⟩ : ∃ w, word_at block p = .ok w := word_at_ok (by omega)
    have word : U8TO64_LE <$> word_at block p = _ := word_at_eq (by omega)
    rw [read] at word
    rw [siphash_loop,read,ok_bind,ih _ _ (by omega),List.range_succ_eq_map,List.map_cons,List.foldl_cons,List.map_map,mix_eq,
      Except.ok.inj word]
    congr 2
    exact List.map_congr_left (fun i _ => by simp only [Function.comp,Nat.succ_eq_add_one,Nat.mul_add,Nat.mul_one,Nat.add_assoc,Nat.add_comm 8])

theorem toNat_of_bytes {bytes : List Byte} (short : bytes.length ≤ 8) :
    (UInt64.ofNat (Words.of_bytes bytes)).toNat = Words.of_bytes bytes := by
  have fits : 2^(8 * bytes.length) ≤ 2^64 := Nat.pow_le_pow_right (by omega) (by omega)
  rw [UInt64.toNat_ofNat',Nat.mod_eq_of_lt ((Words.of_bytes_lt bytes).trans_le fits)]

/-- The `switch` puts the rest of the bytes into the word. -/
theorem siphash_tail_eq (block : List Byte) (p : Nat) : ∀ left b, left ≤ 7 → p + left ≤ block.length →
    siphash_tail plain_byte block p left b = .ok (b ||| UInt64.ofNat (Words.of_bytes ((block.drop p).take left))) := by
  intro left
  induction left with
  | zero =>
    intro b _ _
    have none : Words.of_bytes ((block.drop p).take 0) = 0 := rfl
    rw [none]
    exact congrArg Except.ok (UInt64.or_zero).symm
  | succ left ih =>
    intro b few inside
    have here : p + left < block.length := by omega
    have taken : (block.drop p).take (left+1) = (block.drop p).take left ++ [block[p+left]] := by
      rw [List.take_succ_eq_append_getElem (by rw [List.length_drop]; omega),List.getElem_drop]
    have length : ((block.drop p).take left).length = left := by
      rw [List.length_take,List.length_drop]
      omega
    have place : (UInt64.ofNat (8 * left)).toNat = 8 * ((block.drop p).take left).length := by
      rw [UInt64.toNat_ofNat',length,Nat.mod_eq_of_lt (by omega)]
    have joined : UInt64.ofNat (Words.of_bytes ((block.drop p).take left)) ||| plain_byte block[p+left] <<< UInt64.ofNat (8 * left) =
        UInt64.ofNat (Words.of_bytes ((block.drop p).take (left+1))) := by
      apply UInt64.toNat_inj.mp
      rw [taken,toNat_of_bytes (by rw [List.length_append,length,List.length_singleton]; omega)]
      exact Words.or_byte _ (toNat_of_bytes (by omega)) place (by omega) _
    rw [siphash_tail,byte_at,List.getElem?_eq_getElem here]
    dsimp only
    rw [ok_bind,ih _ (by omega) (by omega),UInt64.or_assoc,UInt64.or_comm (plain_byte _ <<< _),joined]

/-- The length in the highest byte. -/
theorem length_byte (inlen : UInt32) : inlen.toUInt64 <<< 56 = (UInt8.ofNat inlen.toNat).toUInt64 <<< 56 := by
  apply UInt64.toNat_inj.mp
  have place : UInt64.toNat 56 % 64 = 56 := rfl
  simp only [UInt64.toNat_shiftLeft,UInt32.toNat_toUInt64,UInt8.toNat_toUInt64,UInt8.toNat_ofNat',Nat.shiftLeft_eq,place]
  omega

theorem of_bytes_zeros (bytes : List Byte) (n : Nat) : Words.of_bytes (bytes ++ List.replicate n 0) = Words.of_bytes bytes := by
  induction n with
  | zero => rw [List.replicate_zero,List.append_nil]
  | succ n ih =>
    rw [List.replicate_succ',← List.append_assoc,Words.of_bytes_concat,ih]
    simp

/-- The last word: the rest of the bytes, zeros and the length. -/
theorem last_word {rest : List Byte} (few : rest.length ≤ 7) (inlen : UInt32) :
    inlen.toUInt64 <<< 56 ||| UInt64.ofNat (Words.of_bytes rest) =
      UInt64.ofNat (Words.of_bytes (rest ++ List.replicate (7 - rest.length) 0 ++ [UInt8.ofNat inlen.toNat])) := by
  have seven : (rest ++ List.replicate (7 - rest.length) 0).length = 7 := by
    rw [List.length_append,List.length_replicate]
    omega
  have holds : (UInt64.ofNat (Words.of_bytes rest)).toNat = Words.of_bytes (rest ++ List.replicate (7 - rest.length) 0) := by
    rw [of_bytes_zeros,toNat_of_bytes (by omega)]
  apply UInt64.toNat_inj.mp
  rw [toNat_of_bytes (by rw [List.length_append,seven,List.length_singleton]),UInt64.or_comm,length_byte]
  exact Words.or_byte 56 holds (by rw [seven]; rfl) (by omega) _

/-- The words of a padded message: those of the message, and the last one. -/
theorem words_padded (m : List Byte) :
    words (padded m) = (List.range (m.length / 8)).map (fun i => UInt64.ofNat (Words.of_bytes ((m.drop (8 * i)).take 8))) ++
      [UInt64.ofNat (Words.of_bytes (m.drop (8 * (m.length / 8)) ++ List.replicate (7 - m.length % 8) 0 ++ [UInt8.ofNat m.length]))] := by
  have length := padded_length m
  rw [words,length,Nat.mul_div_cancel_left _ (by omega),List.range_succ,List.map_append,List.map_singleton]
  congr 1
  · refine List.map_congr_left (fun i member => ?_)
    have inside := List.mem_range.mp member
    have same : ((padded m).drop (8 * i)).take 8 = (m.drop (8 * i)).take 8 := by
      rw [padded,List.append_assoc,List.drop_append_of_le_length (by omega),List.take_append_of_le_length (by rw [List.length_drop]; omega)]
    rw [same]
  · have last : ((padded m).drop (8 * (m.length / 8))).take 8 =
        m.drop (8 * (m.length / 8)) ++ List.replicate (7 - m.length % 8) 0 ++ [UInt8.ofNat m.length] := by
      rw [List.take_of_length_le (by rw [List.length_drop,length]; omega),padded,List.append_assoc,
        List.drop_append_of_le_length (by omega),List.append_assoc]
    rw [last]

/-- The hash of a whole block. -/
theorem siphash_whole (siphash_seed : Vector Byte 16) {m : List Byte} {inlen : UInt32} (length : m.length = inlen.toNat) :
    siphash_with U8TO64_LE plain_byte siphash_seed m inlen = .ok (siphash 1 2 siphash_seed m) := by
  obtain ⟨stop,left⟩ := stop_left inlen
  have tail := siphash_tail_eq m (8 * (m.length / 8)) (m.length % 8) (inlen.toUInt64 <<< 56) (by omega) (by omega)
  have rest : (m.drop (8 * (m.length / 8))).length = m.length % 8 := by
    rw [List.length_drop]
    omega
  rw [List.take_of_length_le (by omega),last_word (by omega),rest] at tail
  rw [siphash_with,stop,left,← length,Nat.mul_div_cancel_left _ (by omega),siphash_loop_eq m _ 0 _ (by omega),ok_bind]
  dsimp only
  rw [tail,ok_bind,siphash,words_padded,List.foldl_append,← length]
  simp only [Nat.zero_add]
  rfl

/-- For every seed and every input the hash is SipHash with one round for a word and two at the end, of the first `inlen`
    bytes, which no other message shares its words with; the hash that ignores case is that of the lowered bytes. -/
theorem siphash_exact (siphash_seed : Vector Byte 16) {input : List Byte} {inlen : UInt32} (inside : inlen.toNat ≤ input.length) :
    atm_siphash siphash_seed input inlen = .ok (siphash 1 2 siphash_seed (input.take inlen.toNat)) ∧
      atm_siphash_nocase siphash_seed input inlen = .ok (siphash 1 2 siphash_seed ((input.take inlen.toNat).map lower)) ∧
      ∀ other, words (padded other) = words (padded (input.take inlen.toNat)) → other = input.take inlen.toNat := by
  have plain : ∀ input : List Byte, inlen.toNat ≤ input.length →
      atm_siphash siphash_seed input inlen = .ok (siphash 1 2 siphash_seed (input.take inlen.toNat)) := by
    intro input inside
    have length : (input.take inlen.toNat).length = inlen.toNat := List.length_take_of_le inside
    rw [atm_siphash,← siphash_with_take]
    exact siphash_whole siphash_seed length
  refine ⟨plain input inside,?_,fun other same => padded_words_inj same⟩
  rw [atm_siphash_nocase,siphash_with_map nocase_word_eq nocase_byte_eq,List.map_take]
  exact plain (input.map lower) (by rwa [List.length_map])

/-- The first ten bytes of `Hello World`. -/
theorem siphash_exact_ten :
    atm_siphash (Vector.replicate 16 0) [72,101,108,108,111,32,87,111,114,108,100] 10 =
        .ok (siphash 1 2 (Vector.replicate 16 0) [72,101,108,108,111,32,87,111,114,108]) ∧
      atm_siphash_nocase (Vector.replicate 16 0) [72,101,108,108,111,32,87,111,114,108,100] 10 =
        .ok (siphash 1 2 (Vector.replicate 16 0) [104,101,108,108,111,32,119,111,114,108]) ∧
      ∀ other, words (padded other) = words (padded [72,101,108,108,111,32,87,111,114,108]) →
        other = [72,101,108,108,111,32,87,111,114,108] := by
  have inside : (10 : UInt32).toNat ≤ ([72,101,108,108,111,32,87,111,114,108,100] : List Byte).length := by decide
  exact siphash_exact (Vector.replicate 16 0) inside

end AtmCache.Siphash
