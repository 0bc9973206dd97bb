import AtmCache.ConfigModel
import AtmCache.Numerals
import Mathlib.Data.List.TakeWhile

/-!
# Memory sizes

`atm_util_memtoll` with the error that it reports. A size is an optional sign, digits and a unit
(`Means`), and the parts of a text are determined by it (`parts_eq`). A text that is not
rejected gives the number of its copied digits times the factor, within 64 bits
(`memtoll_value`), so that the result is exact where there are digits and the exact value fits.
-/
namespace AtmCache.MemSize
open AtmCache.Configuration Strings

/-! ### What a text means -/

def sign (neg : Bool) : List Byte := if neg then [45] else []

def decimal (digits : List Byte) : Nat := Numerals.number 10 (digits.map (fun c => c.toNat - 48))

def signed (neg : Bool) (n : Nat) : Int := if neg then -n else n

/-- An optional sign, one or more digits and a unit, and the number times the factor of the unit. -/
def Means (p : List Byte) (value : Int) : Prop :=
  ∃ neg digits u mul, p = sign neg ++ digits ++ u ∧ digits ≠ [] ∧ (∀ c ∈ digits, isdigit c = true) ∧
    unit_factor u = some mul ∧ value = signed neg (decimal digits) * mul

/-- The value fits in 64 signed bits. -/
def Fits (value : Int) : Prop := -2^63 ≤ value ∧ value < 2^63

/-- No error is reported only with the exact value of a size; every other text, and a size that does
    not fit, is rejected. -/
def ParsedOrRejected (p : List Byte) : Prop :=
  ((atm_util_memtoll p).2 = 0 → Means p (atm_util_memtoll p).1) ∧
    ((∀ value, Means p value → ¬Fits value) → atm_util_memtoll p = (0,1))

/-! ### The parts of a text -/

def negative (p : List Byte) : Bool := p.head? = some 45
def unsigned (p : List Byte) : List Byte := if p.head? = some 45 then p.drop 1 else p
def digit_part (p : List Byte) : List Byte := (unsigned p).takeWhile isdigit
def unit_part (p : List Byte) : List Byte := (unsigned p).dropWhile isdigit
/-- The sign and the digits. -/
def number_part (p : List Byte) : List Byte := sign (negative p) ++ digit_part p

theorem number_unit (p : List Byte) : p = number_part p ++ unit_part p := by
  rw [number_part,List.append_assoc,digit_part,unit_part,List.takeWhile_append_dropWhile,negative,unsigned]
  cases p with
  | nil => rfl
  | cons c p =>
    by_cases minus : c = 45
    · subst minus
      rfl
    · simp [sign,minus]

theorem digits_of_digit_part (p : List Byte) : ∀ c ∈ digit_part p, isdigit c = true :=
  fun _ member => List.mem_takeWhile_imp member

theorem isdigit_range {c : Byte} (digit : isdigit c = true) : 48 ≤ c.toNat ∧ c.toNat ≤ 57 := by
  simp only [isdigit,Bool.and_eq_true,decide_eq_true_eq,UInt8.le_iff_toNat_le] at digit
  exact digit

theorem lower_digit {c : Byte} (digit : isdigit c = true) : lower c = c := by
  have range := isdigit_range digit
  rw [lower,if_neg]
  rintro ⟨least,_⟩
  have := UInt8.le_iff_toNat_le.mp least
  change 65 ≤ c.toNat at this
  omega

theorem not_caseless {c : Byte} (digit : isdigit c = true) (u : List Byte) {name : List Byte}
    (letters : (name.map lower).head?.any isdigit = false) : ¬caseless (c :: u) name = true := by
  rw [caseless,decide_eq_true_eq]
  intro same
  rw [← same,List.map_cons,List.head?_cons,Option.any_some,lower_digit digit,digit] at letters
  cases letters

/-- A unit does not begin with a digit. -/
theorem unit_factor_digit {c : Byte} (digit : isdigit c = true) (u : List Byte) : unit_factor (c :: u) = none := by
  have first : ¬(c :: u = [] ∨ caseless (c :: u) (chars "b") = true) := by
    rintro (empty | same)
    · cases empty
    · exact not_caseless digit u (by decide) same
  rw [unit_factor,if_neg first,if_neg (not_caseless digit u (by decide)),if_neg (not_caseless digit u (by decide)),
    if_neg (not_caseless digit u (by decide)),if_neg (not_caseless digit u (by decide)),
    if_neg (not_caseless digit u (by decide)),if_neg (not_caseless digit u (by decide))]

theorem unit_factor_pos {u : List Byte} {mul : Int} (found : unit_factor u = some mul) : 0 < mul := by
  simp only [unit_factor] at found
  split_ifs at found <;> cases found <;> norm_num

/-- A text has one sign, one run of digits and one unit. -/
theorem parts_eq (neg : Bool) {digits u : List Byte} (some : digits ≠ []) (all : ∀ c ∈ digits, isdigit c = true)
    (next : ∀ c ∈ u.head?, isdigit c = false) :
    negative (sign neg ++ digits ++ u) = neg ∧ digit_part (sign neg ++ digits ++ u) = digits ∧
      unit_part (sign neg ++ digits ++ u) = u := by
  have rest : unsigned (sign neg ++ digits ++ u) = digits ++ u ∧ negative (sign neg ++ digits ++ u) = neg := by
    cases neg with
    | true => exact ⟨rfl,rfl⟩
    | false =>
      obtain ⟨c,digits,rfl⟩ := List.exists_cons_of_ne_nil some
      have range := isdigit_range (all c List.mem_cons_self)
      have other : c ≠ 45 := by
        rintro rfl
        exact absurd range (by decide)
      simp [sign,unsigned,negative,other]
  have front : (digits ++ u).takeWhile isdigit = digits ∧ (digits ++ u).dropWhile isdigit = u := by
    rw [List.takeWhile_append_of_pos all,List.dropWhile_append_of_pos all]
    cases u with
    | nil => simp
    | cons c u => simp [next c rfl]
  rw [digit_part,unit_part,rest.1]
  exact ⟨rest.2,front⟩

/-- The meaning of a text is read off its parts. -/
theorem means_iff {p : List Byte} {value : Int} :
    Means p value ↔ digit_part p ≠ [] ∧ ∃ mul, unit_factor (unit_part p) = some mul ∧
      value = signed (negative p) (decimal (digit_part p)) * mul := by
  constructor
  · rintro ⟨neg,digits,u,mul,rfl,some,all,found,rfl⟩
    have next : ∀ c ∈ u.head?, isdigit c = false := by
      intro c first
      obtain ⟨rest,rfl⟩ := List.head?_eq_some_iff.mp first
      by_contra digit
      rw [unit_factor_digit (Bool.not_eq_false _ ▸ digit)] at found
      cases found
    obtain ⟨sign,digits',unit⟩ := parts_eq neg some all next
    rw [sign,digits',unit]
    exact ⟨some,mul,found,rfl⟩
  · rintro ⟨some,mul,found,rfl⟩
    refine ⟨negative p,digit_part p,unit_part p,mul,?_,some,digits_of_digit_part p,found,rfl⟩
    exact number_unit p

/-! ### Reading the digits -/

/-- The nearest number within 64 bits. -/
def clamp (n : Int) : Int := max (-2^63) (min n (2^63 - 1))

theorem clamp_of_fits {n : Int} (fits : Fits n) : clamp n = n := by
  obtain ⟨least,most⟩ := fits
  rw [clamp,min_eq_left (by omega),max_eq_right least]

theorem decimal_append (front back : List Byte) :
    decimal (front ++ back) = decimal front * 10 ^ back.length + decimal back := by
  rw [decimal,List.map_append,Numerals.number_append,List.length_map]
  rfl

theorem foldl_decimal {digits : List Byte} (all : ∀ c ∈ digits, isdigit c = true) :
    digits.foldl (fun (n : Int) c => n * 10 + (c.toNat - 48)) 0 = decimal digits := by
  induction digits using List.reverseRecOn with
  | nil => rfl
  | append_singleton digits c ih =>
    obtain ⟨before,last⟩ := List.forall_mem_append.mp all
    have range := isdigit_range (last c List.mem_cons_self)
    have one : decimal [c] = c.toNat - 48 := Nat.ofDigits_singleton
    rw [List.foldl_concat,ih before,decimal_append,one,List.length_singleton,pow_one]
    omega

theorem not_space {c : Byte} (other : c = 45 ∨ isdigit c = true) : isspace c = false := by
  rcases other with rfl | digit
  · decide
  · have range := isdigit_range digit
    rw [isspace,Bool.or_eq_false_iff,Bool.and_eq_false_iff]
    refine ⟨decide_eq_false ?_,.inr (decide_eq_false ?_)⟩
    · rintro rfl
      exact absurd range (by decide)
    · intro most
      have : c.toNat ≤ 13 := UInt8.le_iff_toNat_le.mp most
      omega

theorem strtoll_digits (neg : Bool) {digits : List Byte} (some : digits ≠ []) (all : ∀ c ∈ digits, isdigit c = true) :
    strtoll (sign neg ++ digits) = (clamp (signed neg (decimal digits)),[]) := by
  obtain ⟨c,rest,rfl⟩ := List.exists_cons_of_ne_nil some
  have digit := all c List.mem_cons_self
  have range := isdigit_range digit
  have no_minus : c ≠ 45 := by
    rintro rfl
    exact absurd range (by decide)
  have no_plus : c ≠ 43 := by
    rintro rfl
    exact absurd range (by decide)
  have front : (c :: rest).takeWhile isdigit = c :: rest ∧ (c :: rest).dropWhile isdigit = [] :=
    ⟨List.takeWhile_eq_self_iff.mpr all,List.dropWhile_eq_nil_iff.mpr all⟩
  cases neg with
  | true =>
    have start : (sign true ++ c :: rest).dropWhile isspace = 45 :: c :: rest := rfl
    simp only [strtoll,start,List.head?_cons,List.drop_succ_cons,List.drop_zero,true_or,if_true,front.1,front.2,
      foldl_decimal all,if_neg some]
    rfl
  | false =>
    have start : (sign false ++ c :: rest).dropWhile isspace = c :: rest :=
      List.dropWhile_cons_of_neg (by rw [not_space (.inr digit)]; decide)
    simp only [strtoll,start,List.head?_cons,Option.some.injEq,no_minus,no_plus,or_self,if_false,front.1,front.2,
      foldl_decimal all,if_neg some]
    rfl

/-! ### The copied number -/

/-- The text in `buf`; `digits` is an `unsigned int`. -/
def copied (p : List Byte) : List Byte := (number_part p).take (u32 (number_part p).length)

theorem memtoll_eq (p : List Byte) : atm_util_memtoll p =
    match unit_factor (unit_part p) with
    | none => (0,1)
    | some mul =>
      if 128 ≤ u32 (number_part p).length then (0,1)
      else if (strtoll (copied p)).2 ≠ [] then (0,1)
      else (Int.bmod ((strtoll (copied p)).1 * mul) (2^64),0) := by
  have whole := number_unit p
  have lengths := congrArg List.length whole
  rw [List.length_append] at lengths
  have number : p.length - (unit_part p).length = (number_part p).length := by omega
  have part : p.take (u32 (number_part p).length) = copied p :=
    calc p.take (u32 (number_part p).length) = (number_part p ++ unit_part p).take (u32 (number_part p).length) :=
          congrArg (List.take _) whole
      _ = copied p := List.take_append_of_le_length (Nat.mod_le _ _)
  have same : atm_util_memtoll p =
      match unit_factor (unit_part p) with
      | none => (0,1)
      | some mul =>
        if 128 ≤ u32 (p.length - (unit_part p).length) then (0,1)
        else if (strtoll (p.take (u32 (p.length - (unit_part p).length)))).2 ≠ [] then (0,1)
        else (Int.bmod ((strtoll (p.take (u32 (p.length - (unit_part p).length)))).1 * mul) (2^64),0) := rfl
  rw [same,number,part]

/-- `strtoll` reads the first digits: all of them, or, where `digits` has wrapped, all but very many. -/
theorem strtoll_copied {p : List Byte} (short : u32 (number_part p).length < 128) (number : copied p ≠ [45]) :
    ∃ front back, digit_part p = front ++ back ∧ strtoll (copied p) = (clamp (signed (negative p) (decimal front)),[]) ∧
      ((number_part p).length < 2^32 → back = []) ∧ (2^32 ≤ (number_part p).length → 63 ≤ back.length) := by
  have lengths : (number_part p).length = (sign (negative p)).length + (digit_part p).length := List.length_append
  have signs : (sign (negative p)).length ≤ 1 := by
    cases negative p with
    | true => exact le_rfl
    | false => exact Nat.zero_le 1
  refine ⟨(digit_part p).take (u32 (number_part p).length - (sign (negative p)).length),
    (digit_part p).drop (u32 (number_part p).length - (sign (negative p)).length),(List.take_append_drop ..).symm,?_,?_,?_⟩
  · have cut : copied p = (sign (negative p)).take (u32 (number_part p).length) ++
        (digit_part p).take (u32 (number_part p).length - (sign (negative p)).length) := List.take_append
    by_cases none : (digit_part p).take (u32 (number_part p).length - (sign (negative p)).length) = []
    · have empty : copied p = [] := by
        rw [none,List.append_nil] at cut
        cases minus : negative p with
        | false => rw [cut,minus,sign,if_neg Bool.false_ne_true,List.take_nil]
        | true =>
          cases count : u32 (number_part p).length with
          | zero => rw [cut,count,List.take_zero]
          | succ n =>
            have whole : (sign true).take (n+1) = [45] := by rw [sign,if_pos rfl,List.take_succ_cons,List.take_nil]
            rw [minus,count,whole] at cut
            exact absurd cut number
      rw [empty,none]
      cases negative p <;> rfl
    · have more : (sign (negative p)).length ≤ u32 (number_part p).length := by
        by_contra less
        exact none (by rw [Nat.sub_eq_zero_of_le (by omega),List.take_zero])
      rw [cut,List.take_of_length_le more,strtoll_digits (negative p) none]
      intro c member
      exact digits_of_digit_part p c (List.mem_of_mem_take member)
  · intro small
    rw [u32_of_lt small]
    exact List.drop_eq_nil_of_le (by omega)
  · intro large
    rw [List.length_drop]
    omega

/-! ### Which texts are parsed -/

/-- The texts that are rejected, and the sizes whose value fits and all whose digits are read. -/
def Handled (p : List Byte) : Prop :=
  unit_factor (unit_part p) = none ∨ 128 ≤ u32 (number_part p).length ∨ copied p = [45] ∨
    (digit_part p ≠ [] ∧
      (∃ mul, unit_factor (unit_part p) = some mul ∧ Fits (signed (negative p) (decimal (digit_part p)) * mul)) ∧
      ((number_part p).length < 2^32 ∨ decimal (digit_part p) = 0))

theorem rejected {p : List Byte} (result : atm_util_memtoll p = (0,1)) : ParsedOrRejected p := by
  rw [ParsedOrRejected,result]
  exact ⟨fun none => absurd none one_ne_zero,fun _ => rfl⟩

theorem bmod_fits (n : Int) : Fits (Int.bmod n (2^64)) := by
  have least := Int.le_bmod (x := n) (m := 2^64) (by decide)
  have most := Int.bmod_lt (x := n) (m := 2^64) (by decide)
  constructor <;> omega

theorem accepted {p : List Byte} {n : Int} (result : atm_util_memtoll p = (Int.bmod n (2^64),0)) :
    ParsedOrRejected p ↔ Means p (Int.bmod n (2^64)) := by
  rw [ParsedOrRejected,result]
  constructor
  · intro parsed
    exact parsed.1 rfl
  · intro means
    exact ⟨fun _ => means,fun outside => absurd (bmod_fits n) (outside _ means)⟩

theorem bmod_of_fits {n : Int} (fits : Fits n) : Int.bmod n (2^64) = n := by
  obtain ⟨least,most⟩ := fits
  exact Int.bmod_eq_of_le_mul_two (by omega) (by omega)

/-- A factor does not take a number out of the range that its product is in. -/
theorem fits_of_mul {n mul : Int} (positive : 0 < mul) (fits : Fits (n * mul)) : Fits n := by
  obtain ⟨least,most⟩ := fits
  constructor
  · nlinarith
  · nlinarith

theorem signed_zero_iff (neg : Bool) (n : Nat) : signed neg n = 0 ↔ n = 0 := by
  cases neg <;> simp [signed]

/-- The exact value of a size that fits has at most 63 digits that are not leading zeros. -/
theorem front_zero {neg : Bool} {front back : List Byte} {mul : Int} (positive : 0 < mul)
    (fits : Fits (signed neg (decimal (front ++ back)) * mul)) (long : 63 ≤ back.length) : decimal front = 0 := by
  have small : decimal (front ++ back) < 10 ^ back.length := by
    have bound : decimal (front ++ back) ≤ 2^63 := by
      have inside := fits_of_mul positive fits
      cases neg <;> simp only [signed,Fits] at inside <;> grind
    calc decimal (front ++ back) ≤ 2^63 := bound
      _ < 10^63 := by norm_num
      _ ≤ 10 ^ back.length := Nat.pow_le_pow_right (by omega) long
  rw [decimal,List.map_append] at small
  apply Numerals.number_front
  rw [List.length_map]
  exact small

theorem decimal_eq_zero {front back : List Byte} (zero : decimal (front ++ back) = 0) : decimal front = 0 := by
  rw [decimal_append] at zero
  have product : decimal front * 10 ^ back.length = 0 := by omega
  exact (Nat.mul_eq_zero.mp product).resolve_right (by positivity)

/-- A text of which a number is read and which no error is reported for. -/
theorem accepted_iff {p : List Byte} {mul : Int} (found : unit_factor (unit_part p) = some mul)
    (short : u32 (number_part p).length < 128) (number : copied p ≠ [45]) :
    ParsedOrRejected p ↔ digit_part p ≠ [] ∧ Fits (signed (negative p) (decimal (digit_part p)) * mul) ∧
      ((number_part p).length < 2^32 ∨ decimal (digit_part p) = 0) := by
  have positive := unit_factor_pos found
  obtain ⟨front,back,cut,read,whole,long⟩ := strtoll_copied short number
  have result : atm_util_memtoll p = (Int.bmod (clamp (signed (negative p) (decimal front)) * mul) (2^64),0) := by
    rw [memtoll_eq,found]
    simp only [if_neg (Nat.not_le.mpr short),read,ne_eq,not_true,if_false]
  rw [accepted result,means_iff]
  -- what the result is, where the exact value fits
  have value : ∀ n : Nat, Fits (signed (negative p) n * mul) →
      Int.bmod (clamp (signed (negative p) n) * mul) (2^64) = signed (negative p) n * mul := by
    intro n fits
    rw [clamp_of_fits (fits_of_mul positive fits),bmod_of_fits fits]
  have zero : Fits (signed (negative p) 0 * mul) := by
    rw [(signed_zero_iff _ 0).mpr rfl,zero_mul]
    exact ⟨by norm_num,by norm_num⟩
  constructor
  · rintro ⟨some,mul',found',exact'⟩
    cases found.symm.trans found'
    have fits : Fits (signed (negative p) (decimal (digit_part p)) * mul) := exact' ▸ bmod_fits _
    refine ⟨some,fits,?_⟩
    by_contra wrapped
    obtain ⟨large,nonzero⟩ := not_or.mp wrapped
    have nothing : decimal front = 0 := front_zero positive (cut ▸ fits) (long (by omega))
    rw [nothing,value 0 zero,(signed_zero_iff _ 0).mpr rfl,zero_mul] at exact'
    rcases mul_eq_zero.mp exact'.symm with none | none
    · exact nonzero ((signed_zero_iff _ _).mp none)
    · omega
  · rintro ⟨some,fits,covered⟩
    refine ⟨some,mul,found,?_⟩
    rcases covered with small | none
    · rw [whole small,List.append_nil] at cut
      rw [cut] at fits ⊢
      exact value _ fits
    · rw [none,decimal_eq_zero (cut ▸ none)]
      exact value 0 zero

/-- A memory size is parsed exactly or rejected in just these cases. -/
theorem parsed_or_rejected_iff (p : List Byte) : ParsedOrRejected p ↔ Handled p := by
  cases found : unit_factor (unit_part p) with
  | none =>
    have result : atm_util_memtoll p = (0,1) := by rw [memtoll_eq,found]
    exact iff_of_true (rejected result) (.inl found)
  | some mul =>
    by_cases long : 128 ≤ u32 (number_part p).length
    · have result : atm_util_memtoll p = (0,1) := by
        rw [memtoll_eq,found]
        exact if_pos long
      exact iff_of_true (rejected result) (.inr (.inl long))
    · by_cases minus : copied p = [45]
      · have result : atm_util_memtoll p = (0,1) := by
          have left : (strtoll [45]).2 ≠ [] := by decide
          rw [memtoll_eq,found,minus]
          exact (if_neg long).trans (if_pos left)
        exact iff_of_true (rejected result) (.inr (.inr (.inl minus)))
      · rw [accepted_iff found (by omega) minus,Handled]
        simp only [found,reduceCtorEq,long,minus,false_or,Option.some.injEq,exists_eq_left']

/-- `k` is taken for the size 0. -/
theorem parsed_or_rejected_fails : ¬ParsedOrRejected (chars "k") := by
  have result : atm_util_memtoll (chars "k") = (0,0) := by decide
  rw [ParsedOrRejected,result,means_iff]
  intro parsed
  exact (parsed.1 rfl).1 (by decide)

end AtmCache.MemSize
