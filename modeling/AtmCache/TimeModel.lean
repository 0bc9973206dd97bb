import Mathlib.Algebra.Order.Ring.Int
import Mathlib.Data.List.Induction
import Mathlib.Tactic.Ring

/-!
# Elapsed time

The time pairs of `atm_time.c`. Marks go into the two slots in turn, and `atm_time_mval` takes the
first slot for the older reading. After an even number of marks it is, and the result is
exact below the bound of the unsigned product; after an odd number the slots are the other way round
(`elapsed_iff`).
-/
namespace AtmCache.TimePair

/-- `atm_time_spec_t` -/
structure TimeSpec where
  tv_sec : Int
  tv_nsec : Int
  deriving DecidableEq, Repr

/-- `atm_time_pair_t`; `ts_0` and `ts_1` are the members of the array `ts`. -/
structure Pair where
  ts_0 : TimeSpec
  ts_1 : TimeSpec
  curr : Int
  deriving DecidableEq, Repr

def ATM_TIME_NANO_RES : Int := 1000000000
def ATM_TIME_MILI_RES : Int := 1000

/-- All bytes are zero, which `atm_alloc` and `atm_time_pair_reset` see to. -/
def atm_time_pair_new : Pair := ⟨⟨0,0⟩,⟨0,0⟩,0⟩

def atm_time_pair_reset (_tp : Pair) : Pair := ⟨⟨0,0⟩,⟨0,0⟩,0⟩

/-- A mark at the reading `now` of the clock. Counting beyond the greatest `int` is undefined. -/
def atm_time_mark (tp : Pair) (now : TimeSpec) : Option Pair :=
  if tp.curr = 2^31 - 1 then none
  else
    match tp.curr.tmod 2 with
    | 0 => some { tp with ts_0 := now, curr := tp.curr + 1 }
    | 1 => some { tp with ts_1 := now, curr := tp.curr + 1 }
    | _ => none

def atm_time_mval (tp : Pair) : UInt64 × Pair :=
  let old_one := tp.ts_0
  let new_one := tp.ts_1
  let res :=
    if old_one.tv_sec ≤ new_one.tv_sec then
      let sec_diff := UInt64.ofInt (new_one.tv_sec - old_one.tv_sec)
      let nr := sec_diff * UInt64.ofInt ATM_TIME_NANO_RES + UInt64.ofInt new_one.tv_nsec
      let no := UInt64.ofInt old_one.tv_nsec
      (nr - no) * UInt64.ofInt ATM_TIME_MILI_RES / UInt64.ofInt ATM_TIME_NANO_RES
    else 0
  (res,atm_time_pair_reset tp)

/-- Marks on a new pair at some readings. -/
def marks (readings : List TimeSpec) : Option Pair := readings.foldlM atm_time_mark atm_time_pair_new

/-! ### What the result is to be -/

def TimeSpec.nanos (t : TimeSpec) : Int := t.tv_sec * 1000000000 + t.tv_nsec

/-- The nanoseconds are less than a second. -/
def TimeSpec.Proper (t : TimeSpec) : Prop := 0 ≤ t.tv_nsec ∧ t.tv_nsec < 1000000000

instance (t : TimeSpec) : Decidable t.Proper := inferInstanceAs (Decidable (_ ∧ _))

/-- Readings of a clock that does not go back. -/
structure Clock (readings : List TimeSpec) : Prop where
  order : readings.Pairwise (fun a b => a.nanos ≤ b.nanos)
  proper : ∀ t ∈ readings, t.Proper

/-- The exact results of the operations on unsigned numbers, in their order. -/
def exact_results (old_one new_one : TimeSpec) : List Int :=
  let sec_diff := new_one.tv_sec - old_one.tv_sec
  let nr := sec_diff * ATM_TIME_NANO_RES + new_one.tv_nsec
  let diff := nr - old_one.tv_nsec
  [sec_diff,sec_diff * ATM_TIME_NANO_RES,nr,diff,diff * ATM_TIME_MILI_RES]

/-- No operation of `atm_time_mval` wraps, where it calculates at all. -/
def NoWrap (tp : Pair) : Prop :=
  tp.ts_0.tv_sec ≤ tp.ts_1.tv_sec → ∀ n ∈ exact_results tp.ts_0 tp.ts_1, 0 ≤ n ∧ n < 2^64

/-- The marks succeed, and then the result is the milliseconds between the last two readings, without
    wrapping, and the pair is as a new one. -/
def Elapsed (before : List TimeSpec) (old new : TimeSpec) : Prop :=
  ∃ tp, marks (before ++ [old,new]) = some tp ∧ NoWrap tp ∧
    ((atm_time_mval tp).1.toNat : Int) = (new.nanos - old.nanos) / 1000000 ∧ (atm_time_mval tp).2 = atm_time_pair_new

/-- The number of marks is even and the nanoseconds between the last two times 1000 fit in 64 bits; or it is odd and
    these readings are equal, or less than a millisecond apart in different seconds. -/
def InOrder (before : List TimeSpec) (old new : TimeSpec) : Prop :=
  before.length + 2 < 2^31 ∧
    if before.length % 2 = 0 then (new.nanos - old.nanos) * 1000 < 2^64
    else old = new ∨ (old.tv_sec < new.tv_sec ∧ new.nanos - old.nanos < 1000000)

/-! ### Marks -/

theorem mark_ok {tp : Pair} {n : Nat} (count : tp.curr = n) (room : n < 2^31 - 1) (now : TimeSpec) :
    atm_time_mark tp now =
      some (if n % 2 = 0 then ⟨now,tp.ts_1,(n + 1 : Nat)⟩ else ⟨tp.ts_0,now,(n + 1 : Nat)⟩) := by
  have below : tp.curr ≠ 2^31 - 1 := by omega
  have side : tp.curr.tmod 2 = (n % 2 : Nat) := by rw [count]; rfl
  rw [atm_time_mark,if_neg below,side,count]
  rcases Nat.mod_two_eq_zero_or_one n with even | odd
  · rw [even]
    rfl
  · rw [odd]
    rfl

theorem mark_full {tp : Pair} (full : tp.curr = 2^31 - 1) (now : TimeSpec) : atm_time_mark tp now = none := if_pos full

theorem marks_concat (readings : List TimeSpec) (now : TimeSpec) :
    marks (readings ++ [now]) = (marks readings).bind (fun tp => atm_time_mark tp now) := by
  rw [marks,List.foldlM_append]
  congr 1
  funext tp
  rw [List.foldlM_cons]
  exact bind_pure _

/-- `curr` counts the marks, of which there are fewer than `2^31`. -/
theorem marks_count (readings : List TimeSpec) :
    (readings.length < 2^31 → ∃ tp, marks readings = some tp ∧ tp.curr = readings.length) ∧
      (2^31 ≤ readings.length → marks readings = none) := by
  induction readings using List.reverseRecOn with
  | nil => exact ⟨fun _ => ⟨atm_time_pair_new,rfl,rfl⟩,fun many => absurd many (by decide)⟩
  | append_singleton readings now ih =>
    rw [List.length_append,List.length_singleton,marks_concat]
    constructor
    · intro small
      obtain ⟨tp,before,count⟩ := ih.1 (by omega)
      rw [before,Option.bind_some,mark_ok count (by omega)]
      refine ⟨_,rfl,?_⟩
      split_ifs <;> rfl
    · intro many
      by_cases already : 2^31 ≤ readings.length
      · rw [ih.2 already,Option.bind_none]
      · obtain ⟨tp,before,count⟩ := ih.1 (by omega)
        rw [before,Option.bind_some,mark_full (by omega)]

/-- The last two readings, in the slots of their numbers. -/
theorem marks_last {before : List TimeSpec} (small : before.length + 2 < 2^31) (old new : TimeSpec) :
    marks (before ++ [old,new]) = some (if before.length % 2 = 0 then ⟨old,new,(before.length + 2 : Nat)⟩
      else ⟨new,old,(before.length + 2 : Nat)⟩) := by
  obtain ⟨tp,start,count⟩ := (marks_count before).1 (by omega)
  have cut : before ++ [old,new] = before ++ [old] ++ [new] := by rw [List.append_assoc]; rfl
  rw [cut,marks_concat,marks_concat,start,Option.bind_some,mark_ok count (by omega),Option.bind_some]
  rcases Nat.mod_two_eq_zero_or_one before.length with even | odd
  · have next : ¬(before.length + 1) % 2 = 0 := by omega
    rw [if_pos even,mark_ok rfl (by omega),if_neg next,if_pos even]
  · have next : (before.length + 1) % 2 = 0 := by omega
    have here : ¬before.length % 2 = 0 := by omega
    rw [if_neg here,mark_ok rfl (by omega),if_pos next,if_neg here]

/-! ### The result -/

theorem ofInt_toNat {n : Int} (least : 0 ≤ n) (most : n < 2^64) : ((UInt64.ofInt n).toNat : Int) = n := by
  rw [UInt64.ofInt,UInt64.toNat_ofNat']
  omega

theorem ofInt_sub (a b : Int) : UInt64.ofInt (a - b) = UInt64.ofInt a - UInt64.ofInt b := by
  rw [Int.sub_eq_add_neg,UInt64.ofInt_add,UInt64.ofInt_neg,UInt64.sub_eq_add_neg]

/-- The result where nothing wraps. -/
theorem mval_value {tp : Pair} (order : tp.ts_0.tv_sec ≤ tp.ts_1.tv_sec) (no_wrap : NoWrap tp) :
    ((atm_time_mval tp).1.toNat : Int) = (tp.ts_1.nanos - tp.ts_0.nanos) / 1000000 := by
  have exact' : ((tp.ts_1.tv_sec - tp.ts_0.tv_sec) * ATM_TIME_NANO_RES + tp.ts_1.tv_nsec - tp.ts_0.tv_nsec) *
      ATM_TIME_MILI_RES = (tp.ts_1.nanos - tp.ts_0.nanos) * 1000 := by
    simp only [TimeSpec.nanos,ATM_TIME_NANO_RES,ATM_TIME_MILI_RES]
    omega
  obtain ⟨least,most⟩ := no_wrap order ((tp.ts_1.nanos - tp.ts_0.nanos) * 1000) (by simp [exact_results,← exact'])
  have res : (atm_time_mval tp).1 =
      UInt64.ofInt ((tp.ts_1.nanos - tp.ts_0.nanos) * 1000) / UInt64.ofInt ATM_TIME_NANO_RES := by
    rw [atm_time_mval]
    dsimp only
    rw [if_pos order,← UInt64.ofInt_mul,← UInt64.ofInt_add,← ofInt_sub,← UInt64.ofInt_mul,exact']
  have divisor : (UInt64.ofInt ATM_TIME_NANO_RES).toNat = 1000000000 := rfl
  have product := ofInt_toNat least most
  rw [res,UInt64.toNat_div,divisor]
  omega

theorem mval_reversed {tp : Pair} (order : tp.ts_1.tv_sec < tp.ts_0.tv_sec) : (atm_time_mval tp).1 = 0 :=
  if_neg (by omega)

/-- In a clock's order the calculation is without wrap when its last product is. -/
theorem no_wrap_iff {old new : TimeSpec} (order : old.nanos ≤ new.nanos) (proper : old.Proper) (proper' : new.Proper)
    (curr : Int) : old.tv_sec ≤ new.tv_sec ∧ (NoWrap ⟨old,new,curr⟩ ↔ (new.nanos - old.nanos) * 1000 < 2^64) := by
  obtain ⟨least,most⟩ := proper
  obtain ⟨least',most'⟩ := proper'
  simp only [TimeSpec.nanos] at order
  have seconds : old.tv_sec ≤ new.tv_sec := by omega
  refine ⟨seconds,?_⟩
  simp only [NoWrap,exact_results,List.forall_mem_cons,TimeSpec.nanos,ATM_TIME_NANO_RES,ATM_TIME_MILI_RES,seconds,true_implies]
  constructor
  · rintro ⟨_,_,_,_,⟨_,bound⟩,_⟩
    omega
  · intro bound
    refine ⟨?_,?_,?_,?_,?_,fun _ member => absurd member List.not_mem_nil⟩ <;> constructor <;> omega

/-- The slots in the order of the readings. -/
theorem elapsed_even {old new : TimeSpec} (order : old.nanos ≤ new.nanos) (proper : old.Proper) (proper' : new.Proper)
    (curr : Int) :
    (NoWrap ⟨old,new,curr⟩ ∧ ((atm_time_mval ⟨old,new,curr⟩).1.toNat : Int) = (new.nanos - old.nanos) / 1000000) ↔
      (new.nanos - old.nanos) * 1000 < 2^64 := by
  obtain ⟨seconds,iff⟩ := no_wrap_iff order proper proper' curr
  rw [← iff]
  exact and_iff_left_of_imp (mval_value seconds)

/-- The slots the other way round. -/
theorem elapsed_odd {old new : TimeSpec} (order : old.nanos ≤ new.nanos) (proper : old.Proper) (proper' : new.Proper)
    (curr : Int) :
    (NoWrap ⟨new,old,curr⟩ ∧ ((atm_time_mval ⟨new,old,curr⟩).1.toNat : Int) = (new.nanos - old.nanos) / 1000000) ↔
      old = new ∨ (old.tv_sec < new.tv_sec ∧ new.nanos - old.nanos < 1000000) := by
  by_cases later : old.tv_sec < new.tv_sec
  · -- nothing is calculated, and the result is 0
    have zero : (atm_time_mval ⟨new,old,curr⟩).1 = 0 := mval_reversed later
    have idle : NoWrap ⟨new,old,curr⟩ := fun reached => absurd reached (by simpa using later)
    have different : old ≠ new := fun same => by rw [same] at later; exact absurd later (Int.lt_irrefl _)
    rw [zero,and_iff_right idle,or_iff_right different,and_iff_right later]
    change (0 : Int) = (new.nanos - old.nanos) / 1000000 ↔ _
    omega
  · have seconds : new.tv_sec ≤ old.tv_sec := by omega
    constructor
    · rintro ⟨no_wrap,_⟩
      have diff := no_wrap seconds ((old.tv_sec - new.tv_sec) * ATM_TIME_NANO_RES + old.tv_nsec - new.tv_nsec)
        (by simp [exact_results])
      simp only [TimeSpec.nanos] at order
      simp only [ATM_TIME_NANO_RES] at diff
      obtain ⟨least,most⟩ := proper
      obtain ⟨least',most'⟩ := proper'
      left
      obtain ⟨s,n⟩ := old
      obtain ⟨s',n'⟩ := new
      simp only at *
      have same : s = s' := by omega
      have same' : n = n' := by omega
      rw [same,same']
    · rintro (rfl | ⟨less,_⟩)
      · exact (elapsed_even (Int.le_refl _) proper proper curr).mpr (by omega)
      · exact absurd less later

/-- With the pair that the marks have left. -/
theorem elapsed_marked {before : List TimeSpec} {old new : TimeSpec} {tp : Pair}
    (marked : marks (before ++ [old,new]) = some tp) :
    Elapsed before old new ↔ NoWrap tp ∧ ((atm_time_mval tp).1.toNat : Int) = (new.nanos - old.nanos) / 1000000 := by
  rw [Elapsed,marked]
  constructor
  · rintro ⟨_,same,no_wrap,result,_⟩
    cases same
    exact ⟨no_wrap,result⟩
  · rintro ⟨no_wrap,result⟩
    exact ⟨tp,rfl,no_wrap,result,rfl⟩

/-- For every sequence of two or more readings: the elapsed time is right in just these cases. -/
theorem elapsed_iff {before : List TimeSpec} {old new : TimeSpec} (clock : Clock (before ++ [old,new])) :
    Elapsed before old new ↔ InOrder before old new := by
  have order : old.nanos ≤ new.nanos := by
    have last := (List.pairwise_append.mp clock.order).2.1
    exact List.rel_of_pairwise_cons last List.mem_cons_self
  have proper := clock.proper old (by simp)
  have proper' := clock.proper new (by simp)
  by_cases small : before.length + 2 < 2^31
  · rw [elapsed_marked (marks_last small old new),InOrder,and_iff_right small]
    by_cases even : before.length % 2 = 0
    · rw [if_pos even,if_pos even]
      exact elapsed_even order proper proper' _
    · rw [if_neg even,if_neg even]
      exact elapsed_odd order proper proper' _
  · have none : marks (before ++ [old,new]) = none := (marks_count _).2 (by simp; omega)
    rw [Elapsed,InOrder,none]
    constructor
    · rintro ⟨tp,marked,_⟩
      cases marked
    · rintro ⟨few,_⟩
      exact absurd few small

theorem three_readings : Clock [⟨0,0⟩,⟨1,0⟩,⟨3,500000000⟩] := ⟨by decide,by decide⟩

theorem elapsed_three : Elapsed [⟨0,0⟩] ⟨1,0⟩ ⟨3,500000000⟩ ↔ InOrder [⟨0,0⟩] ⟨1,0⟩ ⟨3,500000000⟩ :=
  elapsed_iff three_readings

/-- After three marks the 2500 milliseconds between the last two are not found. -/
theorem elapsed_fails : ¬∀ before old new, Clock (before ++ [old,new]) → Elapsed before old new := by
  intro elapsed
  obtain ⟨tp,marked,_,result,_⟩ := elapsed [⟨0,0⟩] ⟨1,0⟩ ⟨3,500000000⟩ three_readings
  have last : marks ([⟨0,0⟩] ++ [⟨1,0⟩,⟨3,500000000⟩]) = some ⟨⟨3,500000000⟩,⟨1,0⟩,3⟩ := rfl
  cases last.symm.trans marked
  exact absurd result (by decide)

end AtmCache.TimePair
