import AtmCache.ArrWords
import AtmCache.Runs

/-!
# Arrays are sequences

A program calls the functions of one array and does anything else to the memory but for the
block of the array. Such a run is the run of the same calls on a list of elements, as
long as the numbers of bytes stay below `2^32` and no add that replaces the block is given an element
of it (`arrays_refine_iff`): nothing is read or written outside of a block, the length is at most the
capacity, which is 32 times a power of two, and an array that has shrunk has room for the next element.
-/
namespace AtmCache.Arrays
open CStrings Heap Runs Slices

/-- An array with the answers that the program has got, in order. -/
inductive Answer where
  | index (n : Nat)
  | element (e : Option (List Cell))
  | status (r : Int)
  deriving DecidableEq, Repr

structure State where
  mem : Mem
  arr : Arr
  answers : List Answer

/-- A call, with the bytes that its argument points to, or what the rest of the program makes of the memory. -/
inductive Op where
  | add (v : Ptr) (data : List Cell)
  | get (i : Nat)
  | set (i : Nat) (v : Ptr) (data : List Cell)
  | del (i : Nat)
  | other (m : Mem)

/-- The element that `atm_arr_get` points to is read. -/
def step (s : State) : Op → Except Fault State
  | .add v _ => do
    let (m,arr,n) ← atm_arr_add s.mem s.arr v
    return ⟨m,arr,s.answers ++ [.index n]⟩
  | .get i =>
    if atm_arr_get s.arr i = .null then .ok { s with answers := s.answers ++ [.element none] }
    else do return { s with answers := s.answers ++ [.element (.some (← load s.mem (atm_arr_get s.arr i) s.arr.tsize))] }
  | .set i v _ => do
    let (m,r) ← atm_arr_set s.mem (some s.arr) i v
    return ⟨m,s.arr,s.answers ++ [.status r]⟩
  | .del i => do
    match ← atm_arr_del s.mem (some s.arr) i with
    | (m,some arr,r) => return ⟨m,arr,s.answers ++ [.status r]⟩
    | (_,none,_) => throw .nullDeref
  | .other m => .ok { s with mem := m }

/-! ### The list -/

/-- The elements, with the answers that they give. -/
structure Seq where
  words : List (List Cell)
  answers : List Answer

def seq_step (q : Seq) : Op → Seq
  | .add v data =>
    if v = .null then { q with answers := q.answers ++ [.index 0] }
    else ⟨q.words ++ [data],q.answers ++ [.index q.words.length]⟩
  | .get i => { q with answers := q.answers ++ [.element q.words[i]?] }
  | .set i _ data =>
    if i < q.words.length then ⟨q.words.set i data,q.answers ++ [.status ATM_OK]⟩
    else { q with answers := q.answers ++ [.status ATM_ERROR] }
  | .del i =>
    if i < q.words.length then ⟨q.words.eraseIdx i,q.answers ++ [.status ATM_OK]⟩
    else { q with answers := q.answers ++ [.status ATM_ERROR] }
  | .other _ => q

/-- The list after some calls on a new array. -/
def seq_run (ops : List Op) : Seq := ops.foldl seq_step ⟨[],[]⟩

/-! ### What a program promises -/

/-- The array is full for `atm_arr_add`. -/
def Full (arr : Arr) : Prop := arr.capacity < u32 (u32 (arr.length * 3) / 2 + 1)

/-- The bounds on the array, and arguments that can be read at the call. The rest of the program leaves
    the block of the array alone. -/
def Given (s : State) (op : Op) : Prop :=
  2 * s.arr.capacity * s.arr.tsize < 2^32 ∧ 3 * s.arr.length < 2^32 ∧
    match op with
    | .add v data => v ≠ .null → load s.mem v s.arr.tsize = .ok data
    | .set i v data => i < s.arr.length → load s.mem v s.arr.tsize = .ok data
    | .other m => get m.heap s.arr._vals = get s.mem.heap s.arr._vals
    | _ => True

/-- The address of a byte of the block. -/
def lies_in (b : Addr) : Ptr → Bool
  | .block a _ => a = b
  | _ => false

/-- An add that replaces the block of the array is not given an address in it. -/
def Apart (s : State) : Op → Prop
  | .add v _ => Full s.arr → lies_in s.arr._vals v = false
  | _ => True

instance (arr : Arr) : Decidable (Full arr) := inferInstanceAs (Decidable (_ < _))

instance (s : State) (op : Op) : Decidable (Given s op) :=
  match op with
  | .add _ _ | .set _ _ _ => inferInstanceAs (Decidable (_ ∧ _ ∧ (_ → _)))
  | .other _ => inferInstanceAs (Decidable (_ ∧ _ ∧ _ = _))
  | .get _ | .del _ => inferInstanceAs (Decidable (_ ∧ _ ∧ True))

instance (s : State) (op : Op) : Decidable (Apart s op) :=
  match op with
  | .add _ _ => inferInstanceAs (Decidable (_ → _))
  | .get _ | .set _ _ _ | .del _ | .other _ => .isTrue trivial

/-- The array holds the list, its capacity has been doubled and halved from `ATM_ARR_INITIAL_LEN` on, and a
    third of it is free or nearly so. -/
structure Refines (tsize : Nat) (s : State) (q : Seq) : Prop extends Holds s.mem s.arr q.words where
  answers : s.answers = q.answers
  size : s.arr.tsize = tsize
  power : ∃ k, s.arr.capacity = ATM_ARR_INITIAL_LEN * 2^k
  fill : 3 * s.arr.length ≤ 2 * s.arr.capacity + 2

variable {m m' : Mem} {arr : Arr} {words : List (List Cell)} {tsize i : Nat} {s : State} {q : Seq}

/-! ### Blocks -/

theorem lies_in_no_block {b : Addr} {p : Ptr} (apart : lies_in b p = false) : ∀ offset, p ≠ .block b offset := by
  rintro offset rfl
  simp [lies_in] at apart

theorem lies_in_block {b : Addr} {p : Ptr} (inside : lies_in b p = true) : ∃ offset, p = .block b offset := by
  cases p with
  | null => cases inside
  | code f => cases inside
  | handle k => cases inside
  | block a offset => exact ⟨offset,by rw [of_decide_eq_true inside]⟩

/-- What was read from another block than the one that changed is still there. -/
theorem load_kept {b : Addr} (elsewhere : Elsewhere b m m') {p : Ptr} {n : Nat} {data : List Cell}
    (done : load m p n = .ok data) (apart : ∀ offset, p ≠ .block b offset) : load m' p n = .ok data := by
  cases p with
  | null => cases done
  | handle k => cases done
  | code f =>
    simp only [load] at done
    simpa only [load,elsewhere.code] using done
  | block a offset =>
    have other : a ≠ b := fun same => apart offset (by rw [same])
    simp only [load] at done
    cases here : get m.heap a with
    | none =>
      rw [here] at done
      cases done
    | some cells =>
      rw [here] at done
      simpa only [load,elsewhere.same a (get_lt here) other,here] using done

/-- A part of a block is copied behind the first cells of a new block. -/
theorem copy_fresh {a d e l k : Nat} {pre x part y : List Cell} (src : get m.heap a = some (x ++ part ++ y))
    (dest_at : d = pre.length) (src_at : e = x.length) (amount : l = part.length) :
    copy_part { m with heap := alloc m.heap (pre ++ zeros (part.length + k)) } (.block m.heap.length d) (.block a e) l =
      .ok { m with heap := alloc m.heap (pre ++ part ++ zeros k) } := by
  subst dest_at src_at amount
  by_cases positive : 0 < part.length
  · have kept : get (alloc m.heap (pre ++ zeros (part.length + k))) a = some (x ++ part ++ y) :=
      (get_alloc_old _ (get_lt src)).trans src
    have read : load { m with heap := alloc m.heap (pre ++ zeros (part.length + k)) } (.block a x.length) part.length =
        .ok part := load_block kept rfl rfl
    have cut : pre ++ zeros (part.length + k) = pre ++ zeros part.length ++ zeros k := by
      rw [List.append_assoc,zeros_add]
    have fits : pre.length + part.length ≤ (pre ++ zeros (part.length + k)).length := by
      rw [List.length_append,zeros,List.length_replicate]
      omega
    rw [copy_part,if_pos positive,memcpy,read,ok_bind,store_new fits,cut,
      splice_append _ _ _ (by rw [zeros,List.length_replicate])]
  · have empty : part = [] := List.length_eq_zero_iff.mp (by omega)
    rw [copy_part,if_neg positive,empty,List.append_nil,List.length_nil,Nat.zero_add]

/-! ### One call -/

/-- The byte offset of an element, and of what is behind it. -/
theorem Holds.start (holds : Holds m arr words) (fits : arr.capacity * arr.tsize < 2^32) (inside : i < words.length) :
    u32 (i * arr.tsize) = (words.take i).flatten.length := by
  obtain ⟨_,before,_⟩ := holds.block_at inside
  have last := holds.word_end inside
  rw [before,Nat.mul_comm,u32_of_lt (by omega)]

theorem Holds.behind (holds : Holds m arr words) (fits : arr.capacity * arr.tsize < 2^32) (few : 4 * words.length < 2^32)
    (inside : i < words.length) : u32 (u32 (i+1) * arr.tsize) = ((words.take i).flatten ++ words[i]).length := by
  obtain ⟨_,before,size,_⟩ := holds.block_at inside
  have last := holds.word_end inside
  have next : u32 (i+1) * arr.tsize = arr.tsize * i + arr.tsize := by
    rw [u32_of_lt (by omega)]
    ring
  rw [List.length_append,before,size,next,u32_of_lt (by omega)]

/-- The number of bytes behind an element. -/
theorem Holds.rest (holds : Holds m arr words) (fits : arr.capacity * arr.tsize < 2^32) (few : 4 * words.length < 2^32)
    (inside : i < words.length) :
    u32 (sub32 (sub32 arr.length 1) i * arr.tsize) = (words.drop (i+1)).flatten.length := by
  obtain ⟨_,_,_,behind⟩ := holds.block_at inside
  have total := holds.bytes
  have less : sub32 words.length 1 = words.length - 1 := sub32_of_le (by omega) (by omega)
  have count : sub32 (sub32 arr.length 1) i = words.length - (i+1) := by
    rw [holds.length,less,sub32_of_le (by omega) (by omega)]
    omega
  rw [count,behind,Nat.mul_comm,u32_of_lt]
  exact Nat.lt_of_le_of_lt ((Nat.mul_le_mul_left arr.tsize (Nat.sub_le _ _)).trans total) fits

/-- The array that is left after a delete has room for its elements. -/
theorem Holds.del_room (holds : Holds m arr words) (few : 4 * words.length < 2^32) : words.length - 1 ≤ del_capacity arr := by
  have most := holds.room
  rw [del_capacity,holds.length,u32_of_lt (by omega)]
  split <;> omega

theorem set_holds (holds : Holds m arr words) (fits : arr.capacity * arr.tsize < 2^32) (inside : i < words.length)
    {v : Ptr} {data : List Cell} (value : load m v arr.tsize = .ok data) :
    ∃ m', atm_arr_set m (some arr) i v = .ok (m',ATM_OK) ∧ Holds m' arr (words.set i data) := by
  obtain ⟨block,before,size,_⟩ := holds.block_at inside
  have last := holds.word_end inside
  have long := load_length value
  have room : (words.take i).flatten.length + data.length ≤ ((words.take i).flatten ++ words[i] ++
      ((words.drop (i+1)).flatten ++ zeros (arr.tsize * (arr.capacity - words.length)))).length := by
    simp only [List.length_append]
    omega
  have written := store_block block room
  rw [splice_append _ _ _ (long.trans size.symm)] at written
  have here : words.set i data = words.take i ++ data :: words.drop (i+1) :=
    List.set_eq_take_append_cons_drop.trans (if_pos inside)
  refine ⟨{ m with heap := put m.heap arr._vals ((words.take i).flatten ++ data ++ ((words.drop (i+1)).flatten ++
    zeros (arr.tsize * (arr.capacity - words.length)))) },?_,⟨?_,?_,?_,?_⟩⟩
  · rw [atm_arr_set,if_pos (by rw [holds.length]; exact inside),memcpy,value,ok_bind,holds.start fits inside,written]
    rfl
  · intro w member
    rcases List.mem_or_eq_of_mem_set member with old | new
    · exact holds.each w old
    · rw [new]
      exact long
  · rw [List.length_set]
    exact holds.length
  · rw [List.length_set]
    exact holds.room
  · rw [List.length_set,here,List.flatten_append,List.flatten_cons]
    refine (get_put_self block _).trans (congrArg some ?_)
    simp [List.append_assoc]

/-- A delete copies the elements around an index to a block of the new capacity. -/
theorem remove_holds (holds : Holds m arr words) (fits : arr.capacity * arr.tsize < 2^32) (few : 4 * words.length < 2^32)
    (inside : i < words.length) : ∃ m' arr', arr_remove m arr i = .ok (m',arr') ∧ Holds m' arr' (words.eraseIdx i) ∧
      arr'.tsize = arr.tsize ∧ arr'.capacity = del_capacity arr ∧ arr'.length + 1 = arr.length := by
  obtain ⟨block,before,size,behind⟩ := holds.block_at inside
  have length := holds.length
  have old := get_lt holds.block
  have here : words.eraseIdx i = words.take i ++ words.drop (i+1) := List.eraseIdx_eq_take_drop_succ words i
  have shorter : (words.eraseIdx i).length = words.length - 1 := List.length_eraseIdx_of_lt inside
  obtain ⟨more,wide⟩ := Nat.exists_eq_add_of_le (holds.del_room few)
  have bytes : del_capacity arr * arr.tsize =
      (words.take i).flatten.length + ((words.drop (i+1)).flatten.length + arr.tsize * more) := by
    obtain ⟨j,split⟩ := Nat.exists_eq_add_of_lt inside
    rw [wide,before,behind,split,show i + j + 1 - 1 + more = i + (j + more) by omega,show i + j + 1 - (i + 1) = j by omega]
    ring
  have start := holds.start fits inside
  have head : copy_part { m with heap := alloc m.heap (zeros (del_capacity arr * arr.tsize)) } (.block m.heap.length 0)
      (.block arr._vals 0) (u32 (i * arr.tsize)) = .ok { m with heap := alloc m.heap ((words.take i).flatten ++
        zeros ((words.drop (i+1)).flatten.length + arr.tsize * more)) } := by
    have src : get m.heap arr._vals = some ([] ++ (words.take i).flatten ++ (words[i] ++ ((words.drop (i+1)).flatten ++
        zeros (arr.tsize * (arr.capacity - words.length))))) := by
      rw [block,List.nil_append,List.append_assoc]
    have front : 0 = ([] : List Cell).length := rfl
    rw [bytes]
    exact (copy_fresh src front front start :)
  have tail : copy_part { m with heap := alloc m.heap ((words.take i).flatten ++
        zeros ((words.drop (i+1)).flatten.length + arr.tsize * more)) } (.block m.heap.length (u32 (i * arr.tsize)))
      (.block arr._vals (u32 (u32 (i+1) * arr.tsize))) (u32 (sub32 (sub32 arr.length 1) i * arr.tsize)) =
        .ok { m with heap := alloc m.heap ((words.take i).flatten ++ (words.drop (i+1)).flatten ++ zeros (arr.tsize * more)) } := by
    have src : get m.heap arr._vals = some ((words.take i).flatten ++ words[i] ++ (words.drop (i+1)).flatten ++
        zeros (arr.tsize * (arr.capacity - words.length))) := by
      rw [block,List.append_assoc _ _ (zeros _)]
    exact copy_fresh src start (holds.behind fits few inside) (holds.rest fits few inside)
  refine ⟨{ m with heap := free (alloc m.heap ((words.take i).flatten ++ (words.drop (i+1)).flatten ++
      zeros (arr.tsize * more))) arr._vals },⟨m.heap.length,del_capacity arr,sub32 arr.length 1,arr.tsize⟩,?_,⟨?_,?_,?_,?_⟩,rfl,rfl,?_⟩
  · rw [arr_remove]
    simp only [mem_alloc]
    rw [head,ok_bind,tail,ok_bind]
    rfl
  · exact fun w member => holds.each w (List.mem_of_mem_eraseIdx member)
  · rw [shorter,length]
    exact sub32_of_le (by omega) (by omega)
  · rw [shorter]
    exact holds.del_room few
  · rw [here,List.flatten_append,← here,shorter,wide,Nat.add_sub_cancel_left]
    exact (get_free_other _ (Nat.ne_of_gt old)).trans (get_alloc_new m.heap _)
  · dsimp only
    rw [length,sub32_of_le (by omega) (by omega)]
    omega

/-- An add that is given readable bytes appends them and doubles a full array. -/
theorem add_holds (holds : Holds m arr words) (positive : 0 < arr.capacity * arr.tsize)
    (fits : 2 * arr.capacity * arr.tsize < 2^32) (few : 4 * words.length < 2^32) {v : Ptr} {data : List Cell} (value : v ≠ .null)
    (readable : load m v arr.tsize = .ok data) (apart : Full arr → lies_in arr._vals v = false) :
    ∃ m' arr', atm_arr_add m arr v = .ok (m',arr',words.length) ∧ Holds m' arr' (words ++ [data]) ∧
      arr'.tsize = arr.tsize ∧ arr'.length = arr.length + 1 ∧
      ((¬ Full arr ∧ arr'.capacity = arr.capacity) ∨ Full arr ∧ arr'.capacity = 2 * arr.capacity) := by
  have length := holds.length
  have most := holds.room
  have element : 0 < arr.tsize := pos_of_mul_pos_right positive (Nat.zero_le _)
  have some : 0 < arr.capacity := pos_of_mul_pos_left positive (Nat.zero_le _)
  have double : arr.capacity * arr.tsize * 2 < 2^32 := by
    rw [show arr.capacity * arr.tsize * 2 = 2 * arr.capacity * arr.tsize by ring]
    exact fits
  have tests : u32 (u32 (arr.length * 3) / 2 + 1) = words.length * 3 / 2 + 1 := by
    rw [length,u32_of_lt (by omega : words.length * 3 < 2^32),u32_of_lt (by omega)]
  -- the call after the array was grown or not
  have last : ∀ m₁ arr₁, Holds m₁ arr₁ words → words.length < arr₁.capacity → arr₁.capacity * arr₁.tsize < 2^32 →
      arr₁.tsize = arr.tsize → load m₁ v arr.tsize = .ok data →
      (if arr.capacity < u32 (u32 (arr.length * 3) / 2 + 1) then arr_grow m arr else .ok (m,arr)) = .ok (m₁,arr₁) →
      ∃ m', atm_arr_add m arr v = .ok (m',{ arr₁ with length := arr₁.length + 1 },words.length) ∧
        Holds m' { arr₁ with length := arr₁.length + 1 } (words ++ [data]) := by
    intro m₁ arr₁ holds₁ room bytes size read made
    have next : u32 (arr₁.length + 1) = words.length + 1 := by
      rw [holds₁.length]
      exact u32_of_lt (by omega)
    obtain ⟨m',stored,holds',_⟩ := put_holds holds₁ room bytes ((load_length read).trans size.symm)
    refine ⟨m',?_,holds'⟩
    rw [atm_arr_add,if_neg value]
    simp only [made,ok_bind,memcpy,size,read]
    rw [← size,stored,ok_bind,next,sub32_of_le (by omega) (by omega),holds₁.length]
    rfl
  by_cases full : Full arr
  · obtain ⟨m₁,arr₁,grown,holds₁,size,larger,_,_,elsewhere⟩ := grow_holds holds positive double
    have wide : arr₁.capacity = 2 * arr.capacity := by
      have := Nat.le_mul_of_pos_right arr.capacity element
      rw [larger,u32_of_lt (by omega),Nat.mul_comm]
    have large : arr.capacity < words.length * 3 / 2 + 1 := tests ▸ full
    obtain ⟨m',done,holds'⟩ := last m₁ arr₁ holds₁ (by omega) (by rw [wide,size]; exact fits) size
      (load_kept elsewhere readable (lies_in_no_block (apart full)))
      ((if_pos (show arr.capacity < _ from full)).trans grown)
    exact ⟨m',_,done,holds',size,congrArg (· + 1) (holds₁.length.trans length.symm),.inr ⟨full,wide⟩⟩
  · have small : words.length * 3 / 2 + 1 ≤ arr.capacity := tests ▸ Nat.le_of_not_lt full
    obtain ⟨m',done,holds'⟩ := last m arr holds (by omega) (by omega) rfl readable (if_neg full)
    exact ⟨m',_,done,holds',rfl,rfl,.inl ⟨full,rfl⟩⟩

theorem realloc_frees {b new : Addr} {osz nsz : Nat} (done : mem_realloc m b osz nsz = .ok (m',new)) : get m'.heap b = none := by
  obtain ⟨m₁,_,last⟩ := bind_eq_ok.mp done
  cases last
  exact get_free_self _ _

/-- An add that replaces the block reads what it is given after that, and finds a block that was freed. -/
theorem add_own_fails {v : Ptr} (full : Full arr) (own : lies_in arr._vals v = true) {r : Mem × Arr × Nat} :
    atm_arr_add m arr v ≠ .ok r := by
  obtain ⟨offset,rfl⟩ := lies_in_block own
  intro done
  rw [atm_arr_add,if_neg (fun same => by cases same)] at done
  obtain ⟨⟨m₁,arr₁⟩,made,rest⟩ := bind_eq_ok.mp done
  obtain ⟨m₂,copied,_⟩ := bind_eq_ok.mp rest
  have grown : arr_grow m arr = .ok (m₁,arr₁) := (if_pos (show arr.capacity < _ from full)).symm.trans made
  obtain ⟨⟨m₃,new⟩,moved,last⟩ := bind_eq_ok.mp grown
  have gone := realloc_frees moved
  dsimp only at last
  by_cases other : new ≠ arr._vals
  · rw [if_pos other] at last
    cases last
    obtain ⟨data,read,_⟩ := bind_eq_ok.mp copied
    simp only [load,gone] at read
    cases read
  · rw [if_neg other] at last
    cases last

/-! ### Runs -/

theorem new_refines (made : atm_arr_new m tsize = (m',some arr)) :
    0 < tsize ∧ Refines tsize ⟨m',arr,[]⟩ (seq_run []) := by
  unfold atm_arr_new at made
  by_cases positive : 0 < tsize
  · rw [if_pos positive] at made
    cases made
    refine ⟨positive,⟨?_,rfl,Nat.zero_le _,?_⟩,rfl,rfl,⟨0,rfl⟩,Nat.zero_le _⟩
    · exact fun w member => absurd member List.not_mem_nil
    · rw [Nat.mul_comm]
      exact get_alloc_new m.heap _
  · rw [if_neg positive] at made
    cases made

/-- The bounds keep the numbers of elements and of bytes from wrapping. -/
theorem Refines.small (refines : Refines tsize s q) (element : 0 < tsize)
    (bytes : 2 * s.arr.capacity * s.arr.tsize < 2^32) :
    0 < s.arr.capacity * s.arr.tsize ∧ s.arr.capacity * s.arr.tsize < 2^32 ∧ 4 * q.words.length < 2^32 := by
  obtain ⟨k,capacity⟩ := refines.power
  have size := refines.size
  have power : 0 < 2^k := Nat.pow_pos (by omega)
  rw [ATM_ARR_INITIAL_LEN] at capacity
  have some : 0 < s.arr.capacity := by omega
  have wide := Nat.le_mul_of_pos_right (2 * s.arr.capacity) (size ▸ element : 0 < s.arr.tsize)
  have half : 2 * s.arr.capacity * s.arr.tsize = s.arr.capacity * s.arr.tsize + s.arr.capacity * s.arr.tsize := by ring
  have exponent : 2^k ≤ 2^25 := by
    have below : 2^k < 2^26 := by omega
    exact Nat.pow_le_pow_right (by omega) (Nat.le_of_lt_succ ((Nat.pow_lt_pow_iff_right (by omega)).mp below))
  have fill := refines.fill
  have length := refines.length
  exact ⟨Nat.mul_pos some (size ▸ element),by omega,by omega⟩

theorem del_capacity_eq (refines : Refines tsize s q) (few : 4 * q.words.length < 2^32) :
    (∃ k, del_capacity s.arr = ATM_ARR_INITIAL_LEN * 2^k) ∧
      (del_capacity s.arr = s.arr.capacity ∨
        2 * del_capacity s.arr = s.arr.capacity ∧ 4 * s.arr.length < s.arr.capacity) := by
  obtain ⟨k,capacity⟩ := refines.power
  have length := refines.length
  rw [del_capacity,u32_of_lt (by omega)]
  by_cases shrinks : s.arr.length * 4 < s.arr.capacity ∧ ATM_ARR_INITIAL_LEN * 2 ≤ s.arr.capacity
  · rw [if_pos shrinks]
    obtain ⟨less,large⟩ := shrinks
    cases k with
    | zero =>
      rw [capacity,ATM_ARR_INITIAL_LEN] at large
      omega
    | succ k =>
      have half : s.arr.capacity / 2 = ATM_ARR_INITIAL_LEN * 2^k := by
        rw [capacity,Nat.pow_succ,← Nat.mul_assoc,Nat.mul_div_cancel _ (by omega)]
      refine ⟨⟨k,half⟩,.inr ⟨?_,by omega⟩⟩
      rw [half,capacity,Nat.pow_succ]
      ring
  · rw [if_neg shrinks]
    exact ⟨⟨k,capacity⟩,.inl rfl⟩

/-- A delete of an element that is there. -/
theorem del_refines (element : 0 < tsize) (refines : Refines tsize s q)
    (bytes : 2 * s.arr.capacity * s.arr.tsize < 2^32) (inside : i < q.words.length) :
    ∃ u, step s (.del i) = .ok u ∧ Refines tsize u (seq_step q (.del i)) ∧ u.arr.capacity = del_capacity s.arr ∧
      u.arr.length + 1 = s.arr.length := by
  obtain ⟨_,fits,few⟩ := refines.small element bytes
  obtain ⟨m₁,arr₁,removed,holds,size,capacity,shorter⟩ := remove_holds refines.toHolds fits few inside
  obtain ⟨power,halved⟩ := del_capacity_eq refines few
  have fill := refines.fill
  have there : i < s.arr.length := by rw [refines.length]; exact inside
  have done : step s (.del i) = .ok ⟨m₁,arr₁,s.answers ++ [.status ATM_OK]⟩ := by
    simp only [step,atm_arr_del,if_pos there,removed,ok_bind,pure_eq_ok]
  refine ⟨_,done,?_,capacity,shorter⟩
  rw [seq_step,if_pos inside]
  refine ⟨holds,by rw [refines.answers],size.trans refines.size,by rw [capacity]; exact power,?_⟩
  dsimp only
  rw [capacity]
  omega

theorem add_refines (element : 0 < tsize) (refines : Refines tsize s q) {v : Ptr} {data : List Cell}
    (given : Given s (.add v data)) (apart : Apart s (.add v data)) :
    ∃ u, step s (.add v data) = .ok u ∧ Refines tsize u (seq_step q (.add v data)) ∧
      (¬ Full s.arr → u.arr.capacity = s.arr.capacity) := by
  obtain ⟨bytes,_,argument⟩ := given
  by_cases null : v = .null
  · refine ⟨{ s with answers := s.answers ++ [.index 0] },?_,?_,fun _ => rfl⟩
    · simp only [step,atm_arr_add,if_pos null,ok_bind,pure_eq_ok]
    · rw [seq_step,if_pos null]
      exact ⟨refines.toHolds,by rw [refines.answers],refines.size,refines.power,refines.fill⟩
  · have readable := argument null
    obtain ⟨positive,fits,few⟩ := refines.small element bytes
    obtain ⟨m₁,arr₁,done,holds,size,length,capacity⟩ := add_holds refines.toHolds positive bytes few null readable apart
    have fill := refines.fill
    have count := refines.length
    refine ⟨⟨m₁,arr₁,s.answers ++ [.index q.words.length]⟩,?_,?_,?_⟩
    · simp only [step,done,ok_bind,pure_eq_ok]
    · rw [seq_step,if_neg null]
      refine ⟨holds,by rw [refines.answers],size.trans refines.size,?_,?_⟩
      · obtain ⟨k,power⟩ := refines.power
        rcases capacity with ⟨_,same⟩ | ⟨_,double⟩
        · exact ⟨k,same.trans power⟩
        · exact ⟨k+1,by rw [double,power,Nat.pow_succ]; ring⟩
      · dsimp only
        rw [length]
        rcases capacity with ⟨room,same⟩ | ⟨_,double⟩
        · rw [Full,u32_of_lt (by omega : s.arr.length * 3 < 2^32),u32_of_lt (by omega)] at room
          omega
        · have some := Nat.pos_of_ne_zero (fun zero => by rw [zero,Nat.zero_mul] at positive; omega : s.arr.capacity ≠ 0)
          omega
    · intro room
      rcases capacity with ⟨_,same⟩ | ⟨full,_⟩
      · exact same
      · exact absurd full room

/-- A call with an index that is out of range answers so and changes nothing else. -/
def Untouched (s : State) : Op → Prop
  | .get i => s.arr.length ≤ i → step s (.get i) = .ok { s with answers := s.answers ++ [.element none] }
  | .set i v data =>
    s.arr.length ≤ i → step s (.set i v data) = .ok { s with answers := s.answers ++ [.status ATM_ERROR] }
  | .del i => s.arr.length ≤ i → step s (.del i) = .ok { s with answers := s.answers ++ [.status ATM_ERROR] }
  | _ => True

theorem untouched (s : State) (op : Op) : Untouched s op := by
  cases op with
  | add v data => trivial
  | other m => trivial
  | get i =>
    intro behind
    have null : atm_arr_get s.arr i = .null := if_neg (Nat.not_lt.mpr behind)
    rw [step,if_pos null]
  | set i v data =>
    intro behind
    simp only [step,atm_arr_set,if_neg (Nat.not_lt.mpr behind),ok_bind,pure_eq_ok]
  | del i =>
    intro behind
    simp only [step,atm_arr_del,if_neg (Nat.not_lt.mpr behind),ok_bind,pure_eq_ok]

/-- Each call does to the array what it does to the list. -/
theorem step_refines (element : 0 < tsize) (refines : Refines tsize s q) {op : Op} (given : Given s op) (apart : Apart s op) :
    ∃ u, step s op = .ok u ∧ Refines tsize u (seq_step q op) := by
  cases op with
  | add v data =>
    obtain ⟨u,done,refined,_⟩ := add_refines element refines given apart
    exact ⟨u,done,refined⟩
  | get i =>
    obtain ⟨_,fits,_⟩ := refines.small element given.1
    refine ⟨{ s with answers := s.answers ++ [.element q.words[i]?] },?_,
      ⟨refines.toHolds,by rw [refines.answers]; rfl,refines.size,refines.power,refines.fill⟩⟩
    by_cases inside : i < q.words.length
    · have there : atm_arr_get s.arr i ≠ .null := by
        rw [get_address refines.toHolds fits inside]
        exact fun same => by cases same
      rw [step,if_neg there,get_holds refines.toHolds fits inside,ok_bind,List.getElem?_eq_getElem inside]
      rfl
    · rw [List.getElem?_eq_none (Nat.le_of_not_lt inside)]
      exact untouched s (.get i) (by rw [refines.length]; exact Nat.le_of_not_lt inside)
  | set i v data =>
    obtain ⟨_,fits,_⟩ := refines.small element given.1
    by_cases inside : i < q.words.length
    · have there : i < s.arr.length := by rw [refines.length]; exact inside
      obtain ⟨m₁,done,holds⟩ := set_holds refines.toHolds fits inside (given.2.2 there)
      refine ⟨⟨m₁,s.arr,s.answers ++ [.status ATM_OK]⟩,by simp only [step,done,ok_bind,pure_eq_ok],?_⟩
      rw [seq_step,if_pos inside]
      exact ⟨holds,by rw [refines.answers],refines.size,refines.power,refines.fill⟩
    · refine ⟨_,untouched s (.set i v data) (by rw [refines.length]; exact Nat.le_of_not_lt inside),?_⟩
      rw [seq_step,if_neg inside]
      exact ⟨refines.toHolds,by rw [refines.answers],refines.size,refines.power,refines.fill⟩
  | del i =>
    by_cases inside : i < q.words.length
    · obtain ⟨u,done,refined,_⟩ := del_refines element refines given.1 inside
      exact ⟨u,done,refined⟩
    · refine ⟨_,untouched s (.del i) (by rw [refines.length]; exact Nat.le_of_not_lt inside),?_⟩
      rw [seq_step,if_neg inside]
      exact ⟨refines.toHolds,by rw [refines.answers],refines.size,refines.power,refines.fill⟩
  | other m =>
    have kept : get m.heap s.arr._vals = get s.mem.heap s.arr._vals := given.2.2
    exact ⟨{ s with mem := m },rfl,⟨⟨refines.each,refines.length,refines.room,kept.trans refines.block⟩,
      refines.answers,refines.size,refines.power,refines.fill⟩⟩

/-- An array that a delete has shrunk is not full. -/
theorem shrunk_not_full (element : 0 < tsize) (refines : Refines tsize s q) (given : Given s (.del i)) {t : State}
    (done : step s (.del i) = .ok t) (shrunk : t.arr.capacity < s.arr.capacity) : ¬ Full t.arr := by
  by_cases inside : i < q.words.length
  · obtain ⟨u,done',_,capacity,shorter⟩ := del_refines element refines given.1 inside
    rw [done] at done'
    cases done'
    obtain ⟨_,_,few⟩ := refines.small element given.1
    obtain ⟨_,kept | ⟨half,less⟩⟩ := del_capacity_eq refines few
    · omega
    · have length := refines.length
      rw [Full,u32_of_lt (by omega : t.arr.length * 3 < 2^32),u32_of_lt (by omega)]
      omega
  · have same := untouched s (.del i) (by rw [refines.length]; exact Nat.le_of_not_lt inside)
    rw [done] at same
    cases same
    exact absurd shrunk (Nat.lt_irrefl _)

theorem step_own_fails {op : Op} (own : ¬ Apart s op) {u : State} : step s op ≠ .ok u := by
  cases op with
  | get i => exact absurd trivial own
  | set i v data => exact absurd trivial own
  | del i => exact absurd trivial own
  | other m => exact absurd trivial own
  | add v data =>
    intro done
    obtain ⟨r,added,_⟩ := bind_eq_ok.mp done
    have full : Full s.arr := by
      by_contra room
      exact own (fun full => absurd full room)
    have inside : lies_in s.arr._vals v = true := by
      by_contra outside
      exact own (fun _ => Bool.eq_false_iff.mpr outside)
    exact add_own_fails full inside added

/-- The run of an array is the run of the same calls on a list, and is never stopped; a call with an index out of range
    changes nothing, and an add right after a delete that has shrunk the array leaves the capacity. -/
structure Sequence (tsize : Nat) (start : State) (ops : List Op) : Prop where
  returns : ∃ s, run step start ops = .ok s
  refines : Always step start ops (fun pre s => Refines tsize s (seq_run pre))
  untouched : EachStep step start ops Untouched
  steady : ∀ pre i v data s t u, pre ++ [.del i,.add v data] <+: ops → run step start pre = .ok s →
    step s (.del i) = .ok t → step t (.add v data) = .ok u → t.arr.capacity < s.arr.capacity → u.arr.capacity = t.arr.capacity

/-- A new array is a sequence exactly while no add that replaces its block is given an address in that block. -/
theorem arrays_refine_iff (made : atm_arr_new m tsize = (m',some arr)) {ops : List Op}
    (each : EachStep step ⟨m',arr,[]⟩ ops Given) : Sequence tsize ⟨m',arr,[]⟩ ops ↔ EachStep step ⟨m',arr,[]⟩ ops Apart := by
  obtain ⟨element,start⟩ := new_refines made
  constructor
  · intro sequence pre op s inside ran
    by_contra own
    obtain ⟨_,ranAll⟩ := sequence.returns
    obtain ⟨u,ranNext⟩ := run_shorten step ranAll inside
    obtain ⟨s',ran',done⟩ := (run_snoc_ok step).mp ranNext
    rw [ran] at ran'
    cases ran'
    exact step_own_fails own done
  · intro apart
    have both : EachStep step ⟨m',arr,[]⟩ ops (fun s op => Given s op ∧ Apart s op) :=
      fun pre op s inside ran => ⟨each pre op s inside ran,apart pre op s inside ran⟩
    have progress : ∀ pre op s, Refines tsize s (seq_run pre) → Given s op ∧ Apart s op →
        ∃ u, step s op = .ok u ∧ Refines tsize u (seq_run (pre ++ [op])) := by
      intro pre op s refines given
      rw [seq_run,List.foldl_append]
      exact step_refines element refines given.1 given.2
    obtain ⟨returned,always⟩ := run_total_always start progress both
    refine ⟨returned,always,fun pre op s _ _ => untouched s op,?_⟩
    intro pre i v data s t u inside ran deleted added shrunk
    have split : pre ++ [Op.del i,.add v data] = pre ++ [.del i] ++ [.add v data] := (List.append_assoc pre [.del i] _).symm
    rw [split] at inside
    have first : pre ++ [Op.del i] <+: ops := (List.prefix_append _ _).trans inside
    have ranD : run step ⟨m',arr,[]⟩ (pre ++ [.del i]) = .ok t := (run_snoc_ok step).mpr ⟨s,ran,deleted⟩
    have refines := always pre s ((List.prefix_append _ _).trans first) ran
    have room := shrunk_not_full element refines (each pre _ s first ran) deleted shrunk
    obtain ⟨u',added',_,kept⟩ := add_refines element (always _ t first ranD) (each _ _ t inside ranD) (apart _ _ t inside ranD)
    rw [added] at added'
    cases added'
    exact kept room

/-- One variable with the byte 7. -/
def one_variable : Mem := ⟨[some [.byte 7]],[],fun _ => 0⟩

/-- The array doubles its capacity at the 23rd add and halves it at the ninth delete. -/
def grow_and_shrink : List Op :=
  List.replicate 23 (.add (.block 0 0) [.byte 7]) ++ List.replicate 9 (.del 1) ++ [.add (.block 0 0) [.byte 7],.get 14]

theorem arrays_refine_iff_shrinks : ∃ m' arr, atm_arr_new one_variable 1 = (m',some arr) ∧
    Sequence 1 ⟨m',arr,[]⟩ grow_and_shrink ∧
    (run step ⟨m',arr,[]⟩ (grow_and_shrink.take 23)).map (fun s => (s.arr.length,s.arr.capacity)) = .ok (23,64) ∧
    (run step ⟨m',arr,[]⟩ grow_and_shrink).map (fun s => (s.arr.length,s.arr.capacity,s.answers.getLast?)) =
      .ok (15,32,some (.element (some [.byte 7]))) :=
  ⟨_,_,rfl,(arrays_refine_iff (show atm_arr_new one_variable 1 = _ from rfl) (by decide +kernel)).mpr (by decide +kernel),
    by decide +kernel,by decide +kernel⟩

/-- The first element is added again when the array is full: what is copied is read from the block that was freed. -/
def add_again : List Op := List.replicate 22 (.add (.block 0 0) [.byte 7]) ++ [.add (.block 1 0) [.byte 7]]

theorem own_element_lost : ∃ m' arr, atm_arr_new one_variable 1 = (m',some arr) ∧ EachStep step ⟨m',arr,[]⟩ add_again Given ∧
    (run step ⟨m',arr,[]⟩ (add_again.take 22)).map (fun s => (s.arr._vals,load s.mem (atm_arr_get s.arr 0) 1)) =
      .ok (1,.ok [.byte 7]) ∧
    (run step ⟨m',arr,[]⟩ add_again).map State.answers = .error .useAfterFree ∧ ¬ Sequence 1 ⟨m',arr,[]⟩ add_again := by
  have failed : (run step ⟨(atm_arr_new one_variable 1).1,⟨1,32,0,1⟩,[]⟩ add_again).map State.answers = .error .useAfterFree := by
    decide +kernel
  refine ⟨_,_,rfl,by decide +kernel,by decide +kernel,failed,fun sequence => ?_⟩
  obtain ⟨s,ran⟩ := sequence.returns
  cases failed.symm.trans (congrArg (Except.map State.answers) ran)

end AtmCache.Arrays
