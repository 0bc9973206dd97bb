import AtmCache.ArrModel

/-!
# What an array holds

The block of an array is the elements that were added, each of `tsize` bytes, and zeros after them
(`Holds`). An add that returns has appended the bytes at the address it was given, and
changes no other block; the slot that `atm_arr_get` points to has the element.
-/
namespace AtmCache.Arrays
open CStrings Heap Runs Slices

variable {m m' : Mem} {arr arr' : Arr} {words : List (List Cell)} {p v : Ptr} {i n : Nat}

/-! ### Memory -/

theorem load_block {b offset n : Nat} {before mid after : List Cell} (found : get m.heap b = some (before ++ mid ++ after))
    (start : before.length = offset) (length : mid.length = n) : load m (.block b offset) n = .ok mid := by
  have fits : offset + n ≤ (before ++ mid ++ after).length := by
    rw [List.length_append,List.length_append]
    omega
  simp only [load,found,if_pos fits,slice_at start length]

theorem load_length {cells : List Cell} (done : load m p n = .ok cells) : cells.length = n := by
  cases p with
  | null => cases done
  | handle k => cases done
  | code f =>
    simp only [load] at done
    split at done
    · split at done
      · rename_i fits
        cases done
        rw [List.length_map,List.length_take_of_le fits]
      · cases done
    · cases done
  | block b offset =>
    simp only [load] at done
    split at done
    · split at done
      · rename_i fits
        cases done
        exact slice_length fits
      · cases done
    · cases done

theorem ptr_cells_length (p : Ptr) : (cells_of_ptr p).length = pointer_size := by
  cases p with
  | null => exact List.length_replicate
  | block b offset => exact (List.length_map _).trans List.length_range
  | code f => exact (List.length_map _).trans List.length_range
  | handle k => exact (List.length_map _).trans List.length_range

theorem ptr_of_cells_of_ptr (p : Ptr) : ptr_of_cells (cells_of_ptr p) = some p := by
  have parts : ∀ q : Ptr, ptr_of_cells ((List.range pointer_size).map (.part q)) =
      if (List.range pointer_size).map (.part q) = cells_of_ptr q then some q else none := fun q => rfl
  cases p with
  | null => rfl
  | block b offset => exact (parts _).trans (if_pos rfl)
  | code f => exact (parts _).trans (if_pos rfl)
  | handle k => exact (parts _).trans (if_pos rfl)

theorem load_ptr_of_load {q : Ptr} (done : load m p pointer_size = .ok (cells_of_ptr q)) : load_ptr m p = .ok q := by
  rw [load_ptr,done,ok_bind,ptr_of_cells_of_ptr]
  rfl

/-! ### Arrays -/

structure Holds (m : Mem) (arr : Arr) (words : List (List Cell)) : Prop where
  each : ∀ w ∈ words, w.length = arr.tsize
  length : arr.length = words.length
  room : words.length ≤ arr.capacity
  block : get m.heap arr._vals = some (words.flatten ++ zeros (arr.tsize * (arr.capacity - words.length)))

/-- Everything outside of one block is as before. -/
structure Elsewhere (b : Addr) (m m' : Mem) : Prop where
  code : m'.code = m.code
  longer : m.heap.length ≤ m'.heap.length
  same : ∀ a < m.heap.length, a ≠ b → get m'.heap a = get m.heap a

theorem Elsewhere.trans {m'' : Mem} {b b' : Addr} (first : Elsewhere b m m') (later : Elsewhere b' m' m'')
    (place : b' = b ∨ b' = m.heap.length) : Elsewhere b m m'' where
  code := later.code.trans first.code
  longer := first.longer.trans later.longer
  same := by
    intro a old other
    have apart : a ≠ b' := by
      rcases place with same | same
      · rw [same]; exact other
      · rw [same]; exact Nat.ne_of_lt old
    exact (later.same a (old.trans_le first.longer) apart).trans (first.same a old other)

/-- What is read from another block was there before. -/
theorem load_before {b : Addr} (elsewhere : Elsewhere b m m') {data : List Cell} (done : load m' p n = .ok data)
    (apart : ∀ a offset, p = .block a offset → a < m.heap.length ∧ a ≠ b) : load m p n = .ok data := by
  cases p with
  | null => cases done
  | handle k => cases done
  | code f =>
    simp only [load,elsewhere.code] at done
    simpa only [load] using done
  | block a offset =>
    obtain ⟨old,other⟩ := apart a offset rfl
    simp only [load,elsewhere.same a old other] at done
    simpa only [load] using done

theorem Holds.cells_length (holds : Holds m arr words) :
    (words.flatten ++ zeros (arr.tsize * (arr.capacity - words.length))).length = arr.capacity * arr.tsize := by
  have room := holds.room
  obtain ⟨more,same⟩ := Nat.exists_eq_add_of_le room
  rw [List.length_append,flatten_length holds.each,zeros,List.length_replicate,same,Nat.add_sub_cancel_left]
  ring

theorem store_block {b offset : Nat} {cells data : List Cell} (found : get m.heap b = some cells)
    (fits : offset + data.length ≤ cells.length) :
    store m (.block b offset) data = .ok { m with heap := put m.heap b (splice cells offset data) } := by
  simp only [store,found,if_pos fits]

theorem store_new {cells data : List Cell} {offset : Nat} (fits : offset + data.length ≤ cells.length) :
    store { m with heap := alloc m.heap cells } (.block m.heap.length offset) data =
      .ok { m with heap := alloc m.heap (splice cells offset data) } := by
  rw [store_block (get_alloc_new m.heap cells) fits,put_alloc_new]

theorem zeros_add (k l : Nat) : zeros k ++ zeros l = zeros (k + l) := List.replicate_append_replicate

/-- A block is moved with all its bytes, and zeros after them. -/
theorem realloc_ok {b : Addr} {cells : List Cell} (found : get m.heap b = some cells) (positive : 0 < cells.length) {nsz : Nat}
    (larger : cells.length ≤ nsz) (small : nsz < 2^32) :
    ∃ m', mem_realloc m b cells.length nsz = .ok (m',m.heap.length) ∧
      get m'.heap m.heap.length = some (cells ++ zeros (nsz - cells.length)) ∧ Elsewhere b m m' := by
  have old := get_lt found
  have other : m.heap.length ≠ b := Nat.ne_of_gt old
  have kept : get (alloc m.heap (zeros nsz)) b = some ([] ++ cells ++ []) := by
    rw [get_alloc_old _ old,found,List.nil_append,List.append_nil]
  have read : load { m with heap := alloc m.heap (zeros nsz) } (.block b 0) cells.length = .ok cells :=
    load_block kept rfl rfl
  have moved : splice (zeros nsz) 0 cells = cells ++ zeros (nsz - cells.length) := by
    rw [splice,List.take_zero,List.nil_append,Nat.zero_add,zeros,List.drop_replicate]
    rfl
  have written : store { m with heap := alloc m.heap (zeros nsz) } (.block m.heap.length 0) cells =
      .ok { m with heap := alloc m.heap (cells ++ zeros (nsz - cells.length)) } := by
    rw [store_new (by rw [zeros,List.length_replicate]; omega),moved]
  refine ⟨{ m with heap := free (alloc m.heap (cells ++ zeros (nsz - cells.length))) b },?_,?_,rfl,?_,?_⟩
  · rw [mem_realloc]
    simp only [mem_alloc,atm_alloc,u32_of_lt small,Nat.min_eq_left larger,if_pos positive,memcpy]
    rw [read,ok_bind,written]
    rfl
  · rw [get_free_other _ other,get_alloc_new]
  · rw [free_length,alloc_length]
    exact Nat.le_succ _
  · intro a inside apart
    rw [get_free_other _ apart,get_alloc_old _ inside]

/-- Growing moves the elements to a block of twice the size. -/
theorem grow_holds (holds : Holds m arr words) (positive : 0 < arr.capacity * arr.tsize)
    (fits : arr.capacity * arr.tsize * 2 < 2^32) :
    ∃ m' arr', arr_grow m arr = .ok (m',arr') ∧ Holds m' arr' words ∧ arr'.tsize = arr.tsize ∧
      arr'.capacity = u32 (arr.capacity * 2) ∧ arr'.length = arr.length ∧ arr'._vals = m.heap.length ∧
        Elsewhere arr._vals m m' := by
  have length := holds.cells_length
  have element : 0 < arr.tsize := pos_of_mul_pos_right positive (Nat.zero_le _)
  have osz : u32 (arr.capacity * arr.tsize) = arr.capacity * arr.tsize := u32_of_lt (by omega)
  have nsz : u32 (arr.capacity * arr.tsize * 2) = arr.capacity * arr.tsize * 2 := u32_of_lt fits
  have capacity : u32 (arr.capacity * 2) = arr.capacity * 2 := by
    have := Nat.le_mul_of_pos_right arr.capacity element
    exact u32_of_lt (by omega)
  obtain ⟨m',moved,here,elsewhere⟩ := realloc_ok holds.block (by omega)
    (by omega : _ ≤ arr.capacity * arr.tsize * 2) fits
  refine ⟨m',{ arr with capacity := u32 (arr.capacity * 2), _vals := m.heap.length },?_,
    ⟨holds.each,holds.length,?_,?_⟩,rfl,rfl,rfl,rfl,elsewhere⟩
  · rw [length] at moved
    rw [arr_grow]
    simp only [osz,nsz]
    rw [moved,ok_bind]
    exact if_pos (Nat.ne_of_gt (get_lt holds.block))
  · have room := holds.room
    simp only [capacity]
    omega
  · have room := holds.room
    obtain ⟨more,same⟩ := Nat.exists_eq_add_of_le room
    rw [here,List.append_assoc,zeros_add,length,capacity]
    congr 3
    rw [same,show words.length + more - words.length = more by omega,
      show (words.length + more) * 2 - words.length = words.length + 2 * more by omega,
      show (words.length + more) * arr.tsize * 2 - (words.length + more) * arr.tsize = (words.length + more) * arr.tsize by omega]
    ring

/-- The element at the next free slot. -/
theorem put_holds (holds : Holds m arr words) (room : words.length < arr.capacity) (fits : arr.capacity * arr.tsize < 2^32)
    {data : List Cell} (size : data.length = arr.tsize) :
    ∃ m', store m (.block arr._vals (u32 (arr.tsize * arr.length))) data = .ok m' ∧
      Holds m' { arr with length := arr.length + 1 } (words ++ [data]) ∧ Elsewhere arr._vals m m' := by
  obtain ⟨more,same⟩ := Nat.exists_eq_add_of_lt room
  have total := holds.cells_length
  have before : words.flatten.length = arr.tsize * arr.length := by rw [flatten_length holds.each,holds.length]
  have below : arr.tsize * arr.length + arr.tsize ≤ arr.capacity * arr.tsize := by
    rw [holds.length,same,← Nat.mul_succ,Nat.mul_comm]
    exact Nat.mul_le_mul_right arr.tsize (by omega)
  have offset : u32 (arr.tsize * arr.length) = words.flatten.length := by
    rw [before]
    exact u32_of_lt (by omega)
  have cut : words.flatten ++ zeros (arr.tsize * (arr.capacity - words.length)) =
      words.flatten ++ zeros arr.tsize ++ zeros (arr.tsize * (arr.capacity - (words.length + 1))) := by
    rw [List.append_assoc,zeros_add]
    congr 2
    rw [same,show words.length + more + 1 - words.length = more + 1 by omega,
      show words.length + more + 1 - (words.length + 1) = more by omega]
    ring
  have written := store_block holds.block (by omega : words.flatten.length + data.length ≤ _)
  rw [cut,splice_append _ _ _ (by rw [size,zeros,List.length_replicate])] at written
  refine ⟨{ m with heap := put m.heap arr._vals (words.flatten ++ data ++ zeros (arr.tsize * (arr.capacity - (words.length + 1)))) },
    by rw [offset]; exact written,⟨?_,?_,?_,?_⟩,rfl,?_,?_⟩
  · intro w member
    rcases List.mem_append.mp member with old | new
    · exact holds.each w old
    · rw [List.mem_singleton.mp new]
      exact size
  · rw [List.length_append,List.length_singleton,← holds.length]
  · rw [List.length_append,List.length_singleton]
    exact room
  · rw [List.flatten_append,List.flatten_singleton,List.length_append,List.length_singleton]
    exact get_put_self holds.block _
  · exact Nat.le_of_eq (put_length ..).symm
  · exact fun a _ apart => get_put_other _ apart _

/-! ### Elements -/

/-- The elements around an index. -/
theorem split_words (inside : i < words.length) :
    words = words.take i ++ words[i] :: words.drop (i+1) := by
  rw [← List.drop_eq_getElem_cons inside,List.take_append_drop]

theorem Holds.bytes (holds : Holds m arr words) : arr.tsize * words.length ≤ arr.capacity * arr.tsize := by
  rw [Nat.mul_comm]
  exact Nat.mul_le_mul_right _ holds.room

theorem Holds.word_end (holds : Holds m arr words) (inside : i < words.length) :
    arr.tsize * i + arr.tsize ≤ arr.capacity * arr.tsize :=
  (Nat.mul_le_mul_left arr.tsize inside).trans holds.bytes

/-- The block around the element at an index. -/
theorem Holds.block_at (holds : Holds m arr words) (inside : i < words.length) :
    get m.heap arr._vals = some ((words.take i).flatten ++ words[i] ++ ((words.drop (i+1)).flatten ++
      zeros (arr.tsize * (arr.capacity - words.length)))) ∧
    (words.take i).flatten.length = arr.tsize * i ∧ words[i].length = arr.tsize ∧
    (words.drop (i+1)).flatten.length = arr.tsize * (words.length - (i+1)) := by
  have block := holds.block
  refine ⟨?_,?_,holds.each _ (List.getElem_mem inside),?_⟩
  · have whole : words.flatten = (words.take i).flatten ++ (words[i] ++ (words.drop (i+1)).flatten) := by
      conv_lhs => rw [split_words inside]
      rw [List.flatten_append,List.flatten_cons]
    rw [block,whole,List.append_assoc,List.append_assoc,List.append_assoc]
  · rw [flatten_length (fun w member => holds.each w (List.mem_of_mem_take member)),List.length_take_of_le (Nat.le_of_lt inside)]
  · rw [flatten_length (fun w member => holds.each w (List.mem_of_mem_drop member)),List.length_drop]

/-- The address that `atm_arr_get` returns for an index, and the element that can be read there. -/
theorem get_address (holds : Holds m arr words) (fits : arr.capacity * arr.tsize < 2^32) (inside : i < words.length) :
    atm_arr_get arr i = .block arr._vals (arr.tsize * i) := by
  have last := holds.word_end inside
  rw [atm_arr_get,if_pos (by rw [holds.length]; exact inside),u32_of_lt (by omega)]

theorem get_holds (holds : Holds m arr words) (fits : arr.capacity * arr.tsize < 2^32) (inside : i < words.length) :
    load m (atm_arr_get arr i) arr.tsize = .ok words[i] := by
  obtain ⟨block,before,size,_⟩ := holds.block_at inside
  rw [get_address holds fits inside]
  exact load_block block before size

/-! ### Arrays of pointers -/

/-- An array of pointers. Its capacity has been doubled from `ATM_ARR_INITIAL_LEN` on and its size
    in bytes has not wrapped. -/
structure Pointers (m : Mem) (arr : Arr) (words : List (List Cell)) : Prop extends Holds m arr words where
  size : arr.tsize = pointer_size
  power : ∃ k, 5 ≤ k ∧ k ≤ 28 ∧ arr.capacity = 2^k

theorem new_pointers (m : Mem) : ∃ m' arr, atm_arr_new m pointer_size = (m',some arr) ∧ Pointers m' arr [] ∧
    m'.code = m.code ∧ arr._vals = m.heap.length := by
  refine ⟨_,_,rfl,⟨⟨?_,rfl,Nat.zero_le _,?_⟩,rfl,5,Nat.le_refl 5,by decide,rfl⟩,rfl,rfl⟩
  · exact fun w member => absurd member List.not_mem_nil
  · exact get_alloc_new m.heap _

theorem Pointers.bytes (pointers : Pointers m arr words) : ∃ k, 5 ≤ k ∧ k ≤ 28 ∧ arr.capacity = 2^k ∧
    arr.capacity * arr.tsize = 2^(k+3) := by
  obtain ⟨k,low,high,same⟩ := pointers.power
  refine ⟨k,low,high,same,?_⟩
  rw [same,pointers.size,Nat.pow_add]
  rfl

/-- The array is smaller than the number of its bytes may be. -/
theorem Pointers.fits (pointers : Pointers m arr words) : arr.capacity * arr.tsize < 2^32 := by
  obtain ⟨k,_,high,_,same⟩ := pointers.bytes
  rw [same]
  exact Nat.pow_lt_pow_right (by omega) (by omega)

/-- Growing an array of `2^28` pointers asks for 0 bytes, and nothing can be stored in them. -/
theorem grow_wrapped (holds : Holds m arr words) (wrapped : arr.capacity * arr.tsize = 2^31)
    (done : arr_grow m arr = .ok (m',arr')) : get m'.heap arr'._vals = some [] ∧ arr'.tsize = arr.tsize := by
  have other : m.heap.length ≠ arr._vals := Nat.ne_of_gt (get_lt holds.block)
  rw [arr_grow,wrapped] at done
  obtain ⟨⟨m₁,new⟩,moved,rest⟩ := bind_eq_ok.mp done
  cases moved
  dsimp only at rest
  rw [if_pos other] at rest
  cases rest
  exact ⟨(get_free_other _ other).trans (get_alloc_new m.heap _),rfl⟩

/-- An array after the room for one more pointer was made. -/
theorem make_room (pointers : Pointers m arr words) {s : Nat} (large : words.length < s)
    (done : (if arr.capacity < s then arr_grow m arr else .ok (m,arr)) = .ok (m',arr')) :
    (get m'.heap arr'._vals = some [] ∧ arr'.tsize = arr.tsize) ∨
      (Pointers m' arr' words ∧ words.length < arr'.capacity ∧ Elsewhere arr._vals m m' ∧
        (arr'._vals = arr._vals ∨ arr'._vals = m.heap.length)) := by
  obtain ⟨k,low,high,capacity,bytes⟩ := pointers.bytes
  split at done
  · rcases Nat.lt_or_eq_of_le high with less | rfl
    · have double : arr.capacity * arr.tsize * 2 < 2^32 := by
        rw [bytes,← Nat.pow_succ]
        exact Nat.pow_lt_pow_right (by omega) (by omega)
      obtain ⟨m₁,arr₁,grown,holds,size,larger,_,fresh,elsewhere⟩ := grow_holds pointers.toHolds
        (by rw [bytes]; exact Nat.pow_pos (by omega)) double
      rw [grown] at done
      cases done
      have wide : arr'.capacity = 2^(k+1) := by
        rw [larger,capacity,← Nat.pow_succ]
        exact u32_of_lt (Nat.pow_lt_pow_right (by omega) (by omega))
      refine .inr ⟨⟨holds,size.trans pointers.size,k+1,by omega,less,wide⟩,?_,elsewhere,.inr fresh⟩
      have room := pointers.room
      have positive : 0 < 2^k := Nat.pow_pos (by omega)
      rw [wide,Nat.pow_succ]
      omega
    · exact .inl (grow_wrapped pointers.toHolds bytes done)
  · cases done
    exact .inr ⟨pointers,by omega,⟨rfl,Nat.le_refl _,fun _ _ _ => rfl⟩,.inl rfl⟩

/-- An add that returns has appended the eight bytes at its argument. -/
theorem add_pointers (pointers : Pointers m arr words) (value : v ≠ .null)
    (apart : ∀ a offset, v = .block a offset → a < m.heap.length ∧ a ≠ arr._vals)
    (done : atm_arr_add m arr v = .ok (m',arr',n)) :
    ∃ data, load m v pointer_size = .ok data ∧ Pointers m' arr' (words ++ [data]) ∧ Elsewhere arr._vals m m' ∧
      (arr'._vals = arr._vals ∨ arr'._vals = m.heap.length) := by
  have room := pointers.room
  obtain ⟨k,_,high,capacity,_⟩ := pointers.bytes
  have few : 2^k ≤ 2^28 := Nat.pow_le_pow_right (by omega) high
  have enough : words.length < u32 (u32 (arr.length * 3) / 2 + 1) := by
    rw [pointers.length,u32_of_lt (by omega : words.length * 3 < 2^32),u32_of_lt (by omega)]
    omega
  rw [atm_arr_add,if_neg value] at done
  obtain ⟨⟨m₁,arr₁⟩,made,rest⟩ := bind_eq_ok.mp done
  obtain ⟨m₂,copied,last⟩ := bind_eq_ok.mp rest
  cases last
  obtain ⟨data,read,written⟩ := bind_eq_ok.mp copied
  have long := load_length read
  rcases make_room pointers enough made with ⟨empty,size⟩ | ⟨here,space,elsewhere,place⟩
  · simp only [store,empty,List.length_nil,Nat.le_zero,Nat.add_eq_zero_iff,long,size,pointers.size] at written
    rw [if_neg (fun zero => absurd zero.2 (by decide))] at written
    cases written
  · have next : u32 (arr₁.length + 1) = arr₁.length + 1 := by
      rw [here.length]
      exact u32_of_lt (by omega)
    obtain ⟨m₃,stored,holds,later⟩ := put_holds here.toHolds space here.fits long
    rw [written] at stored
    cases stored
    rw [here.size] at read
    refine ⟨data,load_before elsewhere read apart,?_,elsewhere.trans later place,place⟩
    rw [next]
    exact ⟨holds,here.size,here.power⟩

theorem get_slot (pointers : Pointers m arr words) {i : Nat} (inside : i < words.length) :
    atm_arr_get arr i = .block arr._vals (pointer_size * i) := by
  rw [get_address pointers.toHolds pointers.fits inside,pointers.size]

/-- What was added is at the address of its slot. -/
theorem load_slot (pointers : Pointers m arr words) {i : Nat} {w : List Cell} (found : words[i]? = some w) :
    load m (atm_arr_get arr i) pointer_size = .ok w := by
  obtain ⟨inside,rfl⟩ := List.getElem?_eq_some_iff.mp found
  rw [← pointers.size]
  exact get_holds pointers.toHolds pointers.fits inside

/-- Behind the last element there are only zeros. -/
theorem load_behind (pointers : Pointers m arr words) {offset : Nat} (behind : pointer_size * words.length ≤ offset)
    {cells : List Cell} (done : load m (.block arr._vals offset) n = .ok cells) : cells = zeros n := by
  have each : ∀ w ∈ words, w.length = pointer_size := fun w member => (pointers.each w member).trans pointers.size
  obtain ⟨more,same⟩ := Nat.exists_eq_add_of_le behind
  simp only [load,pointers.block] at done
  split at done
  · rename_i fits
    cases done
    rw [List.length_append,flatten_length each,same,zeros,List.length_replicate] at fits
    rw [same,← flatten_length each,slice_right,zeros,slice_replicate (by omega)]
    rfl
  · cases done

end AtmCache.Arrays
