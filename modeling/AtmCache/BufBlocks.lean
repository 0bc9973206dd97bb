import AtmCache.BufModel

/-!
# One buffer and its blocks

`View` is what one buffer, the pool and the addresses of all other buffers look like
between two accesses: the blocks of the buffer in order, all but the last one full
and all but the first one unread. `Moved` is what any sequence of accesses does: some
bytes leave at the front, some arrive at the back, and no other block changes. Reads
need less of the cursors (`Cursors`), and only take bytes (`Taken`).
-/
namespace AtmCache.Buffers
open CStrings Heap Runs

structure Blk.Ok (bk : Blk) : Prop where
  length : bk.head.length = bk.size
  unread : bk.ridx ≤ bk.widx
  inside : bk.widx ≤ bk.size
  positive : 0 < bk.size

/-- The unread bytes of a block. -/
def Blk.held (bk : Blk) : List Byte := (bk.head.drop bk.ridx).take (bk.widx - bk.ridx)

/-- The unread bytes of a chain of blocks. -/
def held_in (blks : List Blk) : List Byte := blks.flatMap Blk.held

/-- A buffer with its blocks, next to the pool and the addresses that other buffers own. -/
structure View (others : List Addr) (m : Mem) (buf : Buf) (blks : List Blk) : Prop where
  cells : buf.blks.map (get m.heap) = blks.map some
  blks_ok : ∀ bk ∈ blks, bk.Ok
  full : ∀ bk ∈ blks.dropLast, bk.widx = bk.size
  fresh : ∀ bk ∈ blks.tail, bk.ridx = 0
  pool : ∀ a ∈ m.blk_pool, ∃ bk, get m.heap a = some bk ∧ bk.Ok ∧ bk.ridx = 0 ∧ bk.widx = 0
  apart : (m.blk_pool ++ buf.blks ++ others).Nodup
  alive : ∀ a ∈ others, a < m.heap.length

/-- A buffer whose blocks have any cursors that reads get past: all but the last one are full, and all but the
    first and the last one have unread bytes. -/
structure Cursors (others : List Addr) (m : Mem) (buf : Buf) (blks : List Blk) : Prop where
  cells : buf.blks.map (get m.heap) = blks.map some
  blks_ok : ∀ bk ∈ blks, bk.Ok
  full : ∀ bk ∈ blks.dropLast, bk.widx = bk.size
  waiting : ∀ bk ∈ blks.tail.dropLast, bk.ridx < bk.widx
  pool : ∀ a ∈ m.blk_pool, ∃ bk, get m.heap a = some bk ∧ bk.Ok ∧ bk.ridx = 0 ∧ bk.widx = 0
  apart : (m.blk_pool ++ buf.blks ++ others).Nodup
  alive : ∀ a ∈ others, a < m.heap.length

/-- `out` has been read from a buffer. -/
structure Taken (others : List Addr) (m : Mem) (buf : Buf) (blks : List Blk) (out : List Byte) (m' : Mem) (buf' : Buf)
    (blks' : List Blk) : Prop where
  cursors : Cursors others m' buf' blks'
  held : held_in blks = out ++ held_in blks'
  same : ∀ a ∈ others, get m'.heap a = get m.heap a
  put : buf'.put_in = buf.put_in
  taken : buf'.taken_out = buf.taken_out ++ out
  aval : buf'.aval = buf.aval - out.length
  later : blks'.tail <:+ blks.tail

/-- From one view to another `out` has left the buffer and `inn` has arrived in it. -/
structure Moved (others : List Addr) (m : Mem) (buf : Buf) (blks : List Blk) (out inn : List Byte) (m' : Mem)
    (buf' : Buf) (blks' : List Blk) : Prop where
  view : View others m' buf' blks'
  held : held_in blks ++ inn = out ++ held_in blks'
  same : ∀ a ∈ others, get m'.heap a = get m.heap a
  put : buf'.put_in = buf.put_in ++ inn
  taken : buf'.taken_out = buf.taken_out ++ out
  aval : buf'.aval = buf.aval + inn.length - out.length

section
variable {others : List Addr} {m m' m'' : Mem} {buf buf' buf'' : Buf} {blks blks' blks'' : List Blk}

theorem moved_refl (view : View others m buf blks) : Moved others m buf blks [] [] m buf blks where
  view := view
  held := by simp
  same := fun _ _ => rfl
  put := by simp
  taken := by simp
  aval := by simp

theorem Moved.trans {out out' inn inn' : List Byte} (first : Moved others m buf blks out inn m' buf' blks')
    (second : Moved others m' buf' blks' out' inn' m'' buf'' blks'') :
    Moved others m buf blks (out ++ out') (inn ++ inn') m'' buf'' blks'' where
  view := second.view
  held := by
    rw [← List.append_assoc,first.held,List.append_assoc,second.held,List.append_assoc]
  same := fun a member => (second.same a member).trans (first.same a member)
  put := by rw [second.put,first.put,List.append_assoc]
  taken := by rw [second.taken,first.taken,List.append_assoc]
  aval := by
    rw [second.aval,first.aval]
    simp only [List.length_append]
    omega

theorem taken_refl (cursors : Cursors others m buf blks) : Taken others m buf blks [] m buf blks where
  cursors := cursors
  held := rfl
  same := fun _ _ => rfl
  put := rfl
  taken := by simp
  aval := by simp
  later := List.suffix_refl _

theorem Taken.trans {out out' : List Byte} (first : Taken others m buf blks out m' buf' blks')
    (second : Taken others m' buf' blks' out' m'' buf'' blks'') : Taken others m buf blks (out ++ out') m'' buf'' blks'' where
  cursors := second.cursors
  held := by rw [first.held,second.held,List.append_assoc]
  same := fun a member => (second.same a member).trans (first.same a member)
  put := second.put.trans first.put
  taken := by rw [second.taken,first.taken,List.append_assoc]
  aval := by
    rw [second.aval,first.aval]
    simp only [List.length_append]
    omega
  later := second.later.trans first.later

/-- An unread block behind the first one that is full has bytes to read. -/
theorem waiting_of_fresh (ok : ∀ bk ∈ blks, bk.Ok) (full : ∀ bk ∈ blks.dropLast, bk.widx = bk.size)
    (fresh : ∀ bk ∈ blks.tail, bk.ridx = 0) : ∀ bk ∈ blks.tail.dropLast, bk.ridx < bk.widx := by
  intro bk member
  have unread := fresh bk (List.dropLast_subset _ member)
  cases blks with
  | nil => cases member
  | cons c blks =>
    have positive := (ok bk (List.mem_cons_of_mem _ (List.dropLast_subset _ member))).positive
    have filled : bk ∈ (c :: blks).dropLast := by
      cases blks with
      | nil => cases member
      | cons d blks => exact List.mem_cons_of_mem _ member
    rw [unread,full bk filled]
    exact positive

theorem View.cursors (view : View others m buf blks) : Cursors others m buf blks :=
  ⟨view.cells,view.blks_ok,view.full,waiting_of_fresh view.blks_ok view.full view.fresh,view.pool,view.apart,view.alive⟩

theorem Cursors.view (cursors : Cursors others m buf blks) (fresh : ∀ bk ∈ blks.tail, bk.ridx = 0) :
    View others m buf blks :=
  ⟨cursors.cells,cursors.blks_ok,cursors.full,fresh,cursors.pool,cursors.apart,cursors.alive⟩

/-- Reading keeps the blocks behind the first one unread. -/
theorem Taken.moved {out : List Byte} (taken : Taken others m buf blks out m' buf' blks') (view : View others m buf blks) :
    Moved others m buf blks out [] m' buf' blks' where
  view := taken.cursors.view (fun bk member => view.fresh bk (taken.later.subset member))
  held := by rw [List.append_nil,taken.held]
  same := taken.same
  put := by rw [List.append_nil,taken.put]
  taken := taken.taken
  aval := by
    rw [taken.aval]
    simp

/-! ### Bytes of one block -/

theorem Blk.held_length {bk : Blk} (ok : bk.Ok) : bk.held.length = bk.widx - bk.ridx := by
  have := ok.length
  have := ok.inside
  simp only [Blk.held,List.length_take,List.length_drop]
  omega

theorem load_ok {bk : Blk} (ok : bk.Ok) {l : Nat} (room : l ≤ bk.widx - bk.ridx) :
    bk.load bk.ridx l = .ok (bk.held.take l) := by
  have := ok.length
  have := ok.inside
  have := ok.unread
  rw [Blk.load,if_pos (by omega),Blk.held,List.take_take,Nat.min_eq_left room]

/-- A block after `l` bytes were read. -/
theorem read_block {bk : Blk} (ok : bk.Ok) {l : Nat} (room : l ≤ bk.widx - bk.ridx) :
    Blk.Ok { bk with ridx := bk.ridx + l } ∧ Blk.held { bk with ridx := bk.ridx + l } = bk.held.drop l := by
  refine ⟨⟨ok.length,?_,ok.inside,ok.positive⟩,?_⟩
  · have := ok.unread
    simp only
    omega
  · simp only [Blk.held,List.drop_take,List.drop_drop]
    congr 1
    omega

/-- A block after `data` was written. -/
theorem write_block {bk : Blk} (ok : bk.Ok) {data : List Byte} (room : data.length ≤ bk.size - bk.widx) :
    bk.fill bk.widx data = .ok (splice bk.head bk.widx data) ∧
      Blk.Ok { bk with head := splice bk.head bk.widx data, widx := bk.widx + data.length } ∧
      Blk.held { bk with head := splice bk.head bk.widx data, widx := bk.widx + data.length } = bk.held ++ data := by
  obtain ⟨length,unread,inside,positive⟩ := ok
  have fits : bk.widx + data.length ≤ bk.head.length := by omega
  refine ⟨if_pos fits,⟨by simp only [splice_length fits,length],by simp only; omega,by simp only; omega,positive⟩,?_⟩
  have before : (bk.head.take bk.widx).length = bk.widx := List.length_take_of_le (by omega)
  have kept : (bk.head.take bk.widx).drop bk.ridx = bk.held := by rw [List.drop_take,Blk.held]
  have size : bk.held.length = bk.widx - bk.ridx := by rw [← kept,List.length_drop,before]
  simp only [Blk.held,splice]
  rw [List.append_assoc,List.drop_append_of_le_length (by omega),kept,← List.append_assoc,
    List.take_append_of_le_length (by rw [List.length_append]; omega),List.take_of_length_le
    (by rw [List.length_append]; omega)]
  rfl

/-! ### The first and the last block -/

theorem blk_ok {a : Addr} {bk : Blk} (found : get m.heap a = some bk) : m.blk a = .ok bk := by
  rw [Mem.blk,found]

/-- The address of a block of the buffer is in use, and not in the pool or in another buffer. -/
theorem Cursors.own (cursors : Cursors others m buf blks) {a : Addr} (member : a ∈ buf.blks) :
    a ∉ m.blk_pool ∧ a ∉ others := by
  obtain ⟨left,_,apart⟩ := List.nodup_append.mp cursors.apart
  obtain ⟨_,_,pool⟩ := List.nodup_append.mp left
  exact ⟨fun inPool => pool a inPool a member rfl,fun inOthers => apart a (List.mem_append_right _ member) a inOthers rfl⟩

theorem Cursors.nodup (cursors : Cursors others m buf blks) : buf.blks.Nodup :=
  (List.nodup_append.mp (List.nodup_append.mp cursors.apart).1).2.1

/-- Changing a block of the buffer disturbs neither the pool nor another buffer. -/
theorem cursors_store (cursors : Cursors others m buf blks) {a : Addr} (member : a ∈ buf.blks) (bk : Blk) (blks' : List Blk)
    (cells : buf.blks.map (get (put m.heap a bk)) = blks'.map some) (ok : ∀ bk ∈ blks', bk.Ok)
    (full : ∀ bk ∈ blks'.dropLast, bk.widx = bk.size) (waiting : ∀ bk ∈ blks'.tail.dropLast, bk.ridx < bk.widx) :
    Cursors others (m.store a bk) buf blks' ∧ ∀ b ∈ others, get (m.store a bk).heap b = get m.heap b := by
  obtain ⟨notPool,notOther⟩ := cursors.own member
  have other : ∀ b, b ≠ a → get (m.store a bk).heap b = get m.heap b := fun b ne => get_put_other _ ne _
  refine ⟨⟨cells,ok,full,waiting,fun b inPool => ?_,cursors.apart,fun b inOthers => ?_⟩,fun b inOthers => ?_⟩
  · rw [other b (fun same => notPool (same ▸ inPool))]
    exact cursors.pool b inPool
  · simpa [Mem.store,put] using cursors.alive b inOthers
  · exact other b (fun same => notOther (same ▸ inOthers))

/-- The counters and the record of a buffer are no part of its view. -/
theorem Cursors.recount (cursors : Cursors others m buf blks) (same : buf'.blks = buf.blks) :
    Cursors others m buf' blks :=
  ⟨by rw [same]; exact cursors.cells,cursors.blks_ok,cursors.full,cursors.waiting,cursors.pool,
    by rw [same]; exact cursors.apart,cursors.alive⟩

theorem cursors_first {bk : Blk} (cursors : Cursors others m buf (bk :: blks)) :
    ∃ a as, buf.blks = a :: as ∧ get m.heap a = some bk ∧ a ∉ as ∧ as.map (get m.heap) = blks.map some := by
  have cells := cursors.cells
  have nodup := cursors.nodup
  cases listed : buf.blks with
  | nil => rw [listed] at cells; cases cells
  | cons a as =>
    rw [listed] at cells nodup
    obtain ⟨found,rest⟩ := List.cons.inj cells
    exact ⟨a,as,rfl,found,(List.nodup_cons.mp nodup).1,rest⟩

theorem view_last {bk : Blk} (view : View others m buf (blks ++ [bk])) :
    ∃ a as, buf.blks = as ++ [a] ∧ get m.heap a = some bk ∧ a ∉ as ∧ as.map (get m.heap) = blks.map some := by
  have cells := view.cells
  have nodup := view.cursors.nodup
  rcases List.eq_nil_or_concat buf.blks with nil | ⟨as,a,listed⟩
  · rw [nil] at cells
    simp at cells
  · rw [List.concat_eq_append] at listed
    rw [listed] at cells nodup
    rw [List.map_append,List.map_append] at cells
    obtain ⟨rest,found⟩ := List.append_inj' cells rfl
    have notIn : a ∉ as := fun member => (List.nodup_append.mp nodup).2.2 a member a List.mem_cons_self rfl
    exact ⟨a,as,listed,(List.cons.inj found).1,notIn,rest⟩

/-- Reading from the first block. -/
theorem taken_read {bk : Blk} (cursors : Cursors others m buf (bk :: blks)) {a : Addr} {as : List Addr}
    (listed : buf.blks = a :: as) {l : Nat} (room : l ≤ bk.widx - bk.ridx) :
    ∃ m' buf', advance_read m buf a bk (bk.held.take l) = (m',buf') ∧
      Taken others m buf (bk :: blks) (bk.held.take l) m' buf' ({ bk with ridx := bk.ridx + l } :: blks) := by
  have ok := cursors.blks_ok bk List.mem_cons_self
  obtain ⟨a',as',listed',found,outside,rest⟩ := cursors_first cursors
  obtain ⟨rfl,rfl⟩ := List.cons.inj (listed.symm.trans listed')
  obtain ⟨okR,heldR⟩ := read_block ok room
  have size : (bk.held.take l).length = l := List.length_take_of_le (by rw [Blk.held_length ok]; exact room)
  have here : a ∈ buf.blks := by rw [listed]; exact List.mem_cons_self
  obtain ⟨after,same⟩ := cursors_store cursors here { bk with ridx := bk.ridx + l } ({ bk with ridx := bk.ridx + l } :: blks)
    (by rw [listed,List.map_cons,List.map_cons,get_put_self found,map_get_put outside,rest])
    (List.forall_mem_cons.mpr ⟨okR,fun b member => cursors.blks_ok b (List.mem_cons_of_mem _ member)⟩)
    (by
      have full := cursors.full
      cases blks with
      | nil => exact fun b member => by cases member
      | cons c rest =>
        rw [List.dropLast_cons_cons] at full ⊢
        exact List.forall_mem_cons.mpr ⟨full bk List.mem_cons_self,fun b member => full b (List.mem_cons_of_mem _ member)⟩)
    cursors.waiting
  refine ⟨m.store a { bk with ridx := bk.ridx + l },
    { buf with aval := buf.aval - (bk.held.take l).length, taken_out := buf.taken_out ++ bk.held.take l },
    by rw [advance_read,size],⟨after.recount rfl,?_,same,rfl,rfl,rfl,List.suffix_refl _⟩⟩
  simp only [held_in,List.flatMap_cons,heldR]
  rw [← List.append_assoc,List.take_append_drop]

/-- Writing to the last block. -/
theorem moved_write {bk : Blk} (view : View others m buf (blks ++ [bk])) {a : Addr} {as : List Addr}
    (listed : buf.blks = as ++ [a]) {data : List Byte} (room : data.length ≤ bk.size - bk.widx) :
    ∃ m' buf' bk', advance_write m buf a bk data = .ok (m',buf') ∧
      Moved others m buf (blks ++ [bk]) [] data m' buf' (blks ++ [bk']) := by
  have ok := view.blks_ok bk (by simp)
  obtain ⟨a',as',listed',found,outside,rest⟩ := view_last view
  obtain ⟨rfl,rfl⟩ := List.append_singleton_inj.mp (listed.symm.trans listed')
  obtain ⟨filled,okW,heldW⟩ := write_block ok room
  have allOk : ∀ b ∈ blks ++ [{ bk with head := splice bk.head bk.widx data, widx := bk.widx + data.length }], b.Ok := by
    intro b member
    rcases List.mem_append.mp member with inner | last
    · exact view.blks_ok b (List.mem_append_left _ inner)
    · rw [List.mem_singleton.mp last]; exact okW
  have full : ∀ b ∈ (blks ++ [{ bk with head := splice bk.head bk.widx data, widx := bk.widx + data.length }]).dropLast,
      b.widx = b.size := by simpa using view.full
  have fresh : ∀ b ∈ (blks ++ [{ bk with head := splice bk.head bk.widx data, widx := bk.widx + data.length }]).tail,
      b.ridx = 0 := by
    have fresh := view.fresh
    cases blks with
    | nil => exact fun b member => by cases member
    | cons c rest =>
      intro b member
      rcases List.mem_append.mp member with inner | last
      · exact fresh b (List.mem_append_left _ inner)
      · rw [List.mem_singleton.mp last]
        exact fresh bk (List.mem_append_right _ List.mem_cons_self)
  have here : a ∈ buf.blks := by rw [listed]; exact List.mem_append_right _ List.mem_cons_self
  obtain ⟨after,same⟩ := cursors_store view.cursors here
    { bk with head := splice bk.head bk.widx data, widx := bk.widx + data.length }
    (blks ++ [{ bk with head := splice bk.head bk.widx data, widx := bk.widx + data.length }])
    (by rw [listed,List.map_append,List.map_append,map_get_put outside,rest]; simp [get_put_self found])
    allOk full (waiting_of_fresh allOk full fresh)
  refine ⟨m.store a { bk with head := splice bk.head bk.widx data, widx := bk.widx + data.length },
    { buf with aval := buf.aval + data.length, put_in := buf.put_in ++ data },
    { bk with head := splice bk.head bk.widx data, widx := bk.widx + data.length },
    by rw [advance_write,filled,ok_bind]; rfl,Cursors.view (after.recount rfl) fresh,?_,same,rfl,?_,?_⟩
  · simp only [held_in,List.flatMap_append,List.flatMap_cons,List.flatMap_nil,List.append_nil,heldW,List.nil_append,
      List.append_assoc]
  · simp
  · simp

/-! ### The pool -/

/-- Recycling the first block, unread or not. -/
theorem cursors_free {bk : Blk} (cursors : Cursors others m buf (bk :: blks)) {a : Addr} {as : List Addr}
    (listed : buf.blks = a :: as) :
    ∃ m', atm_blk_free m a = .ok m' ∧ Cursors others m' { buf with blks := as } blks ∧
      ∀ b ∈ others, get m'.heap b = get m.heap b := by
  have ok := cursors.blks_ok bk List.mem_cons_self
  obtain ⟨a',as',listed',found,outside,rest⟩ := cursors_first cursors
  obtain ⟨rfl,rfl⟩ := List.cons.inj (listed.symm.trans listed')
  obtain ⟨notPool,notOther⟩ := cursors.own (show a ∈ buf.blks by rw [listed]; exact List.mem_cons_self)
  have okR : (atm_blk_reset bk).Ok := ⟨ok.length,Nat.zero_le _,Nat.zero_le _,ok.positive⟩
  have perm : (m.blk_pool ++ [a] ++ as ++ others).Perm (m.blk_pool ++ buf.blks ++ others) := by
    rw [listed]
    simp
  have full : ∀ b ∈ blks.dropLast, b.widx = b.size := by
    intro b member
    cases blks with
    | nil => cases member
    | cons c blks => exact cursors.full b (List.mem_cons_of_mem _ member)
  have waiting : ∀ b ∈ blks.tail.dropLast, b.ridx < b.widx := by
    intro b member
    cases blks with
    | nil => cases member
    | cons c blks =>
      refine cursors.waiting b ?_
      cases blks with
      | nil => cases member
      | cons d blks => exact List.mem_cons_of_mem _ member
  have blks_ok : ∀ b ∈ blks, b.Ok := fun b member => cursors.blks_ok b (List.mem_cons_of_mem _ member)
  have stored : ∀ b, b ≠ a → get (m.store a (atm_blk_reset bk)).heap b = get m.heap b :=
    fun b ne => get_put_other _ ne _
  have length : (m.store a (atm_blk_reset bk)).heap.length = m.heap.length := by simp [Mem.store,put]
  rw [atm_blk_free,atm_blk_pool_release,blk_ok found,ok_bind]
  by_cases room : m.blk_pool.length < ATM_BLK_POOL_THRESHOLD
  · have small : (m.store a (atm_blk_reset bk)).blk_pool.length < ATM_BLK_POOL_THRESHOLD := room
    simp only [small,↓reduceIte,pure_eq_ok,ok_bind]
    refine ⟨_,rfl,⟨?_,blks_ok,full,waiting,?_,(perm.nodup_iff).mpr cursors.apart,?_⟩,?_⟩
    · simp only [Mem.store]
      rw [map_get_put outside,rest]
    · intro b member
      rcases List.mem_append.mp member with inner | last
      · rw [stored b (fun same => notPool (same ▸ inner))]
        exact cursors.pool b inner
      · rw [List.mem_singleton.mp last]
        exact ⟨_,get_put_self found _,okR,rfl,rfl⟩
    · intro b member
      simpa [length] using cursors.alive b member
    · exact fun b member => stored b (fun same => notOther (same ▸ member))
  · have full' : ¬ (m.store a (atm_blk_reset bk)).blk_pool.length < ATM_BLK_POOL_THRESHOLD := room
    have freed : ∀ b, b ≠ a → get (atm_blk_free_raw (m.store a (atm_blk_reset bk)) a).heap b = get m.heap b :=
      fun b ne => (get_free_other _ ne).trans (stored b ne)
    simp only [full',↓reduceIte,pure_eq_ok,ok_bind,Bool.false_eq_true]
    have sub : (m.blk_pool ++ as ++ others).Sublist (m.blk_pool ++ buf.blks ++ others) := by
      rw [listed]
      exact ((List.sublist_cons_self a as).append_left _).append_right _
    refine ⟨_,rfl,⟨?_,blks_ok,full,waiting,?_,cursors.apart.sublist sub,?_⟩,?_⟩
    · rw [← rest]
      exact List.map_congr_left (fun b member => freed b (fun same => outside (same ▸ member)))
    · intro b member
      rw [freed b (fun same => notPool (same ▸ member))]
      exact cursors.pool b member
    · intro b member
      simpa [atm_blk_free_raw,free,length] using cursors.alive b member
    · exact fun b member => freed b (fun same => notOther (same ▸ member))

theorem blk_free_ok {bk : Blk} (view : View others m buf (bk :: blks)) {a : Addr} {as : List Addr}
    (listed : buf.blks = a :: as) :
    ∃ m', atm_blk_free m a = .ok m' ∧ View others m' { buf with blks := as } blks ∧
      ∀ b ∈ others, get m'.heap b = get m.heap b := by
  obtain ⟨m',freed,after,same⟩ := cursors_free view.cursors listed
  exact ⟨m',freed,after.view (fun b member => view.fresh b (List.mem_of_mem_tail member)),same⟩

end
end AtmCache.Buffers
