import AtmCache.BufBlocks

/-!
# Buffers are byte queues

Each operation on a buffer moves bytes between its two ends (`Moved`) and leaves
every other buffer alone. Over runs on any number of buffers that share the pool,
what has left a buffer and what it still holds is, in order, what was put into it.
-/
namespace AtmCache.Buffers
open CStrings Heap Runs

section
variable {others : List Addr} {m : Mem} {buf : Buf} {blks : List Blk}

/-! ### The block to read from and the block to write to -/

/-- The block that a read finds: one with unread bytes, or none when nothing is held. -/
def Readable (m : Mem) (buf : Buf) (blks : List Blk) : Option Addr → Prop
  | none => held_in blks = []
  | some a => ∃ as bk rest, buf.blks = a :: as ∧ blks = bk :: rest ∧ get m.heap a = some bk ∧ bk.ridx < bk.widx

theorem held_nil {bk : Blk} (read : bk.ridx = bk.widx) : bk.held = [] := by
  simp [Blk.held,read]

theorem peek_ok (cursors : Cursors others m buf blks)
    (last : ∀ bk rest, blks = bk :: rest → bk.ridx = bk.widx → rest = []) :
    ∃ r, peek_rblk m buf = .ok (m,buf,r) ∧ Readable m buf blks r := by
  unfold peek_rblk
  cases blks with
  | nil =>
    have empty : buf.blks = [] := by simpa using cursors.cells
    exact ⟨none,by rw [empty],rfl⟩
  | cons bk rest =>
    obtain ⟨a,as,listed,found,_,_⟩ := cursors_first cursors
    have unread := (cursors.blks_ok bk List.mem_cons_self).unread
    rw [listed]
    dsimp only
    rw [blk_ok found,ok_bind]
    by_cases more : bk.ridx < bk.widx
    · exact ⟨some a,by rw [if_pos more]; rfl,as,bk,rest,listed,rfl,found,more⟩
    · have read : bk.ridx = bk.widx := by omega
      refine ⟨none,by rw [if_neg more]; rfl,?_⟩
      simp [Readable,last bk rest rfl read,held_in,held_nil read]

theorem rblk_taken (cursors : Cursors others m buf blks) :
    ∃ m' buf' blks' r, atm_buf_get_rblk m buf = .ok (m',buf',r) ∧
      Taken others m buf blks [] m' buf' blks' ∧ Readable m' buf' blks' r := by
  unfold atm_buf_get_rblk
  cases blks with
  | nil =>
    have empty : buf.blks = [] := by simpa using cursors.cells
    exact ⟨m,buf,[],none,by rw [empty],taken_refl cursors,rfl⟩
  | cons bk rest =>
    obtain ⟨a,as,listed,found,_,_⟩ := cursors_first cursors
    rw [listed]
    dsimp only
    rw [blk_ok found,ok_bind]
    by_cases used : bk.ridx = bk.widx ∧ bk.widx = bk.size
    · rw [if_pos used]
      obtain ⟨m',freed,after,same⟩ := cursors_free cursors listed
      have taken : Taken others m buf (bk :: rest) [] m' { buf with blks := as } rest :=
        ⟨after,by simp [held_in,held_nil used.1],same,rfl,by simp,by simp,List.tail_suffix rest⟩
      -- The next block has unread bytes, unless it is the last one.
      obtain ⟨r,peeked,readable⟩ := peek_ok after (fun c rest' listed' read => by
        subst listed'
        cases rest' with
        | nil => rfl
        | cons d rest' =>
          have unread := cursors.waiting c List.mem_cons_self
          omega)
      exact ⟨m',_,rest,r,by rw [freed,ok_bind,peeked],taken,readable⟩
    · rw [if_neg used]
      obtain ⟨r,peeked,readable⟩ := peek_ok cursors (fun c rest' listed' read => by
        obtain ⟨rfl,rfl⟩ := List.cons.inj listed'
        cases rest with
        | nil => rfl
        | cons d rest =>
          have full := cursors.full bk (by rw [List.dropLast_cons_cons]; exact List.mem_cons_self)
          exact absurd ⟨read,full⟩ used)
      exact ⟨m,buf,bk :: rest,r,peeked,taken_refl cursors,readable⟩

theorem rblk_ok (view : View others m buf blks) :
    ∃ m' buf' blks' r, atm_buf_get_rblk m buf = .ok (m',buf',r) ∧
      Moved others m buf blks [] [] m' buf' blks' ∧ Readable m' buf' blks' r := by
  obtain ⟨m',buf',blks',r,got,taken,readable⟩ := rblk_taken view.cursors
  exact ⟨m',buf',blks',r,got,taken.moved view,readable⟩

/-- A block from the pool, or a new one, behind full blocks. -/
theorem push_blk_ok (view : View others m buf blks) (all : ∀ bk ∈ blks, bk.widx = bk.size) :
    ∃ m' buf' a bk, push_blk m buf = (m',buf',a) ∧ Moved others m buf blks [] [] m' buf' (blks ++ [bk]) ∧
      buf'.blks = buf.blks ++ [a] ∧ get m'.heap a = some bk ∧ bk.widx < bk.size := by
  have fresh : ∀ {bk : Blk}, bk.ridx = 0 → ∀ b ∈ (blks ++ [bk]).tail, b.ridx = 0 := by
    intro bk start b member
    cases blks with
    | nil => cases member
    | cons c rest =>
      rcases List.mem_append.mp member with inner | last
      · exact view.fresh b inner
      · rw [List.mem_singleton.mp last]; exact start
  have blks_ok : ∀ {bk : Blk}, bk.Ok → ∀ b ∈ blks ++ [bk], b.Ok := by
    intro bk ok b member
    rcases List.mem_append.mp member with inner | last
    · exact view.blks_ok b inner
    · rw [List.mem_singleton.mp last]; exact ok
  have moved : ∀ {m' : Mem} {a : Addr} {bk : Blk}, bk.ridx = 0 → bk.widx = 0 →
      View others m' { buf with blks := buf.blks ++ [a] } (blks ++ [bk]) →
      (∀ b ∈ others, get m'.heap b = get m.heap b) →
      Moved others m buf blks [] [] m' { buf with blks := buf.blks ++ [a] } (blks ++ [bk]) := by
    intro m' a bk start empty view' same
    refine ⟨view',?_,same,by simp,by simp,by simp⟩
    simp [held_in,held_nil (start.trans empty.symm)]
  unfold push_blk atm_blk_new atm_blk_pool_fetch
  cases pool : m.blk_pool with
  | cons a rest =>
    obtain ⟨bk,found,ok,start,empty⟩ := view.pool a (by rw [pool]; exact List.mem_cons_self)
    have apart := view.apart
    rw [pool] at apart
    refine ⟨{ m with blk_pool := rest },_,a,bk,rfl,moved start empty ⟨?_,blks_ok ok,by simpa using all,fresh start,?_,?_,view.alive⟩
      (fun _ _ => rfl),rfl,found,?_⟩
    · simp [view.cells,found]
    · exact fun b member => view.pool b (by rw [pool]; exact List.mem_cons_of_mem _ member)
    · refine (List.Perm.nodup_iff ?_).mpr apart
      have swap : (rest ++ (buf.blks ++ [a])).Perm (a :: rest ++ buf.blks) := by
        rw [← List.append_assoc]
        exact List.perm_append_comm
      exact swap.append_right others
    · rw [empty]
      exact ok.positive
  | nil =>
    have none : ∀ b, b < m.heap.length → ∀ x, get (alloc m.heap x) b = get m.heap b := fun b old x => get_alloc_old x old
    have found := get_alloc_new m.heap (⟨ATM_BLK_DFT_LEN,List.replicate ATM_BLK_DFT_LEN 0,0,0⟩ : Blk)
    have ok : Blk.Ok ⟨ATM_BLK_DFT_LEN,List.replicate ATM_BLK_DFT_LEN 0,0,0⟩ :=
      ⟨List.length_replicate,Nat.le_refl _,Nat.zero_le _,(show 0 < ATM_BLK_DFT_LEN by decide)⟩
    have old : ∀ b ∈ buf.blks, b < m.heap.length := by
      intro b member
      obtain ⟨bk,_,same⟩ := List.mem_map.mp (view.cells ▸ List.mem_map_of_mem (f := get m.heap) member)
      exact get_lt same.symm
    have apart := view.apart
    rw [pool] at apart
    refine ⟨{ m with heap := alloc m.heap _ },_,m.heap.length,_,rfl,
      moved rfl rfl ⟨?_,blks_ok ok,by simpa using all,fresh rfl,?_,?_,?_⟩ ?_,rfl,found,ok.positive⟩
    · rw [List.map_append,List.map_append,← view.cells,List.map_congr_left (fun b member => none b (old b member) _)]
      simp [found]
    · rw [pool]
      exact fun b member => by cases member
    · rw [pool,List.nil_append,List.append_assoc]
      have swap : (buf.blks ++ ([m.heap.length] ++ others)).Perm (m.heap.length :: (buf.blks ++ others)) := List.perm_middle
      refine swap.nodup_iff.mpr (List.nodup_cons.mpr ⟨fun member => ?_,apart⟩)
      rcases List.mem_append.mp member with own | other
      · exact Nat.lt_irrefl _ (old _ own)
      · exact Nat.lt_irrefl _ (view.alive _ other)
    · intro b member
      rw [alloc,List.length_append]
      exact Nat.lt_add_right _ (view.alive b member)
    · exact fun b member => none b (view.alive b member) _

theorem wblk_ok (view : View others m buf blks) :
    ∃ m' buf' a as init bk, atm_buf_get_wblk m buf = .ok (m',buf',a) ∧
      Moved others m buf blks [] [] m' buf' (init ++ [bk]) ∧ buf'.blks = as ++ [a] ∧
      get m'.heap a = some bk ∧ bk.widx < bk.size := by
  unfold atm_buf_get_wblk
  rcases List.eq_nil_or_concat blks with rfl | ⟨init,bk,rfl⟩
  · have empty : buf.blks = [] := by simpa using view.cells
    obtain ⟨m',buf',a,bk,pushed,moved,listed,found,room⟩ := push_blk_ok view (fun b member => by cases member)
    exact ⟨m',buf',a,buf.blks,[],bk,by rw [empty,← pushed]; rfl,moved,listed,found,room⟩
  · rw [List.concat_eq_append] at view ⊢
    obtain ⟨a,as,listed,found,_,_⟩ := view_last view
    have ok := view.blks_ok bk (by simp)
    have last : buf.blks.getLast? = some a := by rw [listed,List.getLast?_concat]
    rw [last]
    dsimp only
    rw [blk_ok found,ok_bind]
    by_cases full : bk.size = bk.widx
    · obtain ⟨m',buf',a',bk',pushed,moved,listed',found',room⟩ := push_blk_ok view (fun b member => by
        rcases List.mem_append.mp member with inner | last
        · exact view.full b (by simpa using inner)
        · rw [List.mem_singleton.mp last]; exact full.symm)
      exact ⟨m',buf',a',buf.blks,init ++ [bk],bk',by rw [if_pos full,pushed]; rfl,moved,listed',found',room⟩
    · have := ok.inside
      exact ⟨m,buf,a,as,init,bk,by rw [if_neg full]; rfl,moved_refl view,listed,found,by omega⟩

/-! ### The operations -/

theorem read_loop_taken (fuel : Nat) :
    ∀ {m : Mem} {buf : Buf} {blks : List Blk} (rmn : Nat) (dest : List Byte), Cursors others m buf blks → rmn < fuel →
      ∃ m' buf' blks', read_loop fuel m buf rmn dest = .ok (m',buf',dest ++ (held_in blks).take rmn) ∧
        Taken others m buf blks ((held_in blks).take rmn) m' buf' blks' := by
  induction fuel with
  | zero => intro m buf blks rmn dest _ low; omega
  | succ fuel ih =>
    intro m buf blks rmn dest cursors low
    obtain ⟨m₁,buf₁,blks₁,r,got,first,readable⟩ := rblk_taken cursors
    have whole : held_in blks = held_in blks₁ := first.held
    rw [read_loop,got,ok_bind]
    cases r with
    | none =>
      rw [whole,readable,List.take_nil,List.append_nil]
      exact ⟨m₁,buf₁,blks₁,rfl,first⟩
    | some a =>
      obtain ⟨as,bk,rest,listed,rfl,found,more⟩ := readable
      have ok := first.cursors.blks_ok bk List.mem_cons_self
      have room : min (bk.widx - bk.ridx) rmn ≤ bk.widx - bk.ridx := Nat.min_le_left ..
      obtain ⟨m₂,buf₂,advanced,taken⟩ := taken_read first.cursors listed room
      have size : (bk.held.take (min (bk.widx - bk.ridx) rmn)).length = min (bk.widx - bk.ridx) rmn :=
        List.length_take_of_le (by rw [Blk.held_length ok]; exact room)
      have both := first.trans taken
      have split := both.held
      simp only [List.nil_append] at split both
      dsimp only
      rw [blk_ok found,ok_bind,if_pos (by omega),load_ok ok room,ok_bind,advanced]
      dsimp only
      by_cases again : 0 < rmn - min (bk.widx - bk.ridx) rmn
      · rw [if_pos again]
        obtain ⟨m₃,buf₃,blks₃,ran,later⟩ := ih (rmn - min (bk.widx - bk.ridx) rmn)
          (dest ++ bk.held.take (min (bk.widx - bk.ridx) rmn)) taken.cursors (by omega)
        have total := both.trans later
        have bytes : (held_in blks).take rmn = bk.held.take (min (bk.widx - bk.ridx) rmn) ++
            (held_in ({ bk with ridx := bk.ridx + min (bk.widx - bk.ridx) rmn } :: rest)).take
              (rmn - min (bk.widx - bk.ridx) rmn) := by
          rw [split,List.take_append,size,List.take_of_length_le (by rw [size]; omega)]
        rw [bytes]
        exact ⟨m₃,buf₃,blks₃,by rw [ran,List.append_assoc],by simpa using total⟩
      · rw [if_neg again]
        have bytes : (held_in blks).take rmn = bk.held.take (min (bk.widx - bk.ridx) rmn) := by
          rw [split,List.take_append_of_le_length (by rw [size]; omega),List.take_of_length_le (by rw [size]; omega)]
        rw [bytes]
        exact ⟨m₂,buf₂,_,rfl,both⟩

theorem read_loop_ok (fuel : Nat) {m : Mem} {buf : Buf} {blks : List Blk} (rmn : Nat) (dest : List Byte)
    (view : View others m buf blks) (low : rmn < fuel) :
    ∃ m' buf' blks', read_loop fuel m buf rmn dest = .ok (m',buf',dest ++ (held_in blks).take rmn) ∧
      Moved others m buf blks ((held_in blks).take rmn) [] m' buf' blks' := by
  obtain ⟨m',buf',blks',ran,taken⟩ := read_loop_taken fuel rmn dest view.cursors low
  exact ⟨m',buf',blks',ran,taken.moved view⟩

theorem write_loop_ok (fuel : Nat) :
    ∀ {m : Mem} {buf : Buf} {blks : List Blk} (src : List Byte) (total : Nat), View others m buf blks → src.length < fuel →
      ∃ m' buf' blks', write_loop fuel m buf src total = .ok (m',buf',total + src.length) ∧
        Moved others m buf blks [] src m' buf' blks' := by
  induction fuel with
  | zero => intro m buf blks src total _ low; omega
  | succ fuel ih =>
    intro m buf blks src total view low
    obtain ⟨m₁,buf₁,a,as,init,bk,got,moved,listed,found,space⟩ := wblk_ok view
    have length : (src.take (min (bk.size - bk.widx) src.length)).length = min (bk.size - bk.widx) src.length :=
      List.length_take_of_le (Nat.min_le_right ..)
    obtain ⟨m₂,buf₂,bk₂,advanced,arrived⟩ := moved_write moved.view listed
      (show (src.take (min (bk.size - bk.widx) src.length)).length ≤ bk.size - bk.widx by omega)
    have both := moved.trans arrived
    simp only [List.nil_append] at both
    rw [write_loop,got,ok_bind]
    dsimp only
    rw [blk_ok found,ok_bind,if_pos (by omega),advanced,ok_bind]
    dsimp only
    by_cases again : 0 < src.length - min (bk.size - bk.widx) src.length
    · rw [if_pos again]
      obtain ⟨m₃,buf₃,blks₃,ran,later⟩ := ih (src.drop (min (bk.size - bk.widx) src.length))
        (total + min (bk.size - bk.widx) src.length) arrived.view (by rw [List.length_drop]; omega)
      have all := both.trans later
      rw [List.take_append_drop] at all
      refine ⟨m₃,buf₃,blks₃,?_,all⟩
      rw [ran,List.length_drop]
      congr 3
      omega
    · rw [if_neg again]
      have whole : min (bk.size - bk.widx) src.length = src.length := by omega
      rw [whole,List.take_length] at both
      exact ⟨m₂,buf₂,_,by rw [whole]; rfl,both⟩

/-! ### Sockets -/

/-- What a script delivers before the first call that fails or finds the end of the stream. -/
def delivered : List Segment → List Byte
  | [] => []
  | .fail :: _ => []
  | .data bytes :: rest => if bytes = [] then [] else bytes ++ delivered rest

theorem sys_read_cases {len : Nat} (positive : 0 < len) (src : List Segment) :
    ∃ ret bytes rest, sys_read len src = (ret,bytes,rest) ∧ ((ret ≤ 0 ∧ delivered src = []) ∨
      (0 < ret ∧ 0 < bytes.length ∧ bytes.length ≤ len ∧ delivered src = bytes ++ delivered rest ∧
        script_bound rest < script_bound src)) := by
  cases src with
  | nil => exact ⟨_,_,_,rfl,.inl ⟨by omega,rfl⟩⟩
  | cons seg rest =>
    cases seg with
    | fail => exact ⟨_,_,_,rfl,.inl ⟨by omega,rfl⟩⟩
    | data bytes =>
      by_cases empty : bytes = []
      · subst empty
        exact ⟨_,_,_,rfl,.inl ⟨by simp,by simp [delivered]⟩⟩
      · have some : 0 < bytes.length := List.length_pos_iff.mpr empty
        by_cases whole : bytes.length ≤ len
        · refine ⟨bytes.length,bytes,rest,by rw [sys_read,if_pos whole],
            .inr ⟨by omega,some,whole,by rw [delivered,if_neg empty],?_⟩⟩
          simp only [script_bound,List.map_cons,List.sum_cons]
          omega
        · have left : bytes.drop len ≠ [] := by
            intro nil
            have := List.drop_eq_nil_iff.mp nil
            omega
          have size : (bytes.take len).length = len := List.length_take_of_le (by omega)
          refine ⟨len,bytes.take len,.data (bytes.drop len) :: rest,by rw [sys_read,if_neg whole],
            .inr ⟨by omega,by omega,by omega,?_,?_⟩⟩
          · rw [delivered,delivered,if_neg empty,if_neg left,← List.append_assoc,List.take_append_drop]
          · simp only [script_bound,List.map_cons,List.sum_cons,List.length_drop]
            omega

theorem read_sock_loop_ok (fuel : Nat) :
    ∀ {m : Mem} {buf : Buf} {blks : List Blk} (src : List Segment) (total : Nat) (asked : List Nat),
      View others m buf blks → script_bound src ≤ fuel → 0 ∉ asked →
      ∃ m' buf' blks' out, read_sock_loop fuel m buf src total asked = .ok (m',buf',out) ∧
        Moved others m buf blks [] (delivered src) m' buf' blks' ∧ 0 ∉ out.asked ∧ out.dest = [] := by
  induction fuel with
  | zero => intro m buf blks src total asked _ low; simp [script_bound] at low
  | succ fuel ih =>
    intro m buf blks src total asked view low positive
    obtain ⟨m₁,buf₁,a,as,init,bk,got,moved,listed,found,space⟩ := wblk_ok view
    obtain ⟨ret,bytes,rest,called,result⟩ := sys_read_cases (show 0 < bk.size - bk.widx by omega) src
    have positive' : 0 ∉ asked ++ [bk.size - bk.widx] := by
      rw [List.mem_append,List.mem_singleton]
      exact fun member => member.elim positive (by omega)
    rw [read_sock_loop,got,ok_bind]
    dsimp only
    rw [blk_ok found,ok_bind,called]
    dsimp only
    rcases result with ⟨done,nothing⟩ | ⟨more,_,room,bytesOf,smaller⟩
    · rw [if_neg (by omega),nothing]
      exact ⟨m₁,buf₁,_,_,rfl,moved,positive',rfl⟩
    · obtain ⟨m₂,buf₂,bk₂,advanced,arrived⟩ := moved_write moved.view listed room
      have both := moved.trans arrived
      simp only [List.nil_append] at both
      rw [if_pos more,advanced,ok_bind]
      dsimp only
      obtain ⟨m₃,buf₃,blks₃,out,ran,later,rest'⟩ := ih rest (total + bytes.length) (asked ++ [bk.size - bk.widx])
        arrived.view (by omega) positive'
      rw [bytesOf]
      exact ⟨m₃,buf₃,blks₃,out,ran,both.trans later,rest'⟩

/-- `write()` takes the first bytes it is offered, or none. -/
theorem sys_write_cases (offered : List Byte) (dest : List Accept) :
    ∃ ret accepted rest, sys_write offered dest = (ret,accepted,rest) ∧ (ret ≤ 0 ∨
      (0 < ret ∧ ret.toNat ≤ offered.length ∧ accepted = offered.take ret.toNat ∧ rest.length < dest.length)) := by
  cases dest with
  | nil => exact ⟨_,_,_,rfl,.inl (by omega)⟩
  | cons res rest =>
    cases res with
    | fail => exact ⟨_,_,_,rfl,.inl (by omega)⟩
    | bytes n =>
      refine ⟨min n offered.length,offered.take n,rest,rfl,?_⟩
      by_cases some : min n offered.length = 0
      · exact .inl (by omega)
      · have size : (min (n : Int) offered.length).toNat = min n offered.length := by omega
        exact .inr ⟨by omega,by omega,by rw [size]; exact List.take_eq_take_min,by simp⟩

theorem write_sock_loop_ok (fuel : Nat) :
    ∀ {m : Mem} {buf : Buf} {blks : List Blk} (dest : List Accept) (sent : List Byte) (total : Nat) (ret : Int),
      View others m buf blks → dest.length < fuel →
      ∃ m' buf' blks' out bytes, write_sock_loop fuel m buf dest sent total ret = .ok (m',buf',out) ∧
        Moved others m buf blks bytes [] m' buf' blks' ∧ out.asked = [] ∧ out.dest = sent ++ bytes := by
  induction fuel with
  | zero => intro m buf blks dest sent total ret _ low; omega
  | succ fuel ih =>
    intro m buf blks dest sent total ret view low
    obtain ⟨m₁,buf₁,blks₁,r,got,moved,readable⟩ := rblk_ok view
    rw [write_sock_loop,got,ok_bind]
    cases r with
    | none => exact ⟨m₁,buf₁,blks₁,_,[],rfl,moved,rfl,(List.append_nil sent).symm⟩
    | some a =>
      obtain ⟨as,bk,rest,listed,rfl,found,more⟩ := readable
      have ok := moved.view.blks_ok bk List.mem_cons_self
      have offers : (bk.held.take (bk.widx - bk.ridx)).length = bk.widx - bk.ridx := by
        rw [List.length_take,Blk.held_length ok]
        omega
      obtain ⟨res,accepted,left,called,result⟩ := sys_write_cases (bk.held.take (bk.widx - bk.ridx)) dest
      dsimp only
      rw [blk_ok found,ok_bind,if_pos (by omega),load_ok ok (Nat.le_refl _),ok_bind,called]
      dsimp only
      rcases result with done | ⟨some,room,same,shorter⟩
      · rw [if_neg (by omega)]
        exact ⟨m₁,buf₁,_,_,[],rfl,moved,rfl,(List.append_nil sent).symm⟩
      · rw [offers] at room
        rw [List.take_take,Nat.min_eq_left room] at same
        obtain ⟨m₂,buf₂,advanced,taken⟩ := taken_read moved.view.cursors listed room
        have both := moved.trans (taken.moved moved.view)
        simp only [List.nil_append,List.append_nil] at both
        rw [if_pos some,load_ok ok room,ok_bind,advanced]
        dsimp only
        obtain ⟨m₃,buf₃,blks₃,out,bytes,ran,later,asked,outgoing⟩ := ih left (sent ++ accepted) (total + res.toNat) res
          (taken.moved moved.view).view (by omega)
        refine ⟨m₃,buf₃,blks₃,out,_,ran,both.trans later,asked,?_⟩
        rw [outgoing,same,List.append_assoc]

end
end AtmCache.Buffers
