import AtmCache.BufFifo
import AtmCache.ListSets

/-!
# Many buffers over one pool

`WorldOk` is the invariant of all buffers together: the pool and the buffers own
different blocks, and each buffer is a queue. An operation on one buffer sees the
others only as the addresses that it must not touch.
-/
namespace AtmCache.Buffers
open CStrings Heap ListSets Runs

/-- The addresses of all buffers. -/
def addresses (bufs : List (Option Buf)) : List Addr :=
  bufs.flatMap (fun buf => match buf with
    | some buf => buf.blks
    | none => [])

/-- The bytes that a buffer holds, as its blocks have them. -/
def held (m : Mem) (buf : Buf) : List Byte :=
  buf.blks.flatMap (fun a => match get m.heap a with
    | some bk => bk.held
    | none => [])

/-- What left the buffer and what it holds is what was put in, in order. -/
structure Fifo (m : Mem) (buf : Buf) : Prop where
  order : buf.put_in = buf.taken_out ++ held m buf
  count : buf.aval = (held m buf).length

/-- The blocks of a buffer. -/
structure Chain (heap : Cells Blk) (buf : Buf) (blks : List Blk) : Prop where
  cells : buf.blks.map (get heap) = blks.map some
  blks_ok : ∀ bk ∈ blks, bk.Ok
  full : ∀ bk ∈ blks.dropLast, bk.widx = bk.size
  fresh : ∀ bk ∈ blks.tail, bk.ridx = 0

structure WorldOk (w : World) : Prop where
  chains : ∀ b buf, get w.bufs b = some buf → ∃ blks, Chain w.mem.heap buf blks
  fifos : ∀ b buf, get w.bufs b = some buf → Fifo w.mem buf
  pool : ∀ a ∈ w.mem.blk_pool, ∃ bk, get w.mem.heap a = some bk ∧ bk.Ok ∧ bk.ridx = 0 ∧ bk.widx = 0
  apart : (w.mem.blk_pool ++ addresses w.bufs).Nodup

theorem held_of_chain {m : Mem} {buf : Buf} {blks : List Blk} (cells : buf.blks.map (get m.heap) = blks.map some) :
    held m buf = held_in blks := by
  have gathered : held m buf = (buf.blks.map (get m.heap)).flatMap (fun c => match c with
      | some bk => bk.held
      | none => []) := by
    rw [List.flatMap_map]
    rfl
  rw [gathered,cells,List.flatMap_map]
  rfl

theorem get_eq_some {α : Type} {h : Cells α} {a : Addr} {x : α} : get h a = some x ↔ h[a]? = some (some x) := by
  rw [Heap.get,Option.join_eq_some_iff]

/-- The addresses of all buffers are those of one and those of the others. -/
theorem addresses_split {bufs : List (Option Buf)} {b : Nat} {buf : Buf} (found : get bufs b = some buf)
    (buf' : Option Buf) :
    (addresses (bufs.set b buf')).Perm ((match buf' with
      | some buf => buf.blks
      | none => []) ++ addresses (free bufs b)) := by
  have inside := get_lt found
  have other : (free bufs b)[b]? = some none := by simp [free,inside]
  have perm := flatMap_set_perm (fun buf : Option Buf => match buf with
    | some buf => buf.blks
    | none => []) other buf'
  simp only [List.nil_append,free,List.set_set] at perm
  exact perm

theorem addresses_perm {bufs : List (Option Buf)} {b : Nat} {buf : Buf} (found : get bufs b = some buf) :
    (addresses bufs).Perm (buf.blks ++ addresses (free bufs b)) := by
  have same : bufs.set b (some buf) = bufs := by
    obtain ⟨inside,here⟩ := List.getElem?_eq_some_iff.mp (get_eq_some.mp found)
    rw [← here,List.set_getElem_self]
  have perm := addresses_split found (some buf)
  rw [same] at perm
  exact perm

theorem mem_addresses {bufs : List (Option Buf)} {b : Nat} {buf : Buf} (found : get bufs b = some buf) {a : Addr}
    (member : a ∈ buf.blks) : a ∈ addresses bufs :=
  (addresses_perm found).mem_iff.mpr (List.mem_append_left _ member)

/-- Every address of a buffer is in use. -/
theorem addresses_alive {w : World} (ok : WorldOk w) {a : Addr} (member : a ∈ addresses w.bufs) :
    a < w.mem.heap.length := by
  obtain ⟨cell,inBufs,inCell⟩ := List.mem_flatMap.mp member
  cases cell with
  | none => cases inCell
  | some buf =>
    obtain ⟨b,found⟩ := List.mem_iff_getElem?.mp inBufs
    obtain ⟨blks,chain⟩ := ok.chains b buf (get_eq_some.mpr found)
    obtain ⟨bk,_,same⟩ := List.mem_map.mp (chain.cells ▸ List.mem_map_of_mem (f := get w.mem.heap) inCell)
    exact get_lt same.symm

theorem addresses_free_sub (bufs : List (Option Buf)) (b : Nat) {a : Addr} (member : a ∈ addresses (free bufs b)) :
    a ∈ addresses bufs := by
  obtain ⟨cell,inBufs,inCell⟩ := List.mem_flatMap.mp member
  cases cell with
  | none => cases inCell
  | some buf =>
    refine List.mem_flatMap.mpr ⟨some buf,?_,inCell⟩
    rcases List.mem_or_eq_of_mem_set inBufs with inner | same
    · exact inner
    · cases same

/-- One buffer of the world, with the addresses of the others. -/
theorem world_view {w : World} (ok : WorldOk w) {b : Nat} {buf : Buf} (found : get w.bufs b = some buf) :
    ∃ blks, View (addresses (free w.bufs b)) w.mem buf blks := by
  obtain ⟨blks,chain⟩ := ok.chains b buf found
  refine ⟨blks,chain.cells,chain.blks_ok,chain.full,chain.fresh,ok.pool,?_,fun a member => ?_⟩
  · have perm := (addresses_perm found).append_left w.mem.blk_pool
    rw [← List.append_assoc] at perm
    exact perm.nodup_iff.mp ok.apart
  · exact addresses_alive ok (addresses_free_sub w.bufs b member)

/-! ### One operation -/

/-- Bytes that move in one buffer leave the blocks of the others as they were. -/
theorem moved_elsewhere {w : World} (ok : WorldOk w) {b : Nat} {buf buf' : Buf} {m' : Mem} {blks blks' : List Blk}
    {out inn : List Byte} (moved : Moved (addresses (free w.bufs b)) w.mem buf blks out inn m' buf' blks') {c : Nat}
    {other : Buf} (ne : c ≠ b) (there : get w.bufs c = some other) :
    ∃ blks, Chain w.mem.heap other blks ∧ Chain m'.heap other blks := by
  obtain ⟨blks,chain⟩ := ok.chains c other there
  refine ⟨blks,chain,⟨?_,chain.blks_ok,chain.full,chain.fresh⟩⟩
  rw [← chain.cells]
  have inFree : get (free w.bufs b) c = some other := (get_free_other _ ne).trans there
  exact List.map_congr_left (fun a member => moved.same a (mem_addresses inFree member))

theorem held_elsewhere {w : World} (ok : WorldOk w) {b : Nat} {buf buf' : Buf} {m' : Mem} {blks blks' : List Blk}
    {out inn : List Byte} (moved : Moved (addresses (free w.bufs b)) w.mem buf blks out inn m' buf' blks') {c : Nat}
    {other : Buf} (ne : c ≠ b) (there : get w.bufs c = some other) : held m' other = held w.mem other := by
  obtain ⟨blks,chain,chain'⟩ := moved_elsewhere ok moved ne there
  exact (held_of_chain chain'.cells).trans (held_of_chain chain.cells).symm

/-- Bytes that move in one buffer keep all buffers queues. -/
theorem world_put {w : World} (ok : WorldOk w) {b : Nat} {buf buf' : Buf} (found : get w.bufs b = some buf)
    {m' : Mem} {blks blks' : List Blk} {out inn : List Byte} (before : View (addresses (free w.bufs b)) w.mem buf blks)
    (moved : Moved (addresses (free w.bufs b)) w.mem buf blks out inn m' buf' blks') :
    WorldOk ⟨m',put w.bufs b buf'⟩ := by
  have heldB : held w.mem buf = held_in blks := held_of_chain before.cells
  have heldA : held m' buf' = held_in blks' := held_of_chain moved.view.cells
  have lengths := congrArg List.length moved.held
  simp only [List.length_append] at lengths
  have elsewhere : ∀ c other, c ≠ b → get (put w.bufs b buf') c = some other → get w.bufs c = some other := by
    intro c other ne there
    rwa [get_put_other _ ne] at there
  refine ⟨fun c other there => ?_,fun c other there => ?_,moved.view.pool,?_⟩
  · by_cases same : c = b
    · rw [same,get_put_self found] at there
      cases there
      exact ⟨blks',moved.view.cells,moved.view.blks_ok,moved.view.full,moved.view.fresh⟩
    · obtain ⟨blks,_,chain⟩ := moved_elsewhere ok moved same (elsewhere c other same there)
      exact ⟨blks,chain⟩
  · by_cases same : c = b
    · rw [same,get_put_self found] at there
      cases there
      obtain ⟨order,count⟩ := ok.fifos b buf found
      refine ⟨?_,?_⟩
      · calc buf'.put_in = buf.taken_out ++ (held_in blks ++ inn) := by
              rw [moved.put,order,heldB,List.append_assoc]
          _ = buf'.taken_out ++ held m' buf' := by rw [moved.held,moved.taken,heldA,List.append_assoc]
      · rw [moved.aval,count,heldB,heldA]
        omega
    · have there' := elsewhere c other same there
      obtain ⟨order,count⟩ := ok.fifos c other there'
      have kept := held_elsewhere ok moved same there'
      exact ⟨by rw [kept]; exact order,by rw [kept]; exact count⟩
  · have perm := (addresses_split found (some buf')).append_left m'.blk_pool
    rw [← List.append_assoc] at perm
    exact perm.nodup_iff.mpr moved.view.apart

/-- A whole chain of blocks is recycled. -/
theorem buf_free_ok {others : List Addr} (blks : List Blk) :
    ∀ {m : Mem} {buf : Buf}, View others m buf blks →
      ∃ m', atm_buf_free m buf = .ok m' ∧ View others m' { buf with blks := [] } [] ∧
        ∀ a ∈ others, get m'.heap a = get m.heap a := by
  induction blks with
  | nil =>
    intro m buf view
    have empty : buf.blks = [] := by simpa using view.cells
    have whole : { buf with blks := [] } = buf := by rw [← empty]
    exact ⟨m,by rw [atm_buf_free,empty]; rfl,by rw [whole]; exact view,fun _ _ => rfl⟩
  | cons bk blks ih =>
    intro m buf view
    obtain ⟨a,as,listed,_⟩ := cursors_first view.cursors
    obtain ⟨m₁,freed,view₁,same₁⟩ := blk_free_ok view listed
    obtain ⟨m₂,ran,view₂,same₂⟩ := ih view₁
    refine ⟨m₂,?_,view₂,fun a member => (same₂ a member).trans (same₁ a member)⟩
    rw [atm_buf_free,listed,List.foldlM_cons,freed,ok_bind]
    exact ran

theorem world_free {w : World} (ok : WorldOk w) {b : Nat} {buf : Buf} (found : get w.bufs b = some buf) :
    ∃ m', atm_buf_free w.mem buf = .ok m' ∧ WorldOk ⟨m',free w.bufs b⟩ := by
  obtain ⟨blks,view⟩ := world_view ok found
  obtain ⟨m',freed,view',same⟩ := buf_free_ok blks view
  have elsewhere : ∀ c other, get (free w.bufs b) c = some other → get w.bufs c = some other ∧
      other.blks.map (get m'.heap) = other.blks.map (get w.mem.heap) :=
    fun c other there => ⟨(get_of_free there).2,
      List.map_congr_left (fun a member => same a (mem_addresses there member))⟩
  refine ⟨m',freed,fun c other there => ?_,fun c other there => ?_,view'.pool,?_⟩
  · obtain ⟨there',cells⟩ := elsewhere c other there
    obtain ⟨blks,chain⟩ := ok.chains c other there'
    exact ⟨blks,cells.trans chain.cells,chain.blks_ok,chain.full,chain.fresh⟩
  · obtain ⟨there',cells⟩ := elsewhere c other there
    obtain ⟨blks,chain⟩ := ok.chains c other there'
    obtain ⟨order,count⟩ := ok.fifos c other there'
    have kept : held m' other = held w.mem other :=
      (held_of_chain (cells.trans chain.cells)).trans (held_of_chain chain.cells).symm
    exact ⟨by rw [kept]; exact order,by rw [kept]; exact count⟩
  · simpa using view'.apart

theorem world_new {w : World} (ok : WorldOk w) : WorldOk { w with bufs := alloc w.bufs atm_buf_new } := by
  refine ⟨fun c other there => ?_,fun c other there => ?_,ok.pool,?_⟩
  · rcases get_of_alloc there with ⟨_,rfl⟩ | old
    · exact ⟨[],rfl,fun _ member => (by cases member),fun _ member => (by cases member),fun _ member => (by cases member)⟩
    · exact ok.chains c other old
  · rcases get_of_alloc there with ⟨_,rfl⟩ | old
    · exact ⟨rfl,rfl⟩
    · exact ok.fifos c other old
  · have same : addresses (alloc w.bufs atm_buf_new) = addresses w.bufs := by
      simp [addresses,alloc,atm_buf_new]
    rw [same]
    exact ok.apart

/-! ### What every call does -/

/-- Calls on live buffers, with lengths that an `atm_int_t` can hold. -/
def Within (w : World) : Op → Prop
  | .new => True
  | .free b => ∃ buf, get w.bufs b = some buf
  | .write b src => (∃ buf, get w.bufs b = some buf) ∧ src.length < 2^31
  | .read b nbyte => (∃ buf, get w.bufs b = some buf) ∧ nbyte < 2^31
  | .read_sock b _ => ∃ buf, get w.bufs b = some buf
  | .write_sock b _ => ∃ buf, get w.bufs b = some buf

/-- What an operation hands to its buffer. -/
def puts : Op → List Byte
  | .write _ src => src
  | .read_sock _ src => delivered src
  | _ => []

/-- The buffer that an operation reads or writes. -/
def target : Op → Option Nat
  | .write b _ => some b
  | .read b _ => some b
  | .read_sock b _ => some b
  | .write_sock b _ => some b
  | _ => none

/-- The buffer that an operation changes. -/
def touched : Op → Option Nat
  | .free b => some b
  | op => target op

/-- An operation returns and leaves the other buffers alone; it puts its bytes at the end of its
    buffer; the bytes that a read copies or that `write()` takes are its first ones; a read takes as
    many as are wanted and held; `read()` is asked for at least one byte. -/
def Served (w : World) (op : Op) : Prop :=
  ∃ w' out, perform w op = .ok (w',out) ∧ 0 ∉ out.asked ∧
    (∀ b buf, touched op ≠ some b → get w.bufs b = some buf →
      get w'.bufs b = some buf ∧ held w'.mem buf = held w.mem buf) ∧
    ∀ b, target op = some b → ∀ buf, get w.bufs b = some buf → ∃ buf', get w'.bufs b = some buf' ∧
      buf'.put_in = buf.put_in ++ puts op ∧ buf'.taken_out = buf.taken_out ++ out.dest ∧
      held w.mem buf ++ puts op = out.dest ++ held w'.mem buf' ∧
      ∀ nbyte, op = .read b nbyte →
        out.ret = (min nbyte (held w.mem buf).length : Nat) ∧ out.dest = (held w.mem buf).take nbyte

/-- A buffer whose record does not change holds what it held. -/
theorem held_kept {w w' : World} (ok : WorldOk w) (ok' : WorldOk w') {b : Nat} {buf : Buf} (found : get w.bufs b = some buf)
    (found' : get w'.bufs b = some buf) : held w'.mem buf = held w.mem buf :=
  List.append_cancel_left ((ok'.fifos b buf found').order.symm.trans (ok.fifos b buf found).order)

/-- A call on one buffer that moves bytes in its view, as `Served` has it. -/
theorem on_ok {w : World} (ok : WorldOk w) {op : Op} {b : Nat} {buf : Buf} (found : get w.bufs b = some buf)
    {f : Mem → Buf → Except Fault (Mem × Buf × Outcome)} (called : perform w op = w.on b f) (aims : target op = some b)
    (moves : ∀ others blks, View others w.mem buf blks → ∃ m' buf' blks' out, f w.mem buf = .ok (m',buf',out) ∧
      Moved others w.mem buf blks out.dest (puts op) m' buf' blks' ∧ 0 ∉ out.asked ∧
      ∀ nbyte, op = .read b nbyte →
        out.ret = (min nbyte (held w.mem buf).length : Nat) ∧ out.dest = (held w.mem buf).take nbyte) :
    Served w op ∧ ∃ w', step w op = .ok w' ∧ WorldOk w' := by
  obtain ⟨blks,view⟩ := world_view ok found
  obtain ⟨m',buf',blks',out,ran,moved,asked,read⟩ := moves _ blks view
  have there : w.buf b = .ok buf := by rw [World.buf,found]
  have done : perform w op = .ok (⟨m',put w.bufs b buf'⟩,out) := by
    rw [called,World.on,there,ok_bind,ran,ok_bind]
    rfl
  have ok' := world_put ok found view moved
  have alone : touched op = some b := by cases op <;> cases aims <;> rfl
  refine ⟨⟨_,out,done,asked,fun c other ne there => ?_,fun c same other found' => ?_⟩,_,by rw [step,done,ok_bind]; rfl,ok'⟩
  · have kept : get (put w.bufs b buf') c = some other := by
      rw [get_put_other _ (fun same => ne (by rw [alone,same]))]
      exact there
    exact ⟨kept,held_kept ok ok' there kept⟩
  · obtain rfl : b = c := Option.some.inj (aims.symm.trans same)
    obtain rfl : buf = other := Option.some.inj (found.symm.trans found')
    refine ⟨buf',get_put_self found buf',moved.put,moved.taken,?_,read⟩
    rw [held_of_chain view.cells,held_of_chain moved.view.cells]
    exact moved.held

theorem perform_ok {w : World} {op : Op} (ok : WorldOk w) (within : Within w op) :
    Served w op ∧ ∃ w', step w op = .ok w' ∧ WorldOk w' := by
  cases op with
  | new =>
    have ok' := world_new ok
    refine ⟨⟨_,_,rfl,List.not_mem_nil,fun b buf _ there => ?_,fun b none => by cases none⟩,_,rfl,ok'⟩
    have kept : get (alloc w.bufs atm_buf_new) b = some buf := (get_alloc_old _ (get_lt there)).trans there
    exact ⟨kept,held_kept ok ok' there kept⟩
  | free b =>
    obtain ⟨buf,found⟩ := within
    obtain ⟨m',freed,ok'⟩ := world_free ok found
    have done : perform w (.free b) = .ok (⟨m',free w.bufs b⟩,⟨0,[],[]⟩) := by
      rw [perform,World.buf,found,ok_bind,freed,ok_bind]
      rfl
    refine ⟨⟨_,_,done,List.not_mem_nil,fun c other ne there => ?_,fun b none => by cases none⟩,_,
      by rw [step,done,ok_bind]; rfl,ok'⟩
    have kept : get (free w.bufs b) c = some other := by
      rw [get_free_other _ (fun same => ne (by rw [same]; rfl))]
      exact there
    exact ⟨kept,held_kept ok ok' there kept⟩
  | write b src =>
    obtain ⟨⟨buf,found⟩,short⟩ := within
    refine on_ok ok found (f := fun m buf => atm_buf_write m buf src) rfl rfl (fun others blks view => ?_)
    obtain ⟨m',buf',blks',ran,moved⟩ := write_loop_ok (src.length+1) src 0 view (Nat.lt_succ_self _)
    exact ⟨m',buf',blks',_,by rw [atm_buf_write,if_pos short,ran,ok_bind]; rfl,moved,List.not_mem_nil,
      fun nbyte read => by cases read⟩
  | read b nbyte =>
    obtain ⟨⟨buf,found⟩,short⟩ := within
    refine on_ok ok found (f := fun m buf => atm_buf_read m buf nbyte) rfl rfl (fun others blks view => ?_)
    obtain ⟨m',buf',blks',ran,moved⟩ := read_loop_ok (nbyte+1) nbyte [] view (Nat.lt_succ_self _)
    refine ⟨m',buf',blks',_,by rw [atm_buf_read,if_pos short,ran,ok_bind]; rfl,moved,List.not_mem_nil,fun n read => ?_⟩
    cases read
    rw [held_of_chain view.cells]
    exact ⟨by simp [List.length_take],by simp⟩
  | read_sock b src =>
    obtain ⟨buf,found⟩ := within
    refine on_ok ok found (f := fun m buf => atm_buf_read_sock m buf src) rfl rfl (fun others blks view => ?_)
    obtain ⟨m',buf',blks',out,ran,moved,asked,nothing⟩ := read_sock_loop_ok (script_bound src) src 0 [] view (Nat.le_refl _)
      List.not_mem_nil
    exact ⟨m',buf',blks',out,ran,by rw [nothing]; exact moved,asked,fun nbyte read => by cases read⟩
  | write_sock b dest =>
    obtain ⟨buf,found⟩ := within
    refine on_ok ok found (f := fun m buf => atm_buf_write_sock m buf dest) rfl rfl (fun others blks view => ?_)
    obtain ⟨m',buf',blks',out,bytes,ran,moved,asked,sent⟩ := write_sock_loop_ok (dest.length+1) dest [] 0 0 view
      (Nat.lt_succ_self _)
    exact ⟨m',buf',blks',out,ran,by rw [sent]; exact moved,by rw [asked]; exact List.not_mem_nil,
      fun nbyte read => by cases read⟩

theorem step_keeps {w w' : World} {op : Op} (ok : WorldOk w) (within : Within w op) (taken : step w op = .ok w') :
    WorldOk w' := by
  obtain ⟨_,w₁,same,ok'⟩ := perform_ok ok within
  obtain rfl : w₁ = w' := Except.ok.inj (same.symm.trans taken)
  exact ok'

/-- A buffer stays live until it is freed. -/
theorem stays_live {w w' : World} {op : Op} (ok : WorldOk w) (within : Within w op) (taken : step w op = .ok w')
    {b : Nat} (kept : op ≠ .free b) (live : ∃ buf, get w.bufs b = some buf) : ∃ buf, get w'.bufs b = some buf := by
  obtain ⟨buf,found⟩ := live
  obtain ⟨⟨w₁,out,done,_,others,own⟩,_⟩ := perform_ok ok within
  have same : step w op = .ok w₁ := by rw [step,done,ok_bind]; rfl
  obtain rfl : w₁ = w' := Except.ok.inj (same.symm.trans taken)
  by_cases aims : target op = some b
  · obtain ⟨buf',found',_⟩ := own b aims buf found
    exact ⟨buf',found'⟩
  · refine ⟨buf,(others b buf (fun hit => ?_) found).1⟩
    cases op with
    | free c => exact kept (by cases hit; rfl)
    | new => exact aims hit
    | write c src => exact aims hit
    | read c nbyte => exact aims hit
    | read_sock c src => exact aims hit
    | write_sock c dest => exact aims hit

/-! ### Runs -/

/-- Every live buffer is a queue, and no block is in two places. -/
structure Fifos (w : World) : Prop where
  fifos : ∀ b buf, get w.bufs b = some buf → Fifo w.mem buf
  apart : (w.mem.blk_pool ++ addresses w.bufs).Nodup

theorem world_start : WorldOk world :=
  ⟨fun _ _ found => (by cases found),fun _ _ found => (by cases found),fun _ member => (by cases member),List.nodup_nil⟩

/-- Every run within the bounds returns, with buffers that are queues throughout. -/
theorem world_run {ops : List Op} (within : EachStep step world ops Within) :
    (∃ w, run step world ops = .ok w) ∧ Always step world ops (fun _ => WorldOk) :=
  run_total_always (P := fun _ => WorldOk) world_start (fun _ _ _ ok within => (perform_ok ok within).2) within

/-- Buffers that share the pool are independent queues. -/
theorem buffers_are_fifos {ops : List Op} (within : EachStep step world ops Within) :
    (∃ w, run step world ops = .ok w) ∧ Always step world ops (fun _ => Fifos) ∧ EachStep step world ops Served := by
  obtain ⟨returned,reach⟩ := world_run within
  refine ⟨returned,fun pre w isPre ran => ?_,fun pre op w inside ran => ?_⟩
  · have ok := reach pre w isPre ran
    exact ⟨ok.fifos,ok.apart⟩
  · have ok := reach pre w ((List.prefix_append pre [op]).trans inside) ran
    exact (perform_ok ok (within pre op w inside ran)).1

/-- Two buffers on one pool: the block that the first one leaves is the one that the second gets. -/
def two_buffers : List Op :=
  [.new,.new,.write 0 [104,105],.write_sock 0 [.bytes 1],.free 0,.read_sock 1 [.data [1,2],.data [3]],
    .write_sock 1 [.bytes 2,.fail]]

theorem buffers_are_fifos_two : (∃ w buf, run step world two_buffers = .ok w ∧ w.mem.heap.length = 1 ∧
    get w.bufs 1 = some buf ∧ buf.put_in = [1,2,3] ∧ buf.taken_out = [1,2] ∧ held w.mem buf = [3]) ∧
      Always step world two_buffers (fun _ => Fifos) ∧ EachStep step world two_buffers Served := by
  have within : EachStep step world two_buffers Within := by
    refine eachStep_cons.mpr ⟨trivial,fun w made => ?_⟩
    cases made
    refine eachStep_cons.mpr ⟨trivial,fun w made => ?_⟩
    cases made
    have ok := world_new (world_new world_start)
    have first : Within (⟨⟨[],[]⟩,[some atm_buf_new,some atm_buf_new]⟩ : World) (.write 0 [104,105]) := ⟨⟨_,rfl⟩,by decide⟩
    refine eachStep_cons.mpr ⟨first,fun w₁ wrote => ?_⟩
    have one : ∃ buf, get w₁.bufs 1 = some buf := stays_live ok first wrote (by decide) ⟨_,rfl⟩
    have second : Within w₁ (.write_sock 0 [.bytes 1]) := stays_live ok first wrote (by decide) first.1
    have ok₁ := step_keeps ok first wrote
    refine eachStep_cons.mpr ⟨second,fun w₂ sent => ?_⟩
    have one := stays_live ok₁ second sent (by decide) one
    have third : Within w₂ (.free 0) := stays_live ok₁ second sent (by decide) second
    have ok₂ := step_keeps ok₁ second sent
    refine eachStep_cons.mpr ⟨third,fun w₃ freed => ?_⟩
    have fourth : Within w₃ (.read_sock 1 [.data [1,2],.data [3]]) := stays_live ok₂ third freed (by decide) one
    have ok₃ := step_keeps ok₂ third freed
    refine eachStep_cons.mpr ⟨fourth,fun w₄ received => ?_⟩
    exact eachStep_cons.mpr ⟨stays_live ok₃ fourth received (by decide) fourth,fun w _ => eachStep_nil w Within⟩
  obtain ⟨⟨w,ran⟩,always,served⟩ := buffers_are_fifos within
  have shown : ((run step world two_buffers).toOption.bind (fun w => (get w.bufs 1).map (fun buf =>
      (w.mem.heap.length,buf.put_in,buf.taken_out,held w.mem buf)))) = some (1,[1,2,3],[1,2],[3]) := by decide +kernel
  refine ⟨?_,always,served⟩
  simp only [ran,Except.toOption,Option.bind_some,Option.map_eq_some_iff,Prod.mk.injEq] at shown
  obtain ⟨buf,found,made,put,taken,left⟩ := shown
  exact ⟨w,buf,ran,made,found,put,taken,left⟩

end AtmCache.Buffers
