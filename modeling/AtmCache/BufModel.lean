import AtmCache.Machine
import AtmCache.CStrings
import AtmCache.Heap

/-!
# The buffers of `atm_buf.c` and the block pool of `atm_blk.c`

Blocks live in a heap; the pool and the block list of each buffer hold addresses.
A block keeps its old bytes when it is recycled. `read()` and `write()` are driven
by a script. A buffer also records all bytes that were put into it and taken out
of it since it was made. The locks are not modelled: each is held over accesses
of one call only.
-/
namespace AtmCache.Buffers
open CStrings Heap Runs

abbrev Byte := UInt8

/-- `atm_blk_t` -/
structure Blk where
  size : Nat
  head : List Byte
  ridx : Nat
  widx : Nat
  deriving DecidableEq, Repr

/-- All blocks there are and `blk_pool`, which `atm_blk_init` has made. -/
structure Mem where
  heap : Cells Blk
  blk_pool : List Addr
  deriving DecidableEq, Repr

/-- `atm_buf_t`, with a record of the bytes put in and taken out. -/
structure Buf where
  aval : Int
  blks : List Addr
  put_in : List Byte
  taken_out : List Byte
  deriving DecidableEq, Repr

def ATM_BLK_DFT_LEN : Nat := 65536
def ATM_BLK_POOL_THRESHOLD : Nat := 64

/-! ### Blocks -/

/-- Following a block pointer. -/
def Mem.blk (m : Mem) (a : Addr) : Except Fault Blk :=
  match get m.heap a with
  | some bk => .ok bk
  | none => .error .useAfterFree

def Mem.store (m : Mem) (a : Addr) (bk : Blk) : Mem := { m with heap := put m.heap a bk }

def atm_blk_reset (bk : Blk) : Blk := { bk with ridx := 0, widx := 0 }

def atm_blk_pool_release (m : Mem) (a : Addr) : Except Fault (Bool × Mem) := do
  let bk ← m.blk a
  let m := m.store a (atm_blk_reset bk)
  if m.blk_pool.length < ATM_BLK_POOL_THRESHOLD then return (true,{ m with blk_pool := m.blk_pool ++ [a] })
  else return (false,m)

def atm_blk_pool_fetch (m : Mem) : Option Addr × Mem :=
  match m.blk_pool with
  | [] => (none,m)
  | a :: rest => (some a,{ m with blk_pool := rest })

def atm_blk_new_raw (m : Mem) : Addr × Mem :=
  (m.heap.length,{ m with heap := alloc m.heap ⟨ATM_BLK_DFT_LEN,List.replicate ATM_BLK_DFT_LEN 0,0,0⟩ })

def atm_blk_free_raw (m : Mem) (a : Addr) : Mem := { m with heap := free m.heap a }

def atm_blk_new (m : Mem) : Addr × Mem :=
  match atm_blk_pool_fetch m with
  | (some a,m) => (a,m)
  | (none,m) => atm_blk_new_raw m

def atm_blk_free (m : Mem) (a : Addr) : Except Fault Mem := do
  let (res,m) ← atm_blk_pool_release m a
  return if res then m else atm_blk_free_raw m a

/-- Copying `l` bytes out of a block from `i` on. -/
def Blk.load (bk : Blk) (i l : Nat) : Except Fault (List Byte) :=
  if i + l ≤ bk.head.length then .ok ((bk.head.drop i).take l) else .error .outOfBounds

/-- Copying bytes into a block from `i` on. -/
def Blk.fill (bk : Blk) (i : Nat) (data : List Byte) : Except Fault (List Byte) :=
  if i + data.length ≤ bk.head.length then .ok (splice bk.head i data) else .error .outOfBounds

/-! ### Buffers -/

def atm_buf_new : Buf := ⟨0,[],[],[]⟩

/-- `atm_list_free` of the block list, which frees every block. -/
def atm_buf_free (m : Mem) (buf : Buf) : Except Fault Mem := buf.blks.foldlM atm_blk_free m

/-- The first block, if it has unread bytes. -/
def peek_rblk (m : Mem) (buf : Buf) : Except Fault (Mem × Buf × Option Addr) :=
  match buf.blks with
  | [] => .ok (m,buf,none)
  | a :: _ => do
    let bk ← m.blk a
    return (m,buf,if bk.ridx < bk.widx then some a else none)

/-- An exhausted full block is recycled before the next one is looked at. -/
def atm_buf_get_rblk (m : Mem) (buf : Buf) : Except Fault (Mem × Buf × Option Addr) :=
  match buf.blks with
  | [] => .ok (m,buf,none)
  | a :: rest => do
    let bk ← m.blk a
    if bk.ridx = bk.widx ∧ bk.widx = bk.size then
      let m ← atm_blk_free m a
      peek_rblk m { buf with blks := rest }
    else peek_rblk m buf

def push_blk (m : Mem) (buf : Buf) : Mem × Buf × Addr :=
  let (a,m) := atm_blk_new m
  (m,{ buf with blks := buf.blks ++ [a] },a)

/-- The block to write to: a new one when the last one is full. -/
def atm_buf_get_wblk (m : Mem) (buf : Buf) : Except Fault (Mem × Buf × Addr) :=
  match buf.blks.getLast? with
  | none => .ok (push_blk m buf)
  | some a => do
    let bk ← m.blk a
    return if bk.size = bk.widx then push_blk m buf else (m,buf,a)

/-- What was put into a buffer: `widx` and `aval` advance by the bytes of `data`. -/
def advance_write (m : Mem) (buf : Buf) (a : Addr) (bk : Blk) (data : List Byte) : Except Fault (Mem × Buf) := do
  let head ← bk.fill bk.widx data
  return (m.store a { bk with head := head, widx := bk.widx + data.length },
    { buf with aval := buf.aval + data.length, put_in := buf.put_in ++ data })

/-- What was taken out of a buffer: `ridx` advances and `aval` goes down by the bytes of `data`. -/
def advance_read (m : Mem) (buf : Buf) (a : Addr) (bk : Blk) (data : List Byte) : Mem × Buf :=
  (m.store a { bk with ridx := bk.ridx + data.length },
    { buf with aval := buf.aval - data.length, taken_out := buf.taken_out ++ data })

/-! ### Sockets -/

/-- What a socket has for the next calls of `read()`: a segment of bytes, of which a call takes as
    many as it asks for and leaves the rest, or a failure (`-1`, such as EAGAIN). A segment without
    bytes is the end of the stream (`0`). -/
inductive Segment where
  | data (bytes : List Byte)
  | fail
  deriving DecidableEq, Repr

/-- `read(fd, p, len)`: the result, the bytes and what is left. -/
def sys_read (len : Nat) : List Segment → Int × List Byte × List Segment
  | [] => (-1,[],[])
  | .fail :: rest => (-1,[],rest)
  | .data bytes :: rest =>
    if bytes.length ≤ len then (bytes.length,bytes,rest) else (len,bytes.take len,.data (bytes.drop len) :: rest)

/-- The result of a call of `write()`: at most `n` bytes are taken, or it fails. -/
inductive Accept where
  | bytes (n : Nat)
  | fail
  deriving DecidableEq, Repr

/-- `write(fd, p, len)` with the bytes at `p`: the result, the bytes it took and what is left. -/
def sys_write (offered : List Byte) : List Accept → Int × List Byte × List Accept
  | [] => (-1,[],[])
  | .fail :: rest => (-1,[],rest)
  | .bytes n :: rest => (min n offered.length,offered.take n,rest)

/-- `total>0 ? total:ret`. Totals are not wrapped: they count bytes of one call, and no
    statement depends on one of `2^31` or more. -/
def sock_result (total : Nat) (ret : Int) : Int := if 0 < total then total else ret

/-- Results of an operation: its return value, the bytes that reached `dest` or that `write()` took,
    and the lengths that `read()` was called with. -/
structure Outcome where
  ret : Int
  dest : List Byte
  asked : List Nat
  deriving DecidableEq, Repr

/-- The loop of `atm_buf_read_sock`. -/
def read_sock_loop : Nat → Mem → Buf → List Segment → Nat → List Nat → Except Fault (Mem × Buf × Outcome)
  | 0, _, _, _, _, _ => .error .hang
  | fuel+1, m, buf, src, total, asked => do
    let (m,buf,a) ← atm_buf_get_wblk m buf
    let bk ← m.blk a
    let len := bk.size - bk.widx
    let (ret,bytes,src) := sys_read len src
    if 0 < ret then
      let (m,buf) ← advance_write m buf a bk bytes
      read_sock_loop fuel m buf src (total + bytes.length) (asked ++ [len])
    else return (m,buf,⟨sock_result total ret,[],asked ++ [len]⟩)

/-- A bound on the calls of `read()`: each one takes a byte or drops a segment. -/
def script_bound (src : List Segment) : Nat :=
  (src.map (fun s => match s with
    | .data bytes => bytes.length + 1
    | .fail => 1)).sum + 1

def atm_buf_read_sock (m : Mem) (buf : Buf) (src : List Segment) : Except Fault (Mem × Buf × Outcome) :=
  read_sock_loop (script_bound src) m buf src 0 []

/-- The loop of `atm_buf_write_sock`, which has sent the bytes of `sent` so far; each round but the
    last takes a result from the script. -/
def write_sock_loop : Nat → Mem → Buf → List Accept → List Byte → Nat → Int → Except Fault (Mem × Buf × Outcome)
  | 0, _, _, _, _, _, _ => .error .hang
  | fuel+1, m, buf, dest, sent, total, ret => do
    let (m,buf,rblk) ← atm_buf_get_rblk m buf
    match rblk with
    | none => return (m,buf,⟨sock_result total ret,sent,[]⟩)
    | some a =>
      let bk ← m.blk a
      let len := bk.widx - bk.ridx
      if 0 < len then
        let offered ← bk.load bk.ridx len
        let (ret,accepted,dest) := sys_write offered dest
        if 0 < ret then
          let passed ← bk.load bk.ridx ret.toNat
          let (m,buf) := advance_read m buf a bk passed
          write_sock_loop fuel m buf dest (sent ++ accepted) (total + ret.toNat) ret
        else return (m,buf,⟨sock_result total ret,sent,[]⟩)
      else return (m,buf,⟨sock_result total ret,sent,[]⟩)

def atm_buf_write_sock (m : Mem) (buf : Buf) (dest : List Accept) : Except Fault (Mem × Buf × Outcome) :=
  write_sock_loop (dest.length + 1) m buf dest [] 0 0

/-! ### Reads and writes of the session -/

/-- The loop of `atm_buf_read` with `rmn` bytes still to read; the total is the length of `dest`. -/
def read_loop : Nat → Mem → Buf → Nat → List Byte → Except Fault (Mem × Buf × List Byte)
  | 0, _, _, _, _ => .error .hang
  | fuel+1, m, buf, rmn, dest => do
    let (m,buf,rblk) ← atm_buf_get_rblk m buf
    match rblk with
    | none => return (m,buf,dest)
    | some a =>
      let bk ← m.blk a
      let avl := bk.widx - bk.ridx
      if 0 < avl then
        let l := min avl rmn
        let bytes ← bk.load bk.ridx l
        let (m,buf) := advance_read m buf a bk bytes
        if 0 < rmn - l then read_loop fuel m buf (rmn - l) (dest ++ bytes)
        else return (m,buf,dest ++ bytes)
      else return (m,buf,dest)

/-- From `2^31` on `nbyte` is negative as an `atm_int_t`, and the first `memcpy` is asked for
    a huge length. -/
def atm_buf_read (m : Mem) (buf : Buf) (nbyte : Nat) : Except Fault (Mem × Buf × Outcome) :=
  if nbyte < 2^31 then do
    let (m,buf,dest) ← read_loop (nbyte+1) m buf nbyte []
    return (m,buf,⟨dest.length,dest,[]⟩)
  else do
    let (m,buf,rblk) ← atm_buf_get_rblk m buf
    match rblk with
    | none => return (m,buf,⟨0,[],[]⟩)
    | some _ => throw .outOfBounds

/-- The loop of `atm_buf_write` with the bytes of `src` still to write. -/
def write_loop : Nat → Mem → Buf → List Byte → Nat → Except Fault (Mem × Buf × Nat)
  | 0, _, _, _, _ => .error .hang
  | fuel+1, m, buf, src, total => do
    let (m,buf,a) ← atm_buf_get_wblk m buf
    let bk ← m.blk a
    let avl := bk.size - bk.widx
    if 0 < avl then
      let l := min avl src.length
      let (m,buf) ← advance_write m buf a bk (src.take l)
      if 0 < src.length - l then write_loop fuel m buf (src.drop l) (total + l) else return (m,buf,total + l)
    else return (m,buf,total)

def atm_buf_write (m : Mem) (buf : Buf) (src : List Byte) : Except Fault (Mem × Buf × Outcome) :=
  if src.length < 2^31 then do
    let (m,buf,total) ← write_loop (src.length+1) m buf src 0
    return (m,buf,⟨total,[],[]⟩)
  else .error .outOfBounds

/-! ### Lines -/

/-- `strchr(nlcs, c) != NULL`: CR, LF and the NUL that ends the set. -/
def is_newline (c : Byte) : Bool := c = 13 || c = 10 || c = 0

/-- The counters of `atm_buf_read_line`. -/
structure Scan where
  len : Nat
  strlen : Nat
  find_end : Bool
  deriving DecidableEq, Repr

/-- The scan of the bytes of one block; `true` stops it (`goto start_build`). -/
def scan_bytes : List Byte → Scan → Scan × Bool
  | [], s => (s,false)
  | c :: rest, s =>
    if s.find_end = false then
      if is_newline c then scan_bytes rest { s with find_end := true, len := u32 (s.len + 1) }
      else scan_bytes rest { s with strlen := u32 (s.strlen + 1), len := u32 (s.len + 1) }
    else if is_newline c = false then (s,true)
    else scan_bytes rest { s with len := u32 (s.len + 1) }

def scan_blks (m : Mem) : List Addr → Scan → Except Fault Scan
  | [], s => .ok s
  | a :: rest, s => do
    let bk ← m.blk a
    let bytes ← bk.load bk.ridx (bk.widx - bk.ridx)
    let (s,stop) := scan_bytes bytes s
    if stop then return s else scan_blks m rest s

/-- The block returned is zero after its first `strlen` bytes. -/
def atm_buf_read_line (m : Mem) (buf : Buf) : Except Fault (Mem × Buf × Option (List Byte)) := do
  let s ← scan_blks m buf.blks ⟨0,0,false⟩
  if 0 < s.len ∧ s.find_end then
    let (m,buf,out) ← atm_buf_read m buf s.len
    let res := splice (List.replicate (atm_alloc (s.len + 1)) 0) 0 out.dest
    return (m,buf,some (splice res s.strlen (List.replicate (s.len - s.strlen) 0)))
  else return (m,buf,none)

/-! ### Runs of calls on many buffers -/

/-- All buffers ever made, freed ones as `none`, and the memory that they share. -/
structure World where
  mem : Mem
  bufs : List (Option Buf)
  deriving DecidableEq, Repr

def world : World := ⟨⟨[],[]⟩,[]⟩

inductive Op where
  | new
  | free (b : Nat)
  | write (b : Nat) (src : List Byte)
  | read (b : Nat) (nbyte : Nat)
  | read_sock (b : Nat) (src : List Segment)
  | write_sock (b : Nat) (dest : List Accept)
  deriving DecidableEq, Repr

/-- Following a buffer pointer. -/
def World.buf (w : World) (b : Nat) : Except Fault Buf :=
  match Heap.get w.bufs b with
  | some buf => .ok buf
  | none => .error .useAfterFree

/-- An operation on one buffer. -/
def World.on (w : World) (b : Nat) (f : Mem → Buf → Except Fault (Mem × Buf × Outcome)) :
    Except Fault (World × Outcome) := do
  let buf ← w.buf b
  let (mem,buf,out) ← f w.mem buf
  return (⟨mem,put w.bufs b buf⟩,out)

def perform (w : World) : Op → Except Fault (World × Outcome)
  | .new => .ok ({ w with bufs := alloc w.bufs atm_buf_new },⟨0,[],[]⟩)
  | .free b => do
    let buf ← w.buf b
    let mem ← atm_buf_free w.mem buf
    return (⟨mem,Heap.free w.bufs b⟩,⟨0,[],[]⟩)
  | .write b src => w.on b (fun m buf => atm_buf_write m buf src)
  | .read b nbyte => w.on b (fun m buf => atm_buf_read m buf nbyte)
  | .read_sock b src => w.on b (fun m buf => atm_buf_read_sock m buf src)
  | .write_sock b dest => w.on b (fun m buf => atm_buf_write_sock m buf dest)

def step (w : World) (op : Op) : Except Fault World := do return (← perform w op).1

end AtmCache.Buffers
