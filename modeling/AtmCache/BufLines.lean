import AtmCache.BufWorld
import AtmCache.Lines

/-!
# Lines from a buffer

`atm_buf_read_line` takes the line in front of the held bytes with the run of
terminators behind it. Called until it returns NULL after each chunk that the socket
delivers, it is the reader of `Lines.frames`, and so the lines depend on how
the stream was cut.
-/
namespace AtmCache.Buffers
open CStrings Heap Lines Runs

/-- Calls of `atm_buf_read_line` until it returns NULL, and the lines as strings. -/
def read_lines : Nat → Mem → Buf → Except Fault (Mem × Buf × List (List Byte))
  | 0, _, _ => .error .hang
  | fuel+1, m, buf => do
    let (m,buf,line) ← atm_buf_read_line m buf
    match line with
    | none => return (m,buf,[])
    | some block =>
      let (m,buf,more) ← read_lines fuel m buf
      return (m,buf,text 0 block :: more)

/-- Each chunk arrives on the socket and is read from the buffer line by line. -/
def receive : Mem → Buf → List (List Byte) → Except Fault (Mem × Buf × List (List Byte))
  | m, buf, [] => .ok (m,buf,[])
  | m, buf, c :: cs => do
    let (m,buf,_) ← atm_buf_read_sock m buf [.data c]
    let (m,buf,lines) ← read_lines (buf.aval.toNat + 1) m buf
    let (m,buf,more) ← receive m buf cs
    return (m,buf,lines ++ more)

/-- The lines that a new buffer gives when a stream arrives in chunks. -/
def lines_received (m : Mem) (cs : List (List Byte)) : Except Fault (List (List Byte)) := do
  let (_,_,lines) ← receive m atm_buf_new cs
  return lines

/-- No line of a stream is as long, with its terminators, as `n` bytes. -/
def Short (n : Nat) (s : List Byte) : Prop :=
  ∀ t r, Open is_newline t → Run is_newline r → t ++ r <:+: s → t.length + r.length < n

/-! ### The scan -/

theorem scan_bytes_append (a b : List Byte) (s : Scan) :
    scan_bytes (a ++ b) s = if (scan_bytes a s).2 then scan_bytes a s else scan_bytes b (scan_bytes a s).1 := by
  induction a generalizing s with
  | nil => simp [scan_bytes]
  | cons c a ih =>
    rw [List.cons_append,scan_bytes,scan_bytes]
    by_cases before : s.find_end = false
    · rw [if_pos before,if_pos before]
      by_cases here : is_newline c = true
      · rw [if_pos here,if_pos here,ih]
      · rw [if_neg here,if_neg here,ih]
    · rw [if_neg before,if_neg before]
      by_cases here : is_newline c = false
      · rw [if_pos here,if_pos here]
        rfl
      · rw [if_neg here,if_neg here,ih]

/-- The scan of a chain of blocks is the scan of the bytes they hold. -/
theorem scan_blks_ok {m : Mem} (as : List Addr) (blks : List Blk) :
    as.map (get m.heap) = blks.map some → (∀ bk ∈ blks, bk.Ok) →
      ∀ s, scan_blks m as s = .ok (scan_bytes (held_in blks) s).1 := by
  induction as generalizing blks with
  | nil =>
    intro cells _ s
    have empty : blks = [] := by simpa using cells.symm
    rw [empty]
    rfl
  | cons a as ih =>
    intro cells ok s
    obtain ⟨bk,rest,rfl,found,cells'⟩ := List.map_eq_cons_iff.mp cells.symm
    obtain ⟨here,later⟩ := List.forall_mem_cons.mp ok
    have whole : bk.held.take (bk.widx - bk.ridx) = bk.held := List.take_of_length_le (by rw [Blk.held_length here])
    rw [scan_blks,blk_ok found.symm,ok_bind,load_ok here (Nat.le_refl _),ok_bind,whole,held_in,List.flatMap_cons,
      scan_bytes_append]
    dsimp only
    by_cases stop : (scan_bytes bk.held s).2 = true
    · rw [if_pos stop,if_pos stop]
      rfl
    · rw [if_neg stop,if_neg stop,ih rest cells'.symm later]
      rfl

theorem scan_open {t : List Byte} (clean : Open is_newline t) :
    ∀ s, s.find_end = false → s.len + t.length < 2^32 → s.strlen + t.length < 2^32 →
      scan_bytes t s = (⟨s.len + t.length,s.strlen + t.length,false⟩,false) := by
  induction t with
  | nil =>
    intro s before _ _
    cases s
    cases before
    rfl
  | cons c t ih =>
    obtain ⟨here,later⟩ := List.forall_mem_cons.mp clean
    intro s before len strlen
    rw [List.length_cons] at len strlen
    have others := ih later ⟨s.len + 1,s.strlen + 1,s.find_end⟩ before (by simp only; omega) (by simp only; omega)
    rw [scan_bytes,if_pos before,if_neg (by simp [here]),u32_of_lt (by omega),u32_of_lt (by omega),others]
    simp only [List.length_cons,Prod.mk.injEq,Scan.mk.injEq,and_true]
    omega

/-- Without a terminator no end is found, however long the text is. -/
theorem scan_never {t : List Byte} (clean : Open is_newline t) :
    ∀ s, s.find_end = false → (scan_bytes t s).1.find_end = false := by
  induction t with
  | nil => exact fun s before => before
  | cons c t ih =>
    obtain ⟨here,later⟩ := List.forall_mem_cons.mp clean
    intro s before
    rw [scan_bytes,if_pos before,if_neg (by simp [here])]
    exact ih later _ before

theorem scan_run {r : List Byte} (run : Run is_newline r) :
    ∀ s, s.find_end = true → s.len + r.length < 2^32 → scan_bytes r s = (⟨s.len + r.length,s.strlen,true⟩,false) := by
  induction r with
  | nil =>
    intro s after _
    cases s
    cases after
    rfl
  | cons c r ih =>
    obtain ⟨here,later⟩ := List.forall_mem_cons.mp run
    intro s after len
    rw [List.length_cons] at len
    have others := ih later ⟨s.len + 1,s.strlen,s.find_end⟩ after (by simp only; omega)
    rw [scan_bytes,if_neg (by simp [after]),if_neg (by simp [here]),u32_of_lt (by omega),others]
    simp only [List.length_cons,Prod.mk.injEq,Scan.mk.injEq,and_true]
    omega

theorem scan_line {t r rest : List Byte} (clean : Open is_newline t) (filled : r ≠ []) (run : Run is_newline r)
    (next : ∀ c ∈ rest.head?, is_newline c = false) (small : t.length + r.length < 2^32) :
    (scan_bytes (t ++ r ++ rest) ⟨0,0,false⟩).1 = ⟨t.length + r.length,t.length,true⟩ := by
  cases r with
  | nil => exact absurd rfl filled
  | cons c r =>
    obtain ⟨here,later⟩ := List.forall_mem_cons.mp run
    rw [List.length_cons] at small ⊢
    have first : scan_bytes t ⟨0,0,false⟩ = (⟨t.length,t.length,false⟩,false) := by
      rw [scan_open clean _ rfl (by simp only; omega) (by simp only; omega)]
      simp only [Nat.zero_add]
    have second : scan_bytes (c :: r) ⟨t.length,t.length,false⟩ = (⟨t.length + (r.length + 1),t.length,true⟩,false) := by
      rw [scan_bytes,if_pos rfl,if_pos here,u32_of_lt (by simp only; omega),scan_run later _ rfl (by simp only; omega)]
      simp only [Prod.mk.injEq,Scan.mk.injEq,and_true]
      omega
    rw [List.append_assoc,scan_bytes_append,first,if_neg (by simp),scan_bytes_append,second,if_neg (by simp)]
    cases rest with
    | nil => rfl
    | cons d rest =>
      rw [scan_bytes,if_neg (by simp),if_pos (next d rfl)]

/-! ### One line -/

section
variable {others : List Addr} {m : Mem} {buf : Buf} {blks : List Blk}

theorem read_line_none (cursors : Cursors others m buf blks) (clean : Open is_newline (held_in blks)) :
    atm_buf_read_line m buf = .ok (m,buf,none) := by
  have never := scan_never clean ⟨0,0,false⟩ rfl
  rw [atm_buf_read_line,scan_blks_ok _ _ cursors.cells cursors.blks_ok,ok_bind,if_neg (by simp [never])]
  rfl

/-- The line in front is returned as a string; it leaves with all terminators behind it. -/
theorem read_line_some (cursors : Cursors others m buf blks) {t r rest : List Byte} (bytes : held_in blks = t ++ r ++ rest)
    (clean : Open is_newline t) (filled : r ≠ []) (run : Run is_newline r)
    (next : ∀ c ∈ rest.head?, is_newline c = false) (small : t.length + r.length < 2^31) :
    ∃ m' buf' blks', atm_buf_read_line m buf = .ok (m',buf',some (t ++ 0 :: List.replicate r.length 0)) ∧
      Taken others m buf blks (t ++ r) m' buf' blks' := by
  have positive : 0 < r.length := List.length_pos_iff.mpr filled
  obtain ⟨m',buf',blks',ran,taken⟩ := read_loop_taken (t.length + r.length + 1) (t.length + r.length) [] cursors
    (Nat.lt_succ_self _)
  have front : (held_in blks).take (t.length + r.length) = t ++ r := by
    rw [bytes,List.take_append_of_le_length (by simp),List.take_of_length_le (by simp)]
  rw [front] at ran taken
  refine ⟨m',buf',blks',?_,taken⟩
  have size : atm_alloc (t.length + r.length + 1) = (t ++ r).length + 1 := by
    rw [atm_alloc,u32_of_lt (by omega),List.length_append]
  have copied : splice (List.replicate ((t ++ r).length + 1) 0) 0 (t ++ r) = t ++ r ++ [(0 : Byte)] := by
    simp [splice]
  have wiped : splice (t ++ r ++ [(0 : Byte)]) t.length (List.replicate (t.length + r.length - t.length) 0) =
      t ++ 0 :: List.replicate r.length 0 := by
    rw [splice_append _ _ _ (by simp),Nat.add_sub_cancel_left,List.append_assoc,← List.replicate_succ',
      List.replicate_succ]
  rw [atm_buf_read_line,scan_blks_ok _ _ cursors.cells cursors.blks_ok,ok_bind,bytes,scan_line clean filled run next (by omega),
    if_pos ⟨by simp only; omega,rfl⟩,atm_buf_read,if_pos small,ran]
  simp only [ok_bind,pure_eq_ok,size,List.nil_append,copied,wiped]

/-- A length from `2^31` on is negative for `atm_buf_read`. -/
theorem read_line_long (view : View others m buf blks) {t r rest : List Byte} (bytes : held_in blks = t ++ r ++ rest)
    (clean : Open is_newline t) (filled : r ≠ []) (run : Run is_newline r)
    (next : ∀ c ∈ rest.head?, is_newline c = false) (long : 2^31 ≤ t.length + r.length)
    (small : t.length + r.length < 2^32) : atm_buf_read_line m buf = .error .outOfBounds := by
  obtain ⟨m',buf',blks',rblk,got,moved,readable⟩ := rblk_ok view
  have kept : held_in blks = held_in blks' := by simpa using moved.held
  rw [atm_buf_read_line,scan_blks_ok _ _ view.cells view.blks_ok,ok_bind,bytes,scan_line clean filled run next small,
    if_pos ⟨by simp only; omega,rfl⟩,atm_buf_read,if_neg (by simp only; omega),got,ok_bind]
  cases rblk with
  | none =>
    rw [bytes,readable] at kept
    simp [filled] at kept
  | some a => rfl

/-- The bytes before the first terminator. -/
def line_of (bytes : List Byte) : List Byte := bytes.takeWhile (fun c => !is_newline c)

/-- All terminators from the first one on, up to another byte. -/
def run_after (bytes : List Byte) : List Byte := (bytes.drop (line_of bytes).length).takeWhile is_newline

theorem takeWhile_front {f : Byte → Bool} {s rest : List Byte} (all : ∀ c ∈ s, f c = true)
    (next : ∀ c ∈ rest.head?, f c = false) : (s ++ rest).takeWhile f = s := by
  rw [List.takeWhile_append_of_pos all]
  cases rest with
  | nil => rw [List.takeWhile_nil,List.append_nil]
  | cons c rest => rw [List.takeWhile_cons,if_neg (by simp [next c rfl]),List.append_nil]

theorem line_of_split {t r rest : List Byte} (clean : Open is_newline t) (filled : r ≠ []) (run : Run is_newline r)
    (next : ∀ c ∈ rest.head?, is_newline c = false) :
    line_of (t ++ r ++ rest) = t ∧ run_after (t ++ r ++ rest) = r := by
  have line : line_of (t ++ r ++ rest) = t := by
    rw [line_of,List.append_assoc]
    refine takeWhile_front (fun c member => by simp [clean c member]) (fun c first => ?_)
    cases r with
    | nil => exact absurd rfl filled
    | cons d r =>
      cases first
      simp [run c List.mem_cons_self]
  refine ⟨line,?_⟩
  rw [run_after,line,List.append_assoc,List.drop_left]
  exact takeWhile_front run next

theorem ended_of_split {t r rest : List Byte} (filled : r ≠ []) (run : Run is_newline r) : ¬ Open is_newline (t ++ r ++ rest) := by
  intro clean
  obtain ⟨c,member⟩ := List.exists_mem_of_ne_nil r filled
  have other := clean c (List.mem_append_left _ (List.mem_append_right _ member))
  rw [run c member] at other
  cases other

/-- A read of a line leaves the buffer alone when no terminator is held. Otherwise the line comes with a NUL
    behind it, and what left the buffer is the line and all terminators that follow. -/
theorem read_line_exact (cursors : Cursors others m buf blks) (few : (held_in blks).length < 2^31) :
    (Open is_newline (held_in blks) → atm_buf_read_line m buf = .ok (m,buf,none)) ∧
      (¬ Open is_newline (held_in blks) → ∃ m' buf' blks' block, atm_buf_read_line m buf = .ok (m',buf',some block) ∧
        block.take ((line_of (held_in blks)).length + 1) = line_of (held_in blks) ++ [0] ∧
        0 ∉ line_of (held_in blks) ∧ Cursors others m' buf' blks' ∧
        held_in blks = line_of (held_in blks) ++ run_after (held_in blks) ++ held_in blks' ∧
        buf'.aval = buf.aval - ((line_of (held_in blks)).length + (run_after (held_in blks)).length) ∧
        ∀ a ∈ others, get m'.heap a = get m.heap a) := by
  refine ⟨read_line_none cursors,fun ended => ?_⟩
  rcases split_line is_newline (held_in blks) with clean | ⟨t,r,rest,bytes,clean,filled,run,next⟩
  · exact absurd clean ended
  · obtain ⟨line,behind⟩ := line_of_split clean filled run next
    rw [← bytes] at line behind
    have small : t.length + r.length < 2^31 := by
      rw [bytes,List.length_append,List.length_append] at few
      omega
    obtain ⟨m',buf',blks',read,taken⟩ := read_line_some cursors bytes clean filled run next small
    have aval := taken.aval
    rw [List.length_append] at aval
    rw [line,behind]
    refine ⟨m',buf',blks',_,read,?_,fun zero => ?_,taken.cursors,taken.held,by omega,taken.same⟩
    · rw [List.append_cons]
      exact List.take_left' (by simp)
    · have := clean 0 zero
      simp [is_newline] at this

/-- The blocks "hi", "-\r" and "\nyo", of which "h" and "-" have been read. -/
def three_blocks : List Blk := [⟨2,[104,105],1,2⟩,⟨2,[45,13],1,2⟩,⟨4,[10,121,111,0],0,3⟩]

theorem read_line_exact_blocks : ∃ m' buf' block,
    atm_buf_read_line ⟨three_blocks.map some,[]⟩ ⟨5,[0,1,2],[],[]⟩ = .ok (m',buf',some block) ∧ block.take 2 = [105,0] ∧
      buf'.aval = 2 := by
  have cursors : Cursors [] ⟨three_blocks.map some,[]⟩ ⟨5,[0,1,2],[],[]⟩ three_blocks :=
    ⟨rfl,List.forall_mem_cons.mpr ⟨⟨rfl,by decide,by decide,by decide⟩,List.forall_mem_cons.mpr
      ⟨⟨rfl,by decide,by decide,by decide⟩,List.forall_mem_singleton.mpr ⟨rfl,by decide,by decide,by decide⟩⟩⟩,
      by decide,by decide,fun a member => absurd member List.not_mem_nil,by decide,
      fun a member => absurd member List.not_mem_nil⟩
  have ended : ¬ Open is_newline (held_in three_blocks) := fun clean => absurd (clean 13 (by decide)) (by decide)
  obtain ⟨m',buf',blks',block,read,front,_,_,_,aval,_⟩ := (read_line_exact cursors (by decide)).2 ended
  have line : line_of (held_in three_blocks) = [105] := by decide
  have behind : run_after (held_in three_blocks) = [13,10] := by decide
  rw [line] at front
  rw [line,behind] at aval
  exact ⟨m',buf',block,read,front,aval⟩

/-! ### All lines -/

theorem text_of_line {t : List Byte} (clean : Open is_newline t) (n : Nat) : text 0 (t ++ 0 :: List.replicate n 0) = t := by
  refine text_append (fun zero => ?_) _
  have := clean 0 zero
  simp [is_newline] at this

theorem read_lines_ok (fuel : Nat) :
    ∀ {m : Mem} {buf : Buf} {blks : List Blk}, View others m buf blks → Short (2^31) (held_in blks) →
      (held_in blks).length < fuel →
      ∃ m' buf' blks' out, read_lines fuel m buf = .ok (m',buf',(frame is_newline [] false (held_in blks)).1) ∧
        Moved others m buf blks out [] m' buf' blks' ∧ held_in blks' = (frame is_newline [] false (held_in blks)).2 := by
  induction fuel with
  | zero => intro m buf blks _ _ low; omega
  | succ fuel ih =>
    intro m buf blks view short low
    rw [read_lines]
    rcases split_line is_newline (held_in blks) with clean | ⟨t,r,rest,bytes,clean,filled,run,next⟩
    · rw [read_line_none view.cursors clean,ok_bind,frame_clean clean]
      exact ⟨m,buf,blks,[],rfl,moved_refl view,rfl⟩
    · have positive : 0 < r.length := List.length_pos_iff.mpr filled
      have small := short t r clean run ⟨[],rest,by simp [bytes]⟩
      obtain ⟨m₁,buf₁,blks₁,read,taken⟩ := read_line_some view.cursors bytes clean filled run next small
      have moved := taken.moved view
      have left : held_in blks₁ = rest := by
        have kept := taken.held
        rw [bytes] at kept
        exact (List.append_cancel_left kept).symm
      have short' : Short (2^31) (held_in blks₁) := fun t' r' open' run' inside =>
        short t' r' open' run' (inside.trans ⟨t ++ r,[],by rw [left,bytes,List.append_nil]⟩)
      have less : (held_in blks₁).length < fuel := by
        rw [bytes] at low
        simp only [List.length_append] at low
        rw [left]
        omega
      obtain ⟨m₂,buf₂,blks₂,out,ran,later,kept⟩ := ih moved.view short' less
      rw [left] at ran kept
      rw [read,ok_bind,bytes,frame_line clean filled run next]
      dsimp only
      rw [ran,ok_bind,text_of_line clean]
      exact ⟨m₂,buf₂,blks₂,_,rfl,moved.trans later,kept⟩

theorem receive_ok (cs : List (List Byte)) :
    ∀ {m : Mem} {buf : Buf} {blks : List Blk}, View others m buf blks → Open is_newline (held_in blks) →
      buf.aval = (held_in blks).length → Short (2^31) (held_in blks ++ cs.flatten) →
      ∃ m' buf', receive m buf cs = .ok (m',buf',frames is_newline (held_in blks) cs) := by
  induction cs with
  | nil => exact fun {m buf blks} _ _ _ _ => ⟨m,buf,rfl⟩
  | cons c cs ih =>
    intro m buf blks view clean count short
    obtain ⟨m₁,buf₁,blks₁,out,ran,moved,_⟩ := read_sock_loop_ok (script_bound [.data c]) [.data c] 0 [] view (Nat.le_refl _)
      List.not_mem_nil
    have arrived : delivered [.data c] = c := by
      rw [delivered]
      split
      · exact Eq.symm (by assumption)
      · simp [delivered]
    have held₁ : held_in blks₁ = held_in blks ++ c := by
      have kept := moved.held
      rw [arrived] at kept
      exact kept.symm
    have count₁ : buf₁.aval = (held_in blks₁).length := by
      rw [moved.aval,arrived,count,held₁]
      simp
    have short₁ : Short (2^31) (held_in blks₁) := fun t r open' run inside =>
      short t r open' run (inside.trans ⟨[],cs.flatten,by rw [held₁]; simp⟩)
    obtain ⟨m₂,buf₂,blks₂,out₂,read,later,left⟩ := read_lines_ok (buf₁.aval.toNat + 1) moved.view short₁ (by omega)
    have framed : frame is_newline [] false (held_in blks₁) = frame is_newline (held_in blks) false c := by
      rw [held₁,frame_open clean,List.nil_append]
    rw [framed] at read left
    have suffix : held_in blks₂ <:+ held_in blks ++ c := by
      rw [left]
      exact frame_suffix c _ _ (fun skipped => by cases skipped)
    have clean₂ : Open is_newline (held_in blks₂) := by
      rw [left]
      exact frame_last c _ _ clean
    have count₂ : buf₂.aval = (held_in blks₂).length := by
      have lengths := congrArg List.length later.held
      rw [List.append_nil,List.length_append] at lengths
      rw [later.aval,count₁]
      simp only [List.length_nil]
      omega
    have short₂ : Short (2^31) (held_in blks₂ ++ cs.flatten) := by
      obtain ⟨before,same⟩ := suffix
      intro t r open' run inside
      refine short t r open' run (inside.trans ⟨before,[],?_⟩)
      rw [List.flatten_cons,← List.append_assoc,← List.append_assoc,same,List.append_nil]
    obtain ⟨m₃,buf₃,more⟩ := ih later.view clean₂ count₂ short₂
    rw [left] at more
    refine ⟨m₃,buf₃,?_⟩
    rw [receive,atm_buf_read_sock,ran,ok_bind]
    dsimp only
    rw [read,ok_bind]
    dsimp only
    rw [more,ok_bind]
    rfl

end

/-- The lines of a stream that arrives at a new buffer. -/
theorem lines_received_ok {w : World} (ok : WorldOk w) {cs : List (List Byte)} (short : Short (2^31) cs.flatten) :
    lines_received w.mem cs = .ok (frames is_newline [] cs) := by
  have view : View (addresses w.bufs) w.mem atm_buf_new [] :=
    ⟨rfl,fun _ member => (by cases member),fun _ member => (by cases member),fun _ member => (by cases member),ok.pool,
      by simpa [atm_buf_new] using ok.apart,fun a member => addresses_alive ok member⟩
  obtain ⟨m',buf',ran⟩ := receive_ok cs view (fun _ member => (by cases member)) rfl (by simpa [held_in] using short)
  rw [lines_received,ran]
  rfl

/-- Two cuttings of one stream give the same lines exactly when both cut each run of
    terminators equally often. -/
theorem segmentation_iff {ops : List Op} (within : EachStep step world ops Within) {w : World}
    (ran : run step world ops = .ok w) {cs ds : List (List Byte)} (full : ∀ c ∈ cs, c ≠ []) (full' : ∀ d ∈ ds, d ≠ [])
    (same : cs.flatten = ds.flatten) (short : Short (2^31) cs.flatten) :
    (∃ lines, lines_received w.mem cs = .ok lines ∧ lines_received w.mem ds = .ok lines) ↔
      inner_cuts is_newline cs = inner_cuts is_newline ds := by
  have ok := (world_run within).2 ops w (List.prefix_refl _) ran
  rw [lines_received_ok ok short,lines_received_ok ok (by rw [← same]; exact short),← frames_eq_iff full full' same]
  constructor
  · rintro ⟨lines,first,second⟩
    exact (Except.ok.inj first).trans (Except.ok.inj second).symm
  · intro equal
    exact ⟨_,rfl,by rw [equal]⟩

theorem short_of_length {n : Nat} {s : List Byte} (small : s.length < n) : Short n s := by
  intro t r _ _ inside
  have fits := inside.length_le
  rw [List.length_append] at fits
  omega

theorem segmentation_iff_before_end :
    ∃ lines, lines_received world.mem [[97],[13,10]] = .ok lines ∧ lines_received world.mem [[97,13,10]] = .ok lines := by
  have ran : run step world [] = .ok world := rfl
  have same : ([[97],[13,10]] : List (List Byte)).flatten = [[97,13,10]].flatten := rfl
  have short : Short (2^31) ([[97],[13,10]] : List (List Byte)).flatten := short_of_length (by decide)
  exact (segmentation_iff (eachStep_nil world Within) ran (by decide) (by decide) same short).mpr (by decide)

/-- A cut between CR and LF makes one more, empty line. -/
theorem cut_in_line_end : lines_received world.mem [[97,13],[10]] = .ok [[97],[]] ∧
    lines_received world.mem [[97,13,10]] = .ok [[97]] := by
  refine ⟨?_,?_⟩
  · rw [lines_received_ok world_start (short_of_length (by decide))]
    decide
  · rw [lines_received_ok world_start (short_of_length (by decide))]
    decide

end AtmCache.Buffers
