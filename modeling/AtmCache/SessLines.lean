import AtmCache.BufLines
import AtmCache.SessModel
import AtmCache.StrHeader

/-!
# Requests that are left in the read buffer

`atm_sess_process` takes one line at most: `atm_sess_reset` clears `state_continue`
after a request, so the loop ends although more lines may be held. Nothing is left behind
exactly when no more than one complete line was held.
-/
namespace AtmCache.Session
open Buffers CStrings Heap Lines Runs Strings

variable {siphash : List Byte → UInt64} {srv srv' : Server} {c : Conn} {se se' : Sess}

/-! ### Writing leaves the read buffer alone -/

/-- A buffer and the bytes that it holds are as before. -/
structure Untouched (b : Nat) (srv srv' : Server) : Prop where
  ok : WorldOk srv'.bufs
  same : get srv'.bufs.bufs b = get srv.bufs.bufs b
  bytes : ∀ buf, get srv.bufs.bufs b = some buf → held srv'.bufs.mem buf = held srv.bufs.mem buf

theorem buf_found {w : World} {b : Nat} {buf : Buf} (found : w.buf b = .ok buf) : get w.bufs b = some buf := by
  rw [World.buf] at found
  split at found
  · cases found
    assumption
  · cases found

/-- A write that returned has put its bytes behind those that the write buffer held. -/
theorem conn_write_moves (ok : WorldOk srv.bufs) {src : List Byte} (wrote : atm_conn_write srv c src = .ok srv') :
    ∃ buf blks m' buf' blks', get srv.bufs.bufs c.w_buf = some buf ∧
      View (addresses (free srv.bufs.bufs c.w_buf)) srv.bufs.mem buf blks ∧
      Moved (addresses (free srv.bufs.bufs c.w_buf)) srv.bufs.mem buf blks [] src m' buf' blks' ∧
      srv' = { srv with bufs := ⟨m',put srv.bufs.bufs c.w_buf buf'⟩ } := by
  rw [atm_conn_write,World.on] at wrote
  obtain ⟨⟨w,out⟩,called,done⟩ := bind_eq_ok.mp wrote
  obtain ⟨buf,is,called⟩ := bind_eq_ok.mp called
  obtain ⟨⟨m₁,buf₁,out₁⟩,ran,put⟩ := bind_eq_ok.mp called
  cases put
  cases done
  have found := buf_found is
  obtain ⟨blks,view⟩ := world_view ok found
  by_cases short : src.length < 2^31
  · obtain ⟨m',buf',blks',wrote',moved⟩ := write_loop_ok (src.length+1) src 0 view (Nat.lt_succ_self _)
    rw [atm_buf_write,if_pos short,wrote',ok_bind] at ran
    cases ran
    exact ⟨buf,blks,m₁,buf₁,blks',found,view,moved,rfl⟩
  · rw [atm_buf_write,if_neg short] at ran
    cases ran

theorem conn_write_untouched (ok : WorldOk srv.bufs) (apart : c.r_buf ≠ c.w_buf) {src : List Byte}
    (wrote : atm_conn_write srv c src = .ok srv') : Untouched c.r_buf srv srv' := by
  obtain ⟨buf,blks,m',buf',blks',found,view,moved,rfl⟩ := conn_write_moves ok wrote
  exact ⟨world_put ok found view moved,get_put_other _ apart _,fun other there => held_elsewhere ok moved apart there⟩

theorem write_str_untouched (ok : WorldOk srv.bufs) (apart : c.r_buf ≠ c.w_buf) {s : Option Str}
    (wrote : atm_conn_write_str srv c s = .ok srv') : Untouched c.r_buf srv srv' := by
  cases s with
  | none => exact conn_write_untouched ok apart wrote
  | some s =>
    obtain ⟨bytes,_,wrote⟩ := bind_eq_ok.mp wrote
    exact conn_write_untouched ok apart wrote

theorem reply_untouched (ok : WorldOk srv.bufs) (apart : c.r_buf ≠ c.w_buf) {m : List Byte}
    (replied : atm_sess_reply srv c m = .ok srv') : Untouched c.r_buf srv srv' := by
  obtain ⟨msg,_,replied⟩ := bind_eq_ok.mp replied
  obtain ⟨res,_,replied⟩ := bind_eq_ok.mp replied
  exact write_str_untouched ok apart replied

theorem cmd_func_untouched (ok : WorldOk srv.bufs) (apart : c.r_buf ≠ c.w_buf) {cmd : Cmd}
    (ran : cmd_func siphash srv c cmd se = .ok srv') : Untouched c.r_buf srv srv' := by
  rw [cmd_func] at ran
  cases func : cmd.func with
  | atm_cmd_func_get =>
    rw [func] at ran
    dsimp only at ran
    rw [atm_cmd_func_get] at ran
    by_cases fits : argc_fits cmd se = true
    · rw [if_pos fits] at ran
      obtain ⟨k,_,ran⟩ := bind_eq_ok.mp ran
      obtain ⟨v,_,ran⟩ := bind_eq_ok.mp ran
      obtain ⟨msg,_,ran⟩ := bind_eq_ok.mp ran
      exact write_str_untouched ok apart ran
    · rw [if_neg fits] at ran
      exact reply_untouched ok apart ran
  | atm_cmd_func_set =>
    rw [func] at ran
    dsimp only at ran
    rw [atm_cmd_func_set] at ran
    by_cases fits : argc_fits cmd se = true
    · rw [if_pos fits] at ran
      obtain ⟨k,_,ran⟩ := bind_eq_ok.mp ran
      obtain ⟨v,_,ran⟩ := bind_eq_ok.mp ran
      obtain ⟨cache,_,ran⟩ := bind_eq_ok.mp ran
      have kept : Untouched c.r_buf { srv with cache_dict := cache } srv' := reply_untouched ok apart ran
      exact ⟨kept.ok,kept.same,kept.bytes⟩
    · rw [if_neg fits] at ran
      exact reply_untouched ok apart ran

theorem process_cmd_untouched (ok : WorldOk srv.bufs) (apart : c.r_buf ≠ c.w_buf)
    (ran : atm_sess_process_cmd siphash srv c se = .ok (srv',se')) : Untouched c.r_buf srv srv' := by
  obtain ⟨srv₁,called,done⟩ := bind_eq_ok.mp ran
  cases done
  rw [call_cmd] at called
  cases cmd : se.cmd with
  | none =>
    rw [cmd] at called
    exact reply_untouched ok apart called
  | some cmd' =>
    rw [cmd] at called
    exact cmd_func_untouched ok apart called

/-! ### Reading a line -/

/-- Reading a line changes the read buffer and no more. -/
structure ReadFrom (b : Nat) (srv srv' : Server) : Prop where
  ok : WorldOk srv'.bufs
  cache : srv'.cache_dict = srv.cache_dict
  cmds : srv'.cmd_dict = srv.cmd_dict
  others : ∀ b', b' ≠ b → Untouched b' srv srv'

/-- A line is the text in front of the held bytes; no line is returned when none is complete. -/
theorem conn_read_line_cases (ok : WorldOk srv.bufs) {buf : Buf} (found : get srv.bufs.bufs c.r_buf = some buf)
    (short : Short (2^32) (held srv.bufs.mem buf)) {line : Option Str} (read : atm_conn_read_line srv c = .ok (srv',line)) :
    ReadFrom c.r_buf srv srv' ∧ ∃ buf', get srv'.bufs.bufs c.r_buf = some buf' ∧
      ((line = none ∧ Open is_newline (held srv.bufs.mem buf) ∧ held srv'.bufs.mem buf' = held srv.bufs.mem buf) ∨
        ∃ t spare r rest, line = some (made t spare) ∧ HeaderOk (made t spare) ∧ t.length + r.length < 2^31 ∧
          held srv.bufs.mem buf = t ++ r ++ rest ∧ Open is_newline t ∧
          r ≠ [] ∧ Run is_newline r ∧ (∀ x ∈ rest.head?, is_newline x = false) ∧ held srv'.bufs.mem buf' = rest) := by
  have is : srv.bufs.buf c.r_buf = .ok buf := by rw [World.buf,found]
  obtain ⟨blks,view⟩ := world_view ok found
  have bytes : held srv.bufs.mem buf = held_in blks := held_of_chain view.cells
  have from_read : ∀ {m₁ buf₁ blks₁ out inn}, 
      Moved (addresses (free srv.bufs.bufs c.r_buf)) srv.bufs.mem buf blks out inn m₁ buf₁ blks₁ →
      ReadFrom c.r_buf srv { srv with bufs := ⟨m₁,put srv.bufs.bufs c.r_buf buf₁⟩ } := by
    intro m₁ buf₁ blks₁ out inn moved
    have ok₁ := world_put ok found view moved
    exact ⟨ok₁,rfl,rfl,fun b' other => ⟨ok₁,get_put_other _ other _,
      fun there is => held_elsewhere ok moved other is⟩⟩
  rw [atm_conn_read_line,is,ok_bind] at read
  rw [bytes] at short ⊢
  rcases split_line is_newline (held_in blks) with clean | ⟨t,r,rest,cut,clean,filled,run,next⟩
  · rw [read_line_none view.cursors clean,ok_bind] at read
    cases read
    exact ⟨from_read (moved_refl view),buf,get_put_self found buf,.inl ⟨rfl,clean,bytes⟩⟩
  · have small := short t r clean run ⟨[],rest,by simp [cut]⟩
    by_cases long : 2^31 ≤ t.length + r.length
    · rw [read_line_long view cut clean filled run next long small] at read
      cases read
    · obtain ⟨m₁,buf₁,blks₁,got,taken⟩ := read_line_some view.cursors cut clean filled run next (by omega)
      have moved := taken.moved view
      have zero : (0 : Byte) ∉ t := fun member => by
        have := clean 0 member
        simp [is_newline] at this
      have left : held_in blks₁ = rest := by
        have kept := taken.held
        rw [cut] at kept
        exact (List.append_cancel_left kept).symm
      obtain ⟨spare,made',header,_⟩ := new_ok zero (by omega)
      rw [got,ok_bind] at read
      dsimp only at read
      rw [str_new_of,strlen_ok zero,ok_bind,List.take_left,made'] at read
      cases read
      exact ⟨from_read moved,buf₁,get_put_self found buf₁,.inr ⟨t,spare,r,rest,rfl,header,by omega,cut,clean,filled,run,next,
        (held_of_chain moved.view.cells).trans left⟩⟩

/-! ### One call -/

/-- A session between two calls. -/
structure Idle (se : Sess) : Prop where
  state : se.state = .sess_init ∨ se.state = .sess_parsing
  cmd : se.cmd = none
  argc : se.argc = 0
  argv : se.argv = none

theorem new_idle : Idle atm_sess_new := ⟨.inl rfl,rfl,rfl,rfl⟩

/-- A session that holds what `atm_sess_parsing` made of a line: nothing for a line without words. -/
def Request (siphash : List Byte → UInt64) (srv : Server) (line : Str) (se : Sess) : Prop :=
  (atm_str_split line.val 32 line.len = .ok none ∧ se.cmd = none ∧ se.argc = 0 ∧ se.argv = none) ∨
  ∃ argv, atm_str_split line.val 32 line.len = .ok (some argv) ∧
    atm_cmd_getcmd siphash srv argv.head?.join = .ok se.cmd ∧
    se.argc = (argv.takeWhile Option.isSome).length ∧ se.argv = some argv

/-- A line without words leaves the session as it was; any other is taken apart. -/
theorem parse_line_cases {line : Str} (parsed : parse_line siphash srv line se = .ok se') :
    (atm_str_split line.val 32 line.len = .ok none ∧ se' = se) ∨
    ∃ argv cmd, atm_str_split line.val 32 line.len = .ok (some argv) ∧
      atm_cmd_getcmd siphash srv argv.head?.join = .ok cmd ∧
      se' = { se with argc := (argv.takeWhile Option.isSome).length, argv := some argv, cmd := cmd } := by
  obtain ⟨split,words,rest⟩ := bind_eq_ok.mp parsed
  cases split with
  | none =>
    cases rest
    exact .inl ⟨words,rfl⟩
  | some argv =>
    obtain ⟨cmd,got,same⟩ := bind_eq_ok.mp rest
    cases same
    exact .inr ⟨argv,cmd,words,got,rfl⟩

/-- A call reads a line; if there is one, it is executed and the session is reset. -/
theorem loop_parsing (idle : Idle se) (parsing : se.state = .sess_parsing) (fuel : Nat) {ret : Int}
    (ran : atm_sess_process_loop siphash c (fuel+3) srv se = .ok (ret,srv',se')) :
    ret = ATM_OK ∧ Idle se' ∧ ∃ srv₁ line, atm_conn_read_line srv c = .ok (srv₁,line) ∧
      ((line = none ∧ srv' = srv₁ ∧ se'.executed = se.executed) ∨
        ∃ s se₁ se₂, line = some s ∧ Request siphash srv₁ s se₁ ∧
          atm_sess_process_cmd siphash srv₁ c se₁ = .ok (srv',se₂) ∧
          se'.executed = se.executed ++ [s.val.take s.len]) := by
  obtain ⟨res,round,ran⟩ := bind_eq_ok.mp ran
  rw [atm_sess_round] at round
  dsimp only at round
  rw [parsing] at round
  obtain ⟨⟨srv₁,se₁⟩,parsed,same⟩ := bind_eq_ok.mp round
  cases same
  obtain ⟨⟨srv₂,line⟩,read,parsed⟩ := bind_eq_ok.mp parsed
  cases line with
  | none =>
    cases parsed
    cases ran
    exact ⟨rfl,⟨.inr rfl,idle.cmd,idle.argc,idle.argv⟩,_,none,read,.inl ⟨rfl,rfl,rfl⟩⟩
  | some s =>
    obtain ⟨se₂,split,parsed⟩ := bind_eq_ok.mp parsed
    cases parsed
    obtain ⟨kept,request⟩ : se₂.executed = se.executed ∧ ∀ se₁ : Sess, se₁.cmd = se₂.cmd → se₁.argc = se₂.argc →
        se₁.argv = se₂.argv → Request siphash _ s se₁ := by
      rcases parse_line_cases split with ⟨words,rfl⟩ | ⟨argv,cmd,words,got,rfl⟩
      · exact ⟨rfl,fun se₁ cmd argc argv =>
          .inl ⟨words,cmd.trans idle.cmd,argc.trans idle.argc,argv.trans idle.argv⟩⟩
      · exact ⟨rfl,fun se₁ cmd' argc argv' => .inr ⟨argv,words,by rw [cmd']; exact got,argc,argv'⟩⟩
    dsimp only [atm_sess_chstat] at ran
    rw [if_pos rfl] at ran
    obtain ⟨res,round,ran⟩ := bind_eq_ok.mp ran
    obtain ⟨⟨srv₃,se₃⟩,executed,same⟩ := bind_eq_ok.mp round
    cases same
    obtain ⟨srv₄,called,done⟩ := bind_eq_ok.mp executed
    cases done
    dsimp only [atm_sess_chstat] at ran
    rw [if_pos rfl] at ran
    cases ran
    refine ⟨rfl,⟨.inl rfl,rfl,rfl,rfl⟩,srv₁,some s,read,.inr ⟨s,_,_,rfl,?_,executed,?_⟩⟩
    · exact request _ rfl rfl rfl
    · simp only [atm_sess_reset,kept]

theorem process_cases (idle : Idle se) {ret : Int} (ran : atm_sess_process siphash srv c se = .ok (ret,srv',se')) :
    ret = ATM_OK ∧ Idle se' ∧ ∃ srv₁ line, atm_conn_read_line srv c = .ok (srv₁,line) ∧
      ((line = none ∧ srv' = srv₁ ∧ se'.executed = se.executed) ∨
        ∃ s se₁ se₂, line = some s ∧ Request siphash srv₁ s se₁ ∧
          atm_sess_process_cmd siphash srv₁ c se₁ = .ok (srv',se₂) ∧
          se'.executed = se.executed ++ [s.val.take s.len]) := by
  rw [atm_sess_process] at ran
  rcases idle.state with init | parsing
  · rw [init] at ran
    obtain ⟨res,round,ran⟩ := bind_eq_ok.mp ran
    rw [atm_sess_round] at round
    dsimp only at round
    rw [init] at round
    cases round
    dsimp only [atm_sess_chstat] at ran
    rw [if_pos rfl] at ran
    have idle' : Idle (atm_sess_chstat { se with state_continue := false } .sess_parsing) :=
      ⟨.inr rfl,idle.cmd,idle.argc,idle.argv⟩
    exact loop_parsing idle' rfl 0 ran
  · rw [parsing] at ran
    exact loop_parsing idle parsing 0 ran

/-- The sessions that calls of `atm_sess_process` lead to, whatever the other threads do to the
    server in between. -/
inductive Reachable (siphash : List Byte → UInt64) (c : Conn) : Sess → Prop where
  | new : Reachable siphash c atm_sess_new
  | process {srv srv' : Server} {se se' : Sess} {ret : Int} (before : Reachable siphash c se)
      (ran : atm_sess_process siphash srv c se = .ok (ret,srv',se')) : Reachable siphash c se'

theorem reachable_idle (reached : Reachable siphash c se) : Idle se := by
  induction reached with
  | new => exact new_idle
  | process _ ran ih => exact (process_cases ih ran).2.1

/-- The complete lines that a buffer holds. -/
def complete_lines (bytes : List Byte) : List (List Byte) := (frame is_newline [] false bytes).1

theorem complete_lines_eq_nil {bytes : List Byte} : complete_lines bytes = [] ↔ Open is_newline bytes := by
  constructor
  · intro nothing
    rcases split_line is_newline bytes with clean | ⟨t,r,rest,rfl,clean,filled,run,next⟩
    · exact clean
    · rw [complete_lines,frame_line clean filled run next] at nothing
      cases nothing
  · intro clean
    rw [complete_lines,frame_clean clean]

/-- A call takes the first complete line, if there is one, and executes it. -/
theorem process_takes_one (reached : Reachable siphash c se) (ok : WorldOk srv.bufs) (apart : c.r_buf ≠ c.w_buf)
    {buf : Buf} (found : get srv.bufs.bufs c.r_buf = some buf) (short : Short (2^32) (held srv.bufs.mem buf)) {ret : Int}
    (ran : atm_sess_process siphash srv c se = .ok (ret,srv',se')) :
    ∃ buf', get srv'.bufs.bufs c.r_buf = some buf' ∧
      ((complete_lines (held srv.bufs.mem buf) = [] ∧ complete_lines (held srv'.bufs.mem buf') = [] ∧
          se'.executed = se.executed) ∨
        ∃ t, complete_lines (held srv.bufs.mem buf) = t :: complete_lines (held srv'.bufs.mem buf') ∧
          se'.executed = se.executed ++ [t]) := by
  obtain ⟨_,_,srv₁,line,read,result⟩ := process_cases (reachable_idle reached) ran
  obtain ⟨read_from,buf₁,found₁,cases⟩ := conn_read_line_cases ok found short read
  rcases cases with ⟨rfl,clean,bytes⟩ | ⟨t,spare,r,rest,rfl,_,_,cut,clean,filled,run,next,left⟩
  · rcases result with ⟨_,rfl,kept⟩ | ⟨s,_,_,absent,_⟩
    · have nothing := complete_lines_eq_nil.mpr clean
      exact ⟨buf₁,found₁,.inl ⟨nothing,by rw [bytes,nothing],kept⟩⟩
    · cases absent
  · rcases result with ⟨absent,_⟩ | ⟨s',se₁,se₂,same,_,executed,trace⟩
    · cases absent
    · cases same
      have kept := process_cmd_untouched read_from.ok apart executed
      have text : (made t spare).val.take (made t spare).len = t := List.take_left
      refine ⟨buf₁,kept.same.trans found₁,.inr ⟨t,?_,by rw [trace,text]⟩⟩
      rw [kept.bytes buf₁ found₁,left,cut,complete_lines,frame_line clean filled run next]
      rfl

/-- A call of `atm_sess_process` that returns leaves no complete line behind, and has executed all
    lines in order, exactly when at most one was held. -/
theorem process_all_iff (reached : Reachable siphash c se) (ok : WorldOk srv.bufs) (apart : c.r_buf ≠ c.w_buf)
    {buf : Buf} (found : get srv.bufs.bufs c.r_buf = some buf) (short : Short (2^32) (held srv.bufs.mem buf))
    (ran : atm_sess_process siphash srv c se = .ok (ATM_OK,srv',se')) :
    (∃ buf', get srv'.bufs.bufs c.r_buf = some buf' ∧ complete_lines (held srv'.bufs.mem buf') = [] ∧
        se'.executed = se.executed ++ complete_lines (held srv.bufs.mem buf)) ↔
      (complete_lines (held srv.bufs.mem buf)).length ≤ 1 := by
  obtain ⟨buf₁,found₁,⟨before,after,kept⟩ | ⟨t,before,trace⟩⟩ := process_takes_one reached ok apart found short ran
  · rw [before]
    exact ⟨fun _ => Nat.zero_le 1,fun _ => ⟨buf₁,found₁,after,by rw [kept,List.append_nil]⟩⟩
  · rw [before]
    constructor
    · rintro ⟨buf',there,nothing,_⟩
      obtain rfl : buf₁ = buf' := Option.some.inj (found₁.symm.trans there)
      simp [nothing]
    · intro one
      rw [List.length_cons] at one
      have nothing : complete_lines (held srv'.bufs.mem buf₁) = [] := List.length_eq_zero_iff.mp (by omega)
      exact ⟨buf₁,found₁,nothing,by rw [trace,nothing]⟩

/-! ### Two requests at once -/

/-- A hash function without any spread. -/
def zero_hash : List Byte → UInt64 := fun _ => 0

theorem conn_write_ok (ok : WorldOk srv.bufs) {buf : Buf} (found : get srv.bufs.bufs c.w_buf = some buf)
    {src : List Byte} (short : src.length < 2^31) : ∃ srv', atm_conn_write srv c src = .ok srv' := by
  obtain ⟨blks,view⟩ := world_view ok found
  obtain ⟨m',buf',blks',wrote,_⟩ := write_loop_ok (src.length+1) src 0 view (Nat.lt_succ_self _)
  have is : srv.bufs.buf c.w_buf = .ok buf := by rw [World.buf,found]
  refine ⟨{ srv with bufs := ⟨m',put srv.bufs.bufs c.w_buf buf'⟩ },?_⟩
  rw [atm_conn_write,World.on,is,ok_bind,atm_buf_write,if_pos short,wrote]
  rfl

/-- The string `"a"` -/
def word : Str := ⟨7,1,[97,0,0,0,0,0,0,0]⟩

/-- A line with an unknown command gets a reply, and the call returns. -/
theorem process_unknown {w : World} (ok : WorldOk w) {r_buf w_buf : Buf} (found : get w.bufs 0 = some r_buf)
    (other : get w.bufs 1 = some w_buf) (rest : List Byte) (bytes : held w.mem r_buf = [97] ++ [10] ++ rest)
    (next : ∀ x ∈ rest.head?, is_newline x = false) {cmds : Dict.Dictionary (Option Str) Cmd}
    (unknown : Dict.atm_dict_get (ATM_STR_T zero_hash) cmds (some word) = .ok none) (cache : Dict.Dictionary Obj Obj) :
    ∃ srv' se', atm_sess_process zero_hash ⟨w,cache,cmds⟩ ⟨0,1⟩ atm_sess_new = .ok (ATM_OK,srv',se') := by
  obtain ⟨blks,view⟩ := world_view ok found
  obtain ⟨m₁,buf₁,blks₁,got,taken⟩ := read_line_some view.cursors ((held_of_chain view.cells).symm.trans bytes)
    (List.forall_mem_singleton.mpr rfl) (by decide) (List.forall_mem_singleton.mpr rfl) next
    (by decide)
  have ok₁ : WorldOk ⟨m₁,put w.bufs 0 buf₁⟩ := world_put ok found view (taken.moved view)
  have other₁ : get (put w.bufs 0 buf₁) 1 = some w_buf := (get_put_other _ (by decide) _).trans other
  have read : atm_conn_read_line ⟨w,cache,cmds⟩ ⟨0,1⟩ = .ok (⟨⟨m₁,put w.bufs 0 buf₁⟩,cache,cmds⟩,some word) := by
    have is : w.buf 0 = .ok r_buf := by rw [World.buf,found]
    have made' : str_new_of ([97] ++ 0 :: List.replicate 1 0) = .ok (some word) := by decide
    rw [atm_conn_read_line,is,ok_bind,got,ok_bind]
    dsimp only
    rw [List.length_singleton,made']
    rfl
  have parsed : ∀ se, parse_line zero_hash ⟨⟨m₁,put w.bufs 0 buf₁⟩,cache,cmds⟩ word se =
      .ok { se with argc := 1, argv := some [some word,none], cmd := none } := by
    intro se
    have split : atm_str_split word.val 32 word.len = .ok (some [some word,none]) := by decide
    rw [parse_line,split,ok_bind]
    dsimp only
    have asked : atm_cmd_getcmd zero_hash ⟨⟨m₁,put w.bufs 0 buf₁⟩,cache,cmds⟩ ([some word,none].head?.join) = .ok none := unknown
    rw [asked]
    rfl
  have replies : ∀ srv : Server, atm_sess_reply srv ⟨0,1⟩ invalid_cmd = atm_conn_write srv ⟨0,1⟩ (invalid_cmd ++ newline) := by
    intro srv
    rfl
  obtain ⟨srv₂,wrote⟩ : ∃ srv', atm_conn_write ⟨⟨m₁,put w.bufs 0 buf₁⟩,cache,cmds⟩ ⟨0,1⟩ (invalid_cmd ++ newline) = .ok srv' :=
    conn_write_ok ok₁ other₁ (by decide)
  have second : atm_sess_round zero_hash ⟨w,cache,cmds⟩ ⟨0,1⟩ (atm_sess_chstat atm_sess_new .sess_parsing) =
      .ok (some (⟨⟨m₁,put w.bufs 0 buf₁⟩,cache,cmds⟩,
        ⟨.sess_process_cmd,true,none,1,some [some word,none],[97],[]⟩)) := by
    show (atm_sess_parsing zero_hash ⟨w,cache,cmds⟩ ⟨0,1⟩ _ >>= fun res => .ok (some res)) = _
    rw [atm_sess_parsing,read,ok_bind]
    dsimp only
    rw [parsed]
    rfl
  have third : atm_sess_round zero_hash ⟨⟨m₁,put w.bufs 0 buf₁⟩,cache,cmds⟩ ⟨0,1⟩
      ⟨.sess_process_cmd,true,none,1,some [some word,none],[97],[]⟩ =
      .ok (some (srv₂,⟨.sess_finish,true,none,1,some [some word,none],[97],[[97]]⟩)) := by
    show (atm_sess_process_cmd zero_hash ⟨⟨m₁,put w.bufs 0 buf₁⟩,cache,cmds⟩ ⟨0,1⟩ _ >>= fun res => .ok (some res)) = _
    rw [atm_sess_process_cmd]
    show ((atm_sess_reply ⟨⟨m₁,put w.bufs 0 buf₁⟩,cache,cmds⟩ ⟨0,1⟩ invalid_cmd >>= _) >>= _) = _
    rw [replies,wrote]
    rfl
  refine ⟨srv₂,⟨.sess_init,false,none,0,none,[97],[[97]]⟩,?_⟩
  show atm_sess_process_loop zero_hash ⟨0,1⟩ 3 ⟨w,cache,cmds⟩ (atm_sess_chstat atm_sess_new .sess_parsing) = _
  rw [atm_sess_process_loop,second,ok_bind]
  show atm_sess_process_loop zero_hash ⟨0,1⟩ 2 ⟨⟨m₁,put w.bufs 0 buf₁⟩,cache,cmds⟩
      ⟨.sess_process_cmd,true,none,1,some [some word,none],[97],[]⟩ = _
  rw [atm_sess_process_loop,third,ok_bind]
  rfl

/-- Two new buffers, and bytes that have arrived in the first one. -/
theorem arrived (bytes : List Byte) (short : bytes.length < 2^31) : ∃ w r_buf w_buf,
    run Buffers.step world [.new,.new,.write 0 bytes] = .ok w ∧ WorldOk w ∧ get w.bufs 0 = some r_buf ∧
      get w.bufs 1 = some w_buf ∧ held w.mem r_buf = bytes := by
  have ok : WorldOk ⟨⟨[],[]⟩,[some atm_buf_new,some atm_buf_new]⟩ := world_new (world_new world_start)
  have found : get (⟨⟨[],[]⟩,[some atm_buf_new,some atm_buf_new]⟩ : World).bufs 0 = some atm_buf_new := rfl
  obtain ⟨blks,view⟩ := world_view ok found
  have empty : held_in blks = [] := (held_of_chain view.cells).symm
  obtain ⟨m',buf',blks',wrote,moved⟩ := write_loop_ok (bytes.length+1) bytes 0 view (Nat.lt_succ_self _)
  refine ⟨_,buf',atm_buf_new,?_,world_put ok found view moved,get_put_self found buf',get_put_other _ (by decide) _,?_⟩
  · show (Buffers.step ⟨⟨[],[]⟩,[some atm_buf_new,some atm_buf_new]⟩ (.write 0 bytes) >>= fun w => .ok w) = _
    have is : World.buf ⟨⟨[],[]⟩,[some atm_buf_new,some atm_buf_new]⟩ 0 = .ok atm_buf_new := rfl
    rw [Buffers.step,perform,World.on,is,ok_bind,atm_buf_write,if_pos short,wrote]
    rfl
  · have kept := moved.held
    rw [empty,List.nil_append,List.nil_append] at kept
    exact (held_of_chain moved.view.cells).trans kept.symm

/-- The commands of the server; `"a"` is none of them. -/
theorem word_unknown : ∃ cmds, atm_cmd_init zero_hash = .ok cmds ∧
    Dict.atm_dict_get (ATM_STR_T zero_hash) cmds (some word) = .ok none := by
  have both : (atm_cmd_init zero_hash >>= fun d => Dict.atm_dict_get (ATM_STR_T zero_hash) d (some word)) = .ok none := by
    decide +kernel
  exact bind_eq_ok.mp both

theorem process_all_iff_one : ∃ w cmds srv' se' buf', run Buffers.step world [.new,.new,.write 0 [97,10]] = .ok w ∧
    atm_sess_process zero_hash ⟨w,Dict.atm_dict_new .deep,cmds⟩ ⟨0,1⟩ atm_sess_new = .ok (ATM_OK,srv',se') ∧
      get srv'.bufs.bufs 0 = some buf' ∧ complete_lines (held srv'.bufs.mem buf') = [] ∧ se'.executed = [[97]] := by
  obtain ⟨w,r_buf,w_buf,made',ok,found,other,bytes⟩ := arrived [97,10] (by decide)
  obtain ⟨cmds,_,unknown⟩ := word_unknown
  obtain ⟨srv',se',ran⟩ := process_unknown ok found other [] bytes (fun _ none => (by cases none)) unknown
    (Dict.atm_dict_new .deep)
  have short : Short (2^32) (held w.mem r_buf) := by
    rw [bytes]
    exact short_of_length (by decide)
  have one : (complete_lines (held w.mem r_buf)).length ≤ 1 := by
    rw [bytes]
    decide
  obtain ⟨buf',there,nothing,trace⟩ := (process_all_iff .new ok (by decide) found short ran).mpr one
  refine ⟨w,cmds,srv',se',buf',made',ran,there,nothing,?_⟩
  rw [trace,bytes]
  decide

/-- Of two requests that are held the second one stays, although the call returns. -/
theorem second_request_stays : ∃ w cmds srv' se' buf', run Buffers.step world [.new,.new,.write 0 [97,10,98,10]] = .ok w ∧
    atm_cmd_init zero_hash = .ok cmds ∧
      atm_sess_process zero_hash ⟨w,Dict.atm_dict_new .deep,cmds⟩ ⟨0,1⟩ atm_sess_new = .ok (ATM_OK,srv',se') ∧
        get srv'.bufs.bufs 0 = some buf' ∧ complete_lines (held srv'.bufs.mem buf') = [[98]] ∧ se'.executed = [[97]] := by
  obtain ⟨w,r_buf,w_buf,made',ok,found,other,bytes⟩ := arrived [97,10,98,10] (by decide)
  obtain ⟨cmds,started,unknown⟩ := word_unknown
  obtain ⟨srv',se',ran⟩ := process_unknown ok found other [98,10] bytes (fun x member => by cases member; rfl) unknown
    (Dict.atm_dict_new .deep)
  have short : Short (2^32) (held w.mem r_buf) := by
    rw [bytes]
    exact short_of_length (by decide)
  have both : complete_lines (held w.mem r_buf) = [[97],[98]] := by
    rw [bytes]
    decide
  obtain ⟨buf',there,taken⟩ := process_takes_one .new ok (by decide) found short ran
  rw [both] at taken
  rcases taken with ⟨nothing,_⟩ | ⟨t,lines,trace⟩
  · cases nothing
  · obtain ⟨first,others⟩ := List.cons.inj lines
    exact ⟨w,cmds,srv',se',buf',made',started,ran,there,others.symm,by rw [trace,← first]; rfl⟩

end AtmCache.Session
