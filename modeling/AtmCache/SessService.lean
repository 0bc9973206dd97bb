import AtmCache.SessStore

/-!
# The service over many connections

Connections are accepted, read, written and closed in any order, and every read task lets the session of its
connection take one line. Whatever the order, the answers are those of one store of words that serves
the executed lines one by one (`service_answers`, `service_linear`), each connection has executed the
first lines of its stream, and its socket has been sent the beginning of its answers.
-/
namespace AtmCache.Session
open Buffers CStrings Heap Lines Runs Strings

/-- A connection with its session. -/
structure Client where
  conn : Conn
  se : Sess
  deriving DecidableEq, Repr

/-- The server, all connections ever accepted, freed ones as `none`, and a record of the executed lines with
    the connection of each. -/
structure Service where
  srv : Server
  clients : List (Option Client)
  history : List (Nat × List Byte)
  deriving DecidableEq, Repr

/-- The tasks of the workers. `src` is what `read()` returns and `again` tells whether an error is `EAGAIN`; `dest` is
    what `write()` takes. -/
inductive Event where
  | accept
  | read (i : Nat) (src : List Segment) (again : Bool)
  | write (i : Nat) (dest : List Accept)
  | close (i : Nat)
  deriving DecidableEq, Repr

def service (cmds : Dict.Dictionary (Option Str) Cmd) : Service := ⟨⟨world,Dict.atm_dict_new .deep,cmds⟩,[],[]⟩

def Service.client (s : Service) (i : Nat) : Except Fault Client :=
  match get s.clients i with
  | some cl => .ok cl
  | none => .error .useAfterFree

/-- `r_buf` and `w_buf` are new buffers. -/
def atm_conn_new (srv : Server) : Except Fault (Server × Conn) := do
  let b := srv.bufs.bufs.length
  let bufs ← Buffers.step (← Buffers.step srv.bufs .new) .new
  return ({ srv with bufs := bufs },⟨b,b + 1⟩)

def atm_conn_free (srv : Server) (c : Conn) : Except Fault Server := do
  let bufs ← Buffers.step (← Buffers.step srv.bufs (.free c.r_buf)) (.free c.w_buf)
  return { srv with bufs := bufs }

section
variable (siphash : List Byte → UInt64)

/-- The read task of an active connection: nothing is processed at the end of the stream or after an error. -/
def atm_conn_task_read (srv : Server) (cl : Client) (src : List Segment) (again : Bool) : Except Fault (Server × Sess) := do
  let (bufs,out) ← srv.bufs.on cl.conn.r_buf (fun m buf => atm_buf_read_sock m buf src)
  let srv := { srv with bufs := bufs }
  if (out.ret = -1 ∧ again = false) ∨ out.ret = 0 then return (srv,cl.se)
  else
    let (_,srv,se) ← atm_sess_process siphash srv cl.conn cl.se
    return (srv,se)

/-- The write task; besides the server, the bytes that `write()` took. -/
def atm_conn_task_write_raw (srv : Server) (cl : Client) (dest : List Accept) : Except Fault (Server × List Byte) := do
  let (bufs,out) ← srv.bufs.on cl.conn.w_buf (fun m buf => atm_buf_write_sock m buf dest)
  return ({ srv with bufs := bufs },out.dest)

def service_write (s : Service) (i : Nat) (dest : List Accept) : Except Fault (Service × List Byte) := do
  let cl ← s.client i
  let (srv,sent) ← atm_conn_task_write_raw s.srv cl dest
  return ({ s with srv := srv },sent)

/-- The lines that a session has executed since. -/
def executed_since (i : Nat) (se se' : Sess) : List (Nat × List Byte) :=
  (se'.executed.drop se.executed.length).map (fun t => (i,t))

/-- One event. Each task is one step here: two read tasks of one session, which a hangup can start, do not overlap. -/
def service_step (s : Service) : Event → Except Fault Service
  | .accept => do
    let (srv,conn) ← atm_conn_new s.srv
    return { s with srv := srv, clients := alloc s.clients ⟨conn,atm_sess_new⟩ }
  | .read i src again => do
    let cl ← s.client i
    let (srv,se) ← atm_conn_task_read siphash s.srv cl src again
    return ⟨srv,put s.clients i { cl with se := se },s.history ++ executed_since i cl.se se⟩
  | .write i dest => do return (← service_write s i dest).1
  | .close i => do
    let cl ← s.client i
    return { s with srv := ← atm_conn_free s.srv cl.conn, clients := free s.clients i }

end

/-! ### What the service is for -/

/-- The entries of one connection. -/
def of_client (i : Nat) (h : List (Nat × List Byte)) : List (List Byte) := (h.filter (fun e => e.1 = i)).map Prod.snd

def queries (h : List (Nat × List Byte)) : List Query := h.map (fun e => query e.2)

/-- The answers of a store that serves the lines one after the other. -/
def serve (f : Store) : List (Nat × List Byte) → List (Nat × List Byte)
  | [] => []
  | (i,t) :: h => (i,reply f (query t)) :: serve (update f (query t)) h

/-- Each line has an answer, from a store that may be earlier than the lines before it. -/
inductive Answered : List (Nat × List Byte) → List (Nat × List Byte) → Prop
  | nil : Answered [] []
  | snoc {h rs : List (Nat × List Byte)} {i : Nat} {t : List Byte} {seen : List Query} (before : Answered h rs)
      (sees : Sees (queries h) seen (query t)) : Answered (h ++ [(i,t)]) (rs ++ [(i,reply (store seen) (query t))])

/-- A stream is some lines with their line ends. -/
def Cut (stream : List Byte) (lines : List (List Byte)) : Prop :=
  ∃ ends : List (List Byte), ends.length = lines.length ∧ (∀ t ∈ lines, Open is_newline t) ∧
    (∀ r ∈ ends, r ≠ [] ∧ Run is_newline r) ∧ stream = (List.zipWith (· ++ ·) lines ends).flatten

/-- A connection with the lines executed and the answers given so far: what was received is these lines with their ends and
    what is still held, and what was sent with what is still held is these answers. -/
def Spoken (w : World) (c : Conn) (lines answers : List (List Byte)) : Prop :=
  ∃ r_buf w_buf, get w.bufs c.r_buf = some r_buf ∧ get w.bufs c.w_buf = some w_buf ∧ Fifo w.mem r_buf ∧ Fifo w.mem w_buf ∧
    Cut r_buf.taken_out lines ∧ w_buf.put_in = answers.flatten

variable {siphash : List Byte → UInt64} {srv srv' : Server} {c : Conn} {se se' : Sess} {h rs : List (Nat × List Byte)}

theorem serve_append (f : Store) (h h' : List (Nat × List Byte)) :
    serve f (h ++ h') = serve f h ++ serve ((queries h).foldl update f) h' := by
  induction h generalizing f with
  | nil => rfl
  | cons e h ih => simp only [List.cons_append,serve,ih,queries,List.map_cons,List.foldl_cons]

theorem FewKeys.mono {h h' : List Query} (few : FewKeys h') (isPre : h <+: h') : FewKeys h := by
  obtain ⟨ks,listed,length⟩ := few
  exact ⟨ks,fun k v member => listed k v (isPre.subset member),length⟩

theorem queries_append (h h' : List (Nat × List Byte)) : queries (h ++ h') = queries h ++ queries h' := List.map_append

/-- While few words are set, the answers are those of one store. -/
theorem answered_serve (answered : Answered h rs) (few : FewKeys (queries h)) : rs = serve (fun _ => none) h := by
  induction answered with
  | nil => rfl
  | snoc before sees ih =>
    rw [queries_append] at few
    have earlier := few.mono (List.prefix_append _ _)
    rw [serve_append,← ih earlier,sees.exact earlier]
    rfl

theorem of_client_append (i : Nat) (h h' : List (Nat × List Byte)) :
    of_client i (h ++ h') = of_client i h ++ of_client i h' := by
  rw [of_client,List.filter_append,List.map_append,of_client,of_client]

theorem of_client_self (i : Nat) (t : List Byte) : of_client i [(i,t)] = [t] := by
  simp [of_client]

theorem cut_nil : Cut [] [] := ⟨[],rfl,fun _ member => (by cases member),fun _ member => (by cases member),rfl⟩

theorem cut_line {stream t r : List Byte} {lines : List (List Byte)} (cut : Cut stream lines) (clean : Open is_newline t)
    (filled : r ≠ []) (run : Run is_newline r) : Cut (stream ++ (t ++ r)) (lines ++ [t]) := by
  obtain ⟨ends,length,cleans,runs,rfl⟩ := cut
  refine ⟨ends ++ [r],by simp [length],fun x member => ?_,fun x member => ?_,?_⟩
  · rcases List.mem_append.mp member with old | new
    · exact cleans x old
    · cases List.mem_singleton.mp new
      exact clean
  · rcases List.mem_append.mp member with old | new
    · exact runs x old
    · cases List.mem_singleton.mp new
      exact ⟨filled,run⟩
  · rw [List.zipWith_append length.symm]
    simp

/-! ### Moves in one buffer -/

/-- Bytes have moved through one buffer, and the others are as before. -/
structure Carried (w w' : World) (b : Nat) (buf buf' : Buf) (out inn : List Byte) : Prop where
  ok : WorldOk w'
  here : get w'.bufs b = some buf'
  put : buf'.put_in = buf.put_in ++ inn
  taken : buf'.taken_out = buf.taken_out ++ out
  count : w'.bufs.length = w.bufs.length
  same : ∀ b', b' ≠ b → get w'.bufs b' = get w.bufs b'

variable {w w' : World} {b : Nat} {buf buf' : Buf} {out inn : List Byte}

theorem moved_carried (ok : WorldOk w) (found : get w.bufs b = some buf) {m' : Mem} {blks blks' : List Blk}
    (view : View (addresses (free w.bufs b)) w.mem buf blks)
    (moved : Moved (addresses (free w.bufs b)) w.mem buf blks out inn m' buf' blks') :
    Carried w ⟨m',put w.bufs b buf'⟩ b buf buf' out inn where
  ok := world_put ok found view moved
  here := get_put_self found buf'
  put := moved.put
  taken := moved.taken
  count := put_length ..
  same := fun _ other => get_put_other _ other _

/-- What is held follows from what was put in and taken out. -/
theorem carried_held (ok : WorldOk w) (found : get w.bufs b = some buf) (carried : Carried w w' b buf buf' out inn) :
    held w.mem buf ++ inn = out ++ held w'.mem buf' := by
  have before := (ok.fifos b buf found).order
  have after := (carried.ok.fifos b buf' carried.here).order
  rw [carried.put,carried.taken,before,List.append_assoc,List.append_assoc] at after
  exact List.append_cancel_left after

theorem read_sock_carried (ok : WorldOk w) (found : get w.bufs b = some buf) (src : List Segment) :
    ∃ w' res buf', w.on b (fun m buf => atm_buf_read_sock m buf src) = .ok (w',res) ∧
      Carried w w' b buf buf' [] (delivered src) := by
  obtain ⟨blks,view⟩ := world_view ok found
  obtain ⟨m',buf',blks',res,ran,moved,_⟩ := read_sock_loop_ok (script_bound src) src 0 [] view (Nat.le_refl _) List.not_mem_nil
  have there : w.buf b = .ok buf := by rw [World.buf,found]
  refine ⟨_,res,buf',?_,moved_carried ok found view moved⟩
  rw [World.on,there,ok_bind,atm_buf_read_sock,ran]
  rfl

theorem write_sock_carried (ok : WorldOk w) (found : get w.bufs b = some buf) (dest : List Accept) :
    ∃ w' res buf', w.on b (fun m buf => atm_buf_write_sock m buf dest) = .ok (w',res) ∧
      Carried w w' b buf buf' res.dest [] := by
  obtain ⟨blks,view⟩ := world_view ok found
  obtain ⟨m',buf',blks',res,bytes,ran,moved,_,sent⟩ := write_sock_loop_ok (dest.length+1) dest [] 0 0 view (Nat.lt_succ_self _)
  have there : w.buf b = .ok buf := by rw [World.buf,found]
  obtain rfl : res.dest = bytes := sent
  refine ⟨_,res,buf',?_,moved_carried ok found view moved⟩
  rw [World.on,there,ok_bind,atm_buf_write_sock,ran]
  rfl

theorem conn_write_carried (ok : WorldOk srv.bufs) {src : List Byte} (wrote : atm_conn_write srv c src = .ok srv') :
    ∃ buf buf', get srv.bufs.bufs c.w_buf = some buf ∧ Carried srv.bufs srv'.bufs c.w_buf buf buf' [] src := by
  obtain ⟨buf,blks,m',buf',blks',found,view,moved,rfl⟩ := conn_write_moves ok wrote
  exact ⟨buf,buf',found,moved_carried ok found view moved⟩

/-- A line leaves the read buffer with its line ends; without a complete line nothing leaves it. -/
theorem conn_read_line_carried (ok : WorldOk srv.bufs) (found : get srv.bufs.bufs c.r_buf = some buf)
    (short : Short (2^31) (held srv.bufs.mem buf)) :
    ∃ srv' line buf' out, atm_conn_read_line srv c = .ok (srv',line) ∧ Carried srv.bufs srv'.bufs c.r_buf buf buf' out [] ∧
      srv'.cache_dict = srv.cache_dict ∧ srv'.cmd_dict = srv.cmd_dict ∧
        ((line = none ∧ Open is_newline (held srv.bufs.mem buf) ∧ out = []) ∨
          ∃ t spare r, line = some (made t spare) ∧ out = t ++ r ∧ Open is_newline t ∧ r ≠ [] ∧ Run is_newline r ∧
            (complete_lines (held srv.bufs.mem buf)).head? = some t ∧ t ++ r <:+: held srv.bufs.mem buf) := by
  have is : srv.bufs.buf c.r_buf = .ok buf := by rw [World.buf,found]
  obtain ⟨blks,view⟩ := world_view ok found
  have bytes : held srv.bufs.mem buf = held_in blks := held_of_chain view.cells
  rw [bytes] at short ⊢
  rw [atm_conn_read_line,is,ok_bind]
  rcases split_line is_newline (held_in blks) with clean | ⟨t,r,rest,cut,clean,filled,run,next⟩
  · rw [read_line_none view.cursors clean,ok_bind]
    exact ⟨_,none,buf,[],rfl,moved_carried ok found view (moved_refl view),rfl,rfl,.inl ⟨rfl,clean,rfl⟩⟩
  · have inside : t ++ r <:+: held_in blks := ⟨[],rest,by simp [cut]⟩
    have small := short t r clean run inside
    obtain ⟨m₁,buf₁,blks₁,got,taken⟩ := read_line_some view.cursors cut clean filled run next small
    obtain ⟨spare,made',_⟩ := Strings.new_ok (open_no_zero clean) (by omega)
    rw [got,ok_bind]
    dsimp only
    rw [str_new_of,strlen_ok (open_no_zero clean),ok_bind,List.take_left,made',ok_bind]
    refine ⟨_,_,buf₁,t ++ r,rfl,moved_carried ok found view (taken.moved view),rfl,rfl,
      .inr ⟨t,spare,r,rfl,rfl,clean,filled,run,?_,inside⟩⟩
    rw [cut,complete_lines,frame_line clean filled run next]
    rfl

/-! ### One call of a session -/

/-- The bounds of a call: lines of less than `2^28` bytes, and no bare `set` in front. -/
structure Callable (bytes : List Byte) : Prop where
  short : Short (2^28) bytes
  argued : ∀ t ∈ (complete_lines bytes).head?, query t ≠ .bare_set

/-- What a call does to the two buffers of its connection and to the cache: nothing, or it takes a line and answers it. -/
structure Turn (siphash : List Byte → UInt64) (qs : List Query) (c : Conn) (r_buf w_buf : Buf) (srv srv' : Server)
    (se se' : Sess) : Prop where
  idle : Idle se'
  ok : WorldOk srv'.bufs
  cmds : srv'.cmd_dict = srv.cmd_dict
  count : srv'.bufs.bufs.length = srv.bufs.bufs.length
  others : ∀ b, b ≠ c.r_buf → b ≠ c.w_buf → get srv'.bufs.bufs b = get srv.bufs.bufs b
  effect : ∃ r_buf' w_buf', get srv'.bufs.bufs c.r_buf = some r_buf' ∧ get srv'.bufs.bufs c.w_buf = some w_buf' ∧
    r_buf'.put_in = r_buf.put_in ∧ w_buf'.taken_out = w_buf.taken_out ∧
    ((se'.executed = se.executed ∧ r_buf'.taken_out = r_buf.taken_out ∧ w_buf'.put_in = w_buf.put_in ∧
        Cached siphash qs srv'.cache_dict) ∨
      ∃ t r seen, se'.executed = se.executed ++ [t] ∧ Sees qs seen (query t) ∧ Open is_newline t ∧ r ≠ [] ∧
        Run is_newline r ∧ r_buf'.taken_out = r_buf.taken_out ++ (t ++ r) ∧
        w_buf'.put_in = w_buf.put_in ++ reply (store seen) (query t) ∧ Cached siphash (qs ++ [query t]) srv'.cache_dict)

theorem process_turn {qs : List Query} (init : atm_cmd_init siphash = .ok srv.cmd_dict)
    (cached : Cached siphash qs srv.cache_dict) (few : qs.length < 2^27) (idle : Idle se) (ok : WorldOk srv.bufs)
    (apart : c.r_buf ≠ c.w_buf) {r_buf w_buf : Buf} (found : get srv.bufs.bufs c.r_buf = some r_buf)
    (other : get srv.bufs.bufs c.w_buf = some w_buf) (callable : Callable (held srv.bufs.mem r_buf)) :
    ∃ srv' se', atm_sess_process siphash srv c se = .ok (ATM_OK,srv',se') ∧ Turn siphash qs c r_buf w_buf srv srv' se se' := by
  have short : Short (2^31) (held srv.bufs.mem r_buf) := fun t r clean run inside =>
    Nat.lt_trans (callable.short t r clean run inside) (by decide)
  obtain ⟨srv₁,line,r_buf₁,out,read,carried,cache,cmds,cases⟩ := conn_read_line_carried ok found short
  have init₁ : atm_cmd_init siphash = .ok srv₁.cmd_dict := by rw [cmds]; exact init
  have cached₁ : Cached siphash qs srv₁.cache_dict := by rw [cache]; exact cached
  have other₁ : get srv₁.bufs.bufs c.w_buf = some w_buf := (carried.same _ apart.symm).trans other
  rcases cases with ⟨rfl,_,rfl⟩ | ⟨t,spare,r,rfl,rfl,clean,filled,run,first,inside⟩
  · obtain ⟨srv',se',ran⟩ : ∃ srv' se', atm_sess_process siphash srv c se = .ok (ATM_OK,srv',se') :=
      process_returns idle read (fun _ absent => (by cases absent)) (fun _ absent => (by cases absent))
    refine ⟨srv',se',ran,?_⟩
    obtain ⟨_,idle',srv₂,line,again,result⟩ := process_cases idle ran
    rw [read] at again
    cases again
    rcases result with ⟨_,rfl,kept⟩ | ⟨_,_,_,absent,_⟩
    · exact ⟨idle',carried.ok,cmds,carried.count,fun b ne _ => carried.same b ne,r_buf₁,w_buf,carried.here,other₁,
        by rw [carried.put,List.append_nil],rfl,.inl ⟨kept,by rw [carried.taken,List.append_nil],rfl,cached₁⟩⟩
    · cases absent
  · have length : t.length < 2^28 := by
      have := callable.short t r clean run inside
      omega
    have parses : ∀ s, some (made t spare) = some s → ∀ se, ∃ se₁, parse_line siphash srv₁ s se = .ok se₁ := by
      rintro _ ⟨⟩ se
      exact parse_total init₁ (by omega) (slots_fit (by omega)) spare se
    have answers : ∀ s, some (made t spare) = some s → ∀ se₁, Request siphash srv₁ s se₁ →
        ∃ srv', call_cmd siphash srv₁ c se₁ = .ok srv' := by
      rintro _ ⟨⟩ se₁ request
      rw [call_eq init₁ cached₁.ok clean (by omega) request]
      exact handle_total cached₁ few (callable.argued t first) carried.ok other₁
    obtain ⟨srv',se',ran⟩ := process_returns idle read parses answers
    refine ⟨srv',se',ran,?_⟩
    obtain ⟨_,idle',srv₂,line,again,result⟩ := process_cases idle ran
    rw [read] at again
    cases again
    rcases result with ⟨absent,_⟩ | ⟨s,se₁,se₂,same,request,executed,trace⟩
    · cases absent
    cases same
    obtain ⟨srv₃,called,done⟩ := bind_eq_ok.mp executed
    cases done
    rw [call_eq init₁ cached₁.ok clean (by omega) request] at called
    obtain ⟨cached',cmds',seen,srv₂,sees,bufs,wrote⟩ := handle_cached cached₁ (query_ok clean (by omega)) called
    have ok₂ : WorldOk srv₂.bufs := by rw [bufs]; exact carried.ok
    obtain ⟨w_buf₁,w_buf',found',written⟩ := conn_write_carried ok₂ wrote
    rw [bufs] at found' written
    rw [other₁] at found'
    cases found'
    have text : (made t spare).val.take (made t spare).len = t := List.take_left
    exact ⟨idle',written.ok,cmds'.trans cmds,written.count.trans carried.count,
      fun b ne ne' => (written.same b ne').trans (carried.same b ne),r_buf₁,w_buf',
      (written.same _ apart).trans carried.here,written.here,by rw [carried.put,List.append_nil],
      by rw [written.taken,List.append_nil],
      .inr ⟨t,r,seen,by rw [trace,text],sees,clean,filled,run,carried.taken,written.put,cached'⟩⟩

/-! ### The service -/

/-- The events that happen to open connections; a read finds lines that can be processed, of fewer than `2^27` in all. -/
def Within (s : Service) : Event → Prop
  | .accept => True
  | .read i src _ => s.history.length < 2^27 ∧
      ∃ cl, get s.clients i = some cl ∧ Callable (holds s.srv.bufs cl.conn.r_buf ++ delivered src)
  | .write i _ => ∃ cl, get s.clients i = some cl
  | .close i => ∃ cl, get s.clients i = some cl

/-- The buffers of each open connection are its own, its session waits for a line, and it has spoken as recorded. -/
structure ServiceOk (siphash : List Byte → UInt64) (s : Service) (rs : List (Nat × List Byte)) : Prop where
  ok : WorldOk s.srv.bufs
  init : atm_cmd_init siphash = .ok s.srv.cmd_dict
  cached : Cached siphash (queries s.history) s.srv.cache_dict
  count : s.srv.bufs.bufs.length = 2 * s.clients.length
  known : ∀ e ∈ s.history, e.1 < s.clients.length
  answered : Answered s.history rs
  clients : ∀ (i : Nat) (cl : Client), get s.clients i = some cl → cl.conn = ⟨2 * i,2 * i + 1⟩ ∧ Idle cl.se ∧
    cl.se.executed = of_client i s.history ∧ Spoken s.srv.bufs cl.conn (of_client i s.history) (of_client i rs)

/-- The bytes that came in over the socket of a connection, and those that went out. -/
def Service.inlet (s : Service) (i : Nat) : List Byte := (get s.srv.bufs.bufs (2 * i)).elim [] Buf.put_in

def Service.outlet (s : Service) (i : Nat) : List Byte := (get s.srv.bufs.bufs (2 * i + 1)).elim [] Buf.taken_out

def SameAt (s s' : Service) (i : Nat) : Prop := s'.inlet i = s.inlet i ∧ s'.outlet i = s.outlet i

/-- What an event moves over the sockets. -/
def Flow (s s' : Service) : Event → Prop
  | .accept => (∀ j < s.clients.length, SameAt s s' j) ∧ s'.inlet s.clients.length = [] ∧ s'.outlet s.clients.length = []
  | .read i src _ => s'.inlet i = s.inlet i ++ delivered src ∧ s'.outlet i = s.outlet i ∧ ∀ j, j ≠ i → SameAt s s' j
  | .write i dest => s'.inlet i = s.inlet i ∧
      (∃ sent, service_write s i dest = .ok (s',sent) ∧ s'.outlet i = s.outlet i ++ sent) ∧ ∀ j, j ≠ i → SameAt s s' j
  | .close i => ∀ j, j ≠ i → SameAt s s' j

theorem same_at {s s' : Service} {i : Nat} (first : get s'.srv.bufs.bufs (2 * i) = get s.srv.bufs.bufs (2 * i))
    (second : get s'.srv.bufs.bufs (2 * i + 1) = get s.srv.bufs.bufs (2 * i + 1)) : SameAt s s' i :=
  ⟨congrArg (·.elim [] Buf.put_in) first,congrArg (·.elim [] Buf.taken_out) second⟩

theorem inlet_of {s : Service} {i : Nat} {buf : Buf} (found : get s.srv.bufs.bufs (2 * i) = some buf) : s.inlet i = buf.put_in :=
  congrArg (·.elim [] Buf.put_in) found

theorem outlet_of {s : Service} {i : Nat} {buf : Buf} (found : get s.srv.bufs.bufs (2 * i + 1) = some buf) :
    s.outlet i = buf.taken_out := congrArg (·.elim [] Buf.taken_out) found

/-- The buffers of the others are as before. -/
theorem same_others {s s' : Service} {i : Nat} (others : ∀ b, b ≠ 2 * i → b ≠ 2 * i + 1 → get s'.srv.bufs.bufs b = get s.srv.bufs.bufs b) :
    ∀ j, j ≠ i → SameAt s s' j :=
  fun j other => same_at (others _ (by omega) (by omega)) (others _ (by omega) (by omega))

/-- A connection whose buffers are as before has spoken as before. -/
theorem spoken_same (ok : WorldOk w') {c : Conn} {lines answers : List (List Byte)} (spoken : Spoken w c lines answers)
    (first : get w'.bufs c.r_buf = get w.bufs c.r_buf) (second : get w'.bufs c.w_buf = get w.bufs c.w_buf) :
    Spoken w' c lines answers := by
  obtain ⟨r_buf,w_buf,found,other,_,_,cut,put⟩ := spoken
  rw [← first] at found
  rw [← second] at other
  exact ⟨r_buf,w_buf,found,other,ok.fifos _ _ found,ok.fifos _ _ other,cut,put⟩

theorem answered_clients (answered : Answered h rs) : rs.map Prod.fst = h.map Prod.fst := by
  induction answered with
  | nil => rfl
  | snoc before sees ih => rw [List.map_append,List.map_append,ih]; rfl

/-- A connection that was never used has no entries. -/
theorem of_client_unused {i : Nat} (unused : ∀ n ∈ h.map Prod.fst, n ≠ i) : of_client i h = [] := by
  rw [of_client,List.map_eq_nil_iff,List.filter_eq_nil_iff]
  intro e member
  simpa using unused e.1 (List.mem_map_of_mem member)

theorem of_client_none {i j : Nat} (own : ∀ e ∈ h, e.1 = i) (other : j ≠ i) : of_client j h = [] := by
  refine of_client_unused (fun n member => ?_)
  obtain ⟨e,inside,rfl⟩ := List.mem_map.mp member
  rw [own e inside]
  exact Ne.symm other

/-- A connection that is still to come was never used. -/
theorem unused_late {s : Service} (good : ServiceOk siphash s rs) {i : Nat} (late : s.clients.length ≤ i) :
    ∀ n ∈ s.history.map Prod.fst, n ≠ i := by
  rintro n member rfl
  obtain ⟨e,inside,rfl⟩ := List.mem_map.mp member
  have known := good.known e inside
  omega

theorem client_found {s : Service} {i : Nat} {cl : Client} (found : get s.clients i = some cl) : s.client i = .ok cl := by
  rw [Service.client,found]

theorem start_ok {cmds : Dict.Dictionary (Option Str) Cmd} (init : atm_cmd_init siphash = .ok cmds) :
    ServiceOk siphash (service cmds) [] :=
  ⟨world_start,init,new_cached,rfl,fun _ member => (by cases member),.nil,fun _ _ found => (by cases found)⟩

theorem accept_ok {s : Service} (good : ServiceOk siphash s rs) :
    ∃ s', service_step siphash s .accept = .ok s' ∧ ServiceOk siphash s' rs ∧ Flow s s' .accept := by
  have ok₁ := world_new good.ok
  have ok₂ := world_new ok₁
  have first : get (alloc (alloc s.srv.bufs.bufs atm_buf_new) atm_buf_new) s.srv.bufs.bufs.length = some atm_buf_new := by
    rw [get_alloc_old _ (by rw [alloc_length]; exact Nat.lt_succ_self _)]
    exact get_alloc_new ..
  have second : get (alloc (alloc s.srv.bufs.bufs atm_buf_new) atm_buf_new) (s.srv.bufs.bufs.length + 1) = some atm_buf_new := by
    rw [← alloc_length s.srv.bufs.bufs atm_buf_new]
    exact get_alloc_new ..
  have kept : ∀ b < s.srv.bufs.bufs.length,
      get (alloc (alloc s.srv.bufs.bufs atm_buf_new) atm_buf_new) b = get s.srv.bufs.bufs b := by
    intro b inside
    have wider : b < (alloc s.srv.bufs.bufs atm_buf_new).length := by
      rw [alloc_length]
      exact Nat.lt_succ_of_lt inside
    rw [get_alloc_old _ wider,get_alloc_old _ inside]
  have count := good.count
  rw [count] at first second kept
  refine ⟨_,rfl,⟨ok₂,good.init,good.cached,?_,fun e member => ?_,good.answered,fun i cl found => ?_⟩,
    fun j old => same_at (kept _ (by omega)) (kept _ (by omega)),congrArg (·.elim [] Buf.put_in) first,
    congrArg (·.elim [] Buf.taken_out) second⟩
  · have count := good.count
    simp only [alloc_length]
    omega
  · have known := good.known e member
    simp only [alloc_length]
    omega
  · rcases get_of_alloc found with ⟨rfl,rfl⟩ | old
    · have unused := unused_late good (Nat.le_refl _)
      have no_lines := of_client_unused unused
      have no_answers : of_client s.clients.length rs = [] :=
        of_client_unused (by rw [answered_clients good.answered]; exact unused)
      refine ⟨by rw [good.count],new_idle,no_lines.symm,?_⟩
      rw [no_lines,no_answers,count]
      exact ⟨_,_,first,second,ok₂.fifos _ _ first,ok₂.fifos _ _ second,cut_nil,rfl⟩
    · obtain ⟨place,idle,executed,spoken⟩ := good.clients i cl old
      have low : i < s.clients.length := get_lt old
      refine ⟨place,idle,executed,spoken_same ok₂ spoken (kept _ ?_) (kept _ ?_)⟩
      · rw [place]
        dsimp only
        omega
      · rw [place]
        dsimp only
        omega

theorem executed_none (i : Nat) (se : Sess) : executed_since i se se = [] := by
  rw [executed_since,List.drop_length]
  rfl

theorem executed_one (i : Nat) {t : List Byte} (more : se'.executed = se.executed ++ [t]) :
    executed_since i se se' = [(i,t)] := by
  rw [executed_since,more,List.drop_left]
  rfl

/-- A client is put back with its session after some entries, and the others have none of them. -/
theorem clients_put {s : Service} (good : ServiceOk siphash s rs) {i : Nat} {cl : Client} (found : get s.clients i = some cl)
    (new answers : List (Nat × List Byte)) (own : ∀ e ∈ new ++ answers, e.1 = i) (ok' : WorldOk w')
    (others : ∀ b, b ≠ cl.conn.r_buf → b ≠ cl.conn.w_buf → get w'.bufs b = get s.srv.bufs.bufs b) (idle : Idle se')
    (executed : se'.executed = of_client i (s.history ++ new))
    (spoken : Spoken w' cl.conn (of_client i (s.history ++ new)) (of_client i (rs ++ answers))) :
    ∀ (j : Nat) (cl' : Client), get (put s.clients i { cl with se := se' }) j = some cl' → cl'.conn = ⟨2 * j,2 * j + 1⟩ ∧ Idle cl'.se ∧
      cl'.se.executed = of_client j (s.history ++ new) ∧
      Spoken w' cl'.conn (of_client j (s.history ++ new)) (of_client j (rs ++ answers)) := by
  intro j cl' there
  obtain ⟨place,_⟩ := good.clients i cl found
  rcases get_of_put found there with ⟨rfl,rfl⟩ | ⟨other,old⟩
  · exact ⟨place,idle,executed,spoken⟩
  · obtain ⟨place',idle',executed',spoken'⟩ := good.clients j cl' old
    have apart : (j : Nat) ≠ i := other
    obtain ⟨lines,said⟩ := List.forall_mem_append.mp own
    rw [of_client_append,of_client_append,of_client_none lines apart,of_client_none said apart,List.append_nil,List.append_nil]
    rw [place] at others
    refine ⟨place',idle',executed',spoken_same ok' spoken' (others _ ?_ ?_) (others _ ?_ ?_)⟩
    all_goals
      rw [place']
      dsimp only
      omega

theorem read_ok {s : Service} (good : ServiceOk siphash s rs) {i : Nat} {src : List Segment} {again : Bool}
    (within : Within s (.read i src again)) :
    ∃ s' rs', service_step siphash s (.read i src again) = .ok s' ∧ ServiceOk siphash s' rs' ∧ rs <+: rs' ∧
      Flow s s' (.read i src again) := by
  obtain ⟨few,cl,found,callable⟩ := within
  obtain ⟨place,idle,executed,r_buf,w_buf,here,other,_,_,cut,said⟩ := good.clients i cl found
  have apart : cl.conn.r_buf ≠ cl.conn.w_buf := by
    rw [place]
    dsimp only
    omega
  have low := get_lt found
  have here₀ := here
  have other₀ := other
  rw [place] at here₀ other₀
  obtain ⟨w₁,out,r_buf₁,ran,carried⟩ := read_sock_carried good.ok here src
  have other₁ : get w₁.bufs cl.conn.w_buf = some w_buf := (carried.same _ apart.symm).trans other
  have taken : r_buf₁.taken_out = r_buf.taken_out := by rw [carried.taken,List.append_nil]
  rw [service_step,client_found found,ok_bind,atm_conn_task_read,ran,ok_bind]
  dsimp only
  by_cases stops : (out.ret = -1 ∧ again = false) ∨ out.ret = 0
  · rw [if_pos stops]
    refine ⟨_,rs,rfl,?_⟩
    dsimp only
    rw [executed_none]
    have each := clients_put good found [] [] (fun e member => by cases member) carried.ok
      (fun b ne _ => carried.same b ne) idle (by rw [List.append_nil]; exact executed) (by
        rw [List.append_nil,List.append_nil]
        exact ⟨r_buf₁,w_buf,carried.here,other₁,carried.ok.fifos _ _ carried.here,carried.ok.fifos _ _ other₁,
          by rw [taken]; exact cut,said⟩)
    simp only [List.append_nil] at each ⊢
    refine ⟨⟨carried.ok,good.init,good.cached,carried.count.trans (by rw [good.count,put_length]),
      fun e member => by rw [put_length]; exact good.known e member,good.answered,each⟩,List.prefix_rfl,?_⟩
    have here₁ := carried.here
    have same₁ := carried.same
    rw [place] at here₁ other₁ same₁
    refine ⟨?_,?_,same_others (fun b ne _ => same₁ b ne)⟩
    · rw [inlet_of here₀]
      exact (inlet_of here₁).trans carried.put
    · rw [outlet_of other₀]
      exact outlet_of other₁
  · rw [if_neg stops]
    have held₁ := carried_held good.ok here carried
    rw [List.nil_append,← holds_eq here] at held₁
    rw [held₁] at callable
    obtain ⟨srv',se',done,turn⟩ : ∃ srv' se',
        atm_sess_process siphash { s.srv with bufs := w₁ } cl.conn cl.se = .ok (ATM_OK,srv',se') ∧
          Turn siphash (queries s.history) cl.conn r_buf₁ w_buf { s.srv with bufs := w₁ } srv' cl.se se' :=
      @process_turn siphash { s.srv with bufs := w₁ } cl.conn cl.se (queries s.history) good.init good.cached
        (by rw [queries,List.length_map]; exact few) idle carried.ok apart r_buf₁ w_buf carried.here other₁ callable
    rw [done,ok_bind]
    obtain ⟨r_buf₂,w_buf₂,here₂,other₂,put_in,taken_out,effect⟩ := turn.effect
    have others : ∀ b, b ≠ cl.conn.r_buf → b ≠ cl.conn.w_buf → get srv'.bufs.bufs b = get s.srv.bufs.bufs b :=
      fun b ne ne' => (turn.others b ne ne').trans (carried.same b ne)
    have init' : atm_cmd_init siphash = .ok srv'.cmd_dict := by rw [turn.cmds]; exact good.init
    have count' : srv'.bufs.bufs.length = 2 * (Heap.put s.clients i { cl with se := se' }).length := by
      rw [turn.count,put_length,← good.count]
      exact carried.count
    have here₃ := here₂
    have other₃ := other₂
    have others₃ := others
    rw [place] at here₃ other₃ others₃
    have flows : ∀ clients history, Flow s ⟨srv',clients,history⟩ (.read i src again) := by
      intro clients history
      refine ⟨?_,?_,same_others others₃⟩
      · rw [inlet_of here₀]
        exact (inlet_of here₃).trans (put_in.trans carried.put)
      · rw [outlet_of other₀]
        exact (outlet_of other₃).trans taken_out
    rcases effect with ⟨kept,taken₂,put₂,cached⟩ | ⟨t,r,seen,trace,sees,clean,filled,run,taken₂,put₂,cached⟩
    · refine ⟨_,rs,rfl,?_,List.prefix_rfl,flows _ _⟩
      have nothing : executed_since i cl.se se' = [] := by
        rw [executed_since,kept,List.drop_length]
        rfl
      dsimp only
      rw [nothing]
      have each := clients_put good found [] [] (fun e member => by cases member) turn.ok others turn.idle
        (by rw [List.append_nil,kept]; exact executed) (by
          rw [List.append_nil,List.append_nil]
          exact ⟨r_buf₂,w_buf₂,here₂,other₂,turn.ok.fifos _ _ here₂,turn.ok.fifos _ _ other₂,
            by rw [taken₂,taken]; exact cut,put₂.trans said⟩)
      simp only [List.append_nil] at each ⊢
      exact ⟨turn.ok,init',cached,count',fun e member => by rw [put_length]; exact good.known e member,good.answered,each⟩
    · refine ⟨_,rs ++ [(i,reply (store seen) (query t))],rfl,?_,List.prefix_append _ _,flows _ _⟩
      dsimp only
      rw [executed_one i trace]
      have each := clients_put good found [(i,t)] [(i,reply (store seen) (query t))]
        (fun e member => by
          rcases List.mem_append.mp member with own | own
          · cases List.mem_singleton.mp own
            rfl
          · cases List.mem_singleton.mp own
            rfl) turn.ok others turn.idle (by rw [of_client_append,of_client_self,trace,executed]) (by
          rw [of_client_append,of_client_append,of_client_self,of_client_self]
          exact ⟨r_buf₂,w_buf₂,here₂,other₂,turn.ok.fifos _ _ here₂,turn.ok.fifos _ _ other₂,
            by rw [taken₂,taken]; exact cut_line cut clean filled run,
            by rw [put₂,said,List.flatten_append,List.flatten_singleton]⟩)
      refine ⟨turn.ok,init',by rw [queries_append]; exact cached,count',fun e member => ?_,good.answered.snoc sees,each⟩
      rw [put_length]
      rcases List.mem_append.mp member with old | new
      · exact good.known e old
      · cases List.mem_singleton.mp new
        exact low

theorem write_ok {s : Service} (good : ServiceOk siphash s rs) {i : Nat} {dest : List Accept}
    (within : Within s (.write i dest)) :
    ∃ s', service_step siphash s (.write i dest) = .ok s' ∧ ServiceOk siphash s' rs ∧ Flow s s' (.write i dest) := by
  obtain ⟨cl,found⟩ := within
  obtain ⟨place,idle,executed,r_buf,w_buf,here,other,_,_,cut,said⟩ := good.clients i cl found
  have apart : cl.conn.r_buf ≠ cl.conn.w_buf := by
    rw [place]
    dsimp only
    omega
  obtain ⟨w₁,out,w_buf₁,ran,carried⟩ := write_sock_carried good.ok other dest
  have here₁ : get w₁.bufs cl.conn.r_buf = some r_buf := (carried.same _ apart).trans here
  have each := clients_put good found [] [] (fun e member => by cases member) carried.ok
    (fun b _ ne => carried.same b ne) idle (by rw [List.append_nil]; exact executed) (by
      rw [List.append_nil,List.append_nil]
      exact ⟨r_buf,w_buf₁,here₁,carried.here,carried.ok.fifos _ _ here₁,carried.ok.fifos _ _ carried.here,cut,
        by rw [carried.put,List.append_nil]; exact said⟩)
  rw [show ({ cl with se := cl.se } : Client) = cl from rfl,put_same found] at each
  simp only [List.append_nil] at each
  have wrote : service_write s i dest = .ok ({ s with srv := { s.srv with bufs := w₁ } },out.dest) := by
    rw [service_write,client_found found,ok_bind,atm_conn_task_write_raw,ran]
    rfl
  refine ⟨{ s with srv := { s.srv with bufs := w₁ } },?_,⟨carried.ok,good.init,good.cached,carried.count.trans good.count,
    good.known,good.answered,each⟩,?_⟩
  · rw [service_step,wrote]
    rfl
  · have there := carried.here
    have same := carried.same
    rw [place] at here other here₁ there same
    refine ⟨?_,?_,same_others (fun b _ ne => same b ne)⟩
    · rw [inlet_of here]
      exact inlet_of here₁
    · rw [outlet_of other]
      exact ⟨out.dest,wrote,(outlet_of there).trans carried.taken⟩

theorem free_step (ok : WorldOk w) (found : get w.bufs b = some buf) :
    ∃ w', Buffers.step w (.free b) = .ok w' ∧ WorldOk w' ∧ w'.bufs = free w.bufs b := by
  obtain ⟨m',freed,ok'⟩ := world_free ok found
  refine ⟨⟨m',free w.bufs b⟩,?_,ok',rfl⟩
  rw [Buffers.step,perform,World.buf,found,ok_bind,freed]
  rfl

theorem close_ok {s : Service} (good : ServiceOk siphash s rs) {i : Nat} (within : Within s (.close i)) :
    ∃ s', service_step siphash s (.close i) = .ok s' ∧ ServiceOk siphash s' rs ∧ Flow s s' (.close i) := by
  obtain ⟨cl,found⟩ := within
  obtain ⟨place,_,_,r_buf,w_buf,here,other,_⟩ := good.clients i cl found
  have apart : cl.conn.w_buf ≠ cl.conn.r_buf := by
    rw [place]
    dsimp only
    omega
  obtain ⟨w₁,freed₁,ok₁,bufs₁⟩ := free_step good.ok here
  have other₁ : get w₁.bufs cl.conn.w_buf = some w_buf := by
    rw [bufs₁,get_free_other _ apart]
    exact other
  obtain ⟨w₂,freed₂,ok₂,bufs₂⟩ := free_step ok₁ other₁
  have kept : ∀ b, b ≠ cl.conn.r_buf → b ≠ cl.conn.w_buf → get w₂.bufs b = get s.srv.bufs.bufs b := by
    intro b ne ne'
    rw [bufs₂,get_free_other _ ne',bufs₁,get_free_other _ ne]
  rw [place] at kept
  refine ⟨{ s with srv := { s.srv with bufs := w₂ }, clients := free s.clients i },?_,⟨ok₂,good.init,good.cached,?_,
    fun e member => ?_,good.answered,fun j cl' there => ?_⟩,same_others kept⟩
  · rw [service_step,client_found found,ok_bind,atm_conn_free,freed₁,ok_bind,freed₂]
    rfl
  · dsimp only
    rw [bufs₂,bufs₁,free_length,free_length,free_length]
    exact good.count
  · dsimp only
    rw [free_length]
    exact good.known e member
  · obtain ⟨ne,old⟩ := get_of_free there
    obtain ⟨place',idle',executed',spoken'⟩ := good.clients j cl' old
    have other : (j : Nat) ≠ i := ne
    refine ⟨place',idle',executed',spoken_same ok₂ spoken' (kept _ ?_ ?_) (kept _ ?_ ?_)⟩
    all_goals
      rw [place']
      dsimp only
      omega

theorem event_ok {s : Service} (good : ServiceOk siphash s rs) {e : Event} (within : Within s e) :
    ∃ s' rs', service_step siphash s e = .ok s' ∧ ServiceOk siphash s' rs' ∧ rs <+: rs' ∧ Flow s s' e := by
  cases e with
  | accept =>
    obtain ⟨s',done,good',flow⟩ := accept_ok good
    exact ⟨s',rs,done,good',List.prefix_rfl,flow⟩
  | read i src again => exact read_ok good within
  | write i dest =>
    obtain ⟨s',done,good',flow⟩ := write_ok good within
    exact ⟨s',rs,done,good',List.prefix_rfl,flow⟩
  | close i =>
    obtain ⟨s',done,good',flow⟩ := close_ok good within
    exact ⟨s',rs,done,good',List.prefix_rfl,flow⟩

theorem service_ok {cmds : Dict.Dictionary (Option Str) Cmd} (init : atm_cmd_init siphash = .ok cmds) {events : List Event}
    (within : EachStep (service_step siphash) (service cmds) events Within) :
    (∃ s, run (service_step siphash) (service cmds) events = .ok s) ∧
      Always (service_step siphash) (service cmds) events (fun _ s => ∃ rs, ServiceOk siphash s rs) := by
  refine run_total_always (P := fun _ s => ∃ rs, ServiceOk siphash s rs) ⟨[],start_ok init⟩ ?_ within
  rintro _ e s ⟨rs,good⟩ inside
  obtain ⟨s',rs',done,good',_⟩ := event_ok good inside
  exact ⟨s',done,rs',good'⟩

/-- Bounds that can be computed. -/
def Checked (s : Service) : Event → Prop
  | .accept => True
  | .read i src _ => s.history.length < 2^27 ∧ ∃ cl ∈ get s.clients i,
      (holds s.srv.bufs cl.conn.r_buf ++ delivered src).length < 2^28 ∧
        ∀ t ∈ (complete_lines (holds s.srv.bufs cl.conn.r_buf ++ delivered src)).head?, query t ≠ .bare_set
  | .write i _ => (get s.clients i).isSome
  | .close i => (get s.clients i).isSome

instance (s : Service) : ∀ e, Decidable (Checked s e)
  | .accept => inferInstanceAs (Decidable True)
  | .read i _ _ => inferInstanceAs (Decidable (_ ∧ ∃ cl ∈ get s.clients i, _ ∧ ∀ _ ∈ _, _))
  | .write _ _ => inferInstanceAs (Decidable (_ = true))
  | .close _ => inferInstanceAs (Decidable (_ = true))

theorem checked_within {s : Service} {e : Event} (checked : Checked s e) : Within s e := by
  cases e with
  | accept => exact trivial
  | read i src again =>
    obtain ⟨few,cl,found,short,proper⟩ := checked
    exact ⟨few,cl,found,short_of_length short,proper⟩
  | write i dest => exact Option.isSome_iff_exists.mp checked
  | close i => exact Option.isSome_iff_exists.mp checked

/-- `"get a"` -/
def get_a : List Byte := [103,101,116,32,97]

/-- Of two connections, one sets a word and is sent a part of its answer, the other gets the word; the first is closed and
    another one accepted. -/
def set_then_get : List Event :=
  [.accept,.accept,.read 1 [.data (set_a_b ++ newline)] true,.write 1 [.bytes 4],.read 0 [.data (get_a ++ newline)] true,
    .write 0 [.bytes 100],.write 1 [.bytes 100],.close 1,.accept]

theorem set_then_get_runs : ∃ cmds s, atm_cmd_init zero_hash = .ok cmds ∧
    run (service_step zero_hash) (service cmds) set_then_get = .ok s ∧
      EachStep (service_step zero_hash) (service cmds) set_then_get Within ∧ s.history = [(1,set_a_b),(0,get_a)] ∧
        s.outlet 0 = [98] ++ newline := by
  have all : (atm_cmd_init zero_hash >>= fun cmds => (run (service_step zero_hash) (service cmds) set_then_get).map (fun s =>
      (s.history,s.outlet 0,decide (EachStep (service_step zero_hash) (service cmds) set_then_get Checked)))) =
        .ok ([(1,set_a_b),(0,get_a)],[98] ++ newline,true) := by
    decide +kernel
  obtain ⟨cmds,init,told⟩ := bind_eq_ok.mp all
  cases ran : run (service_step zero_hash) (service cmds) set_then_get with
  | error e =>
    rw [ran] at told
    cases told
  | ok s =>
    rw [ran] at told
    obtain ⟨recorded,rest⟩ := Prod.mk.inj (Except.ok.inj told)
    obtain ⟨sent,each⟩ := Prod.mk.inj rest
    exact ⟨cmds,s,init,ran,fun pre e t inside ran => checked_within (of_decide_eq_true each pre e t inside ran),recorded,sent⟩

/-- In every order of events each executed line is answered once, on its own connection and in the order of its lines; a
    `get` gets a value of the word that was set before, and misses no word that was set. -/
theorem service_answers {cmds : Dict.Dictionary (Option Str) Cmd} (init : atm_cmd_init siphash = .ok cmds)
    {events : List Event} (within : EachStep (service_step siphash) (service cmds) events Within) :
    (∃ s, run (service_step siphash) (service cmds) events = .ok s) ∧
      Always (service_step siphash) (service cmds) events (fun _ s => ∃ rs, Answered s.history rs ∧
        ∀ i cl, get s.clients i = some cl → Spoken s.srv.bufs cl.conn (of_client i s.history) (of_client i rs)) := by
  obtain ⟨returned,always⟩ := service_ok init within
  refine ⟨returned,fun pre s isPre ran => ?_⟩
  obtain ⟨rs,good⟩ := always pre s isPre ran
  exact ⟨rs,good.answered,fun i cl found => (good.clients i cl found).2.2.2⟩

theorem service_answers_set_get : ∃ cmds s, atm_cmd_init zero_hash = .ok cmds ∧
    run (service_step zero_hash) (service cmds) set_then_get = .ok s ∧ s.history = [(1,set_a_b),(0,get_a)] ∧
      s.outlet 0 = [98] ++ newline ∧ ∃ rs, Answered s.history rs ∧
        ∀ i cl, get s.clients i = some cl → Spoken s.srv.bufs cl.conn (of_client i s.history) (of_client i rs) := by
  obtain ⟨cmds,s,init,ran,within,recorded,sent⟩ := set_then_get_runs
  generalize set_then_get = events at ran within ⊢
  exact ⟨cmds,s,init,ran,recorded,sent,(service_answers init within).2 _ s List.prefix_rfl ran⟩

/-- While fewer than 256 different words are set, the answers are those of one store that serves all lines in the order of
    their execution. -/
theorem service_linear {cmds : Dict.Dictionary (Option Str) Cmd} (init : atm_cmd_init siphash = .ok cmds)
    {events : List Event} (within : EachStep (service_step siphash) (service cmds) events Within) :
    Always (service_step siphash) (service cmds) events (fun _ s => FewKeys (queries s.history) →
      ∀ i cl, get s.clients i = some cl →
        Spoken s.srv.bufs cl.conn (of_client i s.history) (of_client i (serve (fun _ => none) s.history))) := by
  intro pre s isPre ran few i cl found
  obtain ⟨rs,good⟩ := (service_ok init within).2 pre s isPre ran
  rw [← answered_serve good.answered few]
  exact (good.clients i cl found).2.2.2

theorem service_linear_set_get : ∃ cmds s, atm_cmd_init zero_hash = .ok cmds ∧
    run (service_step zero_hash) (service cmds) set_then_get = .ok s ∧ s.history = [(1,set_a_b),(0,get_a)] ∧
      ∀ i cl, get s.clients i = some cl →
        Spoken s.srv.bufs cl.conn (of_client i s.history) (of_client i (serve (fun _ => none) s.history)) := by
  obtain ⟨cmds,s,init,ran,within,recorded,_⟩ := set_then_get_runs
  generalize set_then_get = events at ran within ⊢
  refine ⟨cmds,s,init,ran,recorded,service_linear init within _ s List.prefix_rfl ran ⟨[[97]],fun k v member => ?_,by decide⟩⟩
  have asked : queries s.history = [.set [97] (some [98]),.get [97]] := by rw [recorded]; decide +kernel
  rw [asked] at member
  rcases List.mem_cons.mp member with same | other
  · cases same
    exact List.mem_singleton_self _
  · cases List.mem_singleton.mp other

end AtmCache.Session
