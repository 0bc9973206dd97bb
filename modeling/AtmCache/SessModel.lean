import AtmCache.BufModel
import AtmCache.DictModel
import AtmCache.StrModel

/-!
# Sessions and commands

The state machine of `atm_sess.c`, the handlers of `atm_cmd.c` and the functions of
`atm_conn.c` through which they read and write. A server is all buffers, the cache and
the table of commands; a connection is the positions of its two buffers. A session also
records the lines it has executed. The notification of the main loop that follows every
write is left to the model of connections, and logging is left out.
-/
namespace AtmCache.Session
open Runs Strings

abbrev Byte := UInt8

/-! ### Objects -/

/-- `atm_obj_t` with `v_type` `ATM_STR_T`, the only type that the commands make. -/
structure Obj where
  value : Option Str
  deriving DecidableEq, Repr

def atm_obj_match (v1 v2 : Obj) : Bool := atm_str_match v1.value v2.value

def atm_obj_hash (siphash : List Byte → UInt64) (v : Obj) : UInt64 := atm_str_hash siphash v.value

/-- NULL gives NULL. -/
def atm_obj_str (v : Option Obj) : Option Str := v.bind Obj.value

/-- `ATM_OBJ_T` as a key type -/
def ATM_OBJ_T (siphash : List Byte → UInt64) : Dict.KeyType Obj := ⟨atm_obj_match,atm_obj_hash siphash⟩

/-- `ATM_STR_T` as a key type -/
def ATM_STR_T (siphash : List Byte → UInt64) : Dict.KeyType (Option Str) := ⟨atm_str_match,atm_str_hash siphash⟩

/-! ### Commands -/

inductive CmdFunc where
  | atm_cmd_func_get
  | atm_cmd_func_set
  deriving DecidableEq, Repr

/-- `atm_cmd_t` -/
structure Cmd where
  name : List Byte
  func : CmdFunc
  arity : Int
  deriving DecidableEq, Repr

/-- `"get"` and `"set"` -/
def atm_commands : List Cmd :=
  [⟨[103,101,116],.atm_cmd_func_get,2⟩,⟨[115,101,116],.atm_cmd_func_set,-3⟩]

/-- All buffers, `atm_ctx->cache_dict` and `atm_cmd_dict`. -/
structure Server where
  bufs : Buffers.World
  cache_dict : Dict.Dictionary Obj Obj
  cmd_dict : Dict.Dictionary (Option Str) Cmd
  deriving DecidableEq, Repr

/-- `r_buf` and `w_buf` -/
structure Conn where
  r_buf : Nat
  w_buf : Nat
  deriving DecidableEq, Repr

variable (siphash : List Byte → UInt64)

def atm_cmd_init : Except Fault (Dict.Dictionary (Option Str) Cmd) :=
  atm_commands.foldlM (fun d cmd => do Dict.atm_dict_set (ATM_STR_T siphash) d (← atm_str_new (some cmd.name)) cmd)
    (Dict.atm_dict_new .shallow)

def atm_cmd_getcmd (srv : Server) (name : Option Str) : Except Fault (Option Cmd) :=
  Dict.atm_dict_get (ATM_STR_T siphash) srv.cmd_dict name

/-! ### Reading and writing -/

/-- `atm_str_new` of a `char *` -/
def str_new_of (s : List Byte) : Except Fault (Option Str) := do atm_str_new (some (s.take (← strlen s)))

def atm_conn_read_line (srv : Server) (c : Conn) : Except Fault (Server × Option Str) := do
  let buf ← srv.bufs.buf c.r_buf
  let (mem,buf,s) ← Buffers.atm_buf_read_line srv.bufs.mem buf
  let srv := { srv with bufs := ⟨mem,Heap.put srv.bufs.bufs c.r_buf buf⟩ }
  match s with
  | some s => return (srv,← str_new_of s)
  | none => return (srv,none)

def atm_conn_write (srv : Server) (c : Conn) (src : List Byte) : Except Fault Server := do
  let (bufs,_) ← srv.bufs.on c.w_buf (fun m buf => Buffers.atm_buf_write m buf src)
  return { srv with bufs := bufs }

/-- As many bytes are written as the header of the string counts. -/
def atm_conn_write_str (srv : Server) (c : Conn) : Option Str → Except Fault Server
  | none => atm_conn_write srv c []
  | some s => do atm_conn_write srv c (← read_bytes s.val s.len)

/-- `"\n"` -/
def newline : List Byte := [10]

def atm_sess_reply (srv : Server) (c : Conn) (m : List Byte) : Except Fault Server := do
  let msg ← atm_str_new (some m)
  let msg ← atm_str_cats msg (some newline)
  atm_conn_write_str srv c msg.str

/-! ### The session -/

inductive SessState where
  | sess_init
  | sess_parsing
  | sess_process_cmd
  | sess_finish
  | sess_error
  deriving DecidableEq, Repr

/-- `atm_sess_t`, with the line that is being processed and a record of the lines executed.
    `argv` includes the NULL at its end. -/
structure Sess where
  state : SessState
  state_continue : Bool
  cmd : Option Cmd
  argc : Nat
  argv : Option (List (Option Str))
  line : List Byte
  executed : List (List Byte)
  deriving DecidableEq, Repr

def atm_sess_new : Sess := ⟨.sess_init,false,none,0,none,[],[]⟩

def atm_sess_chstat (se : Sess) (st : SessState) : Sess := { se with state := st, state_continue := true }

def atm_sess_reset (se : Sess) : Sess :=
  { se with argc := 0, argv := none, cmd := none, state := .sess_init, state_continue := false }

/-- Reading `argv[idx]`; behind the NULL at its end the array is left. -/
def argv_at (argv : Option (List (Option Str))) (idx : Nat) : Except Fault (Option Str) :=
  match argv with
  | none => .error .nullDeref
  | some argv =>
    match argv[idx]? with
    | some s => .ok s
    | none => .error .outOfBounds

def atm_cmd_para (argv : Option (List (Option Str))) (idx : Nat) : Except Fault Obj := do
  match ← argv_at argv idx with
  | some s => return ⟨← str_new_of s.val⟩
  | none => return ⟨← atm_str_new none⟩

/-- `"Success"` -/
def success : List Byte := [83,117,99,99,101,115,115]
/-- `"Invalid argc"` -/
def invalid_argc : List Byte := [73,110,118,97,108,105,100,32,97,114,103,99]
/-- `"Invalid cmd"` -/
def invalid_cmd : List Byte := [73,110,118,97,108,105,100,32,99,109,100]

/-- The test that both handlers make. -/
def argc_fits (cmd : Cmd) (se : Sess) : Bool := cmd.arity < 0 || (se.argc : Int) = cmd.arity

def atm_cmd_func_set (srv : Server) (c : Conn) (cmd : Cmd) (se : Sess) : Except Fault Server :=
  if argc_fits cmd se then do
    let k ← atm_cmd_para se.argv 1
    let v ← atm_cmd_para se.argv 2
    let cache ← Dict.atm_dict_set (ATM_OBJ_T siphash) srv.cache_dict k v
    atm_sess_reply { srv with cache_dict := cache } c success
  else atm_sess_reply srv c invalid_argc

def atm_cmd_func_get (srv : Server) (c : Conn) (cmd : Cmd) (se : Sess) : Except Fault Server :=
  if argc_fits cmd se then do
    let k ← atm_cmd_para se.argv 1
    let v ← Dict.atm_dict_get (ATM_OBJ_T siphash) srv.cache_dict k
    let msg ← atm_str_cats_dup (atm_obj_str v) (some newline)
    atm_conn_write_str srv c msg.str
  else atm_sess_reply srv c invalid_argc

/-- `se->cmd->func(se)` -/
def cmd_func (srv : Server) (c : Conn) (cmd : Cmd) (se : Sess) : Except Fault Server :=
  match cmd.func with
  | .atm_cmd_func_get => atm_cmd_func_get siphash srv c cmd se
  | .atm_cmd_func_set => atm_cmd_func_set siphash srv c cmd se

/-- Only a command that was found is called. -/
def call_cmd (srv : Server) (c : Conn) (se : Sess) : Except Fault Server :=
  match se.cmd with
  | some cmd => cmd_func siphash srv c cmd se
  | none => atm_sess_reply srv c invalid_cmd

def atm_sess_process_cmd (srv : Server) (c : Conn) (se : Sess) : Except Fault (Server × Sess) := do
  let srv ← call_cmd siphash srv c se
  return (srv,atm_sess_chstat { se with executed := se.executed ++ [se.line] } .sess_finish)

/-- What `atm_sess_parsing` makes of a line. -/
def parse_line (srv : Server) (line : Str) (se : Sess) : Except Fault Sess := do
  match ← atm_str_split line.val 32 line.len with
  | some argv =>
    let cmd ← atm_cmd_getcmd siphash srv argv.head?.join
    return { se with argc := (argv.takeWhile Option.isSome).length, argv := some argv, cmd := cmd }
  | none => return se

def atm_sess_parsing (srv : Server) (c : Conn) (se : Sess) : Except Fault (Server × Sess) := do
  let se := { se with state_continue := false }
  let (srv,line) ← atm_conn_read_line srv c
  match line with
  | some line =>
    let se ← parse_line siphash srv line se
    return (srv,atm_sess_chstat { se with line := line.val.take line.len } .sess_process_cmd)
  | none => return (srv,se)

def ATM_OK : Int := 0
def ATM_ERROR : Int := -1

/-- One round of the loop of `atm_sess_process`: the case of the state, or `ATM_ERROR`. -/
def atm_sess_round (srv : Server) (c : Conn) (se : Sess) : Except Fault (Option (Server × Sess)) :=
  let se := { se with state_continue := false }
  match se.state with
  | .sess_init => .ok (some (srv,atm_sess_chstat se .sess_parsing))
  | .sess_parsing => do return some (← atm_sess_parsing siphash srv c se)
  | .sess_process_cmd => do return some (← atm_sess_process_cmd siphash srv c se)
  | .sess_finish => .ok (some (srv,atm_sess_reset se))
  | .sess_error => .ok none

def atm_sess_process_loop (c : Conn) : Nat → Server → Sess → Except Fault (Int × Server × Sess)
  | 0, _, _ => .error .hang
  | fuel+1, srv, se => do
    match ← atm_sess_round siphash srv c se with
    | none => return (ATM_ERROR,srv,{ se with state_continue := false })
    | some (srv,se) => if se.state_continue then atm_sess_process_loop c fuel srv se else return (ATM_OK,srv,se)

/-- The rounds that the loop can make from a state. -/
def SessState.rounds : SessState → Nat
  | .sess_init => 4
  | .sess_parsing => 3
  | .sess_process_cmd => 2
  | .sess_finish => 1
  | .sess_error => 1

def atm_sess_process (srv : Server) (c : Conn) (se : Sess) : Except Fault (Int × Server × Sess) :=
  atm_sess_process_loop siphash c se.state.rounds srv se

end AtmCache.Session
