import AtmCache.Machine
import AtmCache.Heap

/-!
# Connections, the main loop and the workers

The threads of `atm_conn.c`, `atm_event.c` and `atm_task.c` as a machine whose steps are
the sections that hold a mutex and the accesses between them. A section works on one
connection (`atm_conn_t` with its `atm_event_t`) and may append to the event pipe, to the
task pipe and to `free_list`; `Effect` is what it does. Any number of workers run the
tasks, so a task that was delivered may start at any time. Once freed, a connection
is gone from the heap, and following a pointer to it is a fault.

What the sockets and the session do is chosen by the label of a step. The fd of a
connection stays registered until it is freed: `EPOLLHUP` and `EPOLLET` never leave its
mask. Of the mask only `EPOLLIN` and `EPOLLOUT` are kept.
-/
namespace AtmCache.Conns
open Heap Runs

/-- What the threads share of a connection: `active` and the mask of its event, its flags, the
    bytes held in `w_buf`, and how many requests `write_reqs` has counted in all. -/
structure Conn where
  active : Bool
  epollin : Bool
  epollout : Bool
  on_read : Bool
  on_write : Bool
  write_reqs : Nat
  pending : Nat
  requests : Nat
  deriving DecidableEq, Repr

inductive Flag where
  | on_read
  | on_write
  deriving DecidableEq, Repr

/-- `*flag = ATM_FALSE` -/
def Conn.clear (c : Conn) : Flag → Conn
  | .on_read => { c with on_read := false }
  | .on_write => { c with on_write := false }

/-- `ATM_EVENT_READ` or `ATM_EVENT_WRITE` in an `atm_event_op_t`, which is always an ADD. -/
inductive Mask where
  | read
  | write
  deriving DecidableEq, Repr

/-- The value of a count as an `int`. -/
def to_int (n : Nat) : Int := if u32 n < 2^31 then u32 n else (u32 n : Int) - 2^32

/-! ### Sections -/

/-- `atm_conn_new` and `atm_event_add_conn` -/
def atm_conn_new : Conn := ⟨true,true,false,false,false,0,0,0⟩

/-- The connection afterwards and whether a read task is dispatched. -/
def atm_conn_handle_read (c : Conn) : Conn × Bool :=
  if c.active then ({ c with epollin := false, on_read := true },true) else (c,false)

def atm_conn_handle_write (c : Conn) : Conn × Bool :=
  if c.active then ({ c with epollout := false, on_write := true },true) else (c,false)

def atm_event_add_event (c : Conn) : Mask → Conn
  | .read => { c with epollin := true }
  | .write => { c with epollout := true }

/-- The connection afterwards and the ops queued. -/
def atm_conn_write_notify (c : Conn) : Conn × List Mask :=
  if c.active then
    ({ c with write_reqs := u32 (c.write_reqs + 1), requests := c.requests + 1 },if c.on_write then [] else [.write])
  else (c,[])

def atm_conn_inter_write (c : Conn) (wreqs : Nat) (wrmn : Int) : Conn × List Mask :=
  ({ c with on_write := false },if (wreqs < c.write_reqs ∨ 0 < wrmn) ∧ c.active then [.write] else [])

/-- Whether the task yields, and the connection afterwards. -/
def atm_conn_yield_write (c : Conn) (wreqs : Nat) : Bool × Conn :=
  if c.write_reqs = wreqs ∨ c.active = false then (true,{ c with on_write := false }) else (false,c)

/-- The section of `atm_conn_inactive`: the connection afterwards and whether it is put on `free_list`. -/
def atm_conn_inactive (c : Conn) (flag : Flag) : Conn × Bool :=
  if c.active then ({ c with active := false }.clear flag,true) else (c,false)

/-- The connection afterwards and whether a free task is dispatched. -/
def atm_conn_free_check (c : Conn) (flag : Flag) : Conn × Bool := (c.clear flag,!c.active)

/-! ### Tasks -/

/-- Where a read task is. `inactive` and `free_notify` are the two parts of `atm_conn_inactive`; with
    `true` it was called because `atm_sess_process` has failed, and the task goes on. -/
inductive ReadAt where
  | enter
  | read_raw
  | process
  | write_notify
  | inactive (goes_on : Bool)
  | free_notify (goes_on : Bool)
  | restore_check
  | restore
  | free_check
  deriving DecidableEq, Repr

/-- Where a write task is. `wreqs` is its snapshot of `write_reqs` and `seen` the number of requests
    at that time; `cut` tells that the last `write()` left bytes behind. -/
inductive WriteAt where
  | test
  | snapshot
  | write_raw (wreqs seen total : Nat)
  | aval (wreqs seen : Nat) (cut : Bool)
  | inter (wreqs seen : Nat) (wrmn : Int) (cut : Bool)
  | yield (wreqs seen : Nat) (cut : Bool)
  | inactive
  | free_notify
  | free_check
  deriving DecidableEq, Repr

/-- What is not determined by the state: the results of `read()` and `write()`, and what the session
    does (a reply of `n` bytes, or its end with `ATM_OK` or `ATM_ERROR`). -/
inductive Choice where
  | go
  | alive
  | dead
  | reply (n : Nat)
  | finish (ok : Bool)
  | accept (n : Nat)
  | again
  | fail
  | zero
  | empty
  deriving DecidableEq, Repr

/-- Why a step is not taken: it is not possible in this state, or it ends in a fault. -/
inductive Stop where
  | disabled
  | fault (f : Fault)
  deriving DecidableEq, Repr

/-- What a step of a task does: the connection if it is written, where the task goes on (nowhere when
    it has ended), whether the task has cleared its own flag, the ops queued, whether
    a free task is dispatched and whether the connection is put on `free_list`. -/
structure Effect (P : Type) where
  conn : Option Conn
  next : Option P
  clears : Bool
  ops : List Mask
  notifies : Bool
  lists : Bool
  deriving DecidableEq, Repr

/-- Only the position of the task changes. -/
def goes {P : Type} (next : P) : Effect P := ⟨none,some next,false,[],false,false⟩

/-- Following the pointer to the connection. -/
def deref (c : Option Conn) : Except Stop Conn :=
  match c with
  | some c => .ok c
  | none => .error (.fault .useAfterFree)

/-- `atm_conn_task_read`, one access or section at a time. -/
def atm_conn_task_read (conn : Option Conn) : ReadAt → Choice → Except Stop (Effect ReadAt)
  | .enter, .go => do
    let c ← deref conn
    return goes (if c.active then .read_raw else .restore_check)
  | .read_raw, .alive => do
    let _ ← deref conn
    return goes .process
  | .read_raw, .dead => do
    let _ ← deref conn
    return goes (.inactive false)
  | .process, .reply n => do
    let c ← deref conn
    return ⟨some { c with pending := c.pending + n },some .write_notify,false,[],false,false⟩
  | .process, .finish ok => do
    let _ ← deref conn
    return goes (if ok then .restore_check else .inactive true)
  | .write_notify, .go => do
    let (c,ops) := atm_conn_write_notify (← deref conn)
    return ⟨some c,some .process,false,ops,false,false⟩
  | .inactive goes_on, .go => do
    let (c,lists) := atm_conn_inactive (← deref conn) .on_read
    return ⟨some c,some (.free_notify goes_on),lists,[],false,lists⟩
  | .free_notify goes_on, .go => .ok ⟨none,if goes_on then some .restore_check else none,false,[],true,false⟩
  | .restore_check, .go => do
    let c ← deref conn
    return goes (if c.active then .restore else .free_check)
  | .restore, .go => .ok ⟨none,some .free_check,false,[.read],false,false⟩
  | .free_check, .go => do
    let (c,notifies) := atm_conn_free_check (← deref conn) .on_read
    return ⟨some c,none,true,[],notifies,false⟩
  | _, _ => .error .disabled

/-- `atm_conn_task_write`. In `write_raw` a step is one `write()`, or the end of
    `atm_buf_write_sock` because no byte is held; the result of the latter is the total when it is
    positive as an `int`, else that of the last `write()`. -/
def atm_conn_task_write (conn : Option Conn) : WriteAt → Choice → Except Stop (Effect WriteAt)
  | .test, .go => do
    let c ← deref conn
    return goes (if c.active then .snapshot else .free_check)
  | .snapshot, .go => do
    let c ← deref conn
    return goes (.write_raw c.write_reqs c.requests 0)
  | .write_raw wreqs seen total, .accept n => do
    let c ← deref conn
    if 0 < n ∧ n ≤ c.pending then
      return ⟨some { c with pending := c.pending - n },some (.write_raw wreqs seen (total + n)),false,[],false,false⟩
    else throw .disabled
  | .write_raw wreqs seen total, choice => do
    let c ← deref conn
    match choice with
    | .again => if 0 < c.pending then return goes (.yield wreqs seen true) else throw .disabled
    | .fail =>
      if 0 < c.pending then return goes (if 0 < to_int total then .yield wreqs seen true else .inactive) else throw .disabled
    | .zero =>
      if 0 < c.pending then
        return goes (if 0 < to_int total then .yield wreqs seen true else .aval wreqs seen true)
      else throw .disabled
    | .empty =>
      if c.pending = 0 then return goes (if 0 < total then .yield wreqs seen false else .aval wreqs seen false)
      else throw .disabled
    | _ => throw .disabled
  | .aval wreqs seen cut, .go => do
    let c ← deref conn
    return goes (.inter wreqs seen (to_int c.pending) cut)
  | .inter wreqs _ wrmn _, .go => do
    let (c,ops) := atm_conn_inter_write (← deref conn) wreqs wrmn
    return ⟨some c,some .free_check,true,ops,false,false⟩
  | .yield wreqs _ _, .go => do
    let (stops,c) := atm_conn_yield_write (← deref conn) wreqs
    return ⟨some c,some (if stops then .free_check else .test),stops,[],false,false⟩
  | .inactive, .go => do
    let (c,lists) := atm_conn_inactive (← deref conn) .on_write
    return ⟨some c,some .free_notify,lists,[],false,lists⟩
  | .free_notify, .go => .ok ⟨none,none,false,[],true,false⟩
  | .free_check, .go => do
    let (c,notifies) := atm_conn_free_check (← deref conn) .on_write
    return ⟨some c,none,true,[],notifies,false⟩
  | _, _ => .error .disabled

/-! ### The system -/

/-- `atm_task_t`: `run` with `load` and where it is. -/
inductive Job where
  | read (i : Nat) (pc : ReadAt)
  | write (i : Nat) (pc : WriteAt)
  | free
  deriving DecidableEq, Repr

/-- A task is in the task pipe, in the queue of a worker, run by it, or at its end. -/
inductive Stage where
  | pipe
  | queued
  | running
  | done
  deriving DecidableEq, Repr

/-- A task that was dispatched; `cleared` records that it has cleared its own flag. -/
structure Task where
  job : Job
  stage : Stage
  cleared : Bool
  deriving DecidableEq, Repr

/-- `atm_event_op_t` -/
structure Op where
  e : Nat
  mask : Mask
  deriving DecidableEq, Repr

/-- The main loop is in `epoll_wait`, or between `handle_read` and `handle_write` of one event. -/
inductive Main where
  | idle
  | handle_write (i : Nat)
  deriving DecidableEq, Repr

/-- Connections, all tasks in the order of their dispatch, the messages of the event pipe, the main
    loop, `free_list` and a record of the connections freed. -/
structure Sys where
  conns : Cells Conn
  tasks : List Task
  evq : List Op
  main : Main
  free_list : List Nat
  freed : List Nat
  deriving DecidableEq, Repr

def start : Sys := ⟨[],[],[],.idle,[],[]⟩

inductive Label where
  | accept
  | report (i : Nat) (epollin epollout err : Bool)
  | handle_write
  | op
  | deliver
  | begin (k : Nat)
  | work (k : Nat) (choice : Choice)
  deriving DecidableEq, Repr

def dispatched (job : Job) : Task := ⟨job,.pipe,false⟩

/-- A task is dispatched if `yes`. -/
def Sys.dispatch (s : Sys) (yes : Bool) (job : Job) : Sys :=
  if yes then { s with tasks := s.tasks ++ [dispatched job] } else s

/-- `atm_event_process_ev` up to the end of `handle_read`; an error or a hangup counts as both events. -/
def atm_event_process_ev (s : Sys) (i : Nat) (c : Conn) (epollin epollout err : Bool) : Sys :=
  let (c',yes) := if epollin || err then atm_conn_handle_read c else (c,false)
  { Sys.dispatch { s with conns := put s.conns i c' } yes (.read i .enter) with
    main := if epollout || err then .handle_write i else .idle }

/-- The loop of `atm_conn_free_func` with `unproc`; NULL is `none`. -/
def atm_conn_free_loop : Nat → Sys → Option Nat → Except Stop Sys
  | 0, _, _ => .error (.fault .hang)
  | fuel+1, s, unproc =>
    if s.free_list.head? = unproc then .ok s
    else
      match s.free_list with
      | [] => .error (.fault .nullDeref)
      | i :: rest => do
        let c ← deref (get s.conns i)
        if !c.on_write && !c.on_read then
          atm_conn_free_loop fuel { s with free_list := rest, conns := free s.conns i, freed := s.freed ++ [i] } unproc
        else atm_conn_free_loop fuel { s with free_list := rest ++ [i] } (if unproc = none then some i else unproc)

/-- Each round frees a connection or moves it behind, until the first one that was moved comes up. -/
def atm_conn_free_func (s : Sys) : Except Stop Sys := atm_conn_free_loop (s.free_list.length + 1) s none

/-- The task after a step. -/
def Task.after {P : Type} (t : Task) (job : P → Job) (e : Effect P) : Task :=
  match e.next with
  | some pc => ⟨job pc,.running,t.cleared || e.clears⟩
  | none => ⟨t.job,.done,t.cleared || e.clears⟩

/-- What a step of task `k` on connection `i` does to the system. -/
def Sys.apply {P : Type} (s : Sys) (k i : Nat) (t : Task) (job : P → Job) (e : Effect P) : Sys :=
  { s with
    conns := match e.conn with
      | some c => put s.conns i c
      | none => s.conns
    tasks := s.tasks.set k (t.after job e) ++ if e.notifies then [dispatched .free] else []
    evq := s.evq ++ e.ops.map (fun mask => ⟨i,mask⟩)
    free_list := s.free_list ++ if e.lists then [i] else [] }

/-- A step of a task that a worker runs. -/
def work (s : Sys) (k : Nat) (t : Task) (choice : Choice) : Except Stop Sys :=
  match t.job with
  | .read i pc => do return s.apply k i t (Job.read i) (← atm_conn_task_read (get s.conns i) pc choice)
  | .write i pc => do return s.apply k i t (Job.write i) (← atm_conn_task_write (get s.conns i) pc choice)
  | .free => do
    let s ← atm_conn_free_func s
    return { s with tasks := s.tasks.set k { t with stage := .done } }

/-- A step of the main loop or of a worker. The kernel reports `EPOLLIN` and `EPOLLOUT` only when they are
    in the mask, errors and hangups at any time. -/
def step (s : Sys) : Label → Except Stop Sys
  | .accept => if s.main = .idle then .ok { s with conns := alloc s.conns atm_conn_new } else .error .disabled
  | .report i epollin epollout err =>
    match get s.conns i with
    | some c =>
      if s.main = .idle ∧ (epollin → c.epollin) ∧ (epollout → c.epollout) then
        .ok (atm_event_process_ev s i c epollin epollout err)
      else .error .disabled
    | none => .error .disabled
  | .handle_write =>
    match s.main with
    | .handle_write i => do
      let (c,yes) := atm_conn_handle_write (← deref (get s.conns i))
      return { Sys.dispatch { s with conns := put s.conns i c } yes (.write i .test) with main := .idle }
    | .idle => .error .disabled
  | .op =>
    match s.main, s.evq with
    | .idle, op :: rest => do
      let c ← deref (get s.conns op.e)
      return { s with conns := put s.conns op.e (atm_event_add_event c op.mask), evq := rest }
    | _, _ => .error .disabled
  | .deliver =>
    match s.main, s.tasks.findIdx? (fun t => t.stage = .pipe) with
    | .idle, some k =>
      match s.tasks[k]? with
      | some t => .ok { s with tasks := s.tasks.set k { t with stage := .queued } }
      | none => .error .disabled
    | _, _ => .error .disabled
  | .begin k =>
    match s.tasks[k]? with
    | some t => if t.stage = .queued then .ok { s with tasks := s.tasks.set k { t with stage := .running } } else .error .disabled
    | none => .error .disabled
  | .work k choice =>
    match s.tasks[k]? with
    | some t => if t.stage = .running then work s k t choice else .error .disabled
    | none => .error .disabled

end AtmCache.Conns
