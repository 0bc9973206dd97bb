import AtmCache.Runs

/-!
# The notify pipe

`atm_pipe.c` with the nonblocking queue of `atm_queue.c`. Any number of threads call
`atm_pipe_notify`; epoll watches the reading end edge-triggered and the main loop runs
`atm_pip_handle_recv`. A step is what runs between two points where another thread can come in: `mqlock`
is held over the whole loop of the handler and over the one push of a notifier, and the `write()` of
a notifier is outside of it. Callbacks do not notify the pipe that runs them.
-/
namespace AtmCache.Pipes

/-! ### The queue -/

section
variable {M : Type}

/-- `atm_queue_push` of an `ATM_QUEUE_NONBLOCK` queue -/
def atm_queue_push (q : List M) (m : M) : List M := q ++ [m]

/-- `atm_queue_pop` of an `ATM_QUEUE_NONBLOCK` queue; NULL when it is empty. -/
def atm_queue_pop (q : List M) : Option M × List M := (q.head?,q.tail)

end

/-! ### The state -/

/-- `'a'` -/
def ATM_PIPE_NCHAR : UInt8 := 97

/-- A byte in the pipe, with the number of bytes that were written before it. -/
structure Sent where
  char : UInt8
  number : Nat
  deriving DecidableEq, Repr

/-- Where the main loop is: outside of the handler, in front of the lock, in front of a `read()`, in
    front of an `atm_queue_pop`, in front of the unlock. -/
inductive Handler where
  | idle
  | entered
  | reading (processed : Bool)
  | processing
  | leaving
  deriving DecidableEq, Repr

/-- The handler holds `mqlock`. -/
def Handler.locked : Handler → Bool
  | .idle => false
  | .entered => false
  | .reading _ => true
  | .processing => true
  | .leaving => true

/-- `atm_pipe_t` and what the kernel keeps of the pipe: the unread bytes, the number of bytes
    written, and whether epoll has to report it. `emptied` is the number of bytes written when a `read()` last
    found none. `between` are the threads between the push and the `write()` of their notify,
    `called` the messages whose callbacks have run. -/
structure Pipe (M : Type) where
  mqueue : List M
  bytes : List Sent
  written : Nat
  edge : Bool
  emptied : Nat
  handler : Handler
  between : List Nat
  called : List M
  deriving DecidableEq, Repr

variable {M : Type}

def atm_pipe_new : Pipe M := ⟨[],[],0,false,0,.idle,[],[]⟩

/-! ### Steps -/

inductive Stop where
  | disabled
  deriving DecidableEq, Repr

/-- A step of thread `t` in `atm_pipe_notify` or of the main loop. -/
inductive Label (M : Type) where
  | push (t : Nat) (m : M)
  | write (t : Nat)
  | wait
  | lock
  | read
  | pop
  | unlock
  deriving DecidableEq, Repr

/-- `atm_pipe_notify` up to the unlock. -/
def notify_push (s : Pipe M) (t : Nat) (m : M) : Pipe M :=
  { s with mqueue := atm_queue_push s.mqueue m, between := t :: s.between }

/-- The `write()` of `atm_pipe_notify`; a full pipe takes no byte, and the failure is logged. -/
def notify_write (capacity : Nat) (s : Pipe M) (t : Nat) : Pipe M :=
  let s := { s with between := s.between.erase t }
  if s.bytes.length < capacity then
    { s with bytes := s.bytes ++ [⟨ATM_PIPE_NCHAR,s.written⟩], written := s.written + 1, edge := true }
  else s

/-- One round of the loop of `atm_pip_handle_recv`, up to the first pop of `atm_pipe_process_msgs`. -/
def handle_read (s : Pipe M) (processed : Bool) : Pipe M :=
  match s.bytes with
  | [] => { s with emptied := s.written, handler := .leaving }
  | b :: rest =>
    let s := { s with bytes := rest }
    if processed then s
    else if b.char = ATM_PIPE_NCHAR then { s with handler := .processing }
    else { s with handler := .reading true }

/-- One round of the loop of `atm_pipe_process_msgs`. -/
def process_msgs (s : Pipe M) : Pipe M :=
  match atm_queue_pop s.mqueue with
  | (some msg,rest) => { s with mqueue := rest, called := s.called ++ [msg] }
  | (none,_) => { s with handler := .reading true }

variable (capacity : Nat)

def step (s : Pipe M) : Label M → Except Stop (Pipe M)
  | .push t m =>
    if s.handler.locked = false ∧ t ∉ s.between then .ok (notify_push s t m) else .error .disabled
  | .write t => if t ∈ s.between then .ok (notify_write capacity s t) else .error .disabled
  | .wait =>
    if s.handler = .idle ∧ s.edge then .ok { s with handler := .entered, edge := false } else .error .disabled
  | .lock => if s.handler = .entered then .ok { s with handler := .reading false } else .error .disabled
  | .read =>
    match s.handler with
    | .reading processed => .ok (handle_read s processed)
    | _ => .error .disabled
  | .pop => if s.handler = .processing then .ok (process_msgs s) else .error .disabled
  | .unlock => if s.handler = .leaving then .ok { s with handler := .idle } else .error .disabled

/-- The message that a step pushes. -/
def Label.pushes : Label M → Option M
  | .push _ m => some m
  | _ => none

/-- All messages notified in a run, in the order of their pushes. -/
def notified (ls : List (Label M)) : List M := ls.filterMap Label.pushes

end AtmCache.Pipes
