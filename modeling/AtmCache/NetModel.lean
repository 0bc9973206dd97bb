import AtmCache.TaskModel

/-!
# Sockets

`atm_net.c`, and what `atm_conn.c` does with it: the sockets that listen, those of accepted and freed
connections, and the client's. Of the kernel there are the open descriptors and its answers to the calls,
which are chosen by the label of a step; a new descriptor is the lowest that is not open. Of a socket there
is its descriptor and which of its two strings it has. Closing a descriptor that is not open is a fault.
-/
namespace AtmCache.Net
open Runs
open Tasks (Stop)

/-- A call succeeds, was interrupted by a signal, or fails. -/
inductive Answer where
  | success
  | interrupted
  | failure
  deriving DecidableEq, Repr

/-- The open descriptors, the number of strings that are allocated, and the answers to come. -/
structure Kernel where
  fds : List Nat
  strings : Nat
  answers : List Answer
  deriving DecidableEq, Repr

/-- `atm_socket_t` -/
structure Socket where
  fd : Nat
  src_ip : Bool
  dst_ip : Bool
  deriving DecidableEq, Repr

/-! ### System calls -/

/-- A call that changes no descriptor. -/
def passes (k : Kernel) : Except Stop (Bool × Kernel) :=
  match k.answers with
  | [] => .error .disabled
  | a :: rest => .ok (a = .success,{ k with answers := rest })

def unused (fds : List Nat) : Nat := ((List.range (fds.length + 1)).find? (fun fd => !fds.contains fd)).getD 0

def socket (k : Kernel) : Except Stop (Option Nat × Kernel) := do
  let (succeeds,k) ← passes k
  if succeeds then return (some (unused k.fds),{ k with fds := unused k.fds :: k.fds }) else return (none,k)

/-- The loop around `accept`, which goes on while it is interrupted. -/
def accept_loop (fds : List Nat) (strings : Nat) : List Answer → Except Stop (Option Nat × Kernel)
  | [] => .error .disabled
  | .success :: rest => .ok (some (unused fds),⟨unused fds :: fds,strings,rest⟩)
  | .interrupted :: rest => accept_loop fds strings rest
  | .failure :: rest => .ok (none,⟨fds,strings,rest⟩)

def close (k : Kernel) (fd : Nat) : Except Stop Kernel :=
  if fd ∈ k.fds then .ok { k with fds := k.fds.erase fd } else .error (.fault .doubleFree)

/-! ### `atm_net.c` -/

def atm_net_set_reuse_addr (k : Kernel) : Except Stop (Bool × Kernel) := passes k

def atm_net_listen_raw (k : Kernel) : Except Stop (Bool × Kernel) := do
  let (bound,k) ← passes k
  if bound then passes k else return (false,k)

/-- Whether a new socket is made to listen. -/
def set_up (k : Kernel) : Except Stop (Bool × Kernel) := do
  let (reused,k) ← atm_net_set_reuse_addr k
  if reused then atm_net_listen_raw k else return (false,k)

/-- The loop over the addresses: the socket that listens. The first one that there is decides. -/
def listen_loop : Nat → Kernel → Except Stop (Option Nat × Kernel)
  | 0, k => .ok (none,k)
  | n+1, k => do
    match ← socket k with
    | (none,k) => listen_loop n k
    | (some sockfd,k) =>
      let (listens,k) ← set_up k
      if listens then return (some sockfd,k) else return (none,← close k sockfd)

/-- `servinfo` is the number of addresses that `getaddrinfo` gives. -/
def atm_net_listen_tcp_raw (k : Kernel) : Option Nat → Except Stop (Option Nat × Kernel)
  | none => .ok (none,k)
  | some servinfo => listen_loop servinfo k

def atm_net_socket_new (fd : Nat) : Socket := ⟨fd,false,false⟩

def atm_net_listen_tcp (k : Kernel) (servinfo : Option Nat) : Except Stop (Option Socket × Kernel) := do
  let (s,k) ← atm_net_listen_tcp_raw k servinfo
  return (s.map atm_net_socket_new,k)

/-- `atm_str_new` of an address of the family `AF_INET` -/
def named (k : Kernel) : Except Stop (Bool × Kernel) := do
  let (inet,k) ← passes k
  return (inet,{ k with strings := k.strings + inet.toNat })

/-- `atm_net_accept` with `atm_net_accept_raw` -/
def atm_net_accept (k : Kernel) : Except Stop (Option Socket × Kernel) := do
  match ← accept_loop k.fds k.strings k.answers with
  | (none,k) => return (none,k)
  | (some fd,k) =>
    let (src_ip,k) ← named k
    let (dst_ip,k) ← named k
    return (some ⟨fd,src_ip,dst_ip⟩,k)

/-- `F_GETFL` and `F_SETFL` -/
def atm_file_nonblock (k : Kernel) : Except Stop (Bool × Kernel) := do
  let (got,k) ← passes k
  if got then passes k else return (false,k)

def atm_net_nodelay (k : Kernel) : Except Stop (Bool × Kernel) := passes k

/-- `SO_KEEPALIVE`, `TCP_KEEPIDLE`, `TCP_KEEPINTVL` and `TCP_KEEPCNT`, up to the first that fails. -/
def set_options : Nat → Kernel → Except Stop (Bool × Kernel)
  | 0, k => .ok (true,k)
  | n+1, k => do
    let (done,k) ← passes k
    if done then set_options n k else return (false,k)

def atm_net_keepalive (k : Kernel) : Except Stop (Bool × Kernel) := set_options 4 k

/-- `dst_ip` is not freed. -/
def atm_socket_free (k : Kernel) (s : Socket) : Except Stop Kernel := do
  let k ← close k s.fd
  return { k with strings := k.strings - s.src_ip.toNat }

/-- The loop over the addresses. -/
def connect_loop : Nat → Kernel → Except Stop (Option Nat × Kernel)
  | 0, k => .ok (none,k)
  | n+1, k => do
    match ← socket k with
    | (none,k) => connect_loop n k
    | (some res,k) =>
      let (connected,k) ← passes k
      if connected then return (some res,k) else return (none,← close k res)

/-- The addresses of `AF_INET` or else those of `AF_INET6`. -/
def atm_net_connect (k : Kernel) (servinfo servinfo6 : Option Nat) : Except Stop (Option Nat × Kernel) :=
  match servinfo <|> servinfo6 with
  | none => .ok (none,k)
  | some n => connect_loop n k

/-! ### The server and the client -/

def ATM_CONN_PERCALL_ACCEPTS : Nat := 1024

/-- The descriptors and strings, the sockets that listen, those that were given up when they did not become
    nonblocking, those of the connections and of freed connections, and `sockfd` of the clients. -/
structure Server where
  fds : List Nat
  strings : Nat
  listening : List Socket
  given_up : List Socket
  conns : List Socket
  freed : List Socket
  clients : List Nat
  deriving DecidableEq, Repr

/-- The loop of `atm_conn_listen_tcp` over the addresses to bind. -/
def listen_all : List (Option Nat) → Kernel → List Socket → List Socket → Except Stop (List Socket × List Socket × Kernel)
  | [], k, listening, given_up => .ok (listening,given_up,k)
  | servinfo :: rest, k, listening, given_up => do
    match ← atm_net_listen_tcp k servinfo with
    | (none,k) => listen_all rest k listening given_up
    | (some ss,k) =>
      let (nonblock,k) ← atm_file_nonblock k
      if nonblock then listen_all rest k (listening ++ [ss]) given_up else listen_all rest k listening (given_up ++ [ss])

def atm_conn_listen_tcp (s : Server) (bindaddr : List (Option Nat)) (answers : List Answer) : Except Stop Server := do
  let (listening,given_up,k) ← listen_all bindaddr ⟨s.fds,s.strings,answers⟩ s.listening s.given_up
  return { s with fds := k.fds, strings := k.strings, listening := listening, given_up := given_up }

/-- The loop of `atm_conn_handle_accept`. -/
def accept_conns : Nat → Kernel → List Socket → Except Stop (List Socket × Kernel)
  | 0, k, conns => .ok (conns,k)
  | max+1, k, conns => do
    match ← atm_net_accept k with
    | (none,k) => return (conns,k)
    | (some cs,k) =>
      let (_,k) ← atm_file_nonblock k
      let (_,k) ← atm_net_nodelay k
      let (_,k) ← atm_net_keepalive k
      accept_conns max k (conns ++ [cs])

def atm_conn_handle_accept (s : Server) (answers : List Answer) : Except Stop Server := do
  let (conns,k) ← accept_conns ATM_CONN_PERCALL_ACCEPTS ⟨s.fds,s.strings,answers⟩ s.conns
  return { s with fds := k.fds, strings := k.strings, conns := conns }

/-- The socket of the connection. -/
def atm_conn_free (s : Server) (i : Nat) : Except Stop Server :=
  match s.conns[i]? with
  | none => .error .disabled
  | some sock => do
    let k ← atm_socket_free ⟨s.fds,s.strings,[]⟩ sock
    return { s with fds := k.fds, strings := k.strings, conns := s.conns.eraseIdx i, freed := s.freed ++ [sock] }

def atm_client_new (s : Server) (servinfo servinfo6 : Option Nat) (answers : List Answer) : Except Stop Server := do
  let (sock,k) ← atm_net_connect ⟨s.fds,s.strings,answers⟩ servinfo servinfo6
  return { s with fds := k.fds, strings := k.strings, clients := s.clients ++ sock.toList }

inductive Label where
  | listen (bindaddr : List (Option Nat)) (answers : List Answer)
  | accept (answers : List Answer)
  | free (i : Nat)
  | connect (servinfo servinfo6 : Option Nat) (answers : List Answer)
  deriving DecidableEq, Repr

def step (s : Server) : Label → Except Stop Server
  | .listen bindaddr answers => atm_conn_listen_tcp s bindaddr answers
  | .accept answers => atm_conn_handle_accept s answers
  | .free i => atm_conn_free s i
  | .connect servinfo servinfo6 answers => atm_client_new s servinfo servinfo6 answers

/-- The process with the descriptors that it was started with. -/
def start (fds : List Nat) : Server := ⟨fds,0,[],[],[],[],[]⟩

end AtmCache.Net
