import AtmCache.SessService
import AtmCache.TaskModel

/-!
# Clients of the service

`atm_client.c` and what lies between a client and the service. A step of a client is the result of one
`write()` or `read()`, so that clients, the tasks of the service and the network take turns in any order. A
connection carries two streams of bytes; the calls of a client take from one and add to the other as much as the
network lets them. Connections are accepted in the order in which they were made.
-/
namespace AtmCache.Clients
open Heap Runs Strings
open Tasks (Stop)
open Session (Service service_step service_write)
open Buffers (delivered)

/-- A call of `atm_client_send` that is over: its string, what was written of it, and whether it gave up. -/
structure Sent where
  text : List Byte
  taken : List Byte
  failed : Bool
  deriving DecidableEq, Repr

/-- A call of `atm_client_recv` that is over: the size of the buffer, its content and what the call returned. -/
structure Received where
  size : Nat
  buff : List Byte
  ret : Int
  deriving DecidableEq, Repr

/-- What a client is doing. `buff` is what is left of the string, or what has been read so far. -/
inductive Call where
  | out
  | send (text taken buff : List Byte) (rem : Int)
  | recv (size : Nat) (buff : List Byte) (rem total : Int)
  deriving DecidableEq, Repr

/-- `atm_client_t` with its calls so far and the bytes on their way to the service and back. -/
structure Link where
  call : Call
  sends : List Sent
  recvs : List Received
  up : List Byte
  down : List Byte
  deriving DecidableEq, Repr

def Call.sent : Call → List Byte
  | .send _ taken _ _ => taken
  | _ => []

def Call.got : Call → List Byte
  | .recv _ buff _ _ => buff
  | _ => []

@[simp] theorem sent_out : Call.out.sent = [] := rfl
@[simp] theorem sent_send (text taken buff : List Byte) (rem : Int) : (Call.send text taken buff rem).sent = taken := rfl
@[simp] theorem sent_recv (size : Nat) (buff : List Byte) (rem total : Int) : (Call.recv size buff rem total).sent = [] := rfl
@[simp] theorem got_out : Call.out.got = [] := rfl
@[simp] theorem got_send (text taken buff : List Byte) (rem : Int) : (Call.send text taken buff rem).got = [] := rfl
@[simp] theorem got_recv (size : Nat) (buff : List Byte) (rem total : Int) : (Call.recv size buff rem total).got = buff := rfl

/-- The bytes that a client has written, and those that it has read. -/
def Link.sent (l : Link) : List Byte := l.sends.flatMap Sent.taken ++ l.call.sent

def Link.got (l : Link) : List Byte := l.recvs.flatMap Received.buff ++ l.call.got

/-! ### `atm_client.c` -/

/-- `atm_client_new` of a connection that was made -/
def atm_client_new : Link := ⟨.out,[],[],[],[]⟩

/-- The head of the loop of `atm_client_send`. -/
def send_loop (l : Link) (text taken buff : List Byte) (rem : Int) : Link :=
  if 0 < rem then { l with call := .send text taken buff rem }
  else { l with call := .out, sends := l.sends ++ [⟨text,taken,false⟩] }

/-- `rem` is an `int`. -/
def atm_client_send (l : Link) (s : List Byte) : Except Fault Link := do
  let len ← strlen s
  return send_loop l (s.take len) [] s ((len : Int).bmod (2^32))

/-- The body of the loop, where `write()` returns `count`. -/
def send_written (l : Link) (text taken buff : List Byte) (rem count : Int) : Except Fault Link := do
  let given ← read_bytes buff rem.toNat
  if 0 < count then
    let out := given.take count.toNat
    return send_loop { l with up := l.up ++ out } text (taken ++ out) (buff.drop count.toNat) (rem - count)
  else return { l with call := .out, sends := l.sends ++ [⟨text,taken,true⟩] }

def atm_client_recv (l : Link) (size : Nat) : Link := { l with call := .recv size [] size 0 }

/-- The body of the loop, where `read()` returns `ret`. -/
def recv_read (l : Link) (size : Nat) (buff : List Byte) (rem total ret : Int) : Link :=
  if 0 < ret then
    let buff := buff ++ l.down.take ret.toNat
    let down := l.down.drop ret.toNat
    if rem - ret = 0 then { l with call := .out, down := down, recvs := l.recvs ++ [⟨size,buff,total + ret⟩] }
    else { l with call := .recv size buff (rem - ret) (total + ret), down := down }
  else { l with call := .out, recvs := l.recvs ++ [⟨size,buff,if ret < 0 then ret else total⟩] }

/-! ### The network -/

structure Network where
  service : Service
  links : List Link
  deriving DecidableEq, Repr

/-- A client connects, begins a call, or goes on with the result of a system call; or a task of the service runs. -/
inductive Label where
  | connect
  | send (i : Nat) (s : List Byte)
  | write (i : Nat) (count : Int)
  | recv (i size : Nat)
  | read (i : Nat) (ret : Int)
  | serve (e : Session.Event)
  deriving DecidableEq, Repr

def network (cmds : Dict.Dictionary (Option Str) Session.Cmd) : Network := ⟨Session.service cmds,[]⟩

def Network.link (n : Network) (i : Nat) : Except Stop Link :=
  match n.links[i]? with
  | some l => .ok l
  | none => .error .disabled

def Network.set (n : Network) (i : Nat) (l : Link) : Network := { n with links := n.links.set i l }

/-- A call of a client that is in no other one. -/
def call_step (l : Link) (next : Except Fault Link) : Except Stop Link :=
  match l.call with
  | .out => next.mapError .fault
  | _ => .error .disabled

/-- `write()` takes at most what it is given. -/
def write_step (l : Link) (count : Int) : Except Stop Link :=
  match l.call with
  | .send text taken buff rem => if count ≤ rem then (send_written l text taken buff rem count).mapError .fault else .error .disabled
  | _ => .error .disabled

/-- `read()` gives at most what it is asked for and what has arrived. -/
def read_step (l : Link) (ret : Int) : Except Stop Link :=
  match l.call with
  | .recv size buff rem total => if ret ≤ rem ∧ ret ≤ l.down.length then .ok (recv_read l size buff rem total ret) else .error .disabled
  | _ => .error .disabled

section
variable (siphash : List Byte → UInt64)

def serve (n : Network) (e : Session.Event) : Except Stop Network := do
  let service ← (service_step siphash n.service e).mapError .fault
  return { n with service := service }

/-- A task of the service, which is one step, reads what has arrived, and what `write()` takes of it is on its way. -/
def serve_step (n : Network) : Session.Event → Except Stop Network
  | .accept => if n.service.clients.length < n.links.length then serve siphash n .accept else .error .disabled
  | .read i src again => do
    let l ← n.link i
    if delivered src <+: l.up then
      let n ← serve siphash n (.read i src again)
      return n.set i { l with up := l.up.drop (delivered src).length }
    else throw .disabled
  | .write i dest => do
    let l ← n.link i
    let (service,sent) ← (service_write n.service i dest).mapError .fault
    return { n with service := service }.set i { l with down := l.down ++ sent }
  | .close i => serve siphash n (.close i)

def step (n : Network) : Label → Except Stop Network
  | .connect => .ok { n with links := n.links ++ [atm_client_new] }
  | .send i s => do
    let l ← n.link i
    return n.set i (← call_step l (atm_client_send l s))
  | .write i count => do
    let l ← n.link i
    return n.set i (← write_step l count)
  | .recv i size => do
    let l ← n.link i
    return n.set i (← call_step l (.ok (atm_client_recv l size)))
  | .read i ret => do
    let l ← n.link i
    return n.set i (← read_step l ret)
  | .serve e => serve_step siphash n e

end

end AtmCache.Clients
