import Mathlib.Tactic.Common

/-!
# Events

`atm_event_t` with its mask as the bits of `epoll_event`, and what epoll watches for its fd. A failed
`epoll_ctl` is only logged.
-/
namespace AtmCache.Events

def EPOLLIN : BitVec 32 := 0x001
def EPOLLOUT : BitVec 32 := 0x004
def EPOLLHUP : BitVec 32 := 0x010
def EPOLLET : BitVec 32 := 0x80000000

def ATM_EVENT_NONE : BitVec 32 := 0
def ATM_EVENT_READ : BitVec 32 := EPOLLIN
def ATM_EVENT_WRITE : BitVec 32 := EPOLLOUT

/-- `events` and `_registed` of the event, and the mask in the interest list if the fd is there. -/
structure Event where
  events : BitVec 32
  _registed : Bool
  interest : Option (BitVec 32)
  deriving DecidableEq

inductive Ctl where
  | EPOLL_CTL_ADD
  | EPOLL_CTL_MOD
  | EPOLL_CTL_DEL

/-- The interest list fails to add what is there, and to change or delete what is not. -/
def epoll_ctl (interest : Option (BitVec 32)) (op : Ctl) (events : BitVec 32) : Option (BitVec 32) :=
  match op, interest with
  | .EPOLL_CTL_ADD, none => some events
  | .EPOLL_CTL_ADD, some old => some old
  | .EPOLL_CTL_MOD, none => none
  | .EPOLL_CTL_MOD, some _ => some events
  | .EPOLL_CTL_DEL, _ => none

def atm_event_new : Event := ⟨ATM_EVENT_NONE,false,none⟩

def atm_event_add_event (e : Event) (mask : BitVec 32) : Event :=
  let events := e.events ||| mask
  if events ≠ ATM_EVENT_NONE then
    ⟨events,true,epoll_ctl e.interest (if e._registed then .EPOLL_CTL_MOD else .EPOLL_CTL_ADD) events⟩
  else { e with events := events }

def atm_event_del_event (e : Event) (unmask : BitVec 32) : Event :=
  let events := e.events &&& ~~~unmask
  if e._registed then
    if events ≠ ATM_EVENT_NONE then ⟨events,true,epoll_ctl e.interest .EPOLL_CTL_MOD events⟩
    else ⟨events,false,epoll_ctl e.interest .EPOLL_CTL_DEL events⟩
  else { e with events := events }

/-- The event of a new connection. -/
def atm_event_add_conn : Event := atm_event_add_event atm_event_new (EPOLLIN ||| EPOLLHUP ||| EPOLLET)

/-- Whether epoll watches for one of the events. -/
def Event.watches (e : Event) (events : BitVec 32) : Bool :=
  match e.interest with
  | some mask => mask &&& events ≠ 0
  | none => false

end AtmCache.Events
