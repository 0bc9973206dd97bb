import AtmCache.EventModel
import AtmCache.Machine

/-!
# Registration when epoll fails

An event with the interest list of the kernel, where a call of `epoll_ctl` may fail for lack of
memory or of watches and then changes nothing. A state also records the operations that were issued,
each with whether the fd was registered in the kernel at that time. As long as no
`EPOLL_CTL_ADD` fails, the flag of the event and the kernel agree (`mirrors_iff_added`); one that
fails sets the flag all the same.
-/
namespace AtmCache.EventCtl
open Events Runs

/-- How a call of `epoll_ctl` that adds or modifies ends where the operation is possible. -/
inductive Outcome where
  | success
  | ENOMEM
  | ENOSPC
  deriving DecidableEq, Repr

/-- The event with what epoll watches for its fd, the operations issued so far and
    whether one has failed. -/
structure Sys where
  event : Event
  issued : List (Ctl × Bool)
  failed : Bool

/-- Whether `epoll_ctl` returns -1: the operation does not fit the interest list, or an addition or a
    modification fails. -/
def refused (interest : Option (BitVec 32)) (op : Ctl) (outcome : Outcome) : Bool :=
  match op, interest with
  | .EPOLL_CTL_ADD, some _ => true
  | .EPOLL_CTL_MOD, none => true
  | .EPOLL_CTL_DEL, none => true
  | .EPOLL_CTL_DEL, some _ => false
  | _, _ => outcome ≠ .success

/-- The call of `epoll_ctl`, whose return value is only logged, for an event whose mask is `events` now. -/
def issue (s : Sys) (op : Ctl) (events : BitVec 32) (outcome : Outcome) : Sys where
  event := ⟨events,s.event._registed,
    if refused s.event.interest op outcome then s.event.interest else epoll_ctl s.event.interest op events⟩
  issued := s.issued ++ [(op,s.event.interest.isSome)]
  failed := s.failed || refused s.event.interest op outcome

def Sys.set_registed (s : Sys) (_registed : Bool) : Sys := { s with event := { s.event with _registed := _registed } }

def atm_event_new : Sys := ⟨Events.atm_event_new,[],false⟩

def atm_event_add_event (s : Sys) (mask : BitVec 32) (outcome : Outcome) : Sys :=
  let events := s.event.events ||| mask
  if events ≠ ATM_EVENT_NONE then
    (issue s (if s.event._registed then .EPOLL_CTL_MOD else .EPOLL_CTL_ADD) events outcome).set_registed true
  else { s with event := { s.event with events := events } }

def atm_event_del_event (s : Sys) (unmask : BitVec 32) (outcome : Outcome) : Sys :=
  let events := s.event.events &&& ~~~unmask
  if s.event._registed then
    if events ≠ ATM_EVENT_NONE then issue s .EPOLL_CTL_MOD events outcome
    else (issue s .EPOLL_CTL_DEL events outcome).set_registed false
  else { s with event := { s.event with events := events } }

/-- A call, with how its `epoll_ctl` ends. -/
inductive Call where
  | add (mask : BitVec 32) (outcome : Outcome)
  | del (unmask : BitVec 32) (outcome : Outcome)

def step (s : Sys) : Call → Except Fault Sys
  | .add mask outcome => .ok (atm_event_add_event s mask outcome)
  | .del unmask outcome => .ok (atm_event_del_event s unmask outcome)

/-! ### Without failures -/

theorem issue_success (s : Sys) (op : Ctl) (events : BitVec 32) :
    (issue s op events .success).event = ⟨events,s.event._registed,epoll_ctl s.event.interest op events⟩ := by
  rw [issue]
  cases interest : s.event.interest <;> cases op <;> rfl

theorem add_success (s : Sys) (mask : BitVec 32) :
    (atm_event_add_event s mask .success).event = Events.atm_event_add_event s.event mask := by
  rw [atm_event_add_event,Events.atm_event_add_event]
  split_ifs <;> simp [Sys.set_registed,issue_success, *]

theorem del_success (s : Sys) (unmask : BitVec 32) :
    (atm_event_del_event s unmask .success).event = Events.atm_event_del_event s.event unmask := by
  rw [atm_event_del_event,Events.atm_event_del_event]
  split_ifs <;> simp [Sys.set_registed,issue_success, *]

/-! ### The flag and the kernel -/

/-- The flag says whether the fd is in the interest list, every operation fitted the list when it was
    issued, and if none has failed the kernel has the mask of the event, or nothing for an empty one. -/
structure Mirrors (s : Sys) : Prop where
  flag : s.event._registed = s.event.interest.isSome
  fitting : ∀ p ∈ s.issued, p.2 = true ↔ p.1 ≠ .EPOLL_CTL_ADD
  mask : s.failed = false → s.event.interest = if s.event.events ≠ ATM_EVENT_NONE then some s.event.events else none

/-- The call does not issue an `EPOLL_CTL_ADD` that fails. -/
def Added (s : Sys) : Call → Prop
  | .add mask outcome => s.event._registed = true ∨ s.event.events ||| mask = ATM_EVENT_NONE ∨ outcome = .success
  | .del _ _ => True

theorem new_mirrors : Mirrors atm_event_new where
  flag := rfl
  fitting := fun _ member => absurd member List.not_mem_nil
  mask := fun _ => rfl

/-- A call of `epoll_ctl` that fits the interest list, and the flag that is stored after it. -/
theorem issue_mirrors {s : Sys} (mirrors : Mirrors s) {op : Ctl} {events : BitVec 32} {outcome : Outcome} {flag : Bool}
    (fits : s.event.interest.isSome = true ↔ op ≠ .EPOLL_CTL_ADD)
    (same : flag = (issue s op events outcome).event.interest.isSome)
    (stored : refused s.event.interest op outcome = false →
      epoll_ctl s.event.interest op events = if events ≠ ATM_EVENT_NONE then some events else none) :
    Mirrors ((issue s op events outcome).set_registed flag) where
  flag := same
  fitting := by
    intro p member
    rcases List.mem_append.mp member with before | last
    · exact mirrors.fitting p before
    · rw [List.mem_singleton.mp last]
      exact fits
  mask := by
    intro none
    have accepted : refused s.event.interest op outcome = false := (Bool.or_eq_false_iff.mp none).2
    simp only [issue,Sys.set_registed,accepted]
    exact stored accepted

theorem mod_mirrors {s : Sys} (mirrors : Mirrors s) {old events : BitVec 32} (interest : s.event.interest = some old)
    (some : events ≠ ATM_EVENT_NONE) (outcome : Outcome) :
    Mirrors ((issue s .EPOLL_CTL_MOD events outcome).set_registed true) := by
  apply issue_mirrors mirrors
  · simp [interest]
  · rw [issue,interest]
    cases refused (.some old) .EPOLL_CTL_MOD outcome <;> rfl
  · intro _
    rw [interest,if_pos some]
    rfl

theorem add_mirrors {s : Sys} (mirrors : Mirrors s) {mask : BitVec 32} {outcome : Outcome}
    (added : Added s (.add mask outcome)) : Mirrors (atm_event_add_event s mask outcome) := by
  by_cases none : s.event.events ||| mask = ATM_EVENT_NONE
  · have empty : s.event.events = ATM_EVENT_NONE := (BitVec.or_eq_zero_iff.mp none).1
    rw [atm_event_add_event,if_neg (not_not.mpr none),none,← empty]
    exact mirrors
  · rw [atm_event_add_event,if_pos none]
    cases interest : s.event.interest with
    | some old =>
      have registered : s.event._registed = true := mirrors.flag.trans (by rw [interest]; rfl)
      rw [if_pos registered]
      exact mod_mirrors mirrors interest none outcome
    | none =>
      have unregistered : s.event._registed = false := mirrors.flag.trans (by rw [interest]; rfl)
      have success : outcome = .success := by
        rcases added with registered | empty | success
        · rw [unregistered] at registered
          cases registered
        · exact absurd empty none
        · exact success
      subst success
      rw [unregistered,if_neg Bool.false_ne_true]
      apply issue_mirrors mirrors
      · simp [interest]
      · simp [issue,interest,refused,epoll_ctl]
      · intro _
        rw [interest,if_pos none]
        rfl

theorem del_mirrors {s : Sys} (mirrors : Mirrors s) (unmask : BitVec 32) (outcome : Outcome) :
    Mirrors (atm_event_del_event s unmask outcome) := by
  rw [atm_event_del_event]
  cases interest : s.event.interest with
  | none =>
    have unregistered : s.event._registed = false := mirrors.flag.trans (by rw [interest]; rfl)
    rw [if_neg (by rw [unregistered]; exact Bool.false_ne_true)]
    refine ⟨mirrors.flag,mirrors.fitting,?_⟩
    intro clean
    have empty : s.event.events = ATM_EVENT_NONE := by
      by_contra some
      have mask := mirrors.mask clean
      rw [interest,if_pos some] at mask
      cases mask
    simp [empty,interest,ATM_EVENT_NONE]
  | some old =>
    have registered : s.event._registed = true := mirrors.flag.trans (by rw [interest]; rfl)
    rw [if_pos registered]
    by_cases none : s.event.events &&& ~~~unmask = ATM_EVENT_NONE
    · rw [if_neg (not_not.mpr none)]
      apply issue_mirrors mirrors
      · simp [interest]
      · simp [issue,interest,refused,epoll_ctl]
      · intro _
        rw [interest,if_neg (not_not.mpr none)]
        rfl
    · have kept : issue s .EPOLL_CTL_MOD (s.event.events &&& ~~~unmask) outcome =
          (issue s .EPOLL_CTL_MOD (s.event.events &&& ~~~unmask) outcome).set_registed true := by
        rw [Sys.set_registed,issue,registered]
      rw [if_pos none,kept]
      exact mod_mirrors mirrors interest none outcome

/-- An `EPOLL_CTL_ADD` that fails leaves the flag set and the fd unwatched. -/
theorem add_fails {s : Sys} (mirrors : Mirrors s) {mask : BitVec 32} {outcome : Outcome}
    (failed : ¬Added s (.add mask outcome)) : ¬Mirrors (atm_event_add_event s mask outcome) := by
  obtain ⟨unregistered,more⟩ := not_or.mp failed
  obtain ⟨some,failure⟩ := not_or.mp more
  have absent : s.event.interest = none := by
    have flag := mirrors.flag
    cases interest : s.event.interest with
    | none => rfl
    | some old => exact absurd (flag.trans (by rw [interest]; rfl)) unregistered
  intro after
  have flag := after.flag
  rw [atm_event_add_event,if_pos some,if_neg unregistered] at flag
  simp [Sys.set_registed,issue,absent,refused,failure] at flag

theorem step_returns (s : Sys) (c : Call) : ∃ t, step s c = .ok t := by
  cases c with
  | add mask outcome => exact ⟨_,rfl⟩
  | del unmask outcome => exact ⟨_,rfl⟩

theorem step_mirrors {s t : Sys} {c : Call} (mirrors : Mirrors s) (added : Added s c) (done : step s c = .ok t) :
    Mirrors t := by
  cases c with
  | add mask outcome =>
    cases done
    exact add_mirrors mirrors added
  | del unmask outcome =>
    cases done
    exact del_mirrors mirrors unmask outcome

theorem run_returns (calls : List Call) : ∃ s, run step atm_event_new calls = .ok s := by
  have each : EachStep step atm_event_new calls (fun _ _ => True) := fun _ _ _ _ _ => trivial
  obtain ⟨s,ran,_⟩ := run_total (P := fun _ _ => True) trivial
    (fun _ c t _ _ => (step_returns t c).imp (fun _ done => ⟨done,trivial⟩)) each
  exact ⟨s,ran⟩

/-- For every sequence of calls and every outcome of `epoll_ctl`, the event mirrors the kernel after
    each call exactly when no `EPOLL_CTL_ADD` fails. -/
theorem mirrors_iff_added (calls : List Call) :
    Always step atm_event_new calls (fun _ s => Mirrors s) ↔ EachStep step atm_event_new calls Added := by
  obtain ⟨s,ran⟩ := run_returns calls
  have within : EachStep step atm_event_new calls (fun _ _ => True) := fun _ _ _ _ _ => trivial
  refine always_iff_eachStep (I := fun _ s => Mirrors s) new_mirrors (fun _ _ mirrors => mirrors) ?_ ?_ within ran
  · intro _ c t u mirrors _ added done
    exact step_mirrors mirrors added done
  · intro _ c t u mirrors _ failed done
    cases c with
    | add mask outcome =>
      cases done
      exact add_fails mirrors failed
    | del unmask outcome => exact absurd trivial failed

/-- One failed addition: the event counts as registered and is not watched. -/
theorem mirrors_fails : ¬∀ calls, Always step atm_event_new calls (fun _ s => Mirrors s) := by
  intro always
  have after := always [.add EPOLLIN .ENOSPC] [.add EPOLLIN .ENOSPC] _ (List.prefix_refl _) rfl
  exact absurd after.flag (by decide)

end AtmCache.EventCtl
