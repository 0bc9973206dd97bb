import AtmCache.ConnSteps

/-!
# Write wakeups

While an active connection holds unsent bytes, somebody has to see to them: `EPOLLOUT` in the
mask, a queued op that adds it, a write task before its last decision, or a writer that
has not notified. A write task takes charge of the requests counted after its snapshot and
of the bytes that its last `write()` left. It drops them when it decides to stop all the
same: `atm_conn_yield_write` looks at `write_reqs` only, and that counter wraps.
-/
namespace AtmCache.Conns
open Heap ListSets Runs

/-- Whether a write task has not taken its last decision. The one that fails takes none, but
    makes the event inactive. -/
def WriteAt.Undecided : WriteAt → Prop
  | .free_notify => False
  | .free_check => False
  | _ => True

/-- The requests counted at the snapshot. -/
def WriteAt.seen : WriteAt → Nat
  | .write_raw _ seen _ => seen
  | .aval _ seen _ => seen
  | .inter _ seen _ _ => seen
  | .yield _ seen _ => seen
  | _ => 0

/-- Whether a write task is in charge of what is unsent, when so many requests are counted: it will
    write, or requests came after its snapshot, or its last `write()` left bytes. -/
def WriteAt.Owes (requests : Nat) : WriteAt → Prop
  | .aval _ seen cut => seen < requests ∨ cut = true
  | .inter _ seen _ cut => seen < requests ∨ cut = true
  | .yield _ seen cut => seen < requests ∨ cut = true
  | .free_notify => False
  | .free_check => False
  | _ => True

/-- A write task of connection `i` at a point with `P`. -/
def Writing (i : Nat) (P : WriteAt → Prop) (job : Job) : Prop := ∃ pc, job = .write i pc ∧ P pc

/-- The writer is between `atm_buf_write` and the end of `atm_conn_write_notify`. -/
def Notifying (i : Nat) (job : Job) : Prop := job = .read i .write_notify

/-- Somebody sees to the bytes that connection `i` holds, a write task only at a point with `P`. -/
def Woken (s : Sys) (i : Nat) (c : Conn) (P : WriteAt → Prop) : Prop :=
  c.epollout = true ∨ ⟨i,.write⟩ ∈ s.evq ∨ Unfinished s.tasks (Writing i P) ∨ Unfinished s.tasks (Notifying i)

/-- A write task that is in charge of unsent bytes of an active connection does not decide to stop: for
    `atm_conn_yield_write` `write_reqs` differs from the snapshot, for `atm_conn_inter_write` it is above it or `wrmn` is
    positive. -/
def WriteAt.Handed (c : Conn) : WriteAt → Prop
  | .yield wreqs seen cut =>
    c.active = true → 0 < c.pending → (seen < c.requests ∨ cut = true) → c.write_reqs ≠ wreqs
  | .inter wreqs seen wrmn cut =>
    c.active = true → 0 < c.pending → (seen < c.requests ∨ cut = true) → wreqs < c.write_reqs ∨ 0 < wrmn
  | _ => True

/-- No step is a decision that drops what its task is in charge of. -/
def Handed (s : Sys) : Label → Prop
  | .work k _ => ∀ t i pc c, s.tasks[k]? = some t → t.job = .write i pc → get s.conns i = some c → pc.Handed c
  | _ => True

/-! ### Tasks -/

theorem WriteAt.Owes.undecided {requests : Nat} {pc : WriteAt} (owes : pc.Owes requests) : pc.Undecided := by
  cases pc with
  | free_notify => exact owes
  | free_check => exact owes
  | _ => exact trivial

/-- A request that is counted puts every write task before its decision in charge. -/
theorem WriteAt.Undecided.owes {requests : Nat} {pc : WriteAt} (undecided : pc.Undecided) (below : pc.seen < requests) :
    pc.Owes requests := by
  cases pc with
  | free_notify => exact undecided
  | free_check => exact undecided
  | aval => exact .inl below
  | inter => exact .inl below
  | yield => exact .inl below
  | _ => exact trivial

theorem WriteAt.Owes.mono {requests more : Nat} (le : requests ≤ more) {pc : WriteAt} (owes : pc.Owes requests) :
    pc.Owes more := by
  have later : ∀ {seen : Nat} {cut : Bool}, (seen < requests ∨ cut = true) → (seen < more ∨ cut = true) :=
    fun owed => owed.imp_left (fun below => Nat.lt_of_lt_of_le below le)
  cases pc with
  | aval => exact later owes
  | inter => exact later owes
  | yield => exact later owes
  | free_notify => exact owes
  | free_check => exact owes
  | _ => exact trivial

section
variable {c : Conn}

/-- A step of a read task keeps the bytes, or has written some and goes on to notify. -/
theorem ReadDoes.writes {pc : ReadAt} {e : Effect ReadAt} (does : ReadDoes (some c) pc e)
    (active : (e.conn.getD c).active = true) :
    e.next = some .write_notify ∨
      ((e.conn.getD c).pending = c.pending ∧ (pc = .write_notify ∨ (e.conn.getD c).requests = c.requests)) := by
  cases does with
  | reply c n => exact .inl rfl
  | write_notify c =>
    have same : (atm_conn_write_notify c).1.pending = c.pending := by
      unfold atm_conn_write_notify
      split <;> rfl
    exact .inr ⟨same,.inl rfl⟩
  | inactive c goes_on =>
    have off := inactive_active c .on_read
    rw [← Bool.not_eq_true] at off
    exact absurd active off
  | _ => exact .inr ⟨rfl,.inr rfl⟩

/-- The notification of an active connection queues an op, unless a write task is said to be on its way. -/
theorem ReadDoes.notifies {e : Effect ReadAt} (does : ReadDoes (some c) .write_notify e)
    (active : (e.conn.getD c).active = true) :
    (e.conn.getD c).requests = c.requests + 1 ∧ (c.on_write = true ∨ .write ∈ e.ops) := by
  cases does with
  | write_notify c =>
    have was : c.active = true := (notify_kept c).active active
    have counted : atm_conn_write_notify c = ({ c with write_reqs := u32 (c.write_reqs + 1), requests := c.requests + 1 },
        if c.on_write then [] else [.write]) := if_pos was
    rw [counted]
    refine ⟨rfl,?_⟩
    cases c.on_write with
    | true => exact .inl rfl
    | false => exact .inr (List.mem_singleton_self _)

/-- While `on_write` stays set, a write task before its decision stays before it. -/
theorem WriteDoes.undecided {pc : WriteAt} {e : Effect WriteAt} (does : WriteDoes (some c) pc e)
    (active : (e.conn.getD c).active = true) (still : (e.conn.getD c).on_write = true) :
    c.on_write = true ∧ (pc.Undecided → ∃ next, e.next = some next ∧ next.Undecided) := by
  cases does with
  | test c =>
    refine ⟨still,fun _ => ⟨.snapshot,?_,trivial⟩⟩
    have was : c.active = true := active
    simp [goes,was]
  | empty c wreqs seen total nothing =>
    refine ⟨still,fun _ => ⟨_,rfl,?_⟩⟩
    split <;> exact trivial
  | inter c wreqs seen wrmn cut => cases still
  | yield c wreqs seen cut =>
    by_cases stops : c.write_reqs = wreqs ∨ c.active = false
    · have cleared : atm_conn_yield_write c wreqs = (true,{ c with on_write := false }) := if_pos stops
      rw [cleared] at still
      cases still
    · have goesOn : atm_conn_yield_write c wreqs = (false,c) := if_neg stops
      rw [goesOn] at still ⊢
      exact ⟨still,fun _ => ⟨.test,rfl,trivial⟩⟩
  | inactive c =>
    have off := inactive_active c .on_write
    rw [← Bool.not_eq_true] at off
    exact absurd active off
  | free_notify => exact ⟨still,fun undecided => undecided.elim⟩
  | free_check c => cases still
  | _ => exact ⟨still,fun _ => ⟨_,rfl,trivial⟩⟩

/-- A write task that is in charge stays in charge or queues an op, unless it drops what is unsent. -/
theorem WriteDoes.owes {pc : WriteAt} {e : Effect WriteAt} (does : WriteDoes (some c) pc e)
    (handed : pc.Handed c) (active : (e.conn.getD c).active = true) (unsent : 0 < (e.conn.getD c).pending)
    (owes : pc.Owes c.requests) : (∃ next, e.next = some next ∧ next.Owes c.requests) ∨ .write ∈ e.ops := by
  cases does with
  | test c =>
    have was : c.active = true := active
    exact .inl ⟨.snapshot,by simp [goes,was],trivial⟩
  | cut c wreqs seen total left => exact .inl ⟨_,rfl,.inr rfl⟩
  | zero c wreqs seen total left => exact .inl ⟨_,rfl,.inr rfl⟩
  | empty c wreqs seen total nothing =>
    have none : 0 < c.pending := unsent
    omega
  | aval c wreqs seen cut => exact .inl ⟨_,rfl,owes⟩
  | inter c wreqs seen wrmn cut =>
    right
    show Mask.write ∈ if (wreqs < c.write_reqs ∨ 0 < wrmn) ∧ c.active = true then [Mask.write] else []
    rw [if_pos ⟨handed active unsent owes,active⟩]
    exact List.mem_singleton_self _
  | yield c wreqs seen cut =>
    have kept := yield_kept c wreqs
    have was : c.active = true := kept.active active
    have bytes : 0 < c.pending := by
      have same : (atm_conn_yield_write c wreqs).2.pending = c.pending := by
        unfold atm_conn_yield_write
        split <;> rfl
      rw [← same]
      exact unsent
    have differ : c.write_reqs ≠ wreqs := handed was bytes owes
    have goesOn : atm_conn_yield_write c wreqs = (false,c) := if_neg (by simp [differ,was])
    rw [goesOn]
    exact .inl ⟨.test,rfl,trivial⟩
  | inactive c =>
    have off := inactive_active c .on_write
    rw [← Bool.not_eq_true] at off
    exact absurd active off
  | free_notify => exact owes.elim
  | free_check c => exact owes.elim
  | _ => exact .inl ⟨_,rfl,trivial⟩

/-- Write tasks take bytes away and count no request. -/
theorem WriteDoes.takes {pc : WriteAt} {e : Effect WriteAt} (does : WriteDoes (some c) pc e) :
    (e.conn.getD c).pending ≤ c.pending ∧ (e.conn.getD c).requests = c.requests := by
  cases does with
  | accept c wreqs seen total n more room => exact ⟨Nat.sub_le _ _,rfl⟩
  | yield c wreqs seen cut =>
    show (atm_conn_yield_write c wreqs).2.pending ≤ c.pending ∧ (atm_conn_yield_write c wreqs).2.requests = c.requests
    unfold atm_conn_yield_write
    split <;> exact ⟨Nat.le_refl _,rfl⟩
  | inactive c =>
    show (atm_conn_inactive c .on_write).1.pending ≤ c.pending ∧ (atm_conn_inactive c .on_write).1.requests = c.requests
    unfold atm_conn_inactive
    split <;> exact ⟨Nat.le_refl _,rfl⟩
  | _ => exact ⟨Nat.le_refl _,rfl⟩

end

/-- A write task never has seen more requests than are counted. -/
theorem WriteDoes.seen {conn : Option Conn} {pc next : WriteAt} {e : Effect WriteAt} (does : WriteDoes conn pc e)
    (goesOn : e.next = some next) : ∃ c, conn = some c ∧ (pc.seen ≤ c.requests → next.seen ≤ c.requests) := by
  cases does with
  | test c =>
    cases goesOn
    refine ⟨c,rfl,fun _ => ?_⟩
    split <;> exact Nat.zero_le _
  | empty c wreqs seen total nothing =>
    cases goesOn
    refine ⟨c,rfl,fun below => ?_⟩
    split <;> exact below
  | yield c wreqs seen cut =>
    cases goesOn
    refine ⟨c,rfl,fun _ => ?_⟩
    split <;> exact Nat.zero_le _
  | snapshot c => cases goesOn; exact ⟨c,rfl,fun _ => Nat.le_refl _⟩
  | fail c wreqs seen total left => cases goesOn; exact ⟨c,rfl,fun _ => Nat.zero_le _⟩
  | inter c wreqs seen wrmn cut => cases goesOn; exact ⟨c,rfl,fun _ => Nat.zero_le _⟩
  | inactive c => cases goesOn; exact ⟨c,rfl,fun _ => Nat.zero_le _⟩
  | free_notify conn => cases goesOn
  | free_check c => cases goesOn
  | accept c wreqs seen total n more room => cases goesOn; exact ⟨c,rfl,fun below => below⟩
  | cut c wreqs seen total left => cases goesOn; exact ⟨c,rfl,fun below => below⟩
  | zero c wreqs seen total left => cases goesOn; exact ⟨c,rfl,fun below => below⟩
  | aval c wreqs seen cut => cases goesOn; exact ⟨c,rfl,fun below => below⟩

/-! ### Snapshots -/

/-- Write tasks are about connections that are there, and have not seen more requests than these
    have counted. -/
def Snapshots (s : Sys) : Prop :=
  ∀ t ∈ s.tasks, ∀ i pc, t.job = .write i pc →
    i < s.conns.length ∧ ∀ c, get s.conns i = some c → pc.seen ≤ c.requests

/-- The job of a write task after a step was there before, or is new, or is what a task goes on to. -/
theorem Does.writers {s s' : Sys} {l : Label} (does : Does s l s') {t' : Task} (member : t' ∈ s'.tasks) {i : Nat}
    {pc' : WriteAt} (job' : t'.job = .write i pc') :
    (∃ t ∈ s.tasks, t.job = .write i pc') ∨ (pc' = .test ∧ i < s.conns.length) ∨
      ∃ t ∈ s.tasks, ∃ pc e, t.job = .write i pc ∧ WriteDoes (get s.conns i) pc e ∧ e.next = some pc' := by
  cases does with
  | accept idle => exact .inl ⟨t',member,job'⟩
  | report idle found inside outside active asked =>
    rcases List.mem_append.mp member with old | new
    · exact .inl ⟨t',old,job'⟩
    · cases List.mem_singleton.mp new
      cases job'
  | handle_write main found active =>
    rcases List.mem_append.mp member with old | new
    · exact .inl ⟨t',old,job'⟩
    · cases List.mem_singleton.mp new
      cases job'
      exact .inr (.inl ⟨rfl,get_lt found⟩)
  | report_ignored idle found ignored => exact .inl ⟨t',member,job'⟩
  | handle_write_ignored main found inactive => exact .inl ⟨t',member,job'⟩
  | op idle first found => exact .inl ⟨t',member,job'⟩
  | advance there from_to =>
    rcases List.mem_or_eq_of_mem_set member with old | rfl
    · exact .inl ⟨t',old,job'⟩
    · exact .inl ⟨_,List.mem_of_getElem? there,job'⟩
  | @read k j t pc choice e there running job does =>
    rcases apply_mem member with ⟨_,_,old⟩ | same | new
    · exact .inl ⟨t',List.mem_of_getElem? old,job'⟩
    · rw [same,Task.after] at job'
      cases goesOn : e.next with
      | none => rw [goesOn,job] at job'; cases job'
      | some next => rw [goesOn] at job'; cases job'
    · rw [new] at job'
      cases job'
  | @write k j t pc choice e there running job does =>
    rcases apply_mem member with ⟨_,_,old⟩ | same | new
    · exact .inl ⟨t',List.mem_of_getElem? old,job'⟩
    · rw [same,Task.after] at job'
      cases goesOn : e.next with
      | none =>
        rw [goesOn] at job'
        exact .inl ⟨t,List.mem_of_getElem? there,job'⟩
      | some next =>
        rw [goesOn] at job'
        cases job'
        exact .inr (.inr ⟨t,List.mem_of_getElem? there,pc,e,job,does,goesOn⟩)
    · rw [new] at job'
      cases job'
  | @free k t choice s₁ there running job swept =>
    have tasks := (free_loop_swept _ _ _ _ swept).tasks
    rw [tasks] at member
    rcases List.mem_or_eq_of_mem_set member with old | rfl
    · exact .inl ⟨t',old,job'⟩
    · exact .inl ⟨_,List.mem_of_getElem? there,job'⟩

theorem snapshots_step {s s' : Sys} {l : Label} (ok : Snapshots s) (does : Does s l s') : Snapshots s' := by
  intro t' member i pc' job'
  have before : i < s.conns.length ∧ ∀ c, get s.conns i = some c → pc'.seen ≤ c.requests := by
    rcases does.writers member job' with ⟨t,old,job⟩ | ⟨rfl,inside⟩ | ⟨t,old,pc,e,job,did,goesOn⟩
    · exact ok t old i pc' job
    · exact ⟨inside,fun c _ => Nat.zero_le _⟩
    · obtain ⟨inside,below⟩ := ok t old i pc job
      obtain ⟨c,here,kept⟩ := did.seen goesOn
      refine ⟨inside,fun c' found => ?_⟩
      rw [here] at found
      cases found
      exact kept (below c here)
  refine ⟨Nat.lt_of_lt_of_le before.1 does.grows,fun c' found => ?_⟩
  rcases does.older found with ⟨new,_⟩ | ⟨c,old,le,_⟩
  · have inside := before.1
    omega
  · exact (before.2 c old).trans le

/-! ### Tasks on their way -/

/-- A connection with `on_write` has a write task before its decision. -/
def Busy (s : Sys) : Prop :=
  ∀ i c, get s.conns i = some c → c.active = true → c.on_write = true → Unfinished s.tasks (Writing i WriteAt.Undecided)

theorem writing_other {i j : Nat} {P : WriteAt → Prop} {pc : WriteAt} (other : j ≠ i) : ¬ Writing j P (.write i pc) := by
  rintro ⟨_,same,_⟩
  cases same
  exact other rfl

theorem writing_read {i j : Nat} {P : WriteAt → Prop} {pc : ReadAt} : ¬ Writing j P (.read i pc) := by
  rintro ⟨_,same,_⟩
  cases same

theorem busy_step {s s' : Sys} {l : Label} (ok : Busy s) (does : Does s l s') : Busy s' := by
  intro j c' found active writes
  cases does with
  | accept idle =>
    rcases get_of_alloc found with ⟨_,rfl⟩ | old
    · cases writes
    · exact ok j c' old active writes
  | report idle there inside outside _ asked =>
    apply unfinished_append
    rcases get_of_put there found with ⟨rfl,rfl⟩ | ⟨_,old⟩
    · exact ok _ _ there active writes
    · exact ok j c' old active writes
  | report_ignored idle there ignored => exact ok j c' found active writes
  | handle_write main there _ =>
    rcases get_of_put there found with ⟨rfl,rfl⟩ | ⟨_,old⟩
    · exact unfinished_new _ ⟨.test,rfl,trivial⟩
    · exact unfinished_append _ (ok j c' old active writes)
  | handle_write_ignored main there inactive => exact ok j c' found active writes
  | @op op rest c idle first there =>
    rcases get_of_put there found with ⟨rfl,rfl⟩ | ⟨_,old⟩
    · cases mask : op.mask <;> rw [mask] at active writes <;> exact ok _ c there active writes
    · exact ok j c' old active writes
  | advance there from_to =>
    exact unfinished_set there (fun _ holds => holds) (fun holds => ⟨(open_advance from_to).2,holds⟩)
      (ok j c' found active writes)
  | @read k i t pc choice e there running job does =>
    have idle : ¬ Writing j WriteAt.Undecided t.job := by rw [job]; exact writing_read
    apply unfinished_elsewhere there idle
    by_cases here : j = i
    · rw [here] at found ⊢
      obtain ⟨c,before,kept,rfl⟩ := apply_get (fun c' written => does.kept written) found
      rw [before] at does
      rw [does.on_write] at writes
      exact ok i c before (kept.active active) writes
    · rw [apply_get_other here] at found
      exact ok j c' found active writes
  | @write k i t pc choice e there running job does =>
    by_cases here : j = i
    · rw [here] at found ⊢
      obtain ⟨c,before,kept,rfl⟩ := apply_get (fun c' written => does.kept written) found
      rw [before] at does
      obtain ⟨wrote,passes⟩ := does.undecided active writes
      exact unfinished_goes_on there (fun _ _ same => (Job.write.inj same).2) job passes
        (ok i c before (kept.active active) wrote)
    · have idle : ¬ Writing j WriteAt.Undecided t.job := by rw [job]; exact writing_other here
      rw [apply_get_other here] at found
      exact unfinished_elsewhere there idle (ok j c' found active writes)
  | @free k t choice s₁ there running job swept =>
    obtain ⟨conns,_,tasks,_,_⟩ := free_loop_swept _ _ _ _ swept
    have idle : ¬ Writing j WriteAt.Undecided t.job := by
      rw [job]
      rintro ⟨_,same,_⟩
      cases same
    dsimp only
    rw [tasks]
    exact unfinished_set there (fun _ holds => holds) (fun holds => absurd holds idle)
      (ok j c' (conns j c' found) active writes)

/-! ### Unsent bytes -/

/-- Somebody is in charge of what active connections have not sent. -/
def Covered (s : Sys) : Prop :=
  ∀ i c, get s.conns i = some c → c.active = true → 0 < c.pending → Woken s i c (WriteAt.Owes c.requests)

theorem Woken.mono {s s' : Sys} {i : Nat} {c c' : Conn} {P Q : WriteAt → Prop} (woken : Woken s i c P)
    (mask : c.epollout = true → c'.epollout = true) (evq : ⟨i,.write⟩ ∈ s.evq → ⟨i,.write⟩ ∈ s'.evq)
    (writing : Unfinished s.tasks (Writing i P) → Unfinished s'.tasks (Writing i Q))
    (notifying : Unfinished s.tasks (Notifying i) → Unfinished s'.tasks (Notifying i)) : Woken s' i c' Q :=
  woken.imp mask (Or.imp evq (Or.imp writing notifying))

theorem Woken.read_step {s : Sys} {k i : Nat} {t : Task} {pc : ReadAt} {e : Effect ReadAt} {c : Conn}
    (snapshots : Snapshots s) (busy : Busy s) (covered : Covered s) (there : s.tasks[k]? = some t)
    (job : t.job = .read i pc) (found : get s.conns i = some c) (does : ReadDoes (some c) pc e)
    (kept : Kept c (e.conn.getD c)) (active : (e.conn.getD c).active = true) (unsent : 0 < (e.conn.getD c).pending) :
    Woken (s.apply k i t (Job.read i) e) i (e.conn.getD c) (WriteAt.Owes (e.conn.getD c).requests) := by
  have idle : ∀ P, ¬ Writing i P t.job := fun P => by rw [job]; exact writing_read
  rcases does.writes active with notifies | ⟨bytes,notified⟩
  · -- bytes were written, and the writer has still to notify
    right; right; right
    refine ⟨t.after (Job.read i) e,List.mem_append_left _ (mem_set_self there _),?_,?_⟩
    · rw [Task.after,notifies]
      exact fun same => by cases same
    · rw [Task.after,notifies]
      exact rfl
  · by_cases last : pc = .write_notify
    · -- the request is counted: an op is queued, or a write task will see it
      subst last
      obtain ⟨counted,writes | queued⟩ := does.notifies active
      · obtain ⟨t₀,member,open',pc₀,job₀,undecided⟩ := busy i c found (kept.active active) writes
        have below := (snapshots t₀ member i pc₀ job₀).2 c found
        have owes : pc₀.Owes (e.conn.getD c).requests := undecided.owes (by omega)
        right; right; left
        exact unfinished_elsewhere there (idle _)
          ⟨t₀,member,open',pc₀,job₀,owes⟩
      · right; left
        exact List.mem_append_right _ (List.mem_map_of_mem queued)
    · have requests : (e.conn.getD c).requests = c.requests := notified.resolve_left last
      rw [requests]
      rw [bytes] at unsent
      refine (covered i c found (kept.active active) unsent).mono ?_ ?_ ?_ ?_
      · rw [kept.epollout]
        exact fun on => on
      · exact fun queued => List.mem_append_left _ queued
      · exact unfinished_elsewhere there (idle _)
      · refine unfinished_apply there (fun holds => ?_)
        rw [Notifying,job] at holds
        exact absurd (Job.read.inj holds).2 last

theorem Woken.write_step {s : Sys} {k i : Nat} {t : Task} {pc : WriteAt} {e : Effect WriteAt} {c : Conn}
    (covered : Covered s) (there : s.tasks[k]? = some t) (job : t.job = .write i pc) (handed : pc.Handed c)
    (found : get s.conns i = some c) (does : WriteDoes (some c) pc e) (kept : Kept c (e.conn.getD c))
    (active : (e.conn.getD c).active = true) (unsent : 0 < (e.conn.getD c).pending) :
    Woken (s.apply k i t (Job.write i) e) i (e.conn.getD c) (WriteAt.Owes (e.conn.getD c).requests) := by
  obtain ⟨fewer,requests⟩ := does.takes
  rw [requests]
  have before := covered i c found (kept.active active) (Nat.lt_of_lt_of_le unsent fewer)
  have ops : ⟨i,.write⟩ ∈ s.evq → ⟨i,.write⟩ ∈ (s.apply k i t (Job.write i) e).evq :=
    fun queued => List.mem_append_left _ queued
  by_cases queues : .write ∈ e.ops
  · right; left
    exact List.mem_append_right _ (List.mem_map_of_mem queues)
  · refine before.mono ?_ ops ?_ ?_
    · rw [kept.epollout]
      exact fun on => on
    · have passes := fun owes => (does.owes handed active unsent owes).resolve_right queues
      exact unfinished_goes_on there (fun _ _ same => (Job.write.inj same).2) job passes
    · refine unfinished_apply there (fun holds => ?_)
      rw [Notifying,job] at holds
      cases holds

theorem covered_step {s s' : Sys} {l : Label} (snapshots : Snapshots s) (busy : Busy s) (ok : Covered s)
    (does : Does s l s') (handed : Handed s l) : Covered s' := by
  intro j c' found active unsent
  cases does with
  | accept idle =>
    rcases get_of_alloc found with ⟨_,rfl⟩ | old
    · exact absurd unsent (Nat.lt_irrefl 0)
    · exact ok j c' old active unsent
  | @report i _ _ _ _ idle there inside outside _ asked =>
    have more : ∀ P, Unfinished s.tasks P → Unfinished (s.tasks ++ [dispatched (.read i .enter)]) P :=
      fun P => unfinished_append _
    rcases get_of_put there found with ⟨rfl,rfl⟩ | ⟨_,old⟩
    · exact (ok _ _ there active unsent).mono (fun on => on) (fun queued => queued) (more _) (more _)
    · exact (ok j c' old active unsent).mono (fun on => on) (fun queued => queued) (more _) (more _)
  | report_ignored idle there ignored => exact ok j c' found active unsent
  | handle_write main there _ =>
    rcases get_of_put there found with ⟨rfl,rfl⟩ | ⟨_,old⟩
    · right; right; left
      exact unfinished_new _ ⟨.test,rfl,trivial⟩
    · exact (ok j c' old active unsent).mono (fun on => on) (fun queued => queued) (unfinished_append _) (unfinished_append _)
  | handle_write_ignored main there inactive => exact ok j c' found active unsent
  | @op op rest c idle first there =>
    have later : op ≠ ⟨j,.write⟩ → ⟨j,.write⟩ ∈ s.evq → ⟨j,.write⟩ ∈ rest := by
      intro other queued
      rw [first] at queued
      exact (List.mem_cons.mp queued).resolve_left (Ne.symm other)
    rcases get_of_put there found with ⟨rfl,rfl⟩ | ⟨other,old⟩
    · obtain ⟨i,mask⟩ := op
      cases mask with
      | read => exact (ok i c there active unsent).mono (fun on => on) (later (fun same => by cases same)) (fun is => is) (fun is => is)
      | write => exact .inl rfl
    · refine (ok j c' old active unsent).mono (fun on => on) (later ?_) (fun is => is) (fun is => is)
      rintro rfl
      exact other rfl
  | @advance _ k t stage there from_to =>
    have open' := (open_advance from_to).2
    have still : ∀ P, Unfinished s.tasks P → Unfinished (s.tasks.set k { t with stage := stage }) P :=
      fun P => unfinished_set there (fun _ holds => holds) (fun holds => ⟨open',holds⟩)
    exact (ok j c' found active unsent).mono (fun on => on) (fun queued => queued) (still _) (still _)
  | @read k i t pc choice e there running job does =>
    by_cases here : j = i
    · rw [here] at found ⊢
      obtain ⟨c,before,kept,rfl⟩ := apply_get (fun c' written => does.kept written) found
      rw [before] at does
      exact Woken.read_step snapshots busy ok there job before does kept active unsent
    · rw [apply_get_other here] at found
      refine (ok j c' found active unsent).mono (fun on => on) (fun queued => List.mem_append_left _ queued) ?_ ?_
      · refine unfinished_apply there (fun holds => ?_)
        rw [job] at holds
        exact absurd holds writing_read
      · refine unfinished_apply there (fun holds => ?_)
        rw [Notifying,job] at holds
        exact absurd (Job.read.inj holds).1.symm here
  | @write k i t pc choice e there running job does =>
    by_cases here : j = i
    · rw [here] at found ⊢
      obtain ⟨c,before,kept,rfl⟩ := apply_get (fun c' written => does.kept written) found
      have drops := handed t i pc c there job before
      rw [before] at does
      exact Woken.write_step ok there job drops before does kept active unsent
    · rw [apply_get_other here] at found
      refine (ok j c' found active unsent).mono (fun on => on) (fun queued => List.mem_append_left _ queued) ?_ ?_
      · refine unfinished_apply there (fun holds => ?_)
        rw [job] at holds
        exact absurd holds (writing_other here)
      · refine unfinished_apply there (fun holds => ?_)
        rw [Notifying,job] at holds
        cases holds
  | @free k t choice s₁ there running job swept =>
    obtain ⟨conns,_,tasks,evq,_⟩ := free_loop_swept _ _ _ _ swept
    have idle : ∀ P, (∀ job, P job → job ≠ .free) → Unfinished s.tasks P →
        Unfinished (s₁.tasks.set k { t with stage := .done }) P := by
      intro P busyOnly
      rw [tasks]
      exact unfinished_set there (fun _ holds => holds) (fun holds => absurd job (busyOnly _ holds))
    refine (ok j c' (conns j c' found) active unsent).mono (fun on => on) (fun queued => evq ▸ queued) (idle _ ?_) (idle _ ?_)
    · rintro _ ⟨_,rfl,_⟩
      exact fun same => by cases same
    · rintro _ rfl
      exact fun same => by cases same

/-- Write wakeups are not lost: in every run in which no write task drops what it is in charge of, an
    active connection with unsent bytes has `EPOLLOUT` in its mask, a queued op that adds it, a write task
    before its last decision, or a writer that has not notified. -/
theorem wakeup_kept {labels : List Label} (each : EachStep step start labels Handed) :
    Always step start labels (fun _ s => ∀ i c, get s.conns i = some c → c.active = true → 0 < c.pending →
      Woken s i c WriteAt.Undecided) := by
  intro pre s isPre ran i c found active unsent
  have started : Snapshots start ∧ Busy start ∧ Covered start :=
    ⟨fun _ member => (by cases member),fun _ _ found => (by cases found),fun _ _ found => (by cases found)⟩
  obtain ⟨_,_,covered⟩ := run_invariant (P := fun _ s => Snapshots s ∧ Busy s ∧ Covered s) started
    (fun _ l s s' ok handed took =>
      have does := step_does took
      ⟨snapshots_step ok.1 does,busy_step ok.2.1 does,covered_step ok.1 ok.2.1 ok.2.2 does handed⟩)
    (eachStep_shorten each isPre) ran
  refine (covered i c found active unsent).mono (fun on => on) (fun queued => queued) ?_ (fun is => is)
  rintro ⟨t,member,open',pc,job,owes⟩
  exact ⟨t,member,open',pc,job,owes.undecided⟩

theorem wakeup_kept_reply : Always step start
    [.accept,.report 0 true false false,.deliver,.begin 0,.work 0 .go,.work 0 .alive,.work 0 (.reply 5),.work 0 .go]
    (fun _ s => ∀ i c, get s.conns i = some c → c.active = true → 0 < c.pending → Woken s i c WriteAt.Undecided) := by
  apply wakeup_kept
  refine eachStep_cons.mpr ⟨trivial,fun s ran => ?_⟩
  cases ran
  refine eachStep_cons.mpr ⟨trivial,fun s ran => ?_⟩
  cases ran
  refine eachStep_cons.mpr ⟨trivial,fun s ran => ?_⟩
  cases ran
  refine eachStep_cons.mpr ⟨trivial,fun s ran => ?_⟩
  cases ran
  refine eachStep_cons.mpr ⟨fun t i pc c there job _ => (by cases there; cases job),fun s ran => ?_⟩
  cases ran
  refine eachStep_cons.mpr ⟨fun t i pc c there job _ => (by cases there; cases job),fun s ran => ?_⟩
  cases ran
  refine eachStep_cons.mpr ⟨fun t i pc c there job _ => (by cases there; cases job),fun s ran => ?_⟩
  cases ran
  refine eachStep_cons.mpr ⟨fun t i pc c there job _ => (by cases there; cases job),fun s _ => ?_⟩
  exact eachStep_nil s Handed

/-- The socket takes two of five bytes and then no more: the write task stops without an op, and nobody will
    send the other three. -/
theorem wakeup_lost : ∃ s c, run step start
    [.accept,.report 0 true false false,.deliver,.begin 0,.work 0 .go,.work 0 .alive,.work 0 (.reply 5),.work 0 .go,.op,
      .report 0 false true false,.handle_write,.deliver,.begin 1,.work 1 .go,.work 1 .go,.work 1 (.accept 2),
      .work 1 .again,.work 1 .go,.work 1 .go,.work 0 (.finish true),.work 0 .go,.work 0 .go,.work 0 .go,.op] = .ok s ∧
    get s.conns 0 = some c ∧ c.active = true ∧ c.pending = 3 ∧ ¬ Woken s 0 c WriteAt.Undecided := by
  refine ⟨⟨[some ⟨true,true,false,false,false,1,3,1⟩],
    [⟨.read 0 .free_check,.done,true⟩,⟨.write 0 .free_check,.done,true⟩],[],.idle,[],[]⟩,_,rfl,rfl,rfl,rfl,?_⟩
  rintro (on | queued | ⟨t,member,open',_⟩ | ⟨t,member,open',_⟩)
  · cases on
  · cases queued
  · simp only [List.mem_cons,List.not_mem_nil,or_false] at member
    rcases member with rfl | rfl <;> exact open' rfl
  · simp only [List.mem_cons,List.not_mem_nil,or_false] at member
    rcases member with rfl | rfl <;> exact open' rfl

end AtmCache.Conns
