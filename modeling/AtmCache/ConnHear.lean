import AtmCache.ConnSteps
import AtmCache.EventModel

/-!
# Active connections are heard

The system beside the event structures that its steps change: the two bits that it keeps of a mask are those
of the event, whose other bits stay, so that the fd stays registered. An active connection has `EPOLLIN` in the
mask, a queued op that adds it, or a read task that is not past the step that restores it.
-/
namespace AtmCache.Conns
open Heap ListSets Runs

/-! ### Event structures -/

def Mask.bits : Mask → BitVec 32
  | .read => Events.ATM_EVENT_READ
  | .write => Events.ATM_EVENT_WRITE

/-- The system with the event structure of each connection. -/
structure Watched where
  sys : Sys
  events : Cells Events.Event

/-- What a step does to the event structures. -/
def Watched.after (w : Watched) : Label → Cells Events.Event
  | .accept => alloc w.events Events.atm_event_add_conn
  | .report i epollin _ err =>
    match get w.sys.conns i, get w.events i with
    | some c, some e =>
      if (epollin || err) && c.active then put w.events i (Events.atm_event_del_event e Events.ATM_EVENT_READ) else w.events
    | _, _ => w.events
  | .handle_write =>
    match w.sys.main with
    | .handle_write i =>
      match get w.sys.conns i, get w.events i with
      | some c, some e =>
        if c.active then put w.events i (Events.atm_event_del_event e Events.ATM_EVENT_WRITE) else w.events
      | _, _ => w.events
    | .idle => w.events
  | .op =>
    match w.sys.evq with
    | op :: _ =>
      match get w.events op.e with
      | some e => put w.events op.e (Events.atm_event_add_event e op.mask.bits)
      | none => w.events
    | [] => w.events
  | _ => w.events

def watch (w : Watched) (l : Label) : Except Stop Watched := do return ⟨← step w.sys l,w.after l⟩

/-- A registered event structure with these two bits. -/
def event_with (epollin epollout : Bool) : Events.Event :=
  let events := Events.EPOLLHUP ||| Events.EPOLLET ||| (if epollin then Events.EPOLLIN else 0) |||
    (if epollout then Events.EPOLLOUT else 0)
  ⟨events,true,some events⟩

/-- The event structure of a connection. -/
def event_of (c : Conn) : Events.Event := event_with c.epollin c.epollout

theorem del_read : ∀ epollin epollout,
    Events.atm_event_del_event (event_with epollin epollout) Events.ATM_EVENT_READ = event_with false epollout := by
  decide

theorem del_write : ∀ epollin epollout,
    Events.atm_event_del_event (event_with epollin epollout) Events.ATM_EVENT_WRITE = event_with epollin false := by
  decide

theorem add_read : ∀ epollin epollout,
    Events.atm_event_add_event (event_with epollin epollout) Events.ATM_EVENT_READ = event_with true epollout := by
  decide

theorem add_write : ∀ epollin epollout,
    Events.atm_event_add_event (event_with epollin epollout) Events.ATM_EVENT_WRITE = event_with epollin true := by
  decide

theorem watches_in : ∀ epollin epollout, (event_with epollin epollout).watches Events.EPOLLIN = epollin := by
  decide

/-- Only the two bits of the mask matter. -/
theorem event_of_congr {c c' : Conn} (epollin : c'.epollin = c.epollin) (epollout : c'.epollout = c.epollout) :
    event_of c' = event_of c := by
  rw [event_of,epollin,epollout,event_of]

/-- The event structures of the connections that are there are as the system has them. -/
structure Mirrors (w : Watched) : Prop where
  length : w.events.length = w.sys.conns.length
  each : ∀ i c, get w.sys.conns i = some c → get w.events i = some (event_of c)

theorem Mirrors.put {w : Watched} (ok : Mirrors w) {i : Nat} {c c' : Conn} (found : get w.sys.conns i = some c) (s' : Sys)
    (conns : s'.conns = Heap.put w.sys.conns i c') : Mirrors ⟨s',Heap.put w.events i (event_of c')⟩ := by
  refine ⟨by rw [conns,put_length,put_length]; exact ok.length,fun j d there => ?_⟩
  rw [conns] at there
  rcases get_of_put found there with ⟨rfl,rfl⟩ | ⟨other,old⟩
  · exact get_put_self (ok.each _ c found) _
  · exact (get_put_other _ other _).trans (ok.each j d old)

theorem Mirrors.same {w : Watched} (ok : Mirrors w) {s' : Sys} (length : s'.conns.length = w.sys.conns.length)
    (same : ∀ i c', get s'.conns i = some c' → ∃ c, get w.sys.conns i = some c ∧ event_of c' = event_of c) :
    Mirrors ⟨s',w.events⟩ := by
  refine ⟨ok.length.trans length.symm,fun i c' there => ?_⟩
  obtain ⟨c,found,alike⟩ := same i c' there
  rw [alike]
  exact ok.each i c found

theorem Mirrors.apply {P : Type} {w : Watched} {k i : Nat} {t : Task} {job : P → Job} {e : Effect P} (ok : Mirrors w)
    (kept : ∀ c', e.conn = some c' → ∃ c, get w.sys.conns i = some c ∧ Kept c c') :
    Mirrors ⟨w.sys.apply k i t job e,w.events⟩ := by
  apply ok.same apply_length
  intro j c' there
  by_cases here : j = i
  · rw [here] at there ⊢
    obtain ⟨c,found,same,_⟩ := apply_get kept there
    exact ⟨c,found,event_of_congr same.epollin same.epollout⟩
  · rw [apply_get_other here] at there
    exact ⟨c',there,rfl⟩

theorem mirrors_step {w : Watched} {s' : Sys} {l : Label} (ok : Mirrors w) (does : Does w.sys l s') :
    Mirrors ⟨s',w.after l⟩ := by
  cases does with
  | accept idle =>
    have length := ok.length
    refine ⟨?_,fun j c' there => ?_⟩
    · simp only [Watched.after,alloc,List.length_append,length,List.length_singleton]
    · rcases get_of_alloc there with ⟨rfl,rfl⟩ | old
      · rw [← length]
        exact get_alloc_new _ _
      · exact (get_alloc_old _ (length ▸ get_lt old)).trans (ok.each j c' old)
  | @report i c epollin epollout err idle found inside outside active asked =>
    have both : ((epollin || err) && c.active) = true := by rw [active]; simpa using asked
    have events : w.after (.report i epollin epollout err) = Heap.put w.events i (event_of { c with epollin := false, on_read := true }) := by
      simp only [Watched.after,found,ok.each i c found,both,if_true]
      rw [event_of,del_read,event_of]
    rw [events]
    exact ok.put found _ rfl
  | @report_ignored i c epollin epollout err idle found ignored =>
    have not : ((epollin || err) && c.active) = false := by
      rcases ignored with off | ⟨off,off'⟩
      · rw [off,Bool.and_false]
      · rw [off,off',Bool.or_self,Bool.false_and]
    have events : w.after (.report i epollin epollout err) = w.events := by
      simp only [Watched.after,found,ok.each i c found,not]
      rfl
    rw [events]
    exact ok.same rfl (fun i c there => ⟨c,there,rfl⟩)
  | @handle_write i c main found active =>
    have events : w.after .handle_write = Heap.put w.events i (event_of { c with epollout := false, on_write := true }) := by
      simp only [Watched.after,main,found,ok.each i c found,active,if_true]
      rw [event_of,del_write,event_of]
    rw [events]
    exact ok.put found _ rfl
  | @handle_write_ignored i c main found inactive =>
    have events : w.after .handle_write = w.events := by
      simp only [Watched.after,main,found,ok.each i c found,inactive]
      rfl
    rw [events]
    exact ok.same rfl (fun i c there => ⟨c,there,rfl⟩)
  | @op op rest c idle first found =>
    have events : w.after .op = Heap.put w.events op.e (event_of (atm_event_add_event c op.mask)) := by
      simp only [Watched.after,first,ok.each op.e c found]
      cases op.mask with
      | read => rw [event_of,Mask.bits,add_read]; rfl
      | write => rw [event_of,Mask.bits,add_write]; rfl
    rw [events]
    exact ok.put found _ rfl
  | advance there from_to moves =>
    have events : w.after l = w.events := by rcases moves with rfl | rfl <;> rfl
    rw [events]
    exact ok.same rfl (fun i c there => ⟨c,there,rfl⟩)
  | read there running job does => exact ok.apply (fun c' written => does.kept written)
  | write there running job does => exact ok.apply (fun c' written => does.kept written)
  | free there running job swept =>
    obtain ⟨conns,length,_,_,_⟩ := free_loop_swept _ _ _ _ swept
    exact ok.same length (fun i c there => ⟨c,conns i c there,rfl⟩)

/-! ### Read interest -/

/-- A read task that is not past the step that restores the event. -/
def ReadAt.Restoring : ReadAt → Prop
  | .free_check => False
  | .free_notify false => False
  | _ => True

def Restoring (i : Nat) (job : Job) : Prop := ∃ pc, job = .read i pc ∧ pc.Restoring

/-- `EPOLLIN` is in the mask or on its way into it. -/
def Hears (s : Sys) (i : Nat) (c : Conn) : Prop :=
  c.epollin = true ∨ ⟨i,.read⟩ ∈ s.evq ∨ Unfinished s.tasks (Restoring i)

theorem Hears.mono {s s' : Sys} {i : Nat} {c c' : Conn} (hears : Hears s i c) (mask : c.epollin = true → c'.epollin = true)
    (evq : ⟨i,.read⟩ ∈ s.evq → ⟨i,.read⟩ ∈ s'.evq)
    (restoring : Unfinished s.tasks (Restoring i) → Unfinished s'.tasks (Restoring i)) : Hears s' i c' :=
  hears.imp mask (Or.imp evq restoring)

/-- While the event is active, a read task goes on to the step that restores it, which queues the op. -/
theorem ReadDoes.keeps_restoring {c : Conn} {pc : ReadAt} {e : Effect ReadAt} (does : ReadDoes (some c) pc e)
    (active : (e.conn.getD c).active = true) (restoring : pc.Restoring) :
    (∃ next, e.next = some next ∧ next.Restoring) ∨ .read ∈ e.ops := by
  cases does with
  | enter c =>
    have was : c.active = true := active
    exact .inl ⟨.read_raw,by simp [goes,was],trivial⟩
  | finish c ok => cases ok <;> exact .inl ⟨_,rfl,trivial⟩
  | inactive c goes_on =>
    have off := inactive_active c .on_read
    rw [← Bool.not_eq_true] at off
    exact absurd active off
  | free_notify _ goes_on =>
    cases goes_on with
    | true => exact .inl ⟨.restore_check,rfl,trivial⟩
    | false => exact restoring.elim
  | restore_check c =>
    have was : c.active = true := active
    exact .inl ⟨.restore,by simp [goes,was],trivial⟩
  | restore => exact .inr (List.mem_singleton_self _)
  | free_check c => exact restoring.elim
  | _ => exact .inl ⟨_,rfl,trivial⟩

theorem hears_step {s s' : Sys} {l : Label} (ok : ∀ i c, get s.conns i = some c → c.active = true → Hears s i c)
    (does : Does s l s') : ∀ i c, get s'.conns i = some c → c.active = true → Hears s' i c := by
  intro j c' found active
  cases does with
  | accept idle =>
    rcases get_of_alloc found with ⟨_,rfl⟩ | old
    · exact .inl rfl
    · exact ok j c' old active
  | report idle there inside outside _ asked =>
    rcases get_of_put there found with ⟨rfl,rfl⟩ | ⟨_,old⟩
    · right; right
      exact unfinished_new _ ⟨.enter,rfl,trivial⟩
    · exact (ok j c' old active).mono (fun on => on) (fun queued => queued) (unfinished_append _)
  | report_ignored idle there ignored => exact ok j c' found active
  | handle_write main there _ =>
    rcases get_of_put there found with ⟨rfl,rfl⟩ | ⟨_,old⟩
    · exact (ok _ _ there active).mono (fun on => on) (fun queued => queued) (unfinished_append _)
    · exact (ok j c' old active).mono (fun on => on) (fun queued => queued) (unfinished_append _)
  | handle_write_ignored main there inactive => exact ok j c' found active
  | @op op rest c idle first there =>
    have later : op ≠ ⟨j,.read⟩ → ⟨j,.read⟩ ∈ s.evq → ⟨j,.read⟩ ∈ rest := by
      intro other queued
      rw [first] at queued
      exact (List.mem_cons.mp queued).resolve_left (Ne.symm other)
    rcases get_of_put there found with ⟨rfl,rfl⟩ | ⟨other,old⟩
    · obtain ⟨i,mask⟩ := op
      cases mask with
      | read => exact .inl rfl
      | write => exact (ok i c there active).mono (fun on => on) (later (fun same => by cases same)) (fun is => is)
    · refine (ok j c' old active).mono (fun on => on) (later ?_) (fun is => is)
      rintro rfl
      exact other rfl
  | @advance _ k t stage there from_to =>
    have open' := (open_advance from_to).2
    exact (ok j c' found active).mono (fun on => on) (fun queued => queued)
      (unfinished_set there (fun _ holds => holds) (fun holds => ⟨open',holds⟩))
  | @read k i t pc choice e there running job does =>
    by_cases here : j = i
    · rw [here] at found ⊢
      obtain ⟨c,before,kept,rfl⟩ := apply_get (fun c' written => does.kept written) found
      rw [before] at does
      by_cases queues : .read ∈ e.ops
      · right; left
        exact List.mem_append_right _ (List.mem_map_of_mem queues)
      · refine (ok i c before (kept.active active)).mono ?_ (fun queued => List.mem_append_left _ queued) ?_
        · rw [kept.epollin]
          exact fun on => on
        · have passes := fun restoring => (does.keeps_restoring active restoring).resolve_right queues
          exact unfinished_goes_on there (fun _ _ same => (Job.read.inj same).2) job passes
    · rw [apply_get_other here] at found
      refine (ok j c' found active).mono (fun on => on) (fun queued => List.mem_append_left _ queued) ?_
      refine unfinished_apply there ?_
      rintro ⟨_,same,_⟩
      rw [job] at same
      cases same
      exact absurd rfl here
  | @write k i t pc choice e there running job does =>
    have idle : ¬ Restoring j t.job := by
      rw [job]
      rintro ⟨_,same,_⟩
      cases same
    have stays : Unfinished s.tasks (Restoring j) → Unfinished (s.apply k i t (Job.write i) e).tasks (Restoring j) :=
      unfinished_elsewhere there idle
    by_cases here : j = i
    · rw [here] at found stays ⊢
      obtain ⟨c,before,kept,rfl⟩ := apply_get (fun c' written => does.kept written) found
      refine (ok i c before (kept.active active)).mono ?_ (fun queued => List.mem_append_left _ queued) stays
      rw [kept.epollin]
      exact fun on => on
    · rw [apply_get_other here] at found
      exact (ok j c' found active).mono (fun on => on) (fun queued => List.mem_append_left _ queued) stays
  | @free k t choice s₁ there running job swept =>
    obtain ⟨conns,_,tasks,evq,_⟩ := free_loop_swept _ _ _ _ swept
    refine (ok j c' (conns j c' found) active).mono (fun on => on) (fun queued => evq ▸ queued) ?_
    dsimp only
    rw [tasks]
    refine unfinished_set there (fun _ holds => holds) ?_
    rintro ⟨_,same,_⟩
    rw [job] at same
    cases same

/-! ### Runs -/

def watched : Watched := ⟨start,[]⟩

/-- A step of the main loop that adds or deletes `EPOLLOUT`. -/
def WritesMask (w : Watched) : Label → Prop
  | .handle_write => True
  | .op => ∃ i rest, w.sys.evq = ⟨i,.write⟩ :: rest
  | _ => False

/-- A step leaves in place whether epoll watches a connection for `EPOLLIN`. -/
def KeepsIn (w w' : Watched) : Prop :=
  ∀ i c, get w.sys.conns i = some c → ∃ e e', get w.events i = some e ∧ get w'.events i = some e' ∧
    e'.watches Events.EPOLLIN = e.watches Events.EPOLLIN

theorem put_keepsIn {w : Watched} {s' : Sys} {events : Cells Events.Event} (ok : Mirrors w) (ok' : Mirrors ⟨s',events⟩) {i : Nat}
    {c c' : Conn} (found : get w.sys.conns i = some c) (conns : s'.conns = Heap.put w.sys.conns i c')
    (epollin : c'.epollin = c.epollin) : KeepsIn w ⟨s',events⟩ := by
  intro j d there
  by_cases same : j = i
  · rw [same] at there ⊢
    rw [found] at there
    cases there
    refine ⟨_,_,ok.each i c found,ok'.each i c' (by rw [conns]; exact get_put_self found _),?_⟩
    rw [event_of,event_of,watches_in,watches_in,epollin]
  · exact ⟨_,_,ok.each j d there,ok'.each j d (by rw [conns]; exact (get_put_other _ same _).trans there),rfl⟩

theorem writes_mask_keeps {w : Watched} {s' : Sys} {l : Label} (ok : Mirrors w) (does : Does w.sys l s')
    (writes : WritesMask w l) : KeepsIn w ⟨s',w.after l⟩ := by
  have ok' := mirrors_step ok does
  cases does with
  | handle_write main found active => exact put_keepsIn ok ok' found rfl rfl
  | handle_write_ignored main found inactive =>
    intro j d there
    exact ⟨_,_,ok.each j d there,ok'.each j d there,rfl⟩
  | op idle first found =>
    obtain ⟨i,rest',queued⟩ := writes
    rw [first] at queued
    cases queued
    exact put_keepsIn ok ok' found rfl rfl
  | advance there from_to moves => rcases moves with rfl | rfl <;> exact writes.elim
  | accept => exact writes.elim
  | report => exact writes.elim
  | report_ignored => exact writes.elim
  | read => exact writes.elim
  | write => exact writes.elim
  | free => exact writes.elim

theorem watch_does {w w' : Watched} {l : Label} (took : watch w l = .ok w') : Does w.sys l w'.sys ∧ w' = ⟨w'.sys,w.after l⟩ := by
  obtain ⟨s',first,same⟩ := bind_eq_ok.mp took
  cases same
  exact ⟨step_does first,rfl⟩

/-- In every run the fd of a connection stays registered with the mask of its event; while the event is active, epoll
    watches for `EPOLLIN`, or an op that adds it is queued, or a read task is not past its restore step; and the
    steps that write `EPOLLOUT` leave `EPOLLIN` alone. -/
theorem never_deaf (labels : List Label) :
    Always watch watched labels (fun _ w => ∀ i c, get w.sys.conns i = some c →
      ∃ e, get w.events i = some e ∧ e._registed = true ∧ e.interest = some e.events ∧ (c.active = true →
        e.watches Events.EPOLLIN = true ∨ ⟨i,.read⟩ ∈ w.sys.evq ∨ Unfinished w.sys.tasks (Restoring i))) ∧
      EachStep watch watched labels (fun w l => WritesMask w l → ∀ w', watch w l = .ok w' → KeepsIn w w') := by
  have started : Mirrors watched ∧ ∀ i c, get watched.sys.conns i = some c → c.active = true → Hears watched.sys i c :=
    ⟨⟨rfl,fun _ _ found => (by cases found)⟩,fun _ _ found => (by cases found)⟩
  have reach : ∀ {pre : List Label} {w : Watched}, run watch watched pre = .ok w →
      Mirrors w ∧ ∀ i c, get w.sys.conns i = some c → c.active = true → Hears w.sys i c := by
    intro pre w ran
    refine run_keeps (P := fun _ w => Mirrors w ∧ ∀ i c, get w.sys.conns i = some c → c.active = true → Hears w.sys i c)
      started ?_ ran
    intro _ l w w' ok took
    obtain ⟨does,same⟩ := watch_does took
    rw [same]
    exact ⟨mirrors_step ok.1 does,hears_step ok.2 does⟩
  constructor
  · intro pre w isPre ran i c found
    obtain ⟨mirrors,hears⟩ := reach ran
    refine ⟨event_of c,mirrors.each i c found,rfl,rfl,fun active => ?_⟩
    rw [event_of,watches_in]
    exact hears i c found active
  · intro pre l w isPre ran writes w' took
    obtain ⟨does,same⟩ := watch_does took
    rw [same]
    exact writes_mask_keeps (reach ran).1 does writes

end AtmCache.Conns
