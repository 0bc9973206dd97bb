import AtmCache.ConnModel
import AtmCache.ListSets

/-!
# What a step of the system can do

`Does` lists the steps of the system with the states they lead to, `ReadDoes` and `WriteDoes`
those of one task. The invariants of connections are proved by cases on them.
-/
namespace AtmCache.Conns
open Heap ListSets Runs

/-! ### Tasks -/

inductive ReadDoes : Option Conn → ReadAt → Effect ReadAt → Prop where
  | enter (c : Conn) : ReadDoes (some c) .enter (goes (if c.active then .read_raw else .restore_check))
  | alive (c : Conn) : ReadDoes (some c) .read_raw (goes .process)
  | dead (c : Conn) : ReadDoes (some c) .read_raw (goes (.inactive false))
  | reply (c : Conn) (n : Nat) : ReadDoes (some c) .process
      ⟨some { c with pending := c.pending + n },some .write_notify,false,[],false,false⟩
  | finish (c : Conn) (ok : Bool) : ReadDoes (some c) .process (goes (if ok then .restore_check else .inactive true))
  | write_notify (c : Conn) : ReadDoes (some c) .write_notify
      ⟨some (atm_conn_write_notify c).1,some .process,false,(atm_conn_write_notify c).2,false,false⟩
  | inactive (c : Conn) (goes_on : Bool) : ReadDoes (some c) (.inactive goes_on)
      ⟨some (atm_conn_inactive c .on_read).1,some (.free_notify goes_on),(atm_conn_inactive c .on_read).2,[],false,
        (atm_conn_inactive c .on_read).2⟩
  | free_notify (conn : Option Conn) (goes_on : Bool) : ReadDoes conn (.free_notify goes_on)
      ⟨none,if goes_on then some .restore_check else none,false,[],true,false⟩
  | restore_check (c : Conn) : ReadDoes (some c) .restore_check (goes (if c.active then .restore else .free_check))
  | restore (conn : Option Conn) : ReadDoes conn .restore ⟨none,some .free_check,false,[.read],false,false⟩
  | free_check (c : Conn) : ReadDoes (some c) .free_check
      ⟨some (atm_conn_free_check c .on_read).1,none,true,[],(atm_conn_free_check c .on_read).2,false⟩

inductive WriteDoes : Option Conn → WriteAt → Effect WriteAt → Prop where
  | test (c : Conn) : WriteDoes (some c) .test (goes (if c.active then .snapshot else .free_check))
  | snapshot (c : Conn) : WriteDoes (some c) .snapshot (goes (.write_raw c.write_reqs c.requests 0))
  | accept (c : Conn) (wreqs seen total n : Nat) (more : 0 < n) (room : n ≤ c.pending) :
      WriteDoes (some c) (.write_raw wreqs seen total)
        ⟨some { c with pending := c.pending - n },some (.write_raw wreqs seen (total + n)),false,[],false,false⟩
  | cut (c : Conn) (wreqs seen total : Nat) (left : 0 < c.pending) :
      WriteDoes (some c) (.write_raw wreqs seen total) (goes (.yield wreqs seen true))
  | fail (c : Conn) (wreqs seen total : Nat) (left : 0 < c.pending) :
      WriteDoes (some c) (.write_raw wreqs seen total) (goes .inactive)
  | zero (c : Conn) (wreqs seen total : Nat) (left : 0 < c.pending) :
      WriteDoes (some c) (.write_raw wreqs seen total) (goes (.aval wreqs seen true))
  | empty (c : Conn) (wreqs seen total : Nat) (nothing : c.pending = 0) :
      WriteDoes (some c) (.write_raw wreqs seen total)
        (goes (if 0 < total then .yield wreqs seen false else .aval wreqs seen false))
  | aval (c : Conn) (wreqs seen : Nat) (cut : Bool) :
      WriteDoes (some c) (.aval wreqs seen cut) (goes (.inter wreqs seen (to_int c.pending) cut))
  | inter (c : Conn) (wreqs seen : Nat) (wrmn : Int) (cut : Bool) : WriteDoes (some c) (.inter wreqs seen wrmn cut)
      ⟨some (atm_conn_inter_write c wreqs wrmn).1,some .free_check,true,(atm_conn_inter_write c wreqs wrmn).2,false,false⟩
  | yield (c : Conn) (wreqs seen : Nat) (cut : Bool) : WriteDoes (some c) (.yield wreqs seen cut)
      ⟨some (atm_conn_yield_write c wreqs).2,some (if (atm_conn_yield_write c wreqs).1 then .free_check else .test),
        (atm_conn_yield_write c wreqs).1,[],false,false⟩
  | inactive (c : Conn) : WriteDoes (some c) .inactive
      ⟨some (atm_conn_inactive c .on_write).1,some .free_notify,(atm_conn_inactive c .on_write).2,[],false,
        (atm_conn_inactive c .on_write).2⟩
  | free_notify (conn : Option Conn) : WriteDoes conn .free_notify ⟨none,none,false,[],true,false⟩
  | free_check (c : Conn) : WriteDoes (some c) .free_check
      ⟨some (atm_conn_free_check c .on_write).1,none,true,[],(atm_conn_free_check c .on_write).2,false⟩

theorem deref_ok {conn : Option Conn} {c : Conn} (there : deref conn = .ok c) : conn = some c := by
  cases conn with
  | none => cases there
  | some c' => cases there; rfl

theorem task_read_does {conn : Option Conn} {pc : ReadAt} {choice : Choice} {e : Effect ReadAt}
    (ran : atm_conn_task_read conn pc choice = .ok e) : ReadDoes conn pc e := by
  unfold atm_conn_task_read at ran
  split at ran
  all_goals first
    | cases ran
    | obtain ⟨c,there,ran⟩ := bind_eq_ok.mp ran
      rw [deref_ok there]
      cases ran
  all_goals first
    | exact .enter _
    | exact .alive _
    | exact .dead _
    | exact .reply _ _
    | exact .finish _ _
    | exact .write_notify _
    | exact .inactive _ _
    | exact .free_notify _ _
    | exact .restore_check _
    | exact .restore _
    | exact .free_check _

theorem write_raw_does {c : Conn} {wreqs seen total : Nat} {choice : Choice} {e : Effect WriteAt}
    (ran : atm_conn_task_write (some c) (.write_raw wreqs seen total) choice = .ok e) :
    WriteDoes (some c) (.write_raw wreqs seen total) e := by
  cases choice with
  | accept n =>
    simp only [atm_conn_task_write,deref,ok_bind] at ran
    split at ran
    · rename_i fits
      cases ran
      exact .accept c wreqs seen total n fits.1 fits.2
    · cases ran
  | again =>
    simp only [atm_conn_task_write,deref,ok_bind] at ran
    split at ran
    · rename_i left
      cases ran
      exact .cut c wreqs seen total left
    · cases ran
  | fail =>
    simp only [atm_conn_task_write,deref,ok_bind] at ran
    split at ran
    · rename_i left
      cases ran
      split
      · exact .cut c wreqs seen total left
      · exact .fail c wreqs seen total left
    · cases ran
  | zero =>
    simp only [atm_conn_task_write,deref,ok_bind] at ran
    split at ran
    · rename_i left
      cases ran
      split
      · exact .cut c wreqs seen total left
      · exact .zero c wreqs seen total left
    · cases ran
  | empty =>
    simp only [atm_conn_task_write,deref,ok_bind] at ran
    split at ran
    · rename_i nothing
      cases ran
      exact .empty c wreqs seen total nothing
    · cases ran
  | go => cases ran
  | alive => cases ran
  | dead => cases ran
  | reply n => cases ran
  | finish ok => cases ran

theorem task_write_does {conn : Option Conn} {pc : WriteAt} {choice : Choice} {e : Effect WriteAt}
    (ran : atm_conn_task_write conn pc choice = .ok e) : WriteDoes conn pc e := by
  cases pc
  case write_raw wreqs seen total =>
    cases conn with
    | none => cases choice <;> cases ran
    | some c => exact write_raw_does ran
  all_goals cases choice
  all_goals first
    | cases ran
    | obtain ⟨c,there,ran⟩ := bind_eq_ok.mp ran
      rw [deref_ok there]
      cases ran
  all_goals first
    | exact .test _
    | exact .snapshot _
    | exact .aval _ _ _ _
    | exact .inter _ _ _ _ _
    | exact .yield _ _ _ _
    | exact .inactive _
    | exact .free_notify _
    | exact .free_check _

/-- What no step of a task changes in a connection, and what it changes in one direction only. -/
structure Kept (c c' : Conn) : Prop where
  epollin : c'.epollin = c.epollin
  epollout : c'.epollout = c.epollout
  active : c'.active = true → c.active = true
  requests : c.requests ≤ c'.requests

theorem kept_refl (c : Conn) : Kept c c := ⟨rfl,rfl,fun active => active,Nat.le_refl _⟩

theorem notify_kept (c : Conn) : Kept c (atm_conn_write_notify c).1 := by
  unfold atm_conn_write_notify
  split
  · exact ⟨rfl,rfl,fun active => active,Nat.le_succ _⟩
  · exact kept_refl c

theorem clear_kept (c : Conn) (flag : Flag) : Kept c (c.clear flag) := by
  cases flag <;> exact ⟨rfl,rfl,fun active => active,Nat.le_refl _⟩

theorem inactive_kept (c : Conn) (flag : Flag) : Kept c (atm_conn_inactive c flag).1 := by
  unfold atm_conn_inactive
  split
  · cases flag <;> exact ⟨rfl,rfl,fun active => (by cases active),Nat.le_refl _⟩
  · exact kept_refl c

theorem inactive_active (c : Conn) (flag : Flag) : (atm_conn_inactive c flag).1.active = false := by
  unfold atm_conn_inactive
  split
  · cases flag <;> rfl
  · simpa using ‹¬ c.active = true›

theorem yield_kept (c : Conn) (wreqs : Nat) : Kept c (atm_conn_yield_write c wreqs).2 := by
  unfold atm_conn_yield_write
  split
  · exact clear_kept c .on_write
  · exact kept_refl c

theorem ReadDoes.kept {conn : Option Conn} {pc : ReadAt} {e : Effect ReadAt} (does : ReadDoes conn pc e) {c' : Conn}
    (written : e.conn = some c') : ∃ c, conn = some c ∧ Kept c c' := by
  cases does with
  | reply c n => cases written; exact ⟨c,rfl,rfl,rfl,fun active => active,Nat.le_refl _⟩
  | write_notify c => cases written; exact ⟨c,rfl,notify_kept c⟩
  | inactive c _ => cases written; exact ⟨c,rfl,inactive_kept c .on_read⟩
  | free_check c => cases written; exact ⟨c,rfl,clear_kept c .on_read⟩
  | _ => cases written

theorem WriteDoes.kept {conn : Option Conn} {pc : WriteAt} {e : Effect WriteAt} (does : WriteDoes conn pc e) {c' : Conn}
    (written : e.conn = some c') : ∃ c, conn = some c ∧ Kept c c' := by
  cases does with
  | accept c _ _ _ n _ _ => cases written; exact ⟨c,rfl,rfl,rfl,fun active => active,Nat.le_refl _⟩
  | inter c _ _ _ _ => cases written; exact ⟨c,rfl,clear_kept c .on_write⟩
  | yield c wreqs _ _ => cases written; exact ⟨c,rfl,yield_kept c wreqs⟩
  | inactive c => cases written; exact ⟨c,rfl,inactive_kept c .on_write⟩
  | free_check c => cases written; exact ⟨c,rfl,clear_kept c .on_write⟩
  | _ => cases written

/-- A read task never changes `on_write`. -/
theorem ReadDoes.on_write {c : Conn} {pc : ReadAt} {e : Effect ReadAt} (does : ReadDoes (some c) pc e) :
    (e.conn.getD c).on_write = c.on_write := by
  cases does with
  | write_notify c =>
    show (atm_conn_write_notify c).1.on_write = c.on_write
    unfold atm_conn_write_notify
    split <;> rfl
  | inactive c goes_on =>
    show (atm_conn_inactive c .on_read).1.on_write = c.on_write
    unfold atm_conn_inactive
    split <;> rfl
  | _ => rfl

/-- A write task never changes `on_read`. -/
theorem WriteDoes.on_read {c : Conn} {pc : WriteAt} {e : Effect WriteAt} (does : WriteDoes (some c) pc e) :
    (e.conn.getD c).on_read = c.on_read := by
  cases does with
  | yield c wreqs seen cut =>
    show (atm_conn_yield_write c wreqs).2.on_read = c.on_read
    unfold atm_conn_yield_write
    split <;> rfl
  | inactive c =>
    show (atm_conn_inactive c .on_write).1.on_read = c.on_read
    unfold atm_conn_inactive
    split <;> rfl
  | _ => rfl

/-! ### The free pass -/

/-- What a free pass leaves as it is. -/
structure Swept (s s' : Sys) : Prop where
  conns : ∀ j c, get s'.conns j = some c → get s.conns j = some c
  length : s'.conns.length = s.conns.length
  tasks : s'.tasks = s.tasks
  evq : s'.evq = s.evq
  main : s'.main = s.main

theorem free_loop_swept (fuel : Nat) :
    ∀ s unproc s', atm_conn_free_loop fuel s unproc = .ok s' → Swept s s' := by
  induction fuel with
  | zero => intro s unproc s' ran; cases ran
  | succ fuel ih =>
    intro s unproc s' ran
    rw [atm_conn_free_loop] at ran
    split at ran
    · cases ran
      exact ⟨fun _ _ there => there,rfl,rfl,rfl,rfl⟩
    · split at ran
      · cases ran
      · rename_i i rest _
        obtain ⟨c,there,ran⟩ := bind_eq_ok.mp ran
        split at ran
        · obtain ⟨conns,length,tasks,evq,main⟩ := ih _ _ _ ran
          refine ⟨fun j c found => (get_of_free (conns j c found)).2,?_,tasks,evq,main⟩
          rw [length,free_length]
        · obtain ⟨conns,length,tasks,evq,main⟩ := ih _ _ _ ran
          exact ⟨conns,length,tasks,evq,main⟩

/-! ### The system -/

inductive Does (s : Sys) : Label → Sys → Prop where
  | accept (idle : s.main = .idle) : Does s .accept { s with conns := alloc s.conns atm_conn_new }
  | report {i : Nat} {c : Conn} {epollin epollout err : Bool} (idle : s.main = .idle) (found : get s.conns i = some c)
      (inside : epollin = true → c.epollin = true) (outside : epollout = true → c.epollout = true)
      (active : c.active = true) (reads : epollin = true ∨ err = true) :
      Does s (.report i epollin epollout err) { s with
        conns := put s.conns i { c with epollin := false, on_read := true }
        tasks := s.tasks ++ [dispatched (.read i .enter)]
        main := if epollout || err then .handle_write i else .idle }
  | report_ignored {i : Nat} {c : Conn} {epollin epollout err : Bool} (idle : s.main = .idle)
      (found : get s.conns i = some c) (ignored : c.active = false ∨ (epollin = false ∧ err = false)) :
      Does s (.report i epollin epollout err) { s with main := if epollout || err then .handle_write i else .idle }
  | handle_write {i : Nat} {c : Conn} (main : s.main = .handle_write i) (found : get s.conns i = some c)
      (active : c.active = true) :
      Does s .handle_write { s with
        conns := put s.conns i { c with epollout := false, on_write := true }
        tasks := s.tasks ++ [dispatched (.write i .test)]
        main := .idle }
  | handle_write_ignored {i : Nat} {c : Conn} (main : s.main = .handle_write i) (found : get s.conns i = some c)
      (inactive : c.active = false) : Does s .handle_write { s with main := .idle }
  | op {op : Op} {rest : List Op} {c : Conn} (idle : s.main = .idle) (first : s.evq = op :: rest)
      (found : get s.conns op.e = some c) :
      Does s .op { s with conns := put s.conns op.e (atm_event_add_event c op.mask), evq := rest }
  | advance {l : Label} {k : Nat} {t : Task} {stage : Stage} (there : s.tasks[k]? = some t)
      (from_to : (t.stage = .pipe ∧ stage = .queued) ∨ (t.stage = .queued ∧ stage = .running))
      (moves : l = .deliver ∨ l = .begin k) : Does s l { s with tasks := s.tasks.set k { t with stage := stage } }
  | read {k i : Nat} {t : Task} {pc : ReadAt} {choice : Choice} {e : Effect ReadAt} (there : s.tasks[k]? = some t)
      (running : t.stage = .running) (job : t.job = .read i pc) (does : ReadDoes (get s.conns i) pc e) :
      Does s (.work k choice) (s.apply k i t (Job.read i) e)
  | write {k i : Nat} {t : Task} {pc : WriteAt} {choice : Choice} {e : Effect WriteAt} (there : s.tasks[k]? = some t)
      (running : t.stage = .running) (job : t.job = .write i pc) (does : WriteDoes (get s.conns i) pc e) :
      Does s (.work k choice) (s.apply k i t (Job.write i) e)
  | free {k : Nat} {t : Task} {choice : Choice} {s' : Sys} (there : s.tasks[k]? = some t) (running : t.stage = .running)
      (job : t.job = .free) (swept : atm_conn_free_func s = .ok s') :
      Does s (.work k choice) { s' with tasks := s'.tasks.set k { t with stage := .done } }

theorem report_does {s s' : Sys} {i : Nat} {epollin epollout err : Bool}
    (ran : step s (.report i epollin epollout err) = .ok s') : Does s (.report i epollin epollout err) s' := by
  rw [step] at ran
  split at ran
  · rename_i c found
    split at ran
    · rename_i guard
      obtain ⟨idle,inside,outside⟩ := guard
      cases ran
      by_cases reads : epollin = true ∨ err = true
      · have asked : (epollin || err) = true := by simpa using reads
        cases active : c.active with
        | true =>
          have same : atm_event_process_ev s i c epollin epollout err = { s with
              conns := put s.conns i { c with epollin := false, on_read := true }
              tasks := s.tasks ++ [dispatched (.read i .enter)]
              main := if epollout || err then .handle_write i else .idle } := by
            simp [atm_event_process_ev,asked,atm_conn_handle_read,active,Sys.dispatch]
          rw [same]
          exact .report idle found inside outside active reads
        | false =>
          have same : atm_event_process_ev s i c epollin epollout err =
              { s with main := if epollout || err then .handle_write i else .idle } := by
            simp [atm_event_process_ev,asked,atm_conn_handle_read,active,Sys.dispatch,put_same found]
          rw [same]
          exact .report_ignored idle found (.inl active)
      · have asked : (epollin || err) = false := by simpa using reads
        have same : atm_event_process_ev s i c epollin epollout err =
            { s with main := if epollout || err then .handle_write i else .idle } := by
          simp [atm_event_process_ev,asked,Sys.dispatch,put_same found]
        rw [same]
        exact .report_ignored idle found (.inr (by simpa using asked))
    · cases ran
  · cases ran

theorem handle_write_does {s s' : Sys} (ran : step s .handle_write = .ok s') : Does s .handle_write s' := by
  rw [step] at ran
  split at ran
  · rename_i i main
    obtain ⟨c,there,ran⟩ := bind_eq_ok.mp ran
    have found := deref_ok there
    by_cases active : c.active = true
    · have handled : atm_conn_handle_write c = ({ c with epollout := false, on_write := true },true) := if_pos active
      rw [handled] at ran
      cases ran
      exact .handle_write main found active
    · have handled : atm_conn_handle_write c = (c,false) := if_neg active
      rw [handled] at ran
      cases ran
      show Does s .handle_write { s with conns := put s.conns i c, main := .idle }
      rw [put_same found]
      exact .handle_write_ignored main found (by simpa using active)
  · cases ran

theorem step_does {s s' : Sys} {l : Label} (ran : step s l = .ok s') : Does s l s' := by
  cases l with
  | accept =>
    rw [step] at ran
    split at ran
    · rename_i idle
      cases ran
      exact .accept idle
    · cases ran
  | report i epollin epollout err => exact report_does ran
  | handle_write => exact handle_write_does ran
  | op =>
    rw [step] at ran
    split at ran
    · rename_i op rest main evq
      obtain ⟨c,there,ran⟩ := bind_eq_ok.mp ran
      cases ran
      exact .op main evq (deref_ok there)
    · cases ran
  | deliver =>
    rw [step] at ran
    split at ran
    · rename_i k main first
      obtain ⟨inside,piped,_⟩ := List.findIdx?_eq_some_iff_getElem.mp first
      rw [List.getElem?_eq_getElem inside] at ran
      cases ran
      exact .advance (List.getElem?_eq_getElem inside) (.inl ⟨by simpa using piped,rfl⟩) (.inl rfl)
    · cases ran
  | begin k =>
    rw [step] at ran
    split at ran
    · rename_i t there
      split at ran
      · rename_i queued
        cases ran
        exact .advance there (.inr ⟨queued,rfl⟩) (.inr rfl)
      · cases ran
    · cases ran
  | work k choice =>
    rw [step] at ran
    split at ran
    · rename_i t there
      split at ran
      · rename_i running
        rw [work] at ran
        split at ran
        · rename_i i pc job
          obtain ⟨e,does,ran⟩ := bind_eq_ok.mp ran
          cases ran
          exact .read there running job (task_read_does does)
        · rename_i i pc job
          obtain ⟨e,does,ran⟩ := bind_eq_ok.mp ran
          cases ran
          exact .write there running job (task_write_does does)
        · rename_i job
          obtain ⟨s₁,swept,ran⟩ := bind_eq_ok.mp ran
          cases ran
          exact .free there running job swept
      · cases ran
    · cases ran

/-! ### Effects in the system -/

section
variable {P : Type} {s : Sys} {k i : Nat} {t : Task} {job : P → Job} {e : Effect P}

/-- Tasks of a kind other than free tasks are counted through a step of one task. -/
theorem apply_countP (p : Task → Bool) (notFree : p (dispatched .free) = false) (there : s.tasks[k]? = some t) :
    (s.apply k i t job e).tasks.countP p + (p t).toNat = s.tasks.countP p + (p (t.after job e)).toNat := by
  have counted := countP_set p there (t.after job e)
  have none : (if e.notifies then [dispatched .free] else []).countP p = 0 := by
    cases e.notifies <;> simp [notFree]
  rw [Sys.apply,List.countP_append,none]
  exact counted

theorem apply_get_other {j : Nat} (other : j ≠ i) : get (s.apply k i t job e).conns j = get s.conns j := by
  rw [Sys.apply]
  cases e.conn with
  | none => rfl
  | some c => exact get_put_other _ other c

/-- The connection that a step works on, afterwards. -/
theorem apply_get (kept : ∀ c', e.conn = some c' → ∃ c, get s.conns i = some c ∧ Kept c c') {c' : Conn}
    (found : get (s.apply k i t job e).conns i = some c') :
    ∃ c, get s.conns i = some c ∧ Kept c c' ∧ c' = e.conn.getD c := by
  rw [Sys.apply] at found
  cases written : e.conn with
  | none =>
    rw [written] at found
    exact ⟨c',found,kept_refl c',rfl⟩
  | some c =>
    rw [written] at found
    obtain ⟨c₀,before,same⟩ := kept c written
    dsimp only at found
    rw [get_put_self before] at found
    cases found
    exact ⟨c₀,before,same,rfl⟩

theorem apply_mem {t' : Task} (member : t' ∈ (s.apply k i t job e).tasks) :
    (∃ k', k' ≠ k ∧ s.tasks[k']? = some t') ∨ t' = t.after job e ∨ t' = dispatched .free := by
  rcases List.mem_append.mp member with inside | new
  · exact (of_mem_set inside).symm.imp_right .inl
  · cases notifies : e.notifies with
    | true =>
      rw [notifies] at new
      exact .inr (.inr (List.mem_singleton.mp new))
    | false =>
      rw [notifies] at new
      cases new

theorem apply_length : (s.apply k i t job e).conns.length = s.conns.length := by
  rw [Sys.apply]
  cases e.conn with
  | none => rfl
  | some c => exact put_length _ _ c

end

theorem open_running {t : Task} (running : t.stage = .running) : t.stage ≠ .done := by
  rw [running]
  decide

/-- A task that is delivered or begun was not done and is not done. -/
theorem open_advance {t : Task} {stage : Stage}
    (from_to : (t.stage = .pipe ∧ stage = .queued) ∨ (t.stage = .queued ∧ stage = .running)) :
    t.stage ≠ .done ∧ stage ≠ .done := by
  rcases from_to with ⟨is,rfl⟩ | ⟨is,rfl⟩
  · exact ⟨by rw [is]; decide,by decide⟩
  · exact ⟨by rw [is]; decide,by decide⟩

theorem Does.grows {s s' : Sys} {l : Label} (does : Does s l s') : s.conns.length ≤ s'.conns.length := by
  cases does with
  | accept idle => exact List.length_append ▸ Nat.le_add_right _ _
  | report => exact Nat.le_of_eq (put_length _ _ _).symm
  | handle_write => exact Nat.le_of_eq (put_length _ _ _).symm
  | op => exact Nat.le_of_eq (put_length _ _ _).symm
  | read => exact Nat.le_of_eq apply_length.symm
  | write => exact Nat.le_of_eq apply_length.symm
  | free there running job swept => exact Nat.le_of_eq (free_loop_swept _ _ _ _ swept).length.symm
  | report_ignored => exact Nat.le_refl _
  | handle_write_ignored => exact Nat.le_refl _
  | advance => exact Nat.le_refl _

/-- A connection after a step is the new one or was there, with at most as many requests, and
    active if it is active now. -/
theorem Does.older {s s' : Sys} {l : Label} (does : Does s l s') {j : Nat} {c' : Conn} (found : get s'.conns j = some c') :
    (j = s.conns.length ∧ c' = atm_conn_new) ∨
      ∃ c, get s.conns j = some c ∧ c.requests ≤ c'.requests ∧ (c'.active = true → c.active = true) := by
  have same : get s.conns j = some c' →
      ∃ c, get s.conns j = some c ∧ c.requests ≤ c'.requests ∧ (c'.active = true → c.active = true) :=
    fun before => ⟨c',before,Nat.le_refl _,fun active => active⟩
  have applied : ∀ {P : Type} {k i : Nat} {t : Task} {job : P → Job} {e : Effect P},
      (∀ c', e.conn = some c' → ∃ c, get s.conns i = some c ∧ Kept c c') → get (s.apply k i t job e).conns j = some c' →
      ∃ c, get s.conns j = some c ∧ c.requests ≤ c'.requests ∧ (c'.active = true → c.active = true) := by
    intro P k i t job e kept found
    by_cases here : j = i
    · rw [here] at found ⊢
      obtain ⟨c,before,unchanged,_⟩ := apply_get kept found
      exact ⟨c,before,unchanged.requests,unchanged.active⟩
    · rw [apply_get_other here] at found
      exact same found
  cases does with
  | accept idle =>
    rcases get_of_alloc found with new | old
    · exact .inl new
    · exact .inr (same old)
  | report idle before inside outside active reads =>
    rcases get_of_put before found with ⟨rfl,rfl⟩ | ⟨_,old⟩
    · exact .inr ⟨_,before,Nat.le_refl _,fun active => active⟩
    · exact .inr (same old)
  | handle_write main before active =>
    rcases get_of_put before found with ⟨rfl,rfl⟩ | ⟨_,old⟩
    · exact .inr ⟨_,before,Nat.le_refl _,fun active => active⟩
    · exact .inr (same old)
  | @op op rest c idle first before =>
    rcases get_of_put before found with ⟨rfl,rfl⟩ | ⟨_,old⟩
    · right
      refine ⟨c,before,?_,?_⟩ <;> cases op.mask
      · exact Nat.le_refl _
      · exact Nat.le_refl _
      · exact fun active => active
      · exact fun active => active
    · exact .inr (same old)
  | report_ignored idle before ignored => exact .inr (same found)
  | handle_write_ignored main before inactive => exact .inr (same found)
  | advance there from_to => exact .inr (same found)
  | read there running job does => exact .inr (applied (fun c' written => does.kept written) found)
  | write there running job does => exact .inr (applied (fun c' written => does.kept written) found)
  | free there running job swept => exact .inr (same ((free_loop_swept _ _ _ _ swept).conns _ _ found))

/-! ### Unfinished tasks -/

/-- A task that was dispatched and has not ended has a job with `P`. -/
def Unfinished (tasks : List Task) (P : Job → Prop) : Prop := ∃ t ∈ tasks, t.stage ≠ .done ∧ P t.job

/-- A task of connection `i`. -/
def About (i : Nat) : Job → Prop
  | .read j _ => j = i
  | .write j _ => j = i
  | .free => False

section
variable {tasks : List Task} {P : Job → Prop}

theorem unfinished_append (new : List Task) (before : Unfinished tasks P) : Unfinished (tasks ++ new) P := by
  obtain ⟨t,member,open',holds⟩ := before
  exact ⟨t,List.mem_append_left new member,open',holds⟩

theorem unfinished_new (job : Job) (holds : P job) : Unfinished (tasks ++ [dispatched job]) P :=
  ⟨dispatched job,List.mem_append_right tasks (List.mem_singleton_self _),(fun same => by cases same),holds⟩

theorem unfinished_set {Q : Job → Prop} {k : Nat} {t t' : Task} (there : tasks[k]? = some t) (weaker : ∀ job, P job → Q job)
    (passes : P t.job → t'.stage ≠ .done ∧ Q t'.job) (before : Unfinished tasks P) : Unfinished (tasks.set k t') Q := by
  obtain ⟨x,member,open',holds⟩ := before
  rcases mem_set_of_mem there t' member with rfl | still
  · exact ⟨t',mem_set_self there t',passes holds⟩
  · exact ⟨x,still,open',weaker _ holds⟩

/-- Through a step of task `k`. -/
theorem unfinished_apply {A : Type} {s : Sys} {k i : Nat} {t : Task} {job : A → Job} {e : Effect A}
    (there : s.tasks[k]? = some t) (passes : P t.job → ∃ next, e.next = some next ∧ P (job next))
    (before : Unfinished s.tasks P) : Unfinished (s.apply k i t job e).tasks P := by
  apply unfinished_append
  refine unfinished_set there (fun _ holds => holds) (fun holds => ?_) before
  obtain ⟨next,goesOn,later⟩ := passes holds
  rw [Task.after,goesOn]
  exact ⟨(fun same => by cases same),later⟩

/-- Through a step of the task itself, which goes on from a place with `X` to another. -/
theorem unfinished_goes_on {A : Type} {X : A → Prop} {s : Sys} {k i : Nat} {t : Task} {job : A → Job} {pc : A} {e : Effect A}
    (there : s.tasks[k]? = some t) (injective : ∀ a b, job a = job b → a = b) (is : t.job = job pc)
    (passes : X pc → ∃ next, e.next = some next ∧ X next) (before : Unfinished s.tasks (fun j => ∃ pc, j = job pc ∧ X pc)) :
    Unfinished (s.apply k i t job e).tasks (fun j => ∃ pc, j = job pc ∧ X pc) := by
  refine unfinished_apply there ?_ before
  rintro ⟨pc',same,holds⟩
  cases injective pc pc' (is.symm.trans same)
  obtain ⟨next,goesOn,later⟩ := passes holds
  exact ⟨next,goesOn,next,rfl,later⟩

/-- Through a step of a task that the property is not about. -/
theorem unfinished_elsewhere {A : Type} {s : Sys} {k i : Nat} {t : Task} {job : A → Job} {e : Effect A}
    (there : s.tasks[k]? = some t) (idle : ¬ P t.job) (before : Unfinished s.tasks P) :
    Unfinished (s.apply k i t job e).tasks P :=
  unfinished_apply there (fun holds => absurd holds idle) before

end
end AtmCache.Conns
