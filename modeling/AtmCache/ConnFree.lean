import AtmCache.ConnSweep

/-!
# What a free pass frees

The flags keep a connection from being freed under a task only if each flag is that of one task,
and only until this task has cleared it. Ops are not counted at all. A pass frees only what nothing refers to
when tasks of one kind do not overlap, when an event is made inactive without ops on their way, and when no
listed connection has a task that has cleared its flag and goes on.
-/
namespace AtmCache.Conns
open Heap ListSets Runs

def ReadsFor (i : Nat) (job : Job) : Prop := ∃ pc, job = .read i pc

def WritesFor (i : Nat) (job : Job) : Prop := ∃ pc, job = .write i pc

/-- No op of connection `i` is queued, and no read task is about to queue one although it found the event active. -/
def NoOps (s : Sys) (i : Nat) : Prop := (∀ op ∈ s.evq, op.e ≠ i) ∧ ¬ Unfinished s.tasks (· = .read i .restore)

/-- A read or write task is dispatched for an active event when no task of its kind is unfinished; an event is made inactive
    when no op of it is on its way; a free pass runs when no unfinished task of a listed connection has cleared its flag. -/
def Settled (s : Sys) : Label → Prop
  | .report i epollin _ err => ∀ c, get s.conns i = some c → c.active = true → (epollin = true ∨ err = true) →
      ¬ Unfinished s.tasks (ReadsFor i)
  | .handle_write => ∀ i c, s.main = .handle_write i → get s.conns i = some c → c.active = true →
      ¬ Unfinished s.tasks (WritesFor i)
  | .work k _ => ∀ t, s.tasks[k]? = some t →
      match t.job with
      | .read i (.inactive _) => ∀ c, get s.conns i = some c → c.active = true → NoOps s i
      | .write i .inactive => ∀ c, get s.conns i = some c → c.active = true → NoOps s i
      | .free => ∀ i ∈ s.free_list, ∀ t' ∈ s.tasks, t'.stage ≠ .done → About i t'.job → t'.cleared = false
      | _ => True
  | _ => True

/-- Nothing refers to what a step frees. -/
def FreesAlone (s : Sys) (l : Label) : Prop :=
  ∀ s', step s l = .ok s' → ∀ i ∈ s'.freed, i ∉ s.freed → ¬ Unfinished s.tasks (About i) ∧ ∀ op ∈ s.evq, op.e ≠ i

theorem about_cases {i : Nat} {job : Job} (about : About i job) : ReadsFor i job ∨ WritesFor i job := by
  cases job with
  | read j pc => exact .inl ⟨pc,by rw [show j = i from about]⟩
  | write j pc => exact .inr ⟨pc,by rw [show j = i from about]⟩
  | free => exact about.elim

/-! ### One task of each kind -/

/-- At most one unfinished task has a job with `P`. -/
def Alone (tasks : List Task) (P : Job → Prop) : Prop :=
  ∀ (k k' : Nat) (t t' : Task), tasks[k]? = some t → tasks[k']? = some t' → t.stage ≠ .done → t'.stage ≠ .done → P t.job → P t'.job → k = k'

section
variable {tasks : List Task} {P : Job → Prop}

theorem alone_append (ok : Alone tasks P) (job : Job) (new : P job → ¬ Unfinished tasks P) :
    Alone (tasks ++ [dispatched job]) P := by
  have old : ∀ (k : Nat) (t : Task), (tasks ++ [dispatched job])[k]? = some t → t.stage ≠ .done → P t.job →
      (tasks[k]? = some t) ∨ (k = tasks.length ∧ P job) := by
    intro k t there _ holds
    rcases Nat.lt_trichotomy k tasks.length with before | last | beyond
    · exact .inl (List.getElem?_append_left before ▸ there)
    · rw [last,List.getElem?_concat_length] at there
      cases there
      exact .inr ⟨last,holds⟩
    · rw [List.getElem?_eq_none (by rw [List.length_append,List.length_singleton]; omega)] at there
      cases there
  intro k k' t t' there there' open' open'' holds holds'
  rcases old k t there open' holds with before | ⟨last,new'⟩
  · rcases old k' t' there' open'' holds' with before' | ⟨_,new'⟩
    · exact ok k k' t t' before before' open' open'' holds holds'
    · exact absurd ⟨t,List.mem_of_getElem? before,open',holds⟩ (new new')
  · rcases old k' t' there' open'' holds' with before' | ⟨last',_⟩
    · exact absurd ⟨t',List.mem_of_getElem? before',open'',holds'⟩ (new new')
    · rw [last,last']

theorem alone_set (ok : Alone tasks P) {k : Nat} {t t' : Task} (there : tasks[k]? = some t) (open' : t.stage ≠ .done)
    (passes : P t'.job → P t.job) : Alone (tasks.set k t') P := by
  have old : ∀ (j : Nat) (x : Task), (tasks.set k t')[j]? = some x → x.stage ≠ .done → P x.job →
      ∃ y : Task, tasks[j]? = some y ∧ y.stage ≠ .done ∧ P y.job := by
    intro j x here still holds
    by_cases same : j = k
    · subst same
      rw [List.getElem?_set_self (List.getElem?_eq_some_iff.mp there).1] at here
      cases here
      exact ⟨t,there,open',passes holds⟩
    · rw [List.getElem?_set_ne (Ne.symm same)] at here
      exact ⟨x,here,still,holds⟩
  intro j j' x x' here here' still still' holds holds'
  obtain ⟨y,before,live,was⟩ := old j x here still holds
  obtain ⟨y',before',live',was'⟩ := old j' x' here' still' holds'
  exact ok j j' y y' before before' live live' was was'

end

/-- The job of a task after a step is of the kind it was. -/
theorem after_kind {A : Type} {t : Task} {job : A → Job} {pc : A} {e : Effect A} {P : Job → Prop} (is : t.job = job pc)
    (kind : ∀ pc pc', P (job pc) → P (job pc')) (holds : P (t.after job e).job) : P t.job := by
  rw [Task.after] at holds
  cases goesOn : e.next with
  | none =>
    rw [goesOn] at holds
    exact holds
  | some next =>
    rw [goesOn] at holds
    rw [is]
    exact kind next pc holds

theorem alone_apply {A : Type} {s : Sys} {k i : Nat} {t : Task} {job : A → Job} {pc : A} {e : Effect A} {P : Job → Prop}
    (ok : Alone s.tasks P) (there : s.tasks[k]? = some t) (running : t.stage = .running) (is : t.job = job pc)
    (kind : ∀ pc pc', P (job pc) → P (job pc')) (not : ¬ P .free) : Alone (s.apply k i t job e).tasks P := by
  have open' := open_running running
  have set : Alone (s.tasks.set k (t.after job e)) P := alone_set ok there open' (after_kind is kind)
  rw [Sys.apply]
  cases e.notifies with
  | true => exact alone_append set .free (fun holds => absurd holds not)
  | false =>
    simp only [Bool.false_eq_true,if_false,List.append_nil]
    exact set

def OneEach (s : Sys) : Prop := ∀ i, Alone s.tasks (ReadsFor i) ∧ Alone s.tasks (WritesFor i)

theorem one_each_step {s s' : Sys} {l : Label} (ok : OneEach s) (does : Does s l s') (settled : Settled s l) : OneEach s' := by
  intro j
  cases does with
  | accept idle => exact ok j
  | @report i c epollin epollout err idle found inside outside active asked =>
    constructor
    · apply alone_append (ok j).1
      rintro ⟨_,same⟩
      cases same
      exact settled c found active asked
    · apply alone_append (ok j).2
      rintro ⟨_,same⟩
      cases same
  | report_ignored idle found ignored => exact ok j
  | @handle_write i c main found active =>
    constructor
    · apply alone_append (ok j).1
      rintro ⟨_,same⟩
      cases same
    · apply alone_append (ok j).2
      rintro ⟨_,same⟩
      cases same
      exact settled _ c main found active
  | handle_write_ignored main found inactive => exact ok j
  | op idle first found => exact ok j
  | advance there from_to =>
    have open' := (open_advance from_to).1
    exact ⟨alone_set (ok j).1 there open' (fun holds => holds),alone_set (ok j).2 there open' (fun holds => holds)⟩
  | read there running job does =>
    constructor
    · refine alone_apply (ok j).1 there running job ?_ (by rintro ⟨_,same⟩; cases same)
      rintro _ pc' ⟨_,same⟩
      cases same
      exact ⟨pc',rfl⟩
    · refine alone_apply (ok j).2 there running job ?_ (by rintro ⟨_,same⟩; cases same)
      rintro _ _ ⟨_,same⟩
      cases same
  | write there running job does =>
    constructor
    · refine alone_apply (ok j).1 there running job ?_ (by rintro ⟨_,same⟩; cases same)
      rintro _ _ ⟨_,same⟩
      cases same
    · refine alone_apply (ok j).2 there running job ?_ (by rintro ⟨_,same⟩; cases same)
      rintro _ pc' ⟨_,same⟩
      cases same
      exact ⟨pc',rfl⟩
  | @free k t choice s₁ there running job swept =>
    have tasks := (free_loop_swept _ _ _ _ swept).tasks
    have open' := open_running running
    dsimp only
    rw [tasks]
    exact ⟨alone_set (ok j).1 there open' (fun holds => holds),alone_set (ok j).2 there open' (fun holds => holds)⟩

/-! ### Flags -/

/-- Tasks are about connections that are there, and the flag of an unfinished task is up until it has cleared it. -/
def Flagged (s : Sys) : Prop :=
  ∀ t ∈ s.tasks, (∀ i, About i t.job → i < s.conns.length) ∧ (t.stage ≠ .done → t.cleared = false → ∀ i c,
    get s.conns i = some c → (ReadsFor i t.job → c.on_read = true) ∧ (WritesFor i t.job → c.on_write = true))

/-- A read task that lowers `on_read` has cleared it. -/
theorem ReadDoes.clears {c : Conn} {pc : ReadAt} {e : Effect ReadAt} (does : ReadDoes (some c) pc e) (not : e.clears = false) :
    (e.conn.getD c).on_read = c.on_read := by
  cases does with
  | write_notify c =>
    show (atm_conn_write_notify c).1.on_read = c.on_read
    unfold atm_conn_write_notify
    split <;> rfl
  | inactive c goes_on =>
    have not : (atm_conn_inactive c .on_read).2 = false := not
    show (atm_conn_inactive c .on_read).1.on_read = c.on_read
    unfold atm_conn_inactive at not ⊢
    split at not
    · cases not
    · rw [if_neg ‹_›]
  | free_check c => cases not
  | _ => rfl

theorem WriteDoes.clears {c : Conn} {pc : WriteAt} {e : Effect WriteAt} (does : WriteDoes (some c) pc e)
    (not : e.clears = false) : (e.conn.getD c).on_write = c.on_write := by
  cases does with
  | inter => cases not
  | yield c wreqs seen cut =>
    have not : (atm_conn_yield_write c wreqs).1 = false := not
    show (atm_conn_yield_write c wreqs).2.on_write = c.on_write
    unfold atm_conn_yield_write at not ⊢
    split at not
    · cases not
    · rw [if_neg ‹_›]
  | inactive c =>
    have not : (atm_conn_inactive c .on_write).2 = false := not
    show (atm_conn_inactive c .on_write).1.on_write = c.on_write
    unfold atm_conn_inactive at not ⊢
    split at not
    · cases not
    · rw [if_neg ‹_›]
  | free_check c => cases not
  | _ => rfl

theorem Flagged.old {s s' : Sys} (ok : Flagged s) (length : s'.conns.length = s.conns.length)
    (up : ∀ i c', get s'.conns i = some c' → ∃ c, get s.conns i = some c ∧ (c.on_read = true → c'.on_read = true) ∧
      (c.on_write = true → c'.on_write = true)) {t : Task} (member : t ∈ s.tasks) :
    (∀ i, About i t.job → i < s'.conns.length) ∧ (t.stage ≠ .done → t.cleared = false → ∀ i c, get s'.conns i = some c →
      (ReadsFor i t.job → c.on_read = true) ∧ (WritesFor i t.job → c.on_write = true)) := by
  refine ⟨fun i about => length ▸ (ok t member).1 i about,fun open' uncleared i c' found => ?_⟩
  obtain ⟨c,before,reads,writes⟩ := up i c' found
  have flags := (ok t member).2 open' uncleared i c before
  exact ⟨fun kind => reads (flags.1 kind),fun kind => writes (flags.2 kind)⟩

/-- Flags stay up when a connection is written back with its flags up. -/
theorem raised_flags {s : Sys} {i : Nat} {c c' : Conn} (found : get s.conns i = some c)
    (reads : c.on_read = true → c'.on_read = true) (writes : c.on_write = true → c'.on_write = true) :
    ∀ j d, get (put s.conns i c') j = some d → ∃ c₀, get s.conns j = some c₀ ∧ (c₀.on_read = true → d.on_read = true) ∧
      (c₀.on_write = true → d.on_write = true) := by
  intro j d there
  rcases get_of_put found there with ⟨rfl,rfl⟩ | ⟨_,before⟩
  · exact ⟨c,found,reads,writes⟩
  · exact ⟨d,before,fun up => up,fun up => up⟩

/-- Through a step that dispatches a task for a connection and raises the flag of that task. -/
theorem flagged_dispatched {s : Sys} {i : Nat} {c c' : Conn} {job : Job} (ok : Flagged s) (found : get s.conns i = some c)
    (reads : c.on_read = true → c'.on_read = true) (writes : c.on_write = true → c'.on_write = true)
    (about : ∀ j, About j job → j = i) (own_read : ∀ j, ReadsFor j job → j = i ∧ c'.on_read = true)
    (own_write : ∀ j, WritesFor j job → j = i ∧ c'.on_write = true) (main : Main) :
    Flagged { s with conns := put s.conns i c', tasks := s.tasks ++ [dispatched job], main := main } := by
  intro t member
  rcases List.mem_append.mp member with old | new
  · exact ok.old (put_length _ _ _) (raised_flags found reads writes) old
  · cases List.mem_singleton.mp new
    refine ⟨fun j here => ?_,fun _ _ j d there => ⟨fun kind => ?_,fun kind => ?_⟩⟩
    · rw [about j here]
      exact (put_length _ _ _).symm ▸ get_lt found
    · obtain ⟨rfl,up⟩ := own_read j kind
      cases (get_put_self found c').symm.trans there
      exact up
    · obtain ⟨rfl,up⟩ := own_write j kind
      cases (get_put_self found c').symm.trans there
      exact up

/-- Through a step of a task: the other tasks find their flags up (`others`), and so does the task
    itself while it has not cleared its own (`own`). -/
theorem flagged_apply {P : Type} {s : Sys} {k i : Nat} {t : Task} {job : P → Job} {pc : P} {e : Effect P} (ok : Flagged s)
    (there : s.tasks[k]? = some t) (open' : t.stage ≠ .done) (is : t.job = job pc)
    (about : ∀ pc pc' j, About j (job pc) → About j (job pc'))
    (only : ∀ pc j, ReadsFor j (job pc) ∨ WritesFor j (job pc) → j = i)
    (kept : ∀ c', e.conn = some c' → ∃ c, get s.conns i = some c ∧ Kept c c')
    (others : ∀ k' t' c, k' ≠ k → s.tasks[k']? = some t' → t'.stage ≠ .done → get s.conns i = some c →
      (ReadsFor i t'.job → c.on_read = true) ∧ (WritesFor i t'.job → c.on_write = true) →
        (ReadsFor i t'.job → (e.conn.getD c).on_read = true) ∧ (WritesFor i t'.job → (e.conn.getD c).on_write = true))
    (own : ∀ next c, e.clears = false → get s.conns i = some c →
      (ReadsFor i t.job → c.on_read = true) ∧ (WritesFor i t.job → c.on_write = true) →
        (ReadsFor i (job next) → (e.conn.getD c).on_read = true) ∧ (WritesFor i (job next) → (e.conn.getD c).on_write = true)) :
    Flagged (s.apply k i t job e) := by
  have mine := ok t (List.mem_of_getElem? there)
  intro t' member
  rcases apply_mem member with ⟨k',ne,there'⟩ | rfl | rfl
  · obtain ⟨inside,flags⟩ := ok t' (List.mem_of_getElem? there')
    refine ⟨fun j about => Nat.lt_of_lt_of_eq (inside j about) apply_length.symm,fun still uncleared j c' found => ?_⟩
    by_cases here : j = i
    · rw [here] at found ⊢
      obtain ⟨c,before,_,rfl⟩ := apply_get kept found
      exact others k' t' c ne there' still before (flags still uncleared i c before)
    · rw [apply_get_other here] at found
      exact flags still uncleared j c' found
  · rw [Task.after]
    cases goesOn : e.next with
    | none => exact ⟨fun j about => Nat.lt_of_lt_of_eq (mine.1 j about) apply_length.symm,fun still => absurd rfl still⟩
    | some next =>
      refine ⟨fun j here => Nat.lt_of_lt_of_eq (mine.1 j (by rw [is]; exact about next pc j here)) apply_length.symm,
        fun _ uncleared j c' found => ?_⟩
      obtain ⟨before',clears⟩ := Bool.or_eq_false_iff.mp uncleared
      have flags : j = i → (ReadsFor j (job next) → c'.on_read = true) ∧ (WritesFor j (job next) → c'.on_write = true) := by
        rintro rfl
        obtain ⟨c,before,_,rfl⟩ := apply_get kept found
        exact own next c clears before (mine.2 open' before' _ c before)
      exact ⟨fun reads => (flags (only next j (.inl reads))).1 reads,fun writes => (flags (only next j (.inr writes))).2 writes⟩
  · exact ⟨fun _ about => about.elim,fun _ _ _ _ _ => ⟨(by rintro ⟨_,is⟩; cases is),(by rintro ⟨_,is⟩; cases is)⟩⟩

theorem flagged_step {s s' : Sys} {l : Label} (one : OneEach s) (ok : Flagged s) (does : Does s l s') : Flagged s' := by
  cases does with
  | accept idle =>
    intro t member
    obtain ⟨inside,flags⟩ := ok t member
    have more : ∀ i, i < s.conns.length → i < (alloc s.conns atm_conn_new).length := by
      intro i below
      rw [alloc,List.length_append]
      omega
    refine ⟨fun i about => more i (inside i about),fun open' uncleared i c found => ?_⟩
    rcases get_of_alloc found with ⟨rfl,_⟩ | old
    · have beyond : ¬ About s.conns.length t.job := fun about => Nat.lt_irrefl _ (inside _ about)
      constructor
      · rintro ⟨pc,job⟩
        exact absurd (by rw [job]; exact rfl) beyond
      · rintro ⟨pc,job⟩
        exact absurd (by rw [job]; exact rfl) beyond
    · exact flags open' uncleared i c old
  | @report i c epollin epollout err idle found inside outside active asked =>
    refine flagged_dispatched ok found ?_ ?_ ?_ ?_ ?_ _
    · exact fun _ => rfl
    · exact fun up => up
    · exact fun j about => Eq.symm about
    · rintro j ⟨_,job⟩
      cases job
      exact ⟨rfl,rfl⟩
    · rintro j ⟨_,job⟩
      cases job
  | report_ignored idle found ignored => exact ok
  | @handle_write i c main found active =>
    refine flagged_dispatched ok found ?_ ?_ ?_ ?_ ?_ _
    · exact fun up => up
    · exact fun _ => rfl
    · exact fun j about => Eq.symm about
    · rintro j ⟨_,job⟩
      cases job
    · rintro j ⟨_,job⟩
      cases job
      exact ⟨rfl,rfl⟩
  | handle_write_ignored main found inactive => exact ok
  | @op op rest c idle first found =>
    intro t member
    refine ok.old (put_length _ _ _) (raised_flags found ?_ ?_) member
    · cases op.mask <;> exact fun up => up
    · cases op.mask <;> exact fun up => up
  | @advance _ k t stage there from_to =>
    intro t' member
    rcases List.mem_or_eq_of_mem_set member with old | rfl
    · exact ok t' old
    · obtain ⟨inside,flags⟩ := ok t (List.mem_of_getElem? there)
      exact ⟨inside,fun _ => flags (open_advance from_to).1⟩
  | @read k i t pc choice e there running job does =>
    have open' := open_running running
    refine flagged_apply ok there open' job (fun _ _ _ here => here) ?_ (fun c' written => does.kept written) ?_ ?_
    · rintro _ j (⟨_,is⟩ | ⟨_,is⟩)
      · cases is
        rfl
      · cases is
    · intro k' t' c ne there' still before flags
      rw [before] at does
      refine ⟨fun kind => ?_,fun kind => ?_⟩
      · exact absurd ((one i).1 k' k t' t there' there still open' kind ⟨pc,job⟩) ne
      · rw [does.on_write]
        exact flags.2 kind
    · intro next c clears before flags
      rw [before] at does
      refine ⟨fun _ => ?_,(by rintro ⟨_,is⟩; cases is)⟩
      rw [does.clears clears]
      exact flags.1 ⟨pc,job⟩
  | @write k i t pc choice e there running job does =>
    have open' := open_running running
    refine flagged_apply ok there open' job (fun _ _ _ here => here) ?_ (fun c' written => does.kept written) ?_ ?_
    · rintro _ j (⟨_,is⟩ | ⟨_,is⟩)
      · cases is
      · cases is
        rfl
    · intro k' t' c ne there' still before flags
      rw [before] at does
      refine ⟨fun kind => ?_,fun kind => ?_⟩
      · rw [does.on_read]
        exact flags.1 kind
      · exact absurd ((one i).2 k' k t' t there' there still open' kind ⟨pc,job⟩) ne
    · intro next c clears before flags
      rw [before] at does
      refine ⟨(by rintro ⟨_,is⟩; cases is),fun _ => ?_⟩
      rw [does.clears clears]
      exact flags.2 ⟨pc,job⟩
  | @free k t choice s₁ there running job swept =>
    obtain ⟨conns,length,tasks,_,_⟩ := free_loop_swept _ _ _ _ swept
    intro t' member
    dsimp only at member
    rw [tasks] at member
    rcases List.mem_or_eq_of_mem_set member with old | rfl
    · exact ok.old length (fun i c found => ⟨c,conns i c found,fun up => up,fun up => up⟩) old
    · exact ⟨fun i about => ((job ▸ about : About i .free)).elim,fun open' => absurd rfl open'⟩

/-! ### Ops -/

/-- No op of an inactive connection is on its way. -/
def Quiet (s : Sys) : Prop := ∀ i c, get s.conns i = some c → c.active = false → NoOps s i

theorem unfinished_of_set {tasks : List Task} {P : Job → Prop} {k : Nat} {t t' : Task} (there : tasks[k]? = some t)
    (before : P t'.job → t'.stage ≠ .done → t.stage ≠ .done ∧ P t.job) (after : Unfinished (tasks.set k t') P) :
    Unfinished tasks P := by
  obtain ⟨x,member,open',holds⟩ := after
  rcases List.mem_or_eq_of_mem_set member with old | rfl
  · exact ⟨x,old,open',holds⟩
  · exact ⟨t,List.mem_of_getElem? there,before holds open'⟩

theorem unfinished_of_new {tasks : List Task} {P : Job → Prop} {job : Job} (not : ¬ P job)
    (after : Unfinished (tasks ++ [dispatched job]) P) : Unfinished tasks P := by
  obtain ⟨x,member,open',holds⟩ := after
  rcases List.mem_append.mp member with old | new
  · exact ⟨x,old,open',holds⟩
  · cases List.mem_singleton.mp new
    exact absurd holds not

theorem unfinished_of_apply {A : Type} {s : Sys} {k i : Nat} {t : Task} {job : A → Job} {e : Effect A} {P : Job → Prop}
    (not : ¬ P .free) (goesOn : ∀ next, e.next = some next → ¬ P (job next))
    (after : Unfinished (s.apply k i t job e).tasks P) : Unfinished s.tasks P := by
  obtain ⟨x,member,open',holds⟩ := after
  rcases apply_mem member with ⟨_,_,old⟩ | rfl | rfl
  · exact ⟨x,List.mem_of_getElem? old,open',holds⟩
  · rw [Task.after] at open' holds
    cases next : e.next with
    | none => rw [next] at open'; exact absurd rfl open'
    | some pc => rw [next] at holds; exact absurd holds (goesOn pc next)
  · exact absurd holds not

/-- A read task that leaves the event inactive queues no op and does not go on to restore it. -/
theorem ReadDoes.quiet {c : Conn} {pc : ReadAt} {e : Effect ReadAt} (does : ReadDoes (some c) pc e)
    (inactive : (e.conn.getD c).active = false) :
    (pc = .restore ∨ e.ops = []) ∧ e.next ≠ some .restore ∧ (c.active = true → ∃ goes_on, pc = .inactive goes_on) := by
  cases does with
  | enter c =>
    have off : c.active = false := inactive
    refine ⟨.inr rfl,?_,fun on => absurd on (by rw [off]; decide)⟩
    simp [goes,off]
  | finish c ok =>
    have off : c.active = false := inactive
    refine ⟨.inr rfl,?_,fun on => absurd on (by rw [off]; decide)⟩
    cases ok <;> exact fun same => by cases same
  | write_notify c =>
    have off : c.active = false := by
      cases on : c.active with
      | false => rfl
      | true =>
        have still : (atm_conn_write_notify c).1.active = true := by
          unfold atm_conn_write_notify
          rw [if_pos on]
          exact on
        have inactive : (atm_conn_write_notify c).1.active = false := inactive
        rw [still] at inactive
        cases inactive
    have notified : atm_conn_write_notify c = (c,[]) := if_neg (by rw [off]; decide)
    rw [notified]
    exact ⟨.inr rfl,(fun same => by cases same),fun on => absurd on (by rw [off]; decide)⟩
  | inactive c goes_on => exact ⟨.inr rfl,(fun same => by cases same),fun _ => ⟨goes_on,rfl⟩⟩
  | free_notify _ goes_on =>
    refine ⟨.inr rfl,?_,fun on => absurd on (by rw [show c.active = false from inactive]; decide)⟩
    cases goes_on <;> exact fun same => by cases same
  | restore_check c =>
    have off : c.active = false := inactive
    refine ⟨.inr rfl,?_,fun on => absurd on (by rw [off]; decide)⟩
    simp [goes,off]
  | restore => exact ⟨.inl rfl,(fun same => by cases same),fun on => absurd on (by rw [show c.active = false from inactive]; decide)⟩
  | free_check c =>
    exact ⟨.inr rfl,(fun same => by cases same),fun on => absurd on (by rw [show c.active = false from inactive]; decide)⟩
  | _ => exact ⟨.inr rfl,(fun same => by cases same),fun on => absurd on (by rw [show c.active = false from inactive]; decide)⟩

theorem WriteDoes.quiet {c : Conn} {pc : WriteAt} {e : Effect WriteAt} (does : WriteDoes (some c) pc e)
    (inactive : (e.conn.getD c).active = false) : e.ops = [] ∧ (c.active = true → pc = .inactive) := by
  cases does with
  | inter c wreqs seen wrmn cut =>
    have off : c.active = false := inactive
    refine ⟨?_,fun on => absurd on (by rw [off]; decide)⟩
    show (if (wreqs < c.write_reqs ∨ 0 < wrmn) ∧ c.active = true then [Mask.write] else []) = []
    exact if_neg (fun both => absurd both.2 (by rw [off]; decide))
  | yield c wreqs seen cut =>
    refine ⟨rfl,fun on => ?_⟩
    have same : (atm_conn_yield_write c wreqs).2.active = c.active := by
      unfold atm_conn_yield_write
      split <;> rfl
    have inactive : (atm_conn_yield_write c wreqs).2.active = false := inactive
    rw [same,on] at inactive
    cases inactive
  | inactive c => exact ⟨rfl,fun _ => rfl⟩
  | _ => exact ⟨rfl,fun on => absurd on (by rw [show c.active = false from inactive]; decide)⟩

theorem Quiet.put {s : Sys} (ok : Quiet s) {i j : Nat} {c c' d : Conn} (there : get s.conns i = some c)
    (found : get (put s.conns i c') j = some d) (inactive : d.active = false) (same : c'.active = c.active) : NoOps s j := by
  rcases get_of_put there found with ⟨rfl,rfl⟩ | ⟨_,old⟩
  · exact ok _ _ there (same ▸ inactive)
  · exact ok j d old inactive

/-- Through a step on connection `i` that queues no op of `j` and does not lead to one. -/
theorem no_ops_apply {P : Type} {s : Sys} {k i j : Nat} {t : Task} {job : P → Job} {e : Effect P} (before : NoOps s j)
    (ops : j = i → e.ops = []) (later : ∀ pc, e.next = some pc → job pc ≠ .read j .restore) :
    NoOps (s.apply k i t job e) j := by
  constructor
  · intro op member
    rcases List.mem_append.mp member with old | new
    · exact before.1 op old
    · obtain ⟨mask,queued,rfl⟩ := List.mem_map.mp new
      rintro rfl
      rw [ops rfl] at queued
      cases queued
  · exact fun restores => before.2 (unfinished_of_apply (fun same => by cases same) later restores)

theorem quiet_step {s s' : Sys} {l : Label} (ok : Quiet s) (does : Does s l s') (settled : Settled s l) : Quiet s' := by
  intro j c' found inactive
  cases does with
  | accept idle =>
    rcases get_of_alloc found with ⟨_,rfl⟩ | old
    · cases inactive
    · exact ok j c' old inactive
  | report idle there inside outside active asked =>
    have before := ok.put there found inactive rfl
    exact ⟨before.1,fun restores => before.2 (unfinished_of_new (fun same => by cases same) restores)⟩
  | report_ignored idle there ignored => exact ok j c' found inactive
  | handle_write main there active =>
    have before := ok.put there found inactive rfl
    exact ⟨before.1,fun restores => before.2 (unfinished_of_new (fun same => by cases same) restores)⟩
  | handle_write_ignored main there off => exact ok j c' found inactive
  | @op op rest c idle first there =>
    have same : (atm_event_add_event c op.mask).active = c.active := by cases op.mask <;> rfl
    have before := ok.put there found inactive same
    exact ⟨fun other member => before.1 other (by rw [first]; exact List.mem_cons_of_mem _ member),before.2⟩
  | @advance _ k t stage there from_to =>
    have before := ok j c' found inactive
    have open' := (open_advance from_to).1
    refine ⟨before.1,fun restores => before.2 ?_⟩
    refine unfinished_of_set there ?_ restores
    exact fun holds _ => ⟨open',holds⟩
  | @read k i t pc choice e there running job does =>
    have open' := open_running running
    by_cases here : j = i
    · rw [here] at found ⊢
      obtain ⟨c,there',kept,rfl⟩ := apply_get (fun c' written => does.kept written) found
      rw [there'] at does
      obtain ⟨ops,next,turns⟩ := does.quiet inactive
      have before : NoOps s i := by
        cases active : c.active with
        | false => exact ok i c there' active
        | true =>
          obtain ⟨goes_on,rfl⟩ := turns active
          have none := settled t there
          rw [job] at none
          exact none c there' active
      have none : e.ops = [] := by
        rcases ops with rfl | none
        · exact absurd ⟨t,List.mem_of_getElem? there,open',job⟩ before.2
        · exact none
      refine no_ops_apply before (fun _ => none) (fun pc' goesOn is => ?_)
      cases is
      exact next goesOn
    · rw [apply_get_other here] at found
      refine no_ops_apply (ok j c' found inactive) (fun same => absurd same here) (fun pc' goesOn is => ?_)
      cases is
      exact here rfl
  | @write k i t pc choice e there running job does =>
    by_cases here : j = i
    · rw [here] at found ⊢
      obtain ⟨c,there',kept,rfl⟩ := apply_get (fun c' written => does.kept written) found
      rw [there'] at does
      obtain ⟨none,turns⟩ := does.quiet inactive
      have before : NoOps s i := by
        cases active : c.active with
        | false => exact ok i c there' active
        | true =>
          have quiet := settled t there
          rw [job,turns active] at quiet
          exact quiet c there' active
      exact no_ops_apply before (fun _ => none) (fun _ _ same => by cases same)
    · rw [apply_get_other here] at found
      exact no_ops_apply (ok j c' found inactive) (fun same => absurd same here) (fun _ _ same => by cases same)
  | @free k t choice s₁ there running job swept =>
    obtain ⟨conns,_,tasks,evq,_⟩ := free_loop_swept _ _ _ _ swept
    have before := ok j c' (conns j c' found) inactive
    refine ⟨fun op member => before.1 op (evq ▸ member),fun restores => before.2 ?_⟩
    dsimp only at restores
    rw [tasks] at restores
    exact unfinished_of_set there (fun _ open' => absurd rfl open') restores

/-! ### Runs -/

structure Tended (s : Sys) : Prop where
  listed : Listed s
  one : OneEach s
  flagged : Flagged s
  quiet : Quiet s

theorem tended_step {s s' : Sys} {l : Label} (ok : Tended s) (does : Does s l s') (settled : Settled s l) : Tended s' :=
  ⟨listed_step ok.listed does,one_each_step ok.one does settled,flagged_step ok.one ok.flagged does,
    quiet_step ok.quiet does settled⟩

theorem listed_sweeps {s : Sys} (listed : Listed s) : atm_conn_free_func s = .ok (s.sweep s.free_list []) :=
  free_func_ok listed.distinct (fun i member => ((listed.iff i).mp member).imp (fun _ found => found.1))

theorem frees_alone_step {s : Sys} {l : Label} (ok : Tended s) (settled : Settled s l) : FreesAlone s l := by
  intro s' took i now before
  cases step_does took with
  | @free k t choice s₁ there running job swept =>
    rw [listed_sweeps ok.listed] at swept
    cases swept
    rcases List.mem_append.mp now with old | new
    · exact absurd old before
    · obtain ⟨member,frees⟩ := List.mem_filter.mp new
      obtain ⟨c,found,inactive⟩ := (ok.listed.iff i).mp member
      rw [reclaimable,found] at frees
      simp only [Bool.and_eq_true,Bool.not_eq_eq_eq_not,Bool.not_true] at frees
      refine ⟨?_,(ok.quiet i c found inactive).1⟩
      rintro ⟨t',member',open',about⟩
      have rest := settled t there
      rw [job] at rest
      have uncleared := rest i member t' member' open' about
      have flags := (ok.flagged t' member').2 open' uncleared i c found
      rcases about_cases about with reads | writes
      · exact absurd (flags.1 reads) (by rw [frees.2]; decide)
      · exact absurd (flags.2 writes) (by rw [frees.1]; decide)
  | _ => exact absurd now before

/-- In every run of settled steps nothing refers to a connection when it is freed; no connection is freed twice, and
    no free pass faults. -/
theorem frees_alone {labels : List Label} (each : EachStep step start labels Settled) :
    EachStep step start labels FreesAlone ∧
      Always step start labels (fun _ s => s.freed.Nodup ∧ ∃ s', atm_conn_free_func s = .ok s') := by
  have started : Tended start :=
    ⟨listed_start,fun _ => ⟨fun _ _ _ _ there => (by cases there),fun _ _ _ _ there => (by cases there)⟩,
      fun _ member => (by cases member),fun _ _ found => (by cases found)⟩
  have reach : ∀ {pre s}, pre <+: labels → run step start pre = .ok s → Tended s := fun isPre ran =>
    run_invariant (P := fun _ => Tended) started
      (fun _ l s s' ok settled took => tended_step ok (step_does took) settled) (eachStep_shorten each isPre) ran
  constructor
  · intro pre l s isPre ran
    exact frees_alone_step (reach ((List.prefix_append pre [l]).trans isPre) ran) (each pre l s isPre ran)
  · intro pre s isPre ran
    have listed := (reach isPre ran).listed
    exact ⟨listed.once,_,listed_sweeps listed⟩

theorem frees_alone_closed :
    EachStep step start [.accept,.report 0 true false false,.deliver,.begin 0,.work 0 .go,.work 0 .dead,.work 0 .go,.work 0 .go,
        .deliver,.begin 1,.work 1 .go] FreesAlone ∧
      Always step start [.accept,.report 0 true false false,.deliver,.begin 0,.work 0 .go,.work 0 .dead,.work 0 .go,.work 0 .go,
        .deliver,.begin 1,.work 1 .go] (fun _ s => s.freed.Nodup ∧ ∃ s', atm_conn_free_func s = .ok s') := by
  apply frees_alone
  refine eachStep_cons.mpr ⟨trivial,fun s ran => ?_⟩
  cases ran
  refine eachStep_cons.mpr ⟨fun _ _ _ _ ⟨_,member,_⟩ => (by cases member),fun s ran => ?_⟩
  cases ran
  refine eachStep_cons.mpr ⟨trivial,fun s ran => ?_⟩
  cases ran
  refine eachStep_cons.mpr ⟨trivial,fun s ran => ?_⟩
  cases ran
  refine eachStep_cons.mpr ⟨fun t there => (by cases there; exact trivial),fun s ran => ?_⟩
  cases ran
  refine eachStep_cons.mpr ⟨fun t there => (by cases there; exact trivial),fun s ran => ?_⟩
  cases ran
  refine eachStep_cons.mpr ⟨fun t there => ?_,fun s ran => ?_⟩
  · cases there
    refine fun c _ _ => ⟨fun _ member => (by cases member),?_⟩
    rintro ⟨t,member,_,same⟩
    cases List.mem_singleton.mp member
    cases same
  cases ran
  refine eachStep_cons.mpr ⟨fun t there => (by cases there; exact trivial),fun s ran => ?_⟩
  cases ran
  refine eachStep_cons.mpr ⟨trivial,fun s ran => ?_⟩
  cases ran
  refine eachStep_cons.mpr ⟨trivial,fun s ran => ?_⟩
  cases ran
  refine eachStep_cons.mpr ⟨fun t there => ?_,fun s _ => eachStep_nil s Settled⟩
  cases there
  intro i _ t' member open' about
  rcases List.mem_cons.mp member with rfl | last
  · exact absurd rfl open'
  · cases List.mem_singleton.mp last
    exact about.elim

/-- The write task has taken its decision when the next read fails: the free task frees the connection, and the
    write task follows the pointer. -/
theorem freed_under_writer : ∃ s s', run step start
    [.accept,.report 0 true false false,.deliver,.begin 0,.work 0 .go,.work 0 .alive,.work 0 (.reply 5),.work 0 .go,.op,
      .report 0 false true false,.handle_write,.deliver,.begin 1,.work 1 .go,.work 1 .go,.work 1 (.accept 5),
      .work 1 .empty,.work 1 .go,.work 0 (.finish true),.work 0 .go,.work 0 .go,.work 0 .go,.op,
      .report 0 true false false,.deliver,.begin 2,.work 2 .go,.work 2 .dead,.work 2 .go,.work 2 .go,.deliver,.begin 3] = .ok s ∧
    step s (.work 3 .go) = .ok s' ∧ ¬ FreesAlone s (.work 3 .go) ∧ step s' (.work 1 .go) = .error (.fault .useAfterFree) := by
  refine ⟨_,_,rfl,rfl,fun alone => ?_,rfl⟩
  apply (alone _ rfl 0 (by decide) (by decide)).1
  exact ⟨⟨.write 0 .free_check,.running,true⟩,by decide,by decide,rfl⟩

end AtmCache.Conns
