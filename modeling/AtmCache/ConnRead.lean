import AtmCache.ConnSteps

/-!
# One read task for a connection

`EPOLLIN` in the mask, a queued op that adds it, and a read task that will queue such an
op are one token: there is never more than one of them, as long as an error or a hangup is reported
only while `EPOLLIN` is in the mask. A report at any other time makes a second task.
-/
namespace AtmCache.Conns
open Heap ListSets Runs

/-- A read task of a connection that was dispatched and is not past `atm_sess_process`. -/
def unprocessed (i : Nat) (t : Task) : Bool :=
  t.stage ≠ .done && match t.job with
    | .read j .enter => j = i
    | .read j .read_raw => j = i
    | .read j .process => j = i
    | .read j .write_notify => j = i
    | _ => false

/-- A read task that may still restore the read event. -/
def restores (i : Nat) (t : Task) : Bool :=
  t.stage ≠ .done && match t.job with
    | .read _ (.inactive false) => false
    | .read _ (.free_notify false) => false
    | .read _ .free_check => false
    | .read j _ => j = i
    | _ => false

/-- Whether `EPOLLIN` is in the mask. -/
def reads (conn : Option Conn) : Nat :=
  match conn with
  | some c => c.epollin.toNat
  | none => 0

def tokens (s : Sys) (i : Nat) : Nat :=
  s.tasks.countP (restores i) + s.evq.countP (fun op => op = ⟨i,.read⟩) + reads (get s.conns i)

/-- An error or a hangup of an active event is reported while `EPOLLIN` is in its mask. -/
def Masked (s : Sys) : Label → Prop
  | .report i _ _ err => err = true → ∀ c, get s.conns i = some c → c.active = true → c.epollin = true
  | _ => True

theorem unprocessed_restores {i : Nat} {t : Task} (is : unprocessed i t = true) : restores i t = true := by
  obtain ⟨job,stage,cleared⟩ := t
  cases job with
  | read j pc => cases pc <;> simp_all [unprocessed,restores]
  | write j pc => simp [unprocessed] at is
  | free => simp [unprocessed] at is

/-- A step of a read task passes the token on or drops it. -/
theorem ReadDoes.token {conn : Option Conn} {pc : ReadAt} {e : Effect ReadAt} (does : ReadDoes conn pc e) {t : Task}
    {i : Nat} (running : t.stage = .running) (job : t.job = .read i pc) :
    (restores i (t.after (Job.read i) e)).toNat + e.ops.count .read ≤ (restores i t).toNat := by
  cases does with
  | enter c => cases active : c.active <;> simp [restores,Task.after,goes,running,job]
  | restore_check c => cases active : c.active <;> simp [restores,Task.after,goes,running,job]
  | finish c ok => cases ok <;> simp [restores,Task.after,goes,running,job]
  | free_notify conn goes_on => cases goes_on <;> simp [restores,Task.after,running,job]
  | write_notify c =>
    have ops : (atm_conn_write_notify c).2.count .read = 0 := by
      unfold atm_conn_write_notify
      split
      · cases c.on_write <;> rfl
      · rfl
    simp [restores,Task.after,running,job,ops]
  | inactive c goes_on => cases goes_on <;> simp [restores,Task.after,running,job]
  | _ => simp [restores,Task.after,goes,running,job]

theorem WriteDoes.token {conn : Option Conn} {pc : WriteAt} {e : Effect WriteAt} (does : WriteDoes conn pc e) :
    e.ops.count .read = 0 := by
  cases does with
  | inter c wreqs _ wrmn _ =>
    show (if (wreqs < c.write_reqs ∨ 0 < wrmn) ∧ c.active = true then [Mask.write] else []).count .read = 0
    split <;> rfl
  | _ => rfl

theorem count_ops (ops : List Mask) (i j : Nat) :
    (ops.map (fun mask => (⟨i,mask⟩ : Op))).countP (fun op => op = ⟨j,.read⟩) = if i = j then ops.count .read else 0 := by
  induction ops with
  | nil => simp
  | cons mask ops ih =>
    rw [List.map_cons,List.countP_cons,ih,List.count_cons]
    by_cases same : i = j
    · cases mask <;> simp [same]
    · simp [same]

/-- Through a step of a task the mask stays. -/
theorem reads_apply {P : Type} {s : Sys} {k i : Nat} {t : Task} {job : P → Job} {e : Effect P}
    (kept : ∀ c', e.conn = some c' → ∃ c, get s.conns i = some c ∧ Kept c c') (j : Nat) :
    reads (get (s.apply k i t job e).conns j) ≤ reads (get s.conns j) := by
  by_cases same : j = i
  · rw [same]
    cases found : get (s.apply k i t job e).conns i with
    | none => exact Nat.zero_le _
    | some c' =>
      obtain ⟨c,before,unchanged,_⟩ := apply_get kept found
      rw [before]
      simp [reads,unchanged.epollin]
  · rw [apply_get_other same]

/-- Tasks of other connections hold no token of this one. -/
theorem restores_other {P : Type} {j : Nat} {t : Task} {job : P → Job} {e : Effect P} (ne : ∀ pc, t.job ≠ .read j pc)
    (ne' : ∀ next pc, job next ≠ .read j pc) : restores j t = false ∧ restores j (t.after job e) = false := by
  have none : ∀ t : Task, (∀ pc, t.job ≠ .read j pc) → restores j t = false := by
    intro t ne
    obtain ⟨job,stage,cleared⟩ := t
    cases job with
    | read i pc =>
      have other : i ≠ j := fun same => ne pc (by rw [same])
      cases pc <;> simp [restores,other]
      all_goals (rename_i goes_on; cases goes_on <;> simp [other])
    | write i pc => simp [restores]
    | free => simp [restores]
  refine ⟨none t ne,none _ (fun pc => ?_)⟩
  unfold Task.after
  cases e.next with
  | none => exact ne pc
  | some next => exact ne' next pc

/-- Only a new connection gets a token. -/
theorem tokens_step {s s' : Sys} {l : Label} (does : Does s l s') (masked : Masked s l) :
    (s'.conns.length = s.conns.length ∧ ∀ j, tokens s' j ≤ tokens s j) ∨
      (s'.conns.length = s.conns.length + 1 ∧ ∀ j, tokens s' j ≤ tokens s j + if j = s.conns.length then 1 else 0) := by
  cases does with
  | accept idle =>
    right
    refine ⟨List.length_append,fun j => ?_⟩
    have more : reads (get (alloc s.conns atm_conn_new) j) ≤ reads (get s.conns j) + if j = s.conns.length then 1 else 0 := by
      cases found : get (alloc s.conns atm_conn_new) j with
      | none => exact Nat.zero_le _
      | some c =>
        rcases get_of_alloc found with ⟨rfl,rfl⟩ | old
        · rw [if_pos rfl]
          exact Nat.le_add_left _ _
        · rw [old]
          exact Nat.le_add_right _ _
    simp only [tokens]
    omega
  | @report i c epollin epollout err idle found inside outside active asked =>
    left
    refine ⟨put_length _ _ _,fun j => ?_⟩
    have masks : c.epollin = true := asked.elim inside (fun wrong => masked wrong c found active)
    by_cases same : j = i
    · rw [same]
      have before : reads (get s.conns i) = 1 := by rw [found,reads,masks]; rfl
      have after : reads (get (put s.conns i { c with epollin := false, on_read := true }) i) = 0 := by
        rw [get_put_self found]
        rfl
      have new : restores i (dispatched (.read i .enter)) = true := by simp [restores,dispatched]
      simp only [tokens,List.countP_append,List.countP_singleton,new,↓reduceIte]
      omega
    · have new : restores j (dispatched (.read i .enter)) = false := by simp [restores,dispatched,Ne.symm same]
      simp [tokens,get_put_other _ same,new]
  | report_ignored idle found ignored => exact .inl ⟨rfl,fun j => Nat.le_refl _⟩
  | @handle_write i c main found active =>
    left
    refine ⟨put_length _ _ _,fun j => ?_⟩
    have new : restores j (dispatched (.write i .test)) = false := by simp [restores,dispatched]
    by_cases same : j = i
    · rw [same] at new ⊢
      simp [tokens,get_put_self found,found,reads,new]
    · simp [tokens,get_put_other _ same,new]
  | handle_write_ignored main found inactive => exact .inl ⟨rfl,fun j => Nat.le_refl _⟩
  | @op op rest c idle first found =>
    left
    refine ⟨put_length _ _ _,fun j => ?_⟩
    by_cases same : j = op.e
    · rw [same]
      obtain ⟨i,mask⟩ := op
      cases mask with
      | read =>
        simp only [tokens,first,get_put_self found,reads,atm_event_add_event,List.countP_cons,decide_true,
          ↓reduceIte,Bool.toNat_true]
        omega
      | write => simp [tokens,first,get_put_self found,found,reads,atm_event_add_event]
    · have other : ¬ op = ⟨j,.read⟩ := fun is => same (by rw [is])
      simp [tokens,first,get_put_other _ same,other]
  | @advance _ k t stage there from_to =>
    left
    refine ⟨rfl,fun j => ?_⟩
    have alike : restores j { t with stage := stage } = restores j t := by
      rcases from_to with ⟨is,rfl⟩ | ⟨is,rfl⟩ <;> simp [restores,is]
    simp only [tokens,countP_set_same there alike]
    exact Nat.le_refl _
  | @read k i t pc choice e there running job does =>
    left
    refine ⟨apply_length,fun j => ?_⟩
    have counted : (s.apply k i t (Job.read i) e).tasks.countP (restores j) + _ = _ := apply_countP (restores j) rfl there
    have masks : reads (get (s.apply k i t (Job.read i) e).conns j) ≤ _ :=
      reads_apply (fun c' written => does.kept written) j
    have evq : (s.apply k i t (Job.read i) e).evq = s.evq ++ e.ops.map (fun mask => ⟨i,mask⟩) := rfl
    simp only [tokens,evq,List.countP_append,count_ops]
    by_cases same : i = j
    · subst same
      have token := does.token running job
      rw [if_pos rfl]
      omega
    · obtain ⟨before,after⟩ : restores j t = false ∧ restores j (t.after (Job.read i) e) = false :=
        restores_other (by rw [job]; exact fun pc is => same (Job.read.inj is).1)
          (fun next pc is => same (Job.read.inj is).1)
      rw [before,after] at counted
      rw [if_neg same]
      omega
  | @write k i t pc choice e there running job does =>
    left
    refine ⟨apply_length,fun j => ?_⟩
    have counted : (s.apply k i t (Job.write i) e).tasks.countP (restores j) + _ = _ := apply_countP (restores j) rfl there
    have masks : reads (get (s.apply k i t (Job.write i) e).conns j) ≤ _ :=
      reads_apply (fun c' written => does.kept written) j
    have evq : (s.apply k i t (Job.write i) e).evq = s.evq ++ e.ops.map (fun mask => ⟨i,mask⟩) := rfl
    obtain ⟨before,after⟩ : restores j t = false ∧ restores j (t.after (Job.write i) e) = false :=
      restores_other (by rw [job]; exact fun pc is => by cases is) (fun next pc is => by cases is)
    rw [before,after] at counted
    simp only [tokens,evq,List.countP_append,count_ops,does.token,ite_self]
    omega
  | @free k t choice s₁ there running job swept =>
    left
    obtain ⟨conns,length,tasks,evq,_⟩ := free_loop_swept _ _ _ _ swept
    refine ⟨length,fun j => ?_⟩
    have alike : restores j { t with stage := .done } = restores j t := by simp [restores,job]
    have fewer : reads (get s₁.conns j) ≤ reads (get s.conns j) := by
      cases found : get s₁.conns j with
      | none => exact Nat.zero_le _
      | some c => rw [conns j c found]
    simp only [tokens,tasks,evq,countP_set_same there alike]
    omega

/-- There is at most one token for a connection, and none for one that is not there yet. -/
structure OneToken (s : Sys) : Prop where
  one : ∀ i, tokens s i ≤ 1
  fresh : ∀ i, s.conns.length ≤ i → tokens s i = 0

theorem one_token_step {s s' : Sys} {l : Label} (ok : OneToken s) (does : Does s l s') (masked : Masked s l) :
    OneToken s' := by
  rcases tokens_step does masked with ⟨length,fewer⟩ | ⟨length,fewer⟩
  · refine ⟨fun i => (fewer i).trans (ok.one i),fun i beyond => ?_⟩
    have before := ok.fresh i (by omega)
    have after := fewer i
    omega
  · refine ⟨fun i => ?_,fun i beyond => ?_⟩
    · have after := fewer i
      by_cases new : i = s.conns.length
      · have before := ok.fresh i (by omega)
        rw [if_pos new] at after
        omega
      · have before := ok.one i
        rw [if_neg new] at after
        omega
    · have before := ok.fresh i (by omega)
      have after := fewer i
      rw [if_neg (by omega)] at after
      omega

/-- In every run in which errors and hangups are reported while `EPOLLIN` is in the mask, no two
    read tasks of a connection are dispatched and not past `atm_sess_process`. -/
theorem session_alone {labels : List Label} (each : EachStep step start labels Masked) :
    Always step start labels (fun _ s => ∀ i, s.tasks.countP (unprocessed i) ≤ 1) := by
  intro pre s isPre ran
  have started : OneToken start := ⟨fun i => Nat.zero_le _,fun i _ => rfl⟩
  have ok : OneToken s := run_invariant (P := fun _ => OneToken) started
    (fun _ l s s' ok masked took => one_token_step ok (step_does took) masked) (eachStep_shorten each isPre) ran
  intro i
  have fewer : s.tasks.countP (unprocessed i) ≤ s.tasks.countP (restores i) :=
    List.countP_mono_left (fun t _ is => unprocessed_restores is)
  have := ok.one i
  simp only [tokens] at this
  omega

theorem session_alone_hangup : Always step start
    [.accept,.report 0 true false true,.handle_write,.deliver,.begin 0,.work 0 .go]
    (fun _ s => ∀ i, s.tasks.countP (unprocessed i) ≤ 1) :=
  session_alone (eachStep_cons.mpr ⟨trivial,fun s accepted => eachStep_cons.mpr ⟨fun _ c found _ => by
      cases accepted
      cases found
      rfl,fun _ _ => eachStep_cons.mpr ⟨trivial,fun _ _ => eachStep_cons.mpr ⟨trivial,fun _ _ =>
        eachStep_cons.mpr ⟨trivial,fun _ _ => eachStep_cons.mpr ⟨trivial,fun t _ => eachStep_nil t Masked⟩⟩⟩⟩⟩⟩)

/-- A hangup that is reported while the first task reads makes a second one, and both reach
    `atm_sess_process`. -/
theorem hangup_reads_twice : ∃ s, run step start
    [.accept,.report 0 true false false,.deliver,.begin 0,.work 0 .go,.report 0 false false true,.handle_write,.deliver,
      .begin 1,.work 1 .go,.work 0 .alive,.work 1 .alive] = .ok s ∧
    s.tasks.take 2 = [⟨.read 0 .process,.running,false⟩,⟨.read 0 .process,.running,false⟩] ∧
      s.tasks.countP (unprocessed 0) = 2 :=
  ⟨_,rfl,rfl,rfl⟩

end AtmCache.Conns
