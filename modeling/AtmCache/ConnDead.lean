import Mathlib.Data.List.Nodup
import AtmCache.ConnSweep

/-!
# Dead connections are reclaimed

A flag that is up belongs to a task that will clear it. The last task of a connection leaves, if the event is
inactive, a free task behind, whose pass frees the connection. A task that returns after an error counts on
`atm_conn_inactive` to clear its flag, which does so only for the first that comes; the second one
leaves its flag up for good.
-/
namespace AtmCache.Conns
open Heap ListSets Runs

/-- A read task that has not returned with an error. -/
def ReadAt.Holds : ReadAt → Prop
  | .free_notify false => False
  | _ => True

def WriteAt.Holds : WriteAt → Prop
  | .free_notify => False
  | _ => True

def HoldsRead (i : Nat) (job : Job) : Prop := ∃ pc, job = .read i pc ∧ pc.Holds

def HoldsWrite (i : Nat) (job : Job) : Prop := ∃ pc, job = .write i pc ∧ pc.Holds

/-- A task that returns with an error finds the event active or its flag down when it runs `atm_conn_inactive`. -/
def FirstFailure (s : Sys) : Label → Prop
  | .work k _ => ∀ t i c, s.tasks[k]? = some t → get s.conns i = some c → c.active = false →
      (t.job = .read i (.inactive false) → c.on_read = false) ∧ (t.job = .write i .inactive → c.on_write = false)
  | _ => True

/-- An inactive connection without an unfinished read or write task has its flags down, is listed once, and a free task
    is on its way; what is gone was freed. -/
def Reclaimed (s : Sys) : Prop :=
  ∀ i, i < s.conns.length → ¬ Unfinished s.tasks (About i) →
    match get s.conns i with
    | some c => c.active = false →
        c.on_read = false ∧ c.on_write = false ∧ s.free_list.count i = 1 ∧ Unfinished s.tasks (· = .free)
    | none => i ∈ s.freed ∧ i ∉ s.free_list

/-! ### Flags -/

/-- A flag that is up belongs to a task that has not returned with an error. -/
def Held (s : Sys) : Prop :=
  ∀ i c, get s.conns i = some c →
    (c.on_read = true → Unfinished s.tasks (HoldsRead i)) ∧ (c.on_write = true → Unfinished s.tasks (HoldsWrite i))

theorem holdsRead_about {i : Nat} {job : Job} (holds : HoldsRead i job) : About i job := by
  obtain ⟨pc,rfl,_⟩ := holds
  exact rfl

theorem holdsWrite_about {i : Nat} {job : Job} (holds : HoldsWrite i job) : About i job := by
  obtain ⟨pc,rfl,_⟩ := holds
  exact rfl

/-- A read task goes on while `on_read` is up. -/
theorem ReadDoes.holds {c : Conn} {pc : ReadAt} {e : Effect ReadAt} (does : ReadDoes (some c) pc e)
    (first : c.active = false → pc = .inactive false → c.on_read = false) (up : (e.conn.getD c).on_read = true) :
    c.on_read = true ∧ (pc.Holds → ∃ next, e.next = some next ∧ next.Holds) := by
  cases does with
  | enter c =>
    refine ⟨up,fun _ => ⟨_,rfl,?_⟩⟩
    split <;> exact trivial
  | finish c ok =>
    refine ⟨up,fun _ => ⟨_,rfl,?_⟩⟩
    cases ok <;> exact trivial
  | write_notify c =>
    have same : (atm_conn_write_notify c).1.on_read = c.on_read := by
      unfold atm_conn_write_notify
      split <;> rfl
    rw [← same]
    exact ⟨up,fun _ => ⟨_,rfl,trivial⟩⟩
  | inactive c goes_on =>
    cases active : c.active with
    | true =>
      have took : atm_conn_inactive c .on_read = ({ c with active := false, on_read := false },true) := by
        rw [atm_conn_inactive,if_pos active]
        rfl
      rw [took] at up
      cases up
    | false =>
      have took : atm_conn_inactive c .on_read = (c,false) := by rw [atm_conn_inactive,active]; rfl
      rw [took] at up ⊢
      refine ⟨up,fun _ => ⟨_,rfl,?_⟩⟩
      cases goes_on with
      | true => exact trivial
      | false =>
        have raised : c.on_read = true := up
        rw [first active rfl] at raised
        cases raised
  | free_notify _ goes_on =>
    refine ⟨up,fun holds => ?_⟩
    cases goes_on with
    | true => exact ⟨.restore_check,rfl,trivial⟩
    | false => exact holds.elim
  | restore_check c =>
    refine ⟨up,fun _ => ⟨_,rfl,?_⟩⟩
    split <;> exact trivial
  | free_check c => cases up
  | _ => exact ⟨up,fun _ => ⟨_,rfl,trivial⟩⟩

theorem WriteDoes.holds {c : Conn} {pc : WriteAt} {e : Effect WriteAt} (does : WriteDoes (some c) pc e)
    (first : c.active = false → pc = .inactive → c.on_write = false) (up : (e.conn.getD c).on_write = true) :
    c.on_write = true ∧ (pc.Holds → ∃ next, e.next = some next ∧ next.Holds) := by
  cases does with
  | test c =>
    refine ⟨up,fun _ => ⟨_,rfl,?_⟩⟩
    split <;> exact trivial
  | empty c wreqs seen total nothing =>
    refine ⟨up,fun _ => ⟨_,rfl,?_⟩⟩
    split <;> exact trivial
  | inter c wreqs seen wrmn cut => cases up
  | yield c wreqs seen cut =>
    by_cases stops : c.write_reqs = wreqs ∨ c.active = false
    · have cleared : atm_conn_yield_write c wreqs = (true,{ c with on_write := false }) := if_pos stops
      rw [cleared] at up
      cases up
    · have goesOn : atm_conn_yield_write c wreqs = (false,c) := if_neg stops
      rw [goesOn] at up ⊢
      exact ⟨up,fun _ => ⟨_,rfl,trivial⟩⟩
  | inactive c =>
    cases active : c.active with
    | true =>
      have took : atm_conn_inactive c .on_write = ({ c with active := false, on_write := false },true) := by
        rw [atm_conn_inactive,if_pos active]
        rfl
      rw [took] at up
      cases up
    | false =>
      have took : atm_conn_inactive c .on_write = (c,false) := by rw [atm_conn_inactive,active]; rfl
      rw [took] at up
      have raised : c.on_write = true := up
      rw [first active rfl] at raised
      cases raised
  | free_notify => exact ⟨up,fun holds => holds.elim⟩
  | free_check c => cases up
  | _ => exact ⟨up,fun _ => ⟨_,rfl,trivial⟩⟩

theorem held_step {s s' : Sys} {l : Label} (ok : Held s) (does : Does s l s') (first : FirstFailure s l) : Held s' := by
  intro j c' found
  cases does with
  | accept idle =>
    rcases get_of_alloc found with ⟨_,rfl⟩ | old
    · exact ⟨fun up => (by cases up),fun up => (by cases up)⟩
    · exact ok j c' old
  | report idle there inside outside active asked =>
    rcases get_of_put there found with ⟨rfl,rfl⟩ | ⟨_,old⟩
    · exact ⟨fun _ => unfinished_new _ ⟨.enter,rfl,trivial⟩,fun up => unfinished_append _ ((ok _ _ there).2 up)⟩
    · exact ⟨fun up => unfinished_append _ ((ok j c' old).1 up),fun up => unfinished_append _ ((ok j c' old).2 up)⟩
  | report_ignored idle there ignored => exact ok j c' found
  | handle_write main there active =>
    rcases get_of_put there found with ⟨rfl,rfl⟩ | ⟨_,old⟩
    · exact ⟨fun up => unfinished_append _ ((ok _ _ there).1 up),fun _ => unfinished_new _ ⟨.test,rfl,trivial⟩⟩
    · exact ⟨fun up => unfinished_append _ ((ok j c' old).1 up),fun up => unfinished_append _ ((ok j c' old).2 up)⟩
  | handle_write_ignored main there inactive => exact ok j c' found
  | @op op rest c idle next there =>
    rcases get_of_put there found with ⟨rfl,rfl⟩ | ⟨_,old⟩
    · have same := ok op.e c there
      cases op.mask <;> exact same
    · exact ok j c' old
  | @advance _ k t stage there from_to =>
    have open' := (open_advance from_to).2
    have still : ∀ P, Unfinished s.tasks P → Unfinished (s.tasks.set k { t with stage := stage }) P :=
      fun P => unfinished_set there (fun _ holds => holds) (fun holds => ⟨open',holds⟩)
    exact ⟨fun up => still _ ((ok j c' found).1 up),fun up => still _ ((ok j c' found).2 up)⟩
  | @read k i t pc choice e there running job does =>
    have writes : ¬ HoldsWrite j t.job := by
      rw [job]
      rintro ⟨_,same,_⟩
      cases same
    by_cases here : j = i
    · rw [here] at found writes ⊢
      obtain ⟨c,before,kept,rfl⟩ := apply_get (fun c' written => does.kept written) found
      have late := fun inactive same => (first t i c there before inactive).1 (job.trans (congrArg (Job.read i) same))
      rw [before] at does
      constructor
      · intro up
        obtain ⟨was,passes⟩ := does.holds late up
        exact unfinished_goes_on there (fun _ _ same => (Job.read.inj same).2) job passes ((ok i c before).1 was)
      · intro up
        rw [does.on_write] at up
        exact unfinished_elsewhere there writes ((ok i c before).2 up)
    · have reads : ¬ HoldsRead j t.job := by
        rw [job]
        rintro ⟨_,same,_⟩
        cases same
        exact here rfl
      rw [apply_get_other here] at found
      exact ⟨fun up => unfinished_elsewhere there reads ((ok j c' found).1 up),
        fun up => unfinished_elsewhere there writes ((ok j c' found).2 up)⟩
  | @write k i t pc choice e there running job does =>
    have reads : ¬ HoldsRead j t.job := by
      rw [job]
      rintro ⟨_,same,_⟩
      cases same
    by_cases here : j = i
    · rw [here] at found reads ⊢
      obtain ⟨c,before,kept,rfl⟩ := apply_get (fun c' written => does.kept written) found
      have late := fun inactive same => (first t i c there before inactive).2 (job.trans (congrArg (Job.write i) same))
      rw [before] at does
      constructor
      · intro up
        rw [does.on_read] at up
        exact unfinished_elsewhere there reads ((ok i c before).1 up)
      · intro up
        obtain ⟨was,passes⟩ := does.holds late up
        exact unfinished_goes_on there (fun _ _ same => (Job.write.inj same).2) job passes ((ok i c before).2 was)
    · have writes : ¬ HoldsWrite j t.job := by
        rw [job]
        rintro ⟨_,same,_⟩
        cases same
        exact here rfl
      rw [apply_get_other here] at found
      exact ⟨fun up => unfinished_elsewhere there reads ((ok j c' found).1 up),
        fun up => unfinished_elsewhere there writes ((ok j c' found).2 up)⟩
  | @free k t choice s₁ there running job swept =>
    obtain ⟨conns,_,tasks,_,_⟩ := free_loop_swept _ _ _ _ swept
    have still : ∀ P, (P .free → False) → Unfinished s.tasks P → Unfinished (s₁.tasks.set k { t with stage := .done }) P := by
      intro P not
      rw [tasks]
      exact unfinished_set there (fun _ holds => holds) (fun holds => (not (job ▸ holds)).elim)
    have before := ok j c' (conns j c' found)
    exact ⟨fun up => still _ (fun holds => holdsRead_about holds) (before.1 up),
      fun up => still _ (fun holds => holdsWrite_about holds) (before.2 up)⟩

/-! ### Free tasks -/

/-- For an inactive connection a free task is on its way, or a task that will dispatch one. -/
def Coming (s : Sys) : Prop :=
  ∀ i c, get s.conns i = some c → c.active = false → Unfinished s.tasks (fun job => job = .free ∨ About i job)

/-- A task that ends leaves a free task behind when the event is inactive. -/
theorem ReadDoes.leaves {c : Conn} {pc : ReadAt} {e : Effect ReadAt} (does : ReadDoes (some c) pc e)
    (inactive : (e.conn.getD c).active = false) :
    (∃ next, e.next = some next) ∨ e.notifies = true := by
  cases does with
  | free_notify _ goes_on =>
    cases goes_on with
    | true => exact .inl ⟨_,rfl⟩
    | false => exact .inr rfl
  | free_check c =>
    have was : c.active = false := inactive
    exact .inr (by rw [atm_conn_free_check,was]; rfl)
  | _ => exact .inl ⟨_,rfl⟩

theorem WriteDoes.leaves {c : Conn} {pc : WriteAt} {e : Effect WriteAt} (does : WriteDoes (some c) pc e)
    (inactive : (e.conn.getD c).active = false) :
    (∃ next, e.next = some next) ∨ e.notifies = true := by
  cases does with
  | free_notify => exact .inr rfl
  | free_check c =>
    have was : c.active = false := inactive
    exact .inr (by rw [atm_conn_free_check,was]; rfl)
  | _ => exact .inl ⟨_,rfl⟩

/-- A step of a task of connection `i` that goes on or dispatches a free task. -/
theorem comes_apply {P : Type} {s : Sys} {k i : Nat} {t : Task} {job : P → Job} {e : Effect P} (there : s.tasks[k]? = some t)
    (about : ∀ pc, About i (job pc)) (leaves : (∃ next, e.next = some next) ∨ e.notifies = true) :
    Unfinished (s.apply k i t job e).tasks (fun job => job = .free ∨ About i job) := by
  rcases leaves with ⟨next,goesOn⟩ | notifies
  · refine ⟨t.after job e,List.mem_append_left _ (mem_set_self there _),?_,?_⟩
    · rw [Task.after,goesOn]
      exact fun same => by cases same
    · rw [Task.after,goesOn]
      exact .inr (about next)
  · refine ⟨dispatched .free,?_,(fun same => by cases same),.inl rfl⟩
    rw [Sys.apply,notifies]
    exact List.mem_append_right _ (List.mem_singleton_self _)

theorem comes_other {P : Type} {s : Sys} {k i j : Nat} {t : Task} {job : P → Job} {e : Effect P} (there : s.tasks[k]? = some t)
    (not : t.job ≠ .free ∧ ¬ About j t.job) (comes : Unfinished s.tasks (fun job => job = .free ∨ About j job)) :
    Unfinished (s.apply k i t job e).tasks (fun job => job = .free ∨ About j job) :=
  unfinished_apply there (fun holds => (holds.elim not.1 not.2).elim) comes

/-- A connection that a free pass has passed over has a flag up. -/
theorem swept_flag {s : Sys} (listed : Listed s) {i : Nat} {c : Conn} (found : get (s.sweep s.free_list []).conns i = some c)
    (inactive : c.active = false) : get s.conns i = some c ∧ (c.on_read = true ∨ c.on_write = true) := by
  rw [sweep_get] at found
  by_cases goes : i ∈ s.free_list ∧ reclaimable s.conns i = true
  · rw [if_pos goes] at found
    cases found
  · rw [if_neg goes] at found
    refine ⟨found,?_⟩
    have member : i ∈ s.free_list := (listed.iff i).mpr ⟨c,found,inactive⟩
    have stays : reclaimable s.conns i = false := by simpa [member] using goes
    rw [reclaimable,found] at stays
    cases reads : c.on_read with
    | true => exact .inl rfl
    | false =>
      dsimp only at stays
      rw [reads] at stays
      exact .inr (by simpa using stays)

theorem coming_step {s s' : Sys} {l : Label} (listed : Listed s) (held : Held s) (ok : Coming s) (does : Does s l s') :
    Coming s' := by
  intro j c' found inactive
  cases does with
  | accept idle =>
    rcases get_of_alloc found with ⟨_,rfl⟩ | old
    · cases inactive
    · exact ok j c' old inactive
  | report idle there inside outside active asked =>
    rcases get_of_put there found with ⟨rfl,rfl⟩ | ⟨_,old⟩
    · exact unfinished_append _ (ok _ _ there inactive)
    · exact unfinished_append _ (ok j c' old inactive)
  | report_ignored idle there ignored => exact ok j c' found inactive
  | handle_write main there active =>
    rcases get_of_put there found with ⟨rfl,rfl⟩ | ⟨_,old⟩
    · exact unfinished_append _ (ok _ _ there inactive)
    · exact unfinished_append _ (ok j c' old inactive)
  | handle_write_ignored main there off => exact ok j c' found inactive
  | @op op rest c idle next there =>
    rcases get_of_put there found with ⟨rfl,rfl⟩ | ⟨_,old⟩
    · have same := ok op.e c there
      cases mask : op.mask <;> rw [mask] at inactive <;> exact same inactive
    · exact ok j c' old inactive
  | @advance _ k t stage there from_to =>
    have open' := (open_advance from_to).2
    exact unfinished_set there (fun _ holds => holds) (fun holds => ⟨open',holds⟩) (ok j c' found inactive)
  | @read k i t pc choice e there running job does =>
    by_cases here : j = i
    · rw [here] at found ⊢
      obtain ⟨c,before,kept,rfl⟩ := apply_get (fun c' written => does.kept written) found
      rw [before] at does
      exact comes_apply there (fun _ => rfl) (does.leaves inactive)
    · rw [apply_get_other here] at found
      refine comes_other there ?_ (ok j c' found inactive)
      rw [job]
      exact ⟨(fun same => by cases same),fun same => here same.symm⟩
  | @write k i t pc choice e there running job does =>
    by_cases here : j = i
    · rw [here] at found ⊢
      obtain ⟨c,before,kept,rfl⟩ := apply_get (fun c' written => does.kept written) found
      rw [before] at does
      exact comes_apply there (fun _ => rfl) (does.leaves inactive)
    · rw [apply_get_other here] at found
      refine comes_other there ?_ (ok j c' found inactive)
      rw [job]
      exact ⟨(fun same => by cases same),fun same => here same.symm⟩
  | @free k t choice s₁ there running job swept =>
    have live : ∀ i ∈ s.free_list, ∃ c, get s.conns i = some c :=
      fun i member => ((listed.iff i).mp member).imp (fun _ found => found.1)
    rw [free_func_ok listed.distinct live] at swept
    cases swept
    obtain ⟨before,up⟩ := swept_flag listed found inactive
    have about : Unfinished s.tasks (About j) := by
      rcases up with reads | writes
      · obtain ⟨t',member,open',holds⟩ := (held j c' before).1 reads
        exact ⟨t',member,open',holdsRead_about holds⟩
      · obtain ⟨t',member,open',holds⟩ := (held j c' before).2 writes
        exact ⟨t',member,open',holdsWrite_about holds⟩
    exact unfinished_set there (fun _ holds => .inr holds) (fun holds => (job ▸ holds : About j .free).elim) about

/-! ### Runs -/

/-- A dead connection stays reclaimable in every run in which a task that returns with an error finds the
    event active or its flag down. -/
theorem dead_reclaimed {labels : List Label} (each : EachStep step start labels FirstFailure) :
    Always step start labels (fun _ => Reclaimed) := by
  intro pre s isPre ran
  have started : Listed start ∧ Held start ∧ Coming start :=
    ⟨listed_start,fun _ _ found => (by cases found),fun _ _ found => (by cases found)⟩
  obtain ⟨listed,held,coming⟩ := run_invariant (P := fun _ s => Listed s ∧ Held s ∧ Coming s) started
    (fun _ l s s' ok first took =>
      have does := step_does took
      ⟨listed_step ok.1 does,held_step ok.2.1 does first,coming_step ok.1 ok.2.1 ok.2.2 does⟩)
    (eachStep_shorten each isPre) ran
  intro i inside idle
  cases found : get s.conns i with
  | none =>
    refine ⟨(listed.gone i).mpr ⟨inside,found⟩,fun member => ?_⟩
    obtain ⟨c,there,_⟩ := (listed.iff i).mp member
    rw [found] at there
    cases there
  | some c =>
    intro inactive
    have once : s.free_list.count i = 1 := List.count_eq_one_of_mem listed.distinct ((listed.iff i).mpr ⟨c,found,inactive⟩)
    have reads : c.on_read = false := by
      by_contra up
      obtain ⟨t,member,open',holds⟩ := (held i c found).1 (by simpa using up)
      exact idle ⟨t,member,open',holdsRead_about holds⟩
    have writes : c.on_write = false := by
      by_contra up
      obtain ⟨t,member,open',holds⟩ := (held i c found).2 (by simpa using up)
      exact idle ⟨t,member,open',holdsWrite_about holds⟩
    refine ⟨reads,writes,once,?_⟩
    obtain ⟨t,member,open',comes⟩ := coming i c found inactive
    exact ⟨t,member,open',comes.resolve_right (fun about => idle ⟨t,member,open',about⟩)⟩

theorem dead_reclaimed_closed : Always step start
    [.accept,.report 0 true false false,.deliver,.begin 0,.work 0 .go,.work 0 .dead,.work 0 .go,.work 0 .go]
    (fun _ => Reclaimed) := by
  apply dead_reclaimed
  refine eachStep_cons.mpr ⟨trivial,fun s ran => ?_⟩
  cases ran
  refine eachStep_cons.mpr ⟨trivial,fun s ran => ?_⟩
  cases ran
  refine eachStep_cons.mpr ⟨trivial,fun s ran => ?_⟩
  cases ran
  refine eachStep_cons.mpr ⟨trivial,fun s ran => ?_⟩
  cases ran
  refine eachStep_cons.mpr ⟨fun t i c there _ _ => ⟨fun job => ?_,fun job => ?_⟩,fun s ran => ?_⟩
  · cases there
    cases job
  · cases there
    cases job
  cases ran
  refine eachStep_cons.mpr ⟨fun t i c there _ _ => ⟨fun job => ?_,fun job => ?_⟩,fun s ran => ?_⟩
  · cases there
    cases job
  · cases there
    cases job
  cases ran
  refine eachStep_cons.mpr ⟨fun t i c there found inactive => ⟨fun job => ?_,fun job => ?_⟩,fun s ran => ?_⟩
  · cases there
    cases job
    cases found
    cases inactive
  · cases there
    cases job
  cases ran
  refine eachStep_cons.mpr ⟨fun t i c there _ _ => ⟨fun job => ?_,fun job => ?_⟩,fun s _ => ?_⟩
  · cases there
    cases job
  · cases there
    cases job
  exact eachStep_nil s FirstFailure

/-- The peer is gone, and both tasks fail. The write task makes the event inactive, the read task comes second and
    leaves `on_read` up: both free passes put the connection behind. -/
theorem second_failure : ∃ s, run step start
    [.accept,.report 0 true false false,.deliver,.begin 0,.work 0 .go,.work 0 .alive,.work 0 (.reply 5),.work 0 .go,
      .work 0 (.finish true),.work 0 .go,.work 0 .go,.work 0 .go,.op,.op,.report 0 true true true,.handle_write,.deliver,
      .deliver,.begin 1,.begin 2,.work 1 .go,.work 1 .dead,.work 2 .go,.work 2 .go,.work 2 .fail,.work 2 .go,.work 1 .go,
      .work 1 .go,.work 2 .go,.deliver,.deliver,.begin 3,.work 3 .go,.begin 4,.work 4 .go] = .ok s ∧
    s.tasks.all (fun t => t.stage = .done) ∧ s.free_list = [0] ∧ ¬ Reclaimed s := by
  refine ⟨⟨[some ⟨false,false,false,true,false,1,5,1⟩],[⟨.read 0 .free_check,.done,true⟩,
    ⟨.read 0 (.free_notify false),.done,false⟩,⟨.write 0 .free_notify,.done,true⟩,⟨.free,.done,false⟩,⟨.free,.done,false⟩],
    [],.idle,[0],[]⟩,rfl,rfl,rfl,fun reclaimed => ?_⟩
  have down := reclaimed 0 (by decide) ?_ rfl
  · cases down.1
  · rintro ⟨t,member,open',_⟩
    simp only [List.mem_cons,List.not_mem_nil,or_false] at member
    rcases member with rfl | rfl | rfl | rfl | rfl <;> exact open' rfl

end AtmCache.Conns
