import AtmCache.ConnSteps

/-!
# One write task for a connection

`on_write` counts the write tasks before their last decision as long as two things stay away that no
code rules out: `atm_conn_handle_write` for a connection with the flag up (after a hangup, or after a second op that was
queued before the first task was dispatched), and the second clearing of the flag, in
`atm_conn_free_check`, once the next task has raised it.
-/
namespace AtmCache.Conns
open Heap ListSets Runs

/-- A write task of connection `i` that was dispatched and is not past its last decision. -/
def unsettled (i : Nat) (t : Task) : Bool :=
  t.stage ≠ .done && match t.job with
    | .write _ .free_notify => false
    | .write _ .free_check => false
    | .write j _ => j = i
    | _ => false

/-- For an active event, a write task is dispatched and `atm_conn_free_check` of a write task is run while
    `on_write` is down. -/
def FlagDown (s : Sys) : Label → Prop
  | .handle_write => ∀ i c, s.main = .handle_write i → get s.conns i = some c → c.active = true → c.on_write = false
  | .work k _ => ∀ t i c, s.tasks[k]? = some t → t.stage = .running → t.job = .write i .free_check →
      get s.conns i = some c → c.active = true → c.on_write = false
  | _ => True

/-- At most one write task of an active connection is unsettled, and `on_write` is up while there is one. -/
def OneWriter (s : Sys) : Prop :=
  ∀ i c, get s.conns i = some c → c.active = true →
    s.tasks.countP (unsettled i) ≤ 1 ∧ (0 < s.tasks.countP (unsettled i) → c.on_write = true)

/-- `on_write` counts the unsettled write tasks of an active connection. -/
structure Counted (s : Sys) : Prop where
  flag : ∀ i c, get s.conns i = some c → c.active = true → s.tasks.countP (unsettled i) = c.on_write.toNat
  fresh : ∀ i, s.conns.length ≤ i → s.tasks.countP (unsettled i) = 0

theorem Counted.oneWriter {s : Sys} (ok : Counted s) : OneWriter s := by
  intro i c found active
  rw [ok.flag i c found active]
  cases c.on_write <;> simp

theorem unsettled_read {i : Nat} {t : Task} {j : Nat} {pc : ReadAt} (job : t.job = .read j pc) : unsettled i t = false := by
  simp [unsettled,job]

theorem unsettled_free {i : Nat} {t : Task} (job : t.job = .free) : unsettled i t = false := by
  simp [unsettled,job]

theorem unsettled_other {i j : Nat} {t : Task} {pc : WriteAt} (other : j ≠ i) (job : t.job = .write i pc) :
    unsettled j t = false := by
  have differ : i ≠ j := Ne.symm other
  cases pc <;> simp [unsettled,job,differ]

theorem unsettled_after_other {i j : Nat} {t : Task} {pc : WriteAt} {e : Effect WriteAt} (other : j ≠ i)
    (job : t.job = .write i pc) : unsettled j (t.after (Job.write i) e) = false := by
  rw [Task.after]
  cases e.next with
  | none => exact unsettled_other other job
  | some next => exact unsettled_other other rfl

/-- A task that has settled stays so. -/
theorem WriteDoes.settled {conn : Option Conn} {pc : WriteAt} {e : Effect WriteAt} (does : WriteDoes conn pc e) {t : Task}
    {i j : Nat} (job : t.job = .write i pc) (settled : unsettled j t = false) (running : t.stage = .running) :
    unsettled j (t.after (Job.write i) e) = false := by
  by_cases other : j = i
  · subst other
    cases does with
    | free_notify => simp [unsettled,Task.after]
    | free_check => simp [unsettled,Task.after]
    | inactive c => simp [unsettled,Task.after]
    | inter => simp [unsettled,Task.after]
    | _ => simp [unsettled,running,job] at settled
  · exact unsettled_after_other other job

/-- A step of a write task that leaves the event active settles it exactly when the flag goes down. -/
theorem WriteDoes.settles {c : Conn} {pc : WriteAt} {e : Effect WriteAt} (does : WriteDoes (some c) pc e) {t : Task} {i : Nat}
    (running : t.stage = .running) (job : t.job = .write i pc) (active : (e.conn.getD c).active = true)
    (down : pc = .free_check → c.on_write = false) :
    (unsettled i (t.after (Job.write i) e) = unsettled i t ∧ (e.conn.getD c).on_write = c.on_write) ∨
      (unsettled i t = true ∧ unsettled i (t.after (Job.write i) e) = false ∧ (e.conn.getD c).on_write = false) := by
  cases does with
  | test c =>
    have was : c.active = true := active
    exact .inl ⟨by simp [unsettled,Task.after,goes,running,job,was],rfl⟩
  | empty c wreqs seen total nothing =>
    refine .inl ⟨?_,rfl⟩
    by_cases some' : 0 < total <;> simp [unsettled,Task.after,goes,running,job,some']
  | inter c wreqs seen wrmn cut =>
    exact .inr ⟨by simp [unsettled,running,job],by simp [unsettled,Task.after],rfl⟩
  | yield c wreqs seen cut =>
    by_cases stops : c.write_reqs = wreqs ∨ c.active = false
    · have cleared : atm_conn_yield_write c wreqs = (true,{ c with on_write := false }) := if_pos stops
      rw [cleared]
      exact .inr ⟨by simp [unsettled,running,job],by simp [unsettled,Task.after],rfl⟩
    · have goesOn : atm_conn_yield_write c wreqs = (false,c) := if_neg stops
      rw [goesOn]
      exact .inl ⟨by simp [unsettled,Task.after,running,job],rfl⟩
  | inactive c =>
    have off := inactive_active c .on_write
    rw [← Bool.not_eq_true] at off
    exact absurd active off
  | free_notify => exact .inl ⟨by simp [unsettled,Task.after,running,job],rfl⟩
  | free_check c => exact .inl ⟨by simp [unsettled,Task.after,running,job],(down rfl).symm⟩
  | _ => exact .inl ⟨by simp [unsettled,Task.after,goes,running,job],rfl⟩

/-- A step that settles and unsettles nothing and leaves `on_write` as it is. -/
theorem Counted.same {s s' : Sys} (ok : Counted s) (length : s'.conns.length = s.conns.length)
    (count : ∀ j, s'.tasks.countP (unsettled j) = s.tasks.countP (unsettled j))
    (before : ∀ j c', get s'.conns j = some c' → ∃ c, get s.conns j = some c ∧ (c'.active = true → c.active = true) ∧
      c'.on_write = c.on_write) : Counted s' where
  flag := by
    intro j c' found active
    obtain ⟨c,old,still,flag⟩ := before j c' found
    rw [count,flag]
    exact ok.flag j c old (still active)
  fresh := fun j beyond => (count j).trans (ok.fresh j (length ▸ beyond))

/-- A connection that was written back with its flag as before. -/
theorem put_before {s : Sys} {i : Nat} {c c' : Conn} (there : get s.conns i = some c) (active : c'.active = c.active)
    (flag : c'.on_write = c.on_write) : ∀ j d, get (put s.conns i c') j = some d → ∃ c₀, get s.conns j = some c₀ ∧
      (d.active = true → c₀.active = true) ∧ d.on_write = c₀.on_write := by
  intro j d found
  rcases get_of_put there found with ⟨rfl,rfl⟩ | ⟨_,old⟩
  · exact ⟨c,there,fun on => active ▸ on,flag⟩
  · exact ⟨d,old,fun on => on,rfl⟩

theorem counted_step {s s' : Sys} {l : Label} (ok : Counted s) (does : Does s l s') (down : FlagDown s l) : Counted s' := by
  cases does with
  | accept idle =>
    refine ⟨fun j c' found active => ?_,fun j beyond => ok.fresh j ?_⟩
    · rcases get_of_alloc found with ⟨rfl,rfl⟩ | old
      · exact ok.fresh _ (Nat.le_refl _)
      · exact ok.flag j c' old active
    · rw [alloc,List.length_append] at beyond
      omega
  | @report i c epollin epollout err idle there inside outside _ asked =>
    refine ok.same (put_length _ _ _) (fun j => ?_) (put_before there ?_ ?_)
    · rw [List.countP_append,List.countP_singleton,unsettled_read rfl]
      rfl
    · rfl
    · rfl
  | report_ignored idle there ignored => exact ⟨ok.flag,ok.fresh⟩
  | @handle_write i c main there active =>
    have new : ∀ j, unsettled j (dispatched (.write i .test)) = decide (i = j) := fun j => by simp [unsettled,dispatched]
    have counts : ∀ j, (s.tasks ++ [dispatched (.write i .test)]).countP (unsettled j) =
        s.tasks.countP (unsettled j) + if i = j then 1 else 0 := by
      intro j
      rw [List.countP_append,List.countP_singleton,new]
      simp
    refine ⟨fun j c' found active' => (counts j).trans ?_,fun j beyond => (counts j).trans ?_⟩
    · rcases get_of_put there found with ⟨rfl,rfl⟩ | ⟨other,old⟩
      · rw [ok.flag j c there active,down j c main there active,if_pos rfl]
        rfl
      · rw [if_neg (Ne.symm other),ok.flag j c' old active']
        rfl
    · have beyond' : s.conns.length ≤ j := put_length _ _ _ ▸ beyond
      have inside := get_lt there
      rw [if_neg (by rintro rfl; exact Nat.lt_irrefl _ (Nat.lt_of_lt_of_le inside beyond')),ok.fresh j beyond']
  | handle_write_ignored main there inactive => exact ⟨ok.flag,ok.fresh⟩
  | @op op rest c idle first there =>
    refine ok.same (put_length _ _ _) (fun _ => rfl) (put_before there ?_ ?_)
    · cases op.mask <;> rfl
    · cases op.mask <;> rfl
  | @advance _ k t stage there from_to =>
    refine ok.same rfl (fun j => countP_set_same there ?_) (fun j c found => ⟨c,found,fun on => on,rfl⟩)
    rcases from_to with ⟨is,rfl⟩ | ⟨is,rfl⟩
    · simp [unsettled,is]
    · simp [unsettled,is]
  | @read k i t pc choice e there running job does =>
    refine ok.same apply_length (fun j => ?_) (fun j c' found => ?_)
    · have counted : (s.apply k i t (Job.read i) e).tasks.countP (unsettled j) + _ = _ := apply_countP (unsettled j) rfl there
      have before : unsettled j t = false := unsettled_read job
      have after : unsettled j (t.after (Job.read i) e) = false := by
        rw [Task.after]
        cases e.next with
        | none => exact unsettled_read job
        | some next => exact unsettled_read rfl
      rw [before,after] at counted
      omega
    · by_cases here : j = i
      · rw [here] at found ⊢
        obtain ⟨c,before,kept,rfl⟩ := apply_get (fun c' written => does.kept written) found
        rw [before] at does
        exact ⟨c,before,kept.active,does.on_write⟩
      · rw [apply_get_other here] at found
        exact ⟨c',found,fun on => on,rfl⟩
  | @write k i t pc choice e there running job does =>
    have counted : ∀ j, (s.apply k i t (Job.write i) e).tasks.countP (unsettled j) + _ = _ :=
      fun j => apply_countP (unsettled j) rfl there
    refine ⟨fun j c' found active => ?_,fun j beyond => ?_⟩
    · have count := counted j
      by_cases here : j = i
      · rw [here] at found count ⊢
        obtain ⟨c,before,kept,rfl⟩ := apply_get (fun c' written => does.kept written) found
        have flag := ok.flag i c before (kept.active active)
        have low : pc = .free_check → c.on_write = false :=
          fun last => down t i c there running (last ▸ job) before (kept.active active)
        rw [before] at does
        rcases does.settles running job active low with ⟨same,flags⟩ | ⟨one,none,off⟩
        · rw [same] at count
          rw [flags]
          omega
        · rw [one,none] at count
          rw [off]
          have most : c.on_write.toNat ≤ 1 := Bool.toNat_le _
          simp only [Bool.toNat_true,Bool.toNat_false] at count ⊢
          omega
      · rw [unsettled_other here job,unsettled_after_other here job] at count
        rw [apply_get_other here] at found
        have flag := ok.flag j c' found active
        omega
    · have zero := ok.fresh j (apply_length ▸ beyond)
      have before : unsettled j t = false := by simpa using List.countP_eq_zero.mp zero t (List.mem_of_getElem? there)
      have after : unsettled j (t.after (Job.write i) e) = false := does.settled job before running
      have count := counted j
      rw [before,after] at count
      omega
  | @free k t choice s₁ there running job swept =>
    obtain ⟨conns,length,tasks,_,_⟩ := free_loop_swept _ _ _ _ swept
    refine ok.same length (fun j => ?_) (fun j c' found => ⟨c',conns j c' found,fun on => on,rfl⟩)
    rw [show s₁.tasks = s.tasks from tasks]
    exact countP_set_same there (by rw [unsettled_free job]; simp [unsettled])

/-- The steps in which the flag is up break the property at once. -/
theorem flag_up_breaks {s s' : Sys} {l : Label} (ok : Counted s) (up : ¬ FlagDown s l) (took : step s l = .ok s') :
    ¬ OneWriter s' := by
  cases l with
  | handle_write =>
    simp only [FlagDown,not_forall,Bool.not_eq_false] at up
    obtain ⟨i,c,main,found,active,raised⟩ := up
    intro one
    cases step_does took with
    | @handle_write i' c₀ main' there _ =>
      rw [main] at main'
      cases main'
      rw [found] at there
      cases there
      have two := (one i { c with epollout := false, on_write := true } (get_put_self found _) active).1
      have new : unsettled i (dispatched (.write i .test)) = true := by simp [unsettled,dispatched]
      have before := ok.flag i c found active
      rw [raised] at before
      dsimp only at two
      rw [List.countP_append,List.countP_singleton,new,before] at two
      exact absurd two (by decide)
    | handle_write_ignored main' there inactive =>
      rw [main] at main'
      cases main'
      rw [found] at there
      cases there
      rw [active] at inactive
      cases inactive
    | advance there from_to moves => rcases moves with moves | moves <;> cases moves
  | work k choice =>
    simp only [FlagDown,not_forall,Bool.not_eq_false] at up
    obtain ⟨t,i,c,there,running,job,found,active,raised⟩ := up
    intro one
    cases step_does took with
    | advance there from_to moves => rcases moves with moves | moves <;> cases moves
    | read there' _ job' does =>
      rw [there] at there'
      cases there'
      rw [job] at job'
      cases job'
    | free there' _ job' swept =>
      rw [there] at there'
      cases there'
      rw [job] at job'
      cases job'
    | @write k i' t' pc choice e there' _ job' does =>
      rw [there] at there'
      cases there'
      rw [job] at job'
      cases job'
      rw [found] at does
      have count : (s.apply k i t (Job.write i) e).tasks.countP (unsettled i) + _ = _ := apply_countP (unsettled i) rfl there
      have before := ok.flag i c found active
      rw [raised] at before
      cases does with
      | free_check c =>
        have now : get (s.apply k i t (Job.write i) ⟨some (atm_conn_free_check c .on_write).1,none,true,[],
            (atm_conn_free_check c .on_write).2,false⟩).conns i = some (atm_conn_free_check c .on_write).1 :=
          get_put_self found _
        have same : unsettled i t = false := by simp [unsettled,job]
        have done : unsettled i (t.after (Job.write i) ⟨some (atm_conn_free_check c .on_write).1,none,true,[],
            (atm_conn_free_check c .on_write).2,false⟩) = false := by simp [unsettled,Task.after]
        rw [same,done,before] at count
        have flag := (one i _ now active).2 (by simp only [Bool.toNat_true,Bool.toNat_false] at count; omega)
        cases flag
  | accept => exact absurd trivial up
  | report => exact absurd trivial up
  | op => exact absurd trivial up
  | deliver => exact absurd trivial up
  | begin k => exact absurd trivial up

/-- A run has at most one unsettled write task for every active connection, with `on_write` up, exactly
    when its dispatches and checks find the flag down. -/
theorem one_writer_iff {labels : List Label} {s : Sys} (ran : run step start labels = .ok s) :
    Always step start labels (fun _ => OneWriter) ↔ EachStep step start labels FlagDown := by
  have started : Counted start := ⟨fun _ _ found => (by cases found),fun _ _ => rfl⟩
  apply always_iff_eachStep (I := fun _ => Counted) started
  · exact fun _ s ok => ok.oneWriter
  · exact fun _ l s s' ok _ down took => counted_step ok (step_does took) down
  · exact fun _ l s s' ok _ up took => flag_up_breaks ok up took
  · exact fun _ _ _ _ _ => trivial
  · exact ran

theorem one_writer_iff_hangup : Always step start
    [.accept,.report 0 true false true,.handle_write,.deliver,.deliver,.begin 1,.work 1 .go] (fun _ => OneWriter) ↔
      EachStep step start [.accept,.report 0 true false true,.handle_write,.deliver,.deliver,.begin 1,.work 1 .go] FlagDown := by
  obtain ⟨s,ran⟩ : ∃ s, run step start
      [.accept,.report 0 true false true,.handle_write,.deliver,.deliver,.begin 1,.work 1 .go] = .ok s := ⟨_,rfl⟩
  exact one_writer_iff ran

/-- The first write task stops, the second is dispatched, the first clears the flag again, and the next notification
    makes a third one. -/
theorem second_writer : ∃ s, run step start
    [.accept,.report 0 true false false,.deliver,.begin 0,.work 0 .go,.work 0 .alive,.work 0 (.reply 5),.work 0 .go,.op,
      .report 0 false true false,.handle_write,.deliver,.begin 1,.work 1 .go,.work 1 .go,.work 1 (.accept 5),
      .work 1 .empty,.work 1 .go,.work 0 (.reply 5),.work 0 .go,.op,.report 0 false true false,.handle_write,.work 1 .go,
      .work 0 (.reply 5),.work 0 .go,.op,.report 0 false true false,.handle_write] = .ok s ∧
    s.tasks.countP (unsettled 0) = 2 ∧ ¬ OneWriter s :=
  ⟨_,rfl,rfl,fun one => absurd (one 0 _ rfl rfl).1 (by decide)⟩

end AtmCache.Conns
