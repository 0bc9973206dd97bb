import AtmCache.ConnSteps

/-!
# The free list

A free pass looks at each listed connection once: it frees those with both flags down and puts the
others behind, until the first of these comes up again. In every reachable state the list holds
the inactive connections that are not freed, each once, so that a pass never faults.
-/
namespace AtmCache.Conns
open Heap Runs

/-- Whether a free pass frees the connection. -/
def reclaimable (conns : Cells Conn) (i : Nat) : Bool :=
  match get conns i with
  | some c => !c.on_write && !c.on_read
  | none => false

/-- A state after a pass over some connections. -/
def Sys.sweep (s : Sys) (seen kept : List Nat) : Sys :=
  { s with
    conns := (seen.filter (reclaimable s.conns)).foldl free s.conns
    free_list := kept ++ seen.filter (fun i => !reclaimable s.conns i)
    freed := s.freed ++ seen.filter (reclaimable s.conns) }

theorem reclaimable_free {conns : Cells Conn} {i j : Nat} (other : j ≠ i) :
    reclaimable (free conns i) j = reclaimable conns j := by
  rw [reclaimable,get_free_other conns other,reclaimable]

/-- `unproc` is the first connection that was put behind. -/
theorem free_loop_ok (seen : List Nat) : ∀ kept s fuel, s.free_list = seen ++ kept → (seen ++ kept).Nodup →
    (∀ i ∈ seen, ∃ c, get s.conns i = some c) → seen.length < fuel →
    atm_conn_free_loop fuel s kept.head? = .ok (s.sweep seen kept) := by
  induction seen with
  | nil =>
    intro kept s fuel listed distinct live enough
    obtain ⟨fuel,rfl⟩ := Nat.exists_eq_succ_of_ne_zero (Nat.ne_of_gt enough)
    rw [List.nil_append] at listed
    rw [atm_conn_free_loop,listed,if_pos rfl]
    simp [Sys.sweep,← listed]
  | cons i seen ih =>
    intro kept s fuel listed distinct live enough
    obtain ⟨fuel,rfl⟩ := Nat.exists_eq_succ_of_ne_zero (Nat.ne_of_gt (Nat.lt_of_le_of_lt (Nat.zero_le _) enough))
    rw [List.cons_append] at listed distinct
    obtain ⟨once,others⟩ := List.nodup_cons.mp distinct
    have notLast : (i :: (seen ++ kept)).head? ≠ kept.head? := by
      intro same
      exact once (List.mem_append_right _ (List.mem_of_mem_head? same.symm))
    obtain ⟨c,found⟩ := live i List.mem_cons_self
    have later : ∀ j ∈ seen, j ≠ i := fun j member same => once (List.mem_append_left _ (same ▸ member))
    rw [atm_conn_free_loop,listed,if_neg notLast]
    dsimp only
    rw [found,deref,ok_bind]
    have enough' : seen.length < fuel := Nat.lt_of_succ_lt_succ enough
    by_cases idle : (!c.on_write && !c.on_read) = true
    · have frees : reclaimable s.conns i = true := by rw [reclaimable,found]; exact idle
      have alike : ∀ j ∈ seen, reclaimable (free s.conns i) j = reclaimable s.conns j :=
        fun j member => reclaimable_free (later j member)
      rw [if_pos idle,ih kept _ fuel rfl others ?_ enough']
      · have gone := List.filter_congr alike
        have stay := List.filter_congr (fun j member => congrArg not (alike j member))
        simp [Sys.sweep,frees,gone,stay]
      · intro j member
        obtain ⟨d,there⟩ := live j (List.mem_cons_of_mem i member)
        exact ⟨d,(get_free_other s.conns (later j member)).trans there⟩
    · have stays : reclaimable s.conns i = false := by rw [reclaimable,found]; simpa using idle
      have head : (if kept.head? = none then some i else kept.head?) = (kept ++ [i]).head? := by
        cases kept <;> rfl
      have order : (seen ++ (kept ++ [i])).Nodup := by
        rw [← List.append_assoc]
        exact (List.perm_append_singleton i (seen ++ kept)).nodup_iff.mpr distinct
      have rest := ih (kept ++ [i]) { s with free_list := seen ++ kept ++ [i] } fuel (List.append_assoc ..) order
        (fun j member => live j (List.mem_cons_of_mem i member)) enough'
      rw [if_neg idle,head,rest]
      simp [Sys.sweep,stays]

/-- A pass over distinct connections that are there. -/
theorem free_func_ok {s : Sys} (distinct : s.free_list.Nodup) (live : ∀ i ∈ s.free_list, ∃ c, get s.conns i = some c) :
    atm_conn_free_func s = .ok (s.sweep s.free_list []) :=
  free_loop_ok s.free_list [] s _ (List.append_nil _).symm (by rwa [List.append_nil]) live (Nat.lt_succ_self _)

theorem sweep_get (s : Sys) (seen kept : List Nat) (j : Nat) :
    get (s.sweep seen kept).conns j = if j ∈ seen ∧ reclaimable s.conns j = true then none else get s.conns j := by
  rw [Sys.sweep,get_foldl_free]
  simp only [List.mem_filter]

/-! ### Listed connections -/

/-- The list holds the inactive connections, each once, and what was freed is what is gone. -/
structure Listed (s : Sys) : Prop where
  distinct : s.free_list.Nodup
  iff : ∀ i, i ∈ s.free_list ↔ ∃ c, get s.conns i = some c ∧ c.active = false
  once : s.freed.Nodup
  gone : ∀ i, i ∈ s.freed ↔ i < s.conns.length ∧ get s.conns i = none

theorem listed_start : Listed start :=
  ⟨List.nodup_nil,fun _ => ⟨fun member => (by cases member),(by rintro ⟨_,found,_⟩; cases found)⟩,List.nodup_nil,
    fun _ => ⟨fun member => (by cases member),(by rintro ⟨inside,_⟩; cases inside)⟩⟩

/-- A step of a task lists the connection when it makes it inactive, and changes none that is gone. -/
def Effect.Lists {P : Type} (e : Effect P) : Option Conn → Prop
  | none => e.conn = none ∧ e.lists = false
  | some c => (e.lists = true ∧ c.active = true ∧ (e.conn.getD c).active = false) ∨
      (e.lists = false ∧ (e.conn.getD c).active = c.active)

theorem inactive_lists (c : Conn) (flag : Flag) :
    ((atm_conn_inactive c flag).2 = true ∧ c.active = true ∧ (atm_conn_inactive c flag).1.active = false) ∨
      ((atm_conn_inactive c flag).2 = false ∧ (atm_conn_inactive c flag).1.active = c.active) := by
  unfold atm_conn_inactive
  split
  · rename_i active
    cases flag <;> exact .inl ⟨rfl,active,rfl⟩
  · exact .inr ⟨rfl,rfl⟩

theorem ReadDoes.lists {conn : Option Conn} {pc : ReadAt} {e : Effect ReadAt} (does : ReadDoes conn pc e) : e.Lists conn := by
  cases does with
  | inactive c goes_on => exact inactive_lists c .on_read
  | write_notify c =>
    refine .inr ⟨rfl,?_⟩
    show (atm_conn_write_notify c).1.active = c.active
    unfold atm_conn_write_notify
    split <;> rfl
  | free_notify => cases conn <;> first | exact ⟨rfl,rfl⟩ | exact .inr ⟨rfl,rfl⟩
  | restore => cases conn <;> first | exact ⟨rfl,rfl⟩ | exact .inr ⟨rfl,rfl⟩
  | _ => exact .inr ⟨rfl,rfl⟩

theorem WriteDoes.lists {conn : Option Conn} {pc : WriteAt} {e : Effect WriteAt} (does : WriteDoes conn pc e) :
    e.Lists conn := by
  cases does with
  | inactive c => exact inactive_lists c .on_write
  | yield c wreqs seen cut =>
    refine .inr ⟨rfl,?_⟩
    show (atm_conn_yield_write c wreqs).2.active = c.active
    unfold atm_conn_yield_write
    split <;> rfl
  | free_notify => cases conn <;> first | exact ⟨rfl,rfl⟩ | exact .inr ⟨rfl,rfl⟩
  | _ => exact .inr ⟨rfl,rfl⟩

/-- Where connections stay or go, and whether they are active, is as before. -/
theorem Listed.same {s s' : Sys} (ok : Listed s) (free_list : s'.free_list = s.free_list) (freed : s'.freed = s.freed)
    (length : s'.conns.length = s.conns.length)
    (alike : ∀ j, (get s'.conns j).map Conn.active = (get s.conns j).map Conn.active) : Listed s' := by
  have inactive : ∀ (conns : Cells Conn) j, (∃ c, get conns j = some c ∧ c.active = false) ↔
      (get conns j).map Conn.active = some false := by
    intro conns j
    rw [Option.map_eq_some_iff]
  have away : ∀ (conns : Cells Conn) j, get conns j = none ↔ (get conns j).map Conn.active = none := by
    intro conns j
    rw [Option.map_eq_none_iff]
  refine ⟨free_list ▸ ok.distinct,fun i => ?_,freed ▸ ok.once,fun i => ?_⟩
  · rw [free_list,ok.iff,inactive,inactive,alike]
  · rw [freed,ok.gone,length,away,away s'.conns,alike]

theorem put_alike {conns : Cells Conn} {i : Nat} {c c' : Conn} (found : get conns i = some c) (active : c'.active = c.active)
    (j : Nat) : (get (put conns i c') j).map Conn.active = (get conns j).map Conn.active := by
  by_cases same : j = i
  · rw [same,get_put_self found,found]
    exact congrArg some active
  · rw [get_put_other conns same]

/-- Through a step of a task. -/
theorem Listed.apply {P : Type} {s : Sys} {k i : Nat} {t : Task} {job : P → Job} {e : Effect P} (ok : Listed s)
    (lists : e.Lists (get s.conns i)) : Listed (s.apply k i t job e) := by
  cases found : get s.conns i with
  | none =>
    rw [found] at lists
    refine ok.same ?_ rfl ?_ (fun j => ?_)
    · rw [Sys.apply,lists.2]
      exact List.append_nil _
    · rw [Sys.apply,lists.1]
    · rw [Sys.apply,lists.1]
  | some c =>
    rw [found] at lists
    have conns : (s.apply k i t job e).conns = put s.conns i (e.conn.getD c) := by
      rw [Sys.apply]
      cases e.conn with
      | none => exact (put_same found).symm
      | some c' => rfl
    rcases lists with ⟨adds,was,off⟩ | ⟨keeps,active⟩
    · have free_list : (s.apply k i t job e).free_list = s.free_list ++ [i] := by rw [Sys.apply,adds]; rfl
      have outside : i ∉ s.free_list := by
        rw [ok.iff]
        rintro ⟨c₀,there,inactive⟩
        rw [found] at there
        cases there
        rw [was] at inactive
        cases inactive
      refine ⟨?_,fun j => ?_,ok.once,fun j => ?_⟩
      · rw [free_list]
        exact (List.perm_append_singleton i s.free_list).nodup_iff.mpr (List.nodup_cons.mpr ⟨outside,ok.distinct⟩)
      · rw [free_list,conns,List.mem_append,List.mem_singleton,ok.iff]
        by_cases same : j = i
        · rw [same,get_put_self found]
          simp [off]
        · rw [get_put_other _ same]
          simp [same]
      · show j ∈ s.freed ↔ _
        rw [conns,put_length]
        by_cases same : j = i
        · rw [same,get_put_self found]
          have here := ok.gone i
          rw [found] at here
          simpa using here
        · rw [get_put_other _ same]
          exact ok.gone j
    · refine ok.same ?_ rfl ?_ (fun j => ?_)
      · rw [Sys.apply,keeps]
        exact List.append_nil _
      · exact apply_length
      · rw [conns]
        exact put_alike found active j

/-- Through a free pass, which does not fault. -/
theorem Listed.sweep {s : Sys} (ok : Listed s) : Listed (s.sweep s.free_list []) := by
  have live : ∀ i, reclaimable s.conns i = true → i < s.conns.length ∧ ∃ c, get s.conns i = some c := by
    intro i frees
    rw [reclaimable] at frees
    cases found : get s.conns i with
    | none => rw [found] at frees; cases frees
    | some c => exact ⟨get_lt found,c,rfl⟩
  have free_list : (s.sweep s.free_list []).free_list = s.free_list.filter (fun i => !reclaimable s.conns i) := rfl
  have freed : (s.sweep s.free_list []).freed = s.freed ++ s.free_list.filter (reclaimable s.conns) := rfl
  refine ⟨?_,fun i => ?_,?_,fun i => ?_⟩
  · rw [free_list]
    exact ok.distinct.filter _
  · rw [free_list,List.mem_filter,sweep_get]
    by_cases goes : i ∈ s.free_list ∧ reclaimable s.conns i = true
    · rw [if_pos goes]
      simp [goes.2]
    · rw [if_neg goes,← ok.iff]
      constructor
      · exact fun both => both.1
      · intro member
        refine ⟨member,?_⟩
        simpa [member] using goes
  · rw [freed]
    refine List.nodup_append.mpr ⟨ok.once,ok.distinct.filter _,?_⟩
    intro a old b new same
    obtain ⟨_,c,found⟩ := live b (List.mem_filter.mp new).2
    rw [← same,((ok.gone a).mp old).2] at found
    cases found
  · rw [freed,List.mem_append,List.mem_filter,ok.gone,sweep_get]
    have length : (s.sweep s.free_list []).conns.length = s.conns.length := foldl_free_length _ _
    rw [length]
    by_cases goes : i ∈ s.free_list ∧ reclaimable s.conns i = true
    · rw [if_pos goes]
      simp [goes,(live i goes.2).1]
    · rw [if_neg goes]
      simp [goes]

theorem listed_step {s s' : Sys} {l : Label} (ok : Listed s) (does : Does s l s') : Listed s' := by
  cases does with
  | accept idle =>
    refine ⟨ok.distinct,fun i => ?_,ok.once,fun i => ?_⟩
    · rw [ok.iff]
      constructor
      · rintro ⟨c,found,inactive⟩
        exact ⟨c,(get_alloc_old _ (get_lt found)).trans found,inactive⟩
      · rintro ⟨c,found,inactive⟩
        rcases get_of_alloc found with ⟨_,rfl⟩ | old
        · cases inactive
        · exact ⟨c,old,inactive⟩
    · rw [ok.gone]
      constructor
      · rintro ⟨inside,away⟩
        exact ⟨Nat.lt_of_lt_of_le inside (List.length_append ▸ Nat.le_add_right _ _),(get_alloc_old _ inside).trans away⟩
      · rintro ⟨inside,away⟩
        by_cases old : i < s.conns.length
        · exact ⟨old,(get_alloc_old _ old).symm.trans away⟩
        · have last : i = s.conns.length := by
            rw [alloc,List.length_append,List.length_singleton] at inside
            omega
          rw [last] at away
          exact absurd away (by rw [get_alloc_new]; exact fun same => by cases same)
  | report idle found inside outside active asked => exact ok.same rfl rfl (put_length _ _ _) (put_alike found rfl)
  | report_ignored idle found ignored => exact ok.same rfl rfl rfl (fun _ => rfl)
  | handle_write main found active => exact ok.same rfl rfl (put_length _ _ _) (put_alike found rfl)
  | handle_write_ignored main found inactive => exact ok.same rfl rfl rfl (fun _ => rfl)
  | @op op rest c idle first found =>
    have active : (atm_event_add_event c op.mask).active = c.active := by cases op.mask <;> rfl
    exact ok.same rfl rfl (put_length _ _ _) (put_alike found active)
  | advance there from_to => exact ok.same rfl rfl rfl (fun _ => rfl)
  | read there running job does => exact ok.apply does.lists
  | write there running job does => exact ok.apply does.lists
  | free there running job swept =>
    rw [free_func_ok ok.distinct (fun i member => ((ok.iff i).mp member).imp (fun _ found => found.1))] at swept
    cases swept
    exact ok.sweep.same rfl rfl rfl (fun _ => rfl)

end AtmCache.Conns
