import AtmCache.DictFatal

/-!
# Clearing a dictionary

`atm_dict_table_clear` frees every bucket but zeroes `bktab_size` bytes, which are an
eighth of the slots. A table whose buckets all lie there (`Covered`) is empty
afterwards; any other keeps pointers to freed buckets, and freeing the backup of
a migration then frees them a second time.
-/
namespace AtmCache.Dict
open KeyMaps Runs
variable {K V : Type} {T : KeyType K}

/-- Every slot that is not NULL is one of those that a clear zeroes. -/
def Table.Covered (t : Table K V) : Prop :=
  ∀ (i : Nat) (s : Slot K V), t.bktab[i]? = some s → s ≠ .null → i < t.bktab_size / pointer_size

/-- Both tables of the dictionary are covered. -/
structure Covered (d : Dictionary K V) : Prop where
  active : d.ht_active.Covered
  backup : ∀ bak, d.ht_backup = some bak → bak.Covered

/-- The buckets of the backup, if there is one. -/
def backup_buckets (d : Dictionary K V) : List (Freed K V) :=
  match d.ht_backup with
  | some bak => buckets bak.bktab
  | none => []

/-! ### One table -/

/-- The table that a clear leaves. -/
def Table.wiped (t : Table K V) : Table K V where
  bktab := memset_slots (t.bktab.map Slot.cleared) t.bktab_size
  bktab_size := t.bktab_size
  bktab_used := 0
  size := 0

theorem table_clear_ok {t : Table K V} (ok : TableOk T t) :
    atm_dict_table_clear t = .ok (t.wiped,buckets t.bktab) := by
  have loop := clear_loop_ok ok.live
  rw [ok.sized] at loop
  simp only [atm_dict_table_clear,loop,ok_bind,pure_eq_ok,Table.wiped]

theorem cleared_eq_null {s : Slot K V} : s.cleared = .null ↔ s = .null := by
  cases s <;> simp [Slot.cleared]

theorem wiped_length {t : Table K V} (ok : TableOk T t) : t.wiped.bktab.length = t.bktab_size := by
  have fits : t.bktab_size / pointer_size ≤ t.bktab_size := Nat.div_le_self ..
  simp only [Table.wiped,memset_slots,List.length_append,List.length_replicate,List.length_drop,List.length_map,ok.sized]
  omega

theorem wiped_slot (t : Table K V) (i : Nat) :
    t.wiped.bktab[i]? = if i < t.bktab_size / pointer_size then some .null else (t.bktab[i]?).map Slot.cleared := by
  have fits : t.bktab_size / pointer_size ≤ t.bktab_size := Nat.div_le_self ..
  unfold Table.wiped memset_slots
  split
  · rename_i low
    rw [List.getElem?_append_left (by simpa using low),List.getElem?_replicate,if_pos low]
  · rename_i high
    rw [List.getElem?_append_right (by simpa using high),List.getElem?_drop,List.getElem?_map,List.length_replicate]
    congr 2
    omega

/-- A clear leaves every slot NULL exactly when the table is covered. -/
theorem wiped_null_iff (t : Table K V) : (∀ s ∈ t.wiped.bktab, s = .null) ↔ t.Covered := by
  constructor
  · intro null i s found other
    by_contra high
    have slot := wiped_slot t i
    rw [if_neg high,found,Option.map_some] at slot
    exact other (cleared_eq_null.mp (null _ (List.mem_of_getElem? slot)))
  · intro covered s member
    obtain ⟨i,found⟩ := List.mem_iff_getElem?.mp member
    rw [wiped_slot t] at found
    by_cases low : i < t.bktab_size / pointer_size
    · rw [if_pos low] at found
      exact (Option.some.inj found).symm
    · rw [if_neg low] at found
      obtain ⟨s',found',rfl⟩ := Option.map_eq_some_iff.mp found
      rw [cleared_eq_null]
      by_contra other
      exact low (covered i s' found' other)

theorem entries_of_null {t : Table K V} (null : ∀ s ∈ t.bktab, s = .null) : t.entries = [] := by
  rw [Table.entries,List.flatMap_eq_nil_iff]
  intro s member
  rw [null s member]
  rfl

theorem buckets_of_null {slots : List (Slot K V)} (null : ∀ s ∈ slots, s = .null) : buckets slots = [] := by
  induction slots with
  | nil => rfl
  | cons s rest ih =>
    rw [null s List.mem_cons_self,buckets]
    exact ih (fun s member => null s (List.mem_cons_of_mem _ member))

instance coveredDecidable [DecidableEq K] [DecidableEq V] (t : Table K V) : Decidable t.Covered :=
  decidable_of_iff _ (wiped_null_iff t)

instance bothDecidable [DecidableEq K] [DecidableEq V] (d : Dictionary K V) : Decidable (Covered d) :=
  decidable_of_iff (d.ht_active.Covered ∧ ∀ bak ∈ d.ht_backup, bak.Covered)
    ⟨fun both => ⟨both.1,both.2⟩,fun covered => ⟨covered.active,covered.backup⟩⟩

theorem wiped_ok {t : Table K V} (ok : TableOk T t) (covered : t.Covered) :
    TableOk T t.wiped ∧ t.wiped.entries = [] ∧ t.wiped.used_from 0 = 0 := by
  have null := (wiped_null_iff t).mpr covered
  have empty := entries_of_null null
  refine ⟨⟨wiped_length ok,ok.power,fun member => ?_,fun i s found e member => ?_,by rw [empty]; rfl⟩,empty,?_⟩
  · cases null _ member
  · rw [null s (List.mem_of_getElem? found)] at member
    cases member
  · rw [used_from_eq_zero]
    intro i s _ found
    rw [null s (List.mem_of_getElem? found)]
    rfl

/-- Clearing a table that still points to a freed bucket frees it again. -/
theorem clear_loop_again {slots : List (Slot K V)} (dangling : Slot.freed ∈ slots) :
    atm_dict_table_clear_loop slots.length slots = .error .doubleFree := by
  induction slots with
  | nil => cases dangling
  | cons s rest ih =>
    cases s with
    | freed => rfl
    | null => simp [atm_dict_table_clear_loop,ih (by simpa using dangling)]
    | bucket l => simp [atm_dict_table_clear_loop,ih (by simpa using dangling)]

theorem wiped_free_again {t : Table K V} (ok : TableOk T t) (uncovered : ¬ t.Covered) :
    atm_dict_table_free t.wiped = .error .doubleFree := by
  rw [← wiped_null_iff t] at uncovered
  push Not at uncovered
  obtain ⟨s,member,other⟩ := uncovered
  have freed : s = .freed := by
    obtain ⟨i,found⟩ := List.mem_iff_getElem?.mp member
    rw [wiped_slot t] at found
    split at found
    · exact absurd (Option.some.inj found).symm other
    · obtain ⟨s',_,rfl⟩ := Option.map_eq_some_iff.mp found
      cases s' with
      | null => exact absurd rfl other
      | bucket l => rfl
      | freed => rfl
  have loop := clear_loop_again (freed ▸ member)
  rw [wiped_length ok] at loop
  unfold atm_dict_table_free atm_dict_table_clear
  rw [show t.wiped.bktab_size = t.bktab_size from rfl,loop]
  rfl

/-! ### The whole call -/

theorem clear_eq {slack : Nat} {d : Dictionary K V} (ok : DictOk T slack d) :
    atm_dict_clear d = match d.ht_backup with
      | none => .ok { d with
          ht_active := d.ht_active.wiped, rehash_index := 0, record := d.record ++ buckets d.ht_active.bktab }
      | some bak => do
        let record ← atm_dict_table_free bak.wiped
        return { d with
          ht_active := d.ht_active.wiped
          ht_backup := none
          rehash_index := 0
          record := d.record ++ buckets d.ht_active.bktab ++ buckets bak.bktab ++ record } := by
  unfold atm_dict_clear
  rw [table_clear_ok ok.active.table]
  cases two : d.ht_backup with
  | none => rfl
  | some bak =>
    simp only [ok_bind]
    rw [table_clear_ok (ok.double bak two).target]
    rfl

/-- What the claim on a clear says of its own effect: every bucket of both tables is freed
    once, and all slots of the active table are NULL. -/
structure Cleared (d d' : Dictionary K V) : Prop where
  record : d'.record = d.record ++ buckets d.ht_active.bktab ++ backup_buckets d
  null : ∀ s ∈ d'.ht_active.bktab, s = .null
  slots : d'.ht_active.bktab.length = d.ht_active.bktab_size
  single : d'.ht_backup = none

theorem clear_ok {slack : Nat} {d : Dictionary K V} (ok : DictOk T slack d) (covered : Covered d) :
    ∃ d', atm_dict_clear d = .ok d' ∧ Cleared d d' ∧ DictOk T 0 d' ∧ d'.entries = [] := by
  obtain ⟨okT,empty,unused⟩ := wiped_ok ok.active.table covered.active
  have null := (wiped_null_iff _).mpr covered.active
  have length := wiped_length ok.active.table
  have fresh : ∀ {d' : Dictionary K V}, d'.ht_active = d.ht_active.wiped → d'.ht_backup = none → d'.rehash_index = 0 →
      DictOk T 0 d' ∧ d'.entries = [] := by
    intro d' active one start
    have positive := okT.positive
    refine ⟨⟨⟨by rw [active]; exact okT,by rw [active,start,unused]; rfl,fun i s low => by omega⟩,
      fun _ => ⟨start,?_⟩,fun bak two => ?_⟩,by rw [Dictionary.entries,active,one,empty]; rfl⟩
    · rw [active]
      simp only [force_resize_ratio,Table.wiped] at positive ⊢
      omega
    · rw [one] at two
      cases two
  rw [clear_eq ok]
  cases two : d.ht_backup with
  | none => exact ⟨_,rfl,⟨by simp [backup_buckets,two],null,length,rfl⟩,fresh rfl rfl rfl⟩
  | some bak =>
    obtain ⟨okB,_,_⟩ := wiped_ok (ok.double bak two).target (covered.backup bak two)
    have nothing := buckets_of_null ((wiped_null_iff _).mpr (covered.backup bak two))
    simp only [table_free_ok okB,nothing,ok_bind,pure_eq_ok]
    exact ⟨_,rfl,⟨by simp [backup_buckets,two],null,length,rfl⟩,fresh rfl rfl rfl⟩

/-- A clear that does what it should is a clear of covered tables. -/
theorem covered_of_cleared {slack : Nat} {d d' : Dictionary K V} (ok : DictOk T slack d)
    (done : atm_dict_clear d = .ok d') (cleared : Cleared d d') : Covered d := by
  rw [clear_eq ok] at done
  cases two : d.ht_backup with
  | none =>
    simp only [two,Except.ok.injEq] at done
    subst done
    exact ⟨(wiped_null_iff _).mp cleared.null,fun bak other => by rw [two] at other; cases other⟩
  | some bak =>
    simp only [two] at done
    obtain ⟨record,freed,same⟩ := bind_eq_ok.mp done
    rw [pure_eq_ok,Except.ok.injEq] at same
    subst same
    refine ⟨(wiped_null_iff _).mp cleared.null,fun other same => ?_⟩
    cases two.symm.trans same
    by_contra uncovered
    rw [wiped_free_again (ok.double bak two).target uncovered] at freed
    cases freed

/-! ### Later runs -/

/-- A call that meets no defect: no stale `set`, no stranded table, no uncovered clear, and
    no migration that is too large. -/
def Sound (T : KeyType K) (d : Dictionary K V) : Call K V → Prop
  | .op op => Fits T d op ∧ Fresh T d op ∧ Unstranded T d op
  | .clear => Covered d
  | .get _ => True
  | .contains _ => True
  | .size => True

/-- The dictionary stands for `f`. -/
structure Stands (T : KeyType K) (f : K → Option V) (d : Dictionary K V) : Prop where
  ok : DictOk T 0 d
  holds : Holds T.match_key d.entries f

theorem new_stands (free_type : FreeType) : Stands T (fun _ => none) (atm_dict_new free_type : Dictionary K V) := by
  obtain ⟨ok,empty⟩ := new_ok (T := T) (V := V) free_type
  exact ⟨ok,by rw [empty]; exact holds_nil⟩

/-- Two dictionaries that stand for one map give one answer, and stand for one map again. -/
theorem call_alike (lawful : T.Lawful) {f : K → Option V} {d e : Dictionary K V} (left : Stands T f d)
    (right : Stands T f e) {c : Call K V} (soundLeft : Sound T d c) (soundRight : Sound T e c) :
    ∃ d' e' a f', call T d c = .ok (d',a) ∧ call T e c = .ok (e',a) ∧ Stands T f' d' ∧ Stands T f' e' := by
  have refinesLeft := refines_of_holds lawful left.ok left.holds
  have refinesRight := refines_of_holds lawful right.ok right.holds
  cases c with
  | op op =>
    have moves : ∀ {d : Dictionary K V}, Stands T f d → Sound T d (.op op) →
        ∃ d', step T d op = .ok d' ∧ Stands T (Op.effect T f op) d' := by
      intro d stands sound
      obtain ⟨fits,fresh,clear⟩ := sound
      obtain ⟨d',done⟩ := (step_returns_iff lawful.equiv.refl stands.ok fits).mpr clear
      exact ⟨d',done,step_ok lawful.equiv.refl stands.ok fits done,
        step_holds lawful stands.ok stands.holds fits fresh done⟩
    obtain ⟨d',done,stands⟩ := moves left soundLeft
    obtain ⟨e',done',stands'⟩ := moves right soundRight
    exact ⟨d',e',.void,_,by simp [call,done],by simp [call,done'],stands,stands'⟩
  | get k =>
    exact ⟨d,e,.value (f k),f,by simp [call,refinesLeft.get],by simp [call,refinesRight.get],left,right⟩
  | contains k =>
    exact ⟨d,e,.truth (f k).isSome,f,by simp [call,refinesLeft.contains],by simp [call,refinesRight.contains],left,right⟩
  | size =>
    have same := LiveCount.unique lawful.equiv refinesLeft.size refinesRight.size
    exact ⟨d,e,.number (atm_dict_size d),f,rfl,by rw [same]; rfl,left,right⟩
  | clear =>
    obtain ⟨d',done,_,ok,empty⟩ := clear_ok left.ok soundLeft
    obtain ⟨e',done',_,ok',empty'⟩ := clear_ok right.ok soundRight
    exact ⟨d',e',.void,_,by simp [call,done],by simp [call,done'],⟨ok,by rw [empty]; exact holds_nil⟩,
      ⟨ok',by rw [empty']; exact holds_nil⟩⟩

/-- Runs of sound calls on two dictionaries that stand for one map give the same answers. -/
theorem calls_alike (lawful : T.Lawful) {f : K → Option V} {d e : Dictionary K V} (left : Stands T f d)
    (right : Stands T f e) {calls : List (Call K V)}
    (soundLeft : EachStep (perform T) (d,[]) calls (fun s c => Sound T s.1 c))
    (soundRight : EachStep (perform T) (e,[]) calls (fun s c => Sound T s.1 c)) :
    ∃ d' e' answers, run (perform T) (d,[]) calls = .ok (d',answers) ∧ run (perform T) (e,[]) calls = .ok (e',answers) := by
  have start : ∃ f, Stands T f (d,([] : List (Answer V))).1 ∧ Stands T f (e,([] : List (Answer V))).1 ∧
      (d,([] : List (Answer V))).2 = (e,([] : List (Answer V))).2 := ⟨f,left,right,rfl⟩
  obtain ⟨⟨d',answers⟩,⟨e',_⟩,ran,ran',_,_,_,rfl⟩ := run_related
    (R := fun s t => ∃ f, Stands T f s.1 ∧ Stands T f t.1 ∧ s.2 = t.2) start (by
      rintro ⟨d,out⟩ ⟨e,_⟩ c ⟨f,left,right,rfl⟩ sound sound'
      obtain ⟨d',e',a,f',done,done',left',right'⟩ := call_alike lawful left right sound sound'
      exact ⟨(d',out ++ [a]),(e',out ++ [a]),by simp [perform,done],by simp [perform,done'],f',left',right',rfl⟩)
    soundLeft soundRight
  exact ⟨d',e',answers,ran,ran'⟩

/-- A call after which the invariant still holds: no uncovered clear and no migration that
    is too large. -/
def Keeping (T : KeyType K) (d : Dictionary K V) : Call K V → Prop
  | .op op => Fits T d op
  | .clear => Covered d
  | .get _ => True
  | .contains _ => True
  | .size => True

theorem ops_keeping {d : Dictionary K V} {out : List (Answer V)} {ops : List (Op K V)} (fits : EachStep (step T) d ops (Fits T)) :
    EachStep (perform T) (d,out) (ops.map .op) (fun s c => Keeping T s.1 c) := by
  induction ops generalizing d out with
  | nil => exact eachStep_nil _ _
  | cons op ops ih =>
    obtain ⟨here,later⟩ := eachStep_cons.mp fits
    refine eachStep_cons.mpr ⟨here,fun s done => ?_⟩
    obtain ⟨⟨d',a⟩,called,same⟩ := bind_eq_ok.mp done
    obtain ⟨d'',stepped,same'⟩ := bind_eq_ok.mp called
    cases same'
    cases same
    exact ih (later d' stepped)

theorem call_keeps (refl : ∀ k, T.match_key k k = true) {d d' : Dictionary K V} (ok : DictOk T 0 d) {c : Call K V}
    {a : Answer V} (keeping : Keeping T d c) (done : call T d c = .ok (d',a)) : DictOk T 0 d' := by
  have unchanged : ∀ {α : Type} {r : Except Fault α} {g : α → Answer V},
      (do return (d,g (← r))) = Except.ok (d',a) → DictOk T 0 d' := by
    intro α r g same
    obtain ⟨x,_,pair⟩ := bind_eq_ok.mp same
    cases pair
    exact ok
  cases c with
  | op op =>
    obtain ⟨u,moved,pair⟩ := bind_eq_ok.mp done
    cases pair
    exact step_ok refl ok keeping moved
  | get k => exact unchanged done
  | contains k => exact unchanged done
  | size => cases done; exact ok
  | clear =>
    obtain ⟨u,moved,pair⟩ := bind_eq_ok.mp done
    cases pair
    obtain ⟨v,same,_,ok',_⟩ := clear_ok ok keeping
    rw [moved] at same
    cases same
    exact ok'

/-- In every state reached by calls that keep the invariant, a clear frees each bucket once,
    leaves only NULL slots and makes the dictionary answer as a new one exactly when both
    tables are covered. -/
theorem clear_fresh_iff (lawful : T.Lawful) {free_type : FreeType} {calls : List (Call K V)} {d : Dictionary K V}
    {answers : List (Answer V)}
    (keeping : EachStep (perform T) (atm_dict_new free_type,[]) calls (fun s c => Keeping T s.1 c))
    (ran : run (perform T) (atm_dict_new free_type,[]) calls = .ok (d,answers)) :
    Covered d ↔ ∃ d', atm_dict_clear d = .ok d' ∧ Cleared d d' ∧ ∀ later : List (Call K V),
      EachStep (perform T) (d',[]) later (fun s c => Sound T s.1 c) →
      EachStep (perform T) (atm_dict_new free_type,[]) later (fun s c => Sound T s.1 c) →
      ∃ d'' e out, run (perform T) (d',[]) later = .ok (d'',out) ∧
        run (perform T) (atm_dict_new free_type,[]) later = .ok (e,out) := by
  have ok : DictOk T 0 d := by
    refine run_invariant (P := fun _ s => DictOk T 0 s.1) (new_ok free_type).1 ?_ keeping ran
    rintro _ c ⟨t,out⟩ ⟨u,out'⟩ ok keeping done
    obtain ⟨⟨v,a⟩,moved,pair⟩ := bind_eq_ok.mp done
    cases pair
    exact call_keeps lawful.equiv.refl ok keeping moved
  constructor
  · intro covered
    obtain ⟨d',done,cleared,ok',empty⟩ := clear_ok ok covered
    refine ⟨d',done,cleared,fun later sound soundNew => ?_⟩
    have stands : Stands T (fun _ => none) d' := ⟨ok',by rw [empty]; exact holds_nil⟩
    exact calls_alike lawful stands (new_stands free_type) sound soundNew
  · rintro ⟨d',done,cleared,_⟩
    exact covered_of_cleared ok done cleared

theorem clear_fresh_iff_again : ∃ d answers d', run (perform (modulo 16)) (atm_dict_new .shallow,[]) (set_again.map .op) =
      .ok (d,answers) ∧ d.ht_backup.isSome = true ∧ atm_dict_clear d = .ok d' ∧ Cleared d d' ∧
    ∀ later : List (Call Nat Nat),
      EachStep (perform (modulo 16)) (d',[]) later (fun s c => Sound (modulo 16) s.1 c) →
      EachStep (perform (modulo 16)) (atm_dict_new .shallow,[]) later (fun s c => Sound (modulo 16) s.1 c) →
      ∃ d'' e out, run (perform (modulo 16)) (d',[]) later = .ok (d'',out) ∧
        run (perform (modulo 16)) (atm_dict_new .shallow,[]) later = .ok (e,out) := by
  have lawful := modulo_lawful 16
  have fits : EachStep (step (modulo 16)) (atm_dict_new .shallow) set_again (Fits (modulo 16)) :=
    fits_of_short lawful.equiv.refl (by decide +kernel)
  have shape : (run (perform (modulo 16)) (atm_dict_new .shallow,[]) (set_again.map .op)).map
      (fun s => (s.1.ht_backup.isSome,decide (Covered s.1))) = .ok (true,true) := by decide +kernel
  obtain ⟨⟨d,answers⟩,ran⟩ : ∃ s, run (perform (modulo 16)) (atm_dict_new .shallow,[]) (set_again.map .op) = .ok s :=
    exists_ok (by decide +kernel)
  rw [ran] at shape
  obtain ⟨started,covered⟩ := Prod.mk.inj (Except.ok.inj shape)
  obtain ⟨d',done,cleared,later⟩ := (clear_fresh_iff lawful (ops_keeping fits) ran).mp (of_decide_eq_true covered)
  exact ⟨d,answers,d',ran,started,done,cleared,later⟩

/-- Slot 40 lies beyond the 256 bytes that a clear of a new dictionary's table zeroes. -/
theorem clear_dangles : ∃ d d' : Dictionary Nat Nat, step (modulo 256) (atm_dict_new .deep) (.set 40 1) = .ok d ∧
    atm_dict_clear d = .ok d' ∧ d'.ht_active.slot 40 = .ok .freed ∧
    atm_dict_get (modulo 256) d' 40 = .error .useAfterFree ∧
    atm_dict_get (modulo 256) (atm_dict_new .deep : Dictionary Nat Nat) 40 = .ok none := by
  have ran : (step (modulo 256) (atm_dict_new .deep) (.set 40 1) >>= fun d => atm_dict_clear d >>= fun d' =>
      .ok (d'.ht_active.slot 40,atm_dict_get (modulo 256) d' 40)) =
        (.ok (.ok .freed,.error .useAfterFree) : Except Fault (Except Fault (Slot Nat Nat) × Except Fault (Option Nat))) := by
    decide +kernel
  obtain ⟨d,filled,rest⟩ := bind_eq_ok.mp ran
  obtain ⟨d',cleared,same⟩ := bind_eq_ok.mp rest
  obtain ⟨dangling,fault⟩ := Prod.mk.inj (Except.ok.inj same)
  exact ⟨d,d',filled,cleared,dangling,fault,by decide +kernel⟩

end AtmCache.Dict
