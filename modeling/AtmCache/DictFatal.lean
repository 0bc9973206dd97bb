import AtmCache.DictMap

/-!
# The runs that reach no fatal exit

A call leaves the program through one of the "data currapt" exits exactly when it finds
work for `atm_dict_rehash` in a stranded active table (`Stranded`): a `del` empties
buckets without uncounting them, so `bktab_used` can stay positive when the last
entry has been moved. In all other runs every migration ends in time, because each
call that changes the dictionary moves the cursor by one slot.
-/
namespace AtmCache.Dict
open Runs
variable {K V : Type} {T : KeyType K}

/-- The call finds no work for `atm_dict_rehash` in a stranded active table. -/
def Unstranded (T : KeyType K) (d : Dictionary K V) (op : Op K V) : Prop :=
  op.mutates = true → ∀ d₁, before_rehash T d op = .ok d₁ → atm_dict_rehash_needed d₁ = true →
    ¬ Stranded d₁.ht_active d₁.rehash_index

/-- A migration that starts in the run ends within as many mutating calls, the first one
    included, as the old active table has slots, if the run has that many. -/
def MigrationsEnd (T : KeyType K) (s : Dictionary K V) (ops : List (Op K V)) : Prop :=
  ∀ pre op post d d', pre ++ op :: post <+: ops → run (step T) s pre = .ok d → d.ht_backup = none →
    step T d op = .ok d' → d'.ht_backup ≠ none → d.ht_active.bktab_size ≤ (op :: post).countP Op.mutates →
      ∃ mid u, mid <+: post ∧ (op :: mid).countP Op.mutates ≤ d.ht_active.bktab_size ∧
        run (step T) d' mid = .ok u ∧ u.ht_backup = none ∧ u.rehash_index = 0

/-! ### One call -/

/-- A call that changes the dictionary either exits, in a stranded table, or goes on. -/
theorem step_cases (refl : ∀ k, T.match_key k k = true) {d : Dictionary K V} (ok : DictOk T 0 d) {op : Op K V}
    (fits : Fits T d op) (mutates : op.mutates = true) :
    ∃ d₁, before_rehash T d op = .ok d₁ ∧ SameShape d d₁ ∧
      ((atm_dict_rehash_needed d₁ = false ∧ step T d op = .ok d₁ ∧ DictOk T 0 d₁) ∨
        (atm_dict_rehash_needed d₁ = true ∧ Stranded d₁.ht_active d₁.rehash_index ∧
          ∃ text, step T d op = .error (.exit text)) ∨
        (atm_dict_rehash_needed d₁ = true ∧ ¬ Stranded d₁.ht_active d₁.rehash_index ∧
          ∃ d', step T d op = .ok d' ∧ Migrated T d₁ d')) := by
  obtain ⟨d₁,first,ok₁,shape⟩ := before_rehash_ok refl ok op
  have whole : step T d op = atm_dict_rehash T d₁ := by
    cases op with
    | set k v => show atm_dict_set_table T d k v >>= _ = _; rw [show atm_dict_set_table T d k v = .ok d₁ from first]; rfl
    | del k => show atm_dict_del_table T d k >>= _ = _; rw [show atm_dict_del_table T d k = .ok d₁ from first]; rfl
    | resize_enable => cases mutates
    | resize_disable => cases mutates
  refine ⟨d₁,first,shape,?_⟩
  rw [whole]
  exact rehash_cases ok₁ (fits mutates d₁ first)

/-- A call returns exactly when it does not meet a stranded table. -/
theorem step_returns_iff (refl : ∀ k, T.match_key k k = true) {d : Dictionary K V} (ok : DictOk T 0 d) {op : Op K V}
    (fits : Fits T d op) : (∃ d', step T d op = .ok d') ↔ Unstranded T d op := by
  by_cases mutates : op.mutates = true
  · obtain ⟨d₁,first,_,cases⟩ := step_cases refl ok fits mutates
    constructor
    · rintro ⟨d',done⟩ _ d₂ same needed
      rw [first] at same
      cases same
      rcases cases with ⟨idle,_⟩ | ⟨_,_,text,failed⟩ | ⟨_,clear,_⟩
      · rw [idle] at needed
        cases needed
      · rw [failed] at done
        cases done
      · exact clear
    · intro clear
      rcases cases with ⟨_,done,_⟩ | ⟨needed,stranded,_⟩ | ⟨_,_,d',done,_⟩
      · exact ⟨d₁,done⟩
      · exact absurd stranded (clear mutates d₁ first needed)
      · exact ⟨d',done⟩
  · obtain ⟨d',done,_⟩ := step_idle (T := T) (d := d) mutates
    exact ⟨fun _ yes => absurd yes mutates,fun _ => ⟨d',done⟩⟩

/-- During a migration a mutating call ends it or moves the cursor by one slot. -/
theorem step_migrates (refl : ∀ k, T.match_key k k = true) {d d' : Dictionary K V} (ok : DictOk T 0 d) {op : Op K V}
    (fits : Fits T d op) (mutates : op.mutates = true) (done : step T d op = .ok d') :
    (d'.ht_backup = none ∧ d'.rehash_index = 0) ∨
      (d'.ht_backup ≠ none ∧ d'.rehash_index = d.rehash_index + 1 ∧
        d'.ht_active.bktab_size = d.ht_active.bktab_size) := by
  obtain ⟨d₁,first,shape,cases⟩ := step_cases refl ok fits mutates
  rcases cases with ⟨idle,same,ok'⟩ | ⟨_,_,text,failed⟩ | ⟨_,_,d₂,same,migrated⟩
  · rw [same] at done
    cases done
    have one : d'.ht_backup = none := by
      cases two : d'.ht_backup with
      | none => rfl
      | some bak => simp [atm_dict_rehash_needed,two] at idle
    exact .inl ⟨one,(ok'.single one).1⟩
  · rw [failed] at done
    cases done
  · rw [same] at done
    cases done
    rcases migrated.progress with ⟨one,start,_⟩ | ⟨two,cursor,slots,_⟩
    · exact .inl ⟨one,start⟩
    · exact .inr ⟨two,by rw [cursor,shape.cursor],by rw [slots,shape.slots]⟩

/-! ### Runs -/

/-- From a state in a migration, enough mutating calls end it. -/
theorem migration_ends (refl : ∀ k, T.match_key k k = true) {d : Dictionary K V} (ok : DictOk T 0 d)
    (two : d.ht_backup ≠ none) {post : List (Op K V)} (fits : EachStep (step T) d post (Fits T))
    (enough : d.ht_active.bktab_size ≤ d.rehash_index + post.countP Op.mutates)
    {t : Dictionary K V} (ran : run (step T) d post = .ok t) :
    ∃ mid u, mid <+: post ∧ d.rehash_index + mid.countP Op.mutates ≤ d.ht_active.bktab_size ∧
      run (step T) d mid = .ok u ∧ u.ht_backup = none ∧ u.rehash_index = 0 := by
  obtain ⟨bak,same⟩ := Option.ne_none_iff_exists'.mp two
  have inside := (ok.double bak same).inside
  induction post generalizing d bak with
  | nil => simp at enough; omega
  | cons op post ih =>
    obtain ⟨here,later⟩ := eachStep_cons.mp fits
    rw [run_cons,bind_eq_ok] at ran
    obtain ⟨d',done,rest⟩ := ran
    have ok' := step_ok refl ok here done
    by_cases mutates : op.mutates = true
    · rw [List.countP_cons_of_pos mutates] at enough
      rcases step_migrates refl ok here mutates done with ⟨one,start⟩ | ⟨still,cursor,slots⟩
      · refine ⟨[op],d',⟨post,rfl⟩,?_,by simp [run_cons,done],one,start⟩
        rw [List.countP_cons_of_pos mutates,List.countP_nil]
        omega
      · obtain ⟨bak',same'⟩ := Option.ne_none_iff_exists'.mp still
        obtain ⟨mid,u,isPre,within,reached,ended⟩ := ih ok' still (later d' done) (by omega) rest bak' same'
          (ok'.double bak' same').inside
        refine ⟨op :: mid,u,List.cons_prefix_cons.mpr ⟨rfl,isPre⟩,?_,by rw [run_cons,done]; exact reached,ended⟩
        rw [List.countP_cons_of_pos mutates]
        omega
    · obtain ⟨d₂,idle,active,backup,cursor⟩ := step_idle (T := T) (d := d) mutates
      rw [done] at idle
      cases idle
      rw [List.countP_cons_of_neg mutates] at enough
      obtain ⟨mid,u,isPre,within,reached,ended⟩ := ih ok' (by rw [backup]; exact two) (later d' done)
        (by rw [active,cursor]; exact enough) rest bak (by rw [backup]; exact same) (by rw [active,cursor]; exact inside)
      refine ⟨op :: mid,u,List.cons_prefix_cons.mpr ⟨rfl,isPre⟩,?_,by rw [run_cons,done]; exact reached,ended⟩
      rw [List.countP_cons_of_neg mutates,← active,← cursor]
      exact within

theorem fits_reach (refl : ∀ k, T.match_key k k = true) {free_type : FreeType} {ops pre : List (Op K V)}
    (fits : EachStep (step T) (atm_dict_new free_type) ops (Fits T)) (isPre : pre <+: ops) {d : Dictionary K V}
    (ran : run (step T) (atm_dict_new free_type) pre = .ok d) : DictOk T 0 d :=
  run_invariant (P := fun _ d => DictOk T 0 d) (new_ok free_type).1 (fun _ _ _ _ ok fits done => step_ok refl ok fits done)
    (eachStep_shorten fits isPre) ran

theorem unstranded_of_returns (refl : ∀ k, T.match_key k k = true) {free_type : FreeType} {ops : List (Op K V)}
    (fits : EachStep (step T) (atm_dict_new free_type) ops (Fits T)) {d : Dictionary K V}
    (ran : run (step T) (atm_dict_new free_type) ops = .ok d) : EachStep (step T) (atm_dict_new free_type) ops (Unstranded T) := by
  intro pre op t isPre before
  obtain ⟨u,after⟩ := run_shorten _ ran isPre
  obtain ⟨t',before',done⟩ := (run_snoc_ok _).mp after
  rw [before] at before'
  cases before'
  have ok := fits_reach refl fits ((List.prefix_append pre [op]).trans isPre) before
  exact (step_returns_iff refl ok (fits pre op t isPre before)).mp ⟨u,done⟩

/-- In the runs whose migrations fit, no call exits and every migration ends in time exactly when
    no call finds work in a stranded active table. -/
theorem never_fatal_iff (refl : ∀ k, T.match_key k k = true) {free_type : FreeType} {ops : List (Op K V)}
    (fits : EachStep (step T) (atm_dict_new free_type) ops (Fits T)) :
    ((∃ d, run (step T) (atm_dict_new free_type) ops = .ok d) ∧ MigrationsEnd T (atm_dict_new free_type) ops) ↔
      EachStep (step T) (atm_dict_new free_type) ops (Unstranded T) := by
  constructor
  · rintro ⟨⟨d,ran⟩,_⟩
    exact unstranded_of_returns refl fits ran
  · intro clear
    have both : EachStep (step T) (atm_dict_new free_type) ops (fun d op => Fits T d op ∧ Unstranded T d op) :=
      fun pre op d isPre ran => ⟨fits pre op d isPre ran,clear pre op d isPre ran⟩
    obtain ⟨d,ran,_⟩ := run_total (P := fun _ d => DictOk T 0 d) (new_ok free_type).1 (fun pre op d ok good => by
      obtain ⟨d',done⟩ := (step_returns_iff refl ok good.1).mpr good.2
      exact ⟨d',done,step_ok refl ok good.1 done⟩) both
    refine ⟨⟨d,ran⟩,fun pre op post t t' isPre before one done still enough => ?_⟩
    have split : pre ++ op :: post = (pre ++ [op]) ++ post := by simp
    have within : pre ++ [op] <+: ops := by
      rw [split] at isPre
      exact (List.prefix_append _ post).trans isPre
    have here := fits pre op t within before
    have ok := fits_reach refl fits ((List.prefix_append pre [op]).trans within) before
    have reached : run (step T) (atm_dict_new free_type) (pre ++ [op]) = .ok t' :=
      (run_snoc_ok _).mpr ⟨t,before,done⟩
    have later : EachStep (step T) t' post (Fits T) :=
      eachStep_after (split ▸ eachStep_shorten fits isPre) reached
    obtain ⟨w,whole⟩ := run_shorten _ ran isPre
    rw [split,run_append_ok _ reached] at whole
    by_cases mutates : op.mutates = true
    · have progress := step_migrates refl ok here mutates done
      rcases progress with ⟨ended,_⟩ | ⟨_,cursor,slots⟩
      · exact absurd ended still
      · have first : t.rehash_index = 0 := (ok.single one).1
        rw [List.countP_cons_of_pos mutates] at enough
        obtain ⟨mid,u,isMid,bound,ranMid,ended⟩ := migration_ends refl (step_ok refl ok here done) still later
          (by omega) whole
        refine ⟨mid,u,isMid,?_,ranMid,ended⟩
        rw [List.countP_cons_of_pos mutates]
        omega
    · obtain ⟨u,idle,_,backup,_⟩ := step_idle (T := T) (d := t) mutates
      rw [done] at idle
      cases idle
      exact absurd (backup.trans one) still

theorem never_fatal_iff_migrated : (∃ d, run (step (modulo 16)) (atm_dict_new .deep) migrated = .ok d) ∧
    MigrationsEnd (modulo 16) (atm_dict_new .deep) migrated := by
  obtain ⟨d,ran⟩ : ∃ d, run (step (modulo 16)) (atm_dict_new .deep) migrated = .ok d := exists_ok (by decide +kernel)
  have refl := (modulo_lawful 16).equiv.refl
  have fits : EachStep (step (modulo 16)) (atm_dict_new .deep) migrated (Fits (modulo 16)) :=
    fits_of_short refl (by decide +kernel)
  exact (never_fatal_iff refl fits).mpr (unstranded_of_returns refl fits ran)

/-- A deleted key leaves an empty bucket in slot 15; 256 keys of slot 0 then start a migration. -/
def delete_then_fill : List (Op Nat Nat) :=
  [.set 15 0,.del 15] ++ (List.range 256).map (fun k => .set (16 * k) k)

theorem delete_then_fill_exits : run (step (modulo 16)) (atm_dict_new .shallow) delete_then_fill =
    .error (.exit "data currapt! bktab_used on rehash finish,bktab_used[%u]") := by decide +kernel

end AtmCache.Dict
