import AtmCache.QueueSim

/-!
# Nobody oversleeps at the blocking queue

Runs in which list operations do not overlap: without any timeout the threads come to rest only where the queue is empty or
nobody waits (`sleepers_woken`), and with one reader the queue is one whose `atm_queue_pop` waits for a value and
takes it in one step (`lone_reader_served`). The code does not keep `atm_list_lpop` apart from other list operations;
where a push lies between its statements a value can be lost, as the last run shows.
-/
namespace AtmCache.Queues
open Heap AtmCache.Lists Runs
open Tasks (Stop Waits)
open QueueSpec (Label Op WaitAt at_once)

variable {α : Type} {q : QueueSpec.Queue α} {s s' : Queue α} {l : Label α} {i j : Nat} {a b : At α}

/-- The counter does not wrap, and list operations do not overlap. -/
def Within (s : Queue α) (l : Label α) : Prop := Short s ∧ Alone s l

instance (s : Queue α) (l : Label α) : Decidable (Within s l) := inferInstanceAs (Decidable (_ ∧ _))

/-! ### No step fails -/

theorem lock_waits (i : Nat) (next : At α) : Meets Waits (pthread_mutex_lock s i next) (fun _ => True) := by
  rw [pthread_mutex_lock]
  split
  · trivial
  · exact rfl

theorem signal_waits (i : Nat) (j : Option Nat) : Meets Waits (pthread_cond_signal s i j) (fun _ => True) := by
  cases j with
  | some j =>
    dsimp only [pthread_cond_signal]
    split
    · trivial
    · exact rfl
  | none =>
    dsimp only [pthread_cond_signal]
    split
    · exact rfl
    · trivial

theorem test_goes (sees : Sees q s) (i : Nat) : ∃ s', atm_queue_nonempty_wait s i .test = .ok s' := by
  rw [atm_queue_nonempty_wait,sees.size]
  simp only [Except.mapError,ok_bind]
  split
  · exact ⟨_,rfl⟩
  · exact ⟨_,rfl⟩

theorem wait_waits (sees : Sees q s) (i : Nat) (pc : WaitAt) : Meets Waits (atm_queue_nonempty_wait s i pc) (fun _ => True) := by
  cases pc with
  | lock => exact lock_waits i _
  | test =>
    obtain ⟨s',done⟩ := test_goes sees i
    rw [done]
    trivial
  | asleep => exact rfl
  | woken => exact lock_waits i _
  | unlock => trivial

/-- A list operation goes on while no other one is under way. -/
theorem list_goes (sees : Sees q s) (alone : Alone s (.go i)) (here : s.threads[i]? = some a) (inList : a.lists = true) :
    ∃ s', step s (.go i) = .ok s' := by
  rw [step,here]
  cases a with
  | list_push val pc =>
    obtain ⟨_,m',left,_⟩ := push_ready sees alone here
    obtain ⟨⟨m,next⟩,did⟩ := left.goes
    exact ⟨after_push s i val m next,by simp only [atm_list_push,did,Except.mapError,ok_bind,pure_eq_ok]⟩
  | list_lpop pc =>
    obtain ⟨⟨m,next⟩,did⟩ : ∃ r, lpop_step s.mem pc = .ok r := by
      cases place : pc.late with
      | false =>
        obtain ⟨_,m',left,_⟩ := lpop_early sees alone here place
        exact left.goes
      | true =>
        obtain ⟨_,m',_,left,_⟩ := lpop_late sees alone here place
        exact left.goes
    exact ⟨after_lpop s i m next,by simp only [atm_list_lpop,did,Except.mapError,ok_bind,pure_eq_ok]⟩
  | _ => cases inList

theorem go_waits (sees : Sees q s) (alone : Alone s (.go i)) : Meets Waits (step s (.go i)) (fun _ => True) := by
  cases here : s.threads[i]? with
  | none =>
    rw [step,here]
    exact rfl
  | some a =>
    cases inList : a.lists with
    | true =>
      obtain ⟨s',done⟩ := list_goes sees alone here inList
      rw [done]
      trivial
    | false =>
      rw [step,here]
      cases a with
      | out => exact rfl
      | push pc =>
        cases pc with
        | lock val => exact lock_waits i _
        | unlock => trivial
        | signal => exact rfl
      | wait pc => exact wait_waits sees i pc
      | list_push val pc => cases inList
      | list_lpop pc => cases inList

theorem step_waits (sees : Sees q s) (alone : Alone s l) : Meets Waits (step s l) (fun _ => True) := by
  cases l with
  | go i => exact go_waits sees alone
  | push i val =>
    rw [step]
    split
    · trivial
    · exact rfl
  | pop i =>
    rw [step]
    split
    · trivial
    · exact rfl
  | signal i j =>
    rw [step]
    split
    · exact signal_waits i j
    · exact rfl
  | timeout j =>
    rw [step]
    split
    · trivial
    · exact rfl

/-! ### Runs -/

/-- What is seen of a state that a run reaches. -/
structure Seen (q : QueueSpec.Queue α) (s : Queue α) : Prop where
  sees : Sees q s
  sound : QueueSpec.Sound q

/-- The pops that are seen, and the one that is nearly over. -/
theorem Content.ops_of (content : Content q s) : ∃ more, q.ops = s.ops ++ more ∧ more.filterMap Op.pushed = [] := by
  cases content with
  | quiet idle ops holds => exact ⟨[],by rw [ops,List.append_nil],rfl⟩
  | pushing there busy others ops left becomes => exact ⟨[],by rw [ops,List.append_nil],rfl⟩
  | taking there busy others early ops left becomes => exact ⟨[],by rw [ops,List.append_nil],rfl⟩
  | took there busy others late ops left becomes => exact ⟨_,ops,rfl⟩

theorem Seen.order (seen : Seen q s) : ∃ more,
    s.ops.filterMap Op.pushed = s.ops.filterMap Op.taken ++ (more ++ q.vals) := by
  obtain ⟨more,ops,none_pushed⟩ := seen.sees.content.ops_of
  have ordered := seen.sound.ordered
  rw [QueueSpec.Ordered,ops,List.filterMap_append,List.filterMap_append,none_pushed,List.append_nil,List.append_assoc] at ordered
  exact ⟨_,ordered⟩

theorem Seen.few (seen : Seen q s) (short : Short s) : q.vals.length < 2^32 := by
  obtain ⟨more,order⟩ := seen.order
  have lengths := congrArg List.length order
  rw [List.length_append,List.length_append] at lengths
  rw [Short] at short
  omega

theorem seen_step (seen : Seen q s) (within : Within s l) (done : step s l = .ok s') :
    ∃ q', Seen q' s' ∧ (q' = q ∨ QueueSpec.Does q l q') := by
  obtain ⟨short,alone⟩ := within
  obtain ⟨q',sees,went⟩ := sees_step seen.sees alone (step_does done)
  refine ⟨q',⟨sees,?_⟩,went⟩
  rcases went with rfl | does
  · exact seen.sound
  · exact ⟨QueueSpec.held_step seen.sound.held does,QueueSpec.ordered_step seen.sound.ordered does,
      QueueSpec.covered_step seen.sound.covered does (seen.few short)⟩

variable {v_type : Option (T α Unit)} {f_type n : Nat} {labels : List (Label α)}

/-- A run waits, or it reaches a state that is seen. -/
theorem seen_run (within : EachStep step (atm_queue_new v_type f_type n) labels Within) :
    Meets Waits (run step (atm_queue_new v_type f_type n) labels) (fun s => ∃ q, Seen q s) := by
  refine run_meets (P := fun _ s => ∃ q, Seen q s) ⟨_,new_sees v_type f_type n,QueueSpec.new_sound n⟩ ?_ within
  rintro _ l s ⟨q,seen⟩ inside
  have waits := step_waits seen.sees inside.2
  cases done : step s l with
  | ok s' =>
    obtain ⟨q',seen',_⟩ := seen_step seen inside done
    exact ⟨q',seen'⟩
  | error e =>
    rw [done] at waits
    exact waits

/-! ### Coming to rest -/

/-- `qlock` is held where the thread is. -/
def At.holds : At α → Bool
  | .push .unlock => true
  | .list_push _ _ => true
  | .wait .test => true
  | .wait .unlock => true
  | _ => false

/-- A thread that has still to signal, or a reader that is up and has not yet counted the size down. -/
def At.helps : At α → Bool
  | .push .unlock => true
  | .push .signal => true
  | .wait .asleep => false
  | .wait _ => true
  | .list_lpop pc => !pc.late
  | _ => false

theorem view_holds (a : At α) : a.view.holds = a.holds := by
  cases a with
  | push pc =>
    cases pc with
    | _ => rfl
  | wait pc =>
    cases pc with
    | _ => rfl
  | list_lpop pc =>
    rw [At.view]
    split
    · rfl
    · rfl
  | _ => rfl

theorem view_helps (a : At α) : a.view.helps = a.helps := by
  cases a with
  | push pc =>
    cases pc with
    | _ => rfl
  | wait pc =>
    cases pc with
    | _ => rfl
  | list_lpop pc =>
    cases place : pc.late with
    | true => simp [At.view,At.helps,QueueSpec.At.helps,place]
    | false => simp [At.view,At.helps,QueueSpec.At.helps,place]
  | _ => rfl

/-- The steps that are left to a thread, with those of a thread that it may wake. -/
def At.left : At α → Nat
  | .out => 0
  | .push (.lock _) => 18
  | .list_push _ pc => 12 + pc.left
  | .push .unlock => 12
  | .push .signal => 11
  | .wait .lock => 10
  | .wait .test => 9
  | .wait .asleep => 0
  | .wait .woken => 10
  | .wait .unlock => 8
  | .list_lpop pc => pc.left

def work (s : Queue α) : Nat := (s.threads.map At.left).sum

theorem work_moved (here : s.threads[i]? = some a) (threads : s'.threads = s.threads.set i b) (less : b.left < a.left) :
    work s' < work s := by
  have total := ListSets.sum_map_set At.left here b
  rw [work,work,threads]
  omega

theorem push_work {val : α} {pc : PushStep} {m : Store α} {next : Option PushStep}
    (here : s.threads[i]? = some (.list_push val pc))
    (did : push_step s.mem val pc = .ok (m,next)) : work (after_push s i val m next) < work s := by
  cases next with
  | none =>
    have positive : 0 < pc.left := by cases pc <;> simp [PushStep.left]
    exact work_moved here rfl (by simp [At.left,positive])
  | some pc₁ =>
    have less := (push_step_next did).2.2
    exact work_moved here rfl (by simp [At.left,less])

theorem lpop_work {pc : LpopStep} {m : Store α} {next : Then α} (here : s.threads[i]? = some (.list_lpop pc))
    (did : lpop_step s.mem pc = .ok (m,next)) : work (after_lpop s i m next) < work s := by
  cases next with
  | res v =>
    have positive : 0 < pc.left := by cases pc <;> simp [LpopStep.left]
    exact work_moved here rfl positive
  | goto pc₁ => exact work_moved here rfl (lpop_step_next did).less

theorem step_work (does : Does s l s') (goes : inner l = true) : work s' < work s := by
  cases does with
  | push here => cases goes
  | pop here => cases goes
  | lock here enters free =>
    rcases enters with ⟨val,rfl,rfl⟩ | ⟨rfl | rfl,rfl⟩
    · exact work_moved here rfl (by simp [At.left,PushStep.left])
    · exact work_moved here rfl (by simp [At.left])
    · exact work_moved here rfl (by simp [At.left])
  | unlock here leaves =>
    rcases leaves with ⟨rfl,rfl⟩ | ⟨rfl,rfl⟩
    · exact work_moved here rfl (by simp [At.left])
    · exact work_moved here rfl (by simp [At.left,LpopStep.left])
  | list_push here did => exact push_work here did
  | sleep here empty => exact work_moved here rfl (by simp [At.left])
  | ready here size some => exact work_moved here rfl (by simp [At.left])
  | list_lpop here did => exact lpop_work here did
  | @wake i j here there =>
    have other : j ≠ i := by
      rintro rfl
      rw [here] at there
      cases there
    have asleep : (s.threads.set i .out)[j]? = some (.wait .asleep) := (List.getElem?_set_ne (Ne.symm other)).trans there
    have out := ListSets.sum_map_set At.left here .out
    have up := ListSets.sum_map_set At.left asleep (.wait .woken)
    simp only [At.left] at out up
    show (((s.threads.set i .out).set j (.wait .woken)).map At.left).sum < (s.threads.map At.left).sum
    omega
  | wake_none here nobody => exact work_moved here rfl (by simp [At.left])
  | timeout there => cases goes

theorem inner_bounded {more : List (Label α)} (goes : ∀ l ∈ more, inner l = true) (ran : run step s more = .ok s') :
    work s' + more.length ≤ work s := by
  induction more generalizing s with
  | nil =>
    cases ran
    exact le_rfl
  | cons l more ih =>
    rw [run_cons,bind_eq_ok] at ran
    obtain ⟨t,first,rest⟩ := ran
    obtain ⟨here,later⟩ := List.forall_mem_cons.mp goes
    have less := step_work (step_does first) here
    have total := ih later rest
    rw [List.length_cons]
    omega

theorem alone_of_others (others : ∀ j b, j ≠ i → s.threads[j]? = some b → b.inside = false) : Alone s (.go i) := by
  intro _ j _ other
  cases there : s.threads[j]? with
  | none => rfl
  | some b => exact others j b other there

/-- Some call can go on without disturbing a list operation. -/
def Goes (s : Queue α) : Prop := ∃ l s', inner l = true ∧ Alone s l ∧ step s l = .ok s'

theorem go_on (alone : Alone s (.go i)) (done : ∃ s', step s (.go i) = .ok s') : Goes s := by
  obtain ⟨s',done⟩ := done
  exact ⟨.go i,s',rfl,alone,done⟩

/-- A list operation that has begun can go on. -/
theorem busy_goes (sees : Sees q s) (here : s.threads[i]? = some a) (busy : a.inside = true)
    (others : ∀ j b, j ≠ i → s.threads[j]? = some b → b.inside = false) : Goes s := by
  have inList : a.lists = true := by
    cases a with
    | list_push val pc => rfl
    | list_lpop pc => rfl
    | _ => cases busy
  have alone := alone_of_others others
  exact go_on alone (list_goes sees alone here inList)

theorem idle_alone (idle : ∀ a ∈ s.threads, a.inside = false) (i : Nat) : Alone s (.go i) :=
  alone_of_others (fun _ b _ there => idle b (List.mem_of_getElem? there))

/-- A thread that holds `qlock` can go on. -/
theorem holder_goes (sees : Sees q s) (idle : ∀ a ∈ s.threads, a.inside = false) (here : s.threads[i]? = some a)
    (holds : a.holds = true) : Goes s := by
  have alone := idle_alone idle i
  refine go_on alone ?_
  cases a with
  | out => cases holds
  | push pc =>
    cases pc with
    | unlock => exact ⟨_,by rw [step,here]; rfl⟩
    | _ => cases holds
  | list_push val pc => exact list_goes sees alone here rfl
  | wait pc =>
    cases pc with
    | test =>
      obtain ⟨s',done⟩ := test_goes sees i
      exact ⟨s',by rw [step,here]; exact done⟩
    | unlock => exact ⟨_,by rw [step,here]; rfl⟩
    | _ => cases holds
  | list_lpop pc => cases holds

/-- A thread that needs `qlock` can go on, or another one that holds it. -/
theorem someone_goes (seen : Seen q s) (idle : ∀ a ∈ s.threads, a.inside = false) (here : s.threads[i]? = some a)
    (enters : Enters a b) : Goes s := by
  cases owner : s.qlock with
  | none =>
    refine go_on (idle_alone idle i) ⟨{ s.move i b with qlock := some i },?_⟩
    rcases enters with ⟨val,rfl,rfl⟩ | ⟨rfl | rfl,rfl⟩
    · simp only [step,here,atm_queue_push,pthread_mutex_lock,owner,↓reduceIte]
    · simp only [step,here,atm_queue_nonempty_wait,pthread_mutex_lock,owner,↓reduceIte]
    · simp only [step,here,atm_queue_nonempty_wait,pthread_mutex_lock,owner,↓reduceIte]
  | some k =>
    obtain ⟨c,there,holds⟩ := (seen.sound.held k).mp (seen.sees.qlock.trans owner)
    rw [seen.sees.threads,List.getElem?_map,Option.map_eq_some_iff] at there
    obtain ⟨d,there,rfl⟩ := there
    rw [view_holds] at holds
    exact holder_goes seen.sees idle there holds

/-- A thread that is neither out nor asleep can go on, or another one that holds `qlock`. -/
theorem awake_goes (seen : Seen q s) (idle : ∀ a ∈ s.threads, a.inside = false) (here : s.threads[i]? = some a)
    (in_call : a ≠ .out) (awake : a ≠ .wait .asleep) : Goes s := by
  have goes : ∀ {b : At α}, Enters a b → Goes s := someone_goes seen idle here
  have holder : a.holds = true → Goes s := holder_goes seen.sees idle here
  cases a with
  | out => exact absurd rfl in_call
  | push pc =>
    cases pc with
    | lock val => exact goes (.inl ⟨val,rfl,rfl⟩)
    | unlock => exact holder rfl
    | signal =>
      by_cases sleepers : s.threads.any At.sleeps = true
      · obtain ⟨c,member,sleeps⟩ := List.any_eq_true.mp sleepers
        obtain ⟨j,there⟩ := List.mem_iff_getElem?.mp member
        have asleep : c = .wait .asleep := by
          cases c with
          | wait pc => cases pc <;> first | rfl | cases sleeps
          | _ => cases sleeps
        refine ⟨.signal i (some j),(s.move i .out).move j (.wait .woken),rfl,trivial,?_⟩
        simp only [step,here,pthread_cond_signal,there,asleep]
      · refine ⟨.signal i none,s.move i .out,rfl,trivial,?_⟩
        simp only [step,here,pthread_cond_signal,if_neg sleepers]
  | list_push val pc => exact holder rfl
  | wait pc =>
    cases pc with
    | lock => exact goes (.inr ⟨.inl rfl,rfl⟩)
    | test => exact holder rfl
    | asleep => exact absurd rfl awake
    | woken => exact goes (.inr ⟨.inr rfl,rfl⟩)
    | unlock => exact holder rfl
  | list_lpop pc =>
    have alone := idle_alone idle i
    exact go_on alone (list_goes seen.sees alone here rfl)

/-- Every thread is out or asleep, and nobody sleeps while a value is there. -/
def AtRest (s : Queue α) : Prop :=
  (∀ a ∈ s.threads, a = .out ∨ a = .wait .asleep) ∧
  (.wait .asleep ∈ s.threads → s.ops.filterMap Op.pushed = s.ops.filterMap Op.taken)

theorem Seen.covered (seen : Seen q s) (asleep : .wait .asleep ∈ s.threads) : q.vals.length ≤ s.threads.countP At.helps := by
  have counted := seen.sound.covered
  rw [QueueSpec.Covered,seen.sees.threads] at counted
  have few := counted (List.mem_map.mpr ⟨_,asleep,rfl⟩)
  rw [List.countP_map] at few
  exact few.trans_eq (List.countP_congr (fun a _ => by rw [Function.comp_apply,view_helps]))

theorem rest_of_stuck (seen : Seen q s) (stuck : ¬ Goes s) : AtRest s := by
  have idle : q.ops = s.ops ∧ ∀ a ∈ s.threads, a.inside = false := by
    cases seen.sees.content with
    | quiet idle ops holds => exact ⟨ops,idle⟩
    | pushing here busy others ops left becomes => exact absurd (busy_goes seen.sees here busy others) stuck
    | taking here busy others early ops left becomes => exact absurd (busy_goes seen.sees here busy others) stuck
    | took here busy others late ops left becomes => exact absurd (busy_goes seen.sees here busy others) stuck
  obtain ⟨ops,idle⟩ := idle
  have still : ∀ a ∈ s.threads, a = .out ∨ a = .wait .asleep := by
    intro a member
    obtain ⟨i,here⟩ := List.mem_iff_getElem?.mp member
    by_contra moving
    rw [not_or] at moving
    exact stuck (awake_goes seen idle here moving.1 moving.2)
  refine ⟨still,fun asleep => ?_⟩
  have few := seen.covered asleep
  have nobody : s.threads.countP At.helps = 0 := by
    rw [List.countP_eq_zero]
    intro a member
    rcases still a member with rfl | rfl
    · simp [At.helps]
    · simp [At.helps]
  rw [nobody] at few
  have ordered := seen.sound.ordered
  rw [QueueSpec.Ordered,List.length_eq_zero_iff.mp (Nat.le_zero.mp few),List.append_nil,ops] at ordered
  exact ordered

/-- No run fails. Each value is taken once and in order, one thread at most is where `qlock` is held, and while a
    reader sleeps every value has a thread that will signal or take it. The calls that have begun come to rest
    after a bounded number of steps, also when no time is ever over, and then nobody sleeps while a value is there. -/
theorem sleepers_woken (within : EachStep step (atm_queue_new v_type f_type n) labels Within) :
    Meets Waits (run step (atm_queue_new v_type f_type n) labels) (fun s =>
      s.ops.filterMap Op.taken <+: s.ops.filterMap Op.pushed ∧
      (∀ (i j : Nat) (a b : At α), s.threads[i]? = some a → s.threads[j]? = some b → a.holds = true → b.holds = true → i = j) ∧
      (.wait .asleep ∈ s.threads → ∃ size, atm_queue_size s = .ok size ∧ size ≤ s.threads.countP At.helps) ∧
      (∀ more s', (∀ l ∈ more, inner l = true) → run step s more = .ok s' → more.length ≤ work s) ∧
      (¬ Goes s → AtRest s)) := by
  refine (seen_run within).mono ?_
  rintro s ⟨q,seen⟩
  refine ⟨?_,?_,?_,?_,rest_of_stuck seen⟩
  · obtain ⟨more,order⟩ := seen.order
    exact ⟨_,order.symm⟩
  · intro i j a b here there holds holds'
    have mine := (seen.sound.held i).mpr ⟨a.view,seen.sees.here here,by rw [view_holds,holds]⟩
    have its := (seen.sound.held j).mpr ⟨b.view,seen.sees.here there,by rw [view_holds,holds']⟩
    exact Option.some.inj (mine.symm.trans its)
  · intro asleep
    exact ⟨_,seen.sees.size,(Nat.mod_le _ _).trans (seen.covered asleep)⟩
  · intro more s' goes went
    have total := inner_bounded goes went
    omega

/-- A reader that falls asleep is woken by the thread that pushes a value, and sleeps again. -/
def woken_reader : List (Label Nat) :=
  [.pop 1,.go 1,.go 1,.push 0 7,.go 0,.go 0,.go 0,.go 0,.go 0,.go 0,.go 0,.signal 0 (some 1),.go 1,.go 1,.go 1,
    .go 1,.go 1,.go 1,.go 1,.go 1,.go 1,.go 1,.pop 1,.go 1,.go 1]

theorem sleepers_woken_reader : ∃ s, run step (atm_queue_new none 0 2) woken_reader = .ok s ∧
    s.threads = [.out,.wait .asleep] ∧ s.ops = [.push 7,.lpop (some 7)] ∧
    (∃ size, atm_queue_size s = .ok size ∧ size ≤ s.threads.countP At.helps) ∧ (¬ Goes s → AtRest s) := by
  have within : EachStep step (atm_queue_new none 0 2) woken_reader Within := by decide +kernel
  obtain ⟨s,ran⟩ : ∃ s, run step (atm_queue_new none 0 2) woken_reader = .ok s := exists_ok (by decide +kernel)
  have last : (run step (atm_queue_new none 0 2) woken_reader).map (fun s => (s.threads,s.ops)) =
      .ok ([.out,.wait .asleep],[.push 7,.lpop (some 7)]) := by decide +kernel
  rw [ran] at last
  obtain ⟨threads,ops⟩ := Prod.mk.inj (Except.ok.inj last)
  generalize woken_reader = labels at within ran ⊢
  obtain ⟨_,_,covered,_,rest⟩ := (sleepers_woken within).result ran
  exact ⟨s,ran,threads,ops,covered (by rw [threads]; simp),rest⟩

/-! ### One reader -/

/-- What is seen of a queue from which only the thread `r` reads. -/
structure SeenLone (r : Nat) (q : QueueSpec.Queue Nat) (s : Queue Nat) : Prop where
  seen : Seen q s
  lone : QueueSpec.Lone r q
  ran : run at_once [] q.ops = .ok q.vals

variable {r : Nat} {v_type : Option (T Nat Unit)} {labels : List (Label Nat)}

theorem lone_start : SeenLone r (QueueSpec.queue n) (atm_queue_new v_type f_type n) := by
  refine ⟨⟨new_sees v_type f_type n,QueueSpec.new_sound n⟩,⟨?_,?_⟩,rfl⟩
  · intro i a here reads
    rw [List.eq_of_mem_replicate (List.mem_of_getElem? here)] at reads
    cases reads
  · intro a member ready
    rw [List.eq_of_mem_replicate member] at ready
    cases ready

theorem lone_next {q : QueueSpec.Queue Nat} {s s' : Queue Nat} {l : Label Nat} (ok : SeenLone r q s) (within : Within s l)
    (one : ∀ i, l = .pop i → i = r) (done : step s l = .ok s') : ∃ q', SeenLone r q' s' := by
  obtain ⟨q',seen,went⟩ := seen_step ok.seen within done
  rcases went with rfl | does
  · exact ⟨q',seen,ok.lone,ok.ran⟩
  · exact ⟨q',seen,QueueSpec.lone_step ok.lone does one,QueueSpec.ops_step ok.lone ok.ran does⟩

/-- With one reader every run is one of the queue that takes values at once, and no pop returns without a value. -/
theorem lone_reader_served (one : ∀ i, .pop i ∈ labels → i = r)
    (within : EachStep step (atm_queue_new v_type f_type n) labels Within)
    {s : Queue Nat} (ran : run step (atm_queue_new v_type f_type n) labels = .ok s) :
    (∃ vs, run at_once [] s.ops = .ok vs) ∧ ∀ res, .lpop res ∈ s.ops → ∃ val, res = some val := by
  have sound : (∀ i, .pop i ∈ labels → i = r) → ∃ q, SeenLone r q s := by
    refine run_invariant (P := fun ls s => (∀ i, .pop i ∈ ls → i = r) → ∃ q, SeenLone r q s) (fun _ => ⟨_,lone_start⟩)
      ?_ within ran
    intro pre l t u before within done one
    obtain ⟨q,ok⟩ := before (fun i member => one i (List.mem_append_left _ member))
    exact lone_next ok within (fun i last => one i (by simp [last])) done
  obtain ⟨q,ok⟩ := sound one
  obtain ⟨more,ops,_⟩ := ok.seen.sees.content.ops_of
  obtain ⟨vs,served⟩ := run_shorten at_once ok.ran (ops ▸ List.prefix_append s.ops more)
  exact ⟨⟨vs,served⟩,fun res member => QueueSpec.at_once_served served member⟩

/-- The reader comes first, twice wakes up without being signalled, and finds its value the second time. It takes it after
    another one was pushed. -/
def late_reader : List (Label Nat) :=
  [.pop 1,.go 1,.go 1,.timeout 1,.go 1,.go 1,.push 0 7,.go 0,.go 0,.timeout 1,.go 0,.go 0,.go 0,.go 0,.go 0,.go 1,.go 1,.go 1,
    .signal 0 none,.push 0 8,.go 0,.go 0,.go 0,.go 0,.go 0,.go 0,.go 1,.go 1,.go 1,.go 1,.go 1,.go 1,.go 1]

theorem lone_reader_served_late : ∃ s, run step (atm_queue_new none 0 2) late_reader = .ok s ∧
    s.ops = [.push 7,.push 8,.lpop (some 7)] ∧ ∃ vs, run at_once [] s.ops = .ok vs := by
  have within : EachStep step (atm_queue_new none 0 2) late_reader Within := by decide +kernel
  have one : ∀ i, .pop i ∈ late_reader → i = 1 := by simp [late_reader]
  obtain ⟨s,ran⟩ : ∃ s, run step (atm_queue_new none 0 2) late_reader = .ok s := exists_ok (by decide +kernel)
  have ops : (run step (atm_queue_new none 0 2) late_reader).map Queue.ops = .ok [.push 7,.push 8,.lpop (some 7)] := by
    decide +kernel
  rw [ran] at ops
  exact ⟨s,ran,Except.ok.inj ops,(lone_reader_served one within ran).1⟩

/-- A push between the statements of `atm_list_lpop` is lost: it finds a last entry in a list without a first one. -/
example : (run step (atm_queue_new none 0 2) [.push 0 7,.go 0,.go 0,.go 0,.go 0,.go 0,.go 0,.go 0,.signal 0 none,
    .pop 1,.go 1,.go 1,.go 1,.go 1,.go 1,.push 0 8,.go 0,.go 0,.go 0,.go 0,.go 0,.go 0,.go 0,.signal 0 none,
    .go 1,.go 1,.go 1,.go 1,.go 1,.pop 1,.go 1,.go 1,.go 1,.go 1]).map Queue.ops =
      .ok [.push 7,.push 8,.lpop (some 7),.lpop none] := rfl

end AtmCache.Queues
