import AtmCache.QueueSteps

/-!
# The blocking queue against its specification

While list operations do not overlap, the blocking queue is seen as one whose list operations are done at once
(`sees_step`): a push counts from its last statement on, and a pop from the statement that counts the size down, so that
the test of the loop reads the size of the values that are seen.
-/
namespace AtmCache.Queues
open Heap AtmCache.Lists Runs
open Tasks (Stop)
open QueueSpec (Label Op WaitAt)

variable {α : Type}

/-- Where a thread is seen. -/
def At.view : At α → QueueSpec.At α
  | .out => .out
  | .push (.lock val) => .push (.lock val)
  | .push .unlock => .push .unlock
  | .push .signal => .push .signal
  | .list_push val _ => .push (.list_push val)
  | .wait pc => .wait pc
  | .list_lpop pc => if pc.late then .out else .list_lpop

/-- The values that are seen, while no list operation is under way or while one is. -/
inductive Content (q : QueueSpec.Queue α) (s : Queue α) : Prop where
  | quiet (idle : ∀ a ∈ s.threads, a.inside = false) (ops : q.ops = s.ops) (holds : Holds s.mem q.vals)
  | pushing {i : Nat} {val : α} {pc : PushStep} {m' : Store α} (here : s.threads[i]? = some (.list_push val pc))
      (busy : (At.list_push val pc).inside = true) (others : ∀ j b, j ≠ i → s.threads[j]? = some b → b.inside = false)
      (ops : q.ops = s.ops) (left : PushCompletes val s.mem pc m') (becomes : Holds m' (q.vals ++ [val]))
  | taking {i : Nat} {pc : LpopStep} {m' : Store α} (here : s.threads[i]? = some (.list_lpop pc))
      (busy : (At.list_lpop (α := α) pc).inside = true) (others : ∀ j b, j ≠ i → s.threads[j]? = some b → b.inside = false)
      (early : pc.late = false) (ops : q.ops = s.ops) (left : LpopCompletes s.mem pc m' q.vals.head?)
      (becomes : Holds m' q.vals.tail)
  | took {i : Nat} {pc : LpopStep} {m' : Store α} {res : Option α} (here : s.threads[i]? = some (.list_lpop pc))
      (busy : (At.list_lpop (α := α) pc).inside = true) (others : ∀ j b, j ≠ i → s.threads[j]? = some b → b.inside = false)
      (late : pc.late = true) (ops : q.ops = s.ops ++ [.lpop res]) (left : LpopCompletes s.mem pc m' res)
      (becomes : Holds m' q.vals)

structure Sees (q : QueueSpec.Queue α) (s : Queue α) : Prop where
  threads : q.threads = s.threads.map At.view
  qlock : q.qlock = s.qlock
  size : atm_queue_size s = .ok (u32 q.vals.length)
  content : Content q s

variable {q : QueueSpec.Queue α} {s s' : Queue α} {l : Label α} {i j : Nat} {a b : At α}

theorem new_sees (v_type : Option (T α Unit)) (f_type n : Nat) :
    Sees (QueueSpec.queue n) (atm_queue_new v_type f_type n : Queue α) where
  threads := by rw [QueueSpec.queue,atm_queue_new,List.map_replicate]; rfl
  qlock := rfl
  size := rfl
  content := by
    refine .quiet (fun a member => ?_) rfl ⟨⟨f_type,v_type,none,none,0⟩,[],⟨rfl,trivial,List.nodup_nil,rfl,rfl,rfl⟩,rfl⟩
    rw [List.eq_of_mem_replicate member]
    rfl

theorem Sees.here (sees : Sees q s) (here : s.threads[i]? = some a) : q.threads[i]? = some a.view := by
  rw [sees.threads,List.getElem?_map,here]
  rfl

/-! ### Steps outside of the list -/

theorem others_moved {k : Nat} (others : ∀ j b, j ≠ k → s.threads[j]? = some b → b.inside = false) (out : b.inside = false) :
    ∀ j c, j ≠ k → (s.threads.set i b)[j]? = some c → c.inside = false := by
  intro j c other found
  rw [List.getElem?_set] at found
  split_ifs at found with same
  · cases found
    exact out
  · exact others j c other found

/-- A thread that is in no list operation goes where it is inside of none. -/
theorem content_moved {q' : QueueSpec.Queue α} (content : Content q s) (here : s.threads[i]? = some a) (outside : a.lists = false)
    (out : b.inside = false) (threads : s'.threads = s.threads.set i b) (mem : s'.mem = s.mem) (ops : s'.ops = s.ops)
    (same_vals : q'.vals = q.vals) (same_ops : q'.ops = q.ops) : Content q' s' := by
  have stays : ∀ {k : Nat} {c : At α}, s.threads[k]? = some c → c.lists = true → s'.threads[k]? = some c := by
    intro k c there inList
    have other : i ≠ k := by
      rintro rfl
      rw [here] at there
      cases there
      rw [outside] at inList
      cases inList
    rw [threads,List.getElem?_set_ne other]
    exact there
  cases content with
  | quiet idle same holds =>
    refine .quiet (fun c member => ?_) (by rw [same_ops,ops,same]) (by rw [mem,same_vals]; exact holds)
    rw [threads] at member
    rcases List.mem_or_eq_of_mem_set member with old | rfl
    · exact idle c old
    · exact out
  | pushing there busy others same left becomes =>
    exact .pushing (stays there rfl) busy (by rw [threads]; exact others_moved others out) (by rw [same_ops,ops,same])
      (by rw [mem]; exact left) (by rw [same_vals]; exact becomes)
  | taking there busy others early same left becomes =>
    exact .taking (stays there rfl) busy (by rw [threads]; exact others_moved others out) early (by rw [same_ops,ops,same])
      (by rw [mem,same_vals]; exact left) (by rw [same_vals]; exact becomes)
  | took there busy others late same left becomes =>
    exact .took (stays there rfl) busy (by rw [threads]; exact others_moved others out) late (by rw [same_ops,ops,same])
      (by rw [mem]; exact left) (by rw [same_vals]; exact becomes)

theorem sees_moved (sees : Sees q s) (here : s.threads[i]? = some a) (outside : a.lists = false) (out : b.inside = false)
    (lock : Option Nat) :
    Sees { q.move i b.view with qlock := lock } { s.move i b with qlock := lock } where
  threads := by
    show q.threads.set i b.view = (s.threads.set i b).map At.view
    rw [sees.threads,List.map_set]
  qlock := rfl
  size := sees.size
  content := content_moved sees.content here outside out rfl rfl rfl rfl rfl

/-- The same with `qlock` left alone. -/
theorem sees_went (sees : Sees q s) (here : s.threads[i]? = some a) (outside : a.lists = false) (out : b.inside = false) :
    Sees (q.move i b.view) (s.move i b) where
  threads := by
    show q.threads.set i b.view = (s.threads.set i b).map At.view
    rw [sees.threads,List.map_set]
  qlock := sees.qlock
  size := sees.size
  content := content_moved sees.content here outside out rfl rfl rfl rfl rfl

/-! ### Steps in the list -/

/-- No other thread is inside of a list operation. -/
theorem alone_others (alone : Alone s (.go i)) (here : s.threads[i]? = some a) (inList : a.lists = true) :
    ∀ j b, j ≠ i → s.threads[j]? = some b → b.inside = false := by
  intro j b other there
  have idle := alone (by rw [here]; exact inList) j (List.getElem?_eq_some_iff.mp there).1 other
  rw [there] at idle
  exact idle

theorem push_new_of_outside {val : α} {pc : PushStep} (outside : (At.list_push val pc).inside = false) : pc = .new := by
  cases pc with
  | new => rfl
  | _ => cases outside

theorem lpop_head_of_outside {pc : LpopStep} (outside : (At.list_lpop (α := α) pc).inside = false) : pc = .head := by
  cases pc with
  | head => rfl
  | _ => cases outside

/-- The thread inside of a list operation is the one that takes a step in one. -/
theorem busy_is (alone : Alone s (.go i)) (here : s.threads[i]? = some a) (inList : a.lists = true)
    (there : s.threads[j]? = some b) (busy : b.inside = true) : j = i ∧ b = a := by
  have same : j = i := by
    by_contra other
    rw [alone_others alone here inList j b other there] at busy
    cases busy
  subst same
  rw [here] at there
  exact ⟨rfl,(Option.some.inj there).symm⟩

theorem push_ready {val : α} {pc : PushStep} (sees : Sees q s) (alone : Alone s (.go i))
    (here : s.threads[i]? = some (.list_push val pc)) :
    q.ops = s.ops ∧ ∃ m', PushCompletes val s.mem pc m' ∧ Holds m' (q.vals ++ [val]) := by
  cases sees.content with
  | quiet idle ops holds =>
    obtain rfl := push_new_of_outside (idle _ (List.mem_of_getElem? here))
    exact ⟨ops,push_whole holds val⟩
  | pushing there busy others ops left becomes =>
    obtain ⟨rfl,same⟩ := busy_is alone here rfl there busy
    cases same
    exact ⟨ops,_,left,becomes⟩
  | taking there busy others early ops left becomes => cases (busy_is alone here rfl there busy).2
  | took there busy others late ops left becomes => cases (busy_is alone here rfl there busy).2

theorem lpop_early {pc : LpopStep} (sees : Sees q s) (alone : Alone s (.go i)) (here : s.threads[i]? = some (.list_lpop pc))
    (early : pc.late = false) : q.ops = s.ops ∧ ∃ m', LpopCompletes s.mem pc m' q.vals.head? ∧ Holds m' q.vals.tail := by
  cases sees.content with
  | quiet idle ops holds =>
    obtain rfl := lpop_head_of_outside (idle _ (List.mem_of_getElem? here))
    exact ⟨ops,lpop_whole holds⟩
  | pushing there busy others ops left becomes => cases (busy_is alone here rfl there busy).2
  | taking there busy others _ ops left becomes =>
    obtain ⟨rfl,same⟩ := busy_is alone here rfl there busy
    cases same
    exact ⟨ops,_,left,becomes⟩
  | took there busy others late ops left becomes =>
    cases (busy_is alone here rfl there busy).2
    rw [early] at late
    cases late

theorem lpop_late {pc : LpopStep} (sees : Sees q s) (alone : Alone s (.go i)) (here : s.threads[i]? = some (.list_lpop pc))
    (late : pc.late = true) :
    ∃ res m', q.ops = s.ops ++ [.lpop res] ∧ LpopCompletes s.mem pc m' res ∧ Holds m' q.vals := by
  cases sees.content with
  | quiet idle ops holds =>
    obtain rfl := lpop_head_of_outside (idle _ (List.mem_of_getElem? here))
    cases late
  | pushing there busy others ops left becomes => cases (busy_is alone here rfl there busy).2
  | taking there busy others early ops left becomes =>
    cases (busy_is alone here rfl there busy).2
    rw [late] at early
    cases early
  | took there busy others _ ops left becomes =>
    obtain ⟨rfl,same⟩ := busy_is alone here rfl there busy
    cases same
    exact ⟨_,_,ops,left,becomes⟩

theorem set_others {k : Nat} (others : ∀ j b, j ≠ k → s.threads[j]? = some b → b.inside = false) :
    ∀ j c, j ≠ k → (s.threads.set k b)[j]? = some c → c.inside = false := by
  intro j c other found
  rw [List.getElem?_set_ne (Ne.symm other)] at found
  exact others j c other found

theorem set_idle (here : s.threads[i]? = some a) (others : ∀ j b, j ≠ i → s.threads[j]? = some b → b.inside = false)
    (out : b.inside = false) : ∀ c ∈ s.threads.set i b, c.inside = false := by
  intro c member
  obtain ⟨j,found⟩ := List.mem_iff_getElem?.mp member
  by_cases same : j = i
  · subst same
    rw [List.getElem?_set_self (List.getElem?_eq_some_iff.mp here).1] at found
    cases found
    exact out
  · exact set_others others j c same found

theorem set_here (here : s.threads[i]? = some a) (b : At α) : (s.threads.set i b)[i]? = some b :=
  List.getElem?_set_self (List.getElem?_eq_some_iff.mp here).1

/-- What is seen does not change. -/
theorem view_same (sees : Sees q s) (here : s.threads[i]? = some a) (alike : b.view = a.view) :
    q.threads = (s.threads.set i b).map At.view := by
  have there := sees.here here
  rw [List.map_set,alike,← sees.threads]
  obtain ⟨inside,same⟩ := List.getElem?_eq_some_iff.mp there
  rw [← same,List.set_getElem_self]

theorem push_sees {val : α} {pc : PushStep} {m : Store α} {next : Option PushStep} (sees : Sees q s) (alone : Alone s (.go i))
    (here : s.threads[i]? = some (.list_push val pc)) (did : push_step s.mem val pc = .ok (m,next)) :
    ∃ q', Sees q' (after_push s i val m next) ∧ (q' = q ∨ QueueSpec.Does q (.go i) q') := by
  have others := alone_others alone here rfl
  obtain ⟨ops,m',left,becomes⟩ := push_ready sees alone here
  rcases left.then did with ⟨rfl,rfl⟩ | ⟨pc₁,rfl,rest⟩
  · refine ⟨{ q.move i (.push .unlock) with vals := q.vals ++ [val], ops := q.ops ++ [.push val] },
      ⟨?_,sees.qlock,holds_size becomes,.quiet (set_idle here others rfl) ?_ becomes⟩,.inr (.list_push (sees.here here))⟩
    · show q.threads.set i (At.view (.push .unlock)) = (s.threads.set i (.push .unlock)).map At.view
      rw [sees.threads,List.map_set]
    · show q.ops ++ [.push val] = s.ops ++ [.push val]
      rw [ops]
  · obtain ⟨begun,more,_⟩ := push_step_next did
    have size := push_step_size sees.size did
    rw [if_neg more] at size
    have busy : (At.list_push val pc₁).inside = true := by
      cases pc₁ with
      | new => exact absurd rfl begun
      | _ => rfl
    exact ⟨q,⟨view_same sees here rfl,sees.qlock,size,
      .pushing (set_here here _) busy (set_others others) ops rest becomes⟩,.inl rfl⟩

theorem lpop_busy {pc : LpopStep} (begun : pc ≠ .head) : (At.list_lpop (α := α) pc).inside = true := by
  cases pc with
  | head => exact absurd rfl begun
  | _ => rfl

/-- A pop that has not counted the size down. -/
theorem lpop_early_sees {pc : LpopStep} {m : Store α} {next : Then α} (sees : Sees q s) (alone : Alone s (.go i))
    (here : s.threads[i]? = some (.list_lpop pc)) (early : pc.late = false) (did : lpop_step s.mem pc = .ok (m,next)) :
    ∃ q', Sees q' (after_lpop s i m next) ∧ (q' = q ∨ QueueSpec.Does q (.go i) q') := by
  have others := alone_others alone here rfl
  have there : q.threads[i]? = some .list_lpop := by
    have seen := sees.here here
    rw [At.view,early] at seen
    exact seen
  obtain ⟨ops,m',left,becomes⟩ := lpop_early sees alone here early
  rcases left.then did with ⟨rfl,rfl⟩ | ⟨pc₁,rfl,rest⟩
  · refine ⟨{ q.move i .out with vals := q.vals.tail, ops := q.ops ++ [.lpop q.vals.head?] },
      ⟨?_,sees.qlock,holds_size becomes,.quiet (set_idle here others rfl) ?_ becomes⟩,.inr (.list_lpop there)⟩
    · show q.threads.set i (At.view .out) = (s.threads.set i .out).map At.view
      rw [sees.threads,List.map_set]
    · show q.ops ++ [.lpop q.vals.head?] = s.ops ++ [.lpop q.vals.head?]
      rw [ops]
  · cases lpop_step_next did with
    | early _ still begun more less =>
      have size : list_size m = .ok (u32 q.vals.length) := by
        rcases lpop_step_size sees.size did with same | ⟨res,rfl,_⟩
        · exact same
        · exact absurd rfl (more res)
      have alike : (At.list_lpop (α := α) pc₁).view = (At.list_lpop pc).view := by rw [At.view,At.view,early,still]
      exact ⟨q,⟨view_same sees here alike,sees.qlock,size,
        .taking (set_here here _) (lpop_busy begun) (set_others others) still ops rest becomes⟩,.inl rfl⟩
    | size res =>
      -- The size is counted down, and the value is no longer seen.
      have size : list_size m = .ok (u32 q.vals.tail.length) := by
        obtain ⟨n,counted⟩ : ∃ n, list_size m = .ok n := by
          rcases lpop_step_size sees.size did with same | ⟨_,_,same⟩
          · exact ⟨_,same⟩
          · exact ⟨_,same⟩
        have last := (late_size rest rfl counted).symm.trans (holds_size becomes)
        rw [counted,Except.ok.inj last]
      refine ⟨{ q.move i .out with vals := q.vals.tail, ops := q.ops ++ [.lpop q.vals.head?] },
        ⟨?_,sees.qlock,size,
          .took (set_here here _) (lpop_busy (fun same => by cases same)) (set_others others) rfl ?_ rest becomes⟩,
        .inr (.list_lpop there)⟩
      · show q.threads.set i (At.view (.list_lpop (.isol res))) = (s.threads.set i (.list_lpop (.isol res))).map At.view
        rw [sees.threads,List.map_set]
      · show q.ops ++ [.lpop q.vals.head?] = s.ops ++ [.lpop q.vals.head?]
        rw [ops]
    | isol res => cases early

/-- A pop that is nearly over. -/
theorem lpop_late_sees {pc : LpopStep} {m : Store α} {next : Then α} (sees : Sees q s) (alone : Alone s (.go i))
    (here : s.threads[i]? = some (.list_lpop pc)) (late : pc.late = true) (did : lpop_step s.mem pc = .ok (m,next)) :
    Sees q (after_lpop s i m next) := by
  have others := alone_others alone here rfl
  obtain ⟨res,m',ops,left,becomes⟩ := lpop_late sees alone here late
  have seen : (At.list_lpop (α := α) pc).view = .out := by rw [At.view,late]; rfl
  rcases left.then did with ⟨rfl,rfl⟩ | ⟨pc₁,rfl,rest⟩
  · exact ⟨view_same sees here seen.symm,sees.qlock,holds_size becomes,.quiet (set_idle here others rfl) ops becomes⟩
  · have size : list_size m = .ok (u32 q.vals.length) := by
      rcases lpop_step_size sees.size did with same | ⟨_,rfl,_⟩
      · exact same
      · cases late
    cases lpop_step_next did with
    | early before still begun more less =>
      rw [late] at before
      cases before
    | size res => cases late
    | isol a =>
      exact ⟨view_same sees here rfl,sees.qlock,size,
        .took (set_here here _) rfl (set_others others) rfl ops rest becomes⟩

theorem lpop_sees {pc : LpopStep} {m : Store α} {next : Then α} (sees : Sees q s) (alone : Alone s (.go i))
    (here : s.threads[i]? = some (.list_lpop pc)) (did : lpop_step s.mem pc = .ok (m,next)) :
    ∃ q', Sees q' (after_lpop s i m next) ∧ (q' = q ∨ QueueSpec.Does q (.go i) q') := by
  cases place : pc.late with
  | false => exact lpop_early_sees sees alone here place did
  | true => exact ⟨q,lpop_late_sees sees alone here place did,.inl rfl⟩

/-- What a step does is seen as a step of the specification, or not at all. -/
theorem sees_step (sees : Sees q s) (alone : Alone s l) (does : Does s l s') :
    ∃ q', Sees q' s' ∧ (q' = q ∨ QueueSpec.Does q l q') := by
  cases does with
  | push here => exact ⟨_,sees_went sees here rfl rfl,.inr (.push (sees.here here))⟩
  | pop here => exact ⟨_,sees_went sees here rfl rfl,.inr (.pop (sees.here here))⟩
  | @lock i a b here enters free =>
    have free' : q.qlock = none := sees.qlock.trans free
    rcases enters with ⟨val,rfl,rfl⟩ | ⟨rfl | rfl,rfl⟩
    · exact ⟨_,sees_moved sees here rfl rfl (some i),.inr (.lock (sees.here here) (.inl ⟨val,rfl,rfl⟩) free')⟩
    · exact ⟨_,sees_moved sees here rfl rfl (some i),.inr (.lock (sees.here here) (.inr ⟨.inl rfl,rfl⟩) free')⟩
    · exact ⟨_,sees_moved sees here rfl rfl (some i),.inr (.lock (sees.here here) (.inr ⟨.inr rfl,rfl⟩) free')⟩
  | unlock here leaves =>
    rcases leaves with ⟨rfl,rfl⟩ | ⟨rfl,rfl⟩
    · exact ⟨_,sees_moved sees here rfl rfl none,.inr (.unlock (sees.here here) (.inl ⟨rfl,rfl⟩))⟩
    · exact ⟨_,sees_moved sees here rfl rfl none,.inr (.unlock (sees.here here) (.inr ⟨rfl,rfl⟩))⟩
  | list_push here did => exact push_sees sees alone here did
  | sleep here empty =>
    have none_left : u32 q.vals.length = 0 := Except.ok.inj (sees.size.symm.trans empty)
    exact ⟨_,sees_moved sees here rfl rfl none,.inr (.sleep (sees.here here) none_left)⟩
  | ready here size some =>
    have same : u32 q.vals.length = _ := Except.ok.inj (sees.size.symm.trans size)
    exact ⟨_,sees_went sees here rfl rfl,.inr (.ready (sees.here here) (by rw [same]; exact some))⟩
  | list_lpop here did => exact lpop_sees sees alone here did
  | @wake i j here there =>
    have first := sees_went sees here (b := .out) rfl rfl
    have other : j ≠ i := by
      rintro rfl
      rw [here] at there
      cases there
    have asleep : (s.move i .out).threads[j]? = some (.wait .asleep) := (List.getElem?_set_ne (Ne.symm other)).trans there
    exact ⟨_,sees_went first asleep (b := .wait .woken) rfl rfl,.inr (.wake (sees.here here) (sees.here there))⟩
  | wake_none here nobody =>
    refine ⟨_,sees_went sees here rfl rfl,.inr (.wake_none (sees.here here) (fun asleep => nobody ?_))⟩
    rw [sees.threads] at asleep
    obtain ⟨a,member,same⟩ := List.mem_map.mp asleep
    have here : a = .wait .asleep := by
      cases a with
      | out => cases same
      | push pc => cases pc <;> cases same
      | list_push val pc => cases same
      | wait pc => cases same; rfl
      | list_lpop pc =>
        rw [At.view] at same
        split at same
        · cases same
        · cases same
    exact here ▸ member
  | timeout there => exact ⟨_,sees_went sees there rfl rfl,.inr (.timeout (sees.here there))⟩

end AtmCache.Queues
