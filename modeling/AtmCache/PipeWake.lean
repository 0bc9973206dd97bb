import AtmCache.PipeModel

/-!
# No message of a pipe is lost

Bytes and messages are not in step: one byte can stand for many messages, and a full pipe drops
bytes. What holds instead is `Awake`: while a message is queued, its notifier has still to write, or a byte is
unread, or the handler is emptying the queue. The handler throws bytes away only
after it has emptied the queue, and nothing is pushed until it has let the lock go.
-/
namespace AtmCache.Pipes
open Runs
variable {M : Type} {capacity : Nat} {s s' : Pipe M} {l : Label M} {ls : List (Label M)}

/-! ### The invariant -/

/-- While a message is queued somebody still has to act on it. -/
def Awake (s : Pipe M) : Prop := s.mqueue ≠ [] → s.between ≠ [] ∨ s.bytes ≠ [] ∨ s.handler = .processing

structure PipeOk (s : Pipe M) : Prop where
  awake : Awake s
  flushed : s.handler = .reading true → s.mqueue = []
  chars : ∀ b ∈ s.bytes, b.char = ATM_PIPE_NCHAR
  fresh : ∀ b ∈ s.bytes, s.emptied ≤ b.number
  counted : s.emptied ≤ s.written
  reported : s.handler = .idle ∨ s.handler = .leaving → s.bytes ≠ [] → s.edge = true

theorem new_ok : PipeOk (atm_pipe_new : Pipe M) where
  awake := fun some => absurd rfl some
  flushed := fun _ => rfl
  chars := fun _ member => absurd member List.not_mem_nil
  fresh := fun _ member => absurd member List.not_mem_nil
  counted := le_rfl
  reported := fun _ some => absurd rfl some

/-- Everything that a step can be. -/
theorem step_cases (done : step capacity s l = .ok s') :
    (∃ t m, l = .push t m ∧ s.handler.locked = false ∧ s' = notify_push s t m) ∨
    (∃ t, l = .write t ∧ t ∈ s.between ∧ s' = notify_write capacity s t) ∨
    (l = .wait ∧ s.handler = .idle ∧ s.edge = true ∧ s' = { s with handler := .entered, edge := false }) ∨
    (l = .lock ∧ s.handler = .entered ∧ s' = { s with handler := .reading false }) ∨
    (∃ processed, l = .read ∧ s.handler = .reading processed ∧ s' = handle_read s processed) ∨
    (l = .pop ∧ s.handler = .processing ∧ s' = process_msgs s) ∨
    (l = .unlock ∧ s.handler = .leaving ∧ s' = { s with handler := .idle }) := by
  cases l with
  | push t m =>
    simp only [step] at done
    split at done
    · rename_i enabled
      cases done
      exact .inl ⟨t,m,rfl,enabled.1,rfl⟩
    · cases done
  | write t =>
    simp only [step] at done
    split at done
    · rename_i member
      cases done
      exact .inr (.inl ⟨t,rfl,member,rfl⟩)
    · cases done
  | wait =>
    simp only [step] at done
    split at done
    · rename_i enabled
      cases done
      exact .inr (.inr (.inl ⟨rfl,enabled.1,enabled.2,rfl⟩))
    · cases done
  | lock =>
    simp only [step] at done
    split at done
    · rename_i entered
      cases done
      exact .inr (.inr (.inr (.inl ⟨rfl,entered,rfl⟩)))
    · cases done
  | read =>
    simp only [step] at done
    split at done
    · rename_i processed reading
      cases done
      exact .inr (.inr (.inr (.inr (.inl ⟨processed,rfl,reading,rfl⟩))))
    · cases done
  | pop =>
    simp only [step] at done
    split at done
    · rename_i processing
      cases done
      exact .inr (.inr (.inr (.inr (.inr (.inl ⟨rfl,processing,rfl⟩)))))
    · cases done
  | unlock =>
    simp only [step] at done
    split at done
    · rename_i leaving
      cases done
      exact .inr (.inr (.inr (.inr (.inr (.inr ⟨rfl,leaving,rfl⟩)))))
    · cases done

theorem handle_read_nil {processed : Bool} (unread : s.bytes = []) :
    handle_read s processed = { s with emptied := s.written, handler := .leaving } := by
  rw [handle_read,unread]

theorem handle_read_cons {b : Sent} {rest : List Sent} {processed : Bool} (unread : s.bytes = b :: rest)
    (notify : b.char = ATM_PIPE_NCHAR) :
    handle_read s processed = { s with bytes := rest, handler := if processed then s.handler else .processing } := by
  rw [handle_read,unread]
  dsimp only
  cases processed with
  | true => rfl
  | false => rw [if_neg (by decide),if_pos notify]; rfl

theorem process_msgs_nil (queue : s.mqueue = []) : process_msgs s = { s with handler := .reading true } := by
  rw [process_msgs,queue]
  rfl

theorem process_msgs_cons {msg : M} {rest : List M} (queue : s.mqueue = msg :: rest) :
    process_msgs s = { s with mqueue := rest, called := s.called ++ [msg] } := by
  rw [process_msgs,queue]
  rfl

/-! ### What the steps keep -/

theorem PipeOk.awake_outside (ok : PipeOk s) (outside : s.handler ≠ .processing) (queued : s.mqueue ≠ []) :
    s.between ≠ [] ∨ s.bytes ≠ [] := by
  rcases ok.awake queued with waiting | some | processing
  · exact .inl waiting
  · exact .inr some
  · exact absurd processing outside

theorem push_ok (ok : PipeOk s) (free : s.handler.locked = false) (t : Nat) (m : M) : PipeOk (notify_push s t m) where
  awake := fun _ => .inl (List.cons_ne_nil _ _)
  flushed := fun reading => by
    rw [show s.handler = .reading true from reading] at free
    cases free
  chars := ok.chars
  fresh := ok.fresh
  counted := ok.counted
  reported := ok.reported

/-- A full pipe holds a byte, so that a failed write loses nothing. -/
theorem write_ok (positive : 0 < capacity) (ok : PipeOk s) (t : Nat) : PipeOk (notify_write capacity s t) := by
  unfold notify_write
  dsimp only
  by_cases room : s.bytes.length < capacity
  · rw [if_pos room]
    refine ⟨fun _ => .inr (.inl (by simp)),ok.flushed,?_,?_,Nat.le_succ_of_le ok.counted,fun _ _ => rfl⟩
    · intro b member
      rcases List.mem_append.mp member with old | new
      · exact ok.chars b old
      · rw [List.mem_singleton.mp new]
    · intro b member
      rcases List.mem_append.mp member with old | new
      · exact ok.fresh b old
      · rw [List.mem_singleton.mp new]
        exact ok.counted
  · rw [if_neg room]
    have some : s.bytes ≠ [] := by
      rw [← List.length_pos_iff]
      omega
    exact ⟨fun _ => .inr (.inl some),ok.flushed,ok.chars,ok.fresh,ok.counted,ok.reported⟩

theorem read_ok (ok : PipeOk s) {processed : Bool} (reading : s.handler = .reading processed) :
    PipeOk (handle_read s processed) := by
  cases unread : s.bytes with
  | nil =>
    -- No byte: either the queue was emptied in this call or a notifier has still to write.
    rw [handle_read_nil unread]
    refine ⟨fun queued => ?_,fun absent => (by cases absent),ok.chars,?_,le_rfl,fun _ some => absurd unread some⟩
    · have outside : s.handler ≠ .processing := by
        rw [reading]
        exact fun same => by cases same
      exact .inl ((ok.awake_outside outside queued).resolve_right (fun some => some unread))
    · intro b member
      rw [show s.bytes = [] from unread] at member
      exact absurd member List.not_mem_nil
  | cons b rest =>
    have later : ∀ x ∈ rest, x ∈ s.bytes := fun x member => by
      rw [unread]
      exact List.mem_cons_of_mem _ member
    rw [handle_read_cons unread (ok.chars b (by rw [unread]; exact List.mem_cons_self))]
    cases processed with
    | true =>
      have empty := ok.flushed reading
      refine ⟨fun queued => absurd empty queued,fun _ => empty,fun x member => ok.chars x (later x member),
        fun x member => ok.fresh x (later x member),ok.counted,fun outside => ?_⟩
      simp [reading] at outside
    | false =>
      exact ⟨fun _ => .inr (.inr rfl),fun absent => (by cases absent),fun x member => ok.chars x (later x member),
        fun x member => ok.fresh x (later x member),ok.counted,fun outside => by simp at outside⟩

theorem pop_ok (ok : PipeOk s) (processing : s.handler = .processing) : PipeOk (process_msgs s) := by
  cases queue : s.mqueue with
  | nil =>
    rw [process_msgs_nil queue]
    exact ⟨fun queued => absurd queue queued,fun _ => queue,ok.chars,ok.fresh,ok.counted,fun outside => by simp at outside⟩
  | cons msg rest =>
    rw [process_msgs_cons queue]
    exact ⟨fun _ => .inr (.inr processing),fun reading => by simp [processing] at reading,ok.chars,ok.fresh,ok.counted,
      fun outside => by simp [processing] at outside⟩

theorem step_ok (positive : 0 < capacity) (ok : PipeOk s) (done : step capacity s l = .ok s') : PipeOk s' := by
  rcases step_cases done with ⟨t,m,_,free,rfl⟩ | ⟨t,_,_,rfl⟩ | ⟨_,idle,_,rfl⟩ | ⟨_,entered,rfl⟩ |
    ⟨processed,_,reading,rfl⟩ | ⟨_,processing,rfl⟩ | ⟨_,leaving,rfl⟩
  · exact push_ok ok free t m
  · exact write_ok positive ok t
  · refine ⟨fun queued => ?_,fun absent => (by cases absent),ok.chars,ok.fresh,ok.counted,fun outside => by simp at outside⟩
    exact (ok.awake_outside (by rw [idle]; decide) queued).imp_right .inl
  · refine ⟨fun queued => ?_,fun absent => (by cases absent),ok.chars,ok.fresh,ok.counted,fun outside => by simp at outside⟩
    exact (ok.awake_outside (by rw [entered]; decide) queued).imp_right .inl
  · exact read_ok ok reading
  · exact pop_ok ok processing
  · refine ⟨fun queued => ?_,fun absent => (by cases absent),ok.chars,ok.fresh,ok.counted,
      fun _ some => ok.reported (.inr leaving) some⟩
    exact (ok.awake_outside (by rw [leaving]; decide) queued).imp_right .inl

/-- A step runs at most the callback of the first message, and queues only what it pushes. -/
theorem step_order (done : step capacity s l = .ok s') :
    s'.called ++ s'.mqueue = s.called ++ s.mqueue ++ l.pushes.toList := by
  rcases step_cases done with ⟨t,m,rfl,_,rfl⟩ | ⟨t,rfl,_,rfl⟩ | ⟨rfl,_,_,rfl⟩ | ⟨rfl,_,rfl⟩ |
    ⟨processed,rfl,_,rfl⟩ | ⟨rfl,_,rfl⟩ | ⟨rfl,_,rfl⟩
  · exact (List.append_assoc ..).symm
  · rw [notify_write]
    dsimp only
    split
    · exact (List.append_nil _).symm
    · exact (List.append_nil _).symm
  · exact (List.append_nil _).symm
  · exact (List.append_nil _).symm
  · rw [handle_read]
    split
    · exact (List.append_nil _).symm
    · dsimp only
      split
      · exact (List.append_nil _).symm
      · split
        · exact (List.append_nil _).symm
        · exact (List.append_nil _).symm
  · cases queue : s.mqueue with
    | nil => simp [process_msgs_nil queue,queue,Label.pushes]
    | cons msg rest => simp [process_msgs_cons queue,Label.pushes]
  · exact (List.append_nil _).symm

/-! ### The steps that are left -/

def Handler.work : Handler → Nat
  | .idle => 0
  | .leaving => 1
  | .reading true => 2
  | .reading false => 3
  | .processing => 3
  | .entered => 4

/-- A bound for the steps that can follow without a push: a notifier that has still to write can add a byte and a
    report, and a report one call of the handler. -/
def work (s : Pipe M) : Nat :=
  7 * s.between.length + s.bytes.length + s.mqueue.length + (if s.edge then 5 else 0) + s.handler.work

theorem step_work (ok : PipeOk s) (done : step capacity s l = .ok s') (quiet : l.pushes = none) : work s' < work s := by
  rcases step_cases done with ⟨t,m,rfl,_,rfl⟩ | ⟨t,_,waiting,rfl⟩ | ⟨_,idle,edge,rfl⟩ | ⟨_,entered,rfl⟩ |
    ⟨processed,_,reading,rfl⟩ | ⟨_,processing,rfl⟩ | ⟨_,leaving,rfl⟩
  · cases quiet
  · have fewer := List.length_erase_of_mem waiting
    have positive := List.length_pos_of_mem waiting
    rw [notify_write]
    dsimp only
    split
    · simp only [work,List.length_append,List.length_singleton,↓reduceIte]
      split <;> omega
    · simp only [work]
      omega
  · simp only [work,idle,edge,Handler.work,↓reduceIte,Bool.false_eq_true]
    omega
  · simp only [work,entered,Handler.work]
    omega
  · cases unread : s.bytes with
    | nil =>
      rw [handle_read_nil unread]
      cases processed with
      | true => simp only [work,reading,Handler.work]; omega
      | false => simp only [work,reading,Handler.work]; omega
    | cons b rest =>
      rw [handle_read_cons unread (ok.chars b (by rw [unread]; exact List.mem_cons_self))]
      cases processed with
      | true => simp only [work,reading,unread,Handler.work,List.length_cons,↓reduceIte]; omega
      | false => simp only [work,reading,unread,Handler.work,List.length_cons,Bool.false_eq_true,↓reduceIte]; omega
  · cases queue : s.mqueue with
    | nil =>
      rw [process_msgs_nil queue]
      simp only [work,processing,Handler.work]
      omega
    | cons msg rest =>
      rw [process_msgs_cons queue]
      simp only [work,queue,List.length_cons]
      omega
  · simp only [work,leaving,Handler.work]
    omega

/-- While a message is queued, a notifier can write or the main loop can go on. -/
theorem queued_goes_on (capacity : Nat) (ok : PipeOk s) (queued : s.mqueue ≠ []) :
    ∃ l s', step capacity s l = .ok s' ∧ l.pushes = none := by
  cases at_ : s.handler with
  | entered => exact ⟨.lock,_,by rw [step,if_pos at_],rfl⟩
  | reading processed => exact ⟨.read,handle_read s processed,by simp only [step,at_],rfl⟩
  | processing => exact ⟨.pop,_,by rw [step,if_pos at_],rfl⟩
  | leaving => exact ⟨.unlock,_,by rw [step,if_pos at_],rfl⟩
  | idle =>
    rcases ok.awake queued with waiting | unread | processing
    · obtain ⟨t,_,member⟩ := List.exists_cons_of_ne_nil waiting
      exact ⟨.write t,_,by rw [step,if_pos (by rw [member]; exact List.mem_cons_self)],rfl⟩
    · exact ⟨.wait,_,by rw [step,if_pos ⟨at_,ok.reported (.inl at_) unread⟩],rfl⟩
    · rw [at_] at processing
      cases processing

/-! ### Runs -/

theorem notified_append (ls ls' : List (Label M)) : notified (ls ++ ls') = notified ls ++ notified ls' :=
  List.filterMap_append

theorem notified_singleton (l : Label M) : notified [l] = l.pushes.toList := by
  cases l <;> rfl

/-- After any run the invariant holds, and the callbacks have run in the order of the pushes. -/
theorem run_ok (positive : 0 < capacity) (ran : run (step capacity) atm_pipe_new ls = .ok s) :
    PipeOk s ∧ s.called ++ s.mqueue = notified ls := by
  refine run_keeps (P := fun ls s => PipeOk s ∧ s.called ++ s.mqueue = notified ls) ⟨new_ok,rfl⟩ ?_ ran
  rintro pre l t u ⟨ok,order⟩ done
  refine ⟨step_ok positive ok done,?_⟩
  rw [step_order done,order,notified_append,notified_singleton]

theorem run_work (positive : 0 < capacity) (ok : PipeOk s) (ran : run (step capacity) s ls = .ok s')
    (quiet : notified ls = []) : ls.length ≤ work s := by
  induction ls generalizing s with
  | nil => exact Nat.zero_le _
  | cons l ls ih =>
    obtain ⟨t,first,later⟩ := bind_eq_ok.mp (run_cons (step capacity) s l ls ▸ ran)
    have both := List.append_eq_nil_iff.mp ((notified_append [l] ls).symm.trans quiet)
    have none : l.pushes = none := by simpa [notified_singleton] using both.1
    have lower := step_work ok first none
    have rest := ih (step_ok positive ok first) later both.2
    rw [List.length_cons]
    omega

/-- What a run of notifiers and the main loop has delivered. -/
structure Delivered (capacity : Nat) (ls : List (Label M)) (s : Pipe M) : Prop where
  /-- The callbacks have run in push order, each once; what is missing is queued. -/
  order : s.called ++ s.mqueue = notified ls
  /-- A queued message without a notifier in front of its write is reported by an unread byte. -/
  awake : s.mqueue ≠ [] → s.between = [] → s.handler = .idle →
    s.edge = true ∧ ∃ b ∈ s.bytes, s.emptied ≤ b.number
  /-- Without another push the run ends. -/
  ends : ∀ ls' s', run (step capacity) s ls' = .ok s' → notified ls' = [] → ls'.length ≤ work s
  /-- Where no thread and not the main loop can go on, every callback has run. -/
  complete : (∀ l s', step capacity s l = .ok s' → l.pushes ≠ none) → s.called = notified ls

theorem delivered (positive : 0 < capacity) (ran : run (step capacity) atm_pipe_new ls = .ok s) :
    Delivered capacity ls s := by
  obtain ⟨ok,order⟩ := run_ok positive ran
  refine ⟨order,fun queued written idle => ?_,fun ls' s' later quiet => run_work positive ok later quiet,fun stuck => ?_⟩
  · rcases ok.awake queued with waiting | unread | processing
    · exact absurd written waiting
    · obtain ⟨b,rest,bytes⟩ := List.exists_cons_of_ne_nil unread
      have member : b ∈ s.bytes := by
        rw [bytes]
        exact List.mem_cons_self
      exact ⟨ok.reported (.inl idle) unread,b,member,ok.fresh b member⟩
    · rw [idle] at processing
      cases processing
  · by_cases queued : s.mqueue = []
    · rw [← order,queued,List.append_nil]
    · obtain ⟨l,s',done,none⟩ := queued_goes_on capacity ok queued
      exact absurd none (stuck l s' done)

/-- One drain serves both notifies; the byte of the second is thrown away. -/
theorem delivered_two : ∃ s, run (step 65536) atm_pipe_new
    [.push 0 10,.push 1 20,.write 0,.wait,.lock,.read,.pop,.write 1,.pop,.pop,.read,.read,.unlock] = .ok s ∧
      s.called = [10,20] ∧ Delivered 65536
        [.push 0 10,.push 1 20,.write 0,.wait,.lock,.read,.pop,.write 1,.pop,.pop,.read,.read,.unlock] s :=
  ⟨⟨[],[],2,true,2,.idle,[],[10,20]⟩,by decide,rfl,delivered (by decide) (by decide)⟩

end AtmCache.Pipes
