import AtmCache.ListLinks

/-!
# Lists are sequences

A run of calls on any number of lists is the run of the same calls on sequences. In every state the
links of a list lead from its head through the sequence, and backwards from its tail; its
size is the length of the sequence as an `atm_uint_t`.
-/
namespace AtmCache.Lists
open Heap Links Runs

variable {V H : Type}

/-- A list as it is meant to be. -/
structure Seq (V H : Type) where
  v_type : Option (T V H)
  free_type : Nat
  vals : List V

/-- All lists, the values that were freed and the answers of the calls. -/
structure Seqs (V H : Type) where
  lists : List (Seq V H)
  freed : List (Option V)
  answers : List (Answer V)

/-- The values of a list; NULL has none. -/
def Seqs.vals (q : Seqs V H) (list : Option Addr) : List V :=
  match list with
  | none => []
  | some l => (q.lists[l]?).elim [] Seq.vals

def Seqs.set_vals (q : Seqs V H) (list : Option Addr) (vs : List V) : Seqs V H :=
  match list with
  | none => q
  | some l => { q with lists := q.lists.modify l (fun w => { w with vals := vs }) }

/-- A value that the type of a list matches with a hint. -/
def Seqs.hit (q : Seqs V H) (list : Option Addr) (hint : H) (v : V) : Bool :=
  match list.bind (fun l => (q.lists[l]?).bind (fun w => w.v_type.bind T.match_)) with
  | some f => f (some v) hint
  | none => false

/-- The values that are freed when a list drops some. -/
def Seqs.drops (q : Seqs V H) (list : Option Addr) (vs : List V) : List (Option V) :=
  match list.bind (fun l => q.lists[l]?) with
  | some w => if w.free_type = ATM_FREE_DEEP then vs.map some else []
  | none => []

def Seqs.answer (q : Seqs V H) (a : Answer V) : Seqs V H := { q with answers := q.answers ++ [a] }

def seq_step (q : Seqs V H) : Op V H → Seqs V H
  | .new v_type f_type => { q with lists := q.lists ++ [⟨v_type,f_type,[]⟩] }
  | .push list val => q.set_vals list (q.vals list ++ [val])
  | .lpop list => (q.set_vals list (q.vals list).tail).answer (.value (q.vals list).head?)
  | .rpop list => (q.set_vals list (q.vals list).dropLast).answer (.value (q.vals list).getLast?)
  | .del list hint =>
    { q.set_vals list ((q.vals list).eraseP (q.hit list hint)) with
      freed := q.freed ++ q.drops list ((q.vals list).find? (q.hit list hint)).toList }
  | .clear list => { q.set_vals list [] with freed := q.freed ++ q.drops list (q.vals list) }
  | .lpeek list => q.answer (.value (q.vals list).head?)
  | .rpeek list => q.answer (.value (q.vals list).getLast?)
  | .iterate list => q.answer (.values (q.vals list))

/-- The sequences after some calls. -/
def seq_run (ops : List (Op V H)) : Seqs V H := ops.foldl seq_step ⟨[],[],[]⟩

/-! ### What a program promises -/

/-- The list that is called. -/
def Op.list : Op V H → Option Addr
  | .new _ _ => none
  | .push list _ => list
  | .lpop list => list
  | .rpop list => list
  | .del list _ => list
  | .clear list => list
  | .lpeek list => list
  | .rpeek list => list
  | .iterate list => list

/-- Calls are on NULL or on a list that was made. A list with values is searched when its type has
    the function that compares, and one that frees its values loses some when it has the one that frees. -/
def Given (s : State V H) (op : Op V H) : Prop :=
  (∀ l, op.list = some l → l < s.mem.lists.length) ∧
    match op with
    | .del (some l) _ => ∀ lst, get s.mem.lists l = some lst → lst.head ≠ none →
      (∃ t f, lst.v_type = some t ∧ t.match_ = some f) ∧ (lst.free_type = ATM_FREE_DEEP → HasFree lst)
    | .clear (some l) => ∀ lst, get s.mem.lists l = some lst → lst.head ≠ none → lst.free_type = ATM_FREE_DEEP → HasFree lst
    | _ => True

/-! ### One call -/

/-- A list of a memory is a sequence. -/
def Is (m : Mem V H) (l : Addr) (w : Seq V H) : Prop :=
  ∃ lst ps, Rep m l lst ps ∧ ps.map Prod.snd = w.vals ∧ lst.v_type = w.v_type ∧ lst.free_type = w.free_type

/-- All lists of a memory are sequences. -/
structure Are (m : Mem V H) (lists : List (Seq V H)) : Prop where
  count : m.lists.length = lists.length
  each : ∀ l w, lists[l]? = some w → Is m l w

structure Refines (s : State V H) (q : Seqs V H) : Prop where
  lists : Are s.mem q.lists
  freed : s.mem.freed = q.freed
  answers : s.answers = q.answers

variable {m m' : Mem V H} {l : Addr} {lst : Lst V H} {ps : List (Addr × V)} {lists : List (Seq V H)} {w : Seq V H} {vs : List V}

theorem Are.other (are : Are m lists) {k : Addr} (elsewhere : Elsewhere l m m') (other : k ≠ l) {x : Seq V H}
    (found : lists[k]? = some x) : Is m' k x := by
  obtain ⟨lst,ps,rep,same⟩ := are.each k x found
  exact ⟨lst,ps,elsewhere.rep other rep,same⟩

/-- A call on one list makes another sequence of it. -/
theorem Are.set (are : Are m lists) (found : lists[l]? = some w) (rep : Rep m' l lst ps) (vals : ps.map Prod.snd = vs)
    (kind : lst.v_type = w.v_type ∧ lst.free_type = w.free_type) (elsewhere : Elsewhere l m m') :
    Are m' (lists.modify l (fun w => { w with vals := vs })) := by
  refine ⟨by rw [elsewhere.count,are.count,List.length_modify],fun k x here => ?_⟩
  rw [List.getElem?_modify] at here
  by_cases same : l = k
  · subst same
    rw [found] at here
    simp only [↓reduceIte,Option.map_eq_map,Option.map_some,Option.some.injEq] at here
    subst here
    exact ⟨lst,ps,rep,vals,kind⟩
  · simp only [same,↓reduceIte,Option.map_eq_map,Option.map_id'] at here
    exact are.other elsewhere (Ne.symm same) here

/-- A new list is behind the others. -/
theorem Are.new (are : Are m lists) (v_type : Option (T V H)) (f_type : Nat) :
    Are (atm_list_new m v_type f_type).1 (lists ++ [⟨v_type,f_type,[]⟩]) := by
  refine ⟨?_,fun k x here => ?_⟩
  · rw [List.length_append,← are.count]
    exact alloc_length ..
  · by_cases old : k < lists.length
    · rw [List.getElem?_append_left old] at here
      obtain ⟨lst,ps,rep,same⟩ := are.each k x here
      exact ⟨lst,ps,⟨(get_alloc_old _ (get_lt rep.found)).trans rep.found,rep.seg,rep.nodup,rep.head,rep.tail,rep.size⟩,same⟩
    · obtain ⟨inside,_⟩ := List.getElem?_eq_some_iff.mp here
      have bound : k < lists.length + 1 := by simpa using inside
      have last : k = lists.length := Nat.le_antisymm (Nat.le_of_lt_succ bound) (Nat.not_lt.mp old)
      rw [last,List.getElem?_concat_length] at here
      cases here
      have found : get (atm_list_new m v_type f_type).1.lists k = some ⟨f_type,v_type,none,none,0⟩ := by
        rw [last,← are.count]
        exact get_alloc_new m.lists _
      exact ⟨_,[],⟨found,trivial,List.nodup_nil,rfl,rfl,rfl⟩,rfl,rfl,rfl⟩

theorem Rep.head_ne (rep : Rep m l lst ps) (full : ps ≠ []) : lst.head ≠ none :=
  fun empty => full (first_eq_none.mp (rep.head.symm.trans empty))

variable {s : State V H} {q : Seqs V H}

theorem vals_known (found : q.lists[l]? = some w) : q.vals (some l) = w.vals := by
  rw [Seqs.vals,found]
  rfl

theorem drops_known (found : q.lists[l]? = some w) (vs : List V) :
    q.drops (some l) vs = if w.free_type = ATM_FREE_DEEP then vs.map some else [] := by
  rw [Seqs.drops,Option.bind_some,found]

theorem Refines.answer (refines : Refines s q) (a : Answer V) : Refines { s with answers := s.answers ++ [a] } (q.answer a) :=
  ⟨refines.lists,refines.freed,congrArg (· ++ [a]) refines.answers⟩

/-- A list that was made is one of the sequences. -/
theorem Refines.known (refines : Refines s q) (inside : l < s.mem.lists.length) :
    ∃ w lst ps, q.lists[l]? = some w ∧ Rep s.mem l lst ps ∧ ps.map Prod.snd = w.vals ∧
      lst.v_type = w.v_type ∧ lst.free_type = w.free_type := by
  rw [refines.lists.count] at inside
  have found := List.getElem?_eq_getElem inside
  obtain ⟨lst,ps,rep,vals,kind⟩ := refines.lists.each l _ found
  exact ⟨_,lst,ps,found,rep,vals,kind⟩

/-- A call on one list that frees some values. -/
theorem Refines.set (refines : Refines s q) (found : q.lists[l]? = some w) (rep : Rep m' l lst ps)
    (kind : lst.v_type = w.v_type ∧ lst.free_type = w.free_type) (elsewhere : Elsewhere l s.mem m')
    {gone : List (Option V)} (freed : m'.freed = s.mem.freed ++ gone) :
    Refines { s with mem := m' } { q.set_vals (some l) (ps.map Prod.snd) with freed := q.freed ++ gone } :=
  ⟨refines.lists.set found rep rfl kind elsewhere,by rw [freed,refines.freed],refines.answers⟩

/-- One that frees none. -/
theorem Refines.set_only (refines : Refines s q) (found : q.lists[l]? = some w) (rep : Rep m' l lst ps)
    (kind : lst.v_type = w.v_type ∧ lst.free_type = w.free_type) (elsewhere : Elsewhere l s.mem m')
    (freed : m'.freed = s.mem.freed) : Refines { s with mem := m' } (q.set_vals (some l) (ps.map Prod.snd)) :=
  ⟨refines.lists.set found rep rfl kind elsewhere,freed.trans refines.freed,refines.answers⟩

/-- A new list, and a call on NULL. -/
theorem step_null (refines : Refines s q) {op : Op V H} (null : op.list = none) :
    ∃ u, step s op = .ok u ∧ Refines u (seq_step q op) := by
  have unchanged : Refines s { q with freed := q.freed ++ [] } := by
    rw [List.append_nil]
    exact refines
  cases op with
  | new v_type f_type => exact ⟨_,rfl,refines.lists.new v_type f_type,refines.freed,refines.answers⟩
  | push list val => cases null; exact ⟨s,rfl,refines⟩
  | lpop list => cases null; exact ⟨_,rfl,refines.answer (.value none)⟩
  | rpop list => cases null; exact ⟨_,rfl,refines.answer (.value none)⟩
  | del list hint => cases null; exact ⟨s,rfl,unchanged⟩
  | clear list => cases null; exact ⟨s,rfl,unchanged⟩
  | lpeek list => cases null; exact ⟨_,rfl,refines.answer (.value none)⟩
  | rpeek list => cases null; exact ⟨_,rfl,refines.answer (.value none)⟩
  | iterate list => cases null; exact ⟨_,rfl,refines.answer (.values [])⟩

/-- Each call does to its list what it does to the sequence. -/
theorem step_refines (refines : Refines s q) {op : Op V H} (given : Given s op) :
    ∃ u, step s op = .ok u ∧ Refines u (seq_step q op) := by
  cases called : op.list with
  | none => exact step_null refines called
  | some l =>
    obtain ⟨w,lst,ps,found,rep,vals,kind⟩ := refines.known (given.1 l called)
    cases op with
    | new v_type f_type => cases called
    | push list val =>
      cases called
      obtain ⟨m',lst',b,pushed,rep',same,freed,elsewhere⟩ := push_ok rep val
      have after := refines.set_only found rep' ⟨same.1.trans kind.1,same.2.trans kind.2⟩ elsewhere freed
      rw [List.map_append,vals] at after
      refine ⟨{ s with mem := m' },by simp only [step,pushed,ok_bind,pure_eq_ok],?_⟩
      rw [seq_step,vals_known found]
      exact after
    | lpop list =>
      cases called
      obtain ⟨m',lst',popped,rep',same,kept⟩ := lpop_ok rep
      have after := refines.set_only found rep' ⟨same.1.trans kind.1,same.2.trans kind.2⟩ kept.elsewhere kept.freed
      rw [vals] at popped
      rw [List.map_tail,vals] at after
      refine ⟨⟨m',s.answers ++ [.value w.vals.head?]⟩,by simp only [step,popped,ok_bind,pure_eq_ok],?_⟩
      rw [seq_step,vals_known found]
      exact after.answer (.value w.vals.head?)
    | rpop list =>
      cases called
      obtain ⟨m',lst',popped,rep',same,kept⟩ := rpop_ok rep
      have after := refines.set_only found rep' ⟨same.1.trans kind.1,same.2.trans kind.2⟩ kept.elsewhere kept.freed
      rw [vals] at popped
      rw [List.map_dropLast,vals] at after
      refine ⟨⟨m',s.answers ++ [.value w.vals.getLast?]⟩,by simp only [step,popped,ok_bind,pure_eq_ok],?_⟩
      rw [seq_step,vals_known found]
      exact after.answer (.value w.vals.getLast?)
    | del list hint =>
      cases called
      obtain ⟨m',lst',qs,deleted,rep',same,left,freed,elsewhere⟩ := del_ok rep hint
        (fun full => given.2 lst rep.found (rep.head_ne full))
      have same_hits : q.hit (some l) hint = hits lst hint := by
        funext v
        rw [Seqs.hit,Option.bind_some,found,Option.bind_some,← kind.1]
        rfl
      have after := refines.set found rep' ⟨same.1.trans kind.1,same.2.trans kind.2⟩ elsewhere freed
      rw [left,vals] at after
      refine ⟨{ s with mem := m' },by simp only [step,deleted,ok_bind,pure_eq_ok],?_⟩
      rw [seq_step,vals_known found,same_hits,drops_known found,← kind.2]
      exact after
    | clear list =>
      cases called
      obtain ⟨m',lst',cleared,rep',same,freed,elsewhere⟩ := clear_loop_ok (rounds s.mem) rep rep.rounds
        (fun full => given.2 lst rep.found (rep.head_ne full))
      have whole : atm_list_clear s.mem (some l) = .ok m' := by
        rw [atm_list_clear,if_neg (fun same => by cases same)]
        exact cleared
      have after := refines.set found rep' ⟨same.1.trans kind.1,same.2.trans kind.2⟩ elsewhere freed
      rw [vals] at after
      refine ⟨{ s with mem := m' },by simp only [step,whole,ok_bind,pure_eq_ok],?_⟩
      rw [seq_step,vals_known found,drops_known found,← kind.2]
      exact after
    | lpeek list =>
      cases called
      have peeked := lpeek_ok rep
      rw [vals] at peeked
      refine ⟨{ s with answers := s.answers ++ [.value w.vals.head?] },by simp only [step,peeked,ok_bind,pure_eq_ok],?_⟩
      rw [seq_step,vals_known found]
      exact refines.answer (.value w.vals.head?)
    | rpeek list =>
      cases called
      have peeked := rpeek_ok rep
      rw [vals] at peeked
      refine ⟨{ s with answers := s.answers ++ [.value w.vals.getLast?] },by simp only [step,peeked,ok_bind,pure_eq_ok],?_⟩
      rw [seq_step,vals_known found]
      exact refines.answer (.value w.vals.getLast?)
    | iterate list =>
      cases called
      have visited : iterate s.mem (some l) = .ok w.vals := by
        rw [iterate,atm_list_iter_new,deref_ok rep.found,ok_bind,pure_eq_ok,ok_bind,rep.head,← vals]
        exact iterate_loop_ok (rounds s.mem) rep.seg rep.rounds
      refine ⟨{ s with answers := s.answers ++ [.values w.vals] },by simp only [step,visited,ok_bind,pure_eq_ok],?_⟩
      rw [seq_step,vals_known found]
      exact refines.answer (.values w.vals)

/-! ### Runs -/

/-- The value of an entry and the entry that its link leads to. -/
def link (side : Entry V → Option Addr) (m : Mem V H) (a : Addr) : Option (V × Option Addr) :=
  (get m.entries a).bind (fun e => e.val.map (fun v => (v,side e)))

/-- What a list shows of a sequence. -/
structure Shows (m : Mem V H) (lst : Lst V H) (vs : List V) : Prop where
  forwards : Path (link Entry.next m) lst.head vs
  backwards : Path (link Entry.prev m) lst.tail vs.reverse
  size : lst.size = u32 vs.length
  ends : lst.head = none ↔ lst.tail = none

/-- The lists show the sequences, and the same values were freed and answered. -/
structure Agrees (s : State V H) (q : Seqs V H) : Prop where
  count : s.mem.lists.length = q.lists.length
  shows : ∀ l w, q.lists[l]? = some w → ∃ lst, get s.mem.lists l = some lst ∧ Shows s.mem lst w.vals
  freed : s.mem.freed = q.freed
  answers : s.answers = q.answers

theorem link_look (side : Entry V → Option Addr) {n : Node Addr V} (found : look m l a = some n) :
    link side m a = some (n.val,side ⟨some l,some n.val,n.prev,n.next⟩) := by
  rw [link,look_some.mp found]
  rfl

theorem Rep.shows (rep : Rep m l lst ps) : Shows m lst (ps.map Prod.snd) := by
  refine ⟨?_,?_,?_,?_⟩
  · rw [rep.head]
    refine path_mono (fun a x linked => ?_) (forward rep.seg)
    obtain ⟨n,found,rfl⟩ := Option.map_eq_some_iff.mp linked
    exact link_look Entry.next found
  · rw [rep.tail]
    refine path_mono (fun a x linked => ?_) (backward rep.seg)
    obtain ⟨n,found,rfl⟩ := Option.map_eq_some_iff.mp linked
    exact link_look Entry.prev found
  · rw [rep.size,List.length_map]
  · rw [rep.head,rep.tail,first_eq_none,last_eq_none]

theorem Refines.agrees (refines : Refines s q) : Agrees s q := by
  refine ⟨refines.lists.count,fun l w found => ?_,refines.freed,refines.answers⟩
  obtain ⟨lst,ps,rep,vals,_⟩ := refines.lists.each l w found
  exact ⟨lst,rep.found,vals ▸ rep.shows⟩

theorem no_lists_refines : Refines (no_lists : State V H) (seq_run []) :=
  ⟨⟨rfl,fun l w found => by cases found⟩,rfl,rfl⟩

/-- Every run succeeds, and after each of its calls every list is the sequence that the calls make of it. -/
theorem lists_are_sequences {ops : List (Op V H)} (each : EachStep step no_lists ops Given) :
    (∃ s, run step no_lists ops = .ok s) ∧ Always step no_lists ops (fun pre s => Agrees s (seq_run pre)) := by
  have progress : ∀ (pre : List (Op V H)) op s, Refines s (seq_run pre) → Given s op →
      ∃ u, step s op = .ok u ∧ Refines u (seq_run (pre ++ [op])) := by
    intro pre op s refines given
    rw [seq_run,List.foldl_append]
    exact step_refines refines given
  obtain ⟨returned,always⟩ := run_total_always no_lists_refines progress each
  exact ⟨returned,fun pre s inside ran => (always pre s inside ran).agrees⟩

/-- What a program promises is found out from the lists. -/
instance hasFreeDecidable (lst : Lst V H) : Decidable (HasFree lst) :=
  inferInstanceAs (Decidable (∃ t ∈ lst.v_type, t.free = true))

instance comparesDecidable (lst : Lst V H) : Decidable (∃ t f, lst.v_type = some t ∧ t.match_ = some f) :=
  decidable_of_iff ((lst.v_type.bind T.match_).isSome = true) (by
    rw [Option.isSome_iff_exists]
    simp only [Option.bind_eq_some_iff]
    exact ⟨fun ⟨f,t,typed,compares⟩ => ⟨t,f,typed,compares⟩,fun ⟨t,f,typed,compares⟩ => ⟨f,t,typed,compares⟩⟩)

instance givenDecidable (s : State V H) (op : Op V H) : Decidable (Given s op) :=
  have made : Decidable (∀ l, op.list = some l → l < s.mem.lists.length) :=
    inferInstanceAs (Decidable (∀ l ∈ op.list, l < s.mem.lists.length))
  match op with
  | .del (some l) _ => @instDecidableAnd _ _ made (inferInstanceAs (Decidable (∀ lst ∈ get s.mem.lists l, lst.head ≠ none →
      (∃ t f, lst.v_type = some t ∧ t.match_ = some f) ∧ (lst.free_type = ATM_FREE_DEEP → HasFree lst))))
  | .clear (some l) => @instDecidableAnd _ _ made (inferInstanceAs (Decidable (∀ lst ∈ get s.mem.lists l, lst.head ≠ none →
      lst.free_type = ATM_FREE_DEEP → HasFree lst)))
  | .del none _ => @instDecidableAnd _ _ made (.isTrue trivial)
  | .clear none => @instDecidableAnd _ _ made (.isTrue trivial)
  | .new _ _ => @instDecidableAnd _ _ made (.isTrue trivial)
  | .push _ _ => @instDecidableAnd _ _ made (.isTrue trivial)
  | .lpop _ => @instDecidableAnd _ _ made (.isTrue trivial)
  | .rpop _ => @instDecidableAnd _ _ made (.isTrue trivial)
  | .lpeek _ => @instDecidableAnd _ _ made (.isTrue trivial)
  | .rpeek _ => @instDecidableAnd _ _ made (.isTrue trivial)
  | .iterate _ => @instDecidableAnd _ _ made (.isTrue trivial)

/-- A list of numbers that are matched with the hint. -/
def numbers : T Nat Nat := ⟨some (fun val hint => val == some hint),true⟩

/-- Two lists: one loses a value from its middle and both its ends, and the other keeps its own. -/
def mixed : List (Op Nat Nat) :=
  [.new (some numbers) ATM_FREE_DEEP,.new none ATM_FREE_SHALLOW,.push (some 0) 5,.push (some 0) 7,.push (some 1) 7,
    .push (some 0) 8,.push (some 0) 9,.del (some 0) 7,.iterate (some 0),.lpop (some 0),.rpop (some 0),.lpeek (some 0),
    .rpeek (some 0),.clear (some 0),.iterate (some 1)]

theorem lists_are_sequences_mixed : EachStep step no_lists mixed Given ∧
    ((∃ s, run step no_lists mixed = .ok s) ∧ Always step no_lists mixed (fun pre s => Agrees s (seq_run pre))) ∧
      (seq_run mixed).answers = [.values [5,8,9],.value (some 5),.value (some 9),.value (some 8),.value (some 8),.values [7]] ∧
        (seq_run mixed).freed = [some 7,some 8] := by
  have each : EachStep step no_lists mixed Given := by decide +kernel
  exact ⟨each,lists_are_sequences each,rfl,rfl⟩

/-! ### Where a list is less than a sequence -/

/-- A list with the same value many times. -/
theorem pushes (n : Nat) : ∃ s : State Nat Nat,
    run step no_lists (.new none ATM_FREE_SHALLOW :: List.replicate n (.push (some 0) 7)) = .ok s ∧
      Refines s ⟨[⟨none,ATM_FREE_SHALLOW,List.replicate n 7⟩],[],[]⟩ := by
  induction n with
  | zero =>
    obtain ⟨u,made,refines⟩ := step_refines (no_lists_refines (V := Nat) (H := Nat)) (show Given _ (.new none ATM_FREE_SHALLOW) from
      ⟨(fun l called => by cases called),trivial⟩)
    exact ⟨u,by rw [List.replicate_zero,run_cons,made]; rfl,refines⟩
  | succ n ih =>
    obtain ⟨s,ran,refines⟩ := ih
    have inside : 0 < s.mem.lists.length := by rw [refines.lists.count]; exact Nat.one_pos
    obtain ⟨u,pushed,refines'⟩ := step_refines refines (show Given s (.push (some 0) 7) from
      ⟨(fun l called => by cases called; exact inside),trivial⟩)
    refine ⟨u,?_,?_⟩
    · rw [List.replicate_succ',← List.cons_append]
      exact (run_snoc_ok step).mpr ⟨s,ran,pushed⟩
    · rw [List.replicate_succ']
      exact refines'

/-- The size of a list with `2^32` values is 0. A delete on a list without the function that compares
    follows NULL, and clearing one that cannot free its values exits. -/
theorem size_wraps_and_types_lack :
    (∃ (s : State Nat Nat) (lst : Lst Nat Nat),
      run step no_lists (.new none ATM_FREE_SHALLOW :: List.replicate (2^32) (.push (some 0) 7)) = .ok s ∧
        get s.mem.lists 0 = some lst ∧ Path (link Entry.next s.mem) lst.head (List.replicate (2^32) 7) ∧ lst.size = 0) ∧
      run step (no_lists : State Nat Nat) [.new none ATM_FREE_SHALLOW,.push (some 0) 7,.del (some 0) 7] = .error .nullDeref ∧
      run step (no_lists : State Nat Nat) [.new none ATM_FREE_DEEP,.push (some 0) 7,.clear (some 0)] =
        .error (.exit "free is null will FREE_DEEP flag") := by
  refine ⟨?_,rfl,rfl⟩
  obtain ⟨s,ran,refines⟩ := pushes (2^32)
  obtain ⟨lst,found,shows⟩ := refines.agrees.shows 0 _ rfl
  refine ⟨s,lst,ran,found,shows.forwards,?_⟩
  rw [shows.size,List.length_replicate]
  rfl

end AtmCache.Lists
