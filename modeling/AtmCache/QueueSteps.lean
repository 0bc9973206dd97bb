import AtmCache.ListLinks
import AtmCache.QueueModel

/-!
# List operations that are not disturbed

The statements of `atm_list_push` and `atm_list_lpop`, one after the other with nothing in between, are these
functions (`push_completes`, `lpop_completes`). What was done so far is seen in the list only when the operation is
over, but the size already by the statement that changes it (`push_step_size`, `lpop_step_size`).
-/
namespace AtmCache.Queues
open Heap AtmCache.Lists Runs

variable {α : Type} {m m₁ m' : Store α} {v : α} {lst lst' : Lst α Unit} {f : Lst α Unit → Lst α Unit}

/-- The statements that are left of a push. -/
inductive PushCompletes (v : α) : Store α → PushStep → Store α → Prop where
  | last {m m' : Store α} {pc : PushStep} (did : push_step m v pc = .ok (m',none)) : PushCompletes v m pc m'
  | next {m n m' : Store α} {pc p : PushStep} (did : push_step m v pc = .ok (n,some p))
      (rest : PushCompletes v n p m') : PushCompletes v m pc m'

/-- The statements that are left of a pop, with its result. -/
inductive LpopCompletes : Store α → LpopStep → Store α → Option α → Prop where
  | last {m m' : Store α} {pc : LpopStep} {res : Option α} (did : lpop_step m pc = .ok (m',.res res)) : LpopCompletes m pc m' res
  | next {m n m' : Store α} {pc p : LpopStep} {res : Option α} (did : lpop_step m pc = .ok (n,.goto p))
      (rest : LpopCompletes n p m' res) : LpopCompletes m pc m' res

theorem PushCompletes.goes {pc : PushStep} (completes : PushCompletes v m pc m') : ∃ r, push_step m v pc = .ok r := by
  cases completes with
  | last did => exact ⟨_,did⟩
  | next did rest => exact ⟨_,did⟩

theorem PushCompletes.then {pc : PushStep} {next : Option PushStep} (completes : PushCompletes v m pc m')
    (did : push_step m v pc = .ok (m₁,next)) : (next = none ∧ m₁ = m') ∨ ∃ pc₁, next = some pc₁ ∧ PushCompletes v m₁ pc₁ m' := by
  cases completes with
  | last did' =>
    rw [did] at did'
    cases did'
    exact .inl ⟨rfl,rfl⟩
  | next did' rest =>
    rw [did] at did'
    cases did'
    exact .inr ⟨_,rfl,rest⟩

theorem LpopCompletes.goes {pc : LpopStep} {res : Option α} (completes : LpopCompletes m pc m' res) :
    ∃ r, lpop_step m pc = .ok r := by
  cases completes with
  | last did => exact ⟨_,did⟩
  | next did rest => exact ⟨_,did⟩

theorem LpopCompletes.then {pc : LpopStep} {next : Then α} {res : Option α} (completes : LpopCompletes m pc m' res)
    (did : lpop_step m pc = .ok (m₁,next)) :
    (next = .res res ∧ m₁ = m') ∨ ∃ pc₁, next = .goto pc₁ ∧ LpopCompletes m₁ pc₁ m' res := by
  cases completes with
  | last did' =>
    rw [did] at did'
    cases did'
    exact .inl ⟨rfl,rfl⟩
  | next did' rest =>
    rw [did] at did'
    cases did'
    exact .inr ⟨_,rfl,rest⟩

/-! ### The order of the statements -/

/-- The statements that are left at most. -/
def PushStep.left : PushStep → Nat
  | .new => 5
  | .test _ => 4
  | .head _ => 3
  | .first _ => 2
  | .next _ => 4
  | .prev _ => 3
  | .tail _ => 2
  | .size => 1

def LpopStep.left : LpopStep → Nat
  | .head => 7
  | .next _ => 6
  | .prev _ => 5
  | .tail _ => 4
  | .size _ => 3
  | .isol _ => 2
  | .val _ => 1

theorem push_step_next {pc pc₁ : PushStep} (did : push_step m v pc = .ok (m₁,some pc₁)) :
    pc₁ ≠ .new ∧ pc ≠ .size ∧ pc₁.left < pc.left := by
  cases pc with
  | new =>
    obtain ⟨_,_,rest⟩ := bind_eq_ok.mp did
    obtain ⟨lst,_,last⟩ := bind_eq_ok.mp rest
    cases last
    split
    · exact ⟨nofun,nofun,by simp [PushStep.left]⟩
    · exact ⟨nofun,nofun,by simp [PushStep.left]⟩
  | test entry =>
    obtain ⟨_,_,last⟩ := bind_eq_ok.mp did
    split at last
    · cases last
      exact ⟨nofun,nofun,by simp [PushStep.left]⟩
    · cases last
  | size =>
    obtain ⟨_,_,last⟩ := bind_eq_ok.mp did
    cases last
  | next entry =>
    obtain ⟨_,_,rest⟩ := bind_eq_ok.mp did
    obtain ⟨_,_,last⟩ := bind_eq_ok.mp rest
    cases last
    exact ⟨nofun,nofun,by simp [PushStep.left]⟩
  | prev entry =>
    obtain ⟨_,_,rest⟩ := bind_eq_ok.mp did
    obtain ⟨_,_,last⟩ := bind_eq_ok.mp rest
    cases last
    exact ⟨nofun,nofun,by simp [PushStep.left]⟩
  | _ =>
    obtain ⟨_,_,last⟩ := bind_eq_ok.mp did
    cases last
    exact ⟨nofun,nofun,by simp [PushStep.left]⟩

/-- The entry was taken out of the list, and the size was counted down. -/
def LpopStep.late : LpopStep → Bool
  | .isol _ => true
  | .val _ => true
  | _ => false

/-- Where a pop goes on: from the head, through the size, to the end. -/
inductive Follows : LpopStep → LpopStep → Prop where
  | early {pc pc₁ : LpopStep} (here : pc.late = false) (there : pc₁.late = false) (begun : pc₁ ≠ .head)
      (more : ∀ res, pc ≠ .size res) (less : pc₁.left < pc.left) : Follows pc pc₁
  | size (res : Addr) : Follows (.size res) (.isol res)
  | isol (res : Addr) : Follows (.isol res) (.val res)

theorem lpop_step_next {pc pc₁ : LpopStep} (did : lpop_step m pc = .ok (m₁,.goto pc₁)) : Follows pc pc₁ := by
  cases pc with
  | head =>
    obtain ⟨_,_,rest⟩ := bind_eq_ok.mp did
    split at rest
    · cases rest
    · cases rest
      exact .early rfl rfl (fun same => by cases same) (fun _ same => by cases same) (by simp [LpopStep.left])
  | next res =>
    obtain ⟨_,_,rest⟩ := bind_eq_ok.mp did
    obtain ⟨_,_,last⟩ := bind_eq_ok.mp rest
    cases last
    exact .early rfl rfl (fun same => by cases same) (fun _ same => by cases same) (by simp [LpopStep.left])
  | prev res =>
    obtain ⟨_,_,rest⟩ := bind_eq_ok.mp did
    obtain ⟨_,_,last⟩ := bind_eq_ok.mp rest
    cases last
    exact .early rfl rfl (fun same => by cases same) (fun _ same => by cases same) (by simp [LpopStep.left])
  | tail res =>
    obtain ⟨_,_,last⟩ := bind_eq_ok.mp did
    cases last
    exact .early rfl rfl (fun same => by cases same) (fun _ same => by cases same) (by simp [LpopStep.left])
  | size res =>
    obtain ⟨_,_,last⟩ := bind_eq_ok.mp did
    cases last
    exact .size res
  | isol res =>
    obtain ⟨_,_,last⟩ := bind_eq_ok.mp did
    cases last
    exact .isol res
  | val res =>
    obtain ⟨_,_,last⟩ := bind_eq_ok.mp did
    cases last

theorem Follows.less {pc pc₁ : LpopStep} (follows : Follows pc pc₁) : pc₁.left < pc.left := by
  cases follows with
  | early here there begun more less => exact less
  | size res => simp [LpopStep.left]
  | isol res => simp [LpopStep.left]

/-! ### The list and its entries -/

theorem the_list_found (read : the_list m = .ok lst) : get m.lists vals = some lst := by
  rw [the_list,deref] at read
  cases found : get m.lists vals with
  | none =>
    rw [found] at read
    cases read
  | some x =>
    rw [found] at read
    cases read
    rfl

theorem the_list_put (there : vals < m.lists.length) : the_list { m with lists := put m.lists vals lst } = .ok lst := by
  have found : get (put m.lists vals lst) vals = some lst := by
    rw [Heap.get,Heap.put,List.getElem?_set_self there]
    rfl
  exact deref_ok found

theorem on_list_put (there : vals < m.lists.length) :
    on_list { m with lists := put m.lists vals lst } f = .ok { m with lists := put m.lists vals (f lst) } := by
  rw [on_list,the_list_put there,ok_bind]
  simp only [put,List.set_set,pure_eq_ok]

theorem update_entry_lists {a : Option Addr} {g : Entry α → Entry α} (done : update_entry m a g = .ok m')
    (ls : Cells (Lst α Unit)) :
    m'.lists = m.lists ∧ update_entry { m with lists := ls } a g = .ok { m' with lists := ls } := by
  cases a with
  | none => cases done
  | some a =>
    rw [update_entry] at done ⊢
    cases found : get m.entries a with
    | none =>
      rw [found] at done
      cases done
    | some e =>
      rw [found] at done
      cases done
      exact ⟨rfl,rfl⟩

theorem isol_lists {a : Option Addr} (done : atm_list_entry_isol m a = .ok m') (ls : Cells (Lst α Unit)) :
    m'.lists = m.lists ∧ atm_list_entry_isol { m with lists := ls } a = .ok { m' with lists := ls } := by
  rw [atm_list_entry_isol] at done ⊢
  split at done
  · rename_i null
    cases done
    exact ⟨rfl,if_pos null⟩
  · rename_i some
    rw [if_neg some]
    exact update_entry_lists done ls

/-! ### Whole operations -/

theorem push_completes (done : Lists.atm_list_push m (some vals) (some v) = .ok m') : PushCompletes v m .new m' := by
  rw [Lists.atm_list_push] at done
  obtain ⟨m₁,made,rest⟩ := bind_eq_ok.mp done
  obtain ⟨lst,read,rest⟩ := bind_eq_ok.mp rest
  have the : the_list m₁ = .ok lst := read
  have found := the_list_found the
  have there := get_lt found
  have whole : m₁ = { m₁ with lists := put m₁.lists vals lst } := by rw [put_same found]
  have new : push_step m v .new = .ok (m₁,some (if lst.tail = none then .test m.entries.length else .next m.entries.length)) := by
    rw [push_step]
    refine (congrArg (· >>= _) made).trans ?_
    rw [ok_bind,the]
    rfl
  by_cases first : lst.tail = none
  · rw [if_pos first] at new rest
    by_cases empty : lst.head = none
    · rw [if_pos empty] at rest
      cases rest
      refine .next new (.next (p := .head m.entries.length) (n := m₁) ?_ ?_)
      · rw [push_step,the,ok_bind,if_pos empty]
        rfl
      · rw [whole]
        refine .next (by rw [push_step,on_list_put there]; rfl) ?_
        refine .next (by rw [push_step,on_list_put there]; rfl) ?_
        exact .last (by rw [push_step,on_list_put there]; simp [put])
    · rw [if_neg empty] at rest
      cases rest
  · rw [if_neg first] at new rest
    obtain ⟨⟨m₃,lst₃⟩,linked,rest⟩ := bind_eq_ok.mp rest
    cases rest
    obtain ⟨m₂,forth,linked⟩ := bind_eq_ok.mp linked
    obtain ⟨m₃',back,last⟩ := bind_eq_ok.mp linked
    cases last
    have same₂ := (update_entry_lists forth m₁.lists).1
    have same₃ := (update_entry_lists back m₁.lists).1.trans same₂
    have the₂ : the_list m₂ = .ok lst := by rw [the_list,same₂]; exact read
    have whole₃ : m₃ = { m₃ with lists := put m₃.lists vals lst } := by rw [put_same (by rw [same₃]; exact found)]
    have there₃ : vals < m₃.lists.length := by rw [same₃]; exact there
    refine .next new (.next (p := .prev m.entries.length) (n := m₂) ?_ (.next (p := .tail m.entries.length) (n := m₃) ?_ ?_))
    · rw [push_step,the,ok_bind,forth]
      rfl
    · rw [push_step,the₂,ok_bind]
      exact congrArg (· >>= _) back
    · rw [whole₃]
      refine .next (by rw [push_step,on_list_put there₃]; rfl) ?_
      exact .last (by rw [push_step,on_list_put there₃]; simp [put])

theorem lpop_completes {res : Option α} (done : Lists.atm_list_lpop m (some vals) = .ok (m',res)) :
    LpopCompletes m .head m' res := by
  obtain ⟨⟨m₄,entry⟩,popped,taken⟩ := bind_eq_ok.mp done
  rw [atm_list_lpop_entry] at popped
  obtain ⟨lst,read,rest⟩ := bind_eq_ok.mp popped
  have the : the_list m = .ok lst := read
  have found := the_list_found the
  have there := get_lt found
  have whole : m = { m with lists := put m.lists vals lst } := by rw [put_same found]
  split at rest
  · rename_i empty
    cases rest
    cases taken
    exact .last (by rw [lpop_step,the,ok_bind,empty]; rfl)
  · rename_i a head
    obtain ⟨e,entered,rest⟩ := bind_eq_ok.mp rest
    obtain ⟨m₁,cut,rest⟩ := bind_eq_ok.mp rest
    obtain ⟨m₂,isolated,last⟩ := bind_eq_ok.mp rest
    cases last
    have cut_lists : ∀ ls : Cells (Lst α Unit), m₁.lists = m.lists ∧ (if e.next ≠ none then
        update_entry { m with lists := ls } e.next (fun e => { e with prev := none }) else .ok { m with lists := ls }) =
          .ok { m₁ with lists := ls } := by
      intro ls
      by_cases more : e.next ≠ none
      · rw [if_pos more] at cut ⊢
        exact update_entry_lists cut ls
      · rw [if_neg more] at cut ⊢
        cases cut
        exact ⟨rfl,rfl⟩
    have lists₁ := (cut_lists []).1
    have lists₂ := (isol_lists isolated []).1.trans lists₁
    have there₁ : vals < m₁.lists.length := by rw [lists₁]; exact there
    refine .next (p := .next a) (n := m) (by rw [lpop_step,the,ok_bind,head]; rfl) ?_
    refine .next (p := .prev a) (n := { m with lists := put m.lists vals { lst with head := e.next } }) ?_ ?_
    · rw [lpop_step,entered,ok_bind]
      conv_lhs => rw [whole]
      rw [on_list_put there]
      rfl
    refine .next (p := .tail a) (n := { m₁ with lists := put m₁.lists vals { lst with head := e.next } }) ?_ ?_
    · rw [lpop_step,the_list_put there,ok_bind]
      dsimp only
      rw [(cut_lists _).2,ok_bind,lists₁]
      rfl
    refine .next (by rw [lpop_step,on_list_put there₁]; rfl) ?_
    refine .next (by rw [lpop_step,on_list_put there₁]; rfl) ?_
    refine .next (by rw [lpop_step,(isol_lists isolated _).2]; rfl) (.last ?_)
    rw [lists₂,← lists₁] at taken
    rw [lpop_step]
    refine (congrArg (· >>= _) taken).trans rfl

/-! ### The size -/

theorem list_size_same {n : Nat} (size : list_size m = .ok n) (same : m₁.lists = m.lists) : list_size m₁ = .ok n := by
  rw [list_size,the_list] at size ⊢
  rw [same]
  exact size

theorem on_list_size {n k : Nat} (size : list_size m = .ok n) (done : on_list m f = .ok m₁)
    (becomes : ∀ lst : Lst α Unit, lst.size = n → (f lst).size = k) : list_size m₁ = .ok k := by
  obtain ⟨lst,read,rest⟩ := bind_eq_ok.mp size
  obtain ⟨lst',read',last⟩ := bind_eq_ok.mp done
  rw [read] at read'
  cases read'
  cases last
  cases rest
  rw [list_size,the_list_put (get_lt (the_list_found read)),ok_bind,becomes lst rfl]
  rfl

theorem push_step_size {n : Nat} {pc : PushStep} {next : Option PushStep} (size : list_size m = .ok n)
    (did : push_step m v pc = .ok (m₁,next)) : list_size m₁ = .ok (if pc = .size then u32 (n + 1) else n) := by
  cases pc with
  | new =>
    obtain ⟨m₂,made,rest⟩ := bind_eq_ok.mp did
    obtain ⟨_,_,last⟩ := bind_eq_ok.mp rest
    cases last
    exact list_size_same size (update_entry_lists made []).1
  | test entry =>
    obtain ⟨_,_,last⟩ := bind_eq_ok.mp did
    split at last
    · cases last
      exact size
    · cases last
  | head entry =>
    obtain ⟨m₂,wrote,last⟩ := bind_eq_ok.mp did
    cases last
    exact on_list_size size wrote (fun _ same => same)
  | first entry =>
    obtain ⟨m₂,wrote,last⟩ := bind_eq_ok.mp did
    cases last
    exact on_list_size size wrote (fun _ same => same)
  | next entry =>
    obtain ⟨_,_,rest⟩ := bind_eq_ok.mp did
    obtain ⟨m₂,wrote,last⟩ := bind_eq_ok.mp rest
    cases last
    exact list_size_same size (update_entry_lists wrote []).1
  | prev entry =>
    obtain ⟨_,_,rest⟩ := bind_eq_ok.mp did
    obtain ⟨m₂,wrote,last⟩ := bind_eq_ok.mp rest
    cases last
    exact list_size_same size (update_entry_lists wrote []).1
  | tail entry =>
    obtain ⟨m₂,wrote,last⟩ := bind_eq_ok.mp did
    cases last
    exact on_list_size size wrote (fun _ same => same)
  | size =>
    obtain ⟨m₂,wrote,last⟩ := bind_eq_ok.mp did
    cases last
    exact on_list_size size wrote (fun _ same => by rw [same]; rfl)

theorem lpop_step_size {n : Nat} {pc : LpopStep} {next : Then α} (size : list_size m = .ok n)
    (did : lpop_step m pc = .ok (m₁,next)) : list_size m₁ = .ok n ∨ ∃ res, pc = .size res ∧ list_size m₁ = .ok (sub32 n 1) := by
  cases pc with
  | head =>
    obtain ⟨_,_,rest⟩ := bind_eq_ok.mp did
    split at rest
    · cases rest
      exact .inl size
    · cases rest
      exact .inl size
  | next res =>
    obtain ⟨_,_,rest⟩ := bind_eq_ok.mp did
    obtain ⟨m₂,wrote,last⟩ := bind_eq_ok.mp rest
    cases last
    exact .inl (on_list_size size wrote (fun _ same => same))
  | prev res =>
    obtain ⟨_,_,rest⟩ := bind_eq_ok.mp did
    obtain ⟨m₂,wrote,last⟩ := bind_eq_ok.mp rest
    cases last
    split at wrote
    · exact .inl (list_size_same size (update_entry_lists wrote []).1)
    · cases wrote
      exact .inl size
  | tail res =>
    obtain ⟨m₂,wrote,last⟩ := bind_eq_ok.mp did
    cases last
    refine .inl (on_list_size size wrote (fun lst same => ?_))
    split
    · exact same
    · exact same
  | size res =>
    obtain ⟨m₂,wrote,last⟩ := bind_eq_ok.mp did
    cases last
    exact .inr ⟨res,rfl,on_list_size size wrote (fun _ same => by rw [same])⟩
  | isol res =>
    obtain ⟨m₂,wrote,last⟩ := bind_eq_ok.mp did
    cases last
    exact .inl (list_size_same size (isol_lists wrote []).1)
  | val res =>
    obtain ⟨⟨m₂,value⟩,taken,last⟩ := bind_eq_ok.mp did
    cases last
    obtain ⟨_,_,rest⟩ := bind_eq_ok.mp taken
    obtain ⟨m₃,freed,last⟩ := bind_eq_ok.mp rest
    cases last
    refine .inl (list_size_same size ?_)
    rw [free_entry] at freed
    split at freed
    · cases freed
      rfl
    · cases freed

/-- The size is final before the pop is over. -/
theorem late_size {n : Nat} {pc : LpopStep} {res : Option α} (left : LpopCompletes m pc m' res) (late : pc.late = true)
    (size : list_size m = .ok n) : list_size m' = .ok n := by
  induction left with
  | last did =>
    rcases lpop_step_size size did with same | ⟨res,rfl,_⟩
    · exact same
    · cases late
  | next did rest ih =>
    have follows := lpop_step_next did
    rcases lpop_step_size size did with same | ⟨res,rfl,_⟩
    · cases follows with
      | early here there begun more less =>
        rw [late] at here
        cases here
      | size res => cases late
      | isol res => exact ih rfl same
    · cases late

/-! ### Contents -/

/-- The list holds some values. -/
def Holds (m : Store α) (vs : List α) : Prop := ∃ lst ps, Rep m vals lst ps ∧ ps.map Prod.snd = vs

variable {vs : List α}

theorem holds_size (holds : Holds m vs) : list_size m = .ok (u32 vs.length) := by
  obtain ⟨lst,ps,rep,rfl⟩ := holds
  rw [list_size,the_list,deref_ok rep.found,ok_bind,rep.size,List.length_map]
  rfl

theorem push_whole (holds : Holds m vs) (v : α) : ∃ m', PushCompletes v m .new m' ∧ Holds m' (vs ++ [v]) := by
  obtain ⟨lst,ps,rep,rfl⟩ := holds
  obtain ⟨m',lst',b,pushed,rep',_⟩ := push_ok rep v
  exact ⟨m',push_completes pushed,lst',_,rep',by rw [List.map_append]; rfl⟩

theorem lpop_whole (holds : Holds m vs) : ∃ m', LpopCompletes m .head m' vs.head? ∧ Holds m' vs.tail := by
  obtain ⟨lst,ps,rep,rfl⟩ := holds
  obtain ⟨m',lst',popped,rep',_⟩ := lpop_ok rep
  exact ⟨m',lpop_completes popped,lst',_,rep',List.map_tail⟩

end AtmCache.Queues
