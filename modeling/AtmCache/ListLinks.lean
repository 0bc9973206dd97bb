import Mathlib.Data.List.Nodup
import Mathlib.Data.List.Perm.Subperm
import AtmCache.Links
import AtmCache.ListModel

/-!
# One list in memory

The entries of a list are a doubly linked segment between its head and its tail (`Rep`). A call on the
list keeps this, and leaves the entries of every other list as they were (`Elsewhere`): the
entries that point back to one list are not those of another.
-/
namespace AtmCache.Lists
open Heap Links Runs

variable {V H : Type} {m m' m'' : Mem V H} {l a b : Addr} {lst : Lst V H} {ps qs : List (Addr × V)} {v : V}

/-- The node at an address, when it belongs to a list. -/
def look (m : Mem V H) (l a : Addr) : Option (Node Addr V) :=
  match get m.entries a with
  | some e => if e.list = some l then e.val.map (fun v => ⟨e.prev,v,e.next⟩) else none
  | none => none

/-- A list with the addresses and the values of its entries. -/
structure Rep (m : Mem V H) (l : Addr) (lst : Lst V H) (ps : List (Addr × V)) : Prop where
  found : get m.lists l = some lst
  seg : Seg (look m l) none none ps
  nodup : (ps.map Prod.fst).Nodup
  head : lst.head = first ps none
  tail : lst.tail = last ps none
  size : lst.size = u32 ps.length

/-- No other list than one has changed, and no entry that belongs to another list. -/
structure Elsewhere (l : Addr) (m m' : Mem V H) : Prop where
  lists : ∀ k, k ≠ l → get m'.lists k = get m.lists k
  count : m'.lists.length = m.lists.length
  nodes : ∀ k, k ≠ l → ∀ a n, look m k a = some n → look m' k a = some n

/-! ### Entries -/

theorem look_some {n : Node Addr V} :
    look m l a = some n ↔ get m.entries a = some ⟨some l,some n.val,n.prev,n.next⟩ := by
  unfold look
  cases get m.entries a with
  | none => simp
  | some e =>
    obtain ⟨list,val,prev,next⟩ := e
    obtain ⟨prev',val',next'⟩ := n
    by_cases own : list = some l
    · simp only [own,↓reduceIte,Option.map_eq_some_iff,Node.mk.injEq,Option.some.injEq,Entry.mk.injEq,true_and]
      constructor
      · rintro ⟨v,rfl,rfl,rfl,rfl⟩
        exact ⟨rfl,rfl,rfl⟩
      · rintro ⟨rfl,rfl,rfl⟩
        exact ⟨val',rfl,rfl,rfl,rfl⟩
    · simp [own]

theorem elsewhere_refl (l : Addr) (m : Mem V H) : Elsewhere l m m := ⟨fun _ _ => rfl,rfl,fun _ _ _ _ found => found⟩

theorem Elsewhere.trans (first : Elsewhere l m m') (second : Elsewhere l m' m'') : Elsewhere l m m'' where
  lists := fun k other => (second.lists k other).trans (first.lists k other)
  count := second.count.trans first.count
  nodes := fun k other a n found => second.nodes k other a n (first.nodes k other a n found)

/-- The other lists are still in memory. -/
theorem Elsewhere.rep {k : Addr} (elsewhere : Elsewhere l m m') (other : k ≠ l) (rep : Rep m k lst ps) : Rep m' k lst ps :=
  ⟨(elsewhere.lists k other).trans rep.found,seg_mono (elsewhere.nodes k other) rep.seg,rep.nodup,rep.head,rep.tail,rep.size⟩

theorem deref_ok {α : Type} {h : Cells α} {x : α} (found : get h a = some x) : deref h (some a) = .ok x := by
  rw [deref,found]

/-- At most the entry at one address has changed, and it is one of the list. -/
structure Touched (l a : Addr) (m m' : Mem V H) : Prop where
  same : ∀ b, b ≠ a → look m' l b = look m l b
  lists : m'.lists = m.lists
  freed : m'.freed = m.freed
  length : m'.entries.length = m.entries.length
  elsewhere : Elsewhere l m m'

/-- Another list does not own an entry of this one. -/
theorem owned_apart {k : Addr} {n n' : Node Addr V} (found : look m l a = some n) (owned : look m k b = some n')
    (other : k ≠ l) : b ≠ a := by
  intro same
  have owner := look_some.mp owned
  rw [same,look_some.mp found] at owner
  simp only [Option.some.injEq,Entry.mk.injEq] at owner
  exact other owner.1.symm

theorem update_ok {n : Node Addr V} (found : look m l a = some n) {f : Entry V → Entry V} {g : Node Addr V → Node Addr V}
    (writes : ∀ n : Node Addr V, f ⟨some l,some n.val,n.prev,n.next⟩ = ⟨some l,some (g n).val,(g n).prev,(g n).next⟩) :
    ∃ m', update_entry m (some a) f = .ok m' ∧ look m' l a = (look m l a).map g ∧ Touched l a m m' := by
  have here := look_some.mp found
  have other : ∀ b, b ≠ a → get (put m.entries a (f ⟨some l,some n.val,n.prev,n.next⟩)) b = get m.entries b :=
    fun b ne => get_put_other _ ne _
  refine ⟨{ m with entries := put m.entries a (f ⟨some l,some n.val,n.prev,n.next⟩) },by rw [update_entry,here],
    ?_,?_,rfl,rfl,put_length ..,fun _ _ => rfl,rfl,?_⟩
  · rw [found,Option.map_some,look_some,← writes]
    exact get_put_self here _
  · intro b ne
    rw [look,other b ne]
    rfl
  · intro k ne b n' owned
    exact look_some.mpr ((other b (owned_apart found owned ne)).trans (look_some.mp owned))

theorem update_next {n : Node Addr V} (found : look m l a = some n) (p : Option Addr) :
    ∃ m', update_entry m (some a) (fun e => { e with next := p }) = .ok m' ∧
      look m' l a = (look m l a).map (fun n => { n with next := p }) ∧ Touched l a m m' :=
  update_ok found (fun _ => rfl)

theorem update_prev {n : Node Addr V} (found : look m l a = some n) (p : Option Addr) :
    ∃ m', update_entry m (some a) (fun e => { e with prev := p }) = .ok m' ∧
      look m' l a = (look m l a).map (fun n => { n with prev := p }) ∧ Touched l a m m' :=
  update_ok found (fun _ => rfl)

theorem isol_ok {n : Node Addr V} (found : look m l a = some n) :
    ∃ m', atm_list_entry_isol m (some a) = .ok m' ∧ look m' l a = some ⟨none,n.val,none⟩ ∧ Touched l a m m' := by
  obtain ⟨m',updated,here,touched⟩ := update_ok found (f := fun e => { e with prev := none, next := none })
    (g := fun n => ⟨none,n.val,none⟩) (fun _ => rfl)
  rw [found] at here
  refine ⟨m',?_,here,touched⟩
  rw [atm_list_entry_isol,if_neg (fun same => by cases same)]
  exact updated

theorem free_entry_ok {n : Node Addr V} (found : look m l a = some n) :
    ∃ m', free_entry m (some a) = .ok m' ∧ Touched l a m m' := by
  have here := look_some.mp found
  refine ⟨{ m with entries := free m.entries a },by rw [free_entry,here],?_,rfl,rfl,free_length ..,fun _ _ => rfl,rfl,?_⟩
  · intro b ne
    rw [look,get_free_other _ ne]
    rfl
  · intro k ne b n' owned
    exact look_some.mpr ((get_free_other _ (owned_apart found owned ne)).trans (look_some.mp owned))

/-- An entry of a chain is not at an address outside of it. -/
theorem ne_of_outside {p : Addr × V} (outside : a ∉ ps.map Prod.fst) (member : p ∈ ps) : p.1 ≠ a :=
  fun same => outside (same ▸ List.mem_map_of_mem member)

/-- A chain without the entry that was touched. -/
theorem Touched.seg {before behind : Option Addr} (touched : Touched l a m m') (outside : a ∉ ps.map Prod.fst)
    (seg : Seg (look m l) before behind ps) : Seg (look m' l) before behind ps :=
  seg_frame (fun p member => touched.same p.1 (ne_of_outside outside member)) seg

theorem Touched.rep (touched : Touched l a m m') (outside : a ∉ ps.map Prod.fst) (rep : Rep m l lst ps) :
    Rep m' l lst ps :=
  ⟨by rw [touched.lists]; exact rep.found,touched.seg outside rep.seg,rep.nodup,rep.head,rep.tail,rep.size⟩

/-- Entries and lists of others, the number of entries and the freed values are as before. -/
structure Kept (l : Addr) (m m' : Mem V H) : Prop where
  freed : m'.freed = m.freed
  length : m'.entries.length = m.entries.length
  elsewhere : Elsewhere l m m'

theorem Touched.kept (touched : Touched l a m m') : Kept l m m' := ⟨touched.freed,touched.length,touched.elsewhere⟩

theorem Kept.trans (first : Kept l m m') (second : Kept l m' m'') : Kept l m m'' :=
  ⟨second.freed.trans first.freed,second.length.trans first.length,first.elsewhere.trans second.elsewhere⟩

theorem kept_list (m : Mem V H) (l : Addr) (lst : Lst V H) : Kept l m { m with lists := put m.lists l lst } :=
  ⟨rfl,rfl,fun _ other => get_put_other _ other _,put_length ..,fun _ _ _ _ found => found⟩

/-- The functions of a list and how it frees. -/
def SameKind (lst lst' : Lst V H) : Prop := lst'.v_type = lst.v_type ∧ lst'.free_type = lst.free_type

/-! ### Pops -/

/-- A node and the rest of a list have different addresses. -/
theorem nodup_head (nodup : (((a,v) :: ps).map Prod.fst).Nodup) : a ∉ ps.map Prod.fst ∧ (ps.map Prod.fst).Nodup :=
  List.nodup_cons.mp nodup

/-- The address of an entry is not that of another one. -/
theorem nodup_mid (nodup : ((ps ++ (a,v) :: qs).map Prod.fst).Nodup) :
    a ∉ (ps ++ qs).map Prod.fst ∧ ((ps ++ qs).map Prod.fst).Nodup := by
  rw [List.map_append,List.map_cons,List.nodup_middle,← List.map_append] at nodup
  exact List.nodup_cons.mp nodup

theorem nodup_snoc (nodup : ((ps ++ [(a,v)]).map Prod.fst).Nodup) : a ∉ ps.map Prod.fst ∧ (ps.map Prod.fst).Nodup := by
  have split := nodup_mid nodup
  rw [List.append_nil] at split
  exact split

/-- The first entry of a chain is linked to another one before it. -/
theorem relink_first {before behind : Option Addr} (seg : Seg (look m l) before behind ((a,v) :: ps))
    (once : a ∉ ps.map Prod.fst) (p : Option Addr) :
    ∃ m', update_entry m (some a) (fun e => { e with prev := p }) = .ok m' ∧ Seg (look m' l) p behind ((a,v) :: ps) ∧
      Touched l a m m' := by
  obtain ⟨m',updated,changed,touched⟩ := update_prev seg.1 p
  exact ⟨m',updated,seg_before (fun q member => touched.same q.1 (ne_of_outside once member)) changed seg,touched⟩

/-- The last entry of a chain is linked to another one behind it. -/
theorem relink_last {before behind : Option Addr} (seg : Seg (look m l) before behind (ps ++ [(a,v)]))
    (once : a ∉ ps.map Prod.fst) (p : Option Addr) :
    ∃ m', update_entry m (some a) (fun e => { e with next := p }) = .ok m' ∧ Seg (look m' l) before p (ps ++ [(a,v)]) ∧
      Touched l a m m' := by
  obtain ⟨m',updated,changed,touched⟩ := update_next (seg_append.mp seg).2.1 p
  exact ⟨m',updated,seg_behind (fun q member => touched.same q.1 (ne_of_outside once member)) changed seg,touched⟩

theorem last_mem (p : Addr × V) (ps : List (Addr × V)) : ∃ q ∈ p :: ps, last (p :: ps) none = some q.1 := by
  rcases List.eq_nil_or_concat (p :: ps) with nil | ⟨init,q,listed⟩
  · cases nil
  · rw [List.concat_eq_append] at listed
    rw [listed]
    exact ⟨q,List.mem_append_right _ List.mem_cons_self,last_snoc q⟩

theorem size_pop (n : Nat) : sub32 (u32 (n + 1)) 1 = u32 n := by
  unfold sub32 u32
  omega

/-- The front entry leaves the chain and has no links any more. -/
theorem lpop_entry_ok (rep : Rep m l lst ((a,v) :: ps)) :
    ∃ m' lst', atm_list_lpop_entry m (some l) = .ok (m',some a) ∧ Rep m' l lst' ps ∧ SameKind lst lst' ∧
      look m' l a = some ⟨none,v,none⟩ ∧ Kept l m m' := by
  obtain ⟨here,rest⟩ := rep.seg
  obtain ⟨outside,nodup⟩ := nodup_head rep.nodup
  have entry := deref_ok (look_some.mp here)
  cases ps with
  | nil =>
    obtain ⟨m₁,isolated,alone,touched⟩ := isol_ok here
    refine ⟨{ m₁ with lists := put m₁.lists l { lst with head := none, tail := none, size := sub32 lst.size 1 } },_,?_,
      ⟨get_put_self (by rw [touched.lists]; exact rep.found) _,trivial,List.nodup_nil,rfl,rfl,?_⟩,⟨rfl,rfl⟩,alone,
      touched.kept.trans (kept_list ..)⟩
    · have tail : lst.tail = some a := rep.tail
      simp only [atm_list_lpop_entry,deref_ok rep.found,ok_bind,rep.head,first,entry,tail,ne_eq,not_true_eq_false,↓reduceIte,
        isolated,pure_eq_ok]
    · dsimp only
      rw [rep.size]
      exact size_pop 0
  | cons p ps =>
    obtain ⟨c,w⟩ := p
    have apart : a ≠ c := fun same => outside (by rw [same]; exact List.mem_cons_self)
    obtain ⟨m₁,updated,seg₁,touched⟩ := relink_first rest (nodup_head nodup).1 none
    obtain ⟨m₂,isolated,alone,touched₂⟩ := isol_ok ((touched.same a apart).trans here)
    have tail : lst.tail ≠ some a := by
      obtain ⟨q,member,same⟩ := last_mem (c,w) ps
      have whole : last ((a,v) :: (c,w) :: ps) none = last ((c,w) :: ps) none := rfl
      rw [rep.tail,whole,same]
      exact fun equal => ne_of_outside outside member (Option.some.inj equal)
    refine ⟨{ m₂ with lists := put m₂.lists l { lst with head := some c, size := sub32 lst.size 1 } },_,?_,
      ⟨get_put_self (by rw [touched₂.lists,touched.lists]; exact rep.found) _,?_,nodup,rfl,rep.tail,?_⟩,⟨rfl,rfl⟩,alone,
      (touched.kept.trans touched₂.kept).trans (kept_list ..)⟩
    · have head : lst.head = some a := rep.head
      simp only [atm_list_lpop_entry,deref_ok rep.found,ok_bind,head,entry,first,ne_eq,reduceCtorEq,not_false_eq_true,
        ↓reduceIte,updated,tail,isolated,pure_eq_ok]
    · exact touched₂.seg outside seg₁
    · dsimp only
      rw [rep.size]
      exact size_pop _

/-- The value of an entry that left the chain. -/
theorem take_ok (rep : Rep m l lst ps) {n : Node Addr V} (here : look m l a = some n) (outside : a ∉ ps.map Prod.fst) :
    ∃ m', take_value m (some a) = .ok (m',some n.val) ∧ Rep m' l lst ps ∧ Kept l m m' := by
  obtain ⟨m',done,touched⟩ := free_entry_ok here
  refine ⟨m',?_,touched.rep outside rep,touched.kept⟩
  rw [take_value,deref_ok (look_some.mp here),ok_bind,done]
  rfl

theorem lpop_ok (rep : Rep m l lst ps) :
    ∃ m' lst', atm_list_lpop m (some l) = .ok (m',(ps.map Prod.snd).head?) ∧ Rep m' l lst' ps.tail ∧ SameKind lst lst' ∧
      Kept l m m' := by
  cases ps with
  | nil =>
    have head : lst.head = none := rep.head
    refine ⟨m,lst,?_,rep,⟨rfl,rfl⟩,rfl,rfl,elsewhere_refl l m⟩
    simp only [atm_list_lpop,atm_list_lpop_entry,deref_ok rep.found,ok_bind,head,pure_eq_ok,take_value]
    rfl
  | cons p ps =>
    obtain ⟨a,v⟩ := p
    obtain ⟨m₁,lst₁,popped,rep₁,kind,alone,kept⟩ := lpop_entry_ok rep
    obtain ⟨m₂,taken,rep₂,kept₂⟩ := take_ok rep₁ alone (nodup_head rep.nodup).1
    exact ⟨m₂,lst₁,by rw [atm_list_lpop,popped,ok_bind]; exact taken,rep₂,kind,kept.trans kept₂⟩

theorem rpop_entry_ok (rep : Rep m l lst (ps ++ [(a,v)])) :
    ∃ m' lst', atm_list_rpop_entry m (some l) = .ok (m',some a) ∧ Rep m' l lst' ps ∧ SameKind lst lst' ∧
      look m' l a = some ⟨none,v,none⟩ ∧ Kept l m m' := by
  obtain ⟨front,here,_⟩ := seg_append.mp rep.seg
  obtain ⟨outside,nodup⟩ := nodup_snoc rep.nodup
  have entry := deref_ok (look_some.mp here)
  have tail : lst.tail = some a := rep.tail.trans (last_snoc (a,v))
  rcases List.eq_nil_or_concat ps with rfl | ⟨init,⟨c,w⟩,rfl⟩
  · obtain ⟨m₁,isolated,alone,touched⟩ := isol_ok here
    refine ⟨{ m₁ with lists := put m₁.lists l { lst with head := none, tail := none, size := sub32 lst.size 1 } },_,?_,
      ⟨get_put_self (by rw [touched.lists]; exact rep.found) _,trivial,List.nodup_nil,rfl,rfl,?_⟩,⟨rfl,rfl⟩,alone,
      touched.kept.trans (kept_list ..)⟩
    · have head : lst.head = some a := rep.head
      simp only [atm_list_rpop_entry,deref_ok rep.found,ok_bind,tail,entry,last,head,ne_eq,not_true_eq_false,↓reduceIte,
        isolated,pure_eq_ok]
    · dsimp only
      rw [rep.size]
      exact size_pop 0
  · rw [List.concat_eq_append] at rep front here outside nodup entry ⊢
    rw [last_snoc] at here entry
    have apart : a ≠ c := fun same => outside (by rw [same,List.map_append]; exact List.mem_append_right _ List.mem_cons_self)
    obtain ⟨m₁,updated,seg₁,touched⟩ := relink_last front (nodup_snoc nodup).1 none
    obtain ⟨m₂,isolated,alone,touched₂⟩ := isol_ok ((touched.same a apart).trans here)
    have head : lst.head ≠ some a := by
      rw [rep.head]
      intro equal
      refine outside ?_
      cases init with
      | nil => exact List.mem_cons.mpr (.inl (Option.some.inj equal).symm)
      | cons p init => exact List.mem_cons.mpr (.inl (Option.some.inj equal).symm)
    refine ⟨{ m₂ with lists := put m₂.lists l { lst with tail := some c, size := sub32 lst.size 1 } },_,?_,
      ⟨get_put_self (by rw [touched₂.lists,touched.lists]; exact rep.found) _,?_,nodup,?_,(last_snoc (c,w)).symm,?_⟩,⟨rfl,rfl⟩,
      alone,(touched.kept.trans touched₂.kept).trans (kept_list ..)⟩
    · simp only [atm_list_rpop_entry,deref_ok rep.found,ok_bind,tail,entry,ne_eq,reduceCtorEq,not_false_eq_true,
        ↓reduceIte,updated,head,isolated,pure_eq_ok]
    · exact touched₂.seg outside seg₁
    · dsimp only
      rw [rep.head]
      cases init <;> rfl
    · dsimp only
      rw [rep.size,List.length_append]
      exact size_pop _

theorem rpop_ok (rep : Rep m l lst ps) :
    ∃ m' lst', atm_list_rpop m (some l) = .ok (m',(ps.map Prod.snd).getLast?) ∧ Rep m' l lst' ps.dropLast ∧ SameKind lst lst' ∧
      Kept l m m' := by
  rcases List.eq_nil_or_concat ps with rfl | ⟨init,⟨a,v⟩,rfl⟩
  · have tail : lst.tail = none := rep.tail
    refine ⟨m,lst,?_,rep,⟨rfl,rfl⟩,rfl,rfl,elsewhere_refl l m⟩
    simp only [atm_list_rpop,atm_list_rpop_entry,deref_ok rep.found,ok_bind,tail,pure_eq_ok,take_value]
    rfl
  · rw [List.concat_eq_append] at rep ⊢
    obtain ⟨m₁,lst₁,popped,rep₁,kind,alone,kept⟩ := rpop_entry_ok rep
    obtain ⟨m₂,taken,rep₂,kept₂⟩ := take_ok rep₁ alone (nodup_snoc rep.nodup).1
    rw [List.map_append,List.map_singleton,List.getLast?_concat,List.dropLast_concat]
    exact ⟨m₂,lst₁,by rw [atm_list_rpop,popped,ok_bind]; exact taken,rep₂,kind,kept.trans kept₂⟩

theorem lpeek_ok (rep : Rep m l lst ps) : atm_list_lpeek m (some l) = .ok (ps.map Prod.snd).head? := by
  rw [atm_list_lpeek,deref_ok rep.found,ok_bind,rep.head]
  cases ps with
  | nil => rfl
  | cons p ps =>
    rw [first,peek_value,deref_ok (look_some.mp rep.seg.1)]
    rfl

theorem rpeek_ok (rep : Rep m l lst ps) : atm_list_rpeek m (some l) = .ok (ps.map Prod.snd).getLast? := by
  rw [atm_list_rpeek,deref_ok rep.found,ok_bind,rep.tail]
  rcases List.eq_nil_or_concat ps with rfl | ⟨init,p,rfl⟩
  · rfl
  · rw [List.concat_eq_append] at rep ⊢
    rw [last_snoc,peek_value,deref_ok (look_some.mp (seg_append.mp rep.seg).2.1),List.map_append,List.map_singleton,
      List.getLast?_concat]
    rfl

/-! ### Pushes -/

/-- A new entry that points back to the list, with no links yet. -/
theorem entry_ready (m : Mem V H) (l : Addr) (v : V) :
    ∃ m', update_entry (atm_list_entry_new m (some v)).1 (some m.entries.length) (fun e => { e with list := some l }) = .ok m' ∧
      look m' l m.entries.length = some ⟨none,v,none⟩ ∧ (∀ b, b ≠ m.entries.length → look m' l b = look m l b) ∧
      m'.lists = m.lists ∧ m'.freed = m.freed ∧ Elsewhere l m m' := by
  have here : get (atm_list_entry_new m (some v)).1.entries m.entries.length = some ⟨none,some v,none,none⟩ :=
    get_alloc_new m.entries _
  have kept : ∀ b, b ≠ m.entries.length → get (put (atm_list_entry_new m (some v)).1.entries m.entries.length
      ⟨some l,some v,none,none⟩) b = get m.entries b := by
    intro b ne
    rw [get_put_other _ ne]
    by_cases old : b < m.entries.length
    · exact get_alloc_old _ old
    · have nothing : ∀ h : Cells (Entry V), h.length ≤ b → get h b = none := by
        intro h beyond
        show (h[b]?).join = none
        rw [List.getElem?_eq_none beyond]
        rfl
      rw [nothing m.entries (by omega),nothing]
      rw [atm_list_entry_new,alloc_length]
      omega
  refine ⟨{ m with entries := put (atm_list_entry_new m (some v)).1.entries m.entries.length ⟨some l,some v,none,none⟩ },
    by rw [update_entry,here]; rfl,look_some.mpr (get_put_self here _),?_,rfl,rfl,fun _ _ => rfl,rfl,?_⟩
  · intro b ne
    rw [look,kept b ne]
    rfl
  · intro k _ b n owned
    have old := look_some.mp owned
    exact look_some.mpr ((kept b (Nat.ne_of_lt (get_lt old))).trans old)

theorem size_push (n : Nat) : u32 (u32 n + 1) = u32 (n + 1) := by
  unfold u32
  omega

theorem Rep.inside (rep : Rep m l lst ps) {p : Addr × V} (member : p ∈ ps) : p.1 < m.entries.length := by
  obtain ⟨n,found,_⟩ := seg_val rep.seg member
  exact get_lt (look_some.mp found)

theorem push_ok (rep : Rep m l lst ps) (v : V) :
    ∃ m' lst' b, atm_list_push m (some l) (some v) = .ok m' ∧ Rep m' l lst' (ps ++ [(b,v)]) ∧ SameKind lst lst' ∧
      m'.freed = m.freed ∧ Elsewhere l m m' := by
  obtain ⟨m₁,ready,new,old,lists,freed,elsewhere⟩ := entry_ready m l v
  have fresh : ∀ p ∈ ps, p.1 ≠ m.entries.length := fun p member => Nat.ne_of_lt (rep.inside member)
  have found : get m₁.lists l = some lst := by rw [lists]; exact rep.found
  have seg₁ : Seg (look m₁ l) none none ps := seg_frame (fun p member => old p.1 (fresh p member)) rep.seg
  have nodup : ((ps ++ [(m.entries.length,v)]).map Prod.fst).Nodup := by
    rw [List.map_append,List.map_cons,List.nodup_middle,List.map_nil,List.append_nil]
    refine List.nodup_cons.mpr ⟨fun member => ?_,rep.nodup⟩
    obtain ⟨p,inside,same⟩ := List.mem_map.mp member
    exact fresh p inside same
  have size : u32 (lst.size + 1) = u32 (ps ++ [(m.entries.length,v)]).length := by
    rw [rep.size,size_push,List.length_append]
    rfl
  rcases List.eq_nil_or_concat ps with rfl | ⟨init,⟨c,w⟩,rfl⟩
  · refine ⟨{ m₁ with lists := put m₁.lists l ⟨lst.free_type,lst.v_type,some m.entries.length,some m.entries.length,
        u32 (lst.size + 1)⟩ },_,m.entries.length,?_,⟨get_put_self found _,⟨new,trivial⟩,nodup,rfl,rfl,size⟩,⟨rfl,rfl⟩,
      freed,elsewhere.trans (kept_list ..).elsewhere⟩
    have tail : lst.tail = none := rep.tail
    have head : lst.head = none := rep.head
    simp only [atm_list_push,show (atm_list_entry_new m (some v)).2 = m.entries.length from rfl,ready,ok_bind,deref_ok found,
      tail,head,↓reduceIte,pure_eq_ok]
  · rw [List.concat_eq_append] at rep fresh seg₁ nodup size ⊢
    have tail : lst.tail = some c := rep.tail.trans (last_snoc (c,w))
    have apart : m.entries.length ≠ c := (fresh (c,w) (List.mem_append_right _ List.mem_cons_self)).symm
    obtain ⟨m₂,linked,seg₂,touched⟩ := relink_last seg₁ (nodup_snoc rep.nodup).1 (some m.entries.length)
    have new₂ : Seg (look m₂ l) none none [(m.entries.length,v)] := ⟨(touched.same _ apart).trans new,trivial⟩
    obtain ⟨m₃,updated,new₃,touched₃⟩ := relink_first new₂ List.not_mem_nil (some c)
    have seg₃ : Seg (look m₃ l) none none (init ++ [(c,w)] ++ [(m.entries.length,v)]) := by
      refine seg_append.mpr ⟨touched₃.seg (nodup_snoc nodup).1 seg₂,?_⟩
      rw [last_snoc]
      exact new₃
    refine ⟨{ m₃ with lists := put m₃.lists l { lst with tail := some m.entries.length, size := u32 (lst.size + 1) } },_,
      m.entries.length,?_,⟨get_put_self (by rw [touched₃.lists,touched.lists]; exact found) _,seg₃,nodup,?_,
        (last_snoc (m.entries.length,v)).symm,size⟩,⟨rfl,rfl⟩,?_,
      (elsewhere.trans (touched.kept.trans touched₃.kept).elsewhere).trans (kept_list ..).elsewhere⟩
    · simp only [atm_list_push,show (atm_list_entry_new m (some v)).2 = m.entries.length from rfl,ready,ok_bind,deref_ok found,
        tail,reduceCtorEq,↓reduceIte,linked,updated,pure_eq_ok]
    · exact rep.head.trans (by cases init <;> rfl)
    · exact (touched₃.freed.trans touched.freed).trans freed

/-! ### Deletes -/

/-- The four cases take one entry out of the chain. -/
theorem del_entry_ok (rep : Rep m l lst (ps ++ (a,v) :: qs)) :
    ∃ m' lst', del_entry m lst (last ps none) (first qs none) = .ok (m',lst') ∧ Seg (look m' l) none none (ps ++ qs) ∧
      lst'.head = first (ps ++ qs) none ∧ lst'.tail = last (ps ++ qs) none ∧ lst'.size = lst.size ∧ SameKind lst lst' ∧
      look m' l a = look m l a ∧ m'.lists = m.lists ∧ Kept l m m' := by
  obtain ⟨front,_,back⟩ := seg_append.mp rep.seg
  obtain ⟨outside,nodup⟩ := nodup_mid rep.nodup
  rw [List.map_append,List.mem_append,not_or] at outside
  rcases List.eq_nil_or_concat ps with rfl | ⟨init,⟨c,w⟩,rfl⟩
  · cases qs with
    | nil => exact ⟨m,_,rfl,trivial,rfl,rfl,rfl,⟨rfl,rfl⟩,rfl,rfl,⟨rfl,rfl,elsewhere_refl l m⟩⟩
    | cons p rest =>
      obtain ⟨d,x⟩ := p
      have apart : a ≠ d := fun same => outside.2 (by rw [same]; exact List.mem_cons_self)
      obtain ⟨m₁,updated,seg₁,touched⟩ := relink_first back (nodup_head nodup).1 none
      exact ⟨m₁,{ lst with head := some d },by simp only [last,first,del_entry,updated,ok_bind,pure_eq_ok],seg₁,rfl,
        rep.tail,rfl,⟨rfl,rfl⟩,touched.same a apart,touched.lists,touched.kept⟩
  · rw [List.concat_eq_append] at rep front outside nodup ⊢
    have notC : a ≠ c := by
      rintro rfl
      exact outside.1 (by rw [List.map_append]; exact List.mem_append_right _ List.mem_cons_self)
    rw [last_snoc]
    cases qs with
    | nil =>
      rw [List.append_nil] at nodup ⊢
      obtain ⟨m₁,updated,seg₁,touched⟩ := relink_last front (nodup_snoc nodup).1 none
      refine ⟨m₁,{ lst with tail := some c },by simp only [first,del_entry,updated,ok_bind,pure_eq_ok],seg₁,?_,
        (last_snoc (c,w)).symm,rfl,⟨rfl,rfl⟩,touched.same a notC,touched.lists,touched.kept⟩
      exact rep.head.trans (by cases init <;> rfl)
    | cons p rest =>
      obtain ⟨d,x⟩ := p
      have both : ((init ++ (c,w) :: (d,x) :: rest).map Prod.fst).Nodup := by rw [List.append_cons]; exact nodup
      obtain ⟨onceC,_⟩ := nodup_mid both
      obtain ⟨onceD,_⟩ := nodup_mid nodup
      rw [List.map_append,List.mem_append,not_or] at onceC onceD
      have notD : a ≠ d := by
        rintro rfl
        exact outside.2 List.mem_cons_self
      obtain ⟨m₁,updated,front₁,touched⟩ := relink_last front onceC.1 (some d)
      obtain ⟨m₂,updated₂,back₂,touched₂⟩ := relink_first (touched.seg onceC.2 back) onceD.2 (some c)
      refine ⟨m₂,lst,by simp only [first,del_entry,updated,updated₂,ok_bind,pure_eq_ok],?_,?_,?_,rfl,⟨rfl,rfl⟩,
        (touched₂.same a notD).trans (touched.same a notC),touched₂.lists.trans touched.lists,touched.kept.trans touched₂.kept⟩
      · refine seg_append.mpr ⟨touched₂.seg onceD.1 front₁,?_⟩
        rw [last_snoc]
        exact back₂
      · exact rep.head.trans (by cases init <;> rfl)
      · have behind : last ((a,v) :: (d,x) :: rest) (last (init ++ [(c,w)]) none) =
            last ((d,x) :: rest) (last (init ++ [(c,w)]) none) := rfl
        exact rep.tail.trans (last_append.trans (behind.trans last_append.symm))

/-- The type of the list has a function to free values. -/
def HasFree (lst : Lst V H) : Prop := ∃ t, lst.v_type = some t ∧ t.free = true

/-- What is freed with some values of a list. -/
def freed_with (lst : Lst V H) (vs : List V) : List (Option V) :=
  if lst.free_type = ATM_FREE_DEEP then vs.map some else []

theorem entry_free_ok (rep : Rep m l lst ps) {n : Node Addr V} (here : look m l a = some n) (outside : a ∉ ps.map Prod.fst)
    (typed : lst.free_type = ATM_FREE_DEEP → HasFree lst) :
    ∃ m', atm_list_entry_free m (some a) = .ok m' ∧ Rep m' l lst ps ∧ m'.freed = m.freed ++ freed_with lst [n.val] ∧
      m'.entries.length = m.entries.length ∧ Elsewhere l m m' := by
  obtain ⟨m₁,isolated,alone,touched⟩ := isol_ok here
  rw [atm_list_entry_free,deref_ok (look_some.mp here),ok_bind,deref_ok rep.found,ok_bind,isolated,ok_bind,freed_with]
  by_cases deep : lst.free_type = ATM_FREE_DEEP
  · obtain ⟨t,type,frees⟩ := typed deep
    have again : look { m₁ with freed := m₁.freed ++ [some n.val] } l a = some ⟨none,n.val,none⟩ := alone
    obtain ⟨m₂,done,touched₂⟩ := free_entry_ok again
    rw [if_pos deep,if_pos deep,free_value,type]
    dsimp only
    rw [if_pos frees,ok_bind]
    have rep₁ : Rep { m₁ with freed := m₁.freed ++ [some n.val] } l lst ps := by
      have kept := touched.rep outside rep
      exact ⟨kept.found,kept.seg,kept.nodup,kept.head,kept.tail,kept.size⟩
    have elsewhere : Elsewhere l m { m₁ with freed := m₁.freed ++ [some n.val] } :=
      ⟨touched.elsewhere.lists,touched.elsewhere.count,touched.elsewhere.nodes⟩
    refine ⟨m₂,done,touched₂.rep outside rep₁,?_,touched₂.length.trans touched.length,elsewhere.trans touched₂.elsewhere⟩
    rw [touched₂.freed,touched.freed]
    rfl
  · obtain ⟨m₂,done,touched₂⟩ := free_entry_ok alone
    rw [if_neg deep,if_neg deep,ok_bind,List.append_nil]
    exact ⟨m₂,done,touched₂.rep outside (touched.rep outside rep),touched₂.freed.trans touched.freed,
      touched₂.length.trans touched.length,touched.elsewhere.trans touched₂.elsewhere⟩

/-! ### Loops over a list -/

/-- The addresses of a chain are different, so that there are rounds enough for it. -/
theorem Rep.rounds (rep : Rep m l lst ps) : ps.length < rounds m := by
  have below : ps.map Prod.fst ⊆ List.range m.entries.length := by
    intro b member
    obtain ⟨p,inside,rfl⟩ := List.mem_map.mp member
    exact List.mem_range.mpr (rep.inside inside)
  have most := (List.subperm_of_subset rep.nodup below).length_le
  rw [List.length_map,List.length_range] at most
  exact Nat.lt_succ_of_le most

/-- The search finds the address of the first value that matches. -/
theorem find_loop_ok {t : T V H} {f : Option V → H → Bool} (type : lst.v_type = some t) (matcher : t.match_ = some f)
    (hint : H) (fuel : Nat) : ∀ {before : Option Addr} {ps : List (Addr × V)}, Seg (look m l) before none ps →
      ps.length < fuel → find_loop m lst hint fuel (first ps none) =
        .ok ((ps.find? (fun p => f (some p.2) hint)).map Prod.fst) := by
  induction fuel with
  | zero => intro before ps _ low; omega
  | succ fuel ih =>
    intro before ps seg low
    cases ps with
    | nil => rfl
    | cons p ps =>
      have called : call_match lst (some p.2) hint = .ok (f (some p.2) hint) := by
        simp only [call_match,type,matcher]
      rw [first,find_loop,deref_ok (look_some.mp seg.1),ok_bind,called,ok_bind,List.find?_cons]
      cases hit : f (some p.2) hint with
      | true => rfl
      | false =>
        rw [List.length_cons] at low
        rw [if_neg Bool.false_ne_true]
        exact ih seg.2 (by omega)

/-- A value that the type of a list matches with a hint. -/
def hits (lst : Lst V H) (hint : H) (v : V) : Bool :=
  match lst.v_type.bind T.match_ with
  | some f => f (some v) hint
  | none => false

theorem find_empty_ok (rep : Rep m l lst []) (hint : H) : atm_list_find_entry m (some l) hint = .ok none := by
  rw [atm_list_find_entry,atm_list_find_linear,deref_ok rep.found,ok_bind,rep.head]
  rfl

/-- A delete takes out the first value that matches. -/
theorem del_ok (rep : Rep m l lst ps) (hint : H)
    (given : ps ≠ [] → (∃ t f, lst.v_type = some t ∧ t.match_ = some f) ∧ (lst.free_type = ATM_FREE_DEEP → HasFree lst)) :
    ∃ m' lst' qs, atm_list_del m (some l) hint = .ok m' ∧ Rep m' l lst' qs ∧ SameKind lst lst' ∧
      qs.map Prod.snd = (ps.map Prod.snd).eraseP (hits lst hint) ∧
      m'.freed = m.freed ++ freed_with lst ((ps.map Prod.snd).find? (hits lst hint)).toList ∧ Elsewhere l m m' := by
  rw [atm_list_del]
  dsimp only
  by_cases empty : ps = []
  · subst empty
    rw [find_empty_ok rep hint,ok_bind]
    exact ⟨m,lst,[],rfl,rep,⟨rfl,rfl⟩,rfl,by simp [freed_with],elsewhere_refl l m⟩
  obtain ⟨⟨t,f,type,matcher⟩,typed⟩ := given empty
  have matching : hits lst hint = fun v => f (some v) hint := by
    funext v
    rw [hits,type,Option.bind_some,matcher]
  have search : atm_list_find_entry m (some l) hint = .ok ((ps.find? (fun p => f (some p.2) hint)).map Prod.fst) := by
    rw [atm_list_find_entry,atm_list_find_linear,deref_ok rep.found,ok_bind,rep.head]
    exact find_loop_ok type matcher hint (rounds m) rep.seg rep.rounds
  rw [search,ok_bind,matching,List.find?_map,List.eraseP_map]
  simp only [Function.comp_def]
  cases found : ps.find? (fun p => f (some p.2) hint) with
  | none =>
    have all : ∀ p ∈ ps, ¬ f (some p.2) hint = true := List.find?_eq_none.mp found
    refine ⟨m,lst,ps,rfl,rep,⟨rfl,rfl⟩,?_,?_,elsewhere_refl l m⟩
    · rw [List.eraseP_of_forall_not all]
    · simp [freed_with]
  | some p =>
    obtain ⟨a,v⟩ := p
    obtain ⟨hit,xs,ys,rfl,missed⟩ := List.find?_eq_some_iff_append.mp found
    have passed : ∀ p ∈ xs, ¬ f (some p.2) hint = true := fun p member => by simpa using missed p member
    have here := (seg_append.mp rep.seg).2.1
    obtain ⟨outside,nodup⟩ := nodup_mid rep.nodup
    obtain ⟨m₁,lst₁,deleted,seg,head,tail,size,kind,alone,lists,kept⟩ := del_entry_ok rep
    have rep₁ : Rep { m₁ with lists := put m₁.lists l { lst₁ with size := sub32 lst₁.size 1 } } l
        { lst₁ with size := sub32 lst₁.size 1 } (xs ++ ys) := by
      refine ⟨get_put_self (by rw [lists]; exact rep.found) _,seg,nodup,head,tail,?_⟩
      dsimp only
      rw [size,rep.size,List.length_append,List.length_cons,← Nat.add_assoc,size_pop,List.length_append]
    obtain ⟨m₂,done,rep₂,freed,_,elsewhere⟩ := entry_free_ok rep₁ (alone.trans here) outside
      (fun deep => by
        obtain ⟨t,type,frees⟩ := typed (kind.2.symm.trans deep)
        exact ⟨t,kind.1.trans type,frees⟩)
    refine ⟨m₂,_,xs ++ ys,?_,rep₂,⟨kind.1,kind.2⟩,?_,?_,(kept.elsewhere.trans (kept_list ..).elsewhere).trans elsewhere⟩
    · simp only [Option.map_some,deref_ok (look_some.mp here),ok_bind,deref_ok rep.found,deleted]
      exact done
    · have first : ((a,v) :: ys).eraseP (fun p => f (some p.2) hint) = ys := List.eraseP_cons_of_pos hit
      rw [List.eraseP_append_right _ passed,first]
    · rw [freed]
      simp only [kept.freed,freed_with,kind.2,Option.map_some,Option.toList_some]

/-- Clearing frees the entries from the front on. -/
theorem clear_loop_ok (fuel : Nat) : ∀ {m : Mem V H} {lst : Lst V H} {ps : List (Addr × V)}, Rep m l lst ps →
    ps.length < fuel → (ps ≠ [] → lst.free_type = ATM_FREE_DEEP → HasFree lst) →
    ∃ m' lst', clear_loop (some l) fuel m = .ok m' ∧ Rep m' l lst' [] ∧ SameKind lst lst' ∧
      m'.freed = m.freed ++ freed_with lst (ps.map Prod.snd) ∧ Elsewhere l m m' := by
  induction fuel with
  | zero => intro m lst ps _ low; omega
  | succ fuel ih =>
    intro m lst ps rep low typed
    rw [clear_loop]
    cases ps with
    | nil =>
      have empty : atm_list_lpop_entry m (some l) = .ok (m,none) := by
        have head : lst.head = none := rep.head
        simp only [atm_list_lpop_entry,deref_ok rep.found,ok_bind,head,pure_eq_ok]
      rw [empty,ok_bind]
      exact ⟨m,lst,rfl,rep,⟨rfl,rfl⟩,by simp [freed_with],elsewhere_refl l m⟩
    | cons p ps =>
      obtain ⟨a,v⟩ := p
      rw [List.length_cons] at low
      obtain ⟨m₁,lst₁,popped,rep₁,kind₁,alone,kept⟩ := lpop_entry_ok rep
      have typed₁ : lst₁.free_type = ATM_FREE_DEEP → HasFree lst₁ := by
        intro deep
        obtain ⟨t,type,frees⟩ := typed (List.cons_ne_nil _ _) (kind₁.2.symm.trans deep)
        exact ⟨t,kind₁.1.trans type,frees⟩
      obtain ⟨m₂,done,rep₂,freed,_,elsewhere⟩ := entry_free_ok rep₁ alone (nodup_head rep.nodup).1 typed₁
      obtain ⟨m₃,lst₃,ran,rep₃,kind₃,freed₃,elsewhere₃⟩ := ih rep₂ (by omega) (fun _ => typed₁)
      refine ⟨m₃,lst₃,?_,rep₃,⟨kind₃.1.trans kind₁.1,kind₃.2.trans kind₁.2⟩,?_,
        (kept.elsewhere.trans elsewhere).trans elsewhere₃⟩
      · rw [popped,ok_bind]
        dsimp only
        rw [if_neg (fun same => by cases same),done,ok_bind,ran]
      · rw [freed₃,freed,kept.freed,List.append_assoc]
        simp only [freed_with,kind₁.2]
        split <;> simp

/-- An iteration visits the values in order. -/
theorem iterate_loop_ok (fuel : Nat) : ∀ {before : Option Addr} {ps : List (Addr × V)}, Seg (look m l) before none ps →
    ps.length < fuel → iterate_loop m fuel (some ⟨l,first ps none⟩) = .ok (ps.map Prod.snd) := by
  induction fuel with
  | zero => intro before ps _ low; omega
  | succ fuel ih =>
    intro before ps seg low
    cases ps with
    | nil => rfl
    | cons p ps =>
      rw [List.length_cons] at low
      rw [first,iterate_loop,atm_list_next]
      dsimp only
      rw [deref_ok (look_some.mp seg.1),ok_bind]
      dsimp only [pure_eq_ok]
      rw [ok_bind]
      dsimp only
      rw [ih seg.2 (by omega)]
      rfl

end AtmCache.Lists
