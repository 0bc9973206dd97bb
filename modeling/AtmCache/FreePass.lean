import AtmCache.ConnSweep
import AtmCache.ListSeq

/-!
# A free pass over the linked list

`atm_conn_free_func` with the list of `atm_list.c` that it peeks at, pops from and pushes to, one
call after the other. A pass simulates the pass over a sequence of connections (`loop_simulates`), so
that it ends, frees the idle connections once each and leaves the others in their order.
-/
namespace AtmCache.FreePass
open Heap Runs AtmCache.Lists

variable {H : Type}

/-- The memory of the lists, the connections, and those freed so far. -/
structure Pass (H : Type) where
  mem : Mem Nat H
  conns : Cells Conns.Conn
  freed : List Nat

/-- The loop with `unproc`; NULL is `none`. -/
def atm_conn_free_loop (ls : Option Addr) : Nat → Pass H → Option Nat → Except Fault (Pass H)
  | 0, _, _ => .error .hang
  | fuel+1, s, unproc => do
    if (← atm_list_lpeek s.mem ls) = unproc then return s
    else
      let (mem,c) ← atm_list_lpop s.mem ls
      match c with
      | none => throw .nullDeref
      | some c =>
        let conn ← Lists.deref s.conns (some c)
        if !conn.on_write && !conn.on_read then
          atm_conn_free_loop ls fuel ⟨mem,free s.conns c,s.freed ++ [c]⟩ unproc
        else
          let unproc := if unproc = none then some c else unproc
          let mem ← atm_list_push mem ls (some c)
          atm_conn_free_loop ls fuel { s with mem := mem } unproc

def atm_conn_free_func (s : Pass H) (free_list : Option Addr) : Except Fault (Pass H) :=
  atm_conn_free_loop free_list (rounds s.mem) s none

/-! ### The pass over a sequence -/

/-- The linked list holds the sequence of a system, and the connections are the same. -/
def Sees (l : Addr) (p : Pass H) (s : Conns.Sys) : Prop :=
  (∃ lst ps, Rep p.mem l lst ps ∧ ps.map Prod.snd = s.free_list) ∧ p.conns = s.conns ∧ p.freed = s.freed

theorem deref_found {conn : Option Conns.Conn} {c : Conns.Conn} (read : Conns.deref conn = .ok c) : conn = some c := by
  cases conn with
  | none => cases read
  | some d =>
    cases read
    rfl

theorem loop_simulates {l : Addr} (fuel : Nat) : ∀ {p : Pass H} {s s' : Conns.Sys} {unproc : Option Nat}, Sees l p s →
    Conns.atm_conn_free_loop fuel s unproc = .ok s' → ∃ p', atm_conn_free_loop (some l) fuel p unproc = .ok p' ∧ Sees l p' s' := by
  induction fuel with
  | zero => intro p s s' unproc _ ran; cases ran
  | succ fuel ih =>
    rintro p s s' unproc ⟨⟨lst,ps,rep,listed⟩,conns,freed⟩ ran
    have peeked : atm_list_lpeek p.mem (some l) = .ok s.free_list.head? := by rw [lpeek_ok rep,listed]
    rw [Conns.atm_conn_free_loop] at ran
    rw [atm_conn_free_loop,peeked,ok_bind]
    by_cases done : s.free_list.head? = unproc
    · rw [if_pos done] at ran ⊢
      cases ran
      exact ⟨p,rfl,⟨lst,ps,rep,listed⟩,conns,freed⟩
    · rw [if_neg done] at ran ⊢
      obtain ⟨m₁,lst₁,popped,rep₁,_,_⟩ := lpop_ok rep
      rw [listed] at popped
      have behind : ps.tail.map Prod.snd = s.free_list.tail := by rw [← listed,List.map_tail]
      rw [popped,ok_bind]
      cases order : s.free_list with
      | nil =>
        rw [order] at ran
        cases ran
      | cons i rest =>
        rw [order] at ran behind
        dsimp only at ran
        obtain ⟨c,read,ran⟩ := bind_eq_ok.mp ran
        have read' : Lists.deref p.conns (some i) = .ok c := by rw [conns,deref_ok (deref_found read)]
        rw [List.head?_cons]
        dsimp only
        rw [read',ok_bind]
        by_cases idle : (!c.on_write && !c.on_read) = true
        · rw [if_pos idle] at ran ⊢
          refine ih ⟨⟨lst₁,ps.tail,rep₁,behind⟩,?_,?_⟩ ran
          · exact congrArg (free · i) conns
          · exact congrArg (· ++ [i]) freed
        · rw [if_neg idle] at ran ⊢
          obtain ⟨m₂,lst₂,b,pushed,rep₂,_,_,_⟩ := push_ok rep₁ i
          have order' : (ps.tail ++ [(b,i)]).map Prod.snd = rest ++ [i] := by
            rw [List.map_append,behind]
            rfl
          rw [pushed,ok_bind]
          refine ih ?_ ran
          exact ⟨⟨lst₂,ps.tail ++ [(b,i)],rep₂,order'⟩,conns,freed⟩

/-! ### One pass -/

/-- For every list of distinct connections and every assignment of their flags: the pass ends, frees those
    with both flags down, once each, and leaves the others on the list in their order. -/
theorem free_pass_ok {p : Pass H} {l : Addr} {lst : Lst Nat H} {ps : List (Addr × Nat)} (rep : Rep p.mem l lst ps)
    (distinct : (ps.map Prod.snd).Nodup) (live : ∀ i ∈ ps.map Prod.snd, ∃ c, get p.conns i = some c) :
    ∃ p' lst' ps', atm_conn_free_func p (some l) = .ok p' ∧
      p'.freed = p.freed ++ (ps.map Prod.snd).filter (Conns.reclaimable p.conns) ∧
      Rep p'.mem l lst' ps' ∧ ps'.map Prod.snd = (ps.map Prod.snd).filter (fun i => !Conns.reclaimable p.conns i) ∧
      ∀ i, get p'.conns i = if i ∈ ps.map Prod.snd ∧ Conns.reclaimable p.conns i = true then none else get p.conns i := by
  have enough : (ps.map Prod.snd).length < rounds p.mem := by
    rw [List.length_map]
    exact rep.rounds
  have swept := Conns.free_loop_ok (ps.map Prod.snd) []
    { Conns.start with conns := p.conns, free_list := ps.map Prod.snd, freed := p.freed } (rounds p.mem)
    (List.append_nil _).symm (by rwa [List.append_nil]) live enough
  obtain ⟨p',ran,⟨lst',ps',rep',left⟩,conns,freed⟩ := loop_simulates (rounds p.mem) ⟨⟨lst,ps,rep,rfl⟩,rfl,rfl⟩ swept
  refine ⟨p',lst',ps',ran,freed,rep',left,?_⟩
  intro i
  rw [conns]
  exact Conns.sweep_get _ _ _ i

/-- Connections 2, 0 and 1 in this order, of which 0 is idle. -/
def queued : Pass Nat where
  mem := ⟨[some ⟨ATM_FREE_SHALLOW,none,some 0,some 2,3⟩],
    [some ⟨some 0,some 2,none,some 1⟩,some ⟨some 0,some 0,some 0,some 2⟩,some ⟨some 0,some 1,some 1,none⟩],[]⟩
  conns := [some ⟨false,false,false,false,false,0,0,0⟩,some ⟨false,false,false,true,false,0,0,0⟩,
    some ⟨false,false,false,false,true,0,0,0⟩]
  freed := []

theorem queued_rep : Rep queued.mem 0 ⟨ATM_FREE_SHALLOW,none,some 0,some 2,3⟩ [(0,2),(1,0),(2,1)] :=
  ⟨rfl,⟨rfl,rfl,rfl,trivial⟩,by decide,rfl,rfl,rfl⟩

theorem queued_live : ∀ i ∈ [2,0,1], ∃ c, get queued.conns i = some c :=
  List.forall_mem_cons.mpr ⟨⟨_,rfl⟩,List.forall_mem_cons.mpr ⟨⟨_,rfl⟩,List.forall_mem_cons.mpr ⟨⟨_,rfl⟩,
    fun _ member => absurd member List.not_mem_nil⟩⟩⟩

theorem free_pass_queued :
    ∃ p' lst' ps', atm_conn_free_func queued (some 0) = .ok p' ∧ p'.freed = [0] ∧ Rep p'.mem 0 lst' ps' ∧
      ps'.map Prod.snd = [2,1] ∧
      ∀ i, get p'.conns i = if i ∈ [2,0,1] ∧ Conns.reclaimable queued.conns i = true then none else get queued.conns i :=
  free_pass_ok queued_rep (by decide) queued_live

end AtmCache.FreePass
