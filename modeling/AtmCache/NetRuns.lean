import Mathlib.Data.List.Nodup
import Mathlib.Data.List.Perm.Basic
import Mathlib.Data.List.Perm.Subperm
import AtmCache.NetModel

/-!
# Descriptors are accounted for

Whatever the kernel answers, each open descriptor belongs to one socket that listens or was given up, one
connection or one client, or was open before; none is closed twice (`descriptors_accounted`). A socket is given
up only where a listening socket cannot be made nonblocking. Of the strings of a connection `dst_ip` outlives it.
-/
namespace AtmCache.Net
open Runs
open Tasks (Stop Waits)

/-- Every answer to come is a success. -/
def Fine (k : Kernel) : Prop := ∀ a ∈ k.answers, a = .success

/-- From `k` to `k'` the descriptors `new` were opened and so many strings allocated. -/
structure Keeps (k k' : Kernel) (new : List Nat) (strings : Nat) : Prop where
  fds : k'.fds = new ++ k.fds
  nodup : k.fds.Nodup → k'.fds.Nodup
  strings : k'.strings = k.strings + strings
  fine : Fine k → Fine k'

variable {k k' k'' : Kernel} {new more : List Nat} {m n : Nat}

theorem Keeps.refl (k : Kernel) : Keeps k k [] 0 := ⟨rfl,id,rfl,id⟩

theorem Keeps.trans (first : Keeps k k' new m) (second : Keeps k' k'' more n) : Keeps k k'' (more ++ new) (m + n) where
  fds := by rw [second.fds,first.fds,List.append_assoc]
  nodup := second.nodup ∘ first.nodup
  strings := by rw [second.strings,first.strings,Nat.add_assoc]
  fine := second.fine ∘ first.fine

/-- After calls that change nothing. -/
theorem Keeps.then_same (first : Keeps k k' new m) (second : Keeps k' k'' [] 0) : Keeps k k'' new m := first.trans second

theorem Keeps.after_same (first : Keeps k k' [] 0) (second : Keeps k' k'' new m) : Keeps k k'' new m := by
  simpa using first.trans second

/-! ### System calls -/

theorem fine_tail {fds : List Nat} {strings : Nat} {a : Answer} {rest : List Answer} (fine : Fine ⟨fds,strings,a :: rest⟩)
    (fds' : List Nat) (strings' : Nat) : Fine ⟨fds',strings',rest⟩ :=
  fun b member => fine b (List.mem_cons_of_mem a member)

theorem passes_meets (k : Kernel) : Meets Waits (passes k) (fun r => Keeps k r.2 [] 0 ∧ (Fine k → r.1 = true)) := by
  obtain ⟨fds,strings,answers⟩ := k
  cases answers with
  | nil => rfl
  | cons a rest => exact ⟨⟨rfl,id,rfl,fun fine => fine_tail fine fds strings⟩,fun fine => by simp [fine a List.mem_cons_self]⟩

theorem unused_fresh (fds : List Nat) : unused fds ∉ fds := by
  cases found : (List.range (fds.length + 1)).find? (fun fd => !fds.contains fd) with
  | some fd =>
    have free := List.find?_some found
    rw [unused,found]
    simpa using free
  | none =>
    -- There are more numbers in the range than descriptors.
    have all : List.range (fds.length + 1) ⊆ fds := by
      intro fd member
      simpa using List.find?_eq_none.mp found fd member
    have few := (List.nodup_range.subperm all).length_le
    rw [List.length_range] at few
    omega

theorem opened (k : Kernel) : Keeps k { k with fds := unused k.fds :: k.fds } [unused k.fds] 0 where
  fds := rfl
  nodup := fun nodup => List.nodup_cons.mpr ⟨unused_fresh k.fds,nodup⟩
  strings := rfl
  fine := id

theorem socket_meets (k : Kernel) : Meets Waits (socket k) (fun r => Keeps k r.2 r.1.toList 0) := by
  refine (passes_meets k).bind ?_
  rintro ⟨succeeds,k'⟩ ⟨kept,_⟩
  cases succeeds with
  | true => exact kept.after_same (opened k')
  | false => exact kept

theorem accept_meets (fds : List Nat) (strings : Nat) (answers : List Answer) :
    Meets Waits (accept_loop fds strings answers) (fun r => Keeps ⟨fds,strings,answers⟩ r.2 r.1.toList 0) := by
  induction answers with
  | nil => rfl
  | cons a rest ih =>
    have later : Keeps ⟨fds,strings,a :: rest⟩ ⟨fds,strings,rest⟩ [] 0 := ⟨rfl,id,rfl,fun fine => fine_tail fine fds strings⟩
    cases a with
    | success => exact later.after_same (opened ⟨fds,strings,rest⟩)
    | interrupted => exact ih.mono (fun r kept => later.after_same kept)
    | failure => exact later

/-- A socket that was just opened is closed. -/
theorem close_newest {fd : Nat} (kept : Keeps k k' [fd] 0) : Meets Waits (close k' fd) (fun k'' => Keeps k k'' [] 0) := by
  obtain ⟨fds,nodup,strings,fine⟩ := kept
  have member : fd ∈ k'.fds := by simp [fds]
  have rest : k'.fds.erase fd = k.fds := by simp [fds]
  rw [close,if_pos member]
  exact ⟨rest,fun nodup => rest ▸ nodup,strings,fine⟩

/-! ### Sockets -/

theorem listen_raw_meets (k : Kernel) : Meets Waits (atm_net_listen_raw k) (fun r => Keeps k r.2 [] 0) := by
  refine (passes_meets k).bind ?_
  rintro ⟨bound,k'⟩ ⟨kept,_⟩
  cases bound with
  | true => exact (passes_meets k').mono (fun r second => kept.after_same second.1)
  | false => exact kept

theorem set_up_meets (k : Kernel) : Meets Waits (set_up k) (fun r => Keeps k r.2 [] 0) := by
  refine (passes_meets k).bind ?_
  rintro ⟨reused,k'⟩ ⟨kept,_⟩
  cases reused with
  | true => exact (listen_raw_meets k').mono (fun r second => kept.after_same second)
  | false => exact kept

theorem listen_meets (servinfo : Nat) (k : Kernel) : Meets Waits (listen_loop servinfo k) (fun r => Keeps k r.2 r.1.toList 0) := by
  induction servinfo generalizing k with
  | zero => exact Keeps.refl k
  | succ servinfo ih =>
    refine (socket_meets k).bind ?_
    rintro ⟨_ | sockfd,k1⟩ first
    · exact (ih k1).mono (fun r later => first.after_same later)
    refine (set_up_meets k1).bind ?_
    rintro ⟨listens,k2⟩ second
    have kept : Keeps k k2 [sockfd] 0 := first.then_same second
    cases listens with
    | true => exact kept
    | false => exact (close_newest kept).bind (fun k3 closed => closed)

theorem listen_tcp_meets (k : Kernel) (servinfo : Option Nat) :
    Meets Waits (atm_net_listen_tcp k servinfo) (fun r => Keeps k r.2 (r.1.map Socket.fd).toList 0 ∧
      ∀ ss ∈ r.1, ss = atm_net_socket_new ss.fd) := by
  have raw : Meets Waits (atm_net_listen_tcp_raw k servinfo) (fun r => Keeps k r.2 r.1.toList 0) := by
    cases servinfo with
    | none => exact Keeps.refl k
    | some servinfo => exact listen_meets servinfo k
  refine raw.bind ?_
  rintro ⟨_ | s,k'⟩ kept
  · exact ⟨kept,by simp⟩
  · exact ⟨kept,by simp [atm_net_socket_new]⟩

/-- The strings of a socket. -/
def Socket.names (s : Socket) : Nat := s.src_ip.toNat + s.dst_ip.toNat

theorem named_meets (k : Kernel) : Meets Waits (named k) (fun r => Keeps k r.2 [] r.1.toNat) := by
  refine (passes_meets k).bind ?_
  rintro ⟨inet,k'⟩ ⟨kept,_⟩
  exact ⟨kept.fds,kept.nodup,congrArg (· + inet.toNat) kept.strings,kept.fine⟩

theorem net_accept_meets (k : Kernel) : Meets Waits (atm_net_accept k)
    (fun r => Keeps k r.2 (r.1.map Socket.fd).toList (r.1.elim 0 Socket.names)) := by
  refine (accept_meets k.fds k.strings k.answers).bind ?_
  rintro ⟨_ | fd,k1⟩ first
  · exact first
  refine (named_meets k1).bind ?_
  rintro ⟨src_ip,k2⟩ second
  refine (named_meets k2).bind ?_
  rintro ⟨dst_ip,k3⟩ third
  have strings : Keeps k k3 [fd] (0 + src_ip.toNat + dst_ip.toNat) := (first.trans second).trans third
  rwa [Nat.zero_add] at strings

theorem nonblock_meets (k : Kernel) : Meets Waits (atm_file_nonblock k) (fun r => Keeps k r.2 [] 0 ∧ (Fine k → r.1 = true)) := by
  refine (passes_meets k).bind ?_
  rintro ⟨got,k'⟩ ⟨kept,passed⟩
  cases got with
  | true => exact (passes_meets k').mono (fun r second => ⟨kept.after_same second.1,fun fine => second.2 (kept.fine fine)⟩)
  | false => exact ⟨kept,passed⟩

theorem options_meets (n : Nat) (k : Kernel) : Meets Waits (set_options n k) (fun r => Keeps k r.2 [] 0) := by
  induction n generalizing k with
  | zero => exact Keeps.refl k
  | succ n ih =>
    refine (passes_meets k).bind ?_
    rintro ⟨done,k'⟩ ⟨kept,_⟩
    cases done with
    | true => exact (ih k').mono (fun r later => kept.after_same later)
    | false => exact kept

theorem connect_meets (n : Nat) (k : Kernel) : Meets Waits (connect_loop n k) (fun r => Keeps k r.2 r.1.toList 0) := by
  induction n generalizing k with
  | zero => exact Keeps.refl k
  | succ n ih =>
    refine (socket_meets k).bind ?_
    rintro ⟨_ | res,k1⟩ first
    · exact (ih k1).mono (fun r later => first.after_same later)
    refine (passes_meets k1).bind ?_
    rintro ⟨connected,k2⟩ ⟨second,_⟩
    have kept : Keeps k k2 [res] 0 := first.then_same second
    cases connected with
    | true => exact kept
    | false => exact (close_newest kept).bind (fun k3 closed => closed)

theorem listen_all_meets (bindaddr : List (Option Nat)) (k : Kernel) (listening given_up : List Socket) :
    Meets Waits (listen_all bindaddr k listening given_up) (fun r => ∃ fds new gone, r.1 = listening ++ new ∧
      r.2.1 = given_up ++ gone ∧ Keeps k r.2.2 fds 0 ∧ fds.Perm ((new ++ gone).map Socket.fd) ∧ (Fine k → gone = [])) := by
  induction bindaddr generalizing k listening given_up with
  | nil => exact ⟨[],[],[],by simp,by simp,Keeps.refl k,by simp,fun _ => rfl⟩
  | cons servinfo rest ih =>
    refine (listen_tcp_meets k servinfo).bind ?_
    rintro ⟨_ | ss,k1⟩ ⟨first,_⟩
    · refine (ih k1 listening given_up).mono ?_
      rintro r ⟨fds,new,gone,listens,gives_up,kept,same,fine⟩
      exact ⟨fds,new,gone,listens,gives_up,first.after_same kept,same,fine ∘ first.fine⟩
    refine (nonblock_meets k1).bind ?_
    rintro ⟨nonblock,k2⟩ ⟨second,passed⟩
    have both : Keeps k k2 [ss.fd] 0 := first.then_same second
    cases nonblock with
    | true =>
      refine (ih k2 (listening ++ [ss]) given_up).mono ?_
      rintro r ⟨fds,new,gone,listens,gives_up,kept,same,fine⟩
      refine ⟨fds ++ [ss.fd],ss :: new,gone,by simp [listens],gives_up,both.trans kept,?_,fine ∘ both.fine⟩
      exact (List.perm_append_singleton ss.fd fds).trans (same.cons ss.fd)
    | false =>
      refine (ih k2 listening (given_up ++ [ss])).mono ?_
      rintro r ⟨fds,new,gone,listens,gives_up,kept,same,fine⟩
      refine ⟨fds ++ [ss.fd],new,ss :: gone,listens,by simp [gives_up],both.trans kept,?_,?_⟩
      · have moved : (ss.fd :: (new ++ gone).map Socket.fd).Perm ((new ++ ss :: gone).map Socket.fd) :=
          (@List.perm_middle _ ss new gone).symm.map Socket.fd
        exact (List.perm_append_singleton ss.fd fds).trans ((same.cons ss.fd).trans moved)
      · exact fun fine => by cases passed (first.fine fine)

theorem accept_conns_meets (max : Nat) (k : Kernel) (conns : List Socket) :
    Meets Waits (accept_conns max k conns) (fun r => ∃ new, r.1 = conns ++ new ∧
      Keeps k r.2 (new.map Socket.fd).reverse (new.countP Socket.src_ip + new.countP Socket.dst_ip)) := by
  induction max generalizing k conns with
  | zero => exact ⟨[],by simp,Keeps.refl k⟩
  | succ max ih =>
    refine (net_accept_meets k).bind ?_
    rintro ⟨_ | cs,k1⟩ first
    · exact ⟨[],by simp,first⟩
    refine (nonblock_meets k1).bind ?_
    rintro ⟨_,k2⟩ ⟨second,_⟩
    refine (passes_meets k2).bind ?_
    rintro ⟨_,k3⟩ ⟨third,_⟩
    refine (options_meets 4 k3).bind ?_
    rintro ⟨_,k4⟩ fourth
    have opened : Keeps k k4 [cs.fd] cs.names := ((first.then_same second).then_same third).then_same fourth
    refine (ih k4 (conns ++ [cs])).mono ?_
    rintro r ⟨new,same,later⟩
    refine ⟨cs :: new,by simp [same],?_⟩
    have total := opened.trans later
    have counted : cs.names + (new.countP Socket.src_ip + new.countP Socket.dst_ip) =
        (cs :: new).countP Socket.src_ip + (cs :: new).countP Socket.dst_ip := by
      obtain ⟨fd,src_ip,dst_ip⟩ := cs
      cases src_ip <;> cases dst_ip <;> simp [Socket.names] <;> omega
    rw [counted] at total
    rwa [List.map_cons,List.reverse_cons]

/-! ### Runs -/

/-- What the open descriptors are for. -/
def owned (base : List Nat) (s : Server) : List Nat := base ++ (s.listening ++ s.given_up ++ s.conns).map Socket.fd ++ s.clients

/-- Each open descriptor has one owner. The strings are those of the connections, and `dst_ip` of the freed ones. -/
structure Accounted (base : List Nat) (s : Server) : Prop where
  fds : s.fds.Perm (owned base s)
  nodup : s.fds.Nodup
  strings : s.strings = s.conns.countP Socket.src_ip + (s.conns ++ s.freed).countP Socket.dst_ip

/-- The kernel refuses nothing where sockets are made to listen. -/
def Label.granted : Label → Prop
  | .listen _ answers => ∀ a ∈ answers, a = .success
  | _ => True

variable {base : List Nat} {s s' : Server} {l : Label}

theorem step_meets (ok : Accounted base s) (l : Label) :
    Meets Waits (step s l) (fun s' => Accounted base s' ∧ (l.granted → s'.given_up = s.given_up)) := by
  cases l with
  | listen bindaddr answers =>
    refine (listen_all_meets bindaddr ⟨s.fds,s.strings,answers⟩ s.listening s.given_up).bind ?_
    rintro ⟨listening,given_up,k⟩ ⟨fds,new,gone,rfl,rfl,kept,same,fine⟩
    refine ⟨⟨?_,kept.nodup ok.nodup,kept.strings.trans ok.strings⟩,fun granted => by simp [fine granted]⟩
    rw [kept.fds]
    refine (same.append ok.fds).trans (List.perm_iff_count.mpr (fun fd => ?_))
    simp only [owned,List.map_append,List.count_append]
    omega
  | accept answers =>
    refine (accept_conns_meets ATM_CONN_PERCALL_ACCEPTS ⟨s.fds,s.strings,answers⟩ s.conns).bind ?_
    rintro ⟨conns,k⟩ ⟨new,rfl,kept⟩
    refine ⟨⟨?_,kept.nodup ok.nodup,?_⟩,fun _ => rfl⟩
    · rw [kept.fds]
      refine ((List.reverse_perm _).append ok.fds).trans (List.perm_iff_count.mpr (fun fd => ?_))
      simp only [owned,List.map_append,List.count_append]
      omega
    · rw [kept.strings]
      simp only [ok.strings,List.countP_append]
      omega
  | free i =>
    rw [step,atm_conn_free]
    cases found : s.conns[i]? with
    | none => rfl
    | some sock =>
      obtain ⟨inside,here⟩ := List.getElem?_eq_some_iff.mp found
      have split : (sock :: s.conns.eraseIdx i).Perm s.conns := here ▸ List.getElem_cons_eraseIdx_perm inside
      have mine : (owned base s).Perm (sock.fd :: owned base { s with conns := s.conns.eraseIdx i }) := by
        refine List.perm_iff_count.mpr (fun fd => ?_)
        have counted := (split.map Socket.fd).count_eq fd
        rw [List.map_cons,List.count_cons] at counted
        simp only [owned,List.map_append,List.count_append,List.count_cons]
        omega
      have member : sock.fd ∈ s.fds := (ok.fds.trans mine).mem_iff.mpr List.mem_cons_self
      have rest : (s.fds.erase sock.fd).Perm (owned base { s with conns := s.conns.eraseIdx i }) := by
        simpa using (ok.fds.trans mine).erase sock.fd
      have src := split.countP_eq Socket.src_ip
      have dst := split.countP_eq Socket.dst_ip
      simp only [atm_socket_free,close,if_pos member,ok_bind,pure_eq_ok]
      refine ⟨⟨rest,ok.nodup.erase sock.fd,?_⟩,fun _ => rfl⟩
      have strings := ok.strings
      simp only [List.countP_append,List.countP_cons,List.countP_nil] at src dst strings ⊢
      cases known : sock.src_ip with
      | true =>
        rw [known,if_pos rfl] at src
        rw [Bool.toNat_true]
        omega
      | false =>
        rw [known,if_neg (by decide)] at src
        rw [Bool.toNat_false]
        omega
  | connect servinfo servinfo6 answers =>
    have connects : Meets Waits (atm_net_connect ⟨s.fds,s.strings,answers⟩ servinfo servinfo6)
        (fun r => Keeps ⟨s.fds,s.strings,answers⟩ r.2 r.1.toList 0) := by
      rw [atm_net_connect]
      cases servinfo <|> servinfo6 with
      | none => exact Keeps.refl _
      | some n => exact connect_meets n _
    refine connects.bind ?_
    rintro ⟨sock,k⟩ kept
    refine ⟨⟨?_,kept.nodup ok.nodup,kept.strings.trans ok.strings⟩,fun _ => rfl⟩
    rw [kept.fds]
    refine (ok.fds.append_left sock.toList).trans (List.perm_iff_count.mpr (fun fd => ?_))
    simp only [owned,List.count_append]
    omega

theorem start_accounted (nodup : base.Nodup) : Accounted base (start base) where
  fds := by simp [owned,start]
  nodup := nodup
  strings := rfl

/-- In every run each open descriptor has one owner, no step closes one that is not open, and no socket is given up
    unless the kernel refuses something to one that is made to listen. -/
theorem descriptors_accounted (nodup : base.Nodup) {labels : List Label} (ran : run step (start base) labels = .ok s) :
    Accounted base s ∧ (∀ l f, step s l ≠ .error (.fault f)) ∧ ((∀ l ∈ labels, l.granted) → s.given_up = []) := by
  have both : Accounted base s ∧ ((∀ l ∈ labels, l.granted) → s.given_up = []) := by
    refine run_keeps (P := fun labels s => Accounted base s ∧ ((∀ l ∈ labels, l.granted) → s.given_up = []))
      ⟨start_accounted nodup,fun _ => rfl⟩ ?_ ran
    rintro pre l t u ⟨ok,kept⟩ done
    obtain ⟨ok',same⟩ := (step_meets ok l).result done
    refine ⟨ok',fun granted => ?_⟩
    obtain ⟨before,last⟩ := List.forall_mem_append.mp granted
    rw [same (last l List.mem_cons_self)]
    exact kept before
  refine ⟨both.1,?_,both.2⟩
  intro l f faults
  have waits := step_meets both.1 l
  rw [faults] at waits
  cases waits

/-- The second of two addresses listens; a connection is accepted after an interruption and freed again, and a client
    finds nobody. -/
def one_connection : List Label :=
  [.listen [none,some 2] (.failure :: List.replicate 6 .success),.accept (.interrupted :: List.replicate 10 .success ++ [.failure]),
    .connect none (some 1) [.success,.failure],.free 0]

theorem descriptors_accounted_one : ∃ s, run step (start [0,1,2]) one_connection = .ok s ∧ s.fds = [3,0,1,2] ∧ s.strings = 1 ∧
    Accounted [0,1,2] s := by
  obtain ⟨s,ran,fds,strings⟩ : ∃ s, run step (start [0,1,2]) one_connection = .ok s ∧ s.fds = [3,0,1,2] ∧ s.strings = 1 :=
    ⟨_,rfl,rfl,rfl⟩
  exact ⟨s,ran,fds,strings,(descriptors_accounted (by decide) ran).1⟩

end AtmCache.Net
