import AtmCache.ClientModel

/-!
# What clients are told

Clients write requests and read answers while the tasks of the service and the network run in any order. Of what a
client has written a first part has been executed, line by line, and what it has read is the beginning of its
answers, which are those of one store that serves the lines of all clients (`clients_served`).
-/
namespace AtmCache.Clients
open Heap Lines Runs
open Strings (Str strlen_ok read_bytes_ok)
open Buffers (Short Segment Accept Buf delivered is_newline)
open Session
open Tasks (Stop Waits)

/-! ### Calls -/

/-- A call that is over wrote the beginning of its string, and all of it unless it gave up; or it returned the number
    of bytes in its buffer or an error. -/
structure Called (l : Link) : Prop where
  sends : ∀ c ∈ l.sends, c.taken <+: c.text ∧ (c.failed = false → c.text.length < 2^31 → c.taken = c.text)
  recvs : ∀ c ∈ l.recvs, c.buff.length ≤ c.size ∧ (0 ≤ c.ret → c.ret = c.buff.length)

/-- Where a call is: `buff` is the rest of the string with its NUL, or what has been read. -/
def Going : Call → Prop
  | .out => True
  | .send text taken buff rem => ∃ left rest, text = taken ++ left ∧ buff = left ++ 0 :: rest ∧ 0 < rem ∧ rem ≤ left.length ∧
      (text.length < 2^31 → rem = left.length)
  | .recv size buff rem total => total = buff.length ∧ 0 ≤ rem ∧ rem + total = size

/-- What a step of a client does to its streams. -/
structure Moves (l l' : Link) (out : List Byte) : Prop where
  sent : l'.sent = l.sent ++ out
  up : l'.up = l.up ++ out
  down : l'.got ++ l'.down = l.got ++ l.down

structure Goes (l l' : Link) : Prop where
  called : Called l'
  going : Going l'.call
  moves : ∃ out, Moves l l' out

variable {l l' : Link} {n n' : Network} {i : Nat}

theorem client_new_called : Called atm_client_new :=
  ⟨fun _ member => (by cases member),fun _ member => (by cases member)⟩

/-- A call that is over joins the others. -/
theorem Called.send (called : Called l) {c : Sent} {call : Call} {up : List Byte} (part : c.taken <+: c.text)
    (whole : c.failed = false → c.text.length < 2^31 → c.taken = c.text) :
    Called { l with call := call, sends := l.sends ++ [c], up := up } :=
  ⟨List.forall_mem_append.mpr ⟨called.sends,List.forall_mem_singleton.mpr ⟨part,whole⟩⟩,called.recvs⟩

theorem Called.recv (called : Called l) {c : Received} {call : Call} {down : List Byte} (fits : c.buff.length ≤ c.size)
    (counted : 0 ≤ c.ret → c.ret = c.buff.length) :
    Called { l with call := call, recvs := l.recvs ++ [c], down := down } :=
  ⟨called.sends,List.forall_mem_append.mpr ⟨called.recvs,List.forall_mem_singleton.mpr ⟨fits,counted⟩⟩⟩

/-- The loop goes on with what is left, or is done. -/
theorem send_loop_goes (called : Called l) {text taken left rest : List Byte} {rem : Int} (whole : text = taken ++ left)
    (low : rem ≤ left.length) (exact : text.length < 2^31 → rem = left.length) :
    ∃ l', send_loop l text taken (left ++ 0 :: rest) rem = l' ∧ Called l' ∧ Going l'.call ∧
      l'.sent = l.sends.flatMap Sent.taken ++ taken ∧ l'.got = l.recvs.flatMap Received.buff ∧ l'.up = l.up ∧ l'.down = l.down := by
  rw [send_loop]
  by_cases more : 0 < rem
  · rw [if_pos more]
    exact ⟨_,rfl,⟨called.sends,called.recvs⟩,⟨left,rest,whole,rfl,more,low,exact⟩,rfl,by simp [Link.got],rfl,rfl⟩
  · rw [if_neg more]
    refine ⟨_,rfl,called.send ⟨left,whole.symm⟩ (fun _ short => ?_),trivial,by simp [Link.sent],by simp [Link.got],rfl,rfl⟩
    have none := exact short
    have empty : left = [] := List.eq_nil_of_length_eq_zero (by omega)
    rw [whole,empty,List.append_nil]

theorem client_send_goes (called : Called l) (free : l.call = .out) {s : List Byte} (ended : 0 ∈ s) :
    ∃ l', atm_client_send l s = .ok l' ∧ Goes l l' := by
  have cut := CStrings.split_text ended
  have clean := CStrings.not_mem_text 0 s
  generalize CStrings.text 0 s = t at cut clean
  generalize s.drop (s.idxOf 0 + 1) = rest at cut
  subst cut
  rw [atm_client_send,strlen_ok clean,ok_bind,List.take_left]
  have low : (t.length : Int).bmod (2^32) ≤ t.length := by
    rw [Int.bmod]
    split <;> omega
  have exact : t.length < 2^31 → (t.length : Int).bmod (2^32) = t.length := by
    intro short
    apply Int.bmod_eq_of_le <;> omega
  generalize (t.length : Int).bmod (2^32) = rem at low exact ⊢
  obtain ⟨l',next,called',going,sent,got,up,down⟩ := @send_loop_goes l called t [] t rest rem (List.nil_append t).symm low exact
  refine ⟨l',congrArg Except.ok next,called',going,[],?_,?_,?_⟩
  · rw [sent,Link.sent,free,sent_out,List.append_nil,List.append_nil]
  · rw [up,List.append_nil]
  · rw [got,down,Link.got,free,got_out,List.append_nil]

theorem client_recv_goes (called : Called l) (free : l.call = .out) (size : Nat) : Goes l (atm_client_recv l size) := by
  refine ⟨⟨called.sends,called.recvs⟩,⟨rfl,Int.natCast_nonneg _,Int.add_zero _⟩,[],?_,?_,?_⟩
  · simp [atm_client_recv,Link.sent,free]
  · simp [atm_client_recv]
  · simp [atm_client_recv,Link.got,free]

theorem write_goes (called : Called l) (going : Going l.call) (count : Int) : Meets Waits (write_step l count) (Goes l) := by
  rw [write_step]
  cases call : l.call with
  | out => exact rfl
  | recv size buff rem total => exact rfl
  | send text taken buff rem =>
    rw [call] at going
    obtain ⟨left,rest,whole,rfl,positive,low,exact⟩ := going
    dsimp only
    by_cases fits : count ≤ rem
    swap
    · rw [if_neg fits]
      exact rfl
    have inside : rem.toNat ≤ (left ++ 0 :: rest).length := by
      rw [List.length_append]
      omega
    rw [if_pos fits,send_written,read_bytes_ok inside,ok_bind]
    by_cases takes : 0 < count
    · rw [if_pos takes]
      have short : count.toNat ≤ left.length := by omega
      have given : ((left ++ 0 :: rest).take rem.toNat).take count.toNat = left.take count.toNat := by
        rw [List.take_take,Nat.min_eq_left (by omega),List.take_append_of_le_length short]
      have behind : (left ++ 0 :: rest).drop count.toNat = left.drop count.toNat ++ 0 :: rest := List.drop_append_of_le_length short
      dsimp only
      rw [given,behind]
      have cut : text = (taken ++ left.take count.toNat) ++ left.drop count.toNat := by
        rw [List.append_assoc,List.take_append_drop,whole]
      have count' : ((left.drop count.toNat).length : Int) = left.length - count := by
        rw [List.length_drop]
        omega
      obtain ⟨l',next,called',going',sent,got,up,down⟩ :=
        @send_loop_goes { l with up := l.up ++ left.take count.toNat } ⟨called.sends,called.recvs⟩ text
          (taken ++ left.take count.toNat) (left.drop count.toNat) rest (rem - count) cut (by omega)
          (fun small => by rw [exact small,count'])
      rw [next]
      refine ⟨called',going',left.take count.toNat,?_,up,?_⟩
      · rw [sent,Link.sent,call,sent_send,List.append_assoc]
      · rw [got,down,Link.got,call,got_send,List.append_nil]
    · rw [if_neg takes]
      refine ⟨called.send ⟨left,whole.symm⟩ (fun gave_up => (by cases gave_up)),trivial,[],?_,?_,?_⟩
      · simp [Link.sent,call]
      · simp
      · simp [Link.got,call]

theorem read_goes (called : Called l) (going : Going l.call) (ret : Int) : Meets Waits (read_step l ret) (Goes l) := by
  rw [read_step]
  cases call : l.call with
  | out => exact rfl
  | send text taken buff rem => exact rfl
  | recv size buff rem total =>
    rw [call] at going
    obtain ⟨counted,nonneg,sum⟩ := going
    dsimp only
    by_cases fits : ret ≤ rem ∧ ret ≤ l.down.length
    swap
    · rw [if_neg fits]
      exact rfl
    obtain ⟨asked,there⟩ := fits
    rw [if_pos ⟨asked,there⟩,recv_read]
    by_cases gives : 0 < ret
    · rw [if_pos gives]
      have more : ((buff ++ l.down.take ret.toNat).length : Int) = total + ret := by
        rw [List.length_append,List.length_take]
        omega
      by_cases last : rem - ret = 0
      · rw [if_pos last]
        refine ⟨called.recv (by dsimp only; omega) (fun _ => more.symm),trivial,[],?_,?_,?_⟩
        · simp [Link.sent,call]
        · simp
        · simp [Link.got,call]
      · rw [if_neg last]
        refine ⟨⟨called.sends,called.recvs⟩,⟨more.symm,by omega,by omega⟩,[],?_,?_,?_⟩
        · simp [Link.sent,call]
        · simp
        · simp [Link.got,call]
    · rw [if_neg gives]
      refine ⟨called.recv (by dsimp only; omega) (fun counts => ?_),trivial,[],?_,?_,?_⟩
      · dsimp only at counts ⊢
        by_cases failed : ret < 0
        · rw [if_pos failed] at counts
          omega
        · rw [if_neg failed]
          exact counted
      · simp [Link.sent,call]
      · simp
      · simp [Link.got,call]

/-! ### One connection -/

/-- The beginning of what a client has written was executed, and what it has read and will read are answers to
    these lines. A connection that was not accepted has sent nothing on, and one that is open lost nothing. -/
structure LinkOk (s : Service) (rs : List (Nat × List Byte)) (i : Nat) (l : Link) : Prop where
  called : Called l
  going : Going l.call
  asked : ∃ taken, taken <+: l.sent ∧ Cut taken (of_client i s.history)
  told : l.got ++ l.down <+: (of_client i rs).flatten
  waiting : s.clients.length ≤ i → l.up = l.sent ∧ l.got ++ l.down = []
  open_ends : ∀ cl, get s.clients i = some cl → s.inlet i ++ l.up = l.sent ∧ s.outlet i = l.got ++ l.down

variable {siphash : List Byte → UInt64} {s s' : Service} {rs rs' : List (Nat × List Byte)}

/-- What is on its way and what is in the buffers of an open connection make up its streams. -/
theorem link_open (good : ServiceOk siphash s rs) (called : Called l) (going : Going l.call) {cl : Client}
    (found : get s.clients i = some cl) (sent : s.inlet i ++ l.up = l.sent) (got : s.outlet i = l.got ++ l.down) :
    LinkOk s rs i l := by
  obtain ⟨place,_,_,r_buf,w_buf,here,other,reads,writes,cut,said⟩ := good.clients i cl found
  rw [place] at here other
  refine ⟨called,going,⟨r_buf.taken_out,?_,cut⟩,?_,fun late => ?_,fun _ _ => ⟨sent,got⟩⟩
  · rw [← sent,inlet_of here,reads.order,List.append_assoc]
    exact List.prefix_append _ _
  · rw [← got,outlet_of other,← said,writes.order]
    exact List.prefix_append _ _
  · have low : i < s.clients.length := get_lt found
    omega

theorem of_client_grows (more : rs <+: rs') (i : Nat) : (of_client i rs).flatten <+: (of_client i rs').flatten := by
  obtain ⟨new,rfl⟩ := more
  rw [of_client_append,List.flatten_append]
  exact List.prefix_append _ _

/-- What happens on other connections does not matter. -/
theorem link_same (ok : LinkOk s rs i l) (history : of_client i s'.history = of_client i s.history) (more : rs <+: rs')
    (count : s'.clients.length ≤ i → s.clients.length ≤ i)
    (same : ∀ cl, get s'.clients i = some cl → (∃ cl₀, get s.clients i = some cl₀) ∧ SameAt s s' i) : LinkOk s' rs' i l := by
  refine ⟨ok.called,ok.going,?_,ok.told.trans (of_client_grows more i),fun late => ok.waiting (count late),fun cl found => ?_⟩
  · rw [history]
    exact ok.asked
  · obtain ⟨⟨cl₀,before⟩,inlet,outlet⟩ := same cl found
    rw [inlet,outlet]
    exact ok.open_ends cl₀ before

/-- A step of the client. -/
theorem link_goes (ok : LinkOk s rs i l) (goes : Goes l l') : LinkOk s rs i l' := by
  obtain ⟨out,sent,up,down⟩ := goes.moves
  refine ⟨goes.called,goes.going,?_,?_,fun late => ?_,fun cl found => ?_⟩
  · obtain ⟨taken,part,cut⟩ := ok.asked
    rw [sent]
    exact ⟨taken,part.trans (List.prefix_append _ _),cut⟩
  · rw [down]
    exact ok.told
  · obtain ⟨kept,none⟩ := ok.waiting late
    exact ⟨by rw [up,sent,kept],by rw [down,none]⟩
  · obtain ⟨first,second⟩ := ok.open_ends cl found
    exact ⟨by rw [up,sent,← first,List.append_assoc],by rw [down,second]⟩

/-! ### Steps of the service -/

/-- The record and the table of connections after an event. -/
def Shaped (s s' : Service) : Event → Prop
  | .accept => s'.history = s.history ∧ ∃ cl, s'.clients = alloc s.clients cl
  | .read i _ _ => (∃ new, s'.history = s.history ++ new ∧ ∀ e ∈ new, e.1 = i) ∧ ∃ cl, s'.clients = put s.clients i cl
  | .write _ _ => s'.history = s.history ∧ s'.clients = s.clients
  | .close i => s'.history = s.history ∧ s'.clients = free s.clients i

theorem step_shaped {e : Event} (done : service_step siphash s e = .ok s') : Shaped s s' e := by
  cases e with
  | accept =>
    obtain ⟨r,_,last⟩ := bind_eq_ok.mp done
    cases last
    exact ⟨rfl,_,rfl⟩
  | read i src again =>
    obtain ⟨cl,_,rest⟩ := bind_eq_ok.mp done
    obtain ⟨r,_,last⟩ := bind_eq_ok.mp rest
    cases last
    refine ⟨⟨_,rfl,fun e member => ?_⟩,_,rfl⟩
    obtain ⟨t,_,rfl⟩ := List.mem_map.mp member
    rfl
  | write i dest =>
    obtain ⟨r,wrote,last⟩ := bind_eq_ok.mp done
    cases last
    obtain ⟨cl,_,rest⟩ := bind_eq_ok.mp wrote
    obtain ⟨srv,_,last⟩ := bind_eq_ok.mp rest
    cases last
    exact ⟨rfl,rfl⟩
  | close i =>
    obtain ⟨cl,_,rest⟩ := bind_eq_ok.mp done
    obtain ⟨srv,_,last⟩ := bind_eq_ok.mp rest
    cases last
    exact ⟨rfl,rfl⟩

/-- The record only grows. -/
theorem shaped_history {e : Event} (shaped : Shaped s s' e) : s.history <+: s'.history := by
  cases e with
  | accept => exact ⟨[],by rw [shaped.1,List.append_nil]⟩
  | read i src again =>
    obtain ⟨⟨new,same,_⟩,_⟩ := shaped
    exact ⟨new,same.symm⟩
  | write i dest => exact ⟨[],by rw [shaped.1,List.append_nil]⟩
  | close i => exact ⟨[],by rw [shaped.1,List.append_nil]⟩

/-! ### What the service is given -/

/-- The lines that a client has written so far are shorter than `2^28` bytes, and none is a bare `set`. -/
structure Proper (sent : List Byte) : Prop where
  short : Short (2^28) sent
  argued : ∀ t ∈ complete_lines sent, query t ≠ .bare_set

theorem cut_last {stream : List Byte} {lines : List (List Byte)} (cut : Cut stream lines) :
    stream = [] ∨ ∃ pre x, stream = pre ++ [x] ∧ is_newline x = true := by
  obtain ⟨ends,length,_,runs,rfl⟩ := cut
  rcases List.eq_nil_or_concat ends with rfl | ⟨ends,r,rfl⟩
  · simp
  · right
    obtain ⟨filled,run⟩ := runs r (by simp)
    obtain ⟨front,x,rfl⟩ := (List.eq_nil_or_concat r).resolve_left filled
    rcases List.eq_nil_or_concat lines with rfl | ⟨lines,t,rfl⟩
    · simp at length
    · rw [List.concat_eq_append,List.concat_eq_append,List.zipWith_append (by simpa using length.symm)]
      refine ⟨(List.zipWith (· ++ ·) lines ends).flatten ++ (t ++ front),x,?_,run x (by simp)⟩
      simp

/-- The first line of what the service holds is empty or one that the client has written. -/
theorem argued_part {taken part later t : List Byte} {lines : List (List Byte)} (cut : Cut taken lines)
    (argued : ∀ t ∈ complete_lines (taken ++ (part ++ later)), query t ≠ .bare_set) (first : t ∈ (complete_lines part).head?) :
    query t ≠ .bare_set := by
  have whole : t ∈ (complete_lines (part ++ later)).head? := by
    rcases split_line is_newline part with clean | ⟨u,r,rest,rfl,clean,filled,run,next⟩
    · rw [complete_lines_eq_nil.mpr clean] at first
      cases first
    · rw [complete_lines,frame_line clean filled run next] at first
      cases first
      obtain ⟨x,r,rfl⟩ := List.exists_cons_of_ne_nil filled
      rw [complete_lines,List.append_assoc,List.append_assoc,List.cons_append]
      exact frame_first clean (run x List.mem_cons_self) _
  rcases cut_last cut with rfl | ⟨pre,x,rfl,here⟩
  · exact argued t (List.mem_of_mem_head? whole)
  · have resumed : t = [] ∨ t ∈ (frame is_newline [] false (pre ++ x :: (part ++ later))).1 := frame_resume here whole
    rcases resumed with rfl | inside
    · decide
    · refine argued t ?_
      rw [complete_lines,List.append_assoc]
      exact inside

theorem callable_of_sent (good : ServiceOk siphash s rs) (ok : LinkOk s rs i l) {cl : Client} (found : get s.clients i = some cl)
    (proper : Proper l.sent) {src : List Segment} (arrived : delivered src <+: l.up) :
    Callable (holds s.srv.bufs cl.conn.r_buf ++ delivered src) := by
  obtain ⟨place,_,_,r_buf,w_buf,here,other,reads,_,cut,_⟩ := good.clients i cl found
  obtain ⟨later,up⟩ := arrived
  have inlet : s.inlet i = r_buf.put_in := by
    rw [place] at here
    exact inlet_of here
  have sent : l.sent = r_buf.taken_out ++ ((Buffers.held s.srv.bufs.mem r_buf ++ delivered src) ++ later) := by
    rw [← (ok.open_ends cl found).1,inlet,reads.order,← up]
    simp
  rw [holds_eq here]
  obtain ⟨short,argued⟩ := proper
  rw [sent] at short argued
  refine ⟨fun t r clean run inside => short t r clean run ?_,fun t first => argued_part cut argued first⟩
  exact inside.trans ⟨r_buf.taken_out,later,by simp⟩

/-! ### The network -/

/-- The tasks of the service run for open connections, and read what a client has properly written; fewer than `2^27` lines
    are executed. -/
def Within (n : Network) : Label → Prop
  | .serve (.read i _ _) => n.service.history.length < 2^27 ∧ (∃ cl, get n.service.clients i = some cl) ∧
      ∀ l, n.links[i]? = some l → Proper l.sent
  | .serve (.write i _) => ∃ cl, get n.service.clients i = some cl
  | .serve (.close i) => ∃ cl, get n.service.clients i = some cl
  | .send _ s => 0 ∈ s
  | _ => True

structure NetworkOk (siphash : List Byte → UInt64) (n : Network) (rs : List (Nat × List Byte)) : Prop where
  good : ServiceOk siphash n.service rs
  accepted : n.service.clients.length ≤ n.links.length
  links : ∀ i l, n.links[i]? = some l → LinkOk n.service rs i l

/-- What a step keeps: the executed lines stay in their order. -/
def Grows (siphash : List Byte → UInt64) (n n' : Network) : Prop :=
  (∃ rs, NetworkOk siphash n' rs) ∧ n.service.history <+: n'.service.history

theorem link_cases (n : Network) (i : Nat) : n.link i = .error .disabled ∨ ∃ l, n.links[i]? = some l ∧ n.link i = .ok l := by
  rw [Network.link]
  cases n.links[i]? with
  | none => exact .inl rfl
  | some l => exact .inr ⟨l,rfl,rfl⟩

/-- One link is put back, and the others are as they were. -/
theorem network_set (good : ServiceOk siphash n.service rs) (accepted : n.service.clients.length ≤ n.links.length)
    (mine : LinkOk n.service rs i l) (others : ∀ j l', j ≠ i → n.links[j]? = some l' → LinkOk n.service rs j l') :
    NetworkOk siphash (n.set i l) rs := by
  refine ⟨good,by simpa [Network.set] using accepted,fun j l' found => ?_⟩
  simp only [Network.set,List.getElem?_set] at found
  by_cases same : i = j
  · subst same
    rw [if_pos rfl] at found
    split at found
    · cases found
      exact mine
    · cases found
  · rw [if_neg same] at found
    exact others j l' (Ne.symm same) found

/-- A step of one client. -/
theorem client_goes (ok : NetworkOk siphash n rs) {next : Link → Except Stop Link}
    (goes : ∀ l, n.links[i]? = some l → Called l → Going l.call → Meets Waits (next l) (Goes l)) :
    Meets Waits (do let l ← n.link i; return n.set i (← next l)) (Grows siphash n) := by
  rcases link_cases n i with absent | ⟨l,found,here⟩
  · rw [absent]
    exact rfl
  · rw [here,ok_bind]
    have mine := ok.links i l found
    refine (goes l found mine.called mine.going).bind (fun l' gone => ?_)
    exact ⟨⟨rs,network_set ok.good ok.accepted (link_goes mine gone) (fun j l' _ other => ok.links j l' other)⟩,List.prefix_rfl⟩

theorem call_goes {next : Except Fault Link} (goes : l.call = .out → ∃ l', next = .ok l' ∧ Goes l l') :
    Meets Waits (call_step l next) (Goes l) := by
  rw [call_step]
  cases call : l.call with
  | out =>
    obtain ⟨l',rfl,gone⟩ := goes call
    exact gone
  | send text taken buff rem => exact rfl
  | recv size buff rem total => exact rfl

/-- The connection of an event. -/
def subject (s : Service) : Event → Nat
  | .accept => s.clients.length
  | .read i _ _ => i
  | .write i _ => i
  | .close i => i

theorem others_same {e : Event} (ok : LinkOk s rs i l) (flow : Flow s s' e) (shaped : Shaped s s' e) (more : rs <+: rs')
    (other : i ≠ subject s e) : LinkOk s' rs' i l := by
  cases e with
  | accept =>
    obtain ⟨history,cl,clients⟩ := shaped
    refine link_same ok (by rw [history]) more (fun late => ?_) (fun cl' found => ?_)
    · rw [clients,alloc_length] at late
      omega
    · rw [clients] at found
      rcases get_of_alloc found with ⟨same,_⟩ | old
      · exact absurd same other
      · exact ⟨⟨cl',old⟩,flow.1 i (get_lt old)⟩
  | read j src again =>
    obtain ⟨⟨new,history,own⟩,cl,clients⟩ := shaped
    refine link_same ok ?_ more (fun late => ?_) (fun cl' found => ?_)
    · rw [history,of_client_append,of_client_none own other,List.append_nil]
    · rwa [clients,put_length] at late
    · have apart : i ≠ j := other
      rw [clients,get_put_other _ apart] at found
      exact ⟨⟨cl',found⟩,flow.2.2 i other⟩
  | write j dest =>
    obtain ⟨history,clients⟩ := shaped
    refine link_same ok (by rw [history]) more (fun late => ?_) (fun cl' found => ?_)
    · rwa [clients] at late
    · rw [clients] at found
      exact ⟨⟨cl',found⟩,flow.2.2 i other⟩
  | close j =>
    obtain ⟨history,clients⟩ := shaped
    refine link_same ok (by rw [history]) more (fun late => ?_) (fun cl' found => ?_)
    · rwa [clients,free_length] at late
    · have apart : i ≠ j := other
      rw [clients,get_free_other _ apart] at found
      exact ⟨⟨cl',found⟩,flow i other⟩

theorem serve_done {e : Event} (ok : NetworkOk siphash n rs) (inside : Session.Within n.service e) :
    ∃ s' rs', serve siphash n e = .ok { n with service := s' } ∧ ServiceOk siphash s' rs' ∧ rs <+: rs' ∧
      Flow n.service s' e ∧ Shaped n.service s' e := by
  obtain ⟨s',rs',done,good,more,flow⟩ := event_ok ok.good inside
  refine ⟨s',rs',?_,good,more,flow,step_shaped done⟩
  rw [serve,done]
  rfl

theorem serve_goes (ok : NetworkOk siphash n rs) {e : Event} (within : Within n (.serve e)) :
    Meets Waits (serve_step siphash n e) (Grows siphash n) := by
  cases e with
  | accept =>
    rw [serve_step]
    by_cases made : n.service.clients.length < n.links.length
    swap
    · rw [if_neg made]
      exact rfl
    obtain ⟨s',rs',done,good,more,flow,shaped⟩ := serve_done ok (e := .accept) trivial
    rw [if_pos made,done]
    obtain ⟨cl,clients⟩ := shaped.2
    refine ⟨⟨rs',good,?_,fun i l found => ?_⟩,shaped_history shaped⟩
    · show s'.clients.length ≤ n.links.length
      rw [clients,alloc_length]
      omega
    · have before := ok.links i l found
      by_cases new : i = n.service.clients.length
      · subst new
        obtain ⟨up,none⟩ := before.waiting (Nat.le_refl _)
        have here : get s'.clients n.service.clients.length = some cl := by
          rw [clients]
          exact get_alloc_new ..
        exact link_open good before.called before.going here (by rw [flow.2.1,up,List.nil_append]) (by rw [flow.2.2,none])
      · exact others_same before flow shaped more new
  | read i src again =>
    obtain ⟨few,⟨cl,there⟩,proper⟩ := within
    rw [serve_step]
    rcases link_cases n i with absent | ⟨l,found,here⟩
    · rw [absent]
      exact rfl
    rw [here,ok_bind]
    by_cases arrived : delivered src <+: l.up
    swap
    · rw [if_neg arrived]
      exact rfl
    have before := ok.links i l found
    have callable := callable_of_sent ok.good before there (proper l found) arrived
    obtain ⟨s',rs',done,good,more,flow,shaped⟩ := serve_done ok (e := .read i src again) ⟨few,cl,there,callable⟩
    rw [if_pos arrived,done]
    obtain ⟨cl',clients⟩ := shaped.2
    have here' : get s'.clients i = some cl' := by
      rw [clients]
      exact get_put_self there cl'
    obtain ⟨sent,got⟩ := before.open_ends cl there
    obtain ⟨later,up⟩ := arrived
    refine ⟨⟨rs',network_set good ?_ ?_ (fun j l' other old => others_same (ok.links j l' old) flow shaped more other)⟩,
      shaped_history shaped⟩
    · show s'.clients.length ≤ n.links.length
      rw [clients,put_length]
      exact ok.accepted
    · refine link_open good ⟨before.called.sends,before.called.recvs⟩ before.going here' ?_ ?_
      · show s'.inlet i ++ l.up.drop (delivered src).length = l.sent
        rw [flow.1,← sent,← up,List.drop_left,List.append_assoc]
      · exact flow.2.1.trans got
  | write i dest =>
    obtain ⟨cl,there⟩ := within
    rw [serve_step]
    rcases link_cases n i with absent | ⟨l,found,here⟩
    · rw [absent]
      exact rfl
    have before := ok.links i l found
    obtain ⟨s',rs',done,good,more,flow,shaped⟩ := serve_done ok (e := .write i dest) ⟨cl,there⟩
    obtain ⟨bytes,wrote,outlet⟩ := flow.2.1
    rw [here,ok_bind,wrote]
    have clients := shaped.2
    have here' : get s'.clients i = some cl := by
      rw [clients]
      exact there
    obtain ⟨sent,got⟩ := before.open_ends cl there
    refine ⟨⟨rs',network_set good ?_ ?_ (fun j l' other old => others_same (ok.links j l' old) flow shaped more other)⟩,
      shaped_history shaped⟩
    · show s'.clients.length ≤ n.links.length
      rw [clients]
      exact ok.accepted
    · refine link_open good ⟨before.called.sends,before.called.recvs⟩ before.going here' ?_ ?_
      · exact (congrArg (· ++ l.up) flow.1).trans sent
      · show s'.outlet i = l.got ++ (l.down ++ bytes)
        rw [outlet,got,List.append_assoc]
  | close i =>
    obtain ⟨s',rs',done,good,more,flow,shaped⟩ := serve_done ok (e := .close i) within
    rw [serve_step,done]
    refine ⟨⟨rs',good,?_,fun j l found => ?_⟩,shaped_history shaped⟩
    · show s'.clients.length ≤ n.links.length
      rw [shaped.2,free_length]
      exact ok.accepted
    · have before := ok.links j l found
      by_cases closed : j = i
      · subst closed
        refine link_same before (by rw [shaped.1]) more (fun late => ?_) (fun cl' still => ?_)
        · rwa [shaped.2,free_length] at late
        · rw [shaped.2,get_free_self] at still
          cases still
      · exact others_same before flow shaped more closed

theorem connect_goes (ok : NetworkOk siphash n rs) : NetworkOk siphash { n with links := n.links ++ [atm_client_new] } rs := by
  have accepted := ok.accepted
  refine ⟨ok.good,by simp only [List.length_append]; omega,fun i l found => ?_⟩
  rw [List.getElem?_append] at found
  by_cases old : i < n.links.length
  · rw [if_pos old] at found
    exact ok.links i l found
  · rw [if_neg old] at found
    have late : n.service.clients.length ≤ i := by omega
    have new : l = atm_client_new := by
      rw [List.getElem?_singleton] at found
      split at found
      · exact (Option.some.inj found).symm
      · cases found
    subst new
    refine ⟨client_new_called,trivial,⟨[],List.prefix_rfl,?_⟩,List.nil_prefix,fun _ => ⟨rfl,rfl⟩,fun cl there => ?_⟩
    · rw [of_client_unused (unused_late ok.good late)]
      exact cut_nil
    · have low : i < n.service.clients.length := get_lt there
      omega

theorem step_goes (ok : NetworkOk siphash n rs) {label : Label} (within : Within n label) :
    Meets Waits (step siphash n label) (Grows siphash n) := by
  cases label with
  | connect => exact ⟨⟨rs,connect_goes ok⟩,List.prefix_rfl⟩
  | send i s => exact client_goes ok (fun l _ called _ => call_goes (fun free => client_send_goes called free within))
  | write i count => exact client_goes ok (fun l _ called going => write_goes called going count)
  | recv i size => exact client_goes ok (fun l _ called _ => call_goes (fun free => ⟨_,rfl,client_recv_goes called free size⟩))
  | read i ret => exact client_goes ok (fun l _ called going => read_goes called going ret)
  | serve e => exact serve_goes ok within

/-- What was written was executed line by line up to a point, and what was read is the beginning of the answers. On an
    open connection the rest is on its way or in its buffers. -/
structure Served (s : Service) (rs : List (Nat × List Byte)) (i : Nat) (l : Link) : Prop where
  called : Called l
  asked : ∃ taken, taken <+: l.sent ∧ Cut taken (of_client i s.history) ∧
    ∀ cl, get s.clients i = some cl → l.sent = taken ++ (holds s.srv.bufs cl.conn.r_buf ++ l.up)
  told : l.got <+: (of_client i rs).flatten ∧
    ∀ cl, get s.clients i = some cl → (of_client i rs).flatten = l.got ++ (l.down ++ holds s.srv.bufs cl.conn.w_buf)

theorem link_served (good : ServiceOk siphash s rs) (ok : LinkOk s rs i l) : Served s rs i l := by
  have began : l.got <+: (of_client i rs).flatten := (List.prefix_append _ _).trans ok.told
  cases found : get s.clients i with
  | none =>
    obtain ⟨taken,part,cut⟩ := ok.asked
    exact ⟨ok.called,⟨taken,part,cut,fun cl there => (by rw [found] at there; cases there)⟩,began,
      fun cl there => (by rw [found] at there; cases there)⟩
  | some cl =>
    obtain ⟨place,_,_,r_buf,w_buf,here,other,reads,writes,cut,said⟩ := good.clients i cl found
    obtain ⟨sent,got⟩ := ok.open_ends cl found
    have here₀ := here
    have other₀ := other
    rw [place] at here₀ other₀
    rw [inlet_of here₀,reads.order,List.append_assoc] at sent
    rw [outlet_of other₀] at got
    refine ⟨ok.called,⟨r_buf.taken_out,⟨_,sent⟩,cut,fun cl' there => ?_⟩,began,fun cl' there => ?_⟩
    · rw [found] at there
      cases there
      rw [holds_eq here,sent]
    · rw [found] at there
      cases there
      rw [holds_eq other,← said,writes.order,got,List.append_assoc]

theorem run_goes (ok : ∃ rs, NetworkOk siphash n rs) {labels : List Label} (within : EachStep (step siphash) n labels Within) :
    Meets Waits (run (step siphash) n labels) (Grows siphash n) := by
  refine run_meets (P := fun _ n' => Grows siphash n n') ⟨ok,List.prefix_rfl⟩ ?_ within
  rintro _ label t ⟨⟨rs,here⟩,so_far⟩ inside
  exact (step_goes here inside).mono (fun u grows => ⟨grows.1,so_far.trans grows.2⟩)

theorem network_start {cmds : Dict.Dictionary (Option Str) Cmd} (init : atm_cmd_init siphash = .ok cmds) :
    NetworkOk siphash (network cmds) [] :=
  ⟨start_ok init,Nat.le_refl _,fun _ _ found => (by cases found)⟩

/-- Bounds that can be computed. -/
def Checked (n : Network) : Label → Prop
  | .serve (.read i _ _) => n.service.history.length < 2^27 ∧ (get n.service.clients i).isSome ∧
      ∀ l ∈ n.links[i]?, l.sent.length < 2^28 ∧ ∀ t ∈ complete_lines l.sent, query t ≠ .bare_set
  | .serve (.write i _) => (get n.service.clients i).isSome
  | .serve (.close i) => (get n.service.clients i).isSome
  | .send _ s => 0 ∈ s
  | _ => True

instance (n : Network) : ∀ label, Decidable (Checked n label)
  | .serve (.read _ _ _) => inferInstanceAs (Decidable (_ ∧ _ ∧ _))
  | .serve (.write _ _) => inferInstanceAs (Decidable (_ = true))
  | .serve (.close _) => inferInstanceAs (Decidable (_ = true))
  | .serve .accept => inferInstanceAs (Decidable True)
  | .send _ _ => inferInstanceAs (Decidable (_ ∈ _))
  | .connect => inferInstanceAs (Decidable True)
  | .write _ _ => inferInstanceAs (Decidable True)
  | .recv _ _ => inferInstanceAs (Decidable True)
  | .read _ _ => inferInstanceAs (Decidable True)

theorem checked_within {label : Label} (checked : Checked n label) : Within n label := by
  cases label with
  | serve e =>
    cases e with
    | accept => exact trivial
    | read i src again =>
      obtain ⟨few,there,proper⟩ := checked
      exact ⟨few,Option.isSome_iff_exists.mp there,fun l found => ⟨Buffers.short_of_length (proper l found).1,(proper l found).2⟩⟩
    | write i dest => exact Option.isSome_iff_exists.mp checked
    | close i => exact Option.isSome_iff_exists.mp checked
  | send i s => exact checked
  | connect => exact trivial
  | write i count => exact trivial
  | recv i size => exact trivial
  | read i ret => exact trivial

/-- Whatever the order of steps, no step faults, and the answers that the clients read are those of a store; of fewer than
    256 different words, those of one store that serves the lines of all clients in the order of their execution. What
    has been executed before stays before. -/
theorem clients_served {cmds : Dict.Dictionary (Option Str) Cmd} (init : atm_cmd_init siphash = .ok cmds) {labels : List Label}
    (within : EachStep (step siphash) (network cmds) labels Within) :
    Meets Waits (run (step siphash) (network cmds) labels) (fun n => ∃ rs, Answered n.service.history rs ∧
      (FewKeys (queries n.service.history) → rs = Session.serve (fun _ => none) n.service.history) ∧
      (∀ i l, n.links[i]? = some l → Served n.service rs i l) ∧
      ∀ pre n₀, pre <+: labels → run (step siphash) (network cmds) pre = .ok n₀ → n₀.service.history <+: n.service.history) := by
  have start : ∃ rs, NetworkOk siphash (network cmds) rs := ⟨[],network_start init⟩
  have whole := run_goes start within
  cases ran : run (step siphash) (network cmds) labels with
  | error e =>
    rw [ran] at whole
    exact whole
  | ok n =>
    obtain ⟨rs,ok⟩ := (whole.result ran).1
    refine ⟨rs,ok.good.answered,answered_serve ok.good.answered,fun i l found => link_served ok.good (ok.links i l found),?_⟩
    rintro pre n₀ ⟨post,rfl⟩ before
    have here := ((run_goes start (eachStep_shorten within (List.prefix_append pre post))).result before).1
    have later := run_goes here (eachStep_after within before)
    rw [run_append_ok _ before] at ran
    exact (later.result ran).2

/-- The second of two clients sends a request in two parts and reads the first four bytes of the answer. -/
def one_request : List Label :=
  [.connect,.connect,.send 1 (set_a_b ++ newline ++ [0]),.write 1 5,.serve .accept,.serve .accept,
    .serve (.read 1 [.data (set_a_b.take 5)] true),.write 1 3,.recv 1 4,
    .serve (.read 1 [.data ((set_a_b ++ newline).drop 5)] true),.serve (.write 1 [.bytes 100]),.read 1 4]

theorem clients_served_one : ∃ cmds n, atm_cmd_init zero_hash = .ok cmds ∧ run (step zero_hash) (network cmds) one_request = .ok n ∧
    n.links.map Link.got = [[],success.take 4] ∧ ∃ rs, Answered n.service.history rs ∧
      ∀ i l, n.links[i]? = some l → Served n.service rs i l := by
  obtain ⟨cmds,init,_⟩ := word_unknown
  have both : (atm_cmd_init zero_hash).map (fun cmds =>
      ((run (step zero_hash) (network cmds) one_request).map (fun n => n.links.map Link.got),
        decide (EachStep (step zero_hash) (network cmds) one_request Checked))) = .ok (.ok [[],success.take 4],true) := by
    decide +kernel
  rw [init] at both
  obtain ⟨told,each⟩ := Prod.mk.inj (Except.ok.inj both)
  have within : EachStep (step zero_hash) (network cmds) one_request Within :=
    fun pre label t inside ran => checked_within (of_decide_eq_true each pre label t inside ran)
  -- From here on nothing about the run is to be computed.
  generalize one_request = labels at told within ⊢
  cases ran : run (step zero_hash) (network cmds) labels with
  | error e =>
    rw [ran] at told
    cases told
  | ok n =>
    rw [ran] at told
    obtain ⟨rs,answered,_,served,_⟩ := (clients_served init within).result ran
    exact ⟨cmds,n,init,ran,Except.ok.inj told,rs,answered,served⟩

end AtmCache.Clients
