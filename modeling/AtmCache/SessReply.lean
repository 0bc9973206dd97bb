import AtmCache.DictFill
import AtmCache.SessArity
import AtmCache.StrSplit
import AtmCache.StrTokens

/-!
# Replies

A request is answered by one message with one newline, at its end. `atm_str_new` leaves at least
one spare byte, so the newline never moves a message and its header counts it once. A value
that is sent back was a word of an earlier line, so it has no newline of its own; `CacheOk` says
so of all values that commands have stored.
-/
namespace AtmCache.Session
open Buffers CStrings Heap Lines Runs Strings

variable {siphash : List Byte → UInt64} {srv srv' : Server} {c : Conn} {se se' : Sess}

/-- A message with one newline, at its end, and a header that counts its bytes. -/
structure Reply (msg : Str) : Prop where
  measured : strlen msg.val = .ok msg.len
  framed : ∃ body, msg.val.take msg.len = body ++ newline ∧ Open is_newline body

/-! ### Messages -/

theorem open_no_zero {t : List Byte} (clean : Open is_newline t) : 0 ∉ t := fun member => by
  have := clean 0 member
  simp [is_newline] at this

theorem reply_made {t : List Byte} (clean : Open is_newline t) (rest : List Byte) : Reply (made (t ++ newline) rest) where
  measured := strlen_ok (not_mem_append (open_no_zero clean) (by decide)) rest
  framed := ⟨t,List.take_left,clean⟩

/-- A newline is appended in place to a text with a spare byte. -/
theorem newline_appended {dest : Option Str} (ok : OptOk dest) (clean : Open is_newline (str_text dest))
    (room : Spare dest 1) : ∃ msg res, append dest 1 (fun _ val => strcat val (c_string newline)) = .ok res ∧
      res.str = some msg ∧ Reply msg ∧ HeaderOk msg ∧ msg.len = (str_text dest).length + 1 := by
  obtain ⟨rest,res,done,here,header⟩ := append_text ok (show 0 ∉ newline by decide) room (cats_c_string (by decide))
  exact ⟨_,res,done,here,reply_made clean rest,header,by rw [made,List.length_append]; rfl⟩

/-- What `atm_sess_reply` writes. -/
theorem reply_ok {m : List Byte} (clean : Open is_newline m) (short : m.length + 17 < 2^32) :
    ∃ msg, Reply msg ∧ HeaderOk msg ∧ msg.len = m.length + 1 ∧
      ∀ srv c, atm_sess_reply srv c m = atm_conn_write_str srv c (some msg) := by
  obtain ⟨rest,new,header,room⟩ := Strings.new_ok (open_no_zero clean) short
  have ok : OptOk (some (made m rest)) := by
    rintro _ ⟨⟩
    exact header
  obtain ⟨msg,res,done,here,reply,header',length⟩ := newline_appended ok (by rw [str_text_made]; exact clean)
    (show 1 ≤ m.length + rest.length - m.length by omega)
  rw [str_text_made] at length
  have appended : atm_str_cats (some (made m rest)) (some newline) = .ok res := by
    rw [cats_eq (by decide) (by decide)]
    exact done
  refine ⟨msg,reply,header',length,fun srv c => ?_⟩
  rw [atm_sess_reply,new,ok_bind,appended,ok_bind,here]

/-- A message is written as long as its header says. -/
theorem write_str_eq {msg : Str} (header : HeaderOk msg) (srv : Server) (c : Conn) :
    atm_conn_write_str srv c (some msg) = atm_conn_write srv c (msg.val.take msg.len) := by
  have block := header.block
  have bound := header.bound
  rw [atm_conn_write_str,read_bytes_ok (by omega),ok_bind]

/-! ### Values -/

/-- NULL, or a word of a line: a right header, a spare byte, and no newline. -/
def ValueOk (o : Obj) : Prop :=
  ∀ s, o.value = some s → ∃ content rest, s = made content rest ∧ HeaderOk s ∧ rest ≠ [] ∧ Open is_newline content ∧
    content.length + 1 < 2^31

/-- A cache that was only set, with values that can be sent back. -/
structure CacheOk (siphash : List Byte → UInt64) (cache : Dict.Dictionary Obj Obj) : Prop where
  only_set : Dict.OnlySet (ATM_OBJ_T siphash) cache
  values : ∀ e ∈ cache.entries, ValueOk e.val

theorem new_cache_ok : CacheOk siphash (Dict.atm_dict_new .deep) := by
  refine ⟨Dict.new_only_set .deep,fun e member => ?_⟩
  rw [(Dict.new_tallied .deep).2] at member
  exact absurd member List.not_mem_nil

theorem set_cache_ok {cache cache' : Dict.Dictionary Obj Obj} (ok : CacheOk siphash cache) {k v : Obj} (value : ValueOk v)
    (done : Dict.atm_dict_set (ATM_OBJ_T siphash) cache k v = .ok cache') : CacheOk siphash cache' :=
  ⟨Dict.set_only_set ok.only_set done,(Dict.set_values (P := ValueOk) ok.only_set.tallied ok.values value done).2⟩

theorem get_value_ok {cache : Dict.Dictionary Obj Obj} (ok : CacheOk siphash cache) {k : Obj} {v : Option Obj}
    (got : Dict.atm_dict_get (ATM_OBJ_T siphash) cache k = .ok v) : ValueOk ⟨atm_obj_str v⟩ := by
  cases v with
  | none => exact fun s same => (by cases same)
  | some v =>
    obtain ⟨e,member,rfl⟩ := Dict.get_value got
    exact ok.values e member

/-- The answer to a `get`: the value and a newline, or a newline alone. -/
theorem value_reply {s : Option Str} (ok : ValueOk ⟨s⟩) : ∃ msg res, atm_str_cats_dup s (some newline) = .ok res ∧
    res.str = some msg ∧ Reply msg ∧ HeaderOk msg ∧ msg.len < 2^31 := by
  have text : OptOk s ∧ Open is_newline (str_text s) ∧ Spare s 1 ∧ (str_text s).length + 1 < 2^31 := by
    cases s with
    | none => exact ⟨fun s same => (by cases same),fun x member => absurd member List.not_mem_nil,⟨by decide,by decide⟩,by decide⟩
    | some s =>
      obtain ⟨content,rest,rfl,header,room,clean,short⟩ := ok s rfl
      rw [str_text_made]
      refine ⟨?_,clean,?_,short⟩
      · rintro _ ⟨⟩
        exact header
      · have := List.length_pos_iff.mpr room
        show 1 ≤ content.length + rest.length - content.length
        omega
  obtain ⟨optOk,clean,room,short⟩ := text
  obtain ⟨msg,res,done,here,reply,header,length⟩ := newline_appended optOk clean room
  exact ⟨msg,res,by rw [cats_dup_eq optOk (by decide) (by decide)]; exact done,here,reply,header,by omega⟩

/-- What a command makes of a word of a line. -/
theorem word_copied {t : List Byte} (clean : Open is_newline t) {len : Nat} (short : len + 1 < 2^31) {w : Str}
    (word : Word t len w) : ∃ s, str_new_of w.val = .ok (some s) ∧ ValueOk ⟨some s⟩ := by
  obtain ⟨content,room,rfl,_,_,no_zero,length,bytes⟩ := word
  obtain ⟨rest,new,header,spare⟩ := Strings.new_ok no_zero (by omega)
  refine ⟨made content rest,?_,?_⟩
  · rw [str_new_of,show (made content room).val = content ++ 0 :: room from rfl,strlen_ok no_zero,ok_bind,List.take_left,new]
  · rintro _ ⟨⟩
    refine ⟨content,rest,rfl,header,?_,fun x inside => clean x (bytes x inside),by omega⟩
    rw [← List.length_pos_iff]
    omega

/-- The words of a line as the array of a session. -/
theorem argv_words {t spare : List Byte} (clean : Open is_newline t) (short : t.length + 1 < 2^31)
    {argv : List (Option Str)} (split : atm_str_split (made t spare).val 32 (made t spare).len = .ok (some argv)) :
    ∃ words : List Str, argv = words.map some ++ [none] ∧ (argv.takeWhile Option.isSome).length = words.length ∧
      ∀ w ∈ words, ∃ s, str_new_of w.val = .ok (some s) ∧ ValueOk ⟨some s⟩ := by
  obtain ⟨words,rfl,each⟩ := split_words split
  refine ⟨words,rfl,?_,fun w member => ?_⟩
  · have all : ∀ w ∈ words.map some, w.isSome = true := by
      intro w member
      obtain ⟨s,_,rfl⟩ := List.mem_map.mp member
      rfl
    rw [List.takeWhile_append_of_pos all]
    simp
  · have word := each w member
    rw [show (made t spare).val.take (made t spare).len = t from List.take_left] at word
    exact word_copied clean short word

/-- The arguments that a handler makes of a session are words of a line. -/
def ParasOk (se : Sess) : Prop := ∀ i o, atm_cmd_para se.argv i = .ok o → ValueOk o

/-- Up to the NULL at its end, each word of a line is read. -/
def ParasRead (se : Sess) : Prop := ∀ i ≤ se.argc, se.argv ≠ none → ∃ o, atm_cmd_para se.argv i = .ok o

theorem request_paras {t spare : List Byte} (clean : Open is_newline t) (short : t.length + 1 < 2^31)
    (request : Request siphash srv (made t spare) se) : ParasOk se ∧ ParasRead se := by
  rcases request with ⟨_,_,_,argv⟩ | ⟨argv,split,_,argc,same⟩
  · refine ⟨fun i o read => ?_,fun _ _ some => absurd argv some⟩
    rw [argv] at read
    cases read
  obtain ⟨words,rfl,count,each⟩ := argv_words clean short split
  have copied : ∀ {i w}, (words.map some ++ [none])[i]? = some w → ∃ o, ValueOk o ∧
      atm_cmd_para (some (words.map some ++ [none])) i = .ok o := by
    intro i w found
    have read : argv_at (some (words.map some ++ [none])) i = .ok w := by simp only [argv_at,found]
    cases w with
    | none => exact ⟨⟨none⟩,fun s same => (by cases same),by rw [atm_cmd_para,read]; rfl⟩
    | some s =>
      have word : s ∈ words := by simpa using List.mem_of_getElem? found
      obtain ⟨s',copy,ok⟩ := each s word
      exact ⟨⟨some s'⟩,ok,by rw [atm_cmd_para,read,ok_bind]; dsimp only; rw [copy]; rfl⟩
  rw [ParasOk,ParasRead,same,argc,count]
  constructor
  · intro i o read
    cases found : (words.map some ++ [none])[i]? with
    | none => simp [atm_cmd_para,argv_at,found] at read
    | some w =>
      obtain ⟨o',ok,read'⟩ := copied found
      rw [read] at read'
      cases read'
      exact ok
  · intro i inside _
    have found : i < (words.map some ++ [none]).length := by simp; omega
    obtain ⟨o,_,read⟩ := copied (List.getElem?_eq_getElem found)
    exact ⟨o,read⟩

/-! ### One request -/

/-- The end of a request: the cache is as it should be, and one reply has been written. -/
structure Replied (siphash : List Byte → UInt64) (c : Conn) (srv srv' : Server) (msg : Str) : Prop where
  reply : Reply msg
  header : HeaderOk msg
  cache : CacheOk siphash srv'.cache_dict
  wrote : ∃ srv₁, srv₁.bufs = srv.bufs ∧ atm_conn_write_str srv₁ c (some msg) = .ok srv'

theorem replied_fixed {m : List Byte} (clean : Open is_newline m) (short : m.length + 17 < 2^32) {srv₁ : Server}
    (bufs : srv₁.bufs = srv.bufs) (cache : CacheOk siphash srv₁.cache_dict) (replied : atm_sess_reply srv₁ c m = .ok srv') :
    ∃ msg, Replied siphash c srv srv' msg := by
  obtain ⟨msg,reply,header,_,same⟩ := reply_ok clean short
  have kept := (reply_keeps_cache replied).1
  rw [same] at replied
  exact ⟨msg,reply,header,by rw [kept]; exact cache,srv₁,bufs,replied⟩

theorem success_clean : Open is_newline success := by
  unfold Open
  decide +kernel

theorem invalid_argc_clean : Open is_newline invalid_argc := by
  unfold Open
  decide +kernel

theorem invalid_cmd_clean : Open is_newline invalid_cmd := by
  unfold Open
  decide +kernel

/-- Whatever the command, a request that returns has been answered by one reply. -/
theorem call_replied (cache : CacheOk siphash srv.cache_dict) (paras : ParasOk se)
    (ran : call_cmd siphash srv c se = .ok srv') : ∃ msg, Replied siphash c srv srv' msg := by
  unfold call_cmd at ran
  cases called : se.cmd with
  | none =>
    rw [called] at ran
    exact replied_fixed invalid_cmd_clean (by decide) rfl cache ran
  | some cmd =>
    rw [called] at ran
    dsimp only at ran
    rw [cmd_func] at ran
    cases func : cmd.func with
    | atm_cmd_func_get =>
      rw [func] at ran
      dsimp only at ran
      rw [atm_cmd_func_get] at ran
      by_cases fits : argc_fits cmd se = true
      · rw [if_pos fits] at ran
        obtain ⟨k,_,ran⟩ := bind_eq_ok.mp ran
        obtain ⟨v,got,ran⟩ := bind_eq_ok.mp ran
        obtain ⟨res,made',wrote⟩ := bind_eq_ok.mp ran
        obtain ⟨msg,res',done,here,reply,header,_⟩ := value_reply (get_value_ok cache got)
        rw [made'] at done
        cases done
        rw [here] at wrote
        exact ⟨msg,reply,header,by rw [(write_str_keeps_cache wrote).1]; exact cache,srv,rfl,wrote⟩
      · rw [if_neg fits] at ran
        exact replied_fixed invalid_argc_clean (by decide) rfl cache ran
    | atm_cmd_func_set =>
      rw [func] at ran
      dsimp only at ran
      rw [atm_cmd_func_set] at ran
      by_cases fits : argc_fits cmd se = true
      · rw [if_pos fits] at ran
        obtain ⟨k,_,ran⟩ := bind_eq_ok.mp ran
        obtain ⟨v,para,ran⟩ := bind_eq_ok.mp ran
        obtain ⟨cache',stored,ran⟩ := bind_eq_ok.mp ran
        have cache₁ : CacheOk siphash ({ srv with cache_dict := cache' } : Server).cache_dict :=
          set_cache_ok cache (paras 2 v para) stored
        have bufs : ({ srv with cache_dict := cache' } : Server).bufs = srv.bufs := rfl
        exact replied_fixed success_clean (by decide) bufs cache₁ ran
      · rw [if_neg fits] at ran
        exact replied_fixed invalid_argc_clean (by decide) rfl cache ran

/-! ### One call -/

/-- The bytes that a buffer holds. -/
def holds (w : World) (b : Nat) : List Byte :=
  match get w.bufs b with
  | some buf => held w.mem buf
  | none => []

theorem holds_eq {w : World} {b : Nat} {buf : Buf} (found : get w.bufs b = some buf) : holds w b = held w.mem buf := by
  rw [holds,found]

theorem untouched_holds {b : Nat} (kept : Untouched b srv srv') : holds srv'.bufs b = holds srv.bufs b := by
  unfold holds
  rw [kept.same]
  cases found : get srv.bufs.bufs b with
  | none => rfl
  | some buf => exact kept.bytes buf found

/-- A write appends its bytes to the write buffer. -/
theorem conn_write_holds (ok : WorldOk srv.bufs) {src : List Byte} (wrote : atm_conn_write srv c src = .ok srv') :
    holds srv'.bufs c.w_buf = holds srv.bufs c.w_buf ++ src := by
  obtain ⟨buf,blks,m',buf',blks',found,view,moved,rfl⟩ := conn_write_moves ok wrote
  rw [holds_eq found,holds_eq (get_put_self found buf'),held_of_chain view.cells]
  exact (held_of_chain moved.view.cells).trans moved.held.symm

/-- What one call leaves: nothing has happened while no line is complete, and otherwise one line was
    taken and one reply was written. -/
structure Framed (c : Conn) (srv srv' : Server) (se' : Sess) : Prop where
  idle : Idle se'
  answered : (complete_lines (holds srv.bufs c.r_buf) = [] ∧ holds srv'.bufs c.r_buf = holds srv.bufs c.r_buf ∧
      holds srv'.bufs c.w_buf = holds srv.bufs c.w_buf) ∨
    ∃ t r msg srv₁, complete_lines (holds srv.bufs c.r_buf) = t :: complete_lines (holds srv'.bufs c.r_buf) ∧
      holds srv.bufs c.r_buf = t ++ r ++ holds srv'.bufs c.r_buf ∧ r ≠ [] ∧ Run is_newline r ∧ Reply msg ∧
      atm_conn_write_str srv₁ c (some msg) = .ok srv' ∧
      holds srv'.bufs c.w_buf = holds srv.bufs c.w_buf ++ msg.val.take msg.len

/-- A call reads a line and, if there is one, answers it. -/
theorem process_replied (cache : CacheOk siphash srv.cache_dict) (idle : Idle se) (ok : WorldOk srv.bufs) {buf : Buf}
    (found : get srv.bufs.bufs c.r_buf = some buf) (short : Short (2^32) (held srv.bufs.mem buf)) {ret : Int}
    (ran : atm_sess_process siphash srv c se = .ok (ret,srv',se')) :
    ret = ATM_OK ∧ Idle se' ∧ CacheOk siphash srv'.cache_dict ∧ ∃ srv₁, ReadFrom c.r_buf srv srv₁ ∧
      ((srv' = srv₁ ∧ Open is_newline (holds srv.bufs c.r_buf) ∧ holds srv₁.bufs c.r_buf = holds srv.bufs c.r_buf) ∨
        ∃ t r rest msg, holds srv.bufs c.r_buf = t ++ r ++ rest ∧ Open is_newline t ∧ r ≠ [] ∧ Run is_newline r ∧
          (∀ x ∈ rest.head?, is_newline x = false) ∧ holds srv₁.bufs c.r_buf = rest ∧ Replied siphash c srv₁ srv' msg) := by
  obtain ⟨okay,idle',srv₁,line,read,result⟩ := process_cases idle ran
  obtain ⟨read_from,buf₁,found₁,cases⟩ := conn_read_line_cases ok found short read
  have cache₁ : CacheOk siphash srv₁.cache_dict := by
    rw [read_from.cache]
    exact cache
  rw [holds_eq found]
  rcases cases with ⟨rfl,clean,bytes⟩ | ⟨t,spare,r,rest,rfl,_,small,cut,clean,filled,run,next,left⟩
  · rcases result with ⟨_,rfl,_⟩ | ⟨_,_,_,absent,_⟩
    · exact ⟨okay,idle',cache₁,srv',read_from,.inl ⟨rfl,clean,(holds_eq found₁).trans bytes⟩⟩
    · cases absent
  · rcases result with ⟨absent,_⟩ | ⟨s,se₁,se₂,same,request,executed,_⟩
    · cases absent
    · cases same
      obtain ⟨srv₂,called,done⟩ := bind_eq_ok.mp executed
      cases done
      have positive := List.length_pos_iff.mpr filled
      obtain ⟨msg,replied⟩ := call_replied cache₁ (request_paras clean (by omega) request).1 called
      exact ⟨okay,idle',replied.cache,srv₁,read_from,.inr ⟨t,r,rest,msg,cut,clean,filled,run,next,
        (holds_eq found₁).trans left,replied⟩⟩

theorem process_framed_of_cache (cache : CacheOk siphash srv.cache_dict) (idle : Idle se) (ok : WorldOk srv.bufs)
    (apart : c.r_buf ≠ c.w_buf) {buf : Buf} (found : get srv.bufs.bufs c.r_buf = some buf)
    (short : Short (2^32) (held srv.bufs.mem buf)) {ret : Int}
    (ran : atm_sess_process siphash srv c se = .ok (ret,srv',se')) : ret = ATM_OK ∧ Framed c srv srv' se' := by
  obtain ⟨okay,idle',_,srv₁,read_from,cases⟩ := process_replied cache idle ok found short ran
  have outgoing : holds srv₁.bufs c.w_buf = holds srv.bufs c.w_buf := untouched_holds (read_from.others _ apart.symm)
  refine ⟨okay,idle',?_⟩
  rcases cases with ⟨rfl,clean,bytes⟩ | ⟨t,r,rest,msg,cut,clean,filled,run,next,left,replied⟩
  · exact .inl ⟨complete_lines_eq_nil.mpr clean,bytes,outgoing⟩
  · obtain ⟨srv₂,bufs,wrote⟩ := replied.wrote
    have ok₂ : WorldOk srv₂.bufs := by
      rw [bufs]
      exact read_from.ok
    have incoming : holds srv'.bufs c.r_buf = rest := by
      rw [untouched_holds (write_str_untouched ok₂ apart wrote),bufs,left]
    have appended := conn_write_holds ok₂ (write_str_eq replied.header srv₂ c ▸ wrote)
    rw [bufs,outgoing] at appended
    refine .inr ⟨t,r,msg,srv₂,?_,by rw [incoming,cut],filled,run,replied.reply,wrote,appended⟩
    rw [incoming,cut,complete_lines,frame_line clean filled run next]
    rfl

/-- The caches that commands build, of any sessions on any connections. -/
inductive Built (siphash : List Byte → UInt64) : Dict.Dictionary Obj Obj → Prop where
  | new : Built siphash (Dict.atm_dict_new .deep)
  | process {srv srv' : Server} {c : Conn} {se se' : Sess} {ret : Int} {buf : Buf} (before : Built siphash srv.cache_dict)
      (reached : Reachable siphash c se) (ok : WorldOk srv.bufs) (found : get srv.bufs.bufs c.r_buf = some buf)
      (short : Short (2^32) (held srv.bufs.mem buf))
      (ran : atm_sess_process siphash srv c se = .ok (ret,srv',se')) : Built siphash srv'.cache_dict

theorem built_ok {cache : Dict.Dictionary Obj Obj} (built : Built siphash cache) : CacheOk siphash cache := by
  induction built with
  | new => exact new_cache_ok
  | process _ reached ok found short ran ih => exact (process_replied ih (reachable_idle reached) ok found short ran).2.2.1

/-! ### Calls that return -/

theorem split_made (t spare : List Byte) (sep : Byte) :
    atm_str_split (made t spare).val sep (made t spare).len = atm_str_split t sep t.length := by
  have read : ∀ n ≤ t.length, read_bytes (made t spare).val n = read_bytes t n := by
    intro n inside
    rw [made,read_bytes_ok (by rw [List.length_append]; omega),read_bytes_ok inside,List.take_append_of_le_length inside]
  have same := read (if t.length < 2^31 then t.length else 0) (by split <;> omega)
  unfold atm_str_split
  rw [show (made t spare).len = t.length from rfl,same]

/-- The table of commands was only set, twice. -/
theorem cmd_dict_ok {cmds : Dict.Dictionary (Option Str) Cmd} (init : atm_cmd_init siphash = .ok cmds) :
    Dict.DictOk (ATM_STR_T siphash) 0 cmds := by
  have new : Dict.OnlySet (ATM_STR_T siphash) (Dict.atm_dict_new .shallow : Dict.Dictionary (Option Str) Cmd) :=
    Dict.new_only_set .shallow
  have empty : Dict.atm_dict_size (Dict.atm_dict_new .shallow : Dict.Dictionary (Option Str) Cmd) = 0 := rfl
  obtain ⟨d₁,first,rest⟩ := bind_eq_ok.mp init
  obtain ⟨name₁,_,first⟩ := bind_eq_ok.mp first
  obtain ⟨d₂,second,rest⟩ := bind_eq_ok.mp rest
  obtain ⟨name₂,_,second⟩ := bind_eq_ok.mp second
  cases rest
  have one := Dict.set_only_set new first
  have grown := Dict.set_size_le new.tallied first
  have grown' := Dict.set_size_le one.tallied second
  exact (Dict.set_only_set one second).sized (by omega)

theorem read_total (ok : WorldOk srv.bufs) {buf : Buf} (found : get srv.bufs.bufs c.r_buf = some buf)
    (small : ¬ Open is_newline (held srv.bufs.mem buf) →
      (line_of (held srv.bufs.mem buf)).length + (run_after (held srv.bufs.mem buf)).length < 2^31) :
    ∃ srv₁ line, atm_conn_read_line srv c = .ok (srv₁,line) := by
  have is : srv.bufs.buf c.r_buf = .ok buf := by rw [World.buf,found]
  obtain ⟨blks,view⟩ := world_view ok found
  rw [held_of_chain view.cells] at small
  rw [atm_conn_read_line,is,ok_bind]
  rcases split_line is_newline (held_in blks) with clean | ⟨t,r,rest,cut,clean,filled,run,next⟩
  · rw [read_line_none view.cursors clean]
    exact ⟨_,_,rfl⟩
  · obtain ⟨line,behind⟩ := line_of_split clean filled run next
    have fits := small (cut ▸ ended_of_split filled run)
    rw [cut,line,behind] at fits
    obtain ⟨m₁,buf₁,blks₁,got,_⟩ := read_line_some view.cursors cut clean filled run next fits
    obtain ⟨spare,made',_⟩ := Strings.new_ok (open_no_zero clean) (by omega)
    rw [got,ok_bind]
    dsimp only
    rw [str_new_of,strlen_ok (open_no_zero clean),ok_bind,List.take_left,made']
    exact ⟨_,_,rfl⟩

theorem parse_total (init : atm_cmd_init siphash = .ok srv.cmd_dict) {t : List Byte} (int : t.length < 2^31)
    (fits : SlotsFit t.length (line_tokens 32 t).length) (spare : List Byte) (se : Sess) :
    ∃ se', parse_line siphash srv (made t spare) se = .ok se' := by
  have split : atm_str_split t 32 t.length = .ok (answer (line_tokens 32 t)) := by
    rw [split_eq le_rfl int (by decide) (by decide),List.take_length,if_pos fits]
  rw [parse_line,split_made,split,ok_bind]
  cases answer (line_tokens 32 t) with
  | none => exact ⟨se,rfl⟩
  | some argv =>
    obtain ⟨cmd,got⟩ := Dict.get_total (cmd_dict_ok init) argv.head?.join
    dsimp only
    rw [atm_cmd_getcmd,got]
    exact ⟨_,rfl⟩

/-- A call returns when the line that it reads can be parsed and answered. -/
theorem loop_returns (idle : Idle se) (parsing : se.state = .sess_parsing) (fuel : Nat) {srv₁ : Server}
    {line : Option Str} (read : atm_conn_read_line srv c = .ok (srv₁,line))
    (parses : ∀ s, line = some s → ∀ se, ∃ se₁, parse_line siphash srv₁ s se = .ok se₁)
    (answers : ∀ s, line = some s → ∀ se₁, Request siphash srv₁ s se₁ → ∃ srv', call_cmd siphash srv₁ c se₁ = .ok srv') :
    ∃ srv' se', atm_sess_process_loop siphash c (fuel+3) srv se = .ok (ATM_OK,srv',se') := by
  have round : atm_sess_round siphash srv c se =
      (do return some (← atm_sess_parsing siphash srv c { se with state_continue := false })) := by
    rw [atm_sess_round]
    dsimp only
    rw [parsing]
  cases line with
  | none =>
    have first : atm_sess_parsing siphash srv c { se with state_continue := false } =
        .ok (srv₁,{ se with state_continue := false }) := by
      rw [atm_sess_parsing,read]
      rfl
    rw [atm_sess_process_loop,round,first]
    exact ⟨srv₁,_,rfl⟩
  | some s =>
    obtain ⟨se₁,parsed⟩ := parses s rfl { se with state_continue := false }
    let se₂ := atm_sess_chstat { se₁ with line := s.val.take s.len } .sess_process_cmd
    have first : atm_sess_parsing siphash srv c { se with state_continue := false } = .ok (srv₁,se₂) := by
      rw [atm_sess_parsing,read,ok_bind]
      dsimp only
      rw [parsed]
      rfl
    have request : Request siphash srv₁ s { se₂ with state_continue := false } := by
      rcases parse_line_cases parsed with ⟨words,rfl⟩ | ⟨argv,cmd,words,got,rfl⟩
      · exact .inl ⟨words,idle.cmd,idle.argc,idle.argv⟩
      · exact .inr ⟨argv,words,got,rfl,rfl⟩
    obtain ⟨srv',called⟩ := answers s rfl _ request
    let se₃ := atm_sess_chstat { se₂ with executed := se₂.executed ++ [se₂.line] } .sess_finish
    have second : atm_sess_round siphash srv₁ c se₂ = .ok (some (srv',se₃)) := by
      show (atm_sess_process_cmd siphash srv₁ c { se₂ with state_continue := false } >>= fun res => .ok (some res)) = _
      rw [atm_sess_process_cmd,called]
      rfl
    refine ⟨srv',atm_sess_reset { se₃ with state_continue := false },?_⟩
    rw [atm_sess_process_loop,round,first]
    show atm_sess_process_loop siphash c (fuel+2) srv₁ se₂ = _
    rw [atm_sess_process_loop,second]
    rfl

theorem process_returns (idle : Idle se) {srv₁ : Server} {line : Option Str}
    (read : atm_conn_read_line srv c = .ok (srv₁,line))
    (parses : ∀ s, line = some s → ∀ se, ∃ se₁, parse_line siphash srv₁ s se = .ok se₁)
    (answers : ∀ s, line = some s → ∀ se₁, Request siphash srv₁ s se₁ → ∃ srv', call_cmd siphash srv₁ c se₁ = .ok srv') :
    ∃ srv' se', atm_sess_process siphash srv c se = .ok (ATM_OK,srv',se') := by
  rw [atm_sess_process]
  rcases idle.state with init | parsing
  · rw [init]
    have started : Idle (atm_sess_chstat { se with state_continue := false } .sess_parsing) :=
      ⟨.inr rfl,idle.cmd,idle.argc,idle.argv⟩
    have first : atm_sess_round siphash srv c se =
        .ok (some (srv,atm_sess_chstat { se with state_continue := false } .sess_parsing)) := by
      rw [atm_sess_round]
      dsimp only
      rw [init]
    rw [SessState.rounds,atm_sess_process_loop,first]
    exact loop_returns started rfl 0 read parses answers
  · rw [parsing]
    exact loop_returns idle parsing 0 read parses answers

/-- `"set a b"` -/
def set_a_b : List Byte := [115,101,116,32,97,32,98]

end AtmCache.Session
