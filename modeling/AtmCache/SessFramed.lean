import AtmCache.DictOutgrown
import AtmCache.SessStore

/-!
# Which calls reply

A call of `atm_sess_process` that returns takes one line at most and writes one reply for it. It returns exactly
when the line in front is shorter than `2^31` bytes, has no more words than the tables of `atm_str_split` have slots, and
when the cache has the slots that its command comes to (`process_framed_iff`). A line of `2^29` letters gets no reply.
-/
namespace AtmCache.Session
open Buffers CStrings Heap Lines Runs Strings

variable {siphash : List Byte → UInt64} {srv srv' : Server} {c : Conn} {se se' : Sess}

/-! ### The cache of any commands -/

/-- The cache is as it was, or one key was set. -/
def SetOnce (siphash : List Byte → UInt64) (cache cache' : Dict.Dictionary Obj Obj) : Prop :=
  cache' = cache ∨ ∃ k v, Dict.atm_dict_set (ATM_OBJ_T siphash) cache k v = .ok cache'

theorem reply_cache {m : List Byte} (replied : atm_sess_reply srv c m = .ok srv') :
    SetOnce siphash srv.cache_dict srv'.cache_dict :=
  .inl (reply_keeps_cache replied).1

theorem call_cache (called : call_cmd siphash srv c se = .ok srv') : SetOnce siphash srv.cache_dict srv'.cache_dict := by
  unfold call_cmd at called
  split at called
  · rename_i cmd _
    rw [cmd_func] at called
    split at called
    · rw [atm_cmd_func_get] at called
      split at called
      · obtain ⟨_,_,called⟩ := bind_eq_ok.mp called
        obtain ⟨_,_,called⟩ := bind_eq_ok.mp called
        obtain ⟨_,_,wrote⟩ := bind_eq_ok.mp called
        exact .inl (write_str_keeps_cache wrote).1
      · exact reply_cache called
    · rw [atm_cmd_func_set] at called
      split at called
      · obtain ⟨k,_,called⟩ := bind_eq_ok.mp called
        obtain ⟨v,_,called⟩ := bind_eq_ok.mp called
        obtain ⟨cache,stored,replied⟩ := bind_eq_ok.mp called
        refine .inr ⟨k,v,stored.trans ?_⟩
        rw [(reply_keeps_cache replied).1]
      · exact reply_cache called
  · exact reply_cache called

theorem read_line_cache {line : Option Str} (read : atm_conn_read_line srv c = .ok (srv',line)) :
    srv'.cache_dict = srv.cache_dict := by
  obtain ⟨buf,_,rest⟩ := bind_eq_ok.mp read
  obtain ⟨⟨m,buf',s⟩,_,rest⟩ := bind_eq_ok.mp rest
  cases s with
  | none =>
    cases rest
    rfl
  | some s =>
    obtain ⟨new,_,last⟩ := bind_eq_ok.mp rest
    cases last
    rfl

theorem process_cache (idle : Idle se) {ret : Int} (ran : atm_sess_process siphash srv c se = .ok (ret,srv',se')) :
    SetOnce siphash srv.cache_dict srv'.cache_dict := by
  obtain ⟨_,_,srv₁,line,read,result⟩ := process_cases idle ran
  rw [← read_line_cache read]
  rcases result with ⟨_,rfl,_⟩ | ⟨_,_,_,_,_,executed,_⟩
  · exact .inl rfl
  · obtain ⟨srv₂,called,done⟩ := bind_eq_ok.mp executed
    cases done
    exact call_cache called

/-- Commands only set keys. -/
theorem built_grown {cache : Dict.Dictionary Obj Obj} (built : Built siphash cache) : Dict.Grown (ATM_OBJ_T siphash) cache := by
  induction built with
  | new => exact Dict.new_grown .deep
  | process _ reached _ _ _ ran ih =>
    rcases process_cache (reachable_idle reached) ran with same | ⟨k,v,stored⟩
    · rw [same]
      exact ih
    · exact Dict.set_grown ih stored

/-! ### Lines that are answered -/

/-- The cache has the slots that the request comes to. -/
def Serves (siphash : List Byte → UInt64) (cache : Dict.Dictionary Obj Obj) : Query → Prop
  | .get k => Dict.Readable (ATM_OBJ_T siphash) cache (text_key k)
  | .set k _ => Dict.Storable (ATM_OBJ_T siphash) cache (text_key k)
  | _ => True

/-- A line with the terminators behind it for which there are counters, tables and slots. -/
structure Answerable (siphash : List Byte → UInt64) (cache : Dict.Dictionary Obj Obj) (t r : List Byte) : Prop where
  length : t.length + r.length < 2^31
  words : SlotsFit t.length (line_tokens 32 t).length
  serves : Serves siphash cache (query t)

theorem handle_returns_iff (cache : CacheOk siphash srv.cache_dict) (grown : Dict.Grown (ATM_OBJ_T siphash) srv.cache_dict)
    (ok : WorldOk srv.bufs) {buf : Buf} (found : get srv.bufs.bufs c.w_buf = some buf) {q : Query} (argued : q ≠ .bare_set) :
    (∃ srv', handle siphash srv c q = .ok srv') ↔ Serves siphash srv.cache_dict q := by
  cases q with
  | get k => exact (handle_get_iff cache ok found k).trans (Dict.get_returns_iff grown (text_key k))
  | set k v => exact (handle_set_iff ok found k v).trans (Dict.set_returns_iff grown (text_key k) (text_val v))
  | bare_set => exact absurd rfl argued
  | wrong_argc => exact iff_of_true (conn_write_ok ok found (by decide)) trivial
  | unknown => exact iff_of_true (conn_write_ok ok found (by decide)) trivial

section
variable {r_buf w_buf : Buf} (init : atm_cmd_init siphash = .ok srv.cmd_dict) (built : Built siphash srv.cache_dict)
  (idle : Idle se) (ok : WorldOk srv.bufs) (apart : c.r_buf ≠ c.w_buf) (found : get srv.bufs.bufs c.r_buf = some r_buf)
  (other : get srv.bufs.bufs c.w_buf = some w_buf) (short : Short (2^32) (held srv.bufs.mem r_buf))
include init built idle ok apart found other short

/-- The line in front of a call that returns could be answered. -/
theorem answerable_of_returns {t r rest : List Byte} (cut : held srv.bufs.mem r_buf = t ++ r ++ rest) (clean : Open is_newline t)
    (filled : r ≠ []) (run : Run is_newline r) (next : ∀ x ∈ rest.head?, is_newline x = false) (argued : query t ≠ .bare_set)
    {ret : Int} (ran : atm_sess_process siphash srv c se = .ok (ret,srv',se')) : Answerable siphash srv.cache_dict t r := by
  obtain ⟨_,_,srv₁,line,read,result⟩ := process_cases idle ran
  obtain ⟨read_from,_,_,cases⟩ := conn_read_line_cases ok found short read
  rcases cases with ⟨rfl,none,_⟩ | ⟨t',spare,r',rest',rfl,_,small,cut',clean',filled',run',next',_⟩
  · exact absurd (cut ▸ none) (ended_of_split filled run)
  have same := line_of_split clean filled run next
  have same' := line_of_split clean' filled' run' next'
  rw [← cut] at same
  rw [← cut'] at same'
  obtain rfl : t' = t := same'.1.symm.trans same.1
  obtain rfl : r' = r := same'.2.symm.trans same.2
  rcases result with ⟨absent,_⟩ | ⟨s,se₁,se₂,same,request,executed,_⟩
  · cases absent
  cases same
  obtain ⟨srv₂,called,done⟩ := bind_eq_ok.mp executed
  cases done
  have positive := List.length_pos_iff.mpr filled
  have cache : CacheOk siphash srv₁.cache_dict := by rw [read_from.cache]; exact built_ok built
  have grown : Dict.Grown (ATM_OBJ_T siphash) srv₁.cache_dict := by rw [read_from.cache]; exact built_grown built
  rw [call_eq (by rw [read_from.cmds]; exact init) cache clean (by omega) request] at called
  have there := ((read_from.others _ apart.symm).same).trans other
  have serves := (handle_returns_iff cache grown read_from.ok there argued).mp ⟨_,called⟩
  rw [read_from.cache] at serves
  exact ⟨small,(request_split (by omega) request).1,serves⟩

/-- A call returns when its line can be answered, or when no line is complete. -/
theorem returns_of_answerable
    (argued : ¬ Open is_newline (held srv.bufs.mem r_buf) → query (line_of (held srv.bufs.mem r_buf)) ≠ .bare_set)
    (answerable : ¬ Open is_newline (held srv.bufs.mem r_buf) →
      Answerable siphash srv.cache_dict (line_of (held srv.bufs.mem r_buf)) (run_after (held srv.bufs.mem r_buf))) :
    ∃ srv' se', atm_sess_process siphash srv c se = .ok (ATM_OK,srv',se') := by
  obtain ⟨srv₁,line,read⟩ := read_total ok found (fun ended => (answerable ended).length)
  obtain ⟨read_from,_,_,cases⟩ := conn_read_line_cases ok found short read
  rcases cases with ⟨rfl,_⟩ | ⟨t,spare,r,rest,rfl,_,small,cut,clean,filled,run,next,_⟩
  · exact process_returns idle read (fun _ absent => (by cases absent)) (fun _ absent => (by cases absent))
  have ended : ¬ Open is_newline (held srv.bufs.mem r_buf) := cut ▸ ended_of_split filled run
  obtain ⟨line,behind⟩ := line_of_split clean filled run next
  rw [← cut] at line behind
  have can := answerable ended
  have asked := argued ended
  rw [line,behind] at can
  rw [line] at asked
  have positive := List.length_pos_iff.mpr filled
  have init₁ : atm_cmd_init siphash = .ok srv₁.cmd_dict := by rw [read_from.cmds]; exact init
  have cache : CacheOk siphash srv₁.cache_dict := by rw [read_from.cache]; exact built_ok built
  have grown : Dict.Grown (ATM_OBJ_T siphash) srv₁.cache_dict := by rw [read_from.cache]; exact built_grown built
  have there := ((read_from.others _ apart.symm).same).trans other
  refine process_returns idle read ?_ ?_
  · rintro _ ⟨⟩ se
    exact parse_total init₁ (by omega) can.words spare se
  · rintro _ ⟨⟩ se₁ request
    rw [call_eq init₁ cache clean (by omega) request]
    exact (handle_returns_iff cache grown read_from.ok there asked).mpr (by rw [read_from.cache]; exact can.serves)

end

/-- In every reachable state a call returns with the session idle, one line taken at most and one reply written for
    it, exactly when the line in front, if one is complete, can be answered. -/
theorem process_framed_iff (init : atm_cmd_init siphash = .ok srv.cmd_dict) (built : Built siphash srv.cache_dict)
    (reached : Reachable siphash c se) (ok : WorldOk srv.bufs) (apart : c.r_buf ≠ c.w_buf) {r_buf w_buf : Buf}
    (found : get srv.bufs.bufs c.r_buf = some r_buf) (other : get srv.bufs.bufs c.w_buf = some w_buf)
    (short : Short (2^32) (held srv.bufs.mem r_buf))
    (argued : ¬ Open is_newline (held srv.bufs.mem r_buf) → query (line_of (held srv.bufs.mem r_buf)) ≠ .bare_set) :
    (∃ srv' se', atm_sess_process siphash srv c se = .ok (ATM_OK,srv',se') ∧ Framed c srv srv' se') ↔
      (¬ Open is_newline (held srv.bufs.mem r_buf) →
        Answerable siphash srv.cache_dict (line_of (held srv.bufs.mem r_buf)) (run_after (held srv.bufs.mem r_buf))) := by
  have idle := reachable_idle reached
  constructor
  · rintro ⟨srv',se',ran,_⟩ ended
    rcases split_line is_newline (held srv.bufs.mem r_buf) with clean | ⟨t,r,rest,cut,clean,filled,run,next⟩
    · exact absurd clean ended
    obtain ⟨line,behind⟩ := line_of_split clean filled run next
    rw [← cut] at line behind
    have asked := argued ended
    rw [line] at asked
    rw [line,behind]
    exact answerable_of_returns init built idle ok apart found other short cut clean filled run next asked ran
  · intro answerable
    obtain ⟨srv',se',ran⟩ := returns_of_answerable init built idle ok apart found other short argued answerable
    exact ⟨srv',se',ran,(process_framed_of_cache (built_ok built) idle ok apart found short ran).2⟩

theorem process_framed_iff_set : ∃ w cmds srv' se', run Buffers.step world [.new,.new,.write 0 (set_a_b ++ newline)] = .ok w ∧
    atm_cmd_init zero_hash = .ok cmds ∧
      atm_sess_process zero_hash ⟨w,Dict.atm_dict_new .deep,cmds⟩ ⟨0,1⟩ atm_sess_new = .ok (ATM_OK,srv',se') ∧
        Framed ⟨0,1⟩ ⟨w,Dict.atm_dict_new .deep,cmds⟩ srv' se' := by
  obtain ⟨w,r_buf,w_buf,made',ok,found,other,bytes⟩ := arrived (set_a_b ++ newline) (by decide)
  obtain ⟨cmds,init,_⟩ := word_unknown
  have line : line_of (set_a_b ++ newline) = set_a_b := by decide
  have asked : query set_a_b = .set [97] (some [98]) := by decide +kernel
  have short : Short (2^32) (held w.mem r_buf) := by
    rw [bytes]
    exact short_of_length (by decide)
  have can : Answerable zero_hash (Dict.atm_dict_new .deep) (line_of (set_a_b ++ newline)) (run_after (set_a_b ++ newline)) := by
    refine ⟨by decide,by decide +kernel,?_⟩
    rw [line,asked]
    refine ⟨?_,fun last => absurd (show 0 + 1 = 2^28 from last.left) (by decide)⟩
    rintro ⟨_,two,_⟩
    cases two
  obtain ⟨srv',se',ran,framed⟩ := (@process_framed_iff zero_hash ⟨w,Dict.atm_dict_new .deep,cmds⟩ ⟨0,1⟩ atm_sess_new init .new
    .new ok (by decide) r_buf w_buf found other short (fun _ => by rw [bytes,line,asked]; exact Query.noConfusion)).mpr
      (fun _ => by rw [bytes]; exact can)
  exact ⟨w,cmds,srv',se',made',init,ran,framed⟩

/-! ### A line that is too long -/

/-- A line of letters whose table has no slot ends the call in a fault. -/
theorem letters_unanswered {n : Nat} (some : n ≠ 0) (int : n + 1 < 2^31) (wraps : n % 2^29 = 0) : ∃ w cmds,
    run Buffers.step world [.new,.new,.write 0 (List.replicate n 97 ++ newline)] = .ok w ∧ atm_cmd_init zero_hash = .ok cmds ∧
      ∀ ret srv' se', atm_sess_process zero_hash ⟨w,Dict.atm_dict_new .deep,cmds⟩ ⟨0,1⟩ atm_sess_new ≠ .ok (ret,srv',se') := by
  have length : (List.replicate n 97 ++ newline).length = n + 1 := by
    rw [List.length_append,List.length_replicate]
    rfl
  obtain ⟨w,r_buf,w_buf,made',ok,found,other,bytes⟩ := arrived (List.replicate n 97 ++ newline) (by omega)
  obtain ⟨cmds,init,_⟩ := word_unknown
  have clean : Open is_newline (List.replicate n (97 : Byte)) := by
    intro x member
    rw [List.eq_of_mem_replicate member]
    decide
  have short : Short (2^32) (held w.mem r_buf) := by
    rw [bytes]
    exact short_of_length (by omega)
  have cut : held w.mem r_buf = List.replicate n 97 ++ newline ++ [] := by rw [bytes,List.append_nil]
  refine ⟨w,cmds,made',init,fun ret srv' se' ran => ?_⟩
  have words := line_tokens_replicate some
  have ends : Run is_newline newline := by
    intro x member
    rw [List.mem_singleton.mp member]
    rfl
  have asked : query (List.replicate n (97 : Byte)) ≠ .bare_set := by
    have other : List.replicate n (97 : Byte) ≠ cmd_set.name := by
      intro same
      have member : (115 : Byte) ∈ List.replicate n (97 : Byte) := by
        rw [same]
        decide
      exact absurd (List.eq_of_mem_replicate member) (by decide)
    rw [query,words,query_words,if_neg other]
    split
    · exact Query.noConfusion
    · exact Query.noConfusion
  have can := @answerable_of_returns zero_hash ⟨w,Dict.atm_dict_new .deep,cmds⟩ srv' ⟨0,1⟩ atm_sess_new se' r_buf w_buf init .new
    new_idle ok (by decide) found other short _ newline [] cut clean (by decide) ends (fun _ absent => by cases absent) asked
    ret ran
  have fits := can.words
  rw [words,SlotsFit,List.length_replicate,wraps] at fits
  simp at fits

/-- A line of `2^29` letters gets no reply. -/
theorem long_line_unanswered : ∃ w cmds,
    run Buffers.step world [.new,.new,.write 0 (List.replicate (2^29) 97 ++ newline)] = .ok w ∧
    atm_cmd_init zero_hash = .ok cmds ∧
      ∀ ret srv' se', atm_sess_process zero_hash ⟨w,Dict.atm_dict_new .deep,cmds⟩ ⟨0,1⟩ atm_sess_new ≠ .ok (ret,srv',se') :=
  letters_unanswered (by decide) (by decide) (by decide)

end AtmCache.Session
