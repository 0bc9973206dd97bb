import AtmCache.DictKeys
import AtmCache.ObjKeys
import AtmCache.SessReply

/-!
# The key-value service of a session

What one request line asks for (`query`), what a store of words answers to it (`reply`) and what it does to
the store (`update`). A handler does as much to the cache and to the write buffer: the cache is the
dictionary of the `set` requests so far (`Cached`), whose keys and values are the words of their lines as
new strings. A `get` is answered from the store after some of these requests, and from the store after all
of them while no migration is under way.
-/
namespace AtmCache.Session
open Buffers CStrings Heap KeyMaps Lines Runs Strings

variable {siphash : List Byte → UInt64} {srv srv' : Server} {c : Conn} {se se' : Sess}

/-! ### Texts -/

/-- The bytes that the header of a string counts; NULL has none. -/
def str_content (s : Option Str) : Option (List Byte) := s.map (fun s => s.val.take s.len)

/-- Strings that are compared and hashed by their bytes. -/
def str_contents (siphash : List Byte → UInt64) : Dict.KeyType (Option Str) where
  match_key := fun a b => str_content a = str_content b
  hash := fun s => siphash ((str_content s).getD [])

def obj_contents (siphash : List Byte → UInt64) : Dict.KeyType Obj where
  match_key := fun a b => (str_contents siphash).match_key a.value b.value
  hash := fun o => (str_contents siphash).hash o.value

/-- A text without line ends that can be sent with one behind it. -/
def TextOk (t : List Byte) : Prop := Open is_newline t ∧ t.length + 1 < 2^31

/-- The string was made by `atm_str_new`. -/
def StrNew (s : Option Str) : Prop := ∃ t, TextOk t ∧ s = some (fresh t)

def ObjNew (o : Obj) : Prop := StrNew o.value

/-- The objects that the handlers make of words. -/
def text_key (t : List Byte) : Obj := ⟨some (fresh t)⟩
def text_val (v : Option (List Byte)) : Obj := ⟨v.map fresh⟩

theorem TextOk.clean {t : List Byte} (ok : TextOk t) : 0 ∉ t := open_no_zero ok.1

theorem TextOk.new {t : List Byte} (ok : TextOk t) : atm_str_new (some t) = .ok (some (fresh t)) ∧ HeaderOk (fresh t) :=
  new_fresh ok.clean (by have := ok.2; omega)

theorem fresh_content (t : List Byte) : str_content (some (fresh t)) = some t := by
  rw [str_content,Option.map_some,fresh]
  exact congrArg some List.take_left

theorem str_contents_lawful (siphash : List Byte → UInt64) : (str_contents siphash).Lawful where
  equiv := ⟨by simp [str_contents],by simp [str_contents,eq_comm],by simp +contextual [str_contents]⟩
  hash_eq matched := by
    have same : str_content _ = str_content _ := of_decide_eq_true matched
    simp only [str_contents,same]

theorem obj_contents_lawful (siphash : List Byte → UInt64) : (obj_contents siphash).Lawful where
  equiv := ⟨fun a => (str_contents_lawful siphash).equiv.refl a.value,(str_contents_lawful siphash).equiv.symm,
    (str_contents_lawful siphash).equiv.trans⟩
  hash_eq matched := (str_contents_lawful siphash).hash_eq matched

/-- Strings that are new match where their texts are equal. -/
theorem fresh_match {a b : List Byte} (okA : TextOk a) (okB : TextOk b) :
    atm_str_match (some (fresh a)) (some (fresh b)) = decide (a = b) := by
  obtain ⟨c,compared,sign⟩ := Objects.cmp_sign (Objects.header_well_formed okA.new.2) (Objects.header_well_formed okB.new.2)
  have contents : Objects.content (fresh a) = Objects.content (fresh b) ↔ a = b := by
    rw [show Objects.content (fresh a) = a from List.take_left,show Objects.content (fresh b) = b from List.take_left]
  rw [atm_str_match,compared]
  exact decide_eq_decide.mpr (sign.zero.trans contents)

theorem strs_same (siphash : List Byte → UInt64) :
    Dict.SameOn StrNew (ATM_STR_T siphash) (str_contents siphash) where
  matched := by
    rintro _ _ ⟨a,okA,rfl⟩ ⟨b,okB,rfl⟩
    show atm_str_match _ _ = decide _
    rw [fresh_match okA okB,fresh_content,fresh_content]
    exact decide_eq_decide.mpr Option.some_inj.symm
  hashed := by
    rintro _ ⟨t,_,rfl⟩
    show siphash ((fresh t).val.take (fresh t).len) = siphash ((str_content (some (fresh t))).getD [])
    rw [fresh_content]
    exact congrArg siphash List.take_left

theorem objs_same (siphash : List Byte → UInt64) :
    Dict.SameOn ObjNew (ATM_OBJ_T siphash) (obj_contents siphash) where
  matched := (strs_same siphash).matched
  hashed := (strs_same siphash).hashed

theorem text_key_matched (siphash : List Byte → UInt64) (a b : List Byte) :
    (obj_contents siphash).match_key (text_key a) (text_key b) = decide (a = b) := by
  show decide (str_content (some (fresh a)) = str_content (some (fresh b))) = _
  rw [fresh_content,fresh_content]
  exact decide_eq_decide.mpr Option.some_inj

theorem text_val_injective : Function.Injective text_val := by
  intro v w same
  have contents : (text_val v).value.map (fun s => s.val.take s.len) = (text_val w).value.map (fun s => s.val.take s.len) :=
    congrArg (fun o : Obj => o.value.map (fun s => s.val.take s.len)) same
  cases v with
  | none =>
    cases w with
    | none => rfl
    | some w => cases contents
  | some v =>
    cases w with
    | none => cases contents
    | some w => exact (fresh_content v).symm.trans (contents.trans (fresh_content w))

/-! ### What a line asks for -/

/-- A request: the words that its handler uses. A `set` stores NULL as the value when it has one word too few. -/
inductive Query where
  | get (k : List Byte)
  | set (k : List Byte) (v : Option (List Byte))
  | bare_set
  | wrong_argc
  | unknown
  deriving DecidableEq, Repr

/-- The arguments of a `get`. -/
def get_query : List (List Byte) → Query
  | [k] => .get k
  | _ => .wrong_argc

/-- The arguments of a `set`; those after the second are not used. -/
def set_query : List (List Byte) → Query
  | [] => .bare_set
  | [k] => .set k none
  | k :: v :: _ => .set k (some v)

def query_words : List (List Byte) → Query
  | [] => .unknown
  | name :: args =>
    if name = cmd_get.name then get_query args else if name = cmd_set.name then set_query args else .unknown

def query (line : List Byte) : Query := query_words (line_tokens 32 line)

/-- The words that were set, with their values. -/
abbrev Store := List Byte → Option (Option (List Byte))

def update (f : Store) : Query → Store
  | .set k v => fun k' => if k = k' then some v else f k'
  | _ => f

/-- A bare `set` has no reply. -/
def reply (f : Store) : Query → List Byte
  | .get k => (f k).join.getD [] ++ newline
  | .set _ _ => success ++ newline
  | .bare_set => []
  | .wrong_argc => invalid_argc ++ newline
  | .unknown => invalid_cmd ++ newline

/-- The store after the requests of a history. -/
def store (h : List Query) : Store := h.foldl update (fun _ => none)

/-- The call of the cache that a request makes. -/
def Query.op : Query → Option (Dict.Op Obj Obj)
  | .set k v => some (.set (text_key k) (text_val v))
  | _ => none

/-- The words of a request are texts. -/
def Query.Ok : Query → Prop
  | .get k => TextOk k
  | .set k v => TextOk k ∧ ∀ w, v = some w → TextOk w
  | _ => True

/-- What a handler does for a request. -/
def handle (siphash : List Byte → UInt64) (srv : Server) (c : Conn) : Query → Except Fault Server
  | .get k => do
    let v ← Dict.atm_dict_get (ATM_OBJ_T siphash) srv.cache_dict (text_key k)
    atm_conn_write srv c (((str_content (atm_obj_str v)).getD []) ++ newline)
  | .set k v => do
    let cache ← Dict.atm_dict_set (ATM_OBJ_T siphash) srv.cache_dict (text_key k) (text_val v)
    atm_conn_write { srv with cache_dict := cache } c (success ++ newline)
  | .bare_set => .error .outOfBounds
  | .wrong_argc => atm_conn_write srv c (invalid_argc ++ newline)
  | .unknown => atm_conn_write srv c (invalid_cmd ++ newline)

/-- The words of a line are texts. -/
theorem tokens_ok {line : List Byte} (clean : Open is_newline line) (short : line.length + 1 < 2^31) :
    ∀ t ∈ line_tokens 32 line, TextOk t := by
  intro t member
  have inside : t.Sublist (line.filter (fun c => c ≠ 0)) := Quotes.token_sublist member
  exact ⟨fun x here => clean x (List.mem_of_mem_filter (inside.subset here)),by have := (line_token member).2; omega⟩

theorem query_ok {line : List Byte} (clean : Open is_newline line) (short : line.length + 1 < 2^31) : (query line).Ok := by
  have each := tokens_ok clean short
  unfold query
  generalize line_tokens 32 line = words at each ⊢
  unfold query_words
  split
  · trivial
  · rename_i name args
    have args_ok : ∀ t ∈ args, TextOk t := fun t member => each t (List.mem_cons_of_mem _ member)
    split
    · unfold get_query
      split
      · exact args_ok _ List.mem_cons_self
      · trivial
    · split
      · unfold set_query
        split
        · trivial
        · exact ⟨args_ok _ List.mem_cons_self,fun w none => by cases none⟩
        · refine ⟨args_ok _ List.mem_cons_self,?_⟩
          rintro w ⟨⟩
          exact args_ok _ (List.mem_cons_of_mem _ List.mem_cons_self)
      · trivial

/-! ### The table of commands -/

theorem name_ok {cmd : Cmd} (known : cmd = cmd_get ∨ cmd = cmd_set) : TextOk cmd.name := by
  rcases known with rfl | rfl
  · exact ⟨by unfold Open; decide +kernel,by decide⟩
  · exact ⟨by unfold Open; decide +kernel,by decide⟩

/-- The calls that build the table of commands. -/
def cmd_ops : List (Dict.Op (Option Str) Cmd) :=
  [.set (some (fresh cmd_get.name)) cmd_get,.set (some (fresh cmd_set.name)) cmd_set]

theorem init_ran {cmds : Dict.Dictionary (Option Str) Cmd} (init : atm_cmd_init siphash = .ok cmds) :
    run (Dict.step (str_contents siphash)) (Dict.atm_dict_new .shallow) cmd_ops = .ok cmds ∧
      Dict.DictKeys StrNew cmds := by
  obtain ⟨d₁,first,rest⟩ := bind_eq_ok.mp init
  obtain ⟨name₁,new₁,first⟩ := bind_eq_ok.mp first
  obtain ⟨d₂,second,rest⟩ := bind_eq_ok.mp rest
  obtain ⟨name₂,new₂,second⟩ := bind_eq_ok.mp second
  cases rest
  have get_ok : TextOk cmd_get.name := name_ok (.inl rfl)
  have set_ok : TextOk cmd_set.name := name_ok (.inr rfl)
  obtain rfl : some (fresh cmd_get.name) = name₁ := Except.ok.inj (get_ok.new.1.symm.trans new₁)
  obtain rfl : some (fresh cmd_set.name) = name₂ := Except.ok.inj (set_ok.new.1.symm.trans new₂)
  have get_new : StrNew (some (fresh cmd_get.name)) := ⟨_,get_ok,rfl⟩
  have set_new : StrNew (some (fresh cmd_set.name)) := ⟨_,set_ok,rfl⟩
  have keys₁ := Dict.set_keys (Dict.new_keys .shallow) get_new first
  rw [Dict.set_same (strs_same siphash) (Dict.new_keys .shallow) get_new] at first
  have keys₂ := Dict.set_keys keys₁ set_new second
  rw [Dict.set_same (strs_same siphash) keys₁ set_new] at second
  refine ⟨?_,keys₂⟩
  show Dict.atm_dict_set (str_contents siphash) _ _ cmd_get >>= _ = _
  rw [show Dict.atm_dict_set (str_contents siphash) _ _ cmd_get = _ from first,ok_bind]
  show Dict.atm_dict_set (str_contents siphash) _ _ cmd_set >>= _ = _
  rw [show Dict.atm_dict_set (str_contents siphash) _ _ cmd_set = _ from second]
  rfl

/-- A name finds the command whose name it is. -/
theorem getcmd_eq (init : atm_cmd_init siphash = .ok srv.cmd_dict) {t : List Byte} (ok : TextOk t) :
    atm_cmd_getcmd siphash srv (some (fresh t)) = .ok (if t = cmd_get.name then some cmd_get
      else if t = cmd_set.name then some cmd_set else none) := by
  obtain ⟨ran,keys⟩ := init_ran init
  have lawful := str_contents_lawful siphash
  have sets : Dict.Sets cmd_ops := by
    intro op member
    simp only [cmd_ops,List.mem_cons,List.not_mem_nil,or_false] at member
    rcases member with rfl | rfl
    · exact ⟨_,_,rfl⟩
    · exact ⟨_,_,rfl⟩
  have single : srv.cmd_dict.ht_backup = none := by
    have names : ∀ k v, Dict.Op.set k v ∈ cmd_ops →
        ∃ k' ∈ [some (fresh cmd_get.name),some (fresh cmd_set.name)], (str_contents siphash).match_key k' k = true := ?_
    · exact (Dict.few_keys_single lawful sets names (by decide) ran).single
    intro k v member
    refine ⟨k,?_,lawful.equiv.refl k⟩
    simp only [cmd_ops,List.mem_cons,List.not_mem_nil,or_false,Dict.Op.set.injEq] at member ⊢
    exact member.imp And.left And.left
  have late := (Dict.sets_take_effect lawful sets).2.1 cmd_ops srv.cmd_dict List.prefix_rfl ran
  obtain ⟨r,got⟩ := late.answers (by decide) (some (fresh t))
  rw [atm_cmd_getcmd,Dict.get_same (strs_same siphash) keys ⟨t,ok,rfl⟩,got,late.settled single _ _ got]
  have matched : ∀ name : List Byte, (str_contents siphash).match_key (some (fresh name)) (some (fresh t)) =
      decide (t = name) := by
    intro name
    show decide (str_content _ = str_content _) = _
    rw [fresh_content,fresh_content]
    exact decide_eq_decide.mpr (Option.some_inj.trans eq_comm)
  show Except.ok (KeyMaps.set _ (KeyMaps.set _ (fun _ => none) _ _) _ _ _) = _
  rw [KeyMaps.set,KeyMaps.set,matched,matched]
  have apart : cmd_get.name ≠ cmd_set.name := by decide
  by_cases get : t = cmd_get.name
  · simp [get,apart]
  · simp [get]

/-! ### What handlers write -/

/-- A newline behind a text with a spare byte, as it is written. -/
theorem newline_written {dest : Option Str} (ok : OptOk dest) (room : Spare dest 1) :
    ∃ res, append dest 1 (fun _ val => strcat val (c_string newline)) = .ok res ∧
      ∀ srv c, atm_conn_write_str srv c res.str = atm_conn_write srv c (str_text dest ++ newline) := by
  obtain ⟨rest,res,done,here,header⟩ := append_text ok (show 0 ∉ newline by decide) room (cats_c_string (by decide))
  refine ⟨res,done,fun srv c => ?_⟩
  rw [here,write_str_eq header]
  exact congrArg _ List.take_left

theorem reply_eq {m : List Byte} (ok : TextOk m) (srv : Server) (c : Conn) :
    atm_sess_reply srv c m = atm_conn_write srv c (m ++ newline) := by
  have room : Spare (some (fresh m)) 1 := by
    have counted : (fresh m).cap - (fresh m).len = 8 - (9 + m.length) % 8 := by
      show m.length + (List.replicate (8 - (9 + m.length) % 8) (0 : Byte)).length - m.length = _
      rw [List.length_replicate]
      omega
    show 1 ≤ (fresh m).cap - (fresh m).len
    omega
  have header : OptOk (some (fresh m)) := by
    rintro _ ⟨⟩
    exact ok.new.2
  obtain ⟨res,done,wrote⟩ := newline_written header room
  have appended : atm_str_cats (some (fresh m)) (some newline) = .ok res := by
    rw [cats_eq (by decide) (by decide)]
    exact done
  rw [atm_sess_reply,ok.new.1,ok_bind,appended,ok_bind,wrote,fresh,str_text_made]

/-- A stored value is written as its text. -/
theorem value_written {s : Option Str} (ok : ValueOk ⟨s⟩) (srv : Server) (c : Conn) :
    (do atm_conn_write_str srv c (← atm_str_cats_dup s (some newline)).str) =
      atm_conn_write srv c ((str_content s).getD [] ++ newline) := by
  obtain ⟨optOk,room,text⟩ : OptOk s ∧ Spare s 1 ∧ str_text s = (str_content s).getD [] := by
    cases s with
    | none => exact ⟨fun s same => (by cases same),⟨by decide,by decide⟩,rfl⟩
    | some s =>
      obtain ⟨content,rest,rfl,header,some,_,_⟩ := ok s rfl
      refine ⟨?_,?_,?_⟩
      · rintro _ ⟨⟩
        exact header
      · have := List.length_pos_iff.mpr some
        show 1 ≤ content.length + rest.length - content.length
        omega
      · rw [str_text_made]
        exact (List.take_left : (made content rest).val.take content.length = content).symm
  obtain ⟨res,done,wrote⟩ := newline_written optOk room
  rw [cats_dup_eq optOk (by decide) (by decide),show newline.length = 1 from rfl,done,ok_bind,wrote,text]

theorem fixed_ok : TextOk success ∧ TextOk invalid_argc ∧ TextOk invalid_cmd :=
  ⟨⟨success_clean,by decide⟩,⟨invalid_argc_clean,by decide⟩,⟨invalid_cmd_clean,by decide⟩⟩

/-! ### A request as a query -/

/-- `argv` of a line with words. -/
def argv_of (ts : List (List Byte)) : List (Option Str) := ts.map (fun t => some (fresh t)) ++ [none]

theorem argv_word {ts : List (List Byte)} {i : Nat} {w : List Byte} (found : ts[i]? = some w) (ok : TextOk w) :
    atm_cmd_para (some (argv_of ts)) i = .ok (text_key w) := by
  have inside := (List.getElem?_eq_some_iff.mp found).1
  have read : argv_at (some (argv_of ts)) i = .ok (some (fresh w)) := by
    have place : i < (ts.map (fun t => some (fresh t))).length := by
      rw [List.length_map]
      exact inside
    simp only [argv_at,argv_of,List.getElem?_append_left place,List.getElem?_map,found,Option.map_some]
  have copied : str_new_of (fresh w).val = .ok (some (fresh w)) := by
    rw [str_new_of,fresh,show (made w _).val = w ++ 0 :: _ from rfl,strlen_ok ok.clean,ok_bind,List.take_left,ok.new.1,fresh]
  rw [atm_cmd_para,read,ok_bind]
  dsimp only
  rw [copied]
  rfl

theorem argv_null (ts : List (List Byte)) : atm_cmd_para (some (argv_of ts)) ts.length = .ok ⟨none⟩ := by
  have read : argv_at (some (argv_of ts)) ts.length = .ok none := by
    simp [argv_at,argv_of]
  rw [atm_cmd_para,read]
  rfl

theorem argv_beyond (ts : List (List Byte)) : atm_cmd_para (some (argv_of ts)) (ts.length + 1) = .error .outOfBounds := by
  have read : argv_at (some (argv_of ts)) (ts.length + 1) = .error .outOfBounds := by
    simp [argv_at,argv_of]
  rw [atm_cmd_para,read]
  rfl

theorem argv_count (ts : List (List Byte)) : ((argv_of ts).takeWhile Option.isSome).length = ts.length := by
  have all : ∀ w ∈ ts.map (fun t => some (fresh t)), w.isSome = true := by
    intro w member
    obtain ⟨t,_,rfl⟩ := List.mem_map.mp member
    rfl
  rw [argv_of,List.takeWhile_append_of_pos all]
  simp

/-- A `get` with one argument looks its word up; with any other number it is refused. -/
theorem get_eq (cache : CacheOk siphash srv.cache_dict) {args : List (List Byte)} (each : ∀ t ∈ args, TextOk t)
    (name : List Byte) (argc : se.argc = args.length + 1) (argv : se.argv = some (argv_of (name :: args))) :
    atm_cmd_func_get siphash srv c cmd_get se = handle siphash srv c (get_query args) := by
  have refused : args.length ≠ 1 → atm_cmd_func_get siphash srv c cmd_get se = handle siphash srv c .wrong_argc := by
    intro other
    rw [atm_cmd_func_get,if_neg (fun fits => other (by have := (fits_get se).mp fits; omega)),reply_eq fixed_ok.2.1]
    rfl
  rcases args with _ | ⟨k,_ | ⟨_,args⟩⟩
  · exact refused (by decide)
  · have first : atm_cmd_para se.argv 1 = .ok (text_key k) := by
      rw [argv]
      exact argv_word rfl (each k List.mem_cons_self)
    rw [atm_cmd_func_get,if_pos ((fits_get se).mpr argc),first,ok_bind]
    cases got : Dict.atm_dict_get (ATM_OBJ_T siphash) srv.cache_dict (text_key k) with
    | error f =>
      simp only [get_query,handle,got]
      rfl
    | ok v =>
      simp only [get_query,handle,got,ok_bind]
      exact value_written (get_value_ok cache got) srv c
  · exact refused (by simp)

/-- A `set` stores its second argument, or NULL, and reads beyond `argv` without a first one. -/
theorem set_eq {args : List (List Byte)} (each : ∀ t ∈ args, TextOk t) (name : List Byte)
    (argv : se.argv = some (argv_of (name :: args))) :
    atm_cmd_func_set siphash srv c cmd_set se = handle siphash srv c (set_query args) := by
  rw [atm_cmd_func_set,if_pos (fits_set se),argv]
  rcases args with _ | ⟨k,_ | ⟨v,args⟩⟩
  · rw [show atm_cmd_para (some (argv_of [name])) 1 = .ok ⟨none⟩ from argv_null [name],ok_bind,
      show atm_cmd_para (some (argv_of [name])) 2 = .error .outOfBounds from argv_beyond [name]]
    rfl
  · rw [argv_word (show [name,k][1]? = some k from rfl) (each k List.mem_cons_self),ok_bind,
      show atm_cmd_para (some (argv_of [name,k])) 2 = .ok ⟨none⟩ from argv_null [name,k],ok_bind]
    exact bind_congr (fun cache => reply_eq fixed_ok.1 _ c)
  · rw [argv_word (show (name :: k :: v :: args)[1]? = some k from rfl) (each k List.mem_cons_self),ok_bind,
      argv_word (show (name :: k :: v :: args)[2]? = some v from rfl) (each v (List.mem_cons_of_mem _ List.mem_cons_self)),
      ok_bind]
    exact bind_congr (fun cache => reply_eq fixed_ok.1 _ c)

/-- The split of a line that was taken apart. -/
theorem request_split {t spare : List Byte} (int : t.length < 2^31) (request : Request siphash srv (made t spare) se) :
    SlotsFit t.length (line_tokens 32 t).length ∧ atm_str_split t 32 t.length = .ok (answer (line_tokens 32 t)) := by
  have whole : atm_str_split t 32 t.length = if SlotsFit t.length (line_tokens 32 (t.take t.length)).length
      then .ok (answer (line_tokens 32 (t.take t.length))) else .error .outOfBounds := split_eq le_rfl int (by decide) (by decide)
  rw [List.take_length] at whole
  obtain ⟨words,split⟩ : ∃ words, atm_str_split t 32 t.length = .ok words := by
    rcases request with ⟨split,_⟩ | ⟨argv,split,_⟩
    · exact ⟨_,split_made t spare 32 ▸ split⟩
    · exact ⟨_,split_made t spare 32 ▸ split⟩
  by_cases fits : SlotsFit t.length (line_tokens 32 t).length
  · rw [if_pos fits] at whole
    exact ⟨fits,whole⟩
  · rw [if_neg fits,split] at whole
    cases whole

/-- The handler that is called for a line does what its query asks for. -/
theorem call_eq (init : atm_cmd_init siphash = .ok srv.cmd_dict) (cache : CacheOk siphash srv.cache_dict)
    {t spare : List Byte} (clean : Open is_newline t) (short : t.length + 1 < 2^31)
    (request : Request siphash srv (made t spare) se) : call_cmd siphash srv c se = handle siphash srv c (query t) := by
  have each := tokens_ok clean short
  have cut := (request_split (by omega) request).2
  have unknown : se.cmd = none → call_cmd siphash srv c se = handle siphash srv c .unknown := by
    intro none
    rw [call_cmd,none]
    exact reply_eq fixed_ok.2.2 srv c
  unfold query
  rcases request with ⟨nothing,cmd,_,_⟩ | ⟨argv,split,got,argc,same⟩
  · rw [split_made,cut,Except.ok.injEq] at nothing
    cases words : line_tokens 32 t with
    | nil => exact unknown cmd
    | cons name args =>
      rw [answer,words,if_neg (List.cons_ne_nil _ _)] at nothing
      cases nothing
  · rw [split_made,cut,Except.ok.injEq] at split
    cases words : line_tokens 32 t with
    | nil =>
      rw [answer,words,if_pos rfl] at split
      cases split
    | cons name args =>
      rw [answer,words,if_neg (List.cons_ne_nil _ _),Option.some.injEq] at split
      subst split
      rw [words] at each
      have name_text := each name List.mem_cons_self
      have args_ok : ∀ t ∈ args, TextOk t := fun t member => each t (List.mem_cons_of_mem _ member)
      replace argc : se.argc = args.length + 1 := argc.trans (argv_count (name :: args))
      replace got : atm_cmd_getcmd siphash srv (some (fresh name)) = .ok se.cmd := got
      rw [getcmd_eq init name_text,Except.ok.injEq] at got
      unfold query_words
      dsimp only
      by_cases get : name = cmd_get.name
      · rw [if_pos get] at got ⊢
        rw [call_cmd,← got]
        exact get_eq cache args_ok name argc same
      · rw [if_neg get] at got ⊢
        by_cases set : name = cmd_set.name
        · rw [if_pos set] at got ⊢
          rw [call_cmd,← got]
          exact set_eq args_ok name same
        · rw [if_neg set] at got ⊢
          exact unknown got.symm

/-! ### The cache of a history -/

/-- The cache is the dictionary of the `set` requests of a history. -/
structure Cached (siphash : List Byte → UInt64) (h : List Query) (cache : Dict.Dictionary Obj Obj) : Prop where
  ran : run (Dict.step (obj_contents siphash)) (Dict.atm_dict_new .deep) (h.filterMap Query.op) = .ok cache
  keys : Dict.DictKeys ObjNew cache
  ok : CacheOk siphash cache

variable {h : List Query}

theorem new_cached : Cached siphash [] (Dict.atm_dict_new .deep) := ⟨rfl,Dict.new_keys .deep,new_cache_ok⟩

theorem ops_set (h : List Query) : Dict.Sets (h.filterMap Query.op) := by
  intro op member
  obtain ⟨q,_,made'⟩ := List.mem_filterMap.mp member
  cases q with
  | set k v => cases made'; exact ⟨_,_,rfl⟩
  | _ => cases made'

theorem store_snoc (h : List Query) (q : Query) : store (h ++ [q]) = update (store h) q := by
  rw [store,List.foldl_append]
  rfl

/-- The last `set` of a word stores its value. -/
theorem store_last (siphash : List Byte → UInt64) (h : List Query) (k : List Byte) :
    Dict.last_set (obj_contents siphash) (h.filterMap Query.op) (text_key k) = (store h k).map text_val := by
  induction h using List.reverseRecOn with
  | nil => rfl
  | append_singleton h q ih =>
    rw [List.filterMap_append,store_snoc]
    cases q with
    | set k' v =>
      show Dict.last_set _ (_ ++ [Dict.Op.set (text_key k') (text_val v)]) _ = _
      rw [Dict.last_set_snoc,Dict.Op.effect,KeyMaps.set,text_key_matched,ih,update]
      by_cases same : k' = k
      · simp [same]
      · simp [same]
    | _ =>
      show Dict.last_set _ (_ ++ []) _ = _
      rw [List.append_nil]
      exact ih

theorem text_val_ok {v : Option (List Byte)} (each : ∀ w, v = some w → TextOk w) : ValueOk (text_val v) := by
  intro s same
  cases v with
  | none => cases same
  | some w =>
    cases same
    have ok := each w rfl
    refine ⟨w,_,rfl,ok.new.2,?_,ok.1,by have := ok.2; omega⟩
    rw [← List.length_pos_iff,List.length_replicate]
    omega

theorem set_cached (cached : Cached siphash h srv.cache_dict) {k : List Byte} {v : Option (List Byte)}
    (ok : (Query.set k v).Ok) {cache : Dict.Dictionary Obj Obj}
    (done : Dict.atm_dict_set (ATM_OBJ_T siphash) srv.cache_dict (text_key k) (text_val v) = .ok cache) :
    Cached siphash (h ++ [.set k v]) cache := by
  have key : ObjNew (text_key k) := ⟨k,ok.1,rfl⟩
  refine ⟨?_,Dict.set_keys cached.keys key done,set_cache_ok cached.ok (text_val_ok ok.2) done⟩
  rw [List.filterMap_append]
  refine (run_snoc_ok _).mpr ⟨_,cached.ran,?_⟩
  rw [Dict.set_same (objs_same siphash) cached.keys key] at done
  exact done

/-- A lookup finds what the store held after some of the requests, and the store holds something for a word
    then exactly if it does now. With one table these are all requests. -/
theorem get_cached (cached : Cached siphash h srv.cache_dict) {k : List Byte} (ok : TextOk k) {v : Option Obj}
    (got : Dict.atm_dict_get (ATM_OBJ_T siphash) srv.cache_dict (text_key k) = .ok v) :
    ∃ seen, seen <+: h ∧ v = (store seen k).map text_val ∧ (store seen k).isSome = (store h k).isSome ∧
      (srv.cache_dict.ht_backup = none → store seen k = store h k) := by
  have key : ObjNew (text_key k) := ⟨k,ok,rfl⟩
  rw [Dict.get_same (objs_same siphash) cached.keys key] at got
  have late := (Dict.sets_take_effect (obj_contents_lawful siphash) (ops_set h)).2.1 _ _ List.prefix_rfl cached.ran
  obtain ⟨pre,⟨post,whole⟩,found⟩ := late.past _ v got
  obtain ⟨seen,others,rfl,rfl,_⟩ := List.filterMap_eq_append_iff.mp whole.symm
  rw [store_last] at found
  have present := late.kept _ v got
  rw [store_last,found,Option.isSome_map,Option.isSome_map] at present
  refine ⟨seen,List.prefix_append seen others,found,present,fun one => ?_⟩
  have settled := late.settled one _ v got
  rw [store_last,found] at settled
  exact Option.map_injective text_val_injective settled

/-- Fewer different words have been set than the first table of a dictionary has slots. -/
def FewKeys (h : List Query) : Prop :=
  ∃ ks : List (List Byte), (∀ k v, .set k v ∈ h → k ∈ ks) ∧ ks.length < Dict.ATM_DICT_INITIAL_BUCKET_SIZE

theorem few_keys_cached (cached : Cached siphash h srv.cache_dict) (few : FewKeys h) : srv.cache_dict.ht_backup = none := by
  obtain ⟨ks,listed,length⟩ := few
  have lawful := obj_contents_lawful siphash
  have covered : ∀ k v, Dict.Op.set k v ∈ h.filterMap Query.op →
      ∃ k' ∈ ks.map text_key, (obj_contents siphash).match_key k' k = true := by
    intro k v member
    obtain ⟨q,inside,made'⟩ := List.mem_filterMap.mp member
    cases q with
    | set t w =>
      cases made'
      exact ⟨_,List.mem_map_of_mem (listed t w inside),lawful.equiv.refl _⟩
    | _ => cases made'
  exact (Dict.few_keys_single lawful (ops_set h) covered (by rw [List.length_map]; exact length) cached.ran).single

/-- A request may be answered from the store after `seen`: it holds a value for the word of a `get` exactly if it does
    now, and the answer is the one of now as long as few words have been set. -/
structure Sees (h seen : List Query) (q : Query) : Prop where
  earlier : seen <+: h
  present : ∀ k, q = .get k → (store seen k).isSome = (store h k).isSome
  exact : FewKeys h → reply (store seen) q = reply (store h) q

theorem sees_all (h : List Query) (q : Query) : Sees h h q := ⟨List.prefix_rfl,fun _ _ => rfl,fun _ => rfl⟩

/-- A handler that returns has kept the cache and written an answer. -/
theorem handle_cached (cached : Cached siphash h srv.cache_dict) {q : Query} (ok : q.Ok)
    (done : handle siphash srv c q = .ok srv') :
    Cached siphash (h ++ [q]) srv'.cache_dict ∧ srv'.cmd_dict = srv.cmd_dict ∧
      ∃ seen srv₁, Sees h seen q ∧ srv₁.bufs = srv.bufs ∧ atm_conn_write srv₁ c (reply (store seen) q) = .ok srv' := by
  have same : q.op = none → Cached siphash (h ++ [q]) srv.cache_dict := by
    intro none
    refine ⟨?_,cached.keys,cached.ok⟩
    rw [List.filterMap_append,List.filterMap_cons_none none,List.filterMap_nil,List.append_nil]
    exact cached.ran
  have fixed : ∀ {m : List Byte}, q.op = none → (∀ f, reply f q = m) → atm_conn_write srv c m = .ok srv' →
      Cached siphash (h ++ [q]) srv'.cache_dict ∧ srv'.cmd_dict = srv.cmd_dict ∧
        ∃ seen srv₁, Sees h seen q ∧ srv₁.bufs = srv.bufs ∧ atm_conn_write srv₁ c (reply (store seen) q) = .ok srv' := by
    intro m none always wrote
    obtain ⟨cache,cmds⟩ := write_keeps_cache wrote
    exact ⟨by rw [cache]; exact same none,cmds,h,srv,sees_all h q,rfl,by rw [always]; exact wrote⟩
  cases q with
  | get k =>
    obtain ⟨v,got,wrote⟩ := bind_eq_ok.mp done
    obtain ⟨cache,cmds⟩ := write_keeps_cache wrote
    obtain ⟨seen,earlier,rfl,present,single⟩ := get_cached cached ok got
    have text : (str_content (atm_obj_str ((store seen k).map text_val))).getD [] = (store seen k).join.getD [] := by
      cases store seen k with
      | none => rfl
      | some v =>
        cases v with
        | none => rfl
        | some w => exact congrArg (fun o => o.getD []) (fresh_content w)
    rw [text] at wrote
    refine ⟨by rw [cache]; exact same rfl,cmds,seen,srv,⟨earlier,?_,fun few => ?_⟩,rfl,wrote⟩
    · rintro _ ⟨⟩
      exact present
    · rw [reply,reply,single (few_keys_cached cached few)]
  | set k v =>
    obtain ⟨cache₁,stored,wrote⟩ := bind_eq_ok.mp done
    obtain ⟨cache,cmds⟩ := write_keeps_cache wrote
    exact ⟨by rw [cache]; exact set_cached cached ok stored,cmds,h,{ srv with cache_dict := cache₁ },sees_all h _,rfl,wrote⟩
  | bare_set => cases done
  | wrong_argc => exact fixed rfl (fun _ => rfl) done
  | unknown => exact fixed rfl (fun _ => rfl) done

theorem cached_size (cached : Cached siphash h srv.cache_dict) (short : h.length ≤ 2^27) :
    Dict.atm_dict_size srv.cache_dict ≤ h.length := by
  have fewer : (h.filterMap Query.op).length ≤ h.length := List.length_filterMap_le ..
  obtain ⟨cache,ran,_,size⟩ : ∃ d, run (Dict.step (obj_contents siphash)) (Dict.atm_dict_new .deep) (h.filterMap Query.op) =
      .ok d ∧ Dict.OnlySet (obj_contents siphash) d ∧ Dict.atm_dict_size d ≤ (h.filterMap Query.op).length :=
    Dict.only_set_runs (ops_set h) (by omega)
  rw [cached.ran] at ran
  cases ran
  omega

/-- A `get` is answered when its lookup returns. -/
theorem handle_get_iff (cache : CacheOk siphash srv.cache_dict) (ok : WorldOk srv.bufs) {buf : Buf}
    (found : get srv.bufs.bufs c.w_buf = some buf) (k : List Byte) : (∃ srv', handle siphash srv c (.get k) = .ok srv') ↔
      ∃ v, Dict.atm_dict_get (ATM_OBJ_T siphash) srv.cache_dict (text_key k) = .ok v := by
  constructor
  · rintro ⟨srv',done⟩
    obtain ⟨v,got,_⟩ := bind_eq_ok.mp done
    exact ⟨v,got⟩
  · rintro ⟨v,got⟩
    have text : ((str_content (atm_obj_str v)).getD []).length + 1 < 2^31 := by
      have value := get_value_ok cache got
      cases same : atm_obj_str v with
      | none => exact (by decide : 1 < 2^31)
      | some s =>
        obtain ⟨content,rest,rfl,_,_,_,length⟩ := value s same
        rw [show str_content (some (made content rest)) = some content from congrArg some List.take_left]
        exact length
    have bytes : ((str_content (atm_obj_str v)).getD [] ++ newline).length < 2^31 := by
      rw [List.length_append]
      exact text
    obtain ⟨srv',wrote⟩ := conn_write_ok ok found bytes
    exact ⟨srv',by rw [handle,got,ok_bind]; exact wrote⟩

/-- A `set` is answered when the cache takes it. -/
theorem handle_set_iff (ok : WorldOk srv.bufs) {buf : Buf} (found : get srv.bufs.bufs c.w_buf = some buf) (k : List Byte)
    (v : Option (List Byte)) : (∃ srv', handle siphash srv c (.set k v) = .ok srv') ↔
      ∃ cache, Dict.atm_dict_set (ATM_OBJ_T siphash) srv.cache_dict (text_key k) (text_val v) = .ok cache := by
  constructor
  · rintro ⟨srv',done⟩
    obtain ⟨cache,stored,_⟩ := bind_eq_ok.mp done
    exact ⟨cache,stored⟩
  · rintro ⟨cache,stored⟩
    have kept : WorldOk ({ srv with cache_dict := cache } : Server).bufs := ok
    have bytes : (success ++ newline).length < 2^31 := by decide
    obtain ⟨srv',wrote⟩ := conn_write_ok kept found bytes
    exact ⟨srv',by rw [handle,stored,ok_bind]; exact wrote⟩

/-- Every request but a bare `set` is answered, while the cache has room. -/
theorem handle_total (cached : Cached siphash h srv.cache_dict) (short : h.length < 2^27) {q : Query}
    (argued : q ≠ .bare_set) (ok : WorldOk srv.bufs) {buf : Buf} (found : get srv.bufs.bufs c.w_buf = some buf) :
    ∃ srv', handle siphash srv c q = .ok srv' := by
  have size := cached_size cached (Nat.le_of_lt short)
  cases q with
  | get k => exact (handle_get_iff cached.ok ok found k).mpr (Dict.get_total (cached.ok.only_set.sized (by omega)) (text_key k))
  | set k v =>
    exact (handle_set_iff ok found k v).mpr (Dict.set_total cached.ok.only_set (by omega) (text_key k) (text_val v))
  | bare_set => exact absurd rfl argued
  | wrong_argc => exact conn_write_ok ok found (by decide)
  | unknown => exact conn_write_ok ok found (by decide)

end AtmCache.Session
