import AtmCache.ConfigComments
import AtmCache.ObjKeys

/-!
# What a configuration file says

The meaning of a file over the texts of its lines alone (`file_settings`): a line is trimmed, cut into words with
regard to quotes, and its first word names an option. `atm_config_process` on any text without NUL gives
every option the value that this meaning gives it, and ends as it says; it meets no fault, whatever
the text is (`process_means`).
-/
namespace AtmCache.Configuration
open Quotes Runs Strings Trims

/-! ### The meaning -/

/-- `atm_config_t` with the texts of its strings. -/
structure Settings where
  configfile : Option (List Byte)
  pidfile : Option (List Byte)
  daemonize : Int
  bindaddr : List (List Byte)
  port : Int
  tcpbacklog : Int
  maxidletime : Int
  tcpkeepalive : Int
  maxclients : Int
  loglevel : Int
  logfile : Option (List Byte)
  maxmemory : Nat
  workernum : Int
  deriving DecidableEq, Repr

/-- The options that take one value. -/
inductive Key where
  | pidfile
  | daemonize
  | port
  | tcpbacklog
  | timeout
  | tcpkeepalive
  | maxclients
  | loglevel
  | logfile
  | maxmemory
  | workernum
  deriving DecidableEq, Repr

def Key.name : Key → List Byte
  | .pidfile => chars "pidfile"
  | .daemonize => chars "daemonize"
  | .port => chars "port"
  | .tcpbacklog => chars "tcpbacklog"
  | .timeout => chars "timeout"
  | .tcpkeepalive => chars "tcpkeepalive"
  | .maxclients => chars "maxclients"
  | .loglevel => chars "loglevel"
  | .logfile => chars "logfile"
  | .maxmemory => chars "maxmemory"
  | .workernum => chars "workernum"

def keys : List Key :=
  [.pidfile,.daemonize,.port,.tcpbacklog,.timeout,.tcpkeepalive,.maxclients,.loglevel,.logfile,.maxmemory,.workernum]

/-- The place of a level's name, in any case of letters. -/
def level (v : List Byte) : Int :=
  match ATM_LOG_LV_ENUM.findIdx? (fun name => v.map upper = name) with
  | some i => i
  | none => -1

/-- A number is stored before it is checked. -/
def checked (s : Settings) (wrong : Bool) (errmsg : String) : Settings × Option String := (s,if wrong then some errmsg else none)

/-- What an option does with its value. -/
def Key.set (s : Settings) (v : List Byte) : Key → Settings × Option String
  | .pidfile => ({ s with pidfile := some v },none)
  | .daemonize => checked { s with daemonize := atm_config_yesnotoi v } (atm_config_yesnotoi v = -1) "arguments must yes or no"
  | .port => checked { s with port := atoi v } (atoi v < 0 || 65535 < atoi v) "Invalid port"
  | .tcpbacklog => checked { s with tcpbacklog := atoi v } (atoi v < 0) "Invalid tcpbacklog value"
  | .timeout => checked { s with maxidletime := atoi v } (atoi v < 0) "Invalid timeout value"
  | .tcpkeepalive => checked { s with tcpkeepalive := atoi v } (atoi v < 0) "Invalid tcp-keepalive value"
  | .maxclients => checked { s with maxclients := atoi v } (atoi v < 1) "Invalid max clients limit"
  | .loglevel => checked { s with loglevel := level v } (level v < 0 || ATM_LOG_FATAL < level v)
      "Invalid log level, accepted options are: off all debug info warn error fatal"
  | .logfile => ({ s with logfile := some v },none)
  | .maxmemory => ({ s with maxmemory := ((atm_util_memtoll v).1 % 2^64).toNat },none)
  | .workernum => checked { s with workernum := atoi v } (atoi v < 1) "Invalid max clients limit"

/-- The addresses are without blanks and double quotes around them. -/
def bind (s : Settings) (addrs : List (List Byte)) : Settings × Option String :=
  if ATM_CONFIG_MAXBINDADDR < addrs.length then (s,some "Too many bind addresses specified")
  else if addrs = [] then (s,some "Invalid bind param")
  else ({ s with bindaddr := addrs.map (trim (strchr (chars " \t\r\n\""))) },none)

/-- With another number of values the option is passed over. -/
def one_value (s : Settings) (key : Key) : List (List Byte) → Settings × Option String
  | [v] => key.set s v
  | _ => (s,none)

/-- What the words of a line do; a line that is no option does nothing. -/
def setting (s : Settings) : List (List Byte) → Settings × Option String
  | [] => (s,none)
  | name :: values =>
    if name.map lower = chars "bind" then bind s values
    else
      match keys.find? (fun key => name.map lower = key.name) with
      | some key => one_value s key values
      | none => (s,none)

def stripped (line : List Byte) : List Byte := trim (strchr (chars " \t\r\n")) line

/-- Comments and lines of blanks do nothing. -/
def line_setting (s : Settings) (line : List Byte) : Settings × Option String :=
  if (stripped line).head? = some 35 then (s,none) else setting s (tokens is_quote 32 (stripped line))

/-- The settings after some lines, and the number, the text and the message of the line that is fatal, if any. -/
def file_settings (s : Settings) (line_num : Nat) : List (List Byte) → Settings × Option (Nat × List Byte × String)
  | [] => (s,none)
  | line :: rest =>
    match line_setting s line with
    | (s,none) => file_settings s (line_num+1) rest
    | (s,some errmsg) => (s,some (line_num,stripped line,errmsg))

/-! ### The configuration seen as settings -/

def seen (s : Str) : List Byte := str_text (some s)

def Config.settings (cfg : Config) : Settings :=
  ⟨cfg.configfile.map seen,cfg.pidfile.map seen,cfg.daemonize,((cfg.bindaddr.getD []).take cfg.bindaddr_count).map str_text,cfg.port,
    cfg.tcpbacklog,cfg.maxidletime,cfg.tcpkeepalive,cfg.maxclients,cfg.loglevel,cfg.logfile.map seen,cfg.maxmemory,cfg.workernum⟩

def Ending.seen : Ending → Option (Nat × List Byte × String)
  | .success => none
  | .fatal n line errmsg => some (n,Configuration.seen line,errmsg)

/-- The result of an option that is seen. -/
def option_seen (r : Config × Option String) : Settings × Option String := (r.1.settings,r.2)

/-! ### Words -/

/-- A word or a line of a file that can be held. -/
def Short (t : List Byte) : Prop := 0 ∉ t ∧ t.length < 2^29

theorem Short.new {t : List Byte} (short : Short t) : atm_str_new (some t) = .ok (some (fresh t)) ∧ HeaderOk (fresh t) :=
  new_fresh short.1 (by have := short.2; omega)

/-- The words as `atm_str_split` returns them. -/
def argv (ts : List (List Byte)) : Option (List (Option Str)) := some (ts.map (fun t => some (fresh t)) ++ [none])

variable {ts : List (List Byte)} {t : List Byte}

theorem argv_size : atm_str_split_size (argv ts) = .ok ts.length := by
  have all : ∀ w ∈ ts.map (fun t => some (fresh t)), w.isSome = true := by simp
  have last : none ∈ ts.map (fun t => some (fresh t)) ++ [none] := by simp
  rw [argv,atm_str_split_size,if_pos last,List.takeWhile_append_of_pos all]
  simp

theorem argv_prop {i : Nat} (found : ts[i]? = some t) : prop (argv ts) i = .ok (some (fresh t)) := by
  have inside : i < (ts.map (fun t => some (fresh t))).length := by
    rw [List.length_map]
    exact (List.getElem?_eq_some_iff.mp found).1
  rw [argv,prop,List.getElem?_append_left inside,List.getElem?_map,found]
  rfl

theorem fresh_c_text (short : Short t) : c_text (some (fresh t)) = .ok t := by
  rw [c_text,fresh,made,strlen_ok short.1,ok_bind,List.take_left]
  rfl

/-- Every byte before the NUL is mapped. -/
theorem map_case_made (f : Byte → Byte) {content : List Byte} (rest : List Byte) (below : content.length < 2^31) :
    map_case f (some (made content rest)) = .ok (some (made (content.map f) rest)) := by
  have fill : write_bytes (content ++ 0 :: rest) 0 (content.map f) = .ok (content.map f ++ 0 :: rest) := by
    rw [write_bytes_ok (by simp)]
    exact congrArg Except.ok (CStrings.splice_append [] content (0 :: rest) (List.length_map f))
  simp only [map_case,made,below,↓reduceIte,read_bytes_ok (show content.length ≤ (content ++ 0 :: rest).length by simp),ok_bind,
    List.take_left,fill,pure_eq_ok,List.length_map]

theorem lower_clean (clean : 0 ∉ t) : 0 ∉ t.map lower := by
  rw [List.mem_map]
  rintro ⟨c,member,zero⟩
  exact clean (lower_zero c zero ▸ member)

/-- The comparison of a name with the name of an option. -/
theorem name_eqs (short : Short t) {name : List Byte} (clean : 0 ∉ name) (few : name.length < 2^29) (rest : List Byte)
    (small : hdrlen + ((t.map lower).length + rest.length) + 1 < 2^32) :
    atm_str_eqs (some (made (t.map lower) rest)) name = .ok (decide (t.map lower = name)) := by
  have ok : HeaderOk (made (t.map lower) rest) := made_ok (lower_clean short.1) small
  obtain ⟨new,ok'⟩ : _ ∧ HeaderOk (fresh name) := Short.new ⟨clean,few⟩
  obtain ⟨c,compared,sign⟩ := Objects.cmp_sign (Objects.header_well_formed ok) (Objects.header_well_formed ok')
  have contents : Objects.content (made (t.map lower) rest) = Objects.content (fresh name) ↔ t.map lower = name := by
    rw [show Objects.content (made (t.map lower) rest) = t.map lower from List.take_left,
      show Objects.content (fresh name) = name from List.take_left]
  rw [atm_str_eqs,new,ok_bind,compared,ok_bind,pure_eq_ok]
  exact congrArg Except.ok (decide_eq_decide.mpr (sign.zero.trans contents))

theorem upper_clean (clean : 0 ∉ t) : 0 ∉ t.map upper := by
  rw [List.mem_map]
  rintro ⟨c,member,zero⟩
  exact clean (upper_zero c zero ▸ member)

theorem parse_level_eq (short : Short t) : atm_log_parse_level t = .ok (level t) := by
  have names : (fun name => decide (strcmp (t.map upper) name = 0)) = (fun name => decide (t.map upper = name)) := by
    funext name
    exact decide_eq_decide.mpr (Objects.strcmp_sign (t.map upper) name).zero
  have text : c_text (some (made (t.map upper) (List.replicate (8 - (9 + t.length) % 8) 0))) = .ok (t.map upper) := by
    rw [c_text,made,strlen_ok (upper_clean short.1),ok_bind,List.take_left]
    rfl
  have below : t.length < 2^31 := by
    have few := short.2
    omega
  rw [atm_log_parse_level,short.new.1,ok_bind,atm_str_toupper,fresh,map_case_made upper _ below,ok_bind]
  dsimp only
  rw [text,ok_bind,names,level]
  rfl

/-- The addresses that are stored. -/
theorem bind_addresses_eq {name : List Byte} {values : List (List Byte)} (short : ∀ v ∈ values, Short v) :
    ∃ addrs, bind_addresses (argv (name :: values)) values.length = .ok addrs ∧ addrs.length = values.length ∧
      addrs.map str_text = values.map (trim (strchr (chars " \t\r\n\""))) := by
  have each : ∀ j ∈ List.range values.length, (do
      let baddr ← atm_str_dup (← prop (argv (name :: values)) (j+1))
      atm_str_trim baddr (chars " \t\r\n\"")) =
        .ok (some (trimmed (chars " \t\r\n\"") (values.getD j []) (List.replicate (8 - (9 + (values.getD j []).length) % 8) 0))) := by
    intro j member
    have inside := List.mem_range.mp member
    have found : (name :: values)[j+1]? = some (values.getD j []) := by
      rw [List.getElem?_cons_succ,List.getD_eq_getElem?_getD,List.getElem?_eq_getElem inside]
      rfl
    have new := (short _ (List.mem_of_getElem? (List.getElem?_cons_succ ▸ found))).new.2
    rw [argv_prop found,ok_bind,dup_ok new,ok_bind,fresh,trim_eq new]
  refine ⟨_,mapM_ok each,by rw [List.length_map,List.length_range],?_⟩
  rw [List.map_map]
  refine List.ext_getElem? (fun j => ?_)
  rw [List.getElem?_map,List.getElem?_map]
  by_cases inside : j < values.length
  · rw [List.getElem?_range inside,List.getElem?_eq_getElem inside]
    simp only [Option.map_some,Function.comp,List.getD_eq_getElem?_getD,List.getElem?_eq_getElem inside,Option.getD_some]
    exact congrArg some (str_text_made _ _)
  · rw [List.getElem?_eq_none (by rw [List.length_range]; omega),List.getElem?_eq_none (by omega)]
    rfl

/-! ### One option -/

/-- An option with a number as its value. -/
theorem int_option_means {name v : List Byte} (short : Short v) (put : Int → Config) (invalid : Int → Bool) (errmsg : String) :
    (int_option (argv [name,v]) put invalid errmsg).map option_seen =
      .ok (checked (put (atoi v)).settings (invalid (atoi v)) errmsg) := by
  rw [int_option,argv_prop (show [name,v][1]? = some v from rfl),ok_bind,fresh_c_text short,ok_bind]
  rfl

theorem find_key {name : List Byte} {key : Key} (is : name = key.name) : keys.find? (fun key => name = key.name) = some key := by
  subst is
  cases key <;> decide +kernel

/-- A line whose first word is no option, or that has not one value, does nothing. -/
theorem setting_none {s : Settings} {name : List Byte} {values : List (List Byte)} (other : name.map lower ≠ chars "bind")
    (unnamed : ∀ key : Key, ∀ v, values = [v] → name.map lower ≠ key.name) : setting s (name :: values) = (s,none) := by
  rw [setting,if_neg other]
  cases found : keys.find? (fun key => name.map lower = key.name) with
  | none => rfl
  | some key =>
    have is : name.map lower = key.name := by simpa using List.find?_some found
    dsimp only
    rw [one_value]
    exact fun v alone => unnamed key v alone is

theorem bind_means (cfg : Config) {name : List Byte} {values : List (List Byte)} (short : ∀ v ∈ values, Short v) :
    (if ATM_CONFIG_MAXBINDADDR < values.length + 1 - 1 then pure (cfg,some "Too many bind addresses specified")
      else if 0 < values.length + 1 - 1 then do
        let addrs ← bind_addresses (argv (name :: values)) (values.length + 1 - 1)
        pure ({ cfg with
          bindaddr := some (addrs ++ List.replicate (ATM_CONFIG_MAXBINDADDR - (values.length + 1 - 1)) none)
          bindaddr_count := values.length + 1 - 1 },none)
      else pure (cfg,some "Invalid bind param") : Except Fault (Config × Option String)).map option_seen =
        .ok (bind cfg.settings values) := by
  obtain ⟨addrs,stored,count,texts⟩ : ∃ addrs, bind_addresses (argv (name :: values)) values.length = .ok addrs ∧ _ :=
    bind_addresses_eq short
  rw [Nat.add_sub_cancel,bind]
  by_cases many : ATM_CONFIG_MAXBINDADDR < values.length
  · rw [if_pos many,if_pos many]
    rfl
  · rw [if_neg many,if_neg many]
    by_cases empty : values = []
    · rw [if_pos empty,if_neg (by rw [empty]; decide)]
      rfl
    · rw [if_neg empty,if_pos (List.length_pos_iff.mpr empty),stored,ok_bind]
      have kept : (addrs ++ List.replicate (ATM_CONFIG_MAXBINDADDR - values.length) none).take values.length = addrs := by
        rw [← count,List.take_left]
      simp only [pure_eq_ok,Except.map,option_seen,Config.settings,Option.getD_some,kept,texts]

theorem option_means (cfg : Config) {name : List Byte} {values : List (List Byte)} (short : ∀ w ∈ name :: values, Short w) :
    (config_option cfg (argv (name :: values))).map option_seen = .ok (setting cfg.settings (name :: values)) := by
  obtain ⟨first,others⟩ := List.forall_mem_cons.mp short
  have few := first.2
  have below : name.length < 2^31 := by omega
  have small : hdrlen + ((name.map lower).length + (List.replicate (8 - (9 + name.length) % 8) (0 : Byte)).length) + 1 < 2^32 := by
    simp only [hdrlen,List.length_map,List.length_replicate]
    omega
  have eqs : ∀ known : List Byte, 0 ∉ known → known.length < 2^29 →
      atm_str_eqs (some (made (name.map lower) (List.replicate (8 - (9 + name.length) % 8) 0))) known =
        .ok (decide (name.map lower = known)) := fun known clean few => name_eqs first clean few _ small
  rw [config_option,argv_size,ok_bind,argv_prop (show (name :: values)[0]? = some name from rfl),ok_bind,atm_str_tolower,fresh,
    map_case_made lower _ below,ok_bind]
  simp only [eqs (chars "pidfile") (by decide) (by decide),eqs (chars "daemonize") (by decide) (by decide),ok_bind,
    eqs (chars "bind") (by decide) (by decide),eqs (chars "port") (by decide) (by decide),
    eqs (chars "tcpbacklog") (by decide) (by decide),eqs (chars "timeout") (by decide) (by decide),
    eqs (chars "tcpkeepalive") (by decide) (by decide),eqs (chars "maxclients") (by decide) (by decide),
    eqs (chars "loglevel") (by decide) (by decide),eqs (chars "logfile") (by decide) (by decide),
    eqs (chars "maxmemory") (by decide) (by decide),eqs (chars "workernum") (by decide) (by decide),
    Bool.and_eq_true,decide_eq_true_eq]
  by_cases binds : name.map lower = chars "bind"
  · rw [setting,if_pos binds,binds]
    simp +decide only [List.length_cons,↓reduceIte,false_and]
    exact bind_means cfg others
  · by_cases one : ∃ key : Key, ∃ v, values = [v] ∧ name.map lower = key.name
    · obtain ⟨key,v,rfl,is⟩ := one
      have word : Short v := others v List.mem_cons_self
      have text : seen (fresh v) = v := str_text_made _ _
      have does : setting cfg.settings [name,v] = key.set cfg.settings v := by
        simp only [setting,if_neg binds,find_key is,one_value]
      have second : prop (argv [name,v]) 1 = .ok (some (fresh v)) := argv_prop rfl
      rw [does,is]
      cases key with
      | pidfile =>
        simp +decide only [List.length_cons,List.length_nil,↓reduceIte]
        rw [second,ok_bind,dup_ok word.new.2,ok_bind]
        simp only [pure_eq_ok,Except.map,option_seen,Config.settings,Option.map_some,text,Key.set]
      | daemonize =>
        simp +decide only [List.length_cons,List.length_nil,↓reduceIte]
        rw [second,ok_bind,fresh_c_text word,ok_bind]
        simp only [pure_eq_ok,Except.map,option_seen,Config.settings,Key.set,checked,decide_eq_true_eq]
      | port =>
        simp +decide only [List.length_cons,List.length_nil,↓reduceIte]
        exact int_option_means word _ _ _
      | tcpbacklog =>
        simp +decide only [List.length_cons,List.length_nil,↓reduceIte]
        exact int_option_means word _ _ _
      | timeout =>
        simp +decide only [List.length_cons,List.length_nil,↓reduceIte]
        exact int_option_means word _ _ _
      | tcpkeepalive =>
        simp +decide only [List.length_cons,List.length_nil,↓reduceIte]
        exact int_option_means word _ _ _
      | maxclients =>
        simp +decide only [List.length_cons,List.length_nil,↓reduceIte]
        exact int_option_means word _ _ _
      | loglevel =>
        simp +decide only [List.length_cons,List.length_nil,↓reduceIte]
        rw [second,ok_bind,fresh_c_text word,ok_bind,parse_level_eq word,ok_bind]
        rfl
      | logfile =>
        simp +decide only [List.length_cons,List.length_nil,↓reduceIte]
        rw [second,ok_bind,dup_ok word.new.2,ok_bind]
        simp only [pure_eq_ok,Except.map,option_seen,Config.settings,Option.map_some,text,Key.set]
      | maxmemory =>
        simp +decide only [List.length_cons,List.length_nil,↓reduceIte]
        rw [second,ok_bind,fresh_c_text word,ok_bind]
        rfl
      | workernum =>
        simp +decide only [List.length_cons,List.length_nil,↓reduceIte]
        exact int_option_means word _ _ _
    · have unnamed : ∀ key : Key, ¬(name.map lower = key.name ∧ (name :: values).length = 2) := by
        rintro key ⟨is,two⟩
        obtain ⟨v,alone⟩ := List.length_eq_one_iff.mp (Nat.succ.inj two)
        exact one ⟨key,v,alone,is⟩
      have apart : ∀ key : Key, ∀ known, known = key.name → ¬(name.map lower = known ∧ (name :: values).length = 2) := by
        rintro key _ rfl
        exact unnamed key
      rw [setting_none binds (fun key v alone is => one ⟨key,v,alone,is⟩),if_neg (apart .pidfile (chars "pidfile") rfl),
        if_neg (apart .daemonize (chars "daemonize") rfl),if_neg binds,if_neg (apart .port (chars "port") rfl),
        if_neg (apart .tcpbacklog (chars "tcpbacklog") rfl),if_neg (apart .timeout (chars "timeout") rfl),
        if_neg (apart .tcpkeepalive (chars "tcpkeepalive") rfl),if_neg (apart .maxclients (chars "maxclients") rfl),
        if_neg (apart .loglevel (chars "loglevel") rfl),if_neg (apart .logfile (chars "logfile") rfl),
        if_neg (apart .maxmemory (chars "maxmemory") rfl),if_neg (apart .workernum (chars "workernum") rfl)]
      rfl

/-! ### Lines -/

/-- The result of a line that is seen. -/
def line_seen (r : Config × Str × Option String) : Settings × List Byte × Option String := (r.1.settings,seen r.2.1,r.2.2)

theorem line_means (cfg : Config) {line : List Byte} (short : Short line) :
    (config_line cfg (fresh line)).map line_seen =
      .ok ((line_setting cfg.settings line).1,stripped line,(line_setting cfg.settings line).2) := by
  obtain ⟨rest,trimmed_line⟩ : ∃ rest, atm_str_trim (some (fresh line)) (chars " \t\r\n") = .ok (some (made (stripped line) rest)) :=
    ⟨_,trim_eq short.new.2 _⟩
  have sub : (stripped line).Sublist line := trim_sublist _ _
  have text : seen (made (stripped line) rest) = stripped line := str_text_made _ _
  rw [config_line,trimmed_line,ok_bind,line_setting]
  dsimp only
  cases shape : stripped line with
  | nil =>
    rw [shape] at text
    rw [if_neg (by simp)]
    simp only [made,List.nil_append,List.getElem?_cons_zero,or_true,↓reduceIte,pure_eq_ok,Except.map]
    exact congrArg (fun t => Except.ok (cfg.settings,t,none)) text
  | cons c more =>
    have inside : c ∈ line := sub.subset (by rw [shape]; exact List.mem_cons_self)
    have nonzero : c ≠ 0 := by
      rintro rfl
      exact short.1 inside
    have first : (made (c :: more) rest).val[0]? = some c := rfl
    rw [first]
    dsimp only
    by_cases comment : c = 35
    · rw [if_pos (.inl comment),List.head?_cons,if_pos (by rw [comment]),← shape]
      exact congrArg (fun t => Except.ok (cfg.settings,t,none)) text
    · rw [if_neg (not_or.mpr ⟨comment,nonzero⟩),List.head?_cons,if_neg (fun same => comment (Option.some.inj same)),← shape]
      have few : (stripped line).length < 2^29 := sub.length_le.trans_lt short.2
      have clean : 0 ∉ stripped line := fun zero => short.1 (sub.subset zero)
      have cut : atm_str_split (made (stripped line) rest).val 32 (made (stripped line) rest).len =
          .ok (answer (tokens is_quote 32 (stripped line))) := by
        have inside : (stripped line).length ≤ (made (stripped line) rest).val.length := by simp [made]
        have words := split_short inside few (show ¬ is_quote 32 = true by decide) (by decide)
        rwa [show (made (stripped line) rest).val.take (stripped line).length = stripped line from List.take_left,
          line_tokens_clean clean] at words
      obtain ⟨name,values,words⟩ : ∃ name values, tokens is_quote 32 (stripped line) = name :: values := by
        apply List.exists_cons_of_ne_nil
        intro empty
        have whole : (tokens is_quote 32 (stripped line)).flatten = [] ++ strip is_quote 32 [] (stripped line) := scan_flatten [] [] _
        have blank : ¬(([] : List Byte) = [] ∧ c = 32) := by
          rintro ⟨_,rfl⟩
          have kept : strchr (chars " \t\r\n") 32 = false := trim_starts (l := line) (by rw [← stripped,shape]; rfl)
          exact absurd kept (by decide)
        rw [empty,shape,strip,if_neg blank] at whole
        cases whole
      have each : ∀ w ∈ name :: values, Short w := by
        intro w member
        rw [← words] at member
        have part := (token_sublist member).trans sub
        exact ⟨fun zero => short.1 (part.subset zero),part.length_le.trans_lt short.2⟩
      have means := option_means cfg each
      rw [cut,ok_bind,words,answer,if_neg (List.cons_ne_nil _ _)]
      cases result : config_option cfg (argv (name :: values)) with
      | error e =>
        rw [result] at means
        cases means
      | ok r =>
        rw [result] at means
        rw [show (some ((name :: values).map (fun t => some (fresh t)) ++ [none])) = argv (name :: values) from rfl,result,ok_bind,
          ← Except.ok.inj means]
        exact congrArg (fun t => Except.ok (r.1.settings,t,r.2)) text

/-- The result of a file that is seen. -/
def file_seen (r : Config × Ending) : Settings × Option (Nat × List Byte × String) := (r.1.settings,r.2.seen)

theorem lines_mean {lines : List (List Byte)} (short : ∀ line ∈ lines, Short line) : ∀ (cfg : Config) (n : Nat),
    (config_lines cfg n (lines.map (fun t => some (fresh t)) ++ [none])).map file_seen = .ok (file_settings cfg.settings n lines) := by
  induction lines with
  | nil => exact fun cfg n => rfl
  | cons line lines ih =>
    intro cfg n
    obtain ⟨first,later⟩ := List.forall_mem_cons.mp short
    have means := line_means cfg first
    rw [List.map_cons,List.cons_append,config_lines,file_settings]
    cases result : config_line cfg (fresh line) with
    | error e =>
      rw [result] at means
      cases means
    | ok r =>
      obtain ⟨cfg',l,errmsg⟩ := r
      rw [result] at means
      obtain ⟨settings,rest⟩ := Prod.mk.inj (Except.ok.inj means)
      obtain ⟨text,message⟩ := Prod.mk.inj rest
      rw [ok_bind,← Prod.eta (line_setting cfg.settings line),← settings,← message]
      cases errmsg with
      | none => exact ih later cfg' (n+1)
      | some errmsg =>
        simp only [pure_eq_ok,Except.map,file_seen,Ending.seen,text]

/-- Every text without NUL is read to what it means, without a fault. -/
theorem process_means (cfg : Config) {conf : Str} {text : List Byte} (contains : Contains conf text) (short : conf.len < 2^29) :
    ∃ cfg' ending, atm_config_process cfg conf = .ok (cfg',ending) ∧
      (cfg'.settings,ending.seen) = file_settings cfg.settings 0 (tokens is_quote 10 text) := by
  obtain ⟨clean,taken,length,inside⟩ := contains_text contains
  have cut := split_short inside short (show ¬ is_quote 10 = true by decide) (by decide)
  rw [taken,line_tokens_clean clean] at cut
  have each : ∀ line ∈ tokens is_quote 10 text, Short line := by
    intro line member
    have part := token_sublist member
    exact ⟨fun zero => clean (part.subset zero),part.length_le.trans_lt (length ▸ short)⟩
  rw [atm_config_process,cut,ok_bind]
  by_cases empty : tokens is_quote 10 text = []
  · rw [empty]
    exact ⟨cfg,.success,rfl,rfl⟩
  · have means := lines_mean each cfg 0
    rw [answer,if_neg empty]
    dsimp only
    cases result : config_lines cfg 0 ((tokens is_quote 10 text).map (fun t => some (fresh t)) ++ [none]) with
    | error e =>
      rw [result] at means
      cases means
    | ok r =>
      rw [result] at means
      exact ⟨r.1,r.2,rfl,Except.ok.inj means⟩

theorem process_means_port : ∃ cfg' ending, atm_config_process no_config (fresh (chars "Port 80\n#x\nbind a ' b'\n")) = .ok (cfg',ending) ∧
    (cfg'.settings,ending.seen) = ({ no_config.settings with port := 80, bindaddr := [chars "a",chars "' b'"] },none) := by
  have contains : Contains (fresh (chars "Port 80\n#x\nbind a ' b'\n")) (chars "Port 80\n#x\nbind a ' b'\n") :=
    contains_fresh (by decide) (by decide)
  have means := process_means no_config contains (by decide)
  rwa [show file_settings no_config.settings 0 (tokens is_quote 10 (chars "Port 80\n#x\nbind a ' b'\n")) =
      ({ no_config.settings with port := 80, bindaddr := [chars "a",chars "' b'"] },none) by decide +kernel] at means

end AtmCache.Configuration
