import AtmCache.ConfigRead
import AtmCache.MemSize

/-!
# Writing a configuration file

A file written from directives: the option's name and its values with a blank between them, numbers in
base 10, memory with a unit, and comments. Reading it gives every directive its effect, in the order of the
lines, whatever the configuration was before (`directives_read`).
-/
namespace AtmCache.Configuration
open Quotes Runs Strings Trims

/-! ### What is written -/

/-- The units of `maxmemory`. -/
inductive Scale where
  | one
  | k
  | kb
  | m
  | mb
  | g
  | gb
  deriving DecidableEq, Repr

def Scale.name : Scale → List Byte
  | .one => []
  | .k => chars "k"
  | .kb => chars "kb"
  | .m => chars "m"
  | .mb => chars "mb"
  | .g => chars "g"
  | .gb => chars "gb"

def Scale.factor : Scale → Nat
  | .one => 1
  | .k => 1000
  | .kb => 1024
  | .m => 1000*1000
  | .mb => 1024*1024
  | .g => 1000*1000*1000
  | .gb => 1024*1024*1024

/-- A line of a file. -/
inductive Directive where
  | pidfile (path : List Byte)
  | daemonize (yes : Bool)
  | bind (addrs : List (List Byte))
  | port (n : Nat)
  | tcpbacklog (n : Nat)
  | timeout (n : Nat)
  | tcpkeepalive (n : Nat)
  | maxclients (n : Nat)
  | loglevel (l : Nat)
  | logfile (path : List Byte)
  | maxmemory (n : Nat) (scale : Scale)
  | workernum (n : Nat)
  | comment (text : List Byte)
  deriving DecidableEq, Repr

/-- A number in base 10. -/
def digits (n : Nat) : List Byte := (Nat.toDigits 10 n).map (fun c => UInt8.ofNat c.toNat)

/-- The name of the option and its values. -/
def Directive.words : Directive → List (List Byte)
  | .pidfile path => [chars "pidfile",path]
  | .daemonize yes => [chars "daemonize",if yes then chars "yes" else chars "no"]
  | .bind addrs => chars "bind" :: addrs
  | .port n => [chars "port",digits n]
  | .tcpbacklog n => [chars "tcpbacklog",digits n]
  | .timeout n => [chars "timeout",digits n]
  | .tcpkeepalive n => [chars "tcpkeepalive",digits n]
  | .maxclients n => [chars "maxclients",digits n]
  | .loglevel l => [chars "loglevel",ATM_LOG_LV_ENUM.getD l []]
  | .logfile path => [chars "logfile",path]
  | .maxmemory n scale => [chars "maxmemory",digits n ++ scale.name]
  | .workernum n => [chars "workernum",digits n]
  | .comment _ => []

def Directive.line : Directive → List Byte
  | .comment text => 35 :: text
  | d => join 32 d.words

def file (ds : List Directive) : List Byte := (ds.map Directive.line).flatMap (· ++ [10])

/-- A word of a line: its quotes are closed, and a blank in it is between quotes. -/
def Word (t : List Byte) : Prop :=
  t ≠ [] ∧ (∀ c ∈ t, c ≠ 0 ∧ c ≠ 9 ∧ c ≠ 10 ∧ c ≠ 13) ∧ Solid is_quote 32 [] t ∧ after is_quote [] t = []

/-- The values that their option takes, and comments that end with their line. -/
def Directive.Valid : Directive → Prop
  | .pidfile path => Word path
  | .daemonize _ => True
  | .bind addrs => addrs ≠ [] ∧ addrs.length ≤ ATM_CONFIG_MAXBINDADDR ∧
      ∀ addr ∈ addrs, Word addr ∧ trim (strchr (chars " \t\r\n\"")) addr = addr
  | .port n => n ≤ 65535
  | .tcpbacklog n => n < 2^31
  | .timeout n => n < 2^31
  | .tcpkeepalive n => n < 2^31
  | .maxclients n => 1 ≤ n ∧ n < 2^31
  | .loglevel l => l ≤ 6
  | .logfile path => Word path
  | .maxmemory n scale => n * scale.factor < 2^63
  | .workernum n => 1 ≤ n ∧ n < 2^31
  | .comment text => 0 ∉ text ∧ 10 ∉ text ∧ after is_quote [] text = []

/-- The effect of a directive. -/
def Directive.apply (s : Settings) : Directive → Settings
  | .pidfile path => { s with pidfile := some path }
  | .daemonize yes => { s with daemonize := if yes then 1 else 0 }
  | .bind addrs => { s with bindaddr := addrs }
  | .port n => { s with port := n }
  | .tcpbacklog n => { s with tcpbacklog := n }
  | .timeout n => { s with maxidletime := n }
  | .tcpkeepalive n => { s with tcpkeepalive := n }
  | .maxclients n => { s with maxclients := n }
  | .loglevel l => { s with loglevel := l }
  | .logfile path => { s with logfile := some path }
  | .maxmemory n scale => { s with maxmemory := n * scale.factor }
  | .workernum n => { s with workernum := n }
  | .comment _ => s

/-! ### Numbers -/

theorem digit_byte {c : Char} (digit : c.isDigit = true) : (UInt8.ofNat c.toNat).toNat = c.toNat ∧ isdigit (UInt8.ofNat c.toNat) = true := by
  obtain ⟨least,most⟩ : 48 ≤ c.toNat ∧ c.toNat ≤ 57 := Char.isDigit_iff_toNat.mp digit
  have same : (UInt8.ofNat c.toNat).toNat = c.toNat := by
    rw [UInt8.toNat_ofNat']
    omega
  refine ⟨same,?_⟩
  simp only [isdigit,Bool.and_eq_true,decide_eq_true_eq,UInt8.le_iff_toNat_le,same]
  exact ⟨least,most⟩

theorem digits_digit {n : Nat} : ∀ c ∈ digits n, isdigit c = true := by
  intro c member
  obtain ⟨d,inside,rfl⟩ := List.mem_map.mp member
  exact (digit_byte (Nat.isDigit_of_mem_toDigits (by decide) (by decide) inside)).2

theorem digits_some (n : Nat) : digits n ≠ [] := by
  rw [digits,Ne,List.map_eq_nil_iff]
  exact Nat.toDigits_ne_nil

theorem decimal_digits (n : Nat) : MemSize.decimal (digits n) = n := by
  have bytes : (digits n).map (fun c => c.toNat - 48) = (Nat.toDigits 10 n).map (fun c => c.toNat - 48) := by
    rw [digits,List.map_map]
    refine List.map_congr_left (fun c inside => ?_)
    have same := (digit_byte (Nat.isDigit_of_mem_toDigits (by decide) (by decide) inside)).1
    rw [Function.comp,same]
  rw [MemSize.decimal,bytes,Numerals.number_toDigits]

theorem strtoll_number {n : Nat} (fits : n < 2^63) : strtoll (digits n) = ((n : Int),[]) := by
  have read : strtoll (MemSize.sign false ++ digits n) = _ := MemSize.strtoll_digits false (digits_some n) digits_digit
  rw [decimal_digits] at read
  have value : MemSize.clamp (MemSize.signed false n) = n := MemSize.clamp_of_fits ⟨by simp [MemSize.signed],by simp [MemSize.signed]; omega⟩
  rwa [value] at read

theorem atoi_number {n : Nat} (fits : n < 2^31) : atoi (digits n) = n := by
  rw [atoi,strtoll_number (by omega),Int.bmod_eq_of_le]
  · omega
  · omega

theorem scale_factor (scale : Scale) : unit_factor scale.name = some (scale.factor : Int) := by
  cases scale <;> decide +kernel

theorem scale_next (scale : Scale) : ∀ c ∈ scale.name.head?, isdigit c = false := by
  cases scale <;> decide +kernel

theorem digits_length {n : Nat} (fits : n < 2^63) : (digits n).length ≤ 19 := by
  rw [digits,List.length_map,Nat.length_toDigits_le_iff (by decide) (by decide)]
  omega

theorem memtoll_number {n : Nat} {scale : Scale} (fits : n * scale.factor < 2^63) :
    atm_util_memtoll (digits n ++ scale.name) = (((n * scale.factor : Nat) : Int),0) := by
  have positive : 0 < scale.factor := by cases scale <;> decide
  have small : n < 2^63 := (Nat.le_mul_of_pos_right n positive).trans_lt fits
  obtain ⟨c,rest,shape⟩ := List.exists_cons_of_ne_nil (digits_some n)
  have plain : (digits n ++ scale.name).head? ≠ some 45 := by
    rw [shape]
    intro same
    have digit : isdigit c = true := digits_digit c (by rw [shape]; exact List.mem_cons_self)
    rw [show c = 45 from Option.some.inj same] at digit
    exact absurd digit (by decide)
  have unit : (digits n ++ scale.name).dropWhile isdigit = scale.name := by
    rw [List.dropWhile_append_of_pos digits_digit]
    cases back : scale.name with
    | nil => rfl
    | cons c rest =>
      have letter : isdigit c = false := scale_next scale c (by rw [back]; rfl)
      rw [List.dropWhile_cons_of_neg (by rw [letter]; decide)]
  have few := digits_length small
  have counted : u32 ((digits n ++ scale.name).length - scale.name.length) = (digits n).length := by
    rw [List.length_append,Nat.add_sub_cancel,u32_of_lt (by omega)]
  simp only [atm_util_memtoll,if_neg plain,unit,scale_factor,counted,List.take_left,strtoll_number small,ne_eq,
    not_true_eq_false,↓reduceIte]
  rw [if_neg (by omega),Int.bmod_eq_of_le (by omega) (by omega)]
  push_cast
  rfl

/-! ### Words -/

/-- A text without blanks and quotes. -/
theorem plain_word {t : List Byte} (some : t ≠ []) (plain : ∀ c ∈ t, 32 < c.toNat ∧ is_quote c = false) : Word t := by
  have other : ∀ blank : Byte, blank.toNat ≤ 32 → blank ∉ t := by
    intro blank small member
    have large := (plain blank member).1
    omega
  refine ⟨some,?_,solid_of_not_mem (other 32 (by decide)) [],after_plain (fun c member => (plain c member).2) []⟩
  intro c member
  refine ⟨?_,?_,?_,?_⟩ <;> rintro rfl <;> exact other _ (by decide) member

theorem digit_plain {c : Byte} (digit : isdigit c = true) : 32 < c.toNat ∧ is_quote c = false := by
  have range := MemSize.isdigit_range digit
  refine ⟨by omega,?_⟩
  rw [is_quote,Bool.or_eq_false_iff]
  constructor <;> refine decide_eq_false ?_ <;> rintro rfl <;> exact absurd range (by decide)

theorem digits_word (n : Nat) : Word (digits n) := plain_word (digits_some n) (fun c member => digit_plain (digits_digit c member))

theorem memory_word (n : Nat) (scale : Scale) : Word (digits n ++ scale.name) := by
  have unit : ∀ c ∈ scale.name, 32 < c.toNat ∧ is_quote c = false := by cases scale <;> decide +kernel
  refine plain_word (fun empty => digits_some n (List.append_eq_nil_iff.mp empty).1) (fun c member => ?_)
  rcases List.mem_append.mp member with front | back
  · exact digit_plain (digits_digit c front)
  · exact unit c back

theorem words_valid {d : Directive} (valid : d.Valid) : ∀ w ∈ d.words, Word w := by
  have name : ∀ t : List Byte, t ≠ [] ∧ (∀ c ∈ t, 32 < c.toNat ∧ is_quote c = false) → Word t := fun t plain => plain_word plain.1 plain.2
  cases d with
  | pidfile path => exact List.forall_mem_cons.mpr ⟨name _ (by decide +kernel),List.forall_mem_singleton.mpr valid⟩
  | daemonize yes =>
    refine List.forall_mem_cons.mpr ⟨name _ (by decide +kernel),List.forall_mem_singleton.mpr ?_⟩
    cases yes <;> exact name _ (by decide +kernel)
  | bind addrs => exact List.forall_mem_cons.mpr ⟨name _ (by decide +kernel),fun addr member => (valid.2.2 addr member).1⟩
  | port n => exact List.forall_mem_cons.mpr ⟨name _ (by decide +kernel),List.forall_mem_singleton.mpr (digits_word n)⟩
  | tcpbacklog n => exact List.forall_mem_cons.mpr ⟨name _ (by decide +kernel),List.forall_mem_singleton.mpr (digits_word n)⟩
  | timeout n => exact List.forall_mem_cons.mpr ⟨name _ (by decide +kernel),List.forall_mem_singleton.mpr (digits_word n)⟩
  | tcpkeepalive n => exact List.forall_mem_cons.mpr ⟨name _ (by decide +kernel),List.forall_mem_singleton.mpr (digits_word n)⟩
  | maxclients n => exact List.forall_mem_cons.mpr ⟨name _ (by decide +kernel),List.forall_mem_singleton.mpr (digits_word n)⟩
  | loglevel l =>
    have known : l < 7 := Nat.lt_succ_of_le valid
    refine List.forall_mem_cons.mpr ⟨name _ (by decide +kernel),List.forall_mem_singleton.mpr (name _ ?_)⟩
    interval_cases l <;> decide +kernel
  | logfile path => exact List.forall_mem_cons.mpr ⟨name _ (by decide +kernel),List.forall_mem_singleton.mpr valid⟩
  | maxmemory n scale => exact List.forall_mem_cons.mpr ⟨name _ (by decide +kernel),List.forall_mem_singleton.mpr (memory_word n scale)⟩
  | workernum n => exact List.forall_mem_cons.mpr ⟨name _ (by decide +kernel),List.forall_mem_singleton.mpr (digits_word n)⟩
  | comment text => exact List.forall_mem_nil _

/-! ### Lines -/

theorem blank_iff {c : Byte} (other : c ≠ 0 ∧ c ≠ 9 ∧ c ≠ 10 ∧ c ≠ 13) (solid : c ≠ 32) : strchr (chars " \t\r\n") c = false := by
  obtain ⟨zero,tab,newline,ret⟩ := other
  simp [strchr,chars,zero,tab,newline,ret,solid]

theorem word_first {w : List Byte} (word : Word w) : ∀ c ∈ w.head?, strchr (chars " \t\r\n") c = false := by
  intro c first
  obtain ⟨rest,rfl⟩ := List.head?_eq_some_iff.mp first
  obtain ⟨_,plain,solid,_⟩ := word
  exact blank_iff (plain c List.mem_cons_self) (fun blank => solid.1 ⟨rfl,blank⟩)

theorem word_last {w : List Byte} (word : Word w) : ∀ c ∈ w.getLast?, strchr (chars " \t\r\n") c = false := by
  intro c last
  obtain ⟨_,plain,solid,shut⟩ := word
  refine blank_iff (plain c (List.mem_of_getLast? last)) ?_
  rintro rfl
  exact solid_last (by decide) solid shut last

theorem stripped_join {words : List (List Byte)} (word : ∀ w ∈ words, Word w) : stripped (join 32 words) = join 32 words := by
  refine trim_same (fun c first => ?_) (fun c last => ?_)
  · obtain ⟨w,member,first⟩ := join_head (fun w member => (word w member).1) first
    exact word_first (word w member) c first
  · obtain ⟨w,member,last⟩ := join_last (fun w member => (word w member).1) last
    exact word_last (word w member) c last

theorem words_closed {words : List (List Byte)} (word : ∀ w ∈ words, Word w) : Closed is_quote 32 words := by
  induction words with
  | nil => trivial
  | cons w words ih =>
    obtain ⟨⟨some,_,solid,shut⟩,later⟩ := List.forall_mem_cons.mp word
    exact closed_cons some solid shut (ih later)

/-- A written line is one line of the file. -/
theorem line_whole {d : Directive} (valid : d.Valid) :
    (d.line ≠ [] ∧ 10 ∉ d.line ∧ after is_quote [] d.line = []) ∧ 0 ∉ d.line := by
  have joined : d.words ≠ [] → (join 32 d.words ≠ [] ∧ 10 ∉ join 32 d.words ∧ after is_quote [] (join 32 d.words) = []) ∧
      0 ∉ join 32 d.words := by
    intro some
    have word := words_valid valid
    refine ⟨⟨fun empty => ?_,not_mem_join (by decide) (fun w member inside => ((word w member).2.1 10 inside).2.2.1 rfl),
      after_join (by decide) (fun w member => (word w member).2.2.2)⟩,
      not_mem_join (by decide) (fun w member inside => ((word w member).2.1 0 inside).1 rfl)⟩
    have tokens : tokens is_quote 32 (join 32 d.words) = d.words := tokens_join (words_closed word)
    rw [empty] at tokens
    exact some tokens.symm
  cases d with
  | comment text =>
    obtain ⟨zero,newline,shut⟩ := valid
    refine ⟨⟨List.cons_ne_nil _ _,?_,(congrArg (after is_quote · text) (push_plain (by decide) [])).trans shut⟩,?_⟩
    · rw [Directive.line,List.mem_cons,not_or]
      exact ⟨by decide,newline⟩
    · rw [Directive.line,List.mem_cons,not_or]
      exact ⟨by decide,zero⟩
  | _ => exact joined (List.cons_ne_nil _ _)

/-- The line of an option is read as its words. -/
theorem line_words (s : Settings) {name : List Byte} {values : List (List Byte)} (word : ∀ w ∈ name :: values, Word w)
    (option : name.head? ≠ some 35) : line_setting s (join 32 (name :: values)) = setting s (name :: values) := by
  have first : (join 32 (name :: values)).head? ≠ some 35 := by
    obtain ⟨c,rest,rfl⟩ := List.exists_cons_of_ne_nil (word name List.mem_cons_self).1
    cases values with
    | nil => simpa [join] using option
    | cons v values => simpa only [join_cons,List.cons_append,List.head?_cons] using option
  rw [line_setting,stripped_join word,if_neg first,tokens_join (words_closed word)]

/-! ### The effect of a line -/

theorem setting_key (s : Settings) (key : Key) (v : List Byte) : setting s [key.name,v] = key.set s v := by
  have small : key.name.map lower = key.name := by cases key <;> decide +kernel
  have other : key.name ≠ chars "bind" := by cases key <;> decide +kernel
  rw [setting,small,if_neg other,find_key rfl]
  rfl

theorem checked_right {s : Settings} {wrong : Bool} {errmsg : String} (right : wrong = false) : checked s wrong errmsg = (s,none) := by
  rw [checked,right]
  rfl

theorem level_name {l : Nat} (known : l ≤ 6) : level (ATM_LOG_LV_ENUM.getD l []) = l := by
  have least : l < 7 := Nat.lt_succ_of_le known
  interval_cases l <;> decide +kernel

theorem directive_sets (s : Settings) {d : Directive} (valid : d.Valid) (option : d.words ≠ []) :
    setting s d.words = (d.apply s,none) := by
  cases d with
  | pidfile path => exact setting_key s .pidfile path
  | daemonize yes =>
    refine (setting_key s .daemonize _).trans ?_
    cases yes <;> rfl
  | bind addrs =>
    obtain ⟨some,few,same⟩ := valid
    have binds : (chars "bind").map lower = chars "bind" := by decide
    have kept : addrs.map (trim (strchr (chars " \t\r\n\""))) = addrs :=
      (List.map_congr_left (fun addr member => (same addr member).2)).trans (List.map_id _)
    rw [Directive.words,setting,if_pos binds,Configuration.bind,if_neg (by omega),if_neg some,kept]
    rfl
  | port n =>
    have fits : n ≤ 65535 := valid
    refine (setting_key s .port _).trans ?_
    rw [Key.set,atoi_number (by omega),checked_right (by simp; omega)]
    rfl
  | tcpbacklog n =>
    refine (setting_key s .tcpbacklog _).trans ?_
    rw [Key.set,atoi_number valid,checked_right (by simp)]
    rfl
  | timeout n =>
    refine (setting_key s .timeout _).trans ?_
    rw [Key.set,atoi_number valid,checked_right (by simp)]
    rfl
  | tcpkeepalive n =>
    refine (setting_key s .tcpkeepalive _).trans ?_
    rw [Key.set,atoi_number valid,checked_right (by simp)]
    rfl
  | maxclients n =>
    refine (setting_key s .maxclients _).trans ?_
    rw [Key.set,atoi_number valid.2,checked_right (by have := valid.1; simp; omega)]
    rfl
  | loglevel l =>
    have known : l ≤ 6 := valid
    refine (setting_key s .loglevel _).trans ?_
    rw [Key.set,level_name known,checked_right (by simp [ATM_LOG_FATAL]; omega)]
    rfl
  | logfile path => exact setting_key s .logfile path
  | maxmemory n scale =>
    have fits : n * scale.factor < 2^63 := valid
    refine (setting_key s .maxmemory _).trans ?_
    rw [Key.set,memtoll_number fits,Int.emod_eq_of_lt (by omega) (by omega)]
    rfl
  | workernum n =>
    refine (setting_key s .workernum _).trans ?_
    rw [Key.set,atoi_number valid.2,checked_right (by have := valid.1; simp; omega)]
    rfl
  | comment text => exact absurd rfl option

/-- A written line has its effect. -/
theorem line_applies (s : Settings) {d : Directive} (valid : d.Valid) : line_setting s d.line = (d.apply s,none) := by
  have joined : ∀ name values, d.words = name :: values → name.head? ≠ some 35 → line_setting s (join 32 d.words) = (d.apply s,none) := by
    intro name values words option
    rw [← directive_sets s valid (by rw [words]; exact List.cons_ne_nil _ _)]
    have word := words_valid valid
    rw [words] at word ⊢
    exact line_words s word option
  cases d with
  | comment text =>
    have hash : strchr (chars " \t\r\n") 35 = false := by decide
    obtain ⟨rest,shape⟩ := rdropWhile_head text hash
    have first : stripped (35 :: text) = 35 :: rest := by
      rw [stripped,trim,List.dropWhile_cons_of_neg (by decide),shape]
    rw [Directive.line,line_setting,first]
    rfl
  | _ => exact joined _ _ rfl (by decide)

theorem file_applies {ds : List Directive} (valid : ∀ d ∈ ds, d.Valid) : ∀ (s : Settings) (n : Nat),
    file_settings s n (ds.map Directive.line) = (ds.foldl Directive.apply s,none) := by
  induction ds with
  | nil => exact fun s n => rfl
  | cons d ds ih =>
    intro s n
    obtain ⟨first,later⟩ := List.forall_mem_cons.mp valid
    rw [List.map_cons,file_settings,line_applies s first]
    exact ih later (d.apply s) (n+1)

/-- Reading a written file gives every directive its effect, in the order of the lines. -/
theorem directives_read (cfg : Config) {conf : Str} {ds : List Directive} (valid : ∀ d ∈ ds, d.Valid) (contains : Contains conf (file ds))
    (short : conf.len < 2^29) :
    ∃ cfg', atm_config_process cfg conf = .ok (cfg',.success) ∧ cfg'.settings = ds.foldl Directive.apply cfg.settings := by
  have lines : tokens is_quote 10 (file ds) = ds.map Directive.line := by
    refine tokens_lines (fun line member => ?_)
    obtain ⟨d,inside,rfl⟩ := List.mem_map.mp member
    exact (line_whole (valid d inside)).1
  obtain ⟨cfg',ending,read,means⟩ := process_means cfg contains short
  rw [lines,file_applies valid] at means
  obtain ⟨settings,fatal⟩ := Prod.mk.inj means
  cases ending with
  | success => exact ⟨cfg',read,settings⟩
  | fatal n line errmsg => cases fatal

theorem directives_read_two : ∃ cfg', atm_config_process no_config (fresh (chars "port 8088\nmaxmemory 1gb\n")) = .ok (cfg',.success) ∧
    cfg'.settings = { no_config.settings with port := 8088, maxmemory := 1073741824 } := by
  have valid : ∀ d ∈ [Directive.port 8088,.maxmemory 1 .gb], d.Valid :=
    List.forall_mem_cons.mpr ⟨show 8088 ≤ 65535 by decide,List.forall_mem_singleton.mpr (show 1 * Scale.gb.factor < 2^63 by decide)⟩
  have written : file [.port 8088,.maxmemory 1 .gb] = chars "port 8088\nmaxmemory 1gb\n" := by decide +kernel
  have contains : Contains (fresh (chars "port 8088\nmaxmemory 1gb\n")) (file [.port 8088,.maxmemory 1 .gb]) := by
    rw [written]
    exact contains_fresh (by decide) (by decide)
  exact directives_read no_config valid contains (by decide)

end AtmCache.Configuration
