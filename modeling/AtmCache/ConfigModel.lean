import AtmCache.StrModel

/-!
# The configuration file

`atm_config_process` with what it calls to read the value of an option. The text is cut
into lines by `atm_str_split`, so that a newline inside quotes ends no line; each line
is trimmed, and tested for a comment only then. A fatal error ends the program; the
configuration at that point is returned with it. Memory that is not used again is not
followed, and neither are the options of the command line and the reading of the file.
-/
namespace AtmCache.Configuration
open Runs Strings

def chars (s : String) : List Byte := s.toList.map (fun c => UInt8.ofNat c.toNat)

def ATM_CONFIG_MAXBINDADDR : Nat := 16

/-- `atm_config_t`; `bindaddr` is an array of `ATM_CONFIG_MAXBINDADDR` pointers. -/
structure Config where
  configfile : Option Str
  pidfile : Option Str
  daemonize : Int
  bindaddr : Option (List (Option Str))
  bindaddr_count : Nat
  port : Int
  tcpbacklog : Int
  maxidletime : Int
  tcpkeepalive : Int
  maxclients : Int
  loglevel : Int
  logfile : Option Str
  maxmemory : Nat
  workernum : Int
  deriving DecidableEq, Repr

/-- The configuration after `atm_alloc`. -/
def no_config : Config := ⟨none,none,0,none,0,0,0,0,0,0,0,none,0,0⟩

/-- How the reading ends: it returns, or it leaves the program with a message that names
    the number of the line, the line and what is wrong with it. -/
inductive Ending where
  | success
  | fatal (line_num : Nat) (line : Str) (errmsg : String)
  deriving DecidableEq, Repr

/-! ### Numbers and words -/

def isspace (c : Byte) : Bool := c = 32 || (9 ≤ c && c ≤ 13)
def isdigit (c : Byte) : Bool := 48 ≤ c && c ≤ 57

/-- The text of a string, as a function that takes a `char *` reads it. -/
def c_text : Option Str → Except Fault (List Byte)
  | none => .error .nullDeref
  | some s => do return s.val.take (← strlen s.val)

/-- `strtol` and `strtoll` in base 10: the number, within 64 bits, and the text at `endptr`. -/
def strtoll (s : List Byte) : Int × List Byte :=
  let t := s.dropWhile isspace
  let u := if t.head? = some 45 ∨ t.head? = some 43 then t.drop 1 else t
  let digits := u.takeWhile isdigit
  let n : Int := digits.foldl (fun n c => n * 10 + (c.toNat - 48)) 0
  if digits = [] then (0,s)
  else (max (-2^63) (min (if t.head? = some 45 then -n else n) (2^63 - 1)),u.dropWhile isdigit)

/-- The `long` is converted to an `int`. -/
def atoi (s : List Byte) : Int := Int.bmod (strtoll s).1 (2^32)

/-- `!strcasecmp(s, t)` -/
def caseless (s t : List Byte) : Bool := s.map lower = t.map lower

def atm_config_yesnotoi (s : List Byte) : Int :=
  if caseless s (chars "yes") then 1 else if caseless s (chars "no") then 0 else -1

def ATM_LOG_FATAL : Int := 6
def ATM_LOG_LV_ENUM : List (List Byte) :=
  [chars "OFF",chars "ALL",chars "DEBUG",chars "INFO",chars "WARN",chars "ERROR",chars "FATAL"]

def atm_log_parse_level (lv : List Byte) : Except Fault Int := do
  match ← atm_str_toupper (← atm_str_new (some lv)) with
  | none => return -1
  | some slv =>
    let name ← c_text (some slv)
    return match ATM_LOG_LV_ENUM.findIdx? (fun level => strcmp name level = 0) with
      | some i => (i : Int)
      | none => -1

/-- The factor that a unit after the digits stands for. -/
def unit_factor (u : List Byte) : Option Int :=
  if u = [] ∨ caseless u (chars "b") then some 1
  else if caseless u (chars "k") then some 1000
  else if caseless u (chars "kb") then some 1024
  else if caseless u (chars "m") then some (1000*1000)
  else if caseless u (chars "mb") then some (1024*1024)
  else if caseless u (chars "g") then some (1000*1000*1000)
  else if caseless u (chars "gb") then some (1024*1024*1024)
  else none

/-- The result and the value that is stored in `*err`; the configuration passes NULL and takes the result. The C standard
    has `strtoll` set `errno` for numbers that do not fit only, and never to `EINVAL`. The product is taken modulo `2^64`. -/
def atm_util_memtoll (p : List Byte) : Int × Int :=
  let u := if p.head? = some 45 then p.drop 1 else p
  let u := u.dropWhile isdigit
  match unit_factor u with
  | none => (0,1)
  | some mul =>
    let digits := u32 (p.length - u.length)
    if 128 ≤ digits then (0,1)
    else
      let buf := p.take digits
      if (strtoll buf).2 ≠ [] then (0,1)
      else (Int.bmod ((strtoll buf).1 * mul) (2^64),0)

/-! ### One option -/

/-- Reading `props[i]`. -/
def prop (props : Option (List (Option Str))) (i : Nat) : Except Fault (Option Str) :=
  match props with
  | none => .error .nullDeref
  | some argv =>
    match argv[i]? with
    | some s => .ok s
    | none => .error .outOfBounds

/-- An option with a number as its value, which is stored before it is checked. -/
def int_option (props : Option (List (Option Str))) (put : Int → Config) (invalid : Int → Bool) (errmsg : String) :
    Except Fault (Config × Option String) := do
  let n := atoi (← c_text (← prop props 1))
  return (put n,if invalid n then some errmsg else none)

/-- The loop over the addresses of `bind`. -/
def bind_addresses (props : Option (List (Option Str))) (addresses : Nat) : Except Fault (List (Option Str)) :=
  (List.range addresses).mapM (fun j => do
    let baddr ← atm_str_dup (← prop props (j+1))
    atm_str_trim baddr (chars " \t\r\n\""))

/-- What the option of one line does: the configuration after it, and the error message if it is fatal. -/
def config_option (cfg : Config) (props : Option (List (Option Str))) : Except Fault (Config × Option String) := do
  let psize ← atm_str_split_size props
  let pname ← atm_str_tolower (← prop props 0)
  if (← atm_str_eqs pname (chars "pidfile")) && psize = 2 then
    return ({ cfg with pidfile := ← atm_str_dup (← prop props 1) },none)
  else if (← atm_str_eqs pname (chars "daemonize")) && psize = 2 then
    let n := atm_config_yesnotoi (← c_text (← prop props 1))
    return ({ cfg with daemonize := n },if n = -1 then some "arguments must yes or no" else none)
  else if ← atm_str_eqs pname (chars "bind") then
    if ATM_CONFIG_MAXBINDADDR < psize - 1 then return (cfg,some "Too many bind addresses specified")
    else if 0 < psize - 1 then
      let addrs ← bind_addresses props (psize - 1)
      return ({ cfg with
        bindaddr := some (addrs ++ List.replicate (ATM_CONFIG_MAXBINDADDR - (psize - 1)) none)
        bindaddr_count := psize - 1 },none)
    else return (cfg,some "Invalid bind param")
  else if (← atm_str_eqs pname (chars "port")) && psize = 2 then
    int_option props (fun n => { cfg with port := n }) (fun n => n < 0 || 65535 < n) "Invalid port"
  else if (← atm_str_eqs pname (chars "tcpbacklog")) && psize = 2 then
    int_option props (fun n => { cfg with tcpbacklog := n }) (fun n => n < 0) "Invalid tcpbacklog value"
  else if (← atm_str_eqs pname (chars "timeout")) && psize = 2 then
    int_option props (fun n => { cfg with maxidletime := n }) (fun n => n < 0) "Invalid timeout value"
  else if (← atm_str_eqs pname (chars "tcpkeepalive")) && psize = 2 then
    int_option props (fun n => { cfg with tcpkeepalive := n }) (fun n => n < 0) "Invalid tcp-keepalive value"
  else if (← atm_str_eqs pname (chars "maxclients")) && psize = 2 then
    int_option props (fun n => { cfg with maxclients := n }) (fun n => n < 1) "Invalid max clients limit"
  else if (← atm_str_eqs pname (chars "loglevel")) && psize = 2 then
    let n ← atm_log_parse_level (← c_text (← prop props 1))
    return ({ cfg with loglevel := n },if n < 0 || ATM_LOG_FATAL < n then
      some "Invalid log level, accepted options are: off all debug info warn error fatal" else none)
  else if (← atm_str_eqs pname (chars "logfile")) && psize = 2 then
    return ({ cfg with logfile := ← atm_str_dup (← prop props 1) },none)
  else if (← atm_str_eqs pname (chars "maxmemory")) && psize = 2 then
    let n := (atm_util_memtoll (← c_text (← prop props 1))).1
    return ({ cfg with maxmemory := (n % 2^64).toNat },none)
  else if (← atm_str_eqs pname (chars "workernum")) && psize = 2 then
    int_option props (fun n => { cfg with workernum := n }) (fun n => n < 1) "Invalid max clients limit"
  else return (cfg,none)

/-! ### The lines -/

/-- One line: the configuration after it, the line as it was trimmed, and the error message if any. -/
def config_line (cfg : Config) (ls : Str) : Except Fault (Config × Str × Option String) := do
  match ← atm_str_trim (some ls) (chars " \t\r\n") with
  | none => throw .nullDeref
  | some l =>
    match l.val[0]? with
    | none => throw .outOfBounds
    | some c =>
      if c = 35 ∨ c = 0 then return (cfg,l,none)
      else
        let (cfg,errmsg) ← config_option cfg (← atm_str_split l.val 32 l.len)
        return (cfg,l,errmsg)

/-- The loop over the lines, from line `line_num` on. -/
def config_lines (cfg : Config) (line_num : Nat) : List (Option Str) → Except Fault (Config × Ending)
  | [] => .error .outOfBounds
  | none :: _ => .ok (cfg,.success)
  | some ls :: rest => do
    match ← config_line cfg ls with
    | (cfg,_,none) => config_lines cfg (line_num+1) rest
    | (cfg,l,some errmsg) => return (cfg,.fatal line_num l errmsg)

def atm_config_process (cfg : Config) (conf_str : Str) : Except Fault (Config × Ending) := do
  match ← atm_str_split conf_str.val 10 conf_str.len with
  | none => return (cfg,.success)
  | some lines => config_lines cfg 0 lines

end AtmCache.Configuration
