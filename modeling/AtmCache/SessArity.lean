import AtmCache.DictOwn
import AtmCache.SessLines

/-!
# Arguments of commands

Which arguments a handler reads, and which requests it refuses. The test that both
handlers make lets a command with a negative arity through with any number of words,
so that a `set` with fewer than three reads the NULL at the end of `argv` or beyond it.
-/
namespace AtmCache.Session
open Dict Runs Strings

variable {siphash : List Byte → UInt64} {srv srv' : Server} {c : Conn} {se se' : Sess}

def cmd_get : Cmd := ⟨[103,101,116],.atm_cmd_func_get,2⟩
def cmd_set : Cmd := ⟨[115,101,116],.atm_cmd_func_set,-3⟩

/-! ### The table of commands -/

/-- A name stands for `get` or `set`, or for no command. -/
theorem getcmd_cases (init : atm_cmd_init siphash = .ok srv.cmd_dict) {name : Option Str} {cmd : Cmd}
    (got : atm_cmd_getcmd siphash srv name = .ok (some cmd)) : cmd = cmd_get ∨ cmd = cmd_set := by
  have all : ∀ e ∈ srv.cmd_dict.entries, e.val = cmd_get ∨ e.val = cmd_set := by
    obtain ⟨tallied,empty⟩ := new_tallied (K := Option Str) (V := Cmd) .shallow
    obtain ⟨d₁,first,rest⟩ := bind_eq_ok.mp init
    obtain ⟨name₁,_,first⟩ := bind_eq_ok.mp first
    obtain ⟨d₂,second,rest⟩ := bind_eq_ok.mp rest
    obtain ⟨name₂,_,second⟩ := bind_eq_ok.mp second
    cases rest
    obtain ⟨tallied₁,one⟩ := set_values (P := fun cmd => cmd = cmd_get ∨ cmd = cmd_set) tallied
      (by rw [empty]; exact fun e member => absurd member List.not_mem_nil) (.inl rfl) first
    exact (set_values (P := fun cmd => cmd = cmd_get ∨ cmd = cmd_set) tallied₁ one (.inr rfl) second).2
  obtain ⟨e,member,rfl⟩ := get_value got
  exact all e member

/-! ### What a handler reads -/

/-- The indices of `argv` that a handler reads once the number of arguments fits. -/
def CmdFunc.paras : CmdFunc → List Nat
  | .atm_cmd_func_get => [1]
  | .atm_cmd_func_set => [1,2]

/-- The indices that the handler called for a session reads. -/
def argv_reads (se : Sess) : List Nat :=
  match se.cmd with
  | some cmd => if argc_fits cmd se then cmd.func.paras else []
  | none => []

/-- A request depends on no other argument. -/
theorem call_reads_only (cmd : se.cmd = se'.cmd) (argc : se.argc = se'.argc)
    (same : ∀ i ∈ argv_reads se, argv_at se.argv i = argv_at se'.argv i) :
    call_cmd siphash srv c se = call_cmd siphash srv c se' := by
  have para : ∀ i ∈ argv_reads se, atm_cmd_para se.argv i = atm_cmd_para se'.argv i := by
    intro i member
    unfold atm_cmd_para
    rw [same i member]
  unfold call_cmd
  rw [← cmd]
  cases called : se.cmd with
  | none => rfl
  | some cmd =>
    have fits : argc_fits cmd se = argc_fits cmd se' := by rw [argc_fits,argc_fits,argc]
    by_cases yes : argc_fits cmd se = true
    · simp only [argv_reads,called,yes,↓reduceIte] at para
      cases func : cmd.func with
      | atm_cmd_func_get =>
        rw [func] at para
        simp only [cmd_func,func,atm_cmd_func_get,← fits,para 1 (by simp [CmdFunc.paras])]
      | atm_cmd_func_set =>
        rw [func] at para
        simp only [cmd_func,func,atm_cmd_func_set,← fits,para 1 (by simp [CmdFunc.paras]),para 2 (by simp [CmdFunc.paras])]
    · cases func : cmd.func with
      | atm_cmd_func_get => simp only [cmd_func,func,atm_cmd_func_get,← fits,yes,Bool.false_eq_true,↓reduceIte]
      | atm_cmd_func_set => simp only [cmd_func,func,atm_cmd_func_set,← fits,yes,Bool.false_eq_true,↓reduceIte]

/-- A request reads each of them: it fails where one cannot be read. -/
theorem call_reads_each {i : Nat} (member : i ∈ argv_reads se) (returned : call_cmd siphash srv c se = .ok srv') :
    ∃ s, argv_at se.argv i = .ok s := by
  have read : ∀ {i k}, atm_cmd_para se.argv i = .ok k → ∃ s, argv_at se.argv i = .ok s := by
    intro i k para
    obtain ⟨s,there,_⟩ := bind_eq_ok.mp para
    exact ⟨s,there⟩
  cases called : se.cmd with
  | none => simp [argv_reads,called] at member
  | some cmd =>
    by_cases fits : argc_fits cmd se = true
    · simp only [argv_reads,called,fits,↓reduceIte] at member
      simp only [call_cmd,called,cmd_func] at returned
      cases func : cmd.func with
      | atm_cmd_func_get =>
        simp only [func,atm_cmd_func_get,fits,↓reduceIte] at returned
        obtain ⟨k,first,_⟩ := bind_eq_ok.mp returned
        rw [func] at member
        obtain rfl := List.mem_singleton.mp member
        exact read first
      | atm_cmd_func_set =>
        simp only [func,atm_cmd_func_set,fits,↓reduceIte] at returned
        obtain ⟨k,first,rest⟩ := bind_eq_ok.mp returned
        obtain ⟨v,second,_⟩ := bind_eq_ok.mp rest
        rw [func] at member
        simp only [CmdFunc.paras,List.mem_cons,List.not_mem_nil,or_false] at member
        rcases member with rfl | rfl
        · exact read first
        · exact read second
    · simp [argv_reads,called,fits] at member

/-! ### Arity -/

/-- Exactly `n` words for a positive arity, at least `n` for an arity of `-n`. -/
def Satisfies (arity : Int) (argc : Nat) : Prop := if 0 ≤ arity then (argc : Int) = arity else -arity ≤ argc

/-- The handler reads inside the arguments, and refuses a request with a wrong number of words. -/
structure RespectsArity (siphash : List Byte → UInt64) (srv : Server) (c : Conn) (se : Sess) : Prop where
  inside : ∀ i ∈ argv_reads se, i < se.argc
  refused : ∀ cmd, se.cmd = some cmd → ¬ Satisfies cmd.arity se.argc →
    call_cmd siphash srv c se = atm_sess_reply srv c invalid_argc ∧
      ∀ srv', call_cmd siphash srv c se = .ok srv' → srv'.cache_dict = srv.cache_dict

/-- The line is a `set` of fewer than three words. -/
def ShortSet (siphash : List Byte → UInt64) (srv : Server) (line : Str) : Prop :=
  ∃ argv, atm_str_split line.val 32 line.len = .ok (some argv) ∧
    atm_cmd_getcmd siphash srv argv.head?.join = .ok (some cmd_set) ∧ (argv.takeWhile Option.isSome).length < 3

theorem satisfies_get (argc : Nat) : Satisfies cmd_get.arity argc ↔ argc = 2 := by
  show ((argc : Int) = 2) ↔ argc = 2
  omega

theorem satisfies_set (argc : Nat) : Satisfies cmd_set.arity argc ↔ 3 ≤ argc := by
  show (-(-3 : Int) ≤ argc) ↔ 3 ≤ argc
  omega

theorem fits_get (se : Sess) : argc_fits cmd_get se = true ↔ se.argc = 2 := by
  show decide ((se.argc : Int) = 2) = true ↔ se.argc = 2
  rw [decide_eq_true_iff]
  omega

theorem fits_set (se : Sess) : argc_fits cmd_set se = true := rfl

theorem write_keeps_cache {src : List Byte} (wrote : atm_conn_write srv c src = .ok srv') :
    srv'.cache_dict = srv.cache_dict ∧ srv'.cmd_dict = srv.cmd_dict := by
  obtain ⟨⟨bufs,_⟩,_,same⟩ := bind_eq_ok.mp wrote
  cases same
  exact ⟨rfl,rfl⟩

theorem write_str_keeps_cache {s : Option Str} (wrote : atm_conn_write_str srv c s = .ok srv') :
    srv'.cache_dict = srv.cache_dict ∧ srv'.cmd_dict = srv.cmd_dict := by
  cases s with
  | none => exact write_keeps_cache wrote
  | some s =>
    obtain ⟨bytes,_,wrote⟩ := bind_eq_ok.mp wrote
    exact write_keeps_cache wrote

theorem reply_keeps_cache {m : List Byte} (replied : atm_sess_reply srv c m = .ok srv') :
    srv'.cache_dict = srv.cache_dict ∧ srv'.cmd_dict = srv.cmd_dict := by
  obtain ⟨msg,_,replied⟩ := bind_eq_ok.mp replied
  obtain ⟨res,_,replied⟩ := bind_eq_ok.mp replied
  exact write_str_keeps_cache replied

/-- A `get` without exactly two words gets the reply and nothing else happens. -/
theorem get_refused (called : se.cmd = some cmd_get) (other : se.argc ≠ 2) :
    call_cmd siphash srv c se = atm_sess_reply srv c invalid_argc := by
  rw [call_cmd,called]
  show atm_cmd_func_get siphash srv c cmd_get se = _
  rw [atm_cmd_func_get,if_neg (fun fits => other ((fits_get se).mp fits))]

/-- Whatever the line, the request respects the arity of its command exactly when it is not a `set`
    of fewer than three words. -/
theorem arity_iff (init : atm_cmd_init siphash = .ok srv.cmd_dict) (idle : Idle se) {line : Str}
    (parsed : parse_line siphash srv line se = .ok se') :
    RespectsArity siphash srv c se' ↔ ¬ ShortSet siphash srv line := by
  rcases parse_line_cases parsed with ⟨words,rfl⟩ | ⟨argv,cmd,words,got,rfl⟩
  · constructor
    · rintro _ ⟨argv,split,_⟩
      rw [words] at split
      cases split
    · intro _
      refine ⟨fun i member => ?_,fun cmd called => ?_⟩
      · simp [argv_reads,idle.cmd] at member
      · rw [idle.cmd] at called
        cases called
  · cases cmd with
    | none =>
      constructor
      · rintro _ ⟨argv',split,found,_⟩
        rw [words] at split
        cases split
        rw [got] at found
        cases found
      · intro _
        refine ⟨fun i member => ?_,fun cmd called => ?_⟩
        · simp [argv_reads] at member
        · cases called
    | some cmd =>
      rcases getcmd_cases init got with rfl | rfl
      · -- `get` reads one argument, and only of two words.
        constructor
        · rintro _ ⟨argv',split,found,_⟩
          rw [words] at split
          cases split
          rw [got] at found
          cases found
        · intro _
          refine ⟨fun i member => ?_,?_⟩
          · simp only [argv_reads] at member
            split at member
            · rename_i fits
              rw [fits_get] at fits
              obtain rfl : i = 1 := List.mem_singleton.mp member
              rw [fits]
              decide
            · cases member
          · rintro _ ⟨⟩ unsatisfied
            rw [satisfies_get] at unsatisfied
            refine ⟨get_refused rfl unsatisfied,fun srv' done => ?_⟩
            rw [get_refused rfl unsatisfied] at done
            exact (reply_keeps_cache done).1
      · -- `set` reads two arguments, of any number of words.
        have reads : argv_reads { se with
            argc := (argv.takeWhile Option.isSome).length, argv := some argv, cmd := some cmd_set } = [1,2] := rfl
        constructor
        · rintro respects ⟨argv',split,_,short⟩
          rw [words] at split
          cases split
          have inside := respects.inside 2 (by rw [reads]; decide)
          simp only at inside
          omega
        · intro long
          have enough : 3 ≤ (argv.takeWhile Option.isSome).length := by
            by_contra few
            exact long ⟨argv,words,got,by omega⟩
          refine ⟨fun i member => ?_,?_⟩
          · rw [reads] at member
            simp only [List.mem_cons,List.not_mem_nil,or_false] at member
            rcases member with rfl | rfl
            · exact Nat.lt_of_lt_of_le (by decide) enough
            · exact Nat.lt_of_lt_of_le (by decide) enough
          · rintro _ ⟨⟩ unsatisfied
            exact absurd ((satisfies_set _).mpr enough) unsatisfied

/-! ### A `set` without arguments -/

/-- A server without buffers. -/
def quiet (cmds : Dictionary (Option Str) Cmd) : Server := ⟨Buffers.world,atm_dict_new .deep,cmds⟩

/-- `"get"` and `"set"` -/
def get_line : Str := ⟨7,3,[103,101,116,0,0,0,0,0]⟩
def set_line : Str := ⟨7,3,[115,101,116,0,0,0,0,0]⟩

theorem arity_iff_get : ∃ cmds se, atm_cmd_init zero_hash = .ok cmds ∧
    parse_line zero_hash (quiet cmds) get_line atm_sess_new = .ok se ∧
      (RespectsArity zero_hash (quiet cmds) ⟨0,1⟩ se ↔ ¬ ShortSet zero_hash (quiet cmds) get_line) := by
  obtain ⟨se,both⟩ := exists_ok (show (atm_cmd_init zero_hash >>= fun cmds =>
    parse_line zero_hash (quiet cmds) get_line atm_sess_new).toBool = true by decide +kernel)
  obtain ⟨cmds,init,parsed⟩ := bind_eq_ok.mp both
  exact ⟨cmds,se,init,parsed,arity_iff init new_idle parsed⟩

/-- The request `set` has one word; its handler reads the NULL after it and then beyond `argv`. -/
theorem bare_set_overreads : ∃ cmds se, atm_cmd_init zero_hash = .ok cmds ∧
    parse_line zero_hash (quiet cmds) set_line atm_sess_new = .ok se ∧ se.argc = 1 ∧ argv_reads se = [1,2] ∧
      call_cmd zero_hash (quiet cmds) ⟨0,1⟩ se = .error .outOfBounds ∧
      ¬ RespectsArity zero_hash (quiet cmds) ⟨0,1⟩ se := by
  have ran : (atm_cmd_init zero_hash >>= fun cmds => parse_line zero_hash (quiet cmds) set_line atm_sess_new >>= fun se =>
      .ok (se.argc,argv_reads se,call_cmd zero_hash (quiet cmds) ⟨0,1⟩ se)) = .ok (1,[1,2],.error .outOfBounds) := by
    decide +kernel
  obtain ⟨cmds,init,rest⟩ := bind_eq_ok.mp ran
  obtain ⟨se,parsed,same⟩ := bind_eq_ok.mp rest
  obtain ⟨argc,same⟩ := Prod.mk.inj (Except.ok.inj same)
  obtain ⟨reads,failed⟩ := Prod.mk.inj same
  refine ⟨cmds,se,init,parsed,argc,reads,failed,fun respects => ?_⟩
  have inside := respects.inside 2 (by rw [reads]; decide)
  rw [argc] at inside
  exact absurd inside (by decide)

end AtmCache.Session
