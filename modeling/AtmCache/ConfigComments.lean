import AtmCache.ConfigModel
import AtmCache.StrTokens

/-!
# Comments in the configuration file

A comment whose quotes are closed is one line of its own, and that line does nothing. A
comment that leaves a quote open swallows the lines after it, up to the next quote: the
text is cut into lines before any of them is known to be a comment. So the comments that
have no effect in any file are those that leave no quote open (`comment_unnoticed_iff`).
-/
namespace AtmCache.Configuration
open CStrings Quotes Runs Strings

/-- A string with a right header and some text. -/
def Contains (conf : Str) (text : List Byte) : Prop := HeaderOk conf ∧ str_text (some conf) = text

/-- Some lines without quotes, each with its newline. -/
def Lines (text : List Byte) : Prop := (∀ c ∈ text, is_quote c = false) ∧ (text = [] ∨ text.getLast? = some 10)

/-- The length is an `int` and the table of lines is large enough. -/
def TableFits (conf : Str) : Prop := conf.len < 2^31 ∧ SlotsFit conf.len (line_tokens 10 (str_text (some conf))).length

/-- The line and the message of a fatal error. -/
def Ending.report : Ending → Option (Str × String)
  | .success => none
  | .fatal _ line errmsg => some (line,errmsg)

/-- The configuration that is left, with the line and the message if the end is fatal. -/
def outcome (cfg : Config) (conf : Str) : Except Fault (Config × Option (Str × String)) := do
  let (cfg,ending) ← atm_config_process cfg conf
  return (cfg,ending.report)

/-- A comment with this text has no effect, whatever lines are before it and whatever follows. -/
def Unnoticed (comment : List Byte) : Prop :=
  ∀ (cfg : Config) (a b : List Byte) (plain commented : Str), Lines a → Contains plain (a ++ b) →
    Contains commented (a ++ 35 :: comment ++ 10 :: b) → TableFits plain → TableFits commented →
      outcome cfg commented = outcome cfg plain

/-! ### A line that is a comment -/

/-- Trimming a string keeps its first byte, if that is not trimmed. -/
theorem trim_first {c : Byte} {content rest cset : List Byte} (kept : strchr cset c = false) :
    ∃ l, atm_str_trim (some (made (c :: content) rest)) cset = .ok (some l) ∧ l.val[0]? = some c := by
  have start : trim_start (made (c :: content) rest).val cset (made (c :: content) rest).len 0 = .ok 0 := by
    simp [made,trim_start,kept]
  obtain ⟨left,head⟩ := Trims.rdropWhile_head content kept
  have stop : trim_end (made (c :: content) rest).val cset 0 (made (c :: content) rest).len = .ok (left.length + 1) := by
    have stops := trim_end_stops [] (c :: content) (by simpa using kept) (0 :: rest)
    rwa [head,List.nil_append,List.length_nil,Nat.zero_add,Nat.zero_add] at stops
  have short : left.length ≤ content.length := by
    have shorter := (List.rdropWhile_prefix (strchr cset) (c :: content)).length_le
    rwa [head,List.length_cons,List.length_cons,Nat.add_le_add_iff_right] at shorter
  have write : write_bytes (made (c :: content) rest).val (left.length + 1) [0] =
      .ok (splice (made (c :: content) rest).val (left.length + 1) [0]) :=
    write_bytes_ok (by simp only [made,List.length_append,List.length_cons,List.length_nil]; omega)
  simp only [atm_str_trim,start,stop,ok_bind,ne_eq,not_true_eq_false,↓reduceIte,Nat.sub_zero,write]
  exact ⟨_,rfl,by simp [splice,made]⟩

theorem comment_line (cfg : Config) (comment : List Byte) :
    ∃ l, config_line cfg (fresh (35 :: comment)) = .ok (cfg,l,none) := by
  have hash : strchr (chars " \t\r\n") 35 = false := by decide
  obtain ⟨l,trimmed,first⟩ : ∃ l, atm_str_trim (some (fresh (35 :: comment))) (chars " \t\r\n") = .ok (some l) ∧
    l.val[0]? = some 35 := trim_first hash
  refine ⟨l,?_⟩
  rw [config_line,trimmed]
  simp [first]

/-! ### The loop over the lines -/

/-- The outcome of the lines that stand for some tokens. -/
def read_lines (cfg : Config) (line_num : Nat) (ts : List (List Byte)) : Except Fault (Config × Option (Str × String)) := do
  let (cfg,ending) ← config_lines cfg line_num (ts.map (fun t => some (fresh t)) ++ [none])
  return (cfg,ending.report)

theorem read_cons (cfg : Config) (n : Nat) (t : List Byte) (ts : List (List Byte)) :
    read_lines cfg n (t :: ts) = config_line cfg (fresh t) >>= fun r =>
      match r with
      | (cfg,_,none) => read_lines cfg (n+1) ts
      | (cfg,l,some errmsg) => .ok (cfg,some (l,errmsg)) := by
  rw [read_lines,List.map_cons,List.cons_append,config_lines]
  cases config_line cfg (fresh t) with
  | error e => rfl
  | ok r =>
    obtain ⟨cfg,l,errmsg⟩ := r
    cases errmsg with
    | none => rfl
    | some errmsg => rfl

/-- The number of the first line shows in messages only. -/
theorem read_number (cfg : Config) (n m : Nat) (ts : List (List Byte)) : read_lines cfg n ts = read_lines cfg m ts := by
  induction ts generalizing cfg n m with
  | nil => rfl
  | cons t ts ih =>
    rw [read_cons,read_cons]
    cases config_line cfg (fresh t) with
    | error e => rfl
    | ok r =>
      obtain ⟨cfg,l,errmsg⟩ := r
      cases errmsg with
      | none => exact ih cfg (n+1) (m+1)
      | some errmsg => rfl

/-- A comment between other lines is passed over. -/
theorem read_comment (cfg : Config) (n : Nat) (before : List (List Byte)) (comment : List Byte) (later : List (List Byte)) :
    read_lines cfg n (before ++ (35 :: comment) :: later) = read_lines cfg n (before ++ later) := by
  induction before generalizing cfg n with
  | nil =>
    obtain ⟨l,passed⟩ := comment_line cfg comment
    rw [List.nil_append,List.nil_append,read_cons,passed]
    exact read_number cfg (n+1) n later
  | cons t before ih =>
    rw [List.cons_append,List.cons_append,read_cons,read_cons]
    cases config_line cfg (fresh t) with
    | error e => rfl
    | ok r =>
      obtain ⟨cfg,l,errmsg⟩ := r
      cases errmsg with
      | none => exact ih cfg (n+1)
      | some errmsg => rfl

/-! ### The whole text -/

theorem line_tokens_clean {sep : Byte} {line : List Byte} (clean : 0 ∉ line) :
    line_tokens sep line = tokens is_quote sep line := by
  have same : line.filter (fun c => c ≠ 0) = line := by
    rw [List.filter_eq_self]
    intro c member
    have other : c ≠ 0 := by
      rintro rfl
      exact clean member
    simpa using other
  rw [line_tokens,same]

theorem contains_text {conf : Str} {text : List Byte} (contains : Contains conf text) :
    0 ∉ text ∧ conf.val.take conf.len = text ∧ conf.len = text.length ∧ conf.len ≤ conf.val.length := by
  obtain ⟨ok,same⟩ := contains
  obtain ⟨content,rest,clean,rfl,_⟩ := ok.split
  rw [str_text_made] at same
  subst same
  exact ⟨clean,str_text_made content rest,rfl,by simp [made]⟩

/-- The outcome is that of the lines that the scanner finds. -/
theorem outcome_eq {cfg : Config} {conf : Str} {text : List Byte} (contains : Contains conf text) (fits : TableFits conf) :
    outcome cfg conf = read_lines cfg 0 (tokens is_quote 10 text) := by
  obtain ⟨clean,taken,_,inside⟩ := contains_text contains
  have cut := split_eq inside fits.1 (show ¬ is_quote 10 = true by decide) (by decide)
  rw [show conf.val.take conf.len = str_text (some conf) from rfl,if_pos fits.2,contains.2,line_tokens_clean clean] at cut
  rw [outcome,atm_config_process,cut]
  by_cases none : tokens is_quote 10 text = []
  · rw [none]
    rfl
  · rw [answer,if_neg none]
    rfl

/-- A comment that leaves no quote open has no effect. -/
theorem closed_unnoticed {comment : List Byte} (one_line : 10 ∉ comment) (shut : after is_quote [] comment = []) :
    Unnoticed comment := by
  intro cfg a b plain commented lines contains contains' fits fits'
  have newline : 10 ∉ 35 :: comment := by
    rw [List.mem_cons]
    rintro (same | inside)
    · cases same
    · exact one_line inside
  have cut : tokens is_quote 10 (a ++ 35 :: comment ++ 10 :: b) =
      tokens is_quote 10 a ++ (35 :: comment) :: tokens is_quote 10 b := by
    rw [List.append_assoc,tokens_append lines.1 lines.2,tokens_line (List.cons_ne_nil _ _) newline shut]
  rw [outcome_eq contains' fits',outcome_eq contains fits,cut,tokens_append lines.1 lines.2,read_comment]

/-! ### An open quote -/

theorem contains_fresh {text : List Byte} (clean : 0 ∉ text) (short : text.length + 17 < 2^32) : Contains (fresh text) text :=
  ⟨(new_fresh clean short).2,str_text_made _ _⟩

/-- A comment that leaves a quote open hides an option on the next line. -/
theorem open_noticed {comment : List Byte} (clean : 0 ∉ comment) (one_line : 10 ∉ comment)
    (room : comment.length + 7 < 2^31) (opened : after is_quote [] comment ≠ []) : ¬ Unnoticed comment := by
  intro unnoticed
  -- `bind` without an address is fatal; the newline after it keeps the table from having no slot.
  obtain ⟨b,unquoted,cleanB,short,enough,alone,fitsB⟩ : ∃ b : List Byte, (∀ c ∈ b, is_quote c = false) ∧ 0 ∉ b ∧
      b.length ≤ 5 ∧ (comment.length + 2 + b.length) % 2^29 ≠ 0 ∧ tokens is_quote 10 b = [chars "bind"] ∧
      TableFits (fresh b) := by
    by_cases full : (comment.length + 6) % 2^29 = 0
    · exact ⟨chars "bind\n",by decide +kernel,by decide,by decide,by
        show (comment.length + 2 + 5) % 2^29 ≠ 0
        omega,by decide,by decide,by decide⟩
    · exact ⟨chars "bind",by decide +kernel,by decide,by decide,by
        show (comment.length + 2 + 4) % 2^29 ≠ 0
        omega,by decide,by decide,by decide⟩
  have newline : 10 ∉ 35 :: comment := by
    rw [List.mem_cons]
    rintro (same | inside)
    · cases same
    · exact one_line inside
  have length : (35 :: comment ++ 10 :: b).length = comment.length + 2 + b.length := by
    simp only [List.length_append,List.length_cons]
    omega
  have cleanAll : 0 ∉ 35 :: comment ++ 10 :: b := by
    rw [List.mem_append,List.mem_cons,List.mem_cons]
    rintro ((same | inside) | same | inside)
    · cases same
    · exact clean inside
    · cases same
    · exact cleanB inside
  have swallowed : tokens is_quote 10 (35 :: comment ++ 10 :: b) = [35 :: comment ++ 10 :: b] := by
    refine tokens_open (List.cons_ne_nil _ _) newline opened (fun c member => ?_)
    rcases List.mem_cons.mp member with rfl | inside
    · rfl
    · exact unquoted c inside
  have containsB := contains_fresh cleanB (by omega)
  have containsAll := contains_fresh cleanAll (by rw [length]; omega)
  have fitsAll : TableFits (fresh (35 :: comment ++ 10 :: b)) := by
    refine ⟨?_,?_⟩
    · show (35 :: comment ++ 10 :: b).length < 2^31
      omega
    · rw [containsAll.2,line_tokens_clean cleanAll,swallowed]
      show SlotsFit (35 :: comment ++ 10 :: b).length 1
      rw [length,SlotsFit]
      omega
  have same := unnoticed no_config [] b (fresh b) (fresh (35 :: comment ++ 10 :: b)) ⟨by decide +kernel,.inl rfl⟩ containsB
    containsAll fitsB fitsAll
  rw [outcome_eq containsAll fitsAll,outcome_eq containsB fitsB,swallowed,alone] at same
  have passed : read_lines no_config 0 [35 :: comment ++ 10 :: b] = .ok (no_config,none) :=
    read_comment no_config 0 [] (comment ++ 10 :: b) []
  have refused : ∃ l, read_lines no_config 0 [chars "bind"] = .ok (no_config,some (l,"Invalid bind param")) :=
    ⟨_,rfl⟩
  obtain ⟨l,fatal⟩ := refused
  rw [passed,fatal] at same
  cases same

/-- The comments without effect in any file are those that leave no quote open. -/
theorem comment_unnoticed_iff {comment : List Byte} (clean : 0 ∉ comment) (one_line : 10 ∉ comment)
    (room : comment.length + 7 < 2^31) : Unnoticed comment ↔ after is_quote [] comment = [] := by
  constructor
  · intro unnoticed
    by_contra opened
    exact open_noticed clean one_line room opened unnoticed
  · exact closed_unnoticed one_line

theorem comment_unnoticed_iff_closed : Unnoticed (chars " it's five o'clock") :=
  (comment_unnoticed_iff (by decide) (by decide) (by decide)).mpr (by decide)

/-- An apostrophe in a comment hides the port on the next line. -/
theorem apostrophe_swallows :
    outcome no_config (fresh (chars "# it's five\nport 80\n")) = .ok (no_config,none) ∧
      outcome no_config (fresh (chars "port 80\n")) = .ok ({ no_config with port := 80 },none) := by
  decide +kernel

end AtmCache.Configuration
