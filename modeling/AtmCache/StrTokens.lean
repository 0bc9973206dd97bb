import AtmCache.Quotes
import AtmCache.StrHeader

/-!
# The tokens of a line

`atm_str_split` keeps the innermost open quote and a count in the place of a stack: since
a quote equal to the innermost one closes it, the two kinds alternate (`Levels`). So it cuts
a line as the scanner of `Quotes` does, NUL bytes apart (`bytes_scanned`). The token never
outgrows its block; the table of tokens, whose byte count is taken modulo `2^32`, is
large enough for every line of less than `2^29` bytes.
-/
namespace AtmCache.Strings
open CStrings Quotes Runs

/-- `"` or `'` -/
def is_quote (c : Byte) : Bool := c = 34 || c = 39

/-- The tokens of a line by the reference scanner. -/
def line_tokens (sep : Byte) (line : List Byte) : List (List Byte) := tokens is_quote sep (line.filter (fun c => c ≠ 0))

/-- The line without its NUL bytes and its separators outside of quotes. -/
def line_kept (sep : Byte) (line : List Byte) : List Byte := strip is_quote sep [] (line.filter (fun c => c ≠ 0))

/-- The array that a split returns for some tokens: NULL for none, else a new string for
    each and NULL at the end. -/
def answer (ts : List (List Byte)) : Option (List (Option Str)) :=
  if ts = [] then none else some (ts.map (fun t => some (fresh t)) ++ [none])

/-- The pointers for which the table of a line has room. -/
def table_slots (len : Nat) : Nat := atm_alloc (char_size * len) / char_size

/-- The block of a token: its text, and zeros up to the length of the line and one more. -/
def padded (len : Nat) (token : List Byte) : List Byte := token ++ List.replicate (len + 1 - token.length) 0

/-- Open quotes of alternating kinds. -/
def Levels : List Byte → Prop
  | [] => True
  | [c] => c = 34 ∨ c = 39
  | c :: d :: rest => (c = 34 ∧ d = 39 ∨ c = 39 ∧ d = 34) ∧ Levels (d :: rest)

/-- A count and a quote type that stand for a stack. -/
structure Depth (inq : Nat) (qty : Byte) (stack : List Byte) : Prop where
  levels : Levels stack
  count : inq = stack.length
  type : qty = stack.headD 0

/-- The variables of the loop stand for open quotes, a token and the tokens before it. -/
structure Scanned (len : Nat) (s : Split) (stack token : List Byte) (out : List (List Byte)) : Prop where
  depth : Depth s.inq s.qty stack
  clean : 0 ∉ token
  block : s.t = padded len token
  index : s.ti = token.length
  table : s.sl = out.map (padded len)
  trimming : s.trb = true → stack = [] ∧ token = []

variable {len : Nat} {s : Split} {sep c other : Byte} {stack token : List Byte} {out : List (List Byte)}

/-! ### Blocks -/

theorem table_slots_eq (len : Nat) : table_slots len = len % 2^29 := by
  simp only [table_slots,atm_alloc,u32,char_size]
  omega

theorem padded_cut (inside : token.length ≤ len) :
    padded len token = token ++ 0 :: List.replicate (len - token.length) 0 := by
  rw [padded,← List.replicate_succ]
  congr 2
  omega

theorem padded_put (inside : token.length < len) :
    write_bytes (padded len token) token.length [c] = .ok (padded len (token ++ [c])) := by
  rw [write_bytes_ok (by simp only [padded,List.length_append,List.length_replicate,List.length_singleton]; omega)]
  rw [padded_cut (by omega),← List.singleton_append,← List.append_assoc,
    splice_append token [0] _ (show [c].length = [0].length from rfl),padded]
  congr 3
  rw [List.length_append,List.length_singleton]
  omega

theorem padded_strlen (clean : 0 ∉ token) (inside : token.length ≤ len) : strlen (padded len token) = .ok token.length := by
  rw [padded_cut inside,strlen_ok clean]

/-! ### Quotes -/

theorem levels_top {top : Byte} {rest : List Byte} (levels : Levels (top :: rest)) : top = 34 ∨ top = 39 := by
  cases rest with
  | nil => exact levels
  | cons d rest => exact levels.1.imp And.left And.left

theorem levels_tail {top : Byte} {rest : List Byte} (levels : Levels (top :: rest)) : Levels rest := by
  cases rest with
  | nil => trivial
  | cons d rest => exact levels.2

/-- Below a quote of one kind lies one of the other kind, if any. -/
theorem levels_below {top : Byte} {rest : List Byte} (levels : Levels (top :: rest))
    (kinds : top = 34 ∧ other = 39 ∨ top = 39 ∧ other = 34) :
    rest.headD 0 = if 0 < rest.length then other else 0 := by
  cases rest with
  | nil => rfl
  | cons d rest =>
    rw [if_pos (by simp)]
    rcases kinds with ⟨rfl,rfl⟩ | ⟨rfl,rfl⟩
    · rcases levels.1 with ⟨_,below⟩ | ⟨wrong,_⟩
      · exact below
      · cases wrong
    · rcases levels.1 with ⟨wrong,_⟩ | ⟨_,below⟩
      · cases wrong
      · exact below

theorem quoted_close (quoting : c = 34 ∧ other = 39 ∨ c = 39 ∧ other = 34) (same : s.qty = c) :
    split_quoted c s = { s with inq := s.inq - 1, qty := if 0 < s.inq - 1 then other else 0 } := by
  rcases quoting with ⟨rfl,rfl⟩ | ⟨rfl,rfl⟩
  · rw [split_quoted,if_pos rfl,if_pos same]
  · rw [split_quoted,if_neg (by decide),if_pos rfl,if_neg (by rw [same]; decide),if_pos same]

theorem quoted_open (quoting : c = 34 ∧ other = 39 ∨ c = 39 ∧ other = 34) (outer : s.qty = other) :
    split_quoted c s = { s with inq := s.inq + 1, qty := c } := by
  rcases quoting with ⟨rfl,rfl⟩ | ⟨rfl,rfl⟩
  · rw [split_quoted,if_pos rfl,if_neg (by rw [outer]; decide),if_pos outer]
  · rw [split_quoted,if_neg (by decide),if_pos rfl,if_pos outer]

theorem quoted_plain (plain : ¬ is_quote c = true) : split_quoted c s = s := by
  have neither : c ≠ 34 ∧ c ≠ 39 := by simpa [is_quote] using plain
  rw [split_quoted,if_neg neither.1,if_neg neither.2]

/-- Each quote and the other kind. -/
theorem quote_kinds (quoting : is_quote c = true) : ∃ other : Byte, c = 34 ∧ other = 39 ∨ c = 39 ∧ other = 34 := by
  have either : c = 34 ∨ c = 39 := by simpa [is_quote] using quoting
  rcases either with double | single
  · exact ⟨39,.inl ⟨double,rfl⟩⟩
  · exact ⟨34,.inr ⟨single,rfl⟩⟩

/-- Inside quotes, quote type and depth follow the stack. -/
theorem quoted_depth {top : Byte} {rest : List Byte} (depth : Depth s.inq s.qty (top :: rest)) (c : Byte) :
    ∃ i q, split_quoted c s = { s with inq := i, qty := q } ∧ Depth i q (push is_quote (top :: rest) c) := by
  obtain ⟨levels,count,type⟩ := depth
  rw [List.headD_cons] at type
  rw [List.length_cons] at count
  by_cases quoting : is_quote c = true
  · obtain ⟨other,kinds⟩ := quote_kinds quoting
    by_cases same : c = top
    · subst same
      have less : s.inq - 1 = rest.length := by omega
      exact ⟨_,_,quoted_close kinds type,by
        rw [push_close quoting]
        exact ⟨levels_tail levels,less,by rw [levels_below levels kinds,less]⟩⟩
    · have outer : top = other := by
        rcases kinds with ⟨rfl,rfl⟩ | ⟨rfl,rfl⟩
        · exact (levels_top levels).resolve_left (fun double => same double.symm)
        · exact (levels_top levels).resolve_right (fun single => same single.symm)
      refine ⟨_,_,quoted_open kinds (type.trans outer),?_⟩
      rw [push_open quoting same]
      exact ⟨⟨by rw [outer]; exact kinds,levels⟩,by rw [count]; rfl,rfl⟩
  · refine ⟨_,_,quoted_plain quoting,?_⟩
    rw [push_plain quoting]
    exact ⟨levels,count,type⟩

/-- Outside of quotes, a quote opens the first level. -/
theorem opened_depth (depth : Depth s.inq s.qty []) (c : Byte) :
    ∃ i q, (if c = 34 ∨ c = 39 then { s with qty := c, inq := s.inq + 1 } else s) = { s with inq := i, qty := q } ∧
      Depth i q (push is_quote [] c) := by
  by_cases quoting : c = 34 ∨ c = 39
  · have yes : is_quote c = true := by simpa [is_quote] using quoting
    refine ⟨_,_,if_pos quoting,?_⟩
    rw [push_nil yes]
    exact ⟨quoting,by rw [depth.count]; rfl,rfl⟩
  · have no : ¬ is_quote c = true := by simpa [is_quote] using quoting
    refine ⟨_,_,if_neg quoting,?_⟩
    rw [push_plain no]
    exact depth

/-! ### One byte -/

theorem put_scanned {i : Nat} {q : Byte} {stack' : List Byte} (scanned : Scanned len s stack token out)
    (depth : Depth i q stack') (room : token.length < len) (nonzero : c ≠ 0) :
    ∃ s', split_put c { s with inq := i, qty := q, trb := false } = .ok s' ∧ Scanned len s' stack' (token ++ [c]) out := by
  have wrote : write_bytes s.t s.ti [c] = .ok (padded len (token ++ [c])) := by
    rw [scanned.block,scanned.index,padded_put room]
  refine ⟨{ s with inq := i, qty := q, trb := false, t := padded len (token ++ [c]), ti := s.ti + 1 },
    by simp only [split_put,wrote]; rfl,depth,?_,rfl,by rw [List.length_append,← scanned.index]; rfl,scanned.table,
    fun on => absurd on Bool.false_ne_true⟩
  rw [List.mem_append,List.mem_singleton]
  rintro (before | zero)
  · exact scanned.clean before
  · exact nonzero zero.symm

/-- A byte that does not end the token goes to it. -/
theorem byte_kept (scanned : Scanned len s stack token out) (room : token.length < len) (nonzero : c ≠ 0)
    (inside : ¬ (stack = [] ∧ c = sep)) :
    ∃ s', split_byte sep len s c = .ok s' ∧ Scanned len s' (push is_quote stack c) (token ++ [c]) out := by
  rw [split_byte,if_neg nonzero]
  cases stack with
  | nil =>
    have outside : ¬ 0 < s.inq := by rw [scanned.depth.count]; exact Nat.lt_irrefl _
    obtain ⟨i,q,opened,depth⟩ := opened_depth scanned.depth c
    rw [if_neg outside,opened]
    dsimp only
    rw [if_neg (fun same => inside ⟨rfl,same⟩)]
    exact put_scanned scanned depth room nonzero
  | cons top rest =>
    have quoted : 0 < s.inq := by rw [scanned.depth.count]; exact Nat.zero_lt_succ _
    have notTrimming : s.trb = false := by
      cases on : s.trb with
      | false => rfl
      | true => cases (scanned.trimming on).1
    obtain ⟨i,q,changed,depth⟩ := quoted_depth scanned.depth c
    have same : ({ s with inq := i, qty := q } : Split) = { s with inq := i, qty := q, trb := false } := by
      rw [← notTrimming]
    rw [if_pos quoted,changed,same]
    exact put_scanned scanned depth room nonzero

theorem store_scanned (scanned : Scanned len s stack token out) :
    split_store len s = if out.length < table_slots len then .ok { s with sl := (out ++ [token]).map (padded len) }
      else .error .outOfBounds := by
  rw [split_store,scanned.table,scanned.block,List.length_map,List.map_append]
  rfl

/-- A separator outside of quotes ends the token, if there is one, and needs a slot for it. -/
theorem byte_ends (int : len < 2^31) (plain : ¬ is_quote sep = true) (nonzero : sep ≠ 0)
    (scanned : Scanned len s [] token out) (room : token.length ≤ len) :
    (token = [] ∨ out.length < table_slots len) ∧
      (∃ s', split_byte sep len s sep = .ok s' ∧ Scanned len s' [] [] (out ++ emit token)) ∨
    token ≠ [] ∧ ¬ out.length < table_slots len ∧ split_byte sep len s sep = .error .outOfBounds := by
  have outside : ¬ 0 < s.inq := by rw [scanned.depth.count]; exact Nat.lt_irrefl _
  have neither : ¬ (sep = 34 ∨ sep = 39) := by simpa [is_quote] using plain
  rw [split_byte,if_neg nonzero,if_neg outside,if_neg neither,if_pos rfl]
  by_cases trimming : s.trb = false
  · have measured : strlen s.t = .ok token.length := by rw [scanned.block,padded_strlen scanned.clean room]
    rw [if_pos trimming,measured,ok_bind]
    by_cases empty : token = []
    · subst empty
      refine .inl ⟨.inl rfl,{ s with trb := true },rfl,?_⟩
      rw [emit,if_pos rfl,List.append_nil]
      exact ⟨scanned.depth,scanned.clean,scanned.block,scanned.index,scanned.table,fun _ => ⟨rfl,rfl⟩⟩
    · rw [if_pos (List.length_pos_iff.mpr empty),store_scanned scanned]
      by_cases slot : out.length < table_slots len
      · rw [if_pos slot,ok_bind]
        refine .inl ⟨.inr slot,_,rfl,scanned.depth,List.not_mem_nil,?_,rfl,?_,fun _ => ⟨rfl,rfl⟩⟩
        · show split_token len = padded len []
          rw [split_token,atm_alloc,u32_of_lt (by omega)]
          rfl
        · rw [emit,if_neg empty]
      · rw [if_neg slot]
        exact .inr ⟨empty,slot,rfl⟩
  · have on : s.trb = true := by simpa using trimming
    have empty := (scanned.trimming on).2
    subst empty
    rw [if_neg trimming]
    exact .inl ⟨.inl rfl,s,rfl,by rw [emit,if_pos rfl,List.append_nil]; exact scanned⟩

/-! ### The whole line -/

/-- The loop cuts the bytes as the scanner does, or runs out of slots. -/
theorem bytes_scanned (int : len < 2^31) (plain : ¬ is_quote sep = true) (nonzero : sep ≠ 0) (bytes : List Byte) :
    ∀ (s : Split) (stack token : List Byte) (out : List (List Byte)), Scanned len s stack token out →
      token.length + bytes.length ≤ len → out.length ≤ table_slots len →
      (∃ s' stack' token' out', bytes.foldlM (split_byte sep len) s = .ok s' ∧ Scanned len s' stack' token' out' ∧
        token'.length ≤ len ∧ out'.length ≤ table_slots len ∧
        out' ++ emit token' = out ++ scan is_quote sep stack token (bytes.filter (fun c => c ≠ 0))) ∨
      (bytes.foldlM (split_byte sep len) s = .error .outOfBounds ∧
        table_slots len < (out ++ scan is_quote sep stack token (bytes.filter (fun c => c ≠ 0))).length) := by
  induction bytes with
  | nil =>
    intro s stack token out scanned room fits
    exact .inl ⟨s,stack,token,out,rfl,scanned,by simpa using room,fits,rfl⟩
  | cons c bytes ih =>
    intro s stack token out scanned room fits
    rw [List.length_cons] at room
    rw [List.foldlM_cons]
    by_cases null : c = 0
    · rw [List.filter_cons_of_neg (by simpa using null),split_byte,if_pos null,ok_bind]
      exact ih s stack token out scanned (by omega) fits
    rw [List.filter_cons_of_pos (by simpa using null)]
    by_cases ends : stack = [] ∧ c = sep
    · obtain ⟨rfl,rfl⟩ := ends
      rw [scan_sep,← List.append_assoc]
      rcases byte_ends int plain nonzero scanned (by omega) with ⟨slot,s₁,first,scanned₁⟩ | ⟨some,full,failed⟩
      · rw [first,ok_bind]
        refine ih s₁ [] [] _ scanned₁ (by simp only [List.length_nil]; omega) ?_
        rw [List.length_append,emit]
        rcases slot with empty | slot
        · rw [if_pos empty]
          exact fits
        · split
          · exact fits
          · exact slot
      · rw [failed]
        refine .inr ⟨rfl,?_⟩
        rw [emit,if_neg some,List.length_append,List.length_append,List.length_singleton]
        omega
    · obtain ⟨s₁,first,scanned₁⟩ := byte_kept scanned (by omega) null ends
      rw [first,ok_bind,scan_step ends]
      exact ih s₁ _ _ _ scanned₁ (by rw [List.length_append,List.length_singleton]; omega) fits

/-- What `atm_str_split` does with the last token. -/
theorem last_scanned (scanned : Scanned len s stack token out) (room : token.length ≤ len)
    (fits : out.length ≤ table_slots len) :
    ((out ++ emit token).length ≤ table_slots len ∧
      ∃ s', (do if 0 < (← strlen s.t) then split_store len s else return s) = .ok s' ∧
        s'.sl = (out ++ emit token).map (padded len)) ∨
    (table_slots len < (out ++ emit token).length ∧
      (do if 0 < (← strlen s.t) then split_store len s else return s) = .error .outOfBounds) := by
  have measured : strlen s.t = .ok token.length := by rw [scanned.block,padded_strlen scanned.clean room]
  rw [measured,ok_bind,emit]
  by_cases empty : token = []
  · subst empty
    exact .inl ⟨by simpa using fits,s,rfl,by rw [if_pos rfl,List.append_nil]; exact scanned.table⟩
  · rw [if_pos (List.length_pos_iff.mpr empty),store_scanned scanned,if_neg empty,List.length_append,List.length_singleton]
    by_cases slot : out.length < table_slots len
    · exact .inl ⟨slot,_,by rw [if_pos slot],rfl⟩
    · exact .inr ⟨by omega,by rw [if_neg slot]⟩

/-- Every stored token becomes a new string. -/
theorem words_new (int : len < 2^31) {ts : List (List Byte)} (each : ∀ t ∈ ts, 0 ∉ t ∧ t.length ≤ len) :
    (ts.map (padded len)).mapM (fun t => do atm_str_new (some (t.take (← strlen t)))) =
      .ok (ts.map (fun t => some (fresh t))) := by
  rw [List.mapM_map]
  refine mapM_ok (fun t member => ?_)
  obtain ⟨clean,short⟩ := each t member
  dsimp only [Function.comp]
  rw [padded_strlen clean short,ok_bind,padded,List.take_left]
  exact (new_fresh clean (by omega)).1

theorem line_token {t line : List Byte} (member : t ∈ line_tokens sep line) : 0 ∉ t ∧ t.length ≤ line.length := by
  have inside : t.Sublist (line.filter (fun c => c ≠ 0)) := token_sublist member
  refine ⟨fun zero => ?_,(inside.trans List.filter_sublist).length_le⟩
  simpa using List.of_mem_filter (inside.subset zero)

/-- The table of a line has a slot for each of `n` tokens, and that of the strings one more. -/
def SlotsFit (len n : Nat) : Prop := n ≤ len % 2^29 ∧ n + 1 < 2^29

instance (len n : Nat) : Decidable (SlotsFit len n) := inferInstanceAs (Decidable (_ ∧ _))

/-- What `atm_str_split` returns for any line whose length is an `int`. -/
theorem split_eq {str : List Byte} (inside : len ≤ str.length) (int : len < 2^31) (plain : ¬ is_quote sep = true)
    (nonzero : sep ≠ 0) : atm_str_split str sep len =
      if SlotsFit len (line_tokens sep (str.take len)).length then .ok (answer (line_tokens sep (str.take len)))
      else .error .outOfBounds := by
  have start : Scanned len ⟨0,0,false,split_token len,0,[]⟩ [] [] [] := by
    refine ⟨⟨trivial,rfl,rfl⟩,List.not_mem_nil,?_,rfl,rfl,fun on => absurd on Bool.false_ne_true⟩
    show split_token len = padded len []
    rw [split_token,atm_alloc,u32_of_lt (by omega)]
    rfl
  have each : ∀ t ∈ line_tokens sep (str.take len), 0 ∉ t ∧ t.length ≤ len := by
    intro t member
    obtain ⟨clean,short⟩ := line_token member
    exact ⟨clean,short.trans (by rw [List.length_take_of_le inside])⟩
  have looped := bytes_scanned int plain nonzero (str.take len) _ [] [] [] start
    (by rw [List.length_take_of_le inside]; simp) (Nat.zero_le _)
  rw [List.nil_append] at looped
  change (_ ∨ _ ∧ table_slots len < (line_tokens sep (str.take len)).length) at looped
  unfold atm_str_split
  rw [if_pos int,read_bytes_ok inside,ok_bind]
  rcases looped with ⟨s,stack,token,out,looped,scanned,room,fits,whole⟩ | ⟨failed,many⟩
  · change out ++ emit token = line_tokens sep (str.take len) at whole
    rw [looped,ok_bind]
    have last := last_scanned scanned room fits
    rw [whole] at last
    rcases last with ⟨enough,s',closed,table⟩ | ⟨many,failed⟩
    · rw [table_slots_eq] at enough
      rw [closed,ok_bind]
      by_cases empty : line_tokens sep (str.take len) = []
      · rw [if_pos (by rw [table,empty]; rfl),empty,if_pos ⟨Nat.zero_le _,by decide⟩]
        rfl
      · have slots : (line_tokens sep (str.take len)).length < table_slots ((line_tokens sep (str.take len)).length + 1) ↔
            SlotsFit len (line_tokens sep (str.take len)).length := by
          rw [table_slots_eq,SlotsFit]
          omega
        rw [if_neg (by rw [table]; simpa using empty),table,List.length_map]
        change (if _ < table_slots _ then _ else _) = _
        by_cases room : SlotsFit len (line_tokens sep (str.take len)).length
        · rw [if_pos (slots.mpr room),if_pos room,words_new int each,answer,if_neg empty]
          rfl
        · rw [if_neg (fun less => room (slots.mp less)),if_neg room]
          rfl
    · rw [table_slots_eq] at many
      rw [failed,if_neg (fun fits => by have := fits.1; omega)]
      rfl
  · rw [table_slots_eq] at many
    rw [failed,if_neg (fun fits => by have := fits.1; omega)]
    rfl

/-! ### The split of a line -/

/-- The tables are large enough for every line of less than `2^29` bytes. -/
theorem slots_fit {line : List Byte} (short : line.length < 2^29) : SlotsFit line.length (line_tokens sep line).length := by
  have counted : 2 * (line_tokens sep line).length ≤ (line.filter (fun c => c ≠ 0)).length + 1 := tokens_count _
  have filtered := List.length_filter_le (fun c : Byte => decide (c ≠ 0)) line
  rw [SlotsFit,Nat.mod_eq_of_lt short]
  omega

theorem split_short {str : List Byte} (inside : len ≤ str.length) (short : len < 2^29) (plain : ¬ is_quote sep = true)
    (nonzero : sep ≠ 0) : atm_str_split str sep len = .ok (answer (line_tokens sep (str.take len))) := by
  have whole : (str.take len).length = len := List.length_take_of_le inside
  have fits : SlotsFit (str.take len).length (line_tokens sep (str.take len)).length := slots_fit (by omega)
  rw [whole] at fits
  rw [split_eq inside (by omega) plain nonzero,if_pos fits]

/-- The split is the scanner's, with every write inside its block, exactly when the tables are large enough. -/
theorem split_exact_iff {str : List Byte} (inside : len ≤ str.length) (int : len < 2^31) (plain : ¬ is_quote sep = true)
    (nonzero : sep ≠ 0) : atm_str_split str sep len = .ok (answer (line_tokens sep (str.take len))) ↔
      (line_tokens sep (str.take len)).length ≤ len % 2^29 ∧ (line_tokens sep (str.take len)).length + 1 < 2^29 := by
  rw [split_eq inside int plain nonzero]
  constructor
  · intro same
    by_contra short
    rw [if_neg (show ¬ SlotsFit _ _ from short)] at same
    cases same
  · exact fun fits => if_pos fits

/-- The line `a "b 'c"  'd` with an open quote in its second token. -/
theorem split_exact_iff_open : atm_str_split [97,32,34,98,32,39,99,34,32,32,39,100] 32 12 =
    .ok (answer [[97],[34,98,32,39,99,34,32,32,39,100]]) := by
  have cut : line_tokens 32 ([97,32,34,98,32,39,99,34,32,32,39,100].take 12) =
      [[97],[34,98,32,39,99,34,32,32,39,100]] := by decide
  rw [← cut]
  exact (split_exact_iff (by decide) (by decide) (by decide) (by decide)).mpr (by decide)

theorem line_tokens_replicate {n : Nat} (some : n ≠ 0) :
    line_tokens 32 (List.replicate n 97) = [List.replicate n 97] := by
  have plain : ∀ c ∈ List.replicate n (97 : Byte), is_quote c = false ∧ c ≠ 32 := by
    intro c member
    rw [List.eq_of_mem_replicate member]
    decide
  have same : (List.replicate n (97 : Byte)).filter (fun c => c ≠ 0) = List.replicate n 97 := by
    rw [List.filter_eq_self]
    intro c member
    rw [List.eq_of_mem_replicate member]
    rfl
  rw [line_tokens,same,tokens_plain plain,emit,if_neg (by simpa using some)]

theorem letters_overrun {n : Nat} (some : n ≠ 0) (int : n < 2^31) (wraps : n % 2^29 = 0) :
    atm_str_split (List.replicate n 97) 32 n = .error .outOfBounds := by
  have line : (List.replicate n (97 : Byte)).take n = List.replicate n 97 :=
    List.take_of_length_le (by rw [List.length_replicate])
  rw [split_eq (by rw [List.length_replicate]) int (by decide) (by decide),line,line_tokens_replicate some,if_neg]
  rw [SlotsFit,wraps,List.length_singleton]
  omega

/-- The table of a line of `2^29` bytes has no slot, and the line may be one token. -/
theorem long_line_overruns : atm_str_split (List.replicate (2^29) 97) 32 (2^29) = .error .outOfBounds :=
  letters_overrun (by decide) (by decide) (by decide)

/-! ### Splitting what was split -/

/-- The texts of an array of strings, up to its NULL. -/
def argv_texts (argv : List (Option Str)) : List (List Byte) := (argv.takeWhile Option.isSome).map str_text

theorem answer_texts (ts : List (List Byte)) : argv_texts (ts.map (fun t => some (fresh t)) ++ [none]) = ts := by
  have all : ∀ w ∈ ts.map (fun t => some (fresh t)), w.isSome = true := by simp
  rw [argv_texts,List.takeWhile_append_of_pos all]
  simp [Function.comp_def,fresh,str_text_made]

/-- Joined tokens are cut into the same tokens. -/
theorem line_tokens_join (nonzero : sep ≠ 0) (line : List Byte) :
    line_tokens sep (join sep (line_tokens sep line)) = line_tokens sep line := by
  have clean : 0 ∉ join sep (line_tokens sep line) :=
    not_mem_join (Ne.symm nonzero) (fun t member => (line_token member).1)
  have same : (join sep (line_tokens sep line)).filter (fun c => c ≠ 0) = join sep (line_tokens sep line) := by
    rw [List.filter_eq_self]
    intro c member
    have other : c ≠ 0 := by
      rintro rfl
      exact clean member
    simpa using other
  rw [line_tokens,same]
  exact tokens_again _

/-- The words of a line, joined with single separators, are split into the same words again exactly
    when the table for the joined line is large enough; put together without separators they are the
    line without the separators that count. -/
theorem split_again_iff {str : List Byte} {argv : List (Option Str)} (inside : len ≤ str.length) (int : len < 2^31)
    (plain : ¬ is_quote sep = true) (nonzero : sep ≠ 0) (done : atm_str_split str sep len = .ok (some argv)) :
    (atm_str_split (join sep (argv_texts argv)) sep (join sep (argv_texts argv)).length = .ok (some argv) ∧
        (argv_texts argv).flatten = line_kept sep (str.take len)) ↔
      (line_tokens sep (str.take len)).length ≤ (join sep (line_tokens sep (str.take len))).length % 2^29 := by
  rw [split_eq inside int plain nonzero] at done
  split at done
  · rename_i fits
    have given : answer (line_tokens sep (str.take len)) = some argv := Except.ok.inj done
    have texts : argv_texts argv = line_tokens sep (str.take len) := by
      rw [answer] at given
      split at given
      · cases given
      · cases given
        exact answer_texts _
    have shorter : (join sep (line_tokens sep (str.take len))).length ≤ len := by
      have joined : (join sep (line_tokens sep (str.take len))).length ≤
        ([] : List Byte).length + ((str.take len).filter (fun c => c ≠ 0)).length := join_scan_le [] [] _
      have filtered := List.length_filter_le (fun c : Byte => decide (c ≠ 0)) (str.take len)
      rw [List.length_take_of_le inside] at filtered
      rw [List.length_nil,Nat.zero_add] at joined
      exact joined.trans filtered
    have self : (join sep (line_tokens sep (str.take len))).length ≤ (join sep (line_tokens sep (str.take len))).length :=
      le_rfl
    have exact_iff := split_exact_iff self (by omega) plain nonzero
    rw [List.take_length,line_tokens_join nonzero,given] at exact_iff
    rw [texts,exact_iff]
    have concat : (line_tokens sep (str.take len)).flatten = line_kept sep (str.take len) :=
      scan_flatten [] [] _
    constructor
    · exact fun both => both.1.1
    · exact fun enough => ⟨⟨enough,fits.2⟩,concat⟩
  · cases done

/-- The line `  a  "x y"  b`. -/
theorem split_again_iff_spaces : ∃ argv, atm_str_split [32,32,97,32,32,34,120,32,121,34,32,32,98] 32 13 = .ok (some argv) ∧
    argv_texts argv = [[97],[34,120,32,121,34],[98]] ∧
    atm_str_split (join 32 (argv_texts argv)) 32 (join 32 (argv_texts argv)).length = .ok (some argv) ∧
    (argv_texts argv).flatten = [97,34,120,32,121,34,98] := by
  have done : atm_str_split [32,32,97,32,32,34,120,32,121,34,32,32,98] 32 13 =
      .ok (some ([[97],[34,120,32,121,34],[98]].map (fun t => some (fresh t)) ++ [none])) := by decide +kernel
  obtain ⟨again,concat⟩ := (split_again_iff (by decide) (by decide) (by decide) (by decide) done).mpr (by decide)
  exact ⟨_,done,answer_texts _,again,concat.trans (by decide)⟩

theorem letters_overrun_again {n : Nat} (some : n ≠ 0) (int : n + 1 < 2^31) (wraps : n % 2^29 = 0) :
    ∃ argv, atm_str_split (32 :: List.replicate n 97) 32 (n + 1) = .ok (.some argv) ∧
      atm_str_split (join 32 (argv_texts argv)) 32 (join 32 (argv_texts argv)).length = .error .outOfBounds := by
  have line : (32 :: List.replicate n (97 : Byte)).take (n + 1) = 32 :: List.replicate n 97 :=
    List.take_of_length_le (by rw [List.length_cons,List.length_replicate])
  have cut : line_tokens 32 (32 :: List.replicate n 97) = [List.replicate n 97] := by
    have dropped : line_tokens 32 (32 :: List.replicate n 97) = line_tokens 32 (List.replicate n 97) := by
      rw [line_tokens,List.filter_cons_of_pos (by decide)]
      exact tokens_sep _
    rw [dropped,line_tokens_replicate some]
  have fits : SlotsFit (n + 1) [List.replicate n (97 : Byte)].length := by
    rw [SlotsFit,List.length_singleton]
    omega
  have inside : n + 1 ≤ (32 :: List.replicate n (97 : Byte)).length := by rw [List.length_cons,List.length_replicate]
  have done := split_eq inside int (show ¬ is_quote 32 = true by decide) (by decide)
  rw [line,cut,if_pos fits,answer,if_neg (List.cons_ne_nil _ _)] at done
  have joined : join 32 [List.replicate n (97 : Byte)] = List.replicate n 97 := List.intercalate_singleton
  refine ⟨_,done,?_⟩
  rw [answer_texts,joined,List.length_replicate]
  exact letters_overrun some (by omega) wraps

/-- A separator and `2^29` letters: the joined line is the letters, whose table has no slot. -/
theorem split_again_overruns : ∃ argv, atm_str_split (32 :: List.replicate (2^29) 97) 32 (2^29 + 1) = .ok (some argv) ∧
    atm_str_split (join 32 (argv_texts argv)) 32 (join 32 (argv_texts argv)).length = .error .outOfBounds :=
  letters_overrun_again (by decide) (by decide) (by decide)

end AtmCache.Strings
