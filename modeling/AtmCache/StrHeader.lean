import AtmCache.StrModel
import AtmCache.Trims

/-!
# The header of a string

`HeaderOk` is the invariant of every string: the block has `cap + 1` bytes after
the header and `len` is the position of its first NUL. Making, copying, trimming
and case mapping keep it, and so does a concatenation that fits the spare room.
When a concatenation has to move the string, `atm_str_grow` has already added the
new bytes to `len` and its caller adds them again.
-/
namespace AtmCache.Strings
open CStrings Runs Trims

/-- The header of a string describes its block. -/
structure HeaderOk (s : Str) : Prop where
  block : s.val.length = s.cap + 1
  small : hdrlen + s.cap + 1 < 2^32
  bound : s.len ≤ s.cap
  first : s.val.idxOf 0 = s.len

/-- The string with some content and some bytes after the terminating NUL. -/
def made (content rest : List Byte) : Str := ⟨content.length + rest.length,content.length,content ++ 0 :: rest⟩

theorem made_ok {content rest : List Byte} (clean : 0 ∉ content)
    (small : hdrlen + (content.length + rest.length) + 1 < 2^32) : HeaderOk (made content rest) where
  block := by simp [made]; omega
  small := small
  bound := Nat.le_add_right ..
  first := idxOf_text clean rest

/-- A string whose length is the position of its first NUL, inside its block. -/
theorem split_made {s : Str} (block : s.val.length = s.cap + 1) (bound : s.len ≤ s.cap) (first : s.val.idxOf 0 = s.len) :
    ∃ content rest, 0 ∉ content ∧ s = made content rest := by
  obtain ⟨cap,len,val⟩ := s
  simp only at block bound first
  have ended : (0 : Byte) ∈ val := by
    rw [← List.idxOf_lt_length_iff]
    omega
  have whole := split_text ended
  have length : (text 0 val).length = len := by
    rw [text,List.length_take,first,Nat.min_eq_left (by omega)]
  have total := congrArg List.length whole
  rw [List.length_append,List.length_cons,length] at total
  refine ⟨text 0 val,val.drop (val.idxOf 0 + 1),not_mem_text 0 val,?_⟩
  rw [made,length,← whole]
  congr 1
  omega

theorem HeaderOk.split {s : Str} (ok : HeaderOk s) :
    ∃ content rest, 0 ∉ content ∧ s = made content rest ∧ hdrlen + (content.length + rest.length) + 1 < 2^32 := by
  obtain ⟨content,rest,clean,rfl⟩ := split_made ok.block ok.bound ok.first
  exact ⟨content,rest,clean,rfl,ok.small⟩

/-! ### Bytes -/

theorem strlen_ok {content : List Byte} (clean : 0 ∉ content) (rest : List Byte) :
    strlen (content ++ 0 :: rest) = .ok content.length := by
  rw [strlen,if_pos (by simp),idxOf_text clean]

theorem strlen_c_string {s : List Byte} (clean : 0 ∉ s) : strlen (c_string s) = .ok s.length :=
  strlen_ok clean []

theorem read_bytes_ok {block : List Byte} {n : Nat} (inside : n ≤ block.length) :
    read_bytes block n = .ok (block.take n) := if_pos inside

theorem write_bytes_ok {block data : List Byte} {i : Nat} (inside : i + data.length ≤ block.length) :
    write_bytes block i data = .ok (splice block i data) := if_pos inside

theorem memcpy_ok {dest src : List Byte} {n : Nat} (inside : n ≤ src.length) (room : n ≤ dest.length) :
    memcpy dest src n = .ok (src.take n ++ dest.drop n) := by
  rw [memcpy,read_bytes_ok inside,ok_bind,write_bytes_ok (by simp; omega)]
  simp [splice,Nat.min_eq_left inside]

theorem strcat_ok {content src : List Byte} (clean : 0 ∉ content) (cleanSrc : 0 ∉ src) {rest : List Byte}
    (more : List Byte) (room : src.length ≤ rest.length) :
    strcat (content ++ 0 :: rest) (src ++ 0 :: more) = .ok (content ++ src ++ 0 :: rest.drop src.length) := by
  rw [strcat,strlen_ok clean,ok_bind,strlen_ok cleanSrc,ok_bind,List.take_left,
    write_bytes_ok (by simp; omega),splice_text _ _ _ _ room]

/-- A string that is appended to itself in its own block runs out of the block. -/
theorem strcat_self_loop_fails {i : Nat} (positive : 0 < i) (fuel : Nat) :
    ∀ (j : Nat) (block : List Byte), (∀ k, k < i + j → block[k]? ≠ some 0) →
      strcat_self_loop i fuel j block = .error .outOfBounds := by
  induction fuel with
  | zero => intro j block _; rfl
  | succ fuel ih =>
    intro j block nonzero
    rw [strcat_self_loop]
    cases here : block[j]? with
    | none => rfl
    | some c =>
      have other : c ≠ 0 := fun zero => nonzero j (by omega) (zero ▸ here)
      by_cases inside : i + j < block.length
      · simp only [inside,other,↓reduceIte]
        refine ih (j+1) _ (fun k below => ?_)
        rw [List.getElem?_set]
        by_cases last : i + j = k
        · simpa [last,last ▸ inside] using other
        · rw [if_neg last]
          exact nonzero k (by omega)
      · simp only [inside,↓reduceIte]

theorem strcat_self_fails {content : List Byte} (clean : 0 ∉ content) (some : content ≠ []) (rest : List Byte) :
    strcat_self (content ++ 0 :: rest) = .error .outOfBounds := by
  rw [strcat_self,strlen_ok clean,ok_bind]
  refine strcat_self_loop_fails (List.length_pos_iff.mpr some) _ 0 _ (fun k below zero => ?_)
  rw [List.getElem?_append_left (by omega)] at zero
  exact clean (List.mem_of_getElem? zero)

/-! ### Blocks -/

theorem str_size_ok {n : Nat} (positive : 0 < n) (small : n + 8 < 2^32) : atm_str_size n = n + (8 - n % 8) := by
  unfold atm_str_size ATM_WORDLEN
  rw [if_pos positive,u32_of_lt (by omega)]
  omega

theorem request_ok {n : Nat} (small : n + 9 < 2^32) : u32 (hdrlen + n + 1) = 9 + n := by
  rw [hdrlen,u32_of_lt (by omega)]
  omega

/-- The block made for a text of length `n` has room for it, its NUL and a few bytes more. -/
theorem block_ok {n : Nat} (short : n + 17 < 2^32) :
    ∃ spare, spare = 8 - (9 + n) % 8 ∧
      hdr_alloc (atm_str_size (u32 (hdrlen + n + 1))) = .ok (List.replicate (n + 1 + spare) 0) ∧
      sub32 (atm_str_size (u32 (hdrlen + n + 1))) (hdrlen + 1) = n + spare ∧ hdrlen + (n + spare) + 1 < 2^32 := by
  have size : atm_str_size (u32 (hdrlen + n + 1)) = 9 + n + (8 - (9 + n) % 8) := by
    rw [request_ok (by omega),str_size_ok (by omega) (by omega)]
  refine ⟨8 - (9 + n) % 8,rfl,?_,?_,by simp only [hdrlen]; omega⟩
  · rw [size,hdr_alloc,atm_alloc,u32_of_lt (by omega),hdrlen,if_pos (by omega)]
    congr 2
    omega
  · rw [size,hdrlen,sub32_of_le (by omega) (by omega)]
    omega

/-- For the longest texts the size wraps to 0, and the block has no room for its header. -/
theorem block_wraps {n : Nat} (long : 2^32 ≤ n + 17) (limit : n + 8 < 2^32) :
    hdr_alloc (atm_str_size (u32 (hdrlen + n + 1))) = .error .outOfBounds := by
  have size : atm_str_size (u32 (hdrlen + n + 1)) = 0 := by
    unfold atm_str_size ATM_WORDLEN u32 hdrlen
    by_cases full : n + 9 = 2^32
    · have request : (8 + n + 1) % 2^32 = 0 := by omega
      rw [request]
      rfl
    · have request : (8 + n + 1) % 2^32 = n + 9 := by omega
      rw [request,if_pos (by omega)]
      omega
  rw [size]
  rfl

/-- A fresh block after a text was copied to its start. -/
theorem fresh_text {content : List Byte} {n spare : Nat} (short : content.length ≤ n) :
    content ++ (List.replicate (n + 1 + spare) (0 : Byte)).drop content.length =
      content ++ 0 :: List.replicate (n - content.length + spare) 0 := by
  rw [List.drop_replicate,← List.replicate_succ]
  congr 2
  omega

/-- The string that `atm_str_new` makes of a text. -/
def fresh (str : List Byte) : Str := made str (List.replicate (8 - (9 + str.length) % 8) 0)

theorem new_fresh {str : List Byte} (clean : 0 ∉ str) (short : str.length + 17 < 2^32) :
    atm_str_new (some str) = .ok (some (fresh str)) ∧ HeaderOk (fresh str) := by
  obtain ⟨spare,room,alloc,cap,small⟩ := block_ok short
  have fill : (if 0 < str.length then memcpy (List.replicate (str.length + 1 + spare) 0) (c_string str) str.length
      else .ok (List.replicate (str.length + 1 + spare) 0)) = .ok (str ++ 0 :: List.replicate spare 0) := by
    have text : str ++ (List.replicate (str.length + 1 + spare) (0 : Byte)).drop str.length =
        str ++ 0 :: List.replicate (str.length - str.length + spare) 0 := fresh_text le_rfl
    rw [Nat.sub_self,Nat.zero_add] at text
    by_cases positive : 0 < str.length
    · rw [if_pos positive,memcpy_ok (by simp [c_string]) (by simp; omega),c_string,List.take_left,text]
    · have empty : str = [] := List.length_eq_zero_iff.mp (by omega)
      rw [if_neg positive,← text,empty]
      rfl
  rw [fresh,← room]
  refine ⟨?_,made_ok clean (by simpa using small)⟩
  simp only [atm_str_new,strlen_c_string clean,ok_bind,u32_of_lt (show str.length < 2^32 by omega),alloc,cap,fill]
  simp [made]

theorem new_ok {str : List Byte} (clean : 0 ∉ str) (short : str.length + 17 < 2^32) :
    ∃ rest, atm_str_new (some str) = .ok (some (made str rest)) ∧ HeaderOk (made str rest) ∧
      rest.length = 8 - (9 + str.length) % 8 := by
  obtain ⟨new,ok⟩ := new_fresh clean short
  exact ⟨_,new,ok,List.length_replicate⟩

theorem new_wraps {str : List Byte} (clean : 0 ∉ str) (long : 2^32 ≤ str.length + 17) (limit : str.length + 8 < 2^32) :
    atm_str_new (some str) = .error .outOfBounds := by
  simp only [atm_str_new,strlen_c_string clean,ok_bind,u32_of_lt (show str.length < 2^32 by omega),
    block_wraps long limit]
  rfl

theorem dup_ok {str : Str} (ok : HeaderOk str) : atm_str_dup (some str) = .ok (some str) := by
  have small := ok.small
  have block := ok.block
  simp only [hdrlen] at small
  have size : u32 (hdrlen + str.cap + 1) = 9 + str.cap := by
    rw [hdrlen,u32_of_lt (by omega)]
    omega
  have alloc : hdr_alloc (9 + str.cap) = .ok (List.replicate (str.cap + 1) 0) := by
    rw [hdr_alloc,atm_alloc,u32_of_lt (by omega),hdrlen,if_pos (by omega)]
    congr 2
    omega
  have length : 9 + str.cap - hdrlen = str.val.length := by
    rw [block,hdrlen]
    omega
  have copy : memcpy (List.replicate (str.cap + 1) 0) str.val str.val.length = .ok str.val := by
    rw [memcpy_ok le_rfl (by simp [block]),List.take_length,List.drop_eq_nil_of_le (by simp [block]),List.append_nil]
  simp only [atm_str_dup,size,alloc,ok_bind,length,copy]
  rfl

/-! ### Growing and appending -/

/-- The spare room of a string for an append; NULL gets a new block. -/
def Spare (dest : Option Str) (slen : Nat) : Prop :=
  match dest with
  | some d => slen ≤ d.cap - d.len
  | none => 0 < slen ∧ slen ≤ 7

theorem grow_block_spare {content rest : List Byte} {need : Nat} (ok : HeaderOk (made content rest))
    (room : need ≤ rest.length) :
    atm_str_grow_block (made content rest) need = .ok ⟨some (made content rest),true,[]⟩ := by
  have small := ok.small
  simp only [made,hdrlen] at small
  have avail : sub32 (made content rest).cap (made content rest).len = rest.length := by
    simp only [made]
    rw [sub32_of_le (by omega) (by omega)]
    omega
  rw [atm_str_grow_block,avail,if_neg (by omega)]

/-- Growing past the spare room moves the text to a larger block and adds `need` to `len`. -/
theorem grow_block_moves {content rest : List Byte} {need : Nat} (ok : HeaderOk (made content rest))
    (full : rest.length < need) (short : content.length + need + 17 < 2^32) :
    ∃ rest', need ≤ rest'.length ∧ atm_str_grow_block (made content rest) need =
      .ok ⟨some ⟨content.length + rest'.length,content.length + need,content ++ 0 :: rest'⟩,false,[made content rest]⟩ := by
  have small := ok.small
  simp only [made,hdrlen] at small
  have avail : sub32 (made content rest).cap (made content rest).len = rest.length := by
    simp only [made]
    rw [sub32_of_le (by omega) (by omega)]
    omega
  obtain ⟨spare,_,alloc,cap,_⟩ := block_ok short
  have newlen : u32 ((made content rest).len + need) = content.length + need := u32_of_lt (by simp only [made]; omega)
  have fill : memcpy (List.replicate (content.length + need + 1 + spare) 0) (made content rest).val
      (made content rest).len = .ok (content ++ 0 :: List.replicate (need + spare) 0) := by
    rw [memcpy_ok (by simp [made]) (by simp [made]; omega)]
    simp only [made,List.take_left]
    rw [fresh_text (by omega),Nat.add_sub_cancel_left]
  refine ⟨List.replicate (need + spare) 0,by simp,?_⟩
  rw [atm_str_grow_block,avail,if_pos (by omega)]
  simp only [newlen,alloc,cap,ok_bind,fill]
  simp [Nat.add_assoc]

theorem grow_block_wraps {content rest : List Byte} {need : Nat} (ok : HeaderOk (made content rest))
    (full : rest.length < need) (long : 2^32 ≤ content.length + need + 17) (limit : content.length + need + 8 < 2^32) :
    atm_str_grow_block (made content rest) need = .error .outOfBounds := by
  have small := ok.small
  simp only [made,hdrlen] at small
  have avail : sub32 (made content rest).cap (made content rest).len = rest.length := by
    simp only [made]
    rw [sub32_of_le (by omega) (by omega)]
    omega
  have newlen : u32 ((made content rest).len + need) = content.length + need := u32_of_lt (by simp only [made]; omega)
  rw [atm_str_grow_block,avail,if_pos (by omega)]
  simp only [newlen,block_wraps long limit]
  rfl

/-- Growing NULL grows a new empty string, whose block has seven spare bytes. -/
theorem grow_null {need : Nat} (positive : 0 < need) {s : Str} (new : atm_str_new (some []) = .ok (some s)) :
    atm_str_grow none need = atm_str_grow_block s need >>= fun res => .ok { res with same_block := false } := by
  unfold atm_str_grow
  rw [if_pos positive]
  dsimp only
  rw [new,ok_bind]
  rfl

theorem empty_new : ∃ rest, atm_str_new (some []) = .ok (some (made [] rest)) ∧ HeaderOk (made [] rest) ∧
    rest.length = 7 := by
  obtain ⟨rest,new,ok,room⟩ := new_ok (List.not_mem_nil (a := 0)) (by rw [List.length_nil]; omega)
  exact ⟨rest,new,ok,room⟩

/-- What `append` asks of its last argument: it writes `src` after the text of the block. -/
def Cats (cat : Appended → List Byte → Except Fault (List Byte)) (src : List Byte) : Prop :=
  ∀ res content rest, 0 ∉ content → src.length ≤ rest.length →
    cat res (content ++ 0 :: rest) = .ok (content ++ src ++ 0 :: rest.drop src.length)

theorem not_mem_append {content src : List Byte} (clean : 0 ∉ content) (cleanSrc : 0 ∉ src) : 0 ∉ content ++ src := by
  rw [List.mem_append]
  exact fun member => member.elim clean cleanSrc

variable {cat : Appended → List Byte → Except Fault (List Byte)} {content rest src : List Byte}

/-- An append to a string that has the room keeps the header. -/
theorem append_grown_ok (ok : HeaderOk (made content rest)) (clean : 0 ∉ content) (cleanSrc : 0 ∉ src)
    (room : src.length ≤ rest.length) (cats : Cats cat src) {res : Appended} (here : res.str = some (made content rest)) :
    append_grown src.length cat res = .ok { res with str := some (made (content ++ src) (rest.drop src.length)) } ∧
      HeaderOk (made (content ++ src) (rest.drop src.length)) := by
  have small := ok.small
  simp only [made,hdrlen] at small
  have total : (content ++ src).length + (rest.drop src.length).length = content.length + rest.length := by
    simp only [List.length_append,List.length_drop]
    omega
  have header : made (content ++ src) (rest.drop src.length) =
      ⟨content.length + rest.length,u32 (content.length + src.length),content ++ src ++ 0 :: rest.drop src.length⟩ := by
    rw [made,total,u32_of_lt (by omega),List.length_append]
  refine ⟨?_,made_ok (not_mem_append clean cleanSrc) (by rw [total,hdrlen]; exact small)⟩
  rw [append_grown,here]
  simp only [made,cats res content rest clean room,ok_bind,pure_eq_ok]
  rw [← header,made]

/-- An append to a string that was moved adds its bytes to `len` a second time. -/
theorem append_grown_breaks (clean : 0 ∉ content) (cleanSrc : 0 ∉ src) (positive : 0 < src.length)
    (short : content.length + src.length < 2^32) (room : src.length ≤ rest.length) (cats : Cats cat src) {cap : Nat}
    {res res' : Appended} (here : res.str = some ⟨cap,content.length + src.length,content ++ 0 :: rest⟩)
    (done : append_grown src.length cat res = .ok res') : ∃ str, res'.str = some str ∧ ¬ HeaderOk str := by
  rw [append_grown,here] at done
  simp only [cats res content rest clean room,ok_bind,pure_eq_ok,Except.ok.injEq] at done
  subst done
  refine ⟨_,rfl,fun ok => ?_⟩
  have first := ok.first
  simp only at first
  rw [idxOf_text (not_mem_append clean cleanSrc),List.length_append,u32] at first
  omega

/-- NULL or a string whose header is right. -/
def OptOk (str : Option Str) : Prop := ∀ s, str = some s → HeaderOk s

/-- The text that the header counts; NULL has none. -/
def str_text : Option Str → List Byte
  | none => []
  | some s => s.val.take s.len

theorem str_text_made (content rest : List Byte) : str_text (some (made content rest)) = content := List.take_left

/-- The string that an append finds to append to, when it has the room. -/
theorem grow_ok {dest : Option Str} (ok : OptOk dest) {need : Nat} (spare : Spare dest need) :
    ∃ rest res, HeaderOk (made (str_text dest) rest) ∧ 0 ∉ str_text dest ∧ need ≤ rest.length ∧
      atm_str_grow dest need = .ok res ∧ res.str = some (made (str_text dest) rest) := by
  cases dest with
  | some s =>
    obtain ⟨content,rest,clean,rfl,_⟩ := (ok s rfl).split
    have room : need ≤ rest.length := by simpa [Spare,made] using spare
    rw [str_text_made]
    refine ⟨rest,⟨some (made content rest),true,[]⟩,ok _ rfl,clean,room,?_,rfl⟩
    unfold atm_str_grow
    by_cases positive : 0 < need
    · rw [if_pos positive]
      exact grow_block_spare (ok _ rfl) room
    · rw [if_neg positive]
  | none =>
    obtain ⟨positive,room⟩ := spare
    obtain ⟨rest,new,okN,seven⟩ := empty_new
    refine ⟨rest,⟨some (made [] rest),false,[]⟩,okN,List.not_mem_nil,by omega,?_,rfl⟩
    rw [grow_null positive new,grow_block_spare okN (by omega)]
    rfl

/-- The string that an append finds to append to, when it has not. -/
theorem grow_moves {dest : Option Str} (ok : OptOk dest) {need : Nat} (full : ¬ Spare dest need) (positive : 0 < need)
    (limit : atm_str_len dest + need + 8 < 2^32) {res : Appended} (done : atm_str_grow dest need = .ok res) :
    ∃ content rest cap, 0 ∉ content ∧ need ≤ rest.length ∧ content.length + need < 2^32 ∧
      res.str = some ⟨cap,content.length + need,content ++ 0 :: rest⟩ := by
  have moved : ∀ {content rest : List Byte} {res : Appended}, HeaderOk (made content rest) → 0 ∉ content →
      rest.length < need → content.length + need + 8 < 2^32 →
      atm_str_grow_block (made content rest) need = .ok res →
      ∃ content rest cap, 0 ∉ content ∧ need ≤ rest.length ∧ content.length + need < 2^32 ∧
        res.str = some ⟨cap,content.length + need,content ++ 0 :: rest⟩ := by
    intro content rest res okM clean short below grown
    by_cases long : 2^32 ≤ content.length + need + 17
    · rw [grow_block_wraps okM short long below] at grown
      cases grown
    · obtain ⟨rest',room,same⟩ := grow_block_moves okM short (by omega)
      rw [same] at grown
      cases grown
      exact ⟨content,rest',_,clean,room,by omega,rfl⟩
  cases dest with
  | some s =>
    obtain ⟨content,rest,clean,rfl,_⟩ := (ok s rfl).split
    unfold atm_str_grow at done
    rw [if_pos positive] at done
    exact moved (ok _ rfl) clean (by simpa [Spare,made] using full) limit done
  | none =>
    obtain ⟨rest,new,okN,seven⟩ := empty_new
    have long : 7 < need := by
      by_contra short
      exact full ⟨positive,by omega⟩
    rw [grow_null positive new] at done
    obtain ⟨g,grown,same⟩ := bind_eq_ok.mp done
    cases same
    obtain ⟨content,rest',cap,clean,room,short,here⟩ :=
      moved okN List.not_mem_nil (by omega) (by simpa [atm_str_len] using limit) grown
    exact ⟨content,rest',cap,clean,room,short,here⟩

/-- An append that finds the room makes the text of both. -/
theorem append_text {dest : Option Str} (ok : OptOk dest) (cleanSrc : 0 ∉ src) (spare : Spare dest src.length)
    (cats : Cats cat src) : ∃ rest res, append dest src.length cat = .ok res ∧
      res.str = some (made (str_text dest ++ src) rest) ∧ HeaderOk (made (str_text dest ++ src) rest) := by
  obtain ⟨rest,res,okM,clean,room,grown,here⟩ := grow_ok ok spare
  obtain ⟨done,ok'⟩ := append_grown_ok okM clean cleanSrc room cats here
  exact ⟨_,_,by rw [append,grown,ok_bind,done],rfl,ok'⟩

theorem append_ok {dest : Option Str} (ok : OptOk dest) (cleanSrc : 0 ∉ src) (spare : Spare dest src.length)
    (cats : Cats cat src) : ∃ res, append dest src.length cat = .ok res ∧ OptOk res.str := by
  obtain ⟨rest,res,done,here,ok'⟩ := append_text ok cleanSrc spare cats
  refine ⟨res,done,fun s same => ?_⟩
  rw [here] at same
  cases same
  exact ok'

/-- An append that finds no spare room fails or leaves a wrong header. -/
theorem append_breaks {dest : Option Str} (ok : OptOk dest) (cleanSrc : 0 ∉ src) (full : ¬ Spare dest src.length)
    (limit : atm_str_len dest + src.length + 8 < 2^32) (cats : Cats cat src) {res : Appended}
    (done : append dest src.length cat = .ok res) : ¬ OptOk res.str := by
  obtain ⟨g,grown,done⟩ := bind_eq_ok.mp done
  by_cases positive : 0 < src.length
  · obtain ⟨content,rest,cap,clean,room,short,here⟩ := grow_moves ok full positive limit grown
    obtain ⟨str,same,bad⟩ := append_grown_breaks clean cleanSrc positive short room cats here done
    exact fun all => bad (all str same)
  · have null : dest = none := by
      cases dest with
      | none => rfl
      | some s => exact absurd (show src.length ≤ s.cap - s.len by omega) full
    unfold atm_str_grow at grown
    rw [if_neg positive,null] at grown
    cases grown
    cases done

theorem cats_c_string (cleanSrc : 0 ∉ src) : Cats (fun _ val => strcat val (c_string src)) src :=
  fun _ _ _ clean room => strcat_ok clean cleanSrc [] room

theorem cats_made (cleanSrc : 0 ∉ src) (more : List Byte) : Cats (fun _ val => strcat val (made src more).val) src :=
  fun _ _ _ clean room => strcat_ok clean cleanSrc more room

/-! ### Changes in place -/

/-- The first loop stops behind the longest prefix of bytes of the set, at the latest behind `l`. -/
theorem trim_start_stops (cset after l : List Byte) :
    ∀ before, trim_start (before ++ l ++ after) cset l.length before.length =
      .ok (before.length + (l.takeWhile (strchr cset)).length) := by
  induction l with
  | nil => intro before; rfl
  | cons c l ih =>
    intro before
    have here : (before ++ c :: l ++ after)[before.length]? = some c := by simp
    have next := ih (before ++ [c])
    rw [List.append_assoc before [c] l,List.singleton_append,List.length_append,List.length_singleton] at next
    rw [List.length_cons,trim_start,here]
    dsimp only
    by_cases skip : strchr cset c = true
    · rw [if_pos skip,next,List.takeWhile_cons_of_pos skip,List.length_cons]
      congr 1
      omega
    · rw [if_neg skip,List.takeWhile_cons_of_neg skip]
      rfl

/-- The second loop goes from the end of `l` down to its start. It does not look at the first byte of `l`, where
    the first loop stopped. -/
theorem trim_end_stops {cset : List Byte} (before l : List Byte) (first : ∀ c ∈ l.head?, strchr cset c = false) :
    ∀ after, trim_end (before ++ l ++ after) cset before.length (before.length + l.length) =
      .ok (before.length + (l.rdropWhile (strchr cset)).length) := by
  induction l using List.reverseRecOn with
  | nil =>
    intro after
    cases before with
    | nil => rfl
    | cons b before =>
      rw [List.length_cons,List.length_nil,Nat.add_zero,trim_end,if_neg (by omega)]
      rfl
  | append_singleton init c ih =>
    intro after
    rw [List.length_append,List.length_singleton,← Nat.add_assoc,trim_end]
    cases init with
    | nil =>
      have kept : strchr cset c = false := first c rfl
      rw [if_neg (by rw [List.length_nil]; omega),List.nil_append,List.rdropWhile_singleton,kept]
      rfl
    | cons b init =>
      have place : before.length + (b :: init).length = (before ++ b :: init).length := List.length_append.symm
      have here : (before ++ (b :: init ++ [c]) ++ after)[before.length + (b :: init).length]? = some c := by
        rw [place]
        simp
      rw [if_pos (by rw [List.length_cons]; omega),here]
      dsimp only
      by_cases skip : strchr cset c = true
      · have next := ih first (c :: after)
        have same : before ++ (b :: init) ++ c :: after = before ++ (b :: init ++ [c]) ++ after := by simp
        rw [same] at next
        rw [if_pos skip,next,List.rdropWhile_concat_pos _ _ _ skip]
      · rw [if_neg skip,List.rdropWhile_concat_neg _ _ _ skip,List.length_append,List.length_singleton,Nat.add_assoc]

/-- Trimming keeps the bytes between the two cursors and the block. -/
theorem trim_between (ok : HeaderOk (made content rest)) {cset : List Byte} {sp ep : Nat}
    (start : trim_start (content ++ 0 :: rest) cset content.length 0 = .ok sp) (spHigh : sp ≤ content.length)
    (stop : trim_end (content ++ 0 :: rest) cset sp content.length = .ok ep) (epHigh : ep ≤ content.length) :
    atm_str_trim (some (made content rest)) cset =
      .ok (some (made ((content.drop sp).take (ep - sp)) ((content ++ 0 :: rest).drop (ep - sp + 1)))) := by
  have small := ok.small
  simp only [made,hdrlen] at small
  have length : (content ++ 0 :: rest).length = content.length + rest.length + 1 := by simp; omega
  have inside : ep - sp ≤ (content.drop sp).length := by rw [List.length_drop]; omega
  have bytes : ((content ++ 0 :: rest).drop sp).take (ep - sp) = (content.drop sp).take (ep - sp) := by
    rw [List.drop_append_of_le_length (by omega),List.take_append_of_le_length inside]
  have move : (if sp ≠ 0 then memcpy (content ++ 0 :: rest) ((content ++ 0 :: rest).drop sp) (ep - sp)
      else .ok (content ++ 0 :: rest)) =
        .ok ((content.drop sp).take (ep - sp) ++ (content ++ 0 :: rest).drop (ep - sp)) := by
    by_cases moved : sp = 0
    · subst moved
      rw [if_neg (by omega),← bytes,List.drop_zero,List.take_append_drop]
    · rw [if_pos moved,memcpy_ok (by rw [List.length_drop]; omega) (by omega),bytes]
  have kept : ((content.drop sp).take (ep - sp)).length = ep - sp := List.length_take_of_le inside
  have stamp : write_bytes ((content.drop sp).take (ep - sp) ++ (content ++ 0 :: rest).drop (ep - sp)) (ep - sp) [0] =
      .ok ((content.drop sp).take (ep - sp) ++ 0 :: (content ++ 0 :: rest).drop (ep - sp + 1)) := by
    rw [write_bytes_ok (by rw [List.length_append,kept,List.length_drop,List.length_singleton]; omega)]
    have cut : (content ++ 0 :: rest).drop (ep - sp) =
        [(content ++ 0 :: rest)[ep - sp]] ++ (content ++ 0 :: rest).drop (ep - sp + 1) :=
      List.drop_eq_getElem_cons (by omega)
    have place : splice ((content.drop sp).take (ep - sp) ++ [(content ++ 0 :: rest)[ep - sp]] ++
        (content ++ 0 :: rest).drop (ep - sp + 1)) ((content.drop sp).take (ep - sp)).length [0] =
          (content.drop sp).take (ep - sp) ++ [0] ++ (content ++ 0 :: rest).drop (ep - sp + 1) := splice_append _ _ _ rfl
    rw [kept,List.append_assoc,← cut] at place
    rw [place]
    simp
  simp only [atm_str_trim,made,start,stop,ok_bind,move,stamp,pure_eq_ok]
  rw [u32_of_lt (by omega),kept,List.length_drop,length]
  congr 3
  omega

/-- The string after a call: its text trimmed, in the same block. -/
def trimmed (cset content rest : List Byte) : Str :=
  made (trim (strchr cset) content) ((content ++ 0 :: rest).drop ((trim (strchr cset) content).length + 1))

theorem trim_eq (ok : HeaderOk (made content rest)) (cset : List Byte) :
    atm_str_trim (some (made content rest)) cset = .ok (some (trimmed cset content rest)) := by
  obtain ⟨before,l,front,back⟩ : ∃ before l, content.takeWhile (strchr cset) = before ∧
    content.dropWhile (strchr cset) = l := ⟨_,_,rfl,rfl⟩
  have whole : content = before ++ l := by rw [← front,← back,List.takeWhile_append_dropWhile]
  have kept : trim (strchr cset) content = l.rdropWhile (strchr cset) := by rw [trim,back]
  have start : trim_start (content ++ 0 :: rest) cset content.length 0 = .ok before.length := by
    have stops := trim_start_stops cset (0 :: rest) content []
    rwa [List.nil_append,List.length_nil,Nat.zero_add,front] at stops
  have first : ∀ c ∈ l.head?, strchr cset c = false := by
    intro c member
    have head := List.head?_dropWhile_not (strchr cset) content
    rw [back,member] at head
    simpa using head
  have stop : trim_end (content ++ 0 :: rest) cset before.length content.length =
      .ok (before.length + (trim (strchr cset) content).length) := by
    rw [kept,whole,List.length_append]
    exact trim_end_stops before l first (0 :: rest)
  have cut : (content.drop before.length).take (trim (strchr cset) content).length = trim (strchr cset) content := by
    have left : content.drop before.length = l := by rw [whole,List.drop_left]
    rw [left,← back]
    exact (List.prefix_iff_eq_take.mp (trim_front_part _ content)).symm
  have short : (trim (strchr cset) content).length ≤ l.length := by
    rw [← back]
    exact (trim_front_part _ content).length_le
  have length : content.length = before.length + l.length := by rw [whole,List.length_append]
  rw [trim_between ok start (by omega) stop (by omega),Nat.add_sub_cancel_left,cut,trimmed]

theorem trim_ok {s : Str} (ok : HeaderOk s) (cset : List Byte) :
    ∃ s', atm_str_trim (some s) cset = .ok (some s') ∧ HeaderOk s' := by
  obtain ⟨content,rest,clean,rfl,small⟩ := ok.split
  have sub := trim_sublist (strchr cset) content
  have short := sub.length_le
  refine ⟨_,trim_eq ok cset,made_ok (fun zero => clean (sub.subset zero)) ?_⟩
  rw [List.length_drop,List.length_append,List.length_cons]
  omega

theorem map_case_ok {f : Byte → Byte} (keeps : ∀ c, f c = 0 → c = 0) {str : Option Str} (ok : OptOk str) :
    ∃ res, map_case f str = .ok res ∧ OptOk res := by
  cases str with
  | none => exact ⟨none,rfl,ok⟩
  | some s =>
    obtain ⟨content,rest,clean,rfl,small⟩ := (ok s rfl).split
    by_cases positive : content.length < 2^31
    · have fill : write_bytes (content ++ 0 :: rest) 0 (content.map f) = .ok (content.map f ++ 0 :: rest) := by
        rw [write_bytes_ok (by simp)]
        exact congrArg Except.ok (splice_append [] content (0 :: rest) (List.length_map f))
      have cleanMap : 0 ∉ content.map f := by
        rw [List.mem_map]
        rintro ⟨c,member,zero⟩
        exact clean (keeps c zero ▸ member)
      refine ⟨some (made (content.map f) rest),?_,fun s same => ?_⟩
      · simp only [map_case,made,positive,↓reduceIte,read_bytes_ok (show content.length ≤ (content ++ 0 :: rest).length by simp),
          ok_bind,List.take_left,fill,pure_eq_ok,List.length_map]
      · cases same
        exact made_ok cleanMap (by rw [List.length_map]; exact small)
    · refine ⟨some (made content rest),?_,ok⟩
      simp only [map_case,made,positive,↓reduceIte,read_bytes_ok (Nat.zero_le _),ok_bind,List.take_zero,List.map_nil,
        write_bytes_ok (show 0 + ([] : List Byte).length ≤ (content ++ 0 :: rest).length by simp),splice_nil,pure_eq_ok]

theorem lower_zero (c : Byte) : lower c = 0 → c = 0 := by
  intro zero
  unfold lower at zero
  by_cases capital : 65 ≤ c ∧ c ≤ 90
  · rw [if_pos capital] at zero
    have low : c.toNat ≤ 90 := capital.2
    have value : (c + 32).toNat = c.toNat + 32 := by
      rw [UInt8.toNat_add]
      exact Nat.mod_eq_of_lt (by simp; omega)
    rw [zero] at value
    simp at value
  · rw [if_neg capital] at zero
    exact zero

theorem upper_zero (c : Byte) : upper c = 0 → c = 0 := by
  intro zero
  unfold upper at zero
  by_cases small : 97 ≤ c ∧ c ≤ 122
  · rw [if_pos small] at zero
    have high : 97 ≤ c.toNat := small.1
    have value : (c - 32).toNat = c.toNat - 32 := by
      rw [UInt8.toNat_sub_of_le]
      · rfl
      · exact UInt8.le_iff_toNat_le.mpr (by simp; omega)
    rw [zero] at value
    simp at value
    omega
  · rw [if_neg small] at zero
    exact zero

/-! ### Runs -/

def AllOk (vars : Vars) : Prop := ∀ x, OptOk (vars x)

/-- The arguments of a call: C strings without NUL, of a total length below `2^32` less the header. -/
def Limited (vars : Vars) : Op → Prop
  | .new _ (some str) => 0 ∉ str ∧ str.length + hdrlen < 2^32
  | .cats x (some src) => 0 ∉ src ∧ atm_str_len (vars x) + src.length + hdrlen < 2^32
  | .cats_dup _ y (some src) => 0 ∉ src ∧ atm_str_len (vars y) + src.length + hdrlen < 2^32
  | .cat x y => atm_str_len (vars x) + atm_str_len (vars y) + hdrlen < 2^32
  | .cat_dup _ y z => atm_str_len (vars y) + atm_str_len (vars z) + hdrlen < 2^32
  | _ => True

/-- The call makes no string of nearly `2^32` bytes, appends only what fits the spare room, does not
    append a string to itself and does not trim NULL. -/
def Spared (vars : Vars) : Op → Prop
  | .new _ (some str) => str.length + 17 < 2^32
  | .cats x (some src) => Spare (vars x) src.length
  | .cats_dup _ y (some src) => Spare (vars y) src.length
  | .cat x y => ∀ s, vars y = some s → Spare (vars x) s.len ∧ (x = y → s.len = 0)
  | .cat_dup _ y z => ∀ s, vars z = some s → Spare (vars y) s.len
  | .trim x _ => vars x ≠ none
  | _ => True

theorem dup_opt {str : Option Str} (ok : OptOk str) : atm_str_dup str = .ok str := by
  cases str with
  | none => rfl
  | some s => exact dup_ok (ok s rfl)

/-- With arguments within the limits the four concatenations are one append. -/
theorem cats_eq {dest : Option Str} (clean : 0 ∉ src) (short : src.length < 2^32) :
    atm_str_cats dest (some src) = append dest src.length (fun _ val => strcat val (c_string src)) := by
  unfold atm_str_cats
  dsimp only
  rw [strlen_c_string clean,ok_bind,u32_of_lt short]

theorem cats_dup_eq {dest : Option Str} (ok : OptOk dest) (clean : 0 ∉ src) (short : src.length < 2^32) :
    atm_str_cats_dup dest (some src) = append dest src.length (fun _ val => strcat val (c_string src)) := by
  unfold atm_str_cats_dup
  rw [dup_opt ok,ok_bind]
  dsimp only
  rw [strlen_c_string clean,ok_bind,u32_of_lt short]

theorem cat_dup_eq {dest : Option Str} (ok : OptOk dest) (s : Str) :
    atm_str_cat_dup dest (some s) = append dest s.len (fun _ val => strcat val s.val) := by
  unfold atm_str_cat_dup
  rw [dup_opt ok,ok_bind]

theorem grow_block_same {s : Str} {need : Nat} {res : Appended} (done : atm_str_grow_block s need = .ok res) :
    res = ⟨some s,true,[]⟩ ∨ res.same_block = false := by
  unfold atm_str_grow_block at done
  by_cases full : sub32 s.cap s.len < need
  · simp only [full,↓reduceIte] at done
    obtain ⟨block,_,done⟩ := bind_eq_ok.mp done
    obtain ⟨val,_,done⟩ := bind_eq_ok.mp done
    cases done
    exact .inr rfl
  · simp only [full,↓reduceIte,Except.ok.injEq] at done
    exact .inl done.symm

/-- A string appended to itself: nothing happens to the empty one, and no other survives it. -/
theorem cat_self {s : Str} (ok : HeaderOk s) :
    (s.len = 0 → atm_str_cat (some s) (some s) true = .ok ⟨some s,true,[]⟩) ∧
      (s.len ≠ 0 → ∀ res, atm_str_cat (some s) (some s) true ≠ .ok res) := by
  obtain ⟨content,rest,clean,rfl,small⟩ := ok.split
  constructor
  · intro empty
    have nil : content = [] := List.length_eq_zero_iff.mp empty
    subst nil
    rfl
  · intro positive res done
    have some : content ≠ [] := fun nil => positive (by rw [nil]; rfl)
    obtain ⟨g,grown,done⟩ := bind_eq_ok.mp done
    unfold atm_str_grow at grown
    rw [if_pos (Nat.pos_of_ne_zero positive)] at grown
    unfold append_grown at done
    rcases grow_block_same grown with rfl | moved
    · obtain ⟨val,copied,_⟩ := bind_eq_ok.mp done
      simp only [↓reduceIte,made,strcat_self_fails clean some] at copied
      cases copied
    · cases here : g.str with
      | none => rw [here] at done; cases done
      | some h =>
        rw [here] at done
        obtain ⟨val,copied,_⟩ := bind_eq_ok.mp done
        simp only [↓reduceIte,moved,Bool.false_eq_true] at copied
        cases copied

theorem result_ok {vars : Vars} (ok : AllOk vars) {op : Op} (limited : Limited vars op) (spared : Spared vars op) :
    ∃ str, result vars op = .ok str ∧ OptOk str := by
  cases op with
  | new x str =>
    cases str with
    | none => exact ⟨none,rfl,fun s same => by cases same⟩
    | some str =>
      obtain ⟨rest,done,ok',_⟩ := new_ok limited.1 spared
      exact ⟨_,done,fun s same => by cases same; exact ok'⟩
  | dup x y => exact ⟨vars y,dup_opt (ok y),ok y⟩
  | cats x src =>
    cases src with
    | none => exact ⟨vars x,rfl,ok x⟩
    | some src =>
      obtain ⟨clean,short⟩ := limited
      obtain ⟨res,done,ok'⟩ := append_ok (ok x) clean spared (cats_c_string clean)
      exact ⟨res.str,by rw [result,cats_eq clean (by omega),done]; rfl,ok'⟩
  | cats_dup x y src =>
    cases src with
    | none => exact ⟨vars y,by simp only [result,atm_str_cats_dup,dup_opt (ok y)]; rfl,ok y⟩
    | some src =>
      obtain ⟨clean,short⟩ := limited
      obtain ⟨res,done,ok'⟩ := append_ok (ok y) clean spared (cats_c_string clean)
      exact ⟨res.str,by rw [result,cats_dup_eq (ok y) clean (by omega),done]; rfl,ok'⟩
  | cat x y =>
    cases there : vars y with
    | none => exact ⟨vars x,by rw [result,there]; rfl,ok x⟩
    | some s =>
      obtain ⟨spare,empty⟩ := spared s there
      by_cases same : x = y
      · subst same
        have done := (cat_self (ok x s there)).1 (empty rfl)
        exact ⟨some s,by simp only [result,there,decide_true,done]; rfl,there ▸ ok x⟩
      · obtain ⟨content,rest,clean,rfl,_⟩ := (ok y s there).split
        obtain ⟨res,done,ok'⟩ := append_ok (ok x) clean spare (cats_made clean rest)
        refine ⟨res.str,?_,ok'⟩
        simp only [result,there,same,decide_false,atm_str_cat,Bool.false_eq_true,↓reduceIte]
        rw [show (made content rest).len = content.length from rfl,done]
        rfl
  | cat_dup x y z =>
    cases there : vars z with
    | none => exact ⟨vars y,by simp only [result,there,atm_str_cat_dup,dup_opt (ok y)]; rfl,ok y⟩
    | some s =>
      obtain ⟨content,rest,clean,rfl,_⟩ := (ok z s there).split
      obtain ⟨res,done,ok'⟩ := append_ok (ok y) clean (spared _ there) (cats_made clean rest)
      refine ⟨res.str,?_,ok'⟩
      rw [result,there,cat_dup_eq (ok y),show (made content rest).len = content.length from rfl,done]
      rfl
  | trim x cset =>
    obtain ⟨s,same⟩ := Option.ne_none_iff_exists'.mp spared
    obtain ⟨s',done,ok'⟩ := trim_ok (ok x s same) cset
    exact ⟨some s',by rw [result,same,done],fun s same => by cases same; exact ok'⟩
  | tolower x => exact map_case_ok lower_zero (ok x)
  | toupper x => exact map_case_ok upper_zero (ok x)

/-- A call that is not spared fails or makes a string with a wrong header. -/
theorem result_breaks {vars : Vars} (ok : AllOk vars) {op : Op} (limited : Limited vars op) (unspared : ¬ Spared vars op)
    {str : Option Str} (done : result vars op = .ok str) : ¬ OptOk str := by
  have mapped : ∀ {c : Except Fault Appended} {str : Option Str}, Appended.str <$> c = .ok str →
      ∃ res, c = .ok res ∧ res.str = str := by
    intro c str same
    cases c with
    | error e => cases same
    | ok res => exact ⟨res,rfl,Except.ok.inj same⟩
  cases op with
  | new x str =>
    cases str with
    | none => exact absurd trivial unspared
    | some str =>
      obtain ⟨clean,short⟩ := limited
      have wraps := new_wraps clean (by simpa [Spared] using unspared) short
      rw [result,wraps] at done
      cases done
  | dup x y => exact absurd trivial unspared
  | cats x src =>
    cases src with
    | none => exact absurd trivial unspared
    | some src =>
      obtain ⟨clean,short⟩ := limited
      obtain ⟨res,appended,rfl⟩ := mapped done
      rw [cats_eq clean (by omega)] at appended
      exact append_breaks (ok x) clean unspared short (cats_c_string clean) appended
  | cats_dup x y src =>
    cases src with
    | none => exact absurd trivial unspared
    | some src =>
      obtain ⟨clean,short⟩ := limited
      obtain ⟨res,appended,rfl⟩ := mapped done
      rw [cats_dup_eq (ok y) clean (by omega)] at appended
      exact append_breaks (ok y) clean unspared short (cats_c_string clean) appended
  | cat x y =>
    simp only [Spared,not_forall] at unspared
    obtain ⟨s,there,unspared⟩ := unspared
    obtain ⟨res,appended,rfl⟩ := mapped done
    simp only [Limited,there] at limited
    by_cases same : x = y
    · subst same
      simp only [there,decide_true] at appended
      by_cases empty : s.len = 0
      · exact absurd ⟨by rw [there,empty]; exact Nat.zero_le _,fun _ => empty⟩ unspared
      · exact absurd appended ((cat_self (ok x s there)).2 empty res)
    · obtain ⟨content,rest,clean,rfl,_⟩ := (ok y s there).split
      have full : ¬ Spare (vars x) content.length := fun spare => unspared ⟨spare,fun equal => absurd equal same⟩
      simp only [there,same,decide_false,atm_str_cat,Bool.false_eq_true,↓reduceIte] at appended
      exact append_breaks (ok x) clean full limited (cats_made clean rest) appended
  | cat_dup x y z =>
    simp only [Spared,not_forall] at unspared
    obtain ⟨s,there,full⟩ := unspared
    obtain ⟨res,appended,rfl⟩ := mapped done
    simp only [Limited,there] at limited
    obtain ⟨content,rest,clean,rfl,_⟩ := (ok z s there).split
    rw [there,cat_dup_eq (ok y)] at appended
    exact append_breaks (ok y) clean full limited (cats_made clean rest) appended
  | trim x cset =>
    have null : vars x = none := not_not.mp unspared
    rw [result,null] at done
    cases done
  | tolower x => exact absurd trivial unspared
  | toupper x => exact absurd trivial unspared

theorem all_ok_update {vars : Vars} (ok : AllOk vars) {str : Option Str} (okStr : OptOk str) (x : Nat) :
    AllOk (Function.update vars x str) := by
  intro y
  by_cases same : y = x
  · subst same
    rw [Function.update_self]
    exact okStr
  · rw [Function.update_of_ne same]
    exact ok y

/-- Within the limits, all calls of a run stay inside their blocks and every string has a right header
    after each of them exactly when all calls are spared. -/
theorem headers_iff_spared {ops : List Op} (limited : EachStep step no_strings ops Limited) :
    ((∃ vars, run step no_strings ops = .ok vars) ∧ Always step no_strings ops (fun _ => AllOk)) ↔
      EachStep step no_strings ops Spared := by
  refine returns_iff_eachStep (fun x s same => by cases same) ?_ ?_ limited
  · intro vars op ok limited spared
    obtain ⟨str,done,okStr⟩ := result_ok ok limited spared
    exact ⟨_,by rw [step,done]; rfl,all_ok_update ok okStr op.target⟩
  · intro vars op vars' ok limited unspared done all
    obtain ⟨str,made,same⟩ := bind_eq_ok.mp done
    cases same
    have wrong := result_breaks ok limited unspared made
    have right := all op.target
    rw [Function.update_self] at right
    exact wrong right

/-- What the calls of a run are given is found out from the variables. -/
instance spareDecidable : (dest : Option Str) → (slen : Nat) → Decidable (Spare dest slen)
  | some _, _ => inferInstanceAs (Decidable (_ ≤ _))
  | none, _ => inferInstanceAs (Decidable (_ ∧ _))

instance limitedDecidable (vars : Vars) : (op : Op) → Decidable (Limited vars op)
  | .new _ (some _) => inferInstanceAs (Decidable (_ ∧ _))
  | .cats _ (some _) => inferInstanceAs (Decidable (_ ∧ _))
  | .cats_dup _ _ (some _) => inferInstanceAs (Decidable (_ ∧ _))
  | .cat _ _ => inferInstanceAs (Decidable (_ < _))
  | .cat_dup _ _ _ => inferInstanceAs (Decidable (_ < _))
  | .new _ none | .cats _ none | .cats_dup _ _ none | .dup _ _ | .trim _ _ | .tolower _ | .toupper _ => .isTrue trivial

instance sparedDecidable (vars : Vars) : (op : Op) → Decidable (Spared vars op)
  | .new _ (some _) => inferInstanceAs (Decidable (_ < _))
  | .cats x (some src) => spareDecidable (vars x) src.length
  | .cats_dup _ y (some src) => spareDecidable (vars y) src.length
  | .cat x y => inferInstanceAs (Decidable (∀ s ∈ vars y, Spare (vars x) s.len ∧ (x = y → s.len = 0)))
  | .cat_dup _ y z => inferInstanceAs (Decidable (∀ s ∈ vars z, Spare (vars y) s.len))
  | .trim x _ => inferInstanceAs (Decidable (vars x ≠ none))
  | .new _ none | .cats _ none | .cats_dup _ _ none | .dup _ _ | .tolower _ | .toupper _ => .isTrue trivial

/-- "a" takes "12" in its block, and NULL a blank; "3" goes to a copy, and the blank behind the text, which is trimmed. -/
def words : List Op :=
  [.new 0 (some [97]),.cats 0 (some [49,50]),.cats 1 (some [32]),.cats_dup 2 0 (some [51]),.cat 0 1,.cat_dup 3 2 1,
    .trim 0 [32],.toupper 3]

theorem headers_iff_spared_words : (((∃ vars, run step no_strings words = .ok vars) ∧
    Always step no_strings words (fun _ => AllOk)) ↔ EachStep step no_strings words Spared) ∧
      EachStep step no_strings words Spared :=
  ⟨headers_iff_spared (by decide +kernel),by decide +kernel⟩

/-- "a" has seven bytes of room, six of them spare: appending "1234567" moves it and counts them twice. -/
theorem cats_counts_twice : ∃ vars s, run step no_strings
      [.new 0 (some [97]),.cats 0 (some [49,50,51,52,53,54,55])] = .ok vars ∧ vars 0 = some s ∧
    s.len = 15 ∧ s.val.idxOf 0 = 8 ∧ ¬ HeaderOk s := by
  have ran : (run step no_strings [.new 0 (some [97]),.cats 0 (some [49,50,51,52,53,54,55])] >>= fun vars =>
      .ok (vars 0)) = .ok (some ⟨15,15,[97,49,50,51,52,53,54,55,0,0,0,0,0,0,0,0]⟩) := by decide +kernel
  obtain ⟨vars,executed,same⟩ := bind_eq_ok.mp ran
  refine ⟨vars,_,executed,Except.ok.inj same,rfl,by decide,fun ok => ?_⟩
  have first := ok.first
  revert first
  decide

end AtmCache.Strings
