import AtmCache.StrHeader

/-!
# The content of a concatenation

All four concatenations find the text of the destination in a block, its own or a new one,
and write the source after it; `len` plays no part in that, so that the text is right also
where the header is not. What can go wrong is the block: NULL with an empty source gets
none, and sizes of nearly `2^32` bytes wrap. The dup variants append to a copy, in a block of
their own, and so have no access to the block of the destination.
-/
namespace AtmCache.Strings
open CStrings Runs

/-- A header whose `len` is the length of the text, in a block of `cap + 1` bytes. -/
structure HeaderGood (s : Str) : Prop where
  block : s.val.length = s.cap + 1
  cap32 : s.cap < 2^32
  bound : s.len ≤ s.cap
  first : s.val.idxOf 0 = s.len

/-- NULL or a string with such a header. -/
def OptGood (d : Option Str) : Prop := ∀ h, d = some h → HeaderGood h

/-- The string holds a text, as C reads it. -/
def Reads (str : Option Str) (t : List Byte) : Prop := ∃ h, str = some h ∧ 0 ∈ h.val ∧ text 0 h.val = t

/-- The destination is released exactly when another block is returned. -/
def Releases (d : Option Str) (r : Appended) : Prop := ∀ h, d = some h → r.freed = if r.same_block then [] else [h]

/-- Each concatenation returns a string with the texts of both. -/
structure Agree (d : Option Str) (s : List Byte) : Prop where
  cats : ∃ r, atm_str_cats d (some s) = .ok r ∧ Reads r.str (str_text d ++ s) ∧ Releases d r
  cats_dup : ∃ r, atm_str_cats_dup d (some s) = .ok r ∧ Reads r.str (str_text d ++ s)
  cat : ∃ t r, atm_str_new (some s) = .ok t ∧ atm_str_cat d t false = .ok r ∧ Reads r.str (str_text d ++ s) ∧
    Releases d r
  cat_dup : ∃ t r, atm_str_new (some s) = .ok t ∧ atm_str_cat_dup d t = .ok r ∧ Reads r.str (str_text d ++ s)

/-- There is a block for the destination with `k` more bytes. -/
def BlockFits (d : Option Str) (k : Nat) : Prop :=
  match d with
  | none => 0 < k ∧ k + 17 < 2^32
  | some h => k ≤ h.cap - h.len ∨ h.len + k + 17 < 2^32

/-- The new string of the source and the copy of the destination have blocks too. -/
def CopiesFit (d : Option Str) (k : Nat) : Prop := k + 17 < 2^32 ∧ ∀ h, d = some h → h.cap + 9 < 2^32

/-! ### With enough room -/

theorem reads_made {content rest : List Byte} {cap len : Nat} (clean : 0 ∉ content) :
    Reads (some ⟨cap,len,content ++ 0 :: rest⟩) content := ⟨_,rfl,by simp,text_append clean rest⟩

theorem HeaderGood.ok {h : Str} (good : HeaderGood h) (small : h.cap + 9 < 2^32) : HeaderOk h :=
  ⟨good.block,by simp only [hdrlen]; omega,good.bound,good.first⟩

variable {d : Option Str} {src : List Byte} {cat : Appended → List Byte → Except Fault (List Byte)}

/-- Growing a destination that fits leaves its text in a block with the room asked for. -/
theorem grow_room (ok : OptOk d) {need : Nat} (fits : BlockFits d need) :
    ∃ rest cap len r, atm_str_grow d need = .ok r ∧ r.str = some ⟨cap,len,str_text d ++ 0 :: rest⟩ ∧
      need ≤ rest.length ∧ 0 ∉ str_text d ∧ Releases d r := by
  cases d with
  | none =>
    obtain ⟨positive,short⟩ := fits
    obtain ⟨rest,new,okN,seven⟩ := empty_new
    rw [grow_null positive new]
    by_cases room : need ≤ rest.length
    · rw [grow_block_spare okN room,ok_bind]
      exact ⟨rest,_,_,_,rfl,rfl,room,List.not_mem_nil,fun h same => by cases same⟩
    · have full : rest.length < need := by omega
      obtain ⟨rest',room',moved⟩ := grow_block_moves okN full (by rw [List.length_nil]; omega)
      rw [moved,ok_bind]
      exact ⟨rest',_,_,_,rfl,rfl,room',List.not_mem_nil,fun h same => by cases same⟩
  | some h =>
    obtain ⟨content,rest,clean,rfl,_⟩ := (ok h rfl).split
    rw [str_text_made]
    unfold atm_str_grow
    by_cases positive : 0 < need
    · rw [if_pos positive]
      dsimp only
      by_cases room : need ≤ rest.length
      · rw [grow_block_spare (ok _ rfl) room]
        exact ⟨rest,_,_,_,rfl,rfl,room,clean,fun h same => by cases same; rfl⟩
      · have short : content.length + need + 17 < 2^32 := by
          rcases fits with spare | short
          · simp only [made] at spare
            omega
          · exact short
        obtain ⟨rest',room',moved⟩ := grow_block_moves (ok _ rfl) (by omega) short
        rw [moved]
        exact ⟨rest',_,_,_,rfl,rfl,room',clean,fun h same => by cases same; rfl⟩
    · rw [if_neg positive]
      exact ⟨rest,_,_,_,rfl,rfl,by omega,clean,fun h same => by cases same; rfl⟩

theorem append_room (ok : OptOk d) (clean : 0 ∉ src) (fits : BlockFits d src.length) (cats : Cats cat src) :
    ∃ r, append d src.length cat = .ok r ∧ Reads r.str (str_text d ++ src) ∧ Releases d r := by
  obtain ⟨rest,cap,len,r,grown,here,room,cleanD,releases⟩ := grow_room ok fits
  have wrote := cats r (str_text d) rest cleanD room
  refine ⟨{ r with str := some ⟨cap,u32 (len + src.length),str_text d ++ src ++ 0 :: rest.drop src.length⟩ },?_,
    reads_made (not_mem_append cleanD clean),releases⟩
  rw [append,grown,ok_bind,append_grown,here]
  simp only [wrote,ok_bind,pure_eq_ok]

/-- Where there are blocks for everything the four concatenations agree. -/
theorem agree_of_room (good : OptGood d) (clean : 0 ∉ src) (fits : BlockFits d src.length)
    (copies : CopiesFit d src.length) : Agree d src := by
  have ok : OptOk d := fun h same => (good h same).ok (copies.2 h same)
  have short := copies.1
  obtain ⟨r,done,reads,releases⟩ := append_room ok clean fits (cats_c_string clean)
  obtain ⟨rest,new,_,_⟩ := new_ok clean short
  obtain ⟨r',done',reads',releases'⟩ := append_room ok clean fits (cats_made clean rest)
  refine ⟨⟨r,by rw [cats_eq clean (by omega),done],reads,releases⟩,
    ⟨r,by rw [cats_dup_eq ok clean (by omega),done],reads⟩,⟨_,r',new,?_,reads',releases'⟩,⟨_,r',new,?_,reads'⟩⟩
  · simp only [atm_str_cat,Bool.false_eq_true,↓reduceIte]
    exact done'
  · rw [cat_dup_eq ok]
    exact done'

/-! ### Without it -/

theorem write_bytes_length {block data val : List Byte} {i : Nat} (wrote : write_bytes block i data = .ok val) :
    i + data.length ≤ block.length ∧ val.length = block.length := by
  unfold write_bytes at wrote
  by_cases inside : i + data.length ≤ block.length
  · rw [if_pos inside] at wrote
    cases wrote
    exact ⟨inside,splice_length inside⟩
  · rw [if_neg inside] at wrote
    cases wrote

theorem memcpy_length {dest src val : List Byte} {n : Nat} (copied : memcpy dest src n = .ok val) :
    n ≤ src.length ∧ n ≤ dest.length ∧ val.length = dest.length := by
  obtain ⟨bytes,read,wrote⟩ := bind_eq_ok.mp copied
  unfold read_bytes at read
  by_cases inside : n ≤ src.length
  · rw [if_pos inside] at read
    cases read
    obtain ⟨room,length⟩ := write_bytes_length wrote
    rw [List.length_take] at room
    exact ⟨inside,by omega,length⟩
  · rw [if_neg inside] at read
    cases read

theorem hdr_alloc_length {size : Nat} {val : List Byte} (made : hdr_alloc size = .ok val) :
    val.length + hdrlen = u32 size := by
  unfold hdr_alloc at made
  by_cases room : hdrlen ≤ atm_alloc size
  · rw [if_pos room] at made
    cases made
    rw [List.length_replicate,Nat.sub_add_cancel room,atm_alloc]
  · rw [if_neg room] at made
    cases made

theorem strcat_length {dest src val : List Byte} (done : strcat dest src = .ok val) :
    0 ∈ dest ∧ val.length = dest.length := by
  obtain ⟨i,found,rest⟩ := bind_eq_ok.mp done
  obtain ⟨n,_,wrote⟩ := bind_eq_ok.mp rest
  unfold strlen at found
  by_cases ended : 0 ∈ dest
  · exact ⟨ended,(write_bytes_length wrote).2⟩
  · rw [if_neg ended] at found
    cases found

theorem text_length {val : List Byte} (ended : 0 ∈ val) : (text 0 val).length < val.length := by
  rw [text,List.length_take]
  have := List.idxOf_lt_length_iff.mpr ended
  omega

/-- Sizes of blocks are multiples of eight. -/
theorem str_size_le (n : Nat) : atm_str_size n + 8 ≤ 2^32 := by
  unfold atm_str_size ATM_WORDLEN u32
  split <;> omega

/-- The block that holds a concatenation was grown to it. -/
theorem append_block {n : Nat} {src t : List Byte} {r : Appended}
    (done : append d n (fun _ val => strcat val src) = .ok r) (reads : Reads r.str t) :
    ∃ g h, atm_str_grow d n = .ok g ∧ g.str = some h ∧ 0 ∈ h.val ∧ t.length < h.val.length := by
  obtain ⟨g,grown,after⟩ := bind_eq_ok.mp done
  unfold append_grown at after
  cases here : g.str with
  | none =>
    rw [here] at after
    cases after
  | some h =>
    rw [here] at after
    obtain ⟨val,wrote,same⟩ := bind_eq_ok.mp after
    cases same
    obtain ⟨h',same,ended,rfl⟩ := reads
    cases same
    obtain ⟨found,length⟩ := strcat_length wrote
    exact ⟨g,h,grown,here,found,length ▸ text_length ended⟩

/-- A string grown for a length reduced to 32 bits has the room for the length when it is in its
    own block or the sum is below `2^32`. -/
theorem grow_block_room {content rest : List Byte} {k : Nat} (ok : HeaderOk (made content rest)) {g : Appended} {h : Str}
    (grown : atm_str_grow_block (made content rest) (u32 k) = .ok g) (here : g.str = some h)
    (room : content.length + k < h.val.length) : k ≤ rest.length ∨ content.length + k + 17 < 2^32 := by
  by_cases spare : u32 k ≤ rest.length
  · rw [grow_block_spare ok spare] at grown
    cases grown
    cases here
    simp only [made,List.length_append,List.length_cons] at room
    exact .inl (by omega)
  · by_cases short : content.length + k + 17 < 2^32
    · exact .inr short
    · have whole := grown
      unfold atm_str_grow_block at grown
      have avail : sub32 (made content rest).cap (made content rest).len < u32 k := by
        have small := ok.small
        simp only [made,hdrlen] at small ⊢
        rw [sub32_of_le (by omega) (by omega)]
        omega
      rw [if_pos avail] at grown
      obtain ⟨val,alloc,grown⟩ := bind_eq_ok.mp grown
      obtain ⟨val',copied,same⟩ := bind_eq_ok.mp grown
      cases same
      rw [← Option.some.inj here] at room
      dsimp only at room
      have size := hdr_alloc_length alloc
      have length := (memcpy_length copied).2.2
      have most := str_size_le (u32 (hdrlen + u32 ((made content rest).len + u32 k) + 1))
      have below : u32 (atm_str_size (u32 (hdrlen + u32 ((made content rest).len + u32 k) + 1))) + 8 ≤ 2^32 := by
        rw [u32_of_lt (by omega)]
        exact most
      have eight : hdrlen = 8 := rfl
      have exact : u32 k = k := u32_of_lt (by omega)
      rw [exact] at whole spare
      rw [grow_block_wraps ok (by omega) (by omega) (by omega)] at whole
      cases whole

/-- A destination with the room for a concatenation. -/
theorem fits_of_append (good : OptOk d) {k : Nat} {src t : List Byte} {r : Appended}
    (done : append d (u32 k) (fun _ val => strcat val src) = .ok r) (reads : Reads r.str t)
    (length : t.length = (str_text d).length + k) : BlockFits d k := by
  obtain ⟨g,h,grown,here,ended,room⟩ := append_block done reads
  unfold atm_str_grow at grown
  cases d with
  | none =>
    by_cases positive : 0 < u32 k
    · obtain ⟨rest,new,okN,seven⟩ := empty_new
      have some : atm_str_grow none (u32 k) = .ok g := grown
      rw [grow_null positive new] at some
      obtain ⟨g',grown',same⟩ := bind_eq_ok.mp some
      cases same
      have nonzero : 0 < k := Nat.pos_of_ne_zero (fun zero => by simp [zero,u32] at positive)
      simp only [str_text,List.length_nil] at length
      rcases grow_block_room okN grown' here (by rw [List.length_nil]; omega) with spare | short
      · exact ⟨nonzero,by omega⟩
      · rw [List.length_nil] at short
        exact ⟨nonzero,by omega⟩
    · rw [if_neg positive] at grown
      cases grown
      cases here
  | some s =>
    obtain ⟨content,rest,clean,rfl,_⟩ := (good s rfl).split
    rw [str_text_made] at length
    by_cases positive : 0 < u32 k
    · rw [if_pos positive] at grown
      rcases grow_block_room (good _ rfl) grown here (by omega) with spare | short
      · refine .inl ?_
        simp only [made]
        omega
      · exact .inr short
    · rw [if_neg positive] at grown
      cases grown
      cases here
      refine .inl ?_
      simp only [made,List.length_append,List.length_cons] at room ⊢
      omega

/-- A new string is made of texts that leave room for the header in `2^32` bytes. -/
theorem new_returns {str : List Byte} (clean : 0 ∉ str) (below : str.length < 2^32) {t : Option Str}
    (done : atm_str_new (some str) = .ok t) : str.length + 17 < 2^32 := by
  by_cases limit : str.length + 8 < 2^32
  · by_contra long
    rw [new_wraps clean (by omega) limit] at done
    cases done
  · have size : atm_str_size (u32 (hdrlen + str.length + 1)) ≤ 16 := by
      have request : u32 (hdrlen + str.length + 1) ≤ 8 := by
        unfold u32 hdrlen
        omega
      generalize u32 (hdrlen + str.length + 1) = n at request ⊢
      unfold atm_str_size ATM_WORDLEN u32
      split <;> omega
    unfold atm_str_new at done
    dsimp only at done
    rw [strlen_c_string clean,ok_bind,u32_of_lt below] at done
    obtain ⟨val,alloc,done⟩ := bind_eq_ok.mp done
    obtain ⟨val',copied,_⟩ := bind_eq_ok.mp done
    rw [if_pos (by omega)] at copied
    have room := (memcpy_length copied).2.1
    have length := hdr_alloc_length alloc
    rw [u32_of_lt (by omega)] at length
    have eight : hdrlen = 8 := rfl
    omega

/-- A copy of a string whose size wraps has no bytes, and nothing can be appended to it. -/
theorem dup_returns {h : Str} (good : HeaderGood h) {n : Nat} {src t : List Byte} {dup : Option Str} {r : Appended}
    (copied : atm_str_dup (some h) = .ok dup) (done : append dup (u32 n) (fun _ val => strcat val src) = .ok r)
    (reads : Reads r.str t) : h.cap + 9 < 2^32 := by
  by_contra long
  have small := good.cap32
  have eight : hdrlen = 8 := rfl
  have request : u32 (hdrlen + h.cap + 1) + 2^32 = h.cap + 9 := by
    unfold u32 hdrlen
    omega
  obtain ⟨val,alloc,rest⟩ := bind_eq_ok.mp copied
  obtain ⟨val',moved,same⟩ := bind_eq_ok.mp rest
  cases same
  have none : val' = [] := by
    have size := hdr_alloc_length alloc
    rw [u32_of_lt (by omega)] at size
    rw [← List.length_eq_zero_iff,(memcpy_length moved).2.2]
    omega
  obtain ⟨g,s,grown,here,ended,_⟩ := append_block done reads
  have kept : g.str = some ⟨h.cap,h.len,val'⟩ → False := by
    intro same
    cases here.symm.trans same
    rw [none] at ended
    exact List.not_mem_nil ended
  unfold atm_str_grow at grown
  by_cases positive : 0 < u32 n
  · rw [if_pos positive] at grown
    dsimp only at grown
    unfold atm_str_grow_block at grown
    by_cases full : sub32 h.cap h.len < u32 n
    · rw [if_pos full] at grown
      obtain ⟨_,_,grown⟩ := bind_eq_ok.mp grown
      obtain ⟨_,emptied,_⟩ := bind_eq_ok.mp grown
      have zero := (memcpy_length emptied).1
      have bound := good.bound
      have most : u32 n < 2^32 := Nat.mod_lt _ (by omega)
      rw [none] at zero
      simp only [List.length_nil] at zero
      rw [sub32_of_le bound small] at full
      have size := hdr_alloc_length alloc
      rw [u32_of_lt (by omega)] at size
      omega
    · rw [if_neg full] at grown
      cases grown
      exact kept rfl
  · rw [if_neg positive] at grown
    cases grown
    exact kept rfl

/-- The four concatenations agree exactly when there are blocks for them. -/
theorem concats_agree_iff {d : Option Str} {src : List Byte} (good : OptGood d) (clean : 0 ∉ src) :
    Agree d src ↔ BlockFits d src.length ∧ CopiesFit d src.length := by
  refine ⟨fun agree => ?_,fun room => agree_of_room good clean room.1 room.2⟩
  obtain ⟨⟨r,cats,reads,_⟩,⟨r',dups,reads'⟩,⟨t,_,new,_⟩,_⟩ := agree
  have caps : ∀ h, d = some h → h.cap + 9 < 2^32 := by
    rintro h rfl
    obtain ⟨dup,copied,rest⟩ := bind_eq_ok.mp dups
    dsimp only at rest
    rw [strlen_c_string clean,ok_bind] at rest
    exact dup_returns (good h rfl) copied rest reads'
  have ok : OptOk d := fun h same => (good h same).ok (caps h same)
  unfold atm_str_cats at cats
  dsimp only at cats
  rw [strlen_c_string clean,ok_bind] at cats
  have fits := fits_of_append ok cats reads List.length_append
  have below : src.length < 2^32 := by
    cases d with
    | none =>
      obtain ⟨_,short⟩ := fits
      omega
    | some h =>
      have small := (good h rfl).cap32
      rcases fits with spare | short <;> omega
  exact ⟨fits,new_returns clean below new,caps⟩

/-- To "a" in a block of eight bytes, six bytes are appended in place and nine in another block. -/
theorem concats_agree_iff_short : Agree (some (made [97] [0,0,0,0,0,0])) [49,50,51,52,53,54] ∧
    Agree (some (made [97] [0,0,0,0,0,0])) [49,50,51,52,53,54,55,56,57] ∧ Agree none [97] := by
  have good : OptGood (some (made [97] [0,0,0,0,0,0])) := by
    intro h same
    cases same
    exact ⟨rfl,by decide,by decide,rfl⟩
  refine ⟨(concats_agree_iff good (by decide)).mpr ⟨.inl (by decide),by decide,?_⟩,
    (concats_agree_iff good (by decide)).mpr ⟨.inr (by decide),by decide,?_⟩,
    (concats_agree_iff (fun h same => by cases same) (by decide)).mpr ⟨⟨by decide,by decide⟩,by decide,fun h same => by cases same⟩⟩
  all_goals
    rintro h same
    cases same
    decide

/-- Nothing is appended to NULL. -/
theorem null_with_nothing : ¬ Agree none [] := by
  rintro ⟨⟨r,done,_⟩,_⟩
  have fails : atm_str_cats none (some []) = .error .nullDeref := rfl
  rw [fails] at done
  cases done

end AtmCache.Strings
