import AtmCache.StrHeader

/-!
# What trimming leaves of a string

After `atm_str_trim` a string is its text without the longest prefix and the longest suffix of
bytes of the set, in the block it had. The NUL is a member of every set for `strchr`, but no
byte of a text (`strchr_text`). Trimming again finds nothing to do (`trimmed_again`).
-/
namespace AtmCache.Strings
open CStrings Trims
variable {content rest cset : List Byte}

theorem strchr_text (clean : 0 ∉ content) : ∀ c ∈ content, strchr cset c = cset.contains c := by
  intro c member
  have nonzero : c ≠ 0 := fun zero => clean (zero ▸ member)
  simp only [strchr,nonzero,decide_false,Bool.false_or]

/-- Trimming the text that trimming has left changes nothing. -/
theorem trimmed_again (ok : HeaderOk (trimmed cset content rest)) :
    atm_str_trim (some (trimmed cset content rest)) cset = .ok (some (trimmed cset content rest)) := by
  unfold trimmed at ok ⊢
  rw [trim_eq ok,trimmed,trim_trim]
  have tail : ∀ m more : List Byte, (m ++ 0 :: more).drop (m.length + 1) = more := by
    intro m more
    rw [List.append_cons,List.drop_left' (by simp)]
  rw [tail]

/-- Trimming a well-formed string stays in its block, leaves its text without the longest prefix and the
    longest suffix in the set, with the right header, and does nothing the second time. -/
theorem trim_exact {s : Str} (ok : HeaderOk s) (cset : List Byte) :
    ∃ s', atm_str_trim (some s) cset = .ok (some s') ∧ text 0 s'.val = trim cset.contains (text 0 s.val) ∧
      s'.len = (text 0 s'.val).length ∧ s'.cap = s.cap ∧ s'.val.length = s.val.length ∧ HeaderOk s' ∧
      atm_str_trim (some s') cset = .ok (some s') := by
  obtain ⟨content,rest,clean,rfl,_⟩ := ok.split
  have done := trim_eq ok cset
  obtain ⟨s',found,ok'⟩ := trim_ok ok cset
  rw [done] at found
  cases found
  have same : trim (strchr cset) content = trim cset.contains content := trim_congr (strchr_text clean)
  have sub := trim_sublist (strchr cset) content
  have text_of : text 0 (trimmed cset content rest).val = trim (strchr cset) content :=
    text_append (fun zero => clean (sub.subset zero)) _
  have cap : (trimmed cset content rest).cap = (made content rest).cap := by
    have short := sub.length_le
    simp only [trimmed,made,List.length_drop,List.length_append,List.length_cons]
    omega
  refine ⟨_,done,?_,?_,cap,?_,ok',trimmed_again ok'⟩
  · rw [text_of,same,made,text_append clean]
  · rw [text_of]
    rfl
  · rw [ok'.block,ok.block,cap]

/-- Blanks around a word are cut off, those inside it stay. -/
theorem trim_exact_blanks : ∃ s', atm_str_trim (some (made [32,97,32,98,9,32] [])) [32,9] = .ok (some s') ∧
    text 0 s'.val = [97,32,98] ∧ s'.len = 3 ∧ atm_str_trim (some s') [32,9] = .ok (some s') := by
  obtain ⟨s',done,text_eq,len,_,_,_,again⟩ := trim_exact
    (show HeaderOk (made [32,97,32,98,9,32] []) from made_ok (by decide) (by decide)) [32,9]
  have word : trim ([32,9] : List Byte).contains (text 0 (made [32,97,32,98,9,32] []).val) = [97,32,98] := by decide +kernel
  rw [word] at text_eq
  rw [text_eq] at len
  exact ⟨s',done,text_eq,len,again⟩

end AtmCache.Strings
