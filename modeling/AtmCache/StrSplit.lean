import AtmCache.StrHeader

/-!
# The words of a line

What `atm_str_split` returns for any separator, a quote or a NUL byte too: strings with right headers
and some spare room, whose bytes come from the line (`split_words`).
-/
namespace AtmCache.Strings
open CStrings Runs

/-! ### Where the bytes come from -/

/-- A block of the length of a token whose bytes come from the line. -/
structure Cut (bytes : List Byte) (len : Nat) (t : List Byte) : Prop where
  length : t.length = atm_alloc (len + 1)
  source : ∀ x ∈ t, x = 0 ∨ x ∈ bytes

/-- The open token and all stored ones are cut from the line. -/
def AllCut (bytes : List Byte) (len : Nat) (s : Split) : Prop := Cut bytes len s.t ∧ ∀ t ∈ s.sl, Cut bytes len t

variable {bytes : List Byte} {len : Nat} {s s' : Split} {sep c : Byte}

theorem cut_token (bytes : List Byte) (len : Nat) : Cut bytes len (split_token len) :=
  ⟨List.length_replicate,fun _ member => .inl (List.eq_of_mem_replicate member)⟩

theorem quoted_same (c : Byte) (s : Split) : (split_quoted c s).t = s.t ∧ (split_quoted c s).ti = s.ti ∧
    (split_quoted c s).sl = s.sl := by
  unfold split_quoted
  by_cases double : c = 34
  · rw [if_pos double]
    by_cases one : s.qty = 34
    · rw [if_pos one]
      exact ⟨rfl,rfl,rfl⟩
    · rw [if_neg one]
      by_cases other : s.qty = 39
      · rw [if_pos other]
        exact ⟨rfl,rfl,rfl⟩
      · rw [if_neg other]
        exact ⟨rfl,rfl,rfl⟩
  · rw [if_neg double]
    by_cases single : c = 39
    · rw [if_pos single]
      by_cases one : s.qty = 34
      · rw [if_pos one]
        exact ⟨rfl,rfl,rfl⟩
      · rw [if_neg one]
        by_cases other : s.qty = 39
        · rw [if_pos other]
          exact ⟨rfl,rfl,rfl⟩
        · rw [if_neg other]
          exact ⟨rfl,rfl,rfl⟩
    · rw [if_neg single]
      exact ⟨rfl,rfl,rfl⟩

theorem put_cut (cut : AllCut bytes len s) (member : c ∈ bytes) (done : split_put c s = .ok s') :
    AllCut bytes len s' := by
  obtain ⟨t,wrote,same⟩ := bind_eq_ok.mp done
  cases same
  unfold write_bytes at wrote
  split at wrote
  · rename_i fits
    cases wrote
    refine ⟨⟨(splice_length fits).trans cut.1.length,fun x inside => ?_⟩,cut.2⟩
    simp only [splice,List.mem_append,List.mem_singleton] at inside
    rcases inside with (before | rfl) | after
    · exact cut.1.source x (List.mem_of_mem_take before)
    · exact .inr member
    · exact cut.1.source x (List.mem_of_mem_drop after)
  · cases wrote

theorem store_cut (cut : AllCut bytes len s) (done : split_store len s = .ok s') : AllCut bytes len s' := by
  unfold split_store at done
  split at done
  · cases done
    refine ⟨cut.1,fun t member => ?_⟩
    rcases List.mem_append.mp member with old | new
    · exact cut.2 t old
    · rw [List.mem_singleton.mp new]
      exact cut.1
  · cases done

/-- What one byte does: nothing, or it goes to the open token, or it ends that token. -/
theorem split_byte_cases (done : split_byte sep len s c = .ok s') :
    (s'.t = s.t ∧ s'.ti = s.ti ∧ s'.sl = s.sl) ∨
    (∃ s₁ : Split, s₁.t = s.t ∧ s₁.ti = s.ti ∧ s₁.sl = s.sl ∧ split_put c s₁ = .ok s') ∨
    ∃ s₁ s₂ : Split, s₁.t = s.t ∧ s₁.ti = s.ti ∧ s₁.sl = s.sl ∧ split_store len s₁ = .ok s₂ ∧
      s'.t = split_token len ∧ s'.ti = 0 ∧ s'.sl = s₂.sl := by
  unfold split_byte at done
  split at done
  · cases done
    exact .inl ⟨rfl,rfl,rfl⟩
  · split at done
    · obtain ⟨t,ti,sl⟩ := quoted_same c s
      exact .inr (.inl ⟨_,t,ti,sl,done⟩)
    · have opened : ∀ {s₁ : Split}, s₁ = (if c = 34 ∨ c = 39 then { s with qty := c, inq := s.inq + 1 } else s) →
          s₁.t = s.t ∧ s₁.ti = s.ti ∧ s₁.sl = s.sl := by
        rintro s₁ rfl
        split
        · exact ⟨rfl,rfl,rfl⟩
        · exact ⟨rfl,rfl,rfl⟩
      generalize same : (if c = 34 ∨ c = 39 then { s with qty := c, inq := s.inq + 1 } else s) = s₁ at done
      obtain ⟨t,ti,sl⟩ := opened same.symm
      dsimp only at done
      split at done
      · split at done
        · obtain ⟨n,_,rest⟩ := bind_eq_ok.mp done
          split at rest
          · obtain ⟨s₂,stored,last⟩ := bind_eq_ok.mp rest
            cases last
            exact .inr (.inr ⟨s₁,s₂,t,ti,sl,stored,rfl,rfl,rfl⟩)
          · cases rest
            exact .inl ⟨t,ti,sl⟩
        · cases done
          exact .inl ⟨t,ti,sl⟩
      · exact .inr (.inl ⟨{ s₁ with trb := false },t,ti,sl,done⟩)

theorem byte_cut (cut : AllCut bytes len s) (member : c ∈ bytes) (done : split_byte sep len s c = .ok s') :
    AllCut bytes len s' := by
  rcases split_byte_cases done with ⟨t,_,sl⟩ | ⟨s₁,t,_,sl,put⟩ | ⟨s₁,s₂,t,_,sl,stored,t',_,sl'⟩
  · rw [AllCut,t,sl]
    exact cut
  · exact put_cut (by rw [AllCut,t,sl]; exact cut) member put
  · have kept := store_cut (by rw [AllCut,t,sl]; exact cut) stored
    rw [AllCut,t',sl']
    exact ⟨cut_token bytes len,kept.2⟩

theorem bytes_cut (done : bytes.foldlM (split_byte sep len) ⟨0,0,false,split_token len,0,[]⟩ = .ok s) :
    AllCut bytes len s := by
  have each : EachStep (split_byte sep len) ⟨0,0,false,split_token len,0,[]⟩ bytes (fun _ c => c ∈ bytes) := by
    intro pre c s inside _
    exact inside.subset (List.mem_append_right _ List.mem_cons_self)
  exact run_invariant (P := fun _ s => AllCut bytes len s)
    ⟨cut_token bytes len,fun t member => absurd member List.not_mem_nil⟩
    (fun _ c s s' cut member done => byte_cut cut member done) each done

/-! ### The result -/

/-- A word of a line of length `len`: a string with a right header, some room, and bytes of the line. -/
def Word (bytes : List Byte) (len : Nat) (w : Str) : Prop :=
  ∃ content rest, w = made content rest ∧ HeaderOk w ∧ rest ≠ [] ∧ 0 ∉ content ∧ content.length ≤ len ∧
    ∀ x ∈ content, x ∈ bytes

theorem cut_word {t : List Byte} (cut : Cut bytes len t) (short : len < 2^31) {w : Option Str}
    (done : (do atm_str_new (some (t.take (← strlen t)))) = .ok w) : ∃ s, w = some s ∧ Word bytes len s := by
  obtain ⟨n,measured,new⟩ := bind_eq_ok.mp done
  unfold strlen at measured
  split at measured
  · rename_i ended
    cases measured
    have length : (text 0 t).length < t.length := by
      rw [text,List.length_take]
      have := List.idxOf_lt_length_of_mem ended
      omega
    have block : t.length = len + 1 := by rw [cut.length,atm_alloc,u32_of_lt (by omega)]
    obtain ⟨rest,made',ok,room⟩ := new_ok (not_mem_text 0 t) (by omega)
    rw [show t.take (t.idxOf 0) = text 0 t from rfl,made'] at new
    cases new
    refine ⟨_,rfl,_,rest,rfl,ok,?_,not_mem_text 0 t,by omega,fun x member => ?_⟩
    · rw [← List.length_pos_iff]
      omega
    · rcases cut.source x (List.mem_of_mem_take member) with zero | from_line
      · rw [zero] at member
        exact absurd member (not_mem_text 0 t)
      · exact from_line
  · cases measured

theorem all_some {α : Type} {P : α → Prop} {res : List (Option α)} (each : ∀ w ∈ res, ∃ a, w = some a ∧ P a) :
    ∃ found : List α, res = found.map some ∧ ∀ a ∈ found, P a := by
  induction res with
  | nil => exact ⟨[],rfl,fun a member => absurd member List.not_mem_nil⟩
  | cons w res ih =>
    obtain ⟨⟨a,rfl,holds⟩,later⟩ := List.forall_mem_cons.mp each
    obtain ⟨found,rfl,all⟩ := ih later
    exact ⟨a :: found,rfl,List.forall_mem_cons.mpr ⟨holds,all⟩⟩

/-- The strings that a split returns are words of the line, with NULL after the last. -/
theorem split_words {str : List Byte} {argv : List (Option Str)} (done : atm_str_split str sep len = .ok (some argv)) :
    ∃ words : List Str, argv = words.map some ++ [none] ∧ ∀ w ∈ words, Word (str.take len) len w := by
  obtain ⟨bytes,read,rest⟩ := bind_eq_ok.mp done
  obtain ⟨s,looped,rest⟩ := bind_eq_ok.mp rest
  obtain ⟨s',closed,rest⟩ := bind_eq_ok.mp rest
  have cut := bytes_cut looped
  have cut' : AllCut bytes len s' := by
    obtain ⟨n,_,last⟩ := bind_eq_ok.mp closed
    split at last
    · exact store_cut cut last
    · cases last
      exact cut
  split at rest
  · cases rest
  · rename_i some_token
    split at rest
    · obtain ⟨res,words,same⟩ := bind_eq_ok.mp rest
      cases same
      by_cases short : len < 2^31
      · rw [if_pos short] at read
        have line : bytes = str.take len := by
          unfold read_bytes at read
          split at read
          · exact (Except.ok.inj read).symm
          · cases read
        have each : ∀ w ∈ res, ∃ s, w = some s ∧ Word (str.take len) len s := by
          intro w member
          obtain ⟨t,stored,new⟩ := mapM_returns words w member
          exact cut_word (line ▸ cut'.2 t stored) short new
        obtain ⟨found,same,all⟩ := all_some each
        exact ⟨found,by rw [same],all⟩
      · -- A line of `2^31` bytes or more has no token at all.
        rw [if_neg short] at read
        have none : bytes = [] := by
          unfold read_bytes at read
          split at read
          · simpa using (Except.ok.inj read).symm
          · cases read
        subst none
        cases looped
        obtain ⟨n,measured,last⟩ := bind_eq_ok.mp closed
        unfold strlen at measured
        split at measured
        · rename_i ended
          cases measured
          have zero : (split_token len).idxOf 0 = 0 := by
            rw [split_token] at ended ⊢
            obtain ⟨m,same⟩ := Nat.exists_eq_succ_of_ne_zero (List.mem_replicate.mp ended).1
            rw [same,List.replicate_succ,List.idxOf_cons_self]
          dsimp only at last
          rw [zero] at last
          cases last
          exact absurd rfl some_token
        · cases measured
    · cases rest

end AtmCache.Strings
