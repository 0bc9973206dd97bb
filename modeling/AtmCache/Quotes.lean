import Mathlib.Data.List.Basic
import Mathlib.Tactic.Common

/-!
# Tokens of a quoted text

A scanner for texts in which a separator counts only outside of quotes. It keeps the
stack of the open quotes: a quote equal to the innermost one closes it, any other
quote opens a level inside it. A token is what lies between two separators that
count; empty tokens are dropped, and a quote left open extends the last
token to the end of the text.
-/
namespace Quotes
universe u
variable {α : Type u}

/-- A token that is not empty. -/
def emit (token : List α) : List (List α) := if token = [] then [] else [token]

theorem emit_flatten (token : List α) : (emit token).flatten = token := by
  unfold emit
  split
  · rename_i empty
    rw [empty]
    rfl
  · simp

def join (sep : α) (ts : List (List α)) : List α := [sep].intercalate ts

theorem join_cons (sep : α) (t t' : List α) (ts : List (List α)) :
    join sep (t :: t' :: ts) = t ++ sep :: join sep (t' :: ts) := by
  simp [join,List.intercalate]

theorem join_emit_le (sep : α) (token : List α) (ts : List (List α)) :
    (join sep (emit token ++ ts)).length ≤ token.length + 1 + (join sep ts).length := by
  unfold emit
  split
  · rw [List.nil_append]
    omega
  · cases ts with
    | nil => simp [join]
    | cons t ts =>
      rw [List.singleton_append,join_cons,List.length_append,List.length_cons]
      omega

theorem not_mem_join {sep z : α} {ts : List (List α)} (other : z ≠ sep) (clean : ∀ t ∈ ts, z ∉ t) : z ∉ join sep ts := by
  induction ts with
  | nil => exact List.not_mem_nil
  | cons t ts ih =>
    have rest := ih (fun t member => clean t (List.mem_cons_of_mem _ member))
    cases ts with
    | nil => simpa [join] using clean t List.mem_cons_self
    | cons t' ts =>
      rw [join_cons,List.mem_append,List.mem_cons]
      rintro (here | same | later)
      · exact clean t List.mem_cons_self here
      · exact other same
      · exact rest later

/-- The first symbol of joined texts is the first of a text. -/
theorem join_head {sep c : α} {ts : List (List α)} (some : ∀ t ∈ ts, t ≠ []) (first : (join sep ts).head? = .some c) :
    ∃ t ∈ ts, t.head? = .some c := by
  cases ts with
  | nil => cases first
  | cons t ts =>
    obtain ⟨d,rest,rfl⟩ := List.exists_cons_of_ne_nil (some t List.mem_cons_self)
    refine ⟨d :: rest,List.mem_cons_self,?_⟩
    cases ts with
    | nil => simpa [join] using first
    | cons t' ts => simpa only [join_cons,List.cons_append,List.head?_cons] using first

theorem join_last {sep c : α} {ts : List (List α)} (some : ∀ t ∈ ts, t ≠ []) (last : (join sep ts).getLast? = .some c) :
    ∃ t ∈ ts, t.getLast? = .some c := by
  induction ts with
  | nil => cases last
  | cons t ts ih =>
    obtain ⟨here,later⟩ := List.forall_mem_cons.mp some
    cases ts with
    | nil => exact ⟨t,List.mem_cons_self,by simpa [join] using last⟩
    | cons t' ts =>
      obtain ⟨d,rest,shape⟩ := List.exists_cons_of_ne_nil (later t' List.mem_cons_self)
      have more : join sep (t' :: ts) ≠ [] := by
        rw [shape]
        cases ts with
        | nil => simp [join]
        | cons t'' ts => simp [join_cons]
      rw [join_cons,List.getLast?_append_of_ne_nil _ (List.cons_ne_nil _ _),List.getLast?_cons_of_ne_nil more] at last
      obtain ⟨w,member,ends⟩ := ih later last
      exact ⟨w,List.mem_cons_of_mem _ member,ends⟩

variable [DecidableEq α] (quote : α → Bool) (sep : α)

/-- The open quotes after one more symbol, the innermost first. -/
def push (stack : List α) (c : α) : List α :=
  if quote c then
    match stack with
    | [] => [c]
    | top :: rest => if c = top then rest else c :: top :: rest
  else stack

/-- The open quotes after a text. -/
def after (stack text : List α) : List α := text.foldl (push quote) stack

/-- The tokens of a text, with the open quotes and the token so far. -/
def scan : List α → List α → List α → List (List α)
  | _, token, [] => emit token
  | stack, token, c :: text =>
    if stack = [] ∧ c = sep then emit token ++ scan [] [] text else scan (push quote stack c) (token ++ [c]) text

def tokens (text : List α) : List (List α) := scan quote sep [] [] text

/-- The text without the separators that count. -/
def strip : List α → List α → List α
  | _, [] => []
  | stack, c :: text => if stack = [] ∧ c = sep then strip [] text else c :: strip (push quote stack c) text

/-- No separator of the text counts. -/
def Solid : List α → List α → Prop
  | _, [] => True
  | stack, c :: text => ¬ (stack = [] ∧ c = sep) ∧ Solid (push quote stack c) text

/-- Tokens in which no separator counts, each but the last with its quotes closed. -/
def Closed : List (List α) → Prop
  | [] => True
  | [t] => t ≠ [] ∧ Solid quote sep [] t
  | t :: ts => t ≠ [] ∧ Solid quote sep [] t ∧ after quote [] t = [] ∧ Closed ts

variable {quote : α → Bool} {sep : α}

/-! ### One symbol -/

theorem push_nil {c : α} (quoting : quote c = true) : push quote [] c = [c] := by rw [push,if_pos quoting]

theorem push_close {c : α} (quoting : quote c = true) (stack : List α) : push quote (c :: stack) c = stack := by
  rw [push,if_pos quoting]
  exact if_pos rfl

theorem push_open {c top : α} (quoting : quote c = true) (other : c ≠ top) (stack : List α) :
    push quote (top :: stack) c = c :: top :: stack := by
  rw [push,if_pos quoting]
  exact if_neg other

theorem push_plain {c : α} (plain : ¬ quote c = true) (stack : List α) : push quote stack c = stack := if_neg plain

theorem scan_sep (token text : List α) : scan quote sep [] token (sep :: text) = emit token ++ tokens quote sep text := by
  rw [scan,if_pos ⟨rfl,rfl⟩,tokens]

theorem scan_step {stack : List α} {c : α} (inside : ¬ (stack = [] ∧ c = sep)) (token text : List α) :
    scan quote sep stack token (c :: text) = scan quote sep (push quote stack c) (token ++ [c]) text := by
  rw [scan,if_neg inside]

theorem after_snoc (stack text : List α) (c : α) :
    after quote stack (text ++ [c]) = push quote (after quote stack text) c := by
  simp [after]

theorem solid_snoc {stack text : List α} {c : α} (solid : Solid quote sep stack text)
    (inside : ¬ (after quote stack text = [] ∧ c = sep)) : Solid quote sep stack (text ++ [c]) := by
  induction text generalizing stack with
  | nil => exact ⟨inside,trivial⟩
  | cons d text ih => exact ⟨solid.1,ih solid.2 inside⟩

/-! ### What the tokens are -/

/-- The tokens are the text without the separators that count. -/
theorem scan_flatten (stack token text : List α) :
    (scan quote sep stack token text).flatten = token ++ strip quote sep stack text := by
  induction text generalizing stack token with
  | nil => simp [scan,strip,emit_flatten]
  | cons c text ih =>
    rw [scan,strip]
    split
    · rw [List.flatten_append,emit_flatten,ih,List.nil_append]
    · rw [ih,List.append_assoc,List.singleton_append]

theorem closed_cons {t : List α} {ts : List (List α)} (some : t ≠ []) (solid : Solid quote sep [] t)
    (shut : after quote [] t = []) (closed : Closed quote sep ts) : Closed quote sep (t :: ts) := by
  cases ts with
  | nil => exact ⟨some,solid⟩
  | cons t' ts => exact ⟨some,solid,shut,closed⟩

/-- The quotes of every token but the last are closed. -/
theorem scan_closed {token : List α} (solid : Solid quote sep [] token) (text : List α) :
    Closed quote sep (scan quote sep (after quote [] token) token text) := by
  induction text generalizing token with
  | nil =>
    rw [scan,emit]
    split
    · trivial
    · rename_i some
      exact ⟨some,solid⟩
  | cons c text ih =>
    rw [scan]
    split
    · rename_i counts
      have rest := ih (show Solid quote sep [] [] from trivial)
      rw [emit]
      split
      · exact rest
      · rename_i some
        exact closed_cons some solid counts.1 rest
    · rename_i inside
      rw [← after_snoc]
      exact ih (solid_snoc solid inside)

theorem tokens_closed (text : List α) : Closed quote sep (tokens quote sep text) :=
  scan_closed (show Solid quote sep [] [] from trivial) text

/-- A separator at the start of a text counts for nothing. -/
theorem tokens_sep (text : List α) : tokens quote sep (sep :: text) = tokens quote sep text := by
  rw [tokens,scan_sep,emit,if_pos rfl,List.nil_append]

/-- A text without quotes and separators is one token. -/
theorem tokens_plain {text : List α} (plain : ∀ c ∈ text, quote c = false ∧ c ≠ sep) :
    tokens quote sep text = emit text := by
  have whole : ∀ token, scan quote sep [] token text = emit (token ++ text) := by
    induction text with
    | nil => intro token; rw [scan,List.append_nil]
    | cons c text ih =>
      intro token
      obtain ⟨unquoted,other⟩ := plain c List.mem_cons_self
      rw [scan_step (fun both => other both.2),push_plain (by simp [unquoted]),
        ih (fun c member => plain c (List.mem_cons_of_mem _ member)),List.append_assoc,List.singleton_append]
  rw [tokens,whole,List.nil_append]

/-! ### Texts put together -/

theorem solid_of_not_mem {piece : List α} (none : sep ∉ piece) (stack : List α) : Solid quote sep stack piece := by
  induction piece generalizing stack with
  | nil => trivial
  | cons c piece ih =>
    rw [List.mem_cons,not_or] at none
    exact ⟨fun both => none.1 both.2.symm,ih none.2 _⟩

/-- A text in which no separator counts goes to the token as a whole. -/
theorem scan_solid {stack piece : List α} (solid : Solid quote sep stack piece) (token text : List α) :
    scan quote sep stack token (piece ++ text) = scan quote sep (after quote stack piece) (token ++ piece) text := by
  induction piece generalizing stack token with
  | nil => simp [after]
  | cons c piece ih =>
    rw [List.cons_append,scan_step solid.1,ih solid.2,List.append_assoc,List.singleton_append]
    rfl

theorem after_append (stack front back : List α) : after quote stack (front ++ back) = after quote (after quote stack front) back :=
  List.foldl_append

theorem after_plain {text : List α} (plain : ∀ c ∈ text, quote c = false) (stack : List α) : after quote stack text = stack := by
  induction text generalizing stack with
  | nil => rfl
  | cons c text ih =>
    have unquoted : ¬ quote c = true := by simp [plain c List.mem_cons_self]
    exact (congrArg (after quote · text) (push_plain unquoted stack)).trans (ih (fun c member => plain c (List.mem_cons_of_mem _ member)) stack)

theorem after_join {ts : List (List α)} (plain : quote sep = false) (shut : ∀ t ∈ ts, after quote [] t = []) :
    after quote [] (join sep ts) = [] := by
  induction ts with
  | nil => rfl
  | cons t ts ih =>
    obtain ⟨here,later⟩ := List.forall_mem_cons.mp shut
    cases ts with
    | nil => simpa [join] using here
    | cons t' ts =>
      have unquoted : ¬ quote sep = true := by simp [plain]
      rw [join_cons,after_append,here]
      exact (congrArg (after quote · _) (push_plain unquoted [])).trans (ih later)

/-- A text whose quotes are closed and in which no separator counts does not end with one. -/
theorem solid_last {stack text : List α} (plain : quote sep = false) (solid : Solid quote sep stack text)
    (shut : after quote stack text = []) : text.getLast? ≠ some sep := by
  rw [Ne,List.getLast?_eq_some_iff]
  rintro ⟨front,rfl⟩
  have unquoted : ¬ quote sep = true := by simp [plain]
  rw [after_snoc,push_plain unquoted] at shut
  induction front generalizing stack with
  | nil => exact solid.1 ⟨shut,rfl⟩
  | cons c front ih => exact ih solid.2 shut

/-- A text without quotes that ends with a separator is cut apart from what follows. -/
theorem tokens_append {front : List α} (plain : ∀ c ∈ front, quote c = false) (ended : front = [] ∨ front.getLast? = some sep)
    (text : List α) : tokens quote sep (front ++ text) = tokens quote sep front ++ tokens quote sep text := by
  rcases ended with rfl | last
  · rfl
  obtain ⟨lines,rfl⟩ := List.getLast?_eq_some_iff.mp last
  have cut : ∀ token, scan quote sep [] token (lines ++ sep :: text) =
      scan quote sep [] token (lines ++ [sep]) ++ tokens quote sep text := by
    induction lines with
    | nil =>
      intro token
      rw [List.nil_append,List.nil_append,scan_sep,scan_sep]
      simp [tokens,scan,emit]
    | cons c lines ih =>
      have later := ih (fun c member => plain c (List.mem_cons_of_mem _ member)) (by simp)
      intro token
      rw [List.cons_append,List.cons_append]
      by_cases same : c = sep
      · subst same
        rw [scan_sep,scan_sep,List.append_assoc]
        exact congrArg _ (later [])
      · have unquoted : ¬ quote c = true := by simp [plain c List.mem_cons_self]
        rw [scan_step (fun both => same both.2),scan_step (fun both => same both.2),push_plain unquoted,later]
  rw [List.append_assoc]
  exact cut []

/-- A line whose quotes are closed is one token, whatever follows. -/
theorem tokens_line {line : List α} (some : line ≠ []) (none : sep ∉ line) (shut : after quote [] line = [])
    (text : List α) : tokens quote sep (line ++ sep :: text) = line :: tokens quote sep text := by
  rw [tokens,scan_solid (solid_of_not_mem none []),shut,List.nil_append,scan_sep,emit,if_neg some,List.singleton_append]

/-- Lines whose quotes are closed, each with its separator. -/
theorem tokens_lines {lines : List (List α)}
    (whole : ∀ line ∈ lines, line ≠ [] ∧ sep ∉ line ∧ after quote [] line = []) :
    tokens quote sep (lines.flatMap (· ++ [sep])) = lines := by
  induction lines with
  | nil => rfl
  | cons line lines ih =>
    obtain ⟨⟨some,none,shut⟩,later⟩ := List.forall_mem_cons.mp whole
    rw [List.flatMap_cons,List.append_assoc,List.singleton_append,tokens_line some none shut,ih later]

/-- A quote that is left open takes in all that follows, up to the next quote. -/
theorem tokens_open {line text : List α} (some : line ≠ []) (none : sep ∉ line) (opened : after quote [] line ≠ [])
    (plain : ∀ c ∈ text, quote c = false) : tokens quote sep (line ++ text) = [line ++ text] := by
  have inside : ∀ (stack token : List α), stack ≠ [] → scan quote sep stack token text = emit (token ++ text) := by
    intro stack
    induction text with
    | nil => intro token _; rw [scan,List.append_nil]
    | cons c text ih =>
      intro token deep
      have unquoted : ¬ quote c = true := by simp [plain c List.mem_cons_self]
      rw [scan_step (fun both => deep both.1),push_plain unquoted,
        ih (fun c member => plain c (List.mem_cons_of_mem _ member)) _ deep,List.append_assoc,List.singleton_append]
  rw [tokens,scan_solid (solid_of_not_mem none []),inside _ _ opened,List.nil_append,emit,if_neg (by simp [some])]

/-! ### Joining the tokens again -/

theorem tokens_join {ts : List (List α)} (closed : Closed quote sep ts) : tokens quote sep (join sep ts) = ts := by
  induction ts with
  | nil => simp [join,tokens,scan,emit]
  | cons t ts ih =>
    cases ts with
    | nil =>
      obtain ⟨some,solid⟩ := closed
      have whole := scan_solid solid [] []
      rw [List.append_nil,List.nil_append] at whole
      rw [join,List.intercalate_singleton,tokens,whole,scan,emit,if_neg some]
    | cons t' ts =>
      obtain ⟨some,solid,shut,rest⟩ := closed
      rw [join_cons,tokens,scan_solid solid,shut,List.nil_append,scan_sep,ih rest,emit,if_neg some,List.singleton_append]

/-- Joining the tokens of a text with single separators and scanning again gives the same tokens. -/
theorem tokens_again (text : List α) : tokens quote sep (join sep (tokens quote sep text)) = tokens quote sep text :=
  tokens_join (tokens_closed text)

/-- The joined tokens are no longer than the text. -/
theorem join_scan_le (stack token text : List α) :
    (join sep (scan quote sep stack token text)).length ≤ token.length + text.length := by
  induction text generalizing stack token with
  | nil =>
    rw [scan,emit]
    split
    · exact Nat.zero_le _
    · simp [join]
  | cons c text ih =>
    rw [scan,List.length_cons]
    split
    · have rest := ih [] []
      have cut := join_emit_le sep token (scan quote sep [] [] text)
      rw [List.length_nil] at rest
      omega
    · have rest := ih (push quote stack c) (token ++ [c])
      rw [List.length_append,List.length_singleton] at rest
      omega

theorem closed_some {ts : List (List α)} (closed : Closed quote sep ts) : ∀ t ∈ ts, t ≠ [] := by
  induction ts with
  | nil => exact fun t member => absurd member List.not_mem_nil
  | cons t ts ih =>
    cases ts with
    | nil =>
      intro t' member
      rw [List.mem_singleton.mp member]
      exact closed.1
    | cons t' ts =>
      intro t'' member
      rcases List.mem_cons.mp member with rfl | later
      · exact closed.1
      · exact ih closed.2.2.2 t'' later

/-- Every token takes a symbol of the text, and another one to end it. -/
theorem tokens_count (text : List α) : 2 * (tokens quote sep text).length ≤ text.length + 1 := by
  have count : ∀ ts : List (List α), (∀ t ∈ ts, t ≠ []) → 2 * ts.length ≤ (join sep ts).length + 1 := by
    intro ts some
    induction ts with
    | nil => simp
    | cons t ts ih =>
      have positive := List.length_pos_iff.mpr (some t List.mem_cons_self)
      have rest := ih (fun t member => some t (List.mem_cons_of_mem _ member))
      cases ts with
      | nil => simp [join]; omega
      | cons t' ts =>
        rw [List.length_cons] at rest
        simp only [join_cons,List.length_append,List.length_cons]
        omega
  have joined : (join sep (tokens quote sep text)).length ≤ ([] : List α).length + text.length := join_scan_le [] [] text
  have closed : Closed quote sep (tokens quote sep text) := tokens_closed text
  have counted := count _ (closed_some closed)
  rw [List.length_nil,Nat.zero_add] at joined
  exact Nat.le_trans counted (Nat.add_le_add_right joined 1)

theorem strip_sublist (stack text : List α) : (strip quote sep stack text).Sublist text := by
  induction text generalizing stack with
  | nil => exact List.Sublist.refl _
  | cons c text ih =>
    rw [strip]
    split
    · exact (ih []).cons c
    · exact (ih _).cons_cons c

/-- Every token is made of symbols of the text, and is no longer. -/
theorem token_sublist {text t : List α} (member : t ∈ tokens quote sep text) : t.Sublist text := by
  have whole : (tokens quote sep text).flatten = [] ++ strip quote sep [] text := scan_flatten [] [] text
  rw [List.nil_append] at whole
  exact (List.sublist_flatten_of_mem member).trans (whole ▸ strip_sublist [] text)

end Quotes
