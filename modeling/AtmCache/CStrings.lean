import Mathlib.Data.List.Basic
import Mathlib.Tactic.Common

/-!
# Terminated texts in blocks

A block is a list of cells of fixed length. A text is stored at its start and
ends before the first terminator (`text`). Writing into a block (`splice`)
keeps its length; writing a text and a terminator at the end of the text appends
to it (`splice_text`).
-/
namespace CStrings
universe u
variable {α : Type u}

/-- The block with cells overwritten from position `i` on. -/
def splice (block : List α) (i : Nat) (data : List α) : List α :=
  block.take i ++ data ++ block.drop (i + data.length)

theorem splice_length {block data : List α} {i : Nat} (fits : i + data.length ≤ block.length) :
    (splice block i data).length = block.length := by
  simp only [splice,List.length_append,List.length_take,List.length_drop]
  omega

theorem splice_append (before old after : List α) {data : List α} (same : data.length = old.length) :
    splice (before ++ old ++ after) before.length data = before ++ data ++ after := by
  simp [splice,same]

theorem splice_nil (block : List α) (i : Nat) : splice block i [] = block := by
  simp [splice]

/-- Writing more text and a terminator over the terminator of a text. -/
theorem splice_text (content rest data : List α) (z : α) (room : data.length ≤ rest.length) :
    splice (content ++ z :: rest) content.length (data ++ [z]) = content ++ data ++ z :: rest.drop data.length := by
  have cut : content ++ z :: rest = content ++ (z :: rest.take data.length) ++ rest.drop data.length := by simp
  rw [cut,splice_append _ _ _ (by simp [room])]
  simp

variable [DecidableEq α]

/-- The text that a block holds: the cells before its first terminator. -/
def text (z : α) (block : List α) : List α := block.take (block.idxOf z)

theorem not_mem_text (z : α) (block : List α) : z ∉ text z block := by
  by_cases ended : z ∈ block
  · rw [text,List.mem_take_iff_idxOf_lt ended]
    exact Nat.lt_irrefl _
  · exact fun member => ended (List.mem_of_mem_take member)

theorem idxOf_text {z : α} {content : List α} (clean : z ∉ content) (rest : List α) :
    (content ++ z :: rest).idxOf z = content.length := by
  rw [List.idxOf_append,if_neg clean,List.idxOf_cons_self,Nat.zero_add]

theorem text_append {z : α} {content : List α} (clean : z ∉ content) (rest : List α) :
    text z (content ++ z :: rest) = content := by
  rw [text,idxOf_text clean,List.take_left]

/-- A block with a terminator is its text, a terminator and the cells after it. -/
theorem split_text {z : α} {block : List α} (ended : z ∈ block) :
    block = text z block ++ z :: block.drop (block.idxOf z + 1) := by
  have inside := List.idxOf_lt_length_of_mem ended
  have here : block[block.idxOf z] = z := List.getElem_idxOf inside
  calc block = block.take (block.idxOf z) ++ block.drop (block.idxOf z) := (List.take_append_drop ..).symm
    _ = text z block ++ z :: block.drop (block.idxOf z + 1) := by
      rw [List.drop_eq_getElem_cons inside,here,text]

end CStrings
