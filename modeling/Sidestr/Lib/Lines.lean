/-
# Lines of a log

A log of lines is its lines, each closed by a separator, and what comes after
the last separator. A log that is written one closed line at a time reads back
as the lines that were written and the part of the last one that got there.

Key definitions: `closed`, `lines`, `rest`.
Key theorems: `lines_closed`, `rest_closed`, `take_closed_cases`.
-/
import Mathlib.Data.List.Basic

namespace Lines

variable {α : Type} (sep : α)

/-- The lines, each closed by the separator. -/
def closed (ls : List (List α)) : List α := ls.flatMap fun l => l ++ [sep]

@[simp] theorem closed_nil : closed sep [] = [] := rfl

theorem closed_cons (l : List α) (ls : List (List α)) :
    closed sep (l :: ls) = l ++ sep :: closed sep ls := by
  simp [closed]

theorem closed_append (ls ls' : List (List α)) :
    closed sep (ls ++ ls') = closed sep ls ++ closed sep ls' := by
  simp [closed]

theorem closed_concat (ls : List (List α)) (l : List α) :
    closed sep (ls ++ [l]) = closed sep ls ++ (l ++ [sep]) := by
  simp [closed]

section

variable [BEq α]

/-- The closed lines of a log. -/
def lines (log : List α) : List (List α) := (log.splitOn sep).dropLast

/-- What comes after the last separator. -/
def rest (log : List α) : List α := (log.splitOn sep).getLastD []

variable [LawfulBEq α] {sep}

theorem splitOn_closed : ∀ {ls : List (List α)} {r : List α}, (∀ l ∈ ls, sep ∉ l) → sep ∉ r →
    (closed sep ls ++ r).splitOn sep = ls ++ [r]
  | [], r, _, hr => List.splitOn_eq_singleton hr
  | l :: ls, r, hls, hr => by
    have hl : sep ∉ l := hls l List.mem_cons_self
    have ih := splitOn_closed (fun l' h => hls l' (List.mem_cons_of_mem l h)) hr
    rw [closed_cons, List.append_assoc, List.cons_append,
      List.splitOn_append_cons_self_of_not_mem hl, ih, List.cons_append]

theorem lines_closed {ls : List (List α)} {r : List α} (hls : ∀ l ∈ ls, sep ∉ l) (hr : sep ∉ r) :
    lines sep (closed sep ls ++ r) = ls := by
  unfold lines
  rw [splitOn_closed hls hr, List.dropLast_concat]

theorem rest_closed {ls : List (List α)} {r : List α} (hls : ∀ l ∈ ls, sep ∉ l) (hr : sep ∉ r) :
    rest sep (closed sep ls ++ r) = r := by
  unfold rest
  rw [splitOn_closed hls hr, List.getLastD_concat]

end

/-- So many elements of a closed line: all of it, or a part without its separator. -/
theorem take_closed_cases (l : List α) (n : ℕ) :
    (l.length < n ∧ (l ++ [sep]).take n = l ++ [sep]) ∨
      (n ≤ l.length ∧ (l ++ [sep]).take n = l.take n) := by
  rcases Nat.lt_or_ge l.length n with h | h
  · exact .inl ⟨h, List.take_of_length_le (by simp; omega)⟩
  · exact .inr ⟨h, List.take_append_of_le_length h⟩

end Lines
