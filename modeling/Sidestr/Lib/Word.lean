/-
# Saturating and checked sums of machine integers

Unsigned integers of `w` bits as natural numbers below `2 ^ w`. The code adds
them in two ways: saturating (a sum that does not fit is the largest value)
and checked (a sum that does not fit is no value). Over a list, the first is
the true sum cut off at the largest value, whatever the order of the
additions; the second is the true sum or nothing.

Key definitions: `Word.satAdd`, `Word.checkedAdd`, `Word.satSum`,
`Word.checkedSum`.
Key theorems: `Word.satSum_eq`, `Word.checkedSum_eq_some`.
-/
import Mathlib.Data.List.Basic
import Mathlib.Algebra.GroupWithZero.Nat
import Mathlib.Algebra.BigOperators.Group.List.Basic

namespace Word

/-- The largest value of `w` bits. -/
def maxVal (w : ℕ) : ℕ := 2 ^ w - 1

/-- Addition that stops at the largest value. -/
def satAdd (w a b : ℕ) : ℕ := min (a + b) (maxVal w)

/-- Multiplication that stops at the largest value. -/
def satMul (w a b : ℕ) : ℕ := min (a * b) (maxVal w)

/-- Addition that has no value when it does not fit. -/
def checkedAdd (w a b : ℕ) : Option ℕ :=
  if a + b ≤ maxVal w then some (a + b) else none

/-- Subtraction that has no value when it would be negative. -/
def checkedSub (a b : ℕ) : Option ℕ :=
  if b ≤ a then some (a - b) else none

/-- Saturating addition over a list, from `acc`. -/
def satSum (w acc : ℕ) (l : List ℕ) : ℕ := l.foldl (satAdd w) acc

/-- Checked addition over a list, from `acc`. -/
def checkedSum (w : ℕ) : ℕ → List ℕ → Option ℕ
  | acc, [] => some acc
  | acc, a :: l => (checkedAdd w acc a).bind fun s => checkedSum w s l

variable {w : ℕ}

theorem satAdd_le_add (a b : ℕ) : satAdd w a b ≤ a + b := Nat.min_le_left _ _

theorem satAdd_eq {a b : ℕ} (h : a + b ≤ maxVal w) : satAdd w a b = a + b := Nat.min_eq_left h

theorem checkedAdd_eq_some {a b c : ℕ} :
    checkedAdd w a b = some c ↔ c = a + b ∧ a + b ≤ maxVal w := by
  unfold checkedAdd
  split_ifs with h
  · simp [h, eq_comm]
  · simp [h]

theorem checkedSub_eq_some {a b c : ℕ} : checkedSub a b = some c ↔ b ≤ a ∧ c = a - b := by
  unfold checkedSub
  split_ifs with h
  · simp [h, eq_comm]
  · simp [h]

/-- A saturating sum is the true sum cut off at the largest value. -/
theorem satSum_eq : ∀ (l : List ℕ) (acc : ℕ), acc ≤ maxVal w →
    satSum w acc l = min (acc + l.sum) (maxVal w)
  | [], acc, h => by simp [satSum, h]
  | a :: l, acc, h => by
    have ih := satSum_eq l (satAdd w acc a) (Nat.min_le_right _ _)
    simp only [satSum, List.foldl_cons, List.sum_cons] at ih ⊢
    rw [ih]
    unfold satAdd
    omega

theorem satSum_le (l : List ℕ) : satSum w 0 l ≤ l.sum := by
  rw [satSum_eq l 0 (Nat.zero_le _)]
  omega

/-- A checked sum is the true sum, when that fits. -/
theorem checkedSum_eq_some : ∀ {l : List ℕ} {acc s : ℕ}, acc ≤ maxVal w →
    (checkedSum w acc l = some s ↔ s = acc + l.sum ∧ acc + l.sum ≤ maxVal w)
  | [], acc, s, h => by simp [checkedSum, h, eq_comm]
  | a :: l, acc, s, h => by
    rw [checkedSum, Option.bind_eq_some_iff, List.sum_cons]
    constructor
    · rintro ⟨t, ht, hs⟩
      obtain ⟨rfl, hfit⟩ := checkedAdd_eq_some.mp ht
      obtain ⟨rfl, h'⟩ := (checkedSum_eq_some hfit).mp hs
      exact ⟨by omega, by omega⟩
    · rintro ⟨rfl, h'⟩
      have hfit : acc + a ≤ maxVal w := by omega
      exact ⟨acc + a, checkedAdd_eq_some.mpr ⟨rfl, hfit⟩,
        (checkedSum_eq_some hfit).mpr ⟨by omega, by omega⟩⟩

end Word
