/-
# The square root under the opening shares

`isqrt` (`pool.rs`) is Newton's iteration on 128-bit words: from a guess above
the root it takes the mean of the guess and the quotient until the mean is no
smaller. `isqrtWide` is the loop with what a 128-bit word can do wrong in it:
a division by a guess of zero and a sum that does not fit both panic, and a
run that is not over when its fuel is has no outcome.

Below `2 ^ 127` none of these happens. The run lemma carries two facts from
guess to guess: the guess is positive, and it is not below the root.

Key definitions: `isqrtWideLoop`, `isqrtWide`.
Key theorems: `isqrtWideLoop_eq`, `isqrtWide_spec`.
-/
import Mathlib.Tactic.Linarith
import Sidestr.Core.Pool

namespace Sidestr

/-- The assignment `y = (x + n / x) / 2` on 128-bit words. -/
def nextGuess (n x : ℕ) : Res Unit ℕ :=
  if x = 0 then .panic
  else if Word.maxVal 128 < x + n / x then .panic
  else .ok ((x + n / x) / 2)

/-- The loop: `none` when the fuel is spent before it ends. -/
def isqrtWideLoop (n : ℕ) : ℕ → ℕ → ℕ → Option (Res Unit ℕ)
  | 0, _, _ => none
  | fuel + 1, x, y =>
    if y < x then
      match nextGuess n y with
      | .ok next => isqrtWideLoop n fuel y next
      | .err e => some (.err e)
      | .panic => some .panic
    else some (.ok x)

/-- The code's `isqrt` on 128-bit words, run with `fuel`. -/
def isqrtWide (n fuel : ℕ) : Option (Res Unit ℕ) :=
  if n < 2 then some (.ok n) else isqrtWideLoop n fuel n ((n + 1) / 2)

/-- A positive guess that is at most `n` has a next one, when `n` is below `2 ^ 127`. -/
theorem nextGuess_eq {n x : ℕ} (hn : n < 2 ^ 127) (hpos : 0 < x) (hle : x ≤ n) :
    nextGuess n x = .ok ((x + n / x) / 2) := by
  have hq : n / x ≤ n := Nat.div_le_self n x
  have hfit : ¬ Word.maxVal 128 < x + n / x := by
    unfold Word.maxVal
    omega
  rw [nextGuess, if_neg hpos.ne', if_neg hfit]

/-- From a guess that is positive, at most `n` and not below the root, the loop
on words takes the same guesses as the loop on numbers, one unit of fuel each. -/
theorem isqrtWideLoop_eq {n : ℕ} (hn : n < 2 ^ 127) (hpos : 0 < n) : ∀ fuel x, 0 < x → x ≤ n →
    x ≤ fuel → isqrtWideLoop n fuel x ((x + n / x) / 2) =
      some (.ok (isqrtLoop n fuel x ((x + n / x) / 2)))
  | 0, x, hx, _, hf => by omega
  | fuel + 1, x, hx, hle, hf => by
    have hy := guess_pos hpos hx
    unfold isqrtWideLoop isqrtLoop
    split_ifs with h
    · have hyn : (x + n / x) / 2 ≤ n := h.le.trans hle
      rw [nextGuess_eq hn hy hyn]
      exact isqrtWideLoop_eq hn hpos fuel _ hy hyn (Nat.le_of_lt_succ (h.trans_le hf))
    · rfl

/-- Given fuel for its guesses, the code's `isqrt` ends with the integer square root. -/
theorem isqrtWide_eq {n fuel : ℕ} (hn : n < 2 ^ 127) (hf : n ≤ fuel) :
    isqrtWide n fuel = some (.ok (Nat.sqrt n)) := by
  unfold isqrtWide
  split_ifs with h
  · have hn' : n = 0 ∨ n = 1 := by omega
    rcases hn' with rfl | rfl
    · rfl
    · rfl
  · have hpos : 0 < n := by omega
    have hstart : (n + 1) / 2 = (n + n / n) / 2 := by rw [Nat.div_self hpos]
    rw [hstart, isqrtWideLoop_eq hn hpos fuel n hpos le_rfl hf,
      isqrtLoop_spec hpos fuel n hpos hf (by nlinarith)]

/-- **`isqrt` is the exact integer square root.** Below `2 ^ 127` the loop ends
(any fuel from `n` on gives the same outcome), no step divides by zero or
overflows, and the result is the floor of the root. -/
theorem isqrtWide_spec (n : ℕ) (hn : n < 2 ^ 127) :
    ∃ r, (∀ fuel, n ≤ fuel → isqrtWide n fuel = some (.ok r)) ∧
      r = isqrt n ∧ r * r ≤ n ∧ n < (r + 1) * (r + 1) :=
  ⟨Nat.sqrt n, fun _ hf => isqrtWide_eq hn hf, (isqrt_eq_sqrt n).symm, Nat.sqrt_le n,
    Nat.lt_succ_sqrt n⟩

theorem isqrtWide_spec_ten :
    10 < 2 ^ 127 ∧ ∃ r, (∀ fuel, 10 ≤ fuel → isqrtWide 10 fuel = some (.ok r)) ∧
      r = isqrt 10 ∧ r * r ≤ 10 ∧ 10 < (r + 1) * (r + 1) :=
  ⟨by decide, isqrtWide_spec 10 (by decide)⟩

example : isqrtWide 10 10 = some (.ok 3) := by decide

end Sidestr
