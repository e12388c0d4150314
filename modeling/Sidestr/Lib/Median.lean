/-
# The upper median

The element in the middle of a list once it is sorted, the upper one of the
two where the length is even. It is at least `x` exactly when no more than half
of the elements are below `x`: from this, the median of a window that grows and
then slides does not fall while each new element is above the median it meets.

Key definitions: `upperMedian`.
Key theorems: `le_upperMedian_iff`, `upperMedian_concat`, `upperMedian_slide`.
-/
import Mathlib.Data.List.Sort

namespace Median

variable {α : Type} [LinearOrder α]

/-- The element at half the length of the sorted list; none of an empty list. -/
def upperMedian (l : List α) : Option α := (l.insertionSort (· ≤ ·))[l.length / 2]?

theorem upperMedian_isSome {l : List α} (h : l ≠ []) : ∃ m, upperMedian l = some m := by
  have hpos : 0 < l.length := List.length_pos_iff.mpr h
  unfold upperMedian
  refine ⟨_, List.getElem?_eq_getElem ?_⟩
  rw [List.length_insertionSort]
  omega

/-- In a sorted list the element at `k` is at least `x` exactly when at most `k`
elements are below `x`. -/
theorem le_getElem_iff {s : List α} (hs : s.Pairwise (· ≤ ·)) {k : ℕ} (hk : k < s.length) (x : α) :
    x ≤ s[k] ↔ s.countP (fun a => a < x) ≤ k := by
  have hsplit : s.countP (fun a => decide (a < x)) =
      (s.take k).countP (fun a => decide (a < x)) + (s.drop k).countP fun a => decide (a < x) := by
    rw [← List.countP_append, List.take_append_drop]
  have htake : (s.take k).length = k := by
    rw [List.length_take]
    omega
  constructor
  · intro hx
    -- nothing from `k` on is below `x`
    have hdrop : (s.drop k).countP (fun a => decide (a < x)) = 0 := by
      rw [List.countP_eq_zero]
      intro a ha
      obtain ⟨i, hi, rfl⟩ := List.mem_iff_getElem.mp ha
      rw [List.length_drop] at hi
      have hki : k + i < s.length := by omega
      rw [List.getElem_drop, decide_eq_true_eq, not_lt]
      have hle : s[k] ≤ s[k + i] := by
        rcases Nat.eq_zero_or_pos i with rfl | hpos
        · exact le_rfl
        · exact List.pairwise_iff_getElem.mp hs k (k + i) hk hki (by omega)
      exact hx.trans hle
    rw [hsplit, hdrop, Nat.add_zero]
    exact List.countP_le_length.trans_eq htake
  · intro hcount
    by_contra hlt
    rw [not_le] at hlt
    -- everything up to `k` is below `x`
    have hall : (s.take (k + 1)).countP (fun a => decide (a < x)) = (s.take (k + 1)).length := by
      rw [List.countP_eq_length]
      intro a ha
      obtain ⟨i, hi, rfl⟩ := List.mem_iff_getElem.mp ha
      rw [List.length_take] at hi
      have his : i < s.length := by omega
      rw [List.getElem_take, decide_eq_true_eq]
      have hle : s[i] ≤ s[k] := by
        rcases Nat.eq_or_lt_of_le (show i ≤ k by omega) with rfl | hik
        · exact le_rfl
        · exact List.pairwise_iff_getElem.mp hs i k his hk hik
      exact hle.trans_lt hlt
    have hsub : (s.take (k + 1)).countP (fun a => decide (a < x)) ≤
        s.countP fun a => decide (a < x) := (List.take_sublist _ _).countP_le
    rw [hall, List.length_take] at hsub
    omega

/-- **The median by counting.** It is at least `x` exactly when no more than half
of the elements are below `x`. -/
theorem le_upperMedian_iff {l : List α} {m : α} (h : upperMedian l = some m) (x : α) :
    x ≤ m ↔ l.countP (fun a => a < x) ≤ l.length / 2 := by
  unfold upperMedian at h
  obtain ⟨hk, rfl⟩ := List.getElem?_eq_some_iff.mp h
  have hperm : (l.insertionSort (· ≤ ·)).Perm l := List.perm_insertionSort _ l
  rw [le_getElem_iff (List.pairwise_insertionSort _ l) hk x, hperm.countP_eq]

/-- Elements added that are not below `m` keep the count, elements dropped lower
it: a median over no fewer elements is not below `m`. -/
theorem upperMedian_le_of_count {l l' : List α} {m m' : α} (h : upperMedian l = some m)
    (h' : upperMedian l' = some m') (hlen : l.length ≤ l'.length)
    (hcount : l'.countP (fun a => a < m) ≤ l.countP fun a => a < m) : m ≤ m' := by
  have hm := (le_upperMedian_iff h m).mp le_rfl
  rw [le_upperMedian_iff h']
  omega

/-- A window that grows by an element not below its median. -/
theorem upperMedian_concat {l : List α} {t m m' : α} (h : upperMedian l = some m) (ht : m ≤ t)
    (h' : upperMedian (l ++ [t]) = some m') : m ≤ m' := by
  refine upperMedian_le_of_count h h' ?_ ?_
  · rw [List.length_append]
    omega
  · rw [List.countP_append, List.countP_singleton, if_neg (by simpa using ht), Nat.add_zero]

/-- A window that slides: its oldest element goes, an element not below its median comes. -/
theorem upperMedian_slide {a : α} {l : List α} {t m m' : α} (h : upperMedian (a :: l) = some m)
    (ht : m ≤ t) (h' : upperMedian (l ++ [t]) = some m') : m ≤ m' := by
  refine upperMedian_le_of_count h h' ?_ ?_
  · rw [List.length_append, List.length_cons, List.length_singleton]
  · rw [List.countP_append, List.countP_singleton, if_neg (by simpa using ht), Nat.add_zero]
    exact (List.sublist_cons_self a l).countP_le

end Median
