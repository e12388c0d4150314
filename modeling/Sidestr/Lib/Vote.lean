/-
# One vote for each slot

A voter gives votes, each a value for a slot, and keeps a guard: the slots it
takes as voted for. When the guard has every slot it has voted for and a vote
is given only for a slot the guard does not have, it gives one value for each
slot (`Guarded`); the guard may be kept in memory, in a journal or both, and
may hold more than was voted for, as a journal that records the intent does.

With one value for each slot from every voter, two values for one slot cannot
both gather the votes of a number of voters that is more than half of them
(`agreement`).

The voters take steps one at a time, each from where it is (`Run`); what every
step of one keeps holds of every voter in every state of a run (`Run.holds`).

Key definitions: `Guarded`, `Gathers`, `Run`.
Key theorems: `Guarded.vote`, `Guarded.mono`, `agreement`, `Run.holds`.
-/
import Mathlib.Data.Finset.Card
import Mathlib.Data.Fintype.Card
import Mathlib.Logic.Function.Basic
import Mathlib.Tactic.Common

namespace Vote

variable {K V : Type}

/-- The slots voted for are in the guard, and each has one value. -/
structure Guarded (guard : K → Prop) (votes : List (K × V)) : Prop where
  guards : ∀ v ∈ votes, guard v.1
  once : ∀ v ∈ votes, ∀ w ∈ votes, v.1 = w.1 → v.2 = w.2

variable {guard guard' : K → Prop} {votes : List (K × V)}

theorem Guarded.nil : Guarded guard ([] : List (K × V)) :=
  ⟨List.forall_mem_nil _, List.forall_mem_nil _⟩

/-- A guard may take in more slots. -/
theorem Guarded.mono (h : Guarded guard votes) (hg : ∀ k, guard k → guard' k) :
    Guarded guard' votes :=
  ⟨fun v hv => hg _ (h.guards v hv), h.once⟩

/-- Votes of one value for a slot the guard did not have and now has. -/
theorem Guarded.vote (h : Guarded guard votes) {k : K} {a : V} {new : List (K × V)}
    (hk : ¬ guard k) (hg : ∀ k, guard k → guard' k) (hnew : ∀ v ∈ new, v = (k, a))
    (hk' : new ≠ [] → guard' k) : Guarded guard' (new ++ votes) := by
  have hfresh : ∀ v ∈ votes, v.1 ≠ k := by
    rintro v hv rfl
    exact hk (h.guards v hv)
  constructor
  · intro v hv
    rcases List.mem_append.mp hv with hv | hv
    · rw [hnew v hv]
      exact hk' (List.ne_nil_of_mem hv)
    · exact hg _ (h.guards v hv)
  · intro v hv w hw heq
    rcases List.mem_append.mp hv with hv | hv <;> rcases List.mem_append.mp hw with hw | hw
    · rw [hnew v hv, hnew w hw]
    · rw [hnew v hv] at heq
      exact absurd heq.symm (hfresh w hw)
    · rw [hnew w hw] at heq
      exact absurd heq (hfresh v hv)
    · exact h.once v hv w hw heq

variable {ι : Type} [Fintype ι] [DecidableEq K] [DecidableEq V]

/-- At least `k` of the voters have voted for the value at the slot. -/
def Gathers (votes : ι → List (K × V)) (k : ℕ) (slot : K) (a : V) : Prop :=
  k ≤ (Finset.univ.filter fun i => (slot, a) ∈ votes i).card

instance {votes : ι → List (K × V)} {k : ℕ} {slot : K} {a : V} :
    Decidable (Gathers votes k slot a) :=
  inferInstanceAs (Decidable (_ ≤ _))

/-- Two sets of more than half of the voters share one. -/
theorem exists_mem_inter {k : ℕ} (hk : Fintype.card ι < 2 * k) {A B : Finset ι}
    (hA : k ≤ A.card) (hB : k ≤ B.card) : ∃ i, i ∈ A ∧ i ∈ B := by
  classical
  by_contra hnone
  have hdisj : Disjoint A B := by
    rw [Finset.disjoint_left]
    intro i hiA hiB
    exact hnone ⟨i, hiA, hiB⟩
  have hcard := Finset.card_union_of_disjoint hdisj
  have hle := Finset.card_le_univ (A ∪ B)
  omega

/-- **Agreement.** Voters with one value for each slot do not gather a majority
for two values at one slot. -/
theorem agreement {votes : ι → List (K × V)} {guards : ι → K → Prop} {k : ℕ}
    (hk : Fintype.card ι < 2 * k) (h : ∀ i, Guarded (guards i) (votes i)) {slot : K} {a b : V}
    (ha : Gathers votes k slot a) (hb : Gathers votes k slot b) : a = b := by
  obtain ⟨i, hiA, hiB⟩ := exists_mem_inter hk ha hb
  have hva := (Finset.mem_filter.mp hiA).2
  have hvb := (Finset.mem_filter.mp hiB).2
  exact (h i).once _ hva _ hvb rfl

/-! ### Runs -/

/-- The runs of some voters: from where they start, one of them takes a step at
a time. -/
inductive Run {ι S : Type} [DecidableEq ι] (start : S → Prop) (step : S → S → Prop) :
    (ι → S) → Prop
  | init {w} (h : ∀ i, start (w i)) : Run start step w
  | step {w i s'} (h : Run start step w) (hs : step (w i) s') : Run start step (Function.update w i s')

/-- What holds at the start and is kept by a step of one voter holds of every voter. -/
theorem Run.holds {ι S : Type} [DecidableEq ι] {start : S → Prop} {step : S → S → Prop}
    {inv : S → Prop} (hstart : ∀ s, start s → inv s) (hstep : ∀ s s', step s s' → inv s → inv s')
    {w : ι → S} (h : Run start step w) : ∀ i, inv (w i) := by
  induction h with
  | init h => exact fun i => hstart _ (h i)
  | @step w i s' _ hs ih =>
    intro k
    by_cases hk : k = i
    · subst hk
      rw [Function.update_self]
      exact hstep _ _ hs (ih k)
    · rw [Function.update_of_ne hk]
      exact ih k

end Vote
