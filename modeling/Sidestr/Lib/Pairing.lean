/-
# A tree built level by level

Leaves with values are paired left to right, each pair replaced by a branch
over its two values, an odd one out carried up unchanged, until one value is
left. Beside the values, each leaf keeps a path: the values its branches were
made with, from the leaf up. When a branch does not depend on the order of its
two values, folding the path of a leaf over its own value gives the root
(`climb_proves`), and a path has no more values than there are levels.

Key definitions: `Pairing.Node`, `Pairing.pairUp`, `Pairing.climb`.
Key theorems: `Pairing.pairUp_proves`, `Pairing.climb_proves`.
-/
import Mathlib.Data.List.Basic
import Mathlib.Data.List.Range
import Mathlib.Data.Nat.Log

namespace Pairing

/-- A value of a level, and the leaves below it. -/
structure Node (α : Type) where
  hash : α
  leaves : List ℕ

section

variable {α : Type}

/-- One more value on the paths of some leaves. -/
def pushTo (hash : α) (leaves : List ℕ) (paths : List (List α)) : List (List α) :=
  leaves.foldl (fun ps i => ps.modify i fun p => p ++ [hash]) paths

/-- One level up. -/
def pairUp (branch : α → α → α) : List (Node α) → List (List α) → List (Node α) × List (List α)
  | a :: b :: rest, paths =>
    let paths := pushTo a.hash b.leaves (pushTo b.hash a.leaves paths)
    let (next, paths) := pairUp branch rest paths
    (⟨branch a.hash b.hash, a.leaves ++ b.leaves⟩ :: next, paths)
  | level, paths => (level, paths)

theorem length_pairUp (branch : α → α → α) : ∀ (level : List (Node α)) (paths : List (List α)),
    (pairUp branch level paths).1.length = (level.length + 1) / 2
  | [], _ => by simp [pairUp]
  | [_], _ => by simp [pairUp]
  | _ :: _ :: rest, paths => by
    have ih := length_pairUp branch rest
    simp only [pairUp, List.length_cons, ih]
    omega

/-- Level by level, while there is more than one value. -/
def climb (branch : α → α → α) (level : List (Node α)) (paths : List (List α)) :
    List (Node α) × List (List α) :=
  if _ : 1 < level.length then
    climb branch (pairUp branch level paths).1 (pairUp branch level paths).2
  else (level, paths)
termination_by level.length
decreasing_by
  rw [length_pairUp]
  omega

/-! ### Paths -/

theorem getElem?_pushTo (hash : α) (i : ℕ) : ∀ (leaves : List ℕ) (paths : List (List α)),
    leaves.Nodup → (pushTo hash leaves paths)[i]? =
      if i ∈ leaves then (paths[i]?).map (fun p => p ++ [hash]) else paths[i]?
  | [], paths, _ => rfl
  | j :: leaves, paths, h => by
    rw [List.nodup_cons] at h
    have ih := getElem?_pushTo hash i leaves (paths.modify j fun p => p ++ [hash]) h.2
    have hpush : pushTo hash (j :: leaves) paths =
        pushTo hash leaves (paths.modify j fun p => p ++ [hash]) := rfl
    by_cases hij : j = i
    · subst hij
      rw [hpush, ih, if_neg h.1, List.getElem?_modify_eq, if_pos List.mem_cons_self]
      rfl
    · rw [hpush, ih, List.getElem?_modify_ne _ _ hij]
      simp only [List.mem_cons, Ne.symm hij, false_or]

/-- A leaf's path, of at most `k` values, folds to the value above it. -/
def Proves (branch : α → α → α) (leaf : ℕ → α) (paths : List (List α)) (k i : ℕ) (hash : α) : Prop :=
  ∃ p, paths[i]? = some p ∧ p.foldl branch (leaf i) = hash ∧ p.length ≤ k

variable {branch : α → α → α} {leaf : ℕ → α}

theorem Proves.congr {paths paths' : List (List α)} {k i : ℕ} {hash : α}
    (h : Proves branch leaf paths k i hash) (hsame : paths'[i]? = paths[i]?) :
    Proves branch leaf paths' k i hash := by
  obtain ⟨p, hp, hfold, hlen⟩ := h
  exact ⟨p, hsame.trans hp, hfold, hlen⟩

theorem Proves.mono {paths : List (List α)} {k k' i : ℕ} {hash : α}
    (h : Proves branch leaf paths k i hash) (hk : k ≤ k') : Proves branch leaf paths k' i hash := by
  obtain ⟨p, hp, hfold, hlen⟩ := h
  exact ⟨p, hp, hfold, hlen.trans hk⟩

/-- A value pushed on the paths of its sibling's leaves. -/
theorem Proves.push {paths : List (List α)} {k i : ℕ} {hash sibling : α} {leaves : List ℕ}
    (h : Proves branch leaf paths k i hash) (hnodup : leaves.Nodup) (hi : i ∈ leaves) :
    Proves branch leaf (pushTo sibling leaves paths) (k + 1) i (branch hash sibling) := by
  obtain ⟨p, hp, hfold, hlen⟩ := h
  refine ⟨p ++ [sibling], ?_, ?_, ?_⟩
  · rw [getElem?_pushTo _ _ _ _ hnodup, if_pos hi, hp, Option.map_some]
  · rw [List.foldl_append, hfold, List.foldl_cons, List.foldl_nil]
  · rw [List.length_append, List.length_singleton]
    omega

/-- Every leaf of a level proves its value. -/
def AllProve (branch : α → α → α) (leaf : ℕ → α) (k : ℕ) (level : List (Node α))
    (paths : List (List α)) : Prop :=
  ∀ node ∈ level, ∀ i ∈ node.leaves, Proves branch leaf paths k i node.hash

/-- **One level up** every leaf still proves its value, the leaves are the same,
and no other path has changed. -/
theorem pairUp_proves (hcomm : ∀ a b, branch a b = branch b a) {k : ℕ} :
    ∀ (level : List (Node α)) (paths : List (List α)), (level.flatMap Node.leaves).Nodup →
      AllProve branch leaf k level paths →
      AllProve branch leaf (k + 1) (pairUp branch level paths).1 (pairUp branch level paths).2 ∧
        (pairUp branch level paths).1.flatMap Node.leaves = level.flatMap Node.leaves ∧
        (∀ i ∉ level.flatMap Node.leaves, (pairUp branch level paths).2[i]? = paths[i]?)
  | [], paths, _, h => ⟨fun _ hn => absurd hn List.not_mem_nil, rfl, fun _ _ => rfl⟩
  | [a], paths, _, h =>
    ⟨fun node hn i hi => (h node hn i hi).mono (Nat.le_succ k), rfl, fun _ _ => rfl⟩
  | a :: b :: rest, paths, hnodup, h => by
    have hflat : (a :: b :: rest).flatMap Node.leaves =
        a.leaves ++ (b.leaves ++ rest.flatMap Node.leaves) := by
      rw [List.flatMap_cons, List.flatMap_cons]
    rw [hflat, List.nodup_append, List.nodup_append] at hnodup
    obtain ⟨ha, ⟨hb, hrest, hbrest⟩, habrest⟩ := hnodup
    have hab : ∀ i ∈ a.leaves, i ∉ b.leaves := fun i hi hm =>
      habrest i hi i (List.mem_append_left _ hm) rfl
    have harest : ∀ i ∈ a.leaves, i ∉ rest.flatMap Node.leaves := fun i hi hm =>
      habrest i hi i (List.mem_append_right _ hm) rfl
    have hbout : ∀ i ∈ b.leaves, i ∉ rest.flatMap Node.leaves := fun i hi hm =>
      hbrest i hi i hm rfl
    let pushed := pushTo a.hash b.leaves (pushTo b.hash a.leaves paths)
    -- a path of neither of the two is as it was
    have hother : ∀ i, i ∉ a.leaves → i ∉ b.leaves → pushed[i]? = paths[i]? := by
      intro i hia hib
      rw [getElem?_pushTo _ _ _ _ hb, if_neg hib, getElem?_pushTo _ _ _ _ ha, if_neg hia]
    have hleft : ∀ i ∈ a.leaves, Proves branch leaf pushed (k + 1) i (branch a.hash b.hash) := by
      intro i hi
      have hpush : Proves branch leaf (pushTo b.hash a.leaves paths) (k + 1) i
          (branch a.hash b.hash) := (h a List.mem_cons_self i hi).push ha hi
      refine hpush.congr ?_
      rw [getElem?_pushTo _ _ _ _ hb, if_neg (hab i hi)]
    have hright : ∀ i ∈ b.leaves, Proves branch leaf pushed (k + 1) i (branch a.hash b.hash) := by
      intro i hi
      rw [hcomm]
      have hold : Proves branch leaf (pushTo b.hash a.leaves paths) k i b.hash :=
        (h b (List.mem_cons_of_mem _ List.mem_cons_self) i hi).congr
          (by rw [getElem?_pushTo _ _ _ _ ha, if_neg fun hm => hab i hm hi])
      exact hold.push hb hi
    have hbelow : AllProve branch leaf k rest pushed := by
      intro node hn i hi
      have hm : i ∈ rest.flatMap Node.leaves := List.mem_flatMap.mpr ⟨node, hn, hi⟩
      exact (h node (List.mem_cons_of_mem _ (List.mem_cons_of_mem _ hn)) i hi).congr
        (hother i (fun hia => harest i hia hm) fun hib => hbout i hib hm)
    obtain ⟨hnext, hleaves, hframe⟩ := pairUp_proves hcomm rest pushed hrest hbelow
    have hpair : pairUp branch (a :: b :: rest) paths =
        (⟨branch a.hash b.hash, a.leaves ++ b.leaves⟩ :: (pairUp branch rest pushed).1,
          (pairUp branch rest pushed).2) := rfl
    rw [hpair, hflat]
    refine ⟨?_, ?_, ?_⟩
    · intro node hn i hi
      rcases List.mem_cons.mp hn with rfl | hn
      · rcases List.mem_append.mp hi with hi | hi
        · exact (hleft i hi).congr (hframe i (harest i hi))
        · exact (hright i hi).congr (hframe i (hbout i hi))
      · exact hnext node hn i hi
    · rw [List.flatMap_cons, hleaves, List.append_assoc]
    · intro i hi
      rw [List.mem_append, List.mem_append, not_or, not_or] at hi
      rw [hframe i hi.2.2, hother i hi.1 hi.2.1]

theorem clog_pairUp {n : ℕ} (h : 1 < n) : Nat.clog 2 ((n + 1) / 2) + 1 = Nat.clog 2 n := by
  rw [Nat.clog_of_two_le (by omega) h]
  rfl

/-- **The climb** ends with one value, which every leaf proves by a path of at
most as many values as there are levels above it. -/
theorem climb_proves (hcomm : ∀ a b, branch a b = branch b a) {k : ℕ} (level : List (Node α))
    (paths : List (List α)) (hne : level ≠ []) (hnodup : (level.flatMap Node.leaves).Nodup)
    (h : AllProve branch leaf k level paths) :
    ∃ root : Node α, (climb branch level paths).1 = [root] ∧
      root.leaves = level.flatMap Node.leaves ∧
      ∀ i ∈ root.leaves, Proves branch leaf (climb branch level paths).2
        (k + Nat.clog 2 level.length) i root.hash := by
  induction hn : level.length using Nat.strong_induction_on generalizing level paths k with
  | _ n ih =>
    subst hn
    rw [climb]
    by_cases hlong : 1 < level.length
    · rw [dif_pos hlong]
      obtain ⟨hnext, hleaves, -⟩ := pairUp_proves hcomm level paths hnodup h
      have hlen := length_pairUp branch level paths
      obtain ⟨root, hroot, hsame, hproves⟩ := ih (pairUp branch level paths).1.length
        (by rw [hlen]; omega) (pairUp branch level paths).1 (pairUp branch level paths).2
        (List.ne_nil_of_length_pos (by rw [hlen]; omega)) (hleaves ▸ hnodup) hnext rfl
      refine ⟨root, hroot, hsame.trans hleaves, fun i hi => ?_⟩
      have hlevels : k + 1 + Nat.clog 2 (pairUp branch level paths).1.length =
          k + Nat.clog 2 level.length := by
        rw [hlen, ← clog_pairUp hlong]
        omega
      exact hlevels ▸ hproves i hi
    · rw [dif_neg hlong]
      obtain ⟨node, rfl⟩ : ∃ node, level = [node] := by
        refine List.length_eq_one_iff.mp ?_
        have := List.length_pos_of_ne_nil hne
        omega
      refine ⟨node, rfl, by rw [List.flatMap_singleton], fun i hi => ?_⟩
      exact (h node List.mem_cons_self i hi).mono (Nat.le_add_right k _)

end

end Pairing
