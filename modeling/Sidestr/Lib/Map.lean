/-
# Finite maps and their totals

The code keeps its state in hash maps and tree maps: what matters of them is
what a key maps to. `Map K V` is Mathlib's `Finmap` at a constant value type,
so two maps with the same lookups are equal. A ledger is such a map with an
amount in each entry, and the facts a ledger proof needs are about its total:
what an insertion, a removal and a batch of them do to the sum of the
entries' amounts.

Key definitions: `Map`, `Map.total`, `Map.eraseAll`, `Map.insertAll`, `Map.restrict`.
Key theorems: `Map.total_insert_le`, `Map.total_erase`, `Map.total_eraseAll`,
`Map.total_insertAll_le`, `Map.total_union_le`, `Map.lookup_insertAll`.
-/
import Mathlib.Data.Finmap
import Mathlib.Algebra.GroupWithZero.Nat
import Mathlib.Algebra.BigOperators.Group.Multiset.Basic
import Mathlib.Algebra.Order.BigOperators.Group.Multiset

/-- A finite map from `K` to `V`. -/
abbrev Map (K V : Type) := Finmap fun _ : K => V

namespace Map

variable {K V : Type} [DecidableEq K]

/-- The sum of `f` over the entries of a map. -/
def total (f : K → V → ℕ) (m : Map K V) : ℕ :=
  (m.entries.map fun e => f e.1 e.2).sum

/-- What `f` gives on the entry at `k`, zero when there is none. -/
def at' (f : K → V → ℕ) (m : Map K V) (k : K) : ℕ :=
  match m.lookup k with
  | some v => f k v
  | none => 0

variable {f : K → V → ℕ} {m : Map K V} {k : K} {v : V}

omit [DecidableEq K] in
@[simp] theorem total_empty : total f (∅ : Map K V) = 0 := rfl

theorem at'_of_lookup (h : m.lookup k = some v) : at' f m k = f k v := by
  simp [at', h]

theorem at'_of_none (h : m.lookup k = none) : at' f m k = 0 := by
  simp [at', h]

/-- A fresh key adds its amount to the total. -/
theorem total_insert_of_notMem (h : k ∉ m) : total f (m.insert k v) = f k v + total f m := by
  simp only [total, Finmap.entries_insert_of_notMem h, Multiset.map_cons, Multiset.sum_cons]

/-- An entry and the rest of the map make the map again. -/
theorem insert_erase_of_lookup (h : m.lookup k = some v) : (m.erase k).insert k v = m := by
  apply Finmap.ext_lookup
  intro x
  by_cases hx : x = k
  · subst hx
    rw [Finmap.lookup_insert, h]
  · rw [Finmap.lookup_insert_of_ne _ hx, Finmap.lookup_erase_ne hx]

/-- Removing a key takes the amount of its entry off the total. -/
theorem total_erase : total f m = at' f m k + total f (m.erase k) := by
  cases h : m.lookup k with
  | none =>
    have hm : m.erase k = m := by
      apply Finmap.ext_lookup
      intro x
      by_cases hx : x = k
      · subst hx
        rw [Finmap.lookup_erase, h]
      · rw [Finmap.lookup_erase_ne hx]
    rw [hm, at'_of_none h, Nat.zero_add]
  | some v =>
    rw [at'_of_lookup h]
    nth_rewrite 1 [← insert_erase_of_lookup h]
    exact total_insert_of_notMem (by simp [Finmap.mem_erase])

theorem at'_le_total : at' f m k ≤ total f m := by
  rw [total_erase (k := k)]
  exact Nat.le_add_right _ _

theorem insert_erase_self : (m.erase k).insert k v = m.insert k v := by
  apply Finmap.ext_lookup
  intro x
  by_cases hx : x = k
  · subst hx
    rw [Finmap.lookup_insert, Finmap.lookup_insert]
  · rw [Finmap.lookup_insert_of_ne _ hx, Finmap.lookup_insert_of_ne _ hx, Finmap.lookup_erase_ne hx]

/-- An insertion replaces the entry that was there. -/
theorem total_insert : total f (m.insert k v) + at' f m k = f k v + total f m := by
  rw [← insert_erase_self, total_insert_of_notMem (by simp [Finmap.mem_erase]),
    total_erase (m := m) (k := k)]
  omega

/-- An insertion adds at most its own amount. -/
theorem total_insert_le : total f (m.insert k v) ≤ total f m + f k v := by
  have := total_insert (f := f) (m := m) (k := k) (v := v)
  omega

/-! ### Batches -/

/-- Remove every key of a list. -/
def eraseAll (ks : List K) (m : Map K V) : Map K V :=
  ks.foldl (fun m k => m.erase k) m

/-- Insert every pair of a list, in order. -/
def insertAll (kvs : List (K × V)) (m : Map K V) : Map K V :=
  kvs.foldl (fun m kv => m.insert kv.1 kv.2) m

@[simp] theorem eraseAll_nil : eraseAll [] m = m := rfl

@[simp] theorem eraseAll_cons (ks : List K) : eraseAll (k :: ks) m = eraseAll ks (m.erase k) := rfl

@[simp] theorem insertAll_nil : insertAll [] m = m := rfl

@[simp] theorem insertAll_cons (kv : K × V) (kvs : List (K × V)) :
    insertAll (kv :: kvs) m = insertAll kvs (m.insert kv.1 kv.2) := rfl

theorem lookup_eraseAll_of_notMem : ∀ {ks : List K} {m : Map K V} {k : K}, k ∉ ks →
    (eraseAll ks m).lookup k = m.lookup k
  | [], _, _, _ => rfl
  | j :: ks, m, k, h => by
    simp only [List.mem_cons, not_or] at h
    rw [eraseAll_cons, lookup_eraseAll_of_notMem h.2, Finmap.lookup_erase_ne h.1]

theorem lookup_eraseAll_of_mem : ∀ {ks : List K} {m : Map K V} {k : K}, k ∈ ks →
    (eraseAll ks m).lookup k = none
  | [], _, _, h => by simp at h
  | j :: ks, m, k, h => by
    rw [eraseAll_cons]
    by_cases hk : k ∈ ks
    · exact lookup_eraseAll_of_mem hk
    · obtain rfl : k = j := by simpa [hk] using h
      rw [lookup_eraseAll_of_notMem hk, Finmap.lookup_erase]

theorem lookup_insertAll_of_notMem : ∀ {kvs : List (K × V)} {m : Map K V} {k : K},
    k ∉ kvs.map Prod.fst → (insertAll kvs m).lookup k = m.lookup k
  | [], _, _, _ => rfl
  | kv :: kvs, m, k, h => by
    simp only [List.map_cons, List.mem_cons, not_or] at h
    rw [insertAll_cons, lookup_insertAll_of_notMem h.2, Finmap.lookup_insert_of_ne _ h.1]

/-- Where a batch of insertions puts a value, it is one of the batch. -/
theorem lookup_insertAll_eq_some : ∀ {kvs : List (K × V)} {m : Map K V} {k : K} {v : V},
    (insertAll kvs m).lookup k = some v → (k, v) ∈ kvs ∨ m.lookup k = some v
  | [], _, _, _, h => .inr h
  | kv :: kvs, m, k, v, h => by
    rw [insertAll_cons] at h
    rcases lookup_insertAll_eq_some h with h | h
    · exact .inl (List.mem_cons_of_mem _ h)
    · by_cases hk : k = kv.1
      · subst hk
        rw [Finmap.lookup_insert, Option.some.injEq] at h
        left
        rw [← h]
        exact List.mem_cons_self
      · rw [Finmap.lookup_insert_of_ne _ hk] at h
        exact .inr h

/-- Removing distinct keys takes their amounts off the total. -/
theorem total_eraseAll : ∀ {ks : List K} {m : Map K V}, ks.Nodup →
    total f m = (ks.map (at' f m)).sum + total f (eraseAll ks m)
  | [], m, _ => by simp
  | k :: ks, m, h => by
    rw [List.nodup_cons] at h
    have hat : ∀ j ∈ ks, at' f (m.erase k) j = at' f m j := by
      intro j hj
      have hne : j ≠ k := fun e => h.1 (e ▸ hj)
      simp only [at', Finmap.lookup_erase_ne hne]
    rw [eraseAll_cons, List.map_cons, List.sum_cons, total_erase (k := k),
      total_eraseAll (m := m.erase k) h.2, List.map_congr_left hat]
    omega

theorem total_eraseAll_le : ∀ (ks : List K) (m : Map K V), total f (eraseAll ks m) ≤ total f m
  | [], m => by simp
  | k :: ks, m => by
    have h := total_erase (f := f) (m := m) (k := k)
    have h' := total_eraseAll_le ks (m.erase k)
    rw [eraseAll_cons]
    omega

/-- A batch of insertions adds at most the sum of its amounts. -/
theorem total_insertAll_le : ∀ (kvs : List (K × V)) (m : Map K V),
    total f (insertAll kvs m) ≤ total f m + (kvs.map fun kv => f kv.1 kv.2).sum
  | [], m => by simp
  | kv :: kvs, m => by
    have h := total_insertAll_le kvs (m.insert kv.1 kv.2)
    have h' := total_insert_le (f := f) (m := m) (k := kv.1) (v := kv.2)
    rw [insertAll_cons, List.map_cons, List.sum_cons]
    omega

/-- A batch of insertions is looked up first in itself, then in the map. -/
theorem lookup_insertAll : ∀ (kvs : List (K × V)) (m : Map K V) (k : K),
    (insertAll kvs m).lookup k = ((insertAll kvs ∅).lookup k).or (m.lookup k)
  | [], m, k => by simp
  | kv :: kvs, m, k => by
    rw [insertAll_cons, insertAll_cons, lookup_insertAll kvs (m.insert kv.1 kv.2),
      lookup_insertAll kvs (Finmap.insert kv.1 kv.2 ∅)]
    by_cases hk : k = kv.1
    · subst hk
      simp [Finmap.lookup_insert]
    · simp [Finmap.lookup_insert_of_ne _ hk]

/-- Keys that all take one value. -/
theorem lookup_insertAll_const (v : V) : ∀ (ks : List K) (m : Map K V) (k : K),
    (insertAll (ks.map fun j => (j, v)) m).lookup k = if k ∈ ks then some v else m.lookup k
  | [], m, k => by simp
  | j :: ks, m, k => by
    rw [List.map_cons, insertAll_cons, lookup_insertAll_const v ks]
    by_cases hk : k ∈ ks
    · simp [hk]
    · by_cases hj : k = j
      · subst hj
        simp [hk, Finmap.lookup_insert]
      · simp [hk, hj, Finmap.lookup_insert_of_ne _ hj]

/-! ### Restriction -/

/-- The entries at the keys `ks`. -/
def restrict (ks : List K) (m : Map K V) : Map K V :=
  insertAll (ks.filterMap fun k => (m.lookup k).map fun v => (k, v)) ∅

theorem lookup_restrict_of_notMem {ks : List K} {m : Map K V} {k : K} (h : k ∉ ks) :
    (restrict ks m).lookup k = none := by
  rw [restrict, lookup_insertAll_of_notMem, Finmap.lookup_empty]
  simp only [List.mem_map, List.mem_filterMap, Option.map_eq_some_iff, not_exists, not_and]
  rintro ⟨j, v⟩ ⟨i, hi, w, -, he⟩ rfl
  simp only [Prod.mk.injEq] at he
  exact h (he.1 ▸ hi)

theorem lookup_restrict_of_mem : ∀ {ks : List K} {m : Map K V} {k : K}, k ∈ ks →
    (restrict ks m).lookup k = m.lookup k
  | j :: ks, m, k, h => by
    have hcons : (restrict (j :: ks) m).lookup k =
        ((restrict ks m).lookup k).or (if k = j then m.lookup k else none) := by
      unfold restrict
      cases hj : m.lookup j with
      | none =>
        rw [List.filterMap_cons_none (by simp [hj])]
        split_ifs with hk
        · subst hk
          simp [hj]
        · simp
      | some v =>
        rw [List.filterMap_cons_some (by simp [hj]; rfl), insertAll_cons, lookup_insertAll]
        congr 1
        split_ifs with hk
        · subst hk
          rw [hj, Finmap.lookup_insert]
        · rw [Finmap.lookup_insert_of_ne _ hk, Finmap.lookup_empty]
    rw [hcons]
    by_cases hk : k ∈ ks
    · rw [lookup_restrict_of_mem hk]
      split_ifs
      · cases m.lookup k <;> rfl
      · cases m.lookup k <;> rfl
    · obtain rfl : k = j := by simpa [hk] using h
      rw [lookup_restrict_of_notMem hk, if_pos rfl, Option.none_or]

theorem at'_restrict_of_mem {ks : List K} (h : k ∈ ks) : at' f (restrict ks m) k = at' f m k := by
  simp only [at', lookup_restrict_of_mem h]

/-- Restricted to distinct keys, a map holds the amounts at these keys. -/
theorem total_restrict {ks : List K} (h : ks.Nodup) :
    total f (restrict ks m) = (ks.map (at' f m)).sum := by
  have hempty : eraseAll ks (restrict ks m) = ∅ := by
    apply Finmap.ext_lookup
    intro k
    by_cases hk : k ∈ ks
    · rw [lookup_eraseAll_of_mem hk, Finmap.lookup_empty]
    · rw [lookup_eraseAll_of_notMem hk, lookup_restrict_of_notMem hk, Finmap.lookup_empty]
  have ht := total_eraseAll (f := f) (m := restrict ks m) h
  rw [hempty, total_empty, Nat.add_zero] at ht
  rw [ht, List.map_congr_left fun k hk => at'_restrict_of_mem hk]

/-- The entries at distinct keys and the rest make the total. -/
theorem total_restrict_add_eraseAll {ks : List K} (h : ks.Nodup) :
    total f (restrict ks m) + total f (eraseAll ks m) = total f m := by
  rw [total_restrict h, ← total_eraseAll h]

/-! ### Unions -/

theorem lookup_union (m m' : Map K V) (k : K) :
    (m ∪ m').lookup k = (m.lookup k).or (m'.lookup k) := by
  by_cases h : k ∈ m
  · obtain ⟨v, hv⟩ := Finmap.mem_iff.mp h
    rw [Finmap.lookup_union_left h, hv, Option.some_or]
  · rw [Finmap.lookup_union_right h, Finmap.lookup_eq_none.mpr h, Option.none_or]

/-- A union holds at most what its two parts hold. -/
theorem total_union_le (m m' : Map K V) : total f (m ∪ m') ≤ total f m + total f m' := by
  have hks : m.keys.toList.Nodup := m.keys.nodup_toList
  have hmem : ∀ k ∈ m.keys.toList, k ∈ m := by
    intro k hk
    simpa [Finmap.mem_keys] using hk
  -- on the keys of `m` the union is `m`, off them it is `m'`
  have hat : ∀ k ∈ m.keys.toList, at' f (m ∪ m') k = at' f m k := by
    intro k hk
    simp only [at', Finmap.lookup_union_left (hmem k hk)]
  have hoff : eraseAll m.keys.toList (m ∪ m') = eraseAll m.keys.toList m' := by
    apply Finmap.ext_lookup
    intro k
    by_cases hk : k ∈ m.keys.toList
    · rw [lookup_eraseAll_of_mem hk, lookup_eraseAll_of_mem hk]
    · have hk' : k ∉ m := by simpa [Finmap.mem_keys] using hk
      rw [lookup_eraseAll_of_notMem hk, lookup_eraseAll_of_notMem hk,
        Finmap.lookup_union_right hk']
  have h1 := total_eraseAll (f := f) (m := m ∪ m') hks
  have h2 := total_eraseAll (f := f) (m := m) hks
  have h3 := total_eraseAll_le (f := f) m.keys.toList m'
  rw [List.map_congr_left hat, hoff] at h1
  omega

end Map
