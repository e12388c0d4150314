/-
# The resolved inputs

`resolveSpending` lists every input it resolved by transaction and input
index. The script rule looks the prevouts up in that list by index, without a
check that they are there: it relies on the list having, for each
transaction, an increasing run of its own input indices, so that a run as
long as the inputs is all of them (`resolved_sublist`). That is what keeps
the look-up inside the list on any block (`scriptsOk_returns`).

Key theorems: `scanTx_resolved`, `resolved_sublist`, `scriptsOk_returns`.
-/
import Sidestr.Core.Rules

namespace Sidestr

variable (params : Params) (utxo created : Utxo) (height ti : ℕ) (tx : Transaction)

/-- One input resolves to at most one entry, under its own indices. -/
theorem scanInput_resolved (st : InputScan) (p : TxIn × ℕ) :
    ∃ new, (scanInput params utxo height created ti tx st p).spending.resolved =
      st.spending.resolved ++ new ∧ (new = [] ∨ ∃ o, new = [(ti, p.2, o)]) := by
  simp only [scanInput]
  split_ifs
  · exact ⟨[], by simp, .inl rfl⟩
  · cases (created.lookup p.1.previousOutput).or (utxo.lookup p.1.previousOutput) with
    | none => exact ⟨[], by simp [Spending.lock], .inl rfl⟩
    | some c => exact ⟨[(ti, p.2, c.output)], by simp [Spending.lock], .inr ⟨_, rfl⟩⟩

/-- The entries one transaction adds: its own, an increasing run of its inputs. -/
structure OwnRun (ti k n : ℕ) (new : List (ℕ × ℕ × TxOut)) : Prop where
  own : ∀ e ∈ new, e.1 = ti
  run : (new.map fun e => e.2.1).Sublist (List.range' k n)

theorem scanInputs_resolved : ∀ (ins : List TxIn) (k : ℕ) (st : InputScan),
    ∃ new, ((ins.zipIdx k).foldl (scanInput params utxo height created ti tx) st).spending.resolved =
      st.spending.resolved ++ new ∧ OwnRun ti k ins.length new
  | [], k, st => ⟨[], by simp, by simp, by simp⟩
  | i :: ins, k, st => by
    obtain ⟨new1, h1, hnew1⟩ := scanInput_resolved params utxo created height ti tx
      st (i, k)
    obtain ⟨new2, h2, hown, hrun⟩ := scanInputs_resolved ins (k + 1)
      (scanInput params utxo height created ti tx st (i, k))
    refine ⟨new1 ++ new2, by rw [List.zipIdx_cons, List.foldl_cons, h2, h1, List.append_assoc], ?_, ?_⟩
    · intro e he
      rcases List.mem_append.mp he with he | he
      · rcases hnew1 with rfl | ⟨o, rfl⟩
        · simp at he
        · rw [List.mem_singleton] at he
          rw [he]
      · exact hown e he
    · rw [List.length_cons, List.range'_succ]
      rcases hnew1 with rfl | ⟨o, rfl⟩
      · exact hrun.cons k
      · exact hrun.cons_cons k

variable [Bitcoin]

/-- Adding the fee resolves nothing. -/
theorem addFee_resolved (st : InputScan) : (addFee tx st).resolved = st.spending.resolved := by
  unfold addFee
  split_ifs
  · cases sumOut tx with
    | none => rfl
    | some o =>
      dsimp only
      split_ifs
      · rfl
      · rfl
  · rfl

theorem scanTx_resolved (st : BlockScan) (p : Transaction × ℕ) :
    ∃ new, (scanTx params utxo height st p).spending.resolved = st.spending.resolved ++ new ∧
      OwnRun p.2 0 p.1.input.length new := by
  simp only [scanTx]
  split_ifs
  · exact ⟨[], by simp, by simp, by simp⟩
  · rw [addFee_resolved]
    exact scanInputs_resolved params utxo _ height _ _ _ _ _

omit [Bitcoin] in
theorem resolvedOf_append (l l' : List (ℕ × ℕ × TxOut)) (i : ℕ) :
    resolvedOf (l ++ l') i = resolvedOf l i ++ resolvedOf l' i := List.filterMap_append

omit [Bitcoin] in
/-- The entries of another transaction are none of this one's. -/
theorem resolvedOf_eq_nil {l : List (ℕ × ℕ × TxOut)} {i : ℕ} (h : ∀ e ∈ l, e.1 ≠ i) :
    resolvedOf l i = [] := by
  simp only [resolvedOf, List.filterMap_eq_nil_iff]
  intro e he
  rw [if_neg (h e he)]

omit [Bitcoin] in
theorem OwnRun.resolvedOf {i k n : ℕ} {new : List (ℕ × ℕ × TxOut)} (h : OwnRun i k n new) :
    (resolvedOf new i).map Prod.fst = new.map fun e => e.2.1 := by
  obtain ⟨hown, -⟩ := h
  induction new with
  | nil => rfl
  | cons e new ih =>
    have he := hown e List.mem_cons_self
    have ih := ih fun e' h' => hown e' (List.mem_cons_of_mem _ h')
    simp only [Sidestr.resolvedOf] at ih
    simp [Sidestr.resolvedOf, he, ih]

/-- The whole scan from transaction `k` on: what was resolved before stays, and
each transaction's entries are an increasing run of its inputs. -/
theorem scan_resolved : ∀ (txs : List Transaction) (k : ℕ) (st : BlockScan),
    ∃ new, ((txs.zipIdx k).foldl (scanTx params utxo height) st).spending.resolved =
      st.spending.resolved ++ new ∧ (∀ e ∈ new, k ≤ e.1) ∧
      ∀ p ∈ txs.zipIdx k, ((resolvedOf new p.2).map Prod.fst).Sublist
        (List.range p.1.input.length)
  | [], k, st => ⟨[], by simp, by simp, by simp⟩
  | tx :: txs, k, st => by
    obtain ⟨new1, h1, hrun1⟩ := scanTx_resolved params utxo height st (tx, k)
    obtain ⟨new2, h2, hge, hrun2⟩ := scan_resolved txs (k + 1) (scanTx params utxo height st (tx, k))
    refine ⟨new1 ++ new2, by rw [List.zipIdx_cons, List.foldl_cons, h2, h1, List.append_assoc], ?_, ?_⟩
    · intro e he
      rcases List.mem_append.mp he with he | he
      · exact (hrun1.own e he).ge
      · exact (hge e he).trans' (Nat.le_succ k)
    · intro p hp
      rw [List.zipIdx_cons, List.mem_cons] at hp
      rw [resolvedOf_append]
      rcases hp with rfl | hp
      · rw [resolvedOf_eq_nil (l := new2) fun e he => ?_, List.append_nil, hrun1.resolvedOf,
          List.range_eq_range']
        · exact hrun1.run
        · have := hge e he
          dsimp only
          omega
      · have hk := List.le_snd_of_mem_zipIdx hp
        rw [resolvedOf_eq_nil (l := new1) fun e he => ?_, List.nil_append]
        · exact hrun2 p hp
        · have := hrun1.own e he
          dsimp only at this
          omega

/-- The resolved inputs of each transaction are an increasing run of its inputs. -/
theorem resolved_sublist {txdata : List Transaction} {p : Transaction × ℕ}
    (hp : p ∈ txdata.zipIdx) :
    ((resolvedOf (resolveSpending params utxo height txdata).resolved p.2).map Prod.fst).Sublist
      (List.range p.1.input.length) := by
  obtain ⟨new, h, -, hrun⟩ := scan_resolved params utxo height txdata 0 {}
  rw [resolveSpending, h]
  exact hrun p hp

omit [Bitcoin] in
/-- Prevouts are found at every index the list has. -/
theorem prevoutsOf_returns {r : List (ℕ × TxOut)} : ∀ (is : List ℕ),
    (∀ i ∈ is, i ∈ r.map Prod.fst) → ∃ os, prevoutsOf r is = .ok os
  | [], _ => ⟨[], rfl⟩
  | i :: is, h => by
    have hi : ∃ o, r.lookup i = some o := by
      obtain ⟨p, hp, rfl⟩ := List.mem_map.mp (h i List.mem_cons_self)
      rw [← Option.isSome_iff_exists, ← Option.ne_none_iff_isSome, ne_eq, List.lookup_eq_none_iff]
      intro hall
      simpa using hall p hp
    obtain ⟨o, ho⟩ := hi
    obtain ⟨os, hos⟩ := prevoutsOf_returns is fun j hj => h j (List.mem_cons_of_mem _ hj)
    exact ⟨o :: os, by simp only [prevoutsOf, ho, hos, Res.expect_some, Res.ok_bind]⟩

/-- **The script rule stays inside its list** on any block: it returns. -/
theorem scriptsOk_returns (rules : SighashRules) (txdata : List Transaction) :
    ∃ ok, scriptsOk rules (resolveSpending params utxo height txdata).resolved txdata = .ok ok := by
  refine Res.foldlM_returns fun p hp ok => ?_
  have hsub := resolved_sublist params utxo height hp
  simp only [scriptsOfTx]
  split_ifs with h1 h2
  · exact ⟨ok, rfl⟩
  · exact ⟨false, rfl⟩
  -- a run as long as the inputs is every index
  have hrange : (resolvedOf (resolveSpending params utxo height txdata).resolved p.2).map Prod.fst =
      List.range p.1.input.length :=
    hsub.eq_of_length (by rw [List.length_map, List.length_range]; exact not_not.mp h2)
  obtain ⟨os, hos⟩ := prevoutsOf_returns (List.range p.1.input.length)
    fun i hi => hrange ▸ hi
  exact ⟨_, by rw [hos, Res.ok_bind]⟩

end Sidestr
