/-
# Ordering a mempool through the overlays

A producer orders its transactions before a block exists
(`OverlayRules::sequence`): each is checked on temporary views, and a refused
one is dropped. That is the rules' own loop written again, with its own traces,
views and look-up of the spent scripts. The two agree (`sequence_agrees`): the
block of a coinbase without records and the transactions kept, in order, passes
the three rules, and one with a dropped transaction in its place does not.

The proof carries the three rules' folds over the block so far along the loop
(`Passing`), whatever the rest of the block is: the scripts a transaction
spends are settled by what stands before it (`scriptsAt_eq`).

Key definitions: `OverlaySequence`, `sequence`, `Unspent`, `Passing`.
Key theorems: `scriptsAt_eq`, `Passing.next`, `Passing.refuse`, `Sequenced.next`, `sequence_agrees`.
-/
import Sidestr.Core.Traceless
import Sidestr.Core.Resolved
import Sidestr.Core.AssetSupply

namespace Sidestr

/-! ### The sequence -/

/-- The result of ordering transactions through the overlays. -/
structure OverlaySequence where
  /-- Indices in the input that remain, in order. -/
  kept : List ℕ := []
  /-- Rejected indices and the reason. -/
  dropped : List (ℕ × String) := []

/-- The loop's state: the temporary views, the scripts of the outputs kept so
far, and the result. -/
structure Sequencing where
  assets : AssetView
  pools : PoolView
  markets : MarketView
  created : Map OutPoint Bytes := ∅
  sequence : OverlaySequence := {}

section

variable [Bitcoin]

/-- The scripts of the coins a transaction spends, by input: of an output of an
earlier kept transaction, or a confirmed one. -/
def spentScripts (created : Map OutPoint Bytes) (scriptOf : OutPoint → Option Bytes)
    (tx : Transaction) : List (ℕ × Bytes) :=
  tx.input.zipIdx.filterMap fun p =>
    ((created.lookup p.1.previousOutput).or (scriptOf p.1.previousOutput)).map fun s => (p.2, s)

/-- Every output of a transaction with its script. -/
def outputScripts (tx : Transaction) : List (OutPoint × Bytes) :=
  tx.output.zipIdx.map fun p => (outPointAt (Bitcoin.computeTxid tx) p.2, p.1.scriptPubkey)

/-- The pool rule on one transaction of the sequence, where it is there. -/
def sequencePool (r : OverlayRules) (checks : Bool) (height : ℕ) (pools : PoolView)
    (tx : Transaction) (trace : AssetTrace) : Res String PoolView :=
  if r.pool then do
    let effect ← pools.check checks tx trace height false
    match effect with
    | some pool => .ok (pools.apply pool)
    | none => .ok pools
  else .ok pools

/-- The markets rule on one transaction of the sequence, from its height on. -/
def sequenceMarket (r : OverlayRules) (height : ℕ) (markets : MarketView) (tx : Transaction)
    (trace : AssetTrace) (scripts : List (ℕ × Bytes)) : Res String MarketView :=
  if r.marketsFrom height then do
    let effect ← markets.check tx trace height false scripts
    match effect with
    | some market => .ok (markets.apply market)
    | none => .ok markets
  else .ok markets

/-- Drop a transaction: nothing else changes. -/
def Sequencing.drop (st : Sequencing) (index : ℕ) (why : String) : Sequencing :=
  { st with sequence := { st.sequence with dropped := st.sequence.dropped ++ [(index, why)] } }

/-- One transaction of the sequence. -/
def sequenceTx (r : OverlayRules) (checks : Bool) (held : Overlays) (height : ℕ)
    (scriptOf : OutPoint → Option Bytes) (st : Sequencing) (p : Transaction × ℕ) :
    Res String Sequencing :=
  let (tx, index) := p
  match st.assets.checkInner (mintPolicy r held) tx with
  | .panic => .panic
  | .err e => .ok (st.drop index ("assets: " ++ e))
  | .ok outputs =>
    let trace : AssetTrace := ⟨st.assets.traceInputs tx, outputs⟩
    match sequencePool r checks height st.pools tx trace with
    | .panic => .panic
    | .err e => .ok (st.drop index ("pool: " ++ e))
    | .ok pools =>
      match sequenceMarket r height st.markets tx trace (spentScripts st.created scriptOf tx) with
      | .panic => .panic
      | .err e => .ok (st.drop index ("markets: " ++ e))
      | .ok markets =>
        .ok { assets := (st.assets.applyTransactions (mintPolicy r held) height [(tx, 0)]).1
              pools, markets
              created := Map.insertAll (outputScripts tx) st.created
              sequence := { st.sequence with kept := st.sequence.kept ++ [index] } }

/-- Order a mempool through assets, pools and markets, committing each accepted
transaction only to the temporary views seen by the next. -/
def OverlayRules.sequence (r : OverlayRules) (checks : Bool) (held : Overlays)
    (txs : List Transaction) (height : ℕ) (scriptOf : OutPoint → Option Bytes) :
    Res String OverlaySequence := do
  let st ← Res.foldlM (sequenceTx r checks held height scriptOf)
    { assets := held.assets.view, pools := held.pool.view, markets := held.markets.view } txs.zipIdx
  .ok st.sequence

/-! ### The scripts a block's transaction spends -/

/-- The coins a block's transactions make, the coinbase's first. -/
def createdBy (height : ℕ) (cb : Transaction) (txs : List Transaction) : Utxo :=
  txs.foldl (fun created tx =>
    Map.insertAll (coinsOf (Bitcoin.computeTxid tx) tx height false) created)
    (Map.insertAll (coinsOf (Bitcoin.computeTxid cb) cb height true) ∅)

/-- The outpoints some transactions spend. -/
def inputsOf (txs : List Transaction) : List OutPoint :=
  txs.flatMap fun tx => tx.input.map TxIn.previousOutput

/-- What a transaction's inputs resolve to, in the coins made before it in the
block or in the set. -/
def resolvedInputs {α : Type} (created utxo : Utxo) (f : ℕ → TxOut → α) (tx : Transaction) : List α :=
  tx.input.zipIdx.filterMap fun p =>
    ((created.lookup p.1.previousOutput).or (utxo.lookup p.1.previousOutput)).map fun c =>
      f p.2 c.output

variable {params : Params} {utxo : Utxo} {height : ℕ}

omit [Bitcoin] in
/-- The scan of a transaction's inputs resolves each that has a coin. -/
theorem scanInputs_eq {created : Utxo} {ti : ℕ} {tx : Transaction} :
    ∀ (ins : List TxIn) (k : ℕ) (st : InputScan), (ins.map TxIn.previousOutput).Nodup →
      (∀ i ∈ ins, i.previousOutput ∉ st.spentHere) →
      ((ins.zipIdx k).foldl (scanInput params utxo height created ti tx) st).spending.resolved =
        st.spending.resolved ++ (ins.zipIdx k).filterMap (fun p =>
          ((created.lookup p.1.previousOutput).or (utxo.lookup p.1.previousOutput)).map fun c =>
            (ti, p.2, c.output)) ∧
      ∀ o, o ∈ ((ins.zipIdx k).foldl (scanInput params utxo height created ti tx) st).spentHere ↔
        o ∈ ins.map TxIn.previousOutput ∨ o ∈ st.spentHere
  | [], k, st, _, _ => by simp
  | i :: ins, k, st, hn, hfree => by
    rw [List.map_cons, List.nodup_cons] at hn
    have hi : i.previousOutput ∉ st.spentHere := hfree i List.mem_cons_self
    have hspent : (scanInput params utxo height created ti tx st (i, k)).spentHere =
        i.previousOutput :: st.spentHere := by
      unfold scanInput
      dsimp only
      rw [if_neg hi]
      cases (created.lookup i.previousOutput).or (utxo.lookup i.previousOutput) with
      | none => rfl
      | some c => rfl
    have hresolved : (scanInput params utxo height created ti tx st (i, k)).spending.resolved =
        st.spending.resolved ++ (((created.lookup i.previousOutput).or
          (utxo.lookup i.previousOutput)).map fun c => (ti, k, c.output)).toList := by
      unfold scanInput
      dsimp only
      rw [if_neg hi]
      cases (created.lookup i.previousOutput).or (utxo.lookup i.previousOutput) with
      | none => simp [Spending.lock]
      | some c => simp [Spending.lock]
    have hfree' : ∀ j ∈ ins, j.previousOutput ∉
        (scanInput params utxo height created ti tx st (i, k)).spentHere := by
      intro j hj hmem
      rw [hspent, List.mem_cons] at hmem
      rcases hmem with heq | hmem
      · exact hn.1 (heq ▸ List.mem_map_of_mem hj)
      · exact hfree j (List.mem_cons_of_mem _ hj) hmem
    obtain ⟨hrest, hmem⟩ := scanInputs_eq ins (k + 1) _ hn.2 hfree'
    rw [List.zipIdx_cons, List.foldl_cons]
    refine ⟨?_, fun o => ?_⟩
    · rw [hrest, hresolved, List.filterMap_cons]
      cases (created.lookup i.previousOutput).or (utxo.lookup i.previousOutput) with
      | none => simp
      | some c => simp
    · rw [hmem, hspent, List.map_cons, List.mem_cons, List.mem_cons]
      tauto

/-- What the scan of a block holds once some transactions are read. -/
structure Scanned (params : Params) (utxo : Utxo) (height : ℕ) (cb : Transaction)
    (txs : List Transaction) (st : BlockScan) : Prop where
  created : st.createdHere = createdBy height cb txs
  spent : ∀ o, o ∈ st.spentHere ↔ o ∈ inputsOf txs
  below : ∀ e ∈ st.spending.resolved, e.1 ≤ txs.length

theorem createdBy_append (cb : Transaction) (txs : List Transaction) (tx : Transaction) :
    createdBy height cb (txs ++ [tx]) =
      Map.insertAll (coinsOf (Bitcoin.computeTxid tx) tx height false) (createdBy height cb txs) := by
  unfold createdBy
  rw [List.foldl_append]
  rfl

omit [Bitcoin] in
theorem inputsOf_append (txs txs' : List Transaction) :
    inputsOf (txs ++ txs') = inputsOf txs ++ inputsOf txs' := List.flatMap_append

omit [Bitcoin] in
theorem inputsOf_single (tx : Transaction) : inputsOf [tx] = tx.input.map TxIn.previousOutput := by
  unfold inputsOf
  rw [List.flatMap_cons, List.flatMap_nil, List.append_nil]

/-- One more transaction of the scan. -/
theorem Scanned.next {cb tx : Transaction} {txs : List Transaction} {st : BlockScan}
    (h : Scanned params utxo height cb txs st) (hn : (inputsOf (txs ++ [tx])).Nodup) :
    Scanned params utxo height cb (txs ++ [tx])
        (scanTx params utxo height st (tx, txs.length + 1)) ∧
      (scanTx params utxo height st (tx, txs.length + 1)).spending.resolved =
        st.spending.resolved ++ resolvedInputs (createdBy height cb txs) utxo
          (fun i o => (txs.length + 1, i, o)) tx := by
  rw [inputsOf_append, inputsOf_single, List.nodup_append] at hn
  obtain ⟨-, hown, hapart⟩ := hn
  have hfree : ∀ i ∈ tx.input, i.previousOutput ∉ st.spentHere := by
    intro i hi hmem
    exact hapart _ ((h.spent _).mp hmem) _ (List.mem_map_of_mem hi) rfl
  have hscan := @scanInputs_eq params utxo height st.createdHere (txs.length + 1) tx tx.input 0
    { spending := st.spending, spentHere := st.spentHere } hown hfree
  obtain ⟨hresolved, hspent⟩ := hscan
  rw [h.created] at hresolved hspent
  have heq : (scanTx params utxo height st (tx, txs.length + 1)).spending.resolved =
      st.spending.resolved ++ resolvedInputs (createdBy height cb txs) utxo
        (fun i o => (txs.length + 1, i, o)) tx := by
    unfold scanTx
    dsimp only
    rw [if_neg (Nat.succ_ne_zero _)]
    dsimp only
    rw [addFee_resolved, h.created, hresolved]
    rfl
  refine ⟨⟨?_, fun o => ?_, fun e he => ?_⟩, heq⟩
  · unfold scanTx
    dsimp only
    rw [if_neg (Nat.succ_ne_zero _), h.created, createdBy_append]
    rfl
  · unfold scanTx
    dsimp only
    rw [if_neg (Nat.succ_ne_zero _), inputsOf_append, inputsOf_single, List.mem_append]
    dsimp only
    rw [h.created, hspent o, h.spent o]
    exact or_comm
  · rw [heq, List.mem_append] at he
    rw [List.length_append, List.length_singleton]
    rcases he with he | he
    · exact Nat.le_succ_of_le (h.below e he)
    · obtain ⟨p, -, hp⟩ := List.mem_filterMap.mp he
      obtain ⟨c, -, rfl⟩ := Option.map_eq_some_iff.mp hp
      exact Nat.le_refl _

omit [Bitcoin] in
theorem zipIdx_block (cb tx : Transaction) (pre post : List Transaction) :
    (cb :: (pre ++ tx :: post)).zipIdx =
      (cb :: pre).zipIdx ++ (tx, pre.length + 1) :: post.zipIdx (pre.length + 2) := by
  rw [← List.cons_append, List.zipIdx_append, List.zipIdx_cons (a := tx)]
  simp

/-- The scan of a block's first transactions. -/
theorem scanned (cb : Transaction) (txs : List Transaction) (hn : (inputsOf txs).Nodup) :
    Scanned params utxo height cb txs
      (((cb :: txs).zipIdx).foldl (scanTx params utxo height) {}) := by
  induction txs using List.reverseRecOn with
  | nil =>
    refine ⟨rfl, fun o => ?_, fun e he => ?_⟩
    · rfl
    · cases he
  | append_singleton txs tx ih =>
    have hbefore : (inputsOf txs).Nodup := by
      rw [inputsOf_append] at hn
      exact hn.of_append_left
    rw [zipIdx_block, List.foldl_append]
    exact ((ih hbefore).next hn).1

/-- **The scripts a transaction spends.** What stands behind it in the block
has no part in them. -/
theorem scriptsAt_eq {cb tx : Transaction} {pre : List Transaction} (post : List Transaction)
    (hn : (inputsOf (pre ++ [tx])).Nodup) :
    scriptsAt (resolveSpending params utxo height (cb :: (pre ++ tx :: post))) (pre.length + 1) =
      resolvedInputs (createdBy height cb pre) utxo (fun i o => (i, o.scriptPubkey)) tx := by
  have hbefore : (inputsOf pre).Nodup := by
    rw [inputsOf_append] at hn
    exact hn.of_append_left
  have hscan := @scanned _ params utxo height cb pre hbefore
  have hnext := (hscan.next hn).2
  obtain ⟨new, hnew, hbeyond, -⟩ := scan_resolved params utxo height post (pre.length + 2)
    (scanTx params utxo height (((cb :: pre).zipIdx).foldl (scanTx params utxo height) {})
      (tx, pre.length + 1))
  unfold scriptsAt resolveSpending
  rw [zipIdx_block, List.foldl_append, List.foldl_cons, hnew, hnext, resolvedOf_append,
    resolvedOf_append]
  have hfirst : resolvedOf ((((cb :: pre).zipIdx).foldl (scanTx params utxo height)
      {}).spending.resolved) (pre.length + 1) = [] := by
    refine resolvedOf_eq_nil fun e he => ?_
    have hle := hscan.below e he
    omega
  have hlast : resolvedOf new (pre.length + 1) = [] := by
    refine resolvedOf_eq_nil fun e he => ?_
    have hle := hbeyond e he
    omega
  rw [hfirst, hlast, List.nil_append, List.append_nil]
  unfold resolvedOf resolvedInputs
  rw [List.filterMap_filterMap, List.map_filterMap]
  refine List.filterMap_congr fun p _ => ?_
  cases ((createdBy height cb pre).lookup p.1.previousOutput).or
      (utxo.lookup p.1.previousOutput) with
  | none => rfl
  | some c => simp

/-! ### The two look-ups of a script -/

/-- The coins some transactions spend are unspent ones: none is spent twice,
and none is an output of the coinbase of the block being made or an output with
a record, which is never a coin. -/
structure Unspent (cb : Transaction) (txs : List Transaction) : Prop where
  once : (inputsOf txs).Nodup
  coinbase : ∀ o ∈ inputsOf txs, o.txid ≠ Bitcoin.computeTxid cb
  records : ∀ tx ∈ txs, ∀ p ∈ tx.output.zipIdx, isOpReturn p.1.scriptPubkey = true →
    outPointAt (Bitcoin.computeTxid tx) p.2 ∉ inputsOf txs

/-- The scripts of the outputs of some transactions. -/
def createdScripts (txs : List Transaction) : Map OutPoint Bytes :=
  txs.foldl (fun created tx => Map.insertAll (outputScripts tx) created) ∅

theorem createdScripts_append (txs : List Transaction) (tx : Transaction) :
    createdScripts (txs ++ [tx]) = Map.insertAll (outputScripts tx) (createdScripts txs) := by
  unfold createdScripts
  rw [List.foldl_append]
  rfl

omit [Bitcoin] in
/-- Outputs put in as coins, without the records, and as scripts: an outpoint
that is no record's finds the same. -/
theorem lookup_outputs {txid : Txid} {coinbase : Bool} {q : OutPoint} :
    ∀ {outs : List (TxOut × ℕ)} {m : Utxo} {m' : Map OutPoint Bytes},
      (∀ p ∈ outs, isOpReturn p.1.scriptPubkey = true → outPointAt txid p.2 ≠ q) →
      ((m.lookup q).map fun c => c.output.scriptPubkey) = m'.lookup q →
      (((Map.insertAll ((outs.filter fun (o, _) => !isOpReturn o.scriptPubkey).map fun (o, v) =>
        (outPointAt txid v, (⟨o, height, coinbase⟩ : Coin))) m).lookup q).map fun c =>
          c.output.scriptPubkey) =
        (Map.insertAll (outs.map fun p => (outPointAt txid p.2, p.1.scriptPubkey)) m').lookup q
  | [], _, _, _, h => h
  | (o, v) :: outs, m, m', hrecords, h => by
    have hrest : ∀ p ∈ outs, isOpReturn p.1.scriptPubkey = true → outPointAt txid p.2 ≠ q :=
      fun p hp => hrecords p (List.mem_cons_of_mem _ hp)
    rw [List.map_cons, Map.insertAll_cons]
    by_cases hop : isOpReturn o.scriptPubkey = true
    · have hne : q ≠ outPointAt txid v := (hrecords (o, v) List.mem_cons_self hop).symm
      rw [List.filter_cons, if_neg (by simp [hop])]
      refine lookup_outputs hrest ?_
      rw [Finmap.lookup_insert_of_ne _ hne]
      exact h
    · rw [List.filter_cons, if_pos (by simp [hop]), List.map_cons, Map.insertAll_cons]
      refine lookup_outputs hrest ?_
      by_cases hq : q = outPointAt txid v
      · subst hq
        rw [Finmap.lookup_insert, Finmap.lookup_insert]
        rfl
      · rw [Finmap.lookup_insert_of_ne _ hq, Finmap.lookup_insert_of_ne _ hq]
        exact h

/-- The coins made in the block and the scripts the sequence remembers agree. -/
theorem lookup_created {cb : Transaction} {q : OutPoint} (hcb : q.txid ≠ Bitcoin.computeTxid cb)
    (txs : List Transaction) (hrecords : ∀ tx ∈ txs, ∀ p ∈ tx.output.zipIdx,
      isOpReturn p.1.scriptPubkey = true → outPointAt (Bitcoin.computeTxid tx) p.2 ≠ q) :
    (((createdBy height cb txs).lookup q).map fun c => c.output.scriptPubkey) =
      (createdScripts txs).lookup q := by
  induction txs using List.reverseRecOn with
  | nil =>
    have hnone : (createdBy height cb []).lookup q = none := by
      unfold createdBy
      rw [List.foldl_nil, Map.lookup_insertAll_of_notMem]
      · rfl
      · intro hmem
        obtain ⟨p, hp, rfl⟩ := List.mem_map.mp hmem
        obtain ⟨x, -, rfl⟩ := List.mem_map.mp hp
        exact hcb rfl
    rw [hnone]
    rfl
  | append_singleton txs tx ih =>
    rw [createdBy_append, createdScripts_append]
    exact lookup_outputs (fun p hp => hrecords tx (List.mem_append_right _ List.mem_cons_self) p hp)
      (ih fun t ht => hrecords t (List.mem_append_left _ ht))

/-- The script a confirmed coin carries. -/
def scriptIn (utxo : Utxo) (o : OutPoint) : Option Bytes :=
  (utxo.lookup o).map fun c => c.output.scriptPubkey

omit [Bitcoin] in
theorem map_or_script {a b : Option Coin} {a' b' : Option Bytes} {i : ℕ}
    (ha : (a.map fun c => c.output.scriptPubkey) = a')
    (hb : (b.map fun c => c.output.scriptPubkey) = b') :
    ((a'.or b').map fun s => (i, s)) = (a.or b).map fun c => (i, c.output.scriptPubkey) := by
  subst ha hb
  cases a with
  | none =>
    cases b with
    | none => rfl
    | some c => rfl
  | some c => rfl

/-- **The sequence's look-up is the block's.** -/
theorem spentScripts_eq {cb tx : Transaction} {txs pre : List Transaction} (hu : Unspent cb txs)
    (hpre : ∀ t ∈ pre, t ∈ txs) (htx : tx ∈ txs) :
    spentScripts (createdScripts pre) (scriptIn utxo) tx =
      resolvedInputs (createdBy height cb pre) utxo (fun i o => (i, o.scriptPubkey)) tx := by
  unfold spentScripts resolvedInputs
  refine List.filterMap_congr fun p hp => ?_
  have hin : p.1.previousOutput ∈ inputsOf txs :=
    List.mem_flatMap.mpr ⟨tx, htx, List.mem_map_of_mem (List.fst_mem_of_mem_zipIdx hp)⟩
  refine map_or_script (lookup_created (hu.coinbase _ hin) pre fun t ht q hq hop heq => ?_) rfl
  exact hu.records t (hpre t ht) q hq hop (heq ▸ hin)

/-! ### The rules' folds along the sequence -/

/-- The spending of a block that resolves these transactions' inputs as they
stand at its beginning. -/
def Resolves (utxo : Utxo) (height : ℕ) (cb : Transaction) (txs : List Transaction)
    (spending : Spending) : Prop :=
  ∀ pre tx post, txs = pre ++ tx :: post → scriptsAt spending (pre.length + 1) =
    resolvedInputs (createdBy height cb pre) utxo (fun i o => (i, o.scriptPubkey)) tx

theorem resolves_block {cb : Transaction} {txs : List Transaction} (hn : (inputsOf txs).Nodup)
    (post : List Transaction) :
    Resolves utxo height cb txs (resolveSpending params utxo height (cb :: (txs ++ post))) := by
  rintro pre tx rest rfl
  rw [List.append_assoc, List.cons_append]
  refine scriptsAt_eq _ ?_
  rw [List.append_cons, inputsOf_append] at hn
  exact hn.of_append_left

theorem Resolves.prefix {cb : Transaction} {txs more : List Transaction} {spending : Spending}
    (h : Resolves utxo height cb (txs ++ more) spending) : Resolves utxo height cb txs spending := by
  rintro pre tx post rfl
  exact h pre tx (post ++ more) (by rw [List.append_assoc, List.cons_append])

/-- A coinbase without records. -/
structure RecordFree (cb : Transaction) : Prop where
  isCoinbase : isCoinbase cb = true
  clean : coinbaseClean cb = true
  pools : (classify cb).pools = []
  markets : (classify cb).markets = []
  questions : (classify cb).questions = []

/-- The three rules pass the block of these transactions, up to the views and
the traces they leave. -/
structure Passing (r : OverlayRules) (checks : Bool) (held : Overlays) (utxo : Utxo) (height : ℕ)
    (cb : Transaction) (txs : List Transaction) (a : AssetView × List AssetTrace) (P : PoolView)
    (M : MarketView) : Prop where
  assets : Res.foldlM (candidateTx (mintPolicy r held) height) (held.assets.view, [])
    (cb :: txs).zipIdx = .ok a
  length : a.2.length = txs.length + 1
  pool : if r.pool then Res.foldlM (poolTx checks height) held.pool.view
    ((cb :: txs).zip a.2).zipIdx = .ok P else P = held.pool.view
  markets : if r.marketsFrom height then ∀ spending, Resolves utxo height cb txs spending →
    ∃ opened, Res.foldlM (marketTx spending height) (held.markets.view, [])
      ((cb :: txs).zip a.2).zipIdx = .ok (M, opened)
    else M = held.markets.view

section

variable {r : OverlayRules} {checks : Bool} {held : Overlays} {cb : Transaction}

/-- The coinbase alone passes. -/
theorem passing_coinbase (hcb : RecordFree cb) : Passing r checks held utxo height cb []
    (held.assets.view, [⟨held.assets.view.traceInputs cb, ∅⟩]) held.pool.view
    held.markets.view := by
  refine ⟨?_, rfl, ?_, ?_⟩
  · show Res.foldlM _ _ [(cb, 0)] = _
    rw [Res.foldlM_cons]
    unfold candidateTx
    dsimp only
    rw [if_pos ⟨rfl, hcb.isCoinbase⟩]
    rfl
  · split_ifs
    · show Res.foldlM _ _ [((cb, _), 0)] = _
      rw [Res.foldlM_cons]
      unfold poolTx PoolView.check
      dsimp only
      rw [hcb.pools]
      rfl
    · rfl
  · split_ifs
    · intro spending _
      refine ⟨[], ?_⟩
      show Res.foldlM _ _ [((cb, _), 0)] = _
      rw [Res.foldlM_cons]
      unfold marketTx MarketView.check
      dsimp only
      rw [hcb.markets, hcb.questions]
      rfl
    · rfl

theorem candidateTx_of_ok {policy : AssetMintPolicy} {st : AssetView × List AssetTrace}
    {tx : Transaction} {k : ℕ} {out : Map ℕ Carry} (hcb : isCoinbase tx = false)
    (h : st.1.checkInner policy tx = .ok out) : candidateTx policy height st (tx, k) =
      .ok ((st.1.applyTx policy height tx).1, st.2 ++ [⟨st.1.traceInputs tx, out⟩]) := by
  have hsnd : (st.1.applyTx policy height tx).2 = .ok out := applyTx_snd.trans h
  simp only [candidateTx, hcb, Bool.false_eq_true, and_false, ↓reduceIte,
    AssetView.applyTransactions, List.head?_cons, Res.expect_some, Res.ok_bind, hsnd]

theorem candidateTx_of_err {policy : AssetMintPolicy} {st : AssetView × List AssetTrace}
    {tx : Transaction} {k : ℕ} {e : String} (hcb : isCoinbase tx = false)
    (h : st.1.checkInner policy tx = .err e) : candidateTx policy height st (tx, k) = .err e := by
  have hsnd : (st.1.applyTx policy height tx).2 = .err e := applyTx_snd.trans h
  simp only [candidateTx, hcb, Bool.false_eq_true, and_false, ↓reduceIte,
    AssetView.applyTransactions, List.head?_cons, Res.expect_some, Res.ok_bind, hsnd]
  rfl

omit [Bitcoin] in
/-- A block with its traces, one transaction longer. -/
theorem zip_block {tx : Transaction} {txs post : List Transaction} {traces more : List AssetTrace}
    {trace : AssetTrace} (hlen : traces.length = txs.length + 1) :
    ((cb :: (txs ++ tx :: post)).zip (traces ++ trace :: more)).zipIdx =
      ((cb :: txs).zip traces).zipIdx ++
        ((tx, trace), txs.length + 1) :: (post.zip more).zipIdx (txs.length + 2) := by
  have hzip : (cb :: (txs ++ tx :: post)).zip (traces ++ trace :: more) =
      (cb :: txs).zip traces ++ (tx, trace) :: post.zip more := by
    rw [← List.cons_append, List.zip_append (by rw [hlen, List.length_cons]), List.zip_cons_cons]
  rw [hzip, List.zipIdx_append, List.zipIdx_cons]
  have hcount : ((cb :: txs).zip traces).length = txs.length + 1 := by
    rw [List.length_zip, hlen, List.length_cons, Nat.min_self]
  rw [hcount, Nat.zero_add]

/-- The pool rule on a block's transaction is the sequence's. -/
theorem poolTx_eq {P : PoolView} {tx : Transaction} {trace : AssetTrace} {k : ℕ} (hr : r.pool = true) :
    poolTx checks height P ((tx, trace), k + 1) = sequencePool r checks height P tx trace := by
  unfold poolTx sequencePool
  rw [if_pos hr]
  rfl

/-- The markets rule's, where the block resolves the same scripts. -/
theorem marketTx_eq {M : MarketView} (opened : List Txid) {tx : Transaction} {trace : AssetTrace}
    {k : ℕ} {spending : Spending} {scripts : List (ℕ × Bytes)} (hr : r.marketsFrom height = true)
    (hscripts : scriptsAt spending (k + 1) = scripts) :
    (∀ M', sequenceMarket r height M tx trace scripts = .ok M' →
      ∃ opened', marketTx spending height (M, opened) ((tx, trace), k + 1) = .ok (M', opened')) ∧
    ∀ e, sequenceMarket r height M tx trace scripts = .err e →
      marketTx spending height (M, opened) ((tx, trace), k + 1) = .err e := by
  have hflag : (k + 1 == 0) = false := rfl
  unfold sequenceMarket marketTx
  rw [if_pos hr]
  dsimp only
  rw [hscripts, hflag]
  cases M.check tx trace height false scripts with
  | ok effect =>
    cases effect with
    | none =>
      refine ⟨fun M' h => ⟨opened, ?_⟩, fun e h => ?_⟩
      · cases h
        rfl
      · cases h
    | some market =>
      refine ⟨fun M' h => ⟨if M.contains market.id then opened else opened ++ [market.id], ?_⟩,
        fun e h => ?_⟩
      · cases h
        rfl
      · cases h
  | err e =>
    refine ⟨fun M' h => ?_, fun e' h => ?_⟩
    · cases h
    · cases h
      rfl
  | panic =>
    refine ⟨fun M' h => ?_, fun e' h => ?_⟩
    · cases h
    · cases h

/-- A transaction the sequence keeps: the block with it passes. -/
theorem Passing.next {txs : List Transaction} {a : AssetView × List AssetTrace} {P P' : PoolView}
    {M M' : MarketView} {tx : Transaction} {outputs : Map ℕ Carry}
    (h : Passing r checks held utxo height cb txs a P M) (hcb : isCoinbase tx = false)
    (hassets : a.1.checkInner (mintPolicy r held) tx = .ok outputs)
    (hpool : sequencePool r checks height P tx ⟨a.1.traceInputs tx, outputs⟩ = .ok P')
    (hmarkets : sequenceMarket r height M tx ⟨a.1.traceInputs tx, outputs⟩
      (resolvedInputs (createdBy height cb txs) utxo (fun i o => (i, o.scriptPubkey)) tx) = .ok M') :
    Passing r checks held utxo height cb (txs ++ [tx])
      ((a.1.applyTx (mintPolicy r held) height tx).1, a.2 ++ [⟨a.1.traceInputs tx, outputs⟩]) P' M' := by
  refine ⟨?_, ?_, ?_, ?_⟩
  · rw [zipIdx_block, Res.foldlM_append, h.assets, Res.ok_bind, Res.foldlM_cons,
      candidateTx_of_ok hcb hassets]
    rfl
  · rw [List.length_append, List.length_append, h.length]
    rfl
  · have hbefore := h.pool
    by_cases hr : r.pool = true
    · rw [if_pos hr] at hbefore ⊢
      rw [zip_block h.length, Res.foldlM_append, hbefore, Res.ok_bind, Res.foldlM_cons,
        poolTx_eq hr, hpool]
      rfl
    · rw [if_neg hr] at hbefore ⊢
      unfold sequencePool at hpool
      rw [if_neg hr] at hpool
      cases hpool
      exact hbefore
  · have hbefore := h.markets
    by_cases hr : r.marketsFrom height = true
    · rw [if_pos hr] at hbefore ⊢
      intro spending hresolves
      obtain ⟨opened, hfold⟩ := hbefore spending hresolves.prefix
      have hscripts := hresolves txs tx [] rfl
      obtain ⟨opened', hmarket⟩ := (marketTx_eq opened hr hscripts).1 M' hmarkets
      refine ⟨opened', ?_⟩
      rw [zip_block h.length, Res.foldlM_append, hfold, Res.ok_bind, Res.foldlM_cons, hmarket]
      rfl
    · rw [if_neg hr] at hbefore ⊢
      unfold sequenceMarket at hmarkets
      rw [if_neg hr] at hmarkets
      cases hmarkets
      exact hbefore

/-- What one of the rules refuses of a transaction on some views. -/
def Refuses (r : OverlayRules) (checks : Bool) (held : Overlays) (height : ℕ) (assets : AssetView)
    (P : PoolView) (M : MarketView) (tx : Transaction) (scripts : List (ℕ × Bytes)) : Prop :=
  (∃ e, assets.checkInner (mintPolicy r held) tx = .err e) ∨
  ∃ outputs, assets.checkInner (mintPolicy r held) tx = .ok outputs ∧
    ((∃ e, sequencePool r checks height P tx ⟨assets.traceInputs tx, outputs⟩ = .err e) ∨
      ∃ e, sequenceMarket r height M tx ⟨assets.traceInputs tx, outputs⟩ scripts = .err e)

/-- The traces of a fold are those it began with, and more. -/
theorem candidateFold_prefix {policy : AssetMintPolicy} : ∀ {txs : List (Transaction × ℕ)}
    {st st' : AssetView × List AssetTrace},
    Res.foldlM (candidateTx policy height) st txs = .ok st' → ∃ more, st'.2 = st.2 ++ more
  | [], st, st', h => by
    cases h
    exact ⟨[], (List.append_nil _).symm⟩
  | p :: txs, st, st', h => by
    rw [Res.foldlM_cons] at h
    obtain ⟨st₁, h₁, h⟩ := Res.bind_eq_ok.mp h
    obtain ⟨more, hmore⟩ := candidateFold_prefix h
    unfold candidateTx at h₁
    dsimp only at h₁
    split_ifs at h₁ with hcb
    · cases h₁
      rw [hmore, List.append_assoc]
      exact ⟨_, rfl⟩
    · obtain ⟨outcome, -, h₁⟩ := Res.bind_eq_ok.mp h₁
      obtain ⟨out, -, h₁⟩ := Res.bind_eq_ok.mp h₁
      cases h₁
      rw [hmore, List.append_assoc]
      exact ⟨_, rfl⟩

/-- A transaction the sequence drops: no block with it in this place passes. -/
theorem Passing.refuse {txs post : List Transaction} {a : AssetView × List AssetTrace} {P : PoolView}
    {M : MarketView} {tx : Transaction} (h : Passing r checks held utxo height cb txs a P M)
    (hcb : isCoinbase tx = false) (hn : (inputsOf (txs ++ [tx])).Nodup)
    (href : Refuses r checks held height a.1 P M tx
      (resolvedInputs (createdBy height cb txs) utxo (fun i o => (i, o.scriptPubkey)) tx))
    {H : Type} {ctx : BlockContext H} (hheight : ctx.height = height)
    (htx : ctx.block.txdata = cb :: (txs ++ tx :: post))
    (hspending : ctx.spending = resolveSpending params utxo height ctx.block.txdata)
    {a' : AssetView × List AssetTrace} {P' : PoolView} {m' : MarketView × List Txid} :
    ¬ Candidates r checks held ctx a' P' m' := by
  intro hc
  have hassets := hc.assets
  have hpool := hc.pool
  have hmarkets := hc.markets
  rw [hspending] at hmarkets
  rw [htx, hheight] at hassets hpool hmarkets
  obtain ⟨-, -, hfold⟩ := Res.bind_eq_ok.mp hassets
  rw [zipIdx_block, Res.foldlM_append, h.assets, Res.ok_bind, Res.foldlM_cons] at hfold
  obtain ⟨st, hst, hfold⟩ := Res.bind_eq_ok.mp hfold
  rcases href with ⟨e, herr⟩ | ⟨outputs, hout, href⟩
  · rw [candidateTx_of_err hcb herr] at hst
    cases hst
  rw [candidateTx_of_ok hcb hout] at hst
  cases hst
  obtain ⟨more, hmore⟩ := candidateFold_prefix hfold
  dsimp only at hmore
  rw [List.append_assoc, List.singleton_append] at hmore
  rcases href with ⟨e, herr⟩ | ⟨e, herr⟩
  · have hbefore := h.pool
    by_cases hr : r.pool = true
    · rw [if_pos hr] at hbefore hpool
      unfold poolCandidate at hpool
      rw [hmore, zip_block h.length, Res.foldlM_append, hbefore, Res.ok_bind, Res.foldlM_cons,
        poolTx_eq hr, herr] at hpool
      cases hpool
    · unfold sequencePool at herr
      rw [if_neg hr] at herr
      cases herr
  · have hbefore := h.markets
    by_cases hr : r.marketsFrom height = true
    · rw [if_pos hr] at hbefore hmarkets
      have hresolves := @resolves_block _ params utxo height cb (txs ++ [tx]) hn post
      rw [List.append_assoc, List.singleton_append] at hresolves
      obtain ⟨opened, hprefix⟩ := hbefore _ hresolves.prefix
      have hscripts := hresolves txs tx [] rfl
      unfold marketCandidate at hmarkets
      rw [hmore, zip_block h.length, Res.foldlM_append, hprefix, Res.ok_bind, Res.foldlM_cons,
        (marketTx_eq opened hr hscripts).2 e herr] at hmarkets
      cases hmarkets
    · unfold sequenceMarket at herr
      rw [if_neg hr] at herr
      cases herr

/-! ### The sequence's invariant -/

/-- What one transaction does to the sequence. -/
theorem sequenceTx_cases {scriptOf : OutPoint → Option Bytes} {st st' : Sequencing}
    {tx : Transaction} {index : ℕ} (hcb : isCoinbase tx = false)
    (h : sequenceTx r checks held height scriptOf st (tx, index) = .ok st') :
    (∃ why, st' = st.drop index why ∧ Refuses r checks held height st.assets st.pools st.markets tx
      (spentScripts st.created scriptOf tx)) ∨
    ∃ outputs pools markets, st.assets.checkInner (mintPolicy r held) tx = .ok outputs ∧
      sequencePool r checks height st.pools tx ⟨st.assets.traceInputs tx, outputs⟩ = .ok pools ∧
      sequenceMarket r height st.markets tx ⟨st.assets.traceInputs tx, outputs⟩
        (spentScripts st.created scriptOf tx) = .ok markets ∧
      st' = ⟨(st.assets.applyTx (mintPolicy r held) height tx).1, pools, markets,
        Map.insertAll (outputScripts tx) st.created,
        { st.sequence with kept := st.sequence.kept ++ [index] }⟩ := by
  have happly : (st.assets.applyTransactions (mintPolicy r held) height [(tx, 0)]).1 =
      (st.assets.applyTx (mintPolicy r held) height tx).1 := by
    unfold AssetView.applyTransactions
    rw [if_neg (by simp [hcb])]
    rfl
  unfold sequenceTx at h
  dsimp only at h
  rw [happly] at h
  cases hassets : st.assets.checkInner (mintPolicy r held) tx with
  | panic =>
    rw [hassets] at h
    cases h
  | err e =>
    rw [hassets] at h
    cases h
    exact .inl ⟨_, rfl, .inl ⟨e, hassets⟩⟩
  | ok outputs =>
    rw [hassets] at h
    dsimp only at h
    cases hpool : sequencePool r checks height st.pools tx
        ⟨st.assets.traceInputs tx, outputs⟩ with
    | panic =>
      rw [hpool] at h
      cases h
    | err e =>
      rw [hpool] at h
      cases h
      exact .inl ⟨_, rfl, .inr ⟨outputs, hassets, .inl ⟨e, hpool⟩⟩⟩
    | ok pools =>
      rw [hpool] at h
      dsimp only at h
      cases hmarkets : sequenceMarket r height st.markets tx ⟨st.assets.traceInputs tx, outputs⟩
          (spentScripts st.created scriptOf tx) with
      | panic =>
        rw [hmarkets] at h
        cases h
      | err e =>
        rw [hmarkets] at h
        cases h
        exact .inl ⟨_, rfl, .inr ⟨outputs, hassets, .inr ⟨e, hmarkets⟩⟩⟩
      | ok markets =>
        rw [hmarkets] at h
        cases h
        exact .inr ⟨outputs, pools, markets, rfl, hpool, hmarkets, rfl⟩

omit [Bitcoin] in
/-- The transactions of some indices. -/
def keptOf (txs : List Transaction) (indices : List ℕ) : List Transaction :=
  indices.filterMap fun i => txs[i]?

/-- No block with this transaction after these passes the rules. -/
def Blocked (r : OverlayRules) (checks : Bool) (held : Overlays) (params : Params) (utxo : Utxo)
    (height : ℕ) (cb : Transaction) (before : List Transaction) (tx : Transaction) : Prop :=
  ∀ (H : Type) (ctx : BlockContext H) (post : List Transaction), ctx.height = height →
    ctx.block.txdata = cb :: (before ++ tx :: post) →
    ctx.spending = resolveSpending params utxo height ctx.block.txdata →
    ∀ a P m, ¬ Candidates r checks held ctx a P m

/-- The sequence once the first `n` transactions are read: those kept are
passed by the rules, and each of the dropped ones is not in its place. -/
structure Sequenced (r : OverlayRules) (checks : Bool) (held : Overlays) (params : Params)
    (utxo : Utxo) (height : ℕ) (cb : Transaction) (txs : List Transaction) (n : ℕ)
    (st : Sequencing) : Prop where
  below : ∀ i ∈ st.sequence.kept, i < n
  kept : (keptOf txs st.sequence.kept).Sublist (txs.take n)
  created : st.created = createdScripts (keptOf txs st.sequence.kept)
  passing : ∃ traces, Passing r checks held utxo height cb (keptOf txs st.sequence.kept)
    (st.assets, traces) st.pools st.markets
  dropped : ∀ d ∈ st.sequence.dropped, d.1 < n ∧ ∃ tx, txs[d.1]? = some tx ∧
    Blocked r checks held params utxo height cb
      (keptOf txs (st.sequence.kept.filter fun i => i < d.1)) tx

omit [Bitcoin] in
theorem inputsOf_sublist {txs txs' : List Transaction} (h : txs.Sublist txs') :
    (inputsOf txs).Sublist (inputsOf txs') := h.flatMap fun _ => _

omit [Bitcoin] in
theorem take_succ_eq {txs : List Transaction} {n : ℕ} {tx : Transaction} (h : txs[n]? = some tx) :
    txs.take (n + 1) = txs.take n ++ [tx] := by
  rw [List.take_add_one, h]
  rfl

variable {txs : List Transaction}

/-- **One transaction of the sequence** keeps the invariant. -/
theorem Sequenced.next {n : ℕ} {st st' : Sequencing} {tx : Transaction} (hu : Unspent cb txs)
    (htxs : ∀ tx ∈ txs, isCoinbase tx = false)
    (h : Sequenced r checks held params utxo height cb txs n st) (hn : txs[n]? = some tx)
    (hstep : sequenceTx r checks held height (scriptIn utxo) st (tx, n) = .ok st') :
    Sequenced r checks held params utxo height cb txs (n + 1) st' := by
  have hmem : tx ∈ txs := List.mem_of_getElem? hn
  have hcb : isCoinbase tx = false := htxs tx hmem
  have htake : txs.take (n + 1) = txs.take n ++ [tx] := take_succ_eq hn
  have hsub : (keptOf txs st.sequence.kept ++ [tx]).Sublist txs := by
    refine List.Sublist.trans ?_ (List.take_sublist (n + 1) txs)
    rw [htake]
    exact h.kept.append (List.Sublist.refl [tx])
  have hscripts : spentScripts st.created (scriptIn utxo) tx =
      resolvedInputs (createdBy height cb (keptOf txs st.sequence.kept)) utxo
        (fun i o => (i, o.scriptPubkey)) tx := by
    rw [h.created]
    exact spentScripts_eq hu (fun t ht => hsub.subset (List.mem_append_left _ ht)) hmem
  obtain ⟨traces, hpassing⟩ := h.passing
  rcases sequenceTx_cases hcb hstep with ⟨why, rfl, href⟩ |
    ⟨outputs, pools, markets, hassets, hpool, hmarkets, rfl⟩
  · rw [hscripts] at href
    have hblocked : Blocked r checks held params utxo height cb (keptOf txs st.sequence.kept) tx := by
      intro H ctx post hheight htx hspending a P m
      exact hpassing.refuse hcb (hu.once.sublist (inputsOf_sublist hsub)) href hheight htx hspending
    refine ⟨fun i hi => Nat.lt_succ_of_lt (h.below i hi), ?_, h.created, ⟨traces, hpassing⟩,
      fun d hd => ?_⟩
    · rw [htake]
      exact h.kept.trans (List.sublist_append_left _ _)
    · rcases List.mem_append.mp hd with hd | hd
      · obtain ⟨hlt, hrest⟩ := h.dropped d hd
        exact ⟨Nat.lt_succ_of_lt hlt, hrest⟩
      · rw [List.mem_singleton] at hd
        subst hd
        have hall : st.sequence.kept.filter (fun i => i < n) = st.sequence.kept := by
          rw [List.filter_eq_self]
          exact fun i hi => decide_eq_true (h.below i hi)
        refine ⟨Nat.lt_succ_self n, tx, hn, ?_⟩
        show Blocked r checks held params utxo height cb
          (keptOf txs (st.sequence.kept.filter fun i => i < n)) tx
        rw [hall]
        exact hblocked
  · rw [hscripts] at hmarkets
    have hkept : keptOf txs (st.sequence.kept ++ [n]) = keptOf txs st.sequence.kept ++ [tx] := by
      unfold keptOf
      rw [List.filterMap_append, List.filterMap_cons, hn]
      rfl
    refine ⟨fun i hi => ?_, ?_, ?_, ?_, fun d hd => ?_⟩
    · rcases List.mem_append.mp hi with hi | hi
      · exact Nat.lt_succ_of_lt (h.below i hi)
      · rw [List.mem_singleton] at hi
        omega
    · dsimp only
      rw [hkept, htake]
      exact h.kept.append (List.Sublist.refl [tx])
    · dsimp only
      rw [hkept, createdScripts_append, h.created]
    · dsimp only
      rw [hkept]
      exact ⟨_, hpassing.next hcb hassets hpool hmarkets⟩
    · obtain ⟨hlt, t, ht, hblocked⟩ := h.dropped d hd
      refine ⟨Nat.lt_succ_of_lt hlt, t, ht, ?_⟩
      have hfilter : (st.sequence.kept ++ [n]).filter (fun i => i < d.1) =
          st.sequence.kept.filter fun i => i < d.1 := by
        rw [List.filter_append, List.filter_cons, if_neg (by simp; omega), List.filter_nil,
          List.append_nil]
      dsimp only
      rw [hfilter]
      exact hblocked

/-- The rest of the sequence. -/
theorem Sequenced.run (hu : Unspent cb txs) (htxs : ∀ tx ∈ txs, isCoinbase tx = false) :
    ∀ {rest done : List Transaction} {st st' : Sequencing}, txs = done ++ rest →
      Sequenced r checks held params utxo height cb txs done.length st →
      Res.foldlM (sequenceTx r checks held height (scriptIn utxo)) st (rest.zipIdx done.length) =
        .ok st' → Sequenced r checks held params utxo height cb txs txs.length st'
  | [], done, st, st', hsplit, h, hrun => by
    rw [List.append_nil] at hsplit
    rw [List.zipIdx_nil, Res.foldlM_nil] at hrun
    cases hrun
    rw [hsplit] at h ⊢
    exact h
  | tx :: rest, done, st, st', hsplit, h, hrun => by
    rw [List.zipIdx_cons, Res.foldlM_cons] at hrun
    obtain ⟨st₁, hstep, hrun⟩ := Res.bind_eq_ok.mp hrun
    have hn : txs[done.length]? = some tx := by
      rw [hsplit, List.getElem?_append_right (Nat.le_refl _), Nat.sub_self]
      rfl
    have hnext := h.next hu htxs hn hstep
    have hlen : (done ++ [tx]).length = done.length + 1 := by
      rw [List.length_append, List.length_singleton]
    rw [← hlen] at hnext hrun
    exact Sequenced.run hu htxs (by rw [hsplit, List.append_assoc]; rfl) hnext hrun

/-- **The sequence agrees with the rules.** The block of a coinbase without
records and the transactions the sequence keeps passes the three rules, and a
block with a dropped transaction in its place after those kept before it, and
anything behind, does not. -/
theorem sequence_agrees {H : Type} [HeaderFamily H] {seq : OverlaySequence} (hcb : RecordFree cb)
    (htxs : ∀ tx ∈ txs, isCoinbase tx = false) (hu : Unspent cb txs)
    (hseq : r.sequence checks held txs height (scriptIn utxo) = .ok seq)
    (mtp : Option ℕ) (records : Records) :
    (∀ block : Block H, block.txdata = cb :: keptOf txs seq.kept → ∃ v held',
      runRules ⟨block, height, resolveSpending params utxo height block.txdata, mtp, records⟩ held
        (r.boxed checks) = .ok (v, held') ∧ v.ok = true) ∧
    ∀ i why, (i, why) ∈ seq.dropped → ∃ tx, txs[i]? = some tx ∧
      ∀ (block : Block H) (post : List Transaction), block.txdata =
        cb :: (keptOf txs (seq.kept.filter fun j => j < i) ++ tx :: post) → ∀ v held',
        runRules ⟨block, height, resolveSpending params utxo height block.txdata, mtp, records⟩
          held (r.boxed checks) = .ok (v, held') → v.ok = false := by
  obtain ⟨st, hrun, hst⟩ := Res.bind_eq_ok.mp hseq
  cases hst
  have hstart : Sequenced r checks held params utxo height cb txs 0
      { assets := held.assets.view, pools := held.pool.view, markets := held.markets.view } := by
    refine ⟨fun i hi => ?_, List.nil_sublist _, rfl, ⟨_, passing_coinbase hcb⟩, fun d hd => ?_⟩
    · cases hi
    · cases hd
  have hend : Sequenced r checks held params utxo height cb txs txs.length st :=
    @Sequenced.run _ params utxo height r checks held cb txs hu htxs txs [] _ _ rfl hstart hrun
  obtain ⟨traces, hpassing⟩ := hend.passing
  refine ⟨fun block hblock => ?_, fun i why hd => ?_⟩
  · have hn : (inputsOf (keptOf txs st.sequence.kept)).Nodup :=
      hu.once.sublist (inputsOf_sublist (hend.kept.trans (List.take_sublist _ _)))
    have hresolves := @resolves_block _ params utxo height cb _ hn []
    rw [List.append_nil, ← hblock] at hresolves
    have hmarkets : ∃ m, if r.marketsFrom height then
        marketCandidate held.markets.view block.txdata traces
          (resolveSpending params utxo height block.txdata) height = .ok m
        else m = (held.markets.view, []) := by
      have hfold := hpassing.markets
      by_cases hr : r.marketsFrom height = true
      · rw [if_pos hr] at hfold
        obtain ⟨opened, hfold⟩ := hfold _ hresolves
        refine ⟨(st.markets, opened), ?_⟩
        rw [if_pos hr]
        unfold marketCandidate
        rw [hblock] at hfold ⊢
        exact hfold
      · exact ⟨_, by rw [if_neg hr]⟩
    obtain ⟨m, hmarkets⟩ := hmarkets
    have hassets : assetCandidate (mintPolicy r held) held.assets.view block.txdata height =
        .ok (st.assets, traces) := by
      unfold assetCandidate
      rw [hblock, List.head?_cons, Option.any_some, hcb.clean]
      exact hpassing.assets
    have hpool : if r.pool then
        poolCandidate checks held.pool.view block.txdata traces height = .ok st.pools
        else st.pools = held.pool.view := by
      rw [hblock]
      exact hpassing.pool
    obtain ⟨v, held', hpass, hok, -⟩ := @overlays_run _ H _ r checks
      ⟨block, height, resolveSpending params utxo height block.txdata, mtp, records⟩ held
      (st.assets, traces) st.pools m ⟨hassets, hpool, hmarkets⟩
    exact ⟨v, held', hpass, hok⟩
  · obtain ⟨-, tx, htx, hblocked⟩ := hend.dropped (i, why) hd
    refine ⟨tx, htx, fun block post hblock v held' hpass => ?_⟩
    by_contra hok
    rw [Bool.not_eq_false] at hok
    obtain ⟨a, P, m, hc⟩ := candidates_of_passed hpass hok
    exact hblocked H _ post rfl hblock rfl a P m hc

end

end

section

attribute [local instance] sampleBitcoin

/-- A coinbase without records. -/
def plainCoinbase : Transaction := sampleTx [OutPoint.null] [trueCoin 5000]

/-- Two confirmed coins. -/
def twoCoins : Utxo :=
  Map.insertAll [(⟨0, 0⟩, ⟨trueCoin 9000000, 1, false⟩), (⟨0, 1⟩, ⟨trueCoin 9000, 1, false⟩)] ∅

/-- An issue, a tally of an asset that is not carried, and a transfer of the
asset issued before it. -/
def sampleMempool : List Transaction :=
  [sampleIssue 0, sampleTx [⟨0, 1⟩] [trueCoin 500, tallyOut (hashText sampleAsset) 0 5],
    sampleTransfer sampleAsset]

/-- A block of the coinbase and the first and the last of them. -/
def sampleOrdered : Block Header :=
  ⟨⟨0, 0, 0, 0, 0, 0⟩, plainCoinbase :: keptOf sampleMempool [0, 2]⟩

set_option maxRecDepth 100000 in
theorem sequence_agrees_sample : ∃ seq : OverlaySequence,
    OverlayRules.sequence ⟨true, some 0⟩ true {} sampleMempool 5 (scriptIn twoCoins) = .ok seq ∧
    seq.kept = [0, 2] ∧ ∃ v held', runRules ⟨sampleOrdered, 5,
      resolveSpending {} twoCoins 5 sampleOrdered.txdata, none, {}⟩ {}
        (OverlayRules.boxed ⟨true, some 0⟩ true) = .ok (v, held') ∧ v.ok = true := by
  have hrun : (OverlayRules.sequence ⟨true, some 0⟩ true {} sampleMempool 5
      (scriptIn twoCoins)).any (fun seq => seq.kept == [0, 2]) = true := by decide +kernel
  obtain ⟨seq, hseq, hkept⟩ := Res.any_eq_true.mp hrun
  rw [beq_iff_eq] at hkept
  have hcb : RecordFree plainCoinbase := ⟨by decide +kernel, by decide +kernel,
    List.isEmpty_iff.mp (by decide +kernel), List.isEmpty_iff.mp (by decide +kernel),
    List.isEmpty_iff.mp (by decide +kernel)⟩
  have hunspent : Unspent plainCoinbase sampleMempool :=
    ⟨by decide +kernel, by decide +kernel, by decide +kernel⟩
  have hagrees := @sequence_agrees _ {} twoCoins 5 ⟨true, some 0⟩ true {} plainCoinbase sampleMempool
    Header _ seq hcb (by decide +kernel) hunspent hseq none {}
  exact ⟨seq, hseq, hkept, hagrees.1 sampleOrdered (by rw [hkept]; rfl)⟩

end

end Sidestr
