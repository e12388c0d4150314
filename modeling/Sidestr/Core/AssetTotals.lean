/-
# Totals and names over a run

What one transaction of an accepted block does to the total of an asset, and
which assets have one at all. A transaction takes what its inputs carry off
the total and adds what its outputs carry; it adds more only where it issues
the asset, or where the mint policy leaves the mint to the pool or the markets
rule (`Mints`).

So every asset with a positive total is named by the chain: it is the id of a
mined transaction, or the NO asset of a market (`Named`). Ids of new
transactions are new, and the hash of a NO asset is no txid (`HashesApart`),
so the shares of a pool that opens, and the outcomes of a market that opens,
start from nothing.

`overlay_ind` is the induction the invariants of pools and markets use: over
the blocks of a run and the transactions in them.

Key definitions: `Mints`, `Named`, `HashesApart`, `OverlayTx`.
Key theorems: `TxStep.mints`, `TxStep.total`, `Named.step`, `overlay_step`,
`overlay_ind`.
-/
import Sidestr.Core.OverlayState
import Sidestr.Core.Fresh

namespace Sidestr

section

variable [Bitcoin]

/-! ### One transaction and a total -/

/-- Why the outputs of a transaction may carry more of an asset than its inputs. -/
inductive Mints (r : OverlayRules) (held : Overlays) (tx : Transaction) (asset : Txid) : Prop
  | own (id : asset = Bitcoin.computeTxid tx)
      (how : (classify tx).issues ≠ [] ∨ (classify tx).opensPool = true)
  | shares (pool : held.pool.view.contains asset = true)
  | pairs (m : Txid) (record : ∃ p ∈ (classify tx).markets, p.2.splits = some m)
      (market : held.markets.view.contains m = true) (pair : asset = m ∨ asset = noIdOf m)

theorem mints_of_policy {r : OverlayRules} {held : Overlays} {tx : Transaction} {asset : Txid}
    (h : mintPolicy r held asset (Bitcoin.computeTxid tx) (classify tx) = true) :
    Mints r held tx asset := by
  simp only [mintPolicy, Bool.or_eq_true, Bool.and_eq_true, beq_iff_eq] at h
  rcases h with ⟨-, ⟨hid, hopen⟩ | hpool⟩ | ⟨-, hmarket⟩
  · exact .own hid (.inr hopen)
  · exact .shares hpool
  · obtain ⟨⟨i, record⟩, hmem, hp⟩ := List.any_eq_true.mp hmarket
    cases record with
    | split m vout =>
      simp only [Bool.and_eq_true, Bool.or_eq_true, beq_iff_eq] at hp
      exact .pairs m ⟨_, hmem, rfl⟩ hp.1 hp.2
    | _ => simp at hp

section

variable {r : OverlayRules} {held : Overlays} {height : ℕ} {V V' : Views} {tx : Transaction}
  {trace : AssetTrace}

theorem TxStep.checked (h : TxStep r held height V tx V' trace) :
    Checked V.assets (mintPolicy r held) tx trace.outputs := checkInner_ok (applyTx_result h.assets)

/-- What the outputs of a transaction carry fits 64 bits. -/
theorem TxStep.carryOut_eq (h : TxStep r held height V tx V' trace) (a : Txid) :
    carryOut trace a = heldIn trace.outputs a := min_eq_left (h.checked.fits a)

/-- **A mint has a reason.** -/
theorem TxStep.mints (h : TxStep r held height V tx V' trace)
    (hn : (tx.input.map TxIn.previousOutput).Nodup) {a : Txid}
    (hlt : heldIn trace.inputs a < heldIn trace.outputs a) : Mints r held tx a := by
  rcases h.checked.bound a with hle | ⟨hid, hiss⟩ | hpolicy
  · have hin := carriedIn_le (v := V.assets) hn a
    rw [← h.inputs] at hin
    omega
  · exact .own hid (.inl hiss)
  · exact mints_of_policy hpolicy

/-- **The total after a transaction.** -/
theorem TxStep.total (h : TxStep r held height V tx V' trace)
    (hn : (tx.input.map TxIn.previousOutput).Nodup) (a : Txid) :
    V'.assets.total a + heldIn trace.inputs a ≤ V.assets.total a + heldIn trace.outputs a := by
  rw [h.inputs]
  exact total_applyTx_le hn h.assets a

/-- The inputs carry part of the total. -/
theorem TxStep.inputs_le (h : TxStep r held height V tx V' trace)
    (hn : (tx.input.map TxIn.previousOutput).Nodup) (a : Txid) :
    heldIn trace.inputs a ≤ V.assets.total a := by
  have ht := Map.total_restrict_add_eraseAll (f := fun _ (c : Carry) => c.amount a)
    (m := V.assets.carried) hn
  rw [h.inputs]
  unfold heldIn AssetView.traceInputs AssetView.total heldIn
  omega

/-! ### The pools and markets after a transaction -/

omit [Bitcoin] in
theorem PoolView.contains_apply {v : PoolView} {p : Pool} {id : Txid} :
    (v.apply p).contains id = true ↔ id = p.id ∨ v.contains id = true := by
  simp only [PoolView.contains, PoolView.apply]
  by_cases hid : id = p.id
  · subst hid
    simp [Finmap.lookup_insert]
  · simp [Finmap.lookup_insert_of_ne _ hid, hid]

omit [Bitcoin] in
theorem MarketView.contains_apply {v : MarketView} {m : Market} {id : Txid} :
    (v.apply m).contains id = true ↔ id = m.id ∨ v.contains id = true := by
  simp only [MarketView.contains, MarketView.apply]
  by_cases hid : id = m.id
  · subst hid
    simp [Finmap.lookup_insert]
  · simp [Finmap.lookup_insert_of_ne _ hid, hid]

/-- The pools after a transaction: those before, and the one it opens. -/
theorem TxStep.pools (h : TxStep r held height V tx V' trace) :
    (∀ id, V.pool.contains id = true → V'.pool.contains id = true) ∧
    ∀ id, V'.pool.contains id = true → V.pool.contains id = true ∨
      (id = Bitcoin.computeTxid tx ∧ (classify tx).opensPool = true) := by
  have hp := h.pool
  split_ifs at hp
  · obtain ⟨act, -, hspec, hV⟩ := hp
    cases act with
    | nothing =>
      simp only [PoolAction.result, Option.elim_none] at hV
      rw [hV]
      exact ⟨fun _ h => h, fun _ h => .inl h⟩
    | opens pool =>
      obtain ⟨-, hopen, -, hid, -⟩ := hspec
      simp only [PoolAction.result, Option.elim_some] at hV
      simp only [hV, PoolView.contains_apply]
      exact ⟨fun _ h => .inr h, fun id h => h.symm.imp_right fun h => ⟨h.trans hid, hopen⟩⟩
    | recreates before after =>
      obtain ⟨-, -, hlook, -⟩ := hspec
      simp only [PoolAction.result, Option.elim_some] at hV
      simp only [hV, PoolView.contains_apply]
      refine ⟨fun _ h => .inr h, fun id h => .inl ?_⟩
      rcases h with rfl | h
      · simp [PoolView.contains, hlook]
      · exact h
  · rw [hp]
    exact ⟨fun _ h => h, fun _ h => .inl h⟩

/-- The markets after a transaction: those before, and the one it opens. -/
theorem TxStep.markets_cases (h : TxStep r held height V tx V' trace) :
    (∀ id, V.markets.contains id = true → V'.markets.contains id = true) ∧
    ∀ id, V'.markets.contains id = true → V.markets.contains id = true ∨
      (id = Bitcoin.computeTxid tx ∧ (classify tx).opensPool = false) := by
  have hm := h.markets
  split_ifs at hm
  · obtain ⟨effect, heff, -, hV⟩ := hm
    cases heff with
    | nothing _ _ =>
      simp only [Option.elim_none] at hV
      rw [hV]
      exact ⟨fun _ h => h, fun _ h => .inl h⟩
    | opens market _ _ hid _ _ hpools =>
      simp only [Option.elim_some] at hV
      simp only [hV, MarketView.contains_apply]
      exact ⟨fun _ h => .inr h, fun id h => h.symm.imp_right fun h => ⟨h.trans hid, hpools⟩⟩
    | moves before after _ hlook _ _ =>
      simp only [Option.elim_some] at hV
      simp only [hV, MarketView.contains_apply]
      refine ⟨fun _ h => .inr h, fun id h => .inl ?_⟩
      rcases h with rfl | h
      · simp [MarketView.contains, hlook]
      · exact h
  · rw [hm]
    exact ⟨fun _ h => h, fun _ h => .inl h⟩

end

/-! ### Names -/

/-- The hashes of these transactions do not collide: the txids tell them
apart, and their NO assets are different from each other and from the txids. -/
structure HashesApart (txs : List Transaction) : Prop where
  txids : TxidsBind txs
  noIds : ∀ x y, Mined txs x → Mined txs y → noIdOf x ≠ y
  injective : ∀ x y, Mined txs x → Mined txs y → noIdOf x = noIdOf y → x = y

theorem Mined.mono {txs txs' : List Transaction} (hsub : ∀ tx ∈ txs, tx ∈ txs') {x : Txid}
    (h : Mined txs x) : Mined txs' x := by
  obtain ⟨tx, htx, rfl⟩ := List.mem_map.mp h
  exact List.mem_map_of_mem (hsub tx htx)

theorem HashesApart.mono {txs txs' : List Transaction} (h : HashesApart txs')
    (hsub : ∀ tx ∈ txs, tx ∈ txs') : HashesApart txs :=
  ⟨h.txids.mono hsub, fun x y hx hy => h.noIds x y (hx.mono hsub) (hy.mono hsub),
    fun x y hx hy => h.injective x y (hx.mono hsub) (hy.mono hsub)⟩

/-- Hashes that are all different do not collide. -/
theorem hashesApart_of_nodup {txs : List Transaction}
    (h : (txs.map Bitcoin.computeTxid ++ (txs.map Bitcoin.computeTxid).map noIdOf).Nodup) :
    HashesApart txs := by
  obtain ⟨hids, hno, hdis⟩ := List.nodup_append.mp h
  refine ⟨fun tx htx tx' htx' he => ?_, fun x y hx hy he => ?_, fun x y hx hy he => ?_⟩
  · rw [List.inj_on_of_nodup_map hids htx htx' he]
  · exact hdis y hy (noIdOf x) (List.mem_map_of_mem hx) he.symm
  · exact List.inj_on_of_nodup_map hno hx hy he

/-- The ids and their no-ids as numbers. -/
def hashNumbers (txs : List Transaction) : List ℕ :=
  (txs.map Bitcoin.computeTxid ++ (txs.map Bitcoin.computeTxid).map noIdOf).map BitVec.toNat

theorem hashesApart_of_slotsApart {txs : List Transaction} {n : ℕ}
    (h : slotsApart n 0 (hashNumbers txs) = true) : HashesApart txs :=
  hashesApart_of_nodup (.of_map _ (nodup_of_slotsApart h))

/-- The views in a block hold every pool and market of the applied state. -/
structure Grown (held : Overlays) (V : Views) : Prop where
  pools : ∀ id, held.pool.view.contains id = true → V.pool.contains id = true
  markets : ∀ id, held.markets.view.contains id = true → V.markets.contains id = true

theorem Grown.step {r : OverlayRules} {held : Overlays} {height : ℕ} {V V' : Views}
    {tx : Transaction} {trace : AssetTrace} (h : Grown held V)
    (hstep : TxStep r held height V tx V' trace) : Grown held V' :=
  ⟨fun id hid => hstep.pools.1 id (h.pools id hid),
    fun id hid => hstep.markets_cases.1 id (h.markets id hid)⟩

/-- Every pool, market and carried asset is named by the mined transactions,
and no id is both a pool's and a market's. -/
structure Named (mined : List Transaction) (V : Views) : Prop where
  pools : ∀ id, V.pool.contains id = true → Mined mined id
  markets : ∀ id, V.markets.contains id = true → Mined mined id
  apart : ∀ id, V.pool.contains id = true → V.markets.contains id = true → False
  known : ∀ a, 0 < V.assets.total a →
    Mined mined a ∨ ∃ m, V.markets.contains m = true ∧ a = noIdOf m

theorem Mined.append {mined : List Transaction} {x : Txid} (h : Mined mined x) (tx : Transaction) :
    Mined (mined ++ [tx]) x := mined_append.mpr (.inl h)

theorem Named.coinbase {mined : List Transaction} {V : Views} (h : Named mined V)
    (cb : Transaction) : Named (mined ++ [cb]) V :=
  ⟨fun id hid => (h.pools id hid).append cb, fun id hid => (h.markets id hid).append cb, h.apart,
    fun a ha => (h.known a ha).imp_left fun hm => hm.append cb⟩

/-- **A transaction keeps the names**, when its id is new. -/
theorem Named.step {r : OverlayRules} {held : Overlays} {height : ℕ} {V V' : Views}
    {tx : Transaction} {trace : AssetTrace} {mined : List Transaction} (h : Named mined V)
    (hgrown : Grown held V) (hstep : TxStep r held height V tx V' trace)
    (hn : (tx.input.map TxIn.previousOutput).Nodup)
    (hnew : ¬ Mined mined (Bitcoin.computeTxid tx)) : Named (mined ++ [tx]) V' := by
  obtain ⟨-, hpools⟩ := hstep.pools
  obtain ⟨hgrow, hmarkets⟩ := hstep.markets_cases
  have hown : Mined (mined ++ [tx]) (Bitcoin.computeTxid tx) := mined_append.mpr (.inr rfl)
  refine ⟨fun id hid => ?_, fun id hid => ?_, fun id hp hm => ?_, fun a ha => ?_⟩
  · rcases hpools id hid with h1 | ⟨rfl, -⟩
    · exact (h.pools id h1).append tx
    · exact hown
  · rcases hmarkets id hid with h1 | ⟨rfl, -⟩
    · exact (h.markets id h1).append tx
    · exact hown
  · rcases hpools id hp with h1 | ⟨rfl, hopen⟩
    · rcases hmarkets id hm with h2 | ⟨rfl, -⟩
      · exact h.apart id h1 h2
      · exact hnew (h.pools _ h1)
    · rcases hmarkets _ hm with h2 | ⟨-, hclosed⟩
      · exact hnew (h.markets _ h2)
      · rw [hopen] at hclosed
        simp at hclosed
  · by_cases h0 : 0 < V.assets.total a
    · rcases h.known a h0 with h1 | ⟨m, hm, rfl⟩
      · exact .inl (h1.append tx)
      · exact .inr ⟨m, hgrow m hm, rfl⟩
    · -- nothing of it before: this transaction mints it
      have ht := hstep.total hn a
      have hlt : heldIn trace.inputs a < heldIn trace.outputs a := by omega
      cases hstep.mints hn hlt with
      | own hid _ => exact .inl (hid ▸ hown)
      | shares hpool => exact .inl ((h.pools a (hgrown.pools a hpool)).append tx)
      | pairs m _ hm hpair =>
        have hm' := hgrown.markets m hm
        rcases hpair with rfl | rfl
        · exact .inl ((h.markets _ hm').append tx)
        · exact .inr ⟨m, hgrow m hm', rfl⟩

/-- Two views with the same carries, pools and markets: what is listed as issued
may differ. -/
structure SameViews (V V' : Views) : Prop where
  carried : V'.assets.carried = V.assets.carried
  pool : V'.pool = V.pool
  markets : V'.markets = V.markets

omit [Bitcoin] in
theorem SameViews.total {V V' : Views} (h : SameViews V V') (a : Txid) :
    V'.assets.total a = V.assets.total a := by
  rw [AssetView.total, h.carried, AssetView.total]

theorem Named.sameViews {mined : List Transaction} {V V' : Views} (h : Named mined V)
    (hsame : SameViews V V') : Named mined V' := by
  refine ⟨?_, ?_, ?_, fun a ha => ?_⟩
  · rw [hsame.pool]
    exact h.pools
  · rw [hsame.markets]
    exact h.markets
  · rw [hsame.pool, hsame.markets]
    exact h.apart
  · rw [hsame.markets]
    exact h.known a (hsame.total a ▸ ha)

/-- The empty views. -/
theorem Named.empty : Named [] (Overlays.views {}) := by
  refine ⟨by simp [Overlays.views, PoolView.contains], by simp [Overlays.views, MarketView.contains],
    by simp [Overlays.views, PoolView.contains], fun a ha => ?_⟩
  have h0 : AssetView.total {} a = 0 := rfl
  simp only [Overlays.views, h0] at ha
  omega

/-- Nothing carries an asset that a new transaction's id names. -/
theorem Named.new_total {mined : List Transaction} {V : Views} {tx : Transaction}
    (h : Named mined V) (hash : HashesApart (mined ++ [tx]))
    (hnew : ¬ Mined mined (Bitcoin.computeTxid tx)) :
    V.assets.total (Bitcoin.computeTxid tx) = 0 ∧
      V.assets.total (noIdOf (Bitcoin.computeTxid tx)) = 0 := by
  have hown : Mined (mined ++ [tx]) (Bitcoin.computeTxid tx) := mined_append.mpr (.inr rfl)
  constructor
  · by_contra h0
    rcases h.known _ (Nat.pos_of_ne_zero h0) with h1 | ⟨m, hm, he⟩
    · exact hnew h1
    · exact hash.noIds m _ ((h.markets m hm).append tx) hown he.symm
  · by_contra h0
    rcases h.known _ (Nat.pos_of_ne_zero h0) with h1 | ⟨m, hm, he⟩
    · exact hash.noIds _ _ hown (h1.append tx) rfl
    · exact hnew (hash.injective _ _ hown ((h.markets m hm).append tx) he ▸ h.markets m hm)

end

/-! ### Over a run -/

section

variable [Bitcoin] {H : Type} [HeaderFamily H]

/-- One transaction after the coinbase of an accepted block, where `mined` are
the transactions before it. -/
structure OverlayTx (r : OverlayRules) (s : StateOf H Overlays) (height : ℕ) (block : Block H)
    (mined : List Transaction) (V : Views) (tx : Transaction) (trace : AssetTrace) (V' : Views) :
    Prop where
  step : TxStep r s.held height V tx V' trace
  grown : Grown s.held V
  new : ¬ Mined mined (Bitcoin.computeTxid tx)
  nodup : (tx.input.map TxIn.previousOutput).Nodup
  outputs : ∀ o ∈ tx.output, o.sats ≤ s.params.maxMoney
  traced : ∃ v first traces, assetCandidate (mintPolicy r s.held) s.held.assets.view block.txdata
    height = .ok (v, first :: traces) ∧ (tx, trace) ∈ (block.txdata.drop 1).zip traces

/-- What the transaction phase says of a transaction after the coinbase. -/
theorem Accepted.tx_facts {σ : Type} {s : StateOf H σ} {height : ℕ} {block : Block H}
    {cb : Transaction} {rest : List Transaction} {next : Records} {held : σ}
    (h : Accepted s height block cb rest next held) : ∀ tx ∈ rest,
    (tx.input.map TxIn.previousOutput).Nodup ∧ ∀ o ∈ tx.output, o.sats ≤ s.params.maxMoney := by
  intro tx htx
  have hok := h.restOk tx htx
  simp only [validateTransaction, Verdict.ok_cons, Bool.and_eq_true, bne_iff_ne, ne_eq,
    Option.some.injEq, Bool.not_eq_false, decide_eq_true_eq, List.all_eq_true] at hok
  exact ⟨hok.2.2.2.2.1, hok.2.2.2.1.1⟩

omit [HeaderFamily H] in
/-- The transactions of one block, in order. -/
theorem BlockSteps.ind {r : OverlayRules} {s : StateOf H Overlays} {height : ℕ} {block : Block H}
    {I : List Transaction → Views → Prop} {V V' : Views} {l : List (Transaction × AssetTrace)}
    (hs : BlockSteps r s.held height V l V') : ∀ {mined : List Transaction},
    ((mined ++ l.map Prod.fst).map Bitcoin.computeTxid).Nodup → Grown s.held V →
    (∀ p ∈ l, (p.1.input.map TxIn.previousOutput).Nodup ∧
      (∀ o ∈ p.1.output, o.sats ≤ s.params.maxMoney) ∧
      ∃ v first traces, assetCandidate (mintPolicy r s.held) s.held.assets.view block.txdata
        height = .ok (v, first :: traces) ∧ p ∈ (block.txdata.drop 1).zip traces) →
    (∀ {mined V tx trace V'}, OverlayTx r s height block mined V tx trace V' → I mined V →
      I (mined ++ [tx]) V') →
    I mined V → I (mined ++ l.map Prod.fst) V' := by
  induction hs with
  | nil V =>
    intro mined _ _ _ _ hI
    simpa using hI
  | @cons V V1 V' tx trace txs hstep _ ih =>
    intro mined hids hgrown hfacts hI hstart
    obtain ⟨hn, hout, htr⟩ := hfacts (tx, trace) List.mem_cons_self
    rw [List.map_cons, List.append_cons] at hids ⊢
    have hnew : ¬ Mined mined (Bitcoin.computeTxid tx) := by
      rw [List.map_append, List.map_append] at hids
      have hdis := (List.nodup_append.mp (List.nodup_append.mp hids).1).2.2
      exact fun hm => hdis _ hm (Bitcoin.computeTxid tx) (by simp) rfl
    exact ih hids (hgrown.step hstep) (fun p hp => hfacts p (List.mem_cons_of_mem _ hp)) hI
      (hI ⟨hstep, hgrown, hnew, hn, hout, htr⟩ hstart)

/-- **One applied block.** What each transaction after the coinbase keeps, and
a coinbase does not touch, the block keeps. -/
theorem overlay_step {r : OverlayRules} {checks : Bool} {doc : ChainDocument}
    {I : List Transaction → Views → Prop} {blocks : List (Block H)} {s s' : StateOf H Overlays}
    {block : Block H} (hc : Chain doc (r.boxed checks) {} blocks s) (hb : Step s (some block) s')
    (hbind : GenesisBinds doc (blocks ++ [block])) (hash : HashesApart (minedTxs (blocks ++ [block])))
    (hsame : ∀ {mined V V'}, SameViews V V' → I mined V → I mined V')
    (hcoinbase : ∀ {mined V} (cb : Transaction), I mined V → I (mined ++ [cb]) V)
    (hstep : ∀ {mined V tx trace V'}, HashesApart (mined ++ [tx]) →
      OverlayTx r s blocks.length block mined V tx trace V' → I mined V → I (mined ++ [tx]) V')
    (hI : I (minedTxs blocks) s.held.views) :
    I (minedTxs (blocks ++ [block])) s'.held.views := by
  have hok := held_ok_of_chain (boxed_keeps r checks) Overlays.ok_empty hc
  have hids : ((minedTxs (blocks ++ [block])).map Bitcoin.computeTxid).Nodup :=
    (fresh_of_chain (hc.step hb) hbind hash.txids).ids
  rcases hc.step_cases hb with ⟨block', cb, rest, next, held', he, -, ha, rfl⟩ | ⟨he, -⟩
  · obtain rfl := Option.some.inj he
    obtain ⟨V, v, first, traces, hcand, hlen, hsteps, hcar, hpool, hmar⟩ :=
      accepted_steps hc.onChain.rules hok.market ha
    have hfst : (rest.zip traces).map Prod.fst = rest := List.map_fst_zip hlen.ge
    rw [minedTxs_append, ha.txdata, List.append_cons] at hids hash ⊢
    have hdrop : block.txdata.drop 1 = rest := by rw [ha.txdata]; rfl
    -- the hashes of a prefix of the run are apart
    have hapart : ∀ {pre : List Transaction} {tx : Transaction},
        (pre ++ [tx]) <+: (minedTxs blocks ++ [cb]) ++ rest → HashesApart (pre ++ [tx]) :=
      fun hp => hash.mono fun t ht => hp.subset ht
    have hblock : minedTxs blocks ++ [cb] ++ (rest.zip traces).map Prod.fst <+:
        (minedTxs blocks ++ [cb]) ++ rest →
        I (minedTxs blocks ++ [cb] ++ (rest.zip traces).map Prod.fst) V := by
      have hfacts : ∀ p ∈ rest.zip traces, (p.1.input.map TxIn.previousOutput).Nodup ∧
          (∀ o ∈ p.1.output, o.sats ≤ s.params.maxMoney) ∧
          ∃ v first traces, assetCandidate (mintPolicy r s.held) s.held.assets.view block.txdata
            blocks.length = .ok (v, first :: traces) ∧ p ∈ (block.txdata.drop 1).zip traces := by
        intro p hp
        obtain ⟨hn, hout⟩ := ha.tx_facts p.1 (List.of_mem_zip hp).1
        exact ⟨hn, hout, v, first, traces, hcand, by rw [hdrop]; exact hp⟩
      refine BlockSteps.ind (I := fun mined V => mined <+: (minedTxs blocks ++ [cb]) ++ rest →
        I mined V) hsteps (by rw [hfst]; exact hids) ⟨fun _ h => h, fun _ h => h⟩ hfacts
        (fun htx hI hp => ?_) (fun _ => hcoinbase cb hI)
      exact hstep (hapart hp) htx (hI ((List.prefix_append _ _).trans hp))
    rw [hfst] at hblock
    exact hsame ⟨hcar, hpool, hmar⟩ (hblock List.prefix_rfl)
  · simp at he

/-- **Induction over a run.** What holds of the empty views, is kept by each
transaction after a coinbase and says nothing of coinbases, holds of the views
of every state; `P` is what the applied blocks are known to meet. -/
theorem overlay_ind {r : OverlayRules} {checks : Bool} {doc : ChainDocument}
    {P : StateOf H Overlays → Block H → Prop} {I : List Transaction → Views → Prop}
    (hsame : ∀ {mined V V'}, SameViews V V' → I mined V → I mined V')
    (hcoinbase : ∀ {mined V} (cb : Transaction), I mined V → I (mined ++ [cb]) V)
    (hstep : ∀ {blocks s block mined V tx trace V'}, Chain doc (r.boxed checks) {} blocks s →
      P s block → HashesApart (mined ++ [tx]) →
      OverlayTx r s blocks.length block mined V tx trace V' → I mined V → I (mined ++ [tx]) V')
    (hempty : I [] (Overlays.views {})) {blocks : List (Block H)} {s : StateOf H Overlays}
    (h : ChainWhere P doc (r.boxed checks) {} blocks s) :
    GenesisBinds doc blocks → HashesApart (minedTxs blocks) → I (minedTxs blocks) s.held.views := by
  induction h with
  | @genesis genesis expect s hgen =>
    intro hbind _
    obtain ⟨s0, cb, rest, next, held', h0, ha, hg, rfl⟩ := fromGenesis_ok hgen
    obtain ⟨bits, challenge, federation, -, rfl⟩ := empty_ok h0
    obtain ⟨rfl, -⟩ := genesis_txdata ha hg fun e he => hbind genesis e rfl he
    obtain ⟨V, v, trace, traces, -, -, hsteps, hcar, hpool, hmar⟩ :=
      accepted_steps rfl Overlays.ok_empty.market ha
    have hV : V = Overlays.views {} := by
      rw [List.zip_nil_left] at hsteps
      cases hsteps
      rfl
    subst hV
    have hmoved : SameViews (Overlays.views {})
        (StateOf.commit _ 0 genesis next held').held.views := ⟨hcar, hpool, hmar⟩
    have hI := hsame hmoved (hcoinbase cb hempty)
    simpa [minedTxs, ha.txdata, StateOf.commit] using hI
  | @step blocks s b s' hc hb hP ih =>
    intro hbind hash
    have hchain := hc.chain
    obtain ⟨g, l, rfl⟩ := hchain.head
    have hbind' : GenesisBinds doc (g :: l) := fun g' e hg' => hbind g' e (by simpa using hg')
    cases b with
    | some block =>
      rw [Option.toList_some] at hbind hash ⊢
      have hI := ih hbind' (hash.mono fun t ht => by
        rw [minedTxs_append]
        exact List.mem_append_left _ ht)
      exact overlay_step hchain hb hbind hash hsame hcoinbase
        (fun hash htx hI => hstep hchain (hP block rfl) hash htx hI) hI
    | none =>
      rw [Option.toList_none, List.append_nil] at hbind hash ⊢
      have hok := held_ok_of_chain (boxed_keeps r checks) Overlays.ok_empty hchain
      have hviews : s'.held.views = s.held.views := by
        rcases hchain.step_cases hb with ⟨_, _, _, _, _, he, -⟩ | ⟨-, -, hheld⟩
        · simp at he
        · rcases hheld with hheld | ⟨height, block, now, v, next, hj⟩
          · rw [hheld]
          · exact (judge_keeps (by rw [hchain.onChain.rules]; exact boxed_keeps r checks) hok hj).2
      rw [hviews]
      exact ih hbind hash

end

end Sidestr
