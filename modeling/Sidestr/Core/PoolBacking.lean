/-
# The backing of pool shares

A pool records how many shares it has out, and they are an asset like any
other. The mint policy leaves every mint of an existing pool's shares to the
pool rule; the pool rule looks only at transactions that open a pool, spend a
pool's coin or carry a `pool:` record. A transaction that does none of these
and tallies more shares than it carries in is refused by neither
(`unrecorded_mint`).

Where every mint of an existing pool's shares stands in a transaction with
that pool's record, the shares are backed: over every run their total is at
most what the pool records (`pool_shares_backed`).

Key definitions: `MintsRecorded`, `PoolMintsRecorded`, `Backed`.
Key theorems: `Named.shares_kept`, `Backed.step`, `pool_shares_backed`.
-/
import Sidestr.Core.AssetTotals
import Sidestr.Core.Quick

namespace Sidestr

/-- A transaction whose outputs carry more of an existing pool's shares than
its inputs has a record of that pool. -/
def MintsRecorded (view : PoolView) (p : Transaction × AssetTrace) : Prop :=
  ∀ id ∈ view.pools.keys, heldIn p.2.inputs id < heldIn p.2.outputs id →
    ∃ q ∈ (classify p.1).pools, q.2.pool = .id id

-- over the pools there are, not over all ids
instance (view : PoolView) (p : Transaction × AssetTrace) : Decidable (MintsRecorded view p) :=
  Finset.decidableDforallFinset

section

variable [Bitcoin] {H : Type} [HeaderFamily H]

/-- What the assets rule reads of each transaction of the next block. -/
def nextTraces (r : OverlayRules) (s : StateOf H Overlays) (block : Block H) : List AssetTrace :=
  match assetCandidate (mintPolicy r s.held) s.held.assets.view block.txdata s.hashes.length with
  | .ok (_, traces) => traces
  | _ => []

/-- Every mint of an existing pool's shares in the next block is in a
transaction with that pool's record. -/
def PoolMintsRecorded (r : OverlayRules) (s : StateOf H Overlays) (block : Block H) : Prop :=
  ∀ p ∈ block.txdata.zip (nextTraces r s block), MintsRecorded s.held.pool.view p

instance (r : OverlayRules) (s : StateOf H Overlays) (block : Block H) :
    Decidable (PoolMintsRecorded r s block) :=
  inferInstanceAs (Decidable (∀ p ∈ block.txdata.zip (nextTraces r s block),
    MintsRecorded s.held.pool.view p))

/-! ### One transaction -/

omit [HeaderFamily H] in
/-- The condition at one transaction of the block. -/
theorem OverlayTx.recorded {r : OverlayRules} {s : StateOf H Overlays} {block : Block H}
    {mined : List Transaction} {V V' : Views} {tx : Transaction} {trace : AssetTrace}
    (htx : OverlayTx r s s.hashes.length block mined V tx trace V')
    (h : PoolMintsRecorded r s block) : MintsRecorded s.held.pool.view (tx, trace) := by
  obtain ⟨v, first, traces, hcand, hmem⟩ := htx.traced
  apply h (tx, trace)
  rw [nextTraces, hcand]
  cases hl : block.txdata with
  | nil => simp [hl] at hmem
  | cons cb rest =>
    rw [hl] at hmem
    exact List.mem_cons_of_mem _ hmem

omit [Bitcoin] in
theorem mem_keys_of_contains {v : PoolView} {id : Txid} (h : v.contains id = true) :
    id ∈ v.pools.keys := by
  rw [Finmap.mem_keys, ← Finmap.lookup_isSome]
  exact h

variable {r : OverlayRules} {held : Overlays} {height : ℕ} {V V' : Views} {tx : Transaction}
  {trace : AssetTrace} {mined : List Transaction}

/-- A transaction without a record of a pool does not raise the total of its shares. -/
theorem Named.shares_kept (h : Named mined V) (hgrown : Grown held V)
    (hash : HashesApart (mined ++ [tx])) (hstep : TxStep r held height V tx V' trace)
    (hn : (tx.input.map TxIn.previousOutput).Nodup)
    (hnew : ¬ Mined mined (Bitcoin.computeTxid tx)) (hrec : MintsRecorded held.pool.view (tx, trace))
    {id : Txid} (hid : V.pool.contains id = true)
    (hnone : ∀ q ∈ (classify tx).pools, q.2.pool ≠ .id id) :
    V'.assets.total id ≤ V.assets.total id := by
  have ht := hstep.total hn id
  by_contra hlt
  have hmined := h.pools id hid
  cases hstep.mints hn (a := id) (by omega) with
  | own hown _ => exact hnew (hown ▸ hmined)
  | shares hpool =>
    obtain ⟨q, hq, hq'⟩ := hrec id (mem_keys_of_contains hpool) (by dsimp only; omega)
    exact hnone q hq hq'
  | pairs m _ hm hpair =>
    have hm' := hgrown.markets m hm
    rcases hpair with rfl | rfl
    · exact h.apart id hid hm'
    · exact hash.noIds m _ ((h.markets m hm').append tx) (hmined.append tx) rfl

/-- What a run keeps of the pools: their names, their order, and the backing. -/
structure Backed (mined : List Transaction) (V : Views) : Prop where
  named : Named mined V
  order : V.pool.Ok
  backed : ∀ id p, V.pool.pools.lookup id = some p → V.assets.total id ≤ p.shares

omit [Bitcoin] in
theorem PoolView.lookup_apply {v : PoolView} {p q : Pool} {id : Txid}
    (h : (v.apply p).pools.lookup id = some q) :
    (id = p.id ∧ q = p) ∨ (id ≠ p.id ∧ v.pools.lookup id = some q) := by
  simp only [PoolView.apply] at h
  by_cases hid : id = p.id
  · subst hid
    rw [Finmap.lookup_insert, Option.some.injEq] at h
    exact .inl ⟨rfl, h.symm⟩
  · rw [Finmap.lookup_insert_of_ne _ hid] at h
    exact .inr ⟨hid, h⟩

/-- **A transaction keeps the backing.** One that opens a pool makes its shares
from nothing; one that recreates a pool moves the record by what it makes and
destroys; no other moves the total up. -/
theorem Backed.step (hr : r.pool = true) (h : Backed mined V) (hgrown : Grown held V)
    (hash : HashesApart (mined ++ [tx])) (hstep : TxStep r held height V tx V' trace)
    (hn : (tx.input.map TxIn.previousOutput).Nodup)
    (hnew : ¬ Mined mined (Bitcoin.computeTxid tx))
    (hrec : MintsRecorded held.pool.view (tx, trace)) : Backed (mined ++ [tx]) V' := by
  have hkept : ∀ {id : Txid} {p : Pool}, V.pool.pools.lookup id = some p →
      (∀ q ∈ (classify tx).pools, q.2.pool ≠ .id id) → V'.assets.total id ≤ p.shares := by
    intro id p hp hnone
    have hid : V.pool.contains id = true := by simp [PoolView.contains, hp]
    exact (h.named.shares_kept hgrown hash hstep hn hnew hrec hid hnone).trans (h.backed id p hp)
  have hpool := hstep.pool
  rw [if_pos hr] at hpool
  obtain ⟨act, hact, hspec, hV⟩ := hpool
  have hpools := V.pool.action_pools hact hstep.checked.amounts
  refine ⟨h.named.step hgrown hstep hn hnew, ?_, ?_⟩
  · rw [hV]
    cases act with
    | nothing => exact h.order
    | opens pool => exact h.order.apply hpools
    | recreates before after => exact h.order.apply hpools
  · intro id p hp
    rw [hV] at hp
    cases act with
    | nothing =>
      obtain ⟨-, hnone⟩ := hspec
      exact hkept hp (by simp [hnone])
    | opens pool =>
      obtain ⟨-, -, hself, hid, hout⟩ := hspec
      rcases PoolView.lookup_apply hp with ⟨rfl, rfl⟩ | ⟨-, hp⟩
      · have h0 := (h.named.new_total hash hnew).1
        have ht := hstep.total hn p.id
        rw [hstep.carryOut_eq] at hout
        rw [← hid] at h0
        omega
      · exact hkept hp fun q hq => by simp [hself q hq]
    | recreates before after =>
      obtain ⟨-, hnames, hlook, -, hshares⟩ := hspec
      rcases PoolView.lookup_apply hp with ⟨rfl, rfl⟩ | ⟨hne, hp⟩
      · -- what goes in is part of a total below the shares, so it is read exactly
        have hb := h.backed _ _ hlook
        have hmax := (h.order _ _ hlook).2.shares
        have hin := hstep.inputs_le hn p.id
        have hread : carryIn trace p.id = heldIn trace.inputs p.id := min_eq_left (by omega)
        have ht := hstep.total hn p.id
        rw [hread, hstep.carryOut_eq] at hshares
        omega
      · refine hkept hp fun q hq => ?_
        rw [hnames q hq]
        simpa using fun e => hne e.symm

/-! ### Runs -/

variable {checks : Bool} {markets : Option ℕ} {doc : ChainDocument} {blocks : List (Block H)}
  {s : StateOf H Overlays}

theorem backed_of_chain
    (hrun : ChainWhere (PoolMintsRecorded ⟨true, markets⟩) doc
      (OverlayRules.boxed ⟨true, markets⟩ checks) {} blocks s)
    (hbind : GenesisBinds doc blocks) (hash : HashesApart (minedTxs blocks)) :
    Backed (minedTxs blocks) s.held.views := by
  refine overlay_ind (I := Backed) ?_ ?_ ?_ ?_ hrun hbind hash
  · intro mined V V' hsame h
    refine ⟨h.named.sameViews hsame, hsame.pool ▸ h.order, fun id p hp => ?_⟩
    rw [hsame.total]
    exact h.backed id p (hsame.pool ▸ hp)
  · intro mined V cb h
    exact ⟨h.named.coinbase cb, h.order, h.backed⟩
  · intro blocks s block mined V tx trace V' hc hP hash htx h
    have hlen : blocks.length = s.hashes.length := by rw [hc.onChain.hashes, List.length_map]
    rw [hlen] at htx
    exact h.step rfl htx.grown hash htx.step htx.nodup htx.new (htx.recorded hP)
  · exact ⟨.empty, fun id p hp => by simp [Overlays.views] at hp,
      fun id p hp => by simp [Overlays.views] at hp⟩

/-- **Pool shares are backed** over every run whose blocks record the mints of
existing pools' shares: the total of a pool's share asset over the unspent
outputs is at most the shares it has out. And a block applied next that meets
the condition and has no record of a pool does not raise its total. -/
theorem pool_shares_backed
    (hrun : ChainWhere (PoolMintsRecorded ⟨true, markets⟩) doc
      (OverlayRules.boxed ⟨true, markets⟩ checks) {} blocks s)
    (hbind : GenesisBinds doc blocks) (hash : HashesApart (minedTxs blocks)) :
    (∀ id p, s.held.pool.view.pools.lookup id = some p →
      s.held.assets.view.total p.id ≤ p.shares) ∧
    ∀ block s', Step s (some block) s' → PoolMintsRecorded ⟨true, markets⟩ s block →
      HashesApart (minedTxs (blocks ++ [block])) → ∀ id, s.held.pool.view.contains id = true →
      (∀ tx ∈ block.txdata, ∀ q ∈ (classify tx).pools, q.2.pool ≠ .id id) →
      s'.held.assets.view.total id ≤ s.held.assets.view.total id := by
  have hB := backed_of_chain hrun hbind hash
  refine ⟨fun id p hp => ?_, fun block s' hb hP hash' id hid hnone => ?_⟩
  · have hid := (hB.order id p hp).1
    rw [hid]
    exact hB.backed id p hp
  · have hc := hrun.chain
    obtain ⟨g, l, rfl⟩ := hc.head
    have hlen : (g :: l).length = s.hashes.length := by rw [hc.onChain.hashes, List.length_map]
    have hbind' : GenesisBinds doc (g :: l ++ [block]) := fun g' e hg' =>
      hbind g' e (by simpa using hg')
    refine (overlay_step hc hb hbind' hash' (I := fun mined V => Named mined V ∧
      V.pool.contains id = true ∧ V.assets.total id ≤ s.held.assets.view.total id) ?_ ?_ ?_
      ⟨hB.named, hid, le_rfl⟩).2.2
    · rintro mined V V' hsame ⟨h1, h2, h3⟩
      exact ⟨h1.sameViews hsame, hsame.pool ▸ h2, (hsame.total id).trans_le h3⟩
    · rintro mined V cb ⟨h1, h2, h3⟩
      exact ⟨h1.coinbase cb, h2, h3⟩
    · rintro mined V tx trace V' hash htx ⟨h1, h2, h3⟩
      rw [hlen] at htx
      have hmem : tx ∈ block.txdata := by
        obtain ⟨v, first, traces, -, hmem⟩ := htx.traced
        exact List.mem_of_mem_drop (List.of_mem_zip hmem).1
      exact ⟨h1.step htx.grown htx.step htx.nodup htx.new, htx.step.pools.1 id h2,
        (h1.shares_kept htx.grown hash htx.step htx.nodup htx.new (htx.recorded hP) h2
          (hnone tx hmem)).trans h3⟩

end

/-! ### A run with a pool and a market -/

section

attribute [local instance] sampleBitcoin

/-- The inputs spend bare `OP_TRUE` coins. -/
def sampleTx (ins : List OutPoint) (outs : List TxOut) : Transaction :=
  ⟨2, 0, ins.map fun o => ⟨o, [], 0xffffffff, []⟩, outs⟩

def trueCoin (value : UInt64) : TxOut := ⟨value, poolScript⟩

/-- An output with a record. -/
def recordOut (text : Bytes) : TxOut :=
  let n := UInt8.ofNat text.length
  ⟨0, 0x6a :: if text.length ≤ 75 then n :: text else 0x4c :: n :: text⟩

def selfText : Bytes := ascii ['s', 'e', 'l', 'f']

def tallyOut (asset : Bytes) (vout amount : ℕ) : TxOut :=
  recordOut (tallyTag ++ asset ++ 0x3a :: decimalText vout ++ 0x3d :: decimalText amount)

/-- Issue an asset on the first output, from the peg's coin. -/
def sampleIssue (peg : Txid) : Transaction :=
  sampleTx [⟨peg, 0⟩] [trueCoin 5000000, trueCoin 4000000,
    recordOut (issueTag ++ ascii ['G', 'O', 'L', 'D', ':', '0']), tallyOut selfText 0 1000000]

/-- Open a pool of a million sats and the asset: a million shares. -/
def sampleOpen (issue : Txid) : Transaction :=
  sampleTx [⟨issue, 0⟩] [trueCoin 1000000, trueCoin 1000, trueCoin 2000000,
    recordOut (poolTag ++ selfText ++ [0x3a, 0x30]), tallyOut selfText 1 1000000,
    tallyOut (hashText issue) 0 1000000]

/-- Open a market of 5,000 sats. -/
def sampleMarket (issue : Txid) : Transaction :=
  sampleTx [⟨issue, 1⟩] [trueCoin 5000, trueCoin 1000000,
    recordOut (marketWord ++ 0x3a :: selfText ++ [0x3a, 0x30, 0x3a] ++ hashText issue ++
      ascii [':', '5', '0', '0', ':', '9']),
    recordOut (questionTag ++ ascii ['R', 'a', 'i', 'n', '?'])]

/-- Take all but 100,000 of the pool's shares out of it again. -/
def sampleRemove (pool asset : Txid) : Transaction :=
  sampleTx [⟨pool, 0⟩, ⟨pool, 1⟩] [trueCoin 100000, trueCoin 900000, trueCoin 500,
    recordOut (poolTag ++ hashText pool ++ [0x3a, 0x30]), tallyOut (hashText pool) 2 100000,
    recordOut (tallyTag ++ hashText asset ++ 0x3a :: decimalText 0 ++ 0x3d :: decimalText 100000 ++
      0x2c :: decimalText 1 ++ 0x3d :: decimalText 900000)]

/-- Split 1,000 pairs off the market. -/
def sampleSplit (market : Txid) : Transaction :=
  sampleTx [⟨market, 0⟩, ⟨market, 1⟩] [trueCoin 6000, trueCoin 500, trueCoin 500,
    recordOut (splitWord ++ 0x3a :: hashText market ++ [0x3a, 0x30]),
    tallyOut (hashText market) 1 1000, tallyOut (hashText (noIdOf market)) 2 1000]

/-- Tally five shares of the pool to an output, with no share and no record of the pool. -/
def sampleMint (pool : Txid) : Transaction :=
  sampleTx [⟨pool, 2⟩] [trueCoin 1000, tallyOut (hashText pool) 0 5]

/-- The ids of the issue, the pool and the market of the run from a genesis. -/
def sampleIds (genesis : Block Header) : Txid × Txid × Txid :=
  let peg := (genesis.txdata.head?.map Bitcoin.computeTxid).getD 0
  let issue := Bitcoin.computeTxid (sampleIssue peg)
  (issue, Bitcoin.computeTxid (sampleOpen issue), Bitcoin.computeTxid (sampleMarket issue))

/-- Blocks until the peg's coin is mature, then the openings, then the remove and the split. -/
def sampleBlocks (genesis : Block Header) : List (List ClaimRequest × List Transaction) :=
  let peg := (genesis.txdata.head?.map Bitcoin.computeTxid).getD 0
  let (issue, pool, market) := sampleIds genesis
  List.replicate 99 ([], []) ++
    [([], [sampleIssue peg, sampleOpen issue, sampleMarket issue]),
     ([], [sampleRemove pool issue, sampleSplit market])]

/-- The rules of the run. -/
abbrev sampleRules : OverlayRules := ⟨true, some 0⟩

/-- The condition of the run: where there is no pool there is nothing to record. -/
def sampleRecorded (s : StateOf Header Overlays) (block : Block Header) : Bool :=
  s.held.pool.view.pools.keys.card == 0 || decide (PoolMintsRecorded sampleRules s block)

theorem recorded_of_sampleRecorded {s : StateOf Header Overlays} {block : Block Header}
    (h : sampleRecorded s block = true) : PoolMintsRecorded sampleRules s block := by
  rw [sampleRecorded, Bool.or_eq_true, beq_iff_eq, decide_eq_true_eq] at h
  rcases h with h | h
  · intro p _ id hid
    rw [Finset.card_eq_zero.mp h] at hid
    simp at hid
  · exact h

set_option maxRecDepth 1000000 in
/-- The run: every mint of the pool's shares is recorded up to a state with an
open pool and an open market; a next block mints five shares on the side. -/
theorem sample_pool_and_market : ∃ (genesis : Block Header) (later : List (Block Header))
    (s : StateOf Header Overlays) (block : Block Header) (s' : StateOf Header Overlays),
    ChainWhere (PoolMintsRecorded sampleRules) sampleDoc (sampleRules.boxed true) {}
      (genesis :: later) s ∧ Step s (some block) s' ∧
    GenesisBinds sampleDoc (genesis :: later) ∧
    HashesApart (minedTxs (genesis :: later ++ [block])) ∧
    (∃ id p, s.held.pool.view.pools.lookup id = some p) ∧
    (∃ id m, s.held.markets.view.markets.lookup id = some m ∧ m.status = .open) ∧
    ∃ id p, s'.held.pool.view.pools.lookup id = some p ∧ p.shares = 100000 ∧
      s'.held.assets.view.total id = 100005 := by
  obtain ⟨genesis, later, s, hrun, hp⟩ := exists_chainWhere_of_sampleRun sampleRecorded sampleDoc
    (sampleRules.boxed true) {} 1 sampleBlocks
    (fun genesis later s =>
      let ids := sampleIds genesis
      (s.extend 1 [] [sampleMint ids.2.1]).any fun r =>
        (r.2.held.pool.view.pools.lookup ids.2.1).any (fun p => p.shares == 100000) &&
        r.2.held.assets.view.total ids.2.1 == 100005 &&
        (s.held.pool.view.pools.lookup ids.2.1).isSome &&
        (s.held.markets.view.markets.lookup ids.2.2).any (fun m => m.status == .open) &&
        slotsApart 1048573 0 (hashNumbers (minedTxs (genesis :: later ++ [r.1]))) &&
        (buildGenesisFor sampleDoc).any fun e : Block Header =>
          committedTxs genesis == committedTxs e)
    (by
      unfold sampleRun
      rw [extendAll_eq_rec]
      unfold StateOf.extend
      rw [← quickStock_eq, ← quickBitcoin_eq]
      decide +kernel)
  obtain ⟨⟨block, s'⟩, hext, hp⟩ := Res.any_eq_true.mp hp
  simp only [Bool.and_eq_true, beq_iff_eq] at hp
  obtain ⟨⟨⟨⟨⟨hpool', htotal'⟩, hpool⟩, hmarket⟩, hids⟩, hbind⟩ := hp
  obtain ⟨p', hp', hshares'⟩ := (Option.any_eq_true _ _).mp hpool'
  obtain ⟨p, hp⟩ := Option.isSome_iff_exists.mp hpool
  obtain ⟨m, hm, hstatus⟩ := (Option.any_eq_true _ _).mp hmarket
  exact ⟨genesis, later, s, block, s', hrun.imp fun _ _ => recorded_of_sampleRecorded,
    step_of_extend hext, genesisBinds_of_any hbind, hashesApart_of_slotsApart hids, ⟨_, p, hp⟩,
    ⟨_, m, hm, beq_iff_eq.mp hstatus⟩, ⟨_, p', hp', beq_iff_eq.mp hshares', htotal'⟩⟩

/-- The last state of the run has a pool, and its shares are backed. -/
theorem pool_shares_backed_sample : ∃ (blocks : List (Block Header)) (s : StateOf Header Overlays)
    (id : Txid) (p : Pool), Chain sampleDoc (sampleRules.boxed true) {} blocks s ∧
      s.held.pool.view.pools.lookup id = some p ∧ s.held.assets.view.total p.id ≤ p.shares := by
  obtain ⟨genesis, later, s, block, s', hrun, -, hbind, hash, ⟨id, p, hp⟩, -, -⟩ :=
    sample_pool_and_market
  have hash' : HashesApart (minedTxs (genesis :: later)) := hash.mono fun t h => by
    rw [minedTxs_append]
    exact List.mem_append_left _ h
  exact ⟨_, s, id, p, hrun.chain, hp, (pool_shares_backed hrun hbind hash').1 id p hp⟩

/-- A block with five shares minted on the side is applied: 100,000 shares are
recorded, and the outputs carry 100,005. -/
theorem unrecorded_mint : ∃ (blocks : List (Block Header)) (s : StateOf Header Overlays)
    (id : Txid) (p : Pool), Chain sampleDoc (sampleRules.boxed true) {} blocks s ∧
      HashesApart (minedTxs blocks) ∧ s.held.pool.view.pools.lookup id = some p ∧ p.shares = 100000 ∧
      s.held.assets.view.total id = 100005 := by
  obtain ⟨genesis, later, s, block, s', hrun, hstep, -, hash, -, -, ⟨id, p, hp, hs, ht⟩⟩ :=
    sample_pool_and_market
  exact ⟨_, s', id, p, hrun.chain.step hstep, hash, hp, hs, ht⟩

end

end Sidestr
