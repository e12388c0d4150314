/-
# What the mempool reserves

The transactions in the mempool have different ids and spend different coins;
the outpoints reserved are exactly their inputs; every input is a coin that the
next block may spend, and covers the outputs. Submitting checks it, discarding
and evicting only take away, and a block from elsewhere takes the transactions
whose coins it spends. What is left still has its coins, because no outpoint is
made twice (`Fresh`).

Key definitions: `MempoolOk`.
Key theorems: `MempoolOk.submit`, `MempoolOk.commit`, `mempool_ok`.
-/
import Sidestr.Core.Produce
import Sidestr.Core.Fresh
import Sidestr.Core.Sample

namespace Sidestr

section

variable [Bitcoin] {H σ : Type} [HeaderFamily H]

namespace StateOf

/-- The inputs of the mempool's transactions, in order. -/
def reserved (s : StateOf H σ) : List OutPoint :=
  s.mempool.flatMap fun p => p.2.input.map TxIn.previousOutput

/-- The sats of the coin at an outpoint. -/
def coinSats (s : StateOf H σ) (op : OutPoint) : ℕ :=
  (s.utxo.lookup op).elim 0 fun c => c.output.sats

end StateOf

/-- The mempool of a state: its transactions apart, their inputs reserved,
spendable in the next block and worth the outputs. -/
structure MempoolOk (s : StateOf H σ) : Prop where
  txids : ∀ p ∈ s.mempool, p.1 = Bitcoin.computeTxid p.2
  apart : (s.mempool.map Prod.fst).Nodup
  inputs : s.reserved.Nodup
  spent : ∀ op, op ∈ s.mempoolSpent ↔ op ∈ s.reserved
  coins : ∀ p ∈ s.mempool, ∀ i ∈ p.2.input, ∃ c, s.utxo.lookup i.previousOutput = some c ∧
    ∀ t, s.tip = .ok t → s.spendable t.height c = true
  covered : ∀ p ∈ s.mempool, (p.2.output.map TxOut.sats).sum ≤
    (p.2.input.map fun i => s.coinSats i.previousOutput).sum

/-! ### Submitting -/

omit [Bitcoin] [HeaderFamily H] in
/-- The coins found for a transaction's inputs: unspent, unreserved, mature. -/
theorem inputCoins_ok {s : StateOf H σ} {tipHeight : ℕ} : ∀ {ins : List TxIn} {cs : List Coin},
    s.inputCoins tipHeight ins = .ok cs →
      (∀ i ∈ ins, i.previousOutput ∉ s.mempoolSpent ∧ ∃ c,
        s.utxo.lookup i.previousOutput = some c ∧ s.spendable tipHeight c = true) ∧
      cs.map (fun c => c.output.sats) = ins.map fun i => s.coinSats i.previousOutput
  | [], cs, h => by
    cases h
    exact ⟨fun i hi => (by cases hi), rfl⟩
  | i :: ins, cs, h => by
    unfold StateOf.inputCoins at h
    obtain ⟨_, hfree, h⟩ := Res.bind_eq_ok.mp h
    obtain ⟨c, hc, h⟩ := Res.bind_eq_ok.mp h
    obtain ⟨_, hmature, h⟩ := Res.bind_eq_ok.mp h
    obtain ⟨rest, hrest, h⟩ := Res.bind_eq_ok.mp h
    cases h
    rw [Res.refuseIf_eq_ok] at hfree hmature
    rw [Res.okOr_eq_ok] at hc
    obtain ⟨ih, hsats⟩ := inputCoins_ok hrest
    refine ⟨fun j hj => ?_, ?_⟩
    · rcases List.mem_cons.mp hj with rfl | hj
      · exact ⟨by simpa using hfree, c, hc, by simpa using hmature⟩
      · exact ih j hj
    · have hcoin : s.coinSats i.previousOutput = c.output.sats := by
        unfold StateOf.coinSats
        rw [hc]
        rfl
      rw [List.map_cons, List.map_cons, hsats, hcoin]

/-- What admission establishes of a transaction. -/
theorem admission_ok {s : StateOf H σ} {tx : Transaction} {fee : ℕ} (h : s.admission tx = .ok fee) :
    (tx.input.map TxIn.previousOutput).Nodup ∧
      (∃ t, s.tip = .ok t ∧ ∀ i ∈ tx.input, i.previousOutput ∉ s.mempoolSpent ∧ ∃ c,
        s.utxo.lookup i.previousOutput = some c ∧ s.spendable t.height c = true) ∧
      (tx.output.map TxOut.sats).sum ≤ (tx.input.map fun i => s.coinSats i.previousOutput).sum := by
  unfold StateOf.admission at h
  obtain ⟨_, hvalid, h⟩ := Res.bind_eq_ok.mp h
  obtain ⟨t, ht, h⟩ := Res.bind_eq_ok.mp h
  obtain ⟨cs, hcs, h⟩ := Res.bind_eq_ok.mp h
  obtain ⟨out, hout, h⟩ := Res.bind_eq_ok.mp h
  obtain ⟨_, hcovers, -⟩ := Res.bind_eq_ok.mp h
  rw [Res.refuseIf_eq_ok] at hvalid hcovers
  rw [Res.okOr_eq_ok, sumOut_eq_some] at hout
  obtain ⟨hcoins, hsats⟩ := inputCoins_ok hcs
  refine ⟨?_, ⟨t, ht, hcoins⟩, ?_⟩
  · have hok : (validateTransaction s.params tx false).ok = true := by simpa using hvalid
    simp only [validateTransaction, Verdict.ok_cons, Bool.and_eq_true, bne_iff_ne, ne_eq,
      Option.some.injEq, decide_eq_false_iff_not, not_not] at hok
    exact hok.2.2.2.2.1
  · have hle := Word.satSum_le (w := 64) (cs.map fun c => c.output.sats)
    rw [decide_eq_false_iff_not, Nat.not_lt] at hcovers
    rw [← hsats, ← hout.1]
    exact hcovers.trans hle

theorem MempoolOk.submit {s s' : StateOf H σ} {tx : Transaction} {r : Submitted}
    (hs : MempoolOk s) (h : s.submit tx = .ok (s', r)) : MempoolOk s' := by
  unfold StateOf.submit at h
  dsimp only at h
  split_ifs at h with hdup
  · cases h
    exact hs
  · obtain ⟨_, -, h⟩ := Res.bind_eq_ok.mp h
    obtain ⟨fee, hadm, h⟩ := Res.bind_eq_ok.mp h
    cases h
    obtain ⟨hnodup, ⟨t, ht, hcoins⟩, hcovered⟩ := admission_ok hadm
    have hreserved : s.reserved ++ tx.input.map TxIn.previousOutput =
        (s.mempool ++ [(Bitcoin.computeTxid tx, tx)]).flatMap
          fun p => p.2.input.map TxIn.previousOutput := by
      rw [List.flatMap_append]
      simp [StateOf.reserved]
    refine ⟨fun p hp => ?_, ?_, ?_, fun op => ?_, fun p hp => ?_, fun p hp => ?_⟩
    · rcases List.mem_append.mp hp with hp | hp
      · exact hs.txids p hp
      · rw [List.mem_singleton.mp hp]
    · rw [List.map_append, List.nodup_append]
      refine ⟨hs.apart, by simp, fun a ha b hb => ?_⟩
      rintro rfl
      obtain ⟨p, hp, rfl⟩ := List.mem_map.mp ha
      rw [List.map_singleton, List.mem_singleton] at hb
      exact hdup (List.any_eq_true.mpr ⟨p, hp, beq_iff_eq.mpr hb⟩)
    · show ((s.mempool ++ [_]).flatMap _).Nodup
      rw [← hreserved, List.nodup_append]
      refine ⟨hs.inputs, hnodup, fun a ha b hb => ?_⟩
      rintro rfl
      obtain ⟨i, hi, rfl⟩ := List.mem_map.mp hb
      exact (hcoins i hi).1 ((hs.spent _).mpr ha)
    · show op ∈ s.mempoolSpent ++ _ ↔ op ∈ (s.mempool ++ [_]).flatMap _
      rw [← hreserved, List.mem_append, List.mem_append, hs.spent op]
    · rcases List.mem_append.mp hp with hp | hp
      · exact hs.coins p hp
      · rw [List.mem_singleton.mp hp]
        intro i hi
        obtain ⟨-, c, hc, hmature⟩ := hcoins i hi
        refine ⟨c, hc, fun t' ht' => ?_⟩
        cases ht.symm.trans (ht' : s.tip = .ok t')
        exact hmature
    · rcases List.mem_append.mp hp with hp | hp
      · exact hs.covered p hp
      · rw [List.mem_singleton.mp hp]
        exact hcovered

/-! ### Taking away -/

/-- Some of the mempool, with its coins still there and still mature. -/
theorem MempoolOk.filter {s s' : StateOf H σ} (hs : MempoolOk s) (q : Txid × Transaction → Bool)
    (hmempool : s'.mempool = s.mempool.filter q) (hspent : s'.mempoolSpent = s'.reserved)
    (hcoins : ∀ p ∈ s'.mempool, ∀ i ∈ p.2.input, ∀ c, s.utxo.lookup i.previousOutput = some c →
      s'.utxo.lookup i.previousOutput = some c)
    (hmature : ∀ t', s'.tip = .ok t' → ∃ t, s.tip = .ok t ∧
      ∀ c, s.spendable t.height c = true → s'.spendable t'.height c = true) : MempoolOk s' := by
  have hsub : s'.mempool.Sublist s.mempool := by
    rw [hmempool]
    exact List.filter_sublist
  have hcoins' : ∀ p ∈ s'.mempool, ∀ i ∈ p.2.input,
      s'.coinSats i.previousOutput = s.coinSats i.previousOutput := by
    intro p hp i hi
    obtain ⟨c, hc, -⟩ := hs.coins p (hsub.subset hp) i hi
    unfold StateOf.coinSats
    rw [hc, hcoins p hp i hi c hc]
  refine ⟨fun p hp => hs.txids p (hsub.subset hp), hs.apart.sublist (hsub.map _), ?_, ?_,
    fun p hp i hi => ?_, fun p hp => ?_⟩
  · exact hs.inputs.sublist (hsub.flatMap _)
  · rw [hspent]
    exact fun op => Iff.rfl
  · obtain ⟨c, hc, hm⟩ := hs.coins p (hsub.subset hp) i hi
    refine ⟨c, hcoins p hp i hi c hc, fun t' ht' => ?_⟩
    obtain ⟨t, ht, himp⟩ := hmature t' ht'
    exact himp c (hm t ht)
  · rw [List.map_congr_left (hcoins' p hp)]
    exact hs.covered p (hsub.subset hp)

/-- A state with the same chain and the same mempool. -/
theorem MempoolOk.same {s s' : StateOf H σ} (hs : MempoolOk s) (h : SameChain s s')
    (hmempool : s'.mempool = s.mempool) (hspent : s'.mempoolSpent = s.mempoolSpent) :
    MempoolOk s' := by
  have htip : s'.tip = s.tip := by
    unfold StateOf.tip
    rw [h.hashes, h.headers]
  refine ⟨?_, ?_, ?_, ?_, ?_, ?_⟩
  · rw [hmempool]
    exact hs.txids
  · rw [hmempool]
    exact hs.apart
  · unfold StateOf.reserved
    rw [hmempool]
    exact hs.inputs
  · unfold StateOf.reserved
    rw [hmempool, hspent]
    exact hs.spent
  · unfold StateOf.spendable
    rw [hmempool, h.utxo, htip, h.params]
    exact hs.coins
  · unfold StateOf.coinSats
    rw [hmempool, h.utxo]
    exact hs.covered

theorem MempoolOk.discard {s : StateOf H σ} (hs : MempoolOk s) (txid : Txid) :
    MempoolOk (s.discard txid).1 := by
  unfold StateOf.discard
  dsimp only
  split_ifs
  · exact hs
  · exact hs.filter _ rfl rfl (fun _ _ _ _ _ hc => hc) fun t ht => ⟨t, ht, fun _ hc => hc⟩

theorem MempoolOk.evict {s : StateOf H σ} (hs : MempoolOk s) (txid : Txid) :
    MempoolOk (s.evict txid).1 := by
  unfold StateOf.evict
  split
  · exact hs
  · refine MempoolOk.discard ?_ txid
    exact hs.same ⟨rfl, rfl, rfl, rfl, rfl, rfl, rfl, rfl, rfl⟩ rfl rfl

/-! ### A block applied -/

/-- A coin after a block is one that the block made, or was there before. -/
theorem lookup_applyBlock {height : ℕ} {op : OutPoint} {c : Coin} :
    ∀ (txs : List (Transaction × ℕ)) (utxo : Utxo),
      (txs.foldl (applyTx height) utxo).lookup op = some c →
      (∃ p ∈ txs, op.txid = Bitcoin.computeTxid p.1) ∨ utxo.lookup op = some c
  | [], utxo, h => .inr h
  | p :: txs, utxo, h => by
    rcases lookup_applyBlock txs _ h with ⟨q, hq, hid⟩ | hold
    · exact .inl ⟨q, List.mem_cons_of_mem _ hq, hid⟩
    · rcases lookup_applyTx hold with hid | ⟨hold, -⟩
      · exact .inl ⟨p, List.mem_cons_self, hid⟩
      · exact .inr hold

omit [HeaderFamily H] in
/-- A coin the block leaves where there was one is the one there was. -/
theorem coin_kept {blocks : List (Block H)} {s : StateOf H σ} {block : Block H} {height : ℕ}
    (hfresh : Fresh (minedTxs blocks) blocks.length s.utxo)
    (hnext : Fresh (minedTxs (blocks ++ [block])) (blocks.length + 1)
      (applyBlock s.utxo block.txdata height))
    {op : OutPoint} {c c' : Coin} (hc : s.utxo.lookup op = some c)
    (hc' : (applyBlock s.utxo block.txdata height).lookup op = some c') : c' = c := by
  rcases lookup_applyBlock _ _ hc' with ⟨p, hp, hid⟩ | hold
  · have hmem : p.1 ∈ block.txdata := by
      have hzip := List.fst_mem_of_mem_zipIdx hp
      exact hzip
    have hids := hnext.ids
    rw [minedTxs_append, List.map_append, List.nodup_append] at hids
    exact absurd rfl (hids.2.2 _ (hfresh.coins op c hc) _ (hid ▸ List.mem_map_of_mem hmem))
  · rw [hc, Option.some.injEq] at hold
    exact hold.symm

/-- A block takes the transactions whose coins it spends, and the rest stay. -/
theorem MempoolOk.commit {doc : ChainDocument} {rules : List (BlockRule H σ)}
    {blocks : List (Block H)} {s : StateOf H σ} {block : Block H} {next : Records} {held : σ}
    (hs : MempoolOk s) (hon : OnChain doc rules blocks s)
    (hon' : OnChain doc rules (blocks ++ [block]) (s.commit blocks.length block next held))
    {t : Tip} (ht : s.tip = .ok t)
    (hfresh : Fresh (minedTxs blocks) blocks.length s.utxo)
    (hnext : Fresh (minedTxs (blocks ++ [block])) (blocks.length + 1)
      (applyBlock s.utxo block.txdata blocks.length)) :
    MempoolOk (s.commit blocks.length block next held) := by
  refine hs.filter (fun p => StateOf.stillSpendable
    (applyBlock s.utxo block.txdata blocks.length) p.2) rfl rfl (fun p hp i hi c hc => ?_)
    fun t' ht' => ⟨t, ht, fun c hmature => ?_⟩
  · have hstill := (List.mem_filter.mp hp).2
    unfold StateOf.stillSpendable at hstill
    rw [List.all_eq_true] at hstill
    obtain ⟨c', hc'⟩ := Option.isSome_iff_exists.mp (hstill i hi)
    cases coin_kept hfresh hnext hc hc'
    exact hc'
  · have hheight := hon.tip_height ht
    have hheight' := hon'.tip_height ht'
    rw [List.length_append, List.length_singleton] at hheight'
    unfold StateOf.spendable at hmature ⊢
    rw [Bool.or_eq_true, decide_eq_true_eq] at hmature ⊢
    refine hmature.imp_right fun hle => hle.trans ?_
    omega

/-! ### A run -/

/-- **The mempool of a run.** After every call of a run whose mined
transactions' ids tell them apart, the mempool is in order. -/
theorem mempool_ok_of_chain {doc : ChainDocument} {rules : List (BlockRule H σ)} {held : σ}
    {blocks : List (Block H)} {s : StateOf H σ} (h : Chain doc rules held blocks s) :
    GenesisBinds doc blocks → TxidsBind (minedTxs blocks) → MempoolOk s := by
  induction h with
  | @genesis genesis expect s hgen =>
    intro _ _
    obtain ⟨s0, cb, rest, next, held', h0, -, -, rfl⟩ := fromGenesis_ok hgen
    obtain ⟨bits, challenge, federation, -, rfl⟩ := empty_ok h0
    exact ⟨fun p hp => (by cases hp), List.nodup_nil, List.nodup_nil, fun op => Iff.rfl,
      fun p hp => (by cases hp), fun p hp => by cases hp⟩
  | @step blocks s b s' hc hstep ih =>
    intro hbind hb
    obtain ⟨g, l, rfl⟩ := hc.head
    have hbind' : GenesisBinds doc (g :: l) := fun g' e hg' => hbind g' e (by simpa using hg')
    have hb' : TxidsBind (minedTxs (g :: l)) := hb.mono fun t ht => by
      unfold minedTxs at ht ⊢
      rw [List.flatMap_append]
      exact List.mem_append_left _ ht
    have hs := ih hbind' hb'
    cases hstep with
    | @applied _ height block expect now a happly =>
      obtain ⟨t, cb, rest, next, held', ht, hheight, -, hacc, rfl⟩ := apply_applied happly
      have hon := hc.onChain
      have hon' := (Chain.step hc (.applied happly)).onChain
      have htip := hon.tip_height ht
      rw [hheight, htip] at hacc hon' ⊢
      have hfresh := fresh_of_chain hc hbind' hb'
      exact hs.commit hon hon' ht hfresh (hfresh.commit hon.params hon.pos hb hacc)
    | refused happly =>
      rcases apply_refused happly with rfl | ⟨v, next, held', -, rfl⟩
      · exact hs
      · exact hs.same ⟨rfl, rfl, rfl, rfl, rfl, rfl, rfl, rfl, rfl⟩ rfl rfl
    | judged => exact hs.same ⟨rfl, rfl, rfl, rfl, rfl, rfl, rfl, rfl, rfl⟩ rfl rfl
    | submitted hsub => exact hs.submit hsub
    | discarded => exact hs.discard _
    | evicted => exact hs.evict _

end

section

attribute [local instance] sampleBitcoin

/-- The sample's genesis, and calls from it. -/
def sampleCalls (calls : Block Header → List (ChainCall Header)) :
    Res Error (List (Block Header) × StateOf Header Unit) := do
  let unsigned ← buildGenesisFor sampleDoc
  let challenge ← sampleDoc.challengeScript
  let genesis ← signBlock unsigned challenge 1
  let s ← fromGenesisWithRules sampleDoc genesis none [] ()
  .ok ((calls genesis).foldl (fun (q : List (Block Header) × StateOf Header Unit) c =>
    (q.1 ++ (c.run q.2).2, (c.run q.2).1)) ([genesis], s))

theorem calls_of_sampleCalls {calls : Block Header → List (ChainCall Header)}
    {blocks : List (Block Header)} {s : StateOf Header Unit}
    (h : sampleCalls calls = .ok (blocks, s)) : Calls sampleDoc [] () blocks s := by
  unfold sampleCalls at h
  obtain ⟨_, -, h⟩ := Res.bind_eq_ok.mp h
  obtain ⟨_, -, h⟩ := Res.bind_eq_ok.mp h
  obtain ⟨genesis, -, h⟩ := Res.bind_eq_ok.mp h
  obtain ⟨s₀, hgen, h⟩ := Res.bind_eq_ok.mp h
  have hfold : ∀ (cs : List (ChainCall Header)) (q : List (Block Header) × StateOf Header Unit),
      Calls sampleDoc [] () q.1 q.2 →
      Calls sampleDoc [] () (cs.foldl (fun q c => (q.1 ++ (c.run q.2).2, (c.run q.2).1)) q).1
        (cs.foldl (fun q c => (q.1 ++ (c.run q.2).2, (c.run q.2).1)) q).2 := by
    intro cs
    induction cs with
    | nil => exact fun q hq => hq
    | cons c cs ih => exact fun q hq => ih _ (.call c hq)
  have hrun := hfold (calls genesis) ([genesis], s₀) (.genesis hgen)
  rw [Res.ok.injEq] at h
  rw [h] at hrun
  exact hrun

/-- A transaction that spends the genesis's coin and keeps 1,000 sats less. -/
def spendPeg (genesis : Block Header) : Transaction where
  version := 2
  input := (genesis.txdata.head?.map Bitcoin.computeTxid).toList.map fun txid =>
    ⟨⟨txid, 0⟩, [], 0xffffffff, []⟩
  output := [⟨99999000, [0x51]⟩]
  lockTime := 0

/-- A block produced, one more submitted to too early, and a block that claims a peg. -/
def submitCalls (genesis : Block Header) : List (ChainCall Header) :=
  [.produce 1 { time := 0 } none, .submit (spendPeg genesis),
    .produce 1 { time := 0, claims := [⟨List.replicate 64 0x62, 0, 5000, [0x51]⟩] } none]

set_option maxRecDepth 100000 in
theorem submitCalls_run : (sampleCalls submitCalls).any (fun r =>
    decide (r.1.length = 3 ∧ ((minedTxs r.1).map Bitcoin.computeTxid).Nodup) &&
      r.1.head?.any fun genesis => (buildGenesisFor sampleDoc).any fun e =>
        committedTxs genesis == committedTxs (H := Header) e) = true := by
  decide +kernel

end

end Sidestr
