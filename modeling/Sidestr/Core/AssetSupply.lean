/-
# The supply of an asset

An asset view on its own (`AssetView::apply_transactions`) reads blocks without
judging them: a transaction that breaks the rule spends its inputs and its
outputs carry nothing. So whatever is fed to it, an asset is created only by the
transaction that issues it, and what is carried of it only shrinks from there.

Key definitions: `AssetView.feed`, `readings`, `Conserved`.
Key theorems: `total_applyTx_none`, `Conserved.applyTx`, `feed_conserves`.
-/
import Sidestr.Core.PoolBacking

namespace Sidestr

section

variable [Bitcoin]

/-! ### Feeding blocks -/

/-- The policy that allows no mint. -/
def noMint : AssetMintPolicy := fun _ _ _ => false

/-- The view after blocks, each its height and its transactions, in order. -/
def AssetView.feed : AssetView → List (ℕ × List Transaction) → AssetView
  | v, [] => v
  | v, (height, txs) :: blocks =>
    (v.applyTransactions noMint height txs.zipIdx).1.feed blocks

omit [Bitcoin] in
/-- The transactions of a block the view reads: a coinbase in the first place
carries nothing. -/
def readTxs (height : ℕ) (txs : List (Transaction × ℕ)) : List (ℕ × Transaction) :=
  (txs.filter fun p => ¬ (p.2 = 0 ∧ isCoinbase p.1)).map fun p => (height, p.1)

omit [Bitcoin] in
/-- The transactions the view reads of some blocks, with their heights. -/
def readings (blocks : List (ℕ × List Transaction)) : List (ℕ × Transaction) :=
  blocks.flatMap fun b => readTxs b.1 b.2.zipIdx

/-- The view after one transaction. -/
def AssetView.read (v : AssetView) (p : ℕ × Transaction) : AssetView :=
  (v.applyTx noMint p.1 p.2).1

theorem applyTransactions_eq (height : ℕ) : ∀ (txs : List (Transaction × ℕ)) (v : AssetView),
    (v.applyTransactions noMint height txs).1 = (readTxs height txs).foldl AssetView.read v
  | [], _ => rfl
  | (tx, i) :: txs, v => by
    unfold AssetView.applyTransactions readTxs
    by_cases hi : i = 0 ∧ isCoinbase tx
    · have hskip : decide (¬ (i = 0 ∧ isCoinbase tx)) = false := decide_eq_false (not_not.mpr hi)
      rw [if_pos hi, List.filter_cons, hskip]
      exact applyTransactions_eq height txs v
    · have hread : decide (¬ (i = 0 ∧ isCoinbase tx)) = true := decide_eq_true hi
      rw [if_neg hi, List.filter_cons, hread]
      exact applyTransactions_eq height txs (v.applyTx noMint height tx).1

theorem feed_eq : ∀ (blocks : List (ℕ × List Transaction)) (v : AssetView),
    v.feed blocks = (readings blocks).foldl AssetView.read v
  | [], _ => rfl
  | (height, txs) :: blocks, v => by
    unfold AssetView.feed readings
    rw [List.flatMap_cons, List.foldl_append, applyTransactions_eq]
    exact feed_eq blocks _

omit [Bitcoin] in
theorem readTxs_append (height : ℕ) (txs more : List (Transaction × ℕ)) :
    readTxs height (txs ++ more) = readTxs height txs ++ readTxs height more := by
  unfold readTxs
  rw [List.filter_append, List.map_append]

omit [Bitcoin] in
/-- What is read of the blocks up to a transaction is a beginning of what is
read of them all. -/
theorem readings_prefix (before after : List (ℕ × List Transaction)) (height : ℕ)
    (txs more : List Transaction) :
    ∃ rest, readings (before ++ (height, txs ++ more) :: after) =
      readings (before ++ [(height, txs)]) ++ rest := by
  refine ⟨readTxs height (more.zipIdx txs.length) ++ readings after, ?_⟩
  simp only [readings, List.flatMap_append, List.flatMap_cons, List.flatMap_nil, List.append_nil,
    List.zipIdx_append, readTxs_append, List.append_assoc, Nat.zero_add]

/-! ### One transaction -/

/-- A transaction the rule refuses only spends. -/
theorem carried_applyTx_refused {policy : AssetMintPolicy} {height : ℕ} {v : AssetView}
    {tx : Transaction} (h : ∀ out, v.checkInner policy tx ≠ .ok out) :
    (v.applyTx policy height tx).1.carried =
      Map.eraseAll (tx.input.map TxIn.previousOutput) v.carried := by
  unfold AssetView.applyTx
  cases hc : v.checkInner policy tx with
  | ok out => exact absurd hc (h out)
  | err e => rfl
  | panic => rfl

theorem carried_applyTx_ok {policy : AssetMintPolicy} {height : ℕ} {v : AssetView}
    {tx : Transaction} {out : Map ℕ Carry} (h : v.checkInner policy tx = .ok out) :
    (v.applyTx policy height tx).1.carried =
      Map.insertAll ((outEntries tx out).map fun p => (outPointAt (Bitcoin.computeTxid tx) p.1, p.2))
        (Map.eraseAll (tx.input.map TxIn.previousOutput) v.carried) := by
  unfold AssetView.applyTx
  rw [h]
  cases hi : (classify tx).issues with
  | nil => rfl
  | cons p rest => rfl

theorem applyTx_snd {policy : AssetMintPolicy} {height : ℕ} {v : AssetView} {tx : Transaction} :
    (v.applyTx policy height tx).2 = v.checkInner policy tx := by
  unfold AssetView.applyTx
  cases hc : v.checkInner policy tx with
  | ok out =>
    cases hi : (classify tx).issues with
    | nil => rfl
    | cons p rest => rfl
  | err e => rfl
  | panic => rfl

/-- With no policy, the outputs of a transaction that issues nothing carry of
each asset no more than its inputs do, and those of one that issues no more
of any other. -/
theorem total_applyTx_ok {height : ℕ} {v : AssetView} {tx : Transaction} {out : Map ℕ Carry}
    (hn : (tx.input.map TxIn.previousOutput).Nodup) (hout : v.checkInner noMint tx = .ok out)
    {a : Txid} (ha : a = Bitcoin.computeTxid tx → (classify tx).issues = []) :
    (v.applyTx noMint height tx).1.total a ≤ v.total a := by
  have hrun : v.applyTx noMint height tx = ((v.applyTx noMint height tx).1, .ok out) :=
    Prod.ext rfl (applyTx_snd.trans hout)
  have htotal := total_applyTx_le hn hrun a
  have hin := carriedIn_le (v := v) hn a
  have hbound : heldIn out a ≤ v.carriedIn tx a := by
    rcases (checkInner_ok hout).bound a with hbound | ⟨hself, hissues⟩ | hpolicy
    · exact hbound
    · exact absurd (ha hself) hissues
    · cases hpolicy
  omega

/-- **What a transaction can do with no policy.** It raises the total of no
asset, or it issues its own: that one's total rises by its supply at most. -/
theorem applyTx_cases {height : ℕ} {v : AssetView} {tx : Transaction}
    (hn : (tx.input.map TxIn.previousOutput).Nodup) :
    ((v.applyTx noMint height tx).1.issued = v.issued ∧
      ∀ a, (v.applyTx noMint height tx).1.total a ≤ v.total a) ∨
    ∃ info : Issued, (v.applyTx noMint height tx).1.issued =
        v.issued.insert (Bitcoin.computeTxid tx) info ∧
      (v.applyTx noMint height tx).1.total (Bitcoin.computeTxid tx) ≤
        v.total (Bitcoin.computeTxid tx) + info.supply ∧
      ∀ a, a ≠ Bitcoin.computeTxid tx → (v.applyTx noMint height tx).1.total a ≤ v.total a := by
  by_cases hok : ∃ out, v.checkInner noMint tx = .ok out
  · obtain ⟨out, hout⟩ := hok
    cases hi : (classify tx).issues with
    | nil =>
      refine .inl ⟨?_, fun a => total_applyTx_ok hn hout fun _ => hi⟩
      unfold AssetView.applyTx
      rw [hout, hi]
    | cons p rest =>
      refine .inr ⟨⟨p.2.ticker, p.2.decimals, height, heldIn out (Bitcoin.computeTxid tx), none⟩,
        ?_, ?_, fun a ha => total_applyTx_ok hn hout fun hself => absurd hself ha⟩
      · unfold AssetView.applyTx
        rw [hout, hi]
      · have hrun : v.applyTx noMint height tx = ((v.applyTx noMint height tx).1, .ok out) :=
          Prod.ext rfl (applyTx_snd.trans hout)
        have htotal := total_applyTx_le hn hrun (Bitcoin.computeTxid tx)
        dsimp only
        omega
  · have hrefused : ∀ out, v.checkInner noMint tx ≠ .ok out := fun out hout => hok ⟨out, hout⟩
    refine .inl ⟨?_, fun a => ?_⟩
    · unfold AssetView.applyTx
      cases hc : v.checkInner noMint tx with
      | ok out => exact absurd hc (hrefused out)
      | err e => rfl
      | panic => rfl
    · have herase := Map.total_eraseAll_le (f := fun _ (c : Carry) => c.amount a)
        (tx.input.map TxIn.previousOutput) v.carried
      unfold AssetView.total heldIn
      rw [carried_applyTx_refused hrefused]
      exact herase

omit [Bitcoin] in
theorem AmountsOk.eraseAll {K : Type} [DecidableEq K] {m : Map K Carry} (hm : AmountsOk m)
    (ks : List K) : AmountsOk (Map.eraseAll ks m) := by
  intro k c hk
  by_cases hmem : k ∈ ks
  · rw [Map.lookup_eraseAll_of_mem hmem] at hk
    cases hk
  · rw [Map.lookup_eraseAll_of_notMem hmem] at hk
    exact hm k c hk

/-- What the view carries stays in amounts a tally can assign. -/
theorem AmountsOk.applyTx {policy : AssetMintPolicy} {height : ℕ} {v : AssetView} {tx : Transaction}
    (hv : AmountsOk v.carried) : AmountsOk (v.applyTx policy height tx).1.carried := by
  by_cases hok : ∃ out, v.checkInner policy tx = .ok out
  · obtain ⟨out, hout⟩ := hok
    rw [carried_applyTx_ok hout]
    intro k c hk
    rcases Map.lookup_insertAll_eq_some hk with hmem | hrest
    · obtain ⟨p, hp, hkc⟩ := List.mem_map.mp hmem
      cases hkc
      obtain ⟨n, -, hn⟩ := List.mem_filterMap.mp hp
      obtain ⟨c, hc, rfl⟩ := Option.map_eq_some_iff.mp hn
      exact (checkInner_ok hout).amounts n c hc
    · exact hv.eraseAll _ k c hrest
  · rw [carried_applyTx_refused fun out hout => hok ⟨out, hout⟩]
    exact hv.eraseAll _

/-! ### Every run -/

/-- How much of an asset was issued: nothing of one that never was. -/
def AssetView.supplyOf (v : AssetView) (a : Txid) : ℕ :=
  ((v.issued.lookup a).map Issued.supply).getD 0

/-- What holds of a view: nothing is carried beyond its supply, what was issued
was by one of these transactions, and carried amounts are ones a tally assigns. -/
structure Conserved (mined : List Txid) (v : AssetView) : Prop where
  bound : ∀ a, v.total a ≤ v.supplyOf a
  issued : ∀ a ∈ v.issued, a ∈ mined
  amounts : AmountsOk v.carried

omit [Bitcoin] in
theorem Conserved.empty : Conserved [] {} :=
  ⟨fun _ => Nat.le_refl 0, fun _ ha => absurd ha Finmap.notMem_empty,
    fun k c hk => by cases hk⟩

omit [Bitcoin] in
theorem supplyOf_of_notMem {v : AssetView} {a : Txid} (ha : a ∉ v.issued) : v.supplyOf a = 0 := by
  unfold AssetView.supplyOf
  rw [Finmap.lookup_eq_none.mpr ha]
  rfl

omit [Bitcoin] in
/-- A new id has nothing carried. -/
theorem Conserved.total_eq_zero {mined : List Txid} {v : AssetView} (hv : Conserved mined v)
    {a : Txid} (ha : a ∉ v.issued) : v.total a = 0 := by
  have hbound := hv.bound a
  rw [supplyOf_of_notMem ha] at hbound
  exact Nat.le_zero.mp hbound

theorem Conserved.read {mined : List Txid} {v : AssetView} (hv : Conserved mined v)
    {p : ℕ × Transaction} (hn : (p.2.input.map TxIn.previousOutput).Nodup)
    (hnew : Bitcoin.computeTxid p.2 ∉ mined) :
    Conserved (mined ++ [Bitcoin.computeTxid p.2]) (v.read p) := by
  have hfresh : Bitcoin.computeTxid p.2 ∉ v.issued := fun h => hnew (hv.issued _ h)
  have hzero : v.total (Bitcoin.computeTxid p.2) = 0 := hv.total_eq_zero hfresh
  unfold AssetView.read
  rcases @applyTx_cases _ p.1 v p.2 hn with ⟨hsame, hle⟩ | ⟨info, hinsert, hown, hle⟩
  · refine ⟨fun a => ?_, fun a ha => ?_, hv.amounts.applyTx⟩
    · have hbound := hv.bound a
      unfold AssetView.supplyOf at hbound ⊢
      rw [hsame]
      exact (hle a).trans hbound
    · rw [hsame] at ha
      exact List.mem_append_left _ (hv.issued a ha)
  · refine ⟨fun a => ?_, fun a ha => ?_, hv.amounts.applyTx⟩
    · have hbound := hv.bound a
      unfold AssetView.supplyOf at hbound ⊢
      rw [hinsert]
      by_cases ha : a = Bitcoin.computeTxid p.2
      · subst ha
        rw [Finmap.lookup_insert]
        simp only [Option.map_some, Option.getD_some]
        omega
      · rw [Finmap.lookup_insert_of_ne _ ha]
        exact (hle a ha).trans hbound
    · rw [hinsert, Finmap.mem_insert] at ha
      rcases ha with rfl | ha
      · exact List.mem_append_right _ List.mem_cons_self
      · exact List.mem_append_left _ (hv.issued a ha)

/-- An asset issued before is issued after, and its total has not risen. -/
theorem Conserved.read_total {mined : List Txid} {v : AssetView} (hv : Conserved mined v)
    {p : ℕ × Transaction} (hn : (p.2.input.map TxIn.previousOutput).Nodup)
    (hnew : Bitcoin.computeTxid p.2 ∉ mined) {a : Txid} (ha : a ∈ v.issued) :
    a ∈ (v.read p).issued ∧ (v.read p).total a ≤ v.total a := by
  have hne : a ≠ Bitcoin.computeTxid p.2 := by
    intro h
    subst h
    exact hnew (hv.issued _ ha)
  unfold AssetView.read
  rcases @applyTx_cases _ p.1 v p.2 hn with ⟨hsame, hle⟩ | ⟨info, hinsert, -, hle⟩
  · rw [hsame]
    exact ⟨ha, hle a⟩
  · rw [hinsert]
    exact ⟨Finmap.mem_insert.mpr (.inr ha), hle a hne⟩

/-- Transactions a view can read: each has an id of its own and spends no
outpoint twice. -/
structure Distinct (read : List (ℕ × Transaction)) : Prop where
  ids : (read.map fun p => Bitcoin.computeTxid p.2).Nodup
  inputs : ∀ p ∈ read, (p.2.input.map TxIn.previousOutput).Nodup

/-- Everything over a run from a view in order: the invariant, and the totals
of what was issued before. -/
theorem Conserved.run : ∀ (read : List (ℕ × Transaction)) {mined : List Txid} {v : AssetView},
    Conserved mined v → (∀ p ∈ read, (p.2.input.map TxIn.previousOutput).Nodup) →
    (mined ++ read.map fun p => Bitcoin.computeTxid p.2).Nodup →
    Conserved (mined ++ read.map fun p => Bitcoin.computeTxid p.2) (read.foldl AssetView.read v) ∧
      ∀ a ∈ v.issued, (read.foldl AssetView.read v).total a ≤ v.total a
  | [], mined, v, hv, _, _ => by
    rw [List.map_nil, List.append_nil]
    exact ⟨hv, fun a _ => Nat.le_refl _⟩
  | p :: read, mined, v, hv, hn, hd => by
    have hstep : (p.2.input.map TxIn.previousOutput).Nodup := hn p List.mem_cons_self
    have hnew : Bitcoin.computeTxid p.2 ∉ mined := by
      intro hmem
      exact List.disjoint_of_nodup_append hd hmem List.mem_cons_self
    have hids : mined ++ (p :: read).map (fun p => Bitcoin.computeTxid p.2) =
        (mined ++ [Bitcoin.computeTxid p.2]) ++ read.map fun p => Bitcoin.computeTxid p.2 := by
      simp
    rw [hids] at hd ⊢
    obtain ⟨hend, hrest⟩ := Conserved.run read (hv.read hstep hnew)
      (fun q hq => hn q (List.mem_cons_of_mem _ hq)) hd
    refine ⟨hend, fun a ha => ?_⟩
    obtain ⟨hmem, hle⟩ := hv.read_total hstep hnew ha
    exact (hrest a hmem).trans hle

omit [Bitcoin] in
/-- An id an output carries has a positive total. -/
theorem total_pos_of_carried {v : AssetView} (hv : AmountsOk v.carried) {o : OutPoint} {c : Carry}
    (ho : v.carried.lookup o = some c) {a : Txid} {n : ℕ} (ha : c.lookup a = some n) :
    0 < v.total a := by
  have hn : 1 ≤ n := (hv o c ho (a, n) (mem_of_lookup ha)).1
  have hat : Map.at' (fun _ (c : Carry) => c.amount a) v.carried o = n := by
    rw [Map.at'_of_lookup ho]
    unfold Carry.amount
    rw [ha]
    rfl
  have hle : Map.at' (fun _ (c : Carry) => c.amount a) v.carried o ≤ v.total a :=
    Map.at'_le_total
  omega

/-- **Supply is conserved.** Feed any blocks to a new view, of transactions
with ids of their own, none spending an outpoint twice. Then what the outputs
carry of an issued asset is within its supply, has not risen since any point
after its issue, and an asset never issued is carried by no output. -/
theorem feed_conserves (blocks : List (ℕ × List Transaction))
    (hd : Distinct (readings blocks)) :
    (∀ a info, (AssetView.feed {} blocks).issued.lookup a = some info →
      (AssetView.feed {} blocks).total a ≤ info.supply) ∧
    (∀ before height txs more after, blocks = before ++ (height, txs ++ more) :: after →
      ∀ a ∈ (AssetView.feed {} (before ++ [(height, txs)])).issued,
        (AssetView.feed {} blocks).total a ≤
          (AssetView.feed {} (before ++ [(height, txs)])).total a) ∧
    ∀ a ∉ (AssetView.feed {} blocks).issued, ∀ o c,
      (AssetView.feed {} blocks).carried.lookup o = some c → c.lookup a = none := by
  have hrun := Conserved.run (readings blocks) Conserved.empty hd.inputs
    (by rw [List.nil_append]; exact hd.ids)
  rw [← feed_eq] at hrun
  refine ⟨fun a info ha => ?_, fun before height txs more after hsplit a ha => ?_,
    fun a ha o c ho => ?_⟩
  · have hbound := hrun.1.bound a
    unfold AssetView.supplyOf at hbound
    rw [ha] at hbound
    exact hbound
  · obtain ⟨rest, hrest⟩ := readings_prefix before after height txs more
    rw [← hsplit] at hrest
    have hids := hd.ids
    have hinputs := hd.inputs
    rw [hrest] at hids hinputs
    rw [List.map_append] at hids
    have hfirst := (Conserved.run (readings (before ++ [(height, txs)])) Conserved.empty
      (fun p hp => hinputs p (List.mem_append_left _ hp))
      (by rw [List.nil_append]; exact hids.of_append_left)).1
    rw [← feed_eq, List.nil_append] at hfirst
    rw [feed_eq blocks, hrest, List.foldl_append, ← feed_eq (before ++ [(height, txs)])]
    exact (Conserved.run rest hfirst (fun p hp => hinputs p (List.mem_append_right _ hp))
      hids).2 a ha
  · cases hc : c.lookup a with
    | none => rfl
    | some n =>
      have hpos := total_pos_of_carried hrun.1.amounts ho hc
      rw [hrun.1.total_eq_zero ha] at hpos
      cases hpos

end

section

attribute [local instance] sampleBitcoin

/-- A transfer of part of the asset an issue makes; the rest is carried no more. -/
def sampleTransfer (issue : Txid) : Transaction :=
  sampleTx [⟨issue, 0⟩] [trueCoin 4000000, tallyOut (hashText issue) 0 600000]

/-- A tally of more than the transfer's output carries. -/
def sampleOvertally (issue transfer : Txid) : Transaction :=
  sampleTx [⟨transfer, 0⟩] [trueCoin 3000000, tallyOut (hashText issue) 0 700000]

/-- The id of the asset. -/
def sampleAsset : Txid := Bitcoin.computeTxid (sampleIssue 0)

/-- An issue, a transfer and a transaction that breaks the rule. -/
def sampleFed : List (ℕ × List Transaction) :=
  [(1, [sampleIssue 0]), (2, [sampleTransfer sampleAsset]),
    (3, [sampleOvertally sampleAsset (Bitcoin.computeTxid (sampleTransfer sampleAsset))])]

set_option maxRecDepth 100000 in
theorem feed_conserves_sample : ∃ info,
    (AssetView.feed {} sampleFed).issued.lookup sampleAsset = some info ∧
    (AssetView.feed {} sampleFed).total sampleAsset ≤ info.supply := by
  obtain ⟨info, hinfo⟩ := Option.isSome_iff_exists.mp (show
    ((AssetView.feed {} sampleFed).issued.lookup sampleAsset).isSome = true by decide +kernel)
  exact ⟨info, hinfo, (feed_conserves sampleFed ⟨by decide +kernel, by decide +kernel⟩).1 _ info hinfo⟩

end

end Sidestr
