/-
# Supply conservation

A sidestr chain mints nothing: its coins are the document's pegs and the
payouts of the claims in its blocks, less what is burned. Every accepted block
after the genesis raises the total of the UTXO set by at most its claim
payouts, and lowers it by the burns it records.

* `block_supply`: one block, from what `resolveSpending` and the coinbase
  amount rule say.
* `supply_conserved`: every run, by induction over its steps.

The genesis is held to the document by a hash of its transactions
(`blockData`). That the hash binds them (`DataBinds`) is the one assumption on
hashes here; later blocks need none.

Key definitions: `payouts`, `burned`, `Records.burned`, `pegTotal`, `DataBinds`.
Key theorems: `block_supply`, `genesis_supply`, `supply_conserved`.
-/
import Sidestr.Core.Spending
import Sidestr.Core.Sample

namespace Sidestr

/-- The payouts of the claims a block makes. -/
def payouts {H : Type} (block : Block H) : ℕ :=
  match block.txdata with
  | [] => 0
  | cb :: _ => ((parseClaims cb).1.map fun c => c.payout.value).sum

/-- The value of the burns of a transaction. -/
def burnValue (tx : Transaction) : ℕ :=
  ((tx.output.filter fun o => (parsePegout o.scriptPubkey).isSome).map TxOut.sats).sum

/-- The value a block burns: its coinbase burns nothing. -/
def burned {H : Type} (block : Block H) : ℕ := ((block.txdata.drop 1).map burnValue).sum

/-- The value of all recorded burns. -/
def Records.burned (r : Records) : ℕ := Map.total (fun _ b => b.value) r.pegouts

/-- The sum of the document's pegs. -/
def pegTotal (doc : ChainDocument) : ℕ := (doc.pegs.map fun p => p.amount.toNat).sum

/-! ### Burns -/

theorem sum_filter_le {p q : TxOut → Bool} (hpq : ∀ o, p o = true → q o = true) :
    ∀ l : List TxOut, ((l.filter p).map TxOut.sats).sum ≤ ((l.filter q).map TxOut.sats).sum
  | [] => le_rfl
  | o :: l => by
    have ih := sum_filter_le hpq l
    cases hp : p o
    · cases hq : q o
      · simpa [hp, hq] using ih
      · simp only [List.filter_cons, hp, hq, Bool.false_eq_true, ↓reduceIte, List.map_cons,
          List.sum_cons]
        omega
    · simpa [hp, hpq o hp] using ih

/-- A burn is an `OP_RETURN` output. -/
theorem burnValue_le (tx : Transaction) : burnValue tx ≤ opReturnValue tx := by
  apply sum_filter_le
  intro o ho
  obtain ⟨s, hs⟩ := Option.isSome_iff_exists.mp ho
  exact isOpReturn_of_looksLikePegout (looksLikePegout_of_parsePegout hs)

theorem sum_burnValue_le : ∀ txs : List Transaction,
    (txs.map burnValue).sum ≤ (txs.map opReturnValue).sum
  | [] => le_rfl
  | tx :: txs => by
    rw [List.map_cons, List.map_cons, List.sum_cons, List.sum_cons]
    exact Nat.add_le_add (burnValue_le tx) (sum_burnValue_le txs)

/-- What the burn rule records is at most what the outputs burn. -/
theorem checkPegouts_total {pegoutMin height : ℕ} {records : Records} :
    ∀ {outs : List (OutPoint × TxOut)} {m m' : Map OutPoint Burn},
    checkPegouts pegoutMin records height outs m = (true, m') →
    Map.total (fun _ b => b.value) m' ≤ Map.total (fun _ b => b.value) m +
      ((outs.filter fun p => (parsePegout p.2.scriptPubkey).isSome).map fun p => p.2.sats).sum
  | [], m, m', h => by
    simp only [checkPegouts, Prod.mk.injEq, true_and] at h
    simp [h]
  | (key, o) :: outs, m, m', h => by
    simp only [checkPegouts] at h
    cases hl : looksLikePegout o with
    | false =>
      simp only [hl, Bool.not_false, ↓reduceIte] at h
      have ih := checkPegouts_total h
      refine ih.trans (Nat.add_le_add_left ?_ _)
      rw [List.filter_cons]
      split_ifs
      · simp
      · exact le_rfl
    | true =>
      simp only [hl, Bool.not_true, Bool.false_eq_true, ↓reduceIte] at h
      cases hp : parsePegout o.scriptPubkey with
      | none => simp [hp] at h
      | some script =>
        simp only [hp] at h
        split_ifs at h with h1 h2
        · simp at h
        · simp at h
        · have ih := checkPegouts_total h
          have hins := Map.total_insert_le (f := fun _ (b : Burn) => b.value) (m := m) (k := key)
            (v := ⟨key.txid, key.vout.toNat, script, o.sats, height⟩)
          dsimp only at hins
          simp only [List.filter_cons, hp, Option.isSome_some, ↓reduceIte, List.map_cons,
            List.sum_cons]
          omega

theorem outputsOf_burns [Bitcoin] : ∀ txs : List Transaction,
    (((outputsOf txs).filter fun p => (parsePegout p.2.scriptPubkey).isSome).map
      fun p => p.2.sats).sum = (txs.map burnValue).sum
  | [] => rfl
  | tx :: txs => by
    have hz : ∀ (l : List TxOut) (k : ℕ),
        ((((l.zipIdx k).map fun p => (outPointAt (Bitcoin.computeTxid tx) p.2, p.1)).filter
          fun p => (parsePegout p.2.scriptPubkey).isSome).map fun p => p.2.sats) =
        (l.filter fun o => (parsePegout o.scriptPubkey).isSome).map TxOut.sats := by
      intro l
      induction l with
      | nil => intro k; rfl
      | cons o l ih =>
        intro k
        cases ho : (parsePegout o.scriptPubkey).isSome
        · simp [List.zipIdx_cons, ho, ih]
        · simp [List.zipIdx_cons, ho, ih]
    have ih := outputsOf_burns txs
    simp only [outputsOf, List.flatMap_cons, List.filter_append, List.map_append, List.sum_append,
      List.map_cons, List.sum_cons] at ih ⊢
    rw [ih]
    congr 1
    exact congrArg List.sum (hz tx.output 0)

/-! ### The coinbase -/

/-- What the coinbase amount rule bounds. -/
theorem coinbaseAmount_le {subsidy fees a : ℕ} {cb : Transaction} {claims : List Claim}
    {errors : List ℕ} (h : coinbaseAmountOk subsidy fees cb claims errors (some a) = true) :
    (cb.output.map TxOut.sats).sum ≤
      subsidy + fees + (claims.map fun c => c.payout.value).sum + a := by
  unfold coinbaseAmountOk at h
  simp only [Bool.and_eq_true] at h
  cases hp : Word.checkedSum 64 0 (claims.map fun c => c.payout.value) with
  | none => simp [hp] at h
  | some paid =>
    obtain ⟨hpaid, -⟩ := (Word.checkedSum_eq_some (Nat.zero_le _)).mp hp
    cases ha : Word.checkedAdd 64 paid a with
    | none => simp [hp, ha] at h
    | some both =>
      obtain ⟨hboth, -⟩ := Word.checkedAdd_eq_some.mp ha
      cases ho : sumOut cb with
      | none => simp [hp, ha, ho] at h
      | some out =>
        simp only [hp, ha, ho, decide_eq_true_eq] at h
        obtain ⟨hout, -⟩ := sumOut_eq_some.mp ho
        have h1 := Word.satAdd_le_add (w := 64) (Word.satAdd 64 subsidy fees) both
        have h2 := Word.satAdd_le_add (w := 64) subsidy fees
        have h3 := h.2
        omega

section

variable [Bitcoin] {H σ : Type} [HeaderFamily H]

/-- **One block.** An accepted block of a chain with no extra rules leaves in
the set, with what it burns, at most what was there, the subsidy and its claim
payouts. -/
theorem block_supply {s : StateOf H σ} {height : ℕ} {block : Block H} {cb : Transaction}
    {rest : List Transaction} {next : Records} {held : σ} (hrules : s.extraRules = [])
    (h : Accepted s height block cb rest next held) :
    (applyBlock s.utxo block.txdata height).total + burned block ≤
      s.utxo.total + (if height = 0 then s.overlay.genesisSubsidy else 0) + payouts block := by
  have hall : allowances (s.context height block) s.held 0 s.extraRules = some 0 := by
    rw [hrules]
    rfl
  have ham := h.amount
  rw [hall] at ham
  have hcb := coinbaseAmount_le ham
  have hm := h.available
  have hd := h.fees
  unfold StateOf.spending at hm hd hcb
  rw [h.txdata] at hm hd hcb ⊢
  have htot := applyBlock_total hm hd
  have hburn := sum_burnValue_le rest
  have hval := opReturnValue_add cb
  have hb : burned block = (rest.map burnValue).sum := by simp [burned, h.txdata]
  have hp : payouts block = ((parseClaims cb).1.map fun c => c.payout.value).sum := by
    simp [payouts, h.txdata]
  omega

/-- What a block records as burned is what its transactions burn, at most. -/
theorem next_burned_le {s : StateOf H σ} {height : ℕ} {block : Block H} {cb : Transaction}
    {rest : List Transaction} {next : Records} {held : σ}
    (h : Accepted s height block cb rest next held) : next.burned ≤ burned block := by
  have hp := checkPegouts_total h.pegouts
  rw [outputsOf_burns] at hp
  simpa [Records.burned, burned, h.txdata] using hp

/-! ### The genesis -/

/-- The transactions as block data commits to them: the coinbase without its
solution, and no witnesses. -/
def committedTxs (block : Block H) : List Transaction :=
  match block.txdata with
  | [] => []
  | cb :: rest => (strippedCoinbase cb :: rest).map Transaction.stripped

/-- The hash that is a block's data tells the two blocks' transactions apart. -/
def DataBinds (a b : Block H) : Prop := blockData a = blockData b → committedTxs a = committedTxs b

omit [Bitcoin] in
theorem isOpReturn_of_isCommitment {script : Bytes} (h : isCommitment script = true) :
    isOpReturn script = true ∧ isOpReturn (script.take commitmentLen) = true := by
  match script with
  | [] => simp [isCommitment, commitmentLen] at h
  | b :: l =>
    by_cases hb : b = 0x6a
    · simp [isOpReturn, commitmentLen, hb]
    · have : ¬ (0x6a : UInt8) = b := fun e => hb e.symm
      simp [isCommitment, stripPrefix, commitmentPrefix, this] at h

omit [Bitcoin] in
theorem lastCommitment_some : ∀ {outs : List TxOut} {i j : ℕ} {spk : Bytes},
    lastCommitment i outs = some (j, spk) →
    i ≤ j ∧ ∃ o, outs[j - i]? = some o ∧ o.scriptPubkey = spk ∧ isCommitment spk = true
  | [], _, _, _, h => by simp [lastCommitment] at h
  | o :: outs, i, j, spk, h => by
    simp only [lastCommitment] at h
    cases hl : lastCommitment (i + 1) outs with
    | some r =>
      simp only [hl, Option.some.injEq] at h
      obtain ⟨h1, o', h2, h3⟩ := lastCommitment_some (h ▸ hl)
      refine ⟨by omega, o', ?_, h3⟩
      rw [show j - i = (j - (i + 1)) + 1 by omega, List.getElem?_cons_succ, h2]
    | none =>
      simp only [hl] at h
      split_ifs at h with hc
      simp only [Option.some.injEq, Prod.mk.injEq] at h
      obtain ⟨rfl, rfl⟩ := h
      exact ⟨le_rfl, o, by simp, rfl, hc⟩

omit [Bitcoin] in
/-- Changing an `OP_RETURN` output into another changes no coin. -/
theorem filter_modify {f : TxOut → TxOut} : ∀ {l : List TxOut} {k : ℕ} {o : TxOut},
    l[k]? = some o → isOpReturn o.scriptPubkey = true → isOpReturn (f o).scriptPubkey = true →
    ((l.modify k f).filter fun o => !isOpReturn o.scriptPubkey) =
      l.filter fun o => !isOpReturn o.scriptPubkey
  | [], _, _, h, _, _ => by simp at h
  | a :: l, 0, o, h, h1, h2 => by
    simp only [List.getElem?_cons_zero, Option.some.injEq] at h
    subst h
    simp [h1, h2]
  | a :: l, k + 1, o, h, h1, h2 => by
    simp only [List.getElem?_cons_succ] at h
    simp [List.modify_succ_cons, List.filter_cons, filter_modify h h1 h2]

omit [Bitcoin] in
/-- The solution is no part of a coinbase's coins. -/
theorem spendableValue_committed (cb : Transaction) :
    spendableValue (strippedCoinbase cb).stripped = spendableValue cb := by
  unfold strippedCoinbase commitmentOutputOf
  cases h : lastCommitment 0 cb.output with
  | none => rfl
  | some r =>
    obtain ⟨i, spk⟩ := r
    obtain ⟨-, o, ho, rfl, hc⟩ := lastCommitment_some h
    rw [Nat.sub_zero] at ho
    obtain ⟨h1, h2⟩ := isOpReturn_of_isCommitment hc
    simp only [spendableValue, Transaction.stripped, setScript]
    rw [filter_modify (f := fun p => { p with scriptPubkey := o.scriptPubkey.take commitmentLen })
      ho h1 h2]

omit [Bitcoin] in
theorem pegOutputs_value : ∀ {pegs : List Peg} {outs : List TxOut}, pegOutputs pegs = .ok outs →
    (outs.map TxOut.sats).sum = (pegs.map fun p => p.amount.toNat).sum
  | [], outs, h => by
    simp only [pegOutputs, Res.ok.injEq] at h
    simp [← h]
  | p :: pegs, outs, h => by
    simp only [pegOutputs] at h
    obtain ⟨script, -, h⟩ := Res.bind_eq_ok.mp h
    obtain ⟨rest, hr, h⟩ := Res.bind_eq_ok.mp h
    simp only [Res.ok.injEq] at h
    simp [← h, TxOut.sats, pegOutputs_value hr]

/-- The coins of the document's genesis are the pegs. -/
theorem buildGenesis_spendable {doc : ChainDocument} {e : Block H}
    (h : buildGenesisFor doc = .ok e) :
    ∃ cb, e.txdata = [cb] ∧ spendableValue cb ≤ pegTotal doc := by
  simp only [buildGenesisFor] at h
  obtain ⟨-, -, h⟩ := Res.bind_eq_ok.mp h
  obtain ⟨outs, hout, h⟩ := Res.bind_eq_ok.mp h
  obtain ⟨bits, -, h⟩ := Res.bind_eq_ok.mp h
  simp only [Res.ok.injEq] at h
  rw [← h]
  refine ⟨_, rfl, ?_⟩
  rw [pegTotal, ← pegOutputs_value hout]
  have hle := opReturnValue_add (buildCoinbase
    { height := 0, prev := 0, time := doc.genesisTime, transactions := [], outputs := outs, bits
      marker := genesisTag ++ doc.id })
  simp only [buildCoinbase, List.map_append, List.sum_append, List.map_cons, List.map_nil,
    List.sum_cons, List.sum_nil, TxOut.sats, UInt64.toNat_zero] at hle ⊢
  omega

/-- The genesis of a run leaves at most the pegs in the set. -/
theorem genesis_supply {s0 : StateOf H σ} {genesis : Block H} {cb : Transaction}
    {rest : List Transaction} {next : Records} {held : σ} (hutxo : s0.utxo = ∅)
    (h : Accepted s0 0 genesis cb rest next held) (hg : isGenesisOf s0 genesis = .ok true)
    (hbind : ∀ e, buildGenesisFor s0.doc = .ok e → DataBinds genesis e) :
    (applyBlock s0.utxo genesis.txdata 0).total ≤ pegTotal s0.doc := by
  simp only [isGenesisOf] at hg
  obtain ⟨e, he, hg⟩ := Res.bind_eq_ok.mp hg
  obtain ⟨data, hdata, hg⟩ := Res.bind_eq_ok.mp hg
  obtain ⟨wanted, hwanted, hg⟩ := Res.bind_eq_ok.mp hg
  simp only [Res.ok.injEq, Bool.and_eq_true, beq_iff_eq] at hg
  have hc := hbind e he (by rw [hdata, hwanted, hg.1])
  obtain ⟨ecb, hecb, hle⟩ := buildGenesis_spendable he
  simp only [committedTxs, h.txdata, hecb, List.map_cons, List.map_nil, List.cons.injEq] at hc
  have hspend : spendableValue cb ≤ pegTotal s0.doc := by
    rw [← spendableValue_committed cb, hc.1, spendableValue_committed ecb]
    exact hle
  have hm := h.available
  have hd := h.fees
  unfold StateOf.spending at hm hd
  rw [h.txdata] at hm hd ⊢
  have htot := applyBlock_total hm hd
  rw [hutxo] at htot ⊢
  have h0 : Utxo.total ∅ = 0 := rfl
  omega

/-! ### Runs -/

/-- What a run of a chain with no extra rules keeps: the supply bound. -/
structure Supplied (doc : ChainDocument) (minted : ℕ) (s : StateOf H σ) : Prop where
  document : s.doc = doc
  rules : s.extraRules = []
  bound : s.utxo.total + s.records.burned ≤ pegTotal doc + minted

omit [Bitcoin] [HeaderFamily H] in
theorem Supplied.sameChain {doc : ChainDocument} {minted : ℕ} {s s' : StateOf H σ}
    (h : Supplied doc minted s) (hs : SameChain s s') : Supplied doc minted s' :=
  ⟨hs.doc.trans h.document, hs.extraRules.trans h.rules, by rw [hs.utxo, hs.records]; exact h.bound⟩

/-- An applied block keeps the bound, its payouts added. -/
theorem Supplied.commit {doc : ChainDocument} {minted height : ℕ} {s : StateOf H σ}
    {block : Block H} {cb : Transaction} {rest : List Transaction} {next : Records} {held : σ}
    (h : Supplied doc minted s) (hh : height ≠ 0) (ha : Accepted s height block cb rest next held) :
    Supplied doc (minted + payouts block) (s.commit height block next held) := by
  refine ⟨h.document, h.rules, ?_⟩
  have hblock := block_supply h.rules ha
  have hnext := next_burned_le ha
  have hunion := Map.total_union_le (f := fun _ (b : Burn) => b.value) next.pegouts
    s.records.pegouts
  have hbound := h.bound
  rw [if_neg hh] at hblock
  simp only [StateOf.commit, Records.burned] at hnext hbound ⊢
  omega

theorem supplied_of_chain {doc : ChainDocument} {held : σ} {blocks : List (Block H)}
    {s : StateOf H σ} (h : Chain doc [] held blocks s) :
    (∀ g e, blocks.head? = some g → buildGenesisFor doc = .ok e → DataBinds g e) →
    Supplied doc (blocks.tail.map payouts).sum s := by
  induction h with
  | @genesis genesis expect s hgen =>
    intro hbind
    obtain ⟨s0, cb, rest, next, held', h0, hacc, hg, rfl⟩ := fromGenesis_ok hgen
    obtain ⟨bits, challenge, federation, -, rfl⟩ := empty_ok h0
    refine ⟨rfl, rfl, ?_⟩
    have := genesis_supply rfl hacc hg fun e he => hbind genesis e rfl he
    simpa [Records.burned] using this
  | @step blocks s b s' hc hstep ih =>
    intro hbind
    obtain ⟨g, l, rfl⟩ := hc.head
    have ih' := ih fun g' e hg' => hbind g' e (by simpa using hg')
    rcases hc.step_cases hstep with ⟨block, cb, rest, next, held', rfl, -, ha, rfl⟩ |
      ⟨rfl, hsame, -⟩
    · have := ih'.commit (by simp) ha
      simpa using this
    · simpa using ih'.sameChain hsame

/-- **Supply is conserved.** In every run of a chain with no extra rules, the
total of the UTXO set and the recorded burns are at most the document's pegs
and the payouts of the claims in the blocks after the genesis; and every block
applied next raises the total by at most its claim payouts, less what it
burns. -/
theorem supply_conserved {doc : ChainDocument} {held : σ} {genesis : Block H}
    {later : List (Block H)} {s : StateOf H σ} (hrun : Chain doc [] held (genesis :: later) s)
    (hbind : ∀ e, buildGenesisFor doc = .ok e → DataBinds genesis e) :
    s.utxo.total + s.records.burned ≤ pegTotal doc + (later.map payouts).sum ∧
    ∀ block s', Step s (some block) s' →
      s'.utxo.total + burned block ≤ s.utxo.total + payouts block ∧
      ∃ next, s'.records.pegouts = next ∪ s.records.pegouts ∧
        Map.total (fun _ b => b.value) next ≤ burned block := by
  have hsup := supplied_of_chain hrun fun g e hg he => by
    simp only [List.head?_cons, Option.some.injEq] at hg
    exact hg ▸ hbind e he
  refine ⟨hsup.bound, fun block s' hstep => ?_⟩
  rcases hrun.step_cases hstep with ⟨block', cb, rest, next, held', he, -, ha, rfl⟩ | ⟨he, -⟩
  · obtain rfl : block = block' := by simpa using he
    have hblock := block_supply hsup.rules ha
    rw [if_neg (by simp)] at hblock
    exact ⟨hblock, next.pegouts, rfl, next_burned_le ha⟩
  · simp at he

end

section

attribute [local instance] sampleBitcoin

set_option maxRecDepth 100000 in
/-- A run of two blocks after the genesis, the first claiming 5,000 sats. -/
theorem supply_conserved_sample : ∃ (genesis : Block Header) (later : List (Block Header))
    (s : StateOf Header Unit), Chain sampleDoc [] () (genesis :: later) s ∧
      later.map payouts = [5000, 0] ∧
      s.utxo.total + s.records.burned ≤ pegTotal sampleDoc + (later.map payouts).sum := by
  obtain ⟨genesis, later, s, hrun, hp⟩ := exists_chain_of_sampleRun sampleDoc [] () 1
    [([⟨List.replicate 64 0x62, 0, 5000, [0x51]⟩], []), ([], [])]
    (fun genesis later _ => later.map payouts == [5000, 0] &&
      (buildGenesisFor sampleDoc).any fun e => committedTxs genesis == committedTxs (H := Header) e)
    (by decide +kernel)
  simp only [Bool.and_eq_true, beq_iff_eq] at hp
  obtain ⟨e', he', heq⟩ := Res.any_eq_true.mp hp.2
  refine ⟨genesis, later, s, hrun, hp.1, (supply_conserved hrun fun e he _ => ?_).1⟩
  obtain rfl : e' = e := by simpa using he'.symm.trans he
  simpa using heq

end

end Sidestr
