/-
# Resolving a block and applying it

`resolveSpending` looks a coin up among the outputs created earlier in the
block and then in the set, minus what the block spent already; `applyBlock`
removes and inserts in the set itself. The two agree (`Tracks`): off the
outpoints the block has spent, the set as applied so far is the coins created
so far before the set at the start. From that, what a block that resolves
without a missing input and without a deficit does to the set, transaction by
transaction.

Key definitions: `Tracks`, `opReturnValue`, `coinValue`.
Key theorems: `scanInputs_ok`, `scanTx_ok`, `scanRest_ok`, `applyBlock_total`.
-/
import Sidestr.Core.Accept

namespace Sidestr

/-! ### Values -/

/-- The value of a coin. -/
def coinValue (_ : OutPoint) (c : Coin) : ℕ := c.output.sats

/-- The total value of a UTXO set. -/
def Utxo.total (u : Utxo) : ℕ := Map.total coinValue u

/-- The value of a transaction's `OP_RETURN` outputs, which are never coins. -/
def opReturnValue (tx : Transaction) : ℕ :=
  ((tx.output.filter fun o => isOpReturn o.scriptPubkey).map TxOut.sats).sum

/-- The value of a transaction's other outputs. -/
def spendableValue (tx : Transaction) : ℕ :=
  ((tx.output.filter fun o => !isOpReturn o.scriptPubkey).map TxOut.sats).sum

theorem sum_filter_add (p : TxOut → Bool) : ∀ l : List TxOut,
    ((l.filter p).map TxOut.sats).sum + ((l.filter fun o => !p o).map TxOut.sats).sum =
      (l.map TxOut.sats).sum
  | [] => rfl
  | o :: l => by
    have ih := sum_filter_add p l
    cases h : p o
    · simp only [List.filter_cons, h, Bool.not_false, ↓reduceIte, List.map_cons, List.sum_cons,
        Bool.false_eq_true]
      omega
    · simp only [List.filter_cons, h, Bool.not_true, ↓reduceIte, List.map_cons, List.sum_cons,
        Bool.false_eq_true]
      omega

theorem opReturnValue_add (tx : Transaction) :
    opReturnValue tx + spendableValue tx = (tx.output.map TxOut.sats).sum :=
  sum_filter_add _ _

theorem coinsOf_value (txid : Txid) (tx : Transaction) (height : ℕ) (coinbase : Bool) :
    ((coinsOf txid tx height coinbase).map fun kv => coinValue kv.1 kv.2).sum =
      spendableValue tx := by
  have h : ∀ (l : List TxOut) (k : ℕ),
      (((l.zipIdx k).filter fun p : TxOut × ℕ => !isOpReturn p.1.scriptPubkey).map
        fun p => p.1.sats) = (l.filter fun o => !isOpReturn o.scriptPubkey).map TxOut.sats := by
    intro l
    induction l with
    | nil => intro k; rfl
    | cons o l ih =>
      intro k
      cases ho : isOpReturn o.scriptPubkey
      · simp [List.zipIdx_cons, ho, ih]
      · simp [List.zipIdx_cons, ho, ih]
  simp only [coinsOf, List.map_map, spendableValue, ← h tx.output 0]
  rfl

/-! ### One transaction's inputs -/

section Scan

variable {params : Params} {utxo created now : Utxo} {height ti : ℕ} {tx : Transaction}

/-- The coin an input resolves to. -/
def coinAt (created utxo : Utxo) (key : OutPoint) : Option Coin :=
  (created.lookup key).or (utxo.lookup key)

variable (params height ti tx) in
/-- An unspent input that resolves to the coin `c`. -/
theorem scanInput_found {st : InputScan} {p : TxIn × ℕ} {c : Coin}
    (hs : p.1.previousOutput ∉ st.spentHere)
    (hc : coinAt created utxo p.1.previousOutput = some c) :
    scanInput params utxo height created ti tx st p =
      { spending := Spending.lock { st.spending with
          resolved := st.spending.resolved ++ [(ti, p.2, c.output)]
          premature := if c.coinbase && height - c.height < params.coinbaseMaturity then
            st.spending.premature ++ [p.1.previousOutput] else st.spending.premature }
          height p.1.previousOutput (seqLock tx p.1 (some c.height))
        spentHere := p.1.previousOutput :: st.spentHere
        inSum := Word.satAdd 64 st.inSum c.output.sats
        valuesOk := st.valuesOk } := by
  unfold coinAt at hc
  simp only [scanInput, hs, hc, ↓reduceIte]

/-- An input that leaves nothing missing was unspent and resolves. -/
theorem found_of_scanInput {st : InputScan} {p : TxIn × ℕ}
    (h : (scanInput params utxo height created ti tx st p).spending.missing = []) :
    p.1.previousOutput ∉ st.spentHere ∧ ∃ c, coinAt created utxo p.1.previousOutput = some c := by
  unfold coinAt
  simp only [scanInput] at h
  by_cases hs : p.1.previousOutput ∈ st.spentHere
  · simp [hs] at h
  · cases hc : (created.lookup p.1.previousOutput).or (utxo.lookup p.1.previousOutput) with
    | none => simp [hs, hc, Spending.lock] at h
    | some c => exact ⟨hs, c, rfl⟩

/-- A transaction's inputs that leave nothing missing: they are distinct, were
unspent, all resolve, and are spent afterwards. -/
theorem scanInputs_ok : ∀ {ins : List (TxIn × ℕ)} {st : InputScan},
    (ins.foldl (scanInput params utxo height created ti tx) st).spending.missing = [] →
    st.spending.missing = [] ∧
    (ins.map fun p => p.1.previousOutput).Nodup ∧
    (∀ p ∈ ins, p.1.previousOutput ∉ st.spentHere ∧
      ∃ c, coinAt created utxo p.1.previousOutput = some c ∧
        ((ins.foldl (scanInput params utxo height created ti tx) st).spending.premature = [] →
          c.coinbase = true → params.coinbaseMaturity ≤ height - c.height)) ∧
    (ins.foldl (scanInput params utxo height created ti tx) st).inSum ≤ st.inSum +
      (ins.map fun p => ((coinAt created utxo p.1.previousOutput).map fun c => c.output.sats).getD 0).sum ∧
    (ins.foldl (scanInput params utxo height created ti tx) st).valuesOk = st.valuesOk ∧
    (∀ k, k ∈ (ins.foldl (scanInput params utxo height created ti tx) st).spentHere ↔
      k ∈ ins.map (fun p => p.1.previousOutput) ∨ k ∈ st.spentHere) ∧
    (ins.foldl (scanInput params utxo height created ti tx) st).spending.fees = st.spending.fees ∧
    (ins.foldl (scanInput params utxo height created ti tx) st).spending.deficits =
      st.spending.deficits ∧
    ((ins.foldl (scanInput params utxo height created ti tx) st).spending.premature = [] →
      st.spending.premature = [])
  | [], st, h => by simpa using h
  | p :: ins, st, h => by
    rw [List.foldl_cons] at h ⊢
    obtain ⟨hm, hnd, hres, hsum, hval, hsp, hfee, hdef, hpre⟩ := scanInputs_ok h
    obtain ⟨hns, c, hc⟩ := found_of_scanInput hm
    have hst := scanInput_found params height ti tx hns hc
    generalize scanInput params utxo height created ti tx st p = st' at *
    have hp : st'.spending.premature = [] → st.spending.premature = [] ∧
        (c.coinbase = true → params.coinbaseMaturity ≤ height - c.height) := by
      rw [hst]
      simp only [Spending.lock]
      cases hi : (c.coinbase && decide (height - c.height < params.coinbaseMaturity))
      · exact fun hp => ⟨hp, fun hcb => by simpa [hcb] using hi⟩
      · exact fun hp => by simp at hp
    have hin : st'.inSum = Word.satAdd 64 st.inSum c.output.sats := by rw [hst]
    have hsh : st'.spentHere = p.1.previousOutput :: st.spentHere := by rw [hst]
    have hmst : st'.spending.missing = st.spending.missing := by rw [hst]; rfl
    rw [hin] at hsum
    rw [hsh] at hsp hres
    refine ⟨hmst ▸ hm, ?_, ?_, ?_, by rw [hval, hst], ?_, by rw [hfee, hst]; rfl,
      by rw [hdef, hst]; rfl, fun h => (hp (hpre h)).1⟩
    · rw [List.map_cons, List.nodup_cons]
      refine ⟨fun hmem => ?_, hnd⟩
      obtain ⟨q, hq, hqe⟩ := List.mem_map.mp hmem
      exact (hres q hq).1 (hqe ▸ List.mem_cons_self)
    · intro q hq
      rcases List.mem_cons.mp hq with rfl | hq
      · exact ⟨hns, c, hc, fun h => (hp (hpre h)).2⟩
      · obtain ⟨h1, h2⟩ := hres q hq
        exact ⟨fun h => h1 (List.mem_cons_of_mem _ h), h2⟩
    · have := Word.satAdd_le_add (w := 64) st.inSum c.output.sats
      rw [List.map_cons, List.sum_cons, hc, Option.map_some, Option.getD_some]
      omega
    · intro k
      rw [hsp k, List.map_cons, List.mem_cons, List.mem_cons]
      tauto

/-! ### One transaction -/

/-- Off the outpoints the block has spent, the set as applied so far is the
coins created so far, before the set at the start. -/
def Tracks (spent : List OutPoint) (created utxo now : Utxo) : Prop :=
  ∀ k ∉ spent, now.lookup k = coinAt created utxo k

theorem map_fst_zipIdx {α β : Type} (f : α → β) (l : List α) (k : ℕ) :
    ((l.zipIdx k).map fun p => f p.1) = l.map f := by
  rw [show (fun p : α × ℕ => f p.1) = f ∘ Prod.fst from rfl, ← List.map_map, List.zipIdx_map_fst]

/-- Inserting a transaction's coins on both sides keeps the two in step. -/
theorem Tracks.insertAll {spent : List OutPoint} (h : Tracks spent created utxo now)
    (coins : List (OutPoint × Coin)) :
    Tracks spent (Map.insertAll coins created) utxo (Map.insertAll coins now) := by
  intro k hk
  rw [coinAt, Map.lookup_insertAll coins now, Map.lookup_insertAll coins created, h k hk, coinAt,
    Option.or_assoc]

theorem Tracks.eraseAll {spent spent' keys : List OutPoint} (h : Tracks spent created utxo now)
    (hs : ∀ k, k ∈ spent' ↔ k ∈ keys ∨ k ∈ spent) :
    Tracks spent' created utxo (Map.eraseAll keys now) := by
  intro k hk
  rw [hs, not_or] at hk
  rw [Map.lookup_eraseAll_of_notMem hk.1, h k hk.2]

variable [Bitcoin]

variable (params utxo height) in
/-- What a transaction adds to the missing inputs and the deficits stays: if
the whole scan has none, no part of it has. -/
theorem scanTx_prefix (st : BlockScan) (p : Transaction × ℕ) :
    st.spending.missing <+: (scanTx params utxo height st p).spending.missing ∧
    st.spending.deficits <+: (scanTx params utxo height st p).spending.deficits ∧
    st.spending.premature <+: (scanTx params utxo height st p).spending.premature := by
  have hin : ∀ (ins : List (TxIn × ℕ)) (s : InputScan),
      s.spending.missing <+: (ins.foldl (scanInput params utxo height st.createdHere p.2 p.1)
        s).spending.missing ∧
      s.spending.deficits = (ins.foldl (scanInput params utxo height st.createdHere p.2 p.1)
        s).spending.deficits ∧
      s.spending.premature <+: (ins.foldl (scanInput params utxo height st.createdHere p.2 p.1)
        s).spending.premature := by
    intro ins
    induction ins with
    | nil => intro s; exact ⟨List.prefix_rfl, rfl, List.prefix_rfl⟩
    | cons q ins ih =>
      intro s
      have hq : s.spending.missing <+: (scanInput params utxo height st.createdHere p.2 p.1 s
            q).spending.missing ∧
          s.spending.deficits = (scanInput params utxo height st.createdHere p.2 p.1 s
            q).spending.deficits ∧
          s.spending.premature <+: (scanInput params utxo height st.createdHere p.2 p.1 s
            q).spending.premature := by
        simp only [scanInput]
        by_cases hs : q.1.previousOutput ∈ s.spentHere
        · simp [hs]
        · cases hc : (st.createdHere.lookup q.1.previousOutput).or
            (utxo.lookup q.1.previousOutput) with
          | none => simp [hs, Spending.lock]
          | some c =>
            simp only [hs, ↓reduceIte, Spending.lock]
            refine ⟨List.prefix_rfl, trivial, ?_⟩
            split_ifs
            · exact List.prefix_append _ _
            · exact List.prefix_rfl
      obtain ⟨h1, h2, h3⟩ := ih (scanInput params utxo height st.createdHere p.2 p.1 s q)
      exact ⟨hq.1.trans h1, hq.2.1.trans h2, hq.2.2.trans h3⟩
  simp only [scanTx]
  split_ifs with h0
  · exact ⟨List.prefix_rfl, List.prefix_rfl, List.prefix_rfl⟩
  · obtain ⟨h1, h2, h3⟩ := hin p.1.input.zipIdx
      { spending := st.spending, spentHere := st.spentHere }
    generalize p.1.input.zipIdx.foldl _ _ = scan at h1 h2 h3 ⊢
    unfold addFee
    split_ifs
    · cases sumOut p.1 with
      | none => exact ⟨h1, h2 ▸ List.prefix_append _ _, h3⟩
      | some o =>
        dsimp only
        split_ifs
        · exact ⟨h1, h2 ▸ List.prefix_rfl, h3⟩
        · exact ⟨h1, h2 ▸ List.prefix_append _ _, h3⟩
    · exact ⟨h1, h2 ▸ List.prefix_rfl, h3⟩

variable (params utxo height) in
/-- The same over several transactions. -/
theorem scan_prefix : ∀ (ps : List (Transaction × ℕ)) (st : BlockScan),
    st.spending.missing <+: (ps.foldl (scanTx params utxo height) st).spending.missing ∧
    st.spending.deficits <+: (ps.foldl (scanTx params utxo height) st).spending.deficits ∧
    st.spending.premature <+: (ps.foldl (scanTx params utxo height) st).spending.premature
  | [], st => ⟨List.prefix_rfl, List.prefix_rfl, List.prefix_rfl⟩
  | p :: ps, st => by
    obtain ⟨h1, h2, h3⟩ := scanTx_prefix params utxo height st p
    obtain ⟨h4, h5, h6⟩ := scan_prefix ps (scanTx params utxo height st p)
    exact ⟨h1.trans h4, h2.trans h5, h3.trans h6⟩

/-- A transaction after the first that leaves nothing missing and no deficit:
its inputs are distinct coins of the set as applied so far; what it moves out
of them is in its coins, its `OP_RETURN` outputs and the fees. -/
theorem scanTx_ok {st : BlockScan} (hti : ti ≠ 0)
    (htr : Tracks st.spentHere st.createdHere utxo now)
    (hm : (scanTx params utxo height st (tx, ti)).spending.missing = [])
    (hd : (scanTx params utxo height st (tx, ti)).spending.deficits = []) :
    st.spending.missing = [] ∧ st.spending.deficits = [] ∧
    Tracks (scanTx params utxo height st (tx, ti)).spentHere
      (scanTx params utxo height st (tx, ti)).createdHere utxo (applyTx height now (tx, ti)) ∧
    (applyTx height now (tx, ti)).total + (scanTx params utxo height st (tx, ti)).spending.fees +
      opReturnValue tx ≤ now.total + st.spending.fees ∧
    (tx.input.map TxIn.previousOutput).Nodup ∧
    (∀ i ∈ tx.input, ∃ c, now.lookup i.previousOutput = some c ∧
      ((scanTx params utxo height st (tx, ti)).spending.premature = [] →
        c.coinbase = true → params.coinbaseMaturity ≤ height - c.height)) ∧
    ((scanTx params utxo height st (tx, ti)).spending.premature = [] →
      st.spending.premature = []) := by
  simp only [scanTx, hti, ↓reduceIte] at hm hd ⊢
  generalize hscan : tx.input.zipIdx.foldl (scanInput params utxo height st.createdHere ti tx)
    { spending := st.spending, spentHere := st.spentHere } = scan at hm hd ⊢
  have hmiss : (addFee tx scan).missing = scan.spending.missing := by
    unfold addFee
    split_ifs
    · cases sumOut tx with
      | none => rfl
      | some o => dsimp only; split_ifs <;> rfl
    · rfl
  rw [hmiss, ← hscan] at hm
  obtain ⟨hm0, hnd, hres, hsum, hval, hsp, hfee, hdef, hpre⟩ := scanInputs_ok hm
  rw [hscan] at hres hsum hval hsp hfee hdef hpre
  simp only [map_fst_zipIdx TxIn.previousOutput] at hnd hsp
  -- the inputs are coins of the set as applied so far
  have hcoin : ∀ i ∈ tx.input, i.previousOutput ∉ st.spentHere ∧
      ∃ c, now.lookup i.previousOutput = some c ∧ (scan.spending.premature = [] →
        c.coinbase = true → params.coinbaseMaturity ≤ height - c.height) := by
    intro i hi
    obtain ⟨n, hn⟩ : ∃ n, (i, n) ∈ tx.input.zipIdx := by
      obtain ⟨n, hn, he⟩ := List.getElem_of_mem hi
      exact ⟨n, by rw [List.mem_zipIdx_iff_getElem?]; simp [hn, he]⟩
    obtain ⟨h1, c, h2, h3⟩ := hres (i, n) hn
    exact ⟨h1, c, by rw [htr _ h1]; exact h2, h3⟩
  have hin : scan.inSum ≤ ((tx.input.map TxIn.previousOutput).map (Map.at' coinValue now)).sum := by
    have hmap : (tx.input.zipIdx.map fun p => ((coinAt st.createdHere utxo
        p.1.previousOutput).map fun c => c.output.sats).getD 0) =
        (tx.input.map TxIn.previousOutput).map (Map.at' coinValue now) := by
      rw [map_fst_zipIdx (fun i : TxIn => ((coinAt st.createdHere utxo
        i.previousOutput).map fun c => c.output.sats).getD 0), List.map_map]
      apply List.map_congr_left
      intro i hi
      rw [← htr _ (hcoin i hi).1, Function.comp_apply, Map.at']
      obtain ⟨c, hc, -⟩ := (hcoin i hi).2
      simp [hc, coinValue]
    rw [hmap] at hsum
    simpa using hsum
  have htotal := Map.total_eraseAll (f := coinValue) (m := now) hnd
  have hins := Map.total_insertAll_le (f := coinValue)
    (coinsOf (Bitcoin.computeTxid tx) tx height (ti == 0))
    (Map.eraseAll (tx.input.map TxIn.previousOutput) now)
  rw [coinsOf_value] at hins
  -- no deficit: the outputs are covered, and the rest is the fee
  have hvalues : scan.valuesOk = true := hval
  have hfee' : scan.spending.fees = st.spending.fees := hfee
  have hfees : ∃ out, sumOut tx = some out ∧ out ≤ scan.inSum ∧
      scan.spending.deficits = [] ∧
      (addFee tx scan).fees = Word.satAdd 64 scan.spending.fees (scan.inSum - out) ∧
      (addFee tx scan).premature = scan.spending.premature := by
    unfold addFee at hd ⊢
    rw [if_pos hvalues] at hd ⊢
    cases ho : sumOut tx with
    | none => simp [ho] at hd
    | some out =>
      simp only [ho] at hd ⊢
      by_cases hle : out ≤ scan.inSum
      · rw [if_pos hle] at hd ⊢
        exact ⟨out, rfl, hle, hd, rfl, rfl⟩
      · rw [if_neg hle] at hd
        simp at hd
  obtain ⟨out, ho, hle, hd0, hf, hprem⟩ := hfees
  have hout := (sumOut_eq_some.mp ho).1
  have hop := opReturnValue_add tx
  have hsat := Word.satAdd_le_add (w := 64) scan.spending.fees (scan.inSum - out)
  refine ⟨hm0, hdef ▸ hd0, ?_, ?_, hnd, ?_, ?_⟩
  · have happ : applyTx height now (tx, ti) = Map.insertAll
        (coinsOf (Bitcoin.computeTxid tx) tx height (ti == 0))
        (Map.eraseAll (tx.input.map TxIn.previousOutput) now) := by
      simp [applyTx, hti]
    rw [happ]
    exact (htr.eraseAll hsp).insertAll _
  · simp only [applyTx, hti, ↓reduceIte, Utxo.total]
    rw [hf]
    omega
  · intro i hi
    rw [hprem]
    exact (hcoin i hi).2
  · rw [hprem]
    exact hpre

/-! ### The block -/

/-- The transactions after the first, from a set the scan tracks. -/
theorem scanRest_ok : ∀ (rest : List Transaction) (k : ℕ) (st : BlockScan) (now : Utxo), k ≠ 0 →
    Tracks st.spentHere st.createdHere utxo now →
    ((rest.zipIdx k).foldl (scanTx params utxo height) st).spending.missing = [] →
    ((rest.zipIdx k).foldl (scanTx params utxo height) st).spending.deficits = [] →
    st.spending.missing = [] ∧ st.spending.deficits = [] ∧
    Utxo.total ((rest.zipIdx k).foldl (applyTx height) now) +
      ((rest.zipIdx k).foldl (scanTx params utxo height) st).spending.fees +
      (rest.map opReturnValue).sum ≤ now.total + st.spending.fees
  | [], k, st, now, _, _, hm, hd => by simpa using ⟨hm, hd⟩
  | tx :: rest, k, st, now, hk, htr, hm, hd => by
    rw [List.zipIdx_cons, List.foldl_cons] at hm hd ⊢
    -- the scan after `tx` leaves nothing missing, since the whole rest does not
    have hstep : (scanTx params utxo height st (tx, k)).spending.missing = [] ∧
        (scanTx params utxo height st (tx, k)).spending.deficits = [] := by
      obtain ⟨h1, h2, -⟩ := scan_prefix params utxo height
        (rest.zipIdx (k + 1)) (scanTx params utxo height st (tx, k))
      rw [hm] at h1
      rw [hd] at h2
      exact ⟨List.prefix_nil.mp h1, List.prefix_nil.mp h2⟩
    obtain ⟨hm0, hd0, htr', htot, -⟩ := scanTx_ok hk htr hstep.1 hstep.2
    obtain ⟨-, -, hrest⟩ := scanRest_ok rest (k + 1) _ _ (by omega) htr' hm hd
    refine ⟨hm0, hd0, ?_⟩
    rw [List.map_cons, List.sum_cons, List.foldl_cons]
    omega

omit [Bitcoin] in
theorem tracks_start (utxo : Utxo) : Tracks [] ∅ utxo utxo := by
  intro k _
  simp [coinAt]

/-- **A block and the set.** A block that resolves with nothing missing and no
deficit leaves in the set, with its fees and what its transactions put in
`OP_RETURN` outputs, at most what was there and what its coinbase made. -/
theorem applyBlock_total {cb : Transaction} {rest : List Transaction}
    (hm : (resolveSpending params utxo height (cb :: rest)).missing = [])
    (hd : (resolveSpending params utxo height (cb :: rest)).deficits = []) :
    (applyBlock utxo (cb :: rest) height).total +
      (resolveSpending params utxo height (cb :: rest)).fees + (rest.map opReturnValue).sum ≤
      utxo.total + spendableValue cb := by
  unfold resolveSpending at hm hd ⊢
  unfold applyBlock
  rw [List.zipIdx_cons, List.foldl_cons] at hm hd ⊢
  rw [List.foldl_cons]
  have htr := (tracks_start utxo).insertAll (coinsOf (Bitcoin.computeTxid cb) cb height true)
  have hins := Map.total_insertAll_le (f := coinValue)
    (coinsOf (Bitcoin.computeTxid cb) cb height true) utxo
  rw [coinsOf_value] at hins
  obtain ⟨-, -, h⟩ := scanRest_ok rest (0 + 1) (scanTx params utxo height {} (cb, 0))
    (applyTx height utxo (cb, 0)) (by omega) htr hm hd
  have h0 : (scanTx params utxo height {} (cb, 0)).spending.fees = 0 := rfl
  have h1 : Utxo.total (applyTx height utxo (cb, 0)) ≤ utxo.total + spendableValue cb := hins
  rw [h0] at h
  omega

end Scan

end Sidestr
