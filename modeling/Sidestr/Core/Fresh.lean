/-
# No transaction is mined twice

The ids of the transactions a run mines are pairwise different, as long as an
id tells two transactions apart (`TxidsBind`). A transaction other than a
coinbase spends an outpoint that is then gone for good; a coinbase names the
height of its block, and the genesis coinbase names none.

* `Spends`: the transactions of a block after its coinbase, each spending
  coins that are there when it is applied.
* `Fresh`: what a run keeps of the transactions mined so far. Its fields are
  what the next transaction's id is compared with.
* `fresh_of_chain`: every run, by induction over its steps.

Key definitions: `TxidsBind`, `Spends`, `Fresh`, `minedTxs`.
Key theorems: `spends_of_accepted`, `Fresh.rest`, `Fresh.coinbase`,
`fresh_of_chain`.
-/
import Sidestr.Core.Supply

namespace Sidestr

section

variable [Bitcoin]

/-- The txids of these transactions tell them apart, up to witnesses. -/
def TxidsBind (txs : List Transaction) : Prop :=
  ∀ tx ∈ txs, ∀ tx' ∈ txs, Bitcoin.computeTxid tx = Bitcoin.computeTxid tx' →
    tx.stripped = tx'.stripped

theorem TxidsBind.mono {txs txs' : List Transaction} (h : TxidsBind txs')
    (hsub : ∀ tx ∈ txs, tx ∈ txs') : TxidsBind txs :=
  fun tx htx tx' htx' => h tx (hsub tx htx) tx' (hsub tx' htx')

/-! ### What a transaction without its witnesses keeps -/

omit [Bitcoin] in
theorem stripped_prevouts (tx : Transaction) :
    tx.stripped.input.map TxIn.previousOutput = tx.input.map TxIn.previousOutput := by
  simp [Transaction.stripped]

omit [Bitcoin] in
theorem isCoinbase_stripped (tx : Transaction) : isCoinbase tx.stripped = isCoinbase tx := by
  unfold isCoinbase Transaction.stripped
  rcases tx.input with _ | ⟨i, _ | ⟨j, l⟩⟩
  · rfl
  · rfl
  · rfl

omit [Bitcoin] in
theorem bip34_stripped (tx : Transaction) :
    bip34HeightLenient tx.stripped = bip34HeightLenient tx := by
  unfold bip34HeightLenient Transaction.stripped
  cases tx.input with
  | nil => rfl
  | cons i l => rfl

/-! ### Applying one transaction -/

omit [Bitcoin] in
theorem txid_of_mem_coinsOf {txid : Txid} {tx : Transaction} {height : ℕ} {coinbase : Bool}
    {p : OutPoint × Coin} (h : p ∈ coinsOf txid tx height coinbase) : p.1.txid = txid := by
  obtain ⟨q, -, rfl⟩ := List.mem_map.mp h
  rfl

/-- A coin after a transaction is one it made, or was there before and is not
one it spends. -/
theorem lookup_applyTx {height k : ℕ} {now : Utxo} {tx : Transaction} {op : OutPoint} {c : Coin}
    (h : (applyTx height now (tx, k)).lookup op = some c) :
    op.txid = Bitcoin.computeTxid tx ∨
      (now.lookup op = some c ∧ (k ≠ 0 → op ∉ tx.input.map TxIn.previousOutput)) := by
  simp only [applyTx] at h
  rcases Map.lookup_insertAll_eq_some h with h | h
  · exact .inl (txid_of_mem_coinsOf h)
  · right
    split_ifs at h with hk
    · exact ⟨h, fun hne => absurd hk hne⟩
    · by_cases hop : op ∈ tx.input.map TxIn.previousOutput
      · rw [Map.lookup_eraseAll_of_mem hop] at h
        simp at h
      · rw [Map.lookup_eraseAll_of_notMem hop] at h
        exact ⟨h, fun _ => hop⟩

/-- Which transaction after the coinbase it is does not matter. -/
theorem applyTx_index {height k : ℕ} (hk : k ≠ 0) (now : Utxo) (tx : Transaction) :
    applyTx height now (tx, k) = applyTx height now (tx, 1) := by
  have hb : (k == 0) = false := by simpa using hk
  simp [applyTx, hk, hb]

/-- Transactions applied in order, each spending coins that are there. -/
inductive Spends (height : ℕ) : Utxo → List Transaction → Utxo → Prop
  | nil (now : Utxo) : Spends height now [] now
  | cons {now now' : Utxo} {tx : Transaction} {txs : List Transaction}
      (coins : ∀ i ∈ tx.input, ∃ c, now.lookup i.previousOutput = some c) :
      Spends height (applyTx height now (tx, 1)) txs now' → Spends height now (tx :: txs) now'

/-- A scan that finds nothing missing applies transactions that spend. -/
theorem spends_of_scan {params : Params} {utxo : Utxo} {height : ℕ} :
    ∀ (rest : List Transaction) (k : ℕ) (st : BlockScan) (now : Utxo), k ≠ 0 →
    Tracks st.spentHere st.createdHere utxo now →
    ((rest.zipIdx k).foldl (scanTx params utxo height) st).spending.missing = [] →
    ((rest.zipIdx k).foldl (scanTx params utxo height) st).spending.deficits = [] →
    Spends height now rest ((rest.zipIdx k).foldl (applyTx height) now)
  | [], k, st, now, _, _, _, _ => .nil now
  | tx :: rest, k, st, now, hk, htr, hm, hd => by
    rw [List.zipIdx_cons, List.foldl_cons] at hm hd ⊢
    obtain ⟨h1, h2, -⟩ := scan_prefix params utxo height (rest.zipIdx (k + 1))
      (scanTx params utxo height st (tx, k))
    rw [hm] at h1
    rw [hd] at h2
    obtain ⟨-, -, htr', -, -, hcoins, -⟩ :=
      scanTx_ok hk htr (List.prefix_nil.mp h1) (List.prefix_nil.mp h2)
    have ih := spends_of_scan rest (k + 1) _ _ (by omega) htr' hm hd
    refine .cons (fun i hi => ?_) ?_
    · obtain ⟨c, hc, -⟩ := hcoins i hi
      exact ⟨c, hc⟩
    · rw [applyTx_index hk] at ih ⊢
      exact ih

end

section

variable [Bitcoin] {H σ : Type} [HeaderFamily H]

/-- The transactions of an accepted block spend coins that are there. -/
theorem spends_of_accepted {s : StateOf H σ} {height : ℕ} {block : Block H} {cb : Transaction}
    {rest : List Transaction} {next : Records} {held : σ}
    (h : Accepted s height block cb rest next held) :
    Spends height (applyTx height s.utxo (cb, 0)) rest (applyBlock s.utxo block.txdata height) := by
  have hm := h.available
  have hd := h.fees
  unfold StateOf.spending resolveSpending at hm hd
  unfold applyBlock
  rw [h.txdata, List.zipIdx_cons, List.foldl_cons] at hm hd ⊢
  have htr := (tracks_start s.utxo).insertAll (coinsOf (Bitcoin.computeTxid cb) cb height true)
  exact spends_of_scan rest (0 + 1) (scanTx s.params s.utxo height {} (cb, 0))
    (applyTx height s.utxo (cb, 0)) (by omega) htr hm hd

/-- A transaction after the coinbase has an input. -/
theorem Accepted.inputs_ne_nil {s : StateOf H σ} {height : ℕ} {block : Block H}
    {cb : Transaction} {rest : List Transaction} {next : Records} {held : σ}
    (h : Accepted s height block cb rest next held) : ∀ tx ∈ rest, tx.input ≠ [] := by
  intro tx htx
  have hok := h.restOk tx htx
  simp only [validateTransaction, Verdict.ok_cons, Bool.and_eq_true, bne_iff_ne, ne_eq,
    Option.some.injEq, Bool.not_eq_false, Bool.not_eq_true', List.isEmpty_eq_false_iff] at hok
  exact hok.1

/-! ### What a run keeps -/

/-- The transactions mined so far, in order. -/
def minedTxs (blocks : List (Block H)) : List Transaction := blocks.flatMap Block.txdata

/-- Whether an id is that of a mined transaction. -/
def Mined (mined : List Transaction) (txid : Txid) : Prop := txid ∈ mined.map Bitcoin.computeTxid

/-- The transactions `mined` have different ids, the coins are theirs, and each
has spent what it spends or names a height below `bound`. -/
structure Fresh (mined : List Transaction) (bound : ℕ) (now : Utxo) : Prop where
  ids : (mined.map Bitcoin.computeTxid).Nodup
  coins : ∀ op c, now.lookup op = some c → Mined mined op.txid
  inputs : ∀ tx ∈ mined, isCoinbase tx = false → tx.input ≠ []
  spent : ∀ tx ∈ mined, isCoinbase tx = false → ∀ i ∈ tx.input,
    now.lookup i.previousOutput = none ∧ Mined mined i.previousOutput.txid
  heights : ∀ tx ∈ mined, isCoinbase tx = true → ∀ h, bip34HeightLenient tx = some h → h < bound

omit [HeaderFamily H] in
theorem mined_append {mined : List Transaction} {tx : Transaction} {txid : Txid} :
    Mined (mined ++ [tx]) txid ↔ Mined mined txid ∨ txid = Bitcoin.computeTxid tx := by
  simp [Mined]

/-- A transaction whose id is new, applied: the coins and the outpoints spent
before it are as they were, its own inputs aside. -/
theorem Fresh.applied {mined : List Transaction} {bound bound' height k : ℕ} {now : Utxo}
    {tx : Transaction} (h : Fresh mined bound now) (hnew : ¬ Mined mined (Bitcoin.computeTxid tx))
    (hle : bound ≤ bound') (hin : isCoinbase tx = false → tx.input ≠ [])
    (hown : isCoinbase tx = false → k ≠ 0 ∧ ∀ i ∈ tx.input, Mined mined i.previousOutput.txid)
    (hh : isCoinbase tx = true → ∀ n, bip34HeightLenient tx = some n → n < bound') :
    Fresh (mined ++ [tx]) bound' (applyTx height now (tx, k)) := by
  refine ⟨?_, fun op c hc => ?_, fun t ht hcb => ?_, fun t ht hcb i hi => ?_, fun t ht hcb n hn => ?_⟩
  · rw [List.map_append, List.map_singleton]
    exact List.Nodup.append h.ids (List.nodup_singleton _) (by simpa [Mined] using hnew)
  · rw [mined_append]
    rcases lookup_applyTx hc with hc | ⟨hc, -⟩
    · exact .inr hc
    · exact .inl (h.coins op c hc)
  · rcases List.mem_append.mp ht with ht | ht
    · exact h.inputs t ht hcb
    · obtain rfl := List.mem_singleton.mp ht
      exact hin hcb
  · -- the outpoint is of an older transaction, so it is not made again here
    have hkey : Mined mined i.previousOutput.txid ∧
        ∀ c, (applyTx height now (tx, k)).lookup i.previousOutput ≠ some c := by
      rcases List.mem_append.mp ht with ht | ht
      · obtain ⟨hnone, hm⟩ := h.spent t ht hcb i hi
        refine ⟨hm, fun c hc => ?_⟩
        rcases lookup_applyTx hc with hc | ⟨hc, -⟩
        · exact hnew (hc ▸ hm)
        · rw [hnone] at hc
          simp at hc
      · obtain rfl := List.mem_singleton.mp ht
        obtain ⟨hk, hm⟩ := hown hcb
        refine ⟨hm i hi, fun c hc => ?_⟩
        rcases lookup_applyTx hc with hc | ⟨-, hc⟩
        · exact hnew (hc ▸ hm i hi)
        · exact hc hk (List.mem_map_of_mem hi)
    refine ⟨Option.eq_none_iff_forall_ne_some.mpr hkey.2, ?_⟩
    rw [mined_append]
    exact .inl hkey.1
  · rcases List.mem_append.mp ht with ht | ht
    · exact (h.heights t ht hcb n hn).trans_le hle
    · obtain rfl := List.mem_singleton.mp ht
      exact hh hcb n hn

/-- **A transaction that spends is new**: the outpoint it spends is there, and
none of an earlier transaction is. -/
theorem Fresh.rest {mined : List Transaction} {bound height : ℕ} {now : Utxo} {tx : Transaction}
    (h : Fresh mined bound now) (hb : TxidsBind (mined ++ [tx])) (hcb : isCoinbase tx = false)
    (hin : tx.input ≠ []) (hcoins : ∀ i ∈ tx.input, ∃ c, now.lookup i.previousOutput = some c) :
    Fresh (mined ++ [tx]) bound (applyTx height now (tx, 1)) := by
  refine h.applied ?_ le_rfl (fun _ => hin) (fun _ => ⟨by omega, fun i hi => ?_⟩) (by simp [hcb])
  · intro hmined
    obtain ⟨tx', htx', hid⟩ := List.mem_map.mp hmined
    have hstr := hb tx' (List.mem_append_left _ htx') tx (by simp) hid
    have hcb' : isCoinbase tx' = false := by
      rw [← isCoinbase_stripped, hstr, isCoinbase_stripped, hcb]
    obtain ⟨i, hi⟩ := List.exists_mem_of_ne_nil _ hin
    have hpre : i.previousOutput ∈ tx'.input.map TxIn.previousOutput := by
      rw [← stripped_prevouts, hstr, stripped_prevouts]
      exact List.mem_map_of_mem hi
    obtain ⟨i', hi', he⟩ := List.mem_map.mp hpre
    obtain ⟨c, hc⟩ := hcoins i hi
    have hnone := (h.spent tx' htx' hcb' i' hi').1
    rw [he, hc] at hnone
    simp at hnone
  · obtain ⟨c, hc⟩ := hcoins i hi
    exact h.coins _ c hc

/-- **A coinbase is new**: it names a height no earlier coinbase names. -/
theorem Fresh.coinbase {mined : List Transaction} {height : ℕ} {now : Utxo} {cb : Transaction}
    (h : Fresh mined height now) (hb : TxidsBind (mined ++ [cb])) (hcb : isCoinbase cb = true)
    (h34 : bip34HeightLenient cb = some height) :
    Fresh (mined ++ [cb]) (height + 1) (applyTx height now (cb, 0)) := by
  refine h.applied ?_ (Nat.le_succ _) (by simp [hcb]) (by simp [hcb]) fun _ n hn => ?_
  · intro hmined
    obtain ⟨tx', htx', hid⟩ := List.mem_map.mp hmined
    have hstr := hb tx' (List.mem_append_left _ htx') cb (by simp) hid
    have hcb' : isCoinbase tx' = true := by
      rw [← isCoinbase_stripped, hstr, isCoinbase_stripped, hcb]
    have h34' : bip34HeightLenient tx' = some height := by
      rw [← bip34_stripped, hstr, bip34_stripped, h34]
    exact absurd (h.heights tx' htx' hcb' height h34') (Nat.lt_irrefl _)
  · rw [h34, Option.some.injEq] at hn
    omega

/-- The transactions of a block after its coinbase, in order. -/
theorem Fresh.spends {bound height : ℕ} {now now' : Utxo} {rest : List Transaction}
    (hs : Spends height now rest now') : ∀ {mined : List Transaction}, Fresh mined bound now →
    TxidsBind (mined ++ rest) → (∀ tx ∈ rest, isCoinbase tx = false ∧ tx.input ≠ []) →
    Fresh (mined ++ rest) bound now' := by
  induction hs with
  | nil now =>
    intro mined h _ _
    simpa using h
  | @cons now now' tx txs hcoins _ ih =>
    intro mined h hb hrest
    have hb' : TxidsBind ((mined ++ [tx]) ++ txs) := by simpa using hb
    obtain ⟨hcb, hin⟩ := hrest tx List.mem_cons_self
    have h1 : Fresh (mined ++ [tx]) bound (applyTx height now (tx, 1)) :=
      h.rest (hb'.mono fun t ht => List.mem_append_left _ ht) hcb hin hcoins
    have h2 := ih h1 hb' fun t ht => hrest t (List.mem_cons_of_mem _ ht)
    simpa using h2

/-! ### Runs -/

omit [Bitcoin] [HeaderFamily H] in
theorem minedTxs_append (blocks : List (Block H)) (block : Block H) :
    minedTxs (blocks ++ [block]) = minedTxs blocks ++ block.txdata := by
  simp [minedTxs]

/-- An accepted block after the genesis. -/
theorem Fresh.commit {blocks : List (Block H)} {s : StateOf H σ} {block : Block H}
    {cb : Transaction} {rest : List Transaction} {next : Records} {held : σ}
    (h : Fresh (minedTxs blocks) blocks.length s.utxo) (hparams : s.params = {})
    (hpos : 0 < blocks.length) (hb : TxidsBind (minedTxs (blocks ++ [block])))
    (ha : Accepted s blocks.length block cb rest next held) :
    Fresh (minedTxs (blocks ++ [block])) (blocks.length + 1)
      (applyBlock s.utxo block.txdata blocks.length) := by
  have h34 : bip34HeightLenient cb = some blocks.length := ha.bip34 (by rw [hparams]; exact hpos)
  rw [minedTxs_append, ha.txdata] at hb ⊢
  have hb' : TxidsBind ((minedTxs blocks ++ [cb]) ++ rest) := by simpa using hb
  have h1 := h.coinbase (hb'.mono fun t ht => List.mem_append_left _ ht) ha.coinbaseFirst h34
  have hs := spends_of_accepted ha
  rw [ha.txdata] at hs
  have h2 := Fresh.spends hs h1 hb' fun tx htx =>
    ⟨ha.coinbaseSingle tx htx, ha.inputs_ne_nil tx htx⟩
  simpa using h2

/-- The document's genesis is one coinbase, and it names no height. -/
theorem buildGenesis_coinbase {doc : ChainDocument} {e : Block H}
    (h : buildGenesisFor doc = .ok e) :
    ∃ cb, e.txdata = [cb] ∧ bip34HeightLenient cb = none := by
  simp only [buildGenesisFor] at h
  obtain ⟨-, -, h⟩ := Res.bind_eq_ok.mp h
  obtain ⟨outs, -, h⟩ := Res.bind_eq_ok.mp h
  obtain ⟨bits, -, h⟩ := Res.bind_eq_ok.mp h
  simp only [Res.ok.injEq] at h
  rw [← h]
  refine ⟨_, rfl, ?_⟩
  simp [buildCoinbase, bip34HeightLenient, heightPush, heightBytes]

omit [Bitcoin] in
theorem strippedCoinbase_input (cb : Transaction) : (strippedCoinbase cb).input = cb.input := by
  unfold strippedCoinbase
  cases commitmentOutputOf cb with
  | none => rfl
  | some r => rfl

/-- The genesis of a run is one coinbase, and it names no height. -/
theorem genesis_txdata {s0 : StateOf H σ} {genesis : Block H} {cb : Transaction}
    {rest : List Transaction} {next : Records} {held : σ}
    (h : Accepted s0 0 genesis cb rest next held) (hg : isGenesisOf s0 genesis = .ok true)
    (hbind : ∀ e, buildGenesisFor s0.doc = .ok e → DataBinds genesis e) :
    rest = [] ∧ bip34HeightLenient cb = none := by
  simp only [isGenesisOf] at hg
  obtain ⟨e, he, hg⟩ := Res.bind_eq_ok.mp hg
  obtain ⟨data, hdata, hg⟩ := Res.bind_eq_ok.mp hg
  obtain ⟨wanted, hwanted, hg⟩ := Res.bind_eq_ok.mp hg
  simp only [Res.ok.injEq, Bool.and_eq_true, beq_iff_eq] at hg
  have hc := hbind e he (by rw [hdata, hwanted, hg.1])
  obtain ⟨ecb, hecb, h34⟩ := buildGenesis_coinbase he
  simp only [committedTxs, h.txdata, hecb, List.map_cons, List.map_nil, List.cons.injEq,
    List.map_eq_nil_iff] at hc
  refine ⟨hc.2, ?_⟩
  have hstrip : ∀ tx : Transaction,
      bip34HeightLenient (strippedCoinbase tx).stripped = bip34HeightLenient tx := by
    intro tx
    rw [bip34_stripped]
    simp only [bip34HeightLenient, strippedCoinbase_input]
  rw [← hstrip cb, hc.1, hstrip ecb, h34]

/-- The genesis of the run is the document's, as far as a hash can tell. -/
def GenesisBinds (doc : ChainDocument) (blocks : List (Block H)) : Prop :=
  ∀ g e, blocks.head? = some g → buildGenesisFor doc = .ok e → DataBinds g e

theorem genesisBinds_of_any {doc : ChainDocument} {genesis : Block H} {later : List (Block H)}
    (h : (buildGenesisFor doc).any (fun e : Block H =>
      committedTxs genesis == committedTxs e) = true) : GenesisBinds doc (genesis :: later) := by
  obtain ⟨e', he', heq⟩ := Res.any_eq_true.mp h
  rintro g e hg he -
  obtain rfl : genesis = g := by simpa using hg
  obtain rfl : e' = e := by simpa using he'.symm.trans he
  simpa using heq

/-- **No transaction is mined twice.** Over every run whose txids tell its
transactions apart. -/
theorem fresh_of_chain {doc : ChainDocument} {rules : List (BlockRule H σ)} {held : σ}
    {blocks : List (Block H)} {s : StateOf H σ} (h : Chain doc rules held blocks s) :
    GenesisBinds doc blocks → TxidsBind (minedTxs blocks) →
    Fresh (minedTxs blocks) blocks.length s.utxo := by
  induction h with
  | @genesis genesis expect s hgen =>
    intro hbind _
    obtain ⟨s0, cb, rest, next, held', h0, ha, hg, rfl⟩ := fromGenesis_ok hgen
    obtain ⟨bits, challenge, federation, -, rfl⟩ := empty_ok h0
    obtain ⟨rfl, h34⟩ := genesis_txdata ha hg fun e he => hbind genesis e rfl he
    have hstart : Fresh [] 0 ∅ :=
      ⟨by simp, by simp, by simp, by simp, by simp⟩
    have h1 : Fresh ([] ++ [cb]) 1 (applyTx 0 ∅ (cb, 0)) := hstart.applied (by simp [Mined])
      (Nat.zero_le _) (by simp [ha.coinbaseFirst]) (by simp [ha.coinbaseFirst]) (by simp [h34])
    simpa [minedTxs, ha.txdata, applyBlock] using h1
  | @step blocks s b s' hc hstep ih =>
    intro hbind hb
    obtain ⟨g, l, rfl⟩ := hc.head
    have hbind' : GenesisBinds doc (g :: l) := fun g' e hg' => hbind g' e (by simpa using hg')
    rcases hc.step_cases hstep with ⟨block, cb, rest, next, held', rfl, -, ha, rfl⟩ |
      ⟨rfl, hsame, -⟩
    · have hold := ih hbind' (hb.mono fun t ht => by
        rw [Option.toList_some, minedTxs_append]
        exact List.mem_append_left _ ht)
      have := hold.commit hc.onChain.params hc.onChain.pos hb ha
      simpa [StateOf.commit] using this
    · rw [Option.toList_none, List.append_nil] at hb ⊢
      rw [hsame.utxo]
      exact ih hbind' hb

end

end Sidestr
