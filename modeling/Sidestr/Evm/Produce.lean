/-
# The EVM producer

`Rules::build_next` of a chain with the EVM rule (`rule.rs`). The transactions
are run in order from the state after the last block, each on a scratch copy;
what does not apply is dropped (`EvmState.sequence` of `state.rs`). The coinbase
pays the fees to the challenge, then the withdrawals, then commits the root, then
pays the claims.

The validator runs the block's transactions through one world and reads the root
record and the payments back by search: both see the same. Only a verdict kept
under the block's header hash answers in its place (`producer_agrees`,
`kept_verdict_differs`).

Key definitions: `EvmState.sequence`, `EvmState.buildNextWith`, `Agrees`.
Key theorems: `sequence_keeps`, `execute_built`, `producer_agrees`.
-/
import Mathlib.Data.List.Perm.Subperm
import Sidestr.Core.Sequence
import Sidestr.Parent.Pegout
import Sidestr.Evm.Replay

namespace Sidestr

namespace Evm

/-! ### Sequencing -/

/-- What sequencing some transactions gives. -/
structure Sequenced where
  kept : List ℕ := []
  dropped : List (ℕ × Fault) := []
  root : Hash256 := 0
  withdrawals : List Withdrawal := []
  hashes : List Hash256 := []

section

variable [Machine] [Bitcoin]

/-- One transaction on a copy of the world, which is kept if it applies. -/
def sequenceStep (cfg : EvmConfig) (env : BlockEnvironment) (st : World × Sequenced)
    (p : Transaction × ℕ) : World × Sequenced :=
  let r := applyTx cfg st.1 p.1 env []
  match r.out.error with
  | none => (r.world, { st.2 with
      kept := st.2.kept ++ [p.2]
      hashes := st.2.hashes ++ r.out.hashes
      withdrawals := st.2.withdrawals ++ r.out.withdrawals })
  | some e => (st.1, { st.2 with dropped := st.2.dropped ++ [(p.2, e)] })

/-- The environment of a block. -/
def EvmState.env (s : EvmState) (height : ℕ) (time : UInt32) : BlockEnvironment :=
  ⟨s.config.chainId, s.config.gasLimit, height, time⟩

/-- A producer's sequencing: what does not apply after the ones before it is
dropped whole. -/
def EvmState.sequence (s : EvmState) (txs : List Transaction) (height : ℕ) (time : UInt32) :
    Sequenced :=
  let st := txs.zipIdx.foldl (sequenceStep s.config (s.env height time)) (s.world, {})
  { st.2 with root := Machine.root st.1 }

omit [Machine] [Bitcoin] in
/-- The output that pays a withdrawal. -/
def Withdrawal.output (w : Withdrawal) : TxOut := ⟨UInt64.ofNat w.sats, w.script⟩

/-- A block with what was left out of it. -/
structure Built (H : Type) where
  block : Block H
  fees : ℕ
  claims : ℕ
  dropped : List (Txid × Fault)

variable {H σ : Type} [HeaderFamily H]

/-- The next block, unsigned, of the transactions that the overlay rules keep. -/
def EvmState.buildNextWith (evm : EvmState) (s : StateOf H σ) (next : NextBlock)
    (txs : List Transaction) : Res Error (Built H) := do
  let tip ← s.tip
  Res.refuseIf (Word.maxVal 32 ≤ tip.height) (.chain "the chain is at the last height")
  let height := tip.height + 1
  let time := max next.time (UInt32.ofNat (Word.satAdd 32 tip.time.toNat 1))
  let seq := evm.sequence txs height time
  let kept := keptOf txs seq.kept
  let fees ← Res.okOr (.chain "the mempool's fees overflow")
    (Word.checkedSum 64 0 (kept.map fun tx => (s.fees tx).getD 0))
  let claims ← s.claimOutputs next.claims
  let outputs := (if 0 < fees then [⟨UInt64.ofNat fees, s.challenge⟩] else []) ++
    seq.withdrawals.map Withdrawal.output ++
    [⟨0, rootScript seq.root⟩] ++ claims
  .ok {
    block := buildBlock { height, prev := tip.hash, time, transactions := kept, outputs,
                          bits := s.bits, marker }
    fees
    claims := next.claims.length
    dropped := seq.dropped.filterMap fun d =>
      (txs[d.1]?).map fun tx => (Bitcoin.computeTxid tx, d.2) }

end

/-! ### One world, or a copy for each transaction -/

section

variable [Machine] [Bitcoin] {cfg : EvmConfig} {env : BlockEnvironment}

/-- The receipts before a transaction are no input of its run. -/
theorem applyOutputs_receipts {tx : Transaction} : ∀ {l : List (TxOut × ℕ)} {s t : TxRun},
    s.world = t.world → s.out = t.out →
    (applyOutputs cfg env tx l s).world = (applyOutputs cfg env tx l t).world ∧
      (applyOutputs cfg env tx l s).out = (applyOutputs cfg env tx l t).out
  | [], s, t, hw, ho => ⟨hw, ho⟩
  | (o, i) :: l, s, t, hw, ho => by
    unfold applyOutputs applyOutput
    cases parseDeposit o.scriptPubkey with
    | some address =>
      dsimp only
      cases reservePayment cfg tx i with
      | some paid => exact applyOutputs_receipts (by rw [hw]) ho
      | none => exact ⟨hw, by rw [ho]⟩
    | none =>
      dsimp only
      cases parseCarrier o.scriptPubkey with
      | none => exact applyOutputs_receipts hw ho
      | some rlp =>
        dsimp only
        cases decodeCarrier rlp cfg.chainId with
        | none => exact ⟨hw, by rw [ho]⟩
        | some c =>
          dsimp only
          rw [hw]
          cases Machine.run t.world env c with
          | none => exact ⟨rfl, by rw [ho]⟩
          | some ran =>
            dsimp only
            refine applyOutputs_receipts ?_ ?_
            · unfold applyCarried
              split_ifs
              · rw [hw]
              · rw [hw]
            · unfold applyCarried
              split_ifs
              · rw [ho]
              · rw [ho]

theorem applyTx_receipts (cfg : EvmConfig) (env : BlockEnvironment) (world : World)
    (tx : Transaction) (receipts : List Receipt) :
    (applyTx cfg world tx env receipts).world = (applyTx cfg world tx env []).world ∧
      (applyTx cfg world tx env receipts).out = (applyTx cfg world tx env []).out :=
  applyOutputs_receipts rfl rfl

/-- A run without a fault goes on. -/
theorem runTxs_append {l' : List (Transaction × ℕ)} : ∀ {l : List (Transaction × ℕ)} {b : BlockRun},
    (runTxs cfg env l b).error = none →
    runTxs cfg env (l ++ l') b = runTxs cfg env l' (runTxs cfg env l b)
  | [], _, _ => rfl
  | (tx, i) :: l, b, h => by
    rw [List.cons_append]
    unfold runTxs at h
    rw [runTxs, runTxs]
    dsimp only at h ⊢
    cases he : (applyTx cfg b.world tx env b.receipts).out.error with
    | some e =>
      rw [he] at h
      cases h
    | none =>
      rw [he] at h
      dsimp only
      exact runTxs_append h

/-- The transactions run without a fault from one world to another. -/
def RunsTo (cfg : EvmConfig) (env : BlockEnvironment) (world : World) (txs : List Transaction)
    (st : World × Sequenced) : Prop :=
  ∀ k, ∃ receipts, runTxs cfg env (txs.zipIdx k) { world } =
    ⟨st.1, receipts, st.2.hashes, st.2.withdrawals, none⟩

/-- After a run without a fault, the next transaction is run on its world. -/
theorem RunsTo.next {world : World} {txs : List Transaction} {st : World × Sequenced}
    (h : RunsTo cfg env world txs st) (tx : Transaction) (post : List Transaction) (k : ℕ) :
    ∃ receipts, runTxs cfg env ((txs ++ tx :: post).zipIdx k) { world } =
      runTxs cfg env ((tx, k + txs.length) :: post.zipIdx (k + txs.length + 1))
        ⟨st.1, receipts, st.2.hashes, st.2.withdrawals, none⟩ := by
  obtain ⟨receipts, hrun⟩ := h k
  refine ⟨receipts, ?_⟩
  rw [List.zipIdx_append, runTxs_append (by rw [hrun]), hrun, List.zipIdx_cons]

theorem RunsTo.concat {world : World} {txs : List Transaction} {st : World × Sequenced}
    (h : RunsTo cfg env world txs st) {tx : Transaction} {n : ℕ}
    (hok : (applyTx cfg st.1 tx env []).out.error = none) :
    RunsTo cfg env world (txs ++ [tx]) (sequenceStep cfg env st (tx, n)) := by
  intro k
  obtain ⟨receipts, hrun⟩ := h.next tx [] k
  obtain ⟨hw, ho⟩ := applyTx_receipts cfg env st.1 tx receipts
  refine ⟨(applyTx cfg st.1 tx env receipts).receipts, ?_⟩
  rw [hrun]
  unfold runTxs sequenceStep
  dsimp only
  rw [ho, hw, hok]
  rfl

/-- A block that goes on with a transaction that does not apply has a fault. -/
theorem RunsTo.refuse {world : World} {txs : List Transaction} {st : World × Sequenced}
    (h : RunsTo cfg env world txs st) {tx : Transaction} {e : Fault}
    (herr : (applyTx cfg st.1 tx env []).out.error = some e) (post : List Transaction) (k : ℕ) :
    (runTxs cfg env ((txs ++ tx :: post).zipIdx k) { world }).error.isSome = true := by
  obtain ⟨receipts, hrun⟩ := h.next tx post k
  obtain ⟨-, ho⟩ := applyTx_receipts cfg env st.1 tx receipts
  rw [hrun]
  unfold runTxs
  dsimp only
  rw [ho, herr]
  rfl

omit [Machine] [Bitcoin] in
/-- A withdrawal is to a script of 34 bytes, and its sats fit. -/
def Payable (w : Withdrawal) : Prop := w.script.length = 34 ∧ w.sats ≤ Word.maxVal 64

theorem applyOutputs_payable {tx : Transaction} : ∀ {l : List (TxOut × ℕ)} {s : TxRun},
    (∀ w ∈ s.out.withdrawals, Payable w) →
    ∀ w ∈ (applyOutputs cfg env tx l s).out.withdrawals, Payable w
  | [], _, h => h
  | (o, i) :: l, s, h => by
    unfold applyOutputs
    cases ho : applyOutput cfg env tx i o s with
    | error e => exact h
    | ok s' =>
      refine applyOutputs_payable ?_
      unfold applyOutput at ho
      split at ho
      · split at ho
        · rw [← Except.ok.inj ho]
          exact h
        · cases ho
      · split at ho
        · rw [← Except.ok.inj ho]
          exact h
        · split at ho
          · cases ho
          · split at ho
            · cases ho
            · rename_i c _ _ ran _
              rw [← Except.ok.inj ho]
              unfold applyCarried
              dsimp only
              split_ifs with hw
              · intro w hmem
                rcases List.mem_append.mp hmem with hmem | hmem
                · exact h w hmem
                · unfold withdrawalOf at hmem
                  dsimp only at hmem
                  split_ifs at hmem
                  · rw [List.mem_singleton.mp hmem]
                    unfold Ran.withdraws at hw
                    simp only [Bool.and_eq_true, beq_iff_eq] at hw
                    exact ⟨hw.1.2, min_le_right _ _⟩
                  · cases hmem
              · exact h

/-- What sequencing keeps as it goes: the kept transactions run through one world
without a fault, and no block goes on with a dropped one after the kept ones
before it. -/
structure Keeps (cfg : EvmConfig) (env : BlockEnvironment) (world : World)
    (txs : List Transaction) (st : World × Sequenced) : Prop where
  run : RunsTo cfg env world (keptOf txs st.2.kept) st
  below : ∀ i ∈ st.2.kept, i < txs.length
  payable : ∀ w ∈ st.2.withdrawals, Payable w
  dropped : ∀ d ∈ st.2.dropped, ∃ tx, txs[d.1]? = some tx ∧ ∀ post k,
    (runTxs cfg env ((keptOf txs (st.2.kept.filter (· < d.1)) ++ tx :: post).zipIdx k)
      { world }).error.isSome = true

omit [Machine] [Bitcoin] in
theorem keptOf_append {txs : List Transaction} (tx : Transaction) {indices : List ℕ}
    (h : ∀ i ∈ indices, i < txs.length) : keptOf (txs ++ [tx]) indices = keptOf txs indices :=
  List.filterMap_congr fun i hi => List.getElem?_append_left (h i hi)

theorem Keeps.step {world : World} {txs : List Transaction} {st : World × Sequenced}
    (h : Keeps cfg env world txs st) (tx : Transaction) :
    Keeps cfg env world (txs ++ [tx]) (sequenceStep cfg env st (tx, txs.length)) := by
  have hlast : (txs ++ [tx])[txs.length]? = some tx := by
    rw [List.getElem?_append_right le_rfl, Nat.sub_self]
    rfl
  have hsame : ∀ d, keptOf (txs ++ [tx]) (st.2.kept.filter (· < d)) =
      keptOf txs (st.2.kept.filter (· < d)) := fun d =>
    keptOf_append tx fun i hi => h.below i (List.mem_filter.mp hi).1
  have hlt : ∀ i ∈ st.2.kept, i < (txs ++ [tx]).length := fun i hi => by
    have hi := h.below i hi
    rw [List.length_append]
    omega
  -- a transaction dropped before is in the list, and nothing kept later is below it
  have hbefore : ∀ d ∈ st.2.dropped, ∃ x, (txs ++ [tx])[d.1]? = some x ∧ d.1 < txs.length ∧
      ∀ post k, (runTxs cfg env ((keptOf (txs ++ [tx]) (st.2.kept.filter (· < d.1)) ++
        x :: post).zipIdx k) { world }).error.isSome = true := by
    intro d hd
    obtain ⟨x, hx, hrefuse⟩ := h.dropped d hd
    have hd' := (List.getElem?_eq_some_iff.mp hx).1
    refine ⟨x, by rw [List.getElem?_append_left hd', hx], hd', fun post k => ?_⟩
    rw [hsame]
    exact hrefuse post k
  cases he : (applyTx cfg st.1 tx env []).out.error with
  | none =>
    have hrun := h.run.concat (n := txs.length) he
    have hstep : (sequenceStep cfg env st (tx, txs.length)).2.kept = st.2.kept ++ [txs.length] ∧
        (sequenceStep cfg env st (tx, txs.length)).2.dropped = st.2.dropped := by
      unfold sequenceStep
      dsimp only
      rw [he]
      exact ⟨rfl, rfl⟩
    refine ⟨?_, ?_, ?_, ?_⟩
    · rw [hstep.1]
      unfold keptOf at hrun ⊢
      rw [List.filterMap_append]
      have hk := keptOf_append tx h.below
      unfold keptOf at hk
      rw [hk, List.filterMap_cons, hlast]
      exact hrun
    · rw [hstep.1]
      intro i hi
      rcases List.mem_append.mp hi with hi | hi
      · exact hlt i hi
      · rw [List.mem_singleton.mp hi, List.length_append]
        exact Nat.lt_succ_self _
    · unfold sequenceStep
      dsimp only
      rw [he]
      intro w hw
      rcases List.mem_append.mp hw with hw | hw
      · exact h.payable w hw
      · exact applyOutputs_payable (fun _ hnil => by cases hnil) w hw
    · rw [hstep.1, hstep.2]
      intro d hd
      obtain ⟨x, hx, hd', hrefuse⟩ := hbefore d hd
      refine ⟨x, hx, fun post k => ?_⟩
      rw [List.filter_append, List.filter_cons_of_neg (by simpa using hd'.le), List.filter_nil,
        List.append_nil]
      exact hrefuse post k
  | some e =>
    have hstep : sequenceStep cfg env st (tx, txs.length) =
        (st.1, { st.2 with dropped := st.2.dropped ++ [(txs.length, e)] }) := by
      unfold sequenceStep
      dsimp only
      rw [he]
    rw [hstep]
    refine ⟨?_, hlt, h.payable, fun d hd => ?_⟩
    · rw [keptOf_append tx h.below]
      exact h.run
    · rcases List.mem_append.mp hd with hd | hd
      · obtain ⟨x, hx, -, hrefuse⟩ := hbefore d hd
        exact ⟨x, hx, hrefuse⟩
      · rw [List.mem_singleton.mp hd]
        refine ⟨tx, hlast, fun post k => ?_⟩
        have hall : st.2.kept.filter (· < txs.length) = st.2.kept :=
          List.filter_eq_self.mpr fun i hi => decide_eq_true (h.below i hi)
        dsimp only
        rw [hall, keptOf_append tx h.below]
        exact h.run.refuse he post k

/-- **Sequencing** keeps exactly what one world applies in order, and drops what it refuses. -/
theorem sequence_keeps (s : EvmState) (txs : List Transaction) (height : ℕ) (time : UInt32) :
    ∃ st : World × Sequenced, s.sequence txs height time = { st.2 with root := Machine.root st.1 } ∧
      Keeps s.config (s.env height time) s.world txs st := by
  refine ⟨_, rfl, ?_⟩
  induction txs using List.reverseRecOn with
  | nil =>
    refine ⟨fun k => ⟨[], rfl⟩, fun i hi => ?_, fun w hw => ?_, fun d hd => ?_⟩
    · cases hi
    · cases hw
    · cases hd
  | append_singleton txs tx ih =>
    rw [List.zipIdx_append, List.foldl_append, List.zipIdx_singleton, Nat.zero_add]
    exact ih.step tx

/-! ### Reading the coinbase back -/

omit [Machine] [Bitcoin] in
theorem length_opReturnBytes {script d : Bytes} (h : opReturnBytes script = some d) :
    d.length + 2 ≤ script.length := by
  unfold opReturnBytes at h
  split at h
  · split_ifs at h with hop
    dsimp only at h
    split at h
    all_goals
      split_ifs at h with hlen
      rw [← Option.some.inj h]
      simp only [List.length_cons] at *
      omega
  · cases h

omit [Machine] [Bitcoin] in
/-- A script of 34 bytes is too short for a root record. -/
theorem parseRoot_short {script : Bytes} (h : script.length = 34) : parseRoot script = none := by
  cases hr : parseRoot script with
  | none => rfl
  | some root =>
    unfold parseRoot withPrefix at hr
    obtain ⟨rest, hrest, -⟩ := Option.map_eq_some_iff.mp hr
    obtain ⟨hrest, hlen⟩ := Option.filter_eq_some_iff.mp hrest
    obtain ⟨d, hd, hrest⟩ := Option.bind_eq_some_iff.mp hrest
    obtain ⟨hrest, -⟩ := Option.filter_eq_some_iff.mp hrest
    have hshort := length_opReturnBytes hd
    rw [eq_append_of_stripPrefix hrest, List.length_append, beq_iff_eq.mp hlen, h] at hshort
    have hpre : rootPrefix.length = 8 := rfl
    omega

omit [Machine] [Bitcoin] in
/-- A root record reads back. -/
theorem parseRoot_rootScript (root : Hash256) : parseRoot (rootScript root) = some root := by
  have hlen : (rootPrefix ++ displayBytes root).length = 40 := by
    rw [List.length_append, length_displayBytes]
    rfl
  have hbytes : opReturnBytes (rootScript root) = some (rootPrefix ++ displayBytes root) := by
    unfold rootScript opReturn
    rw [hlen]
    unfold opReturnBytes
    simp [hlen]
  unfold parseRoot withPrefix
  rw [hbytes, Option.bind_some, stripPrefix_append]
  have hne : (!(displayBytes root).isEmpty) = true := by
    rw [Bool.not_eq_true', List.isEmpty_eq_false_iff, ← List.length_pos_iff, length_displayBytes]
    decide
  have hlen' : ((displayBytes root).length == 32) = true := by
    rw [length_displayBytes]
    rfl
  rw [Option.filter_some, if_pos hne, Option.filter_some, if_pos hlen', Option.map_some,
    ofNat_displayBytes]

omit [Machine] [Bitcoin] in
/-- The withdrawals' own outputs pay them, wherever they stand. -/
theorem firstUnpaid_none : ∀ {ws : List Withdrawal} {outputs : List TxOut},
    (∀ w ∈ ws, w.sats ≤ Word.maxVal 64) → (ws.map Withdrawal.output).Subperm outputs →
    firstUnpaid ws outputs = none
  | [], _, _, _ => rfl
  | w :: ws, outputs, hsats, hsub => by
    have hw := hsats w List.mem_cons_self
    have hpays : (fun o : TxOut => o.scriptPubkey == w.script && o.sats == w.sats) =
        fun o => w.output == o := by
      funext o
      rw [Bool.eq_iff_iff, Bool.and_eq_true, beq_iff_eq, beq_iff_eq, beq_iff_eq]
      unfold Withdrawal.output TxOut.sats
      constructor
      · rintro ⟨hscript, hvalue⟩
        rw [← hscript, ← hvalue, UInt64.ofNat_toNat]
      · rintro rfl
        unfold Word.maxVal at hw
        exact ⟨rfl, UInt64.toNat_ofNat_of_lt' (by rw [UInt64.size]; omega)⟩
    unfold firstUnpaid
    dsimp only
    rw [hpays, if_pos, ← List.erase_eq_eraseP]
    · refine firstUnpaid_none (fun x hx => hsats x (List.mem_cons_of_mem _ hx)) ?_
      have herase := hsub.erase w.output
      rwa [List.map_cons, List.erase_cons_head] at herase
    · rw [List.any_eq_true]
      exact ⟨w.output, hsub.subset List.mem_cons_self, beq_self_eq_true _⟩

/-! ### Producer and validator -/

variable {H σ : Type} [HeaderFamily H] {s : StateOf H σ} {evm : EvmState} {next : NextBlock}
  {txs : List Transaction} {built : Built H} {tip : Tip}

omit [Machine] [Bitcoin] in
/-- The time the producer gives the next block. -/
def nextTime (next : NextBlock) (tip : Tip) : UInt32 :=
  max next.time (UInt32.ofNat (Word.satAdd 32 tip.time.toNat 1))

/-- What a built block holds. -/
theorem buildNextWith_txdata (hbuild : evm.buildNextWith s next txs = .ok built)
    (htip : s.tip = .ok tip) :
    ∃ cb before after, built.block.txdata =
        cb :: keptOf txs (evm.sequence txs (tip.height + 1) (nextTime next tip)).kept ∧
      cb.output = before ++
        (evm.sequence txs (tip.height + 1) (nextTime next tip)).withdrawals.map Withdrawal.output ++
        ⟨0, rootScript (evm.sequence txs (tip.height + 1) (nextTime next tip)).root⟩ :: after ∧
      ∀ o ∈ before, o.scriptPubkey = s.challenge := by
  simp only [EvmState.buildNextWith, htip, Res.ok_bind] at hbuild
  obtain ⟨_, -, hbuild⟩ := Res.bind_eq_ok.mp hbuild
  obtain ⟨fees, -, hbuild⟩ := Res.bind_eq_ok.mp hbuild
  obtain ⟨claims, -, hbuild⟩ := Res.bind_eq_ok.mp hbuild
  rw [← Res.ok.inj hbuild]
  refine ⟨_, if 0 < fees then [⟨UInt64.ofNat fees, s.challenge⟩] else [],
    claims ++ [⟨0, commitmentPrefix ++ displayBytes (witnessCommitment
      (keptOf txs (evm.sequence txs (tip.height + 1) (nextTime next tip)).kept))⟩], rfl, ?_, ?_⟩
  · unfold buildCoinbase nextTime
    simp only [List.append_assoc, List.cons_append, List.nil_append]
  · intro o ho
    split_ifs at ho
    · rw [List.mem_singleton.mp ho]
    · cases ho

/-- **Run straight through**, the block gives what the producer saw. -/
theorem execute_built (hbuild : evm.buildNextWith s next txs = .ok built) (htip : s.tip = .ok tip)
    (hchallenge : s.challenge.length = 34) :
    (execute evm.config evm.world (tip.height + 1) (nextTime next tip) built.block.txdata).verdict =
      ⟨none, some (evm.sequence txs (tip.height + 1) (nextTime next tip)).root,
        (evm.sequence txs (tip.height + 1) (nextTime next tip)).withdrawals,
        (evm.sequence txs (tip.height + 1) (nextTime next tip)).hashes⟩ := by
  obtain ⟨cb, before, after, htx, hout, hbefore⟩ := buildNextWith_txdata hbuild htip
  obtain ⟨st, hseq, hkeeps⟩ := sequence_keeps evm txs (tip.height + 1) (nextTime next tip)
  rw [hseq] at htx hout ⊢
  dsimp only at htx hout ⊢
  obtain ⟨receipts, hrun⟩ := hkeeps.run 1
  have hroot : cb.output.findSome? (fun o => parseRoot o.scriptPubkey) =
      some (Machine.root st.1) := by
    rw [hout, List.findSome?_append, List.findSome?_append]
    have hnone : before.findSome? (fun o => parseRoot o.scriptPubkey) = none := by
      rw [List.findSome?_eq_none_iff]
      intro o ho
      exact parseRoot_short (by rw [hbefore o ho, hchallenge])
    have hpaid : (st.2.withdrawals.map Withdrawal.output).findSome?
        (fun o => parseRoot o.scriptPubkey) = none := by
      rw [List.findSome?_eq_none_iff]
      intro o ho
      obtain ⟨w, hw, rfl⟩ := List.mem_map.mp ho
      exact parseRoot_short (hkeeps.payable w hw).1
    rw [hnone, hpaid, Option.none_or, Option.none_or, List.findSome?_cons, parseRoot_rootScript]
  have hunpaid : firstUnpaid st.2.withdrawals cb.output = none := by
    refine firstUnpaid_none (fun w hw => (hkeeps.payable w hw).2) ?_
    rw [hout]
    exact ((List.sublist_append_right _ _).trans (List.sublist_append_left _ _)).subperm
  unfold execute
  dsimp only
  rw [htx, List.zipIdx_cons, List.drop_one, List.tail_cons, Nat.zero_add]
  have henv : (⟨evm.config.chainId, evm.config.gasLimit, tip.height + 1, nextTime next tip⟩ :
      BlockEnvironment) = evm.env (tip.height + 1) (nextTime next tip) := rfl
  rw [henv, hrun]
  simp only [List.head?_cons, Option.map_some, Option.getD_some, hroot, hunpaid, if_true,
    Option.map_none, Option.or_none, Option.isNone_none]

omit [Machine] [Bitcoin] in
/-- The verdict is what the producer reported. -/
def Agrees (v : Verdict) (seq : Sequenced) : Prop :=
  v.ok = true ∧ v.root = some seq.root ∧ v.hashes = seq.hashes ∧ v.withdrawals = seq.withdrawals

/-- A verdict that waits answers; else the block is run. -/
theorem prepare_verdict (evm : EvmState) (hash : BlockHash) (time : UInt32)
    (txdata : List Transaction) : (evm.prepare hash (evm.height + 1) time txdata).1 =
      ((evm.pending.find? fun p => p.hash == hash).map Pending.verdict).getD
        (execute evm.config evm.world (evm.height + 1) time txdata).verdict := by
  unfold EvmState.prepare
  cases evm.pending.find? fun p => p.hash == hash with
  | some p => rfl
  | none =>
    dsimp only
    rw [if_neg (by omega)]
    rfl

/-- **The producer and the validator agree**, unless something else waits under
the block's header hash: then its verdict is given. A block that goes on with a
dropped transaction after the kept ones before it is refused, on the same
condition. -/
theorem producer_agrees (hbuild : evm.buildNextWith s next txs = .ok built)
    (htip : s.tip = .ok tip) (hheight : evm.height = tip.height)
    (hchallenge : s.challenge.length = 34) (hash : BlockHash) :
    (Agrees (evm.prepare hash (evm.height + 1) (nextTime next tip) built.block.txdata).1
        (evm.sequence txs (evm.height + 1) (nextTime next tip)) ↔
      ∀ p, evm.pending.find? (fun p => p.hash == hash) = some p →
        Agrees p.verdict (evm.sequence txs (evm.height + 1) (nextTime next tip))) ∧
    ∀ d ∈ (evm.sequence txs (evm.height + 1) (nextTime next tip)).dropped,
      ∃ tx, txs[d.1]? = some tx ∧ ∀ cb post,
        ((evm.prepare hash (evm.height + 1) (nextTime next tip) (cb :: (keptOf txs
            ((evm.sequence txs (evm.height + 1) (nextTime next tip)).kept.filter (· < d.1)) ++
              tx :: post))).1.ok = false ↔
          ∀ p, evm.pending.find? (fun p => p.hash == hash) = some p → p.verdict.ok = false) := by
  have hexec := execute_built hbuild htip hchallenge
  rw [← hheight] at hexec
  refine ⟨?_, fun d hd => ?_⟩
  · rw [prepare_verdict]
    cases evm.pending.find? fun p => p.hash == hash with
    | some p =>
      rw [Option.map_some, Option.getD_some]
      exact ⟨fun h q hq => by rw [← Option.some.inj hq]; exact h, fun h => h p rfl⟩
    | none =>
      rw [Option.map_none, Option.getD_none, hexec]
      refine ⟨fun _ q hq => (by cases hq), fun _ => ⟨rfl, rfl, rfl, rfl⟩⟩
  · obtain ⟨st, hseq, hkeeps⟩ := sequence_keeps evm txs (evm.height + 1) (nextTime next tip)
    rw [hseq] at hd ⊢
    obtain ⟨tx, htx, hrefuse⟩ := hkeeps.dropped d hd
    refine ⟨tx, htx, fun cb post => ?_⟩
    rw [prepare_verdict]
    cases evm.pending.find? fun p => p.hash == hash with
    | some p =>
      rw [Option.map_some, Option.getD_some]
      exact ⟨fun h q hq => by rw [← Option.some.inj hq]; exact h, fun h => h p rfl⟩
    | none =>
      rw [Option.map_none, Option.getD_none]
      refine ⟨fun _ q hq => (by cases hq), fun _ => ?_⟩
      obtain ⟨e, he⟩ := Option.isSome_iff_exists.mp (hrefuse post 1)
      unfold execute Verdict.ok
      dsimp only
      rw [List.zipIdx_cons, List.drop_one, List.tail_cons, Nat.zero_add]
      have henv : (⟨evm.config.chainId, evm.config.gasLimit, evm.height + 1, nextTime next tip⟩ :
          BlockEnvironment) = evm.env (evm.height + 1) (nextTime next tip) := rfl
      rw [henv, he]
      rfl

end

/-! ### A verdict of another body -/

section

attribute [local instance] transferMachine sampleBitcoin

/-- A deposit of 50,000 sats. -/
def depositTx : Transaction :=
  ⟨2, 0, [], [⟨50000, [0x51]⟩, ⟨0, opReturn (depositPrefix ++ List.replicate 19 0 ++ [0xaa])⟩]⟩

/-- A deposit record with no payment before it. -/
def unpaidTx : Transaction :=
  ⟨2, 0, [], [⟨0, opReturn (depositPrefix ++ List.replicate 19 0 ++ [0xaa])⟩]⟩

/-- The state at a genesis, its tip, and the next block that is built of some transactions. -/
def builtSample (judged : EvmState → BlockHash → EvmState) (txs : List Transaction) :
    Res Error (StateOf Header (EvmState × Unit) × Tip × EvmState × Built Header) := do
  let (_, s) ← sampleStart
  let tip ← s.tip
  let built ← s.held.1.buildNextWith s { time := 0 } txs
  let evm := judged s.held.1 (HeaderFamily.blockHash built.block.header)
  let again ← evm.buildNextWith s { time := 0 } txs
  .ok (s, tip, evm, again)

theorem builtSample_eq {judged : EvmState → BlockHash → EvmState} {txs : List Transaction}
    {r : StateOf Header (EvmState × Unit) × Tip × EvmState × Built Header}
    (h : builtSample judged txs = .ok r) :
    r.1.tip = .ok r.2.1 ∧ r.2.2.1.buildNextWith r.1 { time := 0 } txs = .ok r.2.2.2 ∧
      ∃ hash, r.2.2.1 = judged r.1.held.1 hash := by
  simp only [builtSample, Res.bind_eq_ok, Res.ok.injEq] at h
  obtain ⟨⟨_, s⟩, -, tip, htip, built, -, again, hagain, rfl⟩ := h
  exact ⟨htip, hagain, _, rfl⟩

/-- The body of a deposit, judged under a block's header hash. -/
def judgeDeposit (evm : EvmState) (hash : BlockHash) : EvmState :=
  (evm.prepare hash 1 1790000001 [sampleCoinbase (50000 * gwei) [], depositTx]).2

/-- Whether the hypotheses hold of a sample. -/
def standsAt (r : StateOf Header (EvmState × Unit) × Tip × EvmState × Built Header) : Bool :=
  r.2.2.1.height == r.2.1.height && r.1.challenge.length == 34

set_option maxRecDepth 100000 in
theorem builtSample_kept : (builtSample (fun evm _ => evm) [unpaidTx, depositTx]).any (fun r =>
    standsAt r && r.2.2.1.pending.isEmpty &&
      ((r.2.2.1.sequence [unpaidTx, depositTx] (r.2.2.1.height + 1)
        (nextTime { time := 0 } r.2.1)).dropped.map Prod.fst) == [0]) = true := by
  decide +kernel

set_option maxRecDepth 100000 in
theorem builtSample_forged : (builtSample judgeDeposit []).any (fun r => standsAt r &&
    (r.2.2.1.prepare (HeaderFamily.blockHash r.2.2.2.block.header) (r.2.2.1.height + 1)
        (nextTime { time := 0 } r.2.1) r.2.2.2.block.txdata).1.root !=
      some (r.2.2.1.sequence [] (r.2.2.1.height + 1) (nextTime { time := 0 } r.2.1)).root) =
    true := by
  decide +kernel

/-- A deposit is kept and a record with no payment dropped; the block is accepted
with what the producer saw, and refused when it begins with what was dropped. -/
theorem producer_agrees_sample : ∃ (s : StateOf Header (EvmState × Unit)) (evm : EvmState)
    (built : Built Header) (tip : Tip), s.tip = .ok tip ∧
    evm.buildNextWith s { time := 0 } [unpaidTx, depositTx] = .ok built ∧
    ∀ hash, Agrees (evm.prepare hash (evm.height + 1) (nextTime { time := 0 } tip)
        built.block.txdata).1 (evm.sequence [unpaidTx, depositTx] (evm.height + 1)
          (nextTime { time := 0 } tip)) ∧
      ∃ d ∈ (evm.sequence [unpaidTx, depositTx] (evm.height + 1)
          (nextTime { time := 0 } tip)).dropped, ∃ tx before, ∀ cb post,
        (evm.prepare hash (evm.height + 1) (nextTime { time := 0 } tip)
          (cb :: (before ++ tx :: post))).1.ok = false := by
  obtain ⟨r, hr, hp⟩ := Res.any_eq_true.mp builtSample_kept
  obtain ⟨htip, hbuild, -⟩ := builtSample_eq hr
  simp only [standsAt, Bool.and_eq_true, beq_iff_eq, List.isEmpty_iff] at hp
  obtain ⟨⟨⟨hheight, hchallenge⟩, hnone⟩, hdropped⟩ := hp
  refine ⟨_, _, _, _, htip, hbuild, fun hash => ?_⟩
  obtain ⟨hagrees, hrefused⟩ := producer_agrees hbuild htip hheight hchallenge hash
  rw [hnone] at hagrees hrefused
  refine ⟨hagrees.mpr fun p hp => (by cases hp), ?_⟩
  obtain ⟨d, hd⟩ := List.length_eq_one_iff.mp
    ((List.length_map _).symm.trans (congrArg List.length hdropped))
  have hmem := hd ▸ List.mem_singleton_self d
  obtain ⟨tx, -, hall⟩ := hrefused d hmem
  exact ⟨d, hmem, tx, _, fun cb post => (hall cb post).mpr fun p hp => (by cases hp)⟩

/-- **Another body answers for the block.** After a body with a deposit is judged
under the header hash of the block the producer builds, the block's verdict has
the root the deposit leaves. -/
theorem kept_verdict_differs : ∃ (s : StateOf Header (EvmState × Unit)) (evm : EvmState)
    (built : Built Header) (tip : Tip) (hash : BlockHash), s.tip = .ok tip ∧
    evm = judgeDeposit s.held.1 hash ∧ evm.height = tip.height ∧
    evm.buildNextWith s { time := 0 } [] = .ok built ∧
    ¬ Agrees (evm.prepare (HeaderFamily.blockHash built.block.header) (evm.height + 1)
        (nextTime { time := 0 } tip) built.block.txdata).1
      (evm.sequence [] (evm.height + 1) (nextTime { time := 0 } tip)) := by
  obtain ⟨r, hr, hp⟩ := Res.any_eq_true.mp builtSample_forged
  obtain ⟨htip, hbuild, hash, hevm⟩ := builtSample_eq hr
  simp only [standsAt, Bool.and_eq_true, beq_iff_eq, bne_iff_ne, ne_eq] at hp
  exact ⟨_, _, _, _, hash, htip, hevm, hp.1.1, hbuild, fun h => hp.2 h.2.1⟩

end

end Evm

end Sidestr
