/-
# The backing of the EVM

What is in the EVM came in through deposits. A deposit credits its sats in
gwei; a carried transaction moves wei between accounts and burns some; a
withdrawal empties the account it was sent to and makes the coinbase pay the
whole sats of its value. So over every sequence of blocks the rule accepts,
what the accounts hold and what was withdrawn is at most what was deposited
(`evm_backed`).

Of the machine this takes two things (`Machine.Conserves`): a transaction's
changes do not raise the sum of the balances it touched, and a successful
transaction to the withdrawal address leaves its value there.

Key definitions: `Machine.Conserves`, `depositSats`, `replay`.
Key theorems: `applyCarried_backed`, `execute_backed`, `evm_backed`.
-/
import Sidestr.Evm.State
import Sidestr.Core.Sample

namespace Sidestr

namespace Evm

section

variable [Machine]

/-- What the machine's changes say of balances. -/
structure Machine.Conserves : Prop where
  /-- The accounts a transaction touched hold no more than before it. -/
  sum : ∀ (w : World) (env : BlockEnvironment) (c : Carried) (r : Ran), Machine.run w env c = some r →
    touchedTotal (fun _ a => a.balance) r.changes.entries ≤
      touchedTotal (fun a _ => w.balance a) r.changes.entries
  /-- A successful transaction to the withdrawal address has moved its value there. -/
  moved : ∀ (w : World) (env : BlockEnvironment) (c : Carried) (r : Ran),
    Machine.run w env c = some r → r.success = true → c.envelope.«to» = some withdraw →
    ∃ a, (withdraw, a) ∈ r.changes.entries ∧ a.touched = true ∧ a.selfdestructed = false ∧
      c.envelope.value.toNat ≤ a.balance

/-! ### Deposits -/

omit [Machine] in
/-- Whether output `i` is a deposit record that credits the output before it. -/
def credits (cfg : EvmConfig) (tx : Transaction) (i : ℕ) : Bool :=
  ((tx.output[i]?).bind fun o => parseDeposit o.scriptPubkey).isSome &&
    (reservePayment cfg tx i).isSome

omit [Machine] in
/-- The sats of output `p` when it pays the reserve and a deposit record follows it. -/
def depositSats (cfg : EvmConfig) (tx : Transaction) (p : ℕ) : ℕ :=
  match (tx.output[p]?).filter fun o => o.scriptPubkey == cfg.reserve with
  | some o =>
    if ((tx.output[p + 1]?).bind fun o => parseDeposit o.scriptPubkey).isSome then o.sats else 0
  | none => 0

omit [Machine] in
/-- The sats of a transaction's deposits. -/
def txDeposits (cfg : EvmConfig) (tx : Transaction) : ℕ :=
  ((List.range tx.output.length).map (depositSats cfg tx)).sum

omit [Machine] in
/-- The sats a record at output `i` credits. -/
def creditSats (cfg : EvmConfig) (tx : Transaction) (i : ℕ) : ℕ :=
  if i = 0 then 0 else depositSats cfg tx (i - 1)

omit [Machine] in
theorem creditSats_of_deposit {cfg : EvmConfig} {tx : Transaction} {i : ℕ} {o paid : TxOut}
    {address : Address} (ho : tx.output[i]? = some o) (hd : parseDeposit o.scriptPubkey = some address)
    (hp : reservePayment cfg tx i = some paid) : creditSats cfg tx i = paid.sats := by
  unfold reservePayment at hp
  by_cases hi : i = 0
  · simp [hi] at hp
  · rw [if_neg hi, Option.filter_eq_some_iff] at hp
    obtain ⟨hget, hpay⟩ := hp
    rw [Bool.and_eq_true] at hpay
    have hsucc : i - 1 + 1 = i := by omega
    unfold creditSats depositSats
    rw [if_neg hi, hsucc, hget, ho]
    simp [Option.filter, hpay.1, hd]

omit [Machine] in
/-- The credits of a transaction's records are its deposits. -/
theorem sum_creditSats_le (cfg : EvmConfig) (tx : Transaction) :
    ((List.range tx.output.length).map (creditSats cfg tx)).sum ≤ txDeposits cfg tx := by
  unfold txDeposits
  cases tx.output.length with
  | zero => simp
  | succ n =>
    rw [List.range_succ_eq_map, List.map_cons, List.sum_cons, List.map_map, ← List.range_succ_eq_map,
      List.range_succ, List.map_append, List.sum_append]
    have h : (creditSats cfg tx ∘ Nat.succ) = depositSats cfg tx := by
      funext p
      simp [creditSats]
    rw [h]
    simp [creditSats]

/-! ### One transaction -/

omit [Machine] in
/-- The sats of a list of withdrawals. -/
def withdrawnSats (ws : List Withdrawal) : ℕ := (ws.map Withdrawal.sats).sum

omit [Machine] in
@[simp] theorem withdrawnSats_append (ws ws' : List Withdrawal) :
    withdrawnSats (ws ++ ws') = withdrawnSats ws + withdrawnSats ws' := by
  simp [withdrawnSats]

omit [Machine] in
/-- A withdrawal pays at most the value that was sent. -/
theorem withdrawalOf_le (c : Carried) :
    gwei * withdrawnSats (withdrawalOf c) ≤ c.envelope.value.toNat := by
  unfold withdrawalOf
  dsimp only
  split_ifs
  · have h := Nat.div_mul_le_self c.envelope.value.toNat gwei
    have hmin := Nat.min_le_left (c.envelope.value.toNat / gwei) (Word.maxVal 64)
    simp only [withdrawnSats, List.map_cons, List.map_nil, List.sum_cons, List.sum_nil, Nat.add_zero]
    calc gwei * min (c.envelope.value.toNat / gwei) (Word.maxVal 64)
        ≤ gwei * (c.envelope.value.toNat / gwei) := Nat.mul_le_mul_left _ hmin
      _ = c.envelope.value.toNat / gwei * gwei := Nat.mul_comm _ _
      _ ≤ c.envelope.value.toNat := h
  · simp [withdrawnSats]

variable [Bitcoin] {cfg : EvmConfig} {env : BlockEnvironment} {tx : Transaction}

/-- What the accounts hold and what was withdrawn, in wei. -/
def TxRun.wei (s : TxRun) : ℕ := s.world.total + gwei * withdrawnSats s.out.withdrawals

/-- **A carried transaction** takes what it withdraws out of the accounts. -/
theorem applyCarried_backed (hm : Machine.Conserves) {c : Carried} {ran : Ran} {s : TxRun}
    (hran : Machine.run s.world env c = some ran) : (applyCarried env tx c ran s).wei ≤ s.wei := by
  have hsum := hm.sum _ _ _ _ hran
  have htotal := s.world.total_commit ran.changes
  unfold applyCarried TxRun.wei
  dsimp only
  by_cases hw : ran.withdraws c.envelope = true
  · rw [if_pos hw]
    unfold Ran.withdraws at hw
    simp only [Bool.and_eq_true, beq_iff_eq] at hw
    obtain ⟨⟨⟨hto, -⟩, -⟩, hsuccess⟩ := hw
    obtain ⟨a, hmem, ht, hs, hvalue⟩ := hm.moved _ _ _ _ hran hsuccess hto
    -- the emptied account held the value
    have hheld : (s.world.commit ran.changes).balance withdraw = a.balance :=
      World.balance_foldl_commitOne ht hs _ ran.changes.nodup hmem
    have hzero := (s.world.commit ran.changes).total_zeroBalance withdraw
    have hpaid := withdrawalOf_le c
    rw [withdrawnSats_append, Nat.mul_add]
    dsimp only
    omega
  · rw [if_neg hw]
    dsimp only
    omega

theorem applyOutput_backed (hm : Machine.Conserves) {i : ℕ} {o : TxOut} {s s' : TxRun}
    (ho : tx.output[i]? = some o) (h : applyOutput cfg env tx i o s = .ok s') :
    s'.wei ≤ s.wei + gwei * creditSats cfg tx i := by
  unfold applyOutput at h
  split at h
  · rename_i address hd
    split at h
    · rename_i paid hp
      obtain rfl := Except.ok.inj h
      have hcredit := s.world.total_credit_le address (paid.sats * gwei)
      rw [creditSats_of_deposit ho hd hp, Nat.mul_comm gwei]
      unfold TxRun.wei
      dsimp only
      omega
    · simp at h
  · split at h
    · obtain rfl := Except.ok.inj h
      exact Nat.le_add_right _ _
    · split at h
      · simp at h
      · split at h
        · simp at h
        · rename_i ran hran
          obtain rfl := Except.ok.inj h
          exact (applyCarried_backed hm hran).trans (Nat.le_add_right _ _)

theorem applyOutputs_backed (hm : Machine.Conserves) : ∀ {l : List (TxOut × ℕ)} {s : TxRun},
    (∀ p ∈ l, tx.output[p.2]? = some p.1) →
    (applyOutputs cfg env tx l s).wei ≤
      s.wei + gwei * (l.map fun p => creditSats cfg tx p.2).sum
  | [], s, _ => by simp [applyOutputs]
  | (o, i) :: rest, s, hl => by
    rw [List.forall_mem_cons] at hl
    rw [List.map_cons, List.sum_cons, Nat.mul_add]
    unfold applyOutputs
    split
    · rename_i s' h
      have hone := applyOutput_backed hm hl.1 h
      have hrest : (applyOutputs cfg env tx rest s').wei ≤
          s'.wei + gwei * (rest.map fun p => creditSats cfg tx p.2).sum :=
        applyOutputs_backed hm hl.2
      dsimp only at hone ⊢
      omega
    · unfold TxRun.wei
      dsimp only
      omega

/-- **A transaction** adds at most its deposits. -/
theorem applyTx_backed (hm : Machine.Conserves) (w : World) (receipts : List Receipt) :
    (applyTx cfg w tx env receipts).wei ≤ w.total + gwei * txDeposits cfg tx := by
  have hl : ∀ p ∈ tx.output.zipIdx, tx.output[p.2]? = some p.1 := fun p hp =>
    List.mem_zipIdx_iff_getElem?.mp hp
  have h : (applyTx cfg w tx env receipts).wei ≤ TxRun.wei ⟨w, receipts, {}⟩ +
      gwei * (tx.output.zipIdx.map fun p => creditSats cfg tx p.2).sum :=
    applyOutputs_backed hm hl
  have hcredit := Nat.mul_le_mul_left gwei (sum_creditSats_le cfg tx)
  have hmap : (tx.output.zipIdx.map fun p => creditSats cfg tx p.2) =
      (List.range tx.output.length).map (creditSats cfg tx) := by
    rw [List.range_eq_range', ← List.zipIdx_map_snd 0 tx.output, List.map_map]
    rfl
  have hstart : TxRun.wei ⟨w, receipts, {}⟩ = w.total := by simp [TxRun.wei, withdrawnSats]
  rw [hmap, hstart] at h
  omega

/-! ### Blocks -/

/-- What the accounts hold and what the block withdrew, in wei. -/
def BlockRun.wei (b : BlockRun) : ℕ := b.world.total + gwei * withdrawnSats b.withdrawals

theorem runTxs_backed (hm : Machine.Conserves) : ∀ {l : List (Transaction × ℕ)} {b : BlockRun},
    (runTxs cfg env l b).wei ≤ b.wei + gwei * (l.map fun p => txDeposits cfg p.1).sum
  | [], b => by simp [runTxs]
  | (tx, i) :: rest, b => by
    have hone : (applyTx cfg b.world tx env b.receipts).wei ≤ b.world.total +
        gwei * txDeposits cfg tx := applyTx_backed hm _ _
    rw [List.map_cons, List.sum_cons, Nat.mul_add]
    unfold TxRun.wei at hone
    unfold runTxs
    dsimp only
    split
    · unfold BlockRun.wei
      dsimp only
      omega
    · have hrest := runTxs_backed hm (l := rest)
        (b := { world := (applyTx cfg b.world tx env b.receipts).world
                receipts := (applyTx cfg b.world tx env b.receipts).receipts
                hashes := b.hashes ++ (applyTx cfg b.world tx env b.receipts).out.hashes
                withdrawals :=
                  b.withdrawals ++ (applyTx cfg b.world tx env b.receipts).out.withdrawals })
      unfold BlockRun.wei at hrest ⊢
      rw [withdrawnSats_append, Nat.mul_add] at hrest
      dsimp only at hrest ⊢
      omega

/-- The sats of a block's deposits. -/
def deposited (cfg : EvmConfig) (txdata : List Transaction) : ℕ :=
  (txdata.map (txDeposits cfg)).sum

/-- **A block** adds at most its deposits and takes out what it withdraws. -/
theorem execute_backed (hm : Machine.Conserves) (cfg : EvmConfig) (w : World) (height : ℕ) (time : UInt32)
    (txdata : List Transaction) :
    (execute cfg w height time txdata).world.total +
        gwei * withdrawnSats (execute cfg w height time txdata).verdict.withdrawals ≤
      w.total + gwei * deposited cfg txdata := by
  have h : (runTxs cfg ⟨cfg.chainId, cfg.gasLimit, height, time⟩ (txdata.zipIdx.drop 1)
      { world := w }).wei ≤ BlockRun.wei { world := w } +
        gwei * ((txdata.zipIdx.drop 1).map fun p => txDeposits cfg p.1).sum := runTxs_backed hm
  have hstart : BlockRun.wei { world := w } = w.total := by simp [BlockRun.wei, withdrawnSats]
  -- the coinbase's outputs are not read
  have hdrop : ((txdata.zipIdx.drop 1).map fun p => txDeposits cfg p.1).sum ≤
      deposited cfg txdata := by
    have hmap : (txdata.zipIdx.map fun p => txDeposits cfg p.1) = txdata.map (txDeposits cfg) := by
      nth_rewrite 2 [← List.zipIdx_map_fst 0 txdata]
      rw [List.map_map]
      rfl
    rw [List.map_drop, hmap]
    unfold deposited
    cases txdata with
    | nil => simp
    | cons cb rest => simp
  have hle := Nat.mul_le_mul_left gwei hdrop
  rw [hstart] at h
  unfold BlockRun.wei at h
  unfold execute
  dsimp only
  omega

/-! ### Sequences of blocks -/

/-- What `prepare` and `commit` read of a block. -/
structure EvmBlock where
  hash : BlockHash
  height : ℕ
  time : UInt32
  txdata : List Transaction

/-- Blocks in order, each prepared, accepted and committed: the verdicts and the last state. -/
def replay (s : EvmState) : List EvmBlock → Option (List Verdict × EvmState)
  | [] => some ([], s)
  | b :: bs =>
    let (v, s') := s.prepare b.hash b.height b.time b.txdata
    if v.ok then (replay (s'.commit b.hash) bs).map fun (vs, t) => (v :: vs, t) else none

/-- A block accepted with nothing waiting was run, and its world is the one committed. -/
theorem prepare_commit {s : EvmState} (hp : s.pending = []) {b : EvmBlock}
    (hok : (s.prepare b.hash b.height b.time b.txdata).1.ok = true) :
    b.height = s.height + 1 ∧
    (s.prepare b.hash b.height b.time b.txdata).1 =
      (execute s.config s.world b.height b.time b.txdata).verdict ∧
    ((s.prepare b.hash b.height b.time b.txdata).2.commit b.hash).world =
      (execute s.config s.world b.height b.time b.txdata).world ∧
    ((s.prepare b.hash b.height b.time b.txdata).2.commit b.hash).pending = [] ∧
    ((s.prepare b.hash b.height b.time b.txdata).2.commit b.hash).config = s.config := by
  unfold EvmState.prepare at hok ⊢
  rw [hp] at hok ⊢
  simp only [List.find?_nil] at hok ⊢
  by_cases hheight : b.height = 0 ∨ b.height - 1 ≠ s.height
  · rw [if_pos hheight] at hok
    simp [Verdict.refused, Verdict.ok] at hok
  · rw [if_neg hheight] at hok ⊢
    simp only [] at hok
    refine ⟨by omega, rfl, ?_, ?_, ?_⟩ <;> simp [EvmState.commit, hok]

theorem replay_backed (hm : Machine.Conserves) : ∀ {blocks : List EvmBlock} {s t : EvmState}
    {vs : List Verdict}, s.pending = [] → replay s blocks = some (vs, t) →
    t.world.total + gwei * withdrawnSats (vs.flatMap Verdict.withdrawals) ≤
      s.world.total + gwei * (blocks.map fun b => deposited s.config b.txdata).sum
  | [], s, t, vs, _, h => by
    simp only [replay, Option.some.injEq, Prod.mk.injEq] at h
    simp [← h.1, ← h.2, withdrawnSats]
  | b :: bs, s, t, vs, hp, h => by
    unfold replay at h
    dsimp only at h
    split_ifs at h with hok
    obtain ⟨⟨vs', t'⟩, hrest, heq⟩ := Option.map_eq_some_iff.mp h
    obtain ⟨rfl, rfl⟩ := Prod.mk.inj heq
    obtain ⟨-, hv, hw, hp', hc⟩ := prepare_commit hp hok
    have hone := execute_backed hm s.config s.world b.height b.time b.txdata
    have ih := replay_backed hm hp' hrest
    rw [hw, hc] at ih
    rw [List.flatMap_cons, withdrawnSats_append, List.map_cons, List.sum_cons, hv]
    simp only [Nat.mul_add] at *
    omega

omit [Machine] [Bitcoin] in
/-- A reserve output is credited by the record after it and by no other. -/
theorem credits_injective {i j : ℕ} (hi : credits cfg tx i = true) (hj : credits cfg tx j = true)
    (h : i - 1 = j - 1) : i = j := by
  have hpos : ∀ k, credits cfg tx k = true → k ≠ 0 := by
    intro k hk h0
    subst h0
    simp [credits, reservePayment] at hk
  have := hpos i hi
  have := hpos j hj
  omega

/-- **The EVM is backed by its deposits.** Over every sequence of blocks that
are accepted and applied from the genesis, the balances in wei and the
withdrawn sats in gwei are at most the deposited sats in gwei; and no reserve
output is credited by two records. -/
theorem evm_backed (hm : Machine.Conserves) {blocks : List EvmBlock} {vs : List Verdict}
    {s : EvmState} (hrun : replay (EvmState.new cfg) blocks = some (vs, s)) :
    s.world.total + gwei * withdrawnSats (vs.flatMap Verdict.withdrawals) ≤
      gwei * (blocks.map fun b => deposited cfg b.txdata).sum ∧
    ∀ b ∈ blocks, ∀ tx ∈ b.txdata, ∀ i j, credits cfg tx i = true → credits cfg tx j = true →
      i - 1 = j - 1 → i = j := by
  refine ⟨?_, fun b _ tx _ i j hi hj h => credits_injective hi hj h⟩
  have h := replay_backed hm rfl hrun
  have hempty : (EvmState.new cfg).world.total = 0 := rfl
  have hcfg : (EvmState.new cfg).config = cfg := rfl
  rw [hempty, hcfg, Nat.zero_add] at h
  exact h

end

/-! ### A run with a deposit and a withdrawal -/

section

/-- An account with another balance and nonce. -/
def World.left (w : World) (a : Address) (balance nonces : ℕ) : AccountChange :=
  let acct := (w.accounts.lookup a).getD {}
  ⟨true, false, false, acct.nonce + nonces, balance, acct.codeHash, none, []⟩

/-- The gas of a transfer with 34 bytes of data, at one gwei. -/
def transferFee : ℕ := 21544 * gwei

/-- A transfer between two accounts; the fee is burned. -/
def World.transfer (w : World) (sender recipient : Address) (value : ℕ) : Option Ran :=
  if h : sender = recipient ∨ w.balance sender < value + transferFee then none
  else some ⟨true, 21544, [],
    ⟨[(sender, w.left sender (w.balance sender - (value + transferFee)) 1),
      (recipient, w.left recipient (w.balance recipient + value) 0)], by
      rw [not_or] at h
      simpa using h.1⟩⟩

/-- A machine of transfers. A byte is an envelope that sends as many gwei to
the withdrawal address; the root is the total. -/
@[reducible] def transferMachine : Machine where
  decode2718
    | [b] => some ⟨0, none, 0, some withdraw, BitVec.ofNat 256 (b.toNat * gwei),
        List.replicate 34 0x51, b.toNat⟩
    | _ => none
  recoverSigner _ := some 0xaa
  run w _ c := c.envelope.«to».bind fun a => w.transfer c.sender a c.envelope.value.toNat
  create a _ := a
  root w := BitVec.ofNat 256 w.total

attribute [local instance] transferMachine sampleBitcoin

theorem transferMachine_conserves : transferMachine.Conserves where
  sum w env c r h := by
    obtain ⟨a, -, h⟩ := Option.bind_eq_some_iff.mp h
    unfold World.transfer at h
    split_ifs at h with hne
    rw [not_or, not_lt] at hne
    rw [← Option.some.inj h]
    simp only [touchedTotal_cons, touchedTotal_nil, World.left, if_true]
    omega
  moved w env c r h _ hto := by
    obtain ⟨a, ha, h⟩ := Option.bind_eq_some_iff.mp h
    rw [hto, Option.some.injEq] at ha
    subst ha
    unfold World.transfer at h
    split_ifs at h
    rw [← Option.some.inj h]
    refine ⟨_, List.mem_cons_of_mem _ List.mem_cons_self, rfl, rfl, ?_⟩
    exact Nat.le_add_left _ _

def sampleConfig : EvmConfig := ⟨21474, 30000000, [0x51]⟩

/-- The coinbase commits a total and pays a script. -/
def sampleCoinbase (total : ℕ) (paid : List TxOut) : Transaction :=
  ⟨2, 0, [⟨OutPoint.null, [], 0xffffffff, []⟩],
    ⟨0, opReturn (rootPrefix ++ displayBytes (BitVec.ofNat 256 total))⟩ :: paid⟩

/-- Deposit 50,000 sats; withdraw three. -/
def depositAndWithdraw : List EvmBlock :=
  [⟨1, 1, 10, [sampleCoinbase (50000 * gwei) [],
    ⟨2, 0, [], [⟨50000, [0x51]⟩, ⟨0, opReturn (depositPrefix ++ List.replicate 19 0 ++ [0xaa])⟩]⟩]⟩,
   ⟨2, 2, 20, [sampleCoinbase (28453 * gwei) [⟨3, List.replicate 34 0x51⟩],
    ⟨2, 0, [], [⟨0, opReturn (carrierPrefix ++ [3])⟩]⟩]⟩]

set_option maxRecDepth 100000 in
/-- Three sats are withdrawn and 28,453 stay, of 50,000 deposited: the rest is the fee. -/
theorem evm_backed_sample : ∃ vs s, replay (EvmState.new sampleConfig) depositAndWithdraw =
      some (vs, s) ∧ s.world.total = 28453 * gwei ∧ withdrawnSats (vs.flatMap Verdict.withdrawals) = 3 ∧
    (depositAndWithdraw.map fun b => deposited sampleConfig b.txdata).sum = 50000 ∧
    s.world.total + gwei * withdrawnSats (vs.flatMap Verdict.withdrawals) ≤
      gwei * (depositAndWithdraw.map fun b => deposited sampleConfig b.txdata).sum := by
  have h : (replay (EvmState.new sampleConfig) depositAndWithdraw).any (fun r =>
      r.2.world.total == 28453 * gwei && withdrawnSats (r.1.flatMap Verdict.withdrawals) == 3) = true := by
    decide +kernel
  obtain ⟨⟨vs, s⟩, hrun, hp⟩ := (Option.any_eq_true _ _).mp h
  simp only [Bool.and_eq_true, beq_iff_eq] at hp
  exact ⟨vs, s, hrun, hp.1, hp.2, by decide +kernel, (evm_backed transferMachine_conserves hrun).1⟩

end

end Evm

end Sidestr
