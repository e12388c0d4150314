/-
# Payouts

The deposits are the teller's coins (`payout.rs`). A plan picks them largest
first until they pay the amount and the fee of a transaction with change; change
too small to keep is left to the fee. Signing gives each input one witness item
of 65 bytes and checks the fee against the signed size. The estimate is never
below that size, so the check never refuses. The fee of a transaction without
change is only tried once the fee with change is covered, so a payout that would
take everything held is refused (`payout_refused_iff`).

Key definitions: `planPayout`, `unsignedTx`, `signPayout`, `Planned`, `CoveredBy`.
Key theorems: `pickCoins_planned`, `pickCoins_notCovered`, `vsizeOf_le_estimate`,
`payout_refused_iff`.
-/
import Sidestr.Core.Sample
import Sidestr.Teller.Ledger
import Sidestr.Wallet.Spend

namespace Sidestr

namespace Teller

open Wallet (keyPathSighash keyPathHashType)

def dust : ℕ := 330

/-- In sat/vB. -/
def maxRate : ℕ := 1000

inductive PayoutError
  | amount
  | payoutTooSmall
  | rate
  | notCovered (held amount : ℕ)
  | encoding (what : String)
  | sighash (input : ℕ)
  | secret
  | scriptCheck (input : ℕ)
  | feeBelowRate (vsize fee rate : ℕ)
  deriving DecidableEq

/-- A deposit as a coin to spend. -/
structure DepositCoin where
  /-- 64 hex digits, display order. -/
  txid : Bytes
  vout : UInt32
  value : UInt64
  /-- Hex. -/
  script : Bytes
  /-- 64 hex digits. -/
  tweak : Bytes
  deriving DecidableEq

structure PlanOutput where
  value : ℕ
  /-- Hex. -/
  scriptPubkey : Bytes
  deriving DecidableEq

structure Plan where
  /-- Largest first. -/
  picked : List DepositCoin
  outputs : List PlanOutput
  fee : ℕ
  change : ℕ
  rate : ℕ
  deriving DecidableEq

structure PayoutParams where
  coins : List DepositCoin
  amount : ℕ
  rate : ℕ
  /-- Hex, as the next. -/
  toScript : Bytes
  changeScript : Bytes

/-- What the coins hold. -/
def held (coins : List DepositCoin) : ℕ := (coins.map fun c => c.value.toNat).sum

/-- A sum or product of 64 bits, where overflow is checked. -/
def u64 (n : ℕ) : Res PayoutError ℕ := if n ≤ Word.maxVal 64 then .ok n else .panic

def vsizeEstimate (inputs outputs : ℕ) : ℕ := 11 + 58 * inputs + 43 * outputs

/-- Coins in order until they pay. -/
def pickCoins (p : PayoutParams) : List DepositCoin → List DepositCoin → ℕ → Res PayoutError Plan
  | [], _, inSum => .err (.notCovered inSum p.amount)
  | c :: rest, before, sumBefore => do
    let picked := before ++ [c]
    let inSum := Word.satAdd 64 sumBefore c.value.toNat
    let fee ← u64 (p.rate * vsizeEstimate picked.length 2)
    let need ← u64 (p.amount + fee)
    if need ≤ inSum then
      if dust ≤ inSum - p.amount - fee then
        .ok ⟨picked, [⟨p.amount, p.toScript⟩, ⟨inSum - p.amount - fee, p.changeScript⟩], fee,
          inSum - p.amount - fee, p.rate⟩
      else do
        let fee1 ← u64 (p.rate * vsizeEstimate picked.length 1)
        let need1 ← u64 (p.amount + fee1)
        if need1 ≤ inSum then
          .ok ⟨picked, [⟨p.amount, p.toScript⟩], inSum - p.amount, 0, p.rate⟩
        else pickCoins p rest picked inSum
    else pickCoins p rest picked inSum

/-- The coins, largest first. -/
def largestFirst (coins : List DepositCoin) : List DepositCoin :=
  coins.insertionSort fun a b => b.value.toNat ≤ a.value.toNat

def planPayout (p : PayoutParams) : Res PayoutError Plan := do
  Res.refuseIf (decide (maxSats < p.amount)) .amount
  Res.refuseIf (decide (p.amount < minPay)) .payoutTooSmall
  Res.refuseIf (!(decide (1 ≤ p.rate) && decide (p.rate ≤ maxRate))) .rate
  pickCoins p (largestFirst p.coins) [] 0

/-! ### Signing -/

/-- What signs a payout: a deposit's secret from the operator's and its tweak,
and 64-byte signatures. -/
structure PayoutSigner where
  depositSecret : SecretKey → Bytes → Option SecretKey
  sign : SecretKey → Hash256 → { sig : Bytes // sig.length = 64 }

/-- The outputs the inputs spend. -/
def prevouts : List DepositCoin → Res PayoutError (List TxOut)
  | [] => .ok []
  | c :: coins => do
    let script ← Res.okOr (.encoding "coin script") (hexDecode c.script)
    let rest ← prevouts coins
    .ok (⟨c.value, script⟩ :: rest)

def planInputs : List DepositCoin → Res PayoutError (List TxIn)
  | [] => .ok []
  | c :: coins => do
    Res.refuseIf (!(c.txid.length == 64 && c.txid.all isHexDigit)) (.encoding "coin txid")
    let rest ← planInputs coins
    .ok (⟨⟨parseHash c.txid, c.vout⟩, [], 0xfffffffd, []⟩ :: rest)

def planOutputs : List PlanOutput → Res PayoutError (List TxOut)
  | [] => .ok []
  | o :: outputs => do
    let script ← Res.okOr (.encoding "output script") (hexDecode o.scriptPubkey)
    let rest ← planOutputs outputs
    .ok (⟨UInt64.ofNat o.value, script⟩ :: rest)

def unsignedTx (plan : Plan) : Res PayoutError Transaction := do
  let input ← planInputs plan.picked
  let output ← planOutputs plan.outputs
  .ok ⟨2, 0, input, output⟩

/-- The length of a count on the wire. -/
def countSize (n : ℕ) : ℕ :=
  if n ≤ 0xfc then 1 else if n ≤ 0xffff then 3 else if n ≤ 0xffffffff then 5 else 9

/-- The size without the witnesses. -/
def strippedSize (tx : Transaction) : ℕ :=
  8 + countSize tx.input.length + countSize tx.output.length +
    (tx.input.map fun i => 40 + countSize i.scriptSig.length + i.scriptSig.length).sum +
    (tx.output.map fun o => 8 + countSize o.scriptPubkey.length + o.scriptPubkey.length).sum

/-- The size of an input's witness. -/
def witnessSize (witness : List Bytes) : ℕ :=
  countSize witness.length + (witness.map fun w => countSize w.length + w.length).sum

/-- The size with the witnesses, when there are any. -/
def totalSize (tx : Transaction) : ℕ :=
  if tx.input.all fun i => i.witness.isEmpty then strippedSize tx
  else strippedSize tx + 2 + (tx.input.map fun i => witnessSize i.witness).sum

/-- `(3 × stripped + full) / 4`, rounded up. -/
def vsizeOf (tx : Transaction) : ℕ := (3 * strippedSize tx + totalSize tx + 3) / 4

section

variable [Bitcoin]

/-- The witness of every input, in order. -/
def signCoins (signer : PayoutSigner) (operator : SecretKey) (rules : SighashRules)
    (tx : Transaction) (spent : List TxOut) : ℕ → List DepositCoin → Res PayoutError (List (List Bytes))
  | _, [] => .ok []
  | i, c :: coins => do
    let m ← Res.okOr (.sighash i) (keyPathSighash tx i spent rules)
    let d ← Res.okOr .secret (signer.depositSecret operator c.tweak)
    let rest ← signCoins signer operator rules tx spent (i + 1) coins
    .ok ([(signer.sign d m).val ++ [keyPathHashType rules]] :: rest)

/-- The transaction with its witnesses, before the checks. -/
def signedTx (signer : PayoutSigner) (plan : Plan) (operator : SecretKey) (rules : SighashRules) :
    Res PayoutError (Transaction × List TxOut) := do
  let tx ← unsignedTx plan
  let spent ← prevouts plan.picked
  let witnesses ← signCoins signer operator rules tx spent 0 plan.picked
  .ok ({ tx with input := tx.input.zipWith (fun i w => { i with witness := w }) witnesses }, spent)

def signPayout (signer : PayoutSigner) (plan : Plan) (operator : SecretKey) (rules : SighashRules) :
    Res PayoutError Transaction := do
  let (tx, spent) ← signedTx signer plan operator rules
  match (List.range tx.input.length).find? fun i => !verifyTaprootKeyPath tx i spent rules with
  | some i => .err (.scriptCheck i)
  | none => do
    let needed ← u64 (plan.rate * vsizeOf tx)
    Res.refuseIf (decide (plan.fee < needed)) (.feeBelowRate (vsizeOf tx) plan.fee plan.rate)
    .ok tx

end

/-! ### What is picked -/

theorem held_append (a b : List DepositCoin) : held (a ++ b) = held a + held b := by
  unfold held
  rw [List.map_append, List.sum_append]

theorem held_cons (c : DepositCoin) (cs : List DepositCoin) :
    held (c :: cs) = c.value.toNat + held cs := by
  unfold held
  rw [List.map_cons, List.sum_cons]

theorem held_largestFirst (coins : List DepositCoin) : held (largestFirst coins) = held coins :=
  ((List.perm_insertionSort _ coins).map _).sum_eq

theorem length_largestFirst (coins : List DepositCoin) :
    (largestFirst coins).length = coins.length := List.length_insertionSort _ coins

theorem u64_ok {n : ℕ} (h : n ≤ Word.maxVal 64) : u64 n = .ok n := if_pos h

theorem u64_panic {n : ℕ} (h : ¬ n ≤ Word.maxVal 64) : u64 n = .panic := if_neg h

/-- The amount and the fee of a transaction with change, at so many coins. -/
def needWithChange (p : PayoutParams) (k : ℕ) : ℕ := p.amount + p.rate * vsizeEstimate k 2

theorem vsizeEstimate_mono {k k' m m' : ℕ} (hk : k ≤ k') (hm : m ≤ m') :
    vsizeEstimate k m ≤ vsizeEstimate k' m' := by
  unfold vsizeEstimate
  omega

theorem needWithChange_mono (p : PayoutParams) {k k' : ℕ} (h : k ≤ k') :
    needWithChange p k ≤ needWithChange p k' :=
  Nat.add_le_add_left (Nat.mul_le_mul_left _ (vsizeEstimate_mono h (Nat.le_refl 2))) _

/-- The plan that these coins pay for, once they pay for one with change. -/
def planOf (p : PayoutParams) (picked : List DepositCoin) : Plan :=
  if dust ≤ held picked - needWithChange p picked.length then
    ⟨picked, [⟨p.amount, p.toScript⟩, ⟨held picked - needWithChange p picked.length, p.changeScript⟩],
      p.rate * vsizeEstimate picked.length 2, held picked - needWithChange p picked.length, p.rate⟩
  else ⟨picked, [⟨p.amount, p.toScript⟩], held picked - p.amount, 0, p.rate⟩

/-- What one more coin does: the plan, the next coin, or an overflow. -/
theorem pickCoins_cons {p : PayoutParams} {c : DepositCoin} {rest before : List DepositCoin}
    (hfit : held (before ++ [c]) ≤ Word.maxVal 64) :
    pickCoins p (c :: rest) before (held before) =
      if needWithChange p (before ++ [c]).length ≤ Word.maxVal 64 then
        if needWithChange p (before ++ [c]).length ≤ held (before ++ [c]) then
          .ok (planOf p (before ++ [c]))
        else pickCoins p rest (before ++ [c]) (held (before ++ [c]))
      else .panic := by
  have hsum : Word.satAdd 64 (held before) c.value.toNat = held (before ++ [c]) := by
    have hone : held [c] = c.value.toNat := held_cons c []
    rw [held_append, hone] at hfit ⊢
    exact Nat.min_eq_left hfit
  rw [pickCoins, hsum]
  generalize hp : before ++ [c] = picked at *
  have hdef : p.amount + p.rate * vsizeEstimate picked.length 2 = needWithChange p picked.length :=
    rfl
  by_cases hneed : needWithChange p picked.length ≤ Word.maxVal 64
  · rw [if_pos hneed]
    have hfee : p.rate * vsizeEstimate picked.length 2 ≤ Word.maxVal 64 :=
      (Nat.le_add_left _ _).trans hneed
    rw [u64_ok hfee, Res.ok_bind, hdef, u64_ok hneed, Res.ok_bind]
    by_cases hcover : needWithChange p picked.length ≤ held picked
    · rw [if_pos hcover, if_pos hcover]
      unfold planOf
      have hsub : held picked - p.amount - p.rate * vsizeEstimate picked.length 2 =
          held picked - needWithChange p picked.length := Nat.sub_sub _ _ _
      rw [hsub]
      by_cases hdust : dust ≤ held picked - needWithChange p picked.length
      · rw [if_pos hdust, if_pos hdust]
      · rw [if_neg hdust, if_neg hdust]
        have hle := Nat.mul_le_mul_left p.rate
          (vsizeEstimate_mono (Nat.le_refl picked.length) (by decide : 1 ≤ 2))
        have hneed1 : p.amount + p.rate * vsizeEstimate picked.length 1 ≤
            needWithChange p picked.length := Nat.add_le_add_left hle _
        rw [u64_ok (hle.trans hfee), Res.ok_bind, u64_ok (hneed1.trans hneed), Res.ok_bind,
          if_pos (hneed1.trans hcover)]
    · rw [if_neg hcover, if_neg hcover]
  · rw [if_neg hneed]
    by_cases hfee : p.rate * vsizeEstimate picked.length 2 ≤ Word.maxVal 64
    · rw [u64_ok hfee, Res.ok_bind, hdef, u64_panic hneed, Res.panic_bind]
    · rw [u64_panic hfee, Res.panic_bind]

/-- A plan is that of the first coins that pay for one with change. -/
theorem pickCoins_ok {p : PayoutParams} {plan : Plan} : ∀ {rest before : List DepositCoin},
    held (before ++ rest) ≤ Word.maxVal 64 → pickCoins p rest before (held before) = .ok plan →
    ∃ pre post, rest = pre ++ post ∧ plan = planOf p (before ++ pre) ∧
      needWithChange p (before ++ pre).length ≤ held (before ++ pre)
  | [], _, _, h => by cases h
  | c :: rest, before, hfit, h => by
    have hall : before ++ c :: rest = (before ++ [c]) ++ rest := by
      rw [List.append_assoc, List.singleton_append]
    rw [hall] at hfit
    have hhead : held (before ++ [c]) ≤ Word.maxVal 64 := by
      rw [held_append] at hfit
      omega
    rw [pickCoins_cons hhead] at h
    split_ifs at h with hneed hcover
    · rw [Res.ok.injEq] at h
      exact ⟨[c], rest, rfl, h.symm, hcover⟩
    · obtain ⟨pre, post, rfl, hplan, hpaid⟩ := pickCoins_ok hfit h
      have hmove : before ++ [c] ++ pre = before ++ c :: pre := by
        rw [List.append_assoc, List.singleton_append]
      rw [hmove] at hplan hpaid
      exact ⟨c :: pre, post, rfl, hplan, hpaid⟩

/-- The coins are refused when none of them pay for a plan with change. -/
theorem pickCoins_notCovered {p : PayoutParams} : ∀ {rest before : List DepositCoin},
    held (before ++ rest) ≤ Word.maxVal 64 →
    ((∃ s a, pickCoins p rest before (held before) = .err (.notCovered s a)) ↔
      ∀ k < rest.length, needWithChange p (before.length + k + 1) ≤ Word.maxVal 64 ∧
        held (before ++ rest.take (k + 1)) < needWithChange p (before.length + k + 1))
  | [], before, _ => by
    refine ⟨fun _ k hk => absurd hk (Nat.not_lt_zero k), fun _ => ⟨held before, p.amount, rfl⟩⟩
  | c :: rest, before, hfit => by
    have hall : before ++ c :: rest = (before ++ [c]) ++ rest := by
      rw [List.append_assoc, List.singleton_append]
    rw [hall] at hfit
    have hhead : held (before ++ [c]) ≤ Word.maxVal 64 := by
      rw [held_append] at hfit
      omega
    have hlen : (before ++ [c]).length = before.length + 1 := List.length_append
    have ih := pickCoins_notCovered (p := p) hfit
    have hstep : ∀ k, held (before ++ (c :: rest).take (k + 1 + 1)) =
        held (before ++ [c] ++ rest.take (k + 1)) := by
      intro k
      rw [List.take_succ_cons, List.append_assoc, List.singleton_append]
    rw [pickCoins_cons hhead, hlen]
    constructor
    · rintro ⟨s, a, h⟩
      split_ifs at h with hneed hcover
      have hlater := ih.mp ⟨s, a, h⟩
      intro k hk
      cases k with
      | zero => exact ⟨hneed, Nat.lt_of_not_le hcover⟩
      | succ k =>
        have hnext := hlater k (Nat.lt_of_succ_lt_succ hk)
        have hcount : (before ++ [c]).length + k + 1 = before.length + (k + 1) + 1 := by omega
        rw [hcount] at hnext
        rw [hstep]
        exact hnext
    · intro h
      obtain ⟨hneed, hcover⟩ := h 0 (Nat.succ_pos _)
      have hnot : ¬ needWithChange p (before.length + 1) ≤ held (before ++ [c]) :=
        Nat.not_le.mpr hcover
      rw [if_pos hneed, if_neg hnot]
      refine ih.mpr fun k hk => ?_
      have hnext := h (k + 1) (Nat.succ_lt_succ hk)
      have hcount : (before ++ [c]).length + k + 1 = before.length + (k + 1) + 1 := by omega
      rw [hstep] at hnext
      rw [hcount]
      exact hnext

/-! ### Plans -/

/-- The first `k` coins pay the amount and the fee with so many outputs. -/
def CoveredBy (p : PayoutParams) (outputs k : ℕ) : Prop :=
  p.amount + p.rate * vsizeEstimate k outputs ≤ held ((largestFirst p.coins).take k)

/-- What the teller is asked for: coins of 64 bits, an amount it pays, a rate it
accepts, and scripts of 34 bytes. -/
structure Payable (p : PayoutParams) : Prop where
  coins : held p.coins ≤ Word.maxVal 64
  amount : minPay ≤ p.amount ∧ p.amount ≤ maxSats
  rate : 1 ≤ p.rate ∧ p.rate ≤ maxRate
  scripts : ∀ s ∈ [p.toScript, p.changeScript], ∃ b, hexDecode s = some b ∧ b.length = 34

theorem planPayout_eq {p : PayoutParams} (h : Payable p) :
    planPayout p = pickCoins p (largestFirst p.coins) [] (held []) := by
  unfold planPayout
  rw [decide_eq_false (Nat.not_lt.mpr h.amount.2), Res.refuseIf_false, Res.ok_bind,
    decide_eq_false (Nat.not_lt.mpr h.amount.1), Res.refuseIf_false, Res.ok_bind,
    decide_eq_true h.rate.1, decide_eq_true h.rate.2]
  rfl

/-- What a plan is. -/
structure Planned (p : PayoutParams) (plan : Plan) : Prop where
  picked : ∃ k, plan.picked = (largestFirst p.coins).take k
  outputs : plan.outputs = ⟨p.amount, p.toScript⟩ ::
    if plan.change = 0 then [] else [⟨plan.change, p.changeScript⟩]
  balanced : held plan.picked = (plan.outputs.map PlanOutput.value).sum + plan.fee
  change : plan.change = 0 ∨ dust ≤ plan.change
  rate : plan.rate = p.rate
  /-- The fee is not below the estimate's. -/
  enough : p.rate * vsizeEstimate plan.picked.length plan.outputs.length ≤ plan.fee

theorem planOf_planned {p : PayoutParams} {pre post : List DepositCoin}
    (hsplit : largestFirst p.coins = pre ++ post) (hpaid : needWithChange p pre.length ≤ held pre) :
    Planned p (planOf p pre) := by
  have hpre : pre = (largestFirst p.coins).take pre.length := by rw [hsplit, List.take_left]
  have hneed : needWithChange p pre.length = p.amount + p.rate * vsizeEstimate pre.length 2 := rfl
  unfold planOf
  split_ifs with hdust
  · have hne : held pre - needWithChange p pre.length ≠ 0 := by
      unfold dust at hdust
      omega
    refine ⟨⟨_, hpre⟩, by rw [if_neg hne], ?_, .inr hdust, rfl, Nat.le_refl _⟩
    simp only [List.map_cons, List.map_nil, List.sum_cons, List.sum_nil]
    omega
  · refine ⟨⟨_, hpre⟩, by rw [if_pos rfl], ?_, .inl rfl, rfl, ?_⟩
    · simp only [List.map_cons, List.map_nil, List.sum_cons, List.sum_nil]
      omega
    · have hle := Nat.mul_le_mul_left p.rate
        (vsizeEstimate_mono (Nat.le_refl pre.length) (by decide : 1 ≤ 2))
      change p.rate * vsizeEstimate pre.length 1 ≤ held pre - p.amount
      omega

theorem planPayout_planned {p : PayoutParams} {plan : Plan} (h : Payable p)
    (hplan : planPayout p = .ok plan) : Planned p plan := by
  rw [planPayout_eq h] at hplan
  have hfit : held ([] ++ largestFirst p.coins) ≤ Word.maxVal 64 := by
    rw [List.nil_append, held_largestFirst]
    exact h.coins
  obtain ⟨pre, post, hsplit, rfl, hpaid⟩ := pickCoins_ok hfit hplan
  exact planOf_planned hsplit hpaid

theorem not_coveredBy_zero {p : PayoutParams} (h : Payable p) (m : ℕ) : ¬ CoveredBy p m 0 := by
  have hpos := h.amount.1
  unfold CoveredBy
  rw [List.take_zero]
  unfold minPay at hpos
  change ¬ _ ≤ 0
  omega

/-- A payout is refused for its coins when no number of them pays for a plan with
change. -/
theorem planPayout_notCovered {p : PayoutParams} (h : Payable p) :
    (∃ s a, planPayout p = .err (.notCovered s a)) ↔ ∀ k, 0 < k → k ≤ p.coins.length →
      needWithChange p k ≤ Word.maxVal 64 ∧ ¬ CoveredBy p 2 k := by
  have hfit : held ([] ++ largestFirst p.coins) ≤ Word.maxVal 64 := by
    rw [List.nil_append, held_largestFirst]
    exact h.coins
  have hiff := @pickCoins_notCovered p _ [] hfit
  rw [planPayout_eq h, hiff, length_largestFirst]
  constructor
  · intro hall k hpos hle
    obtain ⟨j, rfl⟩ : ∃ j, k = j + 1 := ⟨k - 1, by omega⟩
    obtain ⟨hneed, hlt⟩ := hall j hle
    rw [List.length_nil, Nat.zero_add] at hneed hlt
    exact ⟨hneed, Nat.not_le.mpr hlt⟩
  · intro hall k hk
    obtain ⟨hneed, hnot⟩ := hall (k + 1) (Nat.succ_pos k) hk
    rw [List.length_nil, Nat.zero_add]
    exact ⟨hneed, Nat.lt_of_not_le hnot⟩

/-! ### The signed size -/

theorem planInputs_ok : ∀ {coins : List DepositCoin} {input : List TxIn},
    planInputs coins = .ok input →
    input.length = coins.length ∧ ∀ i ∈ input, i.scriptSig = []
  | [], _, h => by
    cases h
    exact ⟨rfl, fun _ hi => absurd hi List.not_mem_nil⟩
  | c :: coins, input, h => by
    unfold planInputs at h
    obtain ⟨_, htxid, h⟩ := Res.bind_eq_ok.mp h
    obtain ⟨rest, hrest, h⟩ := Res.bind_eq_ok.mp h
    obtain ⟨hlen, hsigs⟩ := planInputs_ok hrest
    rw [Res.ok.injEq] at h
    subst h
    refine ⟨by rw [List.length_cons, List.length_cons, hlen], fun i hi => ?_⟩
    rcases List.mem_cons.mp hi with rfl | hi
    · rfl
    · exact hsigs i hi

theorem planOutputs_ok : ∀ {outputs : List PlanOutput} {output : List TxOut},
    (∀ o ∈ outputs, ∃ b, hexDecode o.scriptPubkey = some b ∧ b.length = 34) →
    planOutputs outputs = .ok output →
    output.length = outputs.length ∧ ∀ o ∈ output, o.scriptPubkey.length = 34
  | [], _, _, h => by
    cases h
    exact ⟨rfl, fun _ ho => absurd ho List.not_mem_nil⟩
  | o :: outputs, output, hscripts, h => by
    unfold planOutputs at h
    obtain ⟨script, hscript, h⟩ := Res.bind_eq_ok.mp h
    obtain ⟨rest, hrest, h⟩ := Res.bind_eq_ok.mp h
    obtain ⟨hlen, hall⟩ := planOutputs_ok (fun x hx => hscripts x (List.mem_cons_of_mem _ hx)) hrest
    obtain ⟨b, hb, hsize⟩ := hscripts o List.mem_cons_self
    rw [Res.okOr_eq_ok, hb, Option.some.injEq] at hscript
    rw [Res.ok.injEq] at h
    subst h
    refine ⟨by rw [List.length_cons, List.length_cons, hlen], fun x hx => ?_⟩
    rcases List.mem_cons.mp hx with rfl | hx
    · rw [← hscript]
      exact hsize
    · exact hall x hx

section

variable [Bitcoin] {signer : PayoutSigner} {operator : SecretKey} {rules : SighashRules}

theorem signCoins_ok {tx : Transaction} {spent : List TxOut} : ∀ {i : ℕ} {coins : List DepositCoin}
    {ws : List (List Bytes)}, signCoins signer operator rules tx spent i coins = .ok ws →
    ws.length = coins.length ∧ ∀ w ∈ ws, w.map List.length = [65]
  | _, [], _, h => by
    cases h
    exact ⟨rfl, fun _ hw => absurd hw List.not_mem_nil⟩
  | i, c :: coins, ws, h => by
    unfold signCoins at h
    obtain ⟨m, hm, h⟩ := Res.bind_eq_ok.mp h
    obtain ⟨d, hd, h⟩ := Res.bind_eq_ok.mp h
    obtain ⟨rest, hrest, h⟩ := Res.bind_eq_ok.mp h
    obtain ⟨hlen, hall⟩ := signCoins_ok hrest
    rw [Res.ok.injEq] at h
    subst h
    refine ⟨by rw [List.length_cons, List.length_cons, hlen], fun w hw => ?_⟩
    rcases List.mem_cons.mp hw with rfl | hw
    · rw [List.map_singleton, List.length_append, (signer.sign d m).property]
      rfl
    · exact hall w hw

end

/-- Inputs given a witness of one 65-byte item each. -/
theorem zipWith_sizes : ∀ {ins : List TxIn} {ws : List (List Bytes)}, ws.length = ins.length →
    (∀ i ∈ ins, i.scriptSig = []) → (∀ w ∈ ws, w.map List.length = [65]) →
    (ins.zipWith (fun i w => { i with witness := w }) ws).length = ins.length ∧
      ∀ i ∈ ins.zipWith (fun i w => { i with witness := w }) ws,
        i.scriptSig = [] ∧ i.witness.map List.length = [65]
  | [], _, _, _, _ => ⟨rfl, fun _ hi => absurd hi List.not_mem_nil⟩
  | i :: ins, [], hlen, _, _ => by cases hlen
  | i :: ins, w :: ws, hlen, hsigs, hws => by
    obtain ⟨hcount, hall⟩ := zipWith_sizes (Nat.succ.inj hlen)
      (fun x hx => hsigs x (List.mem_cons_of_mem _ hx)) (fun x hx => hws x (List.mem_cons_of_mem _ hx))
    rw [List.zipWith_cons_cons, List.length_cons, List.length_cons, hcount]
    refine ⟨rfl, fun x hx => ?_⟩
    rcases List.mem_cons.mp hx with rfl | hx
    · exact ⟨hsigs i List.mem_cons_self, hws w List.mem_cons_self⟩
    · exact hall x hx

theorem sum_map_const_of {α : Type} {f : α → ℕ} {n : ℕ} {l : List α} (h : ∀ x ∈ l, f x = n) :
    (l.map f).sum = l.length * n := by
  rw [List.map_congr_left h, List.map_const', List.sum_replicate_nat]

/-- A transaction of key-path inputs and taproot outputs is not above its
estimate. -/
theorem vsizeOf_le_estimate {tx : Transaction} (houtputs : tx.output.length ≤ 2)
    (hin : ∀ i ∈ tx.input, i.scriptSig = [] ∧ i.witness.map List.length = [65])
    (hout : ∀ o ∈ tx.output, o.scriptPubkey.length = 34) :
    vsizeOf tx ≤ vsizeEstimate tx.input.length tx.output.length := by
  have hins : (tx.input.map fun i => 40 + countSize i.scriptSig.length + i.scriptSig.length).sum =
      tx.input.length * 41 := by
    apply sum_map_const_of
    intro i hi
    rw [(hin i hi).1]
    rfl
  have houts : (tx.output.map fun o => 8 + countSize o.scriptPubkey.length +
      o.scriptPubkey.length).sum = tx.output.length * 43 := by
    apply sum_map_const_of
    intro o ho
    rw [hout o ho]
    rfl
  have hwits : (tx.input.map fun i => witnessSize i.witness).sum = tx.input.length * 67 := by
    apply sum_map_const_of
    intro i hi
    obtain ⟨w, hw, hsize⟩ := List.map_eq_singleton_iff.mp (hin i hi).2
    unfold witnessSize
    rw [hw, List.map_singleton, hsize]
    rfl
  have hstripped : strippedSize tx = 8 + countSize tx.input.length + countSize tx.output.length +
      tx.input.length * 41 + tx.output.length * 43 := by
    unfold strippedSize
    rw [hins, houts]
  have htotal : totalSize tx ≤ strippedSize tx + 2 + tx.input.length * 67 := by
    unfold totalSize
    rw [hwits]
    split_ifs <;> omega
  have hone : countSize tx.output.length = 1 := if_pos (by omega)
  have hcount : 4 * countSize tx.input.length < 7 + tx.input.length := by
    unfold countSize
    split_ifs <;> omega
  unfold vsizeOf vsizeEstimate
  omega

/-- Not the refusal of a fee below its rate. -/
def NotBelow {α : Type} (r : Res PayoutError α) : Prop :=
  ∀ vsize fee rate, r ≠ .err (.feeBelowRate vsize fee rate)

theorem NotBelow.bind {α β : Type} {x : Res PayoutError α} {f : α → Res PayoutError β}
    (hx : NotBelow x) (hf : ∀ a, x = .ok a → NotBelow (f a)) : NotBelow (x >>= f) := by
  intro vsize fee rate
  cases hx' : x with
  | ok a => exact hf a hx' vsize fee rate
  | err e =>
    intro hc
    rw [Res.err_bind, Res.err.injEq] at hc
    exact hx vsize fee rate (hx'.trans (congrArg Res.err hc))
  | panic => exact fun hc => (by cases hc)

theorem notBelow_ok {α : Type} (a : α) : NotBelow (.ok a) := fun _ _ _ hc => (by cases hc)

theorem notBelow_refuseIf {b : Bool} {e : PayoutError}
    (he : ∀ vsize fee rate, e ≠ .feeBelowRate vsize fee rate) : NotBelow (Res.refuseIf b e) := by
  intro vsize fee rate hc
  unfold Res.refuseIf at hc
  split_ifs at hc
  exact he vsize fee rate (Res.err.inj hc)

theorem notBelow_okOr {α : Type} {o : Option α} {e : PayoutError}
    (he : ∀ vsize fee rate, e ≠ .feeBelowRate vsize fee rate) : NotBelow (Res.okOr e o) := by
  intro vsize fee rate hc
  cases o with
  | none => exact he vsize fee rate (Res.err.inj hc)
  | some a => cases hc

theorem notBelow_u64 (n : ℕ) : NotBelow (u64 n) := by
  intro vsize fee rate hc
  unfold u64 at hc
  split_ifs at hc

theorem notBelow_planInputs : ∀ coins, NotBelow (planInputs coins)
  | [] => notBelow_ok _
  | _ :: coins =>
    (notBelow_refuseIf fun _ _ _ hc => (by cases hc)).bind fun _ _ =>
      (notBelow_planInputs coins).bind fun _ _ => notBelow_ok _

theorem notBelow_planOutputs : ∀ outputs, NotBelow (planOutputs outputs)
  | [] => notBelow_ok _
  | _ :: outputs =>
    (notBelow_okOr fun _ _ _ hc => (by cases hc)).bind fun _ _ =>
      (notBelow_planOutputs outputs).bind fun _ _ => notBelow_ok _

theorem notBelow_prevouts : ∀ coins, NotBelow (prevouts coins)
  | [] => notBelow_ok _
  | _ :: coins =>
    (notBelow_okOr fun _ _ _ hc => (by cases hc)).bind fun _ _ =>
      (notBelow_prevouts coins).bind fun _ _ => notBelow_ok _

section

variable [Bitcoin] {signer : PayoutSigner} {operator : SecretKey} {rules : SighashRules}

theorem notBelow_signCoins {tx : Transaction} {spent : List TxOut} : ∀ i coins,
    NotBelow (signCoins signer operator rules tx spent i coins)
  | _, [] => notBelow_ok _
  | i, _ :: coins =>
    (notBelow_okOr fun _ _ _ hc => (by cases hc)).bind fun _ _ =>
      (notBelow_okOr fun _ _ _ hc => (by cases hc)).bind fun _ _ =>
        (notBelow_signCoins (i + 1) coins).bind fun _ _ => notBelow_ok _

theorem notBelow_signedTx (plan : Plan) : NotBelow (signedTx signer plan operator rules) := by
  have hunsigned : NotBelow (unsignedTx plan) :=
    (notBelow_planInputs _).bind fun _ _ => (notBelow_planOutputs _).bind fun _ _ => notBelow_ok _
  exact hunsigned.bind fun _ _ => (notBelow_prevouts _).bind fun _ _ =>
    (notBelow_signCoins _ _).bind fun _ _ => notBelow_ok _

theorem Planned.signed_size {p : PayoutParams} {plan : Plan} (h : Payable p) (hp : Planned p plan)
    {tx : Transaction} {spent : List TxOut}
    (hs : signedTx signer plan operator rules = .ok (tx, spent)) :
    vsizeOf tx ≤ vsizeEstimate plan.picked.length plan.outputs.length := by
  unfold signedTx at hs
  obtain ⟨tx₀, htx, hs⟩ := Res.bind_eq_ok.mp hs
  obtain ⟨spent', hspent, hs⟩ := Res.bind_eq_ok.mp hs
  obtain ⟨ws, hws, hs⟩ := Res.bind_eq_ok.mp hs
  rw [Res.ok.injEq, Prod.mk.injEq] at hs
  unfold unsignedTx at htx
  obtain ⟨input, hinput, htx⟩ := Res.bind_eq_ok.mp htx
  obtain ⟨output, houtput, htx⟩ := Res.bind_eq_ok.mp htx
  rw [Res.ok.injEq] at htx
  rw [← htx] at hs
  have hscripts : ∀ o ∈ plan.outputs, ∃ b, hexDecode o.scriptPubkey = some b ∧ b.length = 34 := by
    intro o ho
    apply h.scripts
    rw [hp.outputs, List.mem_cons] at ho
    rcases ho with rfl | ho
    · exact List.mem_cons_self
    · split_ifs at ho
      · exact absurd ho List.not_mem_nil
      · rw [List.mem_singleton] at ho
        rw [ho]
        exact List.mem_cons_of_mem _ List.mem_cons_self
  have htwo : plan.outputs.length ≤ 2 := by
    rw [hp.outputs]
    split_ifs
    · exact Nat.le_succ 1
    · exact Nat.le_refl 2
  obtain ⟨hinlen, hsigs⟩ := planInputs_ok hinput
  obtain ⟨houtlen, houts⟩ := planOutputs_ok hscripts houtput
  obtain ⟨hwlen, hwits⟩ := signCoins_ok hws
  obtain ⟨hziplen, hzip⟩ := zipWith_sizes (hwlen.trans hinlen.symm) hsigs hwits
  have hsize := @vsizeOf_le_estimate tx
  rw [← hs.1] at hsize ⊢
  dsimp only at hsize ⊢
  rw [hziplen, hinlen, houtlen] at hsize
  exact hsize htwo hzip houts

/-- The fee check of a signed plan passes. -/
theorem Planned.fee_enough {p : PayoutParams} {plan : Plan} (h : Payable p) (hp : Planned p plan)
    {tx : Transaction} {spent : List TxOut}
    (hs : signedTx signer plan operator rules = .ok (tx, spent)) :
    plan.rate * vsizeOf tx ≤ plan.fee := by
  rw [hp.rate]
  exact (Nat.mul_le_mul_left _ (hp.signed_size h hs)).trans hp.enough

/-- A signed plan is not refused for its fee. -/
theorem Planned.not_below {p : PayoutParams} {plan : Plan} (h : Payable p) (hp : Planned p plan) :
    NotBelow (signPayout signer plan operator rules) := by
  refine (notBelow_signedTx plan).bind fun ⟨tx, spent⟩ hs => ?_
  have hfee := hp.fee_enough h hs
  dsimp only
  split
  · exact fun _ _ _ hc => (by cases hc)
  · refine (notBelow_u64 _).bind fun needed hneeded => ?_
    have heq : needed = plan.rate * vsizeOf tx := by
      unfold u64 at hneeded
      split_ifs at hneeded
      exact (Res.ok.inj hneeded).symm
    rw [heq, decide_eq_false (Nat.not_lt.mpr hfee), Res.refuseIf_false, Res.ok_bind]
    exact notBelow_ok _

end

/-! ### When a payout is refused -/

/-- The coins are refused only when no number of them pays the amount and the fee
without change. -/
def RefusedOnlyUncovered (p : PayoutParams) : Prop :=
  ∀ s a, planPayout p = .err (.notCovered s a) → ∀ k ≤ p.coins.length, ¬ CoveredBy p 1 k

/-- Coins that pay without change pay with change, or the fee of all of them does
not fit in 64 bits. -/
def ChangeCovered (p : PayoutParams) : Prop :=
  (∃ k ≤ p.coins.length, CoveredBy p 1 k) → (∃ k ≤ p.coins.length, CoveredBy p 2 k) ∨
    Word.maxVal 64 < needWithChange p p.coins.length

theorem refusedOnlyUncovered_iff {p : PayoutParams} (h : Payable p) :
    RefusedOnlyUncovered p ↔ ChangeCovered p := by
  constructor
  · rintro hrefused ⟨k, hk, hcover⟩
    by_contra hnot
    rw [not_or, Nat.not_lt] at hnot
    obtain ⟨s, a, herr⟩ := (planPayout_notCovered h).mpr fun j _ hj =>
      ⟨(needWithChange_mono p hj).trans hnot.2, fun hc => hnot.1 ⟨j, hj, hc⟩⟩
    exact hrefused s a herr k hk hcover
  · intro hchange s a herr k hk hcover
    have hnone := (planPayout_notCovered h).mp ⟨s, a, herr⟩
    have hpositive : ∀ {m j}, CoveredBy p m j → 0 < j := by
      intro m j hc
      refine Nat.pos_of_ne_zero fun hzero => ?_
      rw [hzero] at hc
      exact not_coveredBy_zero h m hc
    rcases hchange ⟨k, hk, hcover⟩ with ⟨j, hj, hc⟩ | hbig
    · exact (hnone j (hpositive hc) hj).2 hc
    · have hfits := (hnone p.coins.length ((hpositive hcover).trans_le hk) (Nat.le_refl _)).1
      omega

/-- **Plans always pay, and are refused one output too late.** A plan balances,
leaves no dust, and is never refused for its fee once signed; and coins are
refused only when they cannot pay exactly when those that pay without change also
pay with it. -/
theorem payout_refused_iff [Bitcoin] (signer : PayoutSigner) (p : PayoutParams) (h : Payable p) :
    (∀ plan, planPayout p = .ok plan →
      held plan.picked = (plan.outputs.map PlanOutput.value).sum + plan.fee ∧
      (plan.change = 0 ∨ dust ≤ plan.change) ∧
      ∀ operator rules,
        (∀ tx spent, signedTx signer plan operator rules = .ok (tx, spent) →
          p.rate * vsizeOf tx ≤ plan.fee) ∧
        ∀ vsize fee rate,
          signPayout signer plan operator rules ≠ .err (.feeBelowRate vsize fee rate)) ∧
    (RefusedOnlyUncovered p ↔ ChangeCovered p) := by
  refine ⟨fun plan hplan => ?_, refusedOnlyUncovered_iff h⟩
  have hp := planPayout_planned h hplan
  refine ⟨hp.balanced, hp.change, fun operator rules => ⟨fun tx spent hs => ?_, hp.not_below h⟩⟩
  rw [← hp.rate]
  exact hp.fee_enough h hs

/-! ### A sample -/

/-- One coin, and what is asked of it. -/
def samplePayout (value : UInt64) : PayoutParams :=
  ⟨[⟨hexEncode (List.replicate 32 0x11), 0, value, hexEncode (0x51 :: 0x20 :: List.replicate 32 1),
      hexEncode (List.replicate 32 2)⟩], 10000, 1,
    hexEncode (0x51 :: 0x20 :: List.replicate 32 3), hexEncode (0x51 :: 0x20 :: List.replicate 32 4)⟩

theorem samplePayout_payable (value : UInt64) : Payable (samplePayout value) := by
  refine ⟨?_, (by decide : minPay ≤ 10000 ∧ 10000 ≤ maxSats), (by decide : 1 ≤ 1 ∧ 1 ≤ maxRate), ?_⟩
  · have hlt := value.toNat_lt
    change value.toNat + 0 ≤ Word.maxVal 64
    unfold Word.maxVal
    omega
  · intro s hs
    rw [List.mem_cons, List.mem_singleton] at hs
    rcases hs with rfl | rfl
    · exact ⟨_, hexDecode_hexEncode _, rfl⟩
    · exact ⟨_, hexDecode_hexEncode _, rfl⟩

/-- A coin that pays the amount and the fee without change, to the sat, is
refused. -/
theorem payout_exact_refused : ¬ ∀ p : PayoutParams, Payable p → RefusedOnlyUncovered p := by
  intro h
  have hrefused : planPayout (samplePayout 10112) = .err (.notCovered 10112 10000) := by decide
  have hcovered : CoveredBy (samplePayout 10112) 1 1 := by
    unfold CoveredBy
    decide
  exact h _ (samplePayout_payable 10112) _ _ hrefused 1 (Nat.le_refl 1) hcovered

theorem samplePayoutSig_length (key : SecretKey) (m : Hash256) :
    (sampleSig (sampleKey key) m).length = 64 := by
  rw [sampleSig, List.length_append, length_displayBytes, length_displayBytes]

/-- Signs with the operator's own key. -/
def samplePayoutSigner : PayoutSigner where
  depositSecret operator _ := some operator
  sign key m := ⟨sampleSig (sampleKey key) m, samplePayoutSig_length key m⟩

/-- A coin that pays with change is planned, and the plan balances. -/
theorem payout_refused_sample : RefusedOnlyUncovered (samplePayout 40000) ∧
    ∃ plan, planPayout (samplePayout 40000) = .ok plan ∧
      held plan.picked = (plan.outputs.map PlanOutput.value).sum + plan.fee := by
  have hall := @payout_refused_iff sampleBitcoin samplePayoutSigner _ (samplePayout_payable 40000)
  refine ⟨hall.2.mpr fun _ => .inl ⟨1, Nat.le_refl 1, ?_⟩, _, rfl, (hall.1 _ rfl).1⟩
  unfold CoveredBy
  decide

end Teller

end Sidestr
