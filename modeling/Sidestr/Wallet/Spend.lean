/-
# A spend balances

The wallet's two builders (`spend.rs assemble`, `compose.rs build_outputs`) and
what is under them: the coins that may be spent, the selection, the layout of
the outputs, the signing. Both size a draft of the transaction, charge the
size, and lay the outputs out again for that fee; the draft is never smaller
than what is signed, so the fee covers the signed size.

Key definitions: `select`, `layout`, `signInputs`, `assemble`, `buildOutputs`,
`Balances`.
Key theorems: `select_subperm`, `signInputs_kept`, `buildOutputs_laid`, `spends_balance`.
-/
import Mathlib.Data.List.Sort
import Mathlib.Data.List.Perm.Subperm
import Sidestr.Core.State
import Sidestr.Core.Records
import Sidestr.Wallet.Pegin

namespace Sidestr

namespace Wallet

/-! ### Coins -/

/-- An unspent output of the signer's script, as a producer lists it. -/
structure Coin where
  outpoint : OutPoint
  value : UInt64
  height : UInt32
  coinbase : Bool
  deriving DecidableEq, Repr

/-- A coinbase output may be spent this many blocks later. -/
def coinbaseMaturity : ℕ := ({} : Params).coinbaseMaturity

/-- Whether the coin may be spent in the block after the tip. -/
def Coin.isMature (c : Coin) (tipHeight : UInt32) : Bool :=
  !c.coinbase || decide (coinbaseMaturity ≤ (tipHeight + 1).toNat - c.height.toNat)

/-- The coins spendable in the next block, in the order given. -/
def mature (coins : List Coin) (tipHeight : UInt32) : List Coin :=
  coins.filter fun c => c.isMature tipHeight

/-- What the coins are worth. -/
def total (coins : List Coin) : ℕ := (coins.map fun c => c.value.toNat).sum

/-! ### Selection -/

/-- The fee that selection allows for before the transaction is sized. -/
def feeBound (minFeeRate : ℕ) : ℕ := Word.satMul 64 minFeeRate 200

/-- What selection picked. -/
structure Selection where
  picked : List Coin
  sum : ℕ
  deriving DecidableEq

/-- Take coins until they reach what is needed. -/
def pickUntil (need : ℕ) : List Coin → ℕ → List Coin → Res WalletError Selection
  | _, sum, [] => .err (.insufficient sum need)
  | picked, sum, c :: rest =>
    if need ≤ Word.satAdd 64 sum c.value.toNat then
      .ok ⟨picked ++ [c], Word.satAdd 64 sum c.value.toNat⟩
    else pickUntil need (picked ++ [c]) (Word.satAdd 64 sum c.value.toNat) rest

/-- The largest first, equal ones in the order given, until they cover the amount
and the bound. -/
def select (coins : List Coin) (amount bound : ℕ) : Res WalletError Selection :=
  pickUntil (Word.satAdd 64 amount bound) [] 0
    (coins.insertionSort fun a b => b.value.toNat ≤ a.value.toNat)

@[simp] theorem total_append (a b : List Coin) : total (a ++ b) = total a + total b := by
  unfold total
  rw [List.map_append, List.sum_append]

@[simp] theorem total_cons (c : Coin) (l : List Coin) : total (c :: l) = c.value.toNat + total l := by
  unfold total
  rw [List.map_cons, List.sum_cons]

/-- What is picked is the first of the coins. -/
theorem pickUntil_first {need : ℕ} : ∀ {l picked : List Coin} {sum : ℕ} {s : Selection},
    pickUntil need picked sum l = .ok s → s.picked <+: picked ++ l
  | [], picked, sum, s, h => by cases h
  | c :: rest, picked, sum, s, h => by
    have hsplit : picked ++ c :: rest = (picked ++ [c]) ++ rest := by
      rw [List.append_assoc, List.singleton_append]
    rw [pickUntil] at h
    rw [hsplit]
    split_ifs at h
    · rw [← Res.ok.inj h]
      exact List.prefix_append _ _
    · exact pickUntil_first h

/-- Where the coins' values fit 64 bits, what is picked is worth the sum. -/
theorem pickUntil_sum {need : ℕ} : ∀ {l picked : List Coin} {s : Selection},
    total picked + total l ≤ Word.maxVal 64 → pickUntil need picked (total picked) l = .ok s →
      s.sum = total s.picked
  | [], picked, s, _, h => by cases h
  | c :: rest, picked, s, hfit, h => by
    rw [total_cons] at hfit
    have hnext : total (picked ++ [c]) = total picked + c.value.toNat := by
      rw [total_append]
      rfl
    have hadd : Word.satAdd 64 (total picked) c.value.toNat = total (picked ++ [c]) := by
      rw [hnext, Word.satAdd_eq (by omega)]
    rw [pickUntil, hadd] at h
    split_ifs at h
    · rw [← Res.ok.inj h]
    · exact pickUntil_sum (by omega) h

/-- A selection takes some of the coins, each as often as it is listed at most. -/
theorem select_subperm {coins : List Coin} {amount bound : ℕ} {s : Selection}
    (h : select coins amount bound = .ok s) : s.picked.Subperm coins :=
  (pickUntil_first h).sublist.subperm.trans (List.perm_insertionSort _ coins).subperm

theorem select_sum {coins : List Coin} {amount bound : ℕ} {s : Selection}
    (hfit : total coins ≤ Word.maxVal 64) (h : select coins amount bound = .ok s) :
    s.sum = total s.picked := by
  have hperm := List.perm_insertionSort (fun a b : Coin => b.value.toNat ≤ a.value.toNat) coins
  have htotal : total (coins.insertionSort fun a b => b.value.toNat ≤ a.value.toNat) = total coins :=
    (hperm.map _).sum_eq
  refine pickUntil_sum ?_ h
  rw [htotal]
  exact (Nat.zero_add _).trans_le hfit

/-! ### Signing -/

/-- What signs for the wallet: its script, whether it signs elsewhere, and a
64-byte signature of a digest. -/
structure SpendSigner where
  script : Bytes
  signsElsewhere : Bool
  signKeyPath : Hash256 → Res WalletError { sig : Bytes // sig.length = 64 }

/-- The sighash rules of a parent's family. -/
def rulesFor : Family → SighashRules
  | .stock => .bip341
  | .blake2b => .knotsUnified

/-- The hash type a key-path signature carries. -/
def keyPathHashType : SighashRules → UInt8
  | .knotsUnified => 0x21
  | .bip341 => 0x01

/-- A witness of the size a key-path signature will have. -/
def placeholder : List Bytes := [List.replicate 65 0]

/-- The transaction that spends the coins, as it is sized. -/
def skeleton (spent : List Coin) (outputs : List TxOut) : Transaction :=
  ⟨2, 0, spent.map fun c => ⟨c.outpoint, [], 0xfffffffd, placeholder⟩, outputs⟩

/-- What the coins spent were. -/
def prevoutsOf (spent : List Coin) (me : Bytes) : List TxOut :=
  spent.map fun c => ⟨c.value, me⟩

section

variable [Bitcoin]

/-- The digest of a key-path spend of an input. -/
def keyPathSighash (tx : Transaction) (index : ℕ) (prevouts : List TxOut) (rules : SighashRules) :
    Option Hash256 :=
  match rules with
  | .knotsUnified => Bitcoin.unifiedSighash tx index prevouts none (keyPathHashType rules)
  | .bip341 =>
    if prevouts.length ≠ tx.input.length ∨ tx.input.length ≤ index then none
    else Bitcoin.taprootSighash tx index prevouts none (keyPathHashType rules)

/-- One input signed: the signature and its hash type. -/
def signInput (prevouts : List TxOut) (rules : SighashRules) (signer : SpendSigner)
    (tx : Transaction) (i : ℕ) : Res WalletError Transaction := do
  let digest ← Res.okOr (.signer "sighash failed") (keyPathSighash tx i prevouts rules)
  let sig ← signer.signKeyPath digest
  .ok { tx with input := tx.input.modify i fun input =>
    { input with witness := [sig.val ++ [keyPathHashType rules]] } }

/-- Sign every input on the key path, then verify each as a validator would. -/
def signInputs (tx : Transaction) (prevouts : List TxOut) (rules : SighashRules)
    (signer : SpendSigner) : Res WalletError Transaction :=
  if signer.signsElsewhere then
    .ok { tx with input := tx.input.map fun input => { input with witness := placeholder } }
  else do
    let signed ← Res.foldlM (signInput prevouts rules signer) tx (List.range tx.input.length)
    Res.refuseIf (!(List.range tx.input.length).all fun i =>
      verifyTaprootKeyPath signed i prevouts rules) (.signer "an input does not verify after signing")
    .ok signed

end

/-- The sizes of a transaction's inputs. -/
def inSizes (tx : Transaction) : List (ℕ × List ℕ) :=
  tx.input.map fun i => (i.scriptSig.length, i.witness.map List.length)

/-- The sizes of its outputs. -/
def outSizes (outputs : List TxOut) : List ℕ := outputs.map fun o => o.scriptPubkey.length

/-- The second transaction is the first with other witnesses of the same sizes. -/
structure Kept (tx tx' : Transaction) : Prop where
  output : tx'.output = tx.output
  spends : tx'.input.map TxIn.previousOutput = tx.input.map TxIn.previousOutput
  sizes : inSizes tx' = inSizes tx

/-- Every witness is one item of 65 bytes. -/
def KeyPathSized (tx : Transaction) : Prop := ∀ i ∈ tx.input, i.witness.map List.length = [65]

theorem map_modify_same {α β : Type} {f : α → β} {g : α → α} : ∀ {l : List α} (i : ℕ),
    (∀ x ∈ l, f (g x) = f x) → (l.modify i g).map f = l.map f
  | [], _, _ => by rw [List.modify_nil]
  | x :: l, 0, h => by
    rw [List.modify_zero_cons, List.map_cons, List.map_cons, h x List.mem_cons_self]
  | x :: l, i + 1, h => by
    rw [List.modify_succ_cons, List.map_cons, List.map_cons,
      map_modify_same i fun y hy => h y (List.mem_cons_of_mem _ hy)]

theorem KeyPathSized.of_kept {tx tx' : Transaction} (h : KeyPathSized tx) (k : Kept tx tx') :
    KeyPathSized tx' := by
  intro i hi
  have hmem : (i.scriptSig.length, i.witness.map List.length) ∈ inSizes tx := by
    rw [← k.sizes]
    exact List.mem_map_of_mem hi
  obtain ⟨j, hj, heq⟩ := List.mem_map.mp hmem
  exact (congrArg Prod.snd heq).symm.trans (h j hj)

theorem Kept.trans {a b c : Transaction} (h : Kept a b) (k : Kept b c) : Kept a c :=
  ⟨k.output.trans h.output, k.spends.trans h.spends, k.sizes.trans h.sizes⟩

/-- Any change of the witnesses to ones of 65 bytes. -/
theorem kept_of_witness {tx : Transaction} {inputs : List TxIn}
    (hspends : inputs.map TxIn.previousOutput = tx.input.map TxIn.previousOutput)
    (hsizes : (inputs.map fun i => (i.scriptSig.length, i.witness.map List.length)) = inSizes tx) :
    Kept tx { tx with input := inputs } :=
  ⟨rfl, hspends, hsizes⟩

section

variable [Bitcoin] {prevouts : List TxOut} {rules : SighashRules} {signer : SpendSigner}

/-- **Signing an input** puts 65 bytes where 65 bytes were. -/
theorem signInput_kept {tx tx' : Transaction} {i : ℕ} (hsized : KeyPathSized tx)
    (h : signInput prevouts rules signer tx i = .ok tx') : Kept tx tx' := by
  unfold signInput at h
  obtain ⟨digest, -, h⟩ := Res.bind_eq_ok.mp h
  obtain ⟨sig, -, h⟩ := Res.bind_eq_ok.mp h
  rw [← Res.ok.inj h]
  refine kept_of_witness (map_modify_same i fun _ _ => rfl) (map_modify_same i fun x hx => ?_)
  rw [hsized x hx]
  simp only [List.map_cons, List.map_nil, List.length_append, sig.property, List.length_cons,
    List.length_nil]

/-- **Signing keeps** everything but the witnesses, and their sizes. -/
theorem signInputs_kept {tx tx' : Transaction} (hsized : KeyPathSized tx)
    (h : signInputs tx prevouts rules signer = .ok tx') : Kept tx tx' := by
  unfold signInputs at h
  split_ifs at h
  · rw [← Res.ok.inj h]
    refine kept_of_witness ?_ ?_
    · rw [List.map_map]
      rfl
    · rw [List.map_map]
      refine List.map_congr_left fun i hi => ?_
      rw [hsized i hi]
      rfl
  · obtain ⟨signed, hloop, h⟩ := Res.bind_eq_ok.mp h
    obtain ⟨_, -, h⟩ := Res.bind_eq_ok.mp h
    rw [← Res.ok.inj h]
    exact Res.foldlM_ok_ind hloop ⟨rfl, rfl, rfl⟩ fun t i t' _ hk hstep =>
      hk.trans (signInput_kept (hsized.of_kept hk) hstep)

end

theorem skeleton_sized (spent : List Coin) (outputs : List TxOut) :
    KeyPathSized (skeleton spent outputs) := by
  intro i hi
  obtain ⟨c, -, rfl⟩ := List.mem_map.mp hi
  rfl

/-! ### The outputs for a fee -/

/-- Outputs laid out for a fee. -/
structure Laid where
  outputs : List TxOut
  change : ℕ
  fee : ℕ
  deriving DecidableEq

/-- What a policy weighs. -/
structure Intent where
  chainId : Bytes
  burn : Bool
  script : Bytes
  amount : ℕ
  fee : ℕ
  inputs : ℕ
  deriving DecidableEq

/-- A built, signed spend. -/
structure Spend where
  tx : Transaction
  hex : Bytes
  txid : Txid
  inputs : ℕ
  amount : ℕ
  fee : ℕ
  vsize : ℕ
  change : ℕ
  note : Option Bytes
  deriving DecidableEq

section

variable [Addresses]

/-- The named outputs and the change, when it is worth an output: below dust it
is left to the fee. -/
def withChange (named : List TxOut) (me : Bytes) (change f : ℕ) : Laid :=
  if 0 < change ∧ Addresses.minimalNonDust me ≤ change then
    ⟨named ++ [⟨UInt64.ofNat change, me⟩], change, f⟩
  else ⟨named, 0, f + change⟩

/-- The outputs for a fee. -/
def layout (named : List TxOut) (me : Bytes) (sum paid f : ℕ) : Res WalletError Laid :=
  match (Word.checkedSub sum paid).bind fun rest => Word.checkedSub rest f with
  | none => .err (.insufficientForFee paid f)
  | some change => .ok (withChange named me change f)

variable [Bitcoin]

omit [Addresses] in
/-- The fee of a draft's size; a product that does not fit ends the call. -/
def minFeeOf (rate : ℕ) (draft : Transaction) : Res WalletError ℕ :=
  if rate * StateOf.vsize draft ≤ Word.maxVal 64 then .ok (rate * StateOf.vsize draft) else .panic

/-- The outputs for the fee a draft needs, or for the one that was fixed. -/
def chargeFee (fee : Option UInt64) (rate minFee : ℕ) (draft : Transaction)
    (lay : ℕ → Res WalletError Laid) : Res WalletError Laid :=
  match fee with
  | none => lay minFee
  | some f =>
    if f.toNat < minFee then .err (.feeBelowMinimum f.toNat minFee (StateOf.vsize draft) rate)
    else lay f.toNat

/-- The end of both builders: the policy is asked, the inputs are signed, the
spend is reported. -/
def finish (intent : Intent) (note : Option Bytes) (spent : List Coin) (laid : Laid)
    (rules : SighashRules) (signer : SpendSigner) (policy : Intent → Option Bytes) :
    Res WalletError Spend :=
  match policy intent with
  | some why => .err (.policy why)
  | none => do
    let tx ← signInputs (skeleton spent laid.outputs) (prevoutsOf spent signer.script) rules signer
    .ok ⟨tx, hexEncode (Bitcoin.serialize tx), Bitcoin.computeTxid tx, tx.input.length,
      intent.amount, laid.fee, StateOf.vsize tx, laid.change, note⟩

/-! ### The builders -/

/-- What a spend, a burn and a deposit differ in. -/
structure Plan where
  burn : Bool
  outputScript : Bytes
  intentScript : Bytes
  marker : Option Bytes
  note : Option Bytes

omit [Bitcoin] [Addresses] in
/-- The outputs before the change: the amount, and its marker if any. -/
def Plan.named (plan : Plan) (amount : UInt64) : List TxOut :=
  ⟨amount, plan.outputScript⟩ :: (plan.marker.map fun m => (⟨0, m⟩ : TxOut)).toList

/-- One output and its marker, from the mature coins. -/
def assemble (chain : ChainDocument) (coins : List Coin) (tipHeight : UInt32) (amount : UInt64)
    (fee : Option UInt64) (signer : SpendSigner) (policy : Intent → Option Bytes) (plan : Plan) :
    Res WalletError Spend :=
  if amount = 0 then .err .badAmount
  else if amount.toNat < Addresses.minimalNonDust plan.outputScript then
    .err (.dust amount.toNat (Addresses.minimalNonDust plan.outputScript) plan.outputScript)
  else do
    let parent ← ofCore (resolveParent chain.parent)
    let rate := chain.minFeeRate.toNat
    let picked ← select (mature coins tipHeight) amount.toNat (fee.elim (feeBound rate) UInt64.toNat)
    let lay := layout (plan.named amount) signer.script picked.sum amount.toNat
    let first ← lay (fee.elim 0 UInt64.toNat)
    let draft := skeleton picked.picked first.outputs
    let minFee ← minFeeOf rate draft
    let laid ← chargeFee fee rate minFee draft lay
    finish ⟨chain.id, plan.burn, plan.intentScript, amount.toNat, laid.fee, picked.picked.length⟩
      plan.note picked.picked laid (rulesFor parent.family) signer policy

/-- What the second builder builds. -/
structure OutputsRequest where
  chain : ChainDocument
  coins : List Coin
  required : List Coin
  tipHeight : UInt32
  outputs : List (Bytes × UInt64)
  records : List Bytes
  fee : Option UInt64

omit [Bitcoin] in
/-- The outputs that were asked for, and what they pay: each above dust. -/
def nameOutputs : ℕ → List (Bytes × UInt64) → Res WalletError (ℕ × List TxOut)
  | paid, [] => .ok (paid, [])
  | paid, o :: rest =>
    if o.2.toNat < max (Addresses.minimalNonDust o.1) 1 then
      .err (.dust o.2.toNat (max (Addresses.minimalNonDust o.1) 1) o.1)
    else do
      let paid ← Res.okOr .badAmount (Word.checkedAdd 64 paid o.2.toNat)
      let named ← nameOutputs paid rest
      .ok (named.1, ⟨o.2, o.1⟩ :: named.2)

omit [Bitcoin] [Addresses] in
/-- `OP_RETURN` carrying a text of 1 to 255 bytes. -/
def recordScript (text : Bytes) : Res Error Bytes :=
  if text = [] ∨ maxRecord < text.length then .err (.encoding "a record is 1 to 255 bytes")
  else .ok (opReturn text)

omit [Bitcoin] [Addresses] in
/-- The records, an output each. -/
def nameRecords : List Bytes → Res WalletError (List TxOut)
  | [] => .ok []
  | text :: rest => do
    let script ← ofCore (recordScript text)
    let named ← nameRecords rest
    .ok (⟨0, script⟩ :: named)

omit [Bitcoin] [Addresses] in
/-- The mature coins that are not required. -/
def OutputsRequest.free (r : OutputsRequest) : List Coin :=
  (mature r.coins r.tipHeight).filter fun c => !r.required.any fun q => q.outpoint == c.outpoint

omit [Bitcoin] [Addresses] in
/-- What coins are worth together; a sum that does not fit ends the call. -/
def sumOf (coins : List Coin) : Res WalletError ℕ :=
  Res.expect (Word.checkedSum 64 0 (coins.map fun c => c.value.toNat))

omit [Bitcoin] [Addresses] in
/-- The coins spent besides the required ones: none when these cover the bound. -/
def OutputsRequest.extra (r : OutputsRequest) (paid requiredSum bound : ℕ) :
    Res WalletError (List Coin) :=
  if Word.satAdd 64 paid bound ≤ requiredSum then .ok []
  else do
    let picked ← select r.free (paid - requiredSum) bound
    .ok picked.picked

/-- One selection, sized with a change output and laid out: its fee floor, its
coins and its outputs. -/
def OutputsRequest.attempt (r : OutputsRequest) (me : Bytes) (named : List TxOut)
    (paid requiredSum bound : ℕ) : Res WalletError (ℕ × List Coin × Res WalletError Laid) := do
  let extra ← r.extra paid requiredSum bound
  let spent := r.required ++ extra
  let sum ← sumOf spent
  let rate := r.chain.minFeeRate.toNat
  let draft := skeleton spent (named ++ [⟨UInt64.ofNat (Addresses.minimalNonDust me), me⟩])
  let minFee ← minFeeOf rate draft
  .ok (minFee, spent, chargeFee r.fee rate minFee draft (layout named me sum paid))

omit [Bitcoin] [Addresses] in
/-- Whether the coins did not reach the fee. -/
def isShort : Res WalletError Laid → Bool
  | .err (.insufficientForFee _ _) => true
  | _ => false

/-- Select again for the fee that was missing, a few times at most. -/
def OutputsRequest.reselect (r : OutputsRequest) (me : Bytes) (named : List TxOut)
    (paid requiredSum : ℕ) : ℕ → ℕ → Res WalletError (List Coin × Laid)
  | 0, bound => do
    let tried ← r.attempt me named paid requiredSum bound
    let laid ← tried.2.2
    .ok (tried.2.1, laid)
  | left + 1, bound => do
    let tried ← r.attempt me named paid requiredSum bound
    if isShort tried.2.2 && r.fee.isNone then
      r.reselect me named paid requiredSum left
        (Word.satAdd 64 tried.1 (feeBound r.chain.minFeeRate.toNat))
    else do
      let laid ← tried.2.2
      .ok (tried.2.1, laid)

/-- Named outputs, then records, then change; the required coins first. -/
def buildOutputs (r : OutputsRequest) (signer : SpendSigner) (policy : Intent → Option Bytes) :
    Res WalletError Spend :=
  if r.outputs = [] ∧ r.records = [] then .err .badAmount
  else do
    let outputs ← nameOutputs 0 r.outputs
    let records ← nameRecords r.records
    let named := outputs.2 ++ records
    match r.required.find? fun c => !c.isMature r.tipHeight with
    | some _ => .err (.asset "a coinbase output not yet mature")
    | none => do
      let parent ← ofCore (resolveParent r.chain.parent)
      let requiredSum ← sumOf r.required
      let built ← r.reselect signer.script named outputs.1 requiredSum 4
        (r.fee.elim (feeBound r.chain.minFeeRate.toNat) UInt64.toNat)
      finish ⟨r.chain.id, false, (named.head?.map TxOut.scriptPubkey).getD [], outputs.1,
        built.2.fee, built.1.length⟩ none built.1 built.2 (rulesFor parent.family) signer policy

end

/-! ### What a spend guarantees -/

/-- A transaction's weight follows from the sizes of its inputs and outputs, and
more outputs weigh more. -/
def WeightBySizes [Bitcoin] : Prop :=
  ∀ a b : Transaction, inSizes a = inSizes b → outSizes a.output <+: outSizes b.output →
    Bitcoin.weight a ≤ Bitcoin.weight b

/-- What the outputs pay. -/
def paidBy (outputs : List TxOut) : ℕ := (outputs.map TxOut.sats).sum

/-- The spend of these coins: each once, mature, worth the outputs and the fee;
the fee clears the floor of the signed size; the named outputs in order, and
after them the change if any, above dust. -/
structure Balances [Bitcoin] [Addresses] (s : Spend) (spent : List Coin) (named : List TxOut)
    (me : Bytes) (rate : ℕ) (tipHeight : UInt32) : Prop where
  inputs : s.tx.input.map TxIn.previousOutput = spent.map Coin.outpoint
  once : (s.tx.input.map TxIn.previousOutput).Nodup
  mature : ∀ c ∈ spent, c.isMature tipHeight = true
  balance : total spent = paidBy s.tx.output + s.fee
  sized : s.vsize = StateOf.vsize s.tx
  floor : rate * StateOf.vsize s.tx ≤ s.fee
  outputs : (s.change = 0 ∧ s.tx.output = named) ∨
    (0 < s.change ∧ Addresses.minimalNonDust me ≤ s.change ∧
      ∃ o, s.tx.output = named ++ [o] ∧ o.sats = s.change ∧ o.scriptPubkey = me)

section

variable [Addresses] {named : List TxOut} {me : Bytes} {sum paid f change : ℕ} {laid : Laid}

theorem layout_eq_ok : layout named me sum paid f = .ok laid ↔
    paid + f ≤ sum ∧ laid = withChange named me (sum - paid - f) f := by
  unfold layout
  cases h : (Word.checkedSub sum paid).bind fun rest => Word.checkedSub rest f with
  | none =>
    refine iff_of_false (fun hc => by cases hc) fun hc => ?_
    rw [Option.bind_eq_none_iff] at h
    have hrest := h (sum - paid) (Word.checkedSub_eq_some.mpr ⟨by omega, rfl⟩)
    have hsome : Word.checkedSub (sum - paid) f = some (sum - paid - f) :=
      Word.checkedSub_eq_some.mpr ⟨by omega, rfl⟩
    rw [hsome] at hrest
    cases hrest
  | some left =>
    obtain ⟨rest, hrest, hleft⟩ := Option.bind_eq_some_iff.mp h
    obtain ⟨hle, rfl⟩ := Word.checkedSub_eq_some.mp hrest
    obtain ⟨hle', rfl⟩ := Word.checkedSub_eq_some.mp hleft
    exact ⟨fun hc => ⟨by omega, (Res.ok.inj hc).symm⟩, fun hc => by rw [hc.2]⟩

/-- **The layout accounts for the sum**: what is paid, the change and the fee. -/
theorem withChange_sum :
    (withChange named me change f).change + (withChange named me change f).fee = change + f := by
  unfold withChange
  split_ifs
  · rfl
  · exact (Nat.zero_add _).trans (Nat.add_comm _ _)

/-- A layout never charges less than it was asked to. -/
theorem le_withChange_fee : f ≤ (withChange named me change f).fee := by
  unfold withChange
  split_ifs
  · exact le_rfl
  · exact Nat.le_add_right _ _

theorem withChange_outputs (hfit : change ≤ Word.maxVal 64) :
    ((withChange named me change f).change = 0 ∧ (withChange named me change f).outputs = named) ∨
    (0 < (withChange named me change f).change ∧
      Addresses.minimalNonDust me ≤ (withChange named me change f).change ∧
      ∃ o, (withChange named me change f).outputs = named ++ [o] ∧
        o.sats = (withChange named me change f).change ∧ o.scriptPubkey = me) := by
  unfold withChange
  split_ifs with h
  · refine .inr ⟨h.1, h.2, _, rfl, ?_, rfl⟩
    exact UInt64.toNat_ofNat_of_lt' (Nat.lt_of_le_of_lt hfit (by decide))
  · exact .inl ⟨rfl, rfl⟩

omit [Addresses] in
theorem outSizes_append (a b : List TxOut) : outSizes (a ++ b) = outSizes a ++ outSizes b :=
  List.map_append

/-- A layout is no larger than the one with a change output of any value. -/
theorem withChange_le_change (o : TxOut) (ho : o.scriptPubkey = me) :
    outSizes (withChange named me change f).outputs <+: outSizes (named ++ [o]) := by
  unfold withChange
  split_ifs
  · rw [outSizes_append, outSizes_append]
    unfold outSizes
    rw [List.map_singleton, List.map_singleton, ho]
  · rw [outSizes_append]
    exact List.prefix_append _ _

/-- Less change makes no larger a layout. -/
theorem withChange_mono {change' f' : ℕ} (h : change ≤ change') :
    outSizes (withChange named me change f).outputs <+:
      outSizes (withChange named me change' f').outputs := by
  by_cases hc : 0 < change' ∧ Addresses.minimalNonDust me ≤ change'
  · rw [show withChange named me change' f' =
      ⟨named ++ [⟨UInt64.ofNat change', me⟩], change', f'⟩ from if_pos hc]
    exact withChange_le_change _ rfl
  · have hn : ¬ (0 < change ∧ Addresses.minimalNonDust me ≤ change) := fun hcc =>
      hc ⟨by omega, by omega⟩
    rw [show withChange named me change' f' = ⟨named, 0, f' + change'⟩ from if_neg hc,
      show withChange named me change f = ⟨named, 0, f + change⟩ from if_neg hn]

/-- **What is laid out balances**: the named outputs pay what is paid. -/
theorem layout_balance (hfit : sum ≤ Word.maxVal 64) (hpaid : paidBy named = paid)
    (h : layout named me sum paid f = .ok laid) : sum = paidBy laid.outputs + laid.fee := by
  obtain ⟨hle, rfl⟩ := layout_eq_ok.mp h
  have hsum : (withChange named me (sum - paid - f) f).change +
      (withChange named me (sum - paid - f) f).fee = sum - paid - f + f := withChange_sum
  have hrest : sum - paid - f ≤ Word.maxVal 64 := by omega
  rcases withChange_outputs hrest with ⟨hzero, hout⟩ | ⟨-, -, o, hout, hsats, -⟩
  · rw [hout, hpaid]
    omega
  · have happend : paidBy (named ++ [o]) = paidBy named + o.sats := by
      unfold paidBy
      rw [List.map_append, List.sum_append, List.map_singleton, List.sum_singleton]
    rw [hout, happend, hpaid, hsats]
    omega

end

section

variable [Bitcoin] [Addresses]

omit [Addresses] in
theorem minFeeOf_ok {rate fee : ℕ} {draft : Transaction} (h : minFeeOf rate draft = .ok fee) :
    fee = rate * StateOf.vsize draft := by
  unfold minFeeOf at h
  split_ifs at h
  exact (Res.ok.inj h).symm

omit [Addresses] in
/-- What is charged is the floor at least, and no less than a fixed fee. -/
theorem chargeFee_ok {fee : Option UInt64} {rate minFee : ℕ} {draft : Transaction}
    {lay : ℕ → Res WalletError Laid} {laid : Laid} (h : chargeFee fee rate minFee draft lay = .ok laid) :
    ∃ f, minFee ≤ f ∧ fee.elim 0 UInt64.toNat ≤ f ∧ lay f = .ok laid := by
  unfold chargeFee at h
  cases fee with
  | none => exact ⟨minFee, le_rfl, Nat.zero_le _, h⟩
  | some f =>
    dsimp only at h
    split_ifs at h with hlow
    exact ⟨f.toNat, Nat.not_lt.mp hlow, le_rfl, h⟩

/-- What stands before the end of a build: the coins to spend, and outputs laid out
for the fee of a draft that is no smaller. -/
structure LaidOut (spent : List Coin) (laid : Laid) (draft named : List TxOut) (me : Bytes)
    (rate : ℕ) (tipHeight : UInt32) : Prop where
  once : (spent.map Coin.outpoint).Nodup
  mature : ∀ c ∈ spent, c.isMature tipHeight = true
  balance : total spent = paidBy laid.outputs + laid.fee
  sizes : outSizes laid.outputs <+: outSizes draft
  floor : rate * StateOf.vsize (skeleton spent draft) ≤ laid.fee
  shape : (laid.change = 0 ∧ laid.outputs = named) ∨
    (0 < laid.change ∧ Addresses.minimalNonDust me ≤ laid.change ∧
      ∃ o, laid.outputs = named ++ [o] ∧ o.sats = laid.change ∧ o.scriptPubkey = me)

section

variable {intent : Intent} {note : Option Bytes} {spent : List Coin} {laid : Laid}
  {rules : SighashRules} {signer : SpendSigner} {policy : Intent → Option Bytes} {s : Spend}

omit [Addresses] in
/-- What was laid out is what is signed and reported. -/
theorem finish_kept (h : finish intent note spent laid rules signer policy = .ok s) :
    Kept (skeleton spent laid.outputs) s.tx ∧ s.fee = laid.fee ∧ s.change = laid.change ∧
      s.vsize = StateOf.vsize s.tx := by
  unfold finish at h
  split at h
  · cases h
  obtain ⟨tx, hsigned, h⟩ := Res.bind_eq_ok.mp h
  rw [← Res.ok.inj h]
  exact ⟨signInputs_kept (skeleton_sized spent laid.outputs) hsigned, rfl, rfl, rfl⟩

omit [Addresses] in
theorem finish_spends (h : finish intent note spent laid rules signer policy = .ok s) :
    s.tx.input.map TxIn.previousOutput = spent.map Coin.outpoint := by
  rw [(finish_kept h).1.spends, skeleton, List.map_map]
  rfl

/-- **The end of a build.** The fee of a draft's size covers the signed one. -/
theorem finish_balances (hweight : WeightBySizes) {draft named : List TxOut} {rate : ℕ}
    {tipHeight : UInt32} (h : finish intent note spent laid rules signer policy = .ok s)
    (hlaid : LaidOut spent laid draft named signer.script rate tipHeight) :
    Balances s spent named signer.script rate tipHeight := by
  obtain ⟨hkept, hfee, hchange, hsized⟩ := finish_kept h
  have hspends := finish_spends h
  have hout : s.tx.output = laid.outputs := hkept.output
  have hweigh : Bitcoin.weight s.tx ≤ Bitcoin.weight (skeleton spent draft) := by
    refine hweight _ _ (hkept.sizes.trans ?_) ?_
    · rfl
    · rw [hout]
      exact hlaid.sizes
  have hsize : StateOf.vsize s.tx ≤ StateOf.vsize (skeleton spent draft) :=
    Nat.div_le_div_right (Nat.add_le_add_right hweigh 3)
  refine ⟨hspends, hspends ▸ hlaid.once, hlaid.mature, ?_, hsized, ?_, ?_⟩
  · rw [hout, hfee]
    exact hlaid.balance
  · rw [hfee]
    exact (Nat.mul_le_mul_left rate hsize).trans hlaid.floor
  · rw [hout, hchange]
    exact hlaid.shape

end

/-! ### The two builders -/

omit [Bitcoin] [Addresses] in
theorem mem_of_subperm_free {r : OutputsRequest} {l : List Coin} (h : l.Subperm r.free) :
    (∀ c ∈ l, c ∈ r.coins) ∧ (∀ c ∈ l, c.isMature r.tipHeight = true) ∧
      ∀ c ∈ l, ∀ q ∈ r.required, q.outpoint ≠ c.outpoint := by
  have hmem : ∀ c ∈ l, c ∈ mature r.coins r.tipHeight ∧
      (!r.required.any fun q => q.outpoint == c.outpoint) = true :=
    fun c hc => List.mem_filter.mp (h.subset hc)
  refine ⟨fun c hc => (List.mem_filter.mp (hmem c hc).1).1,
    fun c hc => (List.mem_filter.mp (hmem c hc).1).2, fun c hc q hq heq => ?_⟩
  have hnone := (hmem c hc).2
  rw [Bool.not_eq_true', List.any_eq_false] at hnone
  exact hnone q hq (beq_iff_eq.mpr heq)

omit [Bitcoin] [Addresses] in
theorem nodup_of_subperm {l coins : List Coin} (h : l.Subperm coins)
    (hnodup : (coins.map Coin.outpoint).Nodup) : (l.map Coin.outpoint).Nodup := by
  obtain ⟨l', hperm, hsub⟩ := h
  exact (hperm.map _).nodup_iff.mp (hnodup.sublist (hsub.map _))

omit [Bitcoin] [Addresses] in
theorem total_le_of_subperm {l coins : List Coin} (h : l.Subperm coins) : total l ≤ total coins := by
  obtain ⟨l', hperm, hsub⟩ := h
  calc total l = total l' := ((hperm.map _).sum_eq).symm
    _ ≤ total coins := (hsub.map _).sum_le_sum fun _ _ => Nat.zero_le _

/-- **The first builder.** -/
theorem assemble_balances (hweight : WeightBySizes) {chain : ChainDocument} {coins : List Coin}
    {tipHeight : UInt32} {amount : UInt64} {fee : Option UInt64} {signer : SpendSigner}
    {policy : Intent → Option Bytes} {plan : Plan} {s : Spend}
    (hnodup : (coins.map Coin.outpoint).Nodup) (hfit : total coins ≤ Word.maxVal 64)
    (h : assemble chain coins tipHeight amount fee signer policy plan = .ok s) :
    ∃ spent : List Coin, (∀ c ∈ spent, c ∈ coins) ∧
      Balances s spent (plan.named amount) signer.script chain.minFeeRate.toNat tipHeight := by
  unfold assemble at h
  split_ifs at h
  obtain ⟨parent, -, h⟩ := Res.bind_eq_ok.mp h
  obtain ⟨picked, hpicked, h⟩ := Res.bind_eq_ok.mp h
  obtain ⟨first, hfirst, h⟩ := Res.bind_eq_ok.mp h
  obtain ⟨minFee, hmin, h⟩ := Res.bind_eq_ok.mp h
  obtain ⟨laid, hlaid, h⟩ := Res.bind_eq_ok.mp h
  have hmaturefit : total (mature coins tipHeight) ≤ Word.maxVal 64 :=
    (total_le_of_subperm List.filter_sublist.subperm).trans hfit
  have hsub := select_subperm hpicked
  have hsum := select_sum hmaturefit hpicked
  have hall : ∀ c ∈ picked.picked, c ∈ coins ∧ c.isMature tipHeight = true :=
    fun c hc => List.mem_filter.mp (hsub.subset hc)
  have hsumfit : picked.sum ≤ Word.maxVal 64 := by
    rw [hsum]
    exact (total_le_of_subperm hsub).trans hmaturefit
  have hpaid : paidBy (plan.named amount) = amount.toNat := by
    unfold paidBy Plan.named
    cases plan.marker <;> rfl
  obtain ⟨f, hfloor, hfixed, hlay⟩ := chargeFee_ok hlaid
  have hbalance := layout_balance hsumfit hpaid hlay
  obtain ⟨hle, heq⟩ := layout_eq_ok.mp hlay
  obtain ⟨-, hfirsteq⟩ := layout_eq_ok.mp hfirst
  have hdraft : outSizes laid.outputs <+: outSizes first.outputs := by
    rw [heq, hfirsteq]
    exact withChange_mono (by omega)
  refine ⟨picked.picked, fun c hc => (hall c hc).1, finish_balances hweight h
    ⟨nodup_of_subperm hsub (hnodup.sublist (List.filter_sublist.map _)),
      fun c hc => (hall c hc).2, hsum ▸ hbalance, hdraft, ?_, ?_⟩⟩
  · rw [← minFeeOf_ok hmin, heq]
    exact hfloor.trans le_withChange_fee
  · rw [heq]
    exact withChange_outputs (by omega)

omit [Bitcoin] in
/-- The named outputs are the ones asked for, and pay what was summed. -/
theorem nameOutputs_ok : ∀ {l : List (Bytes × UInt64)} {paid : ℕ} {r : ℕ × List TxOut},
    nameOutputs paid l = .ok r → r.2 = (l.map fun o => (⟨o.2, o.1⟩ : TxOut)) ∧
      r.1 = paid + paidBy r.2
  | [], paid, r, h => by
    rw [← Res.ok.inj h]
    exact ⟨rfl, rfl⟩
  | o :: rest, paid, r, h => by
    rw [nameOutputs] at h
    split_ifs at h
    obtain ⟨next, hnext, h⟩ := Res.bind_eq_ok.mp h
    obtain ⟨named, hnamed, h⟩ := Res.bind_eq_ok.mp h
    obtain ⟨hmap, hsum⟩ := nameOutputs_ok hnamed
    obtain ⟨hadd, -⟩ := Word.checkedAdd_eq_some.mp (Res.okOr_eq_ok.mp hnext)
    rw [← Res.ok.inj h]
    refine ⟨by rw [hmap, List.map_cons], ?_⟩
    have hcons : paidBy (⟨o.2, o.1⟩ :: named.2) = o.2.toNat + paidBy named.2 := by
      unfold paidBy
      rw [List.map_cons, List.sum_cons]
      rfl
    rw [hcons]
    omega

omit [Bitcoin] [Addresses] in
/-- Each record is its `OP_RETURN` output, of no value. -/
theorem nameRecords_ok : ∀ {l : List Bytes} {named : List TxOut}, nameRecords l = .ok named →
    named = l.map fun text => ⟨0, opReturn text⟩
  | [], named, h => (Res.ok.inj h).symm
  | text :: rest, named, h => by
    obtain ⟨script, hscript, h⟩ := Res.bind_eq_ok.mp h
    obtain ⟨tail, htail, h⟩ := Res.bind_eq_ok.mp h
    have hread : script = opReturn text := by
      unfold recordScript at hscript
      split_ifs at hscript
      · cases hscript
      · exact (Res.ok.inj hscript).symm
    rw [← Res.ok.inj h, nameRecords_ok htail, hread, List.map_cons]

omit [Bitcoin] [Addresses] in
theorem nameRecords_length : ∀ {l : List Bytes} {named : List TxOut}, nameRecords l = .ok named →
    ∀ text ∈ l, 1 ≤ text.length ∧ text.length ≤ 255
  | [], _, _, text, ht => by cases ht
  | first :: rest, named, h, text, ht => by
    obtain ⟨script, hscript, h⟩ := Res.bind_eq_ok.mp h
    obtain ⟨tail, htail, -⟩ := Res.bind_eq_ok.mp h
    rcases List.mem_cons.mp ht with rfl | ht
    · unfold recordScript at hscript
      split_ifs at hscript with hbad
      · cases hscript
      · rw [not_or, Nat.not_lt] at hbad
        exact ⟨List.length_pos_iff.mpr hbad.1, hbad.2⟩
    · exact nameRecords_length htail text ht

omit [Bitcoin] [Addresses] in
theorem paidBy_records (l : List Bytes) :
    paidBy (l.map fun text => (⟨0, opReturn text⟩ : TxOut)) = 0 := by
  unfold paidBy
  rw [List.map_map]
  exact List.sum_eq_zero fun n hn => by
    obtain ⟨_, -, rfl⟩ := List.mem_map.mp hn
    rfl

/-- The outputs a request names, in order: its payments and its records. -/
def OutputsRequest.named (r : OutputsRequest) : List TxOut :=
  (r.outputs.map fun o => ⟨o.2, o.1⟩) ++ r.records.map fun text => ⟨0, opReturn text⟩

omit [Bitcoin] [Addresses] in
theorem sumOf_ok {coins : List Coin} {sum : ℕ} (h : sumOf coins = .ok sum) :
    sum = total coins ∧ sum ≤ Word.maxVal 64 := by
  unfold sumOf at h
  cases hc : Word.checkedSum 64 0 (coins.map fun c => c.value.toNat) with
  | none =>
    rw [hc] at h
    cases h
  | some v =>
    rw [hc] at h
    obtain ⟨hsum, hfit⟩ := (Word.checkedSum_eq_some (Nat.zero_le _)).mp hc
    rw [← Res.ok.inj h]
    unfold total
    omega

omit [Bitcoin] [Addresses] in
theorem extra_ok {r : OutputsRequest} {paid requiredSum bound : ℕ} {extra : List Coin}
    (h : r.extra paid requiredSum bound = .ok extra) : extra.Subperm r.free := by
  unfold OutputsRequest.extra at h
  split_ifs at h
  · rw [← Res.ok.inj h]
    exact List.nil_subperm
  · obtain ⟨picked, hpicked, h⟩ := Res.bind_eq_ok.mp h
    rw [← Res.ok.inj h]
    exact select_subperm hpicked

/-- **A reselection** ends in one attempt whose layout succeeded. -/
theorem reselect_ok {r : OutputsRequest} {me : Bytes} {named : List TxOut} {paid requiredSum : ℕ} :
    ∀ {left bound : ℕ} {built : List Coin × Laid},
      r.reselect me named paid requiredSum left bound = .ok built →
        ∃ bound minFee, r.attempt me named paid requiredSum bound =
          .ok (minFee, built.1, .ok built.2)
  | 0, bound, built, h => by
    obtain ⟨tried, htried, h⟩ := Res.bind_eq_ok.mp h
    obtain ⟨laid, hlaid, h⟩ := Res.bind_eq_ok.mp h
    rw [← Res.ok.inj h]
    exact ⟨bound, tried.1, by rw [htried, ← hlaid]⟩
  | left + 1, bound, built, h => by
    obtain ⟨tried, htried, h⟩ := Res.bind_eq_ok.mp h
    split_ifs at h
    · exact reselect_ok h
    · obtain ⟨laid, hlaid, h⟩ := Res.bind_eq_ok.mp h
      rw [← Res.ok.inj h]
      exact ⟨bound, tried.1, by rw [htried, ← hlaid]⟩

/-- What the second builder ends with. -/
theorem buildOutputs_laid {r : OutputsRequest} {signer : SpendSigner}
    {policy : Intent → Option Bytes} {s : Spend} (hrequired : (r.required.map Coin.outpoint).Nodup)
    (hcoins : (r.coins.map Coin.outpoint).Nodup) (h : buildOutputs r signer policy = .ok s) :
    ∃ (extra : List Coin) (laid : Laid) (draft : List TxOut) (intent : Intent) (rules : SighashRules),
      (∀ c ∈ extra, c ∈ r.coins) ∧
      finish intent none (r.required ++ extra) laid rules signer policy = .ok s ∧
      LaidOut (r.required ++ extra) laid draft r.named signer.script r.chain.minFeeRate.toNat
        r.tipHeight := by
  unfold buildOutputs at h
  split_ifs at h
  obtain ⟨outputs, houtputs, h⟩ := Res.bind_eq_ok.mp h
  obtain ⟨records, hrecords, h⟩ := Res.bind_eq_ok.mp h
  split at h
  · cases h
  rename_i hnone
  obtain ⟨parent, -, h⟩ := Res.bind_eq_ok.mp h
  obtain ⟨requiredSum, -, h⟩ := Res.bind_eq_ok.mp h
  obtain ⟨built, hbuilt, h⟩ := Res.bind_eq_ok.mp h
  obtain ⟨bound, minFee, htried⟩ := reselect_ok hbuilt
  unfold OutputsRequest.attempt at htried
  obtain ⟨extra, hextra, htried⟩ := Res.bind_eq_ok.mp htried
  obtain ⟨sum, hsum, htried⟩ := Res.bind_eq_ok.mp htried
  obtain ⟨minFee', hmin, htried⟩ := Res.bind_eq_ok.mp htried
  obtain ⟨hminfee, hrest⟩ := Prod.mk.inj (Res.ok.inj htried)
  obtain ⟨hspent, hlaid⟩ := Prod.mk.inj hrest
  obtain ⟨heach, hpaid⟩ := nameOutputs_ok houtputs
  have hnamed : outputs.2 ++ records = r.named := by
    rw [heach, nameRecords_ok hrecords]
    rfl
  have hpays : paidBy r.named = outputs.1 := by
    rw [hpaid, Nat.zero_add, ← hnamed, nameRecords_ok hrecords]
    unfold paidBy
    rw [List.map_append, List.sum_append]
    exact congrArg (_ + ·) (paidBy_records r.records)
  have hfree := extra_ok hextra
  obtain ⟨hmem, hmatures, hapart⟩ := mem_of_subperm_free hfree
  obtain ⟨hsumeq, hsumfit⟩ := sumOf_ok hsum
  rw [hnamed] at hlaid
  obtain ⟨f, hfloor, -, hlay⟩ := chargeFee_ok hlaid
  have hbalance := layout_balance hsumfit hpays hlay
  obtain ⟨hle, heq⟩ := layout_eq_ok.mp hlay
  have hdraft : outSizes built.2.outputs <+:
      outSizes (r.named ++ [⟨UInt64.ofNat (Addresses.minimalNonDust signer.script), signer.script⟩]) := by
    rw [heq]
    exact withChange_le_change _ rfl
  have hfreenodup : (r.free.map Coin.outpoint).Nodup :=
    hcoins.sublist ((List.filter_sublist.trans List.filter_sublist).map _)
  rw [hspent] at hsumeq hmin
  refine ⟨extra, built.2, _, _, _, hmem, hspent ▸ h, ⟨?_, ?_, ?_, hdraft, ?_, ?_⟩⟩
  · rw [List.map_append, List.nodup_append']
    refine ⟨hrequired, nodup_of_subperm hfree hfreenodup, fun p hp hq => ?_⟩
    obtain ⟨q, hqr, rfl⟩ := List.mem_map.mp hp
    obtain ⟨c, hc, hqc⟩ := List.mem_map.mp hq
    exact hapart c hc q hqr hqc.symm
  · intro c hc
    rcases List.mem_append.mp hc with hc | hc
    · have hr := List.find?_eq_none.mp hnone c hc
      rw [Bool.not_eq_true', Bool.not_eq_false] at hr
      exact hr
    · exact hmatures c hc
  · rw [hspent]
    exact hsumeq ▸ hbalance
  · rw [hnamed] at hmin
    rw [hspent, ← minFeeOf_ok hmin, heq]
    exact hfloor.trans le_withChange_fee
  · rw [heq]
    exact withChange_outputs (by omega)

/-- **The second builder.** -/
theorem buildOutputs_balances (hweight : WeightBySizes) {r : OutputsRequest} {signer : SpendSigner}
    {policy : Intent → Option Bytes} {s : Spend} (hrequired : (r.required.map Coin.outpoint).Nodup)
    (hcoins : (r.coins.map Coin.outpoint).Nodup) (h : buildOutputs r signer policy = .ok s) :
    ∃ extra : List Coin, (∀ c ∈ extra, c ∈ r.coins) ∧
      Balances s (r.required ++ extra) r.named signer.script r.chain.minFeeRate.toNat r.tipHeight := by
  obtain ⟨extra, laid, draft, intent, rules, hmem, hend, hlaid⟩ :=
    buildOutputs_laid hrequired hcoins h
  exact ⟨extra, hmem, finish_balances hweight hend hlaid⟩

/-- What the second builder spends and pays, whatever a transaction weighs. -/
theorem buildOutputs_spends {r : OutputsRequest} {signer : SpendSigner}
    {policy : Intent → Option Bytes} {s : Spend} (hrequired : (r.required.map Coin.outpoint).Nodup)
    (hcoins : (r.coins.map Coin.outpoint).Nodup) (h : buildOutputs r signer policy = .ok s) :
    ∃ extra : List Coin, (∀ c ∈ extra, c ∈ r.coins) ∧
      s.tx.input.map TxIn.previousOutput = (r.required ++ extra).map Coin.outpoint ∧
      (s.tx.input.map TxIn.previousOutput).Nodup ∧
      (s.tx.output = r.named ∨ ∃ o, s.tx.output = r.named ++ [o] ∧ o.scriptPubkey = signer.script) := by
  obtain ⟨extra, laid, draft, intent, rules, hmem, hend, hlaid⟩ :=
    buildOutputs_laid hrequired hcoins h
  have hspends := finish_spends hend
  have hout : s.tx.output = laid.outputs := (finish_kept hend).1.output
  refine ⟨extra, hmem, hspends, hspends ▸ hlaid.once, ?_⟩
  rw [hout]
  rcases hlaid.shape with ⟨-, hnamed⟩ | ⟨-, -, o, hnamed, -, ho⟩
  · exact .inl hnamed
  · exact .inr ⟨o, hnamed, ho⟩

/-- Every record that is written is of 1 to 255 bytes. -/
theorem buildOutputs_records {r : OutputsRequest} {signer : SpendSigner}
    {policy : Intent → Option Bytes} {s : Spend} (h : buildOutputs r signer policy = .ok s) :
    ∀ text ∈ r.records, 1 ≤ text.length ∧ text.length ≤ 255 := by
  unfold buildOutputs at h
  split_ifs at h
  obtain ⟨outputs, -, h⟩ := Res.bind_eq_ok.mp h
  obtain ⟨records, hrecords, -⟩ := Res.bind_eq_ok.mp h
  exact nameRecords_length hrecords

/-- **A spend balances.** What either builder returns spends coins that were
listed, mature, each once, the required ones first; they are worth the outputs
and the fee; the fee clears the floor of the signed size; and the outputs are
the ones named and the change. -/
theorem spends_balance (hweight : WeightBySizes) (signer : SpendSigner)
    (policy : Intent → Option Bytes) :
    (∀ (chain : ChainDocument) (coins : List Coin) (tipHeight : UInt32) (amount : UInt64)
      (fee : Option UInt64) (plan : Plan) (s : Spend),
      (coins.map Coin.outpoint).Nodup → total coins < 2 ^ 64 →
      assemble chain coins tipHeight amount fee signer policy plan = .ok s →
        ∃ spent : List Coin, (∀ c ∈ spent, c ∈ coins) ∧
          Balances s spent (plan.named amount) signer.script chain.minFeeRate.toNat tipHeight) ∧
    ∀ (r : OutputsRequest) (s : Spend),
      (r.required.map Coin.outpoint).Nodup → (r.coins.map Coin.outpoint).Nodup →
      buildOutputs r signer policy = .ok s →
        ∃ extra : List Coin, (∀ c ∈ extra, c ∈ r.coins) ∧
          Balances s (r.required ++ extra) r.named signer.script r.chain.minFeeRate.toNat
            r.tipHeight :=
  ⟨fun _ _ _ _ _ _ _ hnodup hfit h => assemble_balances hweight hnodup (Nat.le_pred_of_lt hfit) h,
    fun _ _ hrequired hcoins h => buildOutputs_balances hweight hrequired hcoins h⟩

end

/-! ### A sample -/

attribute [local instance] sampleBitcoin sampleAddresses

theorem countLen_mono {a b : ℕ} (h : a ≤ b) : countLen a ≤ countLen b := by
  unfold countLen
  split_ifs <;> omega

/-- The sample's sizes without the witnesses, by the sizes of the parts. -/
theorem baseLen_eq (tx : Transaction) : baseLen tx = 8 + countLen (inSizes tx).length +
    countLen (outSizes tx.output).length +
    ((inSizes tx).map fun n => 40 + countLen n.1 + n.1).sum +
    ((outSizes tx.output).map fun n => 8 + countLen n + n).sum := by
  unfold baseLen inSizes outSizes
  rw [List.map_map, List.map_map, List.length_map, List.length_map]
  rfl

theorem witnessLen_eq (tx : Transaction) : witnessLen tx =
    if (inSizes tx).all fun n => n.2.isEmpty then 0
    else 2 + ((inSizes tx).map fun n => countLen n.2.length +
      (n.2.map fun w => countLen w + w).sum).sum := by
  have hall : ((inSizes tx).all fun n => n.2.isEmpty) = noWitness tx := by
    unfold inSizes noWitness
    rw [List.all_map]
    exact List.all_congr rfl fun i => List.isEmpty_map
  have hsum : ((inSizes tx).map fun n => countLen n.2.length +
      (n.2.map fun w => countLen w + w).sum) =
      tx.input.map fun i => countLen i.witness.length +
        (i.witness.map fun w => countLen w.length + w.length).sum := by
    unfold inSizes
    rw [List.map_map]
    refine List.map_congr_left fun i _ => ?_
    rw [Function.comp_apply, List.length_map, List.map_map]
    rfl
  rw [hall, hsum]
  rfl

theorem sampleWeight : WeightBySizes := by
  intro a b hin hout
  have hlen := countLen_mono hout.length_le
  have hsum := (hout.sublist.map fun n => 8 + countLen n + n).sum_le_sum fun _ _ => Nat.zero_le _
  show 4 * baseLen a + witnessLen a ≤ 4 * baseLen b + witnessLen b
  rw [baseLen_eq, baseLen_eq b, witnessLen_eq, witnessLen_eq b, hin]
  omega

theorem length_sampleSig (pk : Bytes) (msg : Hash256) : (sampleSig pk msg).length = 64 := rfl

/-- A signer with a key of its own. -/
def sampleSigner : SpendSigner where
  script := challengeFor (sampleKey 9)
  signsElsewhere := false
  signKeyPath msg := .ok ⟨sampleSig (sampleKey 9) msg, length_sampleSig _ _⟩

/-- Coins of 1000, 5000 and 2000 sats; the last is a coinbase output. -/
def sampleCoins : List Coin :=
  [⟨⟨1, 0⟩, 1000, 0, false⟩, ⟨⟨2, 0⟩, 5000, 3, false⟩, ⟨⟨3, 0⟩, 2000, 4, true⟩]

/-- A payment of 5500 sats to the bare `OP_TRUE` script. -/
def samplePlan : Plan := ⟨false, [0x51], [0x51], none, none⟩

/-- The smallest coin must be spent, and a record written. -/
def sampleRequest : OutputsRequest where
  chain := sampleDoc
  coins := sampleCoins
  required := sampleCoins.take 1
  tipHeight := 10
  outputs := [([0x51], 600)]
  records := [[0x61]]
  fee := none

theorem spends_balance_sample :
    (∃ s spent, assemble sampleDoc sampleCoins 10 5500 none sampleSigner (fun _ => none) samplePlan =
        .ok s ∧ spent.length = 2 ∧
      Balances s spent [⟨5500, [0x51]⟩] sampleSigner.script 1 10) ∧
    ∃ s extra, buildOutputs sampleRequest sampleSigner (fun _ => none) = .ok s ∧
      Balances s (sampleCoins.take 1 ++ extra) [⟨600, [0x51]⟩, ⟨0, opReturn [0x61]⟩]
        sampleSigner.script 1 10 := by
  have hfirst : (assemble sampleDoc sampleCoins 10 5500 none sampleSigner (fun _ => none)
      samplePlan).any (fun s => s.tx.input.length == 2) = true := by decide +kernel
  have hsecond : (buildOutputs sampleRequest sampleSigner (fun _ => none)).any (fun _ => true) =
      true := by decide +kernel
  obtain ⟨s, hs, hlen⟩ := Res.any_eq_true.mp hfirst
  obtain ⟨t, ht, -⟩ := Res.any_eq_true.mp hsecond
  have hall := spends_balance sampleWeight sampleSigner fun _ => none
  obtain ⟨spent, -, hspent⟩ := hall.1 sampleDoc sampleCoins 10 5500 none samplePlan s (by decide)
    (by decide) hs
  obtain ⟨extra, -, hextra⟩ := hall.2 sampleRequest t (by decide) (by decide) ht
  refine ⟨⟨s, spent, hs, ?_, hspent⟩, t, extra, ht, hextra⟩
  have hmap := congrArg List.length hspent.inputs
  rw [List.length_map, List.length_map, beq_iff_eq.mp hlen] at hmap
  exact hmap.symm

end Wallet

end Sidestr
