/-
# The peg-out payment

A burn is paid from the federation's peg by one parent transaction, carried
between the signers as a PSBT (`pegout.rs`). The payer funds and shapes it, a
co-signer checks it against the burn before it signs, signatures are verified
and combined, and with the threshold's signatures on every input it is
finalised.

What a check leaves open to the payer is what a check does not read: of the
two outputs it finds by their scripts it compares the value of the paying one
only, and it sums in saturating arithmetic. So a payment it accepts takes no
more than the burn and the capped fee out of the peg exactly when the marker
output carries nothing and the sums are within the cap as they stand.

Key definitions: `Federation`, `Psbt`, `buildPegoutPsbt`, `checkPegoutPsbt`,
`signPegoutPsbt`, `verifyPegoutSignatures`, `finalizePegoutPsbt`.
Key theorems: `checkPegoutPsbt_eq_none`, `takes_burn_and_fee_iff`.
-/
import Mathlib.Data.List.Sort
import Sidestr.Lib.Outcome
import Sidestr.Round.Event

namespace Sidestr

namespace Round

open Parent

/-! ### The federation and its payments -/

/-- A federation: `k` of `n` signers behind one taproot leaf. -/
structure Federation where
  /-- The signers' x-only keys, in leaf order. -/
  signers : List Bytes
  threshold : ℕ
  /-- The leaf. -/
  script : Bytes
  leafHash : Hash256
  internalKey : Bytes
  outputKey : Bytes
  controlBlock : Bytes
  nodup : signers.Nodup
  threshold_pos : 1 ≤ threshold
  threshold_le : threshold ≤ signers.length

/-- The script of the peg: the taproot output of the output key. -/
def Federation.challenge (fed : Federation) : Bytes := 0x51 :: 0x20 :: fed.outputKey

/-- A tapscript signature and its hash type. -/
structure LeafSig where
  signature : Bytes
  sighashType : UInt8
  deriving DecidableEq

structure PsbtInput where
  witnessUtxo : Option TxOut
  /-- Key and leaf to the signature. -/
  tapScriptSigs : Map (Bytes × Hash256) LeafSig
  tapInternalKey : Option Bytes
  tapMerkleRoot : Option Hash256
  /-- Control block to leaf script and leaf version. -/
  tapScripts : Map Bytes (Bytes × UInt8)
  /-- Key to its leaves and the fingerprint of its origin. -/
  tapKeyOrigins : Map Bytes (List Hash256 × Bytes)

structure Psbt where
  unsignedTx : Transaction
  inputs : List PsbtInput

/-- What the payments rest on outside the code: the signature hash of a leaf,
the control block's form, a hash, and the base64 of a PSBT. -/
class PsbtCodec where
  /-- The signature hash of an input for a leaf, under a hash type, with the
  prevouts of all inputs. -/
  leafSighash : Transaction → ℕ → List TxOut → Hash256 → UInt8 → Option Hash256
  /-- `ControlBlock::decode` accepts the bytes. -/
  isControlBlock : Bytes → Bool
  hash160 : Bytes → Bytes
  psbtText : Psbt → Bytes
  psbtFromText : Bytes → Option Psbt

/-- A coin on the parent paying the challenge. -/
structure PegCoin where
  outpoint : OutPoint
  value : UInt64
  deriving DecidableEq

/-- Why a step of a payment fails. -/
inductive PegoutError where
  | burnScript
  | markerTooLong
  | coinsOverflow
  | insufficient (total burn : ℕ)
  | controlBlock
  | noWitnessUtxo (input : ℕ)
  | sighash
  | notASigner
  | custody
  | badSignature (input : ℕ) (key : Bytes)
  | nothingToCombine
  | combine
  | notAPsbt
  | differentTransaction
  | noSignatureByAuthor
  | event
  | journal
  deriving DecidableEq

/-- Change under this goes to the fee. -/
def dust : ℕ := 330

/-- The parent record of the payment. -/
def pegoutMarkerOutput (chainId : Bytes) (sideTxid : Txid) : Res PegoutError TxOut :=
  let data := pegoutMarkerData chainId sideTxid
  if data.length ≤ Word.maxVal 32 then .ok ⟨0, opReturn data⟩ else .err .markerTooLong

/-! ### Building -/

/-- The bytes a length takes before its data. -/
def compactSize (n : ℕ) : ℕ :=
  if n < 253 then 1 else if n ≤ 0xffff then 3 else if n ≤ 0xffffffff then 5 else 9

/-- The size of the witness a finalised input carries: `k` signatures, empty
slots, the leaf and the control block. -/
def witnessSize (fed : Federation) : ℕ :=
  let items := (fed.signers.zipIdx.map fun (_, i) => if i < fed.threshold then 65 else 0) ++
    [fed.script.length, fed.controlBlock.length]
  compactSize items.length + (items.map fun n => compactSize n + n).sum

def vsizeWith [Bitcoin] (fed : Federation) (tx : Transaction) : ℕ :=
  (Bitcoin.baseSize tx * 4 + (2 + tx.input.length * witnessSize fed) + 3) / 4

/-- Larger coins first, then by outpoint. -/
def coinLe (a b : PegCoin) : Bool :=
  if a.value = b.value then
    let ta := beNat (wireBytes a.outpoint.txid)
    let tb := beNat (wireBytes b.outpoint.txid)
    ta < tb || (ta = tb && a.outpoint.vout ≤ b.outpoint.vout)
  else b.value < a.value

/-- The transaction that spends these coins: the payment, the marker, and the
change when there is any. -/
def payoutShape (fed : Federation) (pay marker : TxOut) (chosen : List PegCoin)
    (change : Option ℕ) : Transaction where
  version := 2
  lockTime := 0
  input := chosen.map fun c => ⟨c.outpoint, [], 0xfffffffd, []⟩
  output := [pay, marker] ++ change.toList.map fun v => ⟨UInt64.ofNat v, fed.challenge⟩

/-- The fee of a payment with these coins and change. -/
def payoutFee [Bitcoin] (fed : Federation) (pay marker : TxOut) (feeRate : ℕ)
    (chosen : List PegCoin) : ℕ :=
  Word.satMul 64 feeRate (vsizeWith fed (payoutShape fed pay marker chosen (some 0)))

/-- Coins in order until the burn and the fee are covered: the coins, and what
is left over. -/
def chooseCoins [Bitcoin] (fed : Federation) (pay marker : TxOut) (value feeRate : ℕ) :
    List PegCoin → ℕ → List PegCoin → Res PegoutError (List PegCoin × ℕ)
  | _, total, [] => .err (.insufficient total value)
  | chosen, total, c :: coins => do
    let chosen := chosen ++ [c]
    let total ← Res.okOr .coinsOverflow (Word.checkedAdd 64 total c.value.toNat)
    let fee := payoutFee fed pay marker feeRate chosen
    match Word.checkedSub total (Word.satAdd 64 value fee) with
    | none => chooseCoins fed pay marker value feeRate chosen total coins
    | some rest => .ok (chosen, rest)

/-- The fingerprint recorded for a key with no known origin. -/
def fingerprintOf [PsbtCodec] (key : Bytes) : Bytes := (PsbtCodec.hash160 (0x02 :: key)).take 4

/-- An input as the payer annotates it. -/
def pegInput [PsbtCodec] (fed : Federation) (c : PegCoin) : PsbtInput where
  witnessUtxo := some ⟨c.value, fed.challenge⟩
  tapScriptSigs := ∅
  tapInternalKey := some fed.internalKey
  tapMerkleRoot := some fed.leafHash
  tapScripts := Finmap.singleton fed.controlBlock (fed.script, 0xc0)
  tapKeyOrigins := Map.insertAll
    (fed.signers.map fun pk => (pk, ([fed.leafHash], fingerprintOf pk))) ∅

/-- Fund, shape and annotate the payment of a burn: largest coins first. -/
def buildPegoutPsbt [Bitcoin] [PsbtCodec] (fed : Federation) (chainId : Bytes) (burn : Burn)
    (coins : List PegCoin) (feeRate : ℕ) : Res PegoutError Psbt := do
  let script ← Res.okOr .burnScript (hexDecode burn.script)
  let pay : TxOut := ⟨UInt64.ofNat burn.value, script⟩
  let marker ← pegoutMarkerOutput chainId burn.txid
  let (chosen, rest) ← chooseCoins fed pay marker burn.value feeRate [] 0
    (coins.insertionSort fun a b => coinLe a b)
  Res.refuseIf (!PsbtCodec.isControlBlock fed.controlBlock) .controlBlock
  .ok ⟨payoutShape fed pay marker chosen (if dust ≤ rest then some rest else none),
    chosen.map (pegInput fed)⟩

/-! ### Checking -/

/-- Why a co-signer refuses a payment. -/
inductive PsbtRefusal where
  | noPayment
  | paysOther
  | notThePeg
  | paysMore
  | feeOverCap (fee cap : ℕ)
  deriving DecidableEq

/-- The output that pays the script the value: the first. -/
def payIndex (outs : List TxOut) (script : Bytes) (value : ℕ) : Option ℕ :=
  outs.findIdx? fun o => o.scriptPubkey == script && o.sats == value

/-- The first output with the marker's script. -/
def markIndex (outs : List TxOut) (marker : TxOut) : Option ℕ :=
  outs.findIdx? fun o => o.scriptPubkey == marker.scriptPubkey

/-- The sum of the inputs, all from the peg. -/
def pegInputs (challenge : Bytes) : ℕ → List PsbtInput → Option ℕ
  | acc, [] => some acc
  | acc, i :: inputs =>
    match i.witnessUtxo with
    | some u =>
      if u.scriptPubkey = challenge then pegInputs challenge (Word.satAdd 64 acc u.sats) inputs
      else none
    | none => none

/-- The PSBT pays this burn and nothing else, every input from the peg, the fee
within the cap: `none` when it does. -/
def checkPegoutPsbt (psbt : Psbt) (fed : Federation) (chainId : Bytes) (burn : Burn)
    (maxFee : ℕ) : Option PsbtRefusal :=
  let outs := psbt.unsignedTx.output
  match pegoutMarkerOutput chainId burn.txid, hexDecode burn.script with
  | .ok marker, some script =>
    match payIndex outs script burn.value, markIndex outs marker with
    | some pay, some mark =>
      if outs.zipIdx.any fun (o, i) => i ≠ pay && i ≠ mark && o.scriptPubkey ≠ fed.challenge then
        some .paysOther
      else if psbt.inputs.isEmpty || psbt.inputs.length ≠ psbt.unsignedTx.input.length then
        some .notThePeg
      else
        match pegInputs fed.challenge 0 psbt.inputs with
        | none => some .notThePeg
        | some inSum =>
          match Word.checkedSub inSum (Word.satSum 64 0 (outs.map TxOut.sats)) with
          | none => some .paysMore
          | some fee => if maxFee < fee then some (.feeOverCap fee maxFee) else none
    | _, _ => some .noPayment
  | _, _ => some .noPayment

/-! ### Signing -/

/-- A request to sign one input of a payment. -/
structure PegoutSignRequest where
  chainId : Bytes
  burn : BurnKey
  unsignedTxid : Txid
  input : ℕ
  digest : Hash256

/-- The custody key and the author of events behind their ports; either may
refuse at any time. -/
class RoundSigner (S : Type) where
  pubkey : S → Bytes
  signPegoutInput : S → PegoutSignRequest → S × Option Bytes
  /-- An unsigned event, its author filled in, signed and verified. -/
  signEvent : S → UnsignedEvent → S × Option Event

/-- A signature given for an input of a transaction that pays a burn. -/
structure SignedInput where
  burn : BurnKey
  tx : Transaction
  input : ℕ

/-- A signer, and the peg-out signatures it has given. -/
structure Custody (S : Type) where
  signer : S
  signed : List SignedInput

/-- The prevouts of every input. -/
def prevoutsFrom : ℕ → List PsbtInput → Res PegoutError (List TxOut)
  | _, [] => .ok []
  | i, input :: inputs => do
    let u ← Res.okOr (.noWitnessUtxo i) input.witnessUtxo
    let us ← prevoutsFrom (i + 1) inputs
    .ok (u :: us)

def prevoutsOf (psbt : Psbt) : Res PegoutError (List TxOut) := prevoutsFrom 0 psbt.inputs

section

variable [Bitcoin] [PsbtCodec] {S : Type} [RoundSigner S]

/-- The signer asked for one input: its signature goes into the PSBT. -/
def signInput (fed : Federation) (chainId : Bytes) (burn : BurnKey) (prevouts : List TxOut)
    (i : ℕ) (c : Custody S) (psbt : Psbt) : Custody S × Res PegoutError Psbt :=
  match PsbtCodec.leafSighash psbt.unsignedTx i prevouts fed.leafHash 0 with
  | none => (c, .err .sighash)
  | some digest =>
    let me := RoundSigner.pubkey c.signer
    let txid := Bitcoin.computeTxid psbt.unsignedTx
    match RoundSigner.signPegoutInput c.signer ⟨chainId, burn, txid, i, digest⟩ with
    | (s, none) => (⟨s, c.signed⟩, .err .custody)
    | (s, some sig) =>
      (⟨s, ⟨burn, psbt.unsignedTx, i⟩ :: c.signed⟩,
        .ok { psbt with inputs := psbt.inputs.modify i fun input =>
          { input with tapScriptSigs := input.tapScriptSigs.insert (me, fed.leafHash) ⟨sig, 0⟩ } })

/-- Every one of these inputs signed, in order; a refusal stops there. -/
def signInputs (fed : Federation) (chainId : Bytes) (burn : BurnKey) (prevouts : List TxOut) :
    List ℕ → Custody S → Psbt → Custody S × Res PegoutError Psbt
  | [], c, psbt => (c, .ok psbt)
  | i :: is, c, psbt =>
    match signInput fed chainId burn prevouts i c psbt with
    | (c, .ok psbt) => signInputs fed chainId burn prevouts is c psbt
    | (c, .err e) => (c, .err e)
    | (c, .panic) => (c, .panic)

/-- Sign every input for the federation's leaf. -/
def signPegoutPsbt (fed : Federation) (chainId : Bytes) (burn : BurnKey) (c : Custody S)
    (psbt : Psbt) : Custody S × Res PegoutError Psbt :=
  if RoundSigner.pubkey c.signer ∉ fed.signers then (c, .err .notASigner)
  else
    match prevoutsOf psbt with
    | .ok prevouts =>
      signInputs fed chainId burn prevouts (List.range psbt.inputs.length) c psbt
    | .err e => (c, .err e)
    | .panic => (c, .panic)

/-! ### Verifying, combining and finalising -/

/-- The federation's signers whose signatures an input carries, all of which
verify. -/
def verifyInput (fed : Federation) (tx : Transaction) (prevouts : List TxOut) (i : ℕ)
    (input : PsbtInput) : Res PegoutError (List Bytes) :=
  Res.foldlM (fun found pk =>
    match input.tapScriptSigs.lookup (pk, fed.leafHash) with
    | none => .ok found
    | some sig => do
      let digest ← Res.okOr .sighash
        (PsbtCodec.leafSighash tx i prevouts fed.leafHash sig.sighashType)
      Res.refuseIf (!Bitcoin.schnorrVerify digest sig.signature pk) (.badSignature i pk)
      .ok (found ++ [pk])) [] fed.signers

def verifyInputs (fed : Federation) (tx : Transaction) (prevouts : List TxOut) :
    ℕ → List PsbtInput → Res PegoutError (List (List Bytes))
  | _, [] => .ok []
  | i, input :: inputs => do
    let found ← verifyInput fed tx prevouts i input
    let rest ← verifyInputs fed tx prevouts (i + 1) inputs
    .ok (found :: rest)

/-- Per input, the signers whose signatures verify. -/
def verifyPegoutSignatures (fed : Federation) (psbt : Psbt) :
    Res PegoutError (List (List Bytes)) := do
  let prevouts ← prevoutsOf psbt
  verifyInputs fed psbt.unsignedTx prevouts 0 psbt.inputs

end

/-- What the second input has goes over what the first has. -/
def combineInput (a b : PsbtInput) : PsbtInput where
  witnessUtxo := a.witnessUtxo.or b.witnessUtxo
  tapScriptSigs := b.tapScriptSigs ∪ a.tapScriptSigs
  tapInternalKey := a.tapInternalKey.or b.tapInternalKey
  tapMerkleRoot := a.tapMerkleRoot.or b.tapMerkleRoot
  tapScripts := b.tapScripts ∪ a.tapScripts
  tapKeyOrigins := b.tapKeyOrigins ∪ a.tapKeyOrigins

/-- The same unsigned transaction with everyone's signatures. -/
def combinePegoutPsbts : List Psbt → Res PegoutError Psbt
  | [] => .err .nothingToCombine
  | p :: ps => Res.foldlM (fun acc q =>
      if acc.unsignedTx = q.unsignedTx then
        .ok { acc with inputs := acc.inputs.zipWith combineInput q.inputs }
      else .err .combine) p ps

/-- The witness of an input: `k` signatures in leaf order, reversed, then the
leaf and the control block; none with fewer than `k`. -/
def finalWitness (fed : Federation) (input : PsbtInput) : Option (List Bytes) :=
  let sigOf := fun pk => (input.tapScriptSigs.lookup (pk, fed.leafHash)).map fun s =>
    if s.sighashType = 0 then s.signature else s.signature ++ [s.sighashType]
  let have' := fed.signers.filter fun pk => (sigOf pk).isSome
  if have'.length < fed.threshold then none
  else
    let chosen := have'.take fed.threshold
    let items := fed.signers.map fun pk => if pk ∈ chosen then (sigOf pk).getD [] else []
    some (items.reverse ++ [fed.script, fed.controlBlock])

/-- The transaction with every input's witness; none when an input has fewer
than `k` signatures. -/
def finalizePegoutPsbt (fed : Federation) (psbt : Psbt) : Option Transaction :=
  (psbt.inputs.mapM (finalWitness fed)).map fun ws =>
    { psbt.unsignedTx with
      input := psbt.unsignedTx.input.zipWith (fun i w => { i with scriptSig := [], witness := w }) ws }

/-! ### What a payment takes from the peg -/

/-- What the inputs hold. -/
def Psbt.inputSum (psbt : Psbt) : ℕ :=
  (psbt.inputs.map fun i => (i.witnessUtxo.map TxOut.sats).getD 0).sum

/-- What the outputs carry. -/
def Psbt.outputSum (psbt : Psbt) : ℕ := (psbt.unsignedTx.output.map TxOut.sats).sum

/-- The output that pays the burn. -/
def Psbt.payment (psbt : Psbt) (burn : Burn) : Option ℕ :=
  (hexDecode burn.script).bind fun script =>
    payIndex psbt.unsignedTx.output script burn.value

/-- The outputs other than the payment, those to the peg or those elsewhere. -/
def Psbt.others (psbt : Psbt) (fed : Federation) (burn : Burn) (peg : Bool) : List TxOut :=
  (psbt.unsignedTx.output.zipIdx.filter fun (o, i) =>
    some i ≠ psbt.payment burn ∧ decide (o.scriptPubkey = fed.challenge) = peg).map Prod.fst

/-- The payment takes only the burn and the capped fee out of the peg: what the
inputs hold over what goes back is within the two, and no other output carries
anything. -/
structure TakesBurnAndFee (psbt : Psbt) (fed : Federation) (burn : Burn) (maxFee : ℕ) : Prop where
  bounded : psbt.inputSum ≤ burn.value + maxFee + ((psbt.others fed burn true).map TxOut.sats).sum
  elsewhere : ∀ o ∈ psbt.others fed burn false, o.sats = 0

/-- The marker output carries nothing, unless it is the payment itself. -/
def MarkerEmpty (psbt : Psbt) (chainId : Bytes) (burn : Burn) : Prop :=
  ∀ marker, pegoutMarkerOutput chainId burn.txid = .ok marker →
    ∀ i o, markIndex psbt.unsignedTx.output marker = some i → some i ≠ psbt.payment burn →
      psbt.unsignedTx.output[i]? = some o → o.sats = 0

/-- The inputs' sum fits 64 bits, or is within the cap of the outputs' as it stands. -/
def SumsWithin (psbt : Psbt) (maxFee : ℕ) : Prop :=
  psbt.inputSum ≤ Word.maxVal 64 ∨ psbt.inputSum ≤ psbt.outputSum + maxFee

/-- The sum of the inputs is taken in saturating arithmetic. -/
theorem pegInputs_eq {challenge : Bytes} : ∀ {inputs : List PsbtInput} {acc s : ℕ},
    pegInputs challenge acc inputs = some s →
    s = Word.satSum 64 acc (inputs.map fun i => (i.witnessUtxo.map TxOut.sats).getD 0)
  | [], acc, s, h => by
    cases h
    rfl
  | i :: inputs, acc, s, h => by
    unfold pegInputs at h
    cases hu : i.witnessUtxo with
    | none =>
      rw [hu] at h
      cases h
    | some u =>
      rw [hu] at h
      dsimp only at h
      split at h
      · rw [List.map_cons, hu]
        exact pegInputs_eq h
      · cases h

/-- The element of an index, among the indexed elements. -/
theorem filter_zipIdx {α : Type} {a : α} : ∀ {l : List α} {k i : ℕ}, l[i]? = some a →
    ((l.zipIdx k).filter fun p => p.2 = k + i) = [(a, k + i)]
  | [], k, i, h => by cases h
  | b :: l, k, 0, h => by
    cases h
    have hrest : ((l.zipIdx (k + 1)).filter fun p => p.2 = k + 0) = [] := by
      refine List.filter_eq_nil_iff.mpr fun p hp heq => ?_
      have hle := List.le_snd_of_mem_zipIdx hp
      have := of_decide_eq_true heq
      omega
    rw [List.zipIdx_cons, List.filter_cons, hrest]
    simp
  | b :: l, k, i + 1, h => by
    have ih := filter_zipIdx (k := k + 1) (i := i) h
    rw [List.zipIdx_cons, List.filter_cons]
    have hne : ¬ (b, k).2 = k + (i + 1) := by
      show ¬ k = _
      omega
    rw [decide_eq_false hne, if_neg Bool.false_ne_true]
    have hk : k + (i + 1) = k + 1 + i := by omega
    rw [hk]
    exact ih

/-- The outputs are the payment, those to the peg and those elsewhere. -/
theorem outputSum_eq {psbt : Psbt} (fed : Federation) {burn : Burn} {pay : ℕ}
    (h : psbt.payment burn = some pay) : psbt.outputSum = burn.value +
      ((psbt.others fed burn true).map TxOut.sats).sum +
      ((psbt.others fed burn false).map TxOut.sats).sum := by
  obtain ⟨o, ho, hsats⟩ : ∃ o, psbt.unsignedTx.output[pay]? = some o ∧ o.sats = burn.value := by
    unfold Psbt.payment payIndex at h
    obtain ⟨script, -, h⟩ := Option.bind_eq_some_iff.mp h
    obtain ⟨hlt, hp, -⟩ := List.findIdx?_eq_some_iff_getElem.mp h
    refine ⟨psbt.unsignedTx.output[pay], List.getElem?_eq_getElem hlt, ?_⟩
    simpa using (Bool.and_eq_true_iff.mp hp).2
  have hmap : psbt.outputSum =
      (psbt.unsignedTx.output.zipIdx.map fun p => p.1.sats).sum := by
    unfold Psbt.outputSum
    conv_lhs => rw [← List.zipIdx_map_fst 0 psbt.unsignedTx.output, List.map_map]
    rfl
  have hpay := List.sum_map_filter_add_sum_map_filter_not (fun p : TxOut × ℕ => p.2 = pay)
    (fun p => p.1.sats) psbt.unsignedTx.output.zipIdx
  have hpeg := List.sum_map_filter_add_sum_map_filter_not
    (fun p : TxOut × ℕ => p.1.scriptPubkey = fed.challenge) (fun p => p.1.sats)
    (psbt.unsignedTx.output.zipIdx.filter fun p => ¬ p.2 = pay)
  have hone := filter_zipIdx (k := 0) ho
  rw [Nat.zero_add] at hone
  rw [hone, List.map_singleton, List.sum_singleton, hsats] at hpay
  have hother : ∀ peg, ((psbt.others fed burn peg).map TxOut.sats).sum =
      (((psbt.unsignedTx.output.zipIdx.filter fun p => ¬ p.2 = pay).filter fun p =>
        decide (p.1.scriptPubkey = fed.challenge) = peg).map fun p => p.1.sats).sum := by
    intro peg
    unfold Psbt.others
    rw [h, List.filter_filter, List.map_map]
    congr 2
    refine List.filter_congr fun p _ => ?_
    by_cases hp : p.2 = pay <;> simp [hp]
  rw [hmap, ← hpay, ← hpeg, hother true, hother false]
  simp only [decide_eq_true_eq, decide_eq_false_iff_not, Nat.add_assoc]

/-- What a check that accepts has seen. -/
theorem checkPegoutPsbt_eq_none {psbt : Psbt} {fed : Federation} {chainId : Bytes} {burn : Burn}
    {maxFee : ℕ} (h : checkPegoutPsbt psbt fed chainId burn maxFee = none) :
    ∃ marker pay mark, pegoutMarkerOutput chainId burn.txid = .ok marker ∧
      psbt.payment burn = some pay ∧ markIndex psbt.unsignedTx.output marker = some mark ∧
      (∀ i o, psbt.unsignedTx.output[i]? = some o → i ≠ pay → i ≠ mark →
        o.scriptPubkey = fed.challenge) ∧
      psbt.inputs ≠ [] ∧ psbt.inputs.length = psbt.unsignedTx.input.length ∧
      min psbt.inputSum (Word.maxVal 64) ≤ min psbt.outputSum (Word.maxVal 64) + maxFee := by
  unfold checkPegoutPsbt at h
  dsimp only at h
  split at h
  · rename_i marker script hmarker hscript
    split at h
    · rename_i pay mark hpay hmark
      split at h
      · cases h
      · rename_i hothers
        split at h
        · cases h
        · rename_i hinputs
          split at h
          · cases h
          · rename_i inSum hsum
            split at h
            · cases h
            · rename_i fee hfee
              split at h
              · cases h
              · rename_i hcap
                rw [List.any_eq_true] at hothers
                rw [Bool.or_eq_true, not_or] at hinputs
                refine ⟨marker, pay, mark, hmarker, ?_, hmark, ?_, ?_, ?_, ?_⟩
                · unfold Psbt.payment
                  rw [hscript]
                  exact hpay
                · intro i o ho hnp hnm
                  by_contra hne
                  refine hothers ⟨(o, i), List.mem_zipIdx_iff_getElem?.mpr ho, ?_⟩
                  simp [hnp, hnm, hne]
                · intro hnil
                  rw [hnil] at hinputs
                  exact hinputs.1 rfl
                · simpa using hinputs.2
                · obtain ⟨hle, rfl⟩ := Word.checkedSub_eq_some.mp hfee
                  rw [pegInputs_eq hsum, Word.satSum_eq _ _ (Nat.zero_le _), Nat.zero_add,
                    Word.satSum_eq _ _ (Nat.zero_le _), Nat.zero_add] at hcap hle
                  unfold Psbt.inputSum Psbt.outputSum
                  omega
    · cases h
  · cases h

/-- A marker is not the peg's script. -/
theorem marker_ne_challenge {chainId : Bytes} {side : Txid} {marker : TxOut} {fed : Federation}
    (h : pegoutMarkerOutput chainId side = .ok marker) : marker.scriptPubkey ≠ fed.challenge := by
  unfold pegoutMarkerOutput at h
  dsimp only at h
  split at h
  · cases h
    intro heq
    unfold opReturn Federation.challenge at heq
    dsimp only at heq
    split_ifs at heq <;> exact absurd (List.cons.inj heq).1 (by decide)
  · cases h

theorem markIndex_script {outs : List TxOut} {marker : TxOut} {i : ℕ} {o : TxOut}
    (h : markIndex outs marker = some i) (ho : outs[i]? = some o) :
    o.scriptPubkey = marker.scriptPubkey := by
  unfold markIndex at h
  obtain ⟨hlt, hp, -⟩ := List.findIdx?_eq_some_iff_getElem.mp h
  rw [List.getElem?_eq_getElem hlt, Option.some.injEq] at ho
  rw [← ho]
  exact beq_iff_eq.mp hp

theorem mem_others_elsewhere {psbt : Psbt} {fed : Federation} {burn : Burn} {o : TxOut} :
    o ∈ psbt.others fed burn false ↔ ∃ i, psbt.unsignedTx.output[i]? = some o ∧
      some i ≠ psbt.payment burn ∧ o.scriptPubkey ≠ fed.challenge := by
  unfold Psbt.others
  rw [List.mem_map]
  constructor
  · rintro ⟨⟨o', i⟩, hmem, rfl⟩
    obtain ⟨hget, hp⟩ := List.mem_filter.mp hmem
    have hp := of_decide_eq_true hp
    exact ⟨i, List.mem_zipIdx_iff_getElem?.mp hget, hp.1, of_decide_eq_false hp.2⟩
  · rintro ⟨i, hget, hpay, hne⟩
    exact ⟨(o, i), List.mem_filter.mpr ⟨List.mem_zipIdx_iff_getElem?.mpr hget,
      decide_eq_true ⟨hpay, decide_eq_false hne⟩⟩, rfl⟩

/-- **What a co-signed payment takes from the peg.** For every payment a check
accepts, only the burn and the capped fee leave the peg exactly when the
marker output carries nothing and the inputs' sum fits 64 bits or is within the
cap of the outputs' as it stands. -/
theorem takes_burn_and_fee_iff {psbt : Psbt} {fed : Federation} {chainId : Bytes} {burn : Burn}
    {maxFee : ℕ} (h : checkPegoutPsbt psbt fed chainId burn maxFee = none) :
    TakesBurnAndFee psbt fed burn maxFee ↔
      MarkerEmpty psbt chainId burn ∧ SumsWithin psbt maxFee := by
  obtain ⟨marker, pay, mark, hmarker, hpay, hmark, hothers, -, -, hfee⟩ :=
    checkPegoutPsbt_eq_none h
  have hsum := outputSum_eq fed hpay
  constructor
  · intro ht
    have hzero : ((psbt.others fed burn false).map TxOut.sats).sum = 0 :=
      List.sum_eq_zero fun n hn => by
        obtain ⟨o, ho, rfl⟩ := List.mem_map.mp hn
        exact ht.elsewhere o ho
    have hbound := ht.bounded
    refine ⟨fun marker' hm i o hi hne ho => ht.elsewhere o ?_, Or.inr (by omega)⟩
    refine mem_others_elsewhere.mpr ⟨i, ho, hne, ?_⟩
    rw [markIndex_script hi ho]
    exact marker_ne_challenge hm
  · rintro ⟨hempty, hwithin⟩
    have helse : ∀ o ∈ psbt.others fed burn false, o.sats = 0 := by
      intro o ho
      obtain ⟨i, hget, hne, hscript⟩ := mem_others_elsewhere.mp ho
      have hi : i = mark := by
        by_contra him
        exact hscript (hothers i o hget (fun hip => hne (by rw [hpay, hip])) him)
      rw [hi] at hget hne
      exact hempty marker hmarker mark o hmark hne hget
    have hzero : ((psbt.others fed burn false).map TxOut.sats).sum = 0 :=
      List.sum_eq_zero fun n hn => by
        obtain ⟨o, ho, rfl⟩ := List.mem_map.mp hn
        exact helse o ho
    refine ⟨?_, helse⟩
    rcases hwithin with hfit | hle
    · rw [Nat.min_eq_left hfit] at hfee
      omega
    · omega

/-! ### A payment that burns the peg -/

/-- Three signers, two of which must sign. -/
def sampleFederation : Federation where
  signers := [List.replicate 32 1, List.replicate 32 2, List.replicate 32 3]
  threshold := 2
  script := [0x51]
  leafHash := 1
  internalKey := List.replicate 32 4
  outputKey := List.replicate 32 5
  controlBlock := 0xc0 :: List.replicate 32 4
  nodup := by decide
  threshold_pos := by decide
  threshold_le := by decide

/-- A burn of 20000 sats. -/
def sampleBurn : Burn := ⟨7, 0, ascii ['5', '1', '5', '1'], 20000, 3⟩

/-- The payment of the burn from a coin of a million sats, the marker carrying
some, the rest but a fee of 1000 going back. -/
def samplePayment (marker : UInt64) : Psbt where
  unsignedTx := {
    version := 2
    lockTime := 0
    input := [⟨⟨9, 0⟩, [], 0xfffffffd, []⟩]
    output := [⟨20000, [0x51, 0x51]⟩, ⟨marker, opReturn (pegoutMarkerData (ascii ['d']) 7)⟩,
      ⟨979000 - marker, sampleFederation.challenge⟩] }
  inputs := [⟨some ⟨1000000, sampleFederation.challenge⟩, ∅, none, none, ∅, ∅⟩]

/-- What is read off the two payments, one with a marker that is empty. -/
theorem samplePayment_read :
    checkPegoutPsbt (samplePayment 0) sampleFederation (ascii ['d']) sampleBurn 10000 = none ∧
      checkPegoutPsbt (samplePayment 900000) sampleFederation (ascii ['d']) sampleBurn 10000 =
        none ∧
      pegoutMarkerOutput (ascii ['d']) sampleBurn.txid =
        .ok ⟨0, opReturn (pegoutMarkerData (ascii ['d']) 7)⟩ ∧
      markIndex (samplePayment 0).unsignedTx.output
        ⟨0, opReturn (pegoutMarkerData (ascii ['d']) 7)⟩ = some 1 ∧
      (samplePayment 0).inputSum ≤ Word.maxVal 64 ∧
      sampleBurn.value + 10000 + (((samplePayment 900000).others sampleFederation sampleBurn
        true).map TxOut.sats).sum < (samplePayment 900000).inputSum := by
  decide +kernel

/-- A payment whose marker is empty takes the burn and its fee. -/
theorem takes_burn_and_fee_sample :
    checkPegoutPsbt (samplePayment 0) sampleFederation (ascii ['d']) sampleBurn 10000 = none ∧
      TakesBurnAndFee (samplePayment 0) sampleFederation sampleBurn 10000 := by
  obtain ⟨hcheck, -, hmarker, hmark, hfits, -⟩ := samplePayment_read
  refine ⟨hcheck, (takes_burn_and_fee_iff hcheck).mpr ⟨?_, Or.inl hfits⟩⟩
  intro marker hm i o hi hne ho
  rw [hmarker] at hm
  cases hm
  rw [hmark] at hi
  cases hi
  cases ho
  rfl

/-- **A payment that burns the peg.** A payment whose marker output carries
900000 sats is accepted under a cap of 10000, and they leave the peg. -/
theorem marker_takes_peg :
    checkPegoutPsbt (samplePayment 900000) sampleFederation (ascii ['d']) sampleBurn 10000 =
        none ∧
      ¬ TakesBurnAndFee (samplePayment 900000) sampleFederation sampleBurn 10000 := by
  obtain ⟨-, hcheck, -, -, -, htaken⟩ := samplePayment_read
  exact ⟨hcheck, fun h => absurd h.bounded (by omega)⟩

end Round

end Sidestr
