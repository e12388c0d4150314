/-
# A channel's transactions

The commitments of the two sides, the cooperative close and the claims on a
commitment's outputs, as `lib.rs` builds them. A commitment pays its owner
with a delay, the other side at once, and one output for each HTLC; side A
pays the fee, and a balance below the dust limit is left out.

Key definitions: `Channel`, `ChannelState`, `Channel.commitment`,
`Channel.cooperativeClose`, `sweepToLocal`, `claimHtlc`.
Key theorems: `Channel.commitment_value`, `Channel.cooperativeClose_value`.
-/
import Mathlib.Algebra.Order.BigOperators.Group.List
import Mathlib.Algebra.Order.Ring.Nat
import Sidestr.Hitch.Types

namespace Sidestr

namespace Hitch

/-- A funded channel and its parameters, in their bounds. -/
structure Channel where
  keys : Point × Point
  fundingOutpoint : OutPoint
  fundingValue : ℕ
  fundingScript : FundingScript
  fee : ℕ
  delay : ℕ
  fee_ok : minFee ≤ fee ∧ fee ≤ maxFee
  delay_ok : minDelay ≤ delay ∧ delay ≤ maxDelay
  deriving DecidableEq

/-- The HTLC a commitment is built from. -/
structure Htlc where
  id : ℕ
  «from» : Side
  amount : ℕ
  paymentHash : Hash256
  expiry : ℕ
  deriving DecidableEq

/-- Balances and HTLCs at one state, with the revocation key of the
commitment's owner. -/
structure ChannelState where
  balanceA : ℕ
  balanceB : ℕ
  revocation : Point
  htlcs : List Htlc

def ChannelState.balance (s : ChannelState) : Side → ℕ
  | .a => s.balanceA
  | .b => s.balanceB

inductive OutputKind
  | toLocal | toRemote | htlc
  deriving DecidableEq

/-- An HTLC with its output in a commitment. -/
structure CommitmentHtlc where
  htlc : Htlc
  vout : ℕ
  scripts : HtlcScript
  offeredByOwner : Bool
  deriving DecidableEq

structure Commitment where
  tx : Transaction
  toLocal : ToLocalScript
  kinds : List OutputKind
  htlcs : List CommitmentHtlc
  localValue : ℕ
  remoteValue : ℕ
  toLocalVout : Option ℕ
  number : ℕ
  owner : Side
  delay : ℕ

/-- What a side gets, the fee taken off A's balance. -/
def payoutAfterFee (balance : ℕ) (side : Side) (fee : ℕ) : ℕ :=
  match side with
  | .a => balance - fee
  | .b => balance

/-- A transaction of one input, not yet signed. -/
def oneInputTx (outpoint : OutPoint) (sequence lockTime : UInt32) (output : List TxOut) :
    Transaction := ⟨2, lockTime, [⟨outpoint, [], sequence, []⟩], output⟩

def inputSequence : UInt32 := 0xfffffffd
def locktimeSequence : UInt32 := 0xfffffffe

/-- An output of `value` sats. -/
def payTo (value : ℕ) (scriptPubkey : Bytes) : TxOut := ⟨UInt64.ofNat value, scriptPubkey⟩

section

variable [Hitch]

/-- A channel, if its fee and delay are in their bounds. -/
def Channel.new (a b : Point) (fundingOutpoint : OutPoint) (fundingValue fee delay : ℕ) :
    Except ChannelError Channel :=
  if hf : minFee ≤ fee ∧ fee ≤ maxFee then
    if hd : minDelay ≤ delay ∧ delay ≤ maxDelay then
      match Hitch.fundingScript a b with
      | some script => .ok ⟨(a, b), fundingOutpoint, fundingValue, script, fee, delay, hf, hd⟩
      | none => .error .script
    else .error .delay
  else .error .fee

namespace Channel

variable (ch : Channel)

omit [Hitch] in
def key : Side → Point
  | .a => ch.keys.1
  | .b => ch.keys.2

omit [Hitch] in
def fundingPrevout : TxOut := payTo ch.fundingValue ch.fundingScript.scriptPubkey

omit [Hitch] in
/-- Everything the state accounts for, when it fits in 64 bits. -/
def stateTotal (s : ChannelState) : Option ℕ :=
  (Word.checkedAdd 64 s.balanceA s.balanceB).bind fun total =>
    Word.checkedSum 64 total (s.htlcs.map Htlc.amount)

omit [Hitch] in
/-- The state accounts for the whole funding. -/
def checkState (s : ChannelState) : Except ChannelError Unit :=
  match stateTotal s with
  | none => .error .amountOverflow
  | some total =>
    if total = ch.fundingValue then .ok () else .error (.unbalanced total ch.fundingValue)

/-- The HTLC outputs from output `vout` on; dust is left out. -/
def htlcOutputs (owner : Side) (revocation : Point) : ℕ → List Htlc →
    Except ChannelError (List TxOut × List CommitmentHtlc)
  | _, [] => .ok ([], [])
  | vout, h :: hs =>
    if maxExpiry ≤ h.expiry then .error .expiry
    else if h.amount < dust then htlcOutputs owner revocation vout hs
    else
      let offered := h.from == owner
      match Hitch.htlcScript ⟨ch.key owner, ch.key owner.other, revocation, ch.delay,
          h.paymentHash, h.expiry, offered⟩ with
      | none => .error .script
      | some scripts =>
        match htlcOutputs owner revocation (vout + 1) hs with
        | .error e => .error e
        | .ok (outs, infos) =>
          .ok (payTo h.amount scripts.scriptPubkey :: outs, ⟨h, vout, scripts, offered⟩ :: infos)

/-- One side's commitment for a state. -/
def commitment (number : ℕ) (owner : Side) (s : ChannelState) :
    Except ChannelError Commitment :=
  match ch.checkState s with
  | .error e => .error e
  | .ok () =>
    let localValue := payoutAfterFee (s.balance owner) owner ch.fee
    let remoteValue := payoutAfterFee (s.balance owner.other) owner.other ch.fee
    match Hitch.toLocalScript (ch.key owner) s.revocation ch.delay with
    | none => .error .script
    | some toLocal =>
      let outLocal := if dust ≤ localValue then [payTo localValue toLocal.scriptPubkey] else []
      let outRemote := if dust ≤ remoteValue then
        [payTo remoteValue (Hitch.toRemoteScript (ch.key owner.other))] else []
      let sorted := s.htlcs.mergeSort fun x y => x.id ≤ y.id
      match ch.htlcOutputs owner s.revocation (outLocal ++ outRemote).length sorted with
      | .error e => .error e
      | .ok (outs, infos) =>
        let output := outLocal ++ outRemote ++ outs
        if output = [] then .error .nothingToPay
        else .ok {
          tx := oneInputTx ch.fundingOutpoint inputSequence 0 output
          toLocal
          kinds := outLocal.map (fun _ => .toLocal) ++ outRemote.map (fun _ => .toRemote) ++
            outs.map fun _ => .htlc
          htlcs := infos
          localValue
          remoteValue
          toLocalVout := if dust ≤ localValue then some 0 else none
          number
          owner
          delay := ch.delay }

/-- The close both sides sign, paying both balances at once. -/
def cooperativeClose (s : ChannelState) : Except ChannelError Transaction :=
  if s.htlcs ≠ [] then .error .htlcsInFlight
  else
    match ch.checkState s with
    | .error e => .error e
    | .ok () =>
      let a := payoutAfterFee s.balanceA .a ch.fee
      let output :=
        (if dust ≤ a then [payTo a (Hitch.toRemoteScript ch.keys.1)] else []) ++
        (if dust ≤ s.balanceB then [payTo s.balanceB (Hitch.toRemoteScript ch.keys.2)] else [])
      if output = [] then .error .nothingToPay
      else .ok (oneInputTx ch.fundingOutpoint inputSequence 0 output)

/-- A signature on a spend of the funding output. -/
def signFunding (tx : Transaction) (key : SecretKey) (rules : SighashRules) (aux : Hash256) :
    Except ProtocolError Sig :=
  match Hitch.signLeaf tx [ch.fundingPrevout] ch.fundingScript.leaf.leafHash key rules aux with
  | some sig => .ok sig
  | none => .error (.channel .sighash)

def verifyFunding (tx : Transaction) (pubkey : Point) (sig : Sig) (rules : SighashRules) : Bool :=
  Hitch.verifyLeafSignature tx [ch.fundingPrevout] ch.fundingScript.leaf.leafHash pubkey sig rules

omit [Hitch] in
/-- The witness of two signatures, the first key's on top. -/
def fundingWitness (signatures : List (Point × Sig)) : Except ProtocolError (List Bytes) :=
  match signatures.lookup ch.fundingScript.signers.2,
      signatures.lookup ch.fundingScript.signers.1 with
  | some second, some first =>
    .ok [second, first, ch.fundingScript.leaf.script, ch.fundingScript.leaf.controlBlock]
  | _, _ => .error (.channel .missingSignature)

end Channel

/-! ### Claims -/

inductive SweepPath
  | delayed | revocation
  deriving DecidableEq

inductive HtlcClaimPath
  | success | timeout | revocation
  deriving DecidableEq

omit [Hitch] in
/-- What a claim pays after the fee, when it is worth claiming. -/
def claimValue (value fee : ℕ) : Except ChannelError ℕ :=
  match (Word.checkedSub value fee).filter fun v => dust ≤ v with
  | some v => .ok v
  | none => .error .dustClaim

omit [Hitch] in
/-- A transaction with its only witness. -/
def withWitness (tx : Transaction) (witness : List Bytes) : Transaction :=
  { tx with input := tx.input.map fun i => { i with witness } }

/-- A claim of the owner's delayed output, by the delayed path or, with the
revocation key, at once. -/
def sweepToLocal (c : Commitment) (path : SweepPath) (destination : Bytes) (fee : ℕ)
    (key : SecretKey) (rules : SighashRules) (aux : Hash256) : Except ChannelError Transaction :=
  match c.toLocalVout with
  | none => .error .missingOutput
  | some vout =>
    match claimValue c.localValue fee with
    | .error e => .error e
    | .ok value =>
      let leaf := if path = .delayed then c.toLocal.delayed else c.toLocal.revocation
      let sequence := if path = .delayed then UInt32.ofNat c.delay else inputSequence
      let tx := oneInputTx (outPointAt (Bitcoin.computeTxid c.tx) vout) sequence 0
        [payTo value destination]
      match Hitch.signLeaf tx [payTo c.localValue c.toLocal.scriptPubkey] leaf.leafHash key rules
          aux with
      | none => .error .sighash
      | some sig => .ok (withWitness tx [sig, leaf.script, leaf.controlBlock])

/-- A claim of an HTLC output. -/
def claimHtlc (c : Commitment) (h : CommitmentHtlc) (path : HtlcClaimPath) (destination : Bytes)
    (fee : ℕ) (preimage : Option Preimage) (key : SecretKey) (rules : SighashRules)
    (aux : Hash256) : Except ChannelError Transaction :=
  let leaf := match path with
    | .success => h.scripts.success
    | .timeout => h.scripts.timeout
    | .revocation => h.scripts.revocation
  let lockTime := if path = .timeout then UInt32.ofNat h.htlc.expiry else 0
  let sequence := if path = .revocation then inputSequence
    else if leaf.csv then UInt32.ofNat c.delay else locktimeSequence
  match claimValue h.htlc.amount fee with
  | .error e => .error e
  | .ok value =>
    let tx := oneInputTx (outPointAt (Bitcoin.computeTxid c.tx) h.vout) sequence lockTime
      [payTo value destination]
    match Hitch.signLeaf tx [payTo h.htlc.amount h.scripts.scriptPubkey] leaf.leafHash key rules
        aux with
    | none => .error .sighash
    | some sig =>
      if path = .success then
        match preimage with
        | none => .error .missingPreimage
        | some p => .ok (withWitness tx [sig, displayBytes p, leaf.script, leaf.controlBlock])
      else .ok (withWitness tx [sig, leaf.script, leaf.controlBlock])

/-! ### Values -/

namespace Channel

variable {ch : Channel}

omit [Hitch] in
/-- A payout that has no output. -/
def trimmed (value : ℕ) : ℕ := if value < dust then value else 0

omit [Hitch] in
theorem payTo_sats {value : ℕ} (h : value < 2 ^ 64) (script : Bytes) :
    (payTo value script).sats = value := by
  unfold payTo TxOut.sats
  exact UInt64.toNat_ofNat_of_lt' h

omit [Hitch] in
/-- The state's parts sum to the funding. -/
theorem checkState_ok {s : ChannelState} (h : ch.checkState s = .ok ()) :
    s.balanceA + s.balanceB + (s.htlcs.map Htlc.amount).sum = ch.fundingValue := by
  unfold checkState at h
  split at h
  · cases h
  · rename_i total htotal
    split at h
    · rename_i hfunding
      unfold stateTotal at htotal
      rw [Option.bind_eq_some_iff] at htotal
      obtain ⟨both, hboth, htotal⟩ := htotal
      rw [Word.checkedAdd_eq_some] at hboth
      rw [Word.checkedSum_eq_some (by omega)] at htotal
      omega
    · cases h

/-- With every HTLC above dust, the HTLC outputs carry the HTLCs' amounts. -/
theorem htlcOutputs_value {owner : Side} {revocation : Point} :
    ∀ {hs : List Htlc} {vout : ℕ} {outs : List TxOut} {infos : List CommitmentHtlc},
      ch.htlcOutputs owner revocation vout hs = .ok (outs, infos) →
      (∀ h ∈ hs, dust ≤ h.amount ∧ h.amount < 2 ^ 64) →
      (outs.map TxOut.sats).sum = (hs.map Htlc.amount).sum
  | [], vout, outs, infos, h, _ => by
    unfold htlcOutputs at h
    cases h
    rfl
  | x :: hs, vout, outs, infos, h, hdust => by
    obtain ⟨hx, hx'⟩ := hdust x List.mem_cons_self
    unfold htlcOutputs at h
    split at h
    · cases h
    rw [if_neg (by omega)] at h
    dsimp only at h
    split at h
    · cases h
    split at h
    · cases h
    · rename_i scripts _ _ outs' infos' hrest
      cases h
      have ih := htlcOutputs_value hrest fun y hy => hdust y (List.mem_cons_of_mem x hy)
      rw [List.map_cons, List.sum_cons, List.map_cons, List.sum_cons, ih, payTo_sats hx']

omit [Hitch] in
/-- An output for what is not dust. -/
theorem payout_value (value : ℕ) (h : value < 2 ^ 64) (script : Bytes) :
    ((if dust ≤ value then [payTo value script] else []).map TxOut.sats).sum + trimmed value =
      value := by
  unfold trimmed
  split_ifs
  · omega
  · rw [List.map_singleton, List.sum_singleton, payTo_sats h, Nat.add_zero]
  · rw [List.map_nil, List.sum_nil, Nat.zero_add]
  · omega

omit [Hitch] in
/-- The payouts of the two sides, whoever the owner is. -/
theorem payouts_symm (f : ℕ → ℕ) (s : ChannelState) (owner : Side) (fee : ℕ) :
    f (payoutAfterFee (s.balance owner) owner fee) +
      f (payoutAfterFee (s.balance owner.other) owner.other fee) =
      f (s.balanceA - fee) + f s.balanceB := by
  cases owner
  · rfl
  · exact Nat.add_comm _ _

/-- **The outputs of a commitment.** They carry the funding less the fee and the
payouts below dust. -/
theorem commitment_value {number : ℕ} {owner : Side} {s : ChannelState} {c : Commitment}
    (h : ch.commitment number owner s = .ok c) (hvalue : ch.fundingValue < 2 ^ 64)
    (hfee : ch.fee ≤ s.balanceA) (hdust : ∀ h ∈ s.htlcs, dust ≤ h.amount) :
    (c.tx.output.map TxOut.sats).sum + (trimmed (s.balanceA - ch.fee) + trimmed s.balanceB) =
      ch.fundingValue - ch.fee := by
  unfold commitment at h
  split at h
  · cases h
  rename_i hcheck
  have htotal := checkState_ok hcheck
  dsimp only at h
  split at h
  · cases h
  split at h
  · cases h
  rename_i toLocal _ _ outs infos houts
  rcases ite_eq_iff.mp h with ⟨-, h⟩ | ⟨-, h⟩
  · cases h
  cases h
  have hperm := List.mergeSort_perm s.htlcs fun x y => decide (x.id ≤ y.id)
  have hamounts := htlcOutputs_value houts fun x hx => by
    have hx := hperm.mem_iff.mp hx
    have hle := List.single_le_sum (fun _ _ => Nat.zero_le _) x.amount
      (List.mem_map.mpr ⟨x, hx, rfl⟩)
    exact ⟨hdust x hx, by omega⟩
  rw [(hperm.map Htlc.amount).sum_eq] at hamounts
  have hpayouts := payouts_symm (fun v => v) s owner ch.fee
  have htrimmed := payouts_symm trimmed s owner ch.fee
  have hlocal := payout_value (payoutAfterFee (s.balance owner) owner ch.fee) (by omega)
    toLocal.scriptPubkey
  have hremote := payout_value (payoutAfterFee (s.balance owner.other) owner.other ch.fee)
    (by omega) (Hitch.toRemoteScript (ch.key owner.other))
  unfold oneInputTx
  simp only [List.map_append, List.sum_append]
  omega

/-- The cooperative close carries the funding less the fee and the payouts below dust. -/
theorem cooperativeClose_value {s : ChannelState} {tx : Transaction}
    (h : ch.cooperativeClose s = .ok tx) (hvalue : ch.fundingValue < 2 ^ 64)
    (hfee : ch.fee ≤ s.balanceA) :
    (tx.output.map TxOut.sats).sum + (trimmed (s.balanceA - ch.fee) + trimmed s.balanceB) =
      ch.fundingValue - ch.fee := by
  unfold cooperativeClose at h
  split at h
  · cases h
  rename_i hnone
  split at h
  · cases h
  rename_i hcheck
  have htotal := checkState_ok hcheck
  rw [not_not.mp hnone, List.map_nil, List.sum_nil] at htotal
  dsimp only at h
  rcases ite_eq_iff.mp h with ⟨-, h⟩ | ⟨-, h⟩
  · cases h
  cases h
  have hlocal := payout_value (s.balanceA - ch.fee) (by omega)
    (Hitch.toRemoteScript ch.keys.1)
  have hremote := payout_value s.balanceB (by omega) (Hitch.toRemoteScript ch.keys.2)
  unfold oneInputTx payoutAfterFee
  simp only [List.map_append, List.sum_append]
  omega

end Channel

end

end Hitch

end Sidestr
