/-
# The opening handshake

How two peers get a channel (`opening.rs`): the funder proposes, the receiver
accepts with its signature on the funder's first commitment, the funder checks
it and commits with its own, and the receiver is ready. Each announced point
comes with a proof of possession, and each half checks what it is told before
it signs.

A half that signed has everything its machine needs, so the last step of the
funder does not fail (`AcceptedFunder.machine_ok`), and both halves hand over
an opening that runs start from, with both first commitments built
(`AcceptedFunder.handed`, `ReceiverOpening.handed`). The two handovers of one
exchange are mirrors of each other (`mirror_of_exchange`).

Key definitions: `FunderOpening.propose`, `FunderOpening.accept`,
`ReceiverOpening.accept`, `ReceiverOpening.commit`, `Mirror`.
Key theorems: `AcceptedFunder.handed`, `ReceiverOpening.handed`,
`mirror_of_exchange`, `Mirror.commitments`.
-/
import Sidestr.Hitch.Restart

namespace Sidestr

open Hitch in
/-- The proofs of possession of a revocation basepoint, beside those of the
per-state points. -/
class OpeningHitch extends Hitch where
  popSignBase : { b : Hash256 // validSecret b = true } → ChannelId → Side → Hash256 → Bytes
  popVerifyBase : Point → Bytes → ChannelId → Side → Bool

namespace Hitch

def minOpen : ℕ := 10000
def maxHubFee : ℕ := 100000

inductive OpeningError
  | samePeer | wrongPeer | fundingVout | fundingValue | delayBelowPolicy | hubFee
  | protocol (error : ProtocolError)
  deriving DecidableEq

/-- A result of the machine as one of the handshake. -/
def ofMachine {α : Type} : Res ProtocolError α → Res OpeningError α
  | .ok a => .ok a
  | .err e => .err (.protocol e)
  | .panic => .panic

theorem ofMachine_eq_ok {α : Type} {x : Res ProtocolError α} {a : α} :
    ofMachine x = .ok a ↔ x = .ok a := by
  cases x <;> simp [ofMachine]

/-! ### Messages -/

/-- The proofs at the basepoint and at states zero and one. -/
structure RevocationProofs where
  base : Bytes
  rev : Bytes × Bytes
  deriving DecidableEq

structure FundingOffer where
  txid : Txid
  vout : UInt32
  value : ℕ
  deriving DecidableEq

structure OpenMessage where
  id : ChannelId
  funding : FundingOffer
  push : ℕ
  delay : ℕ
  fee : ℕ
  a : Point
  b : Point
  rev : Point × Point
  revBase : Point
  pop : RevocationProofs
  hubFee : Option ℕ
  deriving DecidableEq

structure AcceptMessage where
  id : ChannelId
  rev : Point × Point
  revBase : Point
  pop : RevocationProofs
  sig : Sig
  hubFee : Option ℕ
  deriving DecidableEq

def hubFeeOk (fee : Option ℕ) : Bool := fee.all fun f => f ≤ maxHubFee

def OpenMessage.wellFormed (m : OpenMessage) : Res OpeningError Unit :=
  Res.refuseIf (!(decide (m.funding.vout.toNat < 2 ^ 16) &&
    decide (minOpen ≤ m.funding.value ∧ m.funding.value ≤ maxSats) &&
    m.id == channelIdOf m.funding.txid && decide (minDelay ≤ m.delay ∧ m.delay ≤ maxDelay) &&
    decide (minFee ≤ m.fee ∧ m.fee ≤ maxFee) && m.a != m.b && hubFeeOk m.hubFee))
    (.protocol (.malformed "bad open".toList))

def AcceptMessage.wellFormed (m : AcceptMessage) : Res OpeningError Unit :=
  Res.refuseIf (!hubFeeOk m.hubFee) (.protocol (.malformed "bad accept".toList))

structure OpenParams where
  funding : OutPoint
  fundingValue : ℕ
  push : ℕ
  delay : ℕ
  fee : ℕ
  hubFee : Option ℕ
  deriving DecidableEq

structure AcceptPolicy where
  minDelay : ℕ
  hubFee : Option ℕ
  deriving DecidableEq

def validateHubFee (fee : Option ℕ) : Res OpeningError Unit := Res.refuseIf (!hubFeeOk fee) .hubFee

def validateOpen (m : OpenMessage) (sender receiver : Point) (policy : AcceptPolicy) :
    Res OpeningError Unit := do
  m.wellFormed
  Res.refuseIf (m.a != sender || m.b != receiver) .wrongPeer
  Res.refuseIf (decide (m.delay < policy.minDelay)) .delayBelowPolicy
  validateHubFee policy.hubFee
  ofMachine (validatePush m.funding.value m.push m.fee)

section

variable [OpeningHitch]

/-! ### The halves -/

structure OpeningKeys where
  channel : SecretKey
  revocationBase : SecretKey
  revocation : SecretKey × SecretKey

namespace OpeningKeys

variable (keys : OpeningKeys)

def points : Point × Point := (Hitch.public keys.revocation.1, Hitch.public keys.revocation.2)

def basepoint : Point := Hitch.public keys.revocationBase

end OpeningKeys

def proofs (id : ChannelId) (role : Side) (keys : OpeningKeys) (aux : Hash256) :
    RevocationProofs where
  base := OpeningHitch.popSignBase keys.revocationBase id role aux
  rev := (Hitch.popSign keys.revocation.1 ⟨id, role, 0⟩ aux,
    Hitch.popSign keys.revocation.2 ⟨id, role, 1⟩ aux)

def proofsHold (id : ChannelId) (role : Side) (base : Point) (rev : Point × Point)
    (pop : RevocationProofs) : Bool :=
  OpeningHitch.popVerifyBase base pop.base id role &&
    Hitch.popVerify rev.1 pop.rev.1 ⟨id, role, 0⟩ && Hitch.popVerify rev.2 pop.rev.2 ⟨id, role, 1⟩

/-- A two-party revocation key, when the points have a sum. -/
def revocationView (point : Point) (scalar : SecretKey) : Res OpeningError Point :=
  Res.okOr (.protocol (.channel .revocationKey)) (Hitch.revocationPub point scalar)

/-- State zero as its transactions are built. -/
def openingState (s : ProtocolState) (revocation : Point) : ChannelState :=
  ⟨s.balanceA, s.balanceB, revocation, []⟩

/-- One side's commitment at state zero. -/
def openingCommitment (ch : Channel) (owner : Side) (s : ProtocolState) (revocation : Point) :
    Res OpeningError Commitment :=
  ofMachine (ofExcept (ch.commitment 0 owner (openingState s revocation)))

/-- The funder, once it proposed. -/
structure FunderOpening where
  id : ChannelId
  channel : Channel
  keys : OpeningKeys
  initialState : ProtocolState
  message : OpenMessage
  rules : SighashRules

/-- The funder, once it checked the receiver's signature and sent its own. -/
structure AcceptedFunder where
  opening : FunderOpening
  theirRevocation : Point × Point
  theirRevocationBase : Point
  theirSignatureZero : Sig
  peerHubFee : Option ℕ
  commit : CommitMessage

/-- The receiver, once it signed the funder's first commitment. -/
structure ReceiverOpening where
  id : ChannelId
  channel : Channel
  keys : OpeningKeys
  initialState : ProtocolState
  theirRevocation : Point × Point
  theirRevocationBase : Point
  peerHubFee : Option ℕ
  message : AcceptMessage
  rules : SighashRules

inductive FunderSync
  | resendCommit (commit : CommitMessage)
  | ready (machine : ChannelMachine)
  | waiting

/-- The message a funder sends for its parameters. -/
def openMessageOf (params : OpenParams) (keys : OpeningKeys) (peer : Point) (aux : Hash256) :
    OpenMessage :=
  let id := channelIdOf params.funding.txid
  { id
    funding := ⟨params.funding.txid, params.funding.vout, params.fundingValue⟩
    push := params.push
    delay := params.delay
    fee := params.fee
    a := Hitch.public keys.channel
    b := peer
    rev := keys.points
    revBase := keys.basepoint
    pop := proofs id .a keys aux
    hubFee := params.hubFee }

def FunderOpening.propose (params : OpenParams) (keys : OpeningKeys) (peer : Point)
    (rules : SighashRules) (aux : Hash256) : Res OpeningError (FunderOpening × OpenMessage) := do
  validateHubFee params.hubFee
  Res.refuseIf (decide (2 ^ 16 ≤ params.funding.vout.toNat)) .fundingVout
  Res.refuseIf (decide (¬ (minOpen ≤ params.fundingValue ∧ params.fundingValue ≤ maxSats)))
    .fundingValue
  let mine := Hitch.public keys.channel
  Res.refuseIf (mine == peer) .samePeer
  ofMachine (validatePush params.fundingValue params.push params.fee)
  let channel ← ofMachine (ofExcept (Channel.new mine peer params.funding params.fundingValue
    params.fee params.delay))
  let initialState ← ofMachine (Hitch.initialState params.fundingValue params.push)
  let message := openMessageOf params keys peer aux
  .ok (⟨message.id, channel, keys, initialState, message, rules⟩, message)

/-- The receiver's signature is checked before this one is made. -/
def FunderOpening.accept (f : FunderOpening) (m : AcceptMessage) (aux : Hash256) :
    Res OpeningError (AcceptedFunder × CommitMessage) := do
  m.wellFormed
  Res.refuseIf (m.id != f.id) (.protocol .wrongChannel)
  Res.refuseIf (!proofsHold f.id .b m.revBase m.rev m.pop) (.protocol .missingProof)
  let aView ← revocationView m.revBase f.keys.revocation.1
  let bView ← revocationView m.rev.1 f.keys.revocationBase
  let mine ← openingCommitment f.channel .a f.initialState aView
  Res.refuseIf (!f.channel.verifyFunding mine.tx (f.channel.key .b) m.sig f.rules)
    (.protocol .badSignature)
  let theirs ← openingCommitment f.channel .b f.initialState bView
  let sig ← ofMachine (ofProtocol (f.channel.signFunding theirs.tx f.keys.channel f.rules aux))
  let commit := ⟨f.id, sig⟩
  .ok (⟨f, m.rev, m.revBase, m.sig, m.hubFee, commit⟩, commit)

namespace AcceptedFunder

variable (acc : AcceptedFunder)

/-- What the funder's machine is made of. -/
def opened : Opened where
  id := acc.opening.id
  role := .a
  channel := acc.opening.channel
  initialState := acc.opening.initialState
  channelKey := acc.opening.keys.channel
  revocationBase := acc.opening.keys.revocationBase
  revocation := acc.opening.keys.revocation
  theirRevocationBase := acc.theirRevocationBase
  theirRevocation := acc.theirRevocation
  theirSignatureZero := acc.theirSignatureZero
  peerHubFee := acc.peerHubFee
  rules := acc.opening.rules

def machine : Res OpeningError ChannelMachine := ofMachine (ChannelMachine.new acc.opened)

def ready (id : ChannelId) : Res OpeningError ChannelMachine := do
  Res.refuseIf (id != acc.opening.id) (.protocol .wrongChannel)
  acc.machine

/-- A receiver that reports `accepted` never got the commit; one that reports
`funding` or `open` sent a ready that was lost. -/
def receiveSync (m : SyncMessage) : Res OpeningError FunderSync := do
  ofMachine (ofProtocol m.wellFormed)
  Res.refuseIf (m.id != acc.opening.id) (.protocol .wrongChannel)
  if m.status = some "accepted".toList then .ok (.resendCommit acc.commit)
  else if m.status = some "funding".toList ∨ m.status = some "open".toList then do
    let machine ← acc.machine
    .ok (.ready machine)
  else .ok .waiting

end AcceptedFunder

namespace ReceiverOpening

/-- The proofs and parameters are checked before anything is signed. -/
def accept (m : OpenMessage) (sender : Point) (keys : OpeningKeys) (rules : SighashRules)
    (policy : AcceptPolicy) (aux : Hash256) :
    Res OpeningError (ReceiverOpening × AcceptMessage) := do
  validateOpen m sender (Hitch.public keys.channel) policy
  Res.refuseIf (!proofsHold m.id .a m.revBase m.rev m.pop) (.protocol .missingProof)
  let channel ← ofMachine (ofExcept (Channel.new m.a m.b ⟨m.funding.txid, m.funding.vout⟩
    m.funding.value m.fee m.delay))
  let state ← ofMachine (Hitch.initialState m.funding.value m.push)
  let aView ← revocationView m.rev.1 keys.revocationBase
  let _ ← revocationView m.revBase keys.revocation.1
  let commitment ← openingCommitment channel .a state aView
  let sig ← ofMachine (ofProtocol (channel.signFunding commitment.tx keys.channel rules aux))
  let response := ⟨m.id, keys.points, keys.basepoint, proofs m.id .b keys aux, sig, policy.hubFee⟩
  .ok (⟨m.id, channel, keys, state, m.rev, m.revBase, m.hubFee, response, rules⟩, response)

variable (r : ReceiverOpening)

/-- What the receiver's machine is made of, with the funder's signature. -/
def opened (sig : Sig) : Opened where
  id := r.id
  role := .b
  channel := r.channel
  initialState := r.initialState
  channelKey := r.keys.channel
  revocationBase := r.keys.revocationBase
  revocation := r.keys.revocation
  theirRevocationBase := r.theirRevocationBase
  theirRevocation := r.theirRevocation
  theirSignatureZero := sig
  peerHubFee := r.peerHubFee
  rules := r.rules

/-- The machine and the channel id of the ready. -/
def commit (m : CommitMessage) : Res OpeningError (ChannelMachine × ChannelId) := do
  Res.refuseIf (m.id != r.id) (.protocol .wrongChannel)
  let machine ← ofMachine (ChannelMachine.new (r.opened m.sig))
  .ok (machine, r.id)

end ReceiverOpening

/-! ### What a half has checked -/

omit [OpeningHitch] in
theorem openingState_eq (s : ProtocolState) (revocation : Point) (h : s.htlcs = []) :
    openingState s revocation = ChannelMachine.channelState s revocation := by
  unfold openingState ChannelMachine.channelState
  rw [h]
  rfl

theorem revocationView_ok {point p : Point} {scalar : SecretKey} :
    revocationView point scalar = .ok p ↔ Hitch.revocationPub point scalar = some p :=
  Res.okOr_eq_ok

theorem openingCommitment_ok {ch : Channel} {owner : Side} {s : ProtocolState} {p : Point}
    {c : Commitment} (h : openingCommitment ch owner s p = .ok c) (hnone : s.htlcs = []) :
    ch.commitment 0 owner (ChannelMachine.channelState s p) = .ok c := by
  unfold openingCommitment at h
  rw [ofMachine_eq_ok, ofExcept_eq_ok, openingState_eq s p hnone] at h
  exact h

omit [OpeningHitch] in
theorem ofProtocol_eq_ok {α : Type} {x : Except ProtocolError α} {a : α} :
    ofProtocol x = .ok a ↔ x = .ok a := by
  cases x <;> simp [ofProtocol]

omit [OpeningHitch] in
theorem initialState_htlcs {funding push : ℕ} {s : ProtocolState}
    (h : initialState funding push = .ok s) : s.htlcs = [] := by
  unfold initialState at h
  obtain ⟨_, -, h⟩ := Res.bind_eq_ok.mp h
  cases h
  rfl

/-- A channel is the one its own parameters make. -/
theorem Channel.new_self {a b : Point} {outpoint : OutPoint} {value fee delay : ℕ} {ch : Channel}
    (h : Channel.new a b outpoint value fee delay = .ok ch) :
    ch.keys = (a, b) ∧ ch.fundingOutpoint = outpoint ∧ ch.fundingValue = value ∧ ch.fee = fee ∧
      ch.delay = delay := by
  unfold Channel.new at h
  split_ifs at h
  split at h
  · cases h
    exact ⟨rfl, rfl, rfl, rfl, rfl⟩
  · cases h

/-- The terms of a channel that both halves of a handshake check. -/
structure Terms (id : ChannelId) (ch : Channel) (s : ProtocolState) (params : OpenParams)
    (a b : Point) : Prop where
  id : id = channelIdOf params.funding.txid
  value : params.fundingValue ≤ maxSats
  channel : Channel.new a b params.funding params.fundingValue params.fee params.delay = .ok ch
  push : validatePush params.fundingValue params.push params.fee = .ok ()
  state : initialState params.fundingValue params.push = .ok s

namespace Terms

variable {id id' : ChannelId} {ch ch' : Channel} {s s' : ProtocolState} {params : OpenParams}
  {a b : Point}

theorem keys (h : Terms id ch s params a b) : ch.keys = (a, b) := (Channel.new_self h.channel).1

/-- The parameters determine the rest. -/
theorem unique (h : Terms id ch s params a b) (h' : Terms id' ch' s' params a b) :
    id = id' ∧ ch = ch' ∧ s = s' := by
  refine ⟨h.id.trans h'.id.symm, ?_, ?_⟩
  · have hch := h.channel.symm.trans h'.channel
    cases hch
    rfl
  · have hs := h.state.symm.trans h'.state
    cases hs
    rfl

/-- An opening on checked terms is one that runs start from. -/
theorem valid {o : Opened} (h : Terms o.id o.channel o.initialState params a b) : o.Valid := by
  obtain ⟨hkeys, hout, hvalue, hfee, hdelay⟩ := Channel.new_self h.channel
  refine ⟨?_, ?_, ?_, params.push, ?_, ?_⟩
  · rw [hout]
    exact h.id
  · rw [hvalue]
    exact h.value
  · rw [hkeys, hout, hvalue, hfee, hdelay]
    exact h.channel
  · rw [hvalue, hfee]
    exact h.push
  · rw [hvalue]
    exact h.state

end Terms

/-- A proposal: its terms, and the message of its parameters. -/
structure FunderOpening.Proposed (f : FunderOpening) (params : OpenParams) (keys : OpeningKeys)
    (peer : Point) (rules : SighashRules) (aux : Hash256) : Prop where
  terms : Terms f.id f.channel f.initialState params (Hitch.public keys.channel) peer
  apart : Hitch.public keys.channel ≠ peer
  least : minOpen ≤ params.fundingValue
  vout : params.funding.vout.toNat < 2 ^ 16
  hubFee : hubFeeOk params.hubFee = true
  held : f.keys = keys
  message : f.message = openMessageOf params keys peer aux
  signing : f.rules = rules

theorem FunderOpening.propose_ok {params : OpenParams} {keys : OpeningKeys} {peer : Point}
    {rules : SighashRules} {aux : Hash256} {f : FunderOpening} {m : OpenMessage}
    (h : FunderOpening.propose params keys peer rules aux = .ok (f, m)) :
    f.Proposed params keys peer rules aux ∧ m = f.message := by
  unfold propose at h
  obtain ⟨_, hhub, h⟩ := Res.bind_eq_ok.mp h
  obtain ⟨_, hvout, h⟩ := Res.bind_eq_ok.mp h
  obtain ⟨_, hvalue, h⟩ := Res.bind_eq_ok.mp h
  obtain ⟨_, hsame, h⟩ := Res.bind_eq_ok.mp h
  obtain ⟨_, hpush, h⟩ := Res.bind_eq_ok.mp h
  obtain ⟨channel, hchannel, h⟩ := Res.bind_eq_ok.mp h
  obtain ⟨s, hs, h⟩ := Res.bind_eq_ok.mp h
  cases h
  unfold validateHubFee at hhub
  rw [Res.refuseIf_eq_ok] at hhub hvout hvalue hsame
  rw [decide_eq_false_iff_not, not_le] at hvout
  rw [decide_eq_false_iff_not, not_not] at hvalue
  rw [ofMachine_eq_ok] at hpush hs hchannel
  rw [ofExcept_eq_ok] at hchannel
  exact ⟨⟨⟨rfl, hvalue.2, hchannel, hpush, hs⟩, by simpa using hsame, hvalue.1, hvout,
    by simpa using hhub, rfl, rfl, rfl⟩, rfl⟩

/-- The terms of an `open`. -/
def OpenMessage.params (m : OpenMessage) : OpenParams :=
  ⟨⟨m.funding.txid, m.funding.vout⟩, m.funding.value, m.push, m.delay, m.fee, m.hubFee⟩

theorem openMessageOf_params (params : OpenParams) (keys : OpeningKeys) (peer : Point)
    (aux : Hash256) : (openMessageOf params keys peer aux).params = params := rfl

/-- What a funder that committed has: both first commitments, and the
receiver's signature on its own. -/
structure AcceptedFunder.Checked (acc : AcceptedFunder) (f : FunderOpening) (m : AcceptMessage)
    (aux : Hash256) : Prop where
  opening : acc.opening = f
  id : m.id = f.id
  points : acc.theirRevocation = m.rev
  base : acc.theirRevocationBase = m.revBase
  sig : acc.theirSignatureZero = m.sig
  proved : proofsHold f.id .b m.revBase m.rev m.pop = true
  mine : ∃ p c, Hitch.revocationPub m.revBase f.keys.revocation.1 = some p ∧
    openingCommitment f.channel .a f.initialState p = .ok c ∧
    f.channel.verifyFunding c.tx (f.channel.key .b) m.sig f.rules = true
  theirs : ∃ p c, Hitch.revocationPub m.rev.1 f.keys.revocationBase = some p ∧
    openingCommitment f.channel .b f.initialState p = .ok c ∧
    f.channel.signFunding c.tx f.keys.channel f.rules aux = .ok acc.commit.sig
  commit : acc.commit.id = f.id

theorem FunderOpening.accept_ok {f : FunderOpening} {m : AcceptMessage} {aux : Hash256}
    {acc : AcceptedFunder} {commit : CommitMessage} (h : f.accept m aux = .ok (acc, commit)) :
    acc.Checked f m aux ∧ commit = acc.commit := by
  unfold accept at h
  obtain ⟨_, -, h⟩ := Res.bind_eq_ok.mp h
  obtain ⟨_, hid, h⟩ := Res.bind_eq_ok.mp h
  obtain ⟨_, hproofs, h⟩ := Res.bind_eq_ok.mp h
  obtain ⟨aView, ha, h⟩ := Res.bind_eq_ok.mp h
  obtain ⟨bView, hb, h⟩ := Res.bind_eq_ok.mp h
  obtain ⟨mine, hmine, h⟩ := Res.bind_eq_ok.mp h
  obtain ⟨_, hsig, h⟩ := Res.bind_eq_ok.mp h
  obtain ⟨theirs, htheirs, h⟩ := Res.bind_eq_ok.mp h
  obtain ⟨sig, hsigned, h⟩ := Res.bind_eq_ok.mp h
  cases h
  rw [Res.refuseIf_eq_ok] at hid hproofs hsig
  rw [revocationView_ok] at ha hb
  rw [ofMachine_eq_ok, ofProtocol_eq_ok] at hsigned
  exact ⟨⟨rfl, by simpa using hid, rfl, rfl, rfl, by simpa using hproofs,
    ⟨aView, mine, ha, hmine, by simpa using hsig⟩, ⟨bView, theirs, hb, htheirs, hsigned⟩, rfl⟩, rfl⟩

/-- What a receiver that accepted has: its terms, and its signature on the
funder's first commitment. -/
structure ReceiverOpening.Checked (r : ReceiverOpening) (m : OpenMessage) (sender : Point)
    (keys : OpeningKeys) (rules : SighashRules) (aux : Hash256) : Prop where
  terms : Terms r.id r.channel r.initialState m.params m.a m.b
  id : r.id = m.id
  sender : m.a = sender
  me : m.b = Hitch.public keys.channel
  held : r.keys = keys
  points : r.theirRevocation = m.rev
  base : r.theirRevocationBase = m.revBase
  signing : r.rules = rules
  proved : proofsHold m.id .a m.revBase m.rev m.pop = true
  theirs : ∃ p c, Hitch.revocationPub m.rev.1 keys.revocationBase = some p ∧
    openingCommitment r.channel .a r.initialState p = .ok c ∧
    r.channel.signFunding c.tx keys.channel rules aux = .ok r.message.sig
  view : (Hitch.revocationPub m.revBase keys.revocation.1).isSome = true
  message : r.message = ⟨m.id, keys.points, keys.basepoint, proofs m.id .b keys aux,
    r.message.sig, r.message.hubFee⟩
  hubFee : hubFeeOk r.message.hubFee = true

theorem ReceiverOpening.accept_ok {m : OpenMessage} {sender : Point} {keys : OpeningKeys}
    {rules : SighashRules} {policy : AcceptPolicy} {aux : Hash256} {r : ReceiverOpening}
    {response : AcceptMessage}
    (h : ReceiverOpening.accept m sender keys rules policy aux = .ok (r, response)) :
    r.Checked m sender keys rules aux ∧ response = r.message := by
  unfold accept at h
  obtain ⟨_, hopen, h⟩ := Res.bind_eq_ok.mp h
  obtain ⟨_, hproofs, h⟩ := Res.bind_eq_ok.mp h
  obtain ⟨channel, hchannel, h⟩ := Res.bind_eq_ok.mp h
  obtain ⟨s, hs, h⟩ := Res.bind_eq_ok.mp h
  obtain ⟨aView, ha, h⟩ := Res.bind_eq_ok.mp h
  obtain ⟨bView, hb, h⟩ := Res.bind_eq_ok.mp h
  obtain ⟨c, hc, h⟩ := Res.bind_eq_ok.mp h
  obtain ⟨sig, hsig, h⟩ := Res.bind_eq_ok.mp h
  cases h
  unfold validateOpen OpenMessage.wellFormed at hopen
  obtain ⟨_, hwell, hopen⟩ := Res.bind_eq_ok.mp hopen
  obtain ⟨_, hpeers, hopen⟩ := Res.bind_eq_ok.mp hopen
  obtain ⟨_, -, hopen⟩ := Res.bind_eq_ok.mp hopen
  obtain ⟨_, hhub, hpush⟩ := Res.bind_eq_ok.mp hopen
  unfold validateHubFee at hhub
  rw [Res.refuseIf_eq_ok] at hwell hpeers hproofs hhub
  rw [Bool.or_eq_false_iff, bne_eq_false_iff_eq, bne_eq_false_iff_eq] at hpeers
  rw [revocationView_ok] at ha hb
  rw [ofMachine_eq_ok] at hpush hchannel hs hsig
  rw [ofExcept_eq_ok] at hchannel
  rw [ofProtocol_eq_ok] at hsig
  simp only [Bool.not_eq_false', Bool.and_eq_true, decide_eq_true_eq, beq_iff_eq] at hwell
  obtain ⟨⟨⟨⟨⟨⟨-, hvalue⟩, hid⟩, -⟩, -⟩, -⟩, -⟩ := hwell
  exact ⟨⟨⟨hid, hvalue.2, hchannel, hpush, hs⟩, rfl, hpeers.1, hpeers.2, rfl, rfl, rfl, rfl,
    by simpa using hproofs, ⟨aView, c, ha, hc, hsig⟩, by rw [hb]; rfl, rfl,
    by simpa using hhub⟩, rfl⟩

end

section

variable [Hitch]

/-! ### What a half hands over -/

theorem machine_state_zero (o : Opened) : o.machine.state 0 = .ok o.initialState := by
  unfold ChannelMachine.state Opened.machine
  dsimp only
  rw [Finmap.lookup_insert, Res.okOr_some]

theorem machine_revocation_zero (o : Opened) :
    o.machine.myRevocation.lookup 0 = some o.revocation.1 := by
  unfold Opened.machine
  dsimp only
  rw [Finmap.lookup_insert_of_ne _ Nat.zero_ne_one, Finmap.lookup_insert]

theorem machine_point_zero (o : Opened) :
    o.machine.theirRevocationPublic.lookup 0 = some o.theirRevocation.1 := by
  unfold Opened.machine
  dsimp only
  rw [Finmap.lookup_insert_of_ne _ Nat.zero_ne_one, Finmap.lookup_insert]

/-- This peer's first commitment, from the other side's basepoint. -/
theorem machine_mine {o : Opened} {p : Point} {c : Commitment}
    (hp : Hitch.revocationPub o.theirRevocationBase o.revocation.1 = some p) :
    o.machine.myCommitment 0 = .ok c ↔
      o.channel.commitment 0 o.role (ChannelMachine.channelState o.initialState p) = .ok c := by
  have hview : o.machine.revocationFor o.role 0 = .ok p := by
    unfold ChannelMachine.revocationFor
    rw [if_pos (show o.role = o.machine.role from rfl), machine_revocation_zero, Res.okOr_some, Res.ok_bind]
    exact Res.okOr_eq_ok.mpr hp
  unfold ChannelMachine.myCommitment ChannelMachine.commitmentAt
  rw [machine_state_zero, Res.ok_bind, show o.machine.role = o.role from rfl, hview, Res.ok_bind,
    ofExcept_eq_ok]
  rfl

/-- The other side's first commitment, from its first point. -/
theorem machine_theirs {o : Opened} {p : Point} {c : Commitment}
    (hp : Hitch.revocationPub o.theirRevocation.1 o.revocationBase = some p) :
    o.machine.theirCommitment 0 o.initialState = .ok c ↔
      o.channel.commitment 0 o.role.other (ChannelMachine.channelState o.initialState p) =
        .ok c := by
  have hview : o.machine.revocationFor o.role.other 0 = .ok p := by
    have hne : o.role.other ≠ o.machine.role := by
      change o.role.other ≠ o.role
      cases o.role <;> exact Side.noConfusion
    unfold ChannelMachine.revocationFor
    rw [if_neg hne, machine_point_zero, Res.okOr_some, Res.ok_bind]
    exact Res.okOr_eq_ok.mpr hp
  unfold ChannelMachine.theirCommitment ChannelMachine.commitmentAt
  rw [show o.machine.role = o.role from rfl, hview, Res.ok_bind, ofExcept_eq_ok]
  rfl

/-- A start of runs with both first commitments built. -/
structure Opened.Ready (o : Opened) : Prop where
  valid : o.Valid
  key : Hitch.public o.channelKey = o.channel.key o.role
  mine : ∃ c, o.machine.myCommitment 0 = .ok c
  theirs : ∃ c, o.machine.theirCommitment 0 o.initialState = .ok c

/-- The machine of a ready opening, once the signature on its commitment verifies. -/
theorem Opened.Ready.new_ok {o : Opened} (h : o.Ready) {c : Commitment}
    (hc : o.machine.myCommitment 0 = .ok c)
    (hsig : o.channel.verifyFunding c.tx (o.channel.key o.role.other) o.theirSignatureZero
      o.rules = true) : ChannelMachine.new o = .ok o.machine := by
  unfold ChannelMachine.new
  refine Res.bind_eq_ok.mpr ⟨(), ?_, Res.bind_eq_ok.mpr ⟨c, hc, Res.bind_eq_ok.mpr ⟨(), ?_, rfl⟩⟩⟩
  · rw [Res.refuseIf_eq_ok, bne_eq_false_iff_eq]
    exact h.key
  · rw [Res.refuseIf_eq_ok, Bool.not_eq_false']
    exact hsig

theorem new_eq_machine {o : Opened} {m : ChannelMachine}
    (h : ChannelMachine.new o = .ok m) : m = o.machine := by
  unfold ChannelMachine.new at h
  obtain ⟨_, -, h⟩ := Res.bind_eq_ok.mp h
  obtain ⟨_, -, h⟩ := Res.bind_eq_ok.mp h
  obtain ⟨_, -, h⟩ := Res.bind_eq_ok.mp h
  cases h
  rfl

end

section

variable [OpeningHitch]

/-- **The funder hands over a start of runs.** Everything its machine checks it
has checked before it committed, so being ready does not fail. -/
theorem AcceptedFunder.handed {acc : AcceptedFunder} {f : FunderOpening} {params : OpenParams}
    {keys : OpeningKeys} {peer : Point} {rules : SighashRules} {aux : Hash256} {m : AcceptMessage}
    (hf : f.Proposed params keys peer rules aux) (h : acc.Checked f m aux) :
    acc.opened.Ready ∧ acc.machine = .ok acc.opened.machine := by
  have hterms : Terms acc.opened.id acc.opened.channel acc.opened.initialState params
      (Hitch.public keys.channel) peer := by
    unfold AcceptedFunder.opened
    rw [h.opening]
    exact hf.terms
  have hnone := initialState_htlcs hf.terms.state
  obtain ⟨p, c, hp, hc, hsig⟩ := h.mine
  obtain ⟨p', c', hp', hc', -⟩ := h.theirs
  have hmine : acc.opened.machine.myCommitment 0 = .ok c := by
    refine (machine_mine (p := p) ?_).mpr ?_
    · change Hitch.revocationPub acc.theirRevocationBase acc.opening.keys.revocation.1 = some p
      rw [h.base, h.opening, hp]
    · change acc.opening.channel.commitment 0 .a
        (ChannelMachine.channelState acc.opening.initialState p) = .ok c
      rw [h.opening]
      exact openingCommitment_ok hc hnone
  have htheirs : acc.opened.machine.theirCommitment 0 acc.opened.initialState = .ok c' := by
    refine (machine_theirs (p := p') ?_).mpr ?_
    · change Hitch.revocationPub acc.theirRevocation.1 acc.opening.keys.revocationBase = some p'
      rw [h.points, h.opening, hp']
    · change acc.opening.channel.commitment 0 .b
        (ChannelMachine.channelState acc.opening.initialState p') = .ok c'
      rw [h.opening]
      exact openingCommitment_ok hc' hnone
  have hready : acc.opened.Ready := by
    refine ⟨hterms.valid, ?_, ⟨c, hmine⟩, ⟨c', htheirs⟩⟩
    change Hitch.public acc.opening.keys.channel = acc.opening.channel.keys.1
    rw [h.opening, hf.held, hf.terms.keys]
  refine ⟨hready, ?_⟩
  unfold AcceptedFunder.machine
  rw [ofMachine_eq_ok]
  refine hready.new_ok hmine ?_
  change acc.opening.channel.verifyFunding c.tx (acc.opening.channel.key .b)
    acc.theirSignatureZero acc.opening.rules = true
  rw [h.opening, h.sig]
  exact hsig

/-- **The receiver hands over a start of runs**, with any signature that
verifies on its commitment. -/
theorem ReceiverOpening.handed {r : ReceiverOpening} {m : OpenMessage} {sender : Point}
    {keys : OpeningKeys} {rules : SighashRules} {aux : Hash256}
    (h : r.Checked m sender keys rules aux) {answer : CommitMessage} {machine : ChannelMachine}
    {id : ChannelId} (hcommit : r.commit answer = .ok (machine, id)) :
    (r.opened answer.sig).Ready ∧ ChannelMachine.new (r.opened answer.sig) = .ok machine ∧
      answer.id = r.id ∧ id = r.id := by
  unfold ReceiverOpening.commit at hcommit
  obtain ⟨_, hid, hcommit⟩ := Res.bind_eq_ok.mp hcommit
  obtain ⟨machine', hnew, hcommit⟩ := Res.bind_eq_ok.mp hcommit
  cases hcommit
  rw [Res.refuseIf_eq_ok, bne_eq_false_iff_eq] at hid
  rw [ofMachine_eq_ok] at hnew
  have hterms : Terms (r.opened answer.sig).id (r.opened answer.sig).channel
      (r.opened answer.sig).initialState m.params m.a m.b := h.terms
  have hmine : ∃ c, (r.opened answer.sig).machine.myCommitment 0 = .ok c := by
    unfold ChannelMachine.new at hnew
    obtain ⟨_, -, hnew⟩ := Res.bind_eq_ok.mp hnew
    obtain ⟨c, hc, -⟩ := Res.bind_eq_ok.mp hnew
    exact ⟨c, hc⟩
  obtain ⟨p, c, hp, hc, -⟩ := h.theirs
  have htheirs : (r.opened answer.sig).machine.theirCommitment 0
      (r.opened answer.sig).initialState = .ok c := by
    refine (machine_theirs (p := p) ?_).mpr ?_
    · change Hitch.revocationPub r.theirRevocation.1 r.keys.revocationBase = some p
      rw [h.points, h.held, hp]
    · exact openingCommitment_ok hc (initialState_htlcs h.terms.state)
  refine ⟨⟨hterms.valid, ?_, hmine, ⟨c, htheirs⟩⟩, hnew, hid, rfl⟩
  change Hitch.public r.keys.channel = r.channel.keys.2
  rw [h.held, h.terms.keys, h.me]

/-! ### The two ends of one exchange -/

/-- Each end is the other's, seen from its side. -/
structure Mirror (a b : Opened) : Prop where
  roles : a.role = .a ∧ b.role = .b
  id : a.id = b.id
  channel : a.channel = b.channel
  state : a.initialState = b.initialState
  base : a.theirRevocationBase = Hitch.public b.revocationBase ∧
    b.theirRevocationBase = Hitch.public a.revocationBase
  points : a.theirRevocation = (Hitch.public b.revocation.1, Hitch.public b.revocation.2) ∧
    b.theirRevocation = (Hitch.public a.revocation.1, Hitch.public a.revocation.2)

/-- A funder that took the receiver's answer to its own proposal mirrors it. -/
theorem mirror_of_exchange {acc : AcceptedFunder} {f : FunderOpening} {params : OpenParams}
    {keys keys' : OpeningKeys} {peer sender : Point} {rules rules' : SighashRules}
    {aux aux' : Hash256} {r : ReceiverOpening} {sig : Sig}
    (hf : f.Proposed params keys peer rules aux) (hacc : acc.Checked f r.message aux)
    (hr : r.Checked f.message sender keys' rules' aux') : Mirror acc.opened (r.opened sig) := by
  have hr' : Terms r.id r.channel r.initialState params (Hitch.public keys.channel) peer := by
    have hterms := hr.terms
    rw [hf.message] at hterms
    exact hterms
  obtain ⟨hid, hchannel, hstate⟩ := hf.terms.unique hr'
  have hpoints := hr.points
  have hbase := hr.base
  rw [hf.message] at hpoints hbase
  refine ⟨⟨rfl, rfl⟩, ?_, ?_, ?_, ⟨?_, ?_⟩, ?_, ?_⟩
  · change acc.opening.id = r.id
    rw [hacc.opening, hid]
  · change acc.opening.channel = r.channel
    rw [hacc.opening, hchannel]
  · change acc.opening.initialState = r.initialState
    rw [hacc.opening, hstate]
  · change acc.theirRevocationBase = Hitch.public r.keys.revocationBase
    rw [hacc.base, hr.message, hr.held]
    rfl
  · change r.theirRevocationBase = Hitch.public acc.opening.keys.revocationBase
    rw [hbase, hacc.opening, hf.held]
    rfl
  · change acc.theirRevocation = r.keys.points
    rw [hacc.points, hr.message, hr.held]
  · change r.theirRevocation = acc.opening.keys.points
    rw [hpoints, hacc.opening, hf.held]
    rfl

/-- With revocation keys that the two ends compute alike, the commitment each
end rebuilds for the other is the one the other holds. -/
theorem Mirror.commitments
    (hsym : ∀ r b : SecretKey, Hitch.revocationPub (Hitch.public r) b =
      Hitch.revocationPub (Hitch.public b) r)
    {a b : Opened} (h : Mirror a b) :
    a.machine.theirCommitment 0 a.initialState = b.machine.myCommitment 0 ∧
      b.machine.theirCommitment 0 b.initialState = a.machine.myCommitment 0 := by
  have hone : ∀ {x y : Opened}, x.role = y.role.other → x.channel = y.channel →
      x.initialState = y.initialState →
      Hitch.revocationPub x.theirRevocation.1 x.revocationBase =
        Hitch.revocationPub y.theirRevocationBase y.revocation.1 →
      x.machine.theirCommitment 0 x.initialState = y.machine.myCommitment 0 := by
    intro x y hrole hchannel hstate hview
    have hother : x.machine.role.other = y.machine.role := by
      change x.role.other = y.role
      rw [hrole]
      cases y.role <;> rfl
    have hne : y.role ≠ x.machine.role := by
      change y.role ≠ x.role
      rw [hrole]
      cases y.role <;> exact Side.noConfusion
    have hpoint : x.machine.revocationFor y.role 0 = y.machine.revocationFor y.role 0 := by
      unfold ChannelMachine.revocationFor
      rw [if_neg hne, if_pos (show y.role = y.machine.role from rfl), machine_point_zero,
        machine_revocation_zero]
      simp only [Res.okOr_some, Res.ok_bind]
      exact congrArg _ hview
    unfold ChannelMachine.theirCommitment ChannelMachine.myCommitment ChannelMachine.commitmentAt
    rw [hother, machine_state_zero, Res.ok_bind, show y.machine.role = y.role from rfl, hpoint,
      hstate, show x.machine.channel = y.machine.channel from hchannel]
  refine ⟨hone ?_ h.channel h.state ?_, hone ?_ h.channel.symm h.state.symm ?_⟩
  · rw [h.roles.1, h.roles.2]
    rfl
  · rw [h.points.1, h.base.2]
    exact hsym _ _
  · rw [h.roles.1, h.roles.2]
    rfl
  · rw [h.points.2, h.base.1]
    exact hsym _ _

/-! ### An answer that is taken -/

/-- What signing, proving and building do when each end is honest. -/
structure Complete [OpeningHitch] : Prop where
  /-- Both ends compute one revocation key. -/
  symmetric : ∀ r b : SecretKey, Hitch.revocationPub (Hitch.public r) b =
    Hitch.revocationPub (Hitch.public b) r
  verifies : ∀ tx prevouts leafHash key rules aux sig,
    Hitch.signLeaf tx prevouts leafHash key rules aux = some sig →
    Hitch.verifyLeafSignature tx prevouts leafHash (Hitch.public key) sig rules = true
  /-- A transaction of one input can be signed with the output it spends. -/
  signs : ∀ tx prevout leafHash key rules aux, tx.input.length = 1 →
    (Hitch.signLeaf tx [prevout] leafHash key rules aux).isSome = true
  scripts : ∀ owner revocation delay, (Hitch.toLocalScript owner revocation delay).isSome = true
  pops : ∀ key ctx aux, Hitch.popVerify (Hitch.public key) (Hitch.popSign key ctx aux) ctx = true
  popsBase : ∀ key id side aux, OpeningHitch.popVerifyBase (Hitch.public key)
    (OpeningHitch.popSignBase key id side aux) id side = true

theorem Complete.proofsHold (hlaw : Complete) (id : ChannelId) (role : Side) (keys : OpeningKeys)
    (aux : Hash256) :
    Hitch.proofsHold id role keys.basepoint keys.points (proofs id role keys aux) = true := by
  unfold Hitch.proofsHold
  rw [Bool.and_eq_true, Bool.and_eq_true]
  exact ⟨⟨hlaw.popsBase _ _ _ _, hlaw.pops _ _ _⟩, hlaw.pops _ _ _⟩

theorem Complete.verifyFunding (hlaw : Complete) {ch : Channel} {tx : Transaction}
    {key : SecretKey} {rules : SighashRules} {aux : Hash256} {sig : Sig}
    (h : ch.signFunding tx key rules aux = .ok sig) :
    ch.verifyFunding tx (Hitch.public key) sig rules = true := by
  unfold Channel.signFunding at h
  split at h
  · rename_i sig' hsig
    cases h
    exact hlaw.verifies _ _ _ _ _ _ _ hsig
  · cases h

theorem Complete.signFunding (hlaw : Complete) (ch : Channel) {tx : Transaction}
    (htx : tx.input.length = 1) (key : SecretKey) (rules : SighashRules) (aux : Hash256) :
    ∃ sig, ch.signFunding tx key rules aux = .ok sig := by
  obtain ⟨sig, hsig⟩ := Option.isSome_iff_exists.mp
    (hlaw.signs tx ch.fundingPrevout ch.fundingScript.leaf.leafHash key rules aux htx)
  unfold Channel.signFunding
  rw [hsig]
  exact ⟨sig, rfl⟩

omit [OpeningHitch] in
theorem commitment_inputs [Hitch] {ch : Channel} {n : ℕ} {owner : Side} {s : ChannelState}
    {c : Commitment} (h : ch.commitment n owner s = .ok c) : c.tx.input.length = 1 := by
  unfold Channel.commitment at h
  split at h
  · cases h
  dsimp only at h
  split at h
  · cases h
  split at h
  · cases h
  rcases ite_eq_iff.mp h with ⟨-, h⟩ | ⟨-, h⟩
  · cases h
  · cases h
    rfl

/-- Where the push leaves the funder its fee and dust, both sides' first
commitments build. -/
theorem Complete.commitment_builds (hlaw : Complete) {id : ChannelId} {ch : Channel}
    {s : ProtocolState} {params : OpenParams} {a b : Point} (h : Terms id ch s params a b)
    {p q : Point} {c : Commitment} (hc : openingCommitment ch .a s p = .ok c) :
    ∃ c', openingCommitment ch .b s q = .ok c' := by
  have hrich : dust ≤ s.balanceA - ch.fee := by
    have hpush := h.push
    have hstate := h.state
    obtain ⟨-, -, -, hfee, -⟩ := Channel.new_self h.channel
    unfold validatePush at hpush
    unfold initialState at hstate
    obtain ⟨most, hmost, hpush⟩ := Res.bind_eq_ok.mp hpush
    obtain ⟨balance, hbalance, hstate⟩ := Res.bind_eq_ok.mp hstate
    rw [Res.okOr_eq_ok, Word.checkedSub_eq_some] at hmost hbalance
    rw [Res.refuseIf_eq_ok, decide_eq_false_iff_not] at hpush
    cases hstate
    change dust ≤ balance - ch.fee
    rw [hfee]
    omega
  have hcheck : ch.checkState (openingState s q) = .ok () := by
    unfold openingCommitment at hc
    rw [ofMachine_eq_ok, ofExcept_eq_ok] at hc
    unfold Channel.commitment at hc
    split at hc
    · cases hc
    · assumption
  obtain ⟨toLocal, htoLocal⟩ := Option.isSome_iff_exists.mp (hlaw.scripts (ch.key .b) q ch.delay)
  unfold openingCommitment
  simp only [ofMachine_eq_ok, ofExcept_eq_ok]
  unfold Channel.commitment
  rw [hcheck]
  dsimp only
  rw [show (openingState s q).revocation = q from rfl, htoLocal]
  have hsorted : (openingState s q).htlcs.mergeSort (fun x y => decide (x.id ≤ y.id)) = [] :=
    List.mergeSort_nil
  rw [hsorted]
  unfold Channel.htlcOutputs
  dsimp only
  rw [if_neg]
  · exact ⟨_, rfl⟩
  · rw [if_pos (show dust ≤ payoutAfterFee ((openingState s q).balance Side.b.other) Side.b.other
      ch.fee from hrich)]
    simp

/-- **A funder takes an honest answer to its own proposal.** -/
theorem Complete.accept_ok (hlaw : Complete) {f : FunderOpening} {params : OpenParams}
    {keys keys' : OpeningKeys} {peer sender : Point} {rules : SighashRules} {aux aux' : Hash256}
    {r : ReceiverOpening} (hf : f.Proposed params keys peer rules aux)
    (hr : r.Checked f.message sender keys' rules aux') :
    ∃ acc, f.accept r.message aux = .ok (acc, acc.commit) := by
  have hr' : Terms r.id r.channel r.initialState params (Hitch.public keys.channel) peer := by
    have hterms := hr.terms
    rw [hf.message] at hterms
    exact hterms
  obtain ⟨hid, hchannel, hstate⟩ := hf.terms.unique hr'
  have hmid : f.message.id = f.id := by
    rw [hf.message]
    exact hf.terms.id.symm
  have hpeer : peer = Hitch.public keys'.channel := by
    rw [← hr.me, hf.message]
    rfl
  obtain ⟨p, c, hp, hc, hsig⟩ := hr.theirs
  obtain ⟨p', hp'⟩ := Option.isSome_iff_exists.mp hr.view
  rw [hf.message] at hp hp'
  have hp : Hitch.revocationPub keys'.basepoint keys.revocation.1 = some p :=
    (hlaw.symmetric _ _).trans hp
  have hp' : Hitch.revocationPub keys'.points.1 keys.revocationBase = some p' :=
    (hlaw.symmetric _ _).trans hp'
  rw [← hchannel, ← hstate] at hc
  obtain ⟨c', hc'⟩ := hlaw.commitment_builds (q := p') hf.terms hc
  have hinputs : c'.tx.input.length = 1 := by
    unfold openingCommitment at hc'
    rw [ofMachine_eq_ok, ofExcept_eq_ok] at hc'
    exact commitment_inputs hc'
  obtain ⟨sig, hsigned⟩ := hlaw.signFunding f.channel hinputs keys.channel rules aux
  have hverify : f.channel.verifyFunding c.tx (f.channel.key .b) r.message.sig rules = true := by
    have hkey : f.channel.key .b = Hitch.public keys'.channel := by
      change f.channel.keys.2 = _
      rw [hf.terms.keys]
      exact hpeer
    rw [hkey]
    rw [← hchannel] at hsig
    exact hlaw.verifyFunding hsig
  have hproofs := hlaw.proofsHold f.id .b keys' aux'
  refine ⟨⟨f, r.message.rev, r.message.revBase, r.message.sig, r.message.hubFee, ⟨f.id, sig⟩⟩, ?_⟩
  unfold FunderOpening.accept AcceptMessage.wellFormed
  rw [hr.hubFee]
  rw [hr.message]
  dsimp only
  rw [hmid, hproofs, hf.held, hf.signing]
  unfold revocationView
  simp only [bne_self_eq_false, Bool.not_true, Res.refuseIf_false, Res.ok_bind, hp, hp',
    Res.okOr_some, hc, hverify, hc', hsigned, ofProtocol, ofMachine]

/-- **A receiver takes the commit of its own answer.** -/
theorem Complete.commit_ok (hlaw : Complete) {acc : AcceptedFunder} {f : FunderOpening}
    {params : OpenParams} {keys keys' : OpeningKeys} {peer sender : Point} {rules : SighashRules}
    {aux aux' : Hash256} {r : ReceiverOpening} (hf : f.Proposed params keys peer rules aux)
    (hr : r.Checked f.message sender keys' rules aux') (hacc : acc.Checked f r.message aux) :
    r.commit acc.commit = .ok ((r.opened acc.commit.sig).machine, r.id) := by
  have hmirror : Mirror acc.opened (r.opened acc.commit.sig) := mirror_of_exchange hf hacc hr
  have hready := (AcceptedFunder.handed hf hacc).1
  have hid : acc.commit.id = r.id := by
    rw [hacc.commit]
    have hid := hmirror.id
    change acc.opening.id = r.id at hid
    rwa [hacc.opening] at hid
  have hsame := (hmirror.commitments hlaw.symmetric).1
  obtain ⟨p, c, hp, hc, hsigned⟩ := hacc.theirs
  have hchannel : r.channel = f.channel := by
    have hchannel := hmirror.channel
    change acc.opening.channel = r.channel at hchannel
    rw [hacc.opening] at hchannel
    exact hchannel.symm
  have htheirs : acc.opened.machine.theirCommitment 0 acc.opened.initialState = .ok c := by
    refine (machine_theirs (p := p) ?_).mpr ?_
    · change Hitch.revocationPub acc.theirRevocation.1 acc.opening.keys.revocationBase = some p
      rw [hacc.points, hacc.opening, hp]
    · change acc.opening.channel.commitment 0 .b
        (ChannelMachine.channelState acc.opening.initialState p) = .ok c
      rw [hacc.opening]
      exact openingCommitment_ok hc (initialState_htlcs hf.terms.state)
  rw [hsame] at htheirs
  have hnew : ChannelMachine.new (r.opened acc.commit.sig) =
      .ok (r.opened acc.commit.sig).machine := by
    unfold ChannelMachine.new
    refine Res.bind_eq_ok.mpr ⟨(), ?_, Res.bind_eq_ok.mpr
      ⟨c, htheirs, Res.bind_eq_ok.mpr ⟨(), ?_, rfl⟩⟩⟩
    · rw [Res.refuseIf_eq_ok, bne_eq_false_iff_eq]
      change Hitch.public r.keys.channel = r.channel.keys.2
      rw [hr.held, hr.terms.keys, hr.me]
    · rw [Res.refuseIf_eq_ok, Bool.not_eq_false']
      change r.channel.verifyFunding c.tx r.channel.keys.1 acc.commit.sig r.rules = true
      have hkey : r.channel.keys.1 = Hitch.public keys.channel := by
        rw [hchannel, hf.terms.keys]
      rw [hkey, hchannel, hr.signing, ← hf.signing]
      rw [hf.held] at hsigned
      exact hlaw.verifyFunding hsigned
  unfold ReceiverOpening.commit
  rw [hid, bne_self_eq_false, Res.refuseIf_false, Res.ok_bind, hnew]
  rfl

end

end Hitch

end Sidestr
