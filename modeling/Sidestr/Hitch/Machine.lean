/-
# The channel machine

One peer's channel after the opening handshake (`machine.rs`): the agreed
states, the update this peer has pending, the one it accepted and not yet
finalised, the states it signed that were set aside, the per-state secrets of
both sides, and what closes the channel. Each operation checks first and then
changes the machine, so an operation is a check and a change.

Key definitions: `ProtocolState`, `ChannelMachine`, `ChannelMachine.nextState`,
`propose`, `receiveUpdate`, `receiveAck`, `receiveRevoke`, `receiveReject`,
`closeChannel`, `receiveClose`, `forceClose`, `receiveSync`, `tick`.
-/
import Sidestr.Lib.Outcome
import Sidestr.Lib.Map
import Sidestr.Hitch.Channel

namespace Sidestr

namespace Hitch

/-- Free balances and in-flight HTLCs. -/
structure ProtocolState where
  balanceA : ℕ
  balanceB : ℕ
  htlcs : List ProtocolHtlc
  deriving DecidableEq

def ProtocolState.balance (s : ProtocolState) : Side → ℕ
  | .a => s.balanceA
  | .b => s.balanceB

def ProtocolHtlc.channelHtlc (h : ProtocolHtlc) : Htlc :=
  ⟨h.id, h.from, h.amount, h.hash, h.expiry⟩

/-- A pending update of this peer's. -/
structure PendingUpdate where
  n : ℕ
  update : Update
  message : UpdateMessage
  «at» : ℕ
  tries : ℕ
  deriving DecidableEq

/-- An update this peer acknowledged, not final until the sender's secret arrives. -/
structure AwaitingRevoke where
  n : ℕ
  previous : ℕ
  update : Update
  sender : Side
  «at» : ℕ
  deriving DecidableEq

/-- An update that crossed its finality boundary. -/
structure FinalisedUpdate where
  n : ℕ
  update : Update
  sender : Side
  deriving DecidableEq

/-- A state this peer signed for the other side that did not become the agreed one. -/
structure SignedAlternative where
  state : ProtocolState
  update : Update
  deriving DecidableEq

inductive ReceiveUpdate
  | acknowledge (ack : AckMessage)
  | resendAcknowledgement (ack : AckMessage)
  | buffered
  | rejected (reject : RejectMessage)
  | localProposalWins (reject : RejectMessage)

structure AckOutcome where
  revoke : RevokeMessage
  update : FinalisedUpdate
  adopted : Bool

structure SyncOutcome where
  finalised : Option FinalisedUpdate
  replies : List PeerMessage

inductive FundingSpend
  | cooperative
  | localCommitment (state : ℕ)
  | remoteCommitment (state : ℕ) (alternative revoked : Bool)
  | unknown
  deriving DecidableEq

/-- What the host is asked to broadcast. -/
structure Broadcast where
  label : Text
  tx : Transaction
  deriving DecidableEq

/-- A close of this peer's: the cooperative one, or its commitment at a state. -/
structure CloseRecord where
  txid : Txid
  tx : Transaction
  state : Option ℕ
  «at» : ℕ
  deriving DecidableEq

/-- The transaction that spent the funding output. -/
structure SpendRecord where
  txid : Txid
  height : ℕ
  previousStatus : ChannelStatus
  kind : FundingSpend
  deriving DecidableEq

inductive ClaimKind
  | sweepToLocal
  | htlcSuccess (id : ℕ)
  | htlcRefund (id : ℕ)
  | penaltyToLocal
  | penaltyHtlc (id : ℕ)
  deriving DecidableEq

structure ClaimRecord where
  kind : ClaimKind
  txid : Txid
  vout : ℕ
  tx : Transaction
  «at» : ℕ
  deriving DecidableEq

/-- An output of a close that is followed until it settles. Its name is that of
the HTLC or of the claim. -/
structure FollowedOutput where
  name : ℕ ⊕ ClaimKind
  hash : Option Hash256
  offeredByMe : Bool
  mine : Bool
  confirmed : Option ℕ
  theirs : Option Txid
  deriving DecidableEq

inductive TickAction
  | send (message : PeerMessage)
  | broadcast (b : Broadcast)
  | settle (htlcId : ℕ) (preimage : Preimage)
  | fail (htlcId : ℕ) (reason : Text)

section

variable [Hitch]

/-- One peer's channel. -/
structure ChannelMachine where
  id : ChannelId
  role : Side
  channelKey : SecretKey
  channel : Channel
  status : ChannelStatus
  fundedHeight : Option ℕ
  stateNumber : ℕ
  states : Map ℕ ProtocolState
  myRevocationBase : SecretKey
  theirRevocationBase : Point
  myRevocation : Map ℕ SecretKey
  theirRevocation : Map ℕ SecretKey
  theirRevocationPublic : Map ℕ Point
  signatures : Map ℕ Sig
  pending : Option PendingUpdate
  awaiting : Option AwaitingRevoke
  buffered : Option UpdateMessage
  signedAlternatives : Map ℕ (List SignedAlternative)
  dropped : Option DroppedUpdate
  preimages : Map Hash256 Preimage
  htlcSeq : ℕ
  peerHubFee : Option ℕ
  coopTxid : Option Txid
  close : Option CloseRecord
  spend : Option SpendRecord
  closeState : Option ℕ
  closeStateObj : Option ProtocolState
  outputs : Map ℕ FollowedOutput
  claims : List ClaimRecord
  penalties : List Txid
  lastSyncAt : Option ℕ
  peerAhead : Option ℕ
  events : List ChannelEvent
  rules : SighashRules

omit [Hitch] in
def subtractBalance (s : ProtocolState) (side : Side) (amount : ℕ) :
    Res ProtocolError ProtocolState := do
  let balance ← Res.okOr .negativeBalance (Word.checkedSub (s.balance side) amount)
  match side with
  | .a => .ok { s with balanceA := balance }
  | .b => .ok { s with balanceB := balance }

omit [Hitch] in
def addBalance (s : ProtocolState) (side : Side) (amount : ℕ) :
    Res ProtocolError ProtocolState := do
  let balance ← Res.okOr .balanceOverflow (Word.checkedAdd 64 (s.balance side) amount)
  match side with
  | .a => .ok { s with balanceA := balance }
  | .b => .ok { s with balanceB := balance }

/-- A result of the builders as one of the machine. -/
def ofExcept {α : Type} : Except ChannelError α → Res ProtocolError α
  | .ok a => .ok a
  | .error e => .err (.channel e)

omit [Hitch] in
theorem ofExcept_eq_ok {α : Type} {x : Except ChannelError α} {a : α} :
    ofExcept x = .ok a ↔ x = .ok a := by
  cases x <;> simp [ofExcept]

def ofProtocol {α : Type} : Except ProtocolError α → Res ProtocolError α
  | .ok a => .ok a
  | .error e => .err e

namespace ChannelMachine

variable (m : ChannelMachine)

/-! ### Queries -/

def myKey : Point := m.channel.key m.role

def peerKey : Point := m.channel.key m.role.other

/-- The agreed state; it is always present. -/
def currentState : ProtocolState := (m.states.lookup m.stateNumber).getD ⟨0, 0, []⟩

def state (n : ℕ) : Res ProtocolError ProtocolState :=
  Res.okOr (.missingState n) (m.states.lookup n)

def alternativesAt (n : ℕ) : List SignedAlternative := (m.signedAlternatives.lookup n).getD []

/-- What this peer can still send: its balance less the fee the funder keeps. -/
def room : ℤ := m.currentState.balance m.role - (if m.role = .a then m.channel.fee else 0)

/-- The states below the agreed one whose secret the other side still owes. -/
def missingReveals : List ℕ :=
  (List.range m.stateNumber).filter fun n =>
    (m.theirRevocationPublic.lookup n).isSome && (m.theirRevocation.lookup n).isNone

/-- Where a payment hash still has force on this channel. -/
def bound (hash : Hash256) (height : ℕ) : Option Bound :=
  if m.currentState.htlcs.any fun h => h.hash == hash then some .state
  else if (m.pending.bind fun p => p.update.addedHash) = some hash then some .pending
  else
    let shallow := m.spend.all fun s => Word.satAdd 32 height 1 - s.height < closeDepth
    if shallow && decide (∃ n ∈ m.signedAlternatives.keys, (m.theirRevocation.lookup n).isNone ∧
        (m.alternativesAt n).any fun alt => alt.state.htlcs.any fun h => h.hash == hash) then
      some .alt
    else if m.spend.isSome && decide (∃ v ∈ m.outputs.keys, (m.outputs.lookup v).any fun o =>
        o.hash == some hash && o.confirmed.isNone && o.theirs.isNone) then some .chain
    else none

/-- The revocation key of `owner`'s commitment at state `n`. -/
def revocationFor (owner : Side) (n : ℕ) : Res ProtocolError Point :=
  if owner = m.role then do
    let perState ← Res.okOr (.missingRevocationKey n) (m.myRevocation.lookup n)
    Res.okOr (.channel .revocationKey) (Hitch.revocationPub m.theirRevocationBase perState)
  else do
    let point ← Res.okOr (.missingRevocationKey n) (m.theirRevocationPublic.lookup n)
    Res.okOr (.channel .revocationKey) (Hitch.revocationPub point m.myRevocationBase)

/-- A state as the transactions are built from it. -/
def channelState (s : ProtocolState) (revocation : Point) : ChannelState :=
  ⟨s.balanceA, s.balanceB, revocation, s.htlcs.map ProtocolHtlc.channelHtlc⟩

def commitmentAt (owner : Side) (n : ℕ) (s : ProtocolState) : Res ProtocolError Commitment := do
  let key ← m.revocationFor owner n
  ofExcept (m.channel.commitment n owner (channelState s key))

def myCommitment (n : ℕ) : Res ProtocolError Commitment := do
  let s ← m.state n
  m.commitmentAt m.role n s

def theirCommitment (n : ℕ) (s : ProtocolState) : Res ProtocolError Commitment :=
  m.commitmentAt m.role.other n s

def cooperativeTx : Res ProtocolError Transaction :=
  ofExcept (m.channel.cooperativeClose (channelState m.currentState m.channel.keys.1))

def signFunding (tx : Transaction) (ctx : Context) : Res ProtocolError Sig :=
  ofProtocol (m.channel.signFunding tx m.channelKey m.rules ctx.aux)

/-- The other side's signature on a spend of the funding output. -/
def theirSigOk (tx : Transaction) (sig : Sig) : Bool :=
  m.channel.verifyFunding tx m.peerKey sig m.rules

def closeMessage (ctx : Context) : Res ProtocolError CloseMessage := do
  let tx ← m.cooperativeTx
  let sig ← m.signFunding tx ctx
  .ok ⟨m.id, m.stateNumber, sig⟩

def myPop (n : ℕ) (key : SecretKey) (aux : Hash256) : Bytes :=
  Hitch.popSign key ⟨m.id, m.role, n⟩ aux

def theirPopOk (n : ℕ) (point : Point) (proof : Bytes) : Bool :=
  Hitch.popVerify point proof ⟨m.id, m.role.other, n⟩

/-- Never the secret of a commitment this peer has published. -/
def mayReveal (n : ℕ) : Bool :=
  decide (n < m.stateNumber) && !m.close.any fun c => decide (c.state.getD m.stateNumber ≤ n)

def nextHtlcId (s : ProtocolState) : ℕ :=
  max m.htlcSeq ((s.htlcs.map ProtocolHtlc.id).foldl max 0 + 1)

def offeredIn (n htlcId : ℕ) : Option ProtocolHtlc :=
  (m.states.lookup n).bind fun s =>
    s.htlcs.find? fun h => h.id == htlcId && decide (h.from = m.role)

/-- The position of the alternative whose commitment of mine the signature is on. -/
def findAlternative (n : ℕ) (sig : Sig) : Option ℕ :=
  (m.alternativesAt n).findIdx? fun alt =>
    match m.commitmentAt m.role n alt.state with
    | .ok mine => m.theirSigOk mine.tx sig
    | _ => false

/-! ### The next state -/

/-- The last check of every update: the funder keeps its fee. -/
def keepsFee (s : ProtocolState) : Res ProtocolError ProtocolState := do
  Res.refuseIf (decide (s.balanceA < m.channel.fee)) .funderFee
  .ok s

/-- The HTLC of an id, and the state without it. -/
def takeHtlc (s : ProtocolState) (htlcId : ℕ) :
    Res ProtocolError (ProtocolHtlc × ProtocolState) := do
  let htlc ← Res.okOr .noSuchHtlc (s.htlcs.find? fun h => h.id == htlcId)
  .ok (htlc, { s with htlcs := s.htlcs.eraseP fun h => h.id == htlcId })

/-- The state an update from `sender` makes of `current`. -/
def nextState (current : ProtocolState) (update : Update) (sender : Side) (height : ℕ) :
    Res ProtocolError ProtocolState :=
  match update with
  | .pay amount _ => do
    let s ← subtractBalance current sender amount
    let s ← addBalance s sender.other amount
    m.keepsFee s
  | .add htlc _ => do
    Res.refuseIf (htlc.id != m.nextHtlcId current) .badHtlcId
    Res.refuseIf (decide (htlc.expiry ≤ Word.satAdd 32 (Word.satAdd 32 height m.channel.delay)
      expiryMargin)) .expiryTooSoon
    Res.refuseIf (current.htlcs.any (fun h => h.hash == htlc.hash) ||
      decide ((m.pending.bind fun p => p.update.addedHash) = some htlc.hash)) .duplicatePaymentHash
    let s ← subtractBalance current sender htlc.amount
    m.keepsFee { s with htlcs := s.htlcs ++
      [⟨htlc.id, sender, htlc.amount, htlc.hash, htlc.expiry, htlc.route⟩] }
  | .settle htlcId preimage => do
    let (htlc, s) ← takeHtlc current htlcId
    Res.refuseIf (decide (htlc.from = sender)) .offererCannotSettle
    Res.refuseIf (Hitch.sha preimage != htlc.hash) .wrongPreimage
    Res.refuseIf (decide (htlc.expiry ≤ height)) .htlcExpired
    let s ← addBalance s sender htlc.amount
    m.keepsFee s
  | .fail htlcId _ => do
    let (htlc, s) ← takeHtlc current htlcId
    Res.refuseIf (decide (htlc.from = sender) && decide (height < htlc.expiry))
      .offererFailBeforeExpiry
    Res.refuseIf (decide (htlc.from = sender) && (m.preimages.lookup htlc.hash).isSome)
      .knownPreimage
    let s ← addBalance s htlc.from htlc.amount
    m.keepsFee s

/-! ### Small changes -/

def rememberPreimage (preimage : Preimage) : ChannelMachine :=
  if (m.preimages.lookup (Hitch.sha preimage)).isSome then m
  else { m with preimages := m.preimages.insert (Hitch.sha preimage) preimage }

/-- A settle's preimage is kept. -/
def rememberSettled : Update → ChannelMachine
  | .settle _ preimage => m.rememberPreimage preimage
  | _ => m

def pushEvents (events : List ChannelEvent) : ChannelMachine :=
  { m with events := m.events ++ events }

def bumpHtlcSeq : Update → ℕ
  | .add htlc _ => max m.htlcSeq (htlc.id + 1)
  | _ => m.htlcSeq

def rememberAlternative (n : ℕ) (s : ProtocolState) (update : Update) : ChannelMachine :=
  if (m.alternativesAt n).any fun alt => decide (alt.state = s) then m
  else { m with signedAlternatives :=
    m.signedAlternatives.insert n (m.alternativesAt n ++ [⟨s, update⟩]) }

def removeAlternative (n index : ℕ) : ChannelMachine :=
  let rest := (m.alternativesAt n).eraseIdx index
  { m with signedAlternatives := m.signedAlternatives.insert n rest }

/-- Set the pending update aside: the state signed for it is remembered. -/
def dropPending (why : Text) : ChannelMachine :=
  match m.pending with
  | none => m
  | some pending =>
    let m' := match m.states.lookup pending.n with
      | some s => { m with states := m.states.erase pending.n }.rememberAlternative pending.n s
          pending.update
      | none => m
    { m' with pending := none, dropped := some ⟨pending.update, why⟩ }

/-- Announce a set-aside update, once nothing is pending or awaited. -/
def announceDropped : ChannelMachine :=
  if m.pending.isSome || m.awaiting.isSome then m
  else
    match m.dropped with
    | none => m
    | some dropped =>
      let payment := match dropped.update with
        | .add htlc _ => [ChannelEvent.payment htlc.hash .notMade (some dropped.reason)]
        | _ => []
      { m with dropped := none }.pushEvents (payment ++ [ChannelEvent.dropped dropped])

/-- The secret of the other side at `index`, if it is the announced one's and new. -/
def newReveal (index : ℕ) (reveal : Hash256) : Option SecretKey :=
  if (m.theirRevocation.lookup index).isSome then none
  else
    match m.theirRevocationPublic.lookup index, secret reveal with
    | some point, some s => if Hitch.public s = point then some s else none
    | _, _ => none

def takeTheirReveal (index : ℕ) (reveal : Hash256) : ChannelMachine :=
  match m.newReveal index reveal with
  | some s => { m with theirRevocation := m.theirRevocation.insert index s }
  | none => m

/-- The secret is new and right, or the one held already. -/
def revealOk (index : ℕ) (reveal : Hash256) : Bool :=
  (m.newReveal index reveal).isSome || (m.theirRevocation.lookup index).any fun s => s.1 == reveal

/-- The events of a final update of the other side's. -/
def finalEvents (awaiting : AwaitingRevoke) : List ChannelEvent :=
  match awaiting.update with
  | .settle htlcId _ => ((m.offeredIn awaiting.previous htlcId).map fun was =>
      .payment was.hash .sent none).toList
  | .fail htlcId reason => ((m.offeredIn awaiting.previous htlcId).map fun was =>
      .payment was.hash .failed reason).toList
  | _ => []

/-- The awaited update is final once the state before it is revoked. -/
def finalise : ChannelMachine × Option FinalisedUpdate :=
  match m.awaiting with
  | none => (m, none)
  | some awaiting =>
    if (m.theirRevocation.lookup awaiting.previous).isNone then (m, none)
    else
      (({ m with awaiting := none }.pushEvents (m.finalEvents awaiting)).announceDropped,
        some ⟨awaiting.n, awaiting.update, awaiting.sender⟩)

/-! ### Updates of this peer's -/

def confirmFunding (height : ℕ) : ChannelMachine :=
  { m with
    fundedHeight := m.fundedHeight.or (some height)
    status := if m.status = .funding then .open else m.status }

def memoTooLong : Update → Bool
  | .pay _ memo => !textOk memo
  | .add _ memo => !textOk memo
  | .fail _ reason => !textOk reason
  | .settle .. => false

/-- An `add` gets the next id, and its hash must not be bound. -/
def numbered (update : Update) (height : ℕ) : Res ProtocolError Update :=
  match update with
  | .add htlc memo =>
    match m.bound htlc.hash height with
    | some b => .err (.hashBound b)
    | none => .ok (.add { htlc with id := m.nextHtlcId m.currentState } memo)
  | update => .ok update

/-- The secret of state `n`, a new one where there is none. -/
def revocationOr (n : ℕ) (next : SecretKey) : SecretKey := (m.myRevocation.lookup n).getD next

/-- The checks of a proposal: the state it makes and the signed message. -/
def proposal (update : Update) (next : SecretKey) (ctx : Context) :
    Res ProtocolError (ProtocolState × UpdateMessage) := do
  Res.refuseIf (m.status != .open) (.status "not open".toList)
  Res.refuseIf m.pending.isSome .pending
  Res.refuseIf m.awaiting.isSome .awaitingRevocation
  Res.refuseIf (m.missingReveals != []) (.missingReveal (m.missingReveals.headD 0))
  let n := m.stateNumber + 1
  Res.refuseIf (m.theirRevocationPublic.lookup n).isNone (.missingRevocationKey n)
  Res.refuseIf (memoTooLong update) .memoTooLong
  Res.refuseIf (!update.isPay && ctx.stale) .staleChain
  let update ← m.numbered update ctx.height
  ofProtocol update.wellFormed
  let s ← m.nextState m.currentState update m.role ctx.height
  Res.refuseIf (m.myRevocation.lookup n).isNone (.missingRevocationKey n)
  let c ← m.commitmentAt m.role.other n s
  let sig ← m.signFunding c.tx ctx
  let key := m.revocationOr (n + 1) next
  .ok (s, ⟨m.id, n, update, sig, Hitch.public key, m.myPop (n + 1) key ctx.aux⟩)

/-- The machine with a signed proposal pending. -/
def proposed (s : ProtocolState) (message : UpdateMessage) (next : SecretKey) (ctx : Context) :
    ChannelMachine :=
  { m with
    myRevocation := m.myRevocation.insert (message.n + 1) (m.revocationOr (message.n + 1) next)
    states := m.states.insert message.n s
    pending := some ⟨message.n, message.update, message, ctx.now, 1⟩ }

def propose (update : Update) (next : SecretKey) (ctx : Context) :
    ChannelMachine × Res ProtocolError UpdateMessage :=
  match m.proposal update next ctx with
  | .ok (s, message) => (m.proposed s message next ctx, .ok message)
  | .err e => (m, .err e)
  | .panic => (m, .panic)

def pay (amount : ℕ) (memo : Option Text) (next : SecretKey) (ctx : Context) :
    ChannelMachine × Res ProtocolError UpdateMessage :=
  if amount = 0 then (m, .err .zeroAmount)
  else if m.room < amount then (m, .err (.tooMuch m.room.toNat))
  else m.propose (.pay amount memo) next ctx

def addHtlc (amount : ℕ) (hash : Hash256) (expiry : ℕ) (route : Option Point) (memo : Option Text)
    (next : SecretKey) (ctx : Context) : ChannelMachine × Res ProtocolError UpdateMessage :=
  if amount < minHtlc then (m, .err .htlcTooSmall)
  else if m.room < amount then (m, .err (.tooMuch m.room.toNat))
  else if ¬ (1 ≤ expiry ∧ expiry < maxExpiry) then (m, .err .badExpiry)
  else m.propose (.add ⟨0, amount, hash, expiry, route⟩ memo) next ctx

/-- The preimage is kept first, whatever becomes of the update. -/
def settleHtlc (htlcId : ℕ) (preimage : Preimage) (next : SecretKey) (ctx : Context) :
    ChannelMachine × Res ProtocolError UpdateMessage :=
  (m.rememberPreimage preimage).propose (.settle htlcId preimage) next ctx

def failHtlc (htlcId : ℕ) (reason : Option Text) (next : SecretKey) (ctx : Context) :
    ChannelMachine × Res ProtocolError UpdateMessage :=
  m.propose (.fail htlcId (reason.map (truncateUtf16 memoMax))) next ctx

/-- The pending update again, unchanged, with its try counted. -/
def resendUpdate (ctx : Context) : ChannelMachine × Option UpdateMessage :=
  match m.pending with
  | none => (m, none)
  | some pending =>
    ({ m with pending := some ⟨pending.n, pending.update, pending.message, ctx.now,
        Word.satAdd 32 pending.tries 1⟩ }, some pending.message)

/-! ### Positions -/

/-- This peer's position, with the previous state's secret. -/
def syncMessage (t : SyncTag) : SyncMessage where
  t
  id := m.id
  n := m.stateNumber
  status := some m.status.asStr
  pendingN := m.pending.map PendingUpdate.n
  reveal := if 0 < m.stateNumber ∧ m.mayReveal (m.stateNumber - 1) then
    (m.myRevocation.lookup (m.stateNumber - 1)).map Subtype.val else none
  missing := m.missingReveals
  reveals := none

/-- A sync to send, at most once every thirty seconds unless forced. -/
def resync (ctx : Context) (force : Bool) : ChannelMachine × Option SyncMessage :=
  if !force && m.lastSyncAt.any fun t => ctx.now - t < resyncInterval then (m, none)
  else
    let m' := { m with lastSyncAt := some ctx.now }
    (m', some (m'.syncMessage .sync))

/-- The acknowledgement of the agreed state again, for a peer one state behind. -/
def acknowledgement (ctx : Context) : Res ProtocolError (Option AckMessage) :=
  let n := m.stateNumber
  if n = 0 then .ok none
  else if (m.signatures.lookup n).isNone || !m.mayReveal (n - 1) then .ok none
  else do
    let s ← m.state n
    let theirs ← m.commitmentAt m.role.other n s
    let sig ← m.signFunding theirs.tx ctx
    let next ← Res.okOr (.missingRevocationKey (n + 1)) (m.myRevocation.lookup (n + 1))
    match m.myRevocation.lookup (n - 1) with
    | none => .panic
    | some previous =>
      .ok (some ⟨m.id, n, sig, previous.1, Hitch.public next, m.myPop (n + 1) next ctx.aux⟩)

/-! ### Updates of the other side's -/

def reject (message : UpdateMessage) (why : RejectReason) : RejectMessage :=
  ⟨message.id, message.n, message.sig, some why⟩

/-- What is done about an incoming update. -/
inductive UpdateVerdict
  | answer (answer : ReceiveUpdate)
  | buffer
  | accept (state : ProtocolState)

/-- The state an incoming update makes, or why it is refused. -/
def incomingState (message : UpdateMessage) (ctx : Context) : Res ProtocolError UpdateVerdict :=
  match m.nextState m.currentState message.update m.role.other ctx.height with
  | .panic => .panic
  | .err e => .ok (.answer (.rejected (reject message (.badState e))))
  | .ok s => do
    let mine ← m.commitmentAt m.role message.n s
    if !m.theirSigOk mine.tx message.sig then
      .ok (.answer (.rejected (reject message .badSignature)))
    else if m.pending.isSome && decide (m.myKey.toNat ≤ m.peerKey.toNat) then
      .ok (.answer (.localProposalWins (reject message .collision)))
    else .ok (.accept s)

/-- The checks of an incoming update, in the source's order. -/
def judgeUpdate (message : UpdateMessage) (ctx : Context) : Res ProtocolError UpdateVerdict := do
  ofProtocol message.wellFormed
  Res.refuseIf (message.id != m.id) .wrongChannel
  if m.status = .closingAsked then .ok (.answer (.rejected (reject message .closeSigned)))
  else
    Res.refuseIf (m.status != .open) (.status m.status.asStr)
    if message.n = m.stateNumber ∧ m.signatures.lookup message.n = some message.sig then
      let ack ← m.acknowledgement ctx
      let ack ← Res.okOr (.status m.status.asStr) ack
      .ok (.answer (.resendAcknowledgement ack))
    else if message.n = m.stateNumber then
      .ok (.answer (.rejected (reject message (.alreadyAgreed message.n))))
    else
      Res.refuseIf (message.n != m.stateNumber + 1)
        (.unexpectedState message.n (m.stateNumber + 1))
      if m.awaiting.isSome then .ok .buffer
      else
        Res.refuseIf (m.missingReveals != []) (.missingReveal (m.missingReveals.headD 0))
        Res.refuseIf (!message.update.isPay && ctx.stale) .staleChain
        if !m.theirPopOk (message.n + 1) message.nextRev message.nextRevPop then
          .ok (.answer (.rejected (reject message .noProof)))
        else m.incomingState message ctx

/-- The machine at the accepted state, awaiting the sender's revocation; a
pending update of this peer's is set aside. -/
def accepted (message : UpdateMessage) (s : ProtocolState) (next : SecretKey) (ctx : Context) :
    ChannelMachine :=
  let m₁ := m.dropPending "they proposed at the same time and the lower key wins".toList
  { m₁ with
    states := m₁.states.insert message.n s
    theirRevocationPublic := m₁.theirRevocationPublic.insert (message.n + 1) message.nextRev
    myRevocation := m₁.myRevocation.insert (message.n + 1) (m₁.revocationOr (message.n + 1) next)
    signatures := m₁.signatures.insert message.n message.sig
    htlcSeq := m₁.bumpHtlcSeq message.update
    preimages := (m₁.rememberSettled message.update).preimages
    stateNumber := message.n
    awaiting := some ⟨message.n, m₁.stateNumber, message.update, m₁.role.other, ctx.now⟩ }

def receiveUpdate (message : UpdateMessage) (next : SecretKey) (ctx : Context) :
    ChannelMachine × Res ProtocolError ReceiveUpdate :=
  match m.judgeUpdate message ctx with
  | .panic => (m, .panic)
  | .err e => (m, .err e)
  | .ok (.answer r) => (m, .ok r)
  | .ok .buffer => ({ m with buffered := some message }, .ok .buffered)
  | .ok (.accept s) =>
    let m' := m.accepted message s next ctx
    (m', do
      let ack ← m'.acknowledgement ctx
      let ack ← Res.okOr (.status m'.status.asStr) ack
      .ok (.acknowledge ack))

/-! ### Acknowledgements -/

/-- The machine at a state of this peer's own that the other side signed. -/
def agreed (message : AckMessage) (s : ProtocolState) (update : Update) : ChannelMachine :=
  let m₁ := m.takeTheirReveal m.stateNumber message.reveal
  { m₁ with
    states := m₁.states.insert message.n s
    theirRevocationPublic := m₁.theirRevocationPublic.insert (message.n + 1) message.nextRev
    signatures := m₁.signatures.insert message.n message.sig
    htlcSeq := m₁.bumpHtlcSeq update
    preimages := (m₁.rememberSettled update).preimages
    stateNumber := message.n }

/-- The secret of the previous state, and the update that is now agreed. -/
def ackOutcome (n previous : ℕ) (update : Update) (adopted : Bool) :
    Res ProtocolError AckOutcome :=
  match m.myRevocation.lookup previous with
  | none => .panic
  | some s => .ok ⟨⟨m.id, n, s.1⟩, ⟨n, update, m.role⟩, adopted⟩

/-- The checks of adopting an alternative: its position and itself. -/
def adoption (message : AckMessage) : Res ProtocolError (ℕ × SignedAlternative) := do
  Res.refuseIf (m.status != .open) (.status m.status.asStr)
  let index ← Res.okOr .noPending (m.findAlternative message.n message.sig)
  Res.refuseIf (!m.theirPopOk (message.n + 1) message.nextRev message.nextRevPop) .missingProof
  Res.refuseIf (m.myRevocation.lookup (message.n + 1)).isNone
    (.missingRevocationKey (message.n + 1))
  Res.refuseIf (!m.revealOk m.stateNumber message.reveal) .badRevocation
  let alt ← Res.okOr .noPending (m.alternativesAt message.n)[index]?
  .ok (index, alt)

/-- An acknowledged alternative becomes the agreed state. -/
def adoptAlternative (message : AckMessage) : ChannelMachine × Res ProtocolError AckOutcome :=
  match m.adoption message with
  | .panic => (m, .panic)
  | .err e => (m, .err e)
  | .ok (index, alt) =>
    let m₁ := m.removeAlternative message.n index
    let events := match alt.update with
      | .add htlc _ => [ChannelEvent.payment htlc.hash .inFlight none]
      | _ => []
    let m' := (m₁.agreed message alt.state alt.update).pushEvents events
    (m', m'.ackOutcome message.n m.stateNumber alt.update true)

/-- What is done about an acknowledgement. -/
inductive AckVerdict
  | adopt
  /-- It fits an earlier attempt at the pending state number. -/
  | earlier
  | agree (pending : PendingUpdate) (state : ProtocolState)

def judgeAck (message : AckMessage) : Res ProtocolError AckVerdict := do
  ofProtocol message.wellFormed
  Res.refuseIf (message.id != m.id) .wrongChannel
  Res.refuseIf (m.status != .open && m.status != .closingAsked) (.status m.status.asStr)
  if m.pending.isNone ∧ message.n = m.stateNumber + 1 then .ok .adopt
  else
    let pending ← Res.okOr .noPending (m.pending.filter fun p => p.n == message.n)
    let s ← m.state pending.n
    let mine ← m.commitmentAt m.role pending.n s
    if !m.theirSigOk mine.tx message.sig then
      let earlier := decide (m.status = .open) &&
        ((m.theirRevocation.lookup m.stateNumber).any (fun k => k.1 == message.reveal) ||
          (secret message.reveal).any fun k =>
            m.theirRevocationPublic.lookup m.stateNumber == some (Hitch.public k)) &&
        m.theirPopOk (message.n + 1) message.nextRev message.nextRevPop &&
        (m.findAlternative message.n message.sig).isSome
      if earlier then .ok .earlier else .err .badSignature
    else
      Res.refuseIf (!m.theirPopOk (pending.n + 1) message.nextRev message.nextRevPop)
        .missingProof
      Res.refuseIf (!m.revealOk m.stateNumber message.reveal) .badRevocation
      .ok (.agree pending s)

/-- The events of an agreed update of this peer's. -/
def agreedEvents (previous : ℕ) (update : Update) : List ChannelEvent :=
  match update with
  | .fail htlcId reason => ((m.offeredIn previous htlcId).map fun was =>
      .payment was.hash .failed (some (reason.getD "expired".toList))).toList
  | _ => []

def receiveAck (message : AckMessage) : ChannelMachine × Res ProtocolError AckOutcome :=
  match m.judgeAck message with
  | .panic => (m, .panic)
  | .err e => (m, .err e)
  | .ok .adopt => m.adoptAlternative message
  | .ok .earlier =>
    let r := (m.dropPending "they acknowledged an earlier attempt at this state instead".toList
      ).adoptAlternative message
    (r.1.announceDropped, r.2)
  | .ok (.agree pending s) =>
    let m' := ({ m with pending := none }.agreed message s pending.update).pushEvents
      (m.agreedEvents m.stateNumber pending.update)
    (m', m'.ackOutcome pending.n m.stateNumber pending.update false)

def receiveRevoke (message : RevokeMessage) :
    ChannelMachine × Res ProtocolError (Option FinalisedUpdate) :=
  let checks : Res ProtocolError Unit := do
    ofProtocol message.wellFormed
    Res.refuseIf (message.id != m.id) .wrongChannel
    Res.refuseIf (m.status != .open && m.status != .closingAsked && m.awaiting.isNone)
      (.status m.status.asStr)
    Res.refuseIf (decide (m.stateNumber < message.n)) (.unexpectedState message.n m.stateNumber)
  match checks with
  | .panic => (m, .panic)
  | .err e => (m, .err e)
  | .ok () =>
    let index := message.n - 1
    if (m.newReveal index message.reveal).isNone then
      (m, if (m.theirRevocation.lookup index).isSome then .ok none else .err .badRevocation)
    else
      let r := (m.takeTheirReveal index message.reveal).finalise
      (r.1, .ok r.2)

/-- A refusal naming the pending update sets it aside; a resync is returned. -/
def receiveReject (message : RejectMessage) (ctx : Context) :
    ChannelMachine × Res ProtocolError (Option SyncMessage) :=
  let checks : Res ProtocolError Unit := do
    ofProtocol message.wellFormed
    Res.refuseIf (message.id != m.id) .wrongChannel
    Res.refuseIf (!m.pending.any fun p => p.n == message.n && p.message.sig == message.sig)
      .noPending
  match checks with
  | .panic => (m, .panic)
  | .err e => (m, .err e)
  | .ok () =>
    let reason := match message.reason with
      | some (.text t) => t
      | _ => "no reason given".toList
    let r := (m.dropPending ("they refused it: ".toList ++ reason)).announceDropped.resync ctx false
    (r.1, .ok r.2)

def takeBufferedUpdate : ChannelMachine × Option UpdateMessage :=
  if m.awaiting.isNone then ({ m with buffered := none }, m.buffered) else (m, none)

/-! ### Closing -/

def closeChannel (ctx : Context) : ChannelMachine × Res ProtocolError CloseMessage :=
  let checks : Res ProtocolError (CloseMessage × Transaction) := do
    Res.refuseIf (m.status != .open && m.status != .funding) (.status "not open".toList)
    Res.refuseIf (m.pending.isSome || m.awaiting.isSome) .inFlight
    let message ← m.closeMessage ctx
    let tx ← m.cooperativeTx
    .ok (message, tx)
  match checks with
  | .panic => (m, .panic)
  | .err e => (m, .err e)
  | .ok (message, tx) =>
    ({ m with status := .closingAsked, coopTxid := some (Bitcoin.computeTxid tx) }, .ok message)

/-- The close with both signatures. -/
def witnessed (tx : Transaction) (mine theirs : Sig) : Res ProtocolError Transaction := do
  let witness ← ofProtocol (m.channel.fundingWitness [(m.myKey, mine), (m.peerKey, theirs)])
  .ok (withWitness tx witness)

def receiveClose (message : CloseMessage) (ctx : Context) :
    ChannelMachine × Res ProtocolError Broadcast :=
  let checks : Res ProtocolError Transaction := do
    Res.refuseIf (message.id != m.id) .wrongChannel
    Res.refuseIf (!m.status.isLive) (.status m.status.asStr)
    Res.refuseIf (message.n != m.stateNumber) (.unexpectedState message.n m.stateNumber)
    Res.refuseIf (m.pending.isSome || m.awaiting.isSome) .inFlight
    let tx ← m.cooperativeTx
    Res.refuseIf (!m.theirSigOk tx message.sig) .badSignature
    let mine ← m.signFunding tx ctx
    m.witnessed tx mine message.sig
  match checks with
  | .panic => (m, .panic)
  | .err e => (m, .err e)
  | .ok tx =>
    let txid := Bitcoin.computeTxid tx
    ({ m with
        status := .closing
        coopTxid := some txid
        close := some ⟨txid, tx, none, ctx.height⟩ }, .ok ⟨"cooperative close".toList, tx⟩)

/-- This peer's commitment at a state with both signatures, as a forced close
publishes it; the other side's signature is checked first. -/
def signedCommitment (n : ℕ) (ctx : Context) : Res ProtocolError Transaction := do
  let theirs ← Res.okOr (.missingSignature n) (m.signatures.lookup n)
  let c ← m.myCommitment n
  Res.refuseIf (!m.theirSigOk c.tx theirs) .badSignature
  let mine ← m.signFunding c.tx ctx
  m.witnessed c.tx mine theirs

def forceClose (at' : Option ℕ) (why : Text) (ctx : Context) :
    ChannelMachine × Res ProtocolError Broadcast :=
  let n := at'.getD m.stateNumber
  let checks : Res ProtocolError Transaction := do
    Res.refuseIf (!m.status.isLive && m.status != .closing) (.status m.status.asStr)
    Res.refuseIf (m.signatures.lookup n).isNone (.missingSignature n)
    Res.refuseIf (m.fundedHeight.isNone && m.status != .open) .unfunded
    m.signedCommitment n ctx
  match checks with
  | .panic => (m, .panic)
  | .err e => (m, .err e)
  | .ok tx =>
    let m₁ := m.dropPending "the channel is being closed".toList
    ({ m₁ with
        status := .forceClosing
        close := some ⟨Bitcoin.computeTxid tx, tx, some n, ctx.height⟩
        awaiting := none
        buffered := none }.announceDropped, .ok ⟨why ++ " close".toList, tx⟩)

/-! ### Recovery -/

/-- What a sync brings out of this peer: what the other side lost, the winner of
a collision, or the close and the opening handshake. -/
def reconcile (message : SyncMessage) (ctx : Context) :
    ChannelMachine × Res ProtocolError (List PeerMessage) :=
  let theirs := message.status.getD []
  if m.status = .funding ∧ m.role = .a then
    (m, if theirs = "accepted".toList then do
        let s ← m.state 0
        let c ← m.commitmentAt .b 0 s
        let sig ← m.signFunding c.tx ctx
        .ok [.commit ⟨m.id, sig⟩]
      else .ok [])
  else if m.status = .funding then
    (m, .ok (if theirs = "funding".toList ∨ theirs = "open".toList then [.ready m.id] else []))
  else
    let close : Res ProtocolError (List PeerMessage) :=
      if m.status = .closingAsked ∧ (theirs = "open".toList ∨ theirs = "funding".toList ∨
          theirs = "closing-asked".toList) then do
        let c ← m.closeMessage ctx
        .ok [.close c]
      else .ok []
    match close with
    | .panic => (m, .panic)
    | .err e => (m, .err e)
    | .ok close =>
      let n := m.stateNumber
      if m.status ≠ .open ∧ m.status ≠ .closingAsked then (m, .ok close)
      else if message.n = n then
        match m.pending, message.pendingN with
        | some _, none =>
          let r := m.resendUpdate ctx
          (r.1, .ok (close ++ (r.2.map PeerMessage.update).toList))
        | some p, some n' =>
          if p.n = n' then
            if m.peerKey.toNat < m.myKey.toNat then
              ((m.dropPending "both of us proposed at once and the lower key wins".toList
                ).announceDropped, .ok close)
            else
              let r := m.resendUpdate ctx
              (r.1, .ok (close ++ (r.2.map PeerMessage.update).toList))
          else (m, .ok close)
        | none, _ => (m, .ok close)
      else if message.n + 1 = n ∧ message.pendingN.all fun p => p == n then
        (m, do
          let ack ← m.acknowledgement ctx
          .ok (close ++ (ack.map PeerMessage.ack).toList))
      else if message.n = n + 1 ∧ m.pending.any fun p => p.n == message.n then (m, .ok close)
      else if n + 1 < message.n then ({ m with peerAhead := some message.n }, .ok close)
      else (m, .ok close)

/-- The secrets a sync carries are taken. -/
def takeReveals (message : SyncMessage) : ChannelMachine :=
  let m₁ := match message.reveal with
    | some reveal => if 0 < message.n then m.takeTheirReveal (message.n - 1) reveal else m
    | none => m
  (message.reveals.getD []).foldl (fun m r => m.takeTheirReveal r.1 r.2) m₁

/-- The answer to a sync: the position, and the secrets asked for. -/
def synced (message : SyncMessage) : SyncMessage :=
  { m.syncMessage .synced with
    reveals := some ((message.missing.filter m.mayReveal).filterMap fun n =>
      (m.myRevocation.lookup n).map fun s => (n, s.1)) }

def receiveSync (message : SyncMessage) (ctx : Context) :
    ChannelMachine × Res ProtocolError SyncOutcome :=
  let checks : Res ProtocolError Unit := do
    ofProtocol message.wellFormed
    Res.refuseIf (message.id != m.id) .wrongChannel
  match checks with
  | .panic => (m, .panic)
  | .err e => (m, .err e)
  | .ok () =>
    let f := (m.takeReveals message).finalise
    let first := if message.t = .sync then [PeerMessage.sync (f.1.synced message)] else []
    let r := f.1.reconcile message ctx
    (r.1, do
      let replies ← r.2
      .ok ⟨f.2, first ++ replies⟩)

/-! ### The tick -/

/-- An unconfirmed close is published again. -/
def rebroadcast (ctx : Context) : ChannelMachine × List TickAction :=
  if (m.status = .forceClosing ∨ m.status = .closing) ∧ m.spend.isNone then
    match m.close with
    | none => (m, [])
    | some close =>
      if closeRebroadcast < ctx.height - close.at then
        ({ m with close := some ⟨close.txid, close.tx, close.state, ctx.height⟩ },
          [.broadcast ⟨"close (again, still unconfirmed)".toList, close.tx⟩])
      else (m, [])
  else (m, [])

/-- A pending update: one that would expire is set aside, an unanswered one is
sent again. -/
def tickPending (ctx : Context) (pendingTimeout : ℕ) : ChannelMachine × List TickAction :=
  match m.pending with
  | none => (m, [])
  | some pending =>
    let expiring := match pending.update with
      | .add htlc _ => decide (htlc.expiry - (m.channel.delay + expiryMargin) ≤ ctx.height)
      | _ => false
    let wait := min (Word.satMul 64 pendingTimeout (2 ^ min (pending.tries - 1) 32))
      maxPendingBackoff
    if expiring then
      ((m.dropPending "the HTLC would expire before it could be added".toList).announceDropped, [])
    else if wait ≤ ctx.now - pending.at then
      let r := m.resync ctx false
      let u := r.1.resendUpdate ctx
      (u.1, (r.2.map fun s => .send (.sync s)).toList ++
        (u.2.map fun message => .send (.update message)).toList)
    else (m, [])

/-- A late revocation is asked for. -/
def tickResync (ctx : Context) : ChannelMachine × List TickAction :=
  if (m.awaiting.any fun w => awaitingResync < ctx.now - w.at) || m.missingReveals != [] then
    let r := m.resync ctx false
    (r.1, (r.2.map fun s => .send (.sync s)).toList)
  else (m, [])

/-- The protective close. -/
def protect (ctx : Context) : ChannelMachine × List TickAction :=
  let r := m.forceClose none "protective".toList ctx
  (r.1, match r.2 with
    | .ok b => [.broadcast b]
    | _ => [])

/-- The settle or the fail to propose next. -/
def tickPropose (ctx : Context) : List TickAction :=
  (m.currentState.htlcs.findSome? fun h =>
    if h.from ≠ m.role then
      (m.preimages.lookup h.hash).map fun preimage => TickAction.settle h.id preimage
    else if h.expiry ≤ ctx.height then some (.fail h.id "expired".toList) else none).toList

/-- An open channel: deadlines on the chain first. -/
def tickOpen (ctx : Context) : ChannelMachine × List TickAction :=
  let m := m.announceDropped
  let urgent := m.currentState.htlcs.any fun h => decide (h.from ≠ m.role) &&
    (m.preimages.lookup h.hash).isSome &&
    decide (h.expiry - (m.channel.delay + claimMargin) ≤ ctx.height)
  if urgent then m.protect ctx
  else
    let overdue := m.currentState.htlcs.find? fun h => decide (h.from = m.role) &&
      decide (Word.satAdd 32 h.expiry closeDepth ≤ ctx.height)
    let failUnanswered := overdue.any fun h =>
      (m.pending.any fun p => p.update.isFail) || m.awaiting.isSome ||
        (m.alternativesAt (m.stateNumber + 1)).any fun alt => match alt.update with
          | .fail htlcId _ => htlcId == h.id
          | _ => false
    if failUnanswered then m.protect ctx
    else if m.pending.isSome || m.awaiting.isSome || m.missingReveals != [] then (m, [])
    else (m, m.tickPropose ctx)

def tick (ctx : Context) (pendingTimeout : ℕ) : ChannelMachine × List TickAction :=
  let r₀ := m.rebroadcast ctx
  if !r₀.1.status.isLive then r₀
  else
    let r₁ := r₀.1.tickPending ctx pendingTimeout
    let r₂ := r₁.1.tickResync ctx
    let out := r₀.2 ++ r₁.2 ++ r₂.2
    if r₂.1.status ≠ .open then (r₂.1, out)
    else
      let r₃ := r₂.1.tickOpen ctx
      (r₃.1, out ++ r₃.2)

end ChannelMachine

/-! ### The first state -/

/-- What the opening handshake hands over. -/
structure Opened where
  id : ChannelId
  role : Side
  channel : Channel
  initialState : ProtocolState
  channelKey : SecretKey
  revocationBase : SecretKey
  revocation : SecretKey × SecretKey
  theirRevocationBase : Point
  theirRevocation : Point × Point
  theirSignatureZero : Sig
  peerHubFee : Option ℕ
  rules : SighashRules

/-- The machine before its first signature is checked. -/
def Opened.machine (o : Opened) : ChannelMachine where
  id := o.id
  role := o.role
  channelKey := o.channelKey
  channel := o.channel
  status := .funding
  fundedHeight := none
  stateNumber := 0
  states := (∅ : Map ℕ ProtocolState).insert 0 o.initialState
  myRevocationBase := o.revocationBase
  theirRevocationBase := o.theirRevocationBase
  myRevocation := ((∅ : Map ℕ SecretKey).insert 0 o.revocation.1).insert 1 o.revocation.2
  theirRevocation := ∅
  theirRevocationPublic :=
    ((∅ : Map ℕ Point).insert 0 o.theirRevocation.1).insert 1 o.theirRevocation.2
  signatures := (∅ : Map ℕ Sig).insert 0 o.theirSignatureZero
  pending := none
  awaiting := none
  buffered := none
  signedAlternatives := ∅
  dropped := none
  preimages := ∅
  htlcSeq := 1
  peerHubFee := o.peerHubFee
  coopTxid := none
  close := none
  spend := none
  closeState := none
  closeStateObj := none
  outputs := ∅
  claims := []
  penalties := []
  lastSyncAt := none
  peerAhead := none
  events := []
  rules := o.rules

def ChannelMachine.new (o : Opened) : Res ProtocolError ChannelMachine := do
  Res.refuseIf (Hitch.public o.channelKey != o.channel.key o.role) .wrongChannelKey
  let initial ← o.machine.myCommitment 0
  Res.refuseIf (!o.machine.theirSigOk initial.tx o.theirSignatureZero) .badSignature
  .ok o.machine

end

end Hitch

end Sidestr
