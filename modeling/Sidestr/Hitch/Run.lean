/-
# Runs of a channel

A channel starts from an opening handshake and goes on by the calls of its
host: proposals, messages of the other side, ticks, closes, spends seen or
undone on the chain, and restarts from the saved snapshot (`opening.rs`,
`snapshot.rs`). A snapshot has everything but the events not yet drained and
the record of a peer far ahead, and is checked in full when it is restored.

Key definitions: `Opened.Valid`, `restore`, `Call`, `Call.run`, `Run`.
-/
import Sidestr.Hitch.Closing

namespace Sidestr

namespace Hitch

/-! ### The opening -/

/-- The push leaves the funder its fee and dust. -/
def validatePush (funding push fee : ℕ) : Res ProtocolError Unit := do
  let maximum ← Res.okOr .badPush (Word.checkedSub funding (fee + dust))
  Res.refuseIf (decide (maximum < push)) .badPush

def initialState (funding push : ℕ) : Res ProtocolError ProtocolState := do
  let balanceA ← Res.okOr .badPush (Word.checkedSub funding push)
  .ok ⟨balanceA, push, []⟩

section

variable [Hitch]

/-- What both halves of the handshake have checked. -/
structure Opened.Valid (o : Opened) : Prop where
  id : o.id = channelIdOf o.channel.fundingOutpoint.txid
  value : o.channel.fundingValue ≤ maxSats
  channel : Channel.new o.channel.keys.1 o.channel.keys.2 o.channel.fundingOutpoint
    o.channel.fundingValue o.channel.fee o.channel.delay = .ok o.channel
  state : ∃ push, validatePush o.channel.fundingValue push o.channel.fee = .ok () ∧
    Hitch.initialState o.channel.fundingValue push = .ok o.initialState

/-! ### Snapshots -/

/-- The durable fields of a machine, under a version. -/
structure ChannelSnapshot where
  version : ℕ
  kept : ChannelMachine

def ChannelMachine.snapshot (m : ChannelMachine) : ChannelSnapshot :=
  ⟨2, { m with events := [], peerAhead := none }⟩

/-- Each element passes, or the first refusal. -/
def checkEach {α : Type} (check : α → Res ProtocolError Unit) : List α → Res ProtocolError Unit
  | [] => .ok ()
  | a :: l => do
    check a
    checkEach check l

def corrupt (what : String) : ProtocolError := .corruptSnapshot what.toList

namespace ChannelMachine

variable (m : ChannelMachine)

/-- An agreed state: both commitments, the other side's signature, its HTLC ids. -/
def validateState (k : ℕ) : Res ProtocolError Unit :=
  match m.states.lookup k with
  | none => .ok ()
  | some s => do
    let mine ← m.commitmentAt m.role k s
    let _ ← m.commitmentAt m.role.other k s
    let sig ← Res.okOr (.missingSignature k) (m.signatures.lookup k)
    Res.refuseIf (!m.theirSigOk mine.tx sig) .badSignature
    Res.refuseIf (s.htlcs.any fun h => decide (m.htlcSeq ≤ h.id)) (corrupt "htlc sequence")

def validatePending : Res ProtocolError Unit :=
  match m.pending with
  | none => .ok ()
  | some p => do
    Res.refuseIf (p.n != m.stateNumber + 1 || p.message.id != m.id || p.message.n != p.n ||
      p.message.update != p.update) (corrupt "pending update")
    let s ← m.state p.n
    let theirs ← m.commitmentAt m.role.other p.n s
    Res.refuseIf (!m.channel.verifyFunding theirs.tx m.myKey p.message.sig m.rules) .badSignature

/-- The relations a restored machine is checked for. -/
def validate : Res ProtocolError Unit := do
  Res.refuseIf (m.id != channelIdOf m.channel.fundingOutpoint.txid) (corrupt "channel id")
  Res.refuseIf (Hitch.public m.channelKey != m.myKey) .wrongChannelKey
  Res.refuseIf (m.htlcSeq == 0) (corrupt "htlc sequence")
  let n := m.stateNumber
  Res.refuseIf (m.states.lookup n).isNone (.missingState n)
  Res.refuseIf (decide (∃ k ∈ m.states.keys, n < k ∧ ¬ m.pending.any fun p => p.n == k))
    (corrupt "state beyond the agreed one")
  checkEach (fun k => Res.refuseIf ((m.myRevocation.lookup k).isNone ||
    (m.theirRevocationPublic.lookup k).isNone) (.missingRevocationKey k)) [n, n + 1]
  Res.refuseIf (decide (∃ k ∈ m.theirRevocation.keys, (m.theirRevocation.lookup k).any fun s =>
    m.theirRevocationPublic.lookup k != some (Hitch.public s))) (corrupt "counterparty revocation")
  Res.refuseIf (decide (∃ h ∈ m.preimages.keys, (m.preimages.lookup h).any fun p =>
    Hitch.sha p != h)) (corrupt "payment preimage")
  checkEach m.validateState (List.range (n + 1))
  checkEach (fun k => checkEach (fun alt => do
    let _ ← m.commitmentAt m.role.other k alt.state
    .ok ()) (m.alternativesAt k)) (m.signedAlternatives.keys.sort (· ≤ ·))
  m.validatePending
  Res.refuseIf (m.awaiting.any fun a => a.n != n || a.previous + 1 != a.n ||
    decide (a.sender ≠ m.role.other)) (corrupt "awaiting revocation")
  Res.refuseIf (m.buffered.any fun b => b.id != m.id || b.n != n + 1) (corrupt "buffered update")
  Res.refuseIf (m.close.any fun c => Bitcoin.computeTxid c.tx != c.txid)
    (corrupt "close transaction")
  Res.refuseIf (m.claims.any fun c => Bitcoin.computeTxid c.tx != c.txid)
    (corrupt "claim transaction")

end ChannelMachine

def restore (s : ChannelSnapshot) : Res ProtocolError ChannelMachine := do
  Res.refuseIf (s.version != 2) (.snapshotVersion s.version)
  let old := s.kept.channel
  let channel ← ofExcept (Channel.new old.keys.1 old.keys.2 old.fundingOutpoint old.fundingValue
    old.fee old.delay)
  let m := { s.kept with channel }
  m.validate
  .ok m

/-! ### Calls -/

/-- The host's calls. -/
inductive Call
  | confirmFunding (height : ℕ)
  | propose (update : Update) (next : SecretKey) (ctx : Context)
  | pay (amount : ℕ) (memo : Option Text) (next : SecretKey) (ctx : Context)
  | addHtlc (amount : ℕ) (hash : Hash256) (expiry : ℕ) (route : Option Point) (memo : Option Text)
      (next : SecretKey) (ctx : Context)
  | settleHtlc (htlcId : ℕ) (preimage : Preimage) (next : SecretKey) (ctx : Context)
  | failHtlc (htlcId : ℕ) (reason : Option Text) (next : SecretKey) (ctx : Context)
  | resendUpdate (ctx : Context)
  | receiveUpdate (message : UpdateMessage) (next : SecretKey) (ctx : Context)
  | receiveAck (message : AckMessage)
  | receiveRevoke (message : RevokeMessage)
  | receiveReject (message : RejectMessage) (ctx : Context)
  | takeBufferedUpdate
  | closeChannel (ctx : Context)
  | receiveClose (message : CloseMessage) (ctx : Context)
  | forceClose (at' : Option ℕ) (why : Text) (ctx : Context)
  | syncMessage (t : SyncTag)
  | resync (ctx : Context) (force : Bool)
  | receiveSync (message : SyncMessage) (ctx : Context)
  | acknowledgement (ctx : Context)
  | tick (ctx : Context) (pendingTimeout : ℕ)
  | rememberPreimage (preimage : Preimage)
  | drainEvents
  | onSpend (spend : ChainSpend) (destination : Bytes) (ctx : Context) (lookup : Lookup)
  | unSpend
  | afterClose (destination : Bytes) (ctx : Context) (lookup : Lookup)
  | watchOutputs (ctx : Context) (lookup : Lookup)
  /-- The snapshot, restored. -/
  | restart

/-- What a call returns: messages for the other side, closes to broadcast,
claims and penalties to broadcast, and updates that became final. -/
structure Emitted where
  messages : List PeerMessage := []
  closes : List Transaction := []
  claims : List Broadcast := []
  finalised : List FinalisedUpdate := []

/-- The value of a result that has one. -/
def okList {α : Type} : Res ProtocolError α → List α
  | .ok a => [a]
  | _ => []

def ReceiveUpdate.messages : ReceiveUpdate → List PeerMessage
  | .acknowledge ack => [.ack ack]
  | .resendAcknowledgement ack => [.ack ack]
  | .buffered => []
  | .rejected r => [.reject r]
  | .localProposalWins r => [.reject r]

def TickAction.messages : TickAction → List PeerMessage
  | .send message => [message]
  | _ => []

def TickAction.closes : TickAction → List Transaction
  | .broadcast b => [b.tx]
  | _ => []

/-- A proposal's result as what is sent. -/
def sentUpdate (r : ChannelMachine × Res ProtocolError UpdateMessage) : ChannelMachine × Emitted :=
  (r.1, { messages := (okList r.2).map .update })

/-- What a call makes of a machine, and what it returns; nothing where the
snapshot does not restore. -/
def Call.run (m : ChannelMachine) : Call → Option (ChannelMachine × Emitted)
  | .confirmFunding height => some (m.confirmFunding height, {})
  | .propose update next ctx => some (sentUpdate (m.propose update next ctx))
  | .pay amount memo next ctx => some (sentUpdate (m.pay amount memo next ctx))
  | .addHtlc amount hash expiry route memo next ctx =>
    some (sentUpdate (m.addHtlc amount hash expiry route memo next ctx))
  | .settleHtlc htlcId preimage next ctx =>
    some (sentUpdate (m.settleHtlc htlcId preimage next ctx))
  | .failHtlc htlcId reason next ctx => some (sentUpdate (m.failHtlc htlcId reason next ctx))
  | .resendUpdate ctx =>
    let r := m.resendUpdate ctx
    some (r.1, { messages := r.2.toList.map .update })
  | .receiveUpdate message next ctx =>
    let r := m.receiveUpdate message next ctx
    some (r.1, { messages := (okList r.2).flatMap ReceiveUpdate.messages })
  | .receiveAck message =>
    let r := m.receiveAck message
    some (r.1, { messages := (okList r.2).map fun o => .revoke o.revoke
                 finalised := (okList r.2).map AckOutcome.update })
  | .receiveRevoke message =>
    let r := m.receiveRevoke message
    some (r.1, { finalised := (okList r.2).flatMap Option.toList })
  | .receiveReject message ctx =>
    let r := m.receiveReject message ctx
    some (r.1, { messages := ((okList r.2).flatMap Option.toList).map .sync })
  | .takeBufferedUpdate => some (m.takeBufferedUpdate.1, {})
  | .closeChannel ctx =>
    let r := m.closeChannel ctx
    some (r.1, { messages := (okList r.2).map .close })
  | .receiveClose message ctx =>
    let r := m.receiveClose message ctx
    some (r.1, { closes := (okList r.2).map Broadcast.tx })
  | .forceClose at' why ctx =>
    let r := m.forceClose at' why ctx
    some (r.1, { closes := (okList r.2).map Broadcast.tx })
  | .syncMessage t => some (m, { messages := [.sync (m.syncMessage t)] })
  | .resync ctx force =>
    let r := m.resync ctx force
    some (r.1, { messages := r.2.toList.map .sync })
  | .receiveSync message ctx =>
    let r := m.receiveSync message ctx
    some (r.1, { messages := (okList r.2).flatMap SyncOutcome.replies
                 finalised := (okList r.2).flatMap fun o => o.finalised.toList })
  | .acknowledgement ctx =>
    some (m, { messages := ((okList (m.acknowledgement ctx)).flatMap Option.toList).map .ack })
  | .tick ctx pendingTimeout =>
    let r := m.tick ctx pendingTimeout
    some (r.1, { messages := r.2.flatMap TickAction.messages
                 closes := r.2.flatMap TickAction.closes })
  | .rememberPreimage preimage => some (m.rememberPreimage preimage, {})
  | .drainEvents => some ({ m with events := [] }, {})
  | .onSpend spend destination ctx lookup =>
    let r := m.onSpend spend destination ctx lookup
    some (r.1, { claims := (okList r.2).flatMap SpendOutcome.broadcasts })
  | .unSpend =>
    let r := m.unSpend
    some (r.1, { closes := r.2.toList.map Broadcast.tx })
  | .afterClose destination ctx lookup =>
    let r := m.afterClose destination ctx lookup
    some (r.1, { claims := r.2 })
  | .watchOutputs ctx lookup =>
    let r := m.watchOutputs ctx lookup
    some (r.1, { claims := r.2 })
  | .restart =>
    match restore m.snapshot with
    | .ok m' => some (m', {})
    | _ => none

/-- The call names the state it closes at. -/
def Call.namesState : Call → Prop
  | .forceClose (some _) _ _ => True
  | _ => False

/-- A call done: the machine after it, and what it returned. -/
abbrev Done := ChannelMachine × Emitted

/-- The runs from an opening whose calls all meet `ok`: the machine, and the
calls done, in order. -/
inductive Run (ok : ChannelMachine → Call → Prop) : Opened → ChannelMachine → List Done → Prop
  | start {o : Opened} {m : ChannelMachine} : o.Valid → ChannelMachine.new o = .ok m → Run ok o m []
  | call {o : Opened} {m m' : ChannelMachine} {log : List Done} {out : Emitted} (c : Call) :
      Run ok o m log → ok m c → c.run m = some (m', out) → Run ok o m' (log ++ [(m', out)])

end

end Hitch

end Sidestr
