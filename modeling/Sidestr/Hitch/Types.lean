/-
# The channel protocol's data

The messages two peers of a channel exchange, and what they carry (`wire.rs`
and `mod.rs` of the hitch protocol): updates and HTLCs, per-state secrets and
points, statuses, events and errors. State numbers, ids and amounts are
naturals; where the code's 64-bit arithmetic can refuse, so does the model.

The curve, the hash and the tapscript builders are the class `Hitch`; nothing
is assumed of them.

Key definitions: `Hitch`, `Update`, `PeerMessage`, `ChannelStatus`,
`ProtocolError`, `Context`.
-/
import Sidestr.Core.Tx

namespace Sidestr

namespace Hitch

abbrev Point := Hash256

abbrev Preimage := Hash256

abbrev Sig := Bytes

/-- The first sixteen hex characters of a funding txid. -/
abbrev ChannelId := BitVec 64

def channelIdOf (txid : Txid) : ChannelId := BitVec.ofNat 64 (txid.toNat / 2 ^ 192)

abbrev Text := List Char

/-- The length of a text in UTF-16 code units. -/
def utf16Len (t : Text) : ℕ := (t.map fun c => if c.toNat < 0x10000 then 1 else 2).sum

/-- The longest beginning of `limit` code units at most. -/
def truncateUtf16 : ℕ → Text → Text
  | _, [] => []
  | limit, c :: t =>
    let len := if c.toNat < 0x10000 then 1 else 2
    if limit < len then [] else c :: truncateUtf16 (limit - len) t

/-! ### Constants -/

def minHtlc : ℕ := 1000
def expiryMargin : ℕ := 12
def claimMargin : ℕ := 3
def closeDepth : ℕ := 6
def memoMax : ℕ := 140
def maxPendingBackoff : ℕ := 600
def maxSats : ℕ := 2100000000000000
def maxSyncItems : ℕ := 64
def maxStatusLen : ℕ := 32
def awaitingResync : ℕ := 60
def resyncInterval : ℕ := 30
def closeRebroadcast : ℕ := 3
def claimRebroadcast : ℕ := 6
def dust : ℕ := 330
def minDelay : ℕ := 3
def maxDelay : ℕ := 144
def minFee : ℕ := 100
def maxFee : ℕ := 10000
def maxExpiry : ℕ := 500000000

/-! ### Sides, updates, HTLCs -/

inductive Side
  | a | b
  deriving DecidableEq, Repr

def Side.other : Side → Side
  | .a => .b
  | .b => .a

/-- An HTLC as a state holds it. -/
structure ProtocolHtlc where
  id : ℕ
  «from» : Side
  amount : ℕ
  hash : Hash256
  expiry : ℕ
  route : Option Point
  deriving DecidableEq

/-- An HTLC as an `add` carries it: the offerer is the sender. -/
structure OfferedHtlc where
  id : ℕ
  amount : ℕ
  hash : Hash256
  expiry : ℕ
  route : Option Point
  deriving DecidableEq

inductive Update
  | pay (amount : ℕ) (memo : Option Text)
  | add (htlc : OfferedHtlc) (memo : Option Text)
  | settle (htlcId : ℕ) (preimage : Preimage)
  | fail (htlcId : ℕ) (reason : Option Text)
  deriving DecidableEq

/-- The payment hash an `add` locks. -/
def Update.addedHash : Update → Option Hash256
  | .add htlc _ => some htlc.hash
  | _ => none

def Update.isPay : Update → Bool
  | .pay .. => true
  | _ => false

def Update.isFail : Update → Bool
  | .fail .. => true
  | _ => false

def textOk (text : Option Text) : Bool := text.all fun t => utf16Len t ≤ memoMax

/-! ### Statuses, events, errors -/

inductive ChannelStatus
  | funding | open | closingAsked | closing | forceClosing | closedMine | closedTheirs
  | closedTheirsAlt | punishing | settling | closedCoop | closed | punished | spentUnknown
  deriving DecidableEq, Repr

namespace ChannelStatus

/-- The kebab-case name a sync reports. -/
def asStr : ChannelStatus → Text
  | .funding => "funding".toList
  | .open => "open".toList
  | .closingAsked => "closing-asked".toList
  | .closing => "closing".toList
  | .forceClosing => "force-closing".toList
  | .closedMine => "closed-mine".toList
  | .closedTheirs => "closed-theirs".toList
  | .closedTheirsAlt => "closed-theirs-alt".toList
  | .punishing => "punishing".toList
  | .settling => "settling".toList
  | .closedCoop => "closed-coop".toList
  | .closed => "closed".toList
  | .punished => "punished".toList
  | .spentUnknown => "spent-unknown".toList

def isLive : ChannelStatus → Bool
  | .funding | .open | .closingAsked => true
  | _ => false

def isClosedOut : ChannelStatus → Bool
  | .forceClosing | .closing | .closingAsked => true
  | _ => false

end ChannelStatus

inductive PaymentOutcome
  | inFlight | sent | failed | notMade
  deriving DecidableEq

/-- An update of this peer's that was set aside, waiting to be announced. -/
structure DroppedUpdate where
  update : Update
  reason : Text
  deriving DecidableEq

inductive ChannelEvent
  | dropped (update : DroppedUpdate)
  | preimage (hash : Hash256) (preimage : Preimage)
  | payment (hash : Hash256) (outcome : PaymentOutcome) (reason : Option Text)
  deriving DecidableEq

/-- Where a payment hash still has force on a channel. -/
inductive Bound
  | state | pending | alt | chain
  deriving DecidableEq

/-- Errors of the transaction builders. -/
inductive ChannelError
  | fee | delay | expiry | unbalanced (state funding : ℕ) | amountOverflow | nothingToPay
  | htlcsInFlight | dustClaim | missingOutput | missingPreimage | script | sighash
  | missingSignature | revocationKey
  deriving DecidableEq

inductive ProtocolError
  | malformed (what : Text)
  | wrongChannel
  | wrongChannelKey
  | snapshotVersion (version : ℕ)
  | corruptSnapshot (what : Text)
  | badPush
  | missingProof
  | status (what : Text)
  | unexpectedState (got expected : ℕ)
  | pending
  | noPending
  | awaitingRevocation
  | inFlight
  | missingReveal (n : ℕ)
  | missingRevocationKey (n : ℕ)
  | missingState (n : ℕ)
  | missingSignature (n : ℕ)
  | badSignature
  | badRevocation
  | staleChain
  | hashBound (bound : Bound)
  | tooMuch (most : ℕ)
  | zeroAmount
  | memoTooLong
  | htlcTooSmall
  | badExpiry
  | badHtlcId
  | expiryTooSoon
  | duplicatePaymentHash
  | negativeBalance
  | balanceOverflow
  | funderFee
  | noSuchHtlc
  | offererCannotSettle
  | wrongPreimage
  | htlcExpired
  | offererFailBeforeExpiry
  | knownPreimage
  | unfunded
  | channel (error : ChannelError)
  deriving DecidableEq

/-- Why an update is refused. -/
inductive RejectReason
  | closeSigned
  | alreadyAgreed (n : ℕ)
  | noProof
  | badState (error : ProtocolError)
  | badSignature
  | collision
  /-- A text of the other side's. -/
  | text (t : Text)
  deriving DecidableEq

/-! ### The parameters -/

/-- Where a revocation point stands. -/
structure PopContext where
  id : ChannelId
  owner : Side
  n : ℕ
  deriving DecidableEq

/-- A tapscript leaf of an output. -/
structure LeafSpend where
  script : Bytes
  leafHash : Hash256
  controlBlock : Bytes
  csv : Bool
  deriving DecidableEq

structure FundingScript where
  scriptPubkey : Bytes
  /-- The keys in leaf order. -/
  signers : Point × Point
  leaf : LeafSpend
  deriving DecidableEq

structure ToLocalScript where
  scriptPubkey : Bytes
  delayed : LeafSpend
  revocation : LeafSpend
  deriving DecidableEq

structure HtlcScript where
  scriptPubkey : Bytes
  success : LeafSpend
  timeout : LeafSpend
  revocation : LeafSpend
  deriving DecidableEq

structure HtlcScriptArgs where
  ownerPub : Point
  remotePub : Point
  revocationPub : Point
  delay : ℕ
  paymentHash : Hash256
  expiry : ℕ
  offeredByOwner : Bool

end Hitch

open Hitch in
/-- What the channel code takes from the curve, the hash and the script builders. -/
class Hitch extends Bitcoin where
  /-- A scalar the curve takes as a secret key. -/
  validSecret : Hash256 → Bool
  «public» : { b : Hash256 // validSecret b = true } → Point
  sha : Preimage → Hash256
  revocationPub : Point → { b : Hash256 // validSecret b = true } → Option Point
  revocationKey : { b : Hash256 // validSecret b = true } →
    { b : Hash256 // validSecret b = true } → Option { b : Hash256 // validSecret b = true }
  popSign : { b : Hash256 // validSecret b = true } → PopContext → Hash256 → Bytes
  popVerify : Point → Bytes → PopContext → Bool
  fundingScript : Point → Point → Option FundingScript
  toLocalScript : Point → Point → ℕ → Option ToLocalScript
  toRemoteScript : Point → Bytes
  htlcScript : HtlcScriptArgs → Option HtlcScript
  signLeaf : Transaction → List TxOut → Hash256 → { b : Hash256 // validSecret b = true } →
    SighashRules → Hash256 → Option Sig
  verifyLeafSignature : Transaction → List TxOut → Hash256 → Point → Sig → SighashRules → Bool
  /-- The preimage a spend of an HTLC output shows in its witness. -/
  preimageIn : Transaction → Hash256 → Option Preimage

namespace Hitch

section

variable [Hitch]

abbrev SecretKey := { b : Hash256 // Hitch.validSecret b = true }

/-- The bytes as a secret key. -/
def secret (bytes : Hash256) : Option SecretKey :=
  if h : Hitch.validSecret bytes = true then some ⟨bytes, h⟩ else none

/-- What the host knows at a call. -/
structure Context where
  height : ℕ
  now : ℕ
  aux : Hash256
  stale : Bool

end

/-! ### Messages -/

structure UpdateMessage where
  id : ChannelId
  n : ℕ
  update : Update
  sig : Sig
  nextRev : Point
  nextRevPop : Bytes
  deriving DecidableEq

structure AckMessage where
  id : ChannelId
  n : ℕ
  sig : Sig
  reveal : Hash256
  nextRev : Point
  nextRevPop : Bytes
  deriving DecidableEq

structure RevokeMessage where
  id : ChannelId
  n : ℕ
  reveal : Hash256
  deriving DecidableEq

structure RejectMessage where
  id : ChannelId
  n : ℕ
  sig : Sig
  reason : Option RejectReason
  deriving DecidableEq

structure CloseMessage where
  id : ChannelId
  n : ℕ
  sig : Sig
  deriving DecidableEq

structure CommitMessage where
  id : ChannelId
  sig : Sig
  deriving DecidableEq

inductive SyncTag
  | sync | synced
  deriving DecidableEq

structure SyncMessage where
  t : SyncTag
  id : ChannelId
  n : ℕ
  status : Option Text
  pendingN : Option ℕ
  reveal : Option Hash256
  missing : List ℕ
  reveals : Option (List (ℕ × Hash256))
  deriving DecidableEq

/-- The messages of an established channel. -/
inductive PeerMessage
  | commit (m : CommitMessage)
  | ready (id : ChannelId)
  | update (m : UpdateMessage)
  | ack (m : AckMessage)
  | revoke (m : RevokeMessage)
  | reject (m : RejectMessage)
  | close (m : CloseMessage)
  | sync (m : SyncMessage)
  deriving DecidableEq

def malformed (what : String) : Except ProtocolError Unit := .error (.malformed what.toList)

/-- The shape of an update, before it is used. -/
def Update.wellFormed : Update → Except ProtocolError Unit
  | .pay amount memo =>
    if !textOk memo then malformed "bad update"
    else if 1 ≤ amount ∧ amount ≤ maxSats then .ok () else malformed "bad pay"
  | .add htlc memo =>
    if !textOk memo then malformed "bad update"
    else if 1 ≤ htlc.id ∧ (minHtlc ≤ htlc.amount ∧ htlc.amount ≤ maxSats) ∧
        (1 ≤ htlc.expiry ∧ htlc.expiry < maxExpiry) then .ok () else malformed "bad add"
  | .settle htlcId _ => if 1 ≤ htlcId then .ok () else malformed "bad settle"
  | .fail htlcId reason => if 1 ≤ htlcId ∧ textOk reason then .ok () else malformed "bad fail"

def UpdateMessage.wellFormed (m : UpdateMessage) : Except ProtocolError Unit :=
  if m.n < 1 then malformed "bad update" else m.update.wellFormed

def AckMessage.wellFormed (m : AckMessage) : Except ProtocolError Unit :=
  if m.n < 1 then malformed "bad ack" else .ok ()

def RevokeMessage.wellFormed (m : RevokeMessage) : Except ProtocolError Unit :=
  if m.n < 1 then malformed "bad revoke" else .ok ()

def RejectReason.tooLong : RejectReason → Bool
  | .text t => memoMax < utf16Len t
  | _ => false

def RejectMessage.wellFormed (m : RejectMessage) : Except ProtocolError Unit :=
  if m.n < 1 ∨ m.reason.any RejectReason.tooLong then malformed "bad reject"
  else .ok ()

def SyncMessage.wellFormed (m : SyncMessage) : Except ProtocolError Unit :=
  if m.pendingN.all (fun n => 1 ≤ n) ∧ m.missing.length ≤ maxSyncItems ∧
      m.reveals.all (fun r => r.length ≤ maxSyncItems) ∧
      m.status.all (fun s => utf16Len s ≤ maxStatusLen) then .ok ()
  else malformed "bad sync"

end Hitch

end Sidestr
