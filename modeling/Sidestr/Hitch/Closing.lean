/-
# The funding output is spent

A spend of the funding output is classified, answered with penalties, sweeps
and claims, and every output of a close is followed until it settles
(`chain.rs`). A reorganisation can undo the spend.

Key definitions: `ChannelMachine.onSpend`, `punish`, `unSpend`, `afterClose`,
`watchOutputs`.
-/
import Mathlib.Data.Finset.Sort
import Sidestr.Hitch.Machine

namespace Sidestr

namespace Hitch

/-- A spend of the funding output seen in a block. -/
structure ChainSpend where
  txid : Txid
  height : ℕ

/-- What a host knows about one output of a close. -/
inductive OutputLookup
  | unspent
  | spent (txid : Txid) (height : ℕ) (tx : Transaction)
  | unknown

abbrev Lookup := OutPoint → ℕ → OutputLookup

structure SpendOutcome where
  kind : FundingSpend
  broadcasts : List Broadcast

def textOf (n : ℕ) : Text := (toString n).toList

def ClaimKind.toText : ClaimKind → Text
  | .sweepToLocal => "sweep of to_local".toList
  | .htlcSuccess id => "claim of htlc ".toList ++ textOf id ++ " with the preimage".toList
  | .htlcRefund id => "refund of htlc ".toList ++ textOf id ++ " after its expiry".toList
  | .penaltyToLocal => "penalty on to_local".toList
  | .penaltyHtlc id => "penalty on htlc ".toList ++ textOf id

def FollowedOutput.named (kind : ClaimKind) : FollowedOutput :=
  ⟨.inr kind, none, false, false, none, none⟩

/-- An output this peer now claims. -/
def followClaim (outputs : Map ℕ FollowedOutput) (vout : ℕ) (kind : ClaimKind) :
    Map ℕ FollowedOutput :=
  let output := (outputs.lookup vout).getD (.named kind)
  outputs.insert vout { output with name := .inr kind, mine := true }

section

variable [Hitch]

namespace ChannelMachine

variable (m : ChannelMachine)

/-! ### Claims -/

/-- Confirmations of the spend at a height. -/
def confirmations (height : ℕ) (spend : SpendRecord) : ℕ := Word.satAdd 32 height 1 - spend.height

/-- A claim not made before is recorded and published; one not worth making is left alone. -/
def recordClaim (kind : ClaimKind) (vout : ℕ) (built : Except ChannelError Transaction)
    (height : ℕ) : ChannelMachine × List Broadcast :=
  if m.claims.any fun c => decide (c.kind = kind) then (m, [])
  else
    match built with
    | .error _ => (m, [])
    | .ok tx =>
      ({ m with
          claims := m.claims ++ [⟨kind, Bitcoin.computeTxid tx, vout, tx, height⟩]
          outputs := followClaim m.outputs vout kind }, [⟨kind.toText, tx⟩])

/-- One followed output looked up: this peer's claim confirms, the other side
takes it (its preimage is kept), or it is still open. -/
def watchOutput (spend : SpendRecord) (height : ℕ) (lookup : Lookup) (vout : ℕ) :
    ChannelMachine × List Broadcast × Bool :=
  match m.outputs.lookup vout with
  | none => (m, [], false)
  | some output =>
    if output.confirmed.isSome || output.theirs.isSome then (m, [], false)
    else
      match lookup (outPointAt spend.txid vout) spend.height with
      | .unknown => (m, [], true)
      | .unspent =>
        match m.claims.findIdx? (fun c => c.vout == vout) with
        | none => (m, [], true)
        | some i =>
          match m.claims[i]? with
          | none => (m, [], true)
          | some c =>
            if claimRebroadcast < height - c.at then
              ({ m with claims := m.claims.set i { c with «at» := height } },
                [⟨(match output.name with
                  | .inl id => "htlc ".toList ++ textOf id
                  | .inr kind => kind.toText) ++ " (again)".toList, c.tx⟩], true)
            else (m, [], true)
      | .spent txid at' tx =>
        if m.claims.any fun c => c.txid == txid then
          let m' := { m with outputs := m.outputs.insert vout { output with confirmed := some at' } }
          match output.hash, output.offeredByMe with
          | some hash, true => (m'.pushEvents [.payment hash .failed
              (some "refunded on the chain after the expiry".toList)], [], false)
          | _, _ => (m', [], false)
        else
          let m' := { m with outputs := m.outputs.insert vout { output with theirs := some txid } }
          match output.hash, output.offeredByMe with
          | some hash, true =>
            if (m.preimages.lookup hash).isSome then (m', [], false)
            else
              match Hitch.preimageIn tx hash with
              | none => (m', [], false)
              | some preimage => ((m'.rememberPreimage preimage).pushEvents
                  [.payment hash .sent (some "taken on the chain with the preimage".toList),
                   .preimage hash preimage], [], false)
          | _, _ => (m', [], false)

/-- The followed outputs in turn, with whether one is still open. -/
def watchAll (spend : SpendRecord) (height : ℕ) (lookup : Lookup) :
    List ℕ → ChannelMachine → ChannelMachine × List Broadcast × Bool
  | [], m => (m, [], false)
  | vout :: vouts, m =>
    let r := m.watchOutput spend height lookup vout
    let rest := watchAll spend height lookup vouts r.1
    (rest.1, r.2.1 ++ rest.2.1, r.2.2 || rest.2.2)

/-- When nothing is left open, a settling channel is closed and a punished one done. -/
def watchOutputs (ctx : Context) (lookup : Lookup) : ChannelMachine × List Broadcast :=
  match m.spend with
  | none => (m, [])
  | some spend =>
    let r := watchAll spend ctx.height lookup (m.outputs.keys.sort (· ≤ ·)) m
    if r.2.2 then (r.1, r.2.1)
    else
      match r.1.status with
      | .settling => ({ r.1 with status := .closed }, r.2.1)
      | .punishing => ({ r.1 with status := .punished }, r.2.1)
      | _ => (r.1, r.2.1)

/-- The HTLC outputs of a close: what can be claimed is claimed, and whether
something is left. -/
def claimHtlcs (c : Commitment) (mine : Bool) (confirmations : ℕ) (destination : Bytes)
    (ctx : Context) :
    List CommitmentHtlc → ChannelMachine → ChannelMachine × List Broadcast × Bool
  | [], m => (m, [], false)
  | h :: hs, m =>
    let offered := decide (h.htlc.from = m.role)
    let output := (m.outputs.lookup h.vout).getD
      ⟨.inl h.htlc.id, some h.htlc.paymentHash, offered, false, none, none⟩
    let m₁ := { m with outputs := m.outputs.insert h.vout output }
    let preimage := if offered then none else m.preimages.lookup h.htlc.paymentHash
    let early := mine && decide (confirmations < m.channel.delay)
    let claim (path : HtlcClaimPath) := claimHtlc c h path destination m.channel.fee preimage
      m.channelKey m.rules ctx.aux
    let r : ChannelMachine × List Broadcast × Bool :=
      if output.theirs.isSome then (m₁, [], false)
      else if preimage.isSome then
        if early then (m₁, [], true)
        else
          let r := m₁.recordClaim (.htlcSuccess h.htlc.id) h.vout (claim .success) ctx.height
          (r.1, r.2, false)
      else if offered && decide (h.htlc.expiry ≤ ctx.height) then
        if early then (m₁, [], true)
        else
          let r := m₁.recordClaim (.htlcRefund h.htlc.id) h.vout (claim .timeout) ctx.height
          (r.1, r.2, false)
      else (m₁, [], true)
    let rest := claimHtlcs c mine confirmations destination ctx hs r.1
    (rest.1, r.2.1 ++ rest.2.1, r.2.2 || rest.2.2)

/-- A close by a commitment: its outputs are claimed when they can be. -/
def followClose (spend : SpendRecord) (c : Commitment) (mine : Bool) (destination : Bytes)
    (ctx : Context) (lookup : Lookup) : ChannelMachine × List Broadcast :=
  let confs := confirmations ctx.height spend
  let s : ChannelMachine × List Broadcast × Bool :=
    match mine, c.toLocalVout with
    | true, some vout =>
      if m.channel.delay ≤ confs then
        let r := m.recordClaim .sweepToLocal vout (sweepToLocal c .delayed destination
          m.channel.fee m.channelKey m.rules ctx.aux) ctx.height
        (r.1, r.2, false)
      else (m, [], true)
    | _, _ => (m, [], false)
  let h := claimHtlcs c mine confs destination ctx c.htlcs s.1
  let m' := if s.2.2 || h.2.2 then h.1 else { h.1 with status := .settling }
  let w := m'.watchOutputs ctx lookup
  (w.1, s.2.1 ++ h.2.1 ++ w.2)

/-- The commitment that closed the channel. -/
def closingCommitment (mine : Bool) : Res ProtocolError Commitment :=
  let n := (if mine then m.close.bind CloseRecord.state else m.closeState).getD m.stateNumber
  let s : Res ProtocolError ProtocolState :=
    match m.closeStateObj, mine with
    | some s, false => .ok s
    | _, _ => m.state n
  do
    let s ← s
    m.commitmentAt (if mine then m.role else m.role.other) n s

/-- After a close by either side. -/
def afterClose (destination : Bytes) (ctx : Context) (lookup : Lookup) :
    ChannelMachine × List Broadcast :=
  match m.status with
  | .closedCoop =>
    if m.spend.any fun s => closeDepth ≤ confirmations ctx.height s then
      ({ m with status := .closed }, [])
    else (m, [])
  | .punishing | .settling => m.watchOutputs ctx lookup
  | .closedMine | .closedTheirs | .closedTheirsAlt =>
    match m.spend with
    | none => (m, [])
    | some spend =>
      let mine := decide (m.status = .closedMine)
      match m.closingCommitment mine with
      | .ok c => m.followClose spend c mine destination ctx lookup
      | _ => (m, [])
  | _ => (m, [])

/-! ### Penalties -/

/-- The penalty transactions on a revoked commitment: every output worth claiming. -/
def penaltiesOn (c : Commitment) (key : SecretKey) (destination : Bytes) (ctx : Context) :
    List (ClaimKind × ℕ × Transaction) :=
  let toLocal := match c.toLocalVout, sweepToLocal c .revocation destination m.channel.fee key
      m.rules ctx.aux with
    | some vout, .ok tx => [(.penaltyToLocal, vout, tx)]
    | _, _ => []
  toLocal ++ c.htlcs.filterMap fun h =>
    match claimHtlc c h .revocation destination m.channel.fee none key m.rules ctx.aux with
    | .ok tx => some (.penaltyHtlc h.htlc.id, h.vout, tx)
    | .error _ => none

/-- A penalty made: recorded in place of an earlier one of its kind. -/
def recordPenalty (height : ℕ) (m : ChannelMachine) (p : ClaimKind × ℕ × Transaction) :
    ChannelMachine :=
  let txid := Bitcoin.computeTxid p.2.2
  { m with
    penalties := m.penalties ++ [txid]
    claims := m.claims.filter (fun c => decide (c.kind ≠ p.1)) ++
      [⟨p.1, txid, p.2.1, p.2.2, height⟩]
    outputs := followClaim m.outputs p.2.1 p.1 }

def punish (n : ℕ) (c : Commitment) (destination : Bytes) (ctx : Context) :
    ChannelMachine × Res ProtocolError (List Broadcast) :=
  match m.theirRevocation.lookup n with
  | none => (m, .panic)
  | some theirs =>
    match Hitch.revocationKey m.myRevocationBase theirs with
    | none => (m, .err (.channel .revocationKey))
    | some key =>
      let made := m.penaltiesOn c key destination ctx
      let m' := made.foldl (recordPenalty ctx.height)
        { m with status := .punishing, penalties := [] }
      (m', .ok (made.map fun p =>
        ⟨p.1.toText ++ " (their revoked state ".toList ++ textOf n ++ ")".toList, p.2.2⟩))

/-! ### The spend -/

/-- The other side's commitments this peer signed up to state `n`, with whether
each is a set-aside one. -/
def candidatesUpTo : ℕ → Res ProtocolError (List (ℕ × ProtocolState × Bool))
  | 0 => .ok []
  | n + 1 => do
    let before ← candidatesUpTo n
    let s ← m.state n
    .ok (before ++ (n, s, false) :: (m.alternativesAt n).map fun alt => (n, alt.state, true))

/-- All of them: up to the agreed state, the pending one, and the alternatives to that. -/
def candidates : Res ProtocolError (List (ℕ × ProtocolState × Bool)) := do
  let agreed ← m.candidatesUpTo (m.stateNumber + 1)
  let pending ← (match m.pending with
    | none => .ok []
    | some p => do
      let s ← m.state p.n
      .ok [(p.n, s, false)] : Res ProtocolError (List (ℕ × ProtocolState × Bool)))
  .ok (agreed ++ pending ++
    (m.alternativesAt (m.stateNumber + 1)).map fun alt => (m.stateNumber + 1, alt.state, true))

/-- Whether a candidate's commitment of the other side has this txid. -/
def isSpentBy (txid : Txid) (c : ℕ × ProtocolState × Bool) : Bool :=
  match m.theirCommitment c.1 c.2.1 with
  | .ok c => Bitcoin.computeTxid c.tx == txid
  | _ => false

def onSpend (spend : ChainSpend) (destination : Bytes) (ctx : Context) (lookup : Lookup) :
    ChannelMachine × Res ProtocolError SpendOutcome :=
  match m.spend.filter fun seen => seen.txid == spend.txid with
  | some seen =>
    let r := m.afterClose destination ctx lookup
    (r.1, .ok ⟨seen.kind, r.2⟩)
  | none =>
    let record (kind : FundingSpend) : SpendRecord := ⟨spend.txid, spend.height, m.status, kind⟩
    let m₀ := { m with outputs := ∅ }
    if m.coopTxid = some spend.txid then
      ({ m₀ with spend := some (record .cooperative), status := .closedCoop },
        .ok ⟨.cooperative, []⟩)
    else
      match m.close.filter fun c => c.txid == spend.txid with
      | some c =>
        let kind := FundingSpend.localCommitment (c.state.getD m.stateNumber)
        let r := { m₀ with
            spend := some (record kind)
            status := .closedMine
            closeStateObj := none }.afterClose destination ctx lookup
        (r.1, .ok ⟨kind, r.2⟩)
      | none =>
        match m.candidates with
        | .panic => (m₀, .panic)
        | .err e => (m₀, .err e)
        | .ok candidates =>
          match candidates.find? (m.isSpentBy spend.txid) with
          | none =>
            ({ m₀ with spend := some (record .unknown), status := .spentUnknown },
              .ok ⟨.unknown, []⟩)
          | some (n, s, alternative) =>
            let revoked := (m.theirRevocation.lookup n).isSome
            let kind := FundingSpend.remoteCommitment n alternative revoked
            let m₁ := { m₀ with
              spend := some (record kind)
              closeState := some n
              closeStateObj := some s }
            if !revoked then
              let r := { m₁ with status :=
                if alternative then .closedTheirsAlt else .closedTheirs }.afterClose
                  destination ctx lookup
              (r.1, .ok ⟨kind, r.2⟩)
            else
              match m.theirCommitment n s with
              | .ok c =>
                let r := m₁.punish n c destination ctx
                (r.1, do
                  let broadcasts ← r.2
                  .ok ⟨kind, broadcasts⟩)
              | .err e => (m₁, .err e)
              | .panic => (m₁, .panic)

/-- The spend was undone by a reorganisation: the channel goes back to where it
was, but never to open once this peer published a close. -/
def unSpend : ChannelMachine × Option Broadcast :=
  match m.spend with
  | none => (m, none)
  | some spend =>
    let back := spend.previousStatus
    let m' := { m with spend := none, claims := [], penalties := [], outputs := ∅,
                       closeStateObj := none }
    match m.close.filter fun _ => back.isClosedOut with
    | some close =>
      ({ m' with status := if back = .closingAsked then .closing else back },
        some ⟨"close (again after a reorganisation)".toList, close.tx⟩)
    | none => ({ m' with status := back }, none)

end ChannelMachine

end

end Hitch

end Sidestr
