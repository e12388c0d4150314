/-
# The block round

What a federation's signer does to make blocks (`round.rs`): the tick that
proposes when a block is due and it is its turn, the proposal that is judged
and co-signed, the partial signature that is counted, and the block sealed with
the threshold of signatures. The guard is the map of the heights signed for, at
start the journal's; the intent is recorded before the custody signer is asked
for a partial signature and the signature after.

The chain is behind its port: the state in memory, its mempool's verdict, and
the validator that a sealed block goes through (`chain.rs`).

Key definitions: `ChainView`, `BlockRound`, `BlockRound.tick`, `BlockRound.onEvent`.
-/
import Sidestr.Core.MultiA
import Sidestr.Round.Pegout

namespace Sidestr

namespace Round

/-! ### Signing a template -/

/-- A request for a partial signature over a template. -/
structure PartialRequest where
  chainId : Bytes
  height : ℕ
  /-- The template's identity: what is authorised. -/
  templateId : Hash256
  /-- The leaf's signature hash: what the signature is over. -/
  digest : Hash256
  deriving DecidableEq

/-- A signer of templates too. -/
class PartialSigner (S : Type) extends RoundSigner S where
  signPartial : S → PartialRequest → S × Option Signature

/-- A signer, and the templates it has given a partial signature for: each
height with the template's id. -/
structure TemplateCustody (S : Type) where
  signer : S
  signed : List (ℕ × Hash256)

/-- A block's bytes read and written (`SidestrBlock`). -/
class BlockCodec (H : Type) where
  encode : Block H → Bytes
  decode : Bytes → Option (Block H)

instance lawfulKey [Bitcoin] : LawfulBEq XOnlyPublicKey := inferInstance

/-- An author's key. -/
def signerFromHex [Bitcoin] (s : Bytes) : Option XOnlyPublicKey :=
  (pubkeyFromHex s).bind XOnlyPublicKey.fromSlice

/-- A signature of 64 bytes. -/
def signatureFromSlice (b : Bytes) : Option Signature :=
  if h : b.length = 64 then some ⟨b, h⟩ else none

/-- The federation of a state with its leaf, which the state's own record leaves out. -/
def taprootFederation [Bitcoin] [Taproot] {H σ : Type} (s : StateOf H σ) :
    Res Error TaprootFederation := do
  let fed ← Res.okOr (.federation "not a federated chain: no signers/threshold") s.federation
  let keys ← Res.okOr (.document "signer is not an x-only key")
    (fed.signers.mapM XOnlyPublicKey.fromSlice)
  TaprootFederation.new s.doc.id keys fed.threshold

/-! ### Events -/

def kindBlockProposal : ℕ := 23510

def kindPartialSignature : ℕ := 23511

def kindSealedBlock : ℕ := 23514

/-- Hex of whole bytes, at least one, trimmed and in lower case. -/
def anyHex (s : Bytes) : Option Bytes :=
  if trim s ≠ [] ∧ (trim s).length % 2 = 0 ∧ (trim s).all isHexDigit then some (toLower (trim s))
  else none

/-- A proposal and a sealed block: the chain, the height, the block in hex. -/
def blockEvent (kind : ℕ) (chainId : Bytes) (height : ℕ) (blockHex : Bytes) (createdAt : ℕ) :
    Option UnsignedEvent := do
  let content ← anyHex blockHex
  some ⟨[], createdAt, kind, [[tagChain, chainId], [tagH, decimalText height]], content⟩

/-- A partial signature: the chain, the height, the proposal, the signature. -/
def partialEvent (chainId : Bytes) (height : ℕ) (proposal signatureHex : Bytes) (createdAt : ℕ) :
    Option UnsignedEvent := do
  let proposal ← hexOf proposal 32
  let content ← anyHex signatureHex
  some ⟨[], createdAt, kindPartialSignature,
    [[tagChain, chainId], [tagH, decimalText height], [tagE, proposal]], content⟩

def heightTag (tags : List (List Bytes)) : Option ℕ := (firstTag tagH tags).bind parseU32

/-! ### The chain's port -/

/-- What the round needs of a chain. The state is read only, but for what its
extra rules keep of a judgement, which they keep behind the reference. -/
class ChainView (C : Type) (H σ : outParam Type) where
  state : C → StateOf H σ
  kept : C → σ → C
  submit : C → Transaction → C × Res Error Submitted
  /-- With the round's clock, in unix seconds. -/
  addBlock : C → Block H → ℕ → C × Res Error Applied

/-! ### The round -/

/-- Why a call of the round stopped. -/
inductive RoundError where
  | core (e : Error)
  | notASigner
  | event
  | custody
  | journal

structure RoundConfig where
  /-- Seconds without a block before the next signer may propose. -/
  proposeAfter : ℕ
  /-- Seconds until a height may be signed again; never, when none. -/
  resignAfter : Option ℕ

/-- A block that entered the chain through the round. -/
structure SealedBlock where
  height : ℕ
  hash : BlockHash
  txs : ℕ
  fees : ℕ
  claims : ℕ
  /-- The signer it came from; none, when it was sealed here. -/
  «from» : Option Bytes

/-- My proposal in flight. -/
structure Pending [Bitcoin] (H : Type) where
  /-- The proposal event's id. -/
  id : Bytes
  height : ℕ
  block : Block H
  /-- Signatures by key, mine included. -/
  sigs : Map XOnlyPublicKey Signature
  /-- Unix milliseconds. -/
  time : ℕ
  fees : ℕ
  claims : ℕ

/-- What was signed for at a height: the proposal's id, and when. -/
structure SignedAt where
  id : Bytes
  time : ℕ

/-- A line for the log. -/
inductive RoundNote where
  | failed (e : RoundError)
  | dropping (height signatures : ℕ)
  | proposing (height : ℕ) (id : Bytes) (txs claims : ℕ)
  | ignored (height : ℕ) (pubkey : Bytes) (tip : ℕ)
  | notItsTurn (height : ℕ) (pubkey : Bytes)
  | alreadySigned (height : ℕ) (pubkey id : Bytes) (seconds : ℕ)
  | notABlock
  | notOnTip (height : ℕ)
  | rulesFailed (height : ℕ) (rules : List RuleId)
  | refusedTx (height : ℕ) (txid : Txid) (e : Error)
  | refusedClaims (height : ℕ) (why : Bytes)
  | notSigned (height : ℕ) (e : RoundError)
  | notPublished (height : ℕ) (e : RoundError)
  | signedFor (height : ℕ) (id pubkey : Bytes)
  | badPartial (pubkey : Bytes)
  | signatures (have' threshold height : ℕ)
  | refusedByValidator (e : Error)
  | sealedBy (height : ℕ) (hash : BlockHash) (threshold n txs fees claims : ℕ)
  | sealedRefused (height : ℕ) (pubkey : Bytes) (e : Option Error)
  | sealedFrom (height : ℕ) (hash : BlockHash) (pubkey : Bytes)

/-- What the caller does after a call. -/
inductive RoundAction where
  | publish (ev : Event)
  | sealed (b : SealedBlock)
  | log (note : RoundNote)

/-- The rules that do not hold of an unsealed template. -/
def rulesNotJudgedOnATemplate : List RuleId := [.blockSignature, .headerPow]

/-- The round of one signer of one chain. -/
structure BlockRound [Bitcoin] (S J H : Type) where
  cfg : RoundConfig
  chainId : Bytes
  genesisHash : BlockHash
  fed : TaprootFederation
  me : XOnlyPublicKey
  custody : TemplateCustody S
  journal : J
  pending : Option (Pending H)
  /-- The guard: the heights signed for. -/
  signed : Map ℕ SignedAt
  /-- When the block became due, in unix milliseconds. -/
  dueSince : Option ℕ
  claimsWanted : List ClaimRequest
  /-- A parent view's check of a block's claims: why they are refused. -/
  checkClaims : Option (Block H → Option Bytes)
  proposals : Follower
  partials : Follower
  sealed : Follower

/-- A round and its chain. -/
structure Node [Bitcoin] (S J C H : Type) where
  round : BlockRound S J H
  chain : C

namespace BlockRound

/-- A result of the core. -/
def ofCore {α : Type} : Res Error α → Res RoundError α
  | .ok a => .ok a
  | .err e => .err (.core e)
  | .panic => .panic

/-- The guard an entry leaves. -/
def guardEntry (guard : Map ℕ SignedAt) (e : VoteEntry) : Map ℕ SignedAt :=
  match e.scope with
  | .height h => guard.insert h ⟨e.subject, e.time⟩
  | .burn _ => guard

section

variable [Bitcoin] [Taproot] {S J H σ : Type} [PartialSigner S] [VoteJournal J]

/-- A round with the journal loaded, for the chain the state holds. -/
def new (s : StateOf H σ) (custody : TemplateCustody S) (journal : J) (cfg : RoundConfig)
    (checkClaims : Option (Block H → Option Bytes)) : Res RoundError (BlockRound S J H) := do
  let fed ← ofCore (taprootFederation s)
  let me ← Res.okOr .notASigner (XOnlyPublicKey.fromSlice (RoundSigner.pubkey custody.signer))
  Res.refuseIf (decide (me ∉ fed.signers)) .notASigner
  let entries ← Res.okOr .journal (VoteJournal.entries journal)
  match s.hashes.head? with
  | none => .panic
  | some genesisHash =>
    .ok ⟨cfg, s.doc.id, genesisHash, fed, me, custody, journal, none, entries.foldl guardEntry ∅,
      none, [], checkClaims, Follower.new kindBlockProposal s.doc.id,
      Follower.new kindPartialSignature s.doc.id, Follower.new kindSealedBlock s.doc.id⟩

end

section

variable [Bitcoin] {S J H : Type} (r : BlockRound S J H)

/-- The producer's wishes for the next block it proposes. -/
def wantClaims (claims : List ClaimRequest) : BlockRound S J H := { r with claimsWanted := claims }

def meHex : Bytes := hexEncode r.me.serialize

def n : ℕ := r.fed.signers.length

/-- No signature at this height, or the one there has had its window. -/
def mayResign (height now : ℕ) : Bool :=
  match r.signed.lookup height, r.cfg.resignAfter with
  | none, _ => true
  | some _, none => false
  | some prev, some after => after * 1000 < now - prev.time

/-- `proposeAfter × n`, in milliseconds. -/
def ringMs : ℕ := r.cfg.proposeAfter * 1000 * r.n

/-- The proposer is the height's signer; every `proposeAfter` of lateness lets
the next one in. -/
def entitled (signer : XOnlyPublicKey) (height time : ℕ) : Bool :=
  match r.fed.signers.idxOf? signer with
  | none => false
  | some slot =>
    let late := (time - r.dueSince.getD time) / (max r.cfg.proposeAfter 1 * 1000)
    decide ((slot + r.n - height % r.n) % r.n ≤ late)

end

/-! ### Calls -/

open Method

variable [Bitcoin] {S J C H σ : Type} [PartialSigner S] [VoteJournal J]

/-- A change of the round. -/
def modifyRound (f : BlockRound S J H → BlockRound S J H) : Method RoundError (Node S J C H) Unit :=
  modify fun nd => { nd with round := f nd.round }

def getRound : Method RoundError (Node S J C H) (BlockRound S J H) := fun nd => (nd, .ok nd.round)

/-- One journal record: the intent before the custody signer, the signature after. -/
def journalRecord (tid : Hash256) (height : ℕ) (role : VoteRole) (subject : Bytes) (time : ℕ)
    (signature : Option Signature) : Method RoundError (Node S J C H) Unit := fun nd =>
  let entry : VoteEntry := ⟨.height height, role, subject, tid, time,
    if signature.isSome then .signed else .intent, signature.map fun sig => [hexEncode sig.1]⟩
  let answer := VoteJournal.record nd.round.journal entry
  ({ nd with round := { nd.round with journal := answer.1 } },
    if answer.2 then .ok () else .err .journal)

/-- The intent record. From here the height counts as signed whatever happens next. -/
def intent (tid : Hash256) (height : ℕ) (role : VoteRole) (subject : Bytes) (now : ℕ) :
    Method RoundError (Node S J C H) Unit := do
  journalRecord tid height role subject now none
  modifyRound fun r => { r with signed := r.signed.insert height ⟨subject, now⟩ }

/-- An event signed with my key. -/
def signEvent (ev : Option UnsignedEvent) : Method RoundError (Node S J C H) Event := fun nd =>
  match ev with
  | none => (nd, .err .event)
  | some ev =>
    let answer := RoundSigner.signEvent nd.round.custody.signer ev
    ({ nd with round := { nd.round with custody := { nd.round.custody with signer := answer.1 } } },
      Res.okOr .event answer.2)

variable [ChainView C H σ] [HeaderFamily H]

/-- The tip of the chain in memory. -/
def getTip : Method RoundError (Node S J C H) Tip := fun nd =>
  (nd, ofCore (ChainView.state nd.chain).tip)

variable [Taproot]

/-- A template's identity on this chain. -/
def templateIdOf (block : Block H) : Method RoundError (Node S J C H) Hash256 := fun nd =>
  (nd, ofCore (templateId block nd.round.chainId (some nd.round.genesisHash)))

/-- The custody signer asked for a partial signature. -/
def askPartial (block : Block H) (height : ℕ) (tid : Hash256) :
    Method RoundError (Node S J C H) Signature := fun nd =>
  match blockSighashFor block nd.round.fed with
  | .err e => (nd, .err (.core e))
  | .panic => (nd, .panic)
  | .ok digest =>
    let c := nd.round.custody
    match PartialSigner.signPartial c.signer ⟨nd.round.chainId, height, tid, digest⟩ with
    | (s, none) => ({ nd with round := { nd.round with custody := ⟨s, c.signed⟩ } }, .err .custody)
    | (s, some sig) =>
      ({ nd with round := { nd.round with custody := ⟨s, (height, tid) :: c.signed⟩ } }, .ok sig)

/-- What follows the intent: the signature, and its record. -/
def signAndRecord (block : Block H) (height : ℕ) (tid : Hash256) (role : VoteRole)
    (subject : Bytes) (now : ℕ) : Method RoundError (Node S J C H) Signature := do
  let sig ← askPartial block height tid
  journalRecord tid height role subject now (some sig)
  pure sig

/-- What comes before the custody signer: the template's identity and the intent. -/
def announce (block : Block H) (height : ℕ) (role : VoteRole) (subject : Bytes) (now : ℕ) :
    Method RoundError (Node S J C H) Hash256 := do
  let tid ← templateIdOf block
  intent tid height role subject now
  pure tid

/-- Intent, then the custody signer, then the signature. A failure says whether
the signer was asked. -/
def authorise (block : Block H) (height : ℕ) (role : VoteRole) (subject : Bytes) (now : ℕ) :
    Method RoundError (Node S J C H) (Except (Bool × RoundError) Signature) := do
  match ← attempt (announce block height role subject now) with
  | .error e => pure (.error (false, e))
  | .ok tid =>
    match ← attempt (signAndRecord block height tid role subject now) with
    | .error e => pure (.error (true, e))
    | .ok sig => pure (.ok sig)

/-- A block added through the validator. -/
def addBlock (block : Block H) (now : ℕ) : Method RoundError (Node S J C H) (Except Error Applied) :=
  fun nd =>
    let answer := ChainView.addBlock nd.chain block (now / 1000)
    ({ nd with chain := answer.1 }, match answer.2 with
      | .ok a => .ok (.ok a)
      | .err e => .ok (.error e)
      | .panic => .panic)

/-- A block of mine added: the timer starts again, and the seal is announced. -/
def announceSealed [BlockCodec H] (now : ℕ) (p : Pending H) (sealed : Block H) (a : Applied) :
    Method RoundError (Node S J C H) (List RoundAction) := do
  modifyRound fun r => { r with claimsWanted := [], dueSince := none }
  let r ← getRound
  let published ← attempt (signEvent (blockEvent kindSealedBlock r.chainId a.height
    (hexEncode (BlockCodec.encode sealed)) (now / 1000)))
  pure [.log (.sealedBy a.height a.hash r.fed.threshold r.n (a.txs - 1) p.fees p.claims),
    match published with
    | .ok ev => .publish ev
    | .error e => .log (.failed e),
    .sealed ⟨a.height, a.hash, a.txs, p.fees, p.claims, none⟩]

/-- With `k`, seal, add through the validator, publish the sealed block. -/
def maybeSeal [BlockCodec H] (now : ℕ) : Method RoundError (Node S J C H) (List RoundAction) := do
  let r ← getRound
  match r.pending with
  | none => pure []
  | some p =>
    if p.sigs.keys.card < r.fed.threshold then pure []
    else do
      modifyRound fun r => { r with pending := none }
      match sealFederated p.block r.fed p.sigs with
      | .panic => ofRes .panic
      | .err e => pure [.log (.refusedByValidator e)]
      | .ok sealed => do
        match ← addBlock sealed now with
        | .error e => pure [.log (.refusedByValidator e)]
        | .ok a => announceSealed now p sealed a

/-- A proposal: the next block built, the event signed, the template authorised;
then it is pending. -/
def propose [BlockCodec H] (now : ℕ) : Method RoundError (Node S J C H) (List RoundAction) := do
  let r ← getRound
  let wanted ← read fun nd => .ok (r.claimsWanted.filter fun c =>
    ((ChainView.state nd.chain).records.claims.lookup (c.txid, c.vout.toNat)).isNone)
  let next : NextBlock := ⟨UInt32.ofNat (min (now / 1000) (Word.maxVal 32)), wanted⟩
  let (block, fees) ← read fun nd => ofCore ((ChainView.state nd.chain).buildNext next)
  let height ← ofRes (ofCore (blockHeight block))
  let ev ← signEvent (blockEvent kindBlockProposal r.chainId height
    (hexEncode (BlockCodec.encode block)) (now / 1000))
  match ← authorise block height .proposed ev.id now with
  | .error (_, e) => ofRes (.err e)
  | .ok sig => do
    modifyRound fun r => { r with
      pending := some ⟨ev.id, height, block, (∅ : Map XOnlyPublicKey Signature).insert r.me sig, now, fees,
        wanted.length⟩ }
    let sealed ← maybeSeal now
    pure (.log (.proposing height ev.id (block.txdata.length - 1) wanted.length) ::
      .publish ev :: sealed)

/-- A proposal dropped, when its height is taken or its time is over; otherwise
whether it is still in flight. -/
def tickPending (now tipHeight : ℕ) :
    Method RoundError (Node S J C H) (Bool × List RoundAction) := do
  let r ← getRound
  match r.pending with
  | none => pure (false, [])
  | some p =>
    if p.height ≤ tipHeight then do
      modifyRound fun r => { r with pending := none }
      pure (false, [])
    else if r.ringMs < now - p.time then do
      modifyRound fun r => { r with pending := none }
      pure (true, [.log (.dropping p.height p.sigs.keys.card)])
    else pure (true, [])

/-- A proposal of mine when a block is due, the guard lets the height through
and it is my turn. -/
def tickDue [BlockCodec H] (now height : ℕ) (due : Bool) :
    Method RoundError (Node S J C H) (List RoundAction) := do
  if !due then do
    modifyRound fun r => { r with dueSince := none }
    pure []
  else do
    modifyRound fun r => { r with dueSince := r.dueSince.or (some now) }
    let r ← getRound
    if !r.mayResign height now then pure []
    else if !r.entitled r.me height now then pure []
    else
      match ← attempt (propose now) with
      | .ok actions => pure actions
      | .error e => pure [.log (.failed e)]

/-- The producer's call, every second. -/
def tick [BlockCodec H] (now : ℕ) (due : Bool) :
    Method RoundError (Node S J C H) (List RoundAction) := do
  let tip ← getTip
  let (busy, actions) ← tickPending now tip.height
  if busy then pure actions
  else do
    let more ← tickDue now (Word.satAdd 32 tip.height 1) due
    pure (actions ++ more)

/-- Every transaction of a proposal is one the mempool has or takes; the first
that is not. -/
def submitAll : List Transaction → Method RoundError (Node S J C H) (Option (Txid × Error))
  | [] => pure none
  | tx :: txs => do
    let held ← read fun nd => .ok ((ChainView.state nd.chain).mempool.any fun p =>
      Bitcoin.computeTxid p.2 == Bitcoin.computeTxid tx)
    if held then submitAll txs
    else do
      let answer ← fun nd =>
        let answer := ChainView.submit nd.chain tx
        ({ nd with chain := answer.1 }, .ok answer.2)
      match answer with
      | .ok _ => submitAll txs
      | .err e => pure (some (Bitcoin.computeTxid tx, e))
      | .panic => ofRes .panic

/-- The chain's rules on a template: those that fail and hold of one. -/
def judgeTemplate (height now : ℕ) (block : Block H) :
    Method RoundError (Node S J C H) (List RuleId) := fun nd =>
  match (ChainView.state nd.chain).judge (UInt32.ofNat height) block
      (some (UInt32.ofNat (min (now / 1000) (Word.maxVal 32)))) with
  | .err e => (nd, .err (.core e))
  | .panic => (nd, .panic)
  | .ok (verdict, _, held) =>
    ({ nd with chain := ChainView.kept nd.chain held },
      .ok (verdict.failed.filter fun rule => rule ∉ rulesNotJudgedOnATemplate))

/-- A checked proposal authorised, and the answer to it. -/
def coSign (now : ℕ) (ev : Event) (height : ℕ) (block : Block H) :
    Method RoundError (Node S J C H) (List RoundAction) := do
  match ← authorise block height .signed ev.id now with
  | .error (false, e) => pure [.log (.notSigned height e)]
  | .error (true, e) => pure [.log (.notPublished height e)]
  | .ok sig => do
    let r ← getRound
    match ← attempt (signEvent (partialEvent r.chainId height ev.id (hexEncode sig.1) (now / 1000))) with
    | .error e => pure [.log (.failed e)]
    | .ok answer => pure [.publish answer, .log (.signedFor height ev.id ev.pubkey)]

/-- The template of a proposal that the guard lets through: on my tip, within
the rules, its transactions the mempool's, its claims accepted. -/
def judgeProposal (now : ℕ) (ev : Event) (height : ℕ) (tip : Tip) (block : Block H) :
    Method RoundError (Node S J C H) (List RoundAction) := do
  if HeaderFamily.prev block.header ≠ tip.hash ∨ HeaderFamily.time block.header ≤ tip.time then
    pure [.log (.notOnTip height)]
  else do
    let failed ← judgeTemplate height now block
    if failed ≠ [] then pure [.log (.rulesFailed height failed)]
    else
      match ← submitAll block.txdata.tail with
      | some (txid, e) => pure [.log (.refusedTx height txid e)]
      | none => do
        let r ← getRound
        match r.checkClaims.bind fun check => check block with
        | some why => pure [.log (.refusedClaims height why)]
        | none => coSign now ev height block

/-- Another signer's proposal. -/
def onProposal [BlockCodec H] (now : ℕ) (ev : Event) :
    Method RoundError (Node S J C H) (List RoundAction) := do
  let r ← getRound
  match heightTag ev.tags with
  | none => pure []
  | some height =>
    let created := Word.satMul 64 ev.createdAt 1000
    if ev.pubkey = r.meHex ∨ r.ringMs < now - created then pure []
    else do
      let tip ← getTip
      if height ≠ tip.height + 1 then pure [.log (.ignored height ev.pubkey tip.height)]
      else if !(signerFromHex ev.pubkey).any fun p => r.entitled p height created then
        pure [.log (.notItsTurn height ev.pubkey)]
      else if !r.mayResign height now then
        match r.signed.lookup height with
        | none => ofRes .panic
        | some prev => pure [.log (.alreadySigned height ev.pubkey prev.id
            ((now - prev.time + 500) / 1000))]
      else
        match (hexDecode (trim ev.content)).bind BlockCodec.decode with
        | none => pure [.log .notABlock]
        | some block => judgeProposal now ev height tip block

/-- A partial signature for my proposal. -/
def onPartial [BlockCodec H] (now : ℕ) (ev : Event) :
    Method RoundError (Node S J C H) (List RoundAction) := do
  let r ← getRound
  match r.pending, signerFromHex ev.pubkey with
  | some p, some pk =>
    if firstTag tagE ev.tags ≠ some p.id ∨ ev.pubkey = r.meHex ∨ pk ∉ r.fed.signers then pure []
    else
      match (hexDecode (trim ev.content)).bind signatureFromSlice with
      | none => pure [.log (.badPartial ev.pubkey)]
      | some sig => do
        let ok ← ofRes (ofCore (verifyPartial p.block r.fed pk sig))
        if !ok then pure [.log (.badPartial ev.pubkey)]
        else do
          let sigs := p.sigs.insert pk sig
          modifyRound fun r => { r with pending := some { p with sigs := sigs } }
          let sealed ← maybeSeal now
          pure (.log (.signatures sigs.keys.card r.fed.threshold p.height) :: sealed)
  | _, _ => pure []

/-- A block another signer sealed: a candidate for the validator. -/
def onSealed [BlockCodec H] (now : ℕ) (ev : Event) :
    Method RoundError (Node S J C H) (List RoundAction) := do
  let r ← getRound
  match heightTag ev.tags with
  | none => pure []
  | some height => do
    let tip ← getTip
    if ev.pubkey = r.meHex ∨ !((signerFromHex ev.pubkey).any fun p => decide (p ∈ r.fed.signers)) ∨
        height ≠ tip.height + 1 then pure []
    else
      match (hexDecode (trim ev.content)).bind BlockCodec.decode with
      | none => pure [.log (.sealedRefused height ev.pubkey none)]
      | some block => do
        match ← addBlock block now with
        | .error e => pure [.log (.sealedRefused height ev.pubkey (some e))]
        | .ok a => do
          modifyRound fun r => { r with
            dueSince := none
            pending := r.pending.filter fun p => a.height < p.height }
          pure [.log (.sealedFrom a.height a.hash ev.pubkey),
            .sealed ⟨a.height, a.hash, a.txs, 0, 0, some ev.pubkey⟩]

/-- An event from a relay, checked on receipt. -/
def onEvent [BlockCodec H] [EventCodec] (now : ℕ) (ev : Event) :
    Method RoundError (Node S J C H) (List RoundAction) := do
  let r ← getRound
  if ev.kind = kindBlockProposal then do
    modifyRound fun r => { r with proposals := (r.proposals.accept ev).1 }
    if (r.proposals.accept ev).2 then onProposal now ev else pure []
  else if ev.kind = kindPartialSignature then do
    modifyRound fun r => { r with partials := (r.partials.accept ev).1 }
    if (r.partials.accept ev).2 then onPartial now ev else pure []
  else if ev.kind = kindSealedBlock then do
    modifyRound fun r => { r with sealed := (r.sealed.accept ev).1 }
    if (r.sealed.accept ev).2 then onSealed now ev else pure []
  else pure []

end BlockRound

end Round

end Sidestr
