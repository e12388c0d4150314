/-
# The peg-out round

One signer's side of the payment of burns (`PegoutRound`). A tick proposes a
payment for every burn the signer is entitled to pay and drops its stale
proposals; an event is another signer's proposal to co-sign, or a co-signed
answer to one of its own. On both paths a burn is authorised by one guard,
which has a record in the journal before the custody key is asked.

The journal and the keys are ports: either may refuse at any time, and what
they do is theirs to decide. The custody port keeps, beside the signer, the
list of the signatures it gave.

Key definitions: `PegoutRound`, `PegoutRound.tick`, `PegoutRound.onEvent`.
Key theorems: `Signing.tick`, `Signing.onEvent` in `Round.PegoutRun`.
-/
import Sidestr.Lib.Method
import Sidestr.Round.Psbt

namespace Sidestr

namespace Round

open Method

/-! ### The journal -/

/-- What a vote is for. -/
inductive VoteScope where
  | height (h : ℕ)
  | burn (key : BurnKey)
  deriving DecidableEq

inductive VoteRole where
  | proposed
  | signed
  deriving DecidableEq

inductive VoteStage where
  | intent
  | signed
  deriving DecidableEq

/-- One record of the journal. -/
structure VoteEntry where
  scope : VoteScope
  role : VoteRole
  /-- The proposal event's id. -/
  subject : Bytes
  /-- What was authorised: the template's id, the unsigned transaction's id. -/
  digest : Hash256
  /-- Unix milliseconds. -/
  time : ℕ
  stage : VoteStage
  /-- The signatures, one per input. -/
  signature : Option (List Bytes)
  deriving DecidableEq

/-- The journal's port: a record may fail, and so may reading it. -/
class VoteJournal (J : Type) where
  record : J → VoteEntry → J × Bool
  entries : J → Option (List VoteEntry)

/-! ### The round -/

structure PegoutConfig where
  /-- Seconds before the next signer may pay. -/
  proposeAfter : ℕ
  /-- Seconds until a burn may be signed again; never, when none. -/
  resignAfter : Option ℕ
  feeRate : ℕ
  maxFee : ℕ
  /-- A script's address on the parent network, when that is known. -/
  addressOf : Bytes → Option Bytes

/-- My payment in flight. -/
structure PendingPegout where
  /-- The proposal event's id. -/
  id : Bytes
  psbt : Psbt
  /-- Co-signed PSBTs by signer, mine included. -/
  sigs : List (Bytes × Psbt)
  /-- Unix milliseconds. -/
  time : ℕ
  burn : Burn

/-- A payment with `k` signatures. -/
structure FinalisedPegout where
  burn : BurnKey
  tx : Transaction
  record : PaidPegout

/-- A line for the log. -/
inductive PegoutNote where
  | failed (e : PegoutError)
  | dropping (key : BurnKey) (signatures : ℕ)
  | proposed (key : BurnKey) (value : ℕ)
  | unknownBurn (key : BurnKey)
  | notThePayer (pubkey : Bytes) (key : BurnKey)
  | refused (key : BurnKey) (why : PsbtRefusal)
  | notSigned (key : BurnKey) (e : PegoutError)
  | notPublished (key : BurnKey) (e : PegoutError)
  | signedFor (key : BurnKey) (pubkey : Bytes)
  | badSignature (pubkey : Bytes) (key : BurnKey) (e : PegoutError)
  | signatures (have' threshold : ℕ) (key : BurnKey)
  | doesNotFinalize (key : BurnKey) (signatures : ℕ)
  | paid (key : BurnKey) (value : ℕ) (address : Bytes) (signatures n : ℕ) (txid : Txid)

/-- What the caller does after a call. -/
inductive PegoutAction where
  | publish (ev : Event)
  | broadcast (f : FinalisedPegout)
  | log (note : PegoutNote)

/-- The peg-out round of one signer of one chain; a tree map is the list of its
entries where its order is read. -/
structure PegoutRound (S J : Type) where
  cfg : PegoutConfig
  chainId : Bytes
  fed : Federation
  me : Bytes
  custody : Custody S
  journal : J
  pending : List (BurnKey × PendingPegout)
  /-- The guard: burn to when I last authorised a payment for it. -/
  authorised : Map BurnKey ℕ
  /-- Burns whose last proposal failed, and when. -/
  backoff : Map BurnKey ℕ
  /-- Height to when I first saw a burn of it. -/
  seen : Map ℕ ℕ
  ledger : PegoutLedger
  psbts : Follower
  signed : Follower

namespace PegoutRound

/-- The guard an entry leaves. -/
def guardEntry (guard : Map BurnKey ℕ) (e : VoteEntry) : Map BurnKey ℕ :=
  match e.scope with
  | .burn b => guard.insert b (max ((guard.lookup b).getD e.time) e.time)
  | .height _ => guard

variable {S J : Type} [RoundSigner S] [VoteJournal J]

/-- A round with the journal loaded. -/
def new (fed : Federation) (chainId : Bytes) (custody : Custody S) (journal : J)
    (cfg : PegoutConfig) (ledger : PegoutLedger) : Option (PegoutRound S J) :=
  let me := RoundSigner.pubkey custody.signer
  if me ∉ fed.signers then none
  else
    (VoteJournal.entries journal).map fun entries =>
      ⟨cfg, chainId, fed, me, custody, journal, [], entries.foldl guardEntry ∅, ∅, ∅, ledger,
        Follower.new kindPegoutPsbt chainId, Follower.new kindPegoutSigned chainId⟩

/-- The parent took the transaction: record it. -/
def markPaid (burn : BurnKey) (record : PaidPegout) (r : PegoutRound S J) : PegoutRound S J :=
  { r with ledger := r.ledger.markPaid burn record }

/-- `proposeAfter × n`, in milliseconds. -/
def ringMs (r : PegoutRound S J) : ℕ := r.cfg.proposeAfter * 1000 * r.fed.signers.length

def meHex (r : PegoutRound S J) : Bytes := hexEncode r.me

/-- The payer is the height's signer; every `proposeAfter` since the burn was
first seen lets the next one pay instead. -/
def entitled (signer : Bytes) (height time now : ℕ) : Method PegoutError (PegoutRound S J) Bool := do
  let r ← get
  match r.fed.signers.idxOf? signer with
  | none => pure false
  | some slot => do
    let n := r.fed.signers.length
    let base := (r.seen.lookup height).getD now
    modify fun r => { r with seen := r.seen.insert height base }
    let late := (time - base) / (max r.cfg.proposeAfter 1 * 1000)
    pure (decide ((slot + n - height % n) % n ≤ late))

/-- The one guard both paths consult: no payment authorised for this burn, or
the one there is has had its window. -/
def maySignBurn (r : PegoutRound S J) (key : BurnKey) (now : ℕ) : Bool :=
  match r.authorised.lookup key, r.cfg.resignAfter with
  | none, _ => true
  | some _, none => false
  | some time, some w => w * 1000 ≤ now - time

section

variable [Bitcoin]

/-- One journal record: the intent before the custody signer, the signatures after. -/
def journalRecord (key : BurnKey) (role : VoteRole) (subject : Bytes) (psbt : Psbt) (time : ℕ)
    (signatures : Option (List Bytes)) : Method PegoutError (PegoutRound S J) Unit := fun r =>
  let entry : VoteEntry := ⟨.burn key, role, subject, Bitcoin.computeTxid psbt.unsignedTx, time,
    if signatures.isSome then .signed else .intent, signatures⟩
  let answer := VoteJournal.record r.journal entry
  ({ r with journal := answer.1 }, if answer.2 then .ok () else .err .journal)

/-- My signatures in a PSBT, one per input. -/
def mySignatures (r : PegoutRound S J) (psbt : Psbt) : List Bytes :=
  psbt.inputs.filterMap fun i =>
    (i.tapScriptSigs.lookup (r.me, r.fed.leafHash)).map LeafSig.signature

/-- The intent record, before the custody signer is asked. From here the burn
counts as authorised whatever happens next. -/
def intent (key : BurnKey) (role : VoteRole) (subject : Bytes) (psbt : Psbt) (now : ℕ) :
    Method PegoutError (PegoutRound S J) Unit := do
  journalRecord key role subject psbt now none
  modify fun r => { r with authorised := r.authorised.insert key now }

/-- An event signed with my key. -/
def signEvent (ev : Option UnsignedEvent) : Method PegoutError (PegoutRound S J) Event := fun r =>
  match ev with
  | none => (r, .err .event)
  | some ev =>
    let answer := RoundSigner.signEvent r.custody.signer ev
    ({ r with custody := { r.custody with signer := answer.1 } }, Res.okOr .event answer.2)

variable [PsbtCodec]

/-- The custody signer over every input. -/
def sign (key : BurnKey) (psbt : Psbt) : Method PegoutError (PegoutRound S J) Psbt := fun r =>
  let answer := signPegoutPsbt r.fed r.chainId key r.custody psbt
  ({ r with custody := answer.1 }, answer.2)

/-- Signing and its record: what follows the intent when another's payment is
co-signed. -/
def signAndRecord (key : BurnKey) (role : VoteRole) (subject : Bytes) (psbt : Psbt) (now : ℕ) :
    Method PegoutError (PegoutRound S J) Psbt := do
  let psbt ← sign key psbt
  let r ← get
  journalRecord key role subject psbt now (some (r.mySignatures psbt))
  pure psbt

/-- Intent, then the custody signer over every input, then the signature record.
A failure says whether the signer was asked. -/
def authorise (key : BurnKey) (role : VoteRole) (subject : Bytes) (psbt : Psbt) (now : ℕ) :
    Method PegoutError (PegoutRound S J) (Except (Bool × PegoutError) Psbt) := do
  match ← attempt (intent key role subject psbt now) with
  | .error e => pure (.error (false, e))
  | .ok () =>
    match ← attempt (signAndRecord key role subject psbt now) with
    | .error e => pure (.error (true, e))
    | .ok psbt => pure (.ok psbt)

/-- With `k`, combine, finalise and hand the transaction to the caller. -/
def maybeFinish (now : ℕ) (key : BurnKey) :
    Method PegoutError (PegoutRound S J) (List PegoutAction) := do
  let r ← get
  match r.pending.lookup key with
  | none => pure []
  | some p =>
    if p.sigs.length < r.fed.threshold then pure []
    else
      match combinePegoutPsbts (p.sigs.map Prod.snd) with
      | .ok combined =>
        match finalizePegoutPsbt r.fed combined with
        | none => pure [.log (.doesNotFinalize key p.sigs.length)]
        | some tx => do
          modify fun r => { r with pending := r.pending.filter fun e => e.1 ≠ key }
          let address := r.cfg.addressOf p.burn.script
          let txid := Bitcoin.computeTxid tx
          let record : PaidPegout := ⟨txid, address, p.burn.value, p.burn.script, p.burn.height,
            now / 1000, p.sigs.map Prod.fst, none⟩
          pure [.log (.paid key p.burn.value (address.getD p.burn.script) p.sigs.length
            r.fed.signers.length txid), .broadcast ⟨key, tx, record⟩]
      | .err e => pure [.log (.failed e)]
      | .panic => ofRes .panic

/-- An entry into a map kept as the list of its entries. -/
def insertEntry {K V : Type} [DecidableEq K] (k : K) (v : V) (l : List (K × V)) : List (K × V) :=
  (k, v) :: l.filter fun e => e.1 ≠ k

/-- A proposal: the payment built, the intent recorded, the inputs signed, the
event signed, the signatures recorded; then it is pending. -/
def propose (now : ℕ) (b : Burn) (coins : List PegCoin) :
    Method PegoutError (PegoutRound S J) (List PegoutAction) := do
  let r ← get
  let key := burnKey b
  let built ← ofRes (buildPegoutPsbt r.fed r.chainId b coins r.cfg.feeRate)
  intent key .proposed [] built now
  let psbt ← sign key built
  let ev ← signEvent
    (pegoutPsbtEvent ⟨r.chainId, key, b.height, PsbtCodec.psbtText psbt⟩ (now / 1000))
  let r ← get
  journalRecord key .proposed ev.id psbt now (some (r.mySignatures psbt))
  modify fun r => { r with
    pending := insertEntry key ⟨ev.id, psbt, [(r.meHex, psbt)], now, b⟩ r.pending }
  let finished ← maybeFinish now key
  pure (.publish ev :: .log (.proposed key b.value) :: finished)

/-- When a payment of the burn was last tried: authorised, or failed. -/
def lastTry (r : PegoutRound S J) (key : BurnKey) : Option ℕ :=
  match r.authorised.lookup key, r.backoff.lookup key with
  | some a, some b => some (max a b)
  | a, b => a.or b

/-- Whether a burn is open to a proposal of mine: not paid, not pending, not
guarded, and not tried within the ring's time. -/
def isOpen (r : PegoutRound S J) (now : ℕ) (key : BurnKey) : Bool :=
  !(decide (key ∈ r.ledger.paid) || (r.pending.lookup key).isSome) && r.maySignBurn key now &&
    !(r.lastTry key).any fun time => decide (now - time < r.ringMs)

/-- A tick's work on one burn. -/
def tickBurn (now : ℕ) (coins : List PegCoin) (b : Burn) :
    Method PegoutError (PegoutRound S J) (List PegoutAction) := do
  let r ← get
  if !r.isOpen now (burnKey b) then pure []
  else
    let mine ← entitled r.me b.height now now
    if !mine then pure []
    else
      match ← attempt (propose now b coins) with
      | .ok actions => pure actions
      | .error e => do
        modify fun r => { r with backoff := r.backoff.insert (burnKey b) now }
        pure [.log (.failed e)]

def tickBurns (now : ℕ) (coins : List PegCoin) :
    List Burn → Method PegoutError (PegoutRound S J) (List PegoutAction)
  | [] => pure []
  | b :: burns => do
    let actions ← tickBurn now coins b
    let rest ← tickBurns now coins burns
    pure (actions ++ rest)

/-- A proposal nobody co-signed in time. -/
def stale (r : PegoutRound S J) (now : ℕ) (p : PendingPegout) : Bool := r.ringMs < now - p.time

/-- The producer's poll: propose, then drop the stale proposals. -/
def tick (now : ℕ) (burns : List Burn) (coins : List PegCoin) :
    Method PegoutError (PegoutRound S J) (List PegoutAction) := do
  let actions ← tickBurns now coins burns
  let r ← get
  modify fun r => { r with pending := r.pending.filter fun e => !r.stale now e.2 }
  pure (actions ++ (r.pending.filter fun e => r.stale now e.2).map fun e =>
    .log (.dropping e.1 e.2.sigs.length))

/-- A checked proposal authorised, and the answer to it. -/
def coSign (now : ℕ) (ev : Event) (key : BurnKey) (psbt : Psbt) :
    Method PegoutError (PegoutRound S J) (List PegoutAction) := do
  match ← authorise key .signed ev.id psbt now with
  | .error (false, e) => pure [.log (.notSigned key e)]
  | .error (true, e) => pure [.log (.notPublished key e)]
  | .ok psbt => do
    let r ← get
    match ← attempt (signEvent (pegoutSignedEvent
        ⟨r.chainId, key, ev.id, PsbtCodec.psbtText psbt⟩ (now / 1000))) with
    | .error e => pure [.log (.failed e)]
    | .ok answer => pure [.publish answer, .log (.signedFor key ev.pubkey)]

/-- The rest of a proposal's checks, for a burn the guard lets through: its
author is the payer, and the PSBT pays the burn. -/
def judgeProposal (now : ℕ) (ev : Event) (p : PegoutPsbt) (b : Burn) (author : Bytes) :
    Method PegoutError (PegoutRound S J) (List PegoutAction) := do
  let theirs ← entitled author b.height (Word.satMul 64 ev.createdAt 1000) now
  let r ← get
  if !theirs then pure [.log (.notThePayer ev.pubkey p.burn)]
  else
    match PsbtCodec.psbtFromText p.psbt with
    | none => pure [.log (.failed .notAPsbt)]
    | some psbt =>
      match checkPegoutPsbt psbt r.fed r.chainId b r.cfg.maxFee with
      | some why => pure [.log (.refused p.burn why)]
      | none => coSign now ev p.burn psbt

/-- Another signer's proposal: checked, then co-signed. -/
def onProposal (now : ℕ) (ev : Event) (burns : List Burn) :
    Method PegoutError (PegoutRound S J) (List PegoutAction) := do
  let r ← get
  match parsePegoutPsbt ev r.chainId, pubkeyFromHex ev.pubkey with
  | some p, some author =>
    if ev.pubkey = r.meHex ∨ author ∉ r.fed.signers then pure []
    else
      match burns.find? fun b => burnKey b == p.burn with
      | none => pure [.log (.unknownBurn p.burn)]
      | some b =>
        if p.burn ∈ r.ledger.paid then pure []
        else if !r.maySignBurn p.burn now then pure []
        else judgeProposal now ev p b author
  | _, _ => pure []

/-- What is wrong with a co-signed PSBT, if anything. -/
def verifyAnswer (fed : Federation) (mine theirs : Psbt) (author : Bytes) : Res PegoutError Unit :=
  if theirs.unsignedTx ≠ mine.unsignedTx then .err .differentTransaction
  else do
    let perInput ← verifyPegoutSignatures fed theirs
    Res.refuseIf (!perInput.all fun found => author ∈ found) .noSignatureByAuthor

/-- A verified answer counted, and the payment finished when it has enough. -/
def count (now : ℕ) (ev : Event) (key : BurnKey) (mine : PendingPegout) (theirs : Psbt) :
    Method PegoutError (PegoutRound S J) (List PegoutAction) := do
  let sigs := insertEntry ev.pubkey theirs mine.sigs
  modify fun r => { r with pending := insertEntry key { mine with sigs := sigs } r.pending }
  let r ← get
  let finished ← maybeFinish now key
  pure (.log (.signatures sigs.length r.fed.threshold key) :: finished)

/-- A co-signed answer to one of my proposals. -/
def onSigned (now : ℕ) (ev : Event) : Method PegoutError (PegoutRound S J) (List PegoutAction) := do
  let r ← get
  match parsePegoutSigned ev r.chainId with
  | none => pure []
  | some p =>
    match r.pending.lookup p.burn, pubkeyFromHex ev.pubkey with
    | some mine, some author =>
      if p.request ≠ mine.id ∨ ev.pubkey = r.meHex ∨ author ∉ r.fed.signers then pure []
      else
        match PsbtCodec.psbtFromText p.psbt with
        | none => pure [.log (.badSignature ev.pubkey p.burn .notAPsbt)]
        | some theirs =>
          match ← attempt (ofRes (verifyAnswer r.fed mine.psbt theirs author)) with
          | .error e => pure [.log (.badSignature ev.pubkey p.burn e)]
          | .ok () => count now ev p.burn mine theirs
    | _, _ => pure []

/-- An event from a relay, checked on receipt. -/
def onEvent [EventCodec] (now : ℕ) (ev : Event) (burns : List Burn) :
    Method PegoutError (PegoutRound S J) (List PegoutAction) := do
  let r ← get
  if ev.kind = kindPegoutPsbt then do
    modify fun r => { r with psbts := (r.psbts.accept ev).1 }
    if (r.psbts.accept ev).2 then onProposal now ev burns else pure []
  else if ev.kind = kindPegoutSigned then do
    modify fun r => { r with signed := (r.signed.accept ev).1 }
    if (r.signed.accept ev).2 then onSigned now ev else pure []
  else pure []

end

end PegoutRound

end Round

end Sidestr
