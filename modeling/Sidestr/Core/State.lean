/-
# The chain in memory

The state of a node (`state.rs`): the headers and hashes from the genesis up,
the UTXO set, the overlay's records, the mempool and the state of the extra
rules. `fromGenesisWithRules` builds it from a document and a sealed block 0;
`apply` validates and applies one block; `submit` admits a transaction to the
mempool; `buildNextWith` makes the next block from some of them.

`judge` runs every rule on a candidate and changes nothing but what the extra
rules keep for it, so a refused block may still leave its mark in `held`: the
steps of a run (`Step`) are the calls that can change a state, refused blocks
included.

Key definitions: `StateOf`, `StateOf.judge`, `StateOf.apply`, `StateOf.submit`,
`StateOf.buildNextWith`, `fromGenesisWithRules`, `Step`, `Chain`.
-/
import Sidestr.Core.Document
import Sidestr.Core.Rules

namespace Sidestr

/-- The tip: height, hash and header time. -/
structure Tip where
  height : ℕ
  hash : BlockHash
  time : UInt32
  deriving DecidableEq, Repr

/-- What applying a block reports. -/
structure Applied where
  height : ℕ
  hash : BlockHash
  txs : ℕ
  deriving DecidableEq, Repr

/-- What submitting a transaction reports. -/
structure Submitted where
  txid : Txid
  fee : ℕ
  vsize : ℕ
  /-- It was in the mempool already; nothing changed. -/
  dup : Bool
  deriving DecidableEq, Repr

/-- A peg-in the producer claims in the next block. -/
structure ClaimRequest where
  txid : Bytes
  vout : UInt32
  amount : UInt64
  script : Bytes
  deriving DecidableEq, Repr

/-- What the next block is built from. -/
structure NextBlock where
  time : UInt32
  claims : List ClaimRequest := []

/-- The chain in memory; `σ` is the state of its extra rules. -/
structure StateOf (H σ : Type) where
  doc : ChainDocument
  params : Params := {}
  bits : UInt32
  challenge : Bytes
  federation : Option Federation
  headers : List H := []
  hashes : List BlockHash := []
  utxo : Utxo := ∅
  records : Records := {}
  mempool : List (Txid × Transaction) := []
  mempoolSpent : List OutPoint := []
  /-- The serialised bytes of a transaction block validation refused. -/
  rejected : Map Txid Bytes := ∅
  extraRules : List (BlockRule H σ)
  held : σ

variable [Bitcoin] {H σ : Type} [HeaderFamily H]

/-! ### Genesis -/

/-- The document's parent hands down this family. -/
def checkFamily (H : Type) [HeaderFamily H] (doc : ChainDocument) : Res Error Unit := do
  let family ← doc.familyOf
  Res.refuseIf (family != HeaderFamily.family H) (.unsupportedFamily family)

omit [HeaderFamily H] in
/-- The outputs minting the document's pegs. -/
def pegOutputs : List Peg → Res Error (List TxOut)
  | [] => .ok []
  | p :: ps => do
    let script ← Res.okOr (.encoding "peg script") (hexDecode p.script)
    let rest ← pegOutputs ps
    .ok (⟨p.amount, script⟩ :: rest)

/-- The text a genesis coinbase is tagged with, before the chain id. -/
def genesisTag : Bytes :=
  ascii ['s', 'i', 'd', 'e', 's', 't', 'r', ' ', 'g', 'e', 'n', 'e', 's', 'i', 's', ' ']

/-- The genesis block, unsigned: a pure function of the document. -/
def buildGenesisFor (doc : ChainDocument) : Res Error (Block H) := do
  checkFamily H doc
  let outputs ← pegOutputs doc.pegs
  let bits ← doc.bits
  .ok (buildBlock { height := 0, prev := 0, time := doc.genesisTime, transactions := [], outputs,
                    bits, marker := genesisTag ++ doc.id })

namespace StateOf

/-- A state before its genesis. -/
def empty (doc : ChainDocument) (rules : List (BlockRule H σ)) (held : σ) :
    Res Error (StateOf H σ) := do
  doc.validateWith (rules.filterMap BlockRule.name)
  checkFamily H doc
  let bits ← doc.bits
  let challenge ← doc.challengeScript
  let federation ← Federation.forDocument doc
  .ok { doc, bits, challenge, federation, extraRules := rules, held }

variable (s : StateOf H σ)

/-- The tip; a state with no block has none, and asking it is an underflow. -/
def tip : Res Error Tip :=
  match s.hashes.getLast?, s.headers[s.hashes.length - 1]? with
  | some hash, some header =>
    .ok ⟨(s.hashes.length - 1) % 2 ^ 32, hash, HeaderFamily.time header⟩
  | _, _ => .panic

/-- The headers a block at `height` is judged against: up to eleven before it. -/
def window (height : ℕ) : List H :=
  let e := min height s.headers.length
  (s.headers.take e).drop (e - 11)

/-- The overlay's inputs, from the document. -/
def overlay : Overlay where
  challenge := s.challenge
  pegoutMin := s.doc.pegoutMin.toNat
  genesisSubsidy := Word.satSum 64 0 (s.doc.pegs.map fun p => p.amount.toNat)

/-- The candidate a block at `height` is judged as. -/
def candidate (height : ℕ) (block : Block H) : Candidate H σ where
  block := block
  height := height
  utxo := s.utxo
  mtp := medianTimePast (s.window height)
  records := s.records
  extra := s.extraRules

/-- Every phase's verdict on a block for `height`, the records it would leave,
and the state the extra rules leave. -/
def judge (height : UInt32) (block : Block H) (now : Option UInt32) :
    Res Error (Verdict × Records × σ) := do
  let h := height.toNat
  let prev := if h = 0 then none else s.headers[h - 1]?
  let header := validateHeader s.params block.header h prev (s.window h)
    (now.map fun n => Word.satAdd 32 n.toNat 7200)
  let structural ← validateBlockStructure s.params s.overlay block
  let (ctx, next, held) ← validateBlockContext s.params s.overlay (s.candidate h block) s.held
  .ok (header ++ structural ++ ctx, next, held)

/-- The coins a mempool transaction spends, all of them still there. -/
def stillSpendable (utxo : Utxo) (tx : Transaction) : Bool :=
  tx.input.all fun i => (utxo.lookup i.previousOutput).isSome

/-- The state once a block that passed every rule is applied. -/
def commit (height : ℕ) (block : Block H) (next : Records) (held : σ) : StateOf H σ :=
  let utxo := applyBlock s.utxo block.txdata height
  let mempool := s.mempool.filter fun p => stillSpendable utxo p.2
  { s with
    utxo, mempool
    records := { claims := next.claims ∪ s.records.claims
                 pegouts := next.pegouts ∪ s.records.pegouts }
    headers := s.headers ++ [block.header]
    hashes := s.hashes ++ [HeaderFamily.blockHash block.header]
    mempoolSpent := mempool.flatMap fun p => p.2.input.map TxIn.previousOutput
    held := s.extraRules.foldl (fun held r => r.applied held block height) held }

/-- Validate and apply block `height`, the tip plus one. The state comes back
either way: a refused block leaves what the extra rules kept for it. -/
def apply (height : UInt32) (block : Block H) (expect : Option BlockHash) (now : Option UInt32) :
    Res Error (StateOf H σ × Except Error Applied) := do
  let tip ← s.tip
  if height.toNat ≠ tip.height + 1 then .ok (s, .error (.chain "not the tip plus one"))
  else
    let hash := HeaderFamily.blockHash block.header
    if HeaderFamily.prev block.header ≠ tip.hash then
      .ok (s, .error (.chain "the block does not link to the tip"))
    else do
      let (verdict, next, held) ← s.judge height block now
      if !verdict.ok then
        .ok ({ s with held }, .error (.rejected height.toNat verdict.failed))
      else if expect.any fun e => e != hash then
        .ok ({ s with held }, .error (.chain "the block's hash is not the one expected"))
      else
        .ok (s.commit height.toNat block next held,
          .ok ⟨height.toNat, hash, block.txdata.length⟩)

/-- Accept a block from elsewhere: its height read from it, validated, applied. -/
def addBlock (block : Block H) (expect : Option BlockHash) (now : Option UInt32) :
    Res Error (StateOf H σ × Except Error Applied) :=
  match blockHeight block with
  | .ok h => s.apply (UInt32.ofNat h) block expect now
  | .err e => .ok (s, .error e)
  | .panic => .panic

/-! ### The mempool -/

/-- Whether a coin may be spent in the next block. -/
def spendable (tipHeight : ℕ) (coin : Coin) : Bool :=
  !coin.coinbase || s.params.coinbaseMaturity ≤ (tipHeight + 1) - coin.height

omit [HeaderFamily H] in
/-- A transaction's virtual size: weight over four, rounded up. -/
def vsize (tx : Transaction) : ℕ := (Bitcoin.weight tx + 3) / 4

/-- The block height from which an input's relative lock and the transaction's
lock time allow it; none for a time-based lock. -/
def earliestHeight (tx : Transaction) (inp : TxIn) (coinHeight : ℕ) : Option ℕ :=
  let relative :=
    if 2 ≤ tx.version ∧ inp.sequence &&& 0x80000000 = 0 then
      let value := inp.sequence &&& 0x0000ffff
      if 0 < value then
        if inp.sequence &&& 0x00400000 ≠ 0 then none
        else some (Word.satAdd 32 coinHeight value.toNat)
      else some 0
    else some 0
  relative.bind fun «from» =>
    let lt := tx.lockTime.toNat
    if lt ≠ 0 ∧ ¬ tx.input.all fun i => i.sequence == 0xffffffff then
      if 500000000 ≤ lt then none
      else some (max «from» (Word.satAdd 32 lt 1))
    else some «from»

/-- The coins of a transaction's inputs, each unspent, unreserved and mature. -/
def inputCoins (tipHeight : ℕ) : List TxIn → Res Error (List Coin)
  | [] => .ok []
  | i :: is => do
    Res.refuseIf (s.mempoolSpent.contains i.previousOutput)
      (.transaction "input already spent in the mempool")
    let c ← Res.okOr (.transaction "input is not an unspent coin") (s.utxo.lookup i.previousOutput)
    Res.refuseIf (!s.spendable tipHeight c) (.transaction "input is an immature coinbase")
    let cs ← inputCoins tipHeight is
    .ok (c :: cs)

/-- The burns of a transaction are well-formed and carry at least the minimum. -/
def burnsOk (tx : Transaction) : Res Error Unit :=
  Res.foldlM (fun _ o =>
    if !isOpReturn o.scriptPubkey then .ok ()
    else do
      let script := parsePegout o.scriptPubkey
      Res.refuseIf (looksLikePegout o && script.isNone)
        (.transaction "a peg-out names a parent output script of 2 to 40 bytes as hex")
      Res.refuseIf (script.isSome && o.sats < s.doc.pegoutMin.toNat)
        (.transaction "a peg-out burns at least the minimum")) () tx.output

/-- The policy checks of a transaction new to the mempool; returns its fee. -/
def admission (tx : Transaction) : Res Error ℕ := do
  Res.refuseIf (!(validateTransaction s.params tx false).ok) (.transaction "transaction rules")
  let tip ← s.tip
  let coins ← s.inputCoins tip.height tx.input
  let inSum := Word.satSum 64 0 (coins.map fun c => c.output.sats)
  let outSum ← Res.okOr (.transaction "outputs overflow") (sumOut tx)
  Res.refuseIf (inSum < outSum) (.transaction "outputs exceed inputs")
  s.burnsOk tx
  let fee := inSum - outSum
  Res.refuseIf (fee < Word.satMul 64 (vsize tx) s.doc.minFeeRate.toNat)
    (.transaction "fee is below the minimum")
  let next := Word.satAdd 32 tip.height 1
  let prevouts := coins.map Coin.output
  Res.refuseIf (!(List.range tx.input.length).all fun i =>
      verifySupportedInput tx i prevouts (HeaderFamily.sighashRules H next))
    (.transaction "input does not verify")
  Res.refuseIf (!(tx.input.zip coins).all fun (i, c) =>
      (earliestHeight tx i c.height).all fun h => h ≤ next)
    (.transaction "input is locked until a later height")
  .ok fee

/-- A transaction reaches the producer: it joins the mempool when it passes
the policy. A refusal changes nothing. -/
def submit (tx : Transaction) : Res Error (StateOf H σ × Submitted) := do
  let txid := Bitcoin.computeTxid tx
  if s.mempool.any fun p => p.1 == txid then .ok (s, ⟨txid, 0, vsize tx, true⟩)
  else do
    Res.refuseIf ((s.rejected.lookup txid).any fun b => b == Bitcoin.serialize tx)
      (.transaction "rejected this session")
    let fee ← s.admission tx
    .ok ({ s with mempoolSpent := s.mempoolSpent ++ tx.input.map TxIn.previousOutput
                  mempool := s.mempool ++ [(txid, tx)] },
      ⟨txid, fee, vsize tx, false⟩)

/-- Remove a transaction from the mempool and release its inputs. -/
def discard (txid : Txid) : StateOf H σ × Bool :=
  let mempool := s.mempool.filter fun p => p.1 != txid
  if mempool.length = s.mempool.length then (s, false)
  else ({ s with mempool
                 mempoolSpent := mempool.flatMap fun p => p.2.input.map TxIn.previousOutput }, true)

/-- Remove a transaction that makes a block fail, and remember its bytes. -/
def evict (txid : Txid) : StateOf H σ × Bool :=
  match s.mempool.find? fun p => p.1 == txid with
  | none => (s, false)
  | some (_, tx) => ({ s with rejected := s.rejected.insert txid (Bitcoin.serialize tx) }).discard txid

/-! ### The next block -/

/-- The values of a transaction's inputs in the UTXO set. -/
def inputValues : List TxIn → Option (List ℕ)
  | [] => some []
  | i :: is => do
    let c ← s.utxo.lookup i.previousOutput
    let vs ← inputValues is
    some (c.output.sats :: vs)

/-- The fee a transaction pays, from the UTXO set. -/
def fees (tx : Transaction) : Option ℕ := do
  let vs ← s.inputValues tx.input
  let ins ← Word.checkedSum 64 0 vs
  let outs ← sumOut tx
  Word.checkedSub ins outs

/-- The outputs of the claims of the next block: each payout and its marker. -/
def claimOutputs : List ClaimRequest → Res Error (List TxOut)
  | [] => .ok []
  | c :: cs => do
    Res.refuseIf ((s.records.claims.lookup (c.txid, c.vout.toNat)).isSome)
      (.transaction "already claimed")
    let rest ← claimOutputs cs
    .ok (⟨c.amount, c.script⟩ :: ⟨0, claimMarker c.txid c.vout.toNat⟩ :: rest)

/-- The next block, unsigned, with these transactions: the fees to the
challenge, then the claims. -/
def buildNextWith (next : NextBlock) (txs : List Transaction) : Res Error (Block H × ℕ) := do
  let tip ← s.tip
  Res.refuseIf (Word.maxVal 32 ≤ tip.height) (.chain "the chain is at the last height")
  let time := max next.time (UInt32.ofNat (Word.satAdd 32 tip.time.toNat 1))
  let fees ← Res.okOr (.transaction "the mempool's fees overflow")
    (Word.checkedSum 64 0 (txs.map fun tx => (s.fees tx).getD 0))
  let claims ← s.claimOutputs next.claims
  let outputs := if 0 < fees then ⟨UInt64.ofNat fees, s.challenge⟩ :: claims else claims
  .ok (buildBlock { height := tip.height + 1, prev := tip.hash, time, transactions := txs, outputs,
                    bits := s.bits, marker }, fees)

/-- The next block, unsigned, with the mempool in order. -/
def buildNext (next : NextBlock) : Res Error (Block H × ℕ) :=
  s.buildNextWith next (s.mempool.map Prod.snd)

end StateOf

/-! ### From the genesis -/

/-- The block is the document's genesis, sealed: its signed block data and
its bits are the document's. -/
def isGenesisOf (s : StateOf H σ) (genesis : Block H) : Res Error Bool := do
  let expected ← buildGenesisFor s.doc
  let data ← blockData genesis
  let wanted ← blockData (H := H) expected
  .ok (data == wanted && HeaderFamily.bits genesis.header == s.bits)

/-- A state at a sealed genesis, judged under every rule at height 0 and held
to the document. The records the judgement returns are not kept. -/
def fromGenesisWithRules (doc : ChainDocument) (genesis : Block H) (expect : Option BlockHash)
    (rules : List (BlockRule H σ)) (held : σ) : Res Error (StateOf H σ) := do
  let s ← StateOf.empty doc rules held
  Res.refuseIf genesis.txdata.isEmpty (.chain "genesis has no coinbase")
  let (verdict, _, held) ← s.judge 0 genesis none
  let isGenesis ← isGenesisOf s genesis
  let verdict := verdict ++ [⟨.genesisDocument, some isGenesis⟩]
  Res.refuseIf (!verdict.ok) (.rejected 0 verdict.failed)
  let hash := HeaderFamily.blockHash genesis.header
  Res.refuseIf (expect.any fun e => e != hash) (.chain "genesis hash mismatch")
  Res.refuseIf (doc.genesisHash.any fun want => want != hashText hash)
    (.genesisMismatch hash (doc.genesisHash.getD []))
  .ok { s with utxo := applyBlock s.utxo genesis.txdata 0
               headers := [genesis.header]
               hashes := [hash]
               held := s.extraRules.foldl (fun held r => r.applied held genesis 0) held }

/-! ### Runs -/

/-- The calls that can change a state. The label is the block applied, if one was. -/
inductive Step : StateOf H σ → Option (Block H) → StateOf H σ → Prop
  | applied {s s' : StateOf H σ} {height block expect now a} :
      s.apply height block expect now = .ok (s', .ok a) → Step s (some block) s'
  | refused {s s' : StateOf H σ} {height block expect now e} :
      s.apply height block expect now = .ok (s', .error e) → Step s none s'
  | judged {s : StateOf H σ} {height block now v next held} :
      s.judge height block now = .ok (v, next, held) → Step s none { s with held }
  | submitted {s s' : StateOf H σ} {tx r} : s.submit tx = .ok (s', r) → Step s none s'
  | discarded {s : StateOf H σ} {txid} : Step s none (s.discard txid).1
  | evicted {s : StateOf H σ} {txid} : Step s none (s.evict txid).1

/-- `Chain doc rules held blocks s`: a run from the genesis to `s`, the blocks
applied on the way in order, the genesis first. -/
inductive Chain (doc : ChainDocument) (rules : List (BlockRule H σ)) (held : σ) :
    List (Block H) → StateOf H σ → Prop
  | genesis {genesis expect s} : fromGenesisWithRules doc genesis expect rules held = .ok s →
      Chain doc rules held [genesis] s
  | step {blocks s b s'} : Chain doc rules held blocks s → Step s b s' →
      Chain doc rules held (blocks ++ b.toList) s'

end Sidestr
