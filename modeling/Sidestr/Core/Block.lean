/-
# Blocks

Building a block, the data its signature commits to, the solution's place in
the coinbase, and the height a block says it has (`block.rs`). Everything is
generic over the header: `HeaderFamily H` is what differs between the stock
header and the parent's own, and `Stock` is the 80-byte one.

The solution sits in the coinbase's witness commitment output, after the 38
bytes of the commitment: one push of `ecc7daa2` and a serialised witness.
Signing computes the block data with that push stripped, so sealing a block
changes its hash but not what was signed.

Key definitions: `HeaderFamily`, `Block`, `commitmentOutputOf`, `solutionOf`,
`withSolution`, `blockData`, `heightPush`, `coinbaseHeight`, `buildBlock`,
`sealBlock`, `signBlock`, `verifyBlockSolution`, `templateId`.
-/
import Sidestr.Lib.Outcome
import Sidestr.Core.Marker

namespace Sidestr

/-! ### Verdicts and errors -/

/-- The rules a verdict names, by the kernel's ids. -/
inductive RuleId where
  | headerPrevLink | headerPow | headerDifficulty | headerMtp | headerTimeFuture
  | headerVersion | headerTimewarp
  | knotsHeaderV1UntilFork | knotsHeaderV2FromFork | knotsHeaderHeight | knotsHeaderFlagsReserved
  | txInputsNonempty | txOutputsNonempty | txSize | txOutputValues | txInputsUnique
  | txPrevouts | txCoinbaseScript
  | blockCoinbaseFirst | blockCoinbaseSingle | blockMerkleRoot | blockTxDuplicates
  | blockSigops | blockWeight | blockTransactions | blockSignature
  | knotsBlockTxcount | knotsBlockHeadline
  | ctxBip34Height | ctxFinality | ctxSequenceLocks | ctxInputsAvailable | ctxCoinbaseMaturity
  | ctxFees | ctxCoinbaseAmount | ctxWitnessCommitment | ctxScripts | pegouts | claims
  | assets | pool | markets | genesisDocument
  | other (id : Bytes)
  deriving DecidableEq, Repr

/-- One rule's outcome: pass, fail, or skipped. -/
structure RuleResult where
  rule : RuleId
  ok : Option Bool
  deriving DecidableEq, Repr

/-- The header family a chain inherits from its parent. -/
inductive Family where
  | stock
  | blake2b
  deriving DecidableEq, Repr

/-- What a fallible call reports. -/
inductive Error where
  | unknownParent (id : Bytes)
  | reservedParent (id : Bytes)
  | unsupportedFamily (f : Family)
  | document (why : String)
  | encoding (why : String)
  | coinbaseHeight (why : String)
  | rejected (height : ℕ) (rules : List RuleId)
  | chain (why : String)
  | genesisMismatch (found : BlockHash) (expected : Bytes)
  | transaction (why : String)
  | block (why : String)
  | federation (why : String)
  deriving DecidableEq, Repr

/-! ### The header family -/

/-- What differs between header families: the header's layout and hash, the
bytes a block signature commits to, and the rules the parent's fork adds. -/
class HeaderFamily (H : Type) where
  family : Family
  headerLen : ℕ
  encodeHeader : H → Bytes
  /-- The parent's proof-of-work hash over the header. -/
  blockHash : H → BlockHash
  /-- The header's first 72 bytes: version, previous hash, merkle root, time. -/
  signedPrefix : H → Bytes
  /-- The height the header carries, for a family that writes it there. -/
  headerHeight : H → Option ℕ
  /-- An unsigned header: previous hash, merkle root, time, bits, height, transaction count. -/
  newHeader : BlockHash → Hash256 → UInt32 → UInt32 → ℕ → ℕ → H
  /-- The version as the family types it: signed in a stock header. -/
  versionNumber : H → ℤ
  prev : H → BlockHash
  merkleRoot : H → Hash256
  time : H → UInt32
  bits : H → UInt32
  setMerkleRoot : H → Hash256 → H
  setNonce : H → UInt32 → H
  headerRules : H → ℕ → List RuleResult
  blockRules : H → ℕ → List RuleResult
  sighashRules : ℕ → SighashRules

/-- A header followed by the transactions, the coinbase first. -/
structure Block (H : Type) where
  header : H
  txdata : List Transaction
  deriving DecidableEq, Repr

/-- The stock 80-byte header. -/
structure Header where
  version : Int32
  prevBlockhash : BlockHash
  merkleRoot : Hash256
  time : UInt32
  bits : UInt32
  nonce : UInt32
  deriving DecidableEq, Repr

/-- The stock header's wire bytes. -/
def Header.encode (h : Header) : Bytes :=
  leBytes 4 h.version.toUInt32.toNat ++ wireBytes h.prevBlockhash ++ wireBytes h.merkleRoot ++
    leBytes 4 h.time.toNat ++ leBytes 4 h.bits.toNat ++ leBytes 4 h.nonce.toNat

section

variable [Bitcoin]

/-- The stock family: version `0x20000000`, double SHA-256, no height. -/
instance Stock : HeaderFamily Header where
  family := .stock
  headerLen := 80
  encodeHeader := Header.encode
  blockHash h := ofDigest (Bitcoin.sha256d h.encode)
  signedPrefix h := h.encode.take 72
  headerHeight _ := none
  newHeader prev root time bits _ _ := ⟨0x20000000, prev, root, time, bits, 0⟩
  versionNumber h := h.version.toInt
  prev h := h.prevBlockhash
  merkleRoot h := h.merkleRoot
  time h := h.time
  bits h := h.bits
  setMerkleRoot h root := { h with merkleRoot := root }
  setNonce h nonce := { h with nonce := nonce }
  headerRules _ _ := []
  blockRules _ _ := []
  sighashRules _ := .bip341

end

/-! ### Sizes and roots -/

section

variable [Bitcoin] {H : Type} [HeaderFamily H]

/-- Three times the legacy size plus the total size, the header's length in both. -/
def blockWeight (block : Block H) : ℕ :=
  let n := block.txdata.length
  let varint := if n ≤ 0xfc then 1 else if n ≤ 0xffff then 3 else 5
  let fixed := Word.satAdd 64 (HeaderFamily.headerLen H) varint
  let legacy := Word.satSum 64 fixed (block.txdata.map Bitcoin.baseSize)
  let total := Word.satSum 64 fixed (block.txdata.map Bitcoin.totalSize)
  Word.satAdd 64 (Word.satMul 64 legacy 3) total

omit [HeaderFamily H] in
/-- The merkle root over these transactions' txids; all zeros for none. -/
def merkleRootOfTxs (txdata : List Transaction) : Hash256 :=
  (Bitcoin.calculateRoot (txdata.map Bitcoin.computeTxid)).getD 0

omit [HeaderFamily H] in
/-- The witness merkle root over the transactions after the coinbase, whose
wtxid counts as all zeros. -/
def witnessRoot (transactions : List Transaction) : Hash256 :=
  (Bitcoin.calculateRoot (0 :: transactions.map Bitcoin.computeWtxid)).getD 0

end

/-! ### The witness carried in the solution -/

def compactSize (n : ℕ) : Bytes :=
  if n ≤ 0xfc then [UInt8.ofNat n]
  else if n ≤ 0xffff then 0xfd :: leBytes 2 n
  else 0xfe :: leBytes 4 n

/-- The number a little-endian byte string writes. -/
def leNat (b : Bytes) : ℕ := beNat b.reverse

/-- A minimal CompactSize at the front, and the bytes after it. -/
def readCompact : Bytes → Option (ℕ × Bytes)
  | [] => none
  | a :: l =>
    if a.toNat ≤ 0xfc then some (a.toNat, l)
    else if a = 0xfd then
      match l with
      | b :: c :: l => if 0xfd ≤ leNat [b, c] then some (leNat [b, c], l) else none
      | _ => none
    else if a = 0xfe then
      match l with
      | b :: c :: d :: e :: l =>
        if 0x10000 ≤ leNat [b, c, d, e] then some (leNat [b, c, d, e], l) else none
      | _ => none
    else none

/-- The item count, then each item length-prefixed. -/
def encodeWitness (items : List Bytes) : Bytes :=
  compactSize items.length ++ items.flatMap fun it => compactSize it.length ++ it

/-- `n` length-prefixed items, and the bytes after them. -/
def decodeItems : ℕ → Bytes → Option (List Bytes × Bytes)
  | 0, b => some ([], b)
  | n + 1, b => do
    let (len, rest) ← readCompact b
    if rest.length < len then none
    else do
      let (items, rest) ← decodeItems n (rest.drop len) |>.map fun (its, r) =>
        (rest.take len :: its, r)
      some (items, rest)

/-- The inverse of `encodeWitness`, strictly: minimal sizes, at most 256
items, nothing after the last. -/
def decodeWitness (b : Bytes) : Option (List Bytes) := do
  let (n, rest) ← readCompact b
  if 256 < n then none
  else do
    let (items, rest) ← decodeItems n rest
    if rest = [] then some items else none

/-! ### The commitment output and the solution -/

/-- The six bytes that open a witness commitment output. -/
def commitmentPrefix : Bytes := [0x6a, 0x24, 0xaa, 0x21, 0xa9, 0xed]

/-- The bytes of the commitment output that are not the solution. -/
def commitmentLen : ℕ := 38

/-- The four bytes that open the solution push. -/
def signetHeader : Bytes := [0xec, 0xc7, 0xda, 0xa2]

def isCommitment (script : Bytes) : Bool :=
  commitmentLen ≤ script.length && (stripPrefix commitmentPrefix script).isSome

/-- The last output of `outs`, numbered from `i`, that carries a witness commitment. -/
def lastCommitment : ℕ → List TxOut → Option (ℕ × Bytes)
  | _, [] => none
  | i, o :: outs =>
    match lastCommitment (i + 1) outs with
    | some r => some r
    | none => if isCommitment o.scriptPubkey then some (i, o.scriptPubkey) else none

/-- The coinbase output carrying the witness commitment: its index and script. -/
def commitmentOutputOf (cb : Transaction) : Option (ℕ × Bytes) := lastCommitment 0 cb.output

/-- The transaction with the script of output `index` replaced. -/
def setScript (tx : Transaction) (index : ℕ) (script : Bytes) : Transaction :=
  { tx with output := tx.output.modify index fun o => { o with scriptPubkey := script } }

/-- The push at the front of the bytes after the commitment, all of them. -/
def solutionPush : Bytes → Option Bytes
  | [] => none
  | a :: l =>
    let sized := if 1 ≤ a.toNat ∧ a.toNat ≤ 75 then some (a.toNat, l)
      else if a = 0x4c then
        match l with
        | b :: l => some (b.toNat, l)
        | [] => none
      else if a = 0x4d then
        match l with
        | b :: c :: l => some (leNat [b, c], l)
        | _ => none
      else none
    sized.bind fun (n, push) => if n = 0 ∨ push.length ≠ n then none else some push

/-- The witness items of the block's solution, when it carries a well-formed one. -/
def solutionOf {H : Type} (block : Block H) : Option (List Bytes) := do
  let cb ← block.txdata.head?
  let (_, spk) ← commitmentOutputOf cb
  let push ← solutionPush (spk.drop commitmentLen)
  let body ← stripPrefix signetHeader push
  decodeWitness body

/-- The block with this witness as its solution. -/
def withSolution {H : Type} (block : Block H) (items : List Bytes) : Res Error (Block H) :=
  match block.txdata with
  | [] => .err (.block "no witness commitment output to carry the solution")
  | cb :: rest =>
    match commitmentOutputOf cb with
    | none => .err (.block "no witness commitment output to carry the solution")
    | some (index, spk) =>
      let push := signetHeader ++ encodeWitness items
      let len := push.length
      if 65535 < len then .err (.block "solution too long for one push")
      else
        let op := if len ≤ 75 then [UInt8.ofNat len]
          else if len ≤ 255 then [0x4c, UInt8.ofNat len]
          else 0x4d :: leBytes 2 len
        .ok { block with txdata := setScript cb index (spk.take commitmentLen ++ op ++ push) :: rest }

/-- The coinbase with the solution cut off its commitment output. -/
def strippedCoinbase (cb : Transaction) : Transaction :=
  match commitmentOutputOf cb with
  | none => cb
  | some (i, spk) => setScript cb i (spk.take commitmentLen)

/-! ### Block data and the virtual transactions -/

section

variable [Bitcoin] {H : Type} [HeaderFamily H]

/-- What a block signature commits to: SHA-256 of the header's signed prefix,
with the merkle root over the coinbase stripped of its solution. A block with
no transactions is an index out of range. -/
def blockData (block : Block H) : Res Error Hash256 :=
  match block.txdata with
  | [] => .panic
  | cb :: rest =>
    let root := merkleRootOfTxs (strippedCoinbase cb :: rest)
    .ok (Bitcoin.sha256 (HeaderFamily.signedPrefix (HeaderFamily.setMerkleRoot block.header root)))

/-- The virtual transaction that spends the challenge, and the output it spends. -/
def virtualTxs (data : Hash256) (challenge : Bytes) (witness : List Bytes) :
    Transaction × TxOut :=
  let toSpend : Transaction :=
    ⟨0, 0, [⟨OutPoint.null, 0x00 :: 0x20 :: displayBytes data, 0, []⟩], [⟨0, challenge⟩]⟩
  let toSign : Transaction :=
    ⟨0, 0, [⟨⟨Bitcoin.computeTxid toSpend, 0⟩, [], 0, witness⟩], [⟨0, [0x6a]⟩]⟩
  (toSign, ⟨0, challenge⟩)

/-- A last witness item starting `0x50`, when there are at least two. -/
def annexOf (items : List Bytes) : Option Bytes :=
  if 2 ≤ items.length then
    match items.getLast? with
    | some a => if a.head? = some 0x50 then some a else none
    | none => none
  else none

/-- The items left once an annex is set aside. -/
def withoutAnnex (items : List Bytes) : List Bytes :=
  if (annexOf items).isSome then items.dropLast else items

/-- One input verified as a taproot key-path spend. -/
def verifyTaprootKeyPath (tx : Transaction) (index : ℕ) (prevouts : List TxOut)
    (rules : SighashRules) : Bool :=
  match prevouts[index]?, tx.input[index]? with
  | some prevout, some input =>
    isP2tr prevout.scriptPubkey && input.scriptSig.isEmpty &&
      match withoutAnnex input.witness with
      | [raw] =>
        let annex := annexOf input.witness
        let split := if raw.length = 64 then some (raw, (0 : UInt8))
          else if raw.length = 65 ∧ raw.getLast? ≠ some 0 then
            some (raw.take 64, (raw.getLast?).getD 0)
          else none
        match split with
        | none => false
        | some (sig, hashType) =>
          let msg :=
            if rules = .knotsUnified ∧ hashType &&& 0x20 ≠ 0 then
              Bitcoin.unifiedSighash tx index prevouts annex hashType
            else if prevouts.length ≠ tx.input.length then none
            else Bitcoin.taprootSighash tx index prevouts annex hashType
          match msg with
          | none => false
          | some m => Bitcoin.schnorrVerify m sig ((prevout.scriptPubkey.drop 2).take 32)
      | _ => false
  | _, _ => false

/-- The spends the crate verifies: the bare `OP_TRUE` collateral coin with
nothing in it, a channel leaf by script path, and a taproot key path. -/
def verifySupportedInput (tx : Transaction) (index : ℕ) (prevouts : List TxOut)
    (rules : SighashRules) : Bool :=
  match prevouts[index]? with
  | none => false
  | some prevout =>
    if prevout.scriptPubkey = [0x51] then
      match tx.input[index]? with
      | none => false
      | some input => input.scriptSig.isEmpty && input.witness.isEmpty
    else
      match tx.input[index]? with
      | none => false
      | some input =>
        if isP2tr prevout.scriptPubkey ∧ 2 ≤ (withoutAnnex input.witness).length then
          Bitcoin.verifyChannelInput tx index prevouts rules
        else verifyTaprootKeyPath tx index prevouts rules

/-- The block's solution judged against the challenge: a key-path spend of the
virtual output by one signature, or a spend of the federation's leaf. -/
def verifyBlockSolution (block : Block H) (challenge : Bytes) : Res Error Bool :=
  match solutionOf block with
  | none => .ok false
  | some witness => do
    let data ← blockData block
    let (toSign, prevout) := virtualTxs data challenge witness
    if (withoutAnnex witness).length ≤ 1 then
      .ok (verifyTaprootKeyPath toSign 0 [prevout] .bip341)
    else .ok (Bitcoin.verifyMultiAInput toSign 0 [prevout])

/-- The block data is asked for only when there is a coinbase to read it from. -/
theorem verifyBlockSolution_ne_panic (block : Block H) (challenge : Bytes) :
    ∃ b, verifyBlockSolution block challenge = .ok b := by
  unfold verifyBlockSolution
  cases hs : solutionOf block with
  | none => exact ⟨false, rfl⟩
  | some witness =>
    obtain ⟨header, txdata⟩ := block
    cases txdata with
    | nil => simp [solutionOf] at hs
    | cons cb rest =>
      simp only [blockData, Res.ok_bind]
      split_ifs
      · exact ⟨_, rfl⟩
      · exact ⟨_, rfl⟩

end

/-! ### Height -/

/-- The bytes of a height, least significant first, none for zero; `k` bounds their number. -/
def heightBytes : ℕ → ℕ → Bytes
  | 0, _ => []
  | k + 1, n => if n = 0 then [] else UInt8.ofNat n :: heightBytes k (n / 256)

/-- The height push of a coinbase: little-endian, a padding byte only after a
high bit, `OP_0` for height 0. A height is 32 bits, so four bytes hold it. -/
def heightPush (height : ℕ) : Bytes :=
  let out := heightBytes 4 height
  let out := match out.getLast? with
    | some b => if 0x80 ≤ b.toNat then out ++ [0] else out
    | none => out
  if out = [] then [0x00] else UInt8.ofNat out.length :: out

/-- The height a coinbase scriptSig pushes first: the inverse of `heightPush`. -/
def coinbaseHeight (coinbase : Transaction) : Res Error ℕ :=
  let sig := (coinbase.input.head?.map TxIn.scriptSig).getD []
  match sig with
  | [] => .err (.coinbaseHeight "coinbase scriptSig is not a hex script")
  | a :: rest =>
    let n := a.toNat
    if n = 0 then .ok 0
    else if 0x51 ≤ n ∧ n ≤ 0x60 then .ok (n - 0x50)
    else if 75 < n ∨ rest.length < n then
      .err (.coinbaseHeight "coinbase scriptSig does not start with a height push")
    else
      let push := rest.take n
      let last := (push.getLast?).getD 0
      let before := (push.dropLast.getLast?).getD 0
      if 1 < n ∧ last = 0 ∧ before.toNat < 0x80 then
        .err (.coinbaseHeight "coinbase height push is not minimal")
      else if 0x80 ≤ last.toNat then .err (.coinbaseHeight "coinbase height push is negative")
      else if 5 < n then
        .err (.coinbaseHeight "coinbase height push is too long for a height")
      else if leNat push < 2 ^ 32 then .ok (leNat push)
      else .err (.coinbaseHeight "coinbase height push is too long for a height")

/-- A block's height: the header's, or else the one the coinbase pushes. -/
def blockHeight {H : Type} [HeaderFamily H] (block : Block H) : Res Error ℕ :=
  match HeaderFamily.headerHeight block.header with
  | some h => .ok h
  | none =>
    match block.txdata with
    | [] => .err (.coinbaseHeight "block has no coinbase")
    | cb :: _ => coinbaseHeight cb

/-! ### Building, signing and sealing -/

/-- An unsigned block's inputs. -/
structure BlockTemplate where
  height : ℕ
  prev : BlockHash
  time : UInt32
  transactions : List Transaction
  /-- The coinbase's outputs before the witness commitment. -/
  outputs : List TxOut
  bits : UInt32
  /-- The tag pushed after the height. -/
  marker : Bytes

/-- The tag of every coinbase but the genesis'. -/
def marker : Bytes := ascii ['s', 'i', 'd', 'e', 's', 't', 'r']

section

variable [Bitcoin] {H : Type} [HeaderFamily H]

omit [HeaderFamily H] in
/-- The commitment to these non-coinbase transactions' witnesses. -/
def witnessCommitment (transactions : List Transaction) : Hash256 :=
  Bitcoin.sha256d (wireBytes (witnessRoot transactions) ++ List.replicate 32 0)

/-- The coinbase of a template. -/
def buildCoinbase (t : BlockTemplate) : Transaction where
  version := 2
  lockTime := 0
  input := [⟨OutPoint.null, heightPush t.height ++ UInt8.ofNat t.marker.length :: t.marker,
    0xffffffff, [List.replicate 32 0]⟩]
  output := t.outputs ++
    [⟨0, commitmentPrefix ++ displayBytes (witnessCommitment t.transactions)⟩]

/-- An unsigned block on `prev` with the template's transactions. -/
def buildBlock (t : BlockTemplate) : Block H :=
  let txdata := buildCoinbase t :: t.transactions
  ⟨HeaderFamily.newHeader t.prev (merkleRootOfTxs txdata) t.time t.bits t.height txdata.length,
    txdata⟩

/-- The first nonce from `start` on, `k` of them, that meets the header's target. -/
def grind : ℕ → ℕ → H → Option H
  | 0, _, _ => none
  | k + 1, start, header =>
    let header' := HeaderFamily.setNonce header (UInt32.ofNat start)
    if Bitcoin.isMetBy (HeaderFamily.bits header') (HeaderFamily.blockHash header') then
      some header'
    else grind k (start + 1) header

/-- The block with its witness in place: the solution appended, the merkle
root recomputed, a nonce found. -/
def sealBlock (block : Block H) (items : List Bytes) : Res Error (Block H) := do
  let sealed ← withSolution block items
  let header := HeaderFamily.setMerkleRoot sealed.header (merkleRootOfTxs sealed.txdata)
  match grind (2 ^ 32) 0 header with
  | some header' => .ok ⟨header', sealed.txdata⟩
  | none => .err (.block "no nonce meets the target")

/-- What a level-1 block signature signs: the key-path signature hash of the
virtual transaction. -/
def blockSighash (block : Block H) (challenge : Bytes) : Res Error Hash256 := do
  let data ← blockData block
  let (toSign, prevout) := virtualTxs data challenge []
  Res.okOr (.block "sighash failed") (Bitcoin.taprootSighash toSign 0 [prevout] none 0)

/-- The single-key challenge of a signer. -/
def challengeFor (pubkey : Bytes) : Bytes := 0x51 :: 0x20 :: pubkey

/-- Sign with the challenge key, then satisfy the proof of work. -/
def signBlock (block : Block H) (challenge : Bytes) (key : SecretKey) : Res Error (Block H) := do
  Res.refuseIf (challenge != challengeFor (Bitcoin.xOnly key))
    (.block "the key is not the chain's signer: the challenge names another key")
  let msg ← blockSighash block challenge
  sealBlock block [Bitcoin.signSchnorr key msg]

/-- The tag of a template's identity. -/
def templateTag : Bytes :=
  ascii ['s', 'i', 'd', 'e', 's', 't', 'r', '/', 't', 'e', 'm', 'p', 'l', 'a', 't', 'e', '-', 'i', 'd']

/-- The identity of a template: the same before and after sealing. -/
def templateId (block : Block H) (chainId : Bytes) (genesisHash : Option BlockHash) :
    Res Error Hash256 := do
  let txdata := match block.txdata with
    | [] => []
    | cb :: rest => strippedCoinbase cb :: rest
  let header := HeaderFamily.setNonce
    (HeaderFamily.setMerkleRoot block.header (merkleRootOfTxs txdata)) 0
  let height ← blockHeight block
  let encoded := HeaderFamily.encodeHeader header ++ compactSize txdata.length ++
    txdata.flatMap Bitcoin.serialize
  let tag := displayBytes (Bitcoin.sha256 templateTag)
  .ok (Bitcoin.sha256 (tag ++ tag ++ compactSize chainId.length ++ chainId ++
    wireBytes (genesisHash.getD 0) ++ leBytes 4 height ++
    wireBytes (HeaderFamily.prev block.header) ++ displayBytes (Bitcoin.sha256 encoded)))

end

end Sidestr
