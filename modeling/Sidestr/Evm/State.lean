/-
# The EVM beside the UTXO set

The EVM rule (`records.rs`, `tx.rs`, `state.rs`, `rule.rs`). A sidechain
transaction's outputs are read in order: an `evmin:` record after an output
paying the reserve credits an account, an `evm:` record runs an Ethereum
transaction. A block runs its transactions from index 1; its coinbase must
commit the root that leaves and pay every withdrawal.

`EvmState.prepare` works a block out on a copy of the world and keeps an
accepted one by its header's hash; `EvmState.commit` makes it the state. What
runs a transaction, reads an envelope and computes the root is outside the
repository: the class `Machine`.

Key definitions: `Machine`, `applyTx`, `execute`, `EvmState.prepare`,
`EvmState.commit`, `evmRule`.
-/
import Sidestr.Evm.World
import Sidestr.Core.Rules

namespace Sidestr

namespace Evm

/-! ### Records -/

/-- Value sent here with a 34-byte script as data leaves the EVM. -/
def withdraw : Address := 0x501de#160

/-- Wei in one sat. -/
def gwei : ℕ := 1000000000

def carrierPrefix : Bytes := ascii ['e', 'v', 'm', ':']

def depositPrefix : Bytes := ascii ['e', 'v', 'm', 'i', 'n', ':']

def rootPrefix : Bytes := ascii ['e', 'v', 'm', 'r', 'o', 'o', 't', ':']

/-- The pushed bytes of an `OP_RETURN` output: the length is a byte after `4c`,
a little-endian word after `4d`, or any other byte itself. -/
def opReturnBytes : Bytes → Option Bytes
  | op :: len :: data =>
    if op ≠ 0x6a then none
    else
      let read : ℕ × Bytes := match len == 0x4c, len == 0x4d, data with
        | true, _, n :: rest => (n.toNat, rest)
        | _, true, lo :: hi :: rest => (lo.toNat ||| hi.toNat <<< 8, rest)
        | _, _, rest => (len.toNat, rest)
      if read.2.length = read.1 then some read.2 else none
  | _ => none

/-- The bytes after a prefix, when there are some. -/
def withPrefix (data : Option Bytes) (pre : Bytes) : Option Bytes :=
  data.bind fun d => (stripPrefix pre d).filter fun rest => !rest.isEmpty

/-- The transaction bytes a carrier holds. -/
def parseCarrier (script : Bytes) : Option Bytes := withPrefix (opReturnBytes script) carrierPrefix

/-- The address a deposit marker credits: exactly 20 bytes. -/
def parseDeposit (script : Bytes) : Option Address :=
  ((withPrefix (opReturnBytes script) depositPrefix).filter fun b => b.length == 20).map
    fun b => BitVec.ofNat 160 (beNat b)

/-- The state root a root record commits: exactly 32 bytes. -/
def parseRoot (script : Bytes) : Option Hash256 :=
  ((withPrefix (opReturnBytes script) rootPrefix).filter fun b => b.length == 32).map
    fun b => BitVec.ofNat 256 (beNat b)

/-- The script of a root record. -/
def rootScript (root : Hash256) : Bytes := opReturn (rootPrefix ++ displayBytes root)

/-! ### Ethereum transactions -/

/-- What the rule reads of an Ethereum transaction's envelope. -/
structure Envelope where
  /-- The EIP-2718 type: 0 is a legacy transaction. -/
  ty : ℕ
  chainId : Option ℕ
  nonce : ℕ
  /-- The recipient; none for a creation. -/
  «to» : Option Address
  /-- In wei, below `2 ^ 256`. -/
  value : BitVec 256
  input : Bytes
  hash : Hash256
  deriving DecidableEq

/-- A carried transaction that reads and whose signature recovers. -/
structure Carried where
  envelope : Envelope
  sender : Address
  hash : Hash256
  deriving DecidableEq

/-- The rule's parameters for one chain. -/
structure EvmConfig where
  chainId : ℕ
  gasLimit : ℕ
  /-- The script a deposit's payment goes to. -/
  reserve : Bytes
  deriving DecidableEq

/-- The block a transaction runs in. -/
structure BlockEnvironment where
  chainId : ℕ
  gasLimit : ℕ
  height : ℕ
  time : UInt32
  deriving DecidableEq

/-- A transaction that ran: whatever its status, it is applied. -/
structure Ran where
  success : Bool
  gasUsed : ℕ
  logs : List Bytes
  changes : ChangeSet

/-- What the rule takes from its dependencies: the envelope's codec and its
signer, the execution of a transaction, a contract's address, the root of the
state trie. -/
class Machine where
  /-- `TxEnvelope::decode_2718_exact`. -/
  decode2718 : Bytes → Option Envelope
  /-- `recover_signer`. -/
  recoverSigner : Envelope → Option Address
  /-- `exec::run`: none when the transaction cannot be applied. -/
  run : World → BlockEnvironment → Carried → Option Ran
  /-- `Address::create`. -/
  create : Address → ℕ → Address
  /-- `World::root`. -/
  root : World → Hash256

/-- Why a block is refused. -/
inductive Fault where
  | noReservePayment (output : ℕ)
  | carrierUnread (output : ℕ)
  | carrierRefused (output : ℕ)
  | tx (index : ℕ) (fault : Fault)
  | noState (height : ℤ)
  | root (committed : Option Hash256) (root : Hash256)
  | unpaid (script : Bytes) (sats : ℕ)
  deriving DecidableEq

/-- A withdrawal a block made: the coinbase must pay `sats` to `script`. -/
structure Withdrawal where
  script : Bytes
  sats : ℕ
  hash : Hash256
  deriving DecidableEq

/-- What a carried transaction left. -/
structure Receipt where
  transactionHash : Hash256
  status : Bool
  gasUsed : ℕ
  contractAddress : Option Address
  logs : List Bytes
  height : ℕ
  sidechainTxid : Txid
  «from» : Address
  «to» : Option Address
  index : ℕ
  envelope : Envelope
  deriving DecidableEq

/-- What one sidechain transaction did. -/
structure TxOutcome where
  error : Option Fault := none
  hashes : List Hash256 := []
  withdrawals : List Withdrawal := []
  gasUsed : ℕ := 0

/-- The world, the block's receipts and the transaction's outcome so far. -/
structure TxRun where
  world : World
  receipts : List Receipt
  out : TxOutcome := {}

section

variable [Machine]

/-- Read a carrier's bytes as a signed transaction for the chain. -/
def decodeCarrier (rlp : Bytes) (chainId : ℕ) : Option Carried := do
  let envelope ← Machine.decode2718 rlp
  if 2 < envelope.ty then none
  else if envelope.chainId.any fun id => id != chainId then none
  -- only a legacy transaction may leave the chain out
  else if envelope.chainId.isNone ∧ envelope.ty ≠ 0 then none
  else
    let sender ← Machine.recoverSigner envelope
    some ⟨envelope, sender, envelope.hash⟩

/-- The contract a creation deploys to. -/
def createdAddress (c : Carried) : Option Address :=
  if c.envelope.«to».isNone then some (Machine.create c.sender c.envelope.nonce) else none

omit [Machine] in
/-- The output before output `i` that pays the reserve. -/
def reservePayment (cfg : EvmConfig) (tx : Transaction) (i : ℕ) : Option TxOut :=
  if i = 0 then none
  else (tx.output[i - 1]?).filter fun o => o.scriptPubkey == cfg.reserve && decide (1 ≤ o.sats)

omit [Machine] in
/-- A withdrawal: value sent to `withdraw` with a 34-byte script, and it succeeded. -/
def Ran.withdraws (ran : Ran) (e : Envelope) : Bool :=
  e.«to» == some withdraw && e.value != 0 && e.input.length == 34 && ran.success

omit [Machine] in
/-- What the coinbase owes for a withdrawal: nothing for less than a sat. -/
def withdrawalOf (c : Carried) : List Withdrawal :=
  let sats := c.envelope.value.toNat / gwei
  if 1 ≤ sats then [⟨c.envelope.input, min sats (Word.maxVal 64), c.hash⟩] else []

variable [Bitcoin]

/-- The receipt of a carried transaction that ran. -/
def receiptOf (env : BlockEnvironment) (tx : Transaction) (c : Carried) (ran : Ran) (index : ℕ) :
    Receipt :=
  { transactionHash := c.hash, status := ran.success, gasUsed := ran.gasUsed,
    contractAddress := createdAddress c, logs := ran.logs, height := env.height,
    sidechainTxid := Bitcoin.computeTxid tx, «from» := c.sender, «to» := c.envelope.«to»,
    index := min index (Word.maxVal 32), envelope := c.envelope }

/-- Apply a carrier: run it, fold its changes in, and empty `withdraw` after a withdrawal. -/
def applyCarried (env : BlockEnvironment) (tx : Transaction) (c : Carried) (ran : Ran) (s : TxRun) :
    TxRun :=
  let world := s.world.commit ran.changes
  let receipts := s.receipts ++ [receiptOf env tx c ran s.receipts.length]
  let out := { s.out with gasUsed := Word.satAdd 64 s.out.gasUsed ran.gasUsed
                          hashes := s.out.hashes ++ [c.hash] }
  if ran.withdraws c.envelope then
    ⟨world.zeroBalance withdraw, receipts,
      { out with withdrawals := out.withdrawals ++ withdrawalOf c }⟩
  else ⟨world, receipts, out⟩

/-- Apply one output's record. -/
def applyOutput (cfg : EvmConfig) (env : BlockEnvironment) (tx : Transaction) (i : ℕ) (o : TxOut)
    (s : TxRun) : Except Fault TxRun :=
  match parseDeposit o.scriptPubkey with
  | some address =>
    match reservePayment cfg tx i with
    | some paid => .ok { s with world := s.world.credit address (paid.sats * gwei) }
    | none => .error (.noReservePayment i)
  | none =>
    match parseCarrier o.scriptPubkey with
    | none => .ok s
    | some rlp =>
      match decodeCarrier rlp cfg.chainId with
      | none => .error (.carrierUnread i)
      | some c =>
        match Machine.run s.world env c with
        | none => .error (.carrierRefused i)
        | some ran => .ok (applyCarried env tx c ran s)

/-- The outputs in order, up to the first whose record does not apply. -/
def applyOutputs (cfg : EvmConfig) (env : BlockEnvironment) (tx : Transaction) :
    List (TxOut × ℕ) → TxRun → TxRun
  | [], s => s
  | (o, i) :: rest, s =>
    match applyOutput cfg env tx i o s with
    | .ok s' => applyOutputs cfg env tx rest s'
    | .error e => { s with out := { s.out with error := some e } }

/-- Apply one sidechain transaction's deposits and carriers. -/
def applyTx (cfg : EvmConfig) (world : World) (tx : Transaction) (env : BlockEnvironment)
    (receipts : List Receipt) : TxRun :=
  applyOutputs cfg env tx tx.output.zipIdx ⟨world, receipts, {}⟩

/-! ### Blocks -/

/-- A block's transactions so far. -/
structure BlockRun where
  world : World
  receipts : List Receipt := []
  hashes : List Hash256 := []
  withdrawals : List Withdrawal := []
  error : Option Fault := none

/-- The transactions in order, up to the first that fails. -/
def runTxs (cfg : EvmConfig) (env : BlockEnvironment) :
    List (Transaction × ℕ) → BlockRun → BlockRun
  | [], b => b
  | (tx, i) :: rest, b =>
    let r := applyTx cfg b.world tx env b.receipts
    match r.out.error with
    | some e => { b with world := r.world, receipts := r.receipts, error := some (.tx i e) }
    | none => runTxs cfg env rest
        { world := r.world, receipts := r.receipts, hashes := b.hashes ++ r.out.hashes
          withdrawals := b.withdrawals ++ r.out.withdrawals }

omit [Machine] [Bitcoin] in
/-- The first withdrawal that no output pays; an output pays one. -/
def firstUnpaid : List Withdrawal → List TxOut → Option Withdrawal
  | [], _ => none
  | w :: ws, outputs =>
    let pays := fun o : TxOut => o.scriptPubkey == w.script && o.sats == w.sats
    if outputs.any pays then firstUnpaid ws (outputs.eraseP pays) else some w

/-- The rule's verdict on a block. -/
structure Verdict where
  error : Option Fault
  root : Option Hash256
  withdrawals : List Withdrawal
  /-- None of a refused block. -/
  hashes : List Hash256
  deriving DecidableEq

/-- Whether the block keeps the rule. -/
def Verdict.ok (v : Verdict) : Bool := v.error.isNone

def Verdict.refused (e : Fault) : Verdict := ⟨some e, none, [], []⟩

/-- The withdrawals' total; none on overflow. -/
def Verdict.withdrawn (v : Verdict) : Option ℕ :=
  Word.checkedSum 64 0 (v.withdrawals.map Withdrawal.sats)

/-- What running a block gives: the verdict, and the world and receipts it leaves. -/
structure Executed where
  verdict : Verdict
  world : World
  receipts : List Receipt

/-- A block's transactions run from a world, and what its coinbase owes them. -/
def execute (cfg : EvmConfig) (world : World) (height : ℕ) (time : UInt32)
    (txdata : List Transaction) : Executed :=
  let env : BlockEnvironment := ⟨cfg.chainId, cfg.gasLimit, height, time⟩
  let b := runTxs cfg env (txdata.zipIdx.drop 1) { world }
  let root := Machine.root b.world
  let outputs := (txdata.head?.map Transaction.output).getD []
  let committed := outputs.findSome? fun o => parseRoot o.scriptPubkey
  let rootFault := if committed = some root then none else some (Fault.root committed root)
  let unpaid := (firstUnpaid b.withdrawals outputs).map fun w => Fault.unpaid w.script w.sats
  let error := (b.error.or rootFault).or unpaid
  ⟨⟨error, some root, b.withdrawals, if error.isNone then b.hashes else []⟩, b.world, b.receipts⟩

/-- An accepted candidate, until it is applied. -/
structure Pending where
  hash : BlockHash
  height : ℕ
  time : UInt32
  world : World
  receipts : List Receipt
  verdict : Verdict

/-- An applied block's Ethereum transactions and the root it left. -/
structure BlockRecord where
  hashes : List Hash256
  root : Hash256
  deriving DecidableEq

/-- The rule's state for one chain. -/
structure EvmState where
  config : EvmConfig
  world : World
  worlds : Map ℕ World
  height : ℕ
  time : UInt32
  times : Map ℕ UInt32
  pending : List Pending
  verdicts : Map BlockHash Verdict
  receipts : Map Hash256 Receipt
  blocks : Map ℕ BlockRecord

namespace EvmState

/-- The state at the genesis: no accounts. -/
def new (config : EvmConfig) : EvmState where
  config := config
  world := {}
  worlds := Finmap.singleton 0 {}
  height := 0
  time := 0
  times := Finmap.singleton 0 0
  pending := []
  verdicts := ∅
  receipts := ∅
  blocks := Finmap.singleton 0 ⟨[], Machine.root {}⟩

/-- The rule's verdict on a block, from the state after the previous one. An
accepted block's state is kept until `commit`; asked again under the same
header hash, the first verdict is returned. -/
def prepare (s : EvmState) (hash : BlockHash) (height : ℕ) (time : UInt32)
    (txdata : List Transaction) : Verdict × EvmState :=
  match s.pending.find? fun p => p.hash == hash with
  | some p => (p.verdict, s)
  | none =>
    if height = 0 ∨ height - 1 ≠ s.height then
      let v := Verdict.refused (.noState (height - 1))
      (v, { s with verdicts := s.verdicts.insert hash v })
    else
      let e := execute s.config s.world height time txdata
      let pending :=
        if e.verdict.ok then s.pending ++ [⟨hash, height, time, e.world, e.receipts, e.verdict⟩]
        else s.pending
      (e.verdict, { s with pending, verdicts := s.verdicts.insert hash e.verdict })

/-- The block was applied: its state becomes the state, and every other
candidate is forgotten. Nothing changes for a block with no verdict waiting. -/
def commit (s : EvmState) (hash : BlockHash) : EvmState :=
  match s.pending.find? fun p => p.hash == hash with
  | none => s
  | some p =>
    { s with
      pending := []
      receipts := Map.insertAll (p.receipts.map fun r => (r.transactionHash, r)) s.receipts
      blocks := s.blocks.insert p.height ⟨p.verdict.hashes, p.verdict.root.getD 0⟩
      world := p.world
      height := p.height
      time := p.time
      worlds := s.worlds.insert p.height p.world
      times := s.times.insert p.height p.time }

end EvmState

/-! ### The rule -/

section

variable {H : Type} [HeaderFamily H]

/-- `prepare` for a block. -/
def EvmState.prepareBlock (s : EvmState) (block : Block H) (height : ℕ) : Verdict × EvmState :=
  s.prepare (HeaderFamily.blockHash block.header) height (HeaderFamily.time block.header)
    block.txdata

def ruleId : RuleId :=
  .other (ascii ['s', 'i', 'd', 'e', 's', 't', 'r', ':', 'r', 'u', 'l', 'e', '-', 'e', 'v', 'm'])

def evmName : Bytes := ascii ['e', 'v', 'm']

/-- The rule in the chain's validation. The allowance runs the block too; the
check that follows asks for the same block, so that what the allowance keeps
is what the check keeps. -/
def evmRule : BlockRule H EvmState where
  id := ruleId
  name := some evmName
  check s ctx :=
    if 0 < ctx.height then
      let (v, s') := s.prepareBlock ctx.block ctx.height
      .ok (some v.ok, s')
    else .ok (none, s)
  coinbaseAllowance s ctx :=
    if ctx.height = 0 then some 0
    else
      let v := (s.prepareBlock ctx.block ctx.height).1
      if v.ok then v.withdrawn else none
  applied s block height :=
    if 0 < height then s.commit (HeaderFamily.blockHash block.header) else s

end

end

end Evm

end Sidestr
