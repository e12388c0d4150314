/-
# The block rules

The checks of `rules.rs`, phase by phase: the header against the headers
before it, each transaction on its own, the block's structure, and the block
in its context, where its inputs are resolved against the UTXO set and its own
earlier outputs (`resolveSpending`). Every check answers pass, fail or
skipped, and every phase runs whatever an earlier one said.

Two definitions carry the money. `resolveSpending` reads a block without
changing the set and adds up the fees; `applyBlock` is the change. What the
one allows and what the other does are compared in `Sidestr.Core.Supply`.

Key definitions: `Params`, `Coin`, `Records`, `validateHeader`,
`validateTransaction`, `validateBlockStructure`, `resolveSpending`,
`BlockRule`, `validateBlockContext`, `applyBlock`.
-/
import Mathlib.Data.List.Sort
import Sidestr.Lib.Map
import Sidestr.Core.Block

namespace Sidestr

/-- The network parameters a chain inherits. -/
structure Params where
  maxBlockWeight : ℕ := 4000000
  maxMoney : ℕ := 2100000000000000
  maxBlockSigopsCost : ℕ := 80000
  coinbaseMaturity : ℕ := 100
  maxFutureBlockTime : ℕ := 7200
  bip34Height : ℕ := 1
  segwitHeight : ℕ := 0
  bip65Height : ℕ := 1
  bip66Height : ℕ := 1

/-- The results of the rules that ran, in order. -/
abbrev Verdict := List RuleResult

/-- No rule failed. -/
def Verdict.ok (v : Verdict) : Bool := v.all fun r => r.ok != some false

/-- The ids of the rules that failed. -/
def Verdict.failed (v : Verdict) : List RuleId :=
  (v.filter fun r => r.ok == some false).map RuleResult.rule

@[simp] theorem Verdict.ok_nil : Verdict.ok [] = true := rfl

@[simp] theorem Verdict.ok_cons (r : RuleResult) (v : Verdict) :
    Verdict.ok (r :: v) = (r.ok != some false && Verdict.ok v) := rfl

@[simp] theorem Verdict.ok_append (v v' : Verdict) :
    Verdict.ok (v ++ v') = (Verdict.ok v && Verdict.ok v') := by
  simp [Verdict.ok, List.all_append]

/-- A coin in the UTXO set. -/
structure Coin where
  output : TxOut
  /-- The height of the block that created it. -/
  height : ℕ
  /-- Whether a coinbase created it. -/
  coinbase : Bool
  deriving DecidableEq, Repr

/-- The UTXO set; `OP_RETURN` outputs are never coins. -/
abbrev Utxo := Map OutPoint Coin

/-- What the overlay remembers across blocks. -/
structure Records where
  /-- Parent outpoint to the height that claimed it. -/
  claims : Map (Bytes × ℕ) ℕ := ∅
  /-- Sidechain outpoint to the burn. -/
  pegouts : Map OutPoint Burn := ∅

/-- The chain-specific inputs to the sidestr rules. -/
structure Overlay where
  challenge : Bytes
  pegoutMin : ℕ
  /-- The document's pegs, minted by the genesis coinbase. -/
  genesisSubsidy : ℕ

/-! ### The header phase -/

section Header

variable [Bitcoin] {H : Type} [HeaderFamily H]

/-- The median of the last (up to) eleven times; no value for no headers. -/
def medianTimePast (window : List H) : Option ℕ :=
  let times := (window.drop (window.length - 11)).map fun h => (HeaderFamily.time h).toNat
  (times.insertionSort (· ≤ ·))[times.length / 2]?

/-- The least version a header at `height` may carry. -/
def minVersion (params : Params) (height : ℕ) : ℤ :=
  if params.bip65Height ≤ height then 4
  else if params.bip66Height ≤ height then 3
  else if params.bip34Height ≤ height then 2
  else 1

/-- The header phase: previous link, proof of work, unchanged bits, median
time past, not too far in the future, version; then the family's own rules. -/
def validateHeader (params : Params) (header : H) (height : ℕ) (prev : Option H)
    (window : List H) (now : Option ℕ) : Verdict :=
  [⟨.headerPrevLink, prev.map fun p => HeaderFamily.prev header == HeaderFamily.blockHash p⟩,
   ⟨.headerPow, some (Bitcoin.isMetBy (HeaderFamily.bits header) (HeaderFamily.blockHash header))⟩,
   ⟨.headerDifficulty, prev.map fun p => HeaderFamily.bits header == HeaderFamily.bits p⟩,
   ⟨.headerMtp, if min 11 height ≤ window.length then
      (medianTimePast window).map fun m => m < (HeaderFamily.time header).toNat
     else none⟩,
   ⟨.headerTimeFuture, now.map fun n =>
      (HeaderFamily.time header).toNat ≤ n + params.maxFutureBlockTime⟩,
   ⟨.headerVersion, some (minVersion params height ≤ HeaderFamily.versionNumber header)⟩,
   ⟨.headerTimewarp, none⟩] ++ HeaderFamily.headerRules header height

end Header

/-! ### The transaction phase -/

/-- The outputs' total; none when it does not fit. -/
def sumOut (tx : Transaction) : Option ℕ := Word.checkedSum 64 0 (tx.output.map TxOut.sats)

theorem sumOut_eq_some {tx : Transaction} {s : ℕ} :
    sumOut tx = some s ↔ s = (tx.output.map TxOut.sats).sum ∧ s ≤ Word.maxVal 64 := by
  rw [sumOut, Word.checkedSum_eq_some (Nat.zero_le _), Nat.zero_add]
  exact and_congr_right fun h => by rw [h]

section Transaction

variable [Bitcoin]

/-- The transaction phase; `coinbase` says whether it is the block's first. -/
def validateTransaction (params : Params) (tx : Transaction) (coinbase : Bool) : Verdict :=
  [⟨.txInputsNonempty, some !tx.input.isEmpty⟩,
   ⟨.txOutputsNonempty, some !tx.output.isEmpty⟩,
   ⟨.txSize, some (Bitcoin.weight tx ≤ params.maxBlockWeight)⟩,
   ⟨.txOutputValues, some ((tx.output.all fun o => o.sats ≤ params.maxMoney) &&
      (sumOut tx).any fun s => s ≤ params.maxMoney)⟩,
   ⟨.txInputsUnique, some (tx.input.map TxIn.previousOutput).Nodup⟩,
   ⟨.txPrevouts, some (if coinbase then isCoinbase tx
      else tx.input.all fun i => i.previousOutput.txid != 0)⟩,
   ⟨.txCoinbaseScript, if coinbase then
      some (tx.input.head?.any fun i => 2 ≤ i.scriptSig.length && i.scriptSig.length ≤ 100)
     else none⟩]

/-! ### The block phase -/

/-- The legacy signature-operation count of a transaction. -/
def txSigops (tx : Transaction) : ℕ × ℕ :=
  (Word.satSum 64 0 (tx.input.map fun i => Bitcoin.countSigopsLegacy i.scriptSig),
   Word.satSum 64 0 (tx.output.map fun o => Bitcoin.countSigopsLegacy o.scriptPubkey))

def legacySigops (txdata : List Transaction) : ℕ :=
  txdata.foldl (fun n tx => Word.satAdd 64 (Word.satAdd 64 n (txSigops tx).1) (txSigops tx).2) 0

variable {H : Type} [HeaderFamily H]

/-- The block phase: the coinbase first and alone, the merkle root, no
transaction twice, sigops, weight, every transaction, the block signature;
then the family's own rules. -/
def validateBlockStructure (params : Params) (overlay : Overlay) (block : Block H) :
    Res Error Verdict := do
  let txdata := block.txdata
  let signed ← verifyBlockSolution block overlay.challenge
  .ok ([⟨.blockCoinbaseFirst, some (txdata.head?.any isCoinbase)⟩,
    ⟨.blockCoinbaseSingle, some ((txdata.drop 1).all fun tx => !isCoinbase tx)⟩,
    ⟨.blockMerkleRoot, some (!txdata.isEmpty &&
      merkleRootOfTxs txdata == HeaderFamily.merkleRoot block.header)⟩,
    ⟨.blockTxDuplicates, some (txdata.map Bitcoin.computeTxid).Nodup⟩,
    ⟨.blockSigops, some (Word.satMul 64 (legacySigops txdata) 4 ≤ params.maxBlockSigopsCost)⟩,
    ⟨.blockWeight, some (blockWeight block ≤ params.maxBlockWeight)⟩,
    ⟨.blockTransactions, some (txdata.zipIdx.all fun (tx, i) =>
      (validateTransaction params tx (i == 0)).ok)⟩,
    ⟨.blockSignature, some signed⟩] ++ HeaderFamily.blockRules block.header txdata.length)

end Transaction

/-! ### The block's spending -/

/-- The block's spending, resolved against the UTXO set and the block itself. -/
structure Spending where
  fees : ℕ := 0
  /-- Inputs whose coin does not exist or was spent earlier in the block. -/
  missing : List OutPoint := []
  /-- Transactions whose outputs exceed their inputs. -/
  deficits : List Txid := []
  /-- Inputs spending an immature coinbase. -/
  premature : List OutPoint := []
  seqlockViolations : List OutPoint := []
  /-- Relative locks this context cannot judge. -/
  seqlockUnknown : ℕ := 0
  /-- Transaction index, input index and prevout of every resolved input. -/
  resolved : List (ℕ × ℕ × TxOut) := []
  deriving DecidableEq, Repr

/-- What a relative lock says of an input: no lock, one this context cannot
judge, or the least height that satisfies it. -/
inductive SeqLock where
  | free
  | unknown
  | from (height : ℕ)
  deriving DecidableEq, Repr

/-- The relative lock of an input, given the height of its coin. -/
def seqLock (tx : Transaction) (inp : TxIn) (coinHeight : Option ℕ) : SeqLock :=
  if 2 ≤ tx.version ∧ inp.sequence &&& 0x80000000 = 0 then
    let value := inp.sequence &&& 0x0000ffff
    if 0 < value then
      if inp.sequence &&& 0x00400000 ≠ 0 then .unknown
      else match coinHeight with
        | some ch => .from (ch + value.toNat)
        | none => .unknown
    else .free
  else .free

/-- A relative lock that a block at `height` breaks. -/
def SeqLock.violated (height : ℕ) : SeqLock → Bool
  | .from h => height < h
  | _ => false

/-- Record an input's relative lock at `height`. -/
def Spending.lock (s : Spending) (height : ℕ) (key : OutPoint) (l : SeqLock) : Spending :=
  { s with
    seqlockUnknown := if l = .unknown then s.seqlockUnknown + 1 else s.seqlockUnknown
    seqlockViolations :=
      if l.violated height then s.seqlockViolations ++ [key] else s.seqlockViolations }

/-- The state of the loop over one transaction's inputs. -/
structure InputScan where
  spending : Spending
  spentHere : List OutPoint
  inSum : ℕ := 0
  valuesOk : Bool := true

/-- The state of the loop over the block's transactions. -/
structure BlockScan where
  spending : Spending := {}
  spentHere : List OutPoint := []
  createdHere : Utxo := ∅

/-- The coins a transaction's outputs make. -/
def coinsOf (txid : Txid) (tx : Transaction) (height : ℕ) (coinbase : Bool) :
    List (OutPoint × Coin) :=
  (tx.output.zipIdx.filter fun (o, _) => !isOpReturn o.scriptPubkey).map fun (o, v) =>
    (outPointAt txid v, ⟨o, height, coinbase⟩)

section Spending

variable (params : Params) (utxo : Utxo) (height : ℕ)

/-- One input of transaction `ti`: its coin is one made earlier in the block,
or one of the set. -/
def scanInput (created : Utxo) (ti : ℕ) (tx : Transaction) (st : InputScan) (p : TxIn × ℕ) :
    InputScan :=
  let key := p.1.previousOutput
  let s := st.spending
  if key ∈ st.spentHere then
    { st with spending := { s with missing := s.missing ++ [key] }, valuesOk := false
              spentHere := key :: st.spentHere }
  else
    match (created.lookup key).or (utxo.lookup key) with
    | some c =>
      let s := { s with
        resolved := s.resolved ++ [(ti, p.2, c.output)]
        premature := if c.coinbase && height - c.height < params.coinbaseMaturity then
          s.premature ++ [key] else s.premature }
      { spending := s.lock height key (seqLock tx p.1 (some c.height))
        spentHere := key :: st.spentHere
        inSum := Word.satAdd 64 st.inSum c.output.sats
        valuesOk := st.valuesOk }
    | none =>
      let s := { s with missing := s.missing ++ [key] }
      { st with spending := s.lock height key (seqLock tx p.1 none), valuesOk := false
                spentHere := key :: st.spentHere }

/-- The fee of a transaction whose inputs all resolved, or a deficit. -/
def addFee [Bitcoin] (tx : Transaction) (st : InputScan) : Spending :=
  let s := st.spending
  if st.valuesOk then
    match sumOut tx with
    | some outSum =>
      if outSum ≤ st.inSum then { s with fees := Word.satAdd 64 s.fees (st.inSum - outSum) }
      else { s with deficits := s.deficits ++ [Bitcoin.computeTxid tx] }
    | none => { s with deficits := s.deficits ++ [Bitcoin.computeTxid tx] }
  else s

/-- One transaction of the block: its inputs unless it is the first, then its outputs. -/
def scanTx [Bitcoin] (st : BlockScan) (p : Transaction × ℕ) : BlockScan :=
  let (tx, ti) := p
  let coins := coinsOf (Bitcoin.computeTxid tx) tx height (ti == 0)
  if ti = 0 then { st with createdHere := Map.insertAll coins st.createdHere }
  else
    let scan := tx.input.zipIdx.foldl (scanInput params utxo height st.createdHere ti tx)
      { spending := st.spending, spentHere := st.spentHere }
    { spending := addFee tx scan
      spentHere := scan.spentHere
      createdHere := Map.insertAll coins st.createdHere }

/-- The block's inputs resolved in order; the set does not change. -/
def resolveSpending [Bitcoin] (txdata : List Transaction) : Spending :=
  (txdata.zipIdx.foldl (scanTx params utxo height) {}).spending

end Spending

/-- Spend the inputs of a transaction, unless it is the block's first, and
create its outputs. -/
def applyTx [Bitcoin] (height : ℕ) (utxo : Utxo) (p : Transaction × ℕ) : Utxo :=
  let utxo := if p.2 = 0 then utxo else Map.eraseAll (p.1.input.map TxIn.previousOutput) utxo
  Map.insertAll (coinsOf (Bitcoin.computeTxid p.1) p.1 height (p.2 == 0)) utxo

/-- Apply a validated block to the UTXO set. -/
def applyBlock [Bitcoin] (utxo : Utxo) (txdata : List Transaction) (height : ℕ) : Utxo :=
  txdata.zipIdx.foldl (applyTx height) utxo

/-! ### The block-context phase -/

/-- What a block-context rule sees. -/
structure BlockContext (H : Type) where
  block : Block H
  height : ℕ
  spending : Spending
  mtp : Option ℕ
  records : Records

/-- A block-context rule beyond the core. Such a rule keeps its state beside
the UTXO set, behind interior mutability: here the state `σ` of all the rules
of a chain is passed through each call. -/
structure BlockRule (H σ : Type) where
  id : RuleId
  /-- The name a document gives the rule. -/
  name : Option Bytes := none
  check : σ → BlockContext H → Res Error (Option Bool × σ)
  /-- Sats the coinbase may pay beyond the subsidy, the fees and the claims. -/
  coinbaseAllowance : σ → BlockContext H → Option ℕ := fun _ _ => some 0
  /-- The block was applied: the rule commits what it kept for it. -/
  applied : σ → Block H → ℕ → σ := fun s _ _ => s

/-- The kernel's lenient read of a coinbase height. -/
def bip34HeightLenient (coinbase : Transaction) : Option ℕ := do
  let inp ← coinbase.input.head?
  match inp.scriptSig with
  | [] => none
  | op :: rest =>
    if 0x51 ≤ op.toNat ∧ op.toNat ≤ 0x60 then some (op.toNat - 0x50)
    else if op.toNat < 1 ∨ 5 < op.toNat ∨ rest.length < op.toNat then none
    else
      let n := leNat (rest.take op.toNat)
      if n < 2 ^ 32 then some n else none

/-- The witness commitment a coinbase carries. -/
def witnessCommitmentIn (coinbase : Transaction) : Option Bytes :=
  (commitmentOutputOf coinbase).map fun (_, spk) => (spk.drop 6).take 32

section Context

variable [Bitcoin]

/-- The commitment the block's transactions hash to, with the coinbase's
reserved value. -/
def witnessCommitmentHash (cb : Transaction) (rest : List Transaction) : Bytes :=
  let reserved := ((cb.input.head?.bind fun i => i.witness.head?).getD []).take 32
  displayBytes (Bitcoin.sha256d (wireBytes (witnessRoot rest) ++
    (reserved ++ List.replicate (32 - reserved.length) 0)))

/-- Whether a transaction's lock time is satisfied; none where only the
missing median time past could tell. -/
def txFinal (height : ℕ) (mtp : Option ℕ) (tx : Transaction) : Option Bool :=
  let lt := tx.lockTime.toNat
  if lt = 0 ∨ tx.input.all fun i => i.sequence == 0xffffffff then some true
  else if lt < 500000000 then some (lt < height)
  else mtp.map fun m => lt < m

/-- The finality rule over the block's transactions. -/
def finality (height : ℕ) (mtp : Option ℕ) (txdata : List Transaction) : Option Bool :=
  let rs := txdata.map (txFinal height mtp)
  if rs.contains (some false) then some false
  else if rs.contains none then none
  else some true

/-- The sequence-lock rule. -/
def seqlocks (s : Spending) : Option Bool :=
  if s.seqlockViolations ≠ [] then some false
  else if 0 < s.seqlockUnknown then none
  else some true

/-- The resolved prevouts of transaction `ti` by input index. -/
def resolvedOf (resolved : List (ℕ × ℕ × TxOut)) (ti : ℕ) : List (ℕ × TxOut) :=
  resolved.filterMap fun (t, i, o) => if t = ti then some (i, o) else none

/-- The prevout of each of the inputs `is`; a missing one is an index out of range. -/
def prevoutsOf (r : List (ℕ × TxOut)) : List ℕ → Res Error (List TxOut)
  | [] => .ok []
  | i :: is => do
    let o ← Res.expect (r.lookup i)
    let os ← prevoutsOf r is
    .ok (o :: os)

/-- Every input of transaction `ti` verified, when all of them resolved. -/
def scriptsOfTx (rules : SighashRules) (resolved : List (ℕ × ℕ × TxOut)) (ok : Bool)
    (p : Transaction × ℕ) : Res Error Bool :=
  let (tx, ti) := p
  let r := resolvedOf resolved ti
  if r = [] then .ok ok
  else if r.length ≠ tx.input.length then .ok false
  else do
    let prevouts ← prevoutsOf r (List.range tx.input.length)
    .ok (ok && (List.range tx.input.length).all fun i =>
      verifySupportedInput tx i prevouts rules)

/-- The script rule over the block. -/
def scriptsOk (rules : SighashRules) (resolved : List (ℕ × ℕ × TxOut))
    (txdata : List Transaction) : Res Error Bool :=
  Res.foldlM (scriptsOfTx rules resolved) true txdata.zipIdx

/-- The outputs of the transactions, each with its outpoint. -/
def outputsOf (txs : List Transaction) : List (OutPoint × TxOut) :=
  txs.flatMap fun tx => tx.output.zipIdx.map fun (o, v) =>
    (outPointAt (Bitcoin.computeTxid tx) v, o)

/-- The burn rule over the outputs after the coinbase's: a burn-shaped output
parses, carries at least the minimum, and is no other height's. -/
def checkPegouts (pegoutMin : ℕ) (records : Records) (height : ℕ) :
    List (OutPoint × TxOut) → Map OutPoint Burn → Bool × Map OutPoint Burn
  | [], next => (true, next)
  | (key, o) :: outs, next =>
    if !looksLikePegout o then checkPegouts pegoutMin records height outs next
    else
      match parsePegout o.scriptPubkey with
      | none => (false, next)
      | some script =>
        if o.sats < pegoutMin then (false, next)
        else if (records.pegouts.lookup key).any fun b => b.height != height then (false, next)
        else checkPegouts pegoutMin records height outs
          (next.insert key ⟨key.txid, key.vout.toNat, script, o.sats, height⟩)

/-- The claim rule: no outpoint twice in the block, none claimed at another height. -/
def claimsOk (records : Records) (height : ℕ) (claims : List Claim) : Bool :=
  let ops := claims.map fun c => (c.txid, c.vout)
  ops.Nodup && ops.all fun op => !(records.claims.lookup op).any fun at' => at' != height

variable {H σ : Type} [HeaderFamily H]

/-- The allowances of the extra rules, added up; none fails the rule outright. -/
def allowances (ctx : BlockContext H) (held : σ) : ℕ → List (BlockRule H σ) → Option ℕ
  | acc, [] => some acc
  | acc, r :: rs => do
    let a ← r.coinbaseAllowance held ctx
    let s ← Word.checkedAdd 64 acc a
    allowances ctx held s rs

/-- The extra rules in order, each on the state the one before it leaves. -/
def runRules (ctx : BlockContext H) : σ → List (BlockRule H σ) → Res Error (Verdict × σ)
  | held, [] => .ok ([], held)
  | held, r :: rs => do
    let (ok, held) ← r.check held ctx
    let (v, held) ← runRules ctx held rs
    .ok (⟨r.id, ok⟩ :: v, held)

/-- The coinbase may pay the subsidy, the fees, the claims and the allowances. -/
def coinbaseAmountOk (subsidy fees : ℕ) (cb : Transaction) (claims : List Claim)
    (errors : List ℕ) (allowed : Option ℕ) : Bool :=
  errors.isEmpty &&
    match Word.checkedSum 64 0 (claims.map fun c => c.payout.value), allowed with
    | some paid, some allowed =>
      match Word.checkedAdd 64 paid allowed, sumOut cb with
      | some paid, some s => s ≤ Word.satAdd 64 (Word.satAdd 64 subsidy fees) paid
      | _, _ => false
    | _, _ => false

/-- A candidate block's context. -/
structure Candidate (H σ : Type) where
  block : Block H
  height : ℕ
  utxo : Utxo
  mtp : Option ℕ
  records : Records
  extra : List (BlockRule H σ)

/-- The block-context phase: the verdict, the records the block would leave,
and the state the extra rules leave. The first transaction is an index into
the block, and panics when there is none. -/
def validateBlockContext (params : Params) (overlay : Overlay) (c : Candidate H σ) (held : σ) :
    Res Error (Verdict × Records × σ) := do
  let txdata := c.block.txdata
  let spending := resolveSpending params c.utxo c.height txdata
  let cb ← Res.expect txdata.head?
  let rest := txdata.drop 1
  let ctx : BlockContext H := ⟨c.block, c.height, spending, c.mtp, c.records⟩
  let (claims, errors) := parseClaims cb
  let allowed := allowances ctx held 0 c.extra
  let subsidy := if c.height = 0 then overlay.genesisSubsidy else 0
  let hasWitness := txdata.any fun tx => tx.input.any fun i => !i.witness.isEmpty
  let scripts ← scriptsOk (HeaderFamily.sighashRules H c.height) spending.resolved txdata
  let cbClean := cb.output.all fun o => (parsePegout o.scriptPubkey).isNone
  let burns := if cbClean then
      checkPegouts overlay.pegoutMin c.records c.height (outputsOf rest) ∅
    else (false, ∅)
  let claimed := errors.isEmpty && claimsOk c.records c.height claims
  let next : Records :=
    { claims := if claimed then
        Map.insertAll (claims.map fun cl => ((cl.txid, cl.vout), c.height)) ∅ else ∅
      pegouts := burns.2 }
  let (extra, held) ← runRules ctx held c.extra
  .ok ([⟨.ctxBip34Height, if params.bip34Height ≤ c.height then
      some (bip34HeightLenient cb == some c.height) else none⟩,
    ⟨.ctxFinality, finality c.height c.mtp txdata⟩,
    ⟨.ctxSequenceLocks, seqlocks spending⟩,
    ⟨.ctxInputsAvailable, some spending.missing.isEmpty⟩,
    ⟨.ctxCoinbaseMaturity, some spending.premature.isEmpty⟩,
    ⟨.ctxFees, some spending.deficits.isEmpty⟩,
    ⟨.ctxCoinbaseAmount, some (coinbaseAmountOk subsidy spending.fees cb claims errors allowed)⟩,
    ⟨.ctxWitnessCommitment, if params.segwitHeight ≤ c.height ∧ hasWitness then
      some (witnessCommitmentIn cb == some (witnessCommitmentHash cb rest)) else none⟩,
    ⟨.ctxScripts, some scripts⟩,
    ⟨.pegouts, some burns.1⟩,
    ⟨.claims, some claimed⟩] ++ extra, next, held)

end Context

end Sidestr
