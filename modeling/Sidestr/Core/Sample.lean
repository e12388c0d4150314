/-
# An executable instance

`Bitcoin` at functions that compute, so that a run of the chain can be
evaluated. Sizes, weights, signature-operation counts and targets are
Bitcoin's own; the hashes are a polynomial and the signature is a keyed hash,
which is enough for a run whose hashes do not collide.

`sampleDoc` is a document of one signer with one peg to the bare `OP_TRUE`
script. `sampleRun` is the producer: from the document it seals the genesis,
then builds, signs and applies a block for each list of transactions. What it
reaches is a run of the chain (`chainWhere_of_sampleRun`).

Key definitions: `sampleBitcoin`, `sampleDoc`, `StateOf.extend`, `sampleRun`.
Key theorems: `chainWhere_of_sampleRun`, `exists_chain_of_sampleRun`.
-/
import Sidestr.Core.Accept

namespace Sidestr

/-! ### Serialisation and sizes -/

def serializeIn (i : TxIn) : Bytes :=
  wireBytes i.previousOutput.txid ++ leBytes 4 i.previousOutput.vout.toNat ++
    compactSize i.scriptSig.length ++ i.scriptSig ++ leBytes 4 i.sequence.toNat

def serializeOut (o : TxOut) : Bytes :=
  leBytes 8 o.sats ++ compactSize o.scriptPubkey.length ++ o.scriptPubkey

/-- Whether no input carries a witness. -/
def noWitness (tx : Transaction) : Bool := tx.input.all fun i => i.witness.isEmpty

/-- A transaction's wire bytes. -/
def serializeTx (tx : Transaction) : Bytes :=
  leBytes 4 tx.version.toUInt32.toNat ++ (if noWitness tx then [] else [0, 1]) ++
    compactSize tx.input.length ++ tx.input.flatMap serializeIn ++
    compactSize tx.output.length ++ tx.output.flatMap serializeOut ++
    (if noWitness tx then [] else tx.input.flatMap fun i => encodeWitness i.witness) ++
    leBytes 4 tx.lockTime.toNat

/-- The length of a count. -/
def countLen (n : ℕ) : ℕ := if n ≤ 0xfc then 1 else if n ≤ 0xffff then 3 else 5

/-- The length of the wire bytes without the witnesses. -/
def baseLen (tx : Transaction) : ℕ :=
  8 + countLen tx.input.length + countLen tx.output.length +
    (tx.input.map fun i => 40 + countLen i.scriptSig.length + i.scriptSig.length).sum +
    (tx.output.map fun o => 8 + countLen o.scriptPubkey.length + o.scriptPubkey.length).sum

/-- The length of the witnesses and their marker. -/
def witnessLen (tx : Transaction) : ℕ :=
  if noWitness tx then 0
  else 2 + (tx.input.map fun i => countLen i.witness.length +
    (i.witness.map fun w => countLen w.length + w.length).sum).sum

/-! ### Hashes and targets -/

/-- A polynomial over the bytes, from a seed. -/
def poly (seed : ℕ) (b : Bytes) : ℕ := b.foldl (fun h x => h * 0x101 + x.toNat) (seed + 1)

/-- The polynomial as a hash: multiplied into the high bits. -/
def polyHash (seed : ℕ) (b : Bytes) : Hash256 :=
  BitVec.ofNat 256
    (poly seed b * 0x9e3779b97f4a7c15f39cc0605cedc8341082276bf3a27251f86c6a11d0c18e95)

/-- The numbers a txid hashes: everything but the witnesses. -/
def baseNats (tx : Transaction) : List ℕ :=
  [tx.version.toUInt32.toNat, tx.lockTime.toNat, tx.input.length] ++
    (tx.input.flatMap fun i => [i.previousOutput.txid.toNat, i.previousOutput.vout.toNat,
      poly 0 i.scriptSig, i.sequence.toNat]) ++
    tx.output.flatMap fun o => [o.sats, poly 0 o.scriptPubkey]

/-- The same polynomial over numbers. -/
def numsHash (seed : ℕ) (ns : List ℕ) : Hash256 :=
  BitVec.ofNat 256 (ns.foldl (fun h x => (h + x) * 0x1000003d1000000b + 1) seed *
    0x9e3779b97f4a7c15f39cc0605cedc8341082276bf3a27251f86c6a11d0c18e95)

/-- The target a compact form names. -/
def targetOf (bits : UInt32) : ℕ :=
  let exp := bits.toNat / 2 ^ 24
  let mant := bits.toNat % 2 ^ 23
  if exp ≤ 3 then mant / 256 ^ (3 - exp) else mant * 256 ^ (exp - 3)

/-- The compact form of a 32-byte target, as `GetCompact` rounds it. -/
def compactOf (b : Bytes) : UInt32 :=
  let digits := b.dropWhile (· == 0)
  let size := digits.length
  let mant := beNat ((digits ++ [0, 0, 0]).take 3)
  if 0x800000 ≤ mant then UInt32.ofNat ((size + 1) * 2 ^ 24 + mant / 256)
  else UInt32.ofNat (size * 2 ^ 24 + mant)

/-- The legacy count of signature operations: `skip` bytes of a push remain. -/
def sigopsFrom : ℕ → Bytes → ℕ
  | _, [] => 0
  | skip + 1, _ :: b => sigopsFrom skip b
  | 0, op :: b =>
    let n := op.toNat
    if 1 ≤ n ∧ n ≤ 75 then sigopsFrom n b
    else if n = 0xac ∨ n = 0xad then 1 + sigopsFrom 0 b
    else if n = 0xae ∨ n = 0xaf then 20 + sigopsFrom 0 b
    else sigopsFrom 0 b

/-! ### The instance -/

/-- The public key of a secret key. -/
def sampleKey (key : SecretKey) : Bytes := displayBytes (numsHash 5 [key])

/-- The signature a public key has on a message. -/
def sampleSig (pk : Bytes) (msg : Hash256) : Bytes :=
  displayBytes (numsHash 6 [poly 0 pk, msg.toNat]) ++ displayBytes (polyHash 7 pk)

/-- A signature hash: the transaction, the input, the prevouts and the type. -/
def sampleSighash (seed : ℕ) (tx : Transaction) (index : ℕ) (prevouts : List TxOut)
    (annex : Option Bytes) (hashType : UInt8) : Option Hash256 :=
  if hashType.toNat ≤ 3 ∨ (0x81 ≤ hashType.toNat ∧ hashType.toNat ≤ 0x83) then
    some (numsHash seed (baseNats tx ++ [index, hashType.toNat, poly 0 (annex.getD [])] ++
      prevouts.flatMap fun o => [o.sats, poly 0 o.scriptPubkey]))
  else none

/-- The instance the samples run on. -/
@[reducible] def sampleBitcoin : Bitcoin where
  computeTxid tx := numsHash 1 (baseNats tx)
  computeWtxid tx :=
    numsHash 1 (baseNats tx ++ tx.input.flatMap fun i => i.witness.map (poly 0))
  calculateRoot hs := if hs.isEmpty then none else some (numsHash 2 (hs.map BitVec.toNat))
  sha256 := polyHash 3
  sha256d := polyHash 4
  serialize := serializeTx
  weight tx := 4 * baseLen tx + witnessLen tx
  baseSize := baseLen
  totalSize tx := baseLen tx + witnessLen tx
  countSigopsLegacy := sigopsFrom 0
  isMetBy bits hash := hash.toNat ≤ targetOf bits
  toCompactLossy := compactOf
  isXOnly b := b.length == 32
  xOnly := sampleKey
  signSchnorr key msg := sampleSig (sampleKey key) msg
  schnorrVerify msg sig pk := sig == sampleSig pk msg
  taprootSighash := sampleSighash 8
  unifiedSighash := sampleSighash 9
  verifyChannelInput _ _ _ _ := false
  verifyMultiAInput _ _ _ := false
  federationKey id leaf := some (displayBytes (polyHash 10 (id ++ leaf)))

/-- One signer, one peg of 100,000,000 sats to the bare `OP_TRUE` script. -/
def sampleDoc : ChainDocument where
  id := ascii ['s', 'i', 'd', 'e', 's', 't', 'r', ':', 's', 'a', 'm', 'p', 'l', 'e']
  name := ascii ['s', 'a', 'm', 'p', 'l', 'e']
  parent := ascii ['t', 'b', 't', 'c', '4']
  challenge := hexEncode (0x51 :: 0x20 :: sampleKey 1)
  powLimit := 0x37 :: List.replicate 63 0x66
  addressPrefix := ascii ['s', 'd']
  magic := none
  pegoutMin := 10000
  minFeeRate := 1
  genesisTime := 1790000000
  pegs := [⟨List.replicate 64 0x61, 0, 100000000, ascii ['5', '1']⟩]
  signer := none
  genesisHash := none
  rules := none
  signers := none
  threshold := none

/-! ### Apart -/

/-- Whether the numbers are in different ones of `n` slots, none of them in
`seen`: a test that they differ, in one pass. -/
def slotsApart (n : ℕ) : ℕ → List ℕ → Bool
  | _, [] => true
  | seen, x :: l => !seen.testBit (x % n) && slotsApart n (seen ||| 2 ^ (x % n)) l

theorem unseen_of_slotsApart {n : ℕ} : ∀ {l : List ℕ} {seen : ℕ}, slotsApart n seen l = true →
    ∀ x ∈ l, seen.testBit (x % n) = false
  | y :: l, seen, h, x, hx => by
    simp only [slotsApart, Bool.and_eq_true, Bool.not_eq_true'] at h
    obtain ⟨hy, hl⟩ := h
    rcases List.mem_cons.mp hx with rfl | hx
    · exact hy
    · have h := unseen_of_slotsApart hl x hx
      rw [Nat.testBit_or, Bool.or_eq_false_iff] at h
      exact h.1

theorem nodup_of_slotsApart {n : ℕ} : ∀ {l : List ℕ} {seen : ℕ}, slotsApart n seen l = true →
    l.Nodup
  | [], _, _ => .nil
  | y :: l, seen, h => by
    simp only [slotsApart, Bool.and_eq_true] at h
    refine List.nodup_cons.mpr ⟨fun hy => ?_, nodup_of_slotsApart h.2⟩
    -- `y` itself has been seen by the rest
    have h := unseen_of_slotsApart h.2 y hy
    simp at h

/-! ### The producer -/

attribute [local instance] sampleBitcoin

variable {σ : Type}

/-- Build, sign and apply the next block with these claims and transactions. -/
def StateOf.extend (s : StateOf Header σ) (key : SecretKey) (claims : List ClaimRequest)
    (txs : List Transaction) : Res Error (Block Header × StateOf Header σ) := do
  let (unsigned, _) ← s.buildNextWith { time := 0, claims } txs
  let block ← signBlock unsigned s.challenge key
  let (s', r) ← s.apply (UInt32.ofNat s.hashes.length) block none none
  match r with
  | .ok _ => .ok (block, s')
  | .error e => .err e

theorem step_of_extend {s s' : StateOf Header σ} {key claims txs block}
    (h : s.extend key claims txs = .ok (block, s')) : Step s (some block) s' := by
  simp only [StateOf.extend, Res.bind_eq_ok] at h
  obtain ⟨_, _, b, _, ⟨s1, r⟩, happ, h⟩ := h
  cases r with
  | error e => simp at h
  | ok a =>
    simp only [Res.ok.injEq, Prod.mk.injEq] at h
    rw [h.1, h.2] at happ
    exact .applied happ

/-- A block for each list of claims and transactions, each meeting `q` in the
state it is applied to; the blocks in order and the last state. -/
def StateOf.extendAll (q : StateOf Header σ → Block Header → Bool) (key : SecretKey) :
    List (List ClaimRequest × List Transaction) → StateOf Header σ →
    Res Error (List (Block Header) × StateOf Header σ)
  | [], s => .ok ([], s)
  | (claims, txs) :: rest, s => do
    let (block, s') ← s.extend key claims txs
    Res.refuseIf (!q s block) (.chain "the block does not meet the condition")
    let (blocks, s'') ← s'.extendAll q key rest
    .ok (block :: blocks, s'')

/-- The genesis of the document sealed, then a block for each list of claims
and transactions, which may spend what the genesis made. -/
def sampleRun (q : StateOf Header σ → Block Header → Bool) (doc : ChainDocument)
    (rules : List (BlockRule Header σ)) (held : σ) (key : SecretKey)
    (txss : Block Header → List (List ClaimRequest × List Transaction)) :
    Res Error (List (Block Header) × StateOf Header σ) := do
  let unsigned ← buildGenesisFor doc
  let challenge ← doc.challengeScript
  let genesis ← signBlock unsigned challenge key
  let s ← fromGenesisWithRules doc genesis none rules held
  let (blocks, s') ← s.extendAll q key (txss genesis)
  .ok (genesis :: blocks, s')

section

variable {q : StateOf Header σ → Block Header → Bool} {doc : ChainDocument}
  {rules : List (BlockRule Header σ)} {held : σ} {key : SecretKey}

theorem chainWhere_of_extendAll : ∀ {txss : List (List ClaimRequest × List Transaction)}
    {s s' : StateOf Header σ} {pre blocks},
    ChainWhere (fun s b => q s b = true) doc rules held pre s →
    s.extendAll q key txss = .ok (blocks, s') →
    ChainWhere (fun s b => q s b = true) doc rules held (pre ++ blocks) s'
  | [], s, s', pre, blocks, hc, h => by
    simp only [StateOf.extendAll, Res.ok.injEq, Prod.mk.injEq] at h
    rw [← h.1, ← h.2, List.append_nil]
    exact hc
  | (claims, txs) :: rest, s, s', pre, blocks, hc, h => by
    simp only [StateOf.extendAll, Res.bind_eq_ok, Res.refuseIf_eq_ok] at h
    obtain ⟨⟨block, s1⟩, h1, _, hq, ⟨blocks1, s2⟩, h2, h3⟩ := h
    simp only [Res.ok.injEq, Prod.mk.injEq] at h3
    have hc1 : ChainWhere (fun s b => q s b = true) doc rules held (pre ++ [block]) s1 :=
      .step hc (step_of_extend h1) fun b hb => by
        rw [← Option.some.inj hb]
        simpa using hq
    have hc2 := chainWhere_of_extendAll hc1 h2
    rw [← h3.1, ← h3.2]
    simpa using hc2

/-- What the producer reaches is a run of the chain. -/
theorem chainWhere_of_sampleRun {txss : Block Header → List (List ClaimRequest × List Transaction)}
    {blocks : List (Block Header)} {s : StateOf Header σ}
    (h : sampleRun q doc rules held key txss = .ok (blocks, s)) :
    ChainWhere (fun s b => q s b = true) doc rules held blocks s := by
  simp only [sampleRun, Res.bind_eq_ok] at h
  obtain ⟨_, _, _, _, genesis, _, s0, hg, ⟨rest, s1⟩, h1, h2⟩ := h
  simp only [Res.ok.injEq, Prod.mk.injEq] at h2
  rw [← h2.1, ← h2.2]
  exact chainWhere_of_extendAll (.genesis hg) h1

end

/-- A run of the chain whose blocks meet `q`, on which a decidable property of
its blocks and its last state evaluates to true. -/
theorem exists_chainWhere_of_sampleRun (q : StateOf Header σ → Block Header → Bool)
    (doc : ChainDocument) (rules : List (BlockRule Header σ)) (held : σ) (key : SecretKey)
    (txss : Block Header → List (List ClaimRequest × List Transaction))
    (p : Block Header → List (Block Header) → StateOf Header σ → Bool)
    (h : (sampleRun q doc rules held key txss).any (fun r => match r.1 with
      | [] => false
      | genesis :: later => p genesis later r.2) = true) :
    ∃ genesis later s, ChainWhere (fun s b => q s b = true) doc rules held (genesis :: later) s ∧
      p genesis later s = true := by
  obtain ⟨⟨blocks, s⟩, hrun, hp⟩ := Res.any_eq_true.mp h
  match blocks, hrun, hp with
  | genesis :: later, hrun, hp => exact ⟨genesis, later, s, chainWhere_of_sampleRun hrun, hp⟩

/-- The same for a run whose blocks need meet nothing. -/
theorem exists_chain_of_sampleRun (doc : ChainDocument) (rules : List (BlockRule Header σ))
    (held : σ) (key : SecretKey) (txss : List (List ClaimRequest × List Transaction))
    (p : Block Header → List (Block Header) → StateOf Header σ → Bool)
    (h : (sampleRun (fun _ _ => true) doc rules held key fun _ => txss).any
      (fun r => match r.1 with
        | [] => false
        | genesis :: later => p genesis later r.2) = true) :
    ∃ genesis later s, Chain doc rules held (genesis :: later) s ∧ p genesis later s = true := by
  obtain ⟨genesis, later, s, hc, hp⟩ := exists_chainWhere_of_sampleRun _ doc rules held key _ p h
  exact ⟨genesis, later, s, hc.chain, hp⟩

end Sidestr
