/-
# The v2 header, and what a block signature binds

The 164-byte header of a chain beside a BLAKE2b parent (`v2.rs`) and the family
that runs the chain's rules over it (`family.rs`). Its consensus time is the
time on the wire plus an offset, when a flag says so. The block signature
commits to the first 72 bytes, as in the stock family: the flag and the offset
come after them, and no rule reads them but through the time.

So one signature seals two v2 blocks that a state accepts, of one body and of
two times (`relay_moves_time`); everything else it binds, and in the stock
family the time too (`signature_binds`).

Key definitions: `Blake2bV2Header`, `Blake2bV2Header.hash`, `Blake2bV2`, `OneSignature`.
Key theorems: `signed_fields`, `signature_binds`.
-/
import Sidestr.Core.Sealing
import Sidestr.Core.BlockFile
import Sidestr.Core.Sample

namespace Sidestr

/-- BLAKE2b with a digest of 32 bytes. -/
class Blake2b where
  blake2b256 : Bytes → Hash256

/-! ### The header -/

structure Blake2bV2Header where
  /-- Bit 31 marks a v2 header. -/
  version : UInt32
  prevBlockHash : BlockHash
  merkleRoot : Hash256
  timeOnWire : UInt32
  bits : UInt32
  nonce : UInt32
  nonce2 : UInt32
  nonce3 : UInt32
  extranonce : BitVec 128
  /-- Added to `timeOnWire` when bit 2 of `flags` is set. -/
  timeOffset : UInt32
  txCount : UInt16
  /-- Bits 0 and 1: the layout of the last hash; bit 2: the offset is in use;
  bits 6 and 7 are reserved. -/
  flags : UInt8
  xorKeyMaskClearBits : UInt8
  xorKey : BitVec 128
  height : UInt32
  mmRhs : Hash256
  deriving DecidableEq, Repr

namespace Blake2bV2Header

/-- The first 72 bytes, with another merkle root. -/
def signetPreimage (h : Blake2bV2Header) (root : Hash256) : Bytes :=
  leBytes 4 h.version.toNat ++ wireBytes h.prevBlockHash ++ wireBytes root ++
    leBytes 4 h.timeOnWire.toNat

/-- The 164 wire bytes. -/
def encode (h : Blake2bV2Header) : Bytes :=
  h.signetPreimage h.merkleRoot ++ leBytes 4 h.bits.toNat ++ leBytes 4 h.nonce.toNat ++
    leBytes 4 h.nonce2.toNat ++ leBytes 4 h.nonce3.toNat ++ leBytes 16 h.extranonce.toNat ++
    leBytes 4 h.timeOffset.toNat ++ leBytes 2 h.txCount.toNat ++ [h.flags] ++
    [h.xorKeyMaskClearBits] ++ leBytes 16 h.xorKey.toNat ++ leBytes 4 h.height.toNat ++
    wireBytes h.mmRhs

def usesTimeOffset (h : Blake2bV2Header) : Bool := h.flags &&& 4 != 0

/-- The consensus time; the sum wraps. -/
def time (h : Blake2bV2Header) : UInt32 :=
  if h.usesTimeOffset then h.timeOnWire + h.timeOffset else h.timeOnWire

/-- What is added to the time on the wire. -/
def addedOffset (h : Blake2bV2Header) : UInt32 := if h.usesTimeOffset then h.timeOffset else 0

/-- The reserved bits are clear. -/
def checkFlags (h : Blake2bV2Header) : Bool := h.flags &&& 0xc0 == 0

def xorKeyTag : Bytes :=
  ascii ['B', 'i', 't', 'c', 'o', 'i', 'n', ' ', 'b', 'l', 'o', 'c', 'k', ' ', 'h', 'a', 's', 'h',
    ' ', 'P', 'o', 'W', ' ', 'X', 'O', 'R', ' ', 'k', 'e', 'y']

def xorMaskTag : Bytes :=
  ascii ['B', 'i', 't', 'c', 'o', 'i', 'n', ' ', 'b', 'l', 'o', 'c', 'k', ' ', 'h', 'a', 's', 'h',
    ' ', 'P', 'o', 'W', ' ', 'X', 'O', 'R', ' ', 'm', 'a', 's', 'k']

def prevTag : Bytes :=
  ascii ['B', 'i', 't', 'c', 'o', 'i', 'n', ' ', 'p', 'r', 'e', 'v', 'b', 'l', 'o', 'c', 'k', ' ',
    'h', 'e', 'a', 'd', 'e', 'r', ',', ' ', 'h', 'a', 's', 'h', 'e', 'd']

def headerTag : Bytes :=
  ascii ['B', 'i', 't', 'c', 'o', 'i', 'n', ' ', 'b', 'l', 'o', 'c', 'k', ' ', 'h', 'e', 'a', 'd',
    'e', 'r', ' ', '1']

def mergeTag : Bytes :=
  ascii ['M', 'e', 'r', 'g', 'e', '-', 'm', 'i', 'n', 'i', 'n', 'g', ' ', 'h', 'o', 'o', 'k']

section

variable [Bitcoin] [Blake2b]

omit [Blake2b] in
/-- The BIP-340 tagged hash of the concatenated chunks. -/
def taggedHash (tag data : Bytes) : Hash256 :=
  let tagHash := displayBytes (Bitcoin.sha256 tag)
  Bitcoin.sha256 (tagHash ++ tagHash ++ data)

omit [Blake2b] in
/-- The mask over the last digest: none for the zero key; else a hash of it
without its leading bits. -/
def mask (h : Blake2bV2Header) : Hash256 :=
  if h.xorKey = 0 then 0
  else taggedHash xorMaskTag (leBytes 16 h.xorKey.toNat) &&&
    (BitVec.allOnes 256 >>> h.xorKeyMaskClearBits.toNat)

/-- The block hash, also the proof-of-work hash. -/
def hash (h : Blake2bV2Header) : BlockHash :=
  let xorKeyHash := taggedHash xorKeyTag (leBytes 16 h.xorKey.toNat)
  let prevHidden := taggedHash prevTag (displayBytes h.prevBlockHash)
  -- the previous hash enters in display order, the merkle root in wire order
  let h1 := taggedHash headerTag (leBytes 4 h.version.toNat ++ displayBytes h.prevBlockHash ++
    leBytes 4 h.height.toNat ++ wireBytes h.merkleRoot ++ leBytes 4 h.timeOnWire.toNat ++ [0] ++
    leBytes 4 h.bits.toNat ++ leBytes 4 h.txCount.toNat ++ [h.flags, h.xorKeyMaskClearBits] ++
    displayBytes xorKeyHash)
  let h2 := taggedHash mergeTag (displayBytes h1 ++ List.replicate 32 0 ++ wireBytes h.mmRhs)
  let b1 := Blake2b.blake2b256 (leBytes 4 0 ++ displayBytes h2 ++ leBytes 16 h.extranonce.toNat)
  let nonce := leBytes 4 h.nonce.toNat
  let nonce2 := leBytes 4 h.nonce2.toNat
  let nonce3 := leBytes 4 h.nonce3.toNat
  let offset := leBytes 4 h.timeOffset.toNat
  let asicProfile := h.flags &&& 3
  let b2 := Blake2b.blake2b256 <|
    if asicProfile = 0 then
      List.replicate 6 0 ++ (displayBytes prevHidden).drop 6 ++ nonce ++ nonce2 ++ offset ++ nonce3 ++
        displayBytes b1
    else if asicProfile = 1 then
      nonce ++ nonce2 ++ nonce3 ++ offset ++ displayBytes b1 ++ displayBytes h2
    else
      List.replicate (if asicProfile = 2 then 48 else 80) 0 ++ displayBytes h2 ++ nonce ++ nonce2 ++
        offset ++ nonce3 ++ displayBytes b1
  b2 ^^^ h.mask

end

end Blake2bV2Header

section

variable [Bitcoin] [Blake2b]

/-- The family beside a BLAKE2b parent: v2 from the genesis, the header commits
to the height and the transaction count, the unified sighash at every height. -/
instance Blake2bV2 : HeaderFamily Blake2bV2Header where
  family := .blake2b
  headerLen := 164
  encodeHeader := Blake2bV2Header.encode
  blockHash := Blake2bV2Header.hash
  signedPrefix h := h.signetPreimage h.merkleRoot
  headerHeight h := some h.height.toNat
  newHeader prev root time bits height txCount :=
    { version := 0xa0000000, prevBlockHash := prev, merkleRoot := root, timeOnWire := time, bits
      nonce := 0, nonce2 := 0, nonce3 := 0, extranonce := 0, timeOffset := 0
      txCount := UInt16.ofNat (min txCount (Word.maxVal 16)), flags := 0, xorKeyMaskClearBits := 0
      xorKey := 0, height := UInt32.ofNat height, mmRhs := 0 }
  -- unsigned: the mandatory bit 31 does not read as a sign
  versionNumber h := h.version.toNat
  prev h := h.prevBlockHash
  merkleRoot h := h.merkleRoot
  time := Blake2bV2Header.time
  bits h := h.bits
  setMerkleRoot h root := { h with merkleRoot := root }
  setNonce h nonce := { h with nonce }
  headerRules h height :=
    [⟨.knotsHeaderV1UntilFork, some true⟩,
     ⟨.knotsHeaderV2FromFork, some (h.version &&& 0x80000000 != 0)⟩,
     ⟨.knotsHeaderHeight, some (h.height.toNat == height)⟩,
     ⟨.knotsHeaderFlagsReserved, some h.checkFlags⟩]
  blockRules h txCount :=
    [⟨.knotsBlockTxcount, some (h.txCount.toNat == txCount)⟩, ⟨.knotsBlockHeadline, some true⟩]
  sighashRules _ := .knotsUnified

end

/-! ### What is signed -/

theorem leBytes_inj {k m n : ℕ} (hm : m < 256 ^ k) (hn : n < 256 ^ k)
    (h : leBytes k m = leBytes k n) : m = n := by
  rw [← leNat_leBytes hm, h, leNat_leBytes hn]

theorem wireBytes_inj {a b : Hash256} (h : wireBytes a = wireBytes b) : a = b :=
  BitVec.eq_of_toNat_eq (leBytes_inj a.isLt b.isLt h)

/-- The four fields of the first 72 bytes. -/
theorem signed_fields {v v' t t' : ℕ} {p p' r r' : Hash256} (hv : v < 2 ^ 32) (hv' : v' < 2 ^ 32)
    (ht : t < 2 ^ 32) (ht' : t' < 2 ^ 32)
    (h : leBytes 4 v ++ wireBytes p ++ wireBytes r ++ leBytes 4 t =
      leBytes 4 v' ++ wireBytes p' ++ wireBytes r' ++ leBytes 4 t') :
    v = v' ∧ p = p' ∧ r = r' ∧ t = t' := by
  have hw : ∀ a b : Hash256, (wireBytes a).length = (wireBytes b).length := fun a b => by
    unfold wireBytes
    rw [length_leBytes, length_leBytes]
  obtain ⟨h, htime⟩ := List.append_inj' h (by rw [length_leBytes, length_leBytes])
  obtain ⟨h, hroot⟩ := List.append_inj' h (hw r r')
  obtain ⟨hver, hprev⟩ := List.append_inj' h (hw p p')
  exact ⟨leBytes_inj hv hv' hver, wireBytes_inj hprev, wireBytes_inj hroot, leBytes_inj ht ht' htime⟩

section

variable [Bitcoin] {H σ : Type} [HeaderFamily H]

/-- The bytes whose hash is the block data. -/
def signedPreimage (block : Block H) : Bytes :=
  match block.txdata with
  | [] => []
  | cb :: rest => HeaderFamily.signedPrefix
      (HeaderFamily.setMerkleRoot block.header (merkleRootOfTxs (strippedCoinbase cb :: rest)))

/-- Two blocks of one body that a state accepts at a height and that one
signature seals. -/
structure OneSignature (s : StateOf H σ) (height : UInt32) (a b : Block H) : Prop where
  left : ∃ now v next held, s.judge height a now = .ok (v, next, held) ∧ v.ok = true
  right : ∃ now v next held, s.judge height b now = .ok (v, next, held) ∧ v.ok = true
  txdata : a.txdata = b.txdata
  data : blockData a = blockData b

/-- An accepted block has a coinbase, and its header the root of its body. -/
theorem judge_root {s : StateOf H σ} {height : UInt32} {block : Block H} {now : Option UInt32}
    {v : Verdict} {next : Records} {held : σ} (h : s.judge height block now = .ok (v, next, held))
    (hok : v.ok = true) : block.txdata ≠ [] ∧
      merkleRootOfTxs block.txdata = HeaderFamily.merkleRoot block.header := by
  simp only [StateOf.judge] at h
  obtain ⟨structural, hstruct, h⟩ := Res.bind_eq_ok.mp h
  obtain ⟨⟨ctx, next', held'⟩, -, h⟩ := Res.bind_eq_ok.mp h
  simp only [Res.ok.injEq, Prod.mk.injEq] at h
  obtain ⟨rfl, -, -⟩ := h
  obtain ⟨signed, -, hstruct⟩ := Res.bind_eq_ok.mp hstruct
  rw [← Res.ok.inj hstruct] at hok
  simp only [Verdict.ok_append, Verdict.ok_cons, Bool.and_eq_true, bne_iff_ne, ne_eq,
    Option.some.injEq, Bool.not_eq_false, Bool.not_eq_true', beq_iff_eq] at hok
  obtain ⟨⟨-, ⟨-, -, ⟨hne, hroot⟩, -⟩, -⟩, -⟩ := hok
  exact ⟨by simpa using hne, hroot⟩

/-- One signature, and a hash that tells the two preimages apart: the same bytes
were signed. -/
theorem OneSignature.fields {s : StateOf H σ} {height : UInt32} {a b : Block H}
    (h : OneSignature s height a b)
    (hsha : Bitcoin.sha256 (signedPreimage a) = Bitcoin.sha256 (signedPreimage b) →
      signedPreimage a = signedPreimage b) :
    HeaderFamily.merkleRoot a.header = HeaderFamily.merkleRoot b.header ∧
    ∃ root, HeaderFamily.signedPrefix (HeaderFamily.setMerkleRoot a.header root) =
      HeaderFamily.signedPrefix (HeaderFamily.setMerkleRoot b.header root) := by
  obtain ⟨now, v, next, held, hj, hok⟩ := h.left
  obtain ⟨now', v', next', held', hj', hok'⟩ := h.right
  obtain ⟨hne, hroot⟩ := judge_root hj hok
  obtain ⟨-, hroot'⟩ := judge_root hj' hok'
  have hdata := h.data
  have htx := h.txdata
  unfold blockData at hdata
  unfold signedPreimage at hsha
  cases ha : a.txdata with
  | nil => exact absurd ha hne
  | cons cb rest =>
    rw [ha] at htx
    rw [← htx, ha] at hdata hsha
    refine ⟨by rw [← hroot, ← hroot', ← htx, ha], _, hsha ?_⟩
    exact Res.ok.inj hdata

end

/-- **What a block signature binds.** Of two blocks of one body that one
signature seals and a state accepts at one height, the version, the previous
hash, the merkle root and, in the stock family, the time are the same; the
times of two v2 blocks are the same exactly when the same offset is added. -/
theorem signature_binds [Bitcoin] [Blake2b] {σ : Type} {height : UInt32} :
    (∀ {s : StateOf Header σ} {a b : Block Header}, OneSignature s height a b →
      (Bitcoin.sha256 (signedPreimage a) = Bitcoin.sha256 (signedPreimage b) →
        signedPreimage a = signedPreimage b) →
      a.header.version = b.header.version ∧ a.header.prevBlockhash = b.header.prevBlockhash ∧
      a.header.merkleRoot = b.header.merkleRoot ∧ a.header.time = b.header.time) ∧
    ∀ {s : StateOf Blake2bV2Header σ} {a b : Block Blake2bV2Header}, OneSignature s height a b →
      (Bitcoin.sha256 (signedPreimage a) = Bitcoin.sha256 (signedPreimage b) →
        signedPreimage a = signedPreimage b) →
      a.header.version = b.header.version ∧ a.header.prevBlockHash = b.header.prevBlockHash ∧
      a.header.merkleRoot = b.header.merkleRoot ∧ a.header.timeOnWire = b.header.timeOnWire ∧
      (a.header.time = b.header.time ↔ a.header.addedOffset = b.header.addedOffset) := by
  refine ⟨fun {s a b} h hsha => ?_, fun {s a b} h hsha => ?_⟩
  · obtain ⟨hroot, root, hfix⟩ := h.fields hsha
    have htake : ∀ x : Header, HeaderFamily.signedPrefix (HeaderFamily.setMerkleRoot x root) =
        leBytes 4 x.version.toUInt32.toNat ++ wireBytes x.prevBlockhash ++ wireBytes root ++
          leBytes 4 x.time.toNat :=
      fun x => Header.take_encode { x with merkleRoot := root }
    rw [htake, htake] at hfix
    obtain ⟨hv, hp, -, ht⟩ := signed_fields (UInt32.toNat_lt _) (UInt32.toNat_lt _)
      (UInt32.toNat_lt _) (UInt32.toNat_lt _) hfix
    refine ⟨?_, hp, hroot, UInt32.toNat_inj.mp ht⟩
    exact Int32.toBitVec_inj.mp (congrArg UInt32.toBitVec (UInt32.toNat_inj.mp hv))
  · obtain ⟨hroot, root, hfix⟩ := h.fields hsha
    obtain ⟨hv, hp, -, ht⟩ := signed_fields (UInt32.toNat_lt _) (UInt32.toNat_lt _)
      (UInt32.toNat_lt _) (UInt32.toNat_lt _) hfix
    have htime : ∀ x : Blake2bV2Header, x.time = x.timeOnWire + x.addedOffset := by
      intro x
      unfold Blake2bV2Header.time Blake2bV2Header.addedOffset
      split_ifs
      · rfl
      · rw [UInt32.add_zero]
    have hwire : a.header.timeOnWire = b.header.timeOnWire := UInt32.toNat_inj.mp ht
    refine ⟨UInt32.toNat_inj.mp hv, hp, hroot, hwire, ?_⟩
    rw [htime, htime, hwire, UInt32.add_right_inj]

/-! ### Two blocks of one signature -/

section

/-- A BLAKE2b for the samples. -/
@[reducible] def sampleBlake2b : Blake2b where
  blake2b256 := polyHash 11

attribute [local instance] sampleBitcoin sampleBlake2b

/-- The first block of a chain, and the same with its header changed by a
number that the proof of work allows. -/
def sealedTwice (H : Type) [HeaderFamily H] (doc : ChainDocument) (change : H → ℕ → H) :
    Res Error (StateOf H Unit × Block H × Block H) := do
  let unsigned ← buildGenesisFor doc
  let challenge ← doc.challengeScript
  let genesis ← signBlock unsigned challenge 1
  let s ← fromGenesisWithRules doc genesis none [] ()
  let (unsigned, _) ← s.buildNextWith { time := 0, claims := [] } []
  let block ← signBlock unsigned challenge 1
  let k ← Res.okOr (.chain "no such number") ((List.range 64).find? fun k =>
    Bitcoin.isMetBy s.bits (HeaderFamily.blockHash (change block.header (k + 1))))
  .ok (s, block, ⟨change block.header (k + 1), block.txdata⟩)

theorem sealedTwice_state {H : Type} [HeaderFamily H] {doc : ChainDocument} {change : H → ℕ → H}
    {r : StateOf H Unit × Block H × Block H} (h : sealedTwice H doc change = .ok r) :
    ∃ genesis, fromGenesisWithRules doc genesis none [] () = .ok r.1 := by
  simp only [sealedTwice, Res.bind_eq_ok, Res.ok.injEq] at h
  obtain ⟨_, _, _, _, genesis, _, s, hs, _, _, _, _, _, _, rfl⟩ := h
  exact ⟨genesis, hs⟩

/-- Both blocks are accepted, and what is signed is the same. -/
def bothAccepted {H : Type} [HeaderFamily H] (r : StateOf H Unit × Block H × Block H) : Bool :=
  let accepts := fun block : Block H => (r.1.judge 1 block none).any fun v => v.1.ok
  accepts r.2.1 && accepts r.2.2 && decide (r.2.1.txdata = r.2.2.txdata) &&
    decide (signedPreimage r.2.1 = signedPreimage r.2.2) &&
    (blockData r.2.1).any fun d => (blockData r.2.2).any fun d' => d == d'

theorem oneSignature_of_accepted {H : Type} [HeaderFamily H]
    {r : StateOf H Unit × Block H × Block H} (h : bothAccepted r = true) :
    OneSignature r.1 1 r.2.1 r.2.2 ∧ signedPreimage r.2.1 = signedPreimage r.2.2 := by
  simp only [bothAccepted, Bool.and_eq_true, decide_eq_true_eq] at h
  obtain ⟨⟨⟨⟨ha, hb⟩, htx⟩, hpre⟩, hdata⟩ := h
  obtain ⟨⟨v, next, held⟩, hj, hok⟩ := Res.any_eq_true.mp ha
  obtain ⟨⟨v', next', held'⟩, hj', hok'⟩ := Res.any_eq_true.mp hb
  obtain ⟨d, hd, hdata⟩ := Res.any_eq_true.mp hdata
  obtain ⟨d', hd', heq⟩ := Res.any_eq_true.mp hdata
  refine ⟨⟨⟨none, v, next, held, hj, hok⟩, ⟨none, v', next', held', hj', hok'⟩, htx, ?_⟩, hpre⟩
  rw [hd, hd', beq_iff_eq.mp heq]

/-- The sample chain beside a BLAKE2b parent. -/
def sampleDocV2 : ChainDocument :=
  { sampleDoc with parent := ascii ['t', 'x', 'b', 't', '4'] }

/-- Another nonce. -/
def stockTwice : Res Error (StateOf Header Unit × Block Header × Block Header) :=
  sealedTwice Header sampleDoc fun h k => { h with nonce := h.nonce + UInt32.ofNat k }

/-- The flag set, and an offset. -/
def v2Twice : Res Error (StateOf Blake2bV2Header Unit × Block Blake2bV2Header × Block Blake2bV2Header) :=
  sealedTwice Blake2bV2Header sampleDocV2 fun h k =>
    { h with flags := 4, timeOffset := UInt32.ofNat k }

set_option maxRecDepth 100000 in
theorem stockTwice_run : stockTwice.any bothAccepted = true := by decide +kernel

set_option maxRecDepth 100000 in
theorem v2Twice_run : v2Twice.any (fun r => bothAccepted r &&
    decide (r.2.1.header.time ≠ r.2.2.header.time)) = true := by decide +kernel

/-- Another nonce leaves what is signed; the flag and an offset do too, and the
offset added is not the same. -/
theorem signature_binds_sample :
    (∃ (s : StateOf Header Unit) (a b : Block Header), OneSignature s 1 a b ∧
      a.header.time = b.header.time) ∧
    ∃ (s : StateOf Blake2bV2Header Unit) (a b : Block Blake2bV2Header), OneSignature s 1 a b ∧
      a.header.timeOnWire = b.header.timeOnWire ∧
      a.header.addedOffset ≠ b.header.addedOffset := by
  obtain ⟨r, -, hr⟩ := Res.any_eq_true.mp stockTwice_run
  obtain ⟨r', -, hr'⟩ := Res.any_eq_true.mp v2Twice_run
  rw [Bool.and_eq_true, decide_eq_true_eq] at hr'
  obtain ⟨hone, hsame⟩ := oneSignature_of_accepted hr
  obtain ⟨hone', hsame'⟩ := oneSignature_of_accepted hr'.1
  obtain ⟨-, -, -, htime⟩ := signature_binds.1 hone fun _ => hsame
  obtain ⟨-, -, -, hwire, hiff⟩ := signature_binds.2 hone' fun _ => hsame'
  exact ⟨⟨_, _, _, hone, htime⟩, _, _, _, hone', hwire, fun ho => hr'.2 (hiff.mpr ho)⟩

/-- **A relay moves the time.** The state at a v2 genesis accepts two next blocks
of one body under one signature: the second has the flag and an offset set, and
another time. -/
theorem relay_moves_time : ∃ (genesis : Block Blake2bV2Header) (s : StateOf Blake2bV2Header Unit)
    (a b : Block Blake2bV2Header), fromGenesisWithRules sampleDocV2 genesis none [] () = .ok s ∧
      OneSignature s 1 a b ∧ a.header.time ≠ b.header.time := by
  obtain ⟨r, hrun, hr⟩ := Res.any_eq_true.mp v2Twice_run
  rw [Bool.and_eq_true, decide_eq_true_eq] at hr
  obtain ⟨genesis, hs⟩ := sealedTwice_state hrun
  exact ⟨genesis, _, _, _, hs, (oneSignature_of_accepted hr.1).1, hr.2⟩

end

end Sidestr
