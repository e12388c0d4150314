/-
# The executable instance, in fewer steps

A coinbase is mature after a hundred blocks, so a run that spends one is long,
and evaluating it costs one step after another over bytes: in each block a
header is written and hashed several times, a coinbase in each of its forms,
and a signature made and compared. Here the same functions fold by the
recursor, hash a number by its digits without the list of its bytes, and
compare a signature as a number. They are equal to those of `sampleBitcoin`
and of the stock family on it (`quickBitcoin_eq`, `quickStock_eq`), so a goal
that runs the chain is rewritten to them and then decided.

Key definitions: `foldBy`, `hornerLe`, `isBytesOf`, `quickBitcoin`, `quickStock`.
Key theorems: `quickBitcoin_eq`, `quickStock_eq`, `extendAll_eq_rec`.
-/
import Sidestr.Core.CompactTarget
import Sidestr.Core.Sealing

namespace Sidestr

/-! ### Folds by the recursor -/

/-- `List.foldl`, by the recursor of lists alone. -/
def foldBy {α β : Type} (f : β → α → β) (l : List α) : β → β :=
  List.rec (fun acc => acc) (fun x _ ih acc => ih (f acc x)) l

theorem foldBy_eq {α β : Type} (f : β → α → β) (l : List α) (acc : β) :
    foldBy f l acc = l.foldl f acc := by
  induction l generalizing acc with
  | nil => rfl
  | cons x l ih => exact ih (f acc x)

-- `Nat.add` and `Nat.mul` by name: the kernel would unfold `+` and `*` at every step
/-- One step of Horner's rule. -/
def hornerStep (base h : ℕ) (x : UInt8) : ℕ := Nat.add (Nat.mul h base) x.toNat

/-- Horner's rule from `acc` on, over the bytes of `n`, least significant
first, `k` of them. -/
def hornerLe (base k : ℕ) : ℕ → ℕ → ℕ :=
  Nat.rec (fun _ acc => acc)
    (fun _ ih n acc => ih (Nat.div n 256) (Nat.add (Nat.mul acc base) (Nat.mod n 256))) k

theorem hornerLe_eq (base k n acc : ℕ) :
    hornerLe base k n acc = (leBytes k n).foldl (hornerStep base) acc := by
  induction k generalizing n acc with
  | zero => rfl
  | succ k ih =>
    rw [leBytes, List.foldl_cons, ← ih, hornerStep, UInt8.toNat_ofNat']
    rfl

/-- `poly` from `acc` on. -/
def polyFrom (b : Bytes) : ℕ → ℕ := foldBy (hornerStep 0x101) b

theorem poly_eq (seed : ℕ) (b : Bytes) : poly seed b = polyFrom b (seed + 1) :=
  (foldBy_eq (hornerStep 0x101) b _).symm

/-- One step of `numsHash`. -/
def numsStep (h x : ℕ) : ℕ := Nat.succ (Nat.mul (Nat.add h x) 0x1000003d1000000b)

/-- The multiplier of the sample's hashes. -/
def spread (n : ℕ) : Hash256 :=
  BitVec.ofNat 256 (n * 0x9e3779b97f4a7c15f39cc0605cedc8341082276bf3a27251f86c6a11d0c18e95)

theorem polyHash_eq (seed : ℕ) (b : Bytes) :
    polyHash seed b = spread (polyFrom b (seed + 1)) := by
  rw [polyHash, poly_eq, spread]

theorem numsHash_eq (seed : ℕ) (ns : List ℕ) :
    numsHash seed ns = spread (ns.foldl numsStep seed) := rfl

/-! ### Transactions -/

/-- The outputs' numbers. -/
def outNums (outs : List TxOut) : ℕ → ℕ :=
  foldBy (fun h o => numsStep (numsStep h o.sats) (polyFrom o.scriptPubkey 1)) outs

theorem outNums_eq (outs : List TxOut) (acc : ℕ) : outNums outs acc =
    (outs.flatMap fun o => [o.sats, poly 0 o.scriptPubkey]).foldl numsStep acc := by
  simp only [outNums, foldBy_eq, poly_eq, List.foldl_flatMap, List.foldl_cons, List.foldl_nil]

/-- A transaction's numbers. -/
def txNums (tx : Transaction) (seed : ℕ) : ℕ :=
  outNums tx.output (foldBy (fun h i => numsStep (numsStep (numsStep (numsStep h
      i.previousOutput.txid.toNat) i.previousOutput.vout.toNat) (polyFrom i.scriptSig 1))
      i.sequence.toNat) tx.input
    (numsStep (numsStep (numsStep seed tx.version.toUInt32.toNat) tx.lockTime.toNat)
      tx.input.length))

theorem txNums_eq (tx : Transaction) (seed : ℕ) :
    txNums tx seed = (baseNats tx).foldl numsStep seed := by
  simp only [txNums, outNums_eq, foldBy_eq, poly_eq, baseNats, List.foldl_append,
    List.foldl_flatMap, List.foldl_cons, List.foldl_nil]

/-- The signature hash. -/
def quickSighash (seed : ℕ) (tx : Transaction) (index : ℕ) (prevouts : List TxOut)
    (annex : Option Bytes) (hashType : UInt8) : Option Hash256 :=
  if hashType.toNat ≤ 3 ∨ (0x81 ≤ hashType.toNat ∧ hashType.toNat ≤ 0x83) then
    some (spread (outNums prevouts (numsStep (numsStep (numsStep (txNums tx seed) index)
      hashType.toNat) (polyFrom (annex.getD []) 1))))
  else none

theorem quickSighash_eq (seed : ℕ) : quickSighash seed = sampleSighash seed := by
  funext tx index prevouts annex hashType
  simp only [quickSighash, sampleSighash, outNums_eq, txNums_eq, numsHash_eq, List.foldl_append,
    List.foldl_cons, List.foldl_nil, poly_eq]

/-! ### Signatures -/

/-- The bytes of `n`, most significant first, `k` of them, before the bytes `b`. -/
def beOnto (k : ℕ) : ℕ → Bytes → Bytes :=
  Nat.rec (fun _ b => b) (fun _ ih n b => ih (Nat.div n 256) (UInt8.ofNat n :: b)) k

theorem beOnto_eq (k n : ℕ) (b : Bytes) : beOnto k n b = (leBytes k n).reverse ++ b := by
  induction k generalizing n b with
  | zero => rfl
  | succ k ih =>
    rw [leBytes, List.reverse_cons, List.append_assoc]
    exact ih (n / 256) _

theorem displayBytes_append (a b : Hash256) :
    displayBytes a ++ displayBytes b = beOnto 32 a.toNat (beOnto 32 b.toNat []) := by
  rw [beOnto_eq, beOnto_eq, List.append_nil]
  rfl

/-- The first half of a signature. -/
def sigHead (pk : Bytes) (msg : Hash256) : Hash256 :=
  spread (numsStep (numsStep 6 (polyFrom pk 1)) msg.toNat)

/-- The second half. -/
def sigTail (pk : Bytes) : Hash256 := spread (polyFrom pk 8)

theorem sampleSig_eq (pk : Bytes) (msg : Hash256) :
    sampleSig pk msg = displayBytes (sigHead pk msg) ++ displayBytes (sigTail pk) := by
  rw [sampleSig, polyHash_eq, numsHash_eq, poly_eq]
  rfl

/-- Whether bytes are those of two hashes, `a` before `b`. -/
def isBytesOf (a b : Hash256) (l : Bytes) : Bool :=
  l.length == 64 && foldBy (hornerStep 256) l 0 ==
    Nat.add (Nat.mul a.toNat (256 ^ 32)) b.toNat

theorem isBytesOf_eq (a b : Hash256) (l : Bytes) :
    isBytesOf a b l = (l == displayBytes a ++ displayBytes b) := by
  have hlen : (displayBytes a ++ displayBytes b).length = 64 := by
    rw [List.length_append, length_displayBytes, length_displayBytes]
  have hnum : beNat (displayBytes a ++ displayBytes b) = a.toNat * 256 ^ 32 + b.toNat := by
    rw [beNat_append, beNat_displayBytes, beNat_displayBytes, length_displayBytes]
  rw [Bool.eq_iff_iff, isBytesOf, foldBy_eq, Bool.and_eq_true, beq_iff_eq, beq_iff_eq, beq_iff_eq]
  constructor
  · rintro ⟨h64, hn⟩
    exact beNat_injective (h64.trans hlen.symm) (hn.trans hnum.symm)
  · rintro rfl
    exact ⟨hlen, hnum⟩

/-- `sampleBitcoin`, with these hashes. -/
@[reducible] def quickBitcoin : Bitcoin :=
  { sampleBitcoin with
    computeTxid := fun tx => spread (txNums tx 1)
    sha256 := fun b => spread (polyFrom b 4)
    sha256d := fun b => spread (polyFrom b 5)
    signSchnorr := fun key msg => beOnto 32 (sigHead (sampleKey key) msg).toNat
      (beOnto 32 (sigTail (sampleKey key)).toNat [])
    schnorrVerify := fun msg sig pk => isBytesOf (sigHead pk msg) (sigTail pk) sig
    taprootSighash := quickSighash 8
    unifiedSighash := quickSighash 9 }

theorem quickBitcoin_eq : quickBitcoin = sampleBitcoin := by
  have htxid : (fun tx => spread (txNums tx 1)) = fun tx => numsHash 1 (baseNats tx) :=
    funext fun tx => by rw [txNums_eq, numsHash_eq]
  have hsha (seed : ℕ) : (fun b => spread (polyFrom b (seed + 1))) = polyHash seed :=
    funext fun b => (polyHash_eq seed b).symm
  unfold quickBitcoin
  rw [htxid, hsha 3, hsha 4]
  simp only [isBytesOf_eq, ← displayBytes_append, ← sampleSig_eq, quickSighash_eq]
  rfl

/-! ### The header -/

/-- The header's hash, without the list of its bytes. -/
def quickHash (h : Header) : BlockHash :=
  let digits := hornerLe 0x101
  BitVec.ofNat 256 (hornerLe 256 32 (spread (digits 4 h.nonce.toNat (digits 4 h.bits.toNat
    (digits 4 h.time.toNat (digits 32 h.merkleRoot.toNat (digits 32 h.prevBlockhash.toNat
      (digits 4 h.version.toUInt32.toNat 5))))))).toNat 0)

theorem quickHash_eq (h : Header) : quickHash h = ofDigest (polyHash 4 h.encode) := by
  simp only [quickHash, hornerLe_eq, polyHash_eq, polyFrom, foldBy_eq, Header.encode, wireBytes,
    List.foldl_append]
  rfl

/-- The first 72 bytes of the header, without the rest. -/
def quickPrefix (h : Header) : Bytes :=
  leBytes 4 h.version.toUInt32.toNat ++ (wireBytes h.prevBlockhash ++ (wireBytes h.merkleRoot ++
    leBytes 4 h.time.toNat))

theorem quickPrefix_eq (h : Header) : quickPrefix h = h.encode.take 72 := by
  rw [quickPrefix, Header.take_encode, List.append_assoc, List.append_assoc]

/-- The stock family on `sampleBitcoin`, with these. -/
@[reducible] def quickStock : HeaderFamily Header :=
  { @Stock sampleBitcoin with
    blockHash := quickHash
    signedPrefix := quickPrefix }

theorem quickStock_eq : quickStock = @Stock sampleBitcoin := by
  unfold quickStock
  rw [funext quickHash_eq, funext quickPrefix_eq]
  rfl

/-! ### The run -/

attribute [local instance] sampleBitcoin

/-- `StateOf.extendAll`, by the recursor. -/
theorem extendAll_eq_rec {σ : Type} (q : StateOf Header σ → Block Header → Bool)
    (key : SecretKey) :
    StateOf.extendAll q key = fun txss => List.rec (fun s => .ok ([], s)) (fun p _ ih s => do
      let (block, s') ← s.extend key p.1 p.2
      Res.refuseIf (!q s block) (.chain "the block does not meet the condition")
      let (blocks, s'') ← ih s'
      .ok (block :: blocks, s'')) txss := by
  funext txss
  induction txss with
  | nil => rfl
  | cons p txss ih =>
    funext s
    simp only [StateOf.extendAll, ih]

end Sidestr
