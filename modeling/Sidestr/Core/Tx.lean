/-
# Transactions and the primitives under them

The data every part of the chain shares: bytes, 256-bit hashes, transactions
and coins, as the code's `bitcoin` types have them. A hash is held as the
number its display hex writes, so `txid.to_string()` and the parser of an
asset id are the hex digits of one number.

What the code takes from its dependencies is the class `Bitcoin`: the hash
functions and the ids computed with them, the sizes a weight is made of, the
proof-of-work test, and the curve. Nothing is assumed of these; a result that
relies on one (two transactions of a run with one txid are one transaction)
says so in its own statement.

Key definitions: `Transaction`, `OutPoint`, `Bitcoin`, `isOpReturn`,
`Transaction.isCoinbase`.
-/
import Mathlib.Data.Finmap
import Mathlib.Algebra.GroupWithZero.Nat
import Sidestr.Lib.Word

namespace Sidestr

abbrev Bytes := List UInt8

/-- A 256-bit hash, as the number its display hex writes. -/
abbrev Hash256 := BitVec 256

abbrev Txid := Hash256

abbrev BlockHash := Hash256

/-- The bytes of an ASCII text, given as its characters. -/
def ascii (cs : List Char) : Bytes := cs.map fun c => UInt8.ofNat c.toNat

/-! ### Transactions -/

structure OutPoint where
  txid : Txid
  vout : UInt32
  deriving DecidableEq, Repr

/-- The outpoint a coinbase input names. -/
def OutPoint.null : OutPoint := ⟨0, 0xffffffff⟩

structure TxIn where
  previousOutput : OutPoint
  scriptSig : Bytes
  sequence : UInt32
  witness : List Bytes
  deriving DecidableEq, Repr

structure TxOut where
  /-- Sats. -/
  value : UInt64
  scriptPubkey : Bytes
  deriving DecidableEq, Repr

structure Transaction where
  version : Int32
  lockTime : UInt32
  input : List TxIn
  output : List TxOut
  deriving DecidableEq, Repr

/-- The value of an output as the rules compute with it. -/
def TxOut.sats (o : TxOut) : ℕ := o.value.toNat

theorem TxOut.sats_le (o : TxOut) : o.sats ≤ Word.maxVal 64 := by
  have h := o.value.toNat_lt
  unfold TxOut.sats Word.maxVal
  omega

/-- Whether a script is provably unspendable: it starts with `OP_RETURN`. -/
def isOpReturn (script : Bytes) : Bool := script.head? == some 0x6a

/-- `OP_1` and a push of 32 bytes. -/
def isP2tr (script : Bytes) : Bool :=
  script.length == 34 && script.take 2 == [0x51, 0x20]

/-- The test the rules use: one input, and it spends the null outpoint. -/
def isCoinbase (tx : Transaction) : Bool :=
  match tx.input with
  | [i] => i.previousOutput == OutPoint.null
  | _ => false

/-- A transaction as its txid commits to it: without its witnesses. -/
def Transaction.stripped (tx : Transaction) : Transaction :=
  { tx with input := tx.input.map fun i => { i with witness := [] } }

/-- The outpoint of output `vout`; the index is cut to 32 bits as `vout as u32`. -/
def outPointAt (txid : Txid) (vout : ℕ) : OutPoint := ⟨txid, UInt32.ofNat vout⟩

/-! ### Numbers and bytes -/

/-- The bytes of `n`, least significant first, `k` of them. -/
def leBytes : ℕ → ℕ → Bytes
  | 0, _ => []
  | k + 1, n => UInt8.ofNat n :: leBytes k (n / 256)

/-- The number a big-endian byte string writes. -/
def beNat (b : Bytes) : ℕ := b.foldl (fun n x => n * 256 + x.toNat) 0

/-- A hash's bytes as they stand on the wire, the reverse of display order. -/
def wireBytes (h : Hash256) : Bytes := leBytes 32 h.toNat

/-- A hash's bytes in display order; the bytes of a digest that is not displayed. -/
def displayBytes (h : Hash256) : Bytes := (wireBytes h).reverse

/-- The hash whose wire bytes are these digest bytes. -/
def ofDigest (h : Hash256) : Hash256 := BitVec.ofNat 256 (beNat (wireBytes h))

/-- The lower-case hex digit of a value below 16. -/
def hexDigit (n : ℕ) : UInt8 := UInt8.ofNat (if n < 10 then 0x30 + n else 0x57 + n)

/-- The value of a hex digit, either case. -/
def hexVal (b : UInt8) : Option ℕ :=
  let n := b.toNat
  if 0x30 ≤ n ∧ n ≤ 0x39 then some (n - 0x30)
  else if 0x61 ≤ n ∧ n ≤ 0x66 then some (n - 0x57)
  else if 0x41 ≤ n ∧ n ≤ 0x46 then some (n - 0x37)
  else none

/-- The hex digits of a byte string, lower case: `hex::encode`. -/
def hexEncode (b : Bytes) : Bytes :=
  b.flatMap fun x => [hexDigit (x.toNat / 16), hexDigit (x.toNat % 16)]

/-- The bytes a hex text writes, either case; `none` for anything else: `hex::decode`. -/
def hexDecode : Bytes → Option Bytes
  | [] => some []
  | [_] => none
  | a :: b :: l => do
    let hi ← hexVal a
    let lo ← hexVal b
    let rest ← hexDecode l
    some (UInt8.ofNat (hi * 16 + lo) :: rest)

/-- A hash in display form: 64 lower-case hex digits. -/
def hashText (h : Hash256) : Bytes := hexEncode (displayBytes h)

def isHexDigit (b : UInt8) : Bool := (hexVal b).isSome

def isLowerHexDigit (b : UInt8) : Bool :=
  (0x30 ≤ b.toNat && b.toNat ≤ 0x39) || (0x61 ≤ b.toNat && b.toNat ≤ 0x66)

def isDigit (b : UInt8) : Bool := 0x30 ≤ b.toNat && b.toNat ≤ 0x39

/-- The number a decimal text writes. -/
def decimal (b : Bytes) : ℕ := b.foldl (fun n x => n * 10 + (x.toNat - 0x30)) 0

/-- The hash a text of 64 hex digits writes. -/
def parseHash (b : Bytes) : Hash256 :=
  BitVec.ofNat 256 (b.foldl (fun n x => n * 16 + (hexVal x).getD 0) 0)

/-- ASCII lower case. -/
def lowerByte (b : UInt8) : UInt8 :=
  if 0x41 ≤ b.toNat ∧ b.toNat ≤ 0x5a then UInt8.ofNat (b.toNat + 32) else b

/-- A text in ASCII lower case. -/
def toLower (b : Bytes) : Bytes := b.map lowerByte

/-- The decimal digits of a number. -/
def decimalText (n : ℕ) : Bytes := (Nat.toDigits 10 n).map fun c => UInt8.ofNat c.toNat

/-- The rest of `b` after `p`, when `b` starts with it. -/
def stripPrefix : Bytes → Bytes → Option Bytes
  | [], b => some b
  | _ :: _, [] => none
  | x :: p, y :: b => if x = y then stripPrefix p b else none

/-- The two sides of the first `sep` in `b`. -/
def splitOnce (sep : UInt8) : Bytes → Option (Bytes × Bytes)
  | [] => none
  | x :: b =>
    if x = sep then some ([], b)
    else (splitOnce sep b).map fun (l, r) => (x :: l, r)

/-- The parts of `b` between the occurrences of `sep`. -/
def splitAll (sep : UInt8) : Bytes → List Bytes
  | [] => [[]]
  | x :: b =>
    match splitAll sep b with
    | [] => [[x]]
    | p :: ps => if x = sep then [] :: p :: ps else (x :: p) :: ps

/-! ### What the dependencies compute -/

/-- The rules a spend's signature hash follows. -/
inductive SighashRules where
  | bip341
  | knotsUnified
  deriving DecidableEq, Repr

abbrev SecretKey := ℕ

/-- The parts of Bitcoin the code takes from its dependencies. -/
class Bitcoin where
  /-- `Transaction::compute_txid`. -/
  computeTxid : Transaction → Txid
  /-- `Transaction::compute_wtxid`. -/
  computeWtxid : Transaction → Hash256
  /-- `merkle_tree::calculate_root`; none of no hashes. -/
  calculateRoot : List Hash256 → Option Hash256
  sha256 : Bytes → Hash256
  sha256d : Bytes → Hash256
  /-- `consensus::serialize` of a transaction. -/
  serialize : Transaction → Bytes
  /-- `Transaction::weight`, in weight units. -/
  weight : Transaction → ℕ
  baseSize : Transaction → ℕ
  totalSize : Transaction → ℕ
  /-- `Script::count_sigops_legacy`. -/
  countSigopsLegacy : Bytes → ℕ
  /-- `Target::from_compact(bits).is_met_by(hash)`. -/
  isMetBy : UInt32 → BlockHash → Bool
  /-- `Target::from_be_bytes(target).to_compact_lossy()`. -/
  toCompactLossy : Bytes → UInt32
  /-- `XOnlyPublicKey::from_slice` accepts the bytes. -/
  isXOnly : Bytes → Bool
  /-- The x-only public key of a secret key. -/
  xOnly : SecretKey → Bytes
  /-- `sign_schnorr_with_aux_rand` with 32 zero bytes, serialised. -/
  signSchnorr : SecretKey → Hash256 → Bytes
  /-- `verify_schnorr`: message, signature, key. -/
  schnorrVerify : Hash256 → Bytes → Bytes → Bool
  /-- The taproot signature hash of an input with its prevouts, annex and hash type;
  `none` when the type is not one. -/
  taprootSighash : Transaction → ℕ → List TxOut → Option Bytes → UInt8 → Option Hash256
  /-- The same under Knots' unified rules. -/
  unifiedSighash : Transaction → ℕ → List TxOut → Option Bytes → UInt8 → Option Hash256
  /-- A taproot script-path spend of a channel leaf (`channel::verify_channel_input`). -/
  verifyChannelInput : Transaction → ℕ → List TxOut → SighashRules → Bool
  /-- A taproot script-path spend of the federation's leaf (`verify_multi_a_input`). -/
  verifyMultiAInput : Transaction → ℕ → List TxOut → Bool
  /-- The output key of a chain id's unspendable internal key tweaked by a leaf. -/
  federationKey : Bytes → Bytes → Option Bytes

end Sidestr
