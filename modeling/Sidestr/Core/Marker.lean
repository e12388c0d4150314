/-
# The marker grammar

The `OP_RETURN` texts by which claims and burns are written on the sidechain
(`marker.rs`). A claim is two consecutive coinbase outputs, the payout and
then `claim:<parent txid>:<vout>`; a burn is an output with a value whose
script is `pegout:<parent script hex>`. Both are read from one push, with a
leading byte-order mark dropped.

Key definitions: `opReturnData`, `markerText`, `parseClaims`, `parsePegout`,
`looksLikePegout`, `claimMarker`.
Key theorems: `looksLikePegout_of_parsePegout`, `isOpReturn_of_looksLikePegout`,
`parseClaims_eq_nil`.
-/
import Sidestr.Core.Tx

namespace Sidestr

/-- The data of an `OP_RETURN` output that is one push: `6a`, an optional
`4c`, one length byte and exactly that many bytes. -/
def opReturnData : Bytes → Option Bytes
  | op :: len :: data =>
    if op ≠ 0x6a then none
    else if len = 0x4c then
      match data with
      | [] => none
      | n :: data => if n.toNat = data.length then some data else none
    else if len.toNat = data.length then some data else none
  | _ => none

/-- A continuation byte of UTF-8 between the two bounds. -/
def isCont (lo hi : ℕ) (b : UInt8) : Bool := lo ≤ b.toNat && b.toNat ≤ hi

/-- Well-formed UTF-8, as `str::from_utf8` accepts it. -/
def utf8Valid : Bytes → Bool
  | [] => true
  | a :: l =>
    if a.toNat ≤ 0x7f then utf8Valid l
    else match l with
    | [] => false
    | b :: l =>
      if 0xc2 ≤ a.toNat ∧ a.toNat ≤ 0xdf then isCont 0x80 0xbf b && utf8Valid l
      else match l with
      | [] => false
      | c :: l =>
        if 0xe0 ≤ a.toNat ∧ a.toNat ≤ 0xef then
          isCont (if a = 0xe0 then 0xa0 else 0x80) (if a = 0xed then 0x9f else 0xbf) b &&
            isCont 0x80 0xbf c && utf8Valid l
        else match l with
        | [] => false
        | d :: l =>
          0xf0 ≤ a.toNat && a.toNat ≤ 0xf4 &&
            isCont (if a = 0xf0 then 0x90 else 0x80) (if a = 0xf4 then 0x8f else 0xbf) b &&
            isCont 0x80 0xbf c && isCont 0x80 0xbf d && utf8Valid l

/-- The bytes less one leading byte-order mark. -/
def withoutBom (d : Bytes) : Bytes := (stripPrefix [0xef, 0xbb, 0xbf] d).getD d

/-- The push as a text: strict UTF-8 after a leading byte-order mark. -/
def markerText (d : Bytes) : Option Bytes :=
  if utf8Valid (withoutBom d) then some (withoutBom d) else none

/-- `OP_RETURN` with one minimal push of `data`. -/
def opReturn (data : Bytes) : Bytes :=
  let n := data.length
  if n ≤ 75 then 0x6a :: UInt8.ofNat n :: data
  else if n ≤ 255 then 0x6a :: 0x4c :: UInt8.ofNat n :: data
  else if n ≤ 65535 then 0x6a :: 0x4d :: (leBytes 2 n ++ data)
  else 0x6a :: 0x4e :: (leBytes 4 n ++ data)

/-! ### Claims -/

/-- The payout output a claim marker follows. -/
structure Payout where
  index : ℕ
  value : ℕ
  scriptPubkey : Bytes
  deriving DecidableEq, Repr

/-- A claim: the parent outpoint named, and the payout before the marker. -/
structure Claim where
  index : ℕ
  /-- The parent txid, 64 lower-case hex digits. -/
  txid : Bytes
  vout : ℕ
  payout : Payout
  deriving DecidableEq, Repr

/-- The text every claim starts with. -/
def claimTag : Bytes := ascii ['c', 'l', 'a', 'i', 'm', ':']

/-- `OP_RETURN claim:<txid>:<vout>`. -/
def claimMarker (txid : Bytes) (vout : ℕ) : Bytes :=
  opReturn (claimTag ++ txid ++ [0x3a] ++ decimalText vout)

/-- `claim:<64 lower hex>:<1..5 digits>`. -/
def parseClaimText (t : Bytes) : Option (Bytes × ℕ) := do
  let rest ← stripPrefix claimTag t
  let (txid, vout) ← splitOnce 0x3a rest
  if txid.length ≠ 64 ∨ ¬ txid.all isLowerHexDigit then none
  else if vout = [] ∨ 5 < vout.length ∨ ¬ vout.all isDigit then none
  else some (txid, decimal vout)

/-- The outpoint a coinbase output's script claims, if it is a claim marker. -/
def claimOutPoint (script : Bytes) : Option (Bytes × ℕ) :=
  (opReturnData script).bind fun d => (markerText d).bind parseClaimText

/-- The claims of the outputs from index `i` on, `prev` being the one before;
a marker with no positive, spendable payout before it is an error. -/
def parseClaimsFrom : ℕ → Option TxOut → List TxOut → List Claim × List ℕ
  | _, _, [] => ([], [])
  | i, prev, o :: outs =>
    let rest := parseClaimsFrom (i + 1) (some o) outs
    match claimOutPoint o.scriptPubkey with
    | none => rest
    | some (txid, vout) =>
      match prev with
      | none => (rest.1, i :: rest.2)
      | some p =>
        if !isOpReturn p.scriptPubkey && 0 < p.sats then
          (⟨i, txid, vout, ⟨i - 1, p.sats, p.scriptPubkey⟩⟩ :: rest.1, rest.2)
        else (rest.1, i :: rest.2)

/-- The claims a coinbase makes, and the output indices of the malformed ones. -/
def parseClaims (coinbase : Transaction) : List Claim × List ℕ :=
  parseClaimsFrom 0 none coinbase.output

/-- A coinbase none of whose outputs is a claim marker claims nothing. -/
theorem parseClaimsFrom_eq_nil : ∀ (outs : List TxOut) (i : ℕ) (prev : Option TxOut),
    (∀ o ∈ outs, claimOutPoint o.scriptPubkey = none) → parseClaimsFrom i prev outs = ([], [])
  | [], _, _, _ => rfl
  | o :: outs, i, prev, h => by
    simp only [List.mem_cons, forall_eq_or_imp] at h
    simp only [parseClaimsFrom, h.1, parseClaimsFrom_eq_nil outs (i + 1) (some o) h.2]

theorem parseClaims_eq_nil {cb : Transaction}
    (h : ∀ o ∈ cb.output, claimOutPoint o.scriptPubkey = none) : parseClaims cb = ([], []) :=
  parseClaimsFrom_eq_nil _ _ _ h

/-! ### Burns -/

/-- A burn the chain validated. -/
structure Burn where
  txid : Txid
  vout : ℕ
  /-- The parent output script named, lower-case hex. -/
  script : Bytes
  value : ℕ
  height : ℕ
  deriving DecidableEq, Repr

/-- The text every burn starts with. -/
def pegoutTag : Bytes := ascii ['p', 'e', 'g', 'o', 'u', 't', ':']

/-- The parent output script a burn names: 2 to 40 bytes of lower-case hex. -/
def parsePegout (script : Bytes) : Option Bytes := do
  let d ← opReturnData script
  let t ← markerText d
  let s ← stripPrefix pegoutTag t
  if s.length % 2 = 0 ∧ 4 ≤ s.length ∧ s.length ≤ 80 ∧ s.all isLowerHexDigit then some s else none

/-- Whether an output is one push whose text starts `pegout:`. Decoding with
replacement changes no ASCII byte and makes none, so the test is on the bytes. -/
def looksLikePegout (o : TxOut) : Bool :=
  match opReturnData o.scriptPubkey with
  | none => false
  | some d => (stripPrefix pegoutTag (withoutBom d)).isSome

theorem isOpReturn_of_opReturnData {s d : Bytes} (h : opReturnData s = some d) :
    isOpReturn s = true := by
  match s with
  | [] => simp [opReturnData] at h
  | [_] => simp [opReturnData] at h
  | op :: len :: data =>
    by_cases hop : op = 0x6a
    · simp [isOpReturn, hop]
    · simp [opReturnData, hop] at h

theorem isOpReturn_of_looksLikePegout {o : TxOut} (h : looksLikePegout o = true) :
    isOpReturn o.scriptPubkey = true := by
  unfold looksLikePegout at h
  cases hd : opReturnData o.scriptPubkey with
  | none => simp [hd] at h
  | some d => exact isOpReturn_of_opReturnData hd

/-- What parses as a burn looks like one. -/
theorem looksLikePegout_of_parsePegout {o : TxOut} {s : Bytes}
    (h : parsePegout o.scriptPubkey = some s) : looksLikePegout o = true := by
  simp only [parsePegout, Option.bind_eq_bind, Option.bind_eq_some_iff] at h
  obtain ⟨d, hd, t, ht, u, hu, -⟩ := h
  have htd : t = withoutBom d := by
    unfold markerText at ht
    split_ifs at ht
    exact (Option.some.inj ht).symm
  simp [looksLikePegout, hd, ← htd, hu]

end Sidestr
