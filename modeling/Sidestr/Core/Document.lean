/-
# The chain document

The document a chain is made from, and the checks a validator makes of it
before it runs the chain (`document.rs`, with the parent table of
`parents.rs` and the federation a document names, `federation.rs`). The
fields here are those the state and the rules read; texts are their bytes.

Key definitions: `ChainDocument`, `ChainDocument.validateFields`,
`ChainDocument.validateWith`, `Federation.forDocument`.
-/
import Sidestr.Core.Block

namespace Sidestr

/-- A rule the document names, with the height it applies from. -/
structure RuleEntry where
  name : Bytes
  fromHeight : UInt32
  deriving DecidableEq, Repr

/-- The name of the assets rule. -/
def assetsName : Bytes := ascii ['a', 's', 's', 'e', 't', 's']

/-- The name of the pool rule. -/
def poolName : Bytes := ascii ['p', 'o', 'o', 'l']

/-- The name of the markets rule. -/
def marketsName : Bytes := ascii ['m', 'a', 'r', 'k', 'e', 't', 's']

/-- A peg output the chain starts from. -/
structure Peg where
  /-- The parent txid, display order. -/
  txid : Bytes
  vout : UInt32
  amount : UInt64
  /-- The sidechain script, hex. -/
  script : Bytes
  deriving DecidableEq, Repr

/-- The chain document. -/
structure ChainDocument where
  id : Bytes
  name : Bytes
  parent : Bytes
  /-- Hex. -/
  challenge : Bytes
  /-- 64 hex digits. -/
  powLimit : Bytes
  addressPrefix : Bytes
  magic : Option Bytes
  pegoutMin : UInt64
  minFeeRate : UInt64
  genesisTime : UInt32
  pegs : List Peg
  signer : Option Bytes
  genesisHash : Option Bytes
  rules : Option (List RuleEntry)
  signers : Option (List Bytes)
  threshold : Option UInt32
  deriving DecidableEq, Repr

/-! ### Parents -/

/-- A row of the parent table: the alias, the long id when there is one, the
family, and whether the row is reserved. -/
structure Parent where
  aliasName : Bytes
  network : Option Bytes
  family : Family
  reserved : Bool

/-- The parent table. -/
def parents : List Parent :=
  [⟨ascii ['b', 't', 'c'],
    some (ascii ['b', 't', 'c', ':', 'm', 'a', 'i', 'n', 'n', 'e', 't']), .stock, false⟩,
   ⟨ascii ['t', 'b', 't', 'c', '4'],
    some (ascii ['b', 't', 'c', ':', 't', 'e', 's', 't', 'n', 'e', 't', '4']), .stock, false⟩,
   ⟨ascii ['x', 'b', 't'],
    some (ascii ['b', 't', 'c', ':', 'm', 'a', 'i', 'n', 'n', 'e', 't', '-',
      'b', 'l', 'a', 'k', 'e', '2', 'b']), .blake2b, false⟩,
   ⟨ascii ['t', 'x', 'b', 't', '4'],
    some (ascii ['b', 't', 'c', ':', 't', 'e', 's', 't', 'n', 'e', 't', '4', '-',
      'b', 'l', 'a', 'k', 'e', '2', 'b']), .blake2b, false⟩,
   ⟨ascii ['l', 't', 'c'], none, .stock, true⟩,
   ⟨ascii ['v', 't', 'c'], none, .stock, true⟩]

/-- Alias or long id to the table row; an error for a reserved or unknown one. -/
def resolveParent (id : Bytes) : Res Error Parent :=
  match parents.find? fun p => p.aliasName == id || p.network == some id with
  | none => .err (.unknownParent id)
  | some p => if p.reserved then .err (.reservedParent p.aliasName) else .ok p

/-! ### The federation -/

/-- What a document with signers and a threshold implies. -/
structure Federation where
  signers : List Bytes
  threshold : ℕ
  /-- The `multi_a` leaf. -/
  script : Bytes
  outputKey : Bytes
  deriving DecidableEq, Repr

/-- `<pk_1> CHECKSIG <pk_2> CHECKSIGADD … <k> NUMEQUAL`. -/
def leafScript (signers : List Bytes) (threshold : ℕ) : Res Error Bytes :=
  if signers = [] ∨ 16 < signers.length then .err (.federation "1 to 16 signers")
  else if threshold = 0 ∨ signers.length < threshold then
    .err (.federation "threshold between 1 and the number of signers")
  else .ok ((signers.zipIdx.flatMap fun (pk, i) =>
    0x20 :: pk ++ [if i = 0 then 0xac else 0xba]) ++ [UInt8.ofNat (0x50 + threshold), 0x9c])

section

variable [Bitcoin]

/-- The federation of a chain id, its signers and threshold; a signer listed
twice is refused. -/
def Federation.new (chainId : Bytes) (signers : List Bytes) (threshold : ℕ) :
    Res Error Federation := do
  let script ← leafScript signers threshold
  Res.refuseIf (!signers.Nodup) (.federation "a signer is listed twice")
  let outputKey ← Res.okOr (.federation "nums derivation failed") (Bitcoin.federationKey chainId script)
  .ok ⟨signers, threshold, script, outputKey⟩

def Federation.challenge (f : Federation) : Bytes := challengeFor f.outputKey

/-- A signer's key bytes, when they are an x-only key. -/
def signerKey (s : Bytes) : Res Error Bytes :=
  match hexDecode s with
  | some b => if Bitcoin.isXOnly b then .ok b else .err (.document "signer is not an x-only key")
  | none => .err (.document "signer is not an x-only key")

/-- The federation a document names: both fields or neither, and the
challenge is the one they derive. -/
def Federation.forDocument (doc : ChainDocument) : Res Error (Option Federation) :=
  match doc.signers, doc.threshold with
  | none, none => .ok none
  | some signers, some threshold => do
    let keys ← Res.foldlM (fun ks s => signerKey s >>= fun k => .ok (ks ++ [k])) [] signers
    Res.refuseIf (255 < threshold.toNat)
      (.federation "threshold between 1 and the number of signers")
    let fed ← Federation.new doc.id keys threshold.toNat
    Res.refuseIf (doc.challenge != [] && toLower doc.challenge != hexEncode fed.challenge)
      (.document "challenge is not the one the signers derive")
    .ok (some fed)
  | _, _ => .err (.document "a level 2 document has both signers and threshold")

end

/-! ### Validation -/

/-- A hex text of the given length, either case. -/
def isHex (s : Bytes) (len : ℕ) : Bool := s.length == len && s.all isHexDigit

namespace ChainDocument

variable (doc : ChainDocument)

/-- The header family the chain inherits. -/
def familyOf : Res Error Family := resolveParent doc.parent >>= fun p => .ok p.family

/-- Whether the document names a rule. -/
def names (rule : Bytes) : Bool :=
  match doc.rules with
  | none => false
  | some rules => rules.any fun r => r.name == rule

/-- A peg whose txid is 64 hex digits and whose script is a hex script. -/
def pegOk (p : Peg) : Bool :=
  isHex p.txid 64 && p.script != [] && p.script.length % 2 == 0 && isHex p.script p.script.length

/-- The signer is the key a single-key challenge names. -/
def signerOk (s : Bytes) : Bool :=
  let c := toLower doc.challenge
  !(c.take 4 == ascii ['5', '1', '2', '0'] && c.length == 68 && c.drop 4 != toLower s)

/-- Every field the validator reads, in order; `carried` are the rules it has. -/
def validateFields [Bitcoin] (carried : List Bytes) : Res Error Unit := do
  Res.refuseIf (doc.id == [] || doc.name == []) (.document "id and name are required")
  Res.refuseIf (doc.challenge.length < 2 || doc.challenge.length % 2 != 0 ||
      !isHex doc.challenge doc.challenge.length)
    (.document "challenge must be a non-empty hex script")
  Res.refuseIf (!isHex doc.powLimit 64) (.document "powLimit must be 64 hex characters")
  Res.refuseIf (doc.addressPrefix == [] || 8 < doc.addressPrefix.length ||
      !doc.addressPrefix.all fun b => 0x61 ≤ b.toNat && b.toNat ≤ 0x7a)
    (.document "addressPrefix is 1 to 8 lower-case letters")
  Res.refuseIf (doc.magic.any fun m => !isHex m 8) (.document "magic must be 8 hex characters")
  Res.refuseIf (doc.genesisHash.any fun h => !isHex h 64)
    (.document "genesisHash must be 64 hex characters")
  Res.refuseIf (!doc.pegs.all pegOk)
    (.document "peg: txid must be 64 hex characters and script a hex script")
  Res.refuseIf (doc.signer.any fun s => !isHex s 64)
    (.document "signer must be a 64-hex x-only public key")
  Res.refuseIf (doc.signer.any fun s => !signerOk doc s)
    (.document "signer is not the key the challenge names")
  Res.refuseIf ((doc.rules.getD []).any fun r => r.name != [] && !carried.contains r.name)
    (.document "the chain names a rule this validator does not have")
  Res.refuseIf (doc.names poolName && !doc.names assetsName)
    (.document "the pool rule needs the assets rule")
  Res.refuseIf (doc.names marketsName && !doc.names assetsName)
    (.document "the markets rule needs the assets rule")
  let _ ← Federation.forDocument doc
  .ok ()

/-- The check of a document for a validator carrying the rules `carried`. -/
def validateWith [Bitcoin] (carried : List Bytes) : Res Error Unit := do
  let _ ← resolveParent doc.parent
  doc.validateFields carried

/-- The challenge as a script. -/
def challengeScript : Res Error Bytes :=
  Res.okOr (.encoding "challenge is not hex") (hexDecode doc.challenge)

/-- The compact target every block carries: `powLimit` in compact form. -/
def bits [Bitcoin] : Res Error UInt32 := do
  let bytes ← Res.okOr (.encoding "powLimit is not hex") (hexDecode doc.powLimit)
  Res.refuseIf (bytes.length != 32) (.document "powLimit must be 32 bytes")
  .ok (Bitcoin.toCompactLossy bytes)

end ChainDocument

end Sidestr
