/-
# A federation to run

Instances on which the signers' rounds can be evaluated: the chain's sample
curve, a PSBT codec that reads back the payments of a list, keys that sign
whatever they are asked, and a journal that is the list of its records.

Key definitions: `samplePsbtCodec`, `keySigner`, `listJournal`, `sampleSigners`.
-/
import Sidestr.Core.Sample
import Sidestr.Round.Pegout

namespace Sidestr

namespace Round

attribute [local instance] sampleBitcoin

/-- A leaf's signature hash. -/
def sampleLeafSighash (tx : Transaction) (i : ℕ) (prevouts : List TxOut) (leaf : Hash256)
    (hashType : UInt8) : Option Hash256 :=
  some (numsHash 11 (baseNats tx ++ [i, leaf.toNat, hashType.toNat] ++ prevouts.map TxOut.sats))

/-- A text for a PSBT: its transaction and how many signatures it has. -/
def samplePsbtText (p : Psbt) : Bytes :=
  decimalText (numsHash 12 (baseNats p.unsignedTx ++
    p.inputs.map fun i => i.tapScriptSigs.keys.card)).toNat

/-- A codec that reads back the PSBTs of a list. -/
@[reducible] def samplePsbtCodec (known : List Psbt) : PsbtCodec where
  leafSighash := sampleLeafSighash
  isControlBlock b := b.length == 33
  hash160 b := (displayBytes (polyHash 13 b)).take 20
  psbtText := samplePsbtText
  psbtFromText t := known.find? fun p => samplePsbtText p == t

@[reducible] def sampleEventCodec : EventCodec where
  idBytes ev := polyHash 14 (ev.pubkey ++ ev.content ++ decimalText ev.createdAt ++
    (ev.tags.map List.flatten).flatten)

attribute [local instance] sampleEventCodec

/-- A key that signs whatever it is asked. -/
@[reducible] def keySigner : RoundSigner SecretKey where
  pubkey := sampleKey
  signPegoutInput key req := (key, some (sampleSig (sampleKey key) req.digest))
  signEvent key ev :=
    let ev := { ev with pubkey := hexEncode (sampleKey key) }
    let id := sampleEventCodec.idBytes ev
    (key, some ⟨ev, hexEncode (displayBytes id), hexEncode (sampleSig (sampleKey key) id)⟩)

/-- The list of the records. -/
@[reducible] def listJournal : VoteJournal (List VoteEntry) where
  record j e := (j ++ [e], true)
  entries j := some j

/-- Three keys, two of which must sign. -/
def sampleSigners : Federation where
  signers := [sampleKey 1, sampleKey 2, sampleKey 3]
  threshold := 2
  script := [0x51]
  leafHash := 1
  internalKey := List.replicate 32 4
  outputKey := List.replicate 32 5
  controlBlock := 0xc0 :: List.replicate 32 4
  nodup := by decide +kernel
  threshold_pos := sampleFederation.threshold_pos
  threshold_le := sampleFederation.threshold_le

/-- The round's options with re-signing off. -/
def sampleConfig : PegoutConfig := ⟨30, none, 2, 100000, fun _ => none⟩

end Round

end Sidestr
