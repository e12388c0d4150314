/-
# A peg-in's marker

The wallet's peg-in in the marker form (`pegin.rs`): one output to the peg's
address, one that names the chain and the sidechain script. The marker writes a
script as raw bytes where that fits 80 bytes and as hex where it does not, with
nothing that says which; the reader takes what looks like hex for hex. A script
whose own bytes look like hex is read back as another (`peg_marker_misread`),
and every other one as itself (`peg_marker_reads_iff`).

Key definitions: `pegMarkerData`, `buildPegin`, `LooksHex`.
Key theorems: `parsePegMarker_raw`, `parsePegMarker_hex`, `peg_marker_reads_iff`.
-/
import Sidestr.Core.PegTweak
import Sidestr.Parent.Pegin
import Sidestr.Round.Event
import Sidestr.Core.Sample

namespace Sidestr

namespace Wallet

open Parent (pegTag parsePegMarker)

/-- Why the wallet refused. -/
inductive WalletError where
  | core (e : Error)
  | badDestination (text : Bytes)
  | wrongNetwork (text : Bytes)
  | badAmount
  | dust (value min : ℕ) (script : Bytes)
  | markerTooLong (bytes : ℕ)
  | insufficient (sum need : ℕ)
  | insufficientForFee (amount fee : ℕ)
  | feeBelowMinimum (fee min vsize rate : ℕ)
  | policy (why : Bytes)
  | signer (why : String)
  | asset (why : String)
  deriving DecidableEq, Repr

/-- The networks a parent's addresses are encoded for. -/
inductive Network where
  | bitcoin
  | testnet4
  deriving DecidableEq, Repr

/-- What the wallet takes of its dependencies. -/
class Addresses where
  /-- `segwit::decode`: the prefix, the version, the program. -/
  segwit : Bytes → Option (Bytes × UInt8 × Bytes)
  /-- `Address::from_str`, and its script on a network when it is of that network. -/
  address : Bytes → Option (Network → Option Bytes)
  /-- `TxOut::minimal_non_dust` of a script. -/
  minimalNonDust : Bytes → ℕ

/-! ### The marker -/

/-- The text before the script. -/
def markerHead (chainId : Bytes) : Bytes := pegTag ++ chainId ++ [0x3a]

/-- The peg-in marker's data: the script raw when that fits, as hex text otherwise. -/
def pegMarkerData (chainId script : Bytes) : Bytes :=
  if (markerHead chainId).length + script.length ≤ 80 then markerHead chainId ++ script
  else markerHead chainId ++ hexEncode script

/-- Less a byte-order mark, the bytes are hex pairs. -/
def LooksHex (script : Bytes) : Prop :=
  withoutBom script ≠ [] ∧ (withoutBom script).length % 2 = 0 ∧
    (withoutBom script).all isHexDigit = true

instance (script : Bytes) : Decidable (LooksHex script) :=
  inferInstanceAs (Decidable (_ ∧ _ ∧ _))

theorem isHexDigit_ascii {b : UInt8} (h : isHexDigit b = true) : b.toNat ≤ 0x7f := by
  unfold isHexDigit hexVal at h
  dsimp only at h
  split_ifs at h
  · omega
  · omega
  · omega
  · cases h

/-- What looks like hex is a text. -/
theorem LooksHex.markerText {script : Bytes} (h : LooksHex script) :
    markerText script = some (withoutBom script) := by
  unfold Sidestr.markerText
  rw [if_pos (utf8Valid_of_ascii fun b hb => isHexDigit_ascii (List.all_eq_true.mp h.2.2 b hb))]

theorem length_withoutBom_le (d : Bytes) : (withoutBom d).length ≤ d.length := by
  unfold withoutBom
  cases h : stripPrefix [0xef, 0xbb, 0xbf] d with
  | none => exact le_rfl
  | some rest =>
    rw [eq_append_of_stripPrefix h, Option.getD_some, List.length_append]
    exact Nat.le_add_left _ _

/-- A marker whose rest is not empty is read as the rest. -/
theorem parsePegMarker_eq {chainId rest : Bytes} (hne : rest ≠ [])
    (hlen : (markerHead chainId ++ rest).length ≤ 255) :
    parsePegMarker (opReturn (markerHead chainId ++ rest)) chainId =
      if LooksHex rest then hexDecode (toLower (withoutBom rest)) else some rest := by
  have hstrip : stripPrefix (pegTag ++ chainId ++ [0x3a]) (markerHead chainId ++ rest) = some rest :=
    stripPrefix_append _ _
  unfold parsePegMarker
  rw [opReturnData_opReturn hlen]
  simp only [Option.bind_eq_bind, Option.bind_some, hstrip]
  rw [if_neg hne]
  by_cases hhex : LooksHex rest
  · rw [hhex.markerText, if_pos hhex]
    exact if_pos hhex
  · rw [if_neg hhex]
    cases ht : markerText rest with
    | none => rfl
    | some text =>
      have htext : text = withoutBom rest := by
        unfold markerText at ht
        split_ifs at ht
        exact (Option.some.inj ht).symm
      rw [htext]
      exact if_neg hhex

/-- **The raw form** reads back unless it looks like hex: hex pairs write fewer
bytes than they are. -/
theorem parsePegMarker_raw {chainId script : Bytes} (hne : script ≠ [])
    (hlen : (markerHead chainId ++ script).length ≤ 255) :
    parsePegMarker (opReturn (markerHead chainId ++ script)) chainId = some script ↔
      ¬ LooksHex script := by
  rw [parsePegMarker_eq hne hlen]
  by_cases hhex : LooksHex script
  · rw [if_pos hhex]
    refine iff_of_false (fun h => ?_) (not_not.mpr hhex)
    have hdecoded := length_hexDecode h
    have hle := length_withoutBom_le script
    have hpos := List.length_pos_iff.mpr hhex.1
    unfold toLower at hdecoded
    rw [List.length_map] at hdecoded
    omega
  · rw [if_neg hhex]
    exact iff_of_true rfl hhex

/-- **The hex form** reads back. -/
theorem parsePegMarker_hex {chainId script : Bytes} (hne : script ≠ [])
    (hlen : (markerHead chainId ++ hexEncode script).length ≤ 255) :
    parsePegMarker (opReturn (markerHead chainId ++ hexEncode script)) chainId = some script := by
  have hlower := List.all_eq_true.mp (hexEncode_lower script)
  have hlength := length_hexEncode script
  have hpos := List.length_pos_iff.mpr hne
  have hbom : withoutBom (hexEncode script) = hexEncode script := by
    unfold withoutBom
    cases hs : stripPrefix [0xef, 0xbb, 0xbf] (hexEncode script) with
    | none => rfl
    | some rest =>
      have hmem : (0xef : UInt8) ∈ hexEncode script := by
        rw [eq_append_of_stripPrefix hs]
        exact List.mem_cons_self
      exact absurd (hlower _ hmem) (by decide)
  have hhex : LooksHex (hexEncode script) := by
    refine ⟨?_, ?_, ?_⟩
    · rw [hbom, ← List.length_pos_iff]
      omega
    · rw [hbom]
      omega
    · rw [hbom, List.all_eq_true]
      exact fun b hb => hexVal_isSome (hlower b hb)
  have hsame : toLower (hexEncode script) = hexEncode script :=
    (hexEncode_hexDecode (hexDecode_hexEncode script)).symm
  rw [parsePegMarker_eq (List.length_pos_iff.mp (by omega)) hlen, if_pos hhex, hbom, hsame,
    hexDecode_hexEncode]

/-! ### The builder -/

/-- The network of a parent's addresses; none for a reserved parent. -/
def parentNetwork (parent : Sidestr.Parent) : Option Network :=
  if parent.aliasName = ascii ['b', 't', 'c'] ∨ parent.aliasName = ascii ['x', 'b', 't'] then
    some .bitcoin
  else if parent.aliasName = ascii ['t', 'b', 't', 'c', '4'] ∨
      parent.aliasName = ascii ['t', 'x', 'b', 't', '4'] then some .testnet4
  else none

section

variable [Addresses]

/-- A text as an address on the parent's network, by its script. -/
def parentAddress (parent : Sidestr.Parent) (text : Bytes) : Res WalletError Bytes := do
  let network ← Res.okOr (.core (.reservedParent parent.aliasName)) (parentNetwork parent)
  let address ← Res.okOr (.badDestination text) (Addresses.address (Round.trim text))
  Res.okOr (.wrongNetwork text) (address network)

/-- A segwit address under any prefix, as its script. -/
def decodeAddress (text : Bytes) : Option Bytes :=
  (Addresses.segwit text).bind fun (_, version, program) =>
    if version ≤ 16 ∧ 2 ≤ program.length ∧ program.length ≤ 40 then
      some ((if version = 0 then 0 else 0x50 + version) :: UInt8.ofNat program.length :: program)
    else none

/-- A destination: a script in hex, or an address under any prefix. -/
def resolveTo (text : Bytes) : Res WalletError Bytes :=
  let text := Round.trim text
  if text ≠ [] ∧ text.length % 2 = 0 ∧ text.all isHexDigit then
    Res.okOr (.badDestination text) (hexDecode (toLower text))
  else Res.okOr (.badDestination text) (decodeAddress text)

/-- A peg-in's two outputs, ready for what funds and signs the parent transaction. -/
structure PegIn where
  chainId : Bytes
  amount : UInt64
  sideScript : Bytes
  pegAddress : Bytes
  peg : TxOut
  marker : TxOut
  deriving DecidableEq

omit [Addresses] in
/-- `OP_RETURN` with one push of at most 255 bytes. -/
def walletOpReturn (data : Bytes) : Res WalletError Bytes :=
  if 255 < data.length then .err (.markerTooLong data.length) else .ok (opReturn data)

omit [Addresses] in
/-- An error of the core, as the wallet's. -/
def ofCore {α : Type} : Res Error α → Res WalletError α
  | .ok a => .ok a
  | .err e => .err (.core e)
  | .panic => .panic

/-- The peg-in of an amount to a sidechain script or address. -/
def buildPegin (chain : ChainDocument) (pegAddress : Bytes) (amount : UInt64) (to' : Bytes) :
    Res WalletError PegIn := do
  let parent ← ofCore (resolveParent chain.parent)
  let pegScript ← parentAddress parent pegAddress
  if !isP2tr pegScript then .err (.badDestination pegAddress)
  else if amount = 0 then .err .badAmount
  else if amount.toNat < Addresses.minimalNonDust pegScript then
    .err (.dust amount.toNat (Addresses.minimalNonDust pegScript) pegScript)
  else
    let sideScript ← resolveTo to'
    let data := pegMarkerData chain.id sideScript
    if 80 < data.length then .err (.markerTooLong data.length)
    else
      let markerScript ← walletOpReturn data
      .ok ⟨chain.id, amount, sideScript, pegScript, ⟨amount, pegScript⟩, ⟨0, markerScript⟩⟩

theorem resolveTo_ne_nil {text script : Bytes} (h : resolveTo text = .ok script) : script ≠ [] := by
  unfold resolveTo at h
  dsimp only at h
  split_ifs at h with hhex
  · have hlen := length_hexDecode (Res.okOr_eq_ok.mp h)
    have hpos := List.length_pos_iff.mpr hhex.1
    unfold toLower at hlen
    rw [List.length_map] at hlen
    exact List.length_pos_iff.mp (by omega)
  · have hdecoded := Res.okOr_eq_ok.mp h
    unfold decodeAddress at hdecoded
    obtain ⟨⟨hrp, version, program⟩, -, hscript⟩ := Option.bind_eq_some_iff.mp hdecoded
    dsimp only at hscript
    split_ifs at hscript
    all_goals
      rw [← Option.some.inj hscript]
      exact List.cons_ne_nil _ _

/-- A peg-in that is built carries the raw form. -/
theorem buildPegin_ok {chain : ChainDocument} {pegAddress to' : Bytes} {amount : UInt64} {p : PegIn}
    (h : buildPegin chain pegAddress amount to' = .ok p) : p.sideScript ≠ [] ∧
      p.marker.scriptPubkey = opReturn (markerHead chain.id ++ p.sideScript) ∧
      (markerHead chain.id ++ p.sideScript).length ≤ 80 := by
  unfold buildPegin at h
  obtain ⟨parent, -, h⟩ := Res.bind_eq_ok.mp h
  obtain ⟨pegScript, -, h⟩ := Res.bind_eq_ok.mp h
  split_ifs at h
  obtain ⟨side, hside, h⟩ := Res.bind_eq_ok.mp h
  dsimp only at h
  split_ifs at h with hlong
  obtain ⟨script, hscript, h⟩ := Res.bind_eq_ok.mp h
  unfold walletOpReturn at hscript
  split_ifs at hscript
  rw [← Res.ok.inj h, ← Res.ok.inj hscript]
  have hraw : pegMarkerData chain.id side = markerHead chain.id ++ side := by
    have hlen := length_hexEncode side
    unfold pegMarkerData at hlong ⊢
    split_ifs at hlong ⊢ with hfits
    · rfl
    · rw [List.length_append] at hlong
      omega
  dsimp only
  rw [hraw] at hlong ⊢
  exact ⟨resolveTo_ne_nil hside, rfl, Nat.not_lt.mp hlong⟩

/-- **A marker names the script it was made for** exactly when its raw form does
not look like hex: for a peg-in that was built, and for any script whose marker
can be read. -/
theorem peg_marker_reads_iff :
    (∀ (chain : ChainDocument) (pegAddress to' : Bytes) (amount : UInt64) (p : PegIn),
      buildPegin chain pegAddress amount to' = .ok p →
        (parsePegMarker p.marker.scriptPubkey chain.id = some p.sideScript ↔
          ¬ LooksHex p.sideScript)) ∧
    ∀ chainId script : Bytes, script ≠ [] → (pegMarkerData chainId script).length ≤ 255 →
      (parsePegMarker (opReturn (pegMarkerData chainId script)) chainId = some script ↔
        80 < (markerHead chainId).length + script.length ∨ ¬ LooksHex script) := by
  constructor
  · intro chain pegAddress to' amount p h
    obtain ⟨hne, hscript, hlen⟩ := buildPegin_ok h
    rw [hscript]
    exact parsePegMarker_raw hne (by omega)
  · intro chainId script hne hlen
    unfold pegMarkerData at hlen ⊢
    split_ifs at hlen ⊢ with hfits
    · rw [parsePegMarker_raw hne hlen]
      exact Iff.intro Or.inr fun h => h.resolve_left (by omega)
    · exact iff_of_true (parsePegMarker_hex hne hlen) (.inl (by omega))

end

/-- Addresses of the sample: a text of 34 bytes is its script. -/
@[reducible] def sampleAddresses : Addresses where
  segwit text := if text.length = 34 then some (text.take 2, 1, text.drop 2) else none
  address text := if text.length = 34 then some fun _ => some text else none
  minimalNonDust _ := 330

attribute [local instance] sampleAddresses

/-- The peg's address. -/
def samplePegAddress : Bytes := 0x51 :: 0x20 :: List.replicate 32 0x41

/-- The peg-in of a million sats to a script in hex. -/
def samplePegIn (to' : Bytes) : Res WalletError PegIn := buildPegin sampleDoc samplePegAddress 1000000 to'

/-- The script `35 31`, which is the text `51`: the marker is read as `OP_1`. -/
theorem peg_marker_misread : ¬ ∀ (chain : ChainDocument) (pegAddress to' : Bytes) (amount : UInt64)
    (p : PegIn), buildPegin chain pegAddress amount to' = .ok p →
      parsePegMarker p.marker.scriptPubkey chain.id = some p.sideScript := by
  intro hall
  have hbuilt : (samplePegIn (ascii ['3', '5', '3', '1'])).any (fun p =>
      parsePegMarker p.marker.scriptPubkey sampleDoc.id == some [0x51] && p.sideScript == [0x35, 0x31]) =
        true := by decide
  obtain ⟨p, hp, hread⟩ := Res.any_eq_true.mp hbuilt
  rw [Bool.and_eq_true, beq_iff_eq, beq_iff_eq] at hread
  have hsame := hall _ _ _ _ p hp
  rw [hread.1, hread.2] at hsame
  exact absurd hsame (by decide)

set_option maxRecDepth 10000 in
theorem peg_marker_reads_sample : (∃ p, samplePegIn (ascii ['5', '1', '5', '1']) = .ok p ∧
      parsePegMarker p.marker.scriptPubkey sampleDoc.id = some p.sideScript) ∧
    parsePegMarker (opReturn (pegMarkerData [0x61] (List.replicate 75 0x51))) [0x61] =
      some (List.replicate 75 0x51) := by
  have hbuilt : (samplePegIn (ascii ['5', '1', '5', '1'])).any (fun p =>
      p.sideScript == [0x51, 0x51]) = true := by decide
  obtain ⟨p, hp, hside⟩ := Res.any_eq_true.mp hbuilt
  refine ⟨⟨p, hp, (peg_marker_reads_iff.1 _ _ _ _ p hp).mpr ?_⟩, ?_⟩
  · rw [beq_iff_eq.mp hside]
    decide
  · exact (peg_marker_reads_iff.2 [0x61] _ (by decide) (by decide)).mpr (.inl (by decide))

end Wallet

end Sidestr
