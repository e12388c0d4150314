/-
# The federation's seal

A level-2 block is sealed by `k` of `n` signers: the witness spends the one
leaf `multi_a(k, pk_1 … pk_n)` of the challenge (`federation.rs`), and the
block's solution is verified by an interpreter of exactly that template
(`verify_multi_a_input`, `verify_block_solution`).

The leaf is read back as it was written and no other script is read as one.
The slots of a witness are in reverse leaf order; what a run of the leaf over
them accepts is said slot by slot, and the two directions follow: the witness
assembled from the first `k` signatures is accepted, and what is accepted has
exactly `k` of them.

Key definitions: `Taproot`, `TaprootFederation`, `parseMultiA`, `assembleWitness`,
`sealFederated`, `verifyMultiA`, `judgeSolution`.
Key theorems: `parseMultiA_iff`, `checkSlots_accepts`, `checkSlots_ok`,
`sealed_by_threshold`.
-/
import Sidestr.Core.ChannelLeaf
import Sidestr.Core.Sealing

namespace Sidestr

/-- What the leaf takes of rust-bitcoin's taproot. -/
class Taproot where
  /-- `TapLeafHash::from_script` at the tapscript version. -/
  leafHash : Bytes → Hash256
  /-- `add_exp_tweak` of a point: the x coordinate of its sum with the multiple
  of the generator, when the scalar is in range. -/
  addExpTweak : Bytes → Hash256 → Option Bytes
  /-- `tap_tweak` of an internal key by a leaf hash: the output key, and whether
  its point is odd. -/
  tapTweak : Bytes → Hash256 → Bytes × Bool
  /-- `ControlBlock::decode`: the leaf version of the bytes, when they are a
  control block. -/
  leafVersion : Bytes → Option UInt8
  /-- `verify_taproot_commitment` of a control block: the output key, the script. -/
  commits : Bytes → Bytes → Bytes → Bool
  /-- `taproot_signature_hash` of an input by script path: the prevouts, the
  annex, the leaf hash, the hash type. -/
  tapscriptSighash : Transaction → ℕ → List TxOut → Option Bytes → Hash256 → UInt8 → Option Hash256

/-- The most signers a federation may have. -/
def maxSigners : ℕ := 16

/-- A Schnorr signature: 64 bytes. -/
abbrev Signature := { b : Bytes // b.length = 64 }

/-- Why a script-path spend was refused. -/
inductive ScriptPathError where
  | scriptType
  | scriptSig
  | tooFewItems
  | controlBlock
  | commitment
  | leafVersion (version : UInt8)
  | notMultiA
  | slotCount (have' need : ℕ)
  | badSignatureEncoding (slot : ℕ)
  | budget
  | invalidSignature (slot : ℕ)
  | signatureCount (have' need : ℕ)
  deriving DecidableEq

/-- Why a block's solution was refused. -/
inductive SolutionError where
  | noSolution
  | keyPath
  | scriptPath (e : ScriptPathError)
  deriving DecidableEq

section

variable [Bitcoin]

/-! ### The leaf -/

omit [Bitcoin] in
/-- The opcode behind a key: the first is checked, the others are added. -/
def keyOp (first : Bool) : UInt8 := if first then opChecksig else opChecksigadd

/-- Keys at the front, each a push and its opcode, with room for so many. -/
def readKeys : ℕ → Bool → Bytes → Option (List XOnlyPublicKey × Bytes)
  | 0, _, b => if 34 ≤ b.length ∧ b.head? = some 0x20 then none else some ([], b)
  | room + 1, first, b =>
    if 34 ≤ b.length ∧ b.head? = some 0x20 then do
      let pk ← XOnlyPublicKey.fromSlice ((b.drop 1).take 32)
      if b[33]? = some (keyOp first) then do
        let (keys, rest) ← readKeys room false (b.drop 34)
        some (pk :: keys, rest)
      else none
    else some ([], b)

/-- The keys and the threshold of a script that is exactly the template. -/
def parseMultiA (script : Bytes) : Option (List XOnlyPublicKey × ℕ) := do
  let (keys, rest) ← readKeys maxSigners true script
  match rest with
  | [a, c] =>
    if keys ≠ [] ∧ 0x51 ≤ a.toNat ∧ a.toNat ≤ 0x60 ∧ c = 0x9c ∧ a.toNat - 0x50 ≤ keys.length then
      some (keys, a.toNat - 0x50)
    else none
  | _ => none

/-- The federation with what a spend of its leaf shows. -/
structure TaprootFederation where
  signers : List XOnlyPublicKey
  threshold : ℕ
  script : Bytes
  leafHash : Hash256
  internalKey : Bytes
  outputKey : Bytes
  parity : Bool
  controlBlock : Bytes
  deriving DecidableEq

variable [Taproot]

omit [Taproot] in
/-- A hash apart from those of other tags. -/
def tagged (tag msg : Bytes) : Hash256 :=
  let t := displayBytes (Bitcoin.sha256 tag)
  Bitcoin.sha256 (t ++ t ++ msg)

/-- The point with no known discrete logarithm, by its x coordinate. -/
def numsX : Bytes :=
  [0x50, 0x92, 0x9b, 0x74, 0xc1, 0xa0, 0x49, 0x54, 0xb7, 0x8b, 0x4b, 0x60, 0x35, 0xe9, 0x7a, 0x5e,
    0x07, 0x8a, 0x5a, 0x0f, 0x28, 0xec, 0x96, 0xd5, 0x47, 0xbf, 0xee, 0x9a, 0xce, 0x80, 0x3a, 0xc0]

/-- The internal key of a chain, which nobody holds. -/
def numsKey (chainId : Bytes) : Option Bytes :=
  Taproot.addExpTweak (0x02 :: numsX)
    (tagged (ascii ['s', 'i', 'd', 'e', 's', 't', 'r', '/', 'n', 'u', 'm', 's']) chainId)

/-- `0xc0` with the parity bit. -/
def controlByte (parity : Bool) : UInt8 := if parity then 0xc1 else 0xc0

/-- The federation of a chain id, its signers and threshold. -/
def TaprootFederation.new (chainId : Bytes) (signers : List XOnlyPublicKey) (threshold : ℕ) :
    Res Error TaprootFederation := do
  let script ← leafScript (signers.map XOnlyPublicKey.serialize) threshold
  Res.refuseIf (!signers.Nodup) (.federation "a signer is listed twice")
  let leafHash := Taproot.leafHash script
  let internalKey ← Res.okOr (.federation "nums derivation failed") (numsKey chainId)
  let (outputKey, parity) := Taproot.tapTweak internalKey leafHash
  .ok { signers, threshold, script, leafHash, internalKey, outputKey, parity,
        controlBlock := controlByte parity :: internalKey }

omit [Taproot] in
def TaprootFederation.challenge (fed : TaprootFederation) : Bytes := challengeFor fed.outputKey

/-! ### Sealing -/

variable {H : Type} [HeaderFamily H]

/-- What a signer signs: the leaf's signature hash of the virtual transaction. -/
def blockSighashFor (block : Block H) (fed : TaprootFederation) : Res Error Hash256 := do
  let data ← blockData block
  let (toSign, prevout) := virtualTxs data fed.challenge []
  Res.okOr (.block "sighash failed")
    (Taproot.tapscriptSighash toSign 0 [prevout] none fed.leafHash 0)

/-- Whether a signature is a key's partial signature over a block. -/
def verifyPartial (block : Block H) (fed : TaprootFederation) (pubkey : XOnlyPublicKey)
    (sig : Signature) : Res Error Bool :=
  match blockSighashFor block fed with
  | .ok msg => .ok (Bitcoin.schnorrVerify msg sig.1 pubkey.serialize)
  | .err _ => .ok false
  | .panic => .panic

omit [Taproot] in
/-- The first `k` signers, in leaf order, whose signatures are there. -/
def TaprootFederation.chosen (fed : TaprootFederation) (sigs : Map XOnlyPublicKey Signature) :
    List XOnlyPublicKey :=
  (fed.signers.filter fun pk => (sigs.lookup pk).isSome).take fed.threshold

omit [Taproot] in
/-- A signer's slot: its signature, when it is one of these. -/
def TaprootFederation.slotOf (fed : TaprootFederation) (sigs : Map XOnlyPublicKey Signature)
    (pk : XOnlyPublicKey) : Bytes :=
  if pk ∈ fed.chosen sigs then ((sigs.lookup pk).map Subtype.val).getD [] else []

omit [Taproot] in
/-- The witness of the signatures that have arrived: the slots in reverse leaf
order, the leaf, the control block. -/
def assembleWitness (fed : TaprootFederation) (sigs : Map XOnlyPublicKey Signature) :
    Res Error (List Bytes) :=
  let present := fed.signers.filter fun pk => (sigs.lookup pk).isSome
  if present.length < fed.threshold then .err (.federation "too few signatures")
  else .ok ((fed.signers.map (fed.slotOf sigs)).reverse ++ [fed.script, fed.controlBlock])

omit [Taproot] in
/-- A block sealed with `k` of `n` signatures. -/
def sealFederated (block : Block H) (fed : TaprootFederation) (sigs : Map XOnlyPublicKey Signature) :
    Res Error (Block H) := do
  let witness ← assembleWitness fed sigs
  sealBlock block witness

/-! ### Verifying -/

/-- What a verified spend of the leaf showed: the slots that carried a
signature, in leaf order. -/
structure MultiA where
  signers : List XOnlyPublicKey
  threshold : ℕ
  signed : List Bool
  deriving DecidableEq

omit [Bitcoin] [Taproot] in
/-- A slot's signature and hash type: 64 bytes, or 65 with a defined type that
is not zero. -/
def splitTapscriptSig (raw : Bytes) : Option (Bytes × UInt8) :=
  if raw.length = 64 then some (raw, 0)
  else if raw.length = 65 then
    let t := (raw.getLast?).getD 0
    if t ∈ [0x01, 0x02, 0x03, 0x81, 0x82, 0x83] then some (raw.take 64, t) else none
  else none

omit [Taproot] in
/-- The leaf run over its slots, each against its key, from a budget: which of
them carried a signature. -/
def checkSlots (msg : UInt8 → Option Hash256) :
    ℕ → ℤ → List (XOnlyPublicKey × Bytes) → Except ScriptPathError (List Bool)
  | _, _, [] => .ok []
  | slot, budget, (pk, raw) :: rest =>
    if raw = [] then do
      let signed ← checkSlots msg (slot + 1) budget rest
      .ok (false :: signed)
    else
      match splitTapscriptSig raw with
      | none => .error (.badSignatureEncoding slot)
      | some (sig, hashType) =>
        if budget - 50 < 0 then .error .budget
        else
          match msg hashType with
          | none => .error (.badSignatureEncoding slot)
          | some m =>
            if Bitcoin.schnorrVerify m sig pk.serialize then do
              let signed ← checkSlots msg (slot + 1) (budget - 50) rest
              .ok (true :: signed)
            else .error (.invalidSignature slot)

omit [Bitcoin] [Taproot] in
/-- The serialised size of a witness, as the budget counts it. -/
def witnessSize (items : List Bytes) : ℕ :=
  (items.map fun w => w.length +
    (if w.length ≤ 0xfc then 1 else if w.length ≤ 0xffff then 3 else 5)).sum + 1

/-- The script, the control block and the slots of a witness without its annex. -/
def verifyItems (tx : Transaction) (index : ℕ) (prevouts : List TxOut) (annex : Option Bytes)
    (size : ℕ) (outputKey : Bytes) (slots : List Bytes) (script control : Bytes) :
    Except ScriptPathError MultiA :=
  match Taproot.leafVersion control with
  | none => .error .controlBlock
  | some version =>
    if !Bitcoin.isXOnly outputKey then .error .scriptType
    else if !Taproot.commits control outputKey script then .error .commitment
    else if version ≠ 0xc0 then .error (.leafVersion version)
    else
      match parseMultiA script with
      | none => .error .notMultiA
      | some (signers, threshold) =>
        if slots.length ≠ signers.length then .error (.slotCount slots.length signers.length)
        else
          -- the first key takes the top of the stack, which is the last slot
          match checkSlots
              (Taproot.tapscriptSighash tx index prevouts annex (Taproot.leafHash script)) 0
              (50 + size) (signers.zip slots.reverse) with
          | .error e => .error e
          | .ok signed =>
            if signed.count true ≠ threshold then
              .error (.signatureCount (signed.count true) threshold)
            else .ok ⟨signers, threshold, signed⟩

/-- One input verified as a script-path spend of exactly the leaf. -/
def verifyMultiA (tx : Transaction) (index : ℕ) (prevouts : List TxOut) :
    Except ScriptPathError MultiA :=
  match prevouts[index]?, tx.input[index]? with
  | some prevout, some input =>
    if !isP2tr prevout.scriptPubkey then .error .scriptType
    else if !input.scriptSig.isEmpty then .error .scriptSig
    else
      match (withoutAnnex input.witness).reverse with
      | control :: script :: slots =>
        verifyItems tx index prevouts (annexOf input.witness) (witnessSize input.witness)
          ((prevout.scriptPubkey.drop 2).take 32) slots.reverse script control
      | _ => .error .tooFewItems
  | _, _ => .error .scriptType

/-- How a block's solution satisfied the challenge. -/
inductive BlockSolution where
  | keyPath
  | scriptPath (m : MultiA)
  deriving DecidableEq

/-- The block's solution judged against the challenge, with what it showed. -/
def judgeSolution (block : Block H) (challenge : Bytes) :
    Res Error (Except SolutionError BlockSolution) :=
  match solutionOf block with
  | none => .ok (.error .noSolution)
  | some witness => do
    let data ← blockData block
    let (toSign, prevout) := virtualTxs data challenge witness
    if (withoutAnnex witness).length ≤ 1 then
      .ok (if verifyTaprootKeyPath toSign 0 [prevout] .bip341 then .ok .keyPath
        else .error .keyPath)
    else
      .ok (match verifyMultiA toSign 0 [prevout] with
        | .ok m => .ok (.scriptPath m)
        | .error e => .error (.scriptPath e))

end

/-! ### The leaf is read back -/

section

variable [Bitcoin]

theorem XOnlyPublicKey.fromSlice_serialize (pk : XOnlyPublicKey) :
    XOnlyPublicKey.fromSlice pk.serialize = some pk := dif_pos ⟨pk.length, pk.valid⟩

theorem XOnlyPublicKey.fromSlice_some {b : Bytes} {pk : XOnlyPublicKey}
    (h : XOnlyPublicKey.fromSlice b = some pk) : b = pk.serialize := by
  unfold XOnlyPublicKey.fromSlice at h
  split_ifs at h
  rw [← Option.some.inj h]

/-- The keys of a leaf. -/
def keysScript : Bool → List XOnlyPublicKey → Bytes
  | _, [] => []
  | first, pk :: keys =>
    0x20 :: (pk.serialize ++ keyOp first :: keysScript false keys)

theorem flatMap_zipIdx_succ : ∀ (keys : List XOnlyPublicKey) (i : ℕ),
    (((keys.map XOnlyPublicKey.serialize).zipIdx (i + 1)).flatMap fun (pk, i) =>
      0x20 :: pk ++ [if i = 0 then (0xac : UInt8) else 0xba]) = keysScript false keys
  | [], _ => rfl
  | pk :: keys, i => by
    rw [List.map_cons, List.zipIdx_cons, List.flatMap_cons, flatMap_zipIdx_succ keys (i + 1)]
    simp [keysScript, keyOp, opChecksigadd]

/-- **What the leaf of some signers is.** -/
theorem leafScript_eq_ok {keys : List XOnlyPublicKey} {k : ℕ} {script : Bytes} :
    leafScript (keys.map XOnlyPublicKey.serialize) k = .ok script ↔
      keys ≠ [] ∧ keys.length ≤ maxSigners ∧ 0 < k ∧ k ≤ keys.length ∧
        script = keysScript true keys ++ [UInt8.ofNat (0x50 + k), 0x9c] := by
  have hkeys : ((keys.map XOnlyPublicKey.serialize).zipIdx.flatMap fun (pk, i) =>
      0x20 :: pk ++ [if i = 0 then (0xac : UInt8) else 0xba]) = keysScript true keys := by
    cases keys with
    | nil => rfl
    | cons pk keys =>
      rw [List.map_cons, List.zipIdx_cons, List.flatMap_cons, flatMap_zipIdx_succ keys 0]
      simp [keysScript, keyOp, opChecksig]
  have hmax : maxSigners = 16 := rfl
  unfold leafScript
  rw [hkeys, List.length_map]
  split_ifs with h1 h2
  · rw [List.map_eq_nil_iff] at h1
    refine iff_of_false (by simp) fun h => ?_
    rcases h1 with h1 | h1
    · exact h.1 h1
    · omega
  · refine iff_of_false (by simp) fun h => ?_
    omega
  · rw [List.map_eq_nil_iff, not_or] at h1
    rw [Res.ok.injEq]
    constructor
    · exact fun h => ⟨h1.1, by omega, by omega, by omega, h.symm⟩
    · exact fun h => h.2.2.2.2.symm

theorem readKeys_keysScript : ∀ {keys : List XOnlyPublicKey} {room : ℕ} {first : Bool}
    {rest : Bytes}, keys.length ≤ room → rest.length < 34 →
      readKeys room first (keysScript first keys ++ rest) = some (keys, rest)
  | [], room, first, rest, _, hrest => by
    have hshort : ¬ (34 ≤ (keysScript first [] ++ rest).length ∧
        (keysScript first [] ++ rest).head? = some 0x20) := fun h => by
      have hlen := h.1
      simp only [keysScript, List.nil_append] at hlen
      omega
    cases room with
    | zero =>
      unfold readKeys
      rw [if_neg hshort]
      rfl
    | succ room =>
      unfold readKeys
      rw [if_neg hshort]
      rfl
  | pk :: keys, 0, _, _, hroom, _ => by simp at hroom
  | pk :: keys, room + 1, first, rest, hroom, hrest => by
    have hsplit : keysScript first (pk :: keys) ++ rest =
        0x20 :: (pk.serialize ++ (keyOp first ::
          (keysScript false keys ++ rest))) := by
      simp [keysScript]
    have h32 := pk.length
    rw [hsplit]
    unfold readKeys
    rw [if_pos ⟨by simp [h32]; omega, rfl⟩, List.drop_succ_cons, List.drop_zero, ← h32, List.take_left,
      XOnlyPublicKey.fromSlice_serialize, Option.bind_eq_bind, Option.bind_some]
    have hop : (0x20 :: (pk.serialize ++ (keyOp first ::
        (keysScript false keys ++ rest))) : Bytes)[33]? = some (keyOp first) := by
      rw [List.getElem?_cons_succ, List.getElem?_append_right (by omega), h32]
      rfl
    have hdrop : (0x20 :: (pk.serialize ++ (keyOp first ::
        (keysScript false keys ++ rest))) : Bytes).drop 34 = keysScript false keys ++ rest := by
      rw [List.drop_succ_cons, List.drop_append, h32]
      simp [List.drop_eq_nil_of_le, h32]
    rw [if_pos hop, hdrop, readKeys_keysScript (by simpa using hroom) hrest, Option.bind_eq_bind,
      Option.bind_some]

theorem readKeys_some : ∀ {room : ℕ} {first : Bool} {b rest : Bytes}
    {keys : List XOnlyPublicKey}, readKeys room first b = some (keys, rest) →
      b = keysScript first keys ++ rest ∧ keys.length ≤ room
  | 0, first, b, rest, keys, h => by
    unfold readKeys at h
    split_ifs at h
    cases h
    exact ⟨rfl, le_rfl⟩
  | room + 1, first, b, rest, keys, h => by
    unfold readKeys at h
    by_cases hkey : 34 ≤ b.length ∧ b.head? = some 0x20
    · rw [if_pos hkey] at h
      obtain ⟨pk, hpk, h⟩ := Option.bind_eq_some_iff.mp h
      by_cases hop : b[33]? = some (keyOp first)
      case neg =>
        rw [if_neg hop] at h
        cases h
      rw [if_pos hop] at h
      obtain ⟨⟨keys', rest'⟩, hrest, h⟩ := Option.bind_eq_some_iff.mp h
      cases h
      obtain ⟨hb, hlen⟩ := readKeys_some hrest
      refine ⟨?_, by simpa using hlen⟩
      obtain ⟨a, l, rfl⟩ : ∃ a l, b = a :: l := List.exists_cons_of_length_pos (by omega)
      have ha := hkey.2
      rw [List.head?_cons, Option.some.injEq] at ha
      rw [List.drop_succ_cons, List.drop_zero] at hpk
      rw [List.getElem?_cons_succ] at hop
      rw [List.drop_succ_cons] at hb
      have hdrop : l.drop 32 = keyOp first :: l.drop 33 := by
        obtain ⟨hlt, hget⟩ := List.getElem?_eq_some_iff.mp hop
        rw [List.drop_eq_getElem_cons hlt, hget]
      have hl : l = pk.serialize ++ (keyOp first :: l.drop 33) := by
        rw [← hdrop, ← XOnlyPublicKey.fromSlice_some hpk, List.take_append_drop]
      rw [ha, hl, hb]
      simp [keysScript]
    · rw [if_neg hkey] at h
      cases h
      exact ⟨rfl, Nat.zero_le _⟩

/-- **The template is read exactly**: a script is read as the leaf of some
signers and a threshold when it is that leaf. -/
theorem parseMultiA_iff {keys : List XOnlyPublicKey} {k : ℕ} {script : Bytes} :
    parseMultiA script = some (keys, k) ↔
      leafScript (keys.map XOnlyPublicKey.serialize) k = .ok script := by
  have hmax : maxSigners = 16 := rfl
  rw [leafScript_eq_ok]
  constructor
  · intro h
    unfold parseMultiA at h
    obtain ⟨⟨keys', rest⟩, hkeys, h⟩ := Option.bind_eq_some_iff.mp h
    obtain ⟨hscript, hlen⟩ := readKeys_some hkeys
    dsimp only at h
    split at h
    · rename_i a c
      split_ifs at h with hok
      cases h
      obtain ⟨hne, hlow, hhigh, hnum, hle⟩ := hok
      refine ⟨hne, hlen, by omega, hle, ?_⟩
      have ha : UInt8.ofNat (0x50 + (a.toNat - 0x50)) = a := by
        rw [Nat.add_sub_cancel' (by omega), UInt8.ofNat_toNat]
      rw [hscript, ha, hnum]
    · simp at h
  · rintro ⟨hne, hlen, hpos, hle, rfl⟩
    have hbyte : (UInt8.ofNat (0x50 + k)).toNat = 0x50 + k := by
      rw [UInt8.toNat_ofNat']
      omega
    unfold parseMultiA
    rw [readKeys_keysScript hlen (by simp), Option.bind_eq_bind, Option.bind_some]
    dsimp only
    rw [hbyte, if_pos ⟨hne, by omega, by omega, rfl, by omega⟩]
    simp

/-! ### A run of the leaf -/

/-- A slot carries a signature of its key. -/
def SlotSigned (msg : UInt8 → Option Hash256) (pk : XOnlyPublicKey) (raw : Bytes) : Prop :=
  ∃ sig hashType m, splitTapscriptSig raw = some (sig, hashType) ∧ msg hashType = some m ∧
    Bitcoin.schnorrVerify m sig pk.serialize = true

/-- What a run accepts: every slot is empty or signed by its key. -/
theorem checkSlots_ok {msg : UInt8 → Option Hash256} : ∀ {l : List (XOnlyPublicKey × Bytes)}
    {slot : ℕ} {budget : ℤ} {signed : List Bool}, checkSlots msg slot budget l = .ok signed →
      signed = l.map (fun p => decide (p.2 ≠ [])) ∧ ∀ p ∈ l, p.2 ≠ [] → SlotSigned msg p.1 p.2
  | [], _, _, _, h => by
    cases h
    exact ⟨rfl, fun p hp => by cases hp⟩
  | (pk, raw) :: rest, slot, budget, signed, h => by
    unfold checkSlots at h
    rw [List.map_cons, List.forall_mem_cons]
    by_cases hraw : raw = []
    · rw [if_pos hraw] at h
      cases hrest : checkSlots msg (slot + 1) budget rest with
      | error e =>
        rw [hrest] at h
        cases h
      | ok signed' =>
        rw [hrest] at h
        cases h
        obtain ⟨rfl, hall⟩ := checkSlots_ok hrest
        exact ⟨by simp [hraw], fun hne => absurd hraw hne, hall⟩
    · rw [if_neg hraw] at h
      cases hsplit : splitTapscriptSig raw with
      | none =>
        rw [hsplit] at h
        cases h
      | some q =>
        obtain ⟨sig, hashType⟩ := q
        rw [hsplit] at h
        dsimp only at h
        by_cases hbudget : budget - 50 < 0
        · rw [if_pos hbudget] at h
          cases h
        rw [if_neg hbudget] at h
        cases hmsg : msg hashType with
        | none =>
          rw [hmsg] at h
          cases h
        | some m =>
          rw [hmsg] at h
          dsimp only at h
          by_cases hver : Bitcoin.schnorrVerify m sig pk.serialize = true
          case neg =>
            rw [if_neg hver] at h
            cases h
          rw [if_pos hver] at h
          cases hrest : checkSlots msg (slot + 1) (budget - 50) rest with
          | error e =>
            rw [hrest] at h
            cases h
          | ok signed' =>
            rw [hrest] at h
            cases h
            obtain ⟨rfl, hall⟩ := checkSlots_ok hrest
            exact ⟨by simp [hraw], fun _ => ⟨sig, hashType, m, hsplit, hmsg, hver⟩, hall⟩

/-- Slots that are empty or signed are accepted within their budget. -/
theorem checkSlots_accepts {msg : UInt8 → Option Hash256} :
    ∀ {l : List (XOnlyPublicKey × Bytes)} (slot : ℕ) (budget : ℤ),
      (∀ p ∈ l, p.2 ≠ [] → SlotSigned msg p.1 p.2) →
      (50 * l.countP (fun p => decide (p.2 ≠ [])) : ℕ) ≤ budget →
      checkSlots msg slot budget l = .ok (l.map fun p => decide (p.2 ≠ []))
  | [], _, _, _, _ => rfl
  | (pk, raw) :: rest, slot, budget, hall, hbudget => by
    rw [List.forall_mem_cons] at hall
    unfold checkSlots
    by_cases hraw : raw = []
    · have hcount : (50 * rest.countP (fun p => decide (p.2 ≠ [])) : ℕ) ≤ budget := by
        rw [List.countP_cons_of_neg (by simp [hraw])] at hbudget
        exact hbudget
      rw [if_pos hraw, checkSlots_accepts (slot + 1) budget hall.2 hcount]
      simp [hraw]
      rfl
    · obtain ⟨sig, hashType, m, hsplit, hmsg, hver⟩ := hall.1 hraw
      rw [List.countP_cons_of_pos (by simp [hraw])] at hbudget
      have hcount : (50 * rest.countP (fun p => decide (p.2 ≠ [])) : ℕ) ≤ budget - 50 := by
        push_cast at hbudget ⊢
        omega
      have hleft : ¬ budget - 50 < 0 := by omega
      rw [if_neg hraw, hsplit]
      dsimp only
      rw [if_neg hleft, hmsg]
      dsimp only
      rw [if_pos hver, checkSlots_accepts (slot + 1) (budget - 50) hall.2 hcount]
      simp [hraw]
      rfl

omit [Bitcoin] in
/-- The witness pays for its signatures. -/
theorem countP_le_witnessSize : ∀ (slots : List Bytes), (∀ w ∈ slots, w ≠ [] → w.length = 64) →
    50 * slots.countP (fun w => decide (w ≠ [])) ≤ (slots.map fun w => w.length +
      (if w.length ≤ 0xfc then 1 else if w.length ≤ 0xffff then 3 else 5)).sum
  | [], _ => le_rfl
  | w :: slots, h => by
    rw [List.forall_mem_cons] at h
    have ih := countP_le_witnessSize slots h.2
    rw [List.map_cons, List.sum_cons]
    by_cases hw : w = []
    · rw [List.countP_cons_of_neg (by simp [hw])]
      omega
    · rw [List.countP_cons_of_pos (by simp [hw]), h.1 hw]
      omega

omit [Bitcoin] in
/-- An annex is the last item, and the rest is before it. -/
theorem withoutAnnex_append (items : List Bytes) :
    withoutAnnex items ++ (annexOf items).toList = items := by
  unfold withoutAnnex
  cases hannex : annexOf items with
  | none => simp
  | some a =>
    have hlast : items.getLast? = some a := by
      unfold annexOf at hannex
      split_ifs at hannex
      split at hannex
      · rename_i last hlast
        split_ifs at hannex
        rw [hlast, Option.some.inj hannex]
      · cases hannex
    simpa using List.dropLast_append_getLast? a hlast

end

/-! ### The seal accepted -/

section

variable [Bitcoin] [Taproot]

/-- What rust-bitcoin documents of taproot: a signature hash is not over the
witnesses, a tweaked key is a key, and the control block of a tree of one leaf
is its key with the parity of the output key, which it commits the leaf to. -/
class LawfulTaproot : Prop where
  sighash_stripped : ∀ (tx : Transaction) (index : ℕ) (prevouts : List TxOut)
    (annex : Option Bytes) (leaf : Hash256) (hashType : UInt8),
    Taproot.tapscriptSighash tx.stripped index prevouts annex leaf hashType =
      Taproot.tapscriptSighash tx index prevouts annex leaf hashType
  tweaked : ∀ (chainId internalKey : Bytes) (leaf : Hash256), numsKey chainId = some internalKey →
    (Taproot.tapTweak internalKey leaf).1.length = 32 ∧
      Bitcoin.isXOnly (Taproot.tapTweak internalKey leaf).1 = true
  control : ∀ (chainId internalKey script : Bytes), numsKey chainId = some internalKey →
    Taproot.leafVersion
        (controlByte (Taproot.tapTweak internalKey (Taproot.leafHash script)).2 :: internalKey) =
      some 0xc0 ∧
    Taproot.commits
        (controlByte (Taproot.tapTweak internalKey (Taproot.leafHash script)).2 :: internalKey)
        (Taproot.tapTweak internalKey (Taproot.leafHash script)).1 script = true

/-- What a federation is made of. -/
structure TaprootFederation.Made (fed : TaprootFederation) : Prop where
  parses : parseMultiA fed.script = some (fed.signers, fed.threshold)
  apart : fed.signers.Nodup
  few : fed.signers.length ≤ maxSigners
  positive : 0 < fed.threshold
  enough : fed.threshold ≤ fed.signers.length
  leafHash : fed.leafHash = Taproot.leafHash fed.script
  outputLength : fed.outputKey.length = 32
  outputKey : Bitcoin.isXOnly fed.outputKey = true
  version : Taproot.leafVersion fed.controlBlock = some 0xc0
  commits : Taproot.commits fed.controlBlock fed.outputKey fed.script = true
  notAnnex : fed.controlBlock.head? ≠ some 0x50

theorem TaprootFederation.made [LawfulTaproot] {chainId : Bytes} {signers : List XOnlyPublicKey}
    {threshold : ℕ} {fed : TaprootFederation}
    (h : TaprootFederation.new chainId signers threshold = .ok fed) :
    fed.signers = signers ∧ fed.threshold = threshold ∧ fed.Made := by
  unfold TaprootFederation.new at h
  obtain ⟨script, hscript, h⟩ := Res.bind_eq_ok.mp h
  obtain ⟨_, hapart, h⟩ := Res.bind_eq_ok.mp h
  obtain ⟨internalKey, hnums, h⟩ := Res.bind_eq_ok.mp h
  rw [Res.okOr_eq_ok] at hnums
  rw [Res.refuseIf_eq_ok] at hapart
  cases h
  obtain ⟨hlen, hkey⟩ := LawfulTaproot.tweaked chainId internalKey (Taproot.leafHash script) hnums
  obtain ⟨hversion, hcommits⟩ := LawfulTaproot.control chainId internalKey script hnums
  obtain ⟨-, hfew, hpos, hle, -⟩ := leafScript_eq_ok.mp hscript
  refine ⟨rfl, rfl, parseMultiA_iff.mpr hscript, by simpa using hapart, hfew, hpos, hle, rfl, hlen,
    hkey, hversion, hcommits, ?_⟩
  show some (controlByte _) ≠ some 0x50
  unfold controlByte
  split_ifs <;> decide

/-- The challenge is the taproot output of the output key. -/
theorem TaprootFederation.Made.challenge {fed : TaprootFederation} (h : fed.Made) :
    isP2tr fed.challenge = true ∧ (fed.challenge.drop 2).take 32 = fed.outputKey := by
  have hlen := h.outputLength
  unfold TaprootFederation.challenge challengeFor isP2tr
  constructor
  · simp [hlen]
  · simp [hlen]

section

variable {fed : TaprootFederation} {tx : Transaction} {index size : ℕ} {prevouts : List TxOut}
  {annex : Option Bytes} {slots : List Bytes}

/-- The leaf with as many signed slots as it needs is accepted. -/
theorem verifyItems_accepts (tx : Transaction) (index : ℕ) (prevouts : List TxOut)
    (annex : Option Bytes) (hm : fed.Made) (hlen : slots.length = fed.signers.length)
    (hall : ∀ p ∈ fed.signers.zip slots.reverse, p.2 ≠ [] →
      SlotSigned (Taproot.tapscriptSighash tx index prevouts annex fed.leafHash) p.1 p.2)
    (hbudget : 50 * (fed.signers.zip slots.reverse).countP (fun p => decide (p.2 ≠ [])) ≤ size)
    (hcount : ((fed.signers.zip slots.reverse).map fun p => decide (p.2 ≠ [])).count true =
      fed.threshold) :
    verifyItems tx index prevouts annex size fed.outputKey slots fed.script fed.controlBlock =
      .ok ⟨fed.signers, fed.threshold,
        (fed.signers.zip slots.reverse).map fun p => decide (p.2 ≠ [])⟩ := by
  rw [hm.leafHash] at hall
  have hslots := checkSlots_accepts 0 (50 + size) hall (by push_cast; omega)
  unfold verifyItems
  rw [hm.version]
  dsimp only
  rw [hm.outputKey, hm.commits, hm.parses]
  dsimp only
  rw [hslots]
  dsimp only
  rw [if_neg (by simp), if_neg (by simp), if_neg (by simp), if_neg (not_not.mpr hlen),
    if_neg (not_not.mpr hcount)]

/-- What is accepted for the output key of a federation whose leaf alone commits
to it: as many slots as signers, each empty or signed by its key, and exactly
as many signed as the threshold. -/
theorem verifyItems_ok (hm : fed.Made) {script control : Bytes} {m : MultiA}
    (honly : ∀ control script, Taproot.commits control fed.outputKey script = true →
      script = fed.script)
    (h : verifyItems tx index prevouts annex size fed.outputKey slots script control = .ok m) :
    script = fed.script ∧ slots.length = fed.signers.length ∧
      m = ⟨fed.signers, fed.threshold,
        (fed.signers.zip slots.reverse).map fun p => decide (p.2 ≠ [])⟩ ∧
      m.signed.count true = fed.threshold ∧
      ∀ p ∈ fed.signers.zip slots.reverse, p.2 ≠ [] →
        SlotSigned (Taproot.tapscriptSighash tx index prevouts annex fed.leafHash) p.1 p.2 := by
  unfold verifyItems at h
  cases hversion : Taproot.leafVersion control with
  | none =>
    rw [hversion] at h
    cases h
  | some version =>
    rw [hversion, hm.outputKey] at h
    dsimp only at h
    by_cases hcommits : Taproot.commits control fed.outputKey script = true
    case neg =>
      rw [Bool.not_eq_true] at hcommits
      rw [hcommits] at h
      cases h
    have hscript := honly control script hcommits
    subst hscript
    rw [hcommits, hm.parses] at h
    simp only [Bool.not_true, Bool.false_eq_true, if_false] at h
    by_cases hc0 : version = 0xc0
    case neg =>
      rw [if_pos hc0] at h
      cases h
    by_cases hlen : slots.length = fed.signers.length
    case neg =>
      rw [if_neg (not_not.mpr hc0), if_pos hlen] at h
      cases h
    rw [if_neg (not_not.mpr hc0), if_neg (not_not.mpr hlen)] at h
    rw [← hm.leafHash] at h
    cases hrun : checkSlots (Taproot.tapscriptSighash tx index prevouts annex fed.leafHash) 0
        (50 + size) (fed.signers.zip slots.reverse) with
    | error e =>
      rw [hrun] at h
      cases h
    | ok signed =>
      rw [hrun] at h
      dsimp only at h
      obtain ⟨rfl, hall⟩ := checkSlots_ok hrun
      split_ifs at h with hcount
      cases h
      exact ⟨rfl, hlen, rfl, not_not.mp hcount, hall⟩

end

/-- The virtual transaction's witness is taken apart from its end. -/
theorem verifyMultiA_virtual {fed : TaprootFederation} (hm : fed.Made) {data : Hash256}
    {witness slots : List Bytes} {script control : Bytes}
    (hitems : withoutAnnex witness = slots ++ [script, control]) :
    verifyMultiA (virtualTxs data fed.challenge witness).1 0
        [(virtualTxs data fed.challenge witness).2] =
      verifyItems (virtualTxs data fed.challenge witness).1 0
        [(virtualTxs data fed.challenge witness).2] (annexOf witness) (witnessSize witness)
        fed.outputKey slots script control := by
  obtain ⟨hp2tr, hkey⟩ := hm.challenge
  unfold verifyMultiA
  have hprevout : [(virtualTxs data fed.challenge witness).2][0]? =
      some ⟨0, fed.challenge⟩ := rfl
  have hinput : (virtualTxs data fed.challenge witness).1.input[0]?.map TxIn.witness =
      some witness := rfl
  unfold virtualTxs
  simp [hp2tr, hitems, hkey]

omit [Bitcoin] [Taproot] in
/-- A list of two or more is a list and two more. -/
theorem exists_append_pair {l : List Bytes} (h : 2 ≤ l.length) :
    ∃ slots script control, l = slots ++ [script, control] := by
  obtain ⟨front, control, rfl⟩ := List.eq_nil_or_concat' l |>.resolve_left (by
    rintro rfl
    simp at h)
  obtain ⟨slots, script, rfl⟩ := List.eq_nil_or_concat' front |>.resolve_left (by
    rintro rfl
    simp at h)
  exact ⟨slots, script, control, by simp⟩

/-! ### Both directions -/

variable {H : Type} [HeaderFamily H]

/-- A block sealed with exactly the threshold of slots of a federation, each
signed by the key of its place over the block's data. -/
def SealedBy (fed : TaprootFederation) (block : Block H) (m : MultiA) : Prop :=
  ∃ data slots control annex, blockData block = .ok data ∧
    solutionOf block = some (slots ++ [fed.script, control] ++ annex.toList) ∧
    slots.length = fed.signers.length ∧
    slots.countP (fun w => decide (w ≠ [])) = fed.threshold ∧
    m = ⟨fed.signers, fed.threshold, slots.reverse.map fun w => decide (w ≠ [])⟩ ∧
    ∀ p ∈ fed.signers.zip slots.reverse, p.2 ≠ [] →
      SlotSigned (Taproot.tapscriptSighash
        (virtualTxs data fed.challenge (slots ++ [fed.script, control] ++ annex.toList)).1 0
        [(virtualTxs data fed.challenge (slots ++ [fed.script, control] ++ annex.toList)).2] annex
        fed.leafHash) p.1 p.2

omit [Bitcoin] [Taproot] in
theorem map_zip_snd {α β γ : Type} (f : β → γ) (l : List α) (l' : List β)
    (h : l'.length = l.length) : (l.zip l').map (fun p => f p.2) = l'.map f := by
  have hsnd : (l.zip l').map Prod.snd = l' := List.map_snd_zip (by omega)
  calc (l.zip l').map (fun p => f p.2)
      = ((l.zip l').map Prod.snd).map f := (List.map_map ..).symm
    _ = l'.map f := by rw [hsnd]

omit [Bitcoin] [Taproot] in
theorem count_true_map {α : Type} (q : α → Bool) (l : List α) : (l.map q).count true = l.countP q := by
  rw [List.count_eq_countP, List.countP_map]
  exact List.countP_congr fun a _ => by simp

/-- **What is accepted is sealed by the threshold.** -/
theorem sealedBy_of_judged {fed : TaprootFederation} (hm : fed.Made) {block : Block H}
    {r : BlockSolution} (honly : ∀ control script, Taproot.commits control fed.outputKey script =
      true → script = fed.script)
    (h : judgeSolution block fed.challenge = .ok (.ok r)) (hr : r ≠ .keyPath) :
    ∃ m, r = .scriptPath m ∧ SealedBy fed block m := by
  unfold judgeSolution at h
  cases hsol : solutionOf block with
  | none =>
    rw [hsol] at h
    cases h
  | some witness =>
    rw [hsol] at h
    obtain ⟨data, hdata, h⟩ := Res.bind_eq_ok.mp h
    dsimp only at h
    by_cases hone : (withoutAnnex witness).length ≤ 1
    · rw [if_pos hone] at h
      split_ifs at h
      · cases h
        exact absurd rfl hr
      · cases h
    · rw [if_neg hone] at h
      obtain ⟨slots, script, control, hitems⟩ := exists_append_pair (by omega : 2 ≤
        (withoutAnnex witness).length)
      rw [verifyMultiA_virtual hm hitems] at h
      rcases hrun : verifyItems (virtualTxs data fed.challenge witness).1 0
        [(virtualTxs data fed.challenge witness).2] (annexOf witness) (witnessSize witness)
        fed.outputKey slots script control with e | m
      · rw [hrun] at h
        cases h
      · rw [hrun] at h
        cases h
        obtain ⟨rfl, hlen, hm', hcount, hall⟩ := verifyItems_ok hm honly hrun
        have hwitness : witness = slots ++ [fed.script, control] ++ (annexOf witness).toList := by
          rw [← hitems]
          exact (withoutAnnex_append witness).symm
        have hmap := map_zip_snd (fun w : Bytes => decide (w ≠ [])) fed.signers slots.reverse
          (by rw [List.length_reverse, hlen])
        refine ⟨m, rfl, data, slots, control, annexOf witness, hdata, ?_, hlen, ?_, ?_, ?_⟩
        · rw [← hwitness]
          exact hsol
        · rw [hm'] at hcount
          dsimp only at hcount
          rw [hmap, count_true_map, List.countP_reverse] at hcount
          exact hcount
        · rw [hm', hmap]
        · rw [← hwitness]
          exact hall

section

variable {fed : TaprootFederation} {sigs : Map XOnlyPublicKey Signature} {pk : XOnlyPublicKey}

omit [Taproot] in
theorem mem_chosen (h : pk ∈ fed.chosen sigs) :
    pk ∈ fed.signers ∧ ∃ sig, sigs.lookup pk = some sig := by
  have hmem := List.mem_of_mem_take h
  rw [List.mem_filter] at hmem
  exact ⟨hmem.1, Option.isSome_iff_exists.mp hmem.2⟩

omit [Taproot] in
theorem slotOf_chosen {sig : Signature} (h : pk ∈ fed.chosen sigs) (hsig : sigs.lookup pk = some sig) :
    fed.slotOf sigs pk = sig.1 := by
  unfold TaprootFederation.slotOf
  rw [if_pos h, hsig]
  rfl

omit [Taproot] in
/-- A slot is filled when its signer is one of the first `k` present. -/
theorem slotOf_ne_nil : fed.slotOf sigs pk ≠ [] ↔ pk ∈ fed.chosen sigs := by
  by_cases h : pk ∈ fed.chosen sigs
  · obtain ⟨-, sig, hsig⟩ := mem_chosen h
    refine iff_of_true (fun hnil => ?_) h
    have hlen := sig.2
    rw [← slotOf_chosen h hsig, hnil] at hlen
    cases hlen
  · refine iff_of_false (fun hne => hne ?_) h
    unfold TaprootFederation.slotOf
    rw [if_neg h]

omit [Taproot] in
theorem slotOf_length (h : fed.slotOf sigs pk ≠ []) : (fed.slotOf sigs pk).length = 64 := by
  have hchosen := slotOf_ne_nil.mp h
  obtain ⟨-, sig, hsig⟩ := mem_chosen hchosen
  rw [slotOf_chosen hchosen hsig]
  exact sig.2

/-- As many slots are filled as the threshold asks. -/
theorem countP_slotOf (hm : fed.Made)
    (hmany : fed.threshold ≤ (fed.signers.filter fun pk => (sigs.lookup pk).isSome).length) :
    (fed.signers.map (fed.slotOf sigs)).countP (fun w => decide (w ≠ [])) = fed.threshold := by
  have hsub : (fed.chosen sigs).Sublist fed.signers :=
    (List.take_sublist _ _).trans List.filter_sublist
  have hperm : (fed.signers.filter fun pk => decide (pk ∈ fed.chosen sigs)).Perm
      (fed.chosen sigs) := by
    refine (List.perm_ext_iff_of_nodup (hm.apart.filter _) (hm.apart.sublist hsub)).mpr fun pk => ?_
    rw [List.mem_filter, decide_eq_true_eq]
    exact ⟨fun h => h.2, fun h => ⟨hsub.subset h, h⟩⟩
  calc (fed.signers.map (fed.slotOf sigs)).countP (fun w => decide (w ≠ []))
      = fed.signers.countP (fun pk => decide (pk ∈ fed.chosen sigs)) := by
        rw [List.countP_map]
        refine List.countP_congr fun pk _ => ?_
        simp only [Function.comp, decide_eq_true_eq]
        exact slotOf_ne_nil
    _ = (fed.chosen sigs).length := by rw [List.countP_eq_length_filter, hperm.length_eq]
    _ = fed.threshold := List.length_take_of_le hmany

end

/-- A partial signature that verifies signs its slot, whatever the witness. -/
theorem slotSigned_of_partial [LawfulTaproot] {block : Block H} {fed : TaprootFederation}
    {pk : XOnlyPublicKey} {sig : Signature} {data : Hash256} (hdata : blockData block = .ok data)
    (h : verifyPartial block fed pk sig = .ok true) (witness : List Bytes) :
    SlotSigned (Taproot.tapscriptSighash (virtualTxs data fed.challenge witness).1 0
      [(virtualTxs data fed.challenge witness).2] none fed.leafHash) pk sig.1 := by
  unfold verifyPartial blockSighashFor at h
  rw [hdata, Res.ok_bind] at h
  dsimp only at h
  cases hmsg : Taproot.tapscriptSighash (virtualTxs data fed.challenge []).1 0
      [(virtualTxs data fed.challenge []).2] none fed.leafHash 0 with
  | none =>
    rw [hmsg] at h
    simp [Res.okOr] at h
  | some m =>
    rw [hmsg] at h
    refine ⟨sig.1, 0, m, if_pos sig.2, ?_, by simpa [Res.okOr] using h⟩
    rw [← hmsg, ← LawfulTaproot.sighash_stripped, ← LawfulTaproot.sighash_stripped
      (virtualTxs data fed.challenge []).1]
    rfl

section

variable {fed : TaprootFederation} {sigs : Map XOnlyPublicKey Signature}

omit [Taproot] in
theorem assembleWitness_many
    (hmany : fed.threshold ≤ (fed.signers.filter fun pk => (sigs.lookup pk).isSome).length) :
    assembleWitness fed sigs = .ok
      ((fed.signers.map (fed.slotOf sigs)).reverse ++ [fed.script, fed.controlBlock]) := by
  unfold assembleWitness
  dsimp only
  rw [if_neg (by omega)]

/-- The control block is last, so a witness of the leaf has no annex. -/
theorem annexOf_leaf (hm : fed.Made) (slots : List Bytes) :
    annexOf (slots ++ [fed.script, fed.controlBlock]) = none := by
  have hlast : (slots ++ [fed.script, fed.controlBlock]).getLast? = some fed.controlBlock := by simp
  have hlen : (slots ++ [fed.script, fed.controlBlock]).length = slots.length + 2 :=
    List.length_append
  unfold annexOf
  rw [if_pos (by omega), hlast]
  exact if_neg hm.notAnnex

theorem withoutAnnex_leaf (hm : fed.Made) (slots : List Bytes) :
    withoutAnnex (slots ++ [fed.script, fed.controlBlock]) =
      slots ++ [fed.script, fed.controlBlock] := by
  unfold withoutAnnex
  rw [annexOf_leaf hm slots]
  rfl

omit [Taproot] in
/-- The size of a witness pays for the signatures in it. -/
theorem slots_budget (fed : TaprootFederation) (sigs : Map XOnlyPublicKey Signature) :
    50 * (fed.signers.map (fed.slotOf sigs)).countP (fun w => decide (w ≠ [])) ≤
      witnessSize ((fed.signers.map (fed.slotOf sigs)).reverse ++
        [fed.script, fed.controlBlock]) := by
  have hcost := countP_le_witnessSize (fed.signers.map (fed.slotOf sigs)) fun w hw hne => by
    obtain ⟨pk, -, rfl⟩ := List.mem_map.mp hw
    exact slotOf_length hne
  refine hcost.trans ?_
  unfold witnessSize
  rw [List.map_append, List.sum_append, List.map_reverse, List.sum_reverse]
  omega

omit [Taproot] in
theorem zip_slotOf (fed : TaprootFederation) (sigs : Map XOnlyPublicKey Signature) :
    fed.signers.zip (fed.signers.map (fed.slotOf sigs)).reverse.reverse =
      fed.signers.map fun pk => (pk, fed.slotOf sigs pk) := by
  rw [List.reverse_reverse]
  exact List.map_prod_left_eq_zip.symm

/-- The leaf accepts the slots of the first `k` signers that are present. -/
theorem verifyItems_slots [LawfulTaproot] {block : Block H} {data : Hash256} (hm : fed.Made)
    (hdata : blockData block = .ok data)
    (hmany : fed.threshold ≤ (fed.signers.filter fun pk => (sigs.lookup pk).isSome).length)
    (hvalid : ∀ pk ∈ fed.chosen sigs, ∀ sig, sigs.lookup pk = some sig →
      verifyPartial block fed pk sig = .ok true) (witness : List Bytes)
    (hwitness : witness = (fed.signers.map (fed.slotOf sigs)).reverse ++
      [fed.script, fed.controlBlock]) :
    verifyItems (virtualTxs data fed.challenge witness).1 0
      [(virtualTxs data fed.challenge witness).2] none (witnessSize witness) fed.outputKey
      (fed.signers.map (fed.slotOf sigs)).reverse fed.script fed.controlBlock =
        .ok ⟨fed.signers, fed.threshold,
          fed.signers.map fun pk => decide (pk ∈ fed.chosen sigs)⟩ := by
  have hlen : (fed.signers.map (fed.slotOf sigs)).reverse.length = fed.signers.length := by
    rw [List.length_reverse, List.length_map]
  have hzip := zip_slotOf fed sigs
  have hcount := countP_slotOf hm hmany
  have hmarks : (fed.signers.zip (fed.signers.map (fed.slotOf sigs)).reverse.reverse).map
      (fun p => decide (p.2 ≠ [])) = fed.signers.map fun pk => decide (pk ∈ fed.chosen sigs) := by
    rw [hzip, List.map_map]
    exact List.map_congr_left fun pk _ => decide_eq_decide.mpr slotOf_ne_nil
  have hfilled : (fed.signers.zip (fed.signers.map (fed.slotOf sigs)).reverse.reverse).countP
      (fun p => decide (p.2 ≠ [])) =
        (fed.signers.map (fed.slotOf sigs)).countP (fun w => decide (w ≠ [])) := by
    rw [hzip, List.countP_map, List.countP_map]
    rfl
  have hbudget : 50 * (fed.signers.zip (fed.signers.map (fed.slotOf sigs)).reverse.reverse).countP
      (fun p => decide (p.2 ≠ [])) ≤ witnessSize witness := by
    rw [hfilled, hwitness]
    exact slots_budget fed sigs
  have hitems := verifyItems_accepts (virtualTxs data fed.challenge witness).1 0
    [(virtualTxs data fed.challenge witness).2] none hm hlen
    (fun p hp hne => by
      rw [hzip] at hp
      obtain ⟨pk, -, rfl⟩ := List.mem_map.mp hp
      have hchosen := slotOf_ne_nil.mp hne
      obtain ⟨-, sig, hsig⟩ := mem_chosen hchosen
      rw [slotOf_chosen hchosen hsig]
      exact slotSigned_of_partial hdata (hvalid pk hchosen sig hsig) witness)
    hbudget (by rw [count_true_map, hfilled, hcount])
  rw [hitems, hmarks]

end

/-- **A threshold of signatures seals a block.** -/
theorem judged_of_sealed [LawfulTaproot] [LawfulHeader H] {fed : TaprootFederation} (hm : fed.Made)
    {block sealed : Block H} {sigs : Map XOnlyPublicKey Signature}
    (hmany : fed.threshold ≤ (fed.signers.filter fun pk => (sigs.lookup pk).isSome).length)
    (hvalid : ∀ pk ∈ fed.chosen sigs, ∀ sig, sigs.lookup pk = some sig →
      verifyPartial block fed pk sig = .ok true)
    (hseal : sealFederated block fed sigs = .ok sealed) :
    judgeSolution sealed fed.challenge = .ok (.ok (.scriptPath ⟨fed.signers, fed.threshold,
      fed.signers.map fun pk => decide (pk ∈ fed.chosen sigs)⟩)) := by
  let slots := (fed.signers.map (fed.slotOf sigs)).reverse
  let witness := slots ++ [fed.script, fed.controlBlock]
  have hlen : slots.length = fed.signers.length := by
    rw [List.length_reverse, List.length_map]
  have hwlen : witness.length = fed.signers.length + 2 := by
    rw [List.length_append, hlen]
    rfl
  have hfew := hm.few
  have hmax : maxSigners = 16 := rfl
  have hsealed : sealBlock block witness = .ok sealed := by
    unfold sealFederated at hseal
    rw [assembleWitness_many hmany, Res.ok_bind] at hseal
    exact hseal
  obtain ⟨cb, rest, index, spk, nonce, htx, -⟩ := sealBlock_ok hsealed
  obtain ⟨data, hdata⟩ : ∃ data, blockData block = .ok data := by
    unfold blockData
    rw [htx]
    exact ⟨_, rfl⟩
  have hwithout : withoutAnnex witness = witness := withoutAnnex_leaf hm slots
  unfold judgeSolution
  rw [solutionOf_sealed (by omega) hsealed]
  dsimp only
  rw [blockData_sealed hsealed, hdata, Res.ok_bind, if_neg (by rw [hwithout]; omega),
    verifyMultiA_virtual hm hwithout, annexOf_leaf hm slots,
    verifyItems_slots hm hdata hmany hvalid witness rfl]

/-- **The seal of a federation.** For a federation of signers and a threshold:
as many valid partial signatures as the threshold seal a block whose solution
is accepted with the first of them marked; a solution that is accepted, and is
not a signature of the output key, has exactly as many slots signed as the
threshold, each by the key of its place and over the block's data, when the
leaf alone commits to the output key; the signers differ; and the template is
read exactly. -/
theorem sealed_by_threshold [LawfulTaproot] [LawfulHeader H] {chainId : Bytes}
    {signers : List XOnlyPublicKey} {threshold : ℕ} {fed : TaprootFederation}
    (hnew : TaprootFederation.new chainId signers threshold = .ok fed) :
    (∀ (block : Block H) (sigs : Map XOnlyPublicKey Signature),
      threshold ≤ (signers.filter fun pk => (sigs.lookup pk).any fun sig =>
        (verifyPartial block fed pk sig).any id).length →
      (∀ pk ∈ (signers.filter fun pk => (sigs.lookup pk).isSome).take threshold, ∀ sig,
        sigs.lookup pk = some sig → verifyPartial block fed pk sig = .ok true) →
      (∃ witness, assembleWitness fed sigs = .ok witness ∧
        sealFederated block fed sigs = sealBlock block witness) ∧
      ∀ sealed, sealFederated block fed sigs = .ok sealed →
        judgeSolution sealed fed.challenge = .ok (.ok (.scriptPath ⟨signers, threshold,
          signers.map fun pk =>
            decide (pk ∈ (signers.filter fun pk => (sigs.lookup pk).isSome).take threshold)⟩))) ∧
    ((∀ control script, Taproot.commits control fed.outputKey script = true →
        script = fed.script) →
      ∀ (block : Block H) (r : BlockSolution),
        judgeSolution block fed.challenge = .ok (.ok r) → r ≠ .keyPath →
          ∃ m, r = .scriptPath m ∧ SealedBy fed block m) ∧
    signers.Nodup ∧
    ∀ (keys : List XOnlyPublicKey) (k : ℕ) (script : Bytes),
      parseMultiA script = some (keys, k) ↔
        leafScript (keys.map XOnlyPublicKey.serialize) k = .ok script := by
  obtain ⟨rfl, rfl, hm⟩ := TaprootFederation.made hnew
  refine ⟨fun block sigs hcount hvalid => ?_, fun honly block r h hr =>
    sealedBy_of_judged hm honly h hr, hm.apart, fun keys k script => parseMultiA_iff⟩
  have hmany : fed.threshold ≤ (fed.signers.filter fun pk => (sigs.lookup pk).isSome).length := by
    refine hcount.trans (List.Sublist.length_le ?_)
    refine List.monotone_filter_right _ fun pk hpk => ?_
    obtain ⟨sig, hsig, -⟩ := (Option.any_eq_true _ _).mp hpk
    rw [hsig]
    rfl
  have hassemble := assembleWitness_many hmany
  refine ⟨⟨_, hassemble, ?_⟩, fun sealed hseal => judged_of_sealed hm hmany hvalid hseal⟩
  unfold sealFederated
  rw [hassemble, Res.ok_bind]

/-! ### The bare verdict and the document's federation -/

/-- The rule's verdict is whether the solution is accepted, when the spend of a
leaf is verified as here. -/
theorem verifyBlockSolution_of_judged
    (hspend : ∀ (tx : Transaction) (index : ℕ) (prevouts : List TxOut),
      Bitcoin.verifyMultiAInput tx index prevouts = (verifyMultiA tx index prevouts).isOk)
    {block : Block H} {challenge : Bytes} {r : Except SolutionError BlockSolution}
    (h : judgeSolution block challenge = .ok r) : verifyBlockSolution block challenge = .ok r.isOk := by
  unfold judgeSolution at h
  unfold verifyBlockSolution
  cases hsol : solutionOf block with
  | none =>
    rw [hsol] at h
    cases h
    rfl
  | some witness =>
    rw [hsol] at h
    obtain ⟨data, hdata, h⟩ := Res.bind_eq_ok.mp h
    dsimp only at h ⊢
    rw [hdata, Res.ok_bind]
    by_cases hone : (withoutAnnex witness).length ≤ 1
    · rw [if_pos hone] at h ⊢
      cases h
      cases verifyTaprootKeyPath (virtualTxs data challenge witness).1 0
        [(virtualTxs data challenge witness).2] .bip341 <;> rfl
    · rw [if_neg hone] at h ⊢
      rw [hspend]
      cases h
      cases verifyMultiA (virtualTxs data challenge witness).1 0
        [(virtualTxs data challenge witness).2] <;> rfl

omit [Taproot] in
/-- The federation as a document names it. -/
def TaprootFederation.toFederation (fed : TaprootFederation) : Federation where
  signers := fed.signers.map XOnlyPublicKey.serialize
  threshold := fed.threshold
  script := fed.script
  outputKey := fed.outputKey

theorem TaprootFederation.new_toFederation
    (hkey : ∀ chainId leaf, Bitcoin.federationKey chainId leaf =
      (numsKey chainId).map fun k => (Taproot.tapTweak k (Taproot.leafHash leaf)).1)
    {chainId : Bytes} {signers : List XOnlyPublicKey} {threshold : ℕ} {fed : TaprootFederation}
    (h : TaprootFederation.new chainId signers threshold = .ok fed) :
    Federation.new chainId (signers.map XOnlyPublicKey.serialize) threshold =
      .ok fed.toFederation := by
  unfold TaprootFederation.new at h
  obtain ⟨script, hscript, h⟩ := Res.bind_eq_ok.mp h
  obtain ⟨_, hapart, h⟩ := Res.bind_eq_ok.mp h
  obtain ⟨internalKey, hnums, h⟩ := Res.bind_eq_ok.mp h
  rw [Res.okOr_eq_ok] at hnums
  rw [Res.refuseIf_eq_ok] at hapart
  cases h
  have hinj : Function.Injective XOnlyPublicKey.serialize := fun a b hab => by
    cases a
    cases b
    cases hab
    rfl
  have hnodup : (signers.map XOnlyPublicKey.serialize).Nodup :=
    (List.nodup_map_iff hinj).mpr (by simpa using hapart)
  unfold Federation.new
  rw [hscript, Res.ok_bind, hkey, hnums]
  simp [hnodup, Res.refuseIf, Res.okOr, TaprootFederation.toFederation]
  rfl

end

section

attribute [local instance] sampleBitcoin

/-- The signer of a key of the sample. -/
def sampleSigner (key : SecretKey) : XOnlyPublicKey where
  serialize := sampleKey key
  length := length_displayBytes _
  valid := beq_iff_eq.mpr (length_displayBytes _)

/-- A signature of the sample. -/
def sampleSignature (key : SecretKey) (msg : Hash256) : Signature :=
  ⟨sampleSig (sampleKey key) msg, by
    unfold sampleSig
    rw [List.length_append, length_displayBytes, length_displayBytes]⟩

/-- Two of three. -/
def sampleSigners : List XOnlyPublicKey := [sampleSigner 1, sampleSigner 2, sampleSigner 3]

def sampleLeaf : Bytes := keysScript true sampleSigners ++ [0x52, 0x9c]

/-- Taproot of the sample: a leaf hash that tells the sample's leaf from the
others, an output key that is the leaf hash, a control block of one key. -/
@[reducible] def sampleTaproot : Taproot where
  leafHash script := if script = sampleLeaf then 1 else 0
  addExpTweak _ t := some (displayBytes t)
  tapTweak _ leaf := (displayBytes leaf, false)
  leafVersion control := if control.length = 33 then control.head?.map fun b => b &&& 0xfe else none
  commits control outputKey script :=
    control.length == 33 && outputKey == displayBytes (if script = sampleLeaf then 1 else 0)
  tapscriptSighash tx index prevouts annex leaf hashType :=
    sampleSighash (12 + leaf.toNat) tx index prevouts annex hashType

attribute [local instance] sampleTaproot

theorem baseNats_stripped (tx : Transaction) : baseNats tx.stripped = baseNats tx := by
  unfold baseNats Transaction.stripped
  simp [List.flatMap_map]

instance sampleTaproot_lawful : LawfulTaproot where
  sighash_stripped tx index prevouts annex leaf hashType := by
    show sampleSighash _ tx.stripped _ _ _ _ = sampleSighash _ tx _ _ _ _
    unfold sampleSighash
    rw [baseNats_stripped]
  tweaked chainId internalKey leaf _ := ⟨length_displayBytes _, beq_iff_eq.mpr (length_displayBytes _)⟩
  control chainId internalKey script h := by
    have hlen : internalKey.length = 32 := by
      rw [← Option.some.inj h]
      exact length_displayBytes _
    have heven : (Taproot.tapTweak internalKey (Taproot.leafHash script)).2 = false := rfl
    rw [heven]
    constructor
    · show (if (controlByte false :: internalKey).length = 33 then
        (controlByte false :: internalKey).head?.map fun b => b &&& 0xfe else none) = some 0xc0
      rw [if_pos (by rw [List.length_cons, hlen]), List.head?_cons]
      decide
    · show ((controlByte false :: internalKey).length == 33 && displayBytes _ == displayBytes _) = true
      rw [List.length_cons, hlen]
      simp
      rfl

/-- The sample's federation seals the genesis of the sample with the signatures
of its first and its last signer. -/
def sampleFederated : Res Error
    (TaprootFederation × Block Header × Map XOnlyPublicKey Signature × Block Header) := do
  let fed ← TaprootFederation.new sampleDoc.id sampleSigners 2
  let block ← buildGenesisFor sampleDoc
  let msg ← blockSighashFor block fed
  let sigs : Map XOnlyPublicKey Signature := ((∅ : Map XOnlyPublicKey Signature).insert
    (sampleSigner 1) (sampleSignature 1 msg)).insert (sampleSigner 3) (sampleSignature 3 msg)
  let sealed ← sealFederated block fed sigs
  .ok (fed, block, sigs, sealed)

set_option maxRecDepth 100000 in
theorem sampleFederated_run : sampleFederated.any (fun r =>
    decide (2 ≤ (sampleSigners.filter fun pk => (r.2.2.1.lookup pk).any fun sig =>
      (verifyPartial r.2.1 r.1 pk sig).any id).length) &&
    ((sampleSigners.filter fun pk => (r.2.2.1.lookup pk).isSome).take 2).all (fun pk =>
      (r.2.2.1.lookup pk).all fun sig => (verifyPartial r.2.1 r.1 pk sig).any id) &&
    (sampleSigners.map fun pk => decide (pk ∈ (sampleSigners.filter fun pk =>
      (r.2.2.1.lookup pk).isSome).take 2)) == [true, false, true] &&
    r.1.outputKey == displayBytes 1 && r.1.script == sampleLeaf) = true := by
  decide +kernel

/-- Two of three signatures seal a block that is accepted, and what is accepted
has the two. -/
theorem sealed_by_threshold_sample : ∃ (fed : TaprootFederation) (sealed : Block Header),
    TaprootFederation.new sampleDoc.id sampleSigners 2 = .ok fed ∧
    judgeSolution sealed fed.challenge =
      .ok (.ok (.scriptPath ⟨sampleSigners, 2, [true, false, true]⟩)) ∧
    SealedBy fed sealed ⟨sampleSigners, 2, [true, false, true]⟩ := by
  obtain ⟨⟨_, _, sigs, _⟩, hrun, hp⟩ := Res.any_eq_true.mp sampleFederated_run
  simp only [Bool.and_eq_true, decide_eq_true_eq, beq_iff_eq] at hp
  obtain ⟨⟨⟨⟨hcount, hall⟩, hmarks⟩, hkey⟩, hleaf⟩ := hp
  unfold sampleFederated at hrun
  obtain ⟨fed, hnew, hrun⟩ := Res.bind_eq_ok.mp hrun
  obtain ⟨block, -, hrun⟩ := Res.bind_eq_ok.mp hrun
  obtain ⟨msg, -, hrun⟩ := Res.bind_eq_ok.mp hrun
  obtain ⟨sealed, hseal, hrun⟩ := Res.bind_eq_ok.mp hrun
  simp only [Res.ok.injEq, Prod.mk.injEq] at hrun
  obtain ⟨rfl, rfl, hsigs, rfl⟩ := hrun
  rw [hsigs] at hseal
  obtain ⟨haccept, hback, -, -⟩ := sealed_by_threshold (H := Header) hnew
  have hvalid : ∀ pk ∈ (sampleSigners.filter fun pk => (sigs.lookup pk).isSome).take 2, ∀ sig,
      sigs.lookup pk = some sig → verifyPartial block fed pk sig = .ok true := by
    intro pk hpk sig hsig
    have hone := List.all_eq_true.mp hall pk hpk
    rw [hsig, Option.all_some] at hone
    obtain ⟨b, hb, htrue⟩ := Res.any_eq_true.mp hone
    rw [hb]
    exact congrArg Res.ok htrue
  have hsealed := (haccept block sigs hcount hvalid).2 sealed hseal
  rw [hmarks] at hsealed
  have honly : ∀ control script, Taproot.commits control fed.outputKey script = true →
      script = fed.script := by
    intro control script hcommits
    have hboth : (control.length == 33 &&
        fed.outputKey == displayBytes (if script = sampleLeaf then 1 else 0)) = true := hcommits
    rw [Bool.and_eq_true, beq_iff_eq, beq_iff_eq, hkey] at hboth
    by_contra hne
    rw [hleaf] at hne
    rw [if_neg hne] at hboth
    exact absurd hboth.2 (by decide)
  obtain ⟨m, hm, hby⟩ := hback honly sealed _ hsealed (by simp)
  cases hm
  exact ⟨fed, sealed, hnew, hsealed, hby⟩

end

end Sidestr
