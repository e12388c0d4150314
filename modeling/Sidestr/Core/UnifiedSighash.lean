/-
# The unified signature message

Knots' unified sighash (`sighash.rs`) is one tagged hash over a message whose
layout changes with the hash type and with what is spent: two functions write
it, for taproot spends and for legacy and segwit v0 ones, with a byte that
tells the four kinds apart. Its parts are fixed in length, prefix codes, or
hashes of strings that are.

The hash type stands in the second byte, so two equal messages have one layout
up to the kind's byte, and the kind's byte fixes the rest.

Key definitions: `unifiedTaprootMessage`, `unifiedLegacyMessage`,
`UnifiedCall`, `UnifiedCall.hashed`, `SameSpend`.
Key theorems: `prefixed_script`, `message_ok`, `unified_commits`.
-/
import Sidestr.Core.BlockFile
import Sidestr.Keys.Secp
import Sidestr.Lib.Prefix
import Sidestr.Wallet.Coins

namespace Sidestr

namespace Unified

/-! ### Serialization -/

def le4 (n : UInt32) : Bytes := leBytes 4 n.toNat

def le8 (n : UInt64) : Bytes := leBytes 8 n.toNat

/-- The consensus length in front of a script: the code's `VarInt`. -/
def varInt (n : ℕ) : Bytes :=
  if n ≤ 0xfc then [UInt8.ofNat n]
  else if n ≤ 0xffff then 0xfd :: leBytes 2 n
  else if n ≤ 0xffffffff then 0xfe :: leBytes 4 n
  else 0xff :: leBytes 8 n

/-- The module's own length, which has no form above 32 bits. -/
def compactSize (n : ℕ) : Bytes :=
  if n ≤ 0xfc then [UInt8.ofNat n]
  else if n ≤ 0xffff then [0xfd, UInt8.ofNat (n &&& 0xff), UInt8.ofNat (n >>> 8)]
  else 0xfe :: leBytes 4 n

def serializeOutPoint (o : OutPoint) : Bytes := wireBytes o.txid ++ le4 o.vout

def serializeScript (s : Bytes) : Bytes := varInt s.length ++ s

def serializeTxOut (o : TxOut) : Bytes := le8 o.value ++ serializeScript o.scriptPubkey

/-! ### The messages -/

def sighashUnified : UInt8 := 0x20

/-- Script types 2 and 3. -/
inductive UnifiedTaproot
  | keyPath
  | scriptPath (leafHash : Hash256) (codesepPos : UInt32)
  deriving DecidableEq

/-- Script types 0 and 1. -/
inductive UnifiedLegacy
  | base
  | witnessV0
  deriving DecidableEq

def anyone (hashType : UInt8) : Bool := hashType &&& 0x80 != 0

def outputType (hashType : UInt8) : UInt8 := hashType &&& 0x1f

def outputsCommitted (hashType : UInt8) : Bool := outputType hashType != 2 && outputType hashType != 3

/-- The strings whose hashes stand for all the inputs. -/
def inputStrings (tx : Transaction) (prevouts : List TxOut) : List Bytes :=
  [tx.input.flatMap fun i => serializeOutPoint i.previousOutput,
    prevouts.flatMap fun p => le8 p.value,
    prevouts.flatMap fun p => serializeScript p.scriptPubkey,
    tx.input.flatMap fun i => le4 i.sequence]

section

variable [Sha256]

def sha (parts : List Bytes) : Bytes := Sha256.sha256 parts.flatten

/-- What both messages start with. -/
def messageHead (tx : Transaction) (hashType : UInt8) : Bytes :=
  [0x00, hashType] ++ le4 tx.version.toUInt32 ++ le4 tx.lockTime ++ [0x00]

def allInputs (tx : Transaction) (prevouts : List TxOut) (hashType : UInt8) : Bytes :=
  if anyone hashType then [] else (inputStrings tx prevouts).flatMap fun s => sha [s]

def allOutputs (tx : Transaction) (hashType : UInt8) : Bytes :=
  if outputsCommitted hashType then sha [tx.output.flatMap serializeTxOut] else []

omit [Sha256] in
/-- The signed input: itself under ANYONECANPAY, its index otherwise. -/
def signedInput (index : ℕ) (input : TxIn) (spent : TxOut) (hashType : UInt8) : Bytes :=
  if anyone hashType then
    serializeOutPoint input.previousOutput ++ serializeTxOut spent ++ le4 input.sequence
  else le4 (UInt32.ofNat index)

/-- The output of the signed index, for SINGLE. -/
def singleOutput (tx : Transaction) (index : ℕ) (hashType : UInt8) : Res String Bytes :=
  if outputType hashType == 3 then do
    let out ← Res.okOr "sighash single without matching output" tx.output[index]?
    .ok (sha [serializeTxOut out])
  else .ok []

def annexPart : Option Bytes → Bytes
  | some a => 1 :: sha [compactSize a.length, a]
  | none => [0]

omit [Sha256] in
def pathPart : UnifiedTaproot → Bytes
  | .keyPath => []
  | .scriptPath leafHash codesepPos => wireBytes leafHash ++ (0x00 :: le4 codesepPos)

omit [Sha256] in
def taprootByte : UnifiedTaproot → UInt8
  | .keyPath => 2
  | .scriptPath _ _ => 3

omit [Sha256] in
def legacyByte : UnifiedLegacy → UInt8
  | .base => 0
  | .witnessV0 => 1

/-- The message of a taproot spend. -/
def unifiedTaprootMessage (tx : Transaction) (index : ℕ) (prevouts : List TxOut) (hashType : UInt8)
    (annex : Option Bytes) (path : UnifiedTaproot) : Res String Bytes := do
  Res.refuseIf (hashType &&& sighashUnified == 0) "unified sighash without SIGHASH_UNIFIED"
  Res.refuseIf (hashType &&& ~~~(0x1f ||| 0x80 ||| sighashUnified) != 0)
    "invalid taproot sighash type"
  Res.refuseIf (!(1 ≤ outputType hashType && outputType hashType ≤ 3)) "invalid taproot sighash type"
  Res.refuseIf (prevouts.length != tx.input.length) "unified sighash needs every input prevout"
  let input ← Res.okOr "no such input" tx.input[index]?
  let spent ← Res.expect prevouts[index]?
  let single ← singleOutput tx index hashType
  .ok (messageHead tx hashType ++ (allInputs tx prevouts hashType ++ (allOutputs tx hashType ++
    (taprootByte path :: (signedInput index input spent hashType ++
      (annexPart annex ++ (single ++ pathPart path)))))))

/-- The message of a legacy or segwit v0 spend. -/
def unifiedLegacyMessage (tx : Transaction) (index : ℕ) (prevouts : List TxOut) (hashType : UInt8)
    (scriptType : UnifiedLegacy) (scriptCode : Bytes) : Res String Bytes := do
  Res.refuseIf (hashType &&& sighashUnified == 0) "unified sighash without SIGHASH_UNIFIED"
  Res.refuseIf (prevouts.length != tx.input.length) "unified sighash needs every input prevout"
  let input ← Res.okOr "no such input" tx.input[index]?
  let spent ← Res.expect prevouts[index]?
  let single ← singleOutput tx index hashType
  .ok (messageHead tx hashType ++ (allInputs tx prevouts hashType ++ (allOutputs tx hashType ++
    (legacyByte scriptType :: (signedInput index input spent hashType ++
      ((compactSize scriptCode.length ++ scriptCode) ++ (single ++ [])))))))

/-- The hash of a message, under its tag. -/
def unifiedHash (msg : Bytes) : Bytes :=
  let tag := Sha256.sha256 (ascii ['U', 'n', 'i', 'f', 'i', 'e', 'd', 'S', 'i', 'g', 'h', 'a', 's', 'h'])
  sha [tag, tag, msg]

end

/-! ### Calls -/

/-- What is spent, with what only its kind commits to. -/
inductive SpendKind
  | legacy (scriptType : UnifiedLegacy) (scriptCode : Bytes)
  | taproot (annex : Option Bytes) (path : UnifiedTaproot)
  deriving DecidableEq

/-- The arguments of a call of either function. -/
structure UnifiedCall where
  tx : Transaction
  index : ℕ
  prevouts : List TxOut
  hashType : UInt8
  kind : SpendKind

namespace UnifiedCall

def message [Sha256] (c : UnifiedCall) : Res String Bytes :=
  match c.kind with
  | .legacy scriptType scriptCode =>
    unifiedLegacyMessage c.tx c.index c.prevouts c.hashType scriptType scriptCode
  | .taproot annex path => unifiedTaprootMessage c.tx c.index c.prevouts c.hashType annex path

def annexStrings : SpendKind → List Bytes
  | .taproot (some a) _ => [compactSize a.length ++ a]
  | _ => []

def singleStrings (c : UnifiedCall) : List Bytes :=
  if outputType c.hashType == 3 then (c.tx.output[c.index]?).toList.map serializeTxOut else []

/-- The strings whose hashes stand in the message. -/
def hashed (c : UnifiedCall) : List Bytes :=
  (if anyone c.hashType then [] else inputStrings c.tx c.prevouts) ++
    (if outputsCommitted c.hashType then [c.tx.output.flatMap serializeTxOut] else []) ++
    annexStrings c.kind ++ c.singleStrings

def kindFits : SpendKind → Prop
  | .legacy _ scriptCode => scriptCode.length < 2 ^ 32
  | .taproot annex _ => ∀ a, annex = some a → a.length < 2 ^ 32

/-- The lengths are below `2 ^ 32`. -/
structure Fits (c : UnifiedCall) : Prop where
  inputs : c.tx.input.length < 2 ^ 32
  prevouts : ∀ p ∈ c.prevouts, p.scriptPubkey.length < 2 ^ 32
  outputs : ∀ o ∈ c.tx.output, o.scriptPubkey.length < 2 ^ 32
  kind : kindFits c.kind

end UnifiedCall

/-- No two different strings of the calls have one hash. -/
def CollisionFree [Sha256] (a b : UnifiedCall) : Prop :=
  ∀ s ∈ a.hashed, ∀ t ∈ b.hashed, Sha256.sha256 s = Sha256.sha256 t → s = t

/-- What a unified signature commits to is the same in both calls. -/
structure SameSpend (a b : UnifiedCall) : Prop where
  hashType : a.hashType = b.hashType
  kind : a.kind = b.kind
  version : a.tx.version = b.tx.version
  lockTime : a.tx.lockTime = b.tx.lockTime
  inputs : anyone a.hashType = false →
    a.tx.input.map (fun i => i.previousOutput) = b.tx.input.map (fun i => i.previousOutput) ∧
      a.prevouts = b.prevouts ∧
      a.tx.input.map (fun i => i.sequence) = b.tx.input.map (fun i => i.sequence) ∧
      a.index = b.index
  signed : anyone a.hashType = true → ∃ i j, a.tx.input[a.index]? = some i ∧
    b.tx.input[b.index]? = some j ∧ i.previousOutput = j.previousOutput ∧
    i.sequence = j.sequence ∧ ∃ p, a.prevouts[a.index]? = some p ∧ b.prevouts[b.index]? = some p
  outputs : outputsCommitted a.hashType = true → a.tx.output = b.tx.output
  single : outputType a.hashType = 3 → ∃ o, a.tx.output[a.index]? = some o ∧
    b.tx.output[b.index]? = some o

/-! ### Codes -/

theorem length_le4 (n : UInt32) : (le4 n).length = 4 := length_leBytes 4 _

theorem length_le8 (n : UInt64) : (le8 n).length = 8 := length_leBytes 8 _

theorem leBytes_inj {k m n : ℕ} (hm : m < 256 ^ k) (hn : n < 256 ^ k)
    (h : leBytes k m = leBytes k n) : m = n := by
  rw [← leNat_leBytes hm, ← leNat_leBytes hn, h]

theorem prefixed_le4 : Prefixed (fun _ : UInt32 => True) le4 :=
  .of_length 4 length_le4 fun a b _ _ h =>
    UInt32.toNat_inj.mp (leBytes_inj (k := 4) a.toNat_lt b.toNat_lt h)

theorem prefixed_le8 : Prefixed (fun _ : UInt64 => True) le8 :=
  .of_length 8 length_le8 fun a b _ _ h =>
    UInt64.toNat_inj.mp (leBytes_inj (k := 8) a.toNat_lt b.toNat_lt h)

theorem prefixed_wire : Prefixed (fun _ : Hash256 => True) wireBytes :=
  .of_length 32 (fun _ => length_leBytes 32 _) fun a b _ _ h =>
    BitVec.eq_of_toNat_eq (leBytes_inj (k := 32) a.isLt b.isLt h)

theorem prefixed_outPoint : Prefixed (fun _ : OutPoint => True) serializeOutPoint := by
  intro a b r s _ _ h
  unfold serializeOutPoint at h
  rw [List.append_assoc, List.append_assoc] at h
  obtain ⟨htxid, h⟩ := prefixed_wire _ _ _ _ trivial trivial h
  obtain ⟨hvout, h⟩ := prefixed_le4 _ _ _ _ trivial trivial h
  refine ⟨?_, h⟩
  obtain ⟨ta, va⟩ := a
  obtain ⟨tb, vb⟩ := b
  obtain rfl : ta = tb := htxid
  obtain rfl : va = vb := hvout
  rfl

/-- The two lengths are one below `2 ^ 32`. -/
theorem compactSize_eq {n : ℕ} (h : n < 2 ^ 32) : compactSize n = varInt n := by
  unfold compactSize varInt
  split_ifs with h1 h2 h3
  · rfl
  · have hlow : UInt8.ofNat (n &&& 0xff) = UInt8.ofNat n := by
      rw [show (0xff : ℕ) = 2 ^ 8 - 1 from rfl, Nat.and_two_pow_sub_one_eq_mod]
      apply UInt8.toNat_inj.mp
      simp
    rw [hlow, Nat.shiftRight_eq_div_pow]
    rfl
  · rfl
  · omega

/-- The three forms of a CompactSize, and the numbers in each. -/
theorem varInt_cases {n : ℕ} (hn : n < 2 ^ 32) :
    (n ≤ 0xfc ∧ varInt n = [UInt8.ofNat n]) ∨ (n < 256 ^ 2 ∧ varInt n = 0xfd :: leBytes 2 n) ∨
      (n < 256 ^ 4 ∧ varInt n = 0xfe :: leBytes 4 n) := by
  unfold varInt
  split_ifs with h1 h2 h3
  · exact .inl ⟨h1, rfl⟩
  · exact .inr (.inl ⟨by omega, rfl⟩)
  · exact .inr (.inr ⟨by omega, rfl⟩)
  · omega

/-- A number below `0xfd` is its own byte. -/
theorem toNat_ofNat_le {n : ℕ} (hn : n ≤ 0xfc) : (UInt8.ofNat n).toNat = n := by
  rw [UInt8.toNat_ofNat']
  omega

theorem ofNat_ne_of_le {n : ℕ} (hn : n ≤ 0xfc) {b : UInt8} (hb : 0xfc < b.toNat) :
    UInt8.ofNat n ≠ b := by
  intro h
  rw [← h, toNat_ofNat_le hn] at hb
  omega

theorem prefixed_varInt : Prefixed (fun n => n < 2 ^ 32) varInt := by
  intro a b r s ha hb h
  have hfd : 0xfc < (0xfd : UInt8).toNat := by decide
  have hfe : 0xfc < (0xfe : UInt8).toNat := by decide
  rcases varInt_cases ha with ⟨ha, hva⟩ | ⟨ha, hva⟩ | ⟨ha, hva⟩
  · rcases varInt_cases hb with ⟨hb, hvb⟩ | ⟨-, hvb⟩ | ⟨-, hvb⟩
    · rw [hva, hvb] at h
      obtain ⟨hab, hrs⟩ := List.cons.inj h
      have := congrArg UInt8.toNat hab
      rw [toNat_ofNat_le ha, toNat_ofNat_le hb] at this
      exact ⟨this, hrs⟩
    · rw [hva, hvb] at h
      exact absurd (List.cons.inj h).1 (ofNat_ne_of_le ha hfd)
    · rw [hva, hvb] at h
      exact absurd (List.cons.inj h).1 (ofNat_ne_of_le ha hfe)
  · rcases varInt_cases hb with ⟨hb, hvb⟩ | ⟨hb, hvb⟩ | ⟨-, hvb⟩
    · rw [hva, hvb] at h
      exact absurd (List.cons.inj h).1.symm (ofNat_ne_of_le hb hfd)
    · rw [hva, hvb] at h
      obtain ⟨hcode, hrs⟩ := List.append_inj (List.cons.inj h).2
        ((length_leBytes 2 a).trans (length_leBytes 2 b).symm)
      exact ⟨leBytes_inj ha hb hcode, hrs⟩
    · rw [hva, hvb] at h
      exact absurd (List.cons.inj h).1 (by decide)
  · rcases varInt_cases hb with ⟨hb, hvb⟩ | ⟨-, hvb⟩ | ⟨hb, hvb⟩
    · rw [hva, hvb] at h
      exact absurd (List.cons.inj h).1.symm (ofNat_ne_of_le hb hfe)
    · rw [hva, hvb] at h
      exact absurd (List.cons.inj h).1 (by decide)
    · rw [hva, hvb] at h
      obtain ⟨hcode, hrs⟩ := List.append_inj (List.cons.inj h).2
        ((length_leBytes 4 a).trans (length_leBytes 4 b).symm)
      exact ⟨leBytes_inj ha hb hcode, hrs⟩

theorem prefixed_script : Prefixed (fun s : Bytes => s.length < 2 ^ 32) serializeScript := by
  intro a b r s ha hb h
  unfold serializeScript at h
  rw [List.append_assoc, List.append_assoc] at h
  obtain ⟨hlen, h⟩ := prefixed_varInt _ _ _ _ ha hb h
  exact List.append_inj h hlen

theorem prefixed_txOut :
    Prefixed (fun o : TxOut => o.scriptPubkey.length < 2 ^ 32) serializeTxOut := by
  intro a b r s ha hb h
  unfold serializeTxOut at h
  rw [List.append_assoc, List.append_assoc] at h
  obtain ⟨hvalue, h⟩ := prefixed_le8 _ _ _ _ trivial trivial h
  obtain ⟨hscript, h⟩ := prefixed_script _ _ _ _ ha hb h
  refine ⟨?_, h⟩
  obtain ⟨va, sa⟩ := a
  obtain ⟨vb, sb⟩ := b
  obtain rfl : va = vb := hvalue
  obtain rfl : sa = sb := hscript
  rfl

/-! ### What a message commits to -/

section

variable [Sha256]

theorem length_sha (parts : List Bytes) : (sha parts).length = 32 := Sha256.length_sha256 _

def kindByte : SpendKind → UInt8
  | .legacy scriptType _ => legacyByte scriptType
  | .taproot _ path => taprootByte path

def kindPart : SpendKind → Bytes
  | .legacy _ scriptCode => compactSize scriptCode.length ++ scriptCode
  | .taproot annex _ => annexPart annex

def kindTail : SpendKind → Bytes
  | .legacy _ _ => []
  | .taproot _ path => pathPart path

/-- The parts of the message of a call that succeeds. -/
structure Parts (c : UnifiedCall) (msg : Bytes) (input : TxIn) (spent : TxOut) (single : Bytes) :
    Prop where
  input_eq : c.tx.input[c.index]? = some input
  spent_eq : c.prevouts[c.index]? = some spent
  length_eq : c.prevouts.length = c.tx.input.length
  single_eq : singleOutput c.tx c.index c.hashType = .ok single
  msg_eq : msg = messageHead c.tx c.hashType ++ (allInputs c.tx c.prevouts c.hashType ++
    (allOutputs c.tx c.hashType ++ (kindByte c.kind ::
      (signedInput c.index input spent c.hashType ++ (kindPart c.kind ++
        (single ++ kindTail c.kind))))))

/-- Both functions write the parts in one order. -/
theorem message_ok {c : UnifiedCall} {msg : Bytes} (h : c.message = .ok msg) :
    ∃ input spent single, Parts c msg input spent single := by
  obtain ⟨tx, index, prevouts, hashType, kind⟩ := c
  unfold UnifiedCall.message at h
  cases kind with
  | legacy scriptType scriptCode =>
    dsimp only at h
    unfold unifiedLegacyMessage at h
    obtain ⟨_, -, h⟩ := Res.bind_eq_ok.mp h
    obtain ⟨_, hlen, h⟩ := Res.bind_eq_ok.mp h
    obtain ⟨input, hinput, h⟩ := Res.bind_eq_ok.mp h
    obtain ⟨spent, hspent, h⟩ := Res.bind_eq_ok.mp h
    obtain ⟨single, hsingle, h⟩ := Res.bind_eq_ok.mp h
    exact ⟨input, spent, single, Res.okOr_eq_ok.mp hinput, Wallet.expect_eq_ok.mp hspent,
      by simpa using Res.refuseIf_eq_ok.mp hlen, hsingle, (Res.ok.inj h).symm⟩
  | taproot annex path =>
    dsimp only at h
    unfold unifiedTaprootMessage at h
    obtain ⟨_, -, h⟩ := Res.bind_eq_ok.mp h
    obtain ⟨_, -, h⟩ := Res.bind_eq_ok.mp h
    obtain ⟨_, -, h⟩ := Res.bind_eq_ok.mp h
    obtain ⟨_, hlen, h⟩ := Res.bind_eq_ok.mp h
    obtain ⟨input, hinput, h⟩ := Res.bind_eq_ok.mp h
    obtain ⟨spent, hspent, h⟩ := Res.bind_eq_ok.mp h
    obtain ⟨single, hsingle, h⟩ := Res.bind_eq_ok.mp h
    exact ⟨input, spent, single, Res.okOr_eq_ok.mp hinput, Wallet.expect_eq_ok.mp hspent,
      by simpa using Res.refuseIf_eq_ok.mp hlen, hsingle, (Res.ok.inj h).symm⟩

omit [Sha256] in
theorem version_inj {v w : Int32} (h : v.toUInt32 = w.toUInt32) : v = w := by
  obtain ⟨v⟩ := v
  obtain ⟨w⟩ := w
  exact congrArg Int32.ofUInt32 h

omit [Sha256] in
/-- The head of a message fixes the hash type, the version and the lock time. -/
theorem messageHead_inj {tx tx' : Transaction} {ht ht' : UInt8} {r s : Bytes}
    (h : messageHead tx ht ++ r = messageHead tx' ht' ++ s) :
    ht = ht' ∧ tx.version = tx'.version ∧ tx.lockTime = tx'.lockTime ∧ r = s := by
  unfold messageHead at h
  simp only [List.append_assoc, List.cons_append, List.nil_append, List.cons.injEq, true_and] at h
  obtain ⟨hht, h⟩ := h
  obtain ⟨hversion, h⟩ := prefixed_le4 _ _ _ _ trivial trivial h
  obtain ⟨hlock, h⟩ := prefixed_le4 _ _ _ _ trivial trivial h
  exact ⟨hht, version_inj hversion, hlock, (List.cons.inj h).2⟩

theorem length_allInputs (tx : Transaction) (prevouts : List TxOut) (ht : UInt8) :
    (allInputs tx prevouts ht).length = if anyone ht then 0 else 128 := by
  unfold allInputs inputStrings
  split_ifs
  · rfl
  · simp [length_sha]

theorem length_allOutputs (tx : Transaction) (ht : UInt8) :
    (allOutputs tx ht).length = if outputsCommitted ht then 32 else 0 := by
  unfold allOutputs
  split_ifs
  · exact length_sha _
  · rfl

omit [Sha256] in
theorem map_of_flatMap {α β : Type} {P : β → Prop} {f : β → Bytes} (hf : Prefixed P f)
    (hne : ∀ b, f b ≠ []) {g : α → β} {l l' : List α} (hl : ∀ a ∈ l, P (g a))
    (hl' : ∀ a ∈ l', P (g a)) (h : (l.flatMap fun a => f (g a)) = l'.flatMap fun a => f (g a)) :
    l.map g = l'.map g := by
  refine hf.flatMap_inj hne ?_ ?_ ?_
  · intro b hb
    obtain ⟨a, ha, rfl⟩ := List.mem_map.mp hb
    exact hl a ha
  · intro b hb
    obtain ⟨a, ha, rfl⟩ := List.mem_map.mp hb
    exact hl' a ha
  · rw [List.flatMap_map, List.flatMap_map]
    exact h

omit [Sha256] in
theorem ne_nil_of_length {b : Bytes} {n : ℕ} (h : b.length = n + 1) : b ≠ [] := fun hnil => by
  rw [hnil] at h
  cases h

omit [Sha256] in
theorem serializeScript_ne_nil (s : Bytes) : serializeScript s ≠ [] := by
  unfold serializeScript varInt
  split_ifs
  · exact List.cons_ne_nil _ _
  · exact List.cons_ne_nil _ _
  · exact List.cons_ne_nil _ _
  · exact List.cons_ne_nil _ _

omit [Sha256] in
theorem serializeTxOut_ne_nil (o : TxOut) : serializeTxOut o ≠ [] := fun hnil =>
  ne_nil_of_length (length_le8 o.value) (List.append_eq_nil_iff.mp hnil).1

omit [Sha256] in
/-- Prevouts are their amounts and their scripts. -/
theorem prevouts_eq : ∀ {l l' : List TxOut}, l.map (fun p => p.value) = l'.map (fun p => p.value) →
    l.map (fun p => p.scriptPubkey) = l'.map (fun p => p.scriptPubkey) → l = l'
  | [], [], _, _ => rfl
  | [], _ :: _, h, _ => by cases h
  | _ :: _, [], h, _ => by cases h
  | ⟨va, sa⟩ :: l, ⟨vb, sb⟩ :: l', hv, hs => by
    simp only [List.map_cons, List.cons.injEq] at hv hs
    obtain ⟨rfl, hv⟩ := hv
    obtain ⟨rfl, hs⟩ := hs
    rw [prevouts_eq hv hs]

/-- Without ANYONECANPAY the four hashes fix every input. -/
theorem allInputs_inj {a b : UnifiedCall} (hcoll : CollisionFree a b) (hfa : a.Fits) (hfb : b.Fits)
    (ha : anyone a.hashType = false) (hb : anyone b.hashType = false)
    (h : allInputs a.tx a.prevouts a.hashType = allInputs b.tx b.prevouts b.hashType) :
    a.tx.input.map (fun i => i.previousOutput) = b.tx.input.map (fun i => i.previousOutput) ∧
      a.prevouts = b.prevouts ∧
      a.tx.input.map (fun i => i.sequence) = b.tx.input.map (fun i => i.sequence) := by
  have hmem : ∀ c : UnifiedCall, anyone c.hashType = false → ∀ s ∈ inputStrings c.tx c.prevouts,
      s ∈ c.hashed := by
    intro c hc s hs
    unfold UnifiedCall.hashed
    rw [hc]
    simp only [Bool.false_eq_true, if_false, List.mem_append]
    exact .inl (.inl (.inl hs))
  have hsha : ∀ s ∈ inputStrings a.tx a.prevouts, ∀ t ∈ inputStrings b.tx b.prevouts,
      sha [s] = sha [t] → s = t := by
    intro s hs t ht hst
    unfold sha at hst
    simp only [List.flatten_cons, List.flatten_nil, List.append_nil] at hst
    exact hcoll s (hmem a ha s hs) t (hmem b hb t ht) hst
  unfold allInputs at h
  rw [ha, hb] at h
  simp only [Bool.false_eq_true, if_false, inputStrings, List.flatMap_cons, List.flatMap_nil,
    List.append_nil] at h
  obtain ⟨hprev, h⟩ := List.append_inj h ((length_sha _).trans (length_sha _).symm)
  obtain ⟨hamounts, h⟩ := List.append_inj h ((length_sha _).trans (length_sha _).symm)
  obtain ⟨hspks, hseqs⟩ := List.append_inj h ((length_sha _).trans (length_sha _).symm)
  have hprev := hsha _ (by simp [inputStrings]) _ (by simp [inputStrings]) hprev
  have hamounts := hsha _ (by simp [inputStrings]) _ (by simp [inputStrings]) hamounts
  have hspks := hsha _ (by simp [inputStrings]) _ (by simp [inputStrings]) hspks
  have hseqs := hsha _ (by simp [inputStrings]) _ (by simp [inputStrings]) hseqs
  refine ⟨?_, prevouts_eq ?_ ?_, ?_⟩
  · refine map_of_flatMap prefixed_outPoint (fun o hnil => ?_) (fun _ _ => trivial)
      (fun _ _ => trivial) hprev
    exact ne_nil_of_length (length_le4 o.vout) (List.append_eq_nil_iff.mp hnil).2
  · exact map_of_flatMap prefixed_le8 (fun n => ne_nil_of_length (length_le8 n)) (fun _ _ => trivial)
      (fun _ _ => trivial) hamounts
  · exact map_of_flatMap prefixed_script serializeScript_ne_nil hfa.prevouts hfb.prevouts hspks
  · exact map_of_flatMap prefixed_le4 (fun n => ne_nil_of_length (length_le4 n)) (fun _ _ => trivial)
      (fun _ _ => trivial) hseqs

theorem allOutputs_inj {a b : UnifiedCall} (hcoll : CollisionFree a b) (hfa : a.Fits) (hfb : b.Fits)
    (ha : outputsCommitted a.hashType = true) (hb : outputsCommitted b.hashType = true)
    (h : allOutputs a.tx a.hashType = allOutputs b.tx b.hashType) : a.tx.output = b.tx.output := by
  have hmem : ∀ c : UnifiedCall, outputsCommitted c.hashType = true →
      c.tx.output.flatMap serializeTxOut ∈ c.hashed := by
    intro c hc
    unfold UnifiedCall.hashed
    rw [hc]
    simp
  unfold allOutputs sha at h
  rw [ha, hb] at h
  simp only [if_true, List.flatten_cons, List.flatten_nil, List.append_nil] at h
  exact prefixed_txOut.flatMap_inj serializeTxOut_ne_nil hfa.outputs hfb.outputs
    (hcoll _ (hmem a ha) _ (hmem b hb) h)

omit [Sha256] in
theorem legacyByte_inj {a b : UnifiedLegacy} (h : legacyByte a = legacyByte b) : a = b := by
  cases a <;> cases b <;> simp [legacyByte] at h ⊢

omit [Sha256] in
theorem legacyByte_ne_taprootByte (a : UnifiedLegacy) (p : UnifiedTaproot) :
    legacyByte a ≠ taprootByte p := by
  cases a <;> cases p <;> simp [legacyByte, taprootByte]

/-- The kind's byte, part and tail fix the kind, whatever stands between the last two. -/
theorem kind_inj {a b : UnifiedCall} (hcoll : CollisionFree a b) (hfa : a.Fits) (hfb : b.Fits)
    (hbyte : kindByte a.kind = kindByte b.kind) {single single' : Bytes}
    (hlen : single.length = single'.length)
    (h : kindPart a.kind ++ (single ++ kindTail a.kind) =
      kindPart b.kind ++ (single' ++ kindTail b.kind)) : a.kind = b.kind ∧ single = single' := by
  obtain ⟨txa, ia, pa, ha, ka⟩ := a
  obtain ⟨txb, ib, pb, hb, kb⟩ := b
  cases ka with
  | legacy ta ca =>
    cases kb with
    | taproot annex path => exact absurd hbyte (legacyByte_ne_taprootByte ta path)
    | legacy tb cb =>
      obtain rfl := legacyByte_inj hbyte
      have hca : ca.length < 2 ^ 32 := hfa.kind
      have hcb : cb.length < 2 ^ 32 := hfb.kind
      simp only [kindPart, compactSize_eq hca, compactSize_eq hcb] at h
      obtain ⟨rfl, hrest⟩ := prefixed_script ca cb _ _ hca hcb h
      exact ⟨rfl, (List.append_inj hrest hlen).1⟩
  | taproot annexA pathA =>
    cases kb with
    | legacy tb cb => exact absurd hbyte.symm (legacyByte_ne_taprootByte tb pathA)
    | taproot annexB pathB =>
      have hannex : annexA = annexB ∧ single ++ pathPart pathA = single' ++ pathPart pathB := by
        cases annexA with
        | none =>
          cases annexB with
          | none => exact ⟨rfl, (List.cons.inj h).2⟩
          | some y => exact absurd (List.cons.inj h).1 (by decide)
        | some x =>
          cases annexB with
          | none => exact absurd (List.cons.inj h).1 (by decide)
          | some y =>
            obtain ⟨hsha, hrest⟩ := List.append_inj (List.cons.inj h).2
              ((length_sha _).trans (length_sha _).symm)
            have hx : x.length < 2 ^ 32 := hfa.kind x rfl
            have hy : y.length < 2 ^ 32 := hfb.kind y rfl
            have hmemx : compactSize x.length ++ x ∈ (UnifiedCall.mk txa ia pa ha
                (.taproot (some x) pathA)).hashed := by
              simp [UnifiedCall.hashed, UnifiedCall.annexStrings]
            have hmemy : compactSize y.length ++ y ∈ (UnifiedCall.mk txb ib pb hb
                (.taproot (some y) pathB)).hashed := by
              simp [UnifiedCall.hashed, UnifiedCall.annexStrings]
            unfold sha at hsha
            simp only [List.flatten_cons, List.flatten_nil, List.append_nil] at hsha
            have heq := hcoll _ hmemx _ hmemy hsha
            rw [compactSize_eq hx, compactSize_eq hy] at heq
            exact ⟨congrArg some (prefixed_script.inj hx hy heq), hrest⟩
      obtain ⟨rfl, hrest⟩ := hannex
      obtain ⟨hsingle, hpath⟩ := List.append_inj hrest hlen
      refine ⟨?_, hsingle⟩
      cases pathA with
      | keyPath =>
        cases pathB with
        | keyPath => rfl
        | scriptPath leaf pos => exact absurd hbyte (by simp [kindByte, taprootByte])
      | scriptPath leaf pos =>
        cases pathB with
        | keyPath => exact absurd hbyte (by simp [kindByte, taprootByte])
        | scriptPath leaf' pos' =>
          obtain ⟨rfl, hpos⟩ := prefixed_wire _ _ _ _ trivial trivial hpath
          rw [prefixed_le4.inj trivial trivial (List.cons.inj hpos).2]

theorem length_single {tx : Transaction} {index : ℕ} {ht : UInt8} {single : Bytes}
    (h : singleOutput tx index ht = .ok single) :
    single.length = if outputType ht == 3 then 32 else 0 := by
  unfold singleOutput at h
  split_ifs at h ⊢
  · obtain ⟨out, -, h⟩ := Res.bind_eq_ok.mp h
    rw [← Res.ok.inj h, length_sha]
  · rw [← Res.ok.inj h]
    rfl

theorem single_inj {a b : UnifiedCall} (hcoll : CollisionFree a b) (hfa : a.Fits) (hfb : b.Fits)
    (hta : outputType a.hashType = 3) (htb : outputType b.hashType = 3) {single : Bytes}
    (ha : singleOutput a.tx a.index a.hashType = .ok single)
    (hb : singleOutput b.tx b.index b.hashType = .ok single) :
    ∃ o, a.tx.output[a.index]? = some o ∧ b.tx.output[b.index]? = some o := by
  unfold singleOutput at ha hb
  rw [hta] at ha
  rw [htb] at hb
  obtain ⟨oa, hoa, ha⟩ := Res.bind_eq_ok.mp ha
  obtain ⟨ob, hob, hb⟩ := Res.bind_eq_ok.mp hb
  have hoa := Res.okOr_eq_ok.mp hoa
  have hob := Res.okOr_eq_ok.mp hob
  have hsha := (Res.ok.inj ha).trans (Res.ok.inj hb).symm
  unfold sha at hsha
  simp only [List.flatten_cons, List.flatten_nil, List.append_nil] at hsha
  have hmem : ∀ (c : UnifiedCall) (o : TxOut), outputType c.hashType = 3 →
      c.tx.output[c.index]? = some o → serializeTxOut o ∈ c.hashed := by
    intro c o hc ho
    simp [UnifiedCall.hashed, UnifiedCall.singleStrings, hc, ho]
  have hfit : ∀ (c : UnifiedCall) (o : TxOut), c.Fits → c.tx.output[c.index]? = some o →
      o.scriptPubkey.length < 2 ^ 32 := fun c o hc ho => hc.outputs o (List.mem_of_getElem? ho)
  obtain rfl := prefixed_txOut.inj (hfit a oa hfa hoa) (hfit b ob hfb hob)
    (hcoll _ (hmem a oa hta hoa) _ (hmem b ob htb hob) hsha)
  exact ⟨oa, hoa, hob⟩

end

/-! ### A signature of one input and no output -/

attribute [local instance] Secp.constantSha

/-- A key-path call under ANYONECANPAY and NONE. -/
def lonelyCall : UnifiedCall where
  tx := ⟨2, 0, [⟨OutPoint.null, [], 0, []⟩], []⟩
  index := 0
  prevouts := [⟨1000, [0x51]⟩]
  hashType := 0xa2
  kind := .taproot none .keyPath

theorem lonelyCall_fits : lonelyCall.Fits where
  inputs := by decide
  prevouts := by decide
  outputs := by decide
  kind := fun a h => by cases h

theorem lonelyCall_message : ∃ msg, lonelyCall.message = .ok msg := ⟨_, rfl⟩

end Unified

end Sidestr
