/-
# The peg output that commits in its key

A peg-in of the tweak form (`pegtweak.rs`) is one taproot output. Its tree holds
a refund leaf, which the pegger may spend some blocks after it is made, a leaf
whose key commits to the chain and to the sidechain script, and any further
leaves. `pegOutput` builds it from the reveal, with a control block for every
leaf. Texts are hex, as the code keeps them.

The script of the refund leaf is read by the parent (BIP 68, BIP 112), modelled
here for the opcodes the leaf has: a count above `0xffff` does not keep the
refund key back that many blocks (`refund_waits_iff`). Every leaf's control
block proves it against the output key (`peg_leaves_proved`).

Key definitions: `refundLeaf`, `tapTree`, `pegOutput`, `csvSatisfied`,
`runLeaf`, `verifyCommitment`.
Key theorems: `refund_waits_iff`, `peg_leaves_proved`.
-/
import Sidestr.Core.MultiA
import Sidestr.Lib.Pairing

namespace Sidestr

/-! ### Hex -/

theorem hexDecode_hexEncode_append : ∀ (b rest : Bytes),
    hexDecode (hexEncode b ++ rest) = (hexDecode rest).map (b ++ ·)
  | [], rest => by
    cases h : hexDecode rest <;> simp [hexEncode, h]
  | x :: b, rest => by
    have ih := hexDecode_hexEncode_append b rest
    have hx := x.toNat_lt
    have hcons : hexEncode (x :: b) ++ rest =
        hexDigit (x.toNat / 16) :: hexDigit (x.toNat % 16) :: (hexEncode b ++ rest) := by
      unfold hexEncode
      rw [List.flatMap_cons]
      rfl
    have hbyte : UInt8.ofNat (x.toNat / 16 * 16 + x.toNat % 16) = x := by
      rw [Nat.div_add_mod', UInt8.ofNat_toNat]
    rw [hcons, hexDecode, hexVal_hexDigit _ (by omega), hexVal_hexDigit _ (by omega), ih]
    simp only [Option.bind_eq_bind, Option.bind_some, hbyte]
    cases hexDecode rest <;> rfl

theorem hexDecode_hexEncode (b : Bytes) : hexDecode (hexEncode b) = some b := by
  have h := hexDecode_hexEncode_append b []
  rwa [List.append_nil, hexDecode, Option.map_some, List.append_nil] at h

theorem length_hexDecode : ∀ {s b : Bytes}, hexDecode s = some b → s.length = 2 * b.length
  | [], b, h => by
    rw [hexDecode, Option.some.injEq] at h
    rw [← h]
    rfl
  | [_], b, h => by simp [hexDecode] at h
  | x :: y :: s, b, h => by
    unfold hexDecode at h
    simp only [Option.bind_eq_bind, Option.bind_eq_some_iff, Option.some.injEq] at h
    obtain ⟨hi, -, lo, -, rest, hrest, rfl⟩ := h
    have ih := length_hexDecode hrest
    simp only [List.length_cons, ih]
    omega

theorem hexVal_lower {c : UInt8} {n : ℕ} (h : hexVal c = some n) :
    n < 16 ∧ hexDigit n = lowerByte c := by
  have hc := c.toNat_lt
  unfold hexVal at h
  dsimp only at h
  have hof : UInt8.ofNat c.toNat = c := UInt8.ofNat_toNat
  split_ifs at h with h1 h2 h3
  · obtain rfl := Option.some.inj h
    refine ⟨by omega, ?_⟩
    unfold hexDigit lowerByte
    rw [if_pos (by omega), if_neg (by omega), ← hof]
    congr 1
    rw [hof]
    omega
  · obtain rfl := Option.some.inj h
    refine ⟨by omega, ?_⟩
    unfold hexDigit lowerByte
    rw [if_neg (by omega), if_neg (by omega), ← hof]
    congr 1
    rw [hof]
    omega
  · obtain rfl := Option.some.inj h
    refine ⟨by omega, ?_⟩
    unfold hexDigit lowerByte
    rw [if_neg (by omega), if_pos (by omega)]
    congr 1
    omega

/-- The bytes a hex text writes are written as the text in lower case. -/
theorem hexEncode_hexDecode : ∀ {s b : Bytes}, hexDecode s = some b → hexEncode b = toLower s
  | [], b, h => by
    rw [hexDecode, Option.some.injEq] at h
    rw [← h]
    rfl
  | [_], b, h => by simp [hexDecode] at h
  | x :: y :: s, b, h => by
    unfold hexDecode at h
    simp only [Option.bind_eq_bind, Option.bind_eq_some_iff, Option.some.injEq] at h
    obtain ⟨hi, hhi, lo, hlo, rest, hrest, rfl⟩ := h
    obtain ⟨hhi16, hhid⟩ := hexVal_lower hhi
    obtain ⟨hlo16, hlod⟩ := hexVal_lower hlo
    have hbyte : (UInt8.ofNat (hi * 16 + lo)).toNat = hi * 16 + lo := by
      rw [UInt8.toNat_ofNat']
      omega
    have ih := hexEncode_hexDecode hrest
    unfold hexEncode at ih ⊢
    rw [List.flatMap_cons, ih, hbyte, show (hi * 16 + lo) / 16 = hi by omega,
      show (hi * 16 + lo) % 16 = lo by omega, hhid, hlod]
    rfl

theorem hexDecode_of_digits : ∀ {s : Bytes}, s.length % 2 = 0 → s.all isHexDigit = true →
    ∃ b, hexDecode s = some b
  | [], _, _ => ⟨[], rfl⟩
  | [_], h, _ => by simp at h
  | x :: y :: s, h, hall => by
    simp only [List.all_cons, Bool.and_eq_true] at hall
    obtain ⟨hi, hhi⟩ := Option.isSome_iff_exists.mp hall.1
    obtain ⟨lo, hlo⟩ := Option.isSome_iff_exists.mp hall.2.1
    simp only [List.length_cons] at h
    obtain ⟨b, hb⟩ := hexDecode_of_digits (s := s) (by omega) hall.2.2
    exact ⟨UInt8.ofNat (hi * 16 + lo) :: b, by
      rw [hexDecode, hhi, hlo, hb]
      rfl⟩

namespace PegTweak

/-! ### Leaves -/

/-- Why a peg output could not be made. -/
inductive PegError where
  | blockCount
  | chainHash
  | scriptHex
  | keyForm
  | emptyTree
  | hrp (text : Bytes)
  | key
  deriving DecidableEq, Repr

def isHexBytes (s : Bytes) : Bool := !s.isEmpty && s.length % 2 == 0 && s.all isHexDigit

def unhex (s : Bytes) : Res PegError Bytes :=
  if s = [] then .ok []
  else if !isHexBytes s then .err .scriptHex
  else Res.okOr .scriptHex (hexDecode s)

/-- A key as its x coordinate in lower case; a compressed one less its first byte. -/
def xOnlyOf (key : Bytes) : Res PegError Bytes :=
  let s := toLower key
  let hex64 := fun t : Bytes => t.length == 64 && t.all isHexDigit
  if hex64 s then .ok s
  else if s.length = 66 ∧ (s.take 2 = ascii ['0', '2'] ∨ s.take 2 = ascii ['0', '3']) ∧
      hex64 (s.drop 2) then .ok (s.drop 2)
  else .err .keyForm

/-- A script number pushed minimally, in hex. -/
def pushNum (n : UInt32) : Res PegError Bytes :=
  if n = 0 ∨ 0x7fffffff < n then .err .blockCount else .ok (hexEncode (Sidestr.pushNum n.toNat))

/-- The refund leaf: `<refund> CHECKSIGVERIFY <refundBlocks> CHECKSEQUENCEVERIFY`. -/
def refundLeaf (refundKey : Bytes) (refundBlocks : UInt32) : Res PegError Bytes := do
  let key ← xOnlyOf refundKey
  let count ← pushNum refundBlocks
  .ok (ascii ['2', '0'] ++ key ++ ascii ['a', 'd'] ++ count ++ ascii ['b', '2'])

/-! ### What the parent reads -/

def sequenceDisable : UInt32 := 0x80000000

def sequenceType : UInt32 := 0x00400000

def sequenceMask : UInt32 := 0x0000ffff

/-- BIP 112 for an operand: nothing with its disable bit set; else a version-2
transaction, the input's disable bit clear, the two of one type, and at least the
operand's low bits in the input's. -/
def csvSatisfied (tx : Transaction) (input : TxIn) (operand : UInt32) : Bool :=
  operand &&& sequenceDisable != 0 ||
    (decide (2 ≤ tx.version.toUInt32) && input.sequence &&& sequenceDisable == 0 &&
      input.sequence &&& sequenceType == operand &&& sequenceType &&
      decide (operand &&& sequenceMask ≤ input.sequence &&& sequenceMask))

/-- A script number of at most five bytes; none for a negative one. -/
def scriptNumber (b : Bytes) : Option ℕ :=
  if 5 < b.length ∨ 0x80 ≤ ((b.getLast?).getD 0).toNat then none else some (leNat b)

/-- A script of direct pushes, small numbers, `CHECKSIGVERIFY` and
`CHECKSEQUENCEVERIFY` run on a stack, the top first; none when it fails. -/
def runScript (verify : Bytes → Bytes → Bool) (tx : Transaction) (input : TxIn) :
    ℕ → Bytes → List Bytes → Option (List Bytes)
  | _, [], stack => some stack
  | 0, _ :: _, _ => none
  | fuel + 1, op :: rest, stack =>
    if 1 ≤ op.toNat ∧ op.toNat ≤ 75 then
      if rest.length < op.toNat then none
      else runScript verify tx input fuel (rest.drop op.toNat) (rest.take op.toNat :: stack)
    else if 0x51 ≤ op.toNat ∧ op.toNat ≤ 0x60 then
      runScript verify tx input fuel rest ([UInt8.ofNat (op.toNat - 0x50)] :: stack)
    else if op = 0xad then
      match stack with
      | key :: sig :: stack =>
        if verify key sig then runScript verify tx input fuel rest stack else none
      | _ => none
    else if op = 0xb2 then
      match stack with
      | top :: _ =>
        (scriptNumber top).bind fun n =>
          if csvSatisfied tx input (UInt32.ofNat n) then runScript verify tx input fuel rest stack
          else none
      | [] => none
    else none

/-- The leaf satisfied by a signature: it runs, and leaves a number that is not zero. -/
def runLeaf (verify : Bytes → Bytes → Bool) (tx : Transaction) (input : TxIn) (script sig : Bytes) :
    Bool :=
  ((runScript verify tx input script.length script [sig]).bind List.head?).any fun top =>
    top.any fun b => b != 0

/-- The relative lock of a sequence is in blocks, and at least so many. -/
def WaitsBlocks (sequence : UInt32) (blocks : ℕ) : Prop :=
  sequence &&& sequenceDisable = 0 ∧ sequence &&& sequenceType = 0 ∧
    blocks ≤ (sequence &&& sequenceMask).toNat

theorem xOnlyOf_ok {key x : Bytes} (h : xOnlyOf key = .ok x) :
    ∃ b, hexDecode x = some b ∧ b.length = 32 ∧ hexEncode b = x := by
  have hlow : ∀ {s : Bytes}, s.length = 64 → s.all isHexDigit = true → toLower s = s →
      ∃ b, hexDecode s = some b ∧ b.length = 32 ∧ hexEncode b = s := by
    intro s hlen hdigits hsame
    obtain ⟨b, hb⟩ := hexDecode_of_digits (by omega) hdigits
    have hlength := length_hexDecode hb
    exact ⟨b, hb, by omega, (hexEncode_hexDecode hb).trans hsame⟩
  have hidem : ∀ s : Bytes, toLower (toLower s) = toLower s := by
    intro s
    unfold toLower
    rw [List.map_map]
    refine List.map_congr_left fun c _ => ?_
    have hc := c.toNat_lt
    unfold Function.comp lowerByte
    split_ifs with h1 h2
    · rw [UInt8.toNat_ofNat'] at h2
      omega
    · rfl
    · rfl
  unfold xOnlyOf at h
  dsimp only at h
  split_ifs at h with h1 h2
  · obtain rfl := Res.ok.inj h
    rw [Bool.and_eq_true, beq_iff_eq] at h1
    exact hlow h1.1 h1.2 (hidem key)
  · obtain rfl := Res.ok.inj h
    obtain ⟨-, -, h2⟩ := h2
    rw [Bool.and_eq_true, beq_iff_eq] at h2
    refine hlow h2.1 h2.2 ?_
    have hdrop := congrArg (List.drop 2) (hidem key)
    unfold toLower at hdrop ⊢
    rwa [← List.map_drop] at hdrop

/-- The script of a refund leaf: the key, and a count that was accepted. -/
theorem refundLeaf_ok {key leaf : Bytes} {n : UInt32} (h : refundLeaf key n = .ok leaf) :
    n ≠ 0 ∧ n ≤ 0x7fffffff ∧ ∃ x, x.length = 32 ∧
      hexDecode leaf = some (0x20 :: (x ++ 0xad :: (Sidestr.pushNum n.toNat ++ [0xb2]))) := by
  unfold refundLeaf at h
  obtain ⟨x, hx, h⟩ := Res.bind_eq_ok.mp h
  obtain ⟨count, hcount, h⟩ := Res.bind_eq_ok.mp h
  unfold pushNum at hcount
  split_ifs at hcount with hn
  rw [not_or, UInt32.not_lt] at hn
  obtain ⟨b, -, hlen, hb⟩ := xOnlyOf_ok hx
  obtain rfl := Res.ok.inj hcount
  refine ⟨hn.1, hn.2, b, hlen, ?_⟩
  have htext : leaf = hexEncode (0x20 :: (b ++ 0xad :: (Sidestr.pushNum n.toNat ++ [0xb2]))) := by
    rw [← Res.ok.inj h, ← hb]
    unfold hexEncode
    simp only [List.flatMap_cons, List.flatMap_append, List.flatMap_nil, List.append_assoc]
    rfl
  rw [htext, hexDecode_hexEncode]

section

variable (verify : Bytes → Bytes → Bool) (tx : Transaction) (input : TxIn) (fuel : ℕ) (rest : Bytes)
  (stack : List Bytes)

theorem runScript_push {push : Bytes} (hpos : 1 ≤ push.length) (hlen : push.length ≤ 75) :
    runScript verify tx input (fuel + 1) (UInt8.ofNat push.length :: (push ++ rest)) stack =
      runScript verify tx input fuel rest (push :: stack) := by
  have hbyte : (UInt8.ofNat push.length).toNat = push.length := by
    rw [UInt8.toNat_ofNat']
    omega
  rw [runScript.eq_def]
  dsimp only
  rw [hbyte, if_pos ⟨hpos, hlen⟩, if_neg (by rw [List.length_append]; omega), List.take_left,
    List.drop_left]

theorem runScript_checksigverify (key sig : Bytes) :
    runScript verify tx input (fuel + 1) (0xad :: rest) (key :: sig :: stack) =
      if verify key sig then runScript verify tx input fuel rest stack else none := by
  rw [runScript.eq_def]
  rfl

theorem runScript_csv {top : Bytes} {n : ℕ} (h : scriptNumber top = some n) :
    runScript verify tx input (fuel + 1) (0xb2 :: rest) (top :: stack) =
      if csvSatisfied tx input (UInt32.ofNat n) then runScript verify tx input fuel rest (top :: stack)
      else none := by
  rw [runScript.eq_def]
  dsimp only
  rw [if_neg (by decide), if_neg (by decide), if_neg (by decide), if_pos rfl, h, Option.bind_some]

theorem runScript_nil : runScript verify tx input fuel [] stack = some stack := by
  rw [runScript.eq_def]

end

/-- A count pushed, read as a number, and the stack it is left on. -/
theorem runScript_pushNum {n : ℕ} (h0 : 0 < n) (h31 : n ≤ 0x7fffffff) :
    ∃ top, scriptNumber top = some n ∧ (top.any fun b => b != 0) = true ∧
      ∀ (verify : Bytes → Bytes → Bool) (tx : Transaction) (input : TxIn) (fuel : ℕ) (rest : Bytes)
        (stack : List Bytes), runScript verify tx input (fuel + 1) (Sidestr.pushNum n ++ rest) stack =
          runScript verify tx input fuel rest (top :: stack) := by
  by_cases h16 : n ≤ 16
  · refine ⟨[UInt8.ofNat n], ?_, ?_, ?_⟩
    · interval_cases n
      all_goals rfl
    · interval_cases n
      all_goals rfl
    · intro verify tx input fuel rest stack
      interval_cases n
      all_goals rfl
  · obtain ⟨push, hpush, hne, hlen, hlast, hzero, hread⟩ := heightPush_spec (by omega : 0 < n)
      (by omega : n < 2 ^ 32)
    have hpos := List.length_pos_iff.mpr hne
    refine ⟨push, ?_, ?_, ?_⟩
    · unfold scriptNumber
      rw [if_neg (by omega), hread]
    · by_contra hall
      rw [Bool.not_eq_true, List.any_eq_false] at hall
      have hnil : ∀ b ∈ push, b = 0 := fun b hb => by simpa using hall b hb
      have hzero : leNat push = 0 := by
        rw [List.eq_replicate_of_mem hnil]
        generalize push.length = k
        induction k with
        | zero => rfl
        | succ k ih => rw [List.replicate_succ, leNat_cons, ih]; rfl
      omega
    · intro verify tx input fuel rest stack
      rw [pushNum_eq_heightPush (by omega) (by omega), hpush, List.cons_append]
      exact runScript_push verify tx input fuel rest stack hpos (by omega)

/-- **The leaf runs** on a signature that verifies, when its lock is satisfied. -/
theorem runLeaf_eq {x : Bytes} {n : UInt32} (hx : x.length = 32) (h0 : n ≠ 0) (h31 : n ≤ 0x7fffffff)
    (verify : Bytes → Bytes → Bool) (tx : Transaction) (input : TxIn) (sig : Bytes) :
    runLeaf verify tx input (0x20 :: (x ++ 0xad :: (Sidestr.pushNum n.toNat ++ [0xb2]))) sig =
      (verify x sig && csvSatisfied tx input n) := by
  have hpos : 0 < n.toNat := by
    rw [Nat.pos_iff_ne_zero]
    exact fun h => h0 (UInt32.toNat_inj.mp h)
  obtain ⟨top, hread, htop, hrun⟩ := runScript_pushNum hpos (UInt32.le_iff_toNat_le.mp h31)
  have hnum : ∃ k, (0x20 :: (x ++ 0xad :: (Sidestr.pushNum n.toNat ++ [0xb2]))).length = k + 4 := by
    refine ⟨31 + (Sidestr.pushNum n.toNat).length, ?_⟩
    simp only [List.length_cons, List.length_append, List.length_nil]
    omega
  obtain ⟨k, hk⟩ := hnum
  have hkey : (0x20 : UInt8) = UInt8.ofNat x.length := by
    rw [hx]
    rfl
  have hof : UInt32.ofNat n.toNat = n := UInt32.ofNat_toNat
  unfold runLeaf
  rw [hk, hkey, runScript_push verify tx input _ _ _ (by omega) (by omega),
    runScript_checksigverify]
  cases hv : verify x sig with
  | false => rfl
  | true =>
    rw [if_pos rfl, hrun, runScript_csv _ _ _ _ _ _ hread, hof]
    cases csvSatisfied tx input n with
    | false => rfl
    | true =>
      rw [if_pos rfl, runScript_nil, Option.bind_some, List.head?_cons, Option.any_some, htop]
      rfl

theorem and_mask_eq {n : UInt32} : n &&& sequenceMask = n ↔ n ≤ 0xffff := by
  rw [← UInt32.toNat_inj, UInt32.toNat_and, UInt32.le_iff_toNat_le]
  have hmask : sequenceMask.toNat = 2 ^ 16 - 1 := by decide
  have hmax : (0xffff : UInt32).toNat = 65535 := by decide
  rw [hmask, hmax, Nat.and_two_pow_sub_one_eq_mod]
  omega

/-- **The refund key waits as many blocks as the leaf says** exactly when the
count fits the sixteen bits of a sequence. -/
theorem refund_waits_iff {key leaf : Bytes} {n : UInt32} (h : refundLeaf key n = .ok leaf) :
    ∃ script, hexDecode leaf = some script ∧
      ((∀ verify tx input sig, runLeaf verify tx input script sig = true →
        WaitsBlocks input.sequence n.toNat) ↔ n ≤ 0xffff) := by
  obtain ⟨h0, h31, x, hx, hscript⟩ := refundLeaf_ok h
  refine ⟨_, hscript, ?_, ?_⟩
  · intro hall
    -- the least sequence that satisfies the lock
    let tx : Transaction := ⟨2, 0, [], []⟩
    let input : TxIn := ⟨OutPoint.null, [], n &&& 0x0040ffff, []⟩
    have hsat : csvSatisfied tx input n = true := by
      have hdisable : n &&& 0x0040ffff &&& sequenceDisable = 0 := by
        rw [UInt32.and_assoc]
        exact UInt32.and_zero
      have htype : n &&& 0x0040ffff &&& sequenceType = n &&& sequenceType := by
        rw [UInt32.and_assoc]
        rfl
      have hmask : n &&& 0x0040ffff &&& sequenceMask = n &&& sequenceMask := by
        rw [UInt32.and_assoc]
        rfl
      have hversion : decide (2 ≤ tx.version.toUInt32) = true := by decide
      unfold csvSatisfied
      rw [hdisable, htype, hmask, hversion, beq_self_eq_true, beq_self_eq_true,
        decide_eq_true (UInt32.le_refl _)]
      exact Bool.or_true _
    obtain ⟨-, -, hblocks⟩ := hall (fun _ _ => true) tx input []
      (by rw [runLeaf_eq hx h0 h31, hsat]; rfl)
    have hlow : (n &&& 0x0040ffff &&& sequenceMask).toNat ≤ 0xffff := by
      rw [UInt32.toNat_and]
      exact Nat.and_le_right
    exact UInt32.le_iff_toNat_le.mpr (hblocks.trans hlow)
  · intro hn verify tx input sig hrun
    rw [runLeaf_eq hx h0 h31, Bool.and_eq_true] at hrun
    have hmask := and_mask_eq.mpr hn
    have hfree : ∀ flag : UInt32, sequenceMask &&& flag = 0 → n &&& flag = 0 := by
      intro flag hflag
      rw [← hmask, UInt32.and_assoc, hflag, UInt32.and_zero]
    have hsat := hrun.2
    unfold csvSatisfied at hsat
    rw [hfree sequenceDisable (by decide), hfree sequenceType (by decide), hmask] at hsat
    simp only [bne_self_eq_false, Bool.false_or, Bool.and_eq_true, decide_eq_true_eq,
      beq_iff_eq] at hsat
    exact ⟨hsat.1.1.2, hsat.1.2, UInt32.le_iff_toNat_le.mp hsat.2⟩

/-- A refund key. -/
def sampleRefundKey : Bytes := List.replicate 64 0x61

/-- A count of `2 ^ 16`: an input with no lock at all sweeps the peg. -/
theorem refund_at_once : ¬ ∀ (key leaf script : Bytes) (n : UInt32), refundLeaf key n = .ok leaf →
    hexDecode leaf = some script → ∀ verify tx input sig,
      runLeaf verify tx input script sig = true → WaitsBlocks input.sequence n.toNat := by
  intro hall
  have hleaf : refundLeaf sampleRefundKey 0x10000 = .ok (ascii ['2', '0'] ++ sampleRefundKey ++
      ascii ['a', 'd', '0', '3', '0', '0', '0', '0', '0', '1', 'b', '2']) := by decide
  obtain ⟨h0, h31, x, hx, hscript⟩ := refundLeaf_ok hleaf
  have hwaits := hall _ _ _ _ hleaf hscript (fun _ _ => true) ⟨2, 0, [], []⟩
    ⟨OutPoint.null, [], 0, []⟩ [] (by rw [runLeaf_eq hx h0 h31]; decide)
  exact absurd hwaits.2.2 (by decide)

theorem refund_waits_sample : ∃ leaf, refundLeaf sampleRefundKey 10000 = .ok leaf ∧
    ∃ script, hexDecode leaf = some script ∧ ∀ verify tx input sig,
      runLeaf verify tx input script sig = true → WaitsBlocks input.sequence 10000 := by
  have hleaf : refundLeaf sampleRefundKey 10000 = .ok (ascii ['2', '0'] ++ sampleRefundKey ++
      ascii ['a', 'd', '0', '2', '1', '0', '2', '7', 'b', '2']) := by decide
  obtain ⟨script, hscript, hwaits⟩ := refund_waits_iff hleaf
  exact ⟨_, hleaf, script, hscript, hwaits.mpr (by decide)⟩

/-! ### The tree -/

/-- What the tree and the keys take of their dependencies. -/
class PegCurve where
  /-- `TapNodeHash::from_node_hashes`. -/
  nodeHash : Hash256 → Hash256 → Hash256
  /-- `PublicKey::from_slice` takes the bytes of a compressed point. -/
  isPoint : Bytes → Bool
  /-- `PublicKey::add_exp_tweak`: a compressed point and a scalar; none at infinity. -/
  addExpTweak : Bytes → Hash256 → Option Bytes
  /-- `script_to_address` under a prefix. -/
  scriptToAddress : Bytes → Bytes → Option Bytes

/-- A branch hash does not depend on the order of its two children. -/
class LawfulPegCurve [PegCurve] : Prop where
  nodeHash_comm : ∀ a b : Hash256, PegCurve.nodeHash a b = PegCurve.nodeHash b a

/-- A tree of leaves: its root and, for each leaf, the hashes its control block carries. -/
structure TapTree where
  root : Bytes
  paths : List (List Bytes)
  deriving DecidableEq

section

variable [Bitcoin] [Taproot] [PegCurve]

omit [PegCurve] in
/-- A leaf's hash, in hex. -/
def leafHash (script : Bytes) : Res PegError Bytes := do
  let script ← unhex script
  .ok (hashText (Taproot.leafHash script))

omit [PegCurve] in
/-- The leaves of the lowest level, from index `i` on. -/
def leafNodes : ℕ → List Bytes → Res PegError (List (Pairing.Node Hash256))
  | _, [] => .ok []
  | i, s :: scripts => do
    let script ← unhex s
    let rest ← leafNodes (i + 1) scripts
    .ok (⟨Taproot.leafHash script, [i]⟩ :: rest)

/-- The tree of leaf scripts, paired left to right. -/
def tapTree (leafScripts : List Bytes) : Res PegError TapTree := do
  if leafScripts.isEmpty then .err .emptyTree
  else
    let level ← leafNodes 0 leafScripts
    let (level, paths) := Pairing.climb PegCurve.nodeHash level (leafScripts.map fun _ => [])
    let root ← Res.expect level.head?
    .ok ⟨hashText root.hash, paths.map fun p => p.map hashText⟩

/-! ### The output -/

/-- The order of the group. -/
def curveOrder : ℕ := 0xfffffffffffffffffffffffffffffffebaaedce6af48a03bbfd25e8cd0364141

omit [Bitcoin] [Taproot] in
/-- A compressed point as the code writes one: `02` or `03` and 64 lower-case digits. -/
def parsePoint (p : Bytes) : Res PegError Bytes :=
  if p.length = 66 ∧ p.all isLowerHexDigit ∧
      (p.take 2 = ascii ['0', '2'] ∨ p.take 2 = ascii ['0', '3']) then
    match hexDecode p with
    | some b => if PegCurve.isPoint b then .ok b else .err .key
    | none => .err .key
  else .err .key

omit [Bitcoin] [Taproot] in
/-- The x coordinate of a point. -/
def xOnly (p : Bytes) : Res PegError Bytes := do
  let _ ← parsePoint p
  .ok (p.drop 2)

omit [Taproot] [PegCurve] in
/-- A tagged hash as a scalar; zero is refused. -/
def taggedScalar (tag : Bytes) (chunks : List Bytes) : Res PegError Hash256 :=
  let n := (tagged tag chunks.flatten).toNat % curveOrder
  if n = 0 then .err .key else .ok (BitVec.ofNat 256 n)

omit [Bitcoin] [Taproot] in
/-- A point with a multiple of the generator added. -/
def tweakPoint (p : Bytes) (t : Hash256) : Res PegError Bytes := do
  let point ← parsePoint p
  let q ← Res.okOr .key (PegCurve.addExpTweak point t)
  .ok (hexEncode q)

omit [Taproot] in
/-- The tweak of a point by a root, in hex. -/
def tapTweak (p : Bytes) (root : Bytes) : Res PegError Hash256 := do
  let x ← xOnly p
  let chunks ← Res.okOr .key (do
    let x ← hexDecode x
    let root ← hexDecode root
    some [x, root])
  taggedScalar (ascii ['T', 'a', 'p', 'T', 'w', 'e', 'a', 'k']) chunks

def pegTag : Bytes :=
  ascii ['s', 'i', 'd', 'e', 's', 't', 'r', '/', 'p', 'e', 'g', '-', 'i', 'n']

omit [Taproot] [PegCurve] in
/-- The commitment scalar of a chain hash and a sidechain script, both hex. -/
def pegCommitment (chainHash script : Bytes) : Res PegError Hash256 := do
  if chainHash.length ≠ 64 ∨ ¬ chainHash.all isHexDigit then .err .chainHash
  else if !isHexBytes script then .err .scriptHex
  else
    let chain ← Res.okOr .chainHash (hexDecode chainHash)
    let script ← unhex script
    taggedScalar pegTag [chain, displayBytes (Bitcoin.sha256 script)]

/-- The commitment key, its leaf `pk(C)` and the tweak. -/
structure CommitLeaf where
  key : Bytes
  script : Bytes
  tweak : Hash256
  deriving DecidableEq

omit [Taproot] in
def commitLeaf (chainHash script : Bytes) : Res PegError CommitLeaf := do
  let t ← pegCommitment chainHash script
  let c ← tweakPoint (ascii ['0', '2'] ++ hexEncode numsX) t
  let key ← xOnly c
  .ok ⟨key, ascii ['2', '0'] ++ key ++ ascii ['a', 'c'], t⟩

/-- What anyone needs to rebuild a peg output. -/
structure PegReveal where
  internal : Bytes
  refundKey : Bytes
  refundBlocks : UInt32
  chainHash : Bytes
  script : Bytes
  extraLeaves : List Bytes
  deriving DecidableEq

/-- One leaf of the output's tree, its hash and its control block in hex. -/
structure PegLeaf where
  script : Bytes
  hash : Bytes
  controlBlock : Bytes
  deriving DecidableEq

/-- What the peg output is. -/
structure PegOutput where
  internalKey : Bytes
  outputKey : Bytes
  outputParity : Bool
  scriptPubkey : Bytes
  address : Bytes
  root : Bytes
  tweak : Hash256
  commitKey : Bytes
  commitment : Hash256
  leaves : List PegLeaf
  refund : PegLeaf
  commit : PegLeaf
  reveal : PegReveal
  deriving DecidableEq

omit [PegCurve] in
/-- The leaves with their control blocks, from index `i` on. -/
def pegLeaves (internal : Bytes) (parity : Bool) (tree : TapTree) :
    ℕ → List Bytes → Res PegError (List PegLeaf)
  | _, [] => .ok []
  | i, s :: scripts => do
    let hash ← leafHash s
    let path ← Res.expect (tree.paths[i]?)
    let rest ← pegLeaves internal parity tree (i + 1) scripts
    .ok (⟨s, hash, hexEncode [controlByte parity] ++ internal ++ path.flatten⟩ :: rest)

/-- The peg output of a reveal, under an address prefix. -/
def pegOutput (reveal : PegReveal) (hrp : Bytes) : Res PegError PegOutput := do
  let internal ← xOnlyOf reveal.internal
  let p := ascii ['0', '2'] ++ internal
  let refundX ← xOnlyOf reveal.refundKey
  let refund ← refundLeaf refundX reveal.refundBlocks
  let commit ← commitLeaf reveal.chainHash reveal.script
  let leafScripts := refund :: commit.script :: reveal.extraLeaves
  let tree ← tapTree leafScripts
  let t ← tapTweak p tree.root
  let q ← tweakPoint p t
  let outputKey ← xOnly q
  let parity := q.take 2 == ascii ['0', '3']
  let leaves ← pegLeaves internal parity tree 0 leafScripts
  let scriptPubkey := ascii ['5', '1', '2', '0'] ++ outputKey
  let script ← Res.expect (hexDecode scriptPubkey)
  let address ← Res.okOr (.hrp hrp) (PegCurve.scriptToAddress script hrp)
  let refundLeaf ← Res.expect leaves[0]?
  let commitLeaf ← Res.expect leaves[1]?
  .ok {
    internalKey := internal
    outputKey
    outputParity := parity
    scriptPubkey
    address
    root := tree.root
    tweak := t
    commitKey := commit.key
    commitment := commit.tweak
    leaves
    refund := refundLeaf
    commit := commitLeaf
    reveal := { reveal with
      internal
      refundKey := refundX
      chainHash := toLower reveal.chainHash
      script := toLower reveal.script } }

/-! ### What a control block proves -/

omit [Bitcoin] [Taproot] [PegCurve] in
/-- The hashes of a path, 32 bytes each. -/
def readPath : ℕ → Bytes → List Hash256
  | 0, _ => []
  | k + 1, b => BitVec.ofNat 256 (beNat (b.take 32)) :: readPath k (b.drop 32)

omit [Bitcoin] in
/-- The root a control block gives a script: its path folded over the leaf's hash. -/
def controlRoot (control script : Bytes) : Hash256 :=
  (readPath ((control.length - 33) / 32) (control.drop 33)).foldl PegCurve.nodeHash
    (Taproot.leafHash script)

/-- A control block proves a script against an output key: its internal key
tweaked by the root it gives is the output key, of the parity it says. -/
def verifyCommitment (control script outputKey : Bytes) : Bool :=
  let p := ascii ['0', '2'] ++ hexEncode ((control.drop 1).take 32)
  33 ≤ control.length && (control.length - 33) % 32 == 0 &&
    ((do
      let t ← tapTweak p (hashText (controlRoot control script))
      let q ← tweakPoint p t
      let x ← xOnly q
      .ok (x, q.take 2 == ascii ['0', '3'])) : Res PegError (Bytes × Bool)).any fun r =>
        r.1 == outputKey && control.head? == some (controlByte r.2)

omit [Bitcoin] [Taproot] [PegCurve] in
theorem unhex_ok {s b : Bytes} (h : unhex s = .ok b) : hexDecode s = some b := by
  unfold unhex at h
  split_ifs at h with hnil hhex
  · rw [hnil, ← Res.ok.inj h]
    rfl
  · exact Res.okOr_eq_ok.mp h

omit [PegCurve] in
/-- The hash of leaf `i`. -/
def hashAt (scripts : List Bytes) (i : ℕ) : Hash256 :=
  match (scripts[i]?).map unhex with
  | some (.ok b) => Taproot.leafHash b
  | _ => 0

omit [Bitcoin] [PegCurve] in
theorem leafNodes_ok : ∀ {scripts : List Bytes} {i : ℕ} {level : List (Pairing.Node Hash256)},
    leafNodes i scripts = .ok level → level.length = scripts.length ∧
      level.flatMap Pairing.Node.leaves = List.range' i scripts.length ∧
      (∀ s ∈ scripts, ∃ b, unhex s = .ok b) ∧
      ∀ node ∈ level, ∃ j s b, scripts[j]? = some s ∧ unhex s = .ok b ∧
        node = ⟨Taproot.leafHash b, [i + j]⟩
  | [], i, level, h => by
    rw [leafNodes, Res.ok.injEq] at h
    rw [← h]
    exact ⟨rfl, rfl, fun _ hs => absurd hs List.not_mem_nil, fun _ hn => absurd hn List.not_mem_nil⟩
  | s :: scripts, i, level, h => by
    unfold leafNodes at h
    obtain ⟨b, hb, h⟩ := Res.bind_eq_ok.mp h
    obtain ⟨rest, hrest, h⟩ := Res.bind_eq_ok.mp h
    obtain ⟨hlen, hleaves, hall, hnodes⟩ := leafNodes_ok hrest
    rw [← Res.ok.inj h]
    refine ⟨by rw [List.length_cons, List.length_cons, hlen], ?_, ?_, ?_⟩
    · rw [List.flatMap_cons, hleaves, List.length_cons, List.range'_succ]
      rfl
    · intro t ht
      rcases List.mem_cons.mp ht with rfl | ht
      · exact ⟨b, hb⟩
      · exact hall t ht
    · intro node hn
      rcases List.mem_cons.mp hn with rfl | hn
      · exact ⟨0, s, b, rfl, hb, rfl⟩
      · obtain ⟨j, t, c, hj, hc, rfl⟩ := hnodes node hn
        exact ⟨j + 1, t, c, by rw [List.getElem?_cons_succ, hj], hc, by
          rw [show i + 1 + j = i + (j + 1) by omega]⟩

omit [Bitcoin] [PegCurve] in
theorem leafNodes_returns : ∀ {scripts : List Bytes} (i : ℕ), (∀ s ∈ scripts, ∃ b, unhex s = .ok b) →
    ∃ level, leafNodes i scripts = .ok level
  | [], _, _ => ⟨[], rfl⟩
  | s :: scripts, i, h => by
    obtain ⟨b, hb⟩ := h s List.mem_cons_self
    obtain ⟨rest, hrest⟩ := leafNodes_returns (i + 1) fun t ht => h t (List.mem_cons_of_mem _ ht)
    exact ⟨⟨Taproot.leafHash b, [i]⟩ :: rest, by rw [leafNodes, hb, Res.ok_bind, hrest, Res.ok_bind]⟩

omit [Bitcoin] in
/-- A tree is built of hex scripts only. -/
theorem tapTree_hex {scripts : List Bytes} {tree : TapTree} (h : tapTree scripts = .ok tree) :
    ∀ s ∈ scripts, ∃ b, unhex s = .ok b := by
  unfold tapTree at h
  split_ifs at h
  obtain ⟨level, hlevel, -⟩ := Res.bind_eq_ok.mp h
  exact (leafNodes_ok hlevel).2.2.1

omit [Bitcoin] in
/-- **The tree** has one root, and every leaf a path to it. -/
theorem tapTree_proves [LawfulPegCurve] {scripts : List Bytes} (hne : scripts ≠ [])
    (hhex : ∀ s ∈ scripts, ∃ b, unhex s = .ok b) :
    ∃ (tree : TapTree) (root : Hash256), tapTree scripts = .ok tree ∧ tree.root = hashText root ∧
      ∀ (i : ℕ) (s : Bytes), scripts[i]? = some s → ∃ (b : Bytes) (path : List Hash256),
        unhex s = .ok b ∧ tree.paths[i]? = some (path.map hashText) ∧
        path.foldl PegCurve.nodeHash (Taproot.leafHash b) = root ∧
        path.length ≤ Nat.clog 2 scripts.length := by
  obtain ⟨level, hlevel⟩ := leafNodes_returns 0 hhex
  obtain ⟨hlen, hleaves, -, hnodes⟩ := leafNodes_ok hlevel
  have hstart : Pairing.AllProve PegCurve.nodeHash (hashAt scripts) 0 level
      (scripts.map fun _ => []) := by
    intro node hn i hi
    obtain ⟨j, s, b, hj, hb, rfl⟩ := hnodes node hn
    rw [List.mem_singleton, Nat.zero_add] at hi
    subst hi
    refine ⟨[], by rw [List.getElem?_map, hj]; rfl, ?_, le_rfl⟩
    rw [List.foldl_nil]
    unfold hashAt
    rw [hj, Option.map_some, hb]
  obtain ⟨root, hroot, hsame, hproves⟩ := Pairing.climb_proves LawfulPegCurve.nodeHash_comm level
    (scripts.map fun _ => []) (by rw [← List.length_pos_iff, hlen]; exact List.length_pos_iff.mpr hne)
    (by rw [hleaves]; exact List.nodup_range') hstart
  refine ⟨_, root.hash, by
    unfold tapTree
    rw [if_neg (by simpa using hne), hlevel, Res.ok_bind]
    dsimp only
    rw [hroot, List.head?_cons, Res.expect_some, Res.ok_bind], rfl, ?_⟩
  intro i s hi
  have hlt : i < scripts.length := (List.getElem?_eq_some_iff.mp hi).1
  obtain ⟨b, hb⟩ := hhex s (List.mem_of_getElem? hi)
  obtain ⟨path, hpath, hfold, hshort⟩ := hproves i (by
    rw [hsame, hleaves, List.mem_range'_1]
    omega)
  refine ⟨b, path, hb, by rw [List.getElem?_map, hpath, Option.map_some], ?_, by
    rwa [Nat.zero_add, hlen] at hshort⟩
  unfold hashAt at hfold
  rwa [hi, Option.map_some, hb] at hfold

omit [Bitcoin] [PegCurve] in
/-- A leaf of the output: its script, and the path of its index. -/
theorem pegLeaves_ok {internal : Bytes} {parity : Bool} {tree : TapTree} :
    ∀ {scripts : List Bytes} {i : ℕ} {leaves : List PegLeaf},
      pegLeaves internal parity tree i scripts = .ok leaves → leaves.length = scripts.length ∧
        ∀ leaf ∈ leaves, ∃ j path, scripts[j]? = some leaf.script ∧ tree.paths[i + j]? = some path ∧
          leaf.controlBlock = hexEncode [controlByte parity] ++ internal ++ path.flatten
  | [], i, leaves, h => by
    rw [pegLeaves, Res.ok.injEq] at h
    rw [← h]
    exact ⟨rfl, fun _ hm => absurd hm List.not_mem_nil⟩
  | s :: scripts, i, leaves, h => by
    unfold pegLeaves at h
    obtain ⟨hash, -, h⟩ := Res.bind_eq_ok.mp h
    obtain ⟨path, hpath, h⟩ := Res.bind_eq_ok.mp h
    obtain ⟨rest, hrest, h⟩ := Res.bind_eq_ok.mp h
    obtain ⟨hlen, hall⟩ := pegLeaves_ok hrest
    rw [← Res.ok.inj h]
    refine ⟨by rw [List.length_cons, List.length_cons, hlen], fun leaf hm => ?_⟩
    rcases List.mem_cons.mp hm with rfl | hm
    · refine ⟨0, path, rfl, ?_, rfl⟩
      cases hp : tree.paths[i]? with
      | none => rw [hp] at hpath; cases hpath
      | some p =>
        rw [hp, Res.expect_some, Res.ok.injEq] at hpath
        rw [← hpath]
    · obtain ⟨j, p, hj, hp, hcontrol⟩ := hall leaf hm
      exact ⟨j + 1, p, by rw [List.getElem?_cons_succ, hj],
        by rw [show i + (j + 1) = i + 1 + j by omega, hp], hcontrol⟩

omit [Bitcoin] [Taproot] [PegCurve] in
theorem readPath_displayBytes : ∀ path : List Hash256,
    readPath path.length (path.flatMap displayBytes) = path
  | [] => rfl
  | h :: path => by
    have ih := readPath_displayBytes path
    rw [List.flatMap_cons, List.length_cons, readPath, ← length_displayBytes h, List.take_left,
      List.drop_left, ofNat_displayBytes, ih]

/-- **A control block that carries a path** proves its script against the key the
root of the path tweaks. -/
theorem verifyCommitment_path {b script outputKey t q : Bytes} {path : List Hash256}
    {tweak : Hash256} (hb : b.length = 32)
    (htweak : tapTweak (ascii ['0', '2'] ++ hexEncode b)
      (hashText (path.foldl PegCurve.nodeHash (Taproot.leafHash script))) = .ok tweak)
    (hq : tweakPoint (ascii ['0', '2'] ++ hexEncode b) tweak = .ok q) (hkey : xOnly q = .ok outputKey)
    (ht : t = controlByte (q.take 2 == ascii ['0', '3']) :: (b ++ path.flatMap displayBytes)) :
    verifyCommitment t script outputKey = true := by
  have hlen : (path.flatMap displayBytes).length = 32 * path.length := by
    clear htweak ht
    induction path with
    | nil => rfl
    | cons h path ih =>
      rw [List.flatMap_cons, List.length_append, ih, List.length_cons, length_displayBytes]
      omega
  have hcontrol : t.length = 33 + 32 * path.length := by
    rw [ht, List.length_cons, List.length_append, hb, hlen]
    omega
  have hinner : (t.drop 1).take 32 = b := by
    rw [ht, List.drop_succ_cons, List.drop_zero, ← hb, List.take_left]
  have hrest : t.drop 33 = path.flatMap displayBytes := by
    rw [ht, List.drop_succ_cons, ← hb, List.drop_left]
  have hroot : controlRoot t script = path.foldl PegCurve.nodeHash (Taproot.leafHash script) := by
    unfold controlRoot
    rw [hrest, hcontrol, show (33 + 32 * path.length - 33) / 32 = path.length by omega,
      readPath_displayBytes]
  unfold verifyCommitment
  dsimp only
  rw [hinner, hroot, htweak, Res.ok_bind, hq, Res.ok_bind, hkey, Res.ok_bind, hcontrol,
    decide_eq_true (by omega), show (33 + 32 * path.length - 33) % 32 = 0 by omega, ht,
    List.head?_cons]
  simp [Res.any]

omit [Bitcoin] [Taproot] [PegCurve] in
theorem hexDecode_path (path : List Hash256) :
    (path.map hashText).flatten = hexEncode (path.flatMap displayBytes) := by
  unfold hashText hexEncode
  rw [List.flatMap_assoc, List.flatMap_def]

/-- **Every leaf of a peg output can be spent with its control block.** The tree of
any leaf scripts has one root, which each leaf's path gives, with no more hashes
than there are levels; and the control blocks of an output prove its leaves
against its key. -/
theorem peg_leaves_proved [LawfulPegCurve] :
    (∀ scripts : List Bytes, scripts ≠ [] → (∀ s ∈ scripts, ∃ b, unhex s = .ok b) →
      ∃ (tree : TapTree) (root : Hash256), tapTree scripts = .ok tree ∧ tree.root = hashText root ∧
        ∀ (i : ℕ) (s : Bytes), scripts[i]? = some s → ∃ (b : Bytes) (path : List Hash256),
          unhex s = .ok b ∧ tree.paths[i]? = some (path.map hashText) ∧
          path.foldl PegCurve.nodeHash (Taproot.leafHash b) = root ∧
          path.length ≤ Nat.clog 2 scripts.length) ∧
    ∀ (reveal : PegReveal) (hrp : Bytes) (out : PegOutput), pegOutput reveal hrp = .ok out →
      out.leaves.length = reveal.extraLeaves.length + 2 ∧
      ∀ leaf ∈ out.leaves, ∃ script control, unhex leaf.script = .ok script ∧
        hexDecode leaf.controlBlock = some control ∧
        verifyCommitment control script out.outputKey = true := by
  refine ⟨fun scripts hne hhex => tapTree_proves hne hhex, ?_⟩
  intro reveal hrp out h
  unfold pegOutput at h
  obtain ⟨internal, hinternal, h⟩ := Res.bind_eq_ok.mp h
  obtain ⟨refundX, -, h⟩ := Res.bind_eq_ok.mp h
  obtain ⟨refund, -, h⟩ := Res.bind_eq_ok.mp h
  obtain ⟨commit, -, h⟩ := Res.bind_eq_ok.mp h
  obtain ⟨tree, htree, h⟩ := Res.bind_eq_ok.mp h
  obtain ⟨t, ht, h⟩ := Res.bind_eq_ok.mp h
  obtain ⟨q, hq, h⟩ := Res.bind_eq_ok.mp h
  obtain ⟨outputKey, hkey, h⟩ := Res.bind_eq_ok.mp h
  obtain ⟨leaves, hleaves, h⟩ := Res.bind_eq_ok.mp h
  obtain ⟨script, -, h⟩ := Res.bind_eq_ok.mp h
  obtain ⟨address, -, h⟩ := Res.bind_eq_ok.mp h
  obtain ⟨leaf0, -, h⟩ := Res.bind_eq_ok.mp h
  obtain ⟨leaf1, -, h⟩ := Res.bind_eq_ok.mp h
  rw [← Res.ok.inj h]
  let scripts := refund :: commit.script :: reveal.extraLeaves
  obtain ⟨b, -, hb, htext⟩ := xOnlyOf_ok hinternal
  obtain ⟨hlen, hall⟩ := pegLeaves_ok hleaves
  have hhex : ∀ s ∈ scripts, ∃ b, unhex s = .ok b := tapTree_hex htree
  obtain ⟨tree', root, htree', hroot, hproves⟩ := tapTree_proves (List.cons_ne_nil _ _) hhex
  obtain rfl : tree = tree' := Res.ok.inj (htree.symm.trans htree')
  refine ⟨hlen, fun leaf hm => ?_⟩
  obtain ⟨j, texts, hj, hpath, hcontrol⟩ := hall leaf hm
  obtain ⟨script, path, hscript, hpath', hfold, -⟩ := hproves j leaf.script hj
  rw [Nat.zero_add, hpath', Option.some.injEq] at hpath
  rw [← hpath, hexDecode_path, ← htext] at hcontrol
  refine ⟨script, controlByte (q.take 2 == ascii ['0', '3']) :: (b ++ path.flatMap displayBytes),
    hscript, ?_, ?_⟩
  · rw [hcontrol, List.append_assoc, hexDecode_hexEncode_append, hexDecode_hexEncode_append,
      hexDecode_hexEncode]
    rfl
  · rw [← htext] at ht hq
    rw [hroot, ← hfold] at ht
    exact verifyCommitment_path hb ht hq hkey rfl

end

section

attribute [local instance] sampleBitcoin sampleTaproot

/-- Keys of the sample: every 33 bytes are a point, tweaked into its tweak. -/
@[reducible] def samplePegCurve : PegCurve where
  nodeHash a b := a + b
  isPoint b := b.length == 33
  addExpTweak _ t := some (0x02 :: displayBytes t)
  scriptToAddress script hrp := some (hrp ++ script)

attribute [local instance] samplePegCurve

instance samplePegCurve_lawful : LawfulPegCurve where
  nodeHash_comm a b := BitVec.add_comm a b

def sampleReveal : PegReveal where
  internal := List.replicate 64 0x62
  refundKey := sampleRefundKey
  refundBlocks := 144
  chainHash := List.replicate 64 0x63
  script := ascii ['5', '1']
  extraLeaves := [ascii ['5', '1'], ascii ['5', '2'], ascii ['5', '3']]

set_option maxRecDepth 100000 in
theorem sampleReveal_output : (pegOutput sampleReveal (ascii ['t', 'b'])).any (fun _ => true) = true := by
  decide +kernel

theorem sampleReveal_leaves : ∀ s ∈ sampleReveal.extraLeaves, ∃ b, unhex s = .ok b := by
  intro s hs
  simp only [sampleReveal, List.mem_cons, List.not_mem_nil, or_false] at hs
  rcases hs with rfl | rfl | rfl
  · exact ⟨[0x51], by decide⟩
  · exact ⟨[0x52], by decide⟩
  · exact ⟨[0x53], by decide⟩

/-- A tree of three leaves, and the output that has them beside its own two. -/
theorem peg_leaves_proved_sample :
    (∃ (tree : TapTree) (root : Hash256), tapTree sampleReveal.extraLeaves = .ok tree ∧
      tree.root = hashText root ∧ ∀ (i : ℕ) (s : Bytes), sampleReveal.extraLeaves[i]? = some s →
        ∃ (b : Bytes) (path : List Hash256), unhex s = .ok b ∧
          tree.paths[i]? = some (path.map hashText) ∧
          path.foldl PegCurve.nodeHash (Taproot.leafHash b) = root ∧ path.length ≤ Nat.clog 2 3) ∧
    ∃ out, pegOutput sampleReveal (ascii ['t', 'b']) = .ok out ∧ out.leaves.length = 5 ∧
      ∀ leaf ∈ out.leaves, ∃ script control, unhex leaf.script = .ok script ∧
        hexDecode leaf.controlBlock = some control ∧
        verifyCommitment control script out.outputKey = true := by
  obtain ⟨out, hout, -⟩ := Res.any_eq_true.mp sampleReveal_output
  obtain ⟨hlen, hproved⟩ := peg_leaves_proved.2 sampleReveal _ out hout
  exact ⟨peg_leaves_proved.1 sampleReveal.extraLeaves (List.cons_ne_nil _ _) sampleReveal_leaves,
    out, hout, hlen, hproved⟩

end

end PegTweak

end Sidestr
