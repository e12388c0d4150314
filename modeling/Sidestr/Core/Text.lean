/-
# Texts that read back

Hashes, numbers and markers are written as texts and read from them. Each
reader gives back what its writer wrote: a hash from its 64 hex digits, a
number from its decimal digits, the outpoint from its claim marker.

Key theorems: `parseHash_hashText`, `decimal_decimalText`,
`opReturnData_opReturn`, `claimOutPoint_claimMarker`, `claimOutPoint_ok`.
-/
import Sidestr.Core.Marker
import Mathlib.Tactic.Ring

namespace Sidestr

/-! ### Bytes -/

theorem length_leBytes : ∀ k n : ℕ, (leBytes k n).length = k
  | 0, _ => rfl
  | k + 1, n => by rw [leBytes, List.length_cons, length_leBytes k]

/-- Reading big-endian after more digits: the digits so far move up. -/
theorem foldl_beNat (b : Bytes) (a : ℕ) :
    b.foldl (fun n x => n * 256 + x.toNat) a = a * 256 ^ b.length + beNat b := by
  unfold beNat
  induction b generalizing a with
  | nil => simp
  | cons x b ih =>
    rw [List.foldl_cons, ih, List.foldl_cons, ih (0 * 256 + x.toNat), List.length_cons, pow_succ]
    ring

theorem beNat_reverse_leBytes : ∀ k n : ℕ, beNat (leBytes k n).reverse = n % 256 ^ k
  | 0, n => by simp [leBytes, beNat, Nat.mod_one]
  | k + 1, n => by
    have ih := beNat_reverse_leBytes k (n / 256)
    unfold beNat at ih ⊢
    have hx : (UInt8.ofNat n).toNat = n % 256 := by simp
    rw [leBytes, List.reverse_cons, List.foldl_append, ih, List.foldl_cons, List.foldl_nil, hx,
      pow_succ, mul_comm (256 ^ k) 256, Nat.mod_mul]
    ring

/-! ### A hash's bytes -/

theorem length_displayBytes (h : Hash256) : (displayBytes h).length = 32 := by
  unfold displayBytes wireBytes
  rw [List.length_reverse, length_leBytes]

theorem beNat_displayBytes (h : Hash256) : beNat (displayBytes h) = h.toNat := by
  have hlt : h.toNat < 256 ^ 32 := by
    have := h.isLt
    omega
  unfold displayBytes wireBytes
  rw [beNat_reverse_leBytes, Nat.mod_eq_of_lt hlt]

/-- A hash is the number its display bytes write. -/
theorem ofNat_displayBytes (h : Hash256) : BitVec.ofNat 256 (beNat (displayBytes h)) = h := by
  rw [beNat_displayBytes, BitVec.ofNat_toNat, BitVec.setWidth_eq]

/-! ### Hex -/

theorem hexVal_hexDigit : ∀ n < 16, hexVal (hexDigit n) = some n := by decide

theorem isLowerHexDigit_hexDigit : ∀ n < 16, isLowerHexDigit (hexDigit n) = true := by decide

theorem hexVal_isSome {b : UInt8} (h : isLowerHexDigit b = true) : (hexVal b).isSome = true := by
  simp only [isLowerHexDigit, Bool.or_eq_true, Bool.and_eq_true, decide_eq_true_eq] at h
  unfold hexVal
  rcases h with h | h
  · simp [h]
  · have : ¬ (0x30 ≤ b.toNat ∧ b.toNat ≤ 0x39) := by omega
    simp [h, this]

theorem length_hexEncode (b : Bytes) : (hexEncode b).length = 2 * b.length := by
  unfold hexEncode
  induction b with
  | nil => rfl
  | cons x b ih =>
    rw [List.flatMap_cons, List.length_append, ih]
    simp only [List.length_cons, List.length_nil]
    omega

theorem hexEncode_lower (b : Bytes) : (hexEncode b).all isLowerHexDigit = true := by
  rw [List.all_eq_true]
  intro d hd
  obtain ⟨x, -, hd⟩ := List.mem_flatMap.mp hd
  have hx := x.toNat_lt
  rcases List.mem_cons.mp hd with rfl | hd
  · exact isLowerHexDigit_hexDigit _ (by omega)
  · rw [List.mem_singleton] at hd
    rw [hd]
    exact isLowerHexDigit_hexDigit _ (by omega)

/-- The digits of a byte string write the number its bytes do. -/
theorem foldl_hexEncode (b : Bytes) (a : ℕ) :
    (hexEncode b).foldl (fun n x => n * 16 + (hexVal x).getD 0) a =
      b.foldl (fun n x => n * 256 + x.toNat) a := by
  unfold hexEncode
  induction b generalizing a with
  | nil => rfl
  | cons x b ih =>
    have hx := x.toNat_lt
    have hpair : (a * 16 + x.toNat / 16) * 16 + x.toNat % 16 = a * 256 + x.toNat := by omega
    rw [List.flatMap_cons, List.foldl_append, ih, List.foldl_cons]
    simp only [List.foldl_cons, List.foldl_nil, hexVal_hexDigit _ (show x.toNat / 16 < 16 by omega),
      hexVal_hexDigit _ (show x.toNat % 16 < 16 by omega), Option.getD_some, hpair]

theorem length_hashText (h : Hash256) : (hashText h).length = 64 := by
  rw [hashText, length_hexEncode, length_displayBytes]

theorem hashText_lower (h : Hash256) : (hashText h).all isLowerHexDigit = true := hexEncode_lower _

/-- A hash reads back from its text. -/
theorem parseHash_hashText (h : Hash256) : parseHash (hashText h) = h := by
  have hfold : (hashText h).foldl (fun n x => n * 16 + (hexVal x).getD 0) 0 = h.toNat := by
    rw [hashText, foldl_hexEncode]
    exact beNat_displayBytes h
  unfold parseHash
  rw [hfold, BitVec.ofNat_toNat, BitVec.setWidth_eq]

/-! ### Decimal digits -/

theorem digitChar_toNat : ∀ d < 10, (Nat.digitChar d).toNat = 48 + d := by decide

theorem decimalText_eq (n : ℕ) : decimalText n =
    if n < 10 then [UInt8.ofNat (48 + n)]
    else decimalText (n / 10) ++ [UInt8.ofNat (48 + n % 10)] := by
  unfold decimalText
  rw [Nat.toDigits_eq_if (by omega)]
  split_ifs with h
  · rw [List.map_singleton, digitChar_toNat n h]
  · rw [List.map_append, List.map_singleton, digitChar_toNat _ (Nat.mod_lt _ (by omega))]

theorem digit_toNat {d : ℕ} (h : d < 10) : (UInt8.ofNat (48 + d)).toNat = 48 + d := by
  rw [UInt8.toNat_ofNat']
  omega

/-- A number reads back from its decimal digits. -/
theorem decimal_decimalText (n : ℕ) : decimal (decimalText n) = n := by
  induction n using Nat.strong_induction_on with
  | _ n ih =>
    rw [decimalText_eq]
    split_ifs with h
    · show 0 * 10 + ((UInt8.ofNat (48 + n)).toNat - 0x30) = n
      rw [digit_toNat h]
      omega
    · have hrest := ih (n / 10) (by omega)
      unfold decimal at hrest ⊢
      rw [List.foldl_append, hrest, List.foldl_cons, List.foldl_nil,
        digit_toNat (Nat.mod_lt _ (by omega))]
      omega

theorem decimalText_digits (n : ℕ) : (decimalText n).all isDigit = true := by
  have hdigit {d : ℕ} (h : d < 10) : isDigit (UInt8.ofNat (48 + d)) = true := by
    unfold isDigit
    rw [digit_toNat h, Bool.and_eq_true, decide_eq_true_eq, decide_eq_true_eq]
    omega
  induction n using Nat.strong_induction_on with
  | _ n ih =>
    rw [decimalText_eq]
    split_ifs with h
    · rw [List.all_cons, hdigit h]
      rfl
    · rw [List.all_append, ih (n / 10) (by omega), List.all_cons,
        hdigit (Nat.mod_lt _ (by omega))]
      rfl

theorem decimalText_ne_nil (n : ℕ) : decimalText n ≠ [] := by
  unfold decimalText
  rw [ne_eq, List.map_eq_nil_iff]
  exact Nat.toDigits_ne_nil

theorem length_decimalText_le {n k : ℕ} (hk : 0 < k) (h : n < 10 ^ k) :
    (decimalText n).length ≤ k := by
  unfold decimalText
  rw [List.length_map]
  exact (Nat.length_toDigits_le_iff (by omega) hk).mpr h

/-- A number of `k` digits is below `10 ^ k`. -/
theorem decimal_lt (b : Bytes) (h : b.all isDigit = true) : decimal b < 10 ^ b.length := by
  induction b using List.reverseRecOn with
  | nil => decide
  | append_singleton b d ih =>
    rw [List.all_append, Bool.and_eq_true, List.all_cons, List.all_nil, Bool.and_true] at h
    have hb := ih h.1
    have hd := h.2
    unfold isDigit at hd
    rw [Bool.and_eq_true, decide_eq_true_eq, decide_eq_true_eq] at hd
    unfold decimal at hb ⊢
    rw [List.foldl_append, List.foldl_cons, List.foldl_nil, List.length_append,
      List.length_singleton, pow_succ]
    omega

/-! ### Markers -/

theorem opReturnData_opReturn {d : Bytes} (h : d.length ≤ 255) :
    opReturnData (opReturn d) = some d := by
  unfold opReturn
  dsimp only
  have hlen : (UInt8.ofNat d.length).toNat = d.length := by
    rw [UInt8.toNat_ofNat']
    omega
  split_ifs with h75
  · have hne : UInt8.ofNat d.length ≠ 0x4c := by
      intro he
      rw [he] at hlen
      change 76 = d.length at hlen
      omega
    simp [opReturnData, hne, hlen]
  · simp [opReturnData, hlen]

theorem utf8Valid_of_ascii : ∀ {d : Bytes}, (∀ b ∈ d, b.toNat ≤ 0x7f) → utf8Valid d = true
  | [], _ => by rw [utf8Valid.eq_def]
  | a :: l, h => by
    rw [utf8Valid.eq_def]
    dsimp only
    rw [if_pos (h a List.mem_cons_self)]
    exact utf8Valid_of_ascii fun b hb => h b (List.mem_cons_of_mem _ hb)

theorem stripPrefix_append : ∀ p b : Bytes, stripPrefix p (p ++ b) = some b
  | [], b => by cases b <;> rfl
  | x :: p, b => by
    rw [List.cons_append, stripPrefix, if_pos rfl]
    exact stripPrefix_append p b

theorem eq_append_of_stripPrefix : ∀ {p d rest : Bytes}, stripPrefix p d = some rest → d = p ++ rest
  | [], d, rest, h => by
    cases d <;> simpa [stripPrefix] using h
  | x :: p, [], rest, h => by simp [stripPrefix] at h
  | x :: p, y :: d, rest, h => by
    unfold stripPrefix at h
    split_ifs at h with hxy
    rw [hxy, List.cons_append, ← eq_append_of_stripPrefix h]

theorem splitOnce_append {sep : UInt8} : ∀ {l : Bytes} (r : Bytes), sep ∉ l →
    splitOnce sep (l ++ sep :: r) = some (l, r)
  | [], r, _ => by rw [List.nil_append, splitOnce, if_pos rfl]
  | x :: l, r, h => by
    rw [List.mem_cons, not_or] at h
    rw [List.cons_append, splitOnce, if_neg (Ne.symm h.1), splitOnce_append r h.2]
    rfl

/-- A claim marker reads back as the outpoint it names. -/
theorem claimOutPoint_claimMarker {txid : Bytes} {vout : ℕ} (hlen : txid.length = 64)
    (hlow : txid.all isLowerHexDigit = true) (hvout : vout < 10 ^ 5) :
    claimOutPoint (claimMarker txid vout) = some (txid, vout) := by
  have hdigits := decimalText_digits vout
  have hshort := length_decimalText_le (by omega) hvout
  have hlower : ∀ b ∈ txid, b.toNat ≤ 0x7f ∧ b ≠ 0x3a := by
    intro b hb
    have hbl := List.all_eq_true.mp hlow b hb
    simp only [isLowerHexDigit, Bool.or_eq_true, Bool.and_eq_true, decide_eq_true_eq] at hbl
    refine ⟨by omega, ?_⟩
    rintro rfl
    revert hbl
    decide
  have hascii : ∀ b ∈ claimTag ++ txid ++ [0x3a] ++ decimalText vout, b.toNat ≤ 0x7f := by
    intro b hb
    simp only [List.append_assoc, List.mem_append, List.mem_singleton] at hb
    rcases hb with hb | hb | rfl | hb
    · simp only [claimTag, ascii, List.map_cons, List.map_nil, List.mem_cons, List.not_mem_nil,
        or_false] at hb
      rcases hb with rfl | rfl | rfl | rfl | rfl | rfl <;> decide
    · exact (hlower b hb).1
    · decide
    · have hbd := List.all_eq_true.mp hdigits b hb
      simp only [isDigit, Bool.and_eq_true, decide_eq_true_eq] at hbd
      omega
  have htext : markerText (claimTag ++ txid ++ [0x3a] ++ decimalText vout) =
      some (claimTag ++ txid ++ [0x3a] ++ decimalText vout) := by
    have hbom : withoutBom (claimTag ++ txid ++ [0x3a] ++ decimalText vout) =
        claimTag ++ txid ++ [0x3a] ++ decimalText vout := rfl
    unfold markerText
    rw [hbom, if_pos (utf8Valid_of_ascii hascii)]
  unfold claimOutPoint claimMarker
  rw [opReturnData_opReturn, Option.bind_some, htext, Option.bind_some]
  · unfold parseClaimText
    have hstrip : stripPrefix claimTag (claimTag ++ txid ++ [0x3a] ++ decimalText vout) =
        some (txid ++ 0x3a :: decimalText vout) := by
      rw [List.append_assoc, List.append_assoc, stripPrefix_append]
      rfl
    have hsplit : splitOnce 0x3a (txid ++ 0x3a :: decimalText vout) =
        some (txid, decimalText vout) := splitOnce_append _ fun hm => (hlower _ hm).2 rfl
    rw [hstrip]
    simp only [Option.bind_eq_bind, Option.bind_some, hsplit]
    rw [if_neg (by simp [hlen, hlow]), if_neg (by simp [decimalText_ne_nil, hdigits]; omega),
      decimal_decimalText]
  · have htag : claimTag.length = 6 := by decide
    simp only [List.length_append, hlen, htag, List.length_singleton]
    omega

/-- What a claim marker names: 64 lower-case hex digits and at most five decimal ones. -/
theorem claimOutPoint_ok {script txid : Bytes} {vout : ℕ}
    (h : claimOutPoint script = some (txid, vout)) :
    isOpReturn script = true ∧ txid.length = 64 ∧ txid.all isLowerHexDigit = true ∧
      vout < 10 ^ 5 := by
  unfold claimOutPoint at h
  obtain ⟨d, hd, h⟩ := Option.bind_eq_some_iff.mp h
  obtain ⟨t, -, h⟩ := Option.bind_eq_some_iff.mp h
  unfold parseClaimText at h
  simp only [Option.bind_eq_bind, Option.bind_eq_some_iff] at h
  obtain ⟨rest, -, ⟨a, v⟩, -, h⟩ := h
  dsimp only at h
  split_ifs at h with ha hv
  rw [not_or, not_not, not_not] at ha
  rw [not_or, not_or, not_not] at hv
  rw [Option.some.injEq, Prod.mk.injEq] at h
  obtain ⟨rfl, rfl⟩ := h
  refine ⟨isOpReturn_of_opReturnData hd, ha.1, ha.2, ?_⟩
  calc decimal v < 10 ^ v.length := decimal_lt v hv.2.2
    _ ≤ 10 ^ 5 := Nat.pow_le_pow_right (by omega) (by omega)

/-- A script that is no `OP_RETURN` claims nothing. -/
theorem claimOutPoint_eq_none {script : Bytes} (h : isOpReturn script = false) :
    claimOutPoint script = none := by
  cases hc : claimOutPoint script with
  | none => rfl
  | some op =>
    rw [(claimOutPoint_ok hc).1] at h
    exact absurd h.symm Bool.false_ne_true

end Sidestr
