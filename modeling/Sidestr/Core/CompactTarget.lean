/-
# Compact targets

A proof-of-work target is a 256-bit number held as 32 big-endian bytes, and
its compact form, `bits`, an exponent and a mantissa (`target.rs`).
`fromCompact` places the mantissa's bytes, or shifts them out when the
exponent is at most 3; `toCompact` takes the leading three bytes, or the
leading two when the first has the bit set that a mantissa reads as its sign.

Over the numbers both are one formula. The exponent of `v` is the least `s`
with `2 * v < 256 ^ s`, which leaves the sign bit clear; the mantissa is
`v * 256 ^ 3 / 256 ^ s`; and the target of a mantissa `m` under `s` is
`m * 256 ^ s / 256 ^ 3`. The two functions on bytes are proved equal to these,
and what encoding loses is read off the formulas.

Key definitions: `Target`, `Target.fromCompact`, `Target.toCompact`, `expo`,
`mant`, `expand`.
Key theorems: `Target.fromCompact_ok`, `Target.toCompact_eq`,
`expand_mant`, `Target.compact_floor`.
-/
import Mathlib.Data.List.GetD
import Mathlib.Data.Nat.Bitwise
import Mathlib.Data.Nat.Log
import Mathlib.Tactic.Linarith
import Sidestr.Core.Text
import Sidestr.Lib.Outcome

namespace Sidestr

/-! ### Big-endian numbers -/

theorem beNat_append (a b : Bytes) : beNat (a ++ b) = beNat a * 256 ^ b.length + beNat b := by
  unfold beNat
  rw [List.foldl_append, foldl_beNat]
  rfl

theorem beNat_cons (x : UInt8) (b : Bytes) : beNat (x :: b) = x.toNat * 256 ^ b.length + beNat b := by
  have h := beNat_append [x] b
  rwa [show beNat [x] = x.toNat by simp [beNat]] at h

theorem beNat_lt : ∀ b : Bytes, beNat b < 256 ^ b.length
  | [] => by simp [beNat]
  | x :: b => by
    have ih := beNat_lt b
    have hx : x.toNat + 1 ≤ 256 := x.toNat_lt
    calc beNat (x :: b) = x.toNat * 256 ^ b.length + beNat b := beNat_cons x b
      _ < (x.toNat + 1) * 256 ^ b.length := by linarith
      _ ≤ 256 * 256 ^ b.length := Nat.mul_le_mul_right _ hx
      _ = 256 ^ (x :: b).length := by rw [List.length_cons, pow_succ, mul_comm]

theorem beNat_zeros : ∀ n, beNat (List.replicate n 0) = 0
  | 0 => rfl
  | n + 1 => by rw [List.replicate_succ, beNat_cons, beNat_zeros n]; simp

theorem beNat_take (b : Bytes) (k : ℕ) :
    beNat (b.take k) = beNat b / 256 ^ (b.length - k) := by
  have h := beNat_append (b.take k) (b.drop k)
  have hlt := beNat_lt (b.drop k)
  rw [List.take_append_drop, List.length_drop] at h
  rw [List.length_drop] at hlt
  rw [h, Nat.add_comm, Nat.add_mul_div_right _ _ (by positivity), Nat.div_eq_of_lt hlt,
    Nat.zero_add]

/-- Byte strings of one length that write one number are equal. -/
theorem beNat_injective : ∀ {a b : Bytes}, a.length = b.length → beNat a = beNat b → a = b
  | [], [], _, _ => rfl
  | x :: a, y :: b, hlen, h => by
    have hl : a.length = b.length := Nat.succ.inj hlen
    have ha := beNat_lt a
    have hb := beNat_lt b
    rw [beNat_cons, beNat_cons, hl] at h
    rw [hl] at ha
    have hpos : 0 < 256 ^ b.length := by positivity
    have hxy : x.toNat = y.toNat := by
      have hx := congrArg (· / 256 ^ b.length) h
      simpa [Nat.mul_add_div, Nat.add_comm, Nat.add_mul_div_right _ _ hpos,
        Nat.div_eq_of_lt ha, Nat.div_eq_of_lt hb] using hx
    have hab : beNat a = beNat b := by
      rw [hxy] at h
      omega
    rw [UInt8.toNat_inj.mp hxy, beNat_injective hl hab]

/-! ### The source's functions -/

/-- A 256-bit target: 32 big-endian bytes. -/
structure Target where
  bytes : Bytes
  length_eq : bytes.length = 32

inductive CompactError where
  | negative (bits : UInt32)
  | overflow (bits : UInt32)
  deriving DecidableEq, Repr

namespace Target

/-- The number the bytes write. -/
def value (t : Target) : ℕ := beNat t.bytes

def zero : Target := ⟨List.replicate 32 0, List.length_replicate⟩

/-- `out[31 - pos] = byte`. -/
def put (t : Target) (pos : ℕ) (byte : UInt8) : Target :=
  ⟨t.bytes.set (31 - pos) byte, List.length_set.trans t.length_eq⟩

/-- Byte `i` of the mantissa placed in the target; it must be zero past the end. -/
def place (bits : UInt32) (mantissa shift : ℕ) (out : Target) (i : ℕ) : Res CompactError Target :=
  let byte := (mantissa >>> (8 * i)) &&& 0xff
  let pos := shift + i
  if 31 < pos then
    if byte ≠ 0 then .err (.overflow bits) else .ok out
  else .ok (out.put pos (UInt8.ofNat byte))

/-- The mantissa of an exponent of at most 3. -/
def shortWord (word : ℕ) : Target :=
  ⟨List.replicate 29 (0 : UInt8) ++ [UInt8.ofNat (word >>> 16), UInt8.ofNat (word >>> 8), UInt8.ofNat word],
    rfl⟩

/-- The sign bit of `bits`, and the mantissa and the exponent beside it. -/
def sign (bits : UInt32) : Bool := bits.toNat &&& 0x00800000 ≠ 0

def mantissa (bits : UInt32) : ℕ := bits.toNat &&& 0x007fffff

def exponent (bits : UInt32) : ℕ := bits.toNat >>> 24

def fromCompact (bits : UInt32) : Res CompactError Target :=
  if mantissa bits ≠ 0 ∧ sign bits then .err (.negative bits)
  else if exponent bits ≤ 3 then .ok (shortWord (mantissa bits >>> (8 * (3 - exponent bits))))
  else Res.foldlM (place bits (mantissa bits) (exponent bits - 3)) zero [0, 1, 2]

/-- The leading three bytes from `first`, zeros below a number of fewer. -/
def leading (t : Target) (first : ℕ) : ℕ :=
  let size := 32 - first
  if size ≤ 3 then
    ((t.bytes.drop first).foldl (fun w b => (w <<< 8) ||| b.toNat) 0) <<< (8 * (3 - size))
  else
    ((t.bytes.getD first 0).toNat <<< 16) ||| ((t.bytes.getD (first + 1) 0).toNat <<< 8) |||
      (t.bytes.getD (first + 2) 0).toNat

def toCompact (t : Target) : UInt32 :=
  match t.bytes.findIdx? (· != 0) with
  | none => 0
  | some first =>
    let size := 32 - first
    let compact := t.leading first
    -- the sign bit of the mantissa must stay clear: shift and grow instead
    if compact &&& 0x00800000 ≠ 0 then UInt32.ofNat ((compact >>> 8) ||| ((size + 1) <<< 24))
    else UInt32.ofNat (compact ||| (size <<< 24))

/-- The bytes from the first that is not zero. -/
def size (t : Target) : ℕ := 32 - (t.bytes.findIdx? (· != 0)).getD 32

end Target

/-! ### The formulas -/

/-- The exponent `v` is written under: the least that keeps the sign bit clear. -/
def expo (v : ℕ) : ℕ := if v = 0 then 0 else Nat.log 256 (2 * v) + 1

def mant (v : ℕ) : ℕ := v * 256 ^ 3 / 256 ^ expo v

/-- The number of mantissa `m` under exponent `s`. -/
def expand (m s : ℕ) : ℕ := m * 256 ^ s / 256 ^ 3

theorem expo_le_iff {v r : ℕ} : expo v ≤ r ↔ 2 * v < 256 ^ r := by
  unfold expo
  split_ifs with h
  · subst h
    simp
  · rw [Nat.add_one_le_iff, Nat.log_lt_iff_lt_pow (by decide) (by omega)]

theorem lt_expo (v : ℕ) : 2 * v < 256 ^ expo v := expo_le_iff.mp le_rfl

/-- Below its exponent a positive number is not. -/
theorem pow_le_of_lt_expo {v r : ℕ} (h : r < expo v) : 256 ^ r ≤ 2 * v := by
  by_contra hlt
  exact absurd (expo_le_iff.mpr (by omega)) (by omega : ¬ expo v ≤ r)

theorem expo_mono {u v : ℕ} (h : u ≤ v) : expo u ≤ expo v :=
  expo_le_iff.mpr ((Nat.mul_le_mul_left 2 h).trans_lt (lt_expo v))

/-- The exponent is the one `r` for which `2 * v` lies between two powers. -/
theorem expo_eq {v r : ℕ} (hlt : 2 * v < 256 ^ (r + 1)) (hle : 256 ^ r ≤ 2 * v) :
    expo v = r + 1 := by
  have h1 : expo v ≤ r + 1 := expo_le_iff.mpr hlt
  have h2 : ¬ expo v ≤ r := by
    rw [expo_le_iff]
    omega
  omega

theorem expand_of_le {m s : ℕ} (h : 3 ≤ s) : expand m s = m * 256 ^ (s - 3) := by
  unfold expand
  rw [show 256 ^ s = 256 ^ (s - 3) * 256 ^ 3 by rw [← pow_add, Nat.sub_add_cancel h], ← mul_assoc,
    Nat.mul_div_cancel _ (by positivity)]

theorem expand_of_ge {m s : ℕ} (h : s ≤ 3) : expand m s = m / 256 ^ (3 - s) := by
  unfold expand
  rw [show 256 ^ 3 = 256 ^ (3 - s) * 256 ^ s by rw [← pow_add, Nat.sub_add_cancel h],
    Nat.mul_div_mul_right _ _ (by positivity)]

theorem mant_of_le {v : ℕ} (h : 3 ≤ expo v) : mant v = v / 256 ^ (expo v - 3) := by
  unfold mant
  rw [show 256 ^ expo v = 256 ^ (expo v - 3) * 256 ^ 3 by rw [← pow_add, Nat.sub_add_cancel h],
    Nat.mul_div_mul_right _ _ (by positivity)]

theorem mant_of_ge {v : ℕ} (h : expo v ≤ 3) : mant v = v * 256 ^ (3 - expo v) := by
  unfold mant
  rw [show 256 ^ 3 = 256 ^ (3 - expo v) * 256 ^ expo v by rw [← pow_add, Nat.sub_add_cancel h],
    ← mul_assoc, Nat.mul_div_cancel _ (by positivity)]

/-- The mantissa leaves the sign bit clear. -/
theorem mant_lt (v : ℕ) : mant v < 2 ^ 23 := by
  have h := lt_expo v
  unfold mant
  rw [Nat.div_lt_iff_lt_mul (by positivity)]
  calc v * 256 ^ 3 = 2 * v * 2 ^ 23 := by ring
    _ < 256 ^ expo v * 2 ^ 23 := Nat.mul_lt_mul_of_pos_right h (by positivity)
    _ = 2 ^ 23 * 256 ^ expo v := mul_comm _ _

/-- What encoding keeps: the bytes from the third below the exponent up. -/
theorem expand_mant (v : ℕ) :
    expand (mant v) (expo v) = v / 256 ^ (expo v - 3) * 256 ^ (expo v - 3) := by
  rcases Nat.le_total 3 (expo v) with h | h
  · rw [mant_of_le h, expand_of_le h]
  · rw [mant_of_ge h, expand_of_ge h, Nat.mul_div_cancel _ (by positivity),
      Nat.sub_eq_zero_of_le h]
    simp

/-- The number encoding keeps of `v`. -/
def kept (v : ℕ) : ℕ := expand (mant v) (expo v)

theorem kept_le (v : ℕ) : kept v ≤ v := by
  unfold kept
  rw [expand_mant]
  exact Nat.div_mul_le_self _ _

theorem kept_of_expo_le {v : ℕ} (h : expo v ≤ 3) : kept v = v := by
  unfold kept
  rw [expand_mant, Nat.sub_eq_zero_of_le h]
  simp

/-- Half a power is a multiple of the bytes dropped, so a number at least that
keeps at least that. -/
theorem half_le_kept {v r : ℕ} (hr : expo v = r + 1) (h3 : 3 ≤ r) : 256 ^ r ≤ 2 * kept v := by
  have hle : 256 ^ r ≤ 2 * v := pow_le_of_lt_expo (by omega)
  have hsplit : 256 ^ r = 2 * (2 ^ 15 * 256 ^ (r - 2)) := by
    obtain ⟨k, rfl⟩ := Nat.exists_eq_add_of_le (show 2 ≤ r by omega)
    rw [Nat.add_sub_cancel_left, pow_add]
    ring
  have hq : 2 ^ 15 ≤ v / 256 ^ (r - 2) := by
    rw [Nat.le_div_iff_mul_le (by positivity)]
    omega
  have hm := Nat.mul_le_mul_right (256 ^ (r - 2)) hq
  unfold kept
  rw [expand_mant, hr, show r + 1 - 3 = r - 2 by omega]
  omega

theorem expo_kept (v : ℕ) : expo (kept v) = expo v := by
  rcases Nat.le_total (expo v) 3 with h | h
  · rw [kept_of_expo_le h]
  · rcases Nat.eq_or_lt_of_le h with h3 | h3
    · rw [kept_of_expo_le h3.ge]
    · obtain ⟨r, hr⟩ := Nat.exists_eq_add_of_le' (show 1 ≤ expo v by omega)
      rw [hr]
      refine expo_eq ?_ (half_le_kept hr (by omega))
      calc 2 * kept v ≤ 2 * v := Nat.mul_le_mul_left 2 (kept_le v)
        _ < 256 ^ (r + 1) := hr ▸ lt_expo v

theorem mant_kept (v : ℕ) : mant (kept v) = mant v := by
  rcases Nat.le_total (expo v) 3 with h | h
  · rw [kept_of_expo_le h]
  · have hk : 3 ≤ expo (kept v) := by rwa [expo_kept]
    rw [mant_of_le hk, mant_of_le h, expo_kept]
    unfold kept
    rw [expand_mant, Nat.mul_div_cancel _ (by positivity)]

theorem kept_mono {u v : ℕ} (h : u ≤ v) : kept u ≤ kept v := by
  rcases Nat.eq_or_lt_of_le (expo_mono h) with he | he
  · -- one exponent: the same low bytes are dropped of both
    unfold kept
    rw [expand_mant, expand_mant, he]
    exact Nat.mul_le_mul_right _ (Nat.div_le_div_right h)
  · rcases Nat.le_total (expo v) 3 with h3 | h3
    · rw [kept_of_expo_le h3]
      exact (kept_le u).trans h
    · rcases Nat.eq_or_lt_of_le h3 with h3 | h3
      · rw [kept_of_expo_le h3.ge]
        exact (kept_le u).trans h
      · -- half the lower power lies between the two
        obtain ⟨r, hr⟩ := Nat.exists_eq_add_of_le' (show 1 ≤ expo v by omega)
        have hv := half_le_kept hr (by omega)
        have hu : 2 * u < 256 ^ r := expo_le_iff.mp (by omega)
        have := kept_le u
        omega

/-- An expanded mantissa loses nothing when it is encoded again. -/
theorem kept_expand {m s : ℕ} (hm : m < 2 ^ 23) : kept (expand m s) = expand m s := by
  rcases Nat.le_total s 3 with h | h
  · refine kept_of_expo_le (expo_le_iff.mpr ?_)
    have := Nat.div_le_self m (256 ^ (3 - s))
    rw [expand_of_ge h]
    omega
  · rw [expand_of_le h]
    have hs : expo (m * 256 ^ (s - 3)) ≤ s := by
      rw [expo_le_iff]
      calc 2 * (m * 256 ^ (s - 3)) = 2 * m * 256 ^ (s - 3) := by ring
        _ < 256 ^ 3 * 256 ^ (s - 3) :=
          Nat.mul_lt_mul_of_pos_right (by omega) (by positivity)
        _ = 256 ^ s := by rw [← pow_add, Nat.add_sub_cancel' h]
    unfold kept
    rw [expand_mant, Nat.div_mul_cancel]
    exact (pow_dvd_pow 256 (by omega)).trans (Dvd.intro_left _ rfl)

theorem sub_kept_lt (v : ℕ) : v - kept v < 256 ^ (expo v - 3) := by
  have h := Nat.div_add_mod' v (256 ^ (expo v - 3))
  have hlt := Nat.mod_lt v (show 0 < 256 ^ (expo v - 3) by positivity)
  unfold kept
  rw [expand_mant]
  omega

namespace Target

/-! ### Expanding -/

theorem value_lt (t : Target) : t.value < 256 ^ 32 := t.length_eq ▸ beNat_lt t.bytes

theorem ext_value {a b : Target} (h : a.value = b.value) : a = b := by
  obtain ⟨a, ha⟩ := a
  obtain ⟨b, hb⟩ := b
  obtain rfl : a = b := beNat_injective (ha.trans hb.symm) h
  rfl

/-- A byte put above all that is written adds its place's multiple. -/
theorem value_put {t : Target} {pos : ℕ} (hpos : pos ≤ 31) (h : t.value < 256 ^ pos)
    (byte : UInt8) : (t.put pos byte).value = byte.toNat * 256 ^ pos + t.value := by
  have hlen := t.length_eq
  have hi : 31 - pos < t.bytes.length := by omega
  have hdrop : (t.bytes.drop (31 - pos + 1)).length = pos := by
    rw [List.length_drop]
    omega
  have hsplit := List.take_append_drop (31 - pos) t.bytes
  rw [List.drop_eq_getElem_cons hi] at hsplit
  have hval : t.value = beNat (t.bytes.take (31 - pos)) * 256 ^ (pos + 1) +
      (t.bytes[31 - pos].toNat * 256 ^ pos + beNat (t.bytes.drop (31 - pos + 1))) := by
    unfold value
    conv_lhs => rw [← hsplit]
    rw [beNat_append, beNat_cons, List.length_cons, hdrop]
  have hput : (t.put pos byte).value = beNat (t.bytes.take (31 - pos)) * 256 ^ (pos + 1) +
      (byte.toNat * 256 ^ pos + beNat (t.bytes.drop (31 - pos + 1))) := by
    show beNat (t.bytes.set (31 - pos) byte) = _
    rw [List.set_eq_take_append_cons_drop, if_pos hi, beNat_append, beNat_cons, List.length_cons,
      hdrop]
  -- nothing is written at or above the place
  have hpow : 0 < 256 ^ pos := by positivity
  have htop : beNat (t.bytes.take (31 - pos)) * 256 ^ (pos + 1) = 0 := by
    rcases Nat.eq_zero_or_pos (beNat (t.bytes.take (31 - pos))) with h0 | h0
    · rw [h0, Nat.zero_mul]
    · have := Nat.mul_le_mul_right (256 ^ (pos + 1)) h0
      rw [pow_succ] at this hval
      omega
  have hbyte : t.bytes[31 - pos].toNat * 256 ^ pos = 0 := by
    rcases Nat.eq_zero_or_pos t.bytes[31 - pos].toNat with h0 | h0
    · rw [h0, Nat.zero_mul]
    · have := Nat.mul_le_mul_right (256 ^ pos) h0
      omega
  omega

theorem value_shortWord {word : ℕ} (h : word < 256 ^ 3) : (shortWord word).value = word := by
  have h0 : (UInt8.ofNat (word >>> 16)).toNat = word / 65536 := by
    simp only [UInt8.toNat_ofNat', Nat.shiftRight_eq_div_pow]
    omega
  have h1 : (UInt8.ofNat (word >>> 8)).toNat = word / 256 % 256 := by
    simp only [UInt8.toNat_ofNat', Nat.shiftRight_eq_div_pow]
  have h2 : (UInt8.ofNat word).toNat = word % 256 := UInt8.toNat_ofNat'
  show beNat (List.replicate 29 (0 : UInt8) ++ _) = word
  rw [beNat_append, beNat_zeros, beNat_cons, beNat_cons, beNat_cons, h0, h1, h2]
  simp only [List.length_cons, List.length_nil, beNat, List.foldl_nil]
  omega

/-- What is placed after `i` bytes of a mantissa. -/
structure Placed (m shift i : ℕ) (out : Target) : Prop where
  value_eq : out.value = m % 256 ^ i * 256 ^ shift
  fits : m % 256 ^ i * 256 ^ shift < 256 ^ 32

theorem mod_pow_mul_lt (m shift i : ℕ) : m % 256 ^ i * 256 ^ shift < 256 ^ (shift + i) := by
  rw [pow_add, mul_comm]
  exact Nat.mul_lt_mul_of_pos_left (Nat.mod_lt _ (by positivity)) (by positivity)

theorem mod_pow_succ_mul (m shift i : ℕ) : m % 256 ^ (i + 1) * 256 ^ shift =
    m / 256 ^ i % 256 * 256 ^ (shift + i) + m % 256 ^ i * 256 ^ shift := by
  rw [pow_succ, Nat.mod_mul, pow_add]
  ring

theorem mantissa_byte (m i : ℕ) : (m >>> (8 * i)) &&& 0xff = m / 256 ^ i % 256 := by
  rw [show (0xff : ℕ) = 2 ^ 8 - 1 from rfl, Nat.and_two_pow_sub_one_eq_mod,
    Nat.shiftRight_eq_div_pow, pow_mul]
  rfl

/-- One byte placed: the next of the mantissa is in place, or it does not fit. -/
theorem place_spec {bits : UInt32} {m shift i : ℕ} {out : Target} (h : Placed m shift i out) :
    (∃ next, place bits m shift out i = .ok next ∧ Placed m shift (i + 1) next) ∨
      (place bits m shift out i = .err (.overflow bits) ∧ 256 ^ 32 ≤ m * 256 ^ shift) := by
  have hbelow : out.value < 256 ^ (shift + i) := h.value_eq ▸ mod_pow_mul_lt m shift i
  have hstep := mod_pow_succ_mul m shift i
  unfold place
  rw [mantissa_byte]
  by_cases hpos : 31 < shift + i
  · by_cases hbyte : m / 256 ^ i % 256 = 0
    · refine .inl ⟨out, by simp [hpos, hbyte], ?_, ?_⟩
      · rw [hstep, hbyte, Nat.zero_mul, Nat.zero_add]
        exact h.value_eq
      · rw [hstep, hbyte, Nat.zero_mul, Nat.zero_add]
        exact h.fits
    · refine .inr ⟨by simp [hpos, hbyte], ?_⟩
      calc 256 ^ 32 ≤ 256 ^ (shift + i) := Nat.pow_le_pow_right (by decide) (by omega)
        _ ≤ m / 256 ^ i % 256 * 256 ^ (shift + i) :=
          Nat.le_mul_of_pos_left _ (Nat.pos_of_ne_zero hbyte)
        _ ≤ m % 256 ^ (i + 1) * 256 ^ shift := by omega
        _ ≤ m * 256 ^ shift := Nat.mul_le_mul_right _ (Nat.mod_le _ _)
  · have hto : (UInt8.ofNat (m / 256 ^ i % 256)).toNat = m / 256 ^ i % 256 := by
      simp
    have hv : (out.put (shift + i) (UInt8.ofNat (m / 256 ^ i % 256))).value =
        m % 256 ^ (i + 1) * 256 ^ shift := by
      rw [value_put (by omega) hbelow, hto, h.value_eq, hstep]
    exact .inl ⟨_, by simp [hpos], hv, hv ▸ value_lt _⟩

/-- Every byte placed: the mantissa stands at its shift, or does not fit. -/
theorem place_all (bits : UInt32) (m shift : ℕ) : ∀ (n i : ℕ) (out : Target), Placed m shift i out →
    (∃ t, Res.foldlM (place bits m shift) out (List.range' i n) = .ok t ∧
      Placed m shift (i + n) t) ∨
      (Res.foldlM (place bits m shift) out (List.range' i n) = .err (.overflow bits) ∧
        256 ^ 32 ≤ m * 256 ^ shift)
  | 0, _, out, h => .inl ⟨out, rfl, h⟩
  | n + 1, i, out, h => by
    rw [List.range'_succ, Res.foldlM_cons]
    rcases @place_spec bits _ _ _ _ h with ⟨next, hok, hnext⟩ | ⟨herr, hbig⟩
    · rw [hok, Res.ok_bind, show i + (n + 1) = i + 1 + n by omega]
      exact place_all bits m shift n (i + 1) next hnext
    · rw [herr]
      exact .inr ⟨rfl, hbig⟩

theorem mantissa_lt (bits : UInt32) : mantissa bits < 2 ^ 23 := by
  unfold mantissa
  rw [show (0x007fffff : ℕ) = 2 ^ 23 - 1 from rfl, Nat.and_two_pow_sub_one_eq_mod]
  exact Nat.mod_lt _ (by positivity)

/-- Bits that are not negative expand to their formula's number when it fits,
and overflow when it does not. -/
theorem fromCompact_spec (bits : UInt32) (h : mantissa bits = 0 ∨ sign bits = false) :
    (∃ t, fromCompact bits = .ok t ∧ t.value = expand (mantissa bits) (exponent bits)) ∨
      (fromCompact bits = .err (.overflow bits) ∧
        256 ^ 32 ≤ expand (mantissa bits) (exponent bits)) := by
  have hm := mantissa_lt bits
  have hneg : ¬ (mantissa bits ≠ 0 ∧ sign bits = true) := by
    rintro ⟨h0, hs⟩
    rcases h with h | h
    · exact h0 h
    · rw [h] at hs
      cases hs
  unfold fromCompact
  rw [if_neg hneg]
  split_ifs with h3
  · have hword : mantissa bits >>> (8 * (3 - exponent bits)) =
        expand (mantissa bits) (exponent bits) := by
      rw [expand_of_ge h3, Nat.shiftRight_eq_div_pow, pow_mul]
      rfl
    have hlt : expand (mantissa bits) (exponent bits) < 256 ^ 3 := by
      have := Nat.div_le_self (mantissa bits) (256 ^ (3 - exponent bits))
      rw [expand_of_ge h3]
      omega
    refine .inl ⟨_, rfl, ?_⟩
    rw [← hword] at hlt ⊢
    exact value_shortWord hlt
  · have hstart : Placed (mantissa bits) (exponent bits - 3) 0 zero :=
      ⟨by rw [pow_zero, Nat.mod_one, Nat.zero_mul]; exact beNat_zeros 32,
        by rw [pow_zero, Nat.mod_one, Nat.zero_mul]; positivity⟩
    have hall : mantissa bits % 256 ^ 3 = mantissa bits := Nat.mod_eq_of_lt (by omega)
    rw [expand_of_le (by omega)]
    rcases place_all bits (mantissa bits) (exponent bits - 3) 3 0 zero hstart with
      ⟨t, hok, ht⟩ | hover
    · exact .inl ⟨t, hok, ht.value_eq.trans (by rw [Nat.zero_add, hall])⟩
    · exact .inr hover

/-- Bits expand to a target just when they are not negative and their number
fits, and then to that number. -/
theorem fromCompact_ok {bits : UInt32} {t : Target} : fromCompact bits = .ok t ↔
    (mantissa bits = 0 ∨ sign bits = false) ∧
      t.value = expand (mantissa bits) (exponent bits) := by
  constructor
  · intro h
    have hpos : mantissa bits = 0 ∨ sign bits = false := by
      by_contra hneg
      obtain ⟨h0, hs⟩ := not_or.mp hneg
      rw [fromCompact, if_pos ⟨h0, by simpa using hs⟩] at h
      cases h
    refine ⟨hpos, ?_⟩
    rcases fromCompact_spec bits hpos with ⟨u, hu, hv⟩ | ⟨herr, -⟩
    · obtain rfl : u = t := by simpa [hu] using h
      exact hv
    · rw [herr] at h
      cases h
  · rintro ⟨hpos, hv⟩
    rcases fromCompact_spec bits hpos with ⟨u, hu, hu'⟩ | ⟨-, hbig⟩
    · rw [hu, ext_value (hu'.trans hv.symm)]
    · have := value_lt t
      omega

/-! ### Encoding -/

/-- The bytes of a target from its first that is not zero. -/
structure Leads (t : Target) (first : ℕ) : Prop where
  find : t.bytes.findIdx? (· != 0) = some first
  lt : first < 32
  lower : 256 ^ (31 - first) ≤ t.value
  upper : t.value < 256 ^ (32 - first)
  drop : beNat (t.bytes.drop first) = t.value

theorem leads_of_find {t : Target} {first : ℕ}
    (h : t.bytes.findIdx? (· != 0) = some first) : Leads t first := by
  have hlen := t.length_eq
  obtain ⟨hlt, hne, hzero⟩ := List.findIdx?_eq_some_iff_getElem.mp h
  have hfirst : first < 32 := hlen ▸ hlt
  have htake : t.bytes.take first = List.replicate first 0 := by
    refine List.eq_replicate_iff.mpr ⟨by rw [List.length_take]; omega, fun b hb => ?_⟩
    obtain ⟨i, hi, rfl⟩ := List.mem_take_iff_getElem.mp hb
    simpa using hzero i (by omega)
  have hdrop : beNat (t.bytes.drop first) = t.value := by
    have happ := beNat_append (t.bytes.take first) (t.bytes.drop first)
    rw [List.take_append_drop, htake, beNat_zeros, Nat.zero_mul, Nat.zero_add] at happ
    exact happ.symm
  have hcons := List.drop_eq_getElem_cons hlt
  have hrest : (t.bytes.drop (first + 1)).length = 31 - first := by
    rw [List.length_drop]
    omega
  refine ⟨h, hfirst, ?_, ?_, hdrop⟩
  · have hb : 1 ≤ t.bytes[first].toNat := by
      rw [Nat.one_le_iff_ne_zero]
      intro h0
      rw [show t.bytes[first] = 0 from UInt8.toNat_inj.mp h0] at hne
      cases hne
    rw [← hdrop, hcons, beNat_cons, hrest]
    have := Nat.mul_le_mul_right (256 ^ (31 - first)) hb
    omega
  · have hlt' := beNat_lt (t.bytes.drop first)
    rwa [hdrop, List.length_drop, hlen] at hlt'

theorem foldl_or_eq_beNat (b : Bytes) (a : ℕ) :
    b.foldl (fun w x => (w <<< 8) ||| x.toNat) a = b.foldl (fun n x => n * 256 + x.toNat) a := by
  induction b generalizing a with
  | nil => rfl
  | cons x b ih =>
    rw [List.foldl_cons, List.foldl_cons, ih, ← Nat.shiftLeft_add_eq_or_of_lt x.toNat_lt,
      Nat.shiftLeft_eq]

/-- The three bytes put together are the number they write. -/
theorem or_shift_eq (a b c : UInt8) :
    (a.toNat <<< 16) ||| (b.toNat <<< 8) ||| c.toNat = beNat [a, b, c] := by
  have h := foldl_or_eq_beNat [a, b, c] 0
  simp only [List.foldl_cons, List.foldl_nil] at h
  unfold beNat
  simp only [List.foldl_cons, List.foldl_nil]
  rw [← h]
  simp [Nat.shiftLeft_or_distrib, ← Nat.shiftLeft_add]

/-- The leading bytes are the number scaled to three bytes. -/
theorem leading_eq {t : Target} {first : ℕ} (h : Leads t first) :
    t.leading first = t.value * 256 ^ 3 / 256 ^ (32 - first) := by
  have hlen := t.length_eq
  have hlt := h.lt
  unfold leading
  simp only
  split_ifs with h3
  · have hpow : 256 ^ 3 = 256 ^ (3 - (32 - first)) * 256 ^ (32 - first) := by
      rw [← pow_add, Nat.sub_add_cancel h3]
    have hb : (t.bytes.drop first).foldl (fun w b => (w <<< 8) ||| b.toNat) 0 = t.value :=
      (foldl_or_eq_beNat _ 0).trans h.drop
    rw [hb, Nat.shiftLeft_eq, pow_mul, hpow, ← mul_assoc, Nat.mul_div_cancel _ (by positivity)]
    rfl
  · have hpow : 256 ^ (32 - first) = 256 ^ (29 - first) * 256 ^ 3 := by
      rw [← pow_add]
      congr 1
      omega
    have htake : (t.bytes.drop first).take 3 =
        [t.bytes.getD first 0, t.bytes.getD (first + 1) 0, t.bytes.getD (first + 2) 0] := by
      have h0 : first < t.bytes.length := by omega
      have h1 : first + 1 < t.bytes.length := by omega
      have h2 : first + 2 < t.bytes.length := by omega
      rw [List.drop_eq_getElem_cons h0, List.drop_eq_getElem_cons h1, List.drop_eq_getElem_cons h2]
      simp only [List.take_succ_cons, List.take_zero, List.getD_eq_getElem _ _ h0,
        List.getD_eq_getElem _ _ h1, List.getD_eq_getElem _ _ h2]
    rw [or_shift_eq, ← htake, beNat_take, h.drop, List.length_drop, hlen, hpow,
      Nat.mul_div_mul_right _ _ (by positivity)]
    congr 2
    omega

/-- The compact form is the exponent over the mantissa. -/
theorem toCompact_eq (t : Target) :
    t.toCompact = UInt32.ofNat (expo t.value <<< 24 + mant t.value) := by
  unfold toCompact
  cases hf : t.bytes.findIdx? (· != 0) with
  | none =>
    have hz : t.bytes = List.replicate 32 0 := by
      refine List.eq_replicate_iff.mpr ⟨t.length_eq, fun b hb => ?_⟩
      simpa using List.findIdx?_eq_none_iff.mp hf b hb
    have hv : t.value = 0 := by
      unfold value
      rw [hz, beNat_zeros]
    rw [hv]
    rfl
  | some first =>
    have h := leads_of_find hf
    have hlt := h.lt
    have hlead := leading_eq h
    have hm := mant_lt t.value
    have hsize : 256 ^ (32 - first) = 256 * 256 ^ (31 - first) := by
      rw [← pow_succ']
      congr 1
      omega
    have hlo := h.lower
    have hup := h.upper
    have hfit : t.leading first < 2 ^ 24 := by
      rw [hlead, Nat.div_lt_iff_lt_mul (by positivity)]
      linarith
    have hbit : t.leading first &&& 0x00800000 ≠ 0 ↔ 256 ^ (32 - first) ≤ 2 * t.value := by
      have htest : t.leading first &&& 0x00800000 ≠ 0 ↔ 2 ^ 23 ≤ t.leading first := by
        rw [show (0x00800000 : ℕ) = 2 ^ 23 from rfl, Nat.and_two_pow,
          Nat.testBit_eq_decide_div_mod_eq]
        constructor
        · intro hne
          by_contra hlt'
          rw [Nat.div_eq_of_lt (by omega)] at hne
          exact hne (by decide)
        · intro hle
          have h1 : t.leading first / 2 ^ 23 = 1 := by omega
          rw [h1]
          decide
      rw [htest, hlead, Nat.le_div_iff_mul_le (by positivity)]
      omega
    simp only
    split_ifs with hs
    · -- the sign bit would be set: one byte fewer under the next exponent
      have he : expo t.value = 32 - first + 1 :=
        expo_eq (by rw [pow_succ]; omega) (hbit.mp hs)
      have hmant : t.leading first >>> 8 = mant t.value := by
        unfold mant
        rw [hlead, he, Nat.shiftRight_eq_div_pow, Nat.div_div_eq_div_mul, pow_succ 256 (32 - first)]
      rw [hmant, he, Nat.or_comm, ← Nat.shiftLeft_add_eq_or_of_lt (by omega)]
    · have he : expo t.value = 32 - first := by
        have := expo_eq (v := t.value) (r := 31 - first) (by
          rw [show 31 - first + 1 = 32 - first by omega]
          have := fun hc => hs (hbit.mpr hc)
          omega) (by omega)
        omega
      have hmant : t.leading first = mant t.value := by rw [hlead, mant, he]
      rw [hmant, he, Nat.or_comm, ← Nat.shiftLeft_add_eq_or_of_lt (by omega)]

/-- The exponent of a 256-bit number fits its byte. -/
theorem expo_value_le (t : Target) : expo t.value ≤ 33 := by
  have := value_lt t
  rw [expo_le_iff]
  omega

theorem toNat_toCompact (t : Target) :
    t.toCompact.toNat = expo t.value * 2 ^ 24 + mant t.value := by
  have he := expo_value_le t
  have hm := mant_lt t.value
  rw [toCompact_eq, Nat.shiftLeft_eq, UInt32.toNat_ofNat', Nat.mod_eq_of_lt (by omega)]

theorem exponent_toCompact (t : Target) : exponent t.toCompact = expo t.value := by
  have hm := mant_lt t.value
  unfold exponent
  rw [toNat_toCompact, Nat.shiftRight_eq_div_pow]
  omega

theorem mantissa_toCompact (t : Target) : mantissa t.toCompact = mant t.value := by
  have hm := mant_lt t.value
  unfold mantissa
  rw [toNat_toCompact, show (0x007fffff : ℕ) = 2 ^ 23 - 1 from rfl, Nat.and_two_pow_sub_one_eq_mod]
  omega

theorem sign_toCompact (t : Target) : sign t.toCompact = false := by
  have hm := mant_lt t.value
  unfold sign
  rw [toNat_toCompact, show (0x00800000 : ℕ) = 2 ^ 23 from rfl, Nat.and_two_pow,
    Nat.testBit_eq_decide_div_mod_eq, show (expo t.value * 2 ^ 24 + mant t.value) / 2 ^ 23 % 2 = 0 by
      omega]
  rfl

/-- What a target expands to once encoded is what encoding keeps of it. -/
theorem fromCompact_toCompact {t t2 : Target} :
    fromCompact t.toCompact = .ok t2 ↔ t2.value = kept t.value := by
  rw [fromCompact_ok, exponent_toCompact, mantissa_toCompact, sign_toCompact]
  exact ⟨fun h => h.2, fun h => ⟨.inr rfl, h⟩⟩

theorem exists_kept (t : Target) : ∃ t2 : Target, t2.value = kept t.value := by
  have hv := value_lt t
  have hk : expand (mant t.value) (expo t.value) ≤ t.value := kept_le t.value
  rcases fromCompact_spec t.toCompact (.inr (sign_toCompact t)) with ⟨t2, -, h⟩ | ⟨-, hbig⟩
  · rw [mantissa_toCompact, exponent_toCompact] at h
    exact ⟨t2, h⟩
  · rw [mantissa_toCompact, exponent_toCompact] at hbig
    omega

/-- What encoding drops stands below the second leading byte. -/
theorem expo_value_le_size (t : Target) : expo t.value - 3 ≤ t.size - 2 := by
  unfold size
  cases hf : t.bytes.findIdx? (· != 0) with
  | none =>
    have h0 : t.toCompact = 0 := by
      unfold toCompact
      rw [hf]
    have he := exponent_toCompact t
    rw [h0] at he
    have : exponent 0 = 0 := by decide
    omega
  | some first =>
    have h := leads_of_find hf
    have hlt := h.lt
    have hup := h.upper
    have he : expo t.value ≤ 32 - first + 1 := by
      rw [expo_le_iff, pow_succ]
      omega
    simp only [Option.getD_some]
    omega

/-- The bytes of what is kept: the target's own, then zeros. -/
theorem bytes_of_kept {t t2 : Target} (h : t2.value = kept t.value) :
    t2.bytes = t.bytes.take (32 - (expo t.value - 3)) ++ List.replicate (expo t.value - 3) 0 := by
  have hlen := t.length_eq
  have he := expo_value_le t
  refine beNat_injective ?_ ?_
  · rw [t2.length_eq, List.length_append, List.length_take, List.length_replicate]
    omega
  · rw [beNat_append, beNat_zeros, List.length_replicate, beNat_take, hlen,
      show 32 - (32 - (expo t.value - 3)) = expo t.value - 3 by omega, Nat.add_zero]
    exact h.trans (expand_mant t.value)

/-- **Compact targets are exact floors.** A target expands, once encoded, to
the target with some of its low bytes cleared, none of its leading two; that
has the same compact form, and a smaller target expands to no more. Bits that
expand to a target other than zero, encoded again, expand to the same one. -/
theorem compact_floor (t : Target) :
    (∃ t2, fromCompact t.toCompact = .ok t2 ∧ t2.value ≤ t.value ∧
      (∃ k, k ≤ t.size - 2 ∧ t2.bytes = t.bytes.take (32 - k) ++ List.replicate k 0) ∧
      t.value - t2.value < 2 ^ (8 * (t.size - 2)) ∧ t2.toCompact = t.toCompact ∧
      ∀ u : Target, u.value ≤ t.value →
        ∃ u2, fromCompact u.toCompact = .ok u2 ∧ u2.value ≤ t2.value) ∧
    ∀ bits x, fromCompact bits = .ok x → x.value ≠ 0 → fromCompact x.toCompact = .ok x := by
  constructor
  · obtain ⟨t2, h2⟩ := exists_kept t
    refine ⟨t2, fromCompact_toCompact.mpr h2, h2.trans_le (kept_le _),
      ⟨_, expo_value_le_size t, bytes_of_kept h2⟩, ?_, ?_, fun u hu => ?_⟩
    · rw [h2]
      calc t.value - kept t.value < 256 ^ (expo t.value - 3) := sub_kept_lt _
        _ ≤ 256 ^ (t.size - 2) := Nat.pow_le_pow_right (by decide) (expo_value_le_size t)
        _ = 2 ^ (8 * (t.size - 2)) := (pow_mul 2 8 _).symm
    · rw [toCompact_eq, toCompact_eq, h2, expo_kept, mant_kept]
    · obtain ⟨u2, hu2⟩ := exists_kept u
      exact ⟨u2, fromCompact_toCompact.mpr hu2, by rw [hu2, h2]; exact kept_mono hu⟩
  · intro bits x hx _
    obtain ⟨-, hv⟩ := fromCompact_ok.mp hx
    rw [fromCompact_toCompact, hv, kept_expand (mantissa_lt bits)]

theorem compact_floor_genesis : ∃ x, fromCompact 0x1d00ffff = .ok x ∧ x.value ≠ 0 ∧
    fromCompact x.toCompact = .ok x :=
  ⟨_, rfl, by decide, (compact_floor zero).2 0x1d00ffff _ rfl (by decide)⟩

/-- The largest target: its leading byte would read as a sign. -/
def max : Target := ⟨List.replicate 32 0xff, List.length_replicate⟩

example : max.toCompact = 0x2100ffff := by decide

end Target

end Sidestr
