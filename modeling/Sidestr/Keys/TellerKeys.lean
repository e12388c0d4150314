/-
# The keys of the teller

The teller's own port of `keys.mjs` (`keys.rs` of the teller): the same
functions, written on typed secrets and points and wrapped in hex. It reads
secrets and tweaks of 64 digits only, trims as ECMAScript does, and reduces a
hash modulo the order by a multiplication and an addition of scalars.

Key definitions: `point`, `basePoint`, `normalized`, `tweakedSecret`,
`tweakedPoint`, `reduce`, `taggedScalar`.
Key theorems: `point_ok`, `bytes32_some`, `reduce_eq`, `chains`.
-/
import Sidestr.Keys.CoreKeys

namespace Sidestr

namespace TellerKeys

open PegTweak (curveOrder)
open Secp

/-- `Error::Key`, with its message. -/
structure KeyRefusal where
  message : String
  deriving DecidableEq

def tweakRange : KeyRefusal := ⟨"a tweak is a scalar in [1, n-1]"⟩

def secretRange : KeyRefusal := ⟨"a secret is a scalar in [1, n-1]"⟩

def notAPoint : KeyRefusal := ⟨"not a compressed secp256k1 point (02/03 + x, on the curve)"⟩

/-- 32 bytes from 64 hex digits of either case. -/
def bytes32 (text : Bytes) : Option Bytes := if text.length ≠ 64 then none else hexDecode text

def scalarOf (b : Bytes) : Res KeyRefusal ℕ := do
  Res.refuseIf (b == List.replicate 32 0) tweakRange
  Res.okOr tweakRange (scalarFromBytes b)

def scalar (t : Bytes) : Res KeyRefusal ℕ := do
  let b ← Res.okOr tweakRange (bytes32 t)
  scalarOf b

def secret (d : Bytes) : Res KeyRefusal SecretScalar := do
  let b ← Res.okOr secretRange (bytes32 d)
  Res.okOr secretRange (SecretScalar.fromSlice b)

def hexSecret (d : SecretScalar) : Bytes := hexEncode d.bytes

section

variable [Secp]

/-- The shape of a point's text, by its bytes: `0`, then `2` or `3`, then 64 digits. -/
def shaped (b : Bytes) : Bool :=
  b.length == 66 && b.getD 0 0 == 0x30 && (b.getD 1 0 == 0x32 || b.getD 1 0 == 0x33) &&
    (b.drop 2).all isLowerHexDigit

def parsePoint (p : Bytes) : Option Point :=
  if !shaped p then none else (hexDecode p).bind fromSlice

def isPoint (p : Bytes) : Bool := (parsePoint p).isSome

def point (p : Bytes) : Res KeyRefusal Point := Res.okOr notAPoint (parsePoint p)

def publicKey (d : Bytes) : Res KeyRefusal Bytes := do
  let sk ← secret d
  .ok (pointHex (pointOf sk))

/-- The secret of the even point of the same x. -/
def normalized (d : SecretScalar) : SecretScalar := if odd (pointOf d) then d.negate else d

def normalize (d : Bytes) : Res KeyRefusal Bytes := do
  let s ← secret d
  .ok (if odd (pointOf s) then hexSecret s.negate else toLower d)

def signingKey (d : Bytes) : Res KeyRefusal Bytes := normalize d

/-- The point a trimmed identifier in lower case names. -/
def readIdentifier (s : Bytes) : Res KeyRefusal Bytes :=
  let isHex (t : Bytes) : Bool := t.all isLowerHexDigit
  let bare := (stripPrefix CoreKeys.didTag s).getD s
  if bare.length == 64 && isHex bare then do
    let x ← Res.expect (hexDecode bare)
    Res.refuseIf (!isXOnly x) ⟨"that x is not on the curve"⟩
    let _ ← point (parityHex false ++ bare)
    .ok (parityHex false ++ bare)
  else
    match (stripPrefix CoreKeys.multikeyTag s).filter fun key =>
      key.length == 66 && CoreKeys.startsCompressed key && isHex key with
    | some key => do
      let _ ← point key
      .ok key
    | none =>
      if s.length == 66 && CoreKeys.startsCompressed s && isHex s then do
        let _ ← point s
        .ok s
      else
        .err ⟨"not a did:nostr identifier, a did:nostr Multikey, or a compressed point"⟩

def basePoint [Wallet.CaseTables] (id : Wallet.Text) : Res KeyRefusal Bytes :=
  readIdentifier (Wallet.toUtf8 (Wallet.toLowercase (Wallet.jsTrim id)))

def xOnly (p : Bytes) : Res KeyRefusal Bytes := do
  let _ ← point p
  .ok (p.drop 2)

def did (p : Bytes) : Res KeyRefusal Bytes := do
  let x ← xOnly p
  .ok (CoreKeys.didTag ++ x)

def multikey (p : Bytes) : Res KeyRefusal Bytes := do
  let q ← point p
  .ok (CoreKeys.multikeyTag ++ pointHex q)

def negate (p : Bytes) : Res KeyRefusal Bytes := do
  let q ← point p
  .ok (pointHex (-q))

omit [Secp] in
def tweakedSecret (d : SecretScalar) (t : ℕ) : Res KeyRefusal SecretScalar :=
  Res.okOr ⟨"the tweak cancels the secret"⟩ (d.addTweak t)

def tweakedPoint (p : Point) (t : ℕ) : Res KeyRefusal Point :=
  Res.okOr ⟨"the tweak lands on infinity"⟩ (addExpTweak p t)

omit [Secp] in
def tweakSecret (d t : Bytes) : Res KeyRefusal Bytes := do
  let d ← secret d
  let t ← scalar t
  let r ← tweakedSecret d t
  .ok (hexSecret r)

def tweakPoint (p t : Bytes) : Res KeyRefusal Bytes := do
  let p ← point p
  let t ← scalar t
  let q ← tweakedPoint p t
  .ok (pointHex q)

end

/-- The scalar whose bytes are zeros but for a 1 in front of the low 16. -/
def two128 : ℕ := 2 ^ 128

/-- `hi ⊗ 2^128 ⊕ lo`, on scalars. -/
def joinHalves : Option SecretScalar → ℕ → Option ℕ
  | none, _ => none
  | some hi, lo =>
    ((hi.mulTweak two128).bind fun shifted => shifted.addTweak lo).map SecretScalar.val

/-- A hash reduced modulo the order; none when nothing is left. -/
def reduce (b : Bytes) : Option ℕ :=
  match scalarFromBytes b with
  | some s => if b ≠ List.replicate 32 0 then some s else none
  | none => joinHalves (SecretScalar.fromSlice (List.replicate 16 0 ++ b.take 16)) (beNat (b.drop 16))

section

variable [Sha256]

def taggedScalar (tag : Bytes) (chunks : List Bytes) : Res KeyRefusal Bytes := do
  let s ← Res.okOr ⟨"the tweak is zero: refuse this data"⟩ (reduce (CoreKeys.taggedHash tag chunks))
  .ok (hexEncode (scalarBytes s))

def tapTweak [Secp] (p : Bytes) (h32 : Option Bytes) : Res KeyRefusal Bytes := do
  let x ← xOnly p
  let x ← Res.expect (hexDecode x)
  match h32 with
  | some h => taggedScalar CoreKeys.tapTweakTag [x, h]
  | none => taggedScalar CoreKeys.tapTweakTag [x]

end

/-! ### Scalars -/

theorem bytes32_some {t b : Bytes} : bytes32 t = some b ↔ t.length = 64 ∧ hexDecode t = some b := by
  unfold bytes32
  split_ifs with h
  · simp [h]
  · simp [not_not.mp h]

theorem length_of_hexDecode {t b : Bytes} (hlen : t.length = 64) (h : hexDecode t = some b) :
    b.length = 32 := by
  have := length_hexDecode h
  omega

/-- On 64 digits a secret is what the core reads. -/
theorem secret_ok {d : Bytes} {k : SecretScalar} (hlen : d.length = 64) :
    secret d = .ok k ↔ CoreKeys.secret d = .ok k := by
  rw [CoreKeys.secret_ok]
  unfold secret
  rw [Res.bind_eq_ok]
  constructor
  · rintro ⟨b, hb, h⟩
    obtain ⟨-, hb⟩ := bytes32_some.mp (Res.okOr_eq_ok.mp hb)
    rw [Res.okOr_eq_ok, SecretScalar.fromSlice, if_pos (length_of_hexDecode hlen hb),
      SecretScalar.ofNat?_eq_some] at h
    exact ⟨b, hb, h.1.symm⟩
  · rintro ⟨b, hb, hv⟩
    refine ⟨b, Res.okOr_eq_ok.mpr (bytes32_some.mpr ⟨hlen, hb⟩), ?_⟩
    rw [Res.okOr_eq_ok, SecretScalar.fromSlice, if_pos (length_of_hexDecode hlen hb), hv,
      SecretScalar.ofNat?_val]

/-- On 64 digits a tweak is what the core reads. -/
theorem scalar_ok {t : Bytes} {k : ℕ} (hlen : t.length = 64) :
    scalar t = .ok k ↔ CoreKeys.scalar t = .ok k := by
  rw [CoreKeys.scalar_ok]
  have hzero : ∀ {b : Bytes}, hexDecode t = some b →
      ((b == List.replicate 32 0) = false ↔ 0 < beNat b) := by
    intro b hb
    have hb32 := length_of_hexDecode hlen hb
    rw [beq_eq_false_iff_ne, Nat.pos_iff_ne_zero]
    refine not_congr ⟨fun h => h ▸ beNat_zeros 32, fun h => ?_⟩
    exact beNat_injective (hb32.trans List.length_replicate.symm) (h.trans (beNat_zeros 32).symm)
  unfold scalar scalarOf
  rw [Res.bind_eq_ok]
  constructor
  · rintro ⟨b, hb, h⟩
    obtain ⟨-, hb⟩ := bytes32_some.mp (Res.okOr_eq_ok.mp hb)
    obtain ⟨_, hne, h⟩ := Res.bind_eq_ok.mp h
    have hpos := (hzero hb).mp (Res.refuseIf_eq_ok.mp hne)
    rw [Res.okOr_eq_ok, scalarFromBytes] at h
    split_ifs at h with hlt
    obtain rfl := Option.some.inj h
    exact ⟨b, hb, rfl, hpos, hlt⟩
  · rintro ⟨b, hb, rfl, hpos, hlt⟩
    refine ⟨b, Res.okOr_eq_ok.mpr (bytes32_some.mpr ⟨hlen, hb⟩), ?_⟩
    rw [(hzero hb).mpr hpos, Res.refuseIf_false, Res.ok_bind, Res.okOr_eq_ok, scalarFromBytes,
      if_pos hlt]

/-- The two halves of a hash. -/
theorem halves {b : Bytes} (h : b.length = 32) :
    beNat b = beNat (b.take 16) * two128 + beNat (b.drop 16) ∧
      beNat (b.take 16) < 2 ^ 128 ∧ beNat (b.drop 16) < 2 ^ 128 := by
  have hpow : (256 : ℕ) ^ 16 = 2 ^ 128 := by norm_num
  have htake : (b.take 16).length = 16 := by
    rw [List.length_take]
    omega
  have hdrop : (b.drop 16).length = 16 := by
    rw [List.length_drop]
    omega
  have happ := beNat_append (b.take 16) (b.drop 16)
  have hhi := beNat_lt (b.take 16)
  have hlo := beNat_lt (b.drop 16)
  rw [List.take_append_drop, hdrop, hpow] at happ
  rw [htake, hpow] at hhi
  rw [hdrop, hpow] at hlo
  exact ⟨happ, hhi, hlo⟩

/-- A power of two keeps a scalar from zero: the order is odd. -/
theorem mul_shift_ne_zero {a : ℕ} (hpos : 0 < a) (hlt : a < curveOrder) :
    a * two128 % curveOrder ≠ 0 := by
  have hcop : Nat.Coprime curveOrder two128 := Nat.Coprime.pow_right 128 (by decide)
  intro h0
  have hdvd := hcop.dvd_of_dvd_mul_right (Nat.dvd_of_mod_eq_zero h0)
  exact absurd (Nat.le_of_dvd hpos hdvd) (Nat.not_le.mpr hlt)

theorem joinHalves_eq {hi shifted : SecretScalar} (h : hi.mulTweak two128 = some shifted) (lo : ℕ) :
    joinHalves (some hi) lo = (shifted.addTweak lo).map SecretScalar.val := by
  rw [joinHalves, h, Option.bind_some]

/-- The high half times `2 ^ 128`, then the low half added, each modulo the order. -/
theorem reduce_large {b : Bytes} (h : b.length = 32) (hbig : curveOrder ≤ beNat b) :
    reduce b = if beNat b % curveOrder = 0 then none else some (beNat b % curveOrder) := by
  obtain ⟨hval, hhi, hlo⟩ := halves h
  have hn : (2 : ℕ) ^ 128 < curveOrder := by decide
  have hmod : ∀ n : ℕ, n % curveOrder < curveOrder := fun n => Nat.mod_lt _ (Nat.zero_lt_of_lt hn)
  have hpos : beNat (b.take 16) ≠ 0 := by
    intro h0
    rw [h0, Nat.zero_mul, Nat.zero_add] at hval
    omega
  obtain ⟨hi, hhi'⟩ := SecretScalar.exists_val hpos (hhi.trans hn)
  have hne := mul_shift_ne_zero hi.pos hi.lt
  obtain ⟨shifted, hshifted⟩ := SecretScalar.exists_val hne (hmod _)
  have hslice : SecretScalar.fromSlice (List.replicate 16 0 ++ b.take 16) = some hi := by
    have hlen : (List.replicate 16 (0 : UInt8) ++ b.take 16).length = 32 := by
      rw [List.length_append, List.length_replicate, List.length_take]
      omega
    rw [SecretScalar.fromSlice, if_pos hlen, beNat_append, beNat_zeros, Nat.zero_mul, Nat.zero_add,
      ← hhi', SecretScalar.ofNat?_val]
  have hmul : hi.mulTweak two128 = some shifted :=
    SecretScalar.mulTweak_eq_some.mpr ⟨hshifted, hne⟩
  have hsum : (shifted.val + beNat (b.drop 16)) % curveOrder = beNat b % curveOrder := by
    rw [hshifted, hhi', hval, Nat.mod_add_mod]
  have hsplit : reduce b = (shifted.addTweak (beNat (b.drop 16))).map SecretScalar.val := by
    have hover : scalarFromBytes b = none := if_neg (Nat.not_lt.mpr hbig)
    unfold reduce
    rw [hover, hslice]
    exact joinHalves_eq hmul _
  rw [hsplit]
  split_ifs with h0
  · have hnone : shifted.addTweak (beNat (b.drop 16)) = none := by
      rw [SecretScalar.addTweak, hsum, h0, SecretScalar.ofNat?, dif_neg fun hc => hc.1.ne rfl]
    rw [hnone, Option.map_none]
  · obtain ⟨sum, hs⟩ := SecretScalar.exists_val h0 (hmod _)
    have hsome : shifted.addTweak (beNat (b.drop 16)) = some sum :=
      SecretScalar.addTweak_eq_some.mpr (by rw [hsum]; exact ⟨hs, h0⟩)
    rw [hsome, Option.map_some, hs]

/-- The reduction: what is left of the number by the order, when something is. -/
theorem reduce_eq {b : Bytes} (h : b.length = 32) :
    reduce b = if beNat b % curveOrder = 0 then none else some (beNat b % curveOrder) := by
  by_cases hlt : beNat b < curveOrder
  · have hz : b = List.replicate 32 0 ↔ beNat b = 0 :=
      ⟨fun hb => hb ▸ beNat_zeros 32, fun h0 =>
        beNat_injective (h.trans List.length_replicate.symm) (h0.trans (beNat_zeros 32).symm)⟩
    unfold reduce scalarFromBytes
    rw [if_pos hlt, Nat.mod_eq_of_lt hlt]
    simp only [ne_eq, hz, ite_not]
  · exact reduce_large h (Nat.not_lt.mp hlt)

/-! ### Points -/

section

variable [Secp]

omit [Secp] in
theorem shaped_iff (p : Bytes) :
    shaped p = true ↔ CoreKeys.isLowerHex p 66 = true ∧ CoreKeys.startsCompressed p = true := by
  unfold shaped CoreKeys.isLowerHex CoreKeys.startsCompressed
  match p with
  | [] => simp
  | [a] => simp
  | a :: b :: s =>
    have hprefix : ∀ odd : Bool, (parityHex odd).isPrefixOf (a :: b :: s) = true ↔
        a = 0x30 ∧ b = if odd then 0x33 else 0x32 := by
      intro odd
      have htext : parityHex odd = [0x30, if odd then 0x33 else 0x32] := by cases odd <;> rfl
      rw [htext]
      simp only [List.isPrefixOf, Bool.and_true, Bool.and_eq_true, beq_iff_eq]
      exact ⟨fun h => ⟨h.1.symm, h.2.symm⟩, fun h => ⟨h.1.symm, h.2.symm⟩⟩
    rw [Bool.or_eq_true, hprefix, hprefix]
    simp only [Bool.and_eq_true, Bool.or_eq_true, beq_iff_eq, List.getD_cons_zero,
      List.getD_cons_succ, List.drop_succ_cons, List.drop_zero, List.all_cons, Bool.false_eq_true,
      if_false, if_true]
    constructor
    · rintro ⟨⟨⟨hlen, rfl⟩, h1⟩, hall⟩
      rcases h1 with rfl | rfl
      · exact ⟨⟨hlen, by decide, by decide, hall⟩, .inl ⟨rfl, rfl⟩⟩
      · exact ⟨⟨hlen, by decide, by decide, hall⟩, .inr ⟨rfl, rfl⟩⟩
    · rintro ⟨⟨hlen, -, -, hall⟩, ⟨rfl, rfl⟩ | ⟨rfl, rfl⟩⟩
      · exact ⟨⟨⟨hlen, rfl⟩, .inl rfl⟩, hall⟩
      · exact ⟨⟨⟨hlen, rfl⟩, .inr rfl⟩, hall⟩

/-- A point is read from its own text and from no other. -/
theorem point_ok {s : Bytes} {p : Point} : point s = .ok p ↔ p ≠ 0 ∧ s = pointHex p := by
  unfold point parsePoint
  rw [Res.okOr_eq_ok]
  by_cases hs : shaped s = true
  · obtain ⟨hhex, -⟩ := (shaped_iff s).mp hs
    simp only [CoreKeys.isLowerHex, Bool.and_eq_true, beq_iff_eq] at hhex
    rw [hs, Bool.not_true, if_neg (by decide), Option.bind_eq_some_iff]
    constructor
    · rintro ⟨b, hb, h⟩
      exact (fromSlice_hex hhex.1 hhex.2 hb).mp h
    · rintro ⟨h0, rfl⟩
      exact ⟨_, hexDecode_pointHex p,
        (fromSlice_hex hhex.1 hhex.2 (hexDecode_pointHex p)).mpr ⟨h0, rfl⟩⟩
  · rw [Bool.not_eq_true] at hs
    rw [hs, Bool.not_false, if_pos rfl]
    constructor
    · intro h
      cases h
    · rintro ⟨-, rfl⟩
      rw [(shaped_iff _).mpr ⟨by simp [CoreKeys.isLowerHex, length_pointHex, pointHex_lower],
        CoreKeys.startsCompressed_pointHex p⟩] at hs
      cases hs

theorem point_pointHex {p : Point} (h : p ≠ 0) : point (pointHex p) = .ok p := point_ok.mpr ⟨h, rfl⟩

theorem xOnly_pointHex {p : Point} (h : p ≠ 0) : xOnly (pointHex p) = .ok (hexEncode (x p)) := by
  unfold xOnly
  rw [point_pointHex h, Res.ok_bind, pointHex_eq]
  cases odd p
  · rfl
  · rfl

theorem did_pointHex {p : Point} (h : p ≠ 0) :
    did (pointHex p) = .ok (CoreKeys.didTag ++ hexEncode (x p)) := by
  unfold did
  rw [xOnly_pointHex h, Res.ok_bind]

/-- A normalized secret is the even point's. -/
theorem pointOf_normalized (d : SecretScalar) : pointOf (normalized d) = evenPoint (pointOf d) := by
  unfold normalized evenPoint
  split_ifs
  · exact smul_negate d
  · rfl

end

end TellerKeys

end Sidestr
