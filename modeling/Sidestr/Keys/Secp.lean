/-
# Scalars, points and their texts

What the two ports of `keys.mjs` take from libsecp256k1: secret keys, scalars
modulo the order of the group, and points with the 33 bytes they are written
in. Scalars are numbers. Points are any group with a generator of that order,
an x and a parity for which x fixes a point up to its sign and the sign turns
the parity over.

A point's text is the hex of its bytes, and both ports read such a text with
the same result: it is the text of the point (`pointHex_inj`).

Key definitions: `Secp`, `Secp.SecretScalar`, `Secp.pointHex`, `Secp.evenPoint`.
Key theorems: `Secp.smul_negate`, `Secp.pointOf_addTweak`, `Secp.eq_evenPoint`,
`Secp.pointHex_inj`, `Secp.fromSlice_hex`.
-/
import Mathlib.Algebra.Group.Basic
import Mathlib.Data.ZMod.Basic
import Sidestr.Core.CompactTarget
import Sidestr.Nostr.Tags

namespace Sidestr

open PegTweak (curveOrder)

/-- libsecp256k1's points, and what is relied on of them. -/
class Secp where
  Point : Type
  [group : AddCommGroup Point]
  [decEq : DecidableEq Point]
  gen : Point
  smul_gen : ∀ k : ℕ, k • gen = 0 ↔ curveOrder ∣ k
  /-- The 32 bytes of x. -/
  x : Point → Bytes
  /-- The parity of y. -/
  odd : Point → Bool
  length_x : ∀ p, (x p).length = 32
  x_neg : ∀ p, x (-p) = x p
  odd_neg : ∀ p, p ≠ 0 → odd (-p) = !odd p
  eq_or_neg : ∀ p q, p ≠ 0 → q ≠ 0 → x p = x q → p = q ∨ p = -q
  /-- `PublicKey::from_slice`. -/
  fromSlice : Bytes → Option Point
  fromSlice_some : ∀ b p, b.length = 33 →
    (fromSlice b = some p ↔ p ≠ 0 ∧ b = (if odd p then 3 else 2) :: x p)
  /-- `XOnlyPublicKey::from_slice` accepts the bytes. -/
  isXOnly : Bytes → Bool
  isXOnly_iff : ∀ b, b.length = 32 → (isXOnly b = true ↔ ∃ p, p ≠ 0 ∧ x p = b)

attribute [reducible, instance] Secp.group Secp.decEq

/-- SHA-256, as bytes. -/
class Sha256 where
  sha256 : Bytes → Bytes
  length_sha256 : ∀ b, (sha256 b).length = 32

namespace Secp

/-! ### Scalars -/

/-- The 32 big-endian bytes of a number. -/
def scalarBytes (k : ℕ) : Bytes := (leBytes 32 k).reverse

theorem length_scalarBytes (k : ℕ) : (scalarBytes k).length = 32 := by
  unfold scalarBytes
  rw [List.length_reverse, length_leBytes]

theorem curveOrder_lt : curveOrder < 256 ^ 32 := by decide

theorem beNat_scalarBytes {k : ℕ} (h : k < 256 ^ 32) : beNat (scalarBytes k) = k := by
  unfold scalarBytes
  rw [beNat_reverse_leBytes, Nat.mod_eq_of_lt h]

theorem scalarBytes_beNat {b : Bytes} (h : b.length = 32) : scalarBytes (beNat b) = b :=
  beNat_injective ((length_scalarBytes _).trans h.symm) (beNat_scalarBytes (h ▸ beNat_lt b))

/-- A secret key: a scalar from 1 to one below the order. -/
structure SecretScalar where
  val : ℕ
  pos : 0 < val
  lt : val < curveOrder
  deriving DecidableEq

namespace SecretScalar

def ofNat? (n : ℕ) : Option SecretScalar :=
  if h : 0 < n ∧ n < curveOrder then some ⟨n, h.1, h.2⟩ else none

/-- `SecretKey::from_slice`. -/
def fromSlice (b : Bytes) : Option SecretScalar := if b.length = 32 then ofNat? (beNat b) else none

/-- `SecretKey::secret_bytes`. -/
def bytes (d : SecretScalar) : Bytes := scalarBytes d.val

def negate (d : SecretScalar) : SecretScalar :=
  ⟨curveOrder - d.val, Nat.sub_pos_of_lt d.lt, Nat.sub_lt (d.pos.trans d.lt) d.pos⟩

/-- `SecretKey::add_tweak`; `none` when the sum is zero. -/
def addTweak (d : SecretScalar) (t : ℕ) : Option SecretScalar := ofNat? ((d.val + t) % curveOrder)

/-- `SecretKey::mul_tweak`. -/
def mulTweak (d : SecretScalar) (t : ℕ) : Option SecretScalar := ofNat? (d.val * t % curveOrder)

theorem ofNat?_eq_some {n : ℕ} {d : SecretScalar} :
    ofNat? n = some d ↔ d.val = n ∧ 0 < n ∧ n < curveOrder := by
  obtain ⟨v, hpos, hlt⟩ := d
  unfold ofNat?
  split_ifs with h
  · simp [h, eq_comm]
  · constructor
    · intro hc
      cases hc
    · rintro ⟨-, hn⟩
      exact absurd hn h

theorem ofNat?_val (d : SecretScalar) : ofNat? d.val = some d :=
  ofNat?_eq_some.mpr ⟨rfl, d.pos, d.lt⟩

theorem length_bytes (d : SecretScalar) : d.bytes.length = 32 := length_scalarBytes _

theorem beNat_bytes (d : SecretScalar) : beNat d.bytes = d.val :=
  beNat_scalarBytes (d.lt.trans curveOrder_lt)

theorem fromSlice_bytes (d : SecretScalar) : fromSlice d.bytes = some d := by
  rw [fromSlice, if_pos d.length_bytes, beNat_bytes, ofNat?_val]

theorem addTweak_eq_some {d e : SecretScalar} {t : ℕ} :
    d.addTweak t = some e ↔ e.val = (d.val + t) % curveOrder ∧ (d.val + t) % curveOrder ≠ 0 := by
  have hlt : (d.val + t) % curveOrder < curveOrder := Nat.mod_lt _ (d.pos.trans d.lt)
  unfold addTweak
  rw [ofNat?_eq_some]
  exact ⟨fun h => ⟨h.1, h.2.1.ne'⟩, fun h => ⟨h.1, Nat.pos_of_ne_zero h.2, hlt⟩⟩

theorem mulTweak_eq_some {d e : SecretScalar} {t : ℕ} :
    d.mulTweak t = some e ↔ e.val = d.val * t % curveOrder ∧ d.val * t % curveOrder ≠ 0 := by
  have hlt : d.val * t % curveOrder < curveOrder := Nat.mod_lt _ (d.pos.trans d.lt)
  unfold mulTweak
  rw [ofNat?_eq_some]
  exact ⟨fun h => ⟨h.1, h.2.1.ne'⟩, fun h => ⟨h.1, Nat.pos_of_ne_zero h.2, hlt⟩⟩

theorem exists_val {n : ℕ} (h0 : n ≠ 0) (hlt : n < curveOrder) : ∃ d : SecretScalar, d.val = n :=
  ⟨⟨n, Nat.pos_of_ne_zero h0, hlt⟩, rfl⟩

end SecretScalar

/-- `Scalar::from_be_bytes`: below the order, zero too. -/
def scalarFromBytes (b : Bytes) : Option ℕ := if beNat b < curveOrder then some (beNat b) else none

/-! ### Points -/

section

variable [Secp]

/-- `PublicKey::from_secret_key`. -/
def pointOf (d : SecretScalar) : Point := d.val • gen

/-- `PublicKey::serialize`. -/
def serialize (p : Point) : Bytes := (if odd p then 3 else 2) :: x p

/-- `PublicKey::add_exp_tweak`; `none` at infinity. -/
def addExpTweak (p : Point) (t : ℕ) : Option Point :=
  if p + t • gen = 0 then none else some (p + t • gen)

/-- A point's text: the hex of its bytes. -/
def pointHex (p : Point) : Bytes := hexEncode (serialize p)

/-- The point of the same x whose y is even. -/
def evenPoint (p : Point) : Point := if odd p then -p else p

theorem smul_mod (k : ℕ) : (k % curveOrder) • (gen : Point) = k • gen := by
  conv_rhs => rw [← Nat.mod_add_div k curveOrder]
  rw [add_nsmul, mul_nsmul, (smul_gen curveOrder).mpr dvd_rfl, nsmul_zero, add_zero]

theorem pointOf_ne_zero (d : SecretScalar) : pointOf d ≠ 0 := fun h =>
  absurd (Nat.le_of_dvd d.pos ((smul_gen d.val).mp h)) (Nat.not_le.mpr d.lt)

theorem smul_negate (d : SecretScalar) : pointOf d.negate = -pointOf d := by
  unfold pointOf SecretScalar.negate
  rw [eq_neg_iff_add_eq_zero, ← add_nsmul, Nat.sub_add_cancel d.lt.le, smul_gen]

/-- A secret and its point are tweaked alike: the sum of one is zero when the
other's is infinity. -/
theorem pointOf_add_eq_zero {d : SecretScalar} {t : ℕ} :
    pointOf d + t • gen = 0 ↔ (d.val + t) % curveOrder = 0 := by
  unfold pointOf
  rw [← add_nsmul, smul_gen, Nat.dvd_iff_mod_eq_zero]

theorem pointOf_addTweak {d e : SecretScalar} {t : ℕ} (h : d.addTweak t = some e) :
    pointOf e = pointOf d + t • gen := by
  obtain ⟨hv, -⟩ := SecretScalar.addTweak_eq_some.mp h
  unfold pointOf
  rw [hv, smul_mod, add_nsmul]

theorem evenPoint_ne_zero {p : Point} (h : p ≠ 0) : evenPoint p ≠ 0 := by
  unfold evenPoint
  split_ifs
  · exact neg_ne_zero.mpr h
  · exact h

theorem x_evenPoint (p : Point) : x (evenPoint p) = x p := by
  unfold evenPoint
  split_ifs
  · exact x_neg p
  · rfl

theorem odd_evenPoint {p : Point} (h : p ≠ 0) : odd (evenPoint p) = false := by
  unfold evenPoint
  split_ifs with ho
  · rw [odd_neg p h, ho]
    rfl
  · simpa using ho

theorem evenPoint_neg {p : Point} (h : p ≠ 0) : evenPoint (-p) = evenPoint p := by
  unfold evenPoint
  rw [odd_neg p h, neg_neg]
  cases odd p
  · rfl
  · rfl

/-- The even point is fixed by the x. -/
theorem eq_evenPoint {p q : Point} (hp : p ≠ 0) (hq : q ≠ 0) (hx : x q = x p)
    (heven : odd q = false) : q = evenPoint p := by
  unfold evenPoint
  rcases eq_or_neg q p hq hp hx with rfl | rfl
  · rw [heven]
    rfl
  · rw [odd_neg p hp] at heven
    rw [show odd p = true by simpa using heven]
    rfl

theorem length_serialize (p : Point) : (serialize p).length = 33 := by
  unfold serialize
  rw [List.length_cons, length_x]

theorem length_pointHex (p : Point) : (pointHex p).length = 66 := by
  unfold pointHex
  rw [length_hexEncode, length_serialize]

theorem pointHex_lower (p : Point) : (pointHex p).all isLowerHexDigit = true := hexEncode_lower _

theorem hexDecode_pointHex (p : Point) : hexDecode (pointHex p) = some (serialize p) :=
  hexDecode_hexEncode _

/-- The text of a parity. -/
def parityHex (odd : Bool) : Bytes := if odd then ascii ['0', '3'] else ascii ['0', '2']

theorem pointHex_eq (p : Point) : pointHex p = parityHex (odd p) ++ hexEncode (x p) := by
  unfold pointHex serialize parityHex hexEncode
  rw [List.flatMap_cons]
  cases odd p
  · rfl
  · rfl

/-- Two points of one parity and x are one point. -/
theorem serialize_inj {p q : Point} (hp : p ≠ 0) (hq : q ≠ 0) (h : serialize p = serialize q) :
    p = q := by
  unfold serialize at h
  obtain ⟨hodd, hx⟩ := List.cons.inj h
  rcases eq_or_neg p q hp hq hx with rfl | rfl
  · rfl
  · rw [odd_neg q hq] at hodd
    cases ho : odd q <;> simp [ho] at hodd

theorem pointHex_inj {p q : Point} (hp : p ≠ 0) (hq : q ≠ 0) (h : pointHex p = pointHex q) :
    p = q := by
  have hb := congrArg hexDecode h
  rw [hexDecode_pointHex, hexDecode_pointHex, Option.some.injEq] at hb
  exact serialize_inj hp hq hb

/-- The bytes of a lower-case text of 66 digits are a point's when the text is the point's. -/
theorem fromSlice_hex {s b : Bytes} {p : Point} (hlen : s.length = 66)
    (hlow : s.all isLowerHexDigit = true) (hb : hexDecode s = some b) :
    fromSlice b = some p ↔ p ≠ 0 ∧ s = pointHex p := by
  have hb33 : b.length = 33 := by
    have := length_hexDecode hb
    omega
  have hs : s = hexEncode b := by
    rw [hexEncode_hexDecode hb, Nostr.toLower_of_lower hlow]
  rw [fromSlice_some b p hb33]
  constructor
  · rintro ⟨h0, rfl⟩
    exact ⟨h0, hs⟩
  · rintro ⟨h0, hp⟩
    refine ⟨h0, ?_⟩
    have := hexDecode_pointHex p
    rw [← hp, hb, Option.some.injEq] at this
    exact this

end

/-! ### A small group of the same order -/

instance : NeZero curveOrder := ⟨by decide⟩

/-- The x of a number modulo the order: the smaller of it and its opposite. -/
def residueX (p : ZMod curveOrder) : Bytes := scalarBytes (min p.val (curveOrder - p.val))

def residueOdd (p : ZMod curveOrder) : Bool := decide (curveOrder < 2 * p.val)

def residueFromSlice : Bytes → Option (ZMod curveOrder)
  | [] => none
  | tag :: rest =>
    if 0 < beNat rest ∧ 2 * beNat rest < curveOrder then
      if tag = 2 then some (beNat rest) else if tag = 3 then some (-(beNat rest)) else none
    else none

theorem order_odd (v : ℕ) : 2 * v ≠ curveOrder := by
  have h : curveOrder % 2 = 1 := by decide
  omega

theorem val_neg_residue {p : ZMod curveOrder} (h : p ≠ 0) : (-p).val = curveOrder - p.val := by
  rw [ZMod.neg_val, if_neg h]

theorem val_pos_residue {p : ZMod curveOrder} (h : p ≠ 0) : 0 < p.val :=
  Nat.pos_of_ne_zero fun h0 => h ((ZMod.val_eq_zero p).mp h0)

theorem min_lt_order (p : ZMod curveOrder) : min p.val (curveOrder - p.val) < 256 ^ 32 :=
  (Nat.min_le_left _ _).trans_lt (p.val_lt.trans curveOrder_lt)

theorem beNat_residueX (p : ZMod curveOrder) :
    beNat (residueX p) = min p.val (curveOrder - p.val) := beNat_scalarBytes (min_lt_order p)

theorem residue_eq_or_neg (p q : ZMod curveOrder) (hp : p ≠ 0) (hq : q ≠ 0)
    (h : residueX p = residueX q) : p = q ∨ p = -q := by
  have hmin := congrArg beNat h
  rw [beNat_residueX, beNat_residueX] at hmin
  have hpl := p.val_lt
  have hql := q.val_lt
  have hcases : p.val = q.val ∨ p.val = (-q).val := by
    rw [val_neg_residue hq]
    omega
  rcases hcases with hv | hv
  · exact .inl (ZMod.val_injective _ hv)
  · exact .inr (ZMod.val_injective _ hv)

theorem val_cast_residue {v : ℕ} (h : 2 * v < curveOrder) : ((v : ZMod curveOrder)).val = v :=
  ZMod.val_cast_of_lt (by omega)

theorem residue_fromSlice (b : Bytes) (p : ZMod curveOrder) (hlen : b.length = 33) :
    residueFromSlice b = some p ↔ p ≠ 0 ∧ b = (if residueOdd p then 3 else 2) :: residueX p := by
  obtain ⟨tag, rest, rfl⟩ := List.exists_cons_of_length_pos (show 0 < b.length by omega)
  have hrest : rest.length = 32 := Nat.succ.inj hlen
  unfold residueFromSlice
  dsimp only
  constructor
  · intro h
    split_ifs at h with hv h2 h3
    · obtain rfl := Option.some.inj h
      have hval := val_cast_residue hv.2
      have hodd : residueOdd (beNat rest : ZMod curveOrder) = false := by
        unfold residueOdd
        rw [hval]
        exact decide_eq_false (by omega)
      refine ⟨fun h0 => ?_, ?_⟩
      · rw [h0, ZMod.val_zero] at hval
        omega
      · rw [hodd, h2, residueX, hval, min_eq_left (by omega), scalarBytes_beNat hrest]
        rfl
    · obtain rfl := Option.some.inj h
      have hval := val_cast_residue hv.2
      have hne : (beNat rest : ZMod curveOrder) ≠ 0 := fun h0 => by
        rw [h0, ZMod.val_zero] at hval
        omega
      have hneg := val_neg_residue hne
      rw [hval] at hneg
      have hodd : residueOdd (-(beNat rest : ZMod curveOrder)) = true := by
        unfold residueOdd
        rw [hneg]
        exact decide_eq_true (by omega)
      refine ⟨neg_ne_zero.mpr hne, ?_⟩
      rw [hodd, h3, residueX, hneg, min_eq_right (by omega), Nat.sub_sub_self (by omega),
        scalarBytes_beNat hrest]
      rfl
  · rintro ⟨h0, hb⟩
    obtain ⟨rfl, rfl⟩ := List.cons.inj hb
    have hpos := val_pos_residue h0
    have hlt := p.val_lt
    have hne := order_odd p.val
    rw [beNat_residueX]
    by_cases hodd : curveOrder < 2 * p.val
    · have hmin : min p.val (curveOrder - p.val) = (-p).val := by
        rw [val_neg_residue h0]
        omega
      have ho : residueOdd p = true := decide_eq_true hodd
      rw [ho, if_pos (by omega), if_pos rfl, if_neg (by decide), if_pos rfl, hmin,
        ZMod.natCast_zmod_val, neg_neg]
    · have hmin : min p.val (curveOrder - p.val) = p.val := by omega
      have ho : residueOdd p = false := decide_eq_false hodd
      rw [ho, if_pos (by omega), if_neg Bool.false_ne_true, if_pos rfl, hmin,
        ZMod.natCast_zmod_val]

theorem residueX_neg (p : ZMod curveOrder) : residueX (-p) = residueX p := by
  by_cases h : p = 0
  · rw [h, neg_zero]
  · have := p.val_lt
    unfold residueX
    rw [val_neg_residue h, Nat.sub_sub_self (by omega), min_comm]

theorem residueOdd_neg (p : ZMod curveOrder) (h : p ≠ 0) : residueOdd (-p) = !residueOdd p := by
  have hlt := p.val_lt
  have hne := order_odd p.val
  unfold residueOdd
  rw [val_neg_residue h, ← decide_not, decide_eq_decide]
  omega

theorem smul_one_residue (k : ℕ) : k • (1 : ZMod curveOrder) = 0 ↔ curveOrder ∣ k := by
  rw [nsmul_one, ZMod.natCast_eq_zero_iff]

theorem residue_isXOnly (b : Bytes) (hlen : b.length = 32) :
    decide (0 < beNat b ∧ 2 * beNat b < curveOrder) = true ↔ ∃ p : ZMod curveOrder,
      p ≠ 0 ∧ residueX p = b := by
  rw [decide_eq_true_eq]
  constructor
  · rintro ⟨hpos, hlt⟩
    have h := (residue_fromSlice (2 :: b) (beNat b) (by rw [List.length_cons, hlen])).mp (by
      unfold residueFromSlice
      dsimp only
      rw [if_pos ⟨hpos, hlt⟩, if_pos rfl])
    exact ⟨_, h.1, (List.cons.inj h.2).2.symm⟩
  · rintro ⟨p, h0, rfl⟩
    have hpos := val_pos_residue h0
    have hlt := p.val_lt
    have hne := order_odd p.val
    rw [beNat_residueX]
    omega

/-- Numbers modulo the order, added: a group whose logarithms are known. -/
@[reducible] def residueSecp : Secp where
  Point := ZMod curveOrder
  gen := 1
  smul_gen := smul_one_residue
  x := residueX
  odd := residueOdd
  length_x _ := length_scalarBytes _
  x_neg := residueX_neg
  odd_neg := residueOdd_neg
  eq_or_neg := residue_eq_or_neg
  fromSlice := residueFromSlice
  fromSlice_some := residue_fromSlice
  isXOnly b := decide (0 < beNat b ∧ 2 * beNat b < curveOrder)
  isXOnly_iff := residue_isXOnly

/-- A hash that is 2 whatever is hashed. -/
@[reducible] def constantSha : Sha256 where
  sha256 _ := scalarBytes 2
  length_sha256 _ := length_scalarBytes 2

end Secp

end Sidestr
