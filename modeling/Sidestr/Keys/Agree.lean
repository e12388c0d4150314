/-
# The two ports of the keys

The core's and the teller's ports of `keys.mjs` were written to be swapped one
for the other. They are compared function by function: `Same` is the relation
of two outcomes that are one value or two refusals, and it passes through a
bind, so each function agrees because its parts do.

Only the trimming of an identifier differs. The core trims U+0085, which
ECMAScript keeps, and keeps U+FEFF, which ECMAScript trims; so the ports part
on the identifiers that one of these stands beside, and on no other text.

Key definitions: `Same`, `Names`, `OddlySpaced`, `PortsAgree`.
Key theorems: `same_readIdentifier`, `readIdentifier_names`,
`basePoint_same_iff`, `ports_agree_iff`, `ports_part`.
-/
import Sidestr.Keys.TellerKeys
import Sidestr.Wallet.Request

namespace Sidestr

namespace KeysAgree

open PegTweak (curveOrder)
open Secp
open CoreKeys (didTag multikeyTag isLowerHex startsCompressed)

theorem ok_ne_panic {ε α : Type} (a : α) : (Res.ok a : Res ε α) ≠ .panic := fun h => by cases h

theorem err_ne_panic {ε α : Type} (e : ε) : (Res.err e : Res ε α) ≠ .panic := fun h => by cases h

/-- Two outcomes that are one value, or two refusals. -/
inductive Same {ε ε' α : Type} : Res ε α → Res ε' α → Prop
  | ok (a : α) : Same (.ok a) (.ok a)
  | err (e : ε) (e' : ε') : Same (.err e) (.err e')

namespace Same

variable {ε ε' α β : Type} {x : Res ε α} {y : Res ε' α}

theorem bind {f : α → Res ε β} {g : α → Res ε' β} (h : Same x y)
    (hf : ∀ a, x = .ok a → Same (f a) (g a)) : Same (x >>= f) (y >>= g) := by
  cases h with
  | ok a => exact hf a rfl
  | err e e' => exact .err e e'

theorem ok_iff (h : Same x y) (a : α) : x = .ok a ↔ y = .ok a := by
  cases h with
  | ok b => simp
  | err e e' => simp

theorem of_iff (hx : x ≠ .panic) (hy : y ≠ .panic) (h : ∀ a, x = .ok a ↔ y = .ok a) :
    Same x y := by
  cases x with
  | ok a =>
    rw [(h a).mp rfl]
    exact .ok a
  | err e =>
    cases y with
    | ok b => cases (h b).mpr rfl
    | err e' => exact .err e e'
    | panic => exact absurd rfl hy
  | panic => exact absurd rfl hx

theorem okOr (e : ε) (e' : ε') (o : Option α) : Same (Res.okOr e o) (Res.okOr e' o) := by
  cases o with
  | none => exact .err e e'
  | some a => exact .ok a

theorem ne_panic (h : Same x y) : x ≠ .panic ∧ y ≠ .panic := by
  cases h with
  | ok a => exact ⟨ok_ne_panic a, ok_ne_panic a⟩
  | err e e' => exact ⟨err_ne_panic e, err_ne_panic e'⟩

end Same

/-! ### Scalars -/

theorem int32_ne_panic (t : Bytes) (what : String) : CoreKeys.int32 t what ≠ .panic := by
  unfold CoreKeys.int32
  refine Res.bind_ne_panic (Res.okOr_ne_panic _ _) fun b _ => ?_
  dsimp only
  split_ifs
  · exact ok_ne_panic _
  · exact ok_ne_panic _

theorem same_secret {d : Bytes} (h : d.length = 64) :
    Same (CoreKeys.secret d) (TellerKeys.secret d) :=
  .of_iff (Res.bind_ne_panic (int32_ne_panic _ _) fun _ _ => Res.okOr_ne_panic _ _)
    (Res.bind_ne_panic (Res.okOr_ne_panic _ _) fun _ _ => Res.okOr_ne_panic _ _)
    fun _ => (TellerKeys.secret_ok h).symm

theorem same_scalar {t : Bytes} (h : t.length = 64) :
    Same (CoreKeys.scalar t) (TellerKeys.scalar t) :=
  .of_iff (Res.bind_ne_panic (int32_ne_panic _ _) fun _ _ =>
      Res.bind_ne_panic (Res.okOr_ne_panic _ _) fun _ _ =>
        Res.bind_ne_panic (Res.refuseIf_ne_panic _ _) fun _ _ => Res.okOr_ne_panic _ _)
    (Res.bind_ne_panic (Res.okOr_ne_panic _ _) fun _ _ =>
      Res.bind_ne_panic (Res.refuseIf_ne_panic _ _) fun _ _ => Res.okOr_ne_panic _ _)
    fun _ => (TellerKeys.scalar_ok h).symm

/-- The two reductions of a hash are one. -/
theorem same_reduce {b : Bytes} (h : b.length = 32) :
    (CoreKeys.reduceModN b = List.replicate 32 0 ↔ TellerKeys.reduce b = none) ∧
      ∀ k, TellerKeys.reduce b = some k → CoreKeys.reduceModN b = scalarBytes k := by
  have hval := CoreKeys.beNat_reduceModN h
  have hlen := CoreKeys.length_reduceModN h
  have hbytes : CoreKeys.reduceModN b = scalarBytes (beNat b % curveOrder) := by
    rw [← hval, scalarBytes_beNat hlen]
  rw [TellerKeys.reduce_eq h]
  constructor
  · rw [hbytes]
    constructor
    · intro hz
      have hk := beNat_scalarBytes ((Nat.mod_lt (beNat b) (by decide)).trans curveOrder_lt)
      rw [hz, beNat_zeros] at hk
      rw [if_pos hk.symm]
    · intro hn
      split_ifs at hn with h0
      rw [h0]
      rfl
  · intro k hk
    split_ifs at hk
    rw [hbytes, Option.some.inj hk]

/-- What both refuse of a hash is zero and the order itself. -/
theorem reduce_none_iff {b : Bytes} (h : b.length = 32) :
    TellerKeys.reduce b = none ↔ beNat b = 0 ∨ beNat b = curveOrder := by
  have hfit : beNat b < 256 ^ 32 := h ▸ beNat_lt b
  have h2 : (256 : ℕ) ^ 32 < 2 * curveOrder := by decide
  have hmod : beNat b % curveOrder = 0 ↔ beNat b = 0 ∨ beNat b = curveOrder := by
    rcases Nat.lt_or_ge (beNat b) curveOrder with hlt | hge
    · rw [Nat.mod_eq_of_lt hlt]
      omega
    · rw [Nat.mod_eq_sub_mod hge, Nat.mod_eq_of_lt (by omega)]
      omega
  rw [TellerKeys.reduce_eq h, ← hmod]
  split_ifs with h0
  · simp [h0]
  · simp [h0]

section

variable [Sha256]

theorem same_taggedScalar (tag : Bytes) (chunks : List Bytes) :
    Same (CoreKeys.taggedScalar tag chunks) (TellerKeys.taggedScalar tag chunks) := by
  obtain ⟨hzero, hsome⟩ := same_reduce (Sha256.length_sha256
    (Sha256.sha256 tag ++ Sha256.sha256 tag ++ chunks.flatten))
  unfold CoreKeys.taggedScalar TellerKeys.taggedScalar CoreKeys.taggedHash
  dsimp only
  cases hr : TellerKeys.reduce (Sha256.sha256
      (Sha256.sha256 tag ++ Sha256.sha256 tag ++ chunks.flatten)) with
  | none =>
    rw [hzero.mpr hr, beq_self_eq_true]
    exact .err _ _
  | some k =>
    have hne : CoreKeys.reduceModN (Sha256.sha256
        (Sha256.sha256 tag ++ Sha256.sha256 tag ++ chunks.flatten)) ≠ List.replicate 32 0 := by
      intro hz
      rw [hzero.mp hz] at hr
      cases hr
    rw [beq_eq_false_iff_ne.mpr hne, hsome k hr]
    exact .ok _

end

/-! ### Points -/

section

variable [Secp]

theorem parsePoint_ne_panic (p : Bytes) : CoreKeys.parsePoint p ≠ .panic :=
  Res.bind_ne_panic (Res.refuseIf_ne_panic _ _) fun _ _ =>
    Res.bind_ne_panic (Res.okOr_ne_panic _ _) fun _ _ => Res.okOr_ne_panic _ _

theorem same_point (p : Bytes) : Same (CoreKeys.parsePoint p) (TellerKeys.point p) :=
  .of_iff (parsePoint_ne_panic p) (Res.okOr_ne_panic _ _) fun _ =>
    CoreKeys.parsePoint_ok.trans TellerKeys.point_ok.symm

theorem same_publicKey {d : Bytes} (h : d.length = 64) :
    Same (CoreKeys.publicKey d) (TellerKeys.publicKey d) :=
  (same_secret h).bind fun _ _ => .ok _

theorem same_normalize {d : Bytes} (h : d.length = 64) :
    Same (CoreKeys.normalize d) (TellerKeys.normalize d) := by
  refine (same_secret h).bind fun k _ => ?_
  split_ifs
  · exact .ok _
  · exact .ok _

theorem same_xOnly (p : Bytes) : Same (CoreKeys.xOnly p) (TellerKeys.xOnly p) :=
  (same_point p).bind fun _ _ => .ok _

theorem same_did (p : Bytes) : Same (CoreKeys.did p) (TellerKeys.did p) :=
  (same_xOnly p).bind fun _ _ => .ok _

theorem same_multikey (p : Bytes) : Same (CoreKeys.multikey p) (TellerKeys.multikey p) := by
  refine (same_point p).bind fun q hq => ?_
  rw [(CoreKeys.parsePoint_ok.mp hq).2]
  exact .ok _

theorem same_negate (p : Bytes) : Same (CoreKeys.negate p) (TellerKeys.negate p) := by
  refine .of_iff (Res.bind_ne_panic (parsePoint_ne_panic p) fun _ _ => ok_ne_panic _)
    (Res.bind_ne_panic (Res.okOr_ne_panic _ _) fun _ _ => ok_ne_panic _) fun v => ?_
  have hok : ∀ q, CoreKeys.parsePoint p = .ok q →
      (CoreKeys.negate p = .ok v ↔ TellerKeys.negate p = .ok v) := by
    intro q hq
    obtain ⟨h0, rfl⟩ := CoreKeys.parsePoint_ok.mp hq
    rw [CoreKeys.negate_pointHex h0, TellerKeys.negate, TellerKeys.point_pointHex h0, Res.ok_bind]
    simp
  constructor
  · intro h
    obtain ⟨q, hq, -⟩ := Res.bind_eq_ok.mp h
    exact (hok q hq).mp h
  · intro h
    obtain ⟨q, hq, -⟩ := Res.bind_eq_ok.mp h
    exact (hok q (((same_point p).ok_iff q).mpr hq)).mpr h

omit [Secp] in
theorem same_tweakSecret {d t : Bytes} (hd : d.length = 64) (ht : t.length = 64) :
    Same (CoreKeys.tweakSecret d t) (TellerKeys.tweakSecret d t) :=
  (same_secret hd).bind fun _ _ => (same_scalar ht).bind fun _ _ =>
    (Same.okOr _ _ _).bind fun _ _ => .ok _

theorem same_tweakPoint (p : Bytes) {t : Bytes} (ht : t.length = 64) :
    Same (CoreKeys.tweakPoint p t) (TellerKeys.tweakPoint p t) :=
  (same_point p).bind fun _ _ => (same_scalar ht).bind fun _ _ =>
    (Same.okOr _ _ _).bind fun _ _ => .ok _

theorem same_tapTweak [Sha256] (p : Bytes) (h32 : Option Bytes) :
    Same (CoreKeys.tapTweak p (h32.map hexEncode)) (TellerKeys.tapTweak p h32) := by
  refine (same_xOnly p).bind fun v hv => ?_
  obtain ⟨q, hq, hv⟩ := Res.bind_eq_ok.mp hv
  obtain ⟨h0, rfl⟩ := CoreKeys.parsePoint_ok.mp hq
  have hx : v = hexEncode (x q) := by
    have := CoreKeys.xOnly_pointHex h0
    unfold CoreKeys.xOnly at this
    rw [hq, Res.ok_bind] at this
    exact (Res.ok.inj hv).symm.trans (Res.ok.inj this)
  rw [hx, hexDecode_hexEncode]
  cases h32 with
  | none =>
    simp only [Option.map_none, CoreKeys.taggedScalarHex, CoreKeys.decodeChunks, hexDecode_hexEncode,
      Res.okOr_some, Res.ok_bind, Res.expect_some]
    exact same_taggedScalar _ _
  | some h =>
    simp only [Option.map_some, CoreKeys.taggedScalarHex, CoreKeys.decodeChunks, hexDecode_hexEncode,
      Res.okOr_some, Res.ok_bind, Res.expect_some]
    exact same_taggedScalar _ _

/-! ### Identifiers -/

/-- The texts an identifier of a point may have, and the point's text. -/
def Names (s v : Bytes) : Prop :=
  ∃ q, q ≠ 0 ∧ v = pointHex q ∧
    (odd q = false ∧ (s = hexEncode (x q) ∨ s = didTag ++ hexEncode (x q)) ∨
      s = multikeyTag ++ pointHex q ∨ s = pointHex q)

theorem even_hex {bare : Bytes} {q : Point} (h : parityHex false ++ bare = pointHex q) :
    odd q = false ∧ bare = hexEncode (x q) := by
  rw [pointHex_eq] at h
  cases ho : odd q
  · rw [ho] at h
    exact ⟨rfl, List.append_cancel_left h⟩
  · rw [ho] at h
    simp [parityHex, ascii] at h

omit [Secp] in
theorem bare_eq {s : Bytes} : s = (stripPrefix didTag s).getD s ∨
    s = didTag ++ (stripPrefix didTag s).getD s := by
  cases hs : stripPrefix didTag s with
  | none => exact .inl rfl
  | some rest => exact .inr (eq_append_of_stripPrefix hs)

omit [Secp] in
theorem hex_bare (b : Bytes) :
    (stripPrefix didTag (hexEncode b)).getD (hexEncode b) = hexEncode b := by
  cases hs : stripPrefix didTag (hexEncode b) with
  | none => rfl
  | some rest =>
    have hlow := hexEncode_lower b
    rw [eq_append_of_stripPrefix hs, List.all_append, Bool.and_eq_true] at hlow
    exact absurd hlow.1 (by decide)

/-- The two ports read one text alike. -/
theorem same_readIdentifier (s : Bytes) :
    Same (CoreKeys.readIdentifier s) (TellerKeys.readIdentifier s) := by
  unfold CoreKeys.readIdentifier TellerKeys.readIdentifier
  dsimp only
  generalize (stripPrefix didTag s).getD s = bare
  have hwrap : ∀ t v : Bytes, Same (CoreKeys.parsePoint t >>= fun _ => Res.ok v)
      (TellerKeys.point t >>= fun _ => Res.ok v) := fun t v => (same_point t).bind fun _ _ => .ok _
  have hshape : ∀ t : Bytes, (isLowerHex t 66 && startsCompressed t) =
      (t.length == 66 && startsCompressed t && t.all isLowerHexDigit) := by
    intro t
    unfold isLowerHex
    cases t.length == 66 <;> cases t.all isLowerHexDigit <;> cases startsCompressed t <;> rfl
  simp only [hshape]
  by_cases hbare : isLowerHex bare 64 = true
  · have hb : (bare.length == 64 && bare.all isLowerHexDigit) = true := hbare
    rw [if_pos hbare, if_pos hb]
    obtain ⟨hlen, hlow⟩ := Bool.and_eq_true_iff.mp hb
    have hlen := beq_iff_eq.mp hlen
    obtain ⟨b, hbx⟩ := hexDecode_of_digits (s := bare) (by omega) (by
      rw [List.all_eq_true] at hlow ⊢
      exact fun c hc => hexVal_isSome (hlow c hc))
    have hb32 : b.length = 32 := TellerKeys.length_of_hexDecode hlen hbx
    rw [hbx, Res.expect_some, Res.ok_bind]
    refine .of_iff ?_ ?_ fun v => ?_
    · exact Res.bind_ne_panic (Res.okOr_ne_panic _ _) fun _ _ =>
        Res.bind_ne_panic (Res.okOr_ne_panic _ _) fun _ _ => (hwrap _ _).ne_panic.1
    · exact Res.bind_ne_panic (Res.refuseIf_ne_panic _ _) fun _ _ => (hwrap _ _).ne_panic.2
    · -- both accept just the x of an even point
      constructor
      · intro h
        obtain ⟨_, -, h⟩ := Res.bind_eq_ok.mp h
        obtain ⟨_, -, h⟩ := Res.bind_eq_ok.mp h
        obtain ⟨q, hq, hv⟩ := Res.bind_eq_ok.mp h
        obtain ⟨h0, htext⟩ := CoreKeys.parsePoint_ok.mp hq
        have hx : x q = b := by
          have := hexDecode_hexEncode (x q)
          rw [← (even_hex htext).2, hbx] at this
          exact (Option.some.inj this).symm
        have hon : isXOnly b = true := (isXOnly_iff b hb32).mpr ⟨q, h0, hx⟩
        rw [hon, Bool.not_true, Res.refuseIf_false, Res.ok_bind]
        exact ((hwrap _ _).ok_iff v).mp (Res.bind_eq_ok.mpr ⟨q, hq, hv⟩)
      · intro h
        obtain ⟨_, -, h⟩ := Res.bind_eq_ok.mp h
        obtain ⟨q, hq, hv⟩ := Res.bind_eq_ok.mp h
        obtain ⟨h0, htext⟩ := TellerKeys.point_ok.mp hq
        have hread : fromSlice (serialize q) = some q :=
          (fromSlice_some _ q (length_serialize q)).mpr ⟨h0, rfl⟩
        rw [htext, hexDecode_pointHex, Res.okOr_some, Res.ok_bind, hread, Res.okOr_some, Res.ok_bind,
          ← htext]
        exact ((hwrap _ _).ok_iff v).mpr (Res.bind_eq_ok.mpr ⟨q, hq, hv⟩)
  · have hb : ¬ (bare.length == 64 && bare.all isLowerHexDigit) = true := hbare
    rw [if_neg hbare, if_neg hb]
    cases (stripPrefix multikeyTag s).filter
        fun key => key.length == 66 && startsCompressed key && key.all isLowerHexDigit with
    | some key => exact hwrap key key
    | none =>
      dsimp only
      split_ifs
      · exact hwrap s s
      · exact .err _ _

/-- What is read is a text of the point. -/
theorem names_of_read {s v : Bytes} (h : CoreKeys.readIdentifier s = .ok v) : Names s v := by
  unfold CoreKeys.readIdentifier at h
  dsimp only at h
  by_cases h1 : isLowerHex ((stripPrefix didTag s).getD s) 64 = true
  · rw [if_pos h1] at h
    obtain ⟨_, -, h⟩ := Res.bind_eq_ok.mp h
    obtain ⟨_, -, h⟩ := Res.bind_eq_ok.mp h
    obtain ⟨q, hq, hv⟩ := Res.bind_eq_ok.mp h
    obtain ⟨h0, htext⟩ := CoreKeys.parsePoint_ok.mp hq
    obtain ⟨heven, hx⟩ := even_hex htext
    refine ⟨q, h0, (Res.ok.inj hv).symm.trans htext, .inl ⟨heven, ?_⟩⟩
    rw [← hx]
    exact bare_eq
  · rw [if_neg h1] at h
    cases hf : (stripPrefix multikeyTag s).filter
        fun key => isLowerHex key 66 && startsCompressed key with
    | some key =>
      rw [hf] at h
      obtain ⟨q, hq, hv⟩ := Res.bind_eq_ok.mp h
      obtain ⟨h0, rfl⟩ := CoreKeys.parsePoint_ok.mp hq
      have hs := eq_append_of_stripPrefix (Option.filter_eq_some_iff.mp hf).1
      exact ⟨q, h0, (Res.ok.inj hv).symm, .inr (.inl hs)⟩
    | none =>
      rw [hf] at h
      dsimp only at h
      split_ifs at h
      obtain ⟨q, hq, hv⟩ := Res.bind_eq_ok.mp h
      obtain ⟨h0, rfl⟩ := CoreKeys.parsePoint_ok.mp hq
      exact ⟨q, h0, (Res.ok.inj hv).symm, .inr (.inr rfl)⟩

/-- Every text of a point is read as it. -/
theorem read_of_names {s v : Bytes} (h : Names s v) : CoreKeys.readIdentifier s = .ok v := by
  obtain ⟨q, h0, rfl, hform⟩ := h
  have hparse := CoreKeys.parsePoint_ok.mpr ⟨h0, rfl⟩
  have hlow : (isLowerHex (pointHex q) 66 && startsCompressed (pointHex q)) = true := by
    simp [isLowerHex, length_pointHex, pointHex_lower, CoreKeys.startsCompressed_pointHex]
  have hread : fromSlice (serialize q) = some q :=
    (fromSlice_some _ q (length_serialize q)).mpr ⟨h0, rfl⟩
  rcases hform with ⟨heven, hs⟩ | rfl | rfl
  · have hbare : (stripPrefix didTag s).getD s = hexEncode (x q) := by
      rcases hs with rfl | rfl
      · exact hex_bare (x q)
      · rw [stripPrefix_append]
        rfl
    have hhex : isLowerHex (hexEncode (x q)) 64 = true := by
      simp [isLowerHex, length_hexEncode, length_x, hexEncode_lower]
    have htext : parityHex false ++ hexEncode (x q) = pointHex q := by rw [pointHex_eq, heven]
    unfold CoreKeys.readIdentifier
    simp only [hbare]
    rw [if_pos hhex, htext, hexDecode_pointHex, Res.okOr_some, Res.ok_bind, hread, Res.okOr_some,
      Res.ok_bind, hparse, Res.ok_bind]
  · have hstrip : stripPrefix didTag (multikeyTag ++ pointHex q) = none := rfl
    have hlen : isLowerHex (multikeyTag ++ pointHex q) 64 = false := by
      simp [isLowerHex, length_pointHex, multikeyTag, ascii]
    unfold CoreKeys.readIdentifier
    rw [hstrip]
    dsimp only [Option.getD_none]
    rw [hlen, if_neg Bool.false_ne_true, stripPrefix_append]
    simp only [Option.filter_some, hlow, if_true]
    rw [hparse, Res.ok_bind]
  · have hlen : isLowerHex (pointHex q) 64 = false := by
      simp [isLowerHex, length_pointHex]
    have hdid : stripPrefix didTag (pointHex q) = none := by
      rw [pointHex_eq]
      cases odd q
      · rfl
      · rfl
    have hmulti : stripPrefix multikeyTag (pointHex q) = none := by
      rw [pointHex_eq]
      cases odd q
      · rfl
      · rfl
    unfold CoreKeys.readIdentifier
    rw [hdid]
    dsimp only [Option.getD_none]
    rw [hlen, if_neg Bool.false_ne_true, hmulti]
    simp only [Option.filter_none, hlow, if_true]
    rw [hparse, Res.ok_bind]

theorem readIdentifier_names {s v : Bytes} : CoreKeys.readIdentifier s = .ok v ↔ Names s v :=
  ⟨names_of_read, read_of_names⟩

/-! ### Spacing -/

/-- A character a point's text may have: none of them is white space. -/
def isGraphic (b : UInt8) : Bool := 0x30 ≤ b.toNat && b.toNat < 0x80

omit [Secp] in
theorem graphic_of_lowerHex {s : Bytes} (h : s.all isLowerHexDigit = true) :
    s.all isGraphic = true := by
  rw [List.all_eq_true] at h ⊢
  intro b hb
  have := h b hb
  simp only [isLowerHexDigit, isGraphic, Bool.or_eq_true, Bool.and_eq_true,
    decide_eq_true_eq] at this ⊢
  omega

theorem Names.graphic {s v : Bytes} (h : Names s v) : s ≠ [] ∧ s.all isGraphic = true := by
  obtain ⟨q, -, -, hform⟩ := h
  have hx := graphic_of_lowerHex (hexEncode_lower (x q))
  have hp := graphic_of_lowerHex (pointHex_lower q)
  have hxne : hexEncode (x q) ≠ [] := fun hnil => by
    have := length_hexEncode (x q)
    rw [hnil, length_x] at this
    simp at this
  have hpne : pointHex q ≠ [] := fun hnil => by
    have := length_pointHex q
    rw [hnil] at this
    simp at this
  rcases hform with ⟨-, rfl | rfl⟩ | rfl | rfl
  · exact ⟨hxne, hx⟩
  · exact ⟨by simp [hxne], by rw [List.all_append, hx]; rfl⟩
  · exact ⟨by simp [hpne], by rw [List.all_append, hp]; rfl⟩
  · exact ⟨hpne, hp⟩

/-- A text whose bytes are these is made of the same characters. -/
def ofAscii (b : Bytes) : Wallet.Text := b.map fun c => Char.ofNat c.toNat

omit [Secp] in
theorem toUtf8_ofAscii {b : Bytes} (h : b.all isGraphic = true) : Wallet.toUtf8 (ofAscii b) = b := by
  rw [List.all_eq_true] at h
  have hnat : ∀ c ∈ b, (Char.ofNat c.toNat).toNat = c.toNat := fun c hc =>
    Wallet.ofNat_spec _ (by have := h c hc; simp only [isGraphic, Bool.and_eq_true,
      decide_eq_true_eq] at this; omega)
  rw [Wallet.toUtf8_ascii]
  · unfold ofAscii
    rw [List.map_map]
    refine (List.map_congr_left fun c hc => ?_).trans (List.map_id b)
    show UInt8.ofNat (Char.ofNat c.toNat).toNat = c
    rw [hnat c hc, UInt8.ofNat_toNat]
  · intro d hd
    obtain ⟨c, hc, rfl⟩ := List.mem_map.mp hd
    have := h c hc
    simp only [isGraphic, Bool.and_eq_true, decide_eq_true_eq] at this
    rw [hnat c hc]
    omega

omit [Secp] in
theorem graphic_chars {t : Wallet.Text} (h : (Wallet.toUtf8 t).all isGraphic = true) :
    ∀ c ∈ t, 0x30 ≤ c.toNat ∧ c.toNat < 0x80 := by
  have ht : t = ofAscii (Wallet.toUtf8 t) := by
    have := congrArg Wallet.fromUtf8 (toUtf8_ofAscii h)
    rw [Wallet.fromUtf8_toUtf8, Wallet.fromUtf8_toUtf8] at this
    exact (Option.some.inj this).symm
  intro c hc
  rw [ht] at hc
  obtain ⟨b, hb, rfl⟩ := List.mem_map.mp hc
  have hg := List.all_eq_true.mp h b hb
  simp only [isGraphic, Bool.and_eq_true, decide_eq_true_eq] at hg
  rw [Wallet.ofNat_spec _ (by omega)]
  exact hg

open Wallet (CaseTables toLowercase toUtf8 jsSpace isWhitespace trimMatches)

/-- The next line is its own lower case. -/
class NextLine [CaseTables] : Prop where
  lower_nel : CaseTables.lower (Char.ofNat 0x85) = [Char.ofNat 0x85]

/-- White space of either kind. -/
def isSpace (c : Char) : Bool := jsSpace c || isWhitespace c

omit [Secp] in
theorem isWhitespace_eq (c : Char) : isWhitespace c = true ↔
    c.toNat = 0x85 ∨ jsSpace c = true ∧ c.toNat ≠ 0xfeff := by
  unfold isWhitespace jsSpace
  simp only [Bool.or_eq_true, Bool.and_eq_true, decide_eq_true_eq, List.contains_cons,
    List.contains_nil, Bool.or_false, beq_iff_eq]
  omega

omit [Secp] in
theorem not_graphic_of_space {c : Char} (h : isSpace c = true) :
    ¬ (0x30 ≤ c.toNat ∧ c.toNat < 0x80) := by
  unfold isSpace isWhitespace jsSpace at h
  simp only [Bool.or_eq_true, Bool.and_eq_true, decide_eq_true_eq, List.contains_cons,
    List.contains_nil, Bool.or_false, beq_iff_eq] at h
  omega

omit [Secp] in
theorem lower_of_space [CaseTables] [NextLine] {c : Char} (h : isSpace c = true) :
    CaseTables.lower c = [c] ∧ c ≠ 'Σ' := by
  have hne : c ≠ 'Σ' := fun heq => by
    rw [heq] at h
    exact absurd h (by decide)
  refine ⟨?_, hne⟩
  unfold isSpace at h
  rw [Bool.or_eq_true, isWhitespace_eq] at h
  have hnel : ∀ {d : Char}, d.toNat = 0x85 → CaseTables.lower d = [d] := by
    intro d hd
    rw [show d = Char.ofNat 0x85 by rw [← hd, Char.ofNat_toNat]]
    exact NextLine.lower_nel
  rcases h with hjs | hnl | hjs
  · exact CaseTables.lower_space c hjs
  · exact hnel hnl
  · exact CaseTables.lower_space c hjs.1

omit [Secp] in
/-- White space stays in a text in lower case. -/
theorem mem_lowerFrom_space [CaseTables] [NextLine] {c : Char} (h : isSpace c = true) :
    ∀ {t before : Wallet.Text}, c ∈ t → c ∈ Wallet.lowerFrom before t
  | d :: t, before, hc => by
    unfold Wallet.lowerFrom
    rw [List.mem_append]
    rcases List.mem_cons.mp hc with rfl | hc
    · obtain ⟨hlow, hsigma⟩ := lower_of_space h
      left
      rw [Wallet.lowerAt, if_neg hsigma, hlow]
      exact List.mem_singleton_self c
    · exact .inr (mem_lowerFrom_space h hc)

/-- The text is an identifier's, in some letter case. -/
def IsIdentifier [CaseTables] (body : Wallet.Text) : Prop :=
  ∃ v, Names (toUtf8 (toLowercase body)) v

theorem IsIdentifier.no_space [CaseTables] [NextLine] {body : Wallet.Text} (h : IsIdentifier body) :
    body ≠ [] ∧ ∀ c ∈ body, isSpace c = false := by
  obtain ⟨v, hv⟩ := h
  obtain ⟨hne, hgraphic⟩ := hv.graphic
  constructor
  · rintro rfl
    exact hne rfl
  · intro c hc
    by_contra hspace
    rw [Bool.not_eq_false] at hspace
    exact not_graphic_of_space hspace
      (graphic_chars hgraphic c (mem_lowerFrom_space hspace hc))

omit [Secp] in
theorem trimMatches_between {p : Char → Bool} {a body b : Wallet.Text} (ha : a.all p = true)
    (hb : b.all p = true) (hne : body ≠ []) (hbody : ∀ c ∈ body, p c = false) :
    trimMatches p (a ++ body ++ b) = body := by
  obtain ⟨c, rest, rfl⟩ := List.exists_cons_of_ne_nil hne
  have hleft : (a ++ (c :: rest) ++ b).dropWhile p = (c :: rest) ++ b := by
    rw [List.append_assoc, List.dropWhile_append_of_pos (List.all_eq_true.mp ha), List.cons_append,
      List.dropWhile_cons_of_neg (by simp [hbody c List.mem_cons_self])]
  have hrev : (((c :: rest) ++ b).reverse.dropWhile p) = (c :: rest).reverse := by
    rw [List.reverse_append, List.dropWhile_append_of_pos fun d hd =>
      List.all_eq_true.mp hb d (List.mem_reverse.mp hd)]
    have hlast : (c :: rest).reverse ≠ [] := by simp
    obtain ⟨d, l, hd⟩ := List.exists_cons_of_ne_nil hlast
    rw [hd, List.dropWhile_cons_of_neg]
    rw [hbody d (List.mem_reverse.mp (hd ▸ List.mem_cons_self))]
    decide
  unfold trimMatches
  rw [hleft, List.rdropWhile, hrev, List.reverse_reverse]

omit [Secp] in
theorem trimMatches_split (p : Char → Bool) (s : Wallet.Text) : ∃ a b : Wallet.Text,
    s = a ++ trimMatches p s ++ b ∧ a.all p = true ∧ b.all p = true := by
  refine ⟨s.takeWhile p, (s.dropWhile p).rtakeWhile p, ?_, List.all_takeWhile, ?_⟩
  · unfold trimMatches
    rw [List.append_assoc, List.rdropWhile, List.rtakeWhile, ← List.reverse_append,
      List.takeWhile_append_dropWhile, List.reverse_reverse, List.takeWhile_append_dropWhile]
  · rw [List.rtakeWhile, List.all_reverse]
    exact List.all_takeWhile

omit [Secp] in
/-- What is not trimmed stays. -/
theorem mem_trimMatches {p : Char → Bool} {s : Wallet.Text} {c : Char} (hc : c ∈ s)
    (hp : p c = false) : c ∈ trimMatches p s := by
  obtain ⟨a, b, hs, ha, hb⟩ := trimMatches_split p s
  rw [hs, List.mem_append, List.mem_append] at hc
  rcases hc with (hc | hc) | hc
  · rw [List.all_eq_true.mp ha c hc] at hp
    cases hp
  · exact hc
  · rw [List.all_eq_true.mp hb c hc] at hp
    cases hp

/-- An identifier between characters that one port trims and the other keeps:
the next line, among white space of the core's, or the byte order mark, among
ECMAScript's. -/
def OddlySpaced [CaseTables] (id : Wallet.Text) : Prop :=
  ∃ a body b : Wallet.Text, id = a ++ body ++ b ∧ IsIdentifier body ∧
    ((a ++ b).all isWhitespace = true ∧ (∃ c ∈ a ++ b, c.toNat = 0x85) ∨
      (a ++ b).all jsSpace = true ∧ ∃ c ∈ a ++ b, c.toNat = 0xfeff)

theorem core_ok [CaseTables] {id : Wallet.Text} :
    (∃ v, CoreKeys.basePoint id = .ok v) ↔ IsIdentifier (Wallet.trim id) :=
  exists_congr fun _ => readIdentifier_names

theorem teller_ok [CaseTables] {id : Wallet.Text} :
    (∃ v, TellerKeys.basePoint id = .ok v) ↔ IsIdentifier (Wallet.jsTrim id) :=
  exists_congr fun v => ((same_readIdentifier _).ok_iff v).symm.trans readIdentifier_names

/-- The ports read an identifier alike unless it is oddly spaced. -/
theorem basePoint_same_iff [CaseTables] [NextLine] (id : Wallet.Text) :
    Same (CoreKeys.basePoint id) (TellerKeys.basePoint id) ↔ ¬ OddlySpaced id := by
  constructor
  · rintro hsame ⟨a, body, b, hid, hbody, hodd⟩
    have hboth : IsIdentifier (Wallet.trim id) ↔ IsIdentifier (Wallet.jsTrim id) := by
      rw [← core_ok, ← teller_ok]
      exact exists_congr fun v => hsame.ok_iff v
    obtain ⟨hne, hspace⟩ := hbody.no_space
    rcases hodd with ⟨hall, c, hc, hnel⟩ | ⟨hall, c, hc, hbom⟩
    · -- the core trims to the identifier; the next line stays in the teller's text
      rw [List.all_append, Bool.and_eq_true] at hall
      have htrim : Wallet.trim id = body := hid ▸ trimMatches_between hall.1 hall.2 hne fun d hd =>
        (Bool.or_eq_false_iff.mp (hspace d hd)).2
      have hmem : c ∈ Wallet.jsTrim id := by
        refine mem_trimMatches ?_ ?_
        · rw [hid]
          simp only [List.mem_append] at hc ⊢
          tauto
        · unfold jsSpace
          rw [hnel]
          decide
      have hws : isSpace c = true := by
        rw [isSpace, Bool.or_eq_true, isWhitespace_eq]
        exact .inr (.inl hnel)
      have := (hboth.mp (htrim ▸ hbody)).no_space.2 c hmem
      rw [hws] at this
      cases this
    · rw [List.all_append, Bool.and_eq_true] at hall
      have htrim : Wallet.jsTrim id = body := hid ▸ trimMatches_between hall.1 hall.2 hne
        fun d hd => (Bool.or_eq_false_iff.mp (hspace d hd)).1
      have hmem : c ∈ Wallet.trim id := by
        refine mem_trimMatches ?_ ?_
        · rw [hid]
          simp only [List.mem_append] at hc ⊢
          tauto
        · unfold isWhitespace
          rw [hbom]
          decide
      have hjs : isSpace c = true := by
        unfold isSpace jsSpace
        rw [hbom]
        rfl
      have := (hboth.mpr (htrim ▸ hbody)).no_space.2 c hmem
      rw [hjs] at this
      cases this
  · intro hodd
    by_cases hcore : IsIdentifier (Wallet.trim id)
    · obtain ⟨a, b, hid, ha, hb⟩ := trimMatches_split isWhitespace id
      obtain ⟨hne, hspace⟩ := hcore.no_space
      have hjs : (a ++ b).all jsSpace = true := by
        rw [List.all_eq_true]
        intro c hc
        have hws : isWhitespace c = true := by
          rcases List.mem_append.mp hc with hc | hc
          · exact List.all_eq_true.mp ha c hc
          · exact List.all_eq_true.mp hb c hc
        rcases (isWhitespace_eq c).mp hws with hnel | hjs
        · exact absurd ⟨a, _, b, hid, hcore, .inl ⟨by rw [List.all_append, ha, hb]; rfl, c, hc, hnel⟩⟩
            hodd
        · exact hjs.1
      rw [List.all_append, Bool.and_eq_true] at hjs
      have hsame : Wallet.jsTrim id = Wallet.trim id := by
        unfold Wallet.jsTrim
        conv_lhs => rw [hid]
        exact trimMatches_between hjs.1 hjs.2 hne fun d hd => (Bool.or_eq_false_iff.mp (hspace d hd)).1
      unfold CoreKeys.basePoint TellerKeys.basePoint
      rw [hsame]
      exact same_readIdentifier _
    · by_cases hteller : IsIdentifier (Wallet.jsTrim id)
      · obtain ⟨a, b, hid, ha, hb⟩ := trimMatches_split jsSpace id
        obtain ⟨hne, hspace⟩ := hteller.no_space
        have hws : (a ++ b).all isWhitespace = true := by
          rw [List.all_eq_true]
          intro c hc
          have hjs : jsSpace c = true := by
            rcases List.mem_append.mp hc with hc | hc
            · exact List.all_eq_true.mp ha c hc
            · exact List.all_eq_true.mp hb c hc
          refine (isWhitespace_eq c).mpr (.inr ⟨hjs, fun hbom => ?_⟩)
          exact hodd ⟨a, _, b, hid, hteller, .inr ⟨by rw [List.all_append, ha, hb]; rfl, c, hc, hbom⟩⟩
        rw [List.all_append, Bool.and_eq_true] at hws
        have hsame : Wallet.trim id = Wallet.jsTrim id := by
          unfold Wallet.trim
          conv_lhs => rw [hid]
          exact trimMatches_between hws.1 hws.2 hne
            fun d hd => (Bool.or_eq_false_iff.mp (hspace d hd)).2
        exact absurd (hsame ▸ hteller) hcore
      · -- neither text is an identifier's
        rw [← core_ok] at hcore
        rw [← teller_ok] at hteller
        exact .of_iff (same_readIdentifier _).ne_panic.1 (same_readIdentifier _).ne_panic.2
          fun v => ⟨fun h => absurd ⟨v, h⟩ hcore, fun h => absurd ⟨v, h⟩ hteller⟩

/-! ### The ports -/

variable [Sha256]

/-- The two ports agree on an identifier, a tag and chunks, a secret, a tweak,
the text of a point and the hash of a tree. -/
structure PortsAgree [CaseTables] (id : Wallet.Text) (tag : Bytes) (chunks : List Bytes)
    (d t p : Bytes) (h32 : Option Bytes) : Prop where
  basePoint : Same (CoreKeys.basePoint id) (TellerKeys.basePoint id)
  taggedScalar : Same (CoreKeys.taggedScalar tag chunks) (TellerKeys.taggedScalar tag chunks)
  refused : ∀ b : Bytes, b.length = 32 →
    (CoreKeys.reduceModN b = List.replicate 32 0 ↔ beNat b = 0 ∨ beNat b = curveOrder) ∧
      (TellerKeys.reduce b = none ↔ beNat b = 0 ∨ beNat b = curveOrder)
  reduced : ∀ (b : Bytes) (k : ℕ), b.length = 32 → TellerKeys.reduce b = some k →
    CoreKeys.reduceModN b = scalarBytes k
  publicKey : Same (CoreKeys.publicKey d) (TellerKeys.publicKey d)
  normalize : Same (CoreKeys.normalize d) (TellerKeys.normalize d)
  xOnly : Same (CoreKeys.xOnly p) (TellerKeys.xOnly p)
  did : Same (CoreKeys.did p) (TellerKeys.did p)
  multikey : Same (CoreKeys.multikey p) (TellerKeys.multikey p)
  negate : Same (CoreKeys.negate p) (TellerKeys.negate p)
  tweakSecret : Same (CoreKeys.tweakSecret d t) (TellerKeys.tweakSecret d t)
  tweakPoint : Same (CoreKeys.tweakPoint p t) (TellerKeys.tweakPoint p t)
  tapTweak : Same (CoreKeys.tapTweak p (h32.map hexEncode)) (TellerKeys.tapTweak p h32)

/-- **The two ports are one function but for a space.** On secrets and tweaks of
64 digits they agree in value and in success, whatever the rest, just when the
identifier is not one between characters that only one of them trims. -/
theorem ports_agree_iff [CaseTables] [NextLine] (id : Wallet.Text) (tag : Bytes)
    (chunks : List Bytes) (d t p : Bytes) (h32 : Option Bytes) (hd : d.length = 64)
    (ht : t.length = 64) : PortsAgree id tag chunks d t p h32 ↔ ¬ OddlySpaced id := by
  rw [← basePoint_same_iff]
  refine ⟨PortsAgree.basePoint, fun h => ?_⟩
  exact {
    basePoint := h
    taggedScalar := same_taggedScalar tag chunks
    refused := fun _ hb => ⟨(same_reduce hb).1.trans (reduce_none_iff hb), reduce_none_iff hb⟩
    reduced := fun _ k hb => (same_reduce hb).2 k
    publicKey := same_publicKey hd
    normalize := same_normalize hd
    xOnly := same_xOnly p
    did := same_did p
    multikey := same_multikey p
    negate := same_negate p
    tweakSecret := same_tweakSecret hd ht
    tweakPoint := same_tweakPoint p ht
    tapTweak := same_tapTweak p h32 }

end

/-! ### An identifier after the next line -/

attribute [local instance] Wallet.asciiTables Secp.residueSecp Secp.constantSha

instance asciiTables_nextLine : NextLine where
  lower_nel := by decide

/-- The x of the generator. -/
def generatorX : Wallet.Text := List.replicate 63 '0' ++ ['1']

def nextLineId : Wallet.Text := Char.ofNat 0x85 :: generatorX

theorem generator_names : IsIdentifier generatorX := by
  refine ⟨pointHex (1 : ZMod curveOrder), (1 : ZMod curveOrder), ?_, rfl, .inl ⟨?_, .inl ?_⟩⟩
  · intro h
    have := (smul_one_residue 1).mp ((one_nsmul _).trans h)
    exact absurd (Nat.le_of_dvd (by decide) this) (by decide)
  · decide
  · decide

theorem nextLineId_oddly : OddlySpaced nextLineId :=
  ⟨[Char.ofNat 0x85], generatorX, [], (List.append_nil _).symm, generator_names,
    .inl ⟨by decide, Char.ofNat 0x85, List.mem_cons_self, rfl⟩⟩

/-- The core reads an identifier that stands after U+0085 and the teller refuses it. -/
theorem ports_part : ∃ id : Wallet.Text, (∃ p, CoreKeys.basePoint id = .ok p) ∧
    ¬ Same (CoreKeys.basePoint id) (TellerKeys.basePoint id) := by
  refine ⟨nextLineId, core_ok.mpr ?_, fun h => (basePoint_same_iff _).mp h nextLineId_oddly⟩
  have htrim : Wallet.trim nextLineId = generatorX := by decide
  rw [htrim]
  exact generator_names

/-- Without the next line the ports agree on it, and on the texts of the sample. -/
theorem ports_agree_generator : PortsAgree generatorX [] [] (List.replicate 64 0x31)
    (List.replicate 64 0x32) [] none ↔ ¬ OddlySpaced generatorX :=
  ports_agree_iff generatorX [] [] (List.replicate 64 0x31) (List.replicate 64 0x32) [] none rfl rfl

end KeysAgree

end Sidestr
