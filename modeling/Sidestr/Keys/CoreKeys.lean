/-
# The keys of the core

`sidestr_core::keys`, a port of `keys.mjs` on hex texts: the point of a secret,
the forms an identifier may have, tweaks of secrets and points and chains of
them, and scalars committed to data. A text is its UTF-8 bytes; an identifier
is characters, since it is trimmed and put in lower case first.

Every function that reads a point reads the text of one (`parsePoint_ok`), and
a chain of points goes in step with the chain of the secrets (`chain_in_step`).

Key definitions: `parsePoint`, `basePoint`, `tweakPoint`, `chainPoints`,
`chainSecrets`, `reduceModN`, `taggedScalar`.
Key theorems: `parsePoint_ok`, `secret_ok`, `chain_in_step`,
`beNat_reduceModN`.
-/
import Sidestr.Core.BlockFile
import Sidestr.Keys.Secp
import Sidestr.Wallet.Escape

namespace Sidestr

namespace CoreKeys

open PegTweak (curveOrder)
open Secp

/-- Why a key, a tweak or an identifier was refused. -/
inductive KeyError
  | secret
  | tweak
  | notAPoint
  | offCurve
  | notAnIdentifier
  | cancels
  | infinity
  | zeroTweak
  | notHex (what : String)
  deriving DecidableEq

/-- A hex integer of any length as 32 bytes; none when it does not fit. -/
def int32 (text : Bytes) (what : String) : Res KeyError (Option Bytes) := do
  let bytes ← Res.okOr (.notHex what) (hexDecode text)
  let significant := bytes.dropWhile (· == 0)
  if 32 < significant.length then .ok none
  else .ok (some (List.replicate (32 - significant.length) 0 ++ significant))

def secret (d : Bytes) : Res KeyError SecretScalar := do
  let b ← int32 d "a secret"
  Res.okOr .secret (b.bind SecretScalar.fromSlice)

def scalar (t : Bytes) : Res KeyError ℕ := do
  let b ← int32 t "a tweak"
  let b ← Res.okOr .tweak b
  Res.refuseIf (b == List.replicate 32 0) .tweak
  Res.okOr .tweak (scalarFromBytes b)

def isLowerHex (s : Bytes) (len : ℕ) : Bool := s.length == len && s.all isLowerHexDigit

/-- The text starts with `02` or `03`. -/
def startsCompressed (s : Bytes) : Bool :=
  (parityHex false).isPrefixOf s || (parityHex true).isPrefixOf s

section

variable [Secp]

def parsePoint (p : Bytes) : Res KeyError Point := do
  Res.refuseIf (!isLowerHex p 66 || !startsCompressed p) .notAPoint
  let bytes ← Res.okOr .notAPoint (hexDecode p)
  Res.okOr .notAPoint (fromSlice bytes)

def isPoint (p : Bytes) : Bool := (parsePoint p).any fun _ => true

def publicKey (d : Bytes) : Res KeyError Bytes := do
  let sk ← secret d
  .ok (pointHex (pointOf sk))

/-- The secret of the even point of the same x. -/
def normalize (d : Bytes) : Res KeyError Bytes := do
  let sk ← secret d
  if odd (pointOf sk) then .ok (hexEncode sk.negate.bytes) else .ok (toLower d)

def signingKey (d : Bytes) : Res KeyError Bytes := normalize d

def didTag : Bytes := ascii ['d', 'i', 'd', ':', 'n', 'o', 's', 't', 'r', ':']

def multikeyTag : Bytes := ascii ['f', 'e', '7', '0', '1']

/-- The point a trimmed identifier in lower case names. -/
def readIdentifier (s : Bytes) : Res KeyError Bytes :=
  let x := (stripPrefix didTag s).getD s
  if isLowerHex x 64 then do
    let bytes ← Res.okOr .offCurve (hexDecode (parityHex false ++ x))
    let _ ← Res.okOr .offCurve (fromSlice bytes)
    let _ ← parsePoint (parityHex false ++ x)
    .ok (parityHex false ++ x)
  else
    match (stripPrefix multikeyTag s).filter fun key => isLowerHex key 66 && startsCompressed key with
    | some key => do
      let _ ← parsePoint key
      .ok key
    | none =>
      if isLowerHex s 66 && startsCompressed s then do
        let _ ← parsePoint s
        .ok s
      else .err .notAnIdentifier

def basePoint [Wallet.CaseTables] (id : Wallet.Text) : Res KeyError Bytes :=
  readIdentifier (Wallet.toUtf8 (Wallet.toLowercase (Wallet.trim id)))

def xOnly (p : Bytes) : Res KeyError Bytes := do
  let _ ← parsePoint p
  .ok (p.drop 2)

def did (p : Bytes) : Res KeyError Bytes := do
  let x ← xOnly p
  .ok (didTag ++ x)

def multikey (p : Bytes) : Res KeyError Bytes := do
  let _ ← parsePoint p
  .ok (multikeyTag ++ p)

def negate (p : Bytes) : Res KeyError Bytes := do
  let _ ← parsePoint p
  .ok ((if (parityHex false).isPrefixOf p then parityHex true else parityHex false) ++ p.drop 2)

omit [Secp] in
def tweakSecret (d t : Bytes) : Res KeyError Bytes := do
  let sk ← secret d
  let t ← scalar t
  let r ← Res.okOr .cancels (sk.addTweak t)
  .ok (hexEncode r.bytes)

def tweakPoint (p t : Bytes) : Res KeyError Bytes := do
  let point ← parsePoint p
  let t ← scalar t
  let q ← Res.okOr .infinity (addExpTweak point t)
  .ok (pointHex q)

/-- The loop of both chains: each tweak is added to the last of the list. -/
def extend (step : Bytes → Bytes → Res KeyError Bytes) (out : List Bytes) (t : Bytes) :
    Res KeyError (List Bytes) := do
  let last ← Res.expect out.getLast?
  let next ← step last t
  .ok (out ++ [next])

def chainPoints (p : Bytes) (tweaks : List Bytes) : Res KeyError (List Bytes) := do
  let _ ← parsePoint p
  Res.foldlM (extend tweakPoint) [p] tweaks

omit [Secp] in
def chainSecrets (d : Bytes) (tweaks : List Bytes) : Res KeyError (List Bytes) := do
  let _ ← secret d
  Res.foldlM (extend tweakSecret) [toLower d] tweaks

end

/-- The subtraction of one byte string from another, from the least byte up;
`borrow` is 0 or 1. -/
def subBytes : Bytes → Bytes → ℤ → Bytes
  | a :: v, b :: n, borrow =>
    let x : ℤ := a.toNat - b.toNat - borrow
    if x < 0 then UInt8.ofNat (x + 256).toNat :: subBytes v n 1
    else UInt8.ofNat x.toNat :: subBytes v n 0
  | _, _, _ => []

/-- The order's 32 bytes. -/
def orderBytes : Bytes := scalarBytes curveOrder

def reduceModN (v : Bytes) : Bytes :=
  if (scalarFromBytes v).isSome then v
  else (subBytes v.reverse orderBytes.reverse 0).reverse

section

variable [Sha256]

open Sha256

def taggedHash (tag : Bytes) (chunks : List Bytes) : Bytes :=
  sha256 (sha256 tag ++ sha256 tag ++ chunks.flatten)

def taggedScalar (tag : Bytes) (chunks : List Bytes) : Res KeyError Bytes := do
  let n := reduceModN (taggedHash tag chunks)
  Res.refuseIf (n == List.replicate 32 0) .zeroTweak
  .ok (hexEncode n)

/-- The chunks given as hex. -/
def decodeChunks : List Bytes → Res KeyError (List Bytes)
  | [] => .ok []
  | c :: chunks => do
    let b ← Res.okOr (.notHex "a data chunk") (hexDecode c)
    let rest ← decodeChunks chunks
    .ok (b :: rest)

def taggedScalarHex (tag : Bytes) (chunks : List Bytes) : Res KeyError Bytes := do
  let bytes ← decodeChunks chunks
  taggedScalar tag bytes

def tapTweakTag : Bytes := ascii ['T', 'a', 'p', 'T', 'w', 'e', 'a', 'k']

def tapTweak [Secp] (p : Bytes) (h32 : Option Bytes) : Res KeyError Bytes := do
  let x ← xOnly p
  match h32 with
  | some h => taggedScalarHex tapTweakTag [x, h]
  | none => taggedScalarHex tapTweakTag [x]

end

/-! ### Scalars -/

theorem beNat_dropWhile_zero (b : Bytes) : beNat (b.dropWhile (· == 0)) = beNat b := by
  induction b with
  | nil => rfl
  | cons x b ih =>
    by_cases hx : x = 0
    · subst hx
      rw [List.dropWhile_cons_of_pos (by decide), ih, beNat_cons]
      simp
    · rw [List.dropWhile_cons_of_neg (by simpa using hx)]

/-- Bytes whose first is not zero are more than 32 when their number does not fit. -/
theorem length_dropWhile_zero (b : Bytes) :
    32 < (b.dropWhile (· == 0)).length ↔ 256 ^ 32 ≤ beNat b := by
  have hval := beNat_dropWhile_zero b
  constructor
  · intro hlen
    cases hd : b.dropWhile (· == 0) with
    | nil => simp [hd] at hlen
    | cons x rest =>
      have hx : x ≠ 0 := by
        have := List.head_dropWhile_not (l := b) (· == (0 : UInt8)) (by simp [hd])
        simpa [hd] using this
      have hx1 : 1 ≤ x.toNat := Nat.one_le_iff_ne_zero.mpr fun h0 => hx (UInt8.toNat_inj.mp h0)
      have hrest : 32 ≤ rest.length := by
        rw [hd, List.length_cons] at hlen
        omega
      rw [← hval, hd, beNat_cons]
      calc 256 ^ 32 ≤ 256 ^ rest.length := Nat.pow_le_pow_right (by decide) hrest
        _ ≤ x.toNat * 256 ^ rest.length := Nat.le_mul_of_pos_left _ hx1
        _ ≤ _ := Nat.le_add_right _ _
  · intro hbig
    by_contra hlen
    have hlt := beNat_lt (b.dropWhile (· == 0))
    have hpow : 256 ^ (b.dropWhile (· == 0)).length ≤ 256 ^ 32 :=
      Nat.pow_le_pow_right (by decide) (by omega)
    omega

theorem int32_eq {text b : Bytes} (h : hexDecode text = some b) (what : String) :
    int32 text what = .ok (if beNat b < 256 ^ 32 then some (scalarBytes (beNat b)) else none) := by
  have hlen := length_dropWhile_zero b
  unfold int32
  rw [h, Res.okOr_some, Res.ok_bind]
  simp only
  split_ifs with h1 h2 h2
  · omega
  · rfl
  · refine congrArg (fun o => Res.ok (some o)) (beNat_injective ?_ ?_)
    · rw [List.length_append, List.length_replicate, length_scalarBytes]
      omega
    · rw [beNat_append, beNat_zeros, beNat_dropWhile_zero, Nat.zero_mul, Nat.zero_add,
        beNat_scalarBytes h2]
  · omega

/-- A secret's text is hex of its number, of any length and in either case. -/
theorem secret_ok {d : Bytes} {k : SecretScalar} :
    secret d = .ok k ↔ ∃ b, hexDecode d = some b ∧ beNat b = k.val := by
  have hk := k.lt.trans curveOrder_lt
  unfold secret
  cases hd : hexDecode d with
  | none => simp [int32, hd]
  | some b =>
    rw [int32_eq hd, Res.ok_bind, Res.okOr_eq_ok]
    constructor
    · intro h
      split_ifs at h with hfit
      · rw [Option.bind_some, SecretScalar.fromSlice, if_pos (length_scalarBytes _),
          beNat_scalarBytes hfit, SecretScalar.ofNat?_eq_some] at h
        exact ⟨b, rfl, h.1.symm⟩
      · cases h
    · rintro ⟨_, hb, hv⟩
      obtain rfl := Option.some.inj hb
      rw [hv, if_pos hk, Option.bind_some]
      exact k.fromSlice_bytes

/-- A tweak's text is hex of its number: any but zero below the order. -/
theorem scalar_ok {t : Bytes} {k : ℕ} :
    scalar t = .ok k ↔ ∃ b, hexDecode t = some b ∧ beNat b = k ∧ 0 < k ∧ k < curveOrder := by
  unfold scalar
  cases hd : hexDecode t with
  | none => simp [int32, hd]
  | some b =>
    rw [int32_eq hd, Res.ok_bind]
    by_cases hfit : beNat b < 256 ^ 32
    · have hz : (scalarBytes (beNat b) == List.replicate 32 0) = decide (beNat b = 0) := by
        rw [Bool.eq_iff_iff, beq_iff_eq, decide_eq_true_eq]
        constructor
        · intro h
          rw [← beNat_scalarBytes hfit, h, beNat_zeros]
        · intro h
          rw [h]
          rfl
      rw [if_pos hfit, Res.okOr_some, Res.ok_bind, hz, scalarFromBytes, beNat_scalarBytes hfit]
      constructor
      · intro h
        obtain ⟨_, hne, h⟩ := Res.bind_eq_ok.mp h
        have hne := of_decide_eq_false (Res.refuseIf_eq_ok.mp hne)
        rw [Res.okOr_eq_ok] at h
        split_ifs at h with hlt
        · obtain rfl := Option.some.inj h
          exact ⟨b, rfl, rfl, Nat.pos_of_ne_zero hne, hlt⟩
      · rintro ⟨_, hb, rfl, hpos, hlt⟩
        obtain rfl := Option.some.inj hb
        rw [decide_eq_false hpos.ne', Res.refuseIf_false, Res.ok_bind, if_pos hlt]
        rfl
    · rw [if_neg hfit, Res.okOr_none]
      constructor
      · intro h
        cases h
      · rintro ⟨_, hb, rfl, -, hlt⟩
        obtain rfl := Option.some.inj hb
        exact absurd (hlt.trans curveOrder_lt) hfit

theorem secret_hex (k : SecretScalar) : secret (hexEncode k.bytes) = .ok k :=
  secret_ok.mpr ⟨_, hexDecode_hexEncode _, k.beNat_bytes⟩

/-- A secret reads the same in lower case. -/
theorem secret_toLower {d : Bytes} {k : SecretScalar} (h : secret d = .ok k) :
    secret (toLower d) = .ok k := by
  obtain ⟨b, hb, hv⟩ := secret_ok.mp h
  rw [← hexEncode_hexDecode hb]
  exact secret_ok.mpr ⟨b, hexDecode_hexEncode b, hv⟩

/-! ### Points -/

section

variable [Secp]

theorem startsCompressed_pointHex (p : Point) : startsCompressed (pointHex p) = true := by
  rw [pointHex_eq]
  cases odd p
  · rfl
  · rfl

/-- A point is read from its own text and from no other. -/
theorem parsePoint_ok {s : Bytes} {p : Point} :
    parsePoint s = .ok p ↔ p ≠ 0 ∧ s = pointHex p := by
  unfold parsePoint
  constructor
  · intro h
    obtain ⟨_, hshape, h⟩ := Res.bind_eq_ok.mp h
    obtain ⟨b, hb, h⟩ := Res.bind_eq_ok.mp h
    have hshape := Res.refuseIf_eq_ok.mp hshape
    simp only [Bool.or_eq_false_iff, Bool.not_eq_false', isLowerHex, Bool.and_eq_true,
      beq_iff_eq] at hshape
    exact (fromSlice_hex hshape.1.1 hshape.1.2 (Res.okOr_eq_ok.mp hb)).mp (Res.okOr_eq_ok.mp h)
  · rintro ⟨h0, rfl⟩
    have hlow : isLowerHex (pointHex p) 66 = true := by
      simp [isLowerHex, length_pointHex, pointHex_lower]
    have hread := (fromSlice_hex (length_pointHex p) (pointHex_lower p) (hexDecode_pointHex p)).mpr
      ⟨h0, rfl⟩
    rw [hlow, startsCompressed_pointHex, hexDecode_pointHex]
    simp [hread]

theorem publicKey_ok {d p : Bytes} :
    publicKey d = .ok p ↔ ∃ k, secret d = .ok k ∧ p = pointHex (pointOf k) := by
  unfold publicKey
  rw [Res.bind_eq_ok]
  exact exists_congr fun k => and_congr_right fun _ => ⟨fun h => (Res.ok.inj h).symm, fun h => h ▸ rfl⟩

theorem xOnly_pointHex {p : Point} (h : p ≠ 0) : xOnly (pointHex p) = .ok (hexEncode (x p)) := by
  unfold xOnly
  rw [parsePoint_ok.mpr ⟨h, rfl⟩, Res.ok_bind, pointHex_eq]
  cases odd p
  · rfl
  · rfl

theorem negate_pointHex {p : Point} (h : p ≠ 0) : negate (pointHex p) = .ok (pointHex (-p)) := by
  unfold negate
  rw [parsePoint_ok.mpr ⟨h, rfl⟩, Res.ok_bind, pointHex_eq, pointHex_eq, odd_neg p h, x_neg]
  cases odd p
  · rfl
  · rfl

theorem tweakPoint_pointHex {p : Point} (h : p ≠ 0) {t : Bytes} {k : ℕ} (ht : scalar t = .ok k) :
    tweakPoint (pointHex p) t =
      if p + k • gen = 0 then .err .infinity else .ok (pointHex (p + k • gen)) := by
  unfold tweakPoint addExpTweak
  rw [parsePoint_ok.mpr ⟨h, rfl⟩, Res.ok_bind, ht, Res.ok_bind]
  split_ifs
  · rfl
  · rfl

/-! ### Chains -/

/-- A secret's text and its point's. -/
def KeyPair (s p : Bytes) : Prop := publicKey s = .ok p

/-- A secret and its point, tweaked by the same text: both refused, or a secret
and its point again. -/
theorem tweak_in_step {s p : Bytes} (h : KeyPair s p) (t : Bytes) :
    (∃ s' p', tweakSecret s t = .ok s' ∧ tweakPoint p t = .ok p' ∧ KeyPair s' p') ∨
      ((∀ s', tweakSecret s t ≠ .ok s') ∧ ∀ p', tweakPoint p t ≠ .ok p') := by
  obtain ⟨k, hk, rfl⟩ := publicKey_ok.mp h
  have hparse := parsePoint_ok.mpr ⟨pointOf_ne_zero k, rfl⟩
  have hsec : tweakSecret s t = scalar t >>= fun v =>
      Res.okOr KeyError.cancels (k.addTweak v) >>= fun r => .ok (hexEncode r.bytes) := by
    unfold tweakSecret
    rw [hk, Res.ok_bind]
  rw [hsec]
  cases ht : scalar t with
  | ok v =>
    rw [tweakPoint_pointHex (pointOf_ne_zero k) ht, Res.ok_bind]
    cases he : k.addTweak v with
    | none =>
      have h0 : (k.val + v) % curveOrder = 0 := by
        by_contra hne
        have hlt : (k.val + v) % curveOrder < curveOrder := Nat.mod_lt _ (k.pos.trans k.lt)
        have := SecretScalar.addTweak_eq_some (d := k) (t := v)
          (e := ⟨_, Nat.pos_of_ne_zero hne, hlt⟩)
        rw [he] at this
        cases this.mpr ⟨rfl, hne⟩
      rw [if_pos (pointOf_add_eq_zero.mpr h0)]
      exact .inr ⟨fun s' hc => (by cases hc), fun p' hc => (by cases hc)⟩
    | some e =>
      have hne := (SecretScalar.addTweak_eq_some.mp he).2
      rw [if_neg fun h0 => hne (pointOf_add_eq_zero.mp h0), ← pointOf_addTweak he]
      exact .inl ⟨_, _, rfl, rfl, publicKey_ok.mpr ⟨e, secret_hex e, rfl⟩⟩
  | err _ => exact .inr ⟨fun s' hc => (by cases hc), fun p' hc => (by
      rw [tweakPoint, hparse, Res.ok_bind, ht] at hc; cases hc)⟩
  | panic => exact .inr ⟨fun s' hc => (by cases hc), fun p' hc => (by
      rw [tweakPoint, hparse, Res.ok_bind, ht] at hc; cases hc)⟩

/-- The two lists so far: secrets and their points, and a last of each. -/
def InStep (ss ps : List Bytes) : Prop :=
  ∃ ss' s ps' p, ss = ss' ++ [s] ∧ ps = ps' ++ [p] ∧ List.Forall₂ KeyPair ss' ps' ∧ KeyPair s p

theorem InStep.forall₂ {ss ps : List Bytes} (h : InStep ss ps) : List.Forall₂ KeyPair ss ps := by
  obtain ⟨ss', s, ps', p, rfl, rfl, hall, hlast⟩ := h
  exact List.rel_append hall (.cons hlast .nil)

theorem extend_in_step {ss ps : List Bytes} (h : InStep ss ps) (t : Bytes) :
    (∃ ss' ps', extend tweakSecret ss t = .ok ss' ∧ extend tweakPoint ps t = .ok ps' ∧
      InStep ss' ps') ∨
      ((∀ ss', extend tweakSecret ss t ≠ .ok ss') ∧ ∀ ps', extend tweakPoint ps t ≠ .ok ps') := by
  have hall := h.forall₂
  obtain ⟨ss', s, ps', p, rfl, rfl, -, hlast⟩ := h
  have hext : ∀ (step : Bytes → Bytes → Res KeyError Bytes) (l : List Bytes) (a : Bytes),
      extend step (l ++ [a]) t = step a t >>= fun next => .ok (l ++ [a] ++ [next]) := by
    intro step l a
    unfold extend
    rw [List.getLast?_concat]
    rfl
  rw [hext, hext]
  rcases tweak_in_step hlast t with ⟨s', p', hs, hp, hpair⟩ | ⟨hs, hp⟩
  · rw [hs, hp]
    exact .inl ⟨_, _, rfl, rfl, _, s', _, p', rfl, rfl, hall, hpair⟩
  · refine .inr ⟨fun _ hc => ?_, fun _ hc => ?_⟩
    · obtain ⟨a, ha, -⟩ := Res.bind_eq_ok.mp hc
      exact hs a ha
    · obtain ⟨a, ha, -⟩ := Res.bind_eq_ok.mp hc
      exact hp a ha

/-- Over all the tweaks the two loops stay in step, or both are refused. -/
theorem extend_all_in_step : ∀ (ts : List Bytes) {ss ps : List Bytes}, InStep ss ps →
    (∃ ss' ps', Res.foldlM (extend tweakSecret) ss ts = .ok ss' ∧
      Res.foldlM (extend tweakPoint) ps ts = .ok ps' ∧ InStep ss' ps') ∨
      ((∀ ss', Res.foldlM (extend tweakSecret) ss ts ≠ .ok ss') ∧
        ∀ ps', Res.foldlM (extend tweakPoint) ps ts ≠ .ok ps')
  | [], ss, ps, h => .inl ⟨ss, ps, rfl, rfl, h⟩
  | t :: ts, ss, ps, h => by
    rw [Res.foldlM_cons, Res.foldlM_cons]
    rcases extend_in_step h t with ⟨ss', ps', hs, hp, hnext⟩ | ⟨hs, hp⟩
    · rw [hs, hp]
      exact extend_all_in_step ts hnext
    · refine .inr ⟨fun _ hc => ?_, fun _ hc => ?_⟩
      · obtain ⟨a, ha, -⟩ := Res.bind_eq_ok.mp hc
        exact hs a ha
      · obtain ⟨a, ha, -⟩ := Res.bind_eq_ok.mp hc
        exact hp a ha

/-- The chain of a secret and that of its point: both refused, or in step. -/
theorem chains {d p : Bytes} (h : KeyPair d p) (ts : List Bytes) :
    (∃ ss ps, chainSecrets d ts = .ok ss ∧ chainPoints p ts = .ok ps ∧
      List.Forall₂ KeyPair ss ps) ∨
      ((∀ ss, chainSecrets d ts ≠ .ok ss) ∧ ∀ ps, chainPoints p ts ≠ .ok ps) := by
  obtain ⟨k, hk, rfl⟩ := publicKey_ok.mp h
  have hstart : InStep [toLower d] [pointHex (pointOf k)] :=
    ⟨[], _, [], _, rfl, rfl, .nil, publicKey_ok.mpr ⟨k, secret_toLower hk, rfl⟩⟩
  have hs : chainSecrets d ts = Res.foldlM (extend tweakSecret) [toLower d] ts := by
    unfold chainSecrets
    rw [hk, Res.ok_bind]
  have hp : chainPoints (pointHex (pointOf k)) ts =
      Res.foldlM (extend tweakPoint) [pointHex (pointOf k)] ts := by
    unfold chainPoints
    rw [parsePoint_ok.mpr ⟨pointOf_ne_zero k, rfl⟩, Res.ok_bind]
  rw [hs, hp]
  rcases extend_all_in_step ts hstart with ⟨ss, ps, h1, h2, h3⟩ | hno
  · exact .inl ⟨ss, ps, h1, h2, h3.forall₂⟩
  · exact .inr hno

end

/-! ### Reduction -/

theorem length_subBytes : ∀ (v n : Bytes) (borrow : ℤ), v.length = n.length →
    (subBytes v n borrow).length = v.length
  | [], _, _, _ => by simp [subBytes]
  | a :: v, [], _, h => by simp at h
  | a :: v, b :: n, borrow, h => by
    have hlen : v.length = n.length := Nat.succ.inj h
    unfold subBytes
    simp only
    split_ifs
    · rw [List.length_cons, length_subBytes v n _ hlen, List.length_cons]
    · rw [List.length_cons, length_subBytes v n _ hlen, List.length_cons]

/-- A subtraction that does not go below zero is one of the numbers. -/
theorem leNat_subBytes : ∀ (v n : Bytes) (borrow : ℕ), v.length = n.length → borrow ≤ 1 →
    leNat n + borrow ≤ leNat v → leNat (subBytes v n borrow) + leNat n + borrow = leNat v
  | [], [], borrow, _, _, h => by
    have h0 : borrow = 0 := by simpa [leNat, beNat] using h
    rw [h0]
    rfl
  | a :: v, b :: n, borrow, hlen, hb, h => by
    have hl : v.length = n.length := Nat.succ.inj hlen
    have ha := a.toNat_lt
    have hbyte := b.toNat_lt
    rw [leNat_cons, leNat_cons] at h
    unfold subBytes
    simp only
    split_ifs with hneg
    · have ih := leNat_subBytes v n 1 hl le_rfl (by omega)
      have hto : (UInt8.ofNat ((a.toNat : ℤ) - b.toNat - borrow + 256).toNat).toNat =
          a.toNat + 256 - b.toNat - borrow := by
        rw [UInt8.toNat_ofNat']
        omega
      rw [leNat_cons, leNat_cons, leNat_cons, hto]
      simp only [Nat.cast_one] at ih
      omega
    · have ih := leNat_subBytes v n 0 hl (by decide) (by omega)
      have hto : (UInt8.ofNat ((a.toNat : ℤ) - b.toNat - borrow).toNat).toNat =
          a.toNat - b.toNat - borrow := by
        rw [UInt8.toNat_ofNat']
        omega
      rw [leNat_cons, leNat_cons, leNat_cons, hto]
      simp only [Nat.cast_zero] at ih
      omega

theorem length_reduceModN {v : Bytes} (h : v.length = 32) : (reduceModN v).length = 32 := by
  unfold reduceModN
  split_ifs
  · exact h
  · rw [List.length_reverse, length_subBytes _ _ _ (by
      rw [List.length_reverse, List.length_reverse, h]; exact (length_scalarBytes _).symm),
      List.length_reverse, h]

/-- One subtraction reduces: what is left of the number by the order. -/
theorem beNat_reduceModN {v : Bytes} (h : v.length = 32) :
    beNat (reduceModN v) = beNat v % curveOrder := by
  have hlt : beNat v < 256 ^ 32 := h ▸ beNat_lt v
  unfold reduceModN scalarFromBytes
  by_cases hv : beNat v < curveOrder
  · rw [if_pos hv, Nat.mod_eq_of_lt hv]
    rfl
  · have hn : leNat orderBytes.reverse = curveOrder := by
      unfold leNat orderBytes
      rw [List.reverse_reverse, beNat_scalarBytes curveOrder_lt]
    have hvr : leNat v.reverse = beNat v := by
      unfold leNat
      rw [List.reverse_reverse]
    have hsub := leNat_subBytes v.reverse orderBytes.reverse 0 (by
      rw [List.length_reverse, List.length_reverse, h]; exact (length_scalarBytes _).symm)
      (by decide) (by rw [hn, hvr]; omega)
    rw [hn, hvr] at hsub
    have h2 : (256 : ℕ) ^ 32 < 2 * curveOrder := by decide
    rw [if_neg hv]
    show leNat (subBytes v.reverse orderBytes.reverse 0) = _
    rw [Nat.mod_eq_sub_mod (Nat.not_lt.mp hv), Nat.mod_eq_of_lt (by omega)]
    simp only [Nat.cast_zero] at hsub
    omega

end CoreKeys

end Sidestr
