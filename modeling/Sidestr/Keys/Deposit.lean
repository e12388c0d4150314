/-
# Deposit addresses

An account's deposit address on a ledger (`deposit.rs`): the operator's point,
tweaked by a scalar committed to the ledger's hash, the account's x and a
nonce. The operator is given as any text of its public key and read down to
its x, so the point that is tweaked is the even one; the secret that spends a
deposit is the operator's, normalized, tweaked by the same scalar.

Key definitions: `depositAddress`, `depositSecret`, `Writes`.
Key theorems: `depositAddress_eq`, `depositData_inj`, `derived_keys_spend`.
-/
import Sidestr.Keys.Agree
import Sidestr.Teller.Account

namespace Sidestr

namespace Deposit

open PegTweak (curveOrder)
open Secp
open Wallet (CaseTables toLowercase toUtf8 jsTrim)
open CoreKeys (didTag multikeyTag)

inductive DepositError
  | ledgerHash
  | key (e : TellerKeys.KeyRefusal)
  | account (e : Teller.LedgerError)
  | address (hrp : Bytes)

structure DepositAddress where
  tweak : Bytes
  point : Bytes
  xOnly : Bytes
  script : Bytes
  address : Bytes
  account : Teller.Text
  nonce : ℕ

def isX (s : Bytes) : Bool := s.length == 64 && s.all isLowerHexDigit

def depositTag : Bytes :=
  ascii ['w', 'e', 'b', 'l', 'e', 'd', 'g', 'e', 'r', 's', '/', 'd', 'e', 'p', 'o', 's', 'i', 't']

/-- An error of the part, as an error of the whole. -/
def lift {ε α : Type} (f : ε → DepositError) : Res ε α → Res DepositError α
  | .ok a => .ok a
  | .err e => .err (f e)
  | .panic => .panic

/-- The big-endian bytes of a 64-bit number. -/
def nonceBytes (nonce : ℕ) : Bytes := (leBytes 8 nonce).reverse

/-- The x of an account, in hex. -/
def xOf (account : Teller.Text) : Res Teller.LedgerError Bytes := do
  let did ← Teller.accountOf account
  .ok (toUtf8 (did.drop 10))

section

variable [Secp] [Sha256] [CaseTables]

/-- The address of a point already read: the operator's, whatever text it had. -/
def addressFrom (toAddress : Bytes → Bytes → Option Bytes) (p ledgerHash : Bytes)
    (account : Teller.Text) (nonce : ℕ) (hrp : Bytes) : Res DepositError DepositAddress := do
  let lh ← Res.expect (hexDecode ledgerHash)
  let ax ← lift .account (xOf account)
  let ax ← Res.expect (hexDecode ax)
  let t ← lift .key (TellerKeys.taggedScalar depositTag [lh, ax, nonceBytes nonce])
  let q ← lift .key (TellerKeys.tweakPoint p t)
  let x ← lift .key (TellerKeys.xOnly q)
  let script := ascii ['5', '1', '2', '0'] ++ x
  let spk ← Res.expect (hexDecode script)
  let address ← Res.okOr (.address hrp) (toAddress spk hrp)
  let account ← lift .account (Teller.accountOf account)
  .ok ⟨t, q, x, script, address, account, nonce⟩

def depositAddress (toAddress : Bytes → Bytes → Option Bytes) (operator : Wallet.Text)
    (ledgerHash : Bytes) (account : Teller.Text) (nonce : ℕ) (hrp : Bytes) :
    Res DepositError DepositAddress := do
  Res.refuseIf (!isX ledgerHash) .ledgerHash
  let named ← lift .key (TellerKeys.basePoint operator)
  let did ← lift .key (TellerKeys.did named)
  let p ← lift .key (TellerKeys.basePoint (KeysAgree.ofAscii did))
  addressFrom toAddress p ledgerHash account nonce hrp

omit [Sha256] [CaseTables] in
def depositSecret (operatorSecret : SecretScalar) (tweak : Bytes) :
    Res TellerKeys.KeyRefusal SecretScalar := do
  let t ← TellerKeys.scalar tweak
  TellerKeys.tweakedSecret (TellerKeys.normalized operatorSecret) t

/-- The text is one of a point's: its did, its x, or a Multikey or compressed
point of either parity, in any letter case and with space around it. -/
def Writes (p : Point) (id : Wallet.Text) : Prop :=
  let s := toUtf8 (toLowercase (jsTrim id))
  s = didTag ++ hexEncode (x p) ∨ s = hexEncode (x p) ∨
    (∃ q, (q = p ∨ q = -p) ∧ (s = multikeyTag ++ pointHex q ∨ s = pointHex q))

omit [Secp] [Sha256] [CaseTables] in
theorem lift_ok {ε α : Type} {f : ε → DepositError} {r : Res ε α} {a : α} :
    lift f r = .ok a ↔ r = .ok a := by
  cases r <;> simp [lift]

omit [Sha256] in
theorem basePoint_names {id : Wallet.Text} {v : Bytes} :
    TellerKeys.basePoint id = .ok v ↔ KeysAgree.Names (toUtf8 (toLowercase (jsTrim id))) v :=
  ((KeysAgree.same_readIdentifier _).ok_iff v).symm.trans KeysAgree.readIdentifier_names

omit [Sha256] in
/-- Every text of a key names it or its opposite. -/
theorem basePoint_of_writes {p : Point} {id : Wallet.Text} (h0 : p ≠ 0) (h : Writes p id) :
    ∃ q, q ≠ 0 ∧ x q = x p ∧ TellerKeys.basePoint id = .ok (pointHex q) := by
  have heven := odd_evenPoint h0
  have hx := x_evenPoint p
  rcases h with hs | hs | ⟨q, hq, hs⟩
  · refine ⟨evenPoint p, evenPoint_ne_zero h0, hx, basePoint_names.mpr ?_⟩
    exact ⟨evenPoint p, evenPoint_ne_zero h0, rfl, .inl ⟨heven, .inr (by rw [hx]; exact hs)⟩⟩
  · refine ⟨evenPoint p, evenPoint_ne_zero h0, hx, basePoint_names.mpr ?_⟩
    exact ⟨evenPoint p, evenPoint_ne_zero h0, rfl, .inl ⟨heven, .inl (by rw [hx]; exact hs)⟩⟩
  · have hq0 : q ≠ 0 := by
      rcases hq with rfl | rfl
      · exact h0
      · exact neg_ne_zero.mpr h0
    have hxq : x q = x p := by
      rcases hq with rfl | rfl
      · rfl
      · exact x_neg p
    exact ⟨q, hq0, hxq, basePoint_names.mpr ⟨q, hq0, rfl, .inr hs⟩⟩

omit [Secp] [Sha256] in
/-- A did is made of plain characters and reads as it is written. -/
theorem read_plain {b : Bytes} (hne : b ≠ []) (h : b.all KeysAgree.isGraphic = true)
    (hlow : ∀ c ∈ b, ¬ (0x41 ≤ c.toNat ∧ c.toNat ≤ 0x5a)) :
    toUtf8 (toLowercase (jsTrim (KeysAgree.ofAscii b))) = b := by
  have hchars : ∀ c ∈ KeysAgree.ofAscii b, 0x30 ≤ c.toNat ∧ c.toNat < 0x80 :=
    KeysAgree.graphic_chars (by rw [KeysAgree.toUtf8_ofAscii h]; exact h)
  have htrim : jsTrim (KeysAgree.ofAscii b) = KeysAgree.ofAscii b := by
    have hbetween := @KeysAgree.trimMatches_between Wallet.jsSpace [] (KeysAgree.ofAscii b) [] rfl rfl (fun hnil => hne (List.map_eq_nil_iff.mp hnil))
      fun c hc => by
        by_contra hs
        exact KeysAgree.not_graphic_of_space (c := c) (by
          unfold KeysAgree.isSpace
          rw [Bool.not_eq_false] at hs
          rw [hs, Bool.true_or]) (hchars c hc)
    rw [List.nil_append, List.append_nil] at hbetween
    exact hbetween
  have hlower : toLowercase (KeysAgree.ofAscii b) = KeysAgree.ofAscii b := by
    rw [Wallet.toLowercase_ascii fun c hc => (hchars c hc).2]
    refine (List.map_congr_left fun c hc => ?_).trans (List.map_id _)
    obtain ⟨d, hd, rfl⟩ := List.mem_map.mp hc
    have hg := List.all_eq_true.mp h d hd
    simp only [KeysAgree.isGraphic, Bool.and_eq_true, decide_eq_true_eq] at hg
    have hn := Wallet.ofNat_spec d.toNat (by omega)
    unfold Char.toLower
    rw [dif_neg]
    · rfl
    · rintro ⟨hA, hZ⟩
      have hA : 'A'.toNat ≤ (Char.ofNat d.toNat).toNat := UInt32.le_iff_toNat_le.mp hA
      have hZ : (Char.ofNat d.toNat).toNat ≤ 'Z'.toNat := UInt32.le_iff_toNat_le.mp hZ
      rw [hn] at hA hZ
      exact hlow d hd ⟨hA, hZ⟩
  rw [htrim, hlower, KeysAgree.toUtf8_ofAscii h]

omit [Sha256] in
/-- The did of a point reads as the even point of its x. -/
theorem basePoint_did {q : Point} (h0 : q ≠ 0) :
    TellerKeys.basePoint (KeysAgree.ofAscii (didTag ++ hexEncode (x q))) =
      .ok (pointHex (evenPoint q)) := by
  have hlow : ∀ c ∈ didTag ++ hexEncode (x q), ¬ (0x41 ≤ c.toNat ∧ c.toNat ≤ 0x5a) := by
    intro c hc
    rcases List.mem_append.mp hc with hc | hc
    · have htag : didTag.all (fun c => !(0x41 ≤ c.toNat && c.toNat ≤ 0x5a)) = true := by decide
      have := List.all_eq_true.mp htag c hc
      simp only [Bool.not_eq_true', Bool.and_eq_false_iff, decide_eq_false_iff_not] at this
      omega
    · have := List.all_eq_true.mp (hexEncode_lower (x q)) c hc
      simp only [isLowerHexDigit, Bool.or_eq_true, Bool.and_eq_true, decide_eq_true_eq] at this
      omega
  have hnames : KeysAgree.Names (didTag ++ hexEncode (x q)) (pointHex (evenPoint q)) :=
    ⟨evenPoint q, evenPoint_ne_zero h0, rfl,
      .inl ⟨odd_evenPoint h0, .inr (by rw [x_evenPoint])⟩⟩
  obtain ⟨hne, hgraphic⟩ := hnames.graphic
  rw [basePoint_names, read_plain hne hgraphic hlow]
  exact hnames

/-- Whatever text the operator's key is given as, the address is its even point's. -/
theorem depositAddress_eq {toAddress : Bytes → Bytes → Option Bytes} {d : SecretScalar}
    {operator : Wallet.Text} (h : Writes (pointOf d) operator) (ledgerHash : Bytes)
    (account : Teller.Text) (nonce : ℕ) (hrp : Bytes) :
    depositAddress toAddress operator ledgerHash account nonce hrp =
      (Res.refuseIf (!isX ledgerHash) DepositError.ledgerHash >>= fun _ =>
        addressFrom toAddress (pointHex (pointOf (TellerKeys.normalized d))) ledgerHash account nonce
          hrp) := by
  obtain ⟨q, hq0, hxq, hbase⟩ := basePoint_of_writes (pointOf_ne_zero d) h
  have heven : evenPoint q = pointOf (TellerKeys.normalized d) := by
    rw [TellerKeys.pointOf_normalized]
    exact eq_evenPoint (pointOf_ne_zero d) (evenPoint_ne_zero hq0) ((x_evenPoint q).trans hxq)
      (odd_evenPoint hq0)
  have hread := basePoint_did hq0
  unfold depositAddress
  rw [hbase, heven] at *
  simp only [lift, Res.ok_bind, TellerKeys.did_pointHex hq0, hread]

/-- The secret of a deposit is the secret of its address's point. -/
theorem depositSecret_of_address {toAddress : Bytes → Bytes → Option Bytes} {d : SecretScalar}
    {ledgerHash : Bytes} {account : Teller.Text} {nonce : ℕ} {hrp : Bytes} {a : DepositAddress}
    (h : addressFrom toAddress (pointHex (pointOf (TellerKeys.normalized d))) ledgerHash account
      nonce hrp = .ok a) :
    ∃ s, depositSecret d a.tweak = .ok s ∧ pointHex (pointOf s) = a.point := by
  unfold addressFrom at h
  obtain ⟨lh, -, h⟩ := Res.bind_eq_ok.mp h
  obtain ⟨ax, -, h⟩ := Res.bind_eq_ok.mp h
  obtain ⟨ax', -, h⟩ := Res.bind_eq_ok.mp h
  obtain ⟨t, -, h⟩ := Res.bind_eq_ok.mp h
  obtain ⟨q, hq, h⟩ := Res.bind_eq_ok.mp h
  obtain ⟨_, -, h⟩ := Res.bind_eq_ok.mp h
  obtain ⟨_, -, h⟩ := Res.bind_eq_ok.mp h
  obtain ⟨_, -, h⟩ := Res.bind_eq_ok.mp h
  obtain ⟨_, -, h⟩ := Res.bind_eq_ok.mp h
  obtain rfl := Res.ok.inj h
  -- the point's tweak and the secret's are one scalar
  obtain ⟨e, he, hq⟩ := Res.bind_eq_ok.mp (lift_ok.mp hq)
  obtain ⟨k, hk, hq⟩ := Res.bind_eq_ok.mp hq
  obtain ⟨r, hr, hq⟩ := Res.bind_eq_ok.mp hq
  obtain ⟨-, hpoint⟩ := TellerKeys.point_ok.mp he
  have hd := pointOf_ne_zero (TellerKeys.normalized d)
  obtain rfl := pointHex_inj hd (TellerKeys.point_ok.mp he).1 hpoint
  have hr := Res.okOr_eq_ok.mp hr
  unfold addExpTweak at hr
  split_ifs at hr with hne
  obtain rfl := Option.some.inj hr
  obtain ⟨s, hs⟩ := SecretScalar.exists_val (fun h0 => hne (pointOf_add_eq_zero.mpr h0))
    (Nat.mod_lt _ ((TellerKeys.normalized d).pos.trans (TellerKeys.normalized d).lt))
  have hadd : (TellerKeys.normalized d).addTweak k = some s :=
    SecretScalar.addTweak_eq_some.mpr ⟨hs, fun h0 => hne (pointOf_add_eq_zero.mpr h0)⟩
  refine ⟨s, ?_, ?_⟩
  · unfold depositSecret
    rw [hk, Res.ok_bind, TellerKeys.tweakedSecret, hadd, Res.okOr_some]
  · rw [pointOf_addTweak hadd]
    exact Res.ok.inj hq

/-- The data a deposit's tweak is committed to. -/
def depositData (ledgerHash accountX : Bytes) (nonce : ℕ) : Option Bytes := do
  let lh ← hexDecode ledgerHash
  let ax ← hexDecode accountX
  some ([lh, ax, nonceBytes nonce].flatten)

omit [Secp] [Sha256] [CaseTables] in
theorem isX_decode {s : Bytes} (h : isX s = true) :
    ∃ b, hexDecode s = some b ∧ b.length = 32 ∧ hexEncode b = s := by
  obtain ⟨hlen, hlow⟩ := Bool.and_eq_true_iff.mp h
  have hlen := beq_iff_eq.mp hlen
  obtain ⟨b, hb⟩ := hexDecode_of_digits (s := s) (by omega) (by
    rw [List.all_eq_true] at hlow ⊢
    exact fun c hc => hexVal_isSome (hlow c hc))
  exact ⟨b, hb, TellerKeys.length_of_hexDecode hlen hb,
    (hexEncode_hexDecode hb).trans (Nostr.toLower_of_lower hlow)⟩

omit [Secp] [Sha256] [CaseTables] in
/-- Two different triples are different data. -/
theorem depositData_inj {lh lh' ax ax' : Bytes} {n n' : ℕ} (hl : isX lh = true)
    (hl' : isX lh' = true) (ha : isX ax = true) (ha' : isX ax' = true) (hn : n < 2 ^ 64)
    (hn' : n' < 2 ^ 64) (h : depositData lh ax n = depositData lh' ax' n') :
    lh = lh' ∧ ax = ax' ∧ n = n' := by
  obtain ⟨b, hb, hb32, rfl⟩ := isX_decode hl
  obtain ⟨b', hb', hb32', rfl⟩ := isX_decode hl'
  obtain ⟨c, hc, hc32, rfl⟩ := isX_decode ha
  obtain ⟨c', hc', hc32', rfl⟩ := isX_decode ha'
  unfold depositData at h
  simp only [hb, hb', hc, hc', Option.bind_eq_bind, Option.bind_some, Option.some.injEq,
    List.flatten_cons, List.flatten_nil, List.append_nil] at h
  obtain ⟨hbb, hrest⟩ := List.append_inj h (hb32.trans hb32'.symm)
  obtain ⟨hcc, hnonce⟩ := List.append_inj hrest (hc32.trans hc32'.symm)
  have hnat := congrArg beNat hnonce
  unfold nonceBytes at hnat
  rw [beNat_reverse_leBytes, beNat_reverse_leBytes, Nat.mod_eq_of_lt (by omega),
    Nat.mod_eq_of_lt (by omega)] at hnat
  exact ⟨hbb ▸ rfl, hcc ▸ rfl, hnat⟩

omit [Sha256] [CaseTables] in
/-- A chain of secrets starts from a secret, which has a point. -/
theorem no_secret {secret : Bytes} {tweaks ss : List Bytes}
    (hno : ∀ p, CoreKeys.publicKey secret ≠ .ok p)
    (h : CoreKeys.chainSecrets secret tweaks = .ok ss) : False := by
  obtain ⟨k, hk, -⟩ := Res.bind_eq_ok.mp h
  exact hno _ (CoreKeys.publicKey_ok.mpr ⟨k, hk, rfl⟩)

/-- **Money sent to a derived key can be spent by its holder.** A deposit
address made from any text of an operator's key is the point of the deposit
secret of the same tweak; all those texts give one address; different ledgers,
accounts or nonces are different data; and the core's chain of points is, one
for one, the points of the chain of secrets. -/
theorem derived_keys_spend (toAddress : Bytes → Bytes → Option Bytes) (d : SecretScalar) :
    (∀ operator ledgerHash account nonce hrp a, Writes (pointOf d) operator →
      depositAddress toAddress operator ledgerHash account nonce hrp = .ok a →
      ∃ s, depositSecret d a.tweak = .ok s ∧ pointHex (pointOf s) = a.point) ∧
    (∀ op op' ledgerHash account nonce hrp, Writes (pointOf d) op → Writes (pointOf d) op' →
      depositAddress toAddress op ledgerHash account nonce hrp =
        depositAddress toAddress op' ledgerHash account nonce hrp) ∧
    (∀ lh lh' ax ax' n n', isX lh = true → isX lh' = true → isX ax = true → isX ax' = true →
      n < 2 ^ 64 → n' < 2 ^ 64 → depositData lh ax n = depositData lh' ax' n' →
      lh = lh' ∧ ax = ax' ∧ n = n') ∧
    ∀ (secret : Bytes) (tweaks : List Bytes),
      ((∃ ps, (CoreKeys.publicKey secret >>= fun p => CoreKeys.chainPoints p tweaks) = .ok ps) ↔
        ∃ ss, CoreKeys.chainSecrets secret tweaks = .ok ss) ∧
      ∀ ps ss, (CoreKeys.publicKey secret >>= fun p => CoreKeys.chainPoints p tweaks) = .ok ps →
        CoreKeys.chainSecrets secret tweaks = .ok ss →
        List.Forall₂ (fun s p => CoreKeys.publicKey s = .ok p) ss ps := by
  refine ⟨?_, ?_, fun _ _ _ _ _ _ => depositData_inj, fun secret tweaks => ?_⟩
  · intro operator ledgerHash account nonce hrp a hw h
    rw [depositAddress_eq hw] at h
    obtain ⟨_, -, h⟩ := Res.bind_eq_ok.mp h
    exact depositSecret_of_address h
  · intro op op' ledgerHash account nonce hrp hw hw'
    rw [depositAddress_eq hw, depositAddress_eq hw']
  · cases hp : CoreKeys.publicKey secret with
    | ok p =>
      rcases CoreKeys.chains hp tweaks with ⟨ss, ps, hs, hps, hall⟩ | ⟨hs, hps⟩
      · rw [Res.ok_bind, hs, hps]
        refine ⟨⟨fun _ => ⟨ss, rfl⟩, fun _ => ⟨ps, rfl⟩⟩, fun ps' ss' h1 h2 => ?_⟩
        rw [← Res.ok.inj h1, ← Res.ok.inj h2]
        exact hall
      · rw [Res.ok_bind]
        exact ⟨⟨fun ⟨ps, h⟩ => absurd h (hps ps), fun ⟨ss, h⟩ => absurd h (hs ss)⟩,
          fun ps ss h1 _ => absurd h1 (hps ps)⟩
    | err e =>
      have hno : ∀ ss, CoreKeys.chainSecrets secret tweaks ≠ .ok ss := fun ss h =>
        no_secret (fun p hc => by rw [hp] at hc; cases hc) h
      exact ⟨⟨fun ⟨_, h⟩ => (by cases h), fun ⟨ss, h⟩ => absurd h (hno ss)⟩,
        fun _ ss _ h => absurd h (hno ss)⟩
    | panic =>
      have hno : ∀ ss, CoreKeys.chainSecrets secret tweaks ≠ .ok ss := fun ss h =>
        no_secret (fun p hc => by rw [hp] at hc; cases hc) h
      exact ⟨⟨fun ⟨_, h⟩ => (by cases h), fun ⟨ss, h⟩ => absurd h (hno ss)⟩,
        fun _ ss _ h => absurd h (hno ss)⟩

end

/-! ### A deposit on the small group -/

attribute [local instance] Wallet.asciiTables Secp.residueSecp Secp.constantSha

def oneSecret : SecretScalar := ⟨1, by decide, by decide⟩

def sampleLedger : Bytes := List.replicate 64 0x61

def sampleAccount : Teller.Text := List.replicate 64 'b'

theorem generator_writes : Writes (pointOf oneSecret) KeysAgree.generatorX :=
  .inr (.inl (by decide))

theorem sampleDeposit_ok : (depositAddress (fun spk _ => some spk) KeysAgree.generatorX sampleLedger
    sampleAccount 0 []).any (fun _ => true) = true := by
  decide +kernel

/-- The generator's deposit for an account. -/
theorem derived_keys_sample : ∃ a, depositAddress (fun spk _ => some spk) KeysAgree.generatorX
    sampleLedger sampleAccount 0 [] = .ok a ∧
    ∃ s, depositSecret oneSecret a.tweak = .ok s ∧ pointHex (pointOf s) = a.point := by
  obtain ⟨a, ha, -⟩ := Res.any_eq_true.mp sampleDeposit_ok
  exact ⟨a, ha, (derived_keys_spend (fun spk _ => some spk) oneSecret).1 _ _ _ _ _ a
    generator_writes ha⟩

end Deposit

end Sidestr
