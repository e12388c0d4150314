/-
# Reserve attestations

What a key signs about a reserve (`lib.rs`): where it is held, how much, the
credits it is made of, at which tip, when and by whose view. The bytes are the
canonical JSON of the statement with its credits sorted, so they say the statement
and nothing else, and the order of the credits has no part in them
(`attestation_unambiguous`).

Key definitions: `attest`, `ReserveAttestation.check`, `ReserveAttestation.toValue`,
`ReserveAttestation.canonicalJson`.
Key theorems: `attest_ok`, `attest_perm`, `canonicalJson_ok`, `attestation_unambiguous`.
-/
import Sidestr.Lib.Word
import Sidestr.Reserve.Canonical

namespace Sidestr

namespace Reserve

inductive ReserveError
  | field (name reason : String)
  | credits (reason : String)
  | canonical (e : CanonError)
  deriving DecidableEq

def attestationType : Bytes :=
  ascii ['s', 'i', 'd', 'e', 's', 't', 'r', '-', 'r', 'e', 's', 'e', 'r', 'v', 'e', '/', 'a', 't', 't',
    'e', 's', 't', 'a', 't', 'i', 'o', 'n', '/', 'v', '1']

def maxDecimals : ℕ := 18

/-- A byte of an identifier. -/
def isIdentByte (b : UInt8) : Bool :=
  (0x61 ≤ b.toNat && b.toNat ≤ 0x7a) || isDigit b || b == 0x3a || b == 0x2e || b == 0x5f || b == 0x2d

def checkIdent (name : String) (s : Bytes) : Res ReserveError Unit := do
  Res.refuseIf (s.isEmpty || decide (128 < s.length)) (.field name "must be 1 to 128 bytes")
  Res.refuseIf (!s.all isIdentByte) (.field name "not lower-case [a-z0-9:._-]")

def checkSource (source : Bytes) : Res ReserveError Unit :=
  Res.refuseIf (source.isEmpty || decide (256 < source.length) ||
      !(source.all fun b => decide (0x21 ≤ b.toNat ∧ b.toNat ≤ 0x7e)) || !escapeFree source)
    (.field "source" "must be 1 to 256 printable ASCII bytes, no spaces, quotes or backslashes")

def checkTime (time : ℕ) : Res ReserveError Unit :=
  Res.refuseIf (decide (maxSafeInteger < time)) (.field "time" "above 2^53 - 1")

/-- Where the reserve is held. -/
structure Origin where
  network : Bytes
  asset : Bytes
  decimals : UInt8
  deriving DecidableEq

def Origin.new (network asset : Bytes) (decimals : UInt8) : Res ReserveError Origin := do
  checkIdent "network" network
  checkIdent "asset" asset
  Res.refuseIf (decide (maxDecimals < decimals.toNat)) (.field "decimals" "above 18")
  .ok ⟨network, asset, decimals⟩

/-- The origin tip a reading is final at. -/
structure ReserveTip where
  height : UInt64
  hash : Bytes
  deriving DecidableEq

def ReserveTip.new (height : UInt64) (hash : Bytes) : Res ReserveError ReserveTip := do
  Res.refuseIf (decide (maxSafeInteger < height.toNat)) (.field "tip_height" "above 2^53 - 1")
  Res.refuseIf (hash.length != 64 || !hash.all isLowerHexDigit)
    (.field "tip_hash" "must be 64 lower-case hex characters, no 0x")
  .ok ⟨height, hash⟩

structure Credit where
  id : Bytes
  amount : ℕ
  deriving DecidableEq

def Credit.new (id : Bytes) (amount : ℕ) : Res ReserveError Credit := do
  checkIdent "credit id" id
  .ok ⟨id, amount⟩

structure ReserveAttestation where
  origin : Origin
  amount : ℕ
  credits : List Bytes
  tip : ReserveTip
  time : ℕ
  source : Bytes
  deriving DecidableEq

/-- Texts in the order of their bytes. -/
def textLe (a b : Bytes) : Prop := keyLe (byteUnits a) (byteUnits b) = true

instance (a b : Bytes) : Decidable (textLe a b) := inferInstanceAs (Decidable (_ = _))

/-- The ids as a sorted set and the amounts' sum, credit by credit. -/
def gather : List Credit → List Bytes → ℕ → Res ReserveError (List Bytes × ℕ)
  | [], ids, amount => .ok (ids, amount)
  | c :: credits, ids, amount => do
    Res.refuseIf (ids.contains c.id) (.credits "listed twice")
    let amount ← Res.okOr (.credits "total overflows u128") (Word.checkedAdd 128 amount c.amount)
    gather credits (ids.orderedInsert textLe c.id) amount

def attest (origin : Origin) (tip : ReserveTip) (credits : List Credit) (source : Bytes) (time : ℕ) :
    Res ReserveError ReserveAttestation := do
  checkSource source
  checkTime time
  let (ids, amount) ← gather credits [] 0
  .ok ⟨origin, amount, ids, tip, time, source⟩

/-- Every id an identifier, none twice. -/
def checkIds (seen : List Bytes) : List Bytes → Res ReserveError Unit
  | [] => .ok ()
  | id :: ids => do
    checkIdent "credit id" id
    Res.refuseIf (seen.contains id) (.credits "listed twice")
    checkIds (id :: seen) ids

namespace ReserveAttestation

variable {F : Type}

def check (a : ReserveAttestation) : Res ReserveError Unit := do
  checkSource a.source
  checkTime a.time
  checkIds [] a.credits

/-- The statement's fields. -/
def fields (a : ReserveAttestation) : List (Bytes × Json F) :=
  [(ascii ['a', 'm', 'o', 'u', 'n', 't'], .str (decimalText a.amount)),
    (ascii ['a', 's', 's', 'e', 't'], .str a.origin.asset),
    (ascii ['c', 'r', 'e', 'd', 'i', 't', 's'],
      .arr ((a.credits.insertionSort textLe).map .str)),
    (ascii ['d', 'e', 'c', 'i', 'm', 'a', 'l', 's'], .posInt a.origin.decimals.toUInt64),
    (ascii ['n', 'e', 't', 'w', 'o', 'r', 'k'], .str a.origin.network),
    (ascii ['s', 'o', 'u', 'r', 'c', 'e'], .str a.source),
    (ascii ['t', 'i', 'm', 'e'], .str (decimalText a.time)),
    (ascii ['t', 'i', 'p', '_', 'h', 'a', 's', 'h'], .str a.tip.hash),
    (ascii ['t', 'i', 'p', '_', 'h', 'e', 'i', 'g', 'h', 't'], .posInt a.tip.height),
    (ascii ['t', 'y', 'p', 'e'], .str attestationType)]

def toValue (F : Type) (a : ReserveAttestation) : Res ReserveError (Json F) := do
  a.check
  .ok (.obj a.fields)

/-- What is signed, before it is hashed. -/
def canonicalJson (F : Type) (a : ReserveAttestation) : Res ReserveError Bytes := do
  let v ← a.toValue F
  match canonicalize v with
  | .ok s => .ok s
  | .err e => .err (.canonical e)
  | .panic => .panic

end ReserveAttestation

/-! ### The credits -/

theorem textLe_total (a b : Bytes) : textLe a b ∨ textLe b a := keyLe_total _ _

theorem textLe_trans {a b c : Bytes} (h : textLe a b) (h' : textLe b c) : textLe a c :=
  keyLe_trans h h'

theorem textLe_antisymm {a b : Bytes} (h : textLe a b) (h' : textLe b a) : a = b :=
  byteUnits_injective (keyLe_antisymm h h')

instance : Std.Total textLe := ⟨textLe_total⟩

instance : IsTrans Bytes textLe := ⟨fun _ _ _ => textLe_trans⟩

instance : Std.Antisymm textLe := ⟨fun _ _ => textLe_antisymm⟩

/-- Sorted lists with the same elements are one. -/
theorem eq_of_sorted {l l' : List Bytes} (hperm : l.Perm l') (h : l.Pairwise textLe)
    (h' : l'.Pairwise textLe) : l = l' := hperm.eq_of_pairwise' h h'

theorem gather_ok : ∀ {credits : List Credit} {ids : List Bytes} {amount : ℕ}
    {r : List Bytes × ℕ}, ids.Pairwise textLe → gather credits ids amount = .ok r →
    r.1.Pairwise textLe ∧ r.1.Perm (credits.map Credit.id ++ ids) ∧
      r.2 = amount + (credits.map Credit.amount).sum
  | [], ids, amount, r, hsorted, h => by
    rw [gather, Res.ok.injEq] at h
    rw [← h]
    exact ⟨hsorted, List.Perm.refl _, rfl⟩
  | c :: credits, ids, amount, r, hsorted, h => by
    rw [gather] at h
    obtain ⟨_, hnew, h⟩ := Res.bind_eq_ok.mp h
    obtain ⟨sum, hsum, h⟩ := Res.bind_eq_ok.mp h
    obtain ⟨hpair, hperm, hamount⟩ := gather_ok (hsorted.orderedInsert c.id ids) h
    rw [Res.okOr_eq_ok] at hsum
    unfold Word.checkedAdd at hsum
    split_ifs at hsum
    rw [Option.some.injEq] at hsum
    refine ⟨hpair, ?_, ?_⟩
    · refine hperm.trans ?_
      rw [List.map_cons, List.cons_append]
      exact ((List.perm_orderedInsert textLe c.id ids).append_left _).trans List.perm_middle
    · rw [hamount, ← hsum, List.map_cons, List.sum_cons, Nat.add_assoc]

/-- When the credits are gathered: no id twice, and a total of 128 bits. -/
theorem gather_iff : ∀ {credits : List Credit} {ids : List Bytes} {amount : ℕ},
    amount ≤ Word.maxVal 128 →
    ((∃ r, gather credits ids amount = .ok r) ↔
      (credits.map Credit.id).Nodup ∧ (∀ c ∈ credits, c.id ∉ ids) ∧
        amount + (credits.map Credit.amount).sum ≤ Word.maxVal 128)
  | [], ids, amount, hfit => by
    refine ⟨fun _ => ⟨List.nodup_nil, fun _ hc => absurd hc List.not_mem_nil, hfit⟩, fun _ => ?_⟩
    exact ⟨_, by rw [gather]⟩
  | c :: credits, ids, amount, hfit => by
    have hins : ∀ d ∈ credits, d.id ∉ ids.orderedInsert textLe c.id ↔ d.id ≠ c.id ∧ d.id ∉ ids := by
      intro d _
      rw [List.mem_orderedInsert, not_or]
    rw [List.map_cons, List.map_cons, List.nodup_cons, List.sum_cons, ← Nat.add_assoc]
    constructor
    · rintro ⟨r, h⟩
      rw [gather] at h
      obtain ⟨_, hnew, h⟩ := Res.bind_eq_ok.mp h
      obtain ⟨sum, hsum, h⟩ := Res.bind_eq_ok.mp h
      rw [Res.refuseIf_eq_ok, List.contains_eq_mem, decide_eq_false_iff_not] at hnew
      rw [Res.okOr_eq_ok] at hsum
      unfold Word.checkedAdd at hsum
      split_ifs at hsum with hle
      rw [Option.some.injEq] at hsum
      obtain ⟨hnodup, hfresh, htotal⟩ := (gather_iff (hsum ▸ hle)).mp ⟨r, h⟩
      refine ⟨⟨?_, hnodup⟩, ?_, hsum ▸ htotal⟩
      · rintro hmem
        obtain ⟨d, hd, heq⟩ := List.mem_map.mp hmem
        exact ((hins d hd).mp (hfresh d hd)).1 heq
      · intro d hd
        rcases List.mem_cons.mp hd with rfl | hd
        · exact hnew
        · exact ((hins d hd).mp (hfresh d hd)).2
    · rintro ⟨⟨hnot, hnodup⟩, hfresh, htotal⟩
      have hle : amount + c.amount ≤ Word.maxVal 128 := by omega
      obtain ⟨r, hr⟩ := (@gather_iff credits (ids.orderedInsert textLe c.id) _ hle).mpr
        ⟨hnodup, fun d hd => (hins d hd).mpr ⟨fun heq => hnot (List.mem_map.mpr ⟨d, hd, heq⟩),
          hfresh d (List.mem_cons_of_mem _ hd)⟩, htotal⟩
      refine ⟨r, ?_⟩
      have hnew : ids.contains c.id = false := by
        rw [List.contains_eq_mem, decide_eq_false_iff_not]
        exact hfresh c List.mem_cons_self
      rw [gather, hnew, Res.refuseIf_false, Res.ok_bind]
      unfold Word.checkedAdd
      rw [if_pos hle, Res.okOr_some, Res.ok_bind, hr]

/-- The order of the credits has no part in what is gathered. -/
theorem gather_perm {credits credits' : List Credit} (h : credits.Perm credits')
    {r : List Bytes × ℕ} (hr : gather credits [] 0 = .ok r) : gather credits' [] 0 = .ok r := by
  have hzero : 0 ≤ Word.maxVal 128 := Nat.zero_le _
  obtain ⟨hnodup, -, htotal⟩ := (gather_iff hzero).mp ⟨r, hr⟩
  have hids := h.map Credit.id
  have hamounts := (h.map Credit.amount).sum_eq
  obtain ⟨r', hr'⟩ := (@gather_iff credits' [] _ hzero).mpr
    ⟨hids.nodup_iff.mp hnodup, fun _ _ => List.not_mem_nil, by rw [← hamounts]; exact htotal⟩
  obtain ⟨hsorted, hperm, hsum⟩ := gather_ok List.Pairwise.nil hr
  obtain ⟨hsorted', hperm', hsum'⟩ := gather_ok List.Pairwise.nil hr'
  rw [List.append_nil] at hperm hperm'
  have hsame : r = r' := by
    refine Prod.ext ?_ ?_
    · exact eq_of_sorted ((hperm.trans hids).trans hperm'.symm) hsorted hsorted'
    · rw [hsum, hsum', hamounts]
  rw [hsame]
  exact hr'

theorem attest_perm {origin : Origin} {tip : ReserveTip} {credits credits' : List Credit}
    {source : Bytes} {time : ℕ} (h : credits.Perm credits') {a : ReserveAttestation}
    (ha : attest origin tip credits source time = .ok a) :
    attest origin tip credits' source time = .ok a := by
  unfold attest at ha ⊢
  obtain ⟨u, hsource, ha⟩ := Res.bind_eq_ok.mp ha
  obtain ⟨u', htime, ha⟩ := Res.bind_eq_ok.mp ha
  obtain ⟨r, hr, ha⟩ := Res.bind_eq_ok.mp ha
  rw [hsource, Res.ok_bind, htime, Res.ok_bind, gather_perm h hr, Res.ok_bind]
  exact ha

/-! ### The bytes -/

theorem checkIds_nodup : ∀ {seen ids : List Bytes}, checkIds seen ids = .ok () →
    ids.Nodup ∧ ∀ id ∈ ids, id ∉ seen
  | _, [], _ => ⟨List.nodup_nil, fun _ h => absurd h List.not_mem_nil⟩
  | seen, id :: ids, h => by
    rw [checkIds] at h
    obtain ⟨_, hident, h⟩ := Res.bind_eq_ok.mp h
    obtain ⟨_, hnew, h⟩ := Res.bind_eq_ok.mp h
    rw [Res.refuseIf_eq_ok, List.contains_eq_mem, decide_eq_false_iff_not] at hnew
    obtain ⟨hnodup, hfresh⟩ := checkIds_nodup h
    refine ⟨List.nodup_cons.mpr ⟨fun hmem => hfresh id hmem List.mem_cons_self, hnodup⟩, ?_⟩
    intro x hx
    rcases List.mem_cons.mp hx with rfl | hx
    · exact hnew
    · exact fun hmem => hfresh x hx (List.mem_cons_of_mem _ hmem)

section

variable {F : Type}

/-- What has bytes has been checked, and they are those of its fields. -/
theorem canonicalJson_ok {a : ReserveAttestation} {s : Bytes} (h : a.canonicalJson F = .ok s) :
    a.credits.Nodup ∧ canonicalize (.obj a.fields : Json F) = .ok s := by
  unfold ReserveAttestation.canonicalJson ReserveAttestation.toValue at h
  obtain ⟨v, hv, h⟩ := Res.bind_eq_ok.mp h
  obtain ⟨u, hcheck, hv⟩ := Res.bind_eq_ok.mp hv
  rw [Res.ok.injEq] at hv
  rw [hv]
  unfold ReserveAttestation.check at hcheck
  obtain ⟨_, hsource, hcheck⟩ := Res.bind_eq_ok.mp hcheck
  obtain ⟨_, htime, hcheck⟩ := Res.bind_eq_ok.mp hcheck
  refine ⟨(checkIds_nodup hcheck).1, ?_⟩
  split at h
  · rename_i s' hs
    rw [Res.ok.injEq] at h
    rw [hs, h]
  · cases h
  · cases h

theorem sortItems_str (l : List Bytes) :
    Json.sortItems (l.map .str : List (Json F)) = l.map .str := by
  rw [Json.sortItems_eq, List.map_map]
  apply List.map_congr_left
  intro s _
  change Json.sortKeys (.str s) = .str s
  rw [Json.sortKeys]

/-- The statement's fields are in order as they are. -/
theorem sortKeys_fields (a : ReserveAttestation) :
    (Json.obj a.fields : Json F).sortKeys = .obj a.fields := by
  have hsorted : sortFields byteUnits (a.fields : List (Bytes × Json F)) = a.fields := rfl
  rw [Json.sortKeys_obj, hsorted]
  unfold ReserveAttestation.fields
  simp only [List.map_cons, List.map_nil, Json.sortKeys, sortItems_str]

theorem decimalText_injective {n m : ℕ} (h : decimalText n = decimalText m) : n = m := by
  rw [← decimal_decimalText n, h, decimal_decimalText]

/-- The fields say the statement, its credits as a sorted list. -/
theorem fields_injective {a b : ReserveAttestation}
    (h : (Json.obj a.fields : Json F) = .obj b.fields) :
    a.origin = b.origin ∧ a.amount = b.amount ∧ a.tip = b.tip ∧ a.time = b.time ∧
      a.source = b.source ∧ a.credits.insertionSort textLe = b.credits.insertionSort textLe := by
  unfold ReserveAttestation.fields at h
  simp only [Json.obj.injEq, List.cons.injEq, Prod.mk.injEq, true_and, and_true, Json.str.injEq,
    Json.arr.injEq, Json.posInt.injEq] at h
  obtain ⟨hamount, hasset, hcredits, hdecimals, hnetwork, hsource, htime, hhash, hheight⟩ := h
  have hids := List.map_injective_iff.mpr (fun x y hxy => Json.str.inj hxy) hcredits
  have hdec : a.origin.decimals = b.origin.decimals := by
    rw [← UInt8.toNat_inj, ← UInt8.toNat_toUInt64, hdecimals, UInt8.toNat_toUInt64]
  obtain ⟨⟨network, asset, decimals⟩, amount, credits, ⟨height, hash⟩, time, source⟩ := a
  obtain ⟨⟨network', asset', decimals'⟩, amount', credits', ⟨height', hash'⟩, time', source'⟩ := b
  dsimp only at *
  rw [hasset, hnetwork, hdec, hheight, hhash]
  exact ⟨rfl, decimalText_injective hamount, rfl, decimalText_injective htime, hsource, hids⟩

/-- **The bytes say the statement.** Two attestations that have bytes have the same
exactly when they say the same, of one set of credits; an attestation is made of its
credits in any order; a canonical text reads back as its value, up to the order of
keys, which is one value alone; and the teller's text is the same. -/
theorem attestation_unambiguous [FloatText F] :
    (∀ (a b : ReserveAttestation) (s s' : Bytes), a.canonicalJson F = .ok s →
      b.canonicalJson F = .ok s' → (s = s' ↔ a.origin = b.origin ∧ a.amount = b.amount ∧
        a.tip = b.tip ∧ a.time = b.time ∧ a.source = b.source ∧
        ∀ id, id ∈ a.credits ↔ id ∈ b.credits)) ∧
    (∀ origin tip (credits credits' : List Credit) source time, credits.Perm credits' →
      ∀ a, attest origin tip credits source time = .ok a ↔
        attest origin tip credits' source time = .ok a) ∧
    (∀ (v : Json F) (s : Bytes), canonicalize v = .ok s →
      parseJson s = some v.sortKeys ∧ jcs v = s) ∧
    (∀ (v w : Json F) (s : Bytes), canonicalize v = .ok s → canonicalize w = .ok s →
      v.sortKeys = w.sortKeys) := by
  refine ⟨fun a b s s' ha hb => ?_, ?_, fun v s => parseJson_canonicalize,
    fun v w s => canonicalize_injective⟩
  · obtain ⟨hnodup, hbytes⟩ := canonicalJson_ok ha
    obtain ⟨hnodup', hbytes'⟩ := canonicalJson_ok hb
    constructor
    · rintro rfl
      have hsame := canonicalize_injective hbytes hbytes'
      rw [sortKeys_fields, sortKeys_fields] at hsame
      obtain ⟨horigin, hamount, htip, htime, hsource, hids⟩ := fields_injective hsame
      refine ⟨horigin, hamount, htip, htime, hsource, fun id => ?_⟩
      rw [← (List.perm_insertionSort textLe a.credits).mem_iff, hids,
        (List.perm_insertionSort textLe b.credits).mem_iff]
    · rintro ⟨horigin, hamount, htip, htime, hsource, hids⟩
      have hperm : a.credits.Perm b.credits :=
        (List.perm_ext_iff_of_nodup hnodup hnodup').mpr hids
      have hsorted : a.credits.insertionSort textLe = b.credits.insertionSort textLe :=
        eq_of_sorted (((List.perm_insertionSort textLe _).trans hperm).trans
            (List.perm_insertionSort textLe _).symm)
          (List.pairwise_insertionSort textLe _) (List.pairwise_insertionSort textLe _)
      have hfields : (a.fields : List (Bytes × Json F)) = b.fields := by
        unfold ReserveAttestation.fields
        rw [horigin, hamount, htip, htime, hsource, hsorted]
      rw [hfields, hbytes'] at hbytes
      exact (Res.ok.inj hbytes).symm
  · intro origin tip credits credits' source time h a
    exact ⟨fun ha => attest_perm h ha, fun ha => attest_perm h.symm ha⟩

end

end Reserve

end Sidestr
