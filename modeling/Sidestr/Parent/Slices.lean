/-
# The texts of the tick and of the check

The tick writes a line for each peg-in it newly finds, and the check names the
script of a claim its marker does not (`peg_tick` and `ParentClaims::check` of
`node.rs`). Both cut the script's hex at twelve digits, and a marker or a claim
may name a script of fewer than six bytes: the cut panics. The scan's position
is written after the loop, so a tick that panicked is made again from where it
began, and panics again.

Key definitions: `slice`, `PeginState.scanLogged`, `pegTickLogged`,
`ParentState.checkLogged`.
Key theorems: `pegTick_of_logged`, `pegTickLogged_eq_panic`, `check_of_logged`,
`signer_panics_iff`.
-/
import Sidestr.Parent.Check

namespace Sidestr

namespace Parent

/-- The first `n` bytes of a text; a text that has fewer panics. -/
def slice (text : Bytes) (n : ℕ) : Res Unit Bytes :=
  if n ≤ text.length then .ok (text.take n) else .panic

/-- What the tick writes of a peg-in. -/
structure PegLine where
  txid : Bytes
  vout : UInt32
  amount : UInt64
  script : Bytes
  height : ℕ

def pegLine (p : FoundPegin) : Res Unit PegLine := do
  let txid ← slice (hashText p.txid) 16
  let script ← slice (hexEncode p.script) 12
  .ok ⟨txid, p.vout, p.amount, script, p.height⟩

/-- A new peg-in: its line, then the record. -/
def recordNew (r : List FoundPegin × List PegLine) (p : FoundPegin) :
    Res Unit (List FoundPegin × List PegLine) := do
  let line ← pegLine p
  .ok (r.1 ++ [p], r.2 ++ [line])

theorem pegLine_eq_panic (p : FoundPegin) : pegLine p = .panic ↔ p.script.length < 6 := by
  unfold pegLine slice
  rw [length_hashText, if_pos (by omega), Res.ok_bind, length_hexEncode]
  by_cases h : p.script.length < 6
  · rw [if_neg (by omega)]
    exact ⟨fun _ => h, fun _ => rfl⟩
  · rw [if_pos (by omega)]
    exact ⟨fun hp => (by cases hp), fun hc => absurd hc h⟩

theorem recordNew_eq_panic (r : List FoundPegin × List PegLine) (p : FoundPegin) :
    recordNew r p = .panic ↔ p.script.length < 6 := by
  unfold recordNew
  rw [Res.bind_eq_panic, pegLine_eq_panic]
  constructor
  · rintro (h | ⟨line, -, h⟩)
    · exact h
    · cases h
  · exact .inl

/-- The loop panics when one of the peg-ins names a short script. -/
theorem records_eq_panic : ∀ {new : List FoundPegin} {r : List FoundPegin × List PegLine},
    Res.foldlM recordNew r new = .panic ↔ ∃ p ∈ new, p.script.length < 6
  | [], r => by simp
  | p :: new, r => by
    rw [Res.foldlM_cons, Res.bind_eq_panic, recordNew_eq_panic]
    constructor
    · rintro (h | ⟨r', -, h⟩)
      · exact ⟨p, List.mem_cons_self, h⟩
      · obtain ⟨q, hq, hs⟩ := records_eq_panic.mp h
        exact ⟨q, List.mem_cons_of_mem _ hq, hs⟩
    · rintro ⟨q, hq, hs⟩
      rcases List.mem_cons.mp hq with rfl | hq
      · exact .inl hs
      · by_cases hp : p.script.length < 6
        · exact .inl hp
        · right
          cases hr : recordNew r p with
          | ok r' => exact ⟨r', rfl, records_eq_panic.mpr ⟨q, hq, hs⟩⟩
          | err e =>
            unfold recordNew pegLine slice at hr
            rw [length_hashText, length_hexEncode, if_pos (by omega), if_pos (by omega)] at hr
            cases hr
          | panic => exact absurd ((recordNew_eq_panic r p).mp hr) hp

/-- A loop that returns has recorded every peg-in. -/
theorem records_ok : ∀ {new : List FoundPegin} {r r' : List FoundPegin × List PegLine},
    Res.foldlM recordNew r new = .ok r' → r'.1 = r.1 ++ new
  | [], r, r', h => by
    rw [Res.foldlM_nil, Res.ok.injEq] at h
    rw [← h, List.append_nil]
  | p :: new, r, r', h => by
    obtain ⟨r₁, h1, h2⟩ := Res.bind_eq_ok.mp h
    obtain ⟨line, -, h1⟩ := Res.bind_eq_ok.mp h1
    rw [Res.ok.injEq] at h1
    rw [records_ok h2, ← h1, List.append_assoc]
    rfl

theorem records_ne_err : ∀ {new : List FoundPegin} {r : List FoundPegin × List PegLine} {e : Unit},
    Res.foldlM recordNew r new ≠ .err e
  | [], r, e => by simp
  | p :: new, r, e => by
    intro h
    rw [Res.foldlM_cons] at h
    cases hr : recordNew r p with
    | ok r' =>
      rw [hr] at h
      exact records_ne_err h
    | err e' =>
      unfold recordNew pegLine slice at hr
      split_ifs at hr <;> cases hr
    | panic =>
      rw [hr] at h
      cases h

section

variable [Bitcoin]

/-! ### The tick -/

/-- The state after scanning above it, and the lines; the position is written last. -/
def PeginState.scanLogged (s : PeginState) (cfg : PegConfig) (view : ParentView)
    (claimedTx : Txid → Bool) : Res Unit (PeginState × List PegLine) :=
  let tip := view.chain.tip
  if s.scanned < tip then
    let first := (s.scanned + 1).toNat
    match scanPegins cfg view.wallet view.blockAt (tip + 1 - first) first with
    | none => .ok (s, [])
    | some found => do
      let (pegins, lines) ← Res.foldlM recordNew (s.pegins, [])
        (newPegins claimedTx (s.pegins.map FoundPegin.txid) found)
      .ok (⟨tip, pegins⟩, lines)
  else .ok (s, [])

/-- One tick, with what it writes. -/
def pegTickLogged (cfg : PegConfig) (view : ParentView) (claimedTx : Txid → Bool)
    (s : PeginState) : Res Unit (PeginState × Option (List ClaimRequest) × List PegLine) :=
  if !view.reachable then .ok (s, none, [])
  else do
    let (s', lines) ← s.scanLogged cfg view claimedTx
    .ok (s', some (claimableByTransaction view.chain.tip cfg.pegConfirmations claimedTx [] s'.pegins),
      lines)

theorem scan_of_logged {cfg : PegConfig} {view : ParentView} {claimedTx : Txid → Bool}
    {s s' : PeginState} {lines : List PegLine}
    (h : s.scanLogged cfg view claimedTx = .ok (s', lines)) :
    (s.scan cfg view claimedTx).getD s = s' := by
  unfold PeginState.scanLogged at h
  unfold PeginState.scan
  dsimp only at h ⊢
  split_ifs at h ⊢ with hlt
  · cases hfound : scanPegins cfg view.wallet view.blockAt
        (view.chain.tip + 1 - (s.scanned + 1).toNat) (s.scanned + 1).toNat with
    | none =>
      rw [hfound, Res.ok.injEq, Prod.mk.injEq] at h
      rw [Option.map_none, Option.getD_none, h.1]
    | some found =>
      rw [hfound] at h
      obtain ⟨⟨pegins, lines'⟩, hrec, h⟩ := Res.bind_eq_ok.mp h
      rw [Res.ok.injEq, Prod.mk.injEq] at h
      have hall := records_ok hrec
      dsimp only at hall
      rw [Option.map_some, Option.getD_some, ← h.1, ← hall]
  · rw [Res.ok.injEq, Prod.mk.injEq] at h
    rw [Option.getD_some, h.1]

/-- A tick that returns is the tick without its lines. -/
theorem pegTick_of_logged {cfg : PegConfig} {view : ParentView} {claimedTx : Txid → Bool}
    {s s' : PeginState} {claims : Option (List ClaimRequest)} {lines : List PegLine}
    (h : pegTickLogged cfg view claimedTx s = .ok (s', claims, lines)) :
    pegTick cfg view claimedTx s = (s', claims) := by
  unfold pegTickLogged at h
  unfold pegTick
  split_ifs at h ⊢ with hr
  · cases h
    rfl
  · obtain ⟨⟨s₁, lines₁⟩, hscan, h⟩ := Res.bind_eq_ok.mp h
    dsimp only
    rw [scan_of_logged hscan]
    cases h
    rfl

/-- The scan reads every height above the position, and one of its peg-ins, of a
transaction neither recorded nor claimed, names a script of fewer than six bytes. -/
def ShortPegin (cfg : PegConfig) (view : ParentView) (claimedTx : Txid → Bool) (s : PeginState) :
    Prop :=
  view.reachable = true ∧ s.scanned < view.chain.tip ∧
    (∀ h : ℕ, s.scanned < h → h ≤ view.chain.tip → view.readable h = true) ∧
    ∃ h : ℕ, s.scanned < h ∧ h ≤ view.chain.tip ∧ ∃ p ∈ view.judged cfg h,
      p.txid ∉ s.pegins.map FoundPegin.txid ∧ claimedTx p.txid = false ∧ p.script.length < 6

/-- A scan of blocks that all read succeeds, and no other does. -/
theorem scanPegins_isSome {cfg : PegConfig} {view : ParentView} : ∀ {n height : ℕ},
    height + n ≤ view.chain.tip + 1 →
    ((scanPegins cfg view.wallet view.blockAt n height).isSome = true ↔
      ∀ h, height ≤ h → h < height + n → view.readable h = true)
  | 0, height, _ => by
    refine ⟨fun _ h h1 h2 => absurd h1 (by omega), fun _ => rfl⟩
  | n + 1, height, hle => by
    have ih := @scanPegins_isSome cfg view n (height + 1) (by omega)
    have hlt : height < view.chain.blocks.length := by
      have hpos := List.length_pos_of_ne_nil view.chain.nonempty
      unfold BestChain.tip at hle
      omega
    unfold scanPegins ParentView.blockAt
    by_cases hread : view.readable height = true
    · rw [if_pos hread, List.getElem?_eq_getElem hlt]
      have hbind : ∀ o : Option (List FoundPegin), (o.bind fun rest =>
          some (scanBlock cfg view.wallet height view.chain.blocks[height] ++ rest)).isSome =
            o.isSome := by
        intro o
        cases o <;> rfl
      refine (Bool.eq_iff_iff.mp (hbind _)).trans (ih.trans ⟨?_, ?_⟩)
      · intro h k h1 h2
        rcases Nat.eq_or_lt_of_le h1 with rfl | h1
        · exact hread
        · exact h k h1 (by omega)
      · intro h k h1 h2
        exact h k (by omega) (by omega)
    · rw [if_neg hread]
      refine ⟨fun hc => (by cases hc), fun h => absurd (h height (Nat.le_refl _) (by omega)) hread⟩

/-- The peg-ins newly found of a scan that reads every block of one best chain. -/
theorem mem_newPegins_judged {cfg : PegConfig} {view : ParentView} {claimedTx : Txid → Bool}
    {seen : List Txid} {n height : ℕ} {p : FoundPegin} :
    p ∈ newPegins claimedTx seen ((List.range' height n).flatMap (view.judged cfg)) ↔
      (∃ h, height ≤ h ∧ h < height + n ∧ p ∈ view.judged cfg h) ∧ p.txid ∉ seen ∧
        claimedTx p.txid = false := by
  have hmem : ∀ {q : FoundPegin}, q ∈ (List.range' height n).flatMap (view.judged cfg) ↔
      ∃ h, height ≤ h ∧ h < height + n ∧ q ∈ view.judged cfg h := by
    intro q
    rw [List.mem_flatMap]
    constructor
    · rintro ⟨h, hh, hq⟩
      rw [List.mem_range'_1] at hh
      exact ⟨h, hh.1, hh.2, hq⟩
    · rintro ⟨h, h1, h2, hq⟩
      exact ⟨h, List.mem_range'_1.mpr ⟨h1, h2⟩, hq⟩
  have hfresh : ∀ {found : List FoundPegin} {seen : List Txid} {q : FoundPegin},
      q ∈ newPegins claimedTx seen found → q.txid ∉ seen ∧ claimedTx q.txid = false := by
    intro found
    induction found with
    | nil => intro seen q hq; cases hq
    | cons a found ih =>
      intro seen q hq
      unfold newPegins at hq
      split_ifs at hq with hskip
      · exact ih hq
      · rw [Bool.or_eq_true, not_or, List.contains_iff_mem, Bool.not_eq_true] at hskip
        rcases List.mem_cons.mp hq with rfl | hq
        · exact hskip
        · exact ⟨fun hs => (ih hq).1 (List.mem_cons_of_mem _ hs), (ih hq).2⟩
  constructor
  · intro hp
    exact ⟨hmem.mp (mem_of_mem_newPegins hp), hfresh hp⟩
  · rintro ⟨hp, hseen, hclaimed⟩
    rcases newPegins_covers claimedTx seen (hmem.mpr hp) with hc | hs | ⟨q, hq, he⟩
    · rw [hclaimed] at hc
      cases hc
    · exact absurd hs hseen
    · -- one best chain has one peg-in a transaction
      obtain ⟨h, -, -, hpj⟩ := hp
      obtain ⟨h', -, -, hqj⟩ := hmem.mp (mem_of_mem_newPegins hq)
      rw [← view.judged_unique hqj hpj he]
      exact hq

/-- **When a tick panics.** -/
theorem pegTickLogged_eq_panic {cfg : PegConfig} {view : ParentView} {claimedTx : Txid → Bool}
    {s : PeginState} :
    pegTickLogged cfg view claimedTx s = .panic ↔ ShortPegin cfg view claimedTx s := by
  have hscan : pegTickLogged cfg view claimedTx s = .panic ↔
      view.reachable = true ∧ s.scanLogged cfg view claimedTx = .panic := by
    unfold pegTickLogged
    by_cases hr : view.reachable = true
    · rw [hr, if_neg (by decide), Res.bind_eq_panic]
      constructor
      · rintro (h | ⟨x, -, h⟩)
        · exact ⟨rfl, h⟩
        · cases h
      · exact fun h => .inl h.2
    · rw [if_pos (by simpa using hr)]
      exact ⟨fun h => (by cases h), fun h => absurd h.1 hr⟩
  rw [hscan]
  unfold ShortPegin
  refine and_congr_right fun _ => ?_
  unfold PeginState.scanLogged
  dsimp only
  by_cases hlt : s.scanned < view.chain.tip
  · rw [if_pos hlt]
    have hle : (s.scanned + 1).toNat + (view.chain.tip + 1 - (s.scanned + 1).toNat) ≤
        view.chain.tip + 1 := by omega
    have hsome := @scanPegins_isSome _ cfg view _ _ hle
    cases hfound : scanPegins cfg view.wallet view.blockAt
        (view.chain.tip + 1 - (s.scanned + 1).toNat) (s.scanned + 1).toNat with
    | none =>
      refine ⟨fun h => (by cases h), ?_⟩
      rintro ⟨-, hread, -⟩
      rw [hfound] at hsome
      cases hsome.mpr fun h h1 h2 => hread h (by omega) (by omega)
    | some found =>
      rw [hfound] at hsome
      have hread := hsome.mp rfl
      dsimp only
      rw [Res.bind_eq_panic, scanPegins_eq hfound]
      constructor
      · rintro (h | ⟨x, -, h⟩)
        · obtain ⟨p, hp, hshort⟩ := records_eq_panic.mp h
          obtain ⟨⟨h, h1, h2, hpj⟩, hseen, hclaimed⟩ := mem_newPegins_judged.mp hp
          exact ⟨hlt, fun h h1 h2 => hread h (by omega) (by omega),
            h, by omega, by omega, p, hpj, hseen, hclaimed, hshort⟩
        · cases h
      · rintro ⟨-, -, h, h1, h2, p, hpj, hseen, hclaimed, hshort⟩
        exact .inl (records_eq_panic.mpr ⟨p, mem_newPegins_judged.mpr
          ⟨⟨h, by omega, by omega, hpj⟩, hseen, hclaimed⟩, hshort⟩)
  · rw [if_neg hlt]
    exact ⟨fun h => (by cases h), fun h => absurd h.1 hlt⟩

/-! ### The check -/

/-- The refusal of a claim whose marker names another script, both shown. -/
def markerRefusal (c : Claim) (named : Option Bytes) : Res Unit ClaimRefusal := do
  let _ ← slice (hexEncode c.payout.scriptPubkey) 12
  .ok (.marker c.txid named c.payout.scriptPubkey)

namespace ParentState

variable (ps : ParentState)

/-- Each claim by the parent, with the texts of its refusal. -/
def checkClaimsLogged (cfg : PegConfig) (challenge : Bytes) :
    List Claim → Res Unit (Option ClaimRefusal)
  | [] => .ok none
  | c :: claims =>
    match parseTxid c.txid with
    | none => .ok none
    | some txid =>
      match ps.txOut txid c.vout with
      | none => .ok (some (.notUnspent c.txid c.vout))
      | some o =>
        if o.confirmations < cfg.pegConfirmations then
          .ok (some (.confirmations c.txid o.confirmations cfg.pegConfirmations))
        else if o.value.toNat ≠ c.payout.value ∨ o.scriptPubkey ≠ challenge then
          .ok (some (.doesNotPay c.txid c.payout.value))
        else
          match ps.rawTransaction txid with
          | none => .ok (some (.noTransaction c.txid))
          | some raw =>
            if pegMarkerOf raw cfg.chainId ≠ some c.payout.scriptPubkey then do
              let r ← markerRefusal c (pegMarkerOf raw cfg.chainId)
              .ok (some r)
            else checkClaimsLogged cfg challenge claims

/-- Why the claims of a block are refused, with the texts. -/
def checkLogged {H : Type} (cfg : PegConfig) (challenge : Bytes) (block : Block H) :
    Res Unit (Option ClaimRefusal) :=
  match block.txdata with
  | [] => .ok none
  | coinbase :: _ =>
    match parseClaims coinbase with
    | (_, e :: _) => .ok (some (.malformed e))
    | (claims, []) => ps.checkClaimsLogged cfg challenge claims

/-- The claim is of an unspent output, deep enough, that pays the challenge the
payout, in a transaction whose first marker does not name the payout's script. -/
def Misnamed (cfg : PegConfig) (challenge : Bytes) (c : Claim) : Prop :=
  ∃ tx confirmations o, ps.lookup (parseHash c.txid) = some (tx, confirmations) ∧
    tx.output[c.vout]? = some o ∧ ps.spent (outPointAt (parseHash c.txid) c.vout) = false ∧
    cfg.pegConfirmations ≤ confirmations ∧ o.sats = c.payout.value ∧
    o.scriptPubkey = challenge ∧ pegMarkerOf tx cfg.chainId ≠ some c.payout.scriptPubkey

/-- Behind claims that the parent backs, one whose marker names another script
pays a script of fewer than six bytes. -/
def ShortClaim {H : Type} (cfg : PegConfig) (challenge : Bytes) (block : Block H) : Prop :=
  ∃ coinbase, block.txdata.head? = some coinbase ∧ (parseClaims coinbase).2 = [] ∧
    ∃ pre c post, (parseClaims coinbase).1 = pre ++ c :: post ∧
      (∀ b ∈ pre, ps.Backs cfg challenge b) ∧ ps.Misnamed cfg challenge c ∧
      c.payout.scriptPubkey.length < 6

omit [Bitcoin] in
theorem markerRefusal_eq_panic {c : Claim} {named : Option Bytes} :
    markerRefusal c named = .panic ↔ c.payout.scriptPubkey.length < 6 := by
  unfold markerRefusal slice
  rw [length_hexEncode]
  by_cases h : c.payout.scriptPubkey.length < 6
  · rw [if_neg (by omega)]
    exact ⟨fun _ => h, fun _ => rfl⟩
  · rw [if_pos (by omega)]
    exact ⟨fun hp => (by cases hp), fun hc => absurd hc h⟩

/-- A check that returns says what the check without the texts says. -/
theorem checkClaims_of_logged {ps : ParentState} {cfg : PegConfig} {challenge : Bytes} :
    ∀ {claims : List Claim} {r : Option ClaimRefusal},
    ps.checkClaimsLogged cfg challenge claims = .ok r → ps.checkClaims cfg challenge claims = r
  | [], r, h => by
    cases h
    rfl
  | c :: claims, r, h => by
    unfold checkClaimsLogged at h
    unfold checkClaims
    cases hid : parseTxid c.txid with
    | none =>
      rw [hid] at h
      cases h
      rfl
    | some txid =>
      rw [hid] at h
      dsimp only at h ⊢
      cases hout : ps.txOut txid c.vout with
      | none =>
        rw [hout] at h
        cases h
        rfl
      | some o =>
        rw [hout] at h
        dsimp only at h ⊢
        split_ifs at h ⊢
        · cases h
          rfl
        · cases h
          rfl
        · cases hraw : ps.rawTransaction txid with
          | none =>
            rw [hraw] at h
            cases h
            rfl
          | some raw =>
            rw [hraw] at h
            dsimp only at h ⊢
            split_ifs at h ⊢
            · obtain ⟨x, hx, h⟩ := Res.bind_eq_ok.mp h
              obtain ⟨text, -, hx⟩ := Res.bind_eq_ok.mp hx
              cases hx
              cases h
              rfl
            · exact checkClaims_of_logged h

theorem check_of_logged {ps : ParentState} {H : Type} {cfg : PegConfig} {challenge : Bytes}
    {block : Block H} {r : Option ClaimRefusal}
    (h : ps.checkLogged cfg challenge block = .ok r) : ps.check cfg challenge block = r := by
  unfold checkLogged at h
  unfold check
  cases htx : block.txdata with
  | nil =>
    rw [htx] at h
    cases h
    rfl
  | cons coinbase rest =>
    rw [htx] at h
    dsimp only at h ⊢
    rcases hparse : parseClaims coinbase with ⟨claims, _ | ⟨e, errors⟩⟩
    · rw [hparse] at h
      exact checkClaims_of_logged h
    · rw [hparse] at h
      cases h
      rfl

omit [Bitcoin] in
/-- The first of a list that is not `P` is the head, or comes after it. -/
theorem exists_first_cons {α : Type} {P Q R : α → Prop} {c : α} {l : List α} :
    (∃ pre b post, c :: l = pre ++ b :: post ∧ (∀ a ∈ pre, P a) ∧ Q b ∧ R b) ↔
      (Q c ∧ R c) ∨ (P c ∧ ∃ pre b post, l = pre ++ b :: post ∧ (∀ a ∈ pre, P a) ∧ Q b ∧ R b) := by
  constructor
  · rintro ⟨pre, b, post, heq, hpre, hb⟩
    cases pre with
    | nil =>
      rw [List.nil_append, List.cons.injEq] at heq
      exact .inl (heq.1 ▸ hb)
    | cons a pre =>
      rw [List.cons_append, List.cons.injEq] at heq
      rw [List.forall_mem_cons] at hpre
      exact .inr ⟨heq.1 ▸ hpre.1, pre, b, post, heq.2, hpre.2, hb⟩
  · rintro (hb | ⟨hback, pre, b, post, rfl, hpre, hb⟩)
    · exact ⟨[], c, l, rfl, fun b hb => absurd hb List.not_mem_nil, hb⟩
    · exact ⟨c :: pre, b, post, rfl, List.forall_mem_cons.mpr ⟨hback, hpre⟩, hb⟩

/-- What is asked of an unspent output is asked of the one that is held. -/
theorem unspent_iff {ps : ParentState} {txid : Hash256} {vout : ℕ} {tx : Transaction} {n : ℕ}
    {o : TxOut} (hl : ps.lookup txid = some (tx, n)) (ho : tx.output[vout]? = some o)
    (hs : ps.spent (outPointAt txid vout) = false) {P : Transaction → ℕ → TxOut → Prop} :
    (∃ tx' n' o', ps.lookup txid = some (tx', n') ∧ tx'.output[vout]? = some o' ∧
      ps.spent (outPointAt txid vout) = false ∧ P tx' n' o') ↔ P tx n o := by
  constructor
  · rintro ⟨tx', n', o', hl', ho', -, hp⟩
    obtain ⟨rfl, rfl⟩ := Prod.mk.inj (Option.some.inj (hl.symm.trans hl'))
    obtain rfl := Option.some.inj (ho.symm.trans ho')
    exact hp
  · exact fun hp => ⟨tx, n, o, hl, ho, hs, hp⟩

/-- The first claim the parent does not back decides. -/
theorem checkClaimsLogged_eq_panic {ps : ParentState} {cfg : PegConfig} {challenge : Bytes} :
    ∀ {claims : List Claim},
    (∀ c ∈ claims, c.txid.length = 64 ∧ c.txid.all isLowerHexDigit = true) →
    (ps.checkClaimsLogged cfg challenge claims = .panic ↔ ∃ pre c post, claims = pre ++ c :: post ∧
      (∀ b ∈ pre, ps.Backs cfg challenge b) ∧ ps.Misnamed cfg challenge c ∧
      c.payout.scriptPubkey.length < 6)
  | [], _ => by simp [checkClaimsLogged]
  | c :: claims, htext => by
    have ih := @checkClaimsLogged_eq_panic ps cfg challenge _
      fun c' hc' => htext c' (List.mem_cons_of_mem _ hc')
    obtain ⟨hlen, hlow⟩ := htext c List.mem_cons_self
    rw [exists_first_cons]
    unfold checkClaimsLogged
    rw [parseTxid_of_lower hlen hlow]
    dsimp only
    cases hout : ps.txOut (parseHash c.txid) c.vout with
    | none =>
      have hnone : ∀ {tx n o}, ps.lookup (parseHash c.txid) = some (tx, n) →
          tx.output[c.vout]? = some o →
          ps.spent (outPointAt (parseHash c.txid) c.vout) = false → False := by
        intro tx n o hl ho hs
        rw [txOut_eq_some.mpr ⟨tx, n, o, hl, ho, hs, rfl⟩] at hout
        cases hout
      refine ⟨fun h => (by cases h), ?_⟩
      rintro (⟨⟨tx, n, o, hl, ho, hs, -⟩, -⟩ | ⟨⟨tx, n, o, hl, ho, hs, -⟩, -⟩)
      · exact (hnone hl ho hs).elim
      · exact (hnone hl ho hs).elim
    | some s =>
      obtain ⟨tx, n, o, hl, ho, hs, rfl⟩ := txOut_eq_some.mp hout
      have hraw : ps.rawTransaction (parseHash c.txid) = some tx := by
        unfold rawTransaction
        rw [hl]
        rfl
      have hmis : ps.Misnamed cfg challenge c ↔ cfg.pegConfirmations ≤ n ∧
          o.sats = c.payout.value ∧ o.scriptPubkey = challenge ∧
          pegMarkerOf tx cfg.chainId ≠ some c.payout.scriptPubkey := unspent_iff hl ho hs
      have hback : ps.Backs cfg challenge c ↔ cfg.pegConfirmations ≤ n ∧
          o.sats = c.payout.value ∧ o.scriptPubkey = challenge ∧
          pegMarkerOf tx cfg.chainId = some c.payout.scriptPubkey := unspent_iff hl ho hs
      rw [hmis, hback, hraw]
      unfold TxOut.sats
      dsimp only
      split_ifs with hneed hpay hmark
      · refine ⟨fun h => (by cases h), ?_⟩
        rintro (⟨⟨hc, -⟩, -⟩ | ⟨⟨hc, -⟩, -⟩)
        · omega
        · omega
      · refine ⟨fun h => (by cases h), ?_⟩
        rintro (⟨⟨-, hv, hsc, -⟩, -⟩ | ⟨⟨-, hv, hsc, -⟩, -⟩)
        · exact absurd hpay (by simp [hv, hsc])
        · exact absurd hpay (by simp [hv, hsc])
      · rw [not_or, not_not, not_not] at hpay
        rw [Res.bind_eq_panic, markerRefusal_eq_panic]
        constructor
        · rintro (h | ⟨x, -, h⟩)
          · exact .inl ⟨⟨by omega, hpay.1, hpay.2, hmark⟩, h⟩
          · cases h
        · rintro (⟨-, h⟩ | ⟨⟨-, -, -, hm⟩, -⟩)
          · exact .inl h
          · exact absurd hm hmark
      · rw [not_or, not_not, not_not] at hpay
        rw [not_not] at hmark
        rw [ih]
        constructor
        · exact fun h => .inr ⟨⟨by omega, hpay.1, hpay.2, hmark⟩, h⟩
        · rintro (⟨⟨-, -, -, hm⟩, -⟩ | ⟨-, h⟩)
          · exact absurd hmark hm
          · exact h

theorem checkLogged_eq_panic {ps : ParentState} {H : Type} {cfg : PegConfig} {challenge : Bytes}
    {block : Block H} :
    ps.checkLogged cfg challenge block = .panic ↔ ps.ShortClaim cfg challenge block := by
  unfold checkLogged ShortClaim
  cases block.txdata with
  | nil => simp
  | cons coinbase rest =>
    have htext : ∀ c ∈ (parseClaims coinbase).1,
        c.txid.length = 64 ∧ c.txid.all isLowerHexDigit = true := by
      intro c hc
      obtain ⟨hlen, hlow, -⟩ := mem_parseClaimsFrom hc
      exact ⟨hlen, hlow⟩
    have hiff := @checkClaimsLogged_eq_panic _ ps cfg challenge _ htext
    simp only [List.head?_cons, Option.some.injEq, exists_eq_left']
    rcases hparse : parseClaims coinbase with ⟨claims, _ | ⟨e, errors⟩⟩
    · rw [hparse] at hiff
      dsimp only
      rw [hiff]
      exact ⟨fun h => ⟨rfl, h⟩, fun h => h.2⟩
    · dsimp only
      exact ⟨fun h => (by cases h), fun h => absurd h.1 (by simp)⟩

end ParentState

/-- **A tick and a check return exactly when no peg-in to log and no claim to
refuse by its marker names a script of fewer than six bytes.** -/
theorem signer_panics_iff {H : Type} (cfg : PegConfig) (view : ParentView)
    (claimedTx : Txid → Bool) (s : PeginState) (ps : ParentState) (challenge : Bytes)
    (block : Block H) :
    (pegTickLogged cfg view claimedTx s ≠ .panic ∧ ps.checkLogged cfg challenge block ≠ .panic) ↔
      ¬ ShortPegin cfg view claimedTx s ∧ ¬ ps.ShortClaim cfg challenge block := by
  rw [ne_eq, ne_eq, pegTickLogged_eq_panic, ParentState.checkLogged_eq_panic]

end

section

attribute [local instance] sampleBitcoin

set_option maxRecDepth 100000 in
/-- **One deposit stops the scan.** A deposit whose marker names the one byte
`51` panics the tick at every start, whatever of the parent was scanned before it. -/
theorem deposit_stops_scan : ¬ ∀ (cfg : PegConfig) (view : ParentView) (claimedTx : Txid → Bool)
    (s : PeginState) (ps : ParentState) (challenge : Bytes) (block : Block Header),
    pegTickLogged cfg view claimedTx s ≠ .panic ∧ ps.checkLogged cfg challenge block ≠ .panic := by
  intro h
  refine (h depositConfig withDeposit (fun _ => false) (Scanned.fresh 0).state otherParent []
    ⟨⟨0, 0, 0, 0, 0, 0⟩, []⟩).1 (pegTickLogged_eq_panic.mpr ⟨rfl, by decide, fun _ _ _ => rfl, 1,
      by decide, by decide, deposit, ?_, List.not_mem_nil, rfl, by decide⟩)
  rw [deposit_facts.1]
  exact List.mem_singleton_self _

end

end Parent

end Sidestr
