/-
# Claims against the parent

A co-signer judges the claims of a proposed block by the parent (`ParentClaims`
of `node.rs`); the proposer embeds the claims its own scan found and does not
ask (`propose` of `round.rs`). Both read one parent: its best chain, the
transactions waiting in its mempool, and the peg wallet.

What the check accepts is backed. What an honest proposer embeds it accepts
exactly when the peg-ins found are still unspent and pay the challenge, and
their outputs can be written as claims: the scan asks neither.

Key definitions: `ParentState`, `ParentState.check`, `ParentState.Backs`,
`ParentState.Payable`, `ClaimsAre`.
Key theorems: `ParentState.check_eq_none_iff`, `claimsAre_iff`, `lookup_of_judged`,
`parent_claims_check`.
-/
import Sidestr.Core.Text
import Sidestr.Parent.Reorg

namespace Sidestr

/-! ### Claims as they are written -/

/-- The payout and the marker of a claim. -/
def ClaimRequest.outputs (c : ClaimRequest) : List TxOut :=
  [⟨c.amount, c.script⟩, ⟨0, claimMarker c.txid c.vout.toNat⟩]

/-- A claim read from a coinbase is the one requested. -/
def Claim.Is (c : Claim) (r : ClaimRequest) : Prop :=
  c.txid = r.txid ∧ c.vout = r.vout.toNat ∧ c.payout.value = r.amount.toNat ∧
    c.payout.scriptPubkey = r.script

/-- The claims of a coinbase are these, and none is malformed. -/
def ClaimsAre (coinbase : Transaction) (wanted : List ClaimRequest) : Prop :=
  (parseClaims coinbase).2 = [] ∧ List.Forall₂ Claim.Is (parseClaims coinbase).1 wanted

theorem ClaimsAre.claim {coinbase : Transaction} {wanted : List ClaimRequest} {c : ClaimRequest}
    (h : ClaimsAre coinbase wanted) (hc : c ∈ wanted) :
    ∃ claim ∈ (parseClaims coinbase).1, claim.Is c := by
  obtain ⟨i, hi, rfl⟩ := List.mem_iff_getElem.mp hc
  have hlen := h.2.length_eq
  exact ⟨_, List.getElem_mem (hlen ▸ hi), h.2.get (hlen ▸ hi) hi⟩

theorem ClaimsAre.request {coinbase : Transaction} {wanted : List ClaimRequest} {claim : Claim}
    (h : ClaimsAre coinbase wanted) (hc : claim ∈ (parseClaims coinbase).1) :
    ∃ c ∈ wanted, claim.Is c := by
  obtain ⟨i, hi, rfl⟩ := List.mem_iff_getElem.mp hc
  have hlen := h.2.length_eq
  exact ⟨_, List.getElem_mem (hlen ▸ hi), h.2.get hi (hlen ▸ hi)⟩

/-- The requests whose outputs read back as their claim. -/
structure ClaimRequest.Writable (c : ClaimRequest) : Prop where
  vout : c.vout.toNat < 10 ^ 5
  amount : 0 < c.amount.toNat
  script : isOpReturn c.script = false

/-- Requested outputs read back, whatever stands before them and with no claim after. -/
theorem parseClaimsFrom_outputs {tail : List TxOut}
    (htail : ∀ o ∈ tail, claimOutPoint o.scriptPubkey = none) :
    ∀ {wanted : List ClaimRequest} (i : ℕ) (prev : Option TxOut),
    (∀ c ∈ wanted, c.txid.length = 64 ∧ c.txid.all isLowerHexDigit = true ∧ c.Writable) →
    (parseClaimsFrom i prev (wanted.flatMap ClaimRequest.outputs ++ tail)).2 = [] ∧
      List.Forall₂ Claim.Is
        (parseClaimsFrom i prev (wanted.flatMap ClaimRequest.outputs ++ tail)).1 wanted
  | [], i, prev, _ => by
    rw [List.flatMap_nil, List.nil_append, parseClaimsFrom_eq_nil tail i prev htail]
    exact ⟨rfl, .nil⟩
  | c :: wanted, i, prev, h => by
    obtain ⟨hlen, hlow, hw⟩ := h c List.mem_cons_self
    have ih := parseClaimsFrom_outputs htail (i + 2)
      (some ⟨0, claimMarker c.txid c.vout.toNat⟩) fun c' hc' => h c' (List.mem_cons_of_mem _ hc')
    have hpay : claimOutPoint c.script = none := claimOutPoint_eq_none hw.script
    have hmark := claimOutPoint_claimMarker hlen hlow hw.vout
    rw [List.flatMap_cons, List.append_assoc]
    show (parseClaimsFrom i prev (⟨c.amount, c.script⟩ ::
      ⟨0, claimMarker c.txid c.vout.toNat⟩ :: _)).2 = [] ∧ List.Forall₂ Claim.Is
        (parseClaimsFrom i prev (⟨c.amount, c.script⟩ ::
          ⟨0, claimMarker c.txid c.vout.toNat⟩ :: _)).1 _
    simp only [parseClaimsFrom, hpay, hmark]
    rw [if_pos]
    swap
    · rw [hw.script, Bool.not_false, Bool.true_and, decide_eq_true_eq]
      exact hw.amount
    exact ⟨ih.1, .cons ⟨rfl, rfl, rfl, rfl⟩ ih.2⟩

/-- What a claim read from a list of outputs is like. -/
theorem mem_parseClaimsFrom : ∀ {outs : List TxOut} {i : ℕ} {prev : Option TxOut} {c : Claim},
    c ∈ (parseClaimsFrom i prev outs).1 →
    c.txid.length = 64 ∧ c.txid.all isLowerHexDigit = true ∧ c.vout < 10 ^ 5 ∧
      0 < c.payout.value ∧ isOpReturn c.payout.scriptPubkey = false
  | o :: outs, i, prev, c, h => by
    unfold parseClaimsFrom at h
    dsimp only at h
    split at h
    · exact mem_parseClaimsFrom h
    · rename_i txid vout hop
      split at h
      · exact mem_parseClaimsFrom h
      · split_ifs at h with hgood
        · rcases List.mem_cons.mp h with rfl | h
          · rw [Bool.and_eq_true, Bool.not_eq_true', decide_eq_true_eq] at hgood
            obtain ⟨-, hlen, hlow, hvout⟩ := claimOutPoint_ok hop
            exact ⟨hlen, hlow, hvout, hgood.2, hgood.1⟩
          · exact mem_parseClaimsFrom h
        · exact mem_parseClaimsFrom h

/-- A commitment's data is no text. -/
theorem claimOutPoint_commitment (d : Bytes) :
    claimOutPoint (commitmentPrefix ++ d) = none := by
  unfold claimOutPoint
  cases hd : opReturnData (commitmentPrefix ++ d) with
  | none => rfl
  | some data =>
    have hdata : data = 0xaa :: 0x21 :: 0xa9 :: 0xed :: d := by
      unfold opReturnData commitmentPrefix at hd
      dsimp only [List.cons_append] at hd
      split_ifs at hd
      all_goals simp_all
    have htext : markerText data = none := by
      rw [hdata]
      unfold markerText
      have hbom : withoutBom (0xaa :: 0x21 :: 0xa9 :: 0xed :: d) =
          0xaa :: 0x21 :: 0xa9 :: 0xed :: d := rfl
      rw [hbom, if_neg]
      rw [utf8Valid.eq_def]
      simp
    rw [Option.bind_some, htext]
    rfl

namespace Parent

section

variable [Bitcoin]

/-! ### The parent both sides read -/

/-- One state of the parent: its best chain, the transactions of its mempool,
and the peg wallet. -/
structure ParentState where
  chain : BestChain
  mempool : List Transaction
  wallet : Option PegWallet
  nodup : ((chain.blocks.flatMap ParentBlock.txs ++ mempool).map Bitcoin.computeTxid).Nodup

/-- What `gettxout` says of an output. -/
structure TxOutStatus where
  confirmations : ℕ
  value : UInt64
  scriptPubkey : Bytes

/-- Why a block's claims are refused. -/
inductive ClaimRefusal
  | malformed (index : ℕ)
  | notUnspent (txid : Bytes) (vout : ℕ)
  | confirmations (txid : Bytes) (have' need : ℕ)
  | doesNotPay (txid : Bytes) (value : ℕ)
  | noTransaction (txid : Bytes)
  | marker (txid : Bytes) (named : Option Bytes) (paid : Bytes)

omit [Bitcoin] in
/-- A txid from its text. -/
def parseTxid (text : Bytes) : Option Txid :=
  if text.length = 64 ∧ text.all isHexDigit then some (parseHash text) else none

namespace ParentState

variable (ps : ParentState)

/-- The transactions of the chain and of the mempool, each with its confirmations. -/
def located : List (Transaction × ℕ) :=
  (ps.chain.blocks.zipIdx.flatMap fun p =>
    p.1.txs.map fun tx => (tx, ps.chain.tip + 1 - p.2)) ++ ps.mempool.map fun tx => (tx, 0)

def lookup (txid : Txid) : Option (Transaction × ℕ) :=
  ps.located.find? fun p => Bitcoin.computeTxid p.1 == txid

/-- Spent by a transaction of the chain or of the mempool. -/
def spent (op : OutPoint) : Bool :=
  ps.located.any fun p => p.1.input.any fun i => i.previousOutput == op

/-- `gettxout` with the mempool: nothing for a spent or unknown output. -/
def txOut (txid : Txid) (vout : ℕ) : Option TxOutStatus := do
  let (tx, confirmations) ← ps.lookup txid
  let o ← tx.output[vout]?
  if ps.spent (outPointAt txid vout) then none else some ⟨confirmations, o.value, o.scriptPubkey⟩

def rawTransaction (txid : Txid) : Option Transaction := (ps.lookup txid).map Prod.fst

/-- What a scan of this parent sees, every answer given. -/
def view : ParentView := ⟨ps.chain, true, fun _ => true, ps.wallet⟩

/-! ### The check -/

/-- Each claim by the parent, in order, up to the first refusal. A txid that
does not parse ends the check, and accepts. -/
def checkClaims (cfg : PegConfig) (challenge : Bytes) : List Claim → Option ClaimRefusal
  | [] => none
  | c :: claims =>
    match parseTxid c.txid with
    | none => none
    | some txid =>
      match ps.txOut txid c.vout with
      | none => some (.notUnspent c.txid c.vout)
      | some o =>
        if o.confirmations < cfg.pegConfirmations then
          some (.confirmations c.txid o.confirmations cfg.pegConfirmations)
        else if o.value.toNat ≠ c.payout.value ∨ o.scriptPubkey ≠ challenge then
          some (.doesNotPay c.txid c.payout.value)
        else
          match ps.rawTransaction txid with
          | none => some (.noTransaction c.txid)
          | some raw =>
            if pegMarkerOf raw cfg.chainId ≠ some c.payout.scriptPubkey then
              some (.marker c.txid (pegMarkerOf raw cfg.chainId) c.payout.scriptPubkey)
            else checkClaims cfg challenge claims

/-- Why the claims of a block are refused; none when they are accepted. -/
def check {H : Type} (cfg : PegConfig) (challenge : Bytes) (block : Block H) :
    Option ClaimRefusal :=
  match block.txdata with
  | [] => none
  | coinbase :: _ =>
    match parseClaims coinbase with
    | (_, e :: _) => some (.malformed e)
    | (claims, []) => ps.checkClaims cfg challenge claims

/-- A claim the parent backs: of an unspent output, deep enough, that pays the
challenge exactly the payout, in a transaction whose first marker names the
payout's script. -/
def Backs (cfg : PegConfig) (challenge : Bytes) (c : Claim) : Prop :=
  ∃ tx confirmations o, ps.lookup (parseHash c.txid) = some (tx, confirmations) ∧
    tx.output[c.vout]? = some o ∧ ps.spent (outPointAt (parseHash c.txid) c.vout) = false ∧
    cfg.pegConfirmations ≤ confirmations ∧ o.sats = c.payout.value ∧
    o.scriptPubkey = challenge ∧ pegMarkerOf tx cfg.chainId = some c.payout.scriptPubkey

/-- A request whose output is unspent and pays the challenge its amount, and
which can be written as a claim. -/
structure Payable (challenge : Bytes) (c : ClaimRequest) : Prop where
  writable : c.Writable
  pays : ∃ tx confirmations, ps.lookup (parseHash c.txid) = some (tx, confirmations) ∧
    tx.output[c.vout.toNat]? = some ⟨c.amount, challenge⟩
  unspent : ps.spent (outPointAt (parseHash c.txid) c.vout.toNat) = false

variable {ps}

theorem txOut_eq_some {txid : Txid} {vout : ℕ} {s : TxOutStatus} :
    ps.txOut txid vout = some s ↔ ∃ tx confirmations o,
      ps.lookup txid = some (tx, confirmations) ∧ tx.output[vout]? = some o ∧
      ps.spent (outPointAt txid vout) = false ∧ s = ⟨confirmations, o.value, o.scriptPubkey⟩ := by
  unfold txOut
  simp only [Option.bind_eq_bind, Option.bind_eq_some_iff]
  constructor
  · rintro ⟨⟨tx, n⟩, hl, o, ho, h⟩
    dsimp only at ho h
    split_ifs at h with hs
    rw [Bool.not_eq_true] at hs
    exact ⟨tx, n, o, hl, ho, hs, (Option.some.inj h).symm⟩
  · rintro ⟨tx, n, o, hl, ho, hs, rfl⟩
    refine ⟨(tx, n), hl, o, ho, ?_⟩
    simp [hs]

omit [Bitcoin] in
theorem parseTxid_of_lower {text : Bytes} (hlen : text.length = 64)
    (hlow : text.all isLowerHexDigit = true) : parseTxid text = some (parseHash text) := by
  have hhex : text.all isHexDigit = true :=
    List.all_eq_true.mpr fun b hb => hexVal_isSome (List.all_eq_true.mp hlow b hb)
  unfold parseTxid
  rw [if_pos ⟨hlen, hhex⟩]

/-- Claims whose txids are hashes pass the check exactly when the parent backs each. -/
theorem checkClaims_eq_none_iff (ps : ParentState) (cfg : PegConfig) (challenge : Bytes) :
    ∀ {claims : List Claim},
    (∀ c ∈ claims, c.txid.length = 64 ∧ c.txid.all isLowerHexDigit = true) →
    (ps.checkClaims cfg challenge claims = none ↔ ∀ c ∈ claims, ps.Backs cfg challenge c)
  | [], _ => by simp [checkClaims]
  | c :: claims, h => by
    have ih := checkClaims_eq_none_iff ps cfg challenge fun c' hc' => h c' (List.mem_cons_of_mem _ hc')
    obtain ⟨hlen, hlow⟩ := h c List.mem_cons_self
    rw [List.forall_mem_cons]
    unfold checkClaims
    rw [parseTxid_of_lower hlen hlow]
    dsimp only
    cases hout : ps.txOut (parseHash c.txid) c.vout with
    | none =>
      dsimp only
      refine ⟨fun hn => absurd hn (by simp), ?_⟩
      rintro ⟨⟨tx, n, o, hl, ho, hs, -⟩, -⟩
      rw [txOut_eq_some.mpr ⟨tx, n, o, hl, ho, hs, rfl⟩] at hout
      exact absurd hout (by simp)
    | some s =>
      obtain ⟨tx, n, o, hl, ho, hs, rfl⟩ := txOut_eq_some.mp hout
      have hraw : ps.rawTransaction (parseHash c.txid) = some tx := by
        unfold rawTransaction
        rw [hl]
        rfl
      have hback : ps.Backs cfg challenge c ↔ cfg.pegConfirmations ≤ n ∧
          o.sats = c.payout.value ∧ o.scriptPubkey = challenge ∧
          pegMarkerOf tx cfg.chainId = some c.payout.scriptPubkey := by
        constructor
        · rintro ⟨tx', n', o', hl', ho', -, hrest⟩
          obtain ⟨rfl, rfl⟩ := Prod.mk.inj (Option.some.inj (hl.symm.trans hl'))
          obtain rfl := Option.some.inj (ho.symm.trans ho')
          exact hrest
        · exact fun hrest => ⟨tx, n, o, hl, ho, hs, hrest⟩
      dsimp only
      rw [hback, hraw]
      unfold TxOut.sats
      dsimp only
      split_ifs with hneed hpay hmark
      · refine ⟨fun hn => absurd hn (by simp), ?_⟩
        rintro ⟨⟨hle, -⟩, -⟩
        omega
      · refine ⟨fun hn => absurd hn (by simp), ?_⟩
        rintro ⟨⟨-, hv, hs', -⟩, -⟩
        exact absurd hpay (by simp [hv, hs'])
      · refine ⟨fun hn => absurd hn (by simp), ?_⟩
        rintro ⟨⟨-, -, -, hm⟩, -⟩
        exact absurd hm hmark
      · rw [not_or, not_not, not_not] at hpay
        rw [not_not] at hmark
        rw [ih]
        exact ⟨fun hc => ⟨⟨by omega, hpay.1, hpay.2, hmark⟩, hc⟩, fun hc => hc.2⟩

/-- **What the check accepts.** A block passes exactly when it has no coinbase,
or a coinbase with no malformed claim and claims the parent backs. -/
theorem check_eq_none_iff {H : Type} {cfg : PegConfig} {challenge : Bytes} {block : Block H} :
    ps.check cfg challenge block = none ↔ ∀ coinbase, block.txdata.head? = some coinbase →
      (parseClaims coinbase).2 = [] ∧
        ∀ c ∈ (parseClaims coinbase).1, ps.Backs cfg challenge c := by
  unfold check
  cases htx : block.txdata with
  | nil => simp
  | cons coinbase rest =>
    have hwf : ∀ c ∈ (parseClaims coinbase).1,
        c.txid.length = 64 ∧ c.txid.all isLowerHexDigit = true := by
      intro c hc
      obtain ⟨hlen, hlow, -⟩ := mem_parseClaimsFrom hc
      exact ⟨hlen, hlow⟩
    simp only [List.head?_cons, Option.some.injEq, forall_eq']
    generalize hp : parseClaims coinbase = parsed at hwf
    obtain ⟨claims, errors⟩ := parsed
    cases errors with
    | cons e errors => simp
    | nil =>
      dsimp only
      rw [checkClaims_eq_none_iff ps cfg challenge hwf]
      simp

end ParentState

/-! ### What an honest proposer embeds -/

omit [Bitcoin] in
/-- Where no key repeats, searching for an element's key finds it. -/
theorem find?_of_keys {α κ : Type} [DecidableEq κ] (f : α → κ) : ∀ {l : List α} {x : α},
    (l.map f).Nodup → x ∈ l → (l.find? fun y => f y == f x) = some x
  | y :: l, x, hn, hx => by
    rw [List.map_cons, List.nodup_cons] at hn
    rcases List.mem_cons.mp hx with rfl | hx
    · rw [List.find?_cons_of_pos (by simp)]
    · have hne : f y ≠ f x := fun he => hn.1 (he ▸ List.mem_map_of_mem hx)
      rw [List.find?_cons_of_neg (by simpa using hne)]
      exact find?_of_keys f hn.2 hx

/-- A peg-in of the best chain is of a transaction the parent answers for, with
the confirmations of its height. -/
theorem lookup_of_judged {ps : ParentState} {cfg : PegConfig} {h : ℕ} {p : FoundPegin}
    (hp : p ∈ ps.view.judged cfg h) : ∃ tx, ps.lookup p.txid = some (tx, ps.chain.tip + 1 - h) ∧
      pegMarkerOf tx cfg.chainId = some p.script := by
  unfold ParentView.judged at hp
  split at hp
  · rename_i block hblock
    obtain ⟨tx, i, htx, hpeg⟩ := mem_scanBlock hp
    obtain ⟨htxid, -, hmarker, -⟩ := peginAtWallet_ok hpeg
    refine ⟨tx, ?_, hmarker⟩
    have hin : tx ∈ block.txs := List.mem_of_getElem? (List.mem_zipIdx_iff_getElem?.mp htx)
    have hloc : (tx, ps.chain.tip + 1 - h) ∈ ps.located := by
      refine List.mem_append_left _ (List.mem_flatMap.mpr ⟨(block, h), ?_, ?_⟩)
      · exact List.mem_zipIdx_iff_getElem?.mpr hblock
      · exact List.mem_map.mpr ⟨tx, hin, rfl⟩
    have hfst : ps.located.map Prod.fst =
        ps.chain.blocks.flatMap ParentBlock.txs ++ ps.mempool := by
      unfold ParentState.located
      rw [List.map_append, List.map_flatMap, List.map_map]
      simp only [List.map_map, Function.comp_def, List.map_id']
      rw [← List.flatMap_map (f := Prod.fst) (g := ParentBlock.txs), List.zipIdx_map_fst]
    have hnodup : (ps.located.map fun q => Bitcoin.computeTxid q.1).Nodup := by
      have hn := ps.nodup
      rw [← hfst, List.map_map] at hn
      exact hn
    unfold ParentState.lookup
    rw [htxid]
    exact find?_of_keys (fun q => Bitcoin.computeTxid q.1) hnodup hloc
  · simp at hp

omit [Bitcoin] in
theorem claimOutputs_ok {H σ : Type} {s : StateOf H σ} : ∀ {cs : List ClaimRequest}
    {outs : List TxOut}, s.claimOutputs cs = .ok outs → outs = cs.flatMap ClaimRequest.outputs
  | [], outs, h => by
    rw [StateOf.claimOutputs, Res.ok.injEq] at h
    exact h.symm
  | c :: cs, outs, h => by
    simp only [StateOf.claimOutputs, Res.bind_eq_ok] at h
    obtain ⟨-, -, rest, hrest, h⟩ := h
    rw [Res.ok.injEq] at h
    rw [← h, claimOutputs_ok hrest]
    rfl

variable {H σ : Type} [HeaderFamily H]

/-- The coinbase of the next block: the fees to the challenge, then the claims
as requested, then the commitment. -/
theorem buildNextWith_ok {s : StateOf H σ} {next : NextBlock} {txs : List Transaction}
    {block : Block H} {fees : ℕ} (h : s.buildNextWith next txs = .ok (block, fees)) :
    ∃ coinbase d, block.txdata.head? = some coinbase ∧
      coinbase.output = (if 0 < fees then [⟨UInt64.ofNat fees, s.challenge⟩] else []) ++
        (next.claims.flatMap ClaimRequest.outputs ++ [⟨0, commitmentPrefix ++ d⟩]) := by
  simp only [StateOf.buildNextWith, Res.bind_eq_ok] at h
  obtain ⟨tip, -, -, -, fees', -, claims, hclaims, h⟩ := h
  rw [Res.ok.injEq, Prod.mk.injEq] at h
  obtain ⟨rfl, rfl⟩ := h
  refine ⟨_, displayBytes (witnessCommitment txs), rfl, ?_⟩
  rw [claimOutputs_ok hclaims]
  unfold buildCoinbase
  dsimp only
  split_ifs <;> simp

omit [Bitcoin] in
/-- The claims of such a coinbase are the requested ones exactly when each can
be written and the challenge is no claim marker where it is paid. -/
theorem claimsAre_iff {coinbase : Transaction} {wanted : List ClaimRequest} {fees : ℕ}
    {challenge d : Bytes}
    (hout : coinbase.output = (if 0 < fees then [⟨UInt64.ofNat fees, challenge⟩] else []) ++
      (wanted.flatMap ClaimRequest.outputs ++ [⟨0, commitmentPrefix ++ d⟩]))
    (htxid : ∀ c ∈ wanted, c.txid.length = 64 ∧ c.txid.all isLowerHexDigit = true) :
    ClaimsAre coinbase wanted ↔
      (∀ c ∈ wanted, c.Writable) ∧ (0 < fees → claimOutPoint challenge = none) := by
  have htail : ∀ o ∈ [(⟨0, commitmentPrefix ++ d⟩ : TxOut)],
      claimOutPoint o.scriptPubkey = none := by
    intro o ho
    rw [List.mem_singleton] at ho
    rw [ho]
    exact claimOutPoint_commitment d
  constructor
  · intro hare
    constructor
    · intro c hc
      obtain ⟨claim, hclaim, -, hvout, hval, hscript⟩ := hare.claim hc
      obtain ⟨-, -, hv, hpos, hop⟩ := mem_parseClaimsFrom hclaim
      exact ⟨hvout ▸ hv, hval ▸ hpos, hscript ▸ hop⟩
    · intro hfees
      have herr := hare.1
      unfold parseClaims at herr
      rw [hout, if_pos hfees] at herr
      cases hc : claimOutPoint challenge with
      | none => rfl
      | some op =>
        simp [parseClaimsFrom, hc] at herr
  · rintro ⟨hw, hfee⟩
    have hwritten := fun i prev => parseClaimsFrom_outputs htail i prev fun c hc =>
      ⟨(htxid c hc).1, (htxid c hc).2, hw c hc⟩
    unfold ClaimsAre parseClaims
    rw [hout]
    split_ifs with hpos
    · have h1 := hwritten 1 (some ⟨UInt64.ofNat fees, challenge⟩)
      show (parseClaimsFrom 0 none (⟨UInt64.ofNat fees, challenge⟩ :: _)).2 = [] ∧
        List.Forall₂ Claim.Is (parseClaimsFrom 0 none (⟨UInt64.ofNat fees, challenge⟩ :: _)).1 _
      simp only [parseClaimsFrom, hfee hpos]
      exact h1
    · exact hwritten 0 none

/-- The wanted claims the chain does not have already. -/
def wantedClaims (s : StateOf H σ) (claims : List ClaimRequest) : List ClaimRequest :=
  claims.filter fun c => (s.records.claims.lookup (c.txid, c.vout.toNat)).isNone

/-- **Proposer and co-signer.** Over one parent: a block built from the claims a
tick hands on has those claims and passes the check exactly when each claimed
output is unspent, pays the challenge its amount and can be written as a claim
(and fees are not paid to a challenge that reads as one); and every block that
passes has no malformed claim, and claims the parent backs. -/
theorem parent_claims_check (cfg : PegConfig) (ps : ParentState) (s : StateOf H σ) :
    (∀ (claimedTx : Txid → Bool) (before after : PeginState) (claims : List ClaimRequest)
      (time : UInt32) (block : Block H) (fees : ℕ),
      (∀ p ∈ before.pegins, p ∈ ps.view.judged cfg p.height) →
      pegTick cfg ps.view claimedTx before = (after, some claims) →
      s.buildNext { time, claims := wantedClaims s claims } = .ok (block, fees) →
      ((∀ coinbase, block.txdata.head? = some coinbase →
          ClaimsAre coinbase (wantedClaims s claims)) ∧
        ps.check cfg s.challenge block = none ↔
      (∀ c ∈ wantedClaims s claims, ps.Payable s.challenge c) ∧
        (0 < fees → claimOutPoint s.challenge = none))) ∧
    ∀ block : Block H, ps.check cfg s.challenge block = none →
      ∀ coinbase, block.txdata.head? = some coinbase → (parseClaims coinbase).2 = [] ∧
        ∀ c ∈ (parseClaims coinbase).1, ps.Backs cfg s.challenge c := by
  refine ⟨?_, fun block h => ParentState.check_eq_none_iff.mp h⟩
  intro claimedTx before after claims time block fees hbefore htick hbuild
  -- each wanted claim is of a peg-in of this chain, deep enough and rightly marked
  have hpegin : ∀ c ∈ wantedClaims s claims, ∃ txid tx n,
      c.txid = hashText txid ∧ ps.lookup txid = some (tx, n) ∧ cfg.pegConfirmations ≤ n ∧
      pegMarkerOf tx cfg.chainId = some c.script := by
    intro c hc
    have hclaims : (pegTick cfg ps.view claimedTx before).2 = some claims := by rw [htick]
    obtain ⟨p, hp, rfl, hdeep, -⟩ := mem_pegTick_claims hclaims (List.mem_of_mem_filter hc)
    have hjudged : p ∈ ps.view.judged cfg p.height := hp.elim (hbefore p) id
    obtain ⟨tx, hl, hm⟩ := lookup_of_judged hjudged
    change p.height + _ ≤ ps.chain.tip + 1 at hdeep
    exact ⟨p.txid, tx, _, rfl, hl, by omega, hm⟩
  have htxid : ∀ c ∈ wantedClaims s claims,
      c.txid.length = 64 ∧ c.txid.all isLowerHexDigit = true := by
    intro c hc
    obtain ⟨txid, -, -, he, -⟩ := hpegin c hc
    rw [he]
    exact ⟨length_hashText txid, hashText_lower txid⟩
  obtain ⟨coinbase, d, hhead, hout⟩ := buildNextWith_ok hbuild
  have hare := claimsAre_iff hout htxid
  rw [ParentState.check_eq_none_iff, hhead]
  simp only [Option.some.injEq, forall_eq']
  constructor
  · rintro ⟨hclaims, -, hback⟩
    obtain ⟨hw, hfee⟩ := hare.mp hclaims
    refine ⟨fun c hc => ?_, hfee⟩
    obtain ⟨claim, hclaim, htx, hvout, hval, hscript⟩ := hclaims.claim hc
    obtain ⟨tx, n, o, hl, ho, hs, -, hv, hch, -⟩ := hback claim hclaim
    rw [htx] at hl hs
    rw [hvout] at ho hs
    have hout : o = ⟨c.amount, s.challenge⟩ := by
      obtain ⟨value, script⟩ := o
      have hvalue : value = c.amount := UInt64.toNat_inj.mp (hv.trans hval)
      rw [hvalue, ← hch]
    exact ⟨hw c hc, ⟨tx, n, hl, hout ▸ ho⟩, hs⟩
  · rintro ⟨hpay, hfee⟩
    have hclaims := hare.mpr ⟨fun c hc => (hpay c hc).writable, hfee⟩
    refine ⟨hclaims, hclaims.1, fun claim hclaim => ?_⟩
    obtain ⟨c, hc, htx, hvout, hval, hscript⟩ := hclaims.request hclaim
    obtain ⟨txid, tx, n, he, hl, hdeep, hm⟩ := hpegin c hc
    obtain ⟨tx', n', hl', ho⟩ := (hpay c hc).pays
    have hs := (hpay c hc).unspent
    have hparse : parseHash c.txid = txid := by rw [he, parseHash_hashText]
    rw [hparse] at hl' hs
    obtain ⟨rfl, rfl⟩ := Prod.mk.inj (Option.some.inj (hl.symm.trans hl'))
    refine ⟨tx, n, ⟨c.amount, s.challenge⟩, ?_, ?_, ?_, hdeep, hval.symm, rfl, ?_⟩
    · rw [htx, hparse]
      exact hl
    · rw [hvout]
      exact ho
    · rw [htx, hparse, hvout]
      exact hs
    · rw [hscript]
      exact hm

end

section

attribute [local instance] sampleBitcoin

/-- The sample chain's challenge. -/
def sampleChallenge : Bytes := 0x51 :: 0x20 :: sampleKey 1

/-- A deposit of 1000 to that challenge. -/
def challengeDepositTx : Transaction where
  version := 2
  input := []
  output := [⟨1000, sampleChallenge⟩, ⟨0, opReturn (pegTag ++ ascii ['c', ':', '5', '1'])⟩]
  lockTime := 0

def challengeDeposit : FoundPegin := ⟨Bitcoin.computeTxid challengeDepositTx, 0, 1000, [0x51], 1, none⟩

/-- The parent of a view, its mempool empty. -/
def parentOf (view : ParentView) : ParentState :=
  ⟨view.chain, [], view.wallet, by rw [List.append_nil]; exact view.chain.nodup⟩

/-- The deposit to the challenge is in the block at height 1. -/
def challengeParent : ParentState := parentOf <|
  viewOf [blockOf (otherTx 0), blockOf challengeDepositTx] (by decide) (by decide +kernel)

/-- The deposit to another taproot output is. -/
def otherParent : ParentState := parentOf withDeposit

/-- The next block of a state with one claim, nothing else to pay. -/
def buildsClaim (s : StateOf Header Unit) (c : ClaimRequest) : Bool :=
  wantedClaims s [c] == [c] &&
    match s.buildNext { time := 0, claims := [c] } with
    | .ok (_, fees) => fees == 0
    | _ => false

set_option maxRecDepth 100000 in
theorem challengeParent_facts :
    (pegTick depositConfig challengeParent.view (fun _ => false) (Scanned.fresh 0).state).2 =
      some [challengeDeposit.request] ∧
    challengeParent.lookup (parseHash challengeDeposit.request.txid) =
      some (challengeDepositTx, 1) ∧
    challengeParent.spent (outPointAt (parseHash challengeDeposit.request.txid) 0) = false := by
  decide +kernel

set_option maxRecDepth 100000 in
/-- The deposit to the challenge: the block that claims it passes the check. -/
theorem parent_claims_check_sample : ∃ (genesis : Block Header) (s : StateOf Header Unit)
    (block : Block Header), Chain sampleDoc [] () [genesis] s ∧
      s.buildNext { time := 0, claims := [challengeDeposit.request] } = .ok (block, 0) ∧
      challengeParent.check depositConfig s.challenge block = none := by
  obtain ⟨genesis, later, s, hrun, hp⟩ := exists_chain_of_sampleRun sampleDoc [] () 1 []
    (fun _ later s => later.isEmpty && s.challenge == sampleChallenge &&
      buildsClaim s challengeDeposit.request) (by decide +kernel)
  simp only [buildsClaim, Bool.and_eq_true, beq_iff_eq, List.isEmpty_iff] at hp
  obtain ⟨⟨rfl, hch⟩, hwanted, hbuild⟩ := hp
  obtain ⟨htick, hlookup, hspent⟩ := challengeParent_facts
  cases hb : s.buildNext { time := 0, claims := [challengeDeposit.request] } with
  | ok r =>
    obtain ⟨block, fees⟩ := r
    rw [hb] at hbuild
    rw [beq_iff_eq] at hbuild
    subst hbuild
    have hiff := (parent_claims_check depositConfig challengeParent s).1 (fun _ => false)
      (Scanned.fresh 0).state _ [challengeDeposit.request] 0 block 0
      (fun p hp => absurd hp List.not_mem_nil) (Prod.ext rfl htick) (by rw [hwanted]; exact hb)
    refine ⟨genesis, s, block, hrun, hb, (hiff.mpr ⟨?_, fun h => absurd h (by decide)⟩).2⟩
    intro c hc
    rw [hwanted, List.mem_singleton] at hc
    subst hc
    refine ⟨⟨by decide, by decide, by decide⟩, ⟨challengeDepositTx, 1, hlookup, ?_⟩, hspent⟩
    rw [hch]
    rfl
  | err e => rw [hb] at hbuild; exact absurd hbuild Bool.false_ne_true
  | panic => rw [hb] at hbuild; exact absurd hbuild Bool.false_ne_true

set_option maxRecDepth 100000 in
/-- **A deposit to another taproot output.** The tick hands its claim on, and the
block that claims it is refused. -/
theorem other_taproot : ∃ (genesis : Block Header) (s : StateOf Header Unit)
    (block : Block Header) (fees : ℕ), Chain sampleDoc [] () [genesis] s ∧
      (pegTick depositConfig otherParent.view (fun _ => false) (Scanned.fresh 0).state).2 =
        some [deposit.request] ∧
      s.buildNext { time := 0, claims := wantedClaims s [deposit.request] } = .ok (block, fees) ∧
      otherParent.check depositConfig s.challenge block ≠ none := by
  obtain ⟨genesis, later, s, hrun, hp⟩ := exists_chain_of_sampleRun sampleDoc [] () 1 []
    (fun _ later s => later.isEmpty &&
      match s.buildNext { time := 0, claims := wantedClaims s [deposit.request] } with
      | .ok (block, _) => (otherParent.check depositConfig s.challenge block).isSome
      | _ => false) (by decide +kernel)
  simp only [Bool.and_eq_true, List.isEmpty_iff] at hp
  obtain ⟨rfl, hcheck⟩ := hp
  have htick : (pegTick depositConfig otherParent.view (fun _ => false)
      (Scanned.fresh 0).state).2 = some [deposit.request] := by decide +kernel
  cases hb : s.buildNext { time := 0, claims := wantedClaims s [deposit.request] } with
  | ok r =>
    rw [hb] at hcheck
    exact ⟨genesis, s, r.1, r.2, hrun, htick, hb, Option.isSome_iff_ne_none.mp hcheck⟩
  | err e => rw [hb] at hcheck; exact absurd hcheck Bool.false_ne_true
  | panic => rw [hb] at hcheck; exact absurd hcheck Bool.false_ne_true

end

end Parent

end Sidestr
