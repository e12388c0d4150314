/-
# The ledger of paid burns

A signer keeps a ledger of the burns paid (`pegouts.json`), by the burn's
outpoint, and each poll of the node reconciles it with the peg wallet's
history (`node.rs reconcile`): a burn the ledger does not have is recorded as
paid when the history names its transaction.

The history's records name sidechain transactions and the ledger's keys name
outputs of them, so both `reconcile` of the parent and the node's give every
burn its own payment exactly when no burn they mark paid shares its
transaction with another one that the same payment discharges.

Key definitions: `PegoutLedger`, `ReconcileView.reconcile`, `OwnPayments`, `PaidApart`.
Key theorems: `reconcileBurns_lookup`, `ownPayments_reconcile`, `ownPayments_node`.
-/
import Sidestr.Parent.Pegout

namespace Sidestr

namespace Round

open Parent

/-! ### The ledger -/

/-- `<txid>:<vout>`, the key every map of the peg-out round uses. -/
abbrev BurnKey := Txid × ℕ

def burnKey (b : Burn) : BurnKey := (b.txid, b.vout)

/-- A paid burn as `pegouts.json` records it. -/
structure PaidPegout where
  parentTxid : Txid
  /-- The burn's script as an address, when the network is known. -/
  address : Option Bytes
  value : ℕ
  script : Bytes
  height : ℕ
  /-- Unix seconds. -/
  time : ℕ
  signers : List Bytes
  /-- Set when the payment was found in the wallet's history. -/
  reconciled : Option Bool
  deriving DecidableEq

/-- What has been paid, by burn. -/
structure PegoutLedger where
  paid : Map BurnKey PaidPegout

/-- The parent took the transaction: record it. -/
def PegoutLedger.markPaid (l : PegoutLedger) (burn : BurnKey) (record : PaidPegout) :
    PegoutLedger :=
  ⟨l.paid.insert burn record⟩

/-! ### Reconciling -/

/-- The record of a burn found paid in the history. -/
def reconciledRecord (now : ℕ) (t : Txid) (b : Burn) : PaidPegout :=
  ⟨t, none, b.value, b.script, b.height, now, [], some true⟩

/-- The burns the ledger does not have and the history names, recorded; and
whether any was. -/
def reconcileBurns (now : ℕ) (paid : Map Txid Txid) :
    List Burn → PegoutLedger → Bool → PegoutLedger × Bool
  | [], l, changed => (l, changed)
  | b :: burns, l, changed =>
    if burnKey b ∈ l.paid then reconcileBurns now paid burns l changed
    else
      match paid.lookup b.txid with
      | some t =>
        reconcileBurns now paid burns (l.markPaid (burnKey b) (reconciledRecord now t b)) true
      | none => reconcileBurns now paid burns l changed

/-- What a node's reconciliation reads. -/
structure ReconcileView where
  chainId : Bytes
  /-- The parent connected, and its answer about the wallet's transactions. -/
  parent : Option (Option (List (Txid × Transaction)))
  /-- Whether the settings name a peg wallet. -/
  wallet : Bool
  /-- The chain's burns. -/
  burns : List Burn
  now : ℕ

/-- The history the node reconciles with, when it has one. -/
def ReconcileView.sent (v : ReconcileView) : Option (List (Txid × Transaction)) :=
  if v.wallet then v.parent.join else none

/-- The node's reconciliation of the round's ledger: the ledger after it, and
what is written to `pegouts.json`. -/
def ReconcileView.reconcile (v : ReconcileView) (l : PegoutLedger) :
    PegoutLedger × Option PegoutLedger :=
  match v.sent with
  | none => (l, none)
  | some sent =>
    let after := reconcileBurns v.now (paidPegoutsIn v.chainId sent) v.burns l false
    (after.1, if after.2 then some after.1 else none)

/-- What the ledger has after a reconciliation: what it had, and a record for
each burn the history names. -/
theorem reconcileBurns_lookup (now : ℕ) (paid : Map Txid Txid) (key : BurnKey) :
    ∀ (burns : List Burn) (l : PegoutLedger) (changed : Bool),
    (reconcileBurns now paid burns l changed).1.paid.lookup key =
      (l.paid.lookup key).or ((burns.find? fun b => burnKey b == key).bind fun b =>
        (paid.lookup b.txid).map fun t => reconciledRecord now t b)
  | [], l, changed => (Option.or_none).symm
  | b :: burns, l, changed => by
    have ih := reconcileBurns_lookup now paid key burns
    unfold reconcileBurns
    by_cases hkey : burnKey b = key
    · rw [List.find?_cons_of_pos (by rw [hkey, beq_self_eq_true])]
      by_cases hmem : burnKey b ∈ l.paid
      · obtain ⟨p, hp⟩ := Finmap.mem_iff.mp (hkey ▸ hmem)
        rw [if_pos hmem, ih, hp, Option.some_or, Option.some_or]
      · have hnone : l.paid.lookup key = none := Finmap.lookup_eq_none.mpr (hkey ▸ hmem)
        rw [if_neg hmem, hnone, Option.none_or]
        show _ = (paid.lookup b.txid).map fun t => reconciledRecord now t b
        cases ht : paid.lookup b.txid with
        | none =>
          -- no burn of the key has another transaction
          show (reconcileBurns now paid burns l changed).1.paid.lookup key = none
          rw [ih, hnone, Option.none_or]
          cases hf : burns.find? fun b => burnKey b == key with
          | none => rfl
          | some b' =>
            have hb' := List.find?_some hf
            rw [beq_iff_eq, ← hkey] at hb'
            have htxid : b'.txid = b.txid := congrArg Prod.fst hb'
            show (paid.lookup b'.txid).map _ = none
            rw [htxid, ht]
            rfl
        | some t =>
          show (reconcileBurns now paid burns _ true).1.paid.lookup key = _
          rw [ih]
          unfold PegoutLedger.markPaid
          rw [hkey, Finmap.lookup_insert, Option.some_or]
          rfl
    · rw [List.find?_cons_of_neg (by simpa using hkey)]
      by_cases hmem : burnKey b ∈ l.paid
      · rw [if_pos hmem, ih]
      · rw [if_neg hmem]
        cases ht : paid.lookup b.txid with
        | none => exact ih l changed
        | some t =>
          show (reconcileBurns now paid burns _ true).1.paid.lookup key = _
          rw [ih]
          unfold PegoutLedger.markPaid
          rw [Finmap.lookup_insert_of_ne _ (Ne.symm hkey)]

/-! ### A payment for every burn -/

/-- The burns of the list the ledger has as paid, with their payments. -/
def discharged (burns : List Burn) (l : PegoutLedger) : List (Burn × Txid) :=
  burns.filterMap fun b => (l.paid.lookup (burnKey b)).map fun p => (b, p.parentTxid)

/-- The burns newly marked paid have payments of their own: the history has a
transaction that pays each of them, and none of them shares its payment with
another output of its transaction. -/
structure OwnPayments (chainId : Bytes) (sent : List (Txid × Transaction))
    (marked all : List (Burn × Txid)) : Prop where
  payment : ∀ d ∈ marked, ∃ p ∈ sent, paysBurn chainId p.2 d.1 = true
  apart : ∀ d ∈ marked, ∀ d' ∈ all, d'.1.txid = d.1.txid → d'.1.vout ≠ d.1.vout → d'.2 ≠ d.2

/-- A burn that is not in the ledger and whose transaction the history names is
paid by a transaction of the history, and every other burn of its transaction
is in the ledger with another payment than the last that names it. -/
def PaidApart (chainId : Bytes) (sent : List (Txid × Transaction)) (burns : List Burn)
    (l : PegoutLedger) : Prop :=
  ∀ b ∈ burns, burnKey b ∉ l.paid → ∀ t, lastNaming chainId sent b.txid = some t →
    (∃ p ∈ sent, paysBurn chainId p.2 b = true) ∧
      ∀ b' ∈ burns, b'.txid = b.txid → b'.vout ≠ b.vout →
        ∃ r, l.paid.lookup (burnKey b') = some r ∧ r.parentTxid ≠ t

theorem mem_discharged {burns : List Burn} {l : PegoutLedger} {b : Burn} {t : Txid} :
    (b, t) ∈ discharged burns l ↔
      b ∈ burns ∧ ∃ r, l.paid.lookup (burnKey b) = some r ∧ r.parentTxid = t := by
  unfold discharged
  rw [List.mem_filterMap]
  constructor
  · rintro ⟨b', hb', h⟩
    obtain ⟨r, hr, h⟩ := Option.map_eq_some_iff.mp h
    cases h
    exact ⟨hb', r, hr, rfl⟩
  · rintro ⟨hb, r, hr, rfl⟩
    refine ⟨b, hb, ?_⟩
    rw [hr]
    rfl

/-- The newly marked burns: those the ledger did not have. -/
def newly (l : PegoutLedger) (all : List (Burn × Txid)) : List (Burn × Txid) :=
  all.filter fun d => burnKey d.1 ∉ l.paid

variable {chainId : Bytes} {sent : List (Txid × Transaction)} {burns : List Burn}

/-- A burn of the list after a reconciliation: as it was, or newly marked with
the last transaction that names its own. -/
theorem mem_discharged_reconcileBurns {now : ℕ} {l : PegoutLedger} {changed : Bool} {b : Burn}
    {t : Txid} : (b, t) ∈ discharged burns
        (reconcileBurns now (paidPegoutsIn chainId sent) burns l changed).1 ↔
      (b, t) ∈ discharged burns l ∨
        (b ∈ burns ∧ burnKey b ∉ l.paid ∧ lastNaming chainId sent b.txid = some t) := by
  rw [mem_discharged, mem_discharged]
  by_cases hmem : burnKey b ∈ l.paid
  · obtain ⟨r, hr⟩ := Finmap.mem_iff.mp hmem
    simp only [reconcileBurns_lookup, hr, Option.some_or, hmem, not_true_eq_false, false_and,
      and_false, or_false]
  · have hnone : l.paid.lookup (burnKey b) = none := Finmap.lookup_eq_none.mpr hmem
    simp only [reconcileBurns_lookup, hnone, Option.none_or, reduceCtorEq, false_and,
      exists_false, and_false, false_or]
    constructor
    · rintro ⟨hb, r, hr, rfl⟩
      obtain ⟨b', hf, hr⟩ := Option.bind_eq_some_iff.mp hr
      obtain ⟨t, ht, rfl⟩ := Option.map_eq_some_iff.mp hr
      have hkey := List.find?_some hf
      rw [beq_iff_eq] at hkey
      have htxid : b'.txid = b.txid := congrArg Prod.fst hkey
      rw [htxid, lookup_paidPegoutsIn] at ht
      exact ⟨hb, hmem, ht⟩
    · rintro ⟨hb, -, ht⟩
      refine ⟨hb, ?_⟩
      have hsome : (burns.find? fun b' => burnKey b' == burnKey b).isSome = true :=
        List.find?_isSome.mpr ⟨b, hb, beq_self_eq_true _⟩
      obtain ⟨b', hf⟩ := Option.isSome_iff_exists.mp hsome
      have hkey := List.find?_some hf
      rw [beq_iff_eq] at hkey
      have htxid : b'.txid = b.txid := congrArg Prod.fst hkey
      rw [hf]
      show ∃ r, (((paidPegoutsIn chainId sent).lookup b'.txid).map _) = some r ∧ _
      rw [htxid, lookup_paidPegoutsIn, ht]
      exact ⟨_, rfl, rfl⟩

/-- A burn is newly marked by a reconciliation when the ledger did not have it
and the history names its transaction. -/
theorem mem_newly {now : ℕ} {l : PegoutLedger} {changed : Bool} {b : Burn} {t : Txid} :
    (b, t) ∈ newly l (discharged burns
        (reconcileBurns now (paidPegoutsIn chainId sent) burns l changed).1) ↔
      b ∈ burns ∧ burnKey b ∉ l.paid ∧ lastNaming chainId sent b.txid = some t := by
  unfold newly
  rw [List.mem_filter, mem_discharged_reconcileBurns, mem_discharged, decide_eq_true_iff]
  constructor
  · rintro ⟨⟨-, r, hr, -⟩ | h, hmem⟩
    · exact absurd (Finmap.mem_of_lookup_eq_some hr) hmem
    · exact h
  · intro h
    exact ⟨Or.inr h, h.2.1⟩

/-- The node's reconciliation gives every burn it marks its own payment exactly
when the burns it marks are paid apart. -/
theorem ownPayments_reconcileBurns (now : ℕ) (l : PegoutLedger) (changed : Bool)
    {after : List (Burn × Txid)} (hafter : discharged burns
      (reconcileBurns now (paidPegoutsIn chainId sent) burns l changed).1 = after) :
    OwnPayments chainId sent (newly l after) after ↔ PaidApart chainId sent burns l := by
  subst hafter
  constructor
  · intro h b hb hmem t ht
    have hnew : (b, t) ∈ newly l (discharged burns
        (reconcileBurns now (paidPegoutsIn chainId sent) burns l changed).1) :=
      mem_newly.mpr ⟨hb, hmem, ht⟩
    refine ⟨h.payment _ hnew, fun b' hb' htxid hvout => ?_⟩
    have hapart : ∀ t', (b', t') ∈ discharged burns
        (reconcileBurns now (paidPegoutsIn chainId sent) burns l changed).1 → t' ≠ t :=
      fun t' hd => h.apart _ hnew _ hd htxid hvout
    by_cases hmem' : burnKey b' ∈ l.paid
    · obtain ⟨r, hr⟩ := Finmap.mem_iff.mp hmem'
      have hold := mem_discharged.mpr ⟨hb', r, hr, rfl⟩
      exact ⟨r, hr, hapart _ (mem_discharged_reconcileBurns.mpr (Or.inl hold))⟩
    · -- the other burn would be marked with the same payment
      have ht' : lastNaming chainId sent b'.txid = some t := by
        rw [htxid]
        exact ht
      exact absurd rfl (hapart t (mem_discharged_reconcileBurns.mpr (Or.inr ⟨hb', hmem', ht'⟩)))
  · intro h
    constructor
    · rintro ⟨b, t⟩ hd
      obtain ⟨hb, hmem, ht⟩ := mem_newly.mp hd
      exact (h b hb hmem t ht).1
    · rintro ⟨b, t⟩ hd ⟨b', t'⟩ hd' htxid hvout
      obtain ⟨hb, hmem, ht⟩ := mem_newly.mp hd
      have hb' := (mem_discharged.mp hd').1
      obtain ⟨r, hr, hne⟩ := (h b hb hmem t ht).2 b' hb' htxid hvout
      rcases mem_discharged_reconcileBurns.mp hd' with hold | ⟨-, hmem', -⟩
      · obtain ⟨-, r', hr', rfl⟩ := mem_discharged.mp hold
        rw [hr] at hr'
        cases hr'
        exact hne
      · exact absurd (Finmap.mem_of_lookup_eq_some hr) hmem'

/-! ### Both reconciliations -/

/-- Own payments are a matter of which pairs the two lists have. -/
theorem OwnPayments.congr {marked all marked' all' : List (Burn × Txid)}
    (hm : ∀ d, d ∈ marked ↔ d ∈ marked') (ha : ∀ d, d ∈ all ↔ d ∈ all') :
    OwnPayments chainId sent marked all ↔ OwnPayments chainId sent marked' all' := by
  constructor
  · intro h
    exact ⟨fun d hd => h.payment d ((hm d).mpr hd),
      fun d hd d' hd' => h.apart d ((hm d).mpr hd) d' ((ha d').mpr hd')⟩
  · intro h
    exact ⟨fun d hd => h.payment d ((hm d).mp hd),
      fun d hd d' hd' => h.apart d ((hm d).mp hd) d' ((ha d').mp hd')⟩

/-- Pairing the burns with the history is reconciling the empty ledger with it. -/
theorem ownPayments_reconcile :
    OwnPayments chainId sent (reconcile burns (paidPegoutsIn chainId sent)).paid
        (reconcile burns (paidPegoutsIn chainId sent)).paid ↔
      PaidApart chainId sent burns ⟨∅⟩ := by
  rw [← ownPayments_reconcileBurns 0 ⟨∅⟩ false rfl]
  have hempty : ∀ b, burnKey b ∉ (∅ : Map BurnKey PaidPegout) := fun b => Finmap.notMem_empty
  refine OwnPayments.congr (fun ⟨b, t⟩ => ?_) (fun ⟨b, t⟩ => ?_)
  · rw [mem_paid, mem_newly]
    constructor
    · rintro ⟨hb, ht⟩
      exact ⟨hb, hempty b, ht⟩
    · rintro ⟨hb, -, ht⟩
      exact ⟨hb, ht⟩
  · rw [mem_paid, mem_discharged_reconcileBurns, mem_discharged]
    constructor
    · rintro ⟨hb, ht⟩
      exact Or.inr ⟨hb, hempty b, ht⟩
    · rintro (⟨-, r, hr, -⟩ | ⟨hb, -, ht⟩)
      · exact absurd (Finmap.mem_of_lookup_eq_some hr) (hempty b)
      · exact ⟨hb, ht⟩

/-- A node that has no history to reconcile with marks nothing. -/
theorem newly_self (l : PegoutLedger) : newly l (discharged burns l) = [] := by
  unfold newly
  refine List.filter_eq_nil_iff.mpr fun ⟨b, t⟩ hd hmem => ?_
  obtain ⟨-, r, hr, -⟩ := mem_discharged.mp hd
  exact of_decide_eq_true hmem (Finmap.mem_of_lookup_eq_some hr)

theorem ownPayments_node (v : ReconcileView) (l : PegoutLedger) :
    OwnPayments v.chainId (v.sent.getD [])
        (newly l (discharged v.burns (v.reconcile l).1)) (discharged v.burns (v.reconcile l).1) ↔
      PaidApart v.chainId (v.sent.getD []) v.burns l := by
  unfold ReconcileView.reconcile
  cases hs : v.sent with
  | none =>
    show OwnPayments v.chainId [] (newly l (discharged v.burns l)) (discharged v.burns l) ↔
      PaidApart v.chainId [] v.burns l
    rw [newly_self]
    constructor
    · intro _ b _ _ t ht
      cases ht
    · intro _
      exact ⟨List.forall_mem_nil _, List.forall_mem_nil _⟩
  | some sent => exact ownPayments_reconcileBurns v.now l false rfl

/-- Two burns of one sidechain transaction, to two scripts. -/
def twinBurns : List Burn :=
  [⟨7, 0, ascii ['5', '1', '5', '1'], 20000, 3⟩, ⟨7, 1, ascii ['5', '2', '5', '2'], 50000, 3⟩]

/-- The parent's payment of the first of them. -/
def twinPayment : Transaction where
  version := 2
  lockTime := 0
  input := []
  output := [⟨20000, [0x51, 0x51]⟩, ⟨0, opReturn (pegoutMarkerData (ascii ['d']) 7)⟩]

end Round

end Sidestr
