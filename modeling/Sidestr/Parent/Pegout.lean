/-
# Peg-outs on the parent

A burn on the chain is owed a payment on the parent (`parent.rs`). The paying
transaction has an output to the burn's script for its value and a record of
the burn, which names the sidechain transaction and not the output of it. The
peg wallet's history is read for these records, and a burn counts as paid when
its transaction is named by one.

Key definitions: `pegoutMarkerData`, `parsePegoutMarker`, `paidPegoutsIn`,
`reconcile`, `paysBurn`, `lastNaming`.
Key theorems: `parsePegoutMarker_pegoutMarkerData`, `lookup_paidPegoutsIn`, `mem_paid`.
-/
import Sidestr.Lib.Map
import Sidestr.Core.Text

namespace Sidestr

namespace Parent

/-! ### The record of a payment -/

/-- `pegout:<chain id>:`, the text every record for a chain starts with. -/
def pegoutRecordTag (chainId : Bytes) : Bytes := pegoutTag ++ chainId ++ [0x3a]

/-- The parent transaction's record of a paid burn: the tag, then the sidechain
txid as 32 raw bytes. -/
def pegoutMarkerData (chainId : Bytes) (sideTxid : Txid) : Bytes :=
  pegoutRecordTag chainId ++ displayBytes sideTxid

/-- The sidechain txid a parent record names for this chain. -/
def parsePegoutMarker (script : Bytes) (chainId : Bytes) : Option Txid := do
  let d ← opReturnData script
  let rest ← stripPrefix (pegoutRecordTag chainId) d
  if rest.length = 32 then some (BitVec.ofNat 256 (beNat rest)) else none

/-- A record that fits one push of 255 bytes reads back. -/
theorem parsePegoutMarker_pegoutMarkerData {chainId : Bytes} (sideTxid : Txid)
    (h : (pegoutMarkerData chainId sideTxid).length ≤ 255) :
    parsePegoutMarker (opReturn (pegoutMarkerData chainId sideTxid)) chainId = some sideTxid := by
  unfold parsePegoutMarker
  rw [opReturnData_opReturn h]
  show (stripPrefix _ (pegoutMarkerData chainId sideTxid) >>= _) = _
  unfold pegoutMarkerData
  rw [stripPrefix_append]
  have hlen := length_displayBytes sideTxid
  show (if (displayBytes sideTxid).length = 32 then
    some (BitVec.ofNat 256 (beNat (displayBytes sideTxid))) else none) = _
  rw [if_pos hlen, ofNat_displayBytes]

/-! ### What the history shows paid -/

variable (chainId : Bytes)

/-- A transaction's outputs recorded for the chain, into the map so far. -/
def recordOutputs (parentTxid : Txid) : List TxOut → Map Txid Txid → Map Txid Txid
  | [], paid => paid
  | o :: outs, paid =>
    match parsePegoutMarker o.scriptPubkey chainId with
    | some side => recordOutputs parentTxid outs (paid.insert side parentTxid)
    | none => recordOutputs parentTxid outs paid

/-- Every burn the peg wallet has already paid, from the wallet's own
transactions: sidechain txid to parent txid. -/
def paidPegoutsIn (txs : List (Txid × Transaction)) : Map Txid Txid :=
  txs.foldl (fun paid p => recordOutputs chainId p.1 p.2.output paid) ∅

/-- Burns paired with their parent payments, and burns still owed. -/
structure Reconciled where
  paid : List (Burn × Txid)
  outstanding : List Burn

/-- The chain's burns paired with the payments made; the others oldest first. -/
def reconcile (burns : List Burn) (paid : Map Txid Txid) : Reconciled where
  paid := burns.filterMap fun b => (paid.lookup b.txid).map fun t => (b, t)
  outstanding := (burns.filter fun b => (paid.lookup b.txid).isNone).mergeSort
    fun a b => a.height ≤ b.height

/-! ### What a history says of a burn -/

/-- A record in the transaction names the sidechain transaction. -/
def namesSide (tx : Transaction) (side : Txid) : Bool :=
  tx.output.any fun o => parsePegoutMarker o.scriptPubkey chainId == some side

/-- The transaction pays the burn: its value to its script, and a record that
names its transaction. -/
def paysBurn (tx : Transaction) (b : Burn) : Bool :=
  namesSide chainId tx b.txid &&
    tx.output.any fun o => some o.scriptPubkey == hexDecode b.script && o.value.toNat == b.value

/-- The last transaction of the history with a record that names the sidechain
transaction. -/
def lastNaming (txs : List (Txid × Transaction)) (side : Txid) : Option Txid :=
  ((txs.filter fun p => namesSide chainId p.2 side).getLast?).map Prod.fst

variable {chainId}

theorem namesSide_of_paysBurn {tx : Transaction} {b : Burn} (h : paysBurn chainId tx b = true) :
    namesSide chainId tx b.txid = true :=
  (Bool.and_eq_true_iff.mp h).1

/-- Recording a transaction's outputs sets what they name and keeps the rest. -/
theorem lookup_recordOutputs (t : Txid) (side : Txid) : ∀ (outs : List TxOut)
    (paid : Map Txid Txid), (recordOutputs chainId t outs paid).lookup side =
      if outs.any fun o => parsePegoutMarker o.scriptPubkey chainId == some side then some t
      else paid.lookup side
  | [], paid => rfl
  | o :: outs, paid => by
    unfold recordOutputs
    rw [List.any_cons]
    cases ho : parsePegoutMarker o.scriptPubkey chainId with
    | none =>
      show (recordOutputs chainId t outs paid).lookup side = _
      rw [lookup_recordOutputs t side outs paid]
      rfl
    | some s =>
      show (recordOutputs chainId t outs (paid.insert s t)).lookup side = _
      rw [lookup_recordOutputs t side outs _]
      by_cases hs : side = s
      · rw [hs, Finmap.lookup_insert, beq_self_eq_true, Bool.true_or, if_pos rfl, ite_self]
      · have hne : (some s == some side) = false := by
          rw [beq_eq_false_iff_ne]
          intro h
          exact hs (Option.some.inj h).symm
        rw [Finmap.lookup_insert_of_ne _ hs, hne, Bool.false_or]

/-- The map of the paid burns has, for each sidechain transaction, the last
transaction of the history that names it. -/
theorem lookup_paidPegoutsIn (side : Txid) (txs : List (Txid × Transaction)) :
    (paidPegoutsIn chainId txs).lookup side = lastNaming chainId txs side := by
  unfold paidPegoutsIn
  induction txs using List.reverseRecOn with
  | nil => rfl
  | append_singleton txs p ih =>
    rw [List.foldl_append, List.foldl_cons, List.foldl_nil, lookup_recordOutputs, ih]
    show (if namesSide chainId p.2 side = true then _ else _) = _
    unfold lastNaming
    rw [List.filter_append]
    by_cases hp : namesSide chainId p.2 side = true
    · rw [if_pos hp, List.filter_singleton, hp]
      simp
    · have hf : namesSide chainId p.2 side = false := by simpa using hp
      rw [if_neg hp, List.filter_singleton, hf]
      simp

theorem mem_of_lastNaming {txs : List (Txid × Transaction)} {side t : Txid}
    (h : lastNaming chainId txs side = some t) :
    ∃ tx, (t, tx) ∈ txs ∧ namesSide chainId tx side = true := by
  unfold lastNaming at h
  obtain ⟨⟨t', tx⟩, hlast, rfl⟩ := Option.map_eq_some_iff.mp h
  have hmem := List.mem_filter.mp (List.mem_of_getLast? hlast)
  exact ⟨tx, hmem.1, hmem.2⟩

/-- A sidechain transaction that some transaction names has a last one naming it. -/
theorem lastNaming_isSome {txs : List (Txid × Transaction)} {side t : Txid} {tx : Transaction}
    (hmem : (t, tx) ∈ txs) (h : namesSide chainId tx side = true) :
    ∃ t', lastNaming chainId txs side = some t' := by
  have hne : txs.filter (fun p => namesSide chainId p.2 side) ≠ [] :=
    List.ne_nil_of_mem (List.mem_filter.mpr ⟨hmem, h⟩)
  unfold lastNaming
  rw [List.getLast?_eq_some_getLast hne]
  exact ⟨_, rfl⟩

/-- The burns paid, with the last transaction of the history that names theirs. -/
theorem mem_paid {burns : List Burn} {txs : List (Txid × Transaction)} {b : Burn} {t : Txid} :
    (b, t) ∈ (reconcile burns (paidPegoutsIn chainId txs)).paid ↔
      b ∈ burns ∧ lastNaming chainId txs b.txid = some t := by
  unfold reconcile
  rw [List.mem_filterMap]
  constructor
  · rintro ⟨b', hb', h⟩
    obtain ⟨t', ht', h⟩ := Option.map_eq_some_iff.mp h
    cases h
    exact ⟨hb', (lookup_paidPegoutsIn _ _).symm.trans ht'⟩
  · rintro ⟨hb, ht⟩
    refine ⟨b, hb, ?_⟩
    rw [lookup_paidPegoutsIn, ht]
    rfl

/-- No burn is lost: each one is paid or owed. -/
theorem paid_or_outstanding {burns : List Burn} {paid : Map Txid Txid} {b : Burn}
    (h : b ∈ burns) :
    (∃ t, (b, t) ∈ (reconcile burns paid).paid) ∨ b ∈ (reconcile burns paid).outstanding := by
  unfold reconcile
  cases hl : paid.lookup b.txid with
  | none =>
    right
    refine List.mem_mergeSort.mpr (List.mem_filter.mpr ⟨h, ?_⟩)
    rw [hl]
    rfl
  | some t =>
    left
    refine ⟨t, List.mem_filterMap.mpr ⟨b, h, ?_⟩⟩
    rw [hl]
    rfl

end Parent

end Sidestr
