/-
# The assets rule

What each unspent output carries, one transaction at a time (`assets.rs`). A
transaction's tallies assign amounts of assets to its outputs; for each asset
they may assign at most what its inputs carry, unless the transaction issues
the asset, or a policy waives the check because another rule accounts for the
mint. What is not assigned onward is destroyed.

`AssetsHeld` is the rule's own state: the view the applied blocks leave, and
the views and traces of the candidate blocks judged since, by block hash.

The facts later modules use are about totals: `checkInner_ok` bounds what a
transaction's outputs carry of an asset, and `total_applyTx_le` what the
transaction does to the total of the view.

Key definitions: `AssetView`, `AssetView.checkInner`, `AssetView.applyTx`,
`assetCandidate`, `AssetsHeld`.
Key theorems: `checkInner_ok`, `total_applyTx_le`.
-/
import Sidestr.Lib.Map
import Sidestr.Core.Block
import Sidestr.Core.Records

namespace Sidestr

/-- What one output carries: asset ids with their amounts. -/
abbrev Carry := List (Txid × ℕ)

/-- The amount of an asset a carry holds. -/
def Carry.amount (c : Carry) (asset : Txid) : ℕ := (c.lookup asset).getD 0

/-- Set the amount of an asset. -/
def Carry.set (c : Carry) (asset : Txid) (n : ℕ) : Carry :=
  (asset, n) :: c.filter fun p => p.1 != asset

/-- An issued asset. -/
structure Issued where
  ticker : Bytes
  decimals : ℕ
  height : ℕ
  /-- What `tally:self:` assigned. -/
  supply : ℕ
  /-- The market this asset is an outcome of. -/
  market : Option Txid

/-- What each unspent output carries, and the assets that exist. -/
structure AssetView where
  carried : Map OutPoint Carry := ∅
  issued : Map Txid Issued := ∅

/-- What the inputs of a transaction carried, by outpoint, and what its
outputs carry, by index. -/
structure AssetTrace where
  inputs : Map OutPoint Carry := ∅
  outputs : Map ℕ Carry := ∅

/-- Whether an asset may be created by a transaction with these records. -/
abbrev AssetMintPolicy := Txid → Txid → Classified → Bool

/-- The amount of an asset the entries of a map of carries hold together. -/
def heldIn {K : Type} (m : Map K Carry) (asset : Txid) : ℕ := Map.total (fun _ c => c.amount asset) m

/-- The total of an asset over the unspent outputs. -/
def AssetView.total (v : AssetView) (asset : Txid) : ℕ := heldIn v.carried asset

/-! ### The check -/

section

variable [Bitcoin]

/-- What a transaction's inputs carry of an asset, added up. -/
def AssetView.carriedIn (v : AssetView) (tx : Transaction) (asset : Txid) : ℕ :=
  Word.satSum 64 0 (tx.input.map fun i =>
    Map.at' (fun _ c => c.amount asset) v.carried i.previousOutput)

/-- The state of the loop over the tallies: what each output carries so far,
and the sum assigned of each asset seen. -/
structure TallyScan where
  out : Map ℕ Carry := ∅
  assigned : List (Txid × ℕ) := []

omit [Bitcoin] in
/-- One assignment of a tally: the output exists, can be spent and has a value. -/
def assignOutput (tx : Transaction) (asset : Txid) (st : Map ℕ Carry × ℕ) (p : ℕ × ℕ) :
    Res String (Map ℕ Carry × ℕ) := do
  let (vout, amount) := p
  let o ← Res.okOr "tally names an output which does not exist" tx.output[vout]?
  Res.refuseIf (isOpReturn o.scriptPubkey) "tally names an OP_RETURN"
  Res.refuseIf (o.sats < 1) "tally names an output which has no value"
  let carry := Carry.set ((st.1.lookup vout).getD []) asset amount
  let sum ← Res.okOr "a tally's sum overflows" (Word.checkedAdd 64 st.2 amount)
  .ok (st.1.insert vout carry, sum)

omit [Bitcoin] in
/-- The asset a tally names. -/
def tallyAsset (txid : Txid) (cls : Classified) (t : Tally) : Res String Txid :=
  match t.asset with
  | .selfTx =>
    if cls.issues.isEmpty && !cls.opensPool then .err "tally:self without issue: or pool:self:"
    else .ok txid
  | .id id => .ok id

omit [Bitcoin] in
/-- One tally: an asset not tallied before, each of its assignments. -/
def scanTally (tx : Transaction) (txid : Txid) (cls : Classified) (st : TallyScan) (t : ℕ × Tally) :
    Res String TallyScan := do
  let asset ← tallyAsset txid cls t.2
  Res.refuseIf (st.assigned.any fun p => p.1 == asset) "asset tallied twice"
  let (out, sum) ← Res.foldlM (assignOutput tx asset) (st.out, 0) t.2.assigns
  .ok ⟨out, st.assigned ++ [(asset, sum)]⟩

/-- One transaction against the view: what each of its outputs would carry. -/
def AssetView.checkInner (v : AssetView) (policy : AssetMintPolicy) (tx : Transaction) :
    Res String (Map ℕ Carry) := do
  let txid := Bitcoin.computeTxid tx
  let cls := classify tx
  Res.refuseIf (!cls.bad.isEmpty) "malformed record"
  Res.refuseIf (1 < cls.issues.length) "at most one issue: per transaction"
  Res.refuseIf (!cls.issues.isEmpty && cls.opensPool)
    "a transaction that opens a pool does not issue"
  let scan ← Res.foldlM (scanTally tx txid cls) {} cls.tallies
  Res.refuseIf (!scan.assigned.all fun (asset, n) =>
      (asset == txid && !cls.issues.isEmpty) || policy asset txid cls ||
        n ≤ v.carriedIn tx asset)
    "assigns more than it carries"
  .ok scan.out

/-! ### The change -/

omit [Bitcoin] in
/-- The entries of what the outputs carry, in order of their index. -/
def outEntries (tx : Transaction) (out : Map ℕ Carry) : List (ℕ × Carry) :=
  (List.range tx.output.length).filterMap fun v => (out.lookup v).map fun c => (v, c)

/-- The view after one transaction, and how it was read: a transaction that
breaks the rule spends its inputs and its outputs carry nothing. -/
def AssetView.applyTx (policy : AssetMintPolicy) (height : ℕ) (v : AssetView) (tx : Transaction) :
    AssetView × Res String (Map ℕ Carry) :=
  let txid := Bitcoin.computeTxid tx
  let result := v.checkInner policy tx
  let carried := Map.eraseAll (tx.input.map TxIn.previousOutput) v.carried
  match result with
  | .ok out =>
    let carried := Map.insertAll ((outEntries tx out).map fun p => (outPointAt txid p.1, p.2)) carried
    match (classify tx).issues with
    | [] => ({ v with carried }, result)
    | (_, issue) :: _ =>
      let supply := heldIn out txid
      ({ carried, issued := v.issued.insert txid
          ⟨issue.ticker, issue.decimals, height, supply, none⟩ }, result)
  | _ => ({ v with carried }, result)

/-- The view after a block's transactions, the coinbase first, and how each of
the others was read. -/
def AssetView.applyTransactions (policy : AssetMintPolicy) (height : ℕ) :
    AssetView → List (Transaction × ℕ) → AssetView × List (Res String (Map ℕ Carry))
  | v, [] => (v, [])
  | v, (tx, i) :: txs =>
    if i = 0 ∧ isCoinbase tx then v.applyTransactions policy height txs
    else
      let (v, r) := v.applyTx policy height tx
      let (v, rs) := v.applyTransactions policy height txs
      (v, r :: rs)

/-! ### The rule -/

omit [Bitcoin] in
/-- What the inputs of a transaction carry, by outpoint. -/
def AssetView.traceInputs (v : AssetView) (tx : Transaction) : Map OutPoint Carry :=
  Map.restrict (tx.input.map TxIn.previousOutput) v.carried

/-- One transaction of a candidate block. A transaction after the first is
read alone: of a coinbase-shaped one there is no reading to take. -/
def candidateTx (policy : AssetMintPolicy) (height : ℕ) (st : AssetView × List AssetTrace)
    (p : Transaction × ℕ) : Res String (AssetView × List AssetTrace) :=
  let (tx, index) := p
  let inputs := st.1.traceInputs tx
  if index = 0 ∧ isCoinbase tx then .ok (st.1, st.2 ++ [⟨inputs, ∅⟩])
  else do
    let (next, outcomes) := st.1.applyTransactions policy height [(tx, 0)]
    let outcome ← Res.expect outcomes.head?
    let out ← outcome
    .ok (next, st.2 ++ [⟨inputs, out⟩])

/-- A coinbase that carries no asset records. -/
def coinbaseClean (tx : Transaction) : Bool :=
  let cls := classify tx
  cls.issues.isEmpty && cls.tallies.isEmpty && cls.bad.isEmpty

/-- The view a block leaves and the trace of each of its transactions, or why
it breaks the rule. -/
def assetCandidate (policy : AssetMintPolicy) (view : AssetView) (txdata : List Transaction)
    (height : ℕ) : Res String (AssetView × List AssetTrace) := do
  Res.refuseIf (txdata.head?.any fun cb => !coinbaseClean cb) "the coinbase carries no records"
  Res.foldlM (candidateTx policy height) (view, []) txdata.zipIdx

/-- The rule's state: the view of the applied blocks, and the views and traces
of candidate blocks until one is applied. -/
structure AssetsHeld where
  view : AssetView := {}
  pending : List (BlockHash × AssetView × List AssetTrace) := []

/-- Judge a candidate and keep what it would leave. -/
def AssetsHeld.check (held : AssetsHeld) (policy : AssetMintPolicy) (hash : BlockHash)
    (txdata : List Transaction) (height : ℕ) : Res Error (Option Bool × AssetsHeld) :=
  match assetCandidate policy held.view txdata height with
  | .ok (next, traces) =>
    .ok (some true, { held with
      pending := held.pending.filter (fun p => p.1 != hash) ++ [(hash, next, traces)] })
  | .err _ => .ok (some false, held)
  | .panic => .panic

/-- The traces kept for a candidate. -/
def AssetsHeld.trace (held : AssetsHeld) (hash : BlockHash) : Option (List AssetTrace) :=
  (held.pending.find? fun p => p.1 == hash).map fun p => p.2.2

/-- The block was applied: its view is the view. A block that was never
judged is read as any block. -/
def AssetsHeld.applied (held : AssetsHeld) (policy : AssetMintPolicy) (hash : BlockHash)
    (txdata : List Transaction) (height : ℕ) : AssetsHeld :=
  match held.pending.find? fun p => p.1 == hash with
  | some (_, view, _) => ⟨view, []⟩
  | none => ⟨(held.view.applyTransactions policy height txdata.zipIdx).1, []⟩

omit [Bitcoin] in
/-- The two outcome assets of a market, listed as issued. -/
def AssetsHeld.registerMarketAssets (held : AssetsHeld) (market no : Txid) (height : ℕ) :
    AssetsHeld :=
  let add (m : Map Txid Issued) (id : Txid) (ticker : Bytes) : Map Txid Issued :=
    if (m.lookup id).isSome then m else m.insert id ⟨ticker, 0, height, 0, some market⟩
  let issued := add held.view.issued market (ascii ['Y', 'E', 'S'])
  { held with view := { held.view with issued := add issued no (ascii ['N', 'O']) } }

/-! ### What a checked transaction assigns -/

omit [Bitcoin] in
theorem Carry.amount_set_self (c : Carry) (asset : Txid) (n : ℕ) :
    (c.set asset n).amount asset = n := by
  simp [Carry.set, Carry.amount]

omit [Bitcoin] in
theorem lookup_filter_ne {asset a : Txid} (h : a ≠ asset) : ∀ c : List (Txid × ℕ),
    (c.filter fun p => p.1 != asset).lookup a = c.lookup a
  | [] => rfl
  | (b, n) :: c => by
    by_cases hb : b = asset
    · subst hb
      have hab : (a == b) = false := by simpa using h
      simp [List.lookup_cons, hab, lookup_filter_ne h c]
    · simp [hb, List.lookup_cons, lookup_filter_ne h c]

omit [Bitcoin] in
theorem Carry.amount_set_of_ne (c : Carry) {asset a : Txid} (n : ℕ) (h : a ≠ asset) :
    (c.set asset n).amount a = c.amount a := by
  have hb : (a == asset) = false := by simpa using h
  simp [Carry.set, Carry.amount, List.lookup_cons, hb, lookup_filter_ne h]

omit [Bitcoin] in
theorem heldIn_set_of_ne {K : Type} [DecidableEq K] (m : Map K Carry) (k : K) {asset a : Txid}
    (n : ℕ) (h : a ≠ asset) :
    heldIn (m.insert k (Carry.set ((m.lookup k).getD []) asset n)) a = heldIn m a := by
  have ht := Map.total_insert (f := fun (_ : K) (c : Carry) => c.amount a) (m := m) (k := k)
    (v := Carry.set ((m.lookup k).getD []) asset n)
  rw [Carry.amount_set_of_ne _ _ h] at ht
  unfold heldIn
  cases hl : m.lookup k with
  | none =>
    rw [Map.at'_of_none hl] at ht
    simp only [hl, Option.getD_none, Carry.amount, List.lookup_nil] at ht ⊢
    omega
  | some c =>
    rw [Map.at'_of_lookup hl] at ht
    simp only [hl, Option.getD_some] at ht ⊢
    omega

omit [Bitcoin] in
theorem heldIn_set_le {K : Type} [DecidableEq K] (m : Map K Carry) (k : K) (asset : Txid) (n : ℕ) :
    heldIn (m.insert k (Carry.set ((m.lookup k).getD []) asset n)) asset ≤ heldIn m asset + n := by
  have ht := Map.total_insert_le (f := fun (_ : K) (c : Carry) => c.amount asset) (m := m) (k := k)
    (v := Carry.set ((m.lookup k).getD []) asset n)
  rw [Carry.amount_set_self] at ht
  exact ht

/-- Every amount in a map of carries is one a tally may assign. -/
def AmountsOk {K : Type} [DecidableEq K] (m : Map K Carry) : Prop :=
  ∀ k c, m.lookup k = some c → ∀ p ∈ c, 1 ≤ p.2 ∧ p.2 ≤ maxAmount

omit [Bitcoin] in
theorem AmountsOk.insert_set {K : Type} [DecidableEq K] {m : Map K Carry} (hm : AmountsOk m) (k : K)
    (asset : Txid) {n : ℕ} (hn : 1 ≤ n ∧ n ≤ maxAmount) :
    AmountsOk (m.insert k (Carry.set ((m.lookup k).getD []) asset n)) := by
  intro j c hj p hp
  by_cases hk : j = k
  · subst hk
    rw [Finmap.lookup_insert, Option.some.injEq] at hj
    subst hj
    rcases List.mem_cons.mp hp with rfl | hp
    · exact hn
    · cases hl : m.lookup j with
      | none => simp [hl] at hp
      | some c' =>
        simp only [hl, Option.getD_some, List.mem_filter] at hp
        exact hm j c' hl p hp.1
  · rw [Finmap.lookup_insert_of_ne _ hk] at hj
    exact hm j c hj p hp

omit [Bitcoin] in
theorem assignOutput_ok {tx : Transaction} {asset : Txid} {st st' : Map ℕ Carry × ℕ} {p : ℕ × ℕ}
    (h : assignOutput tx asset st p = .ok st') :
    st' = (st.1.insert p.1 (Carry.set ((st.1.lookup p.1).getD []) asset p.2), st.2 + p.2) ∧
      st.2 + p.2 ≤ Word.maxVal 64 := by
  simp only [assignOutput] at h
  obtain ⟨o, -, h⟩ := Res.bind_eq_ok.mp h
  obtain ⟨-, -, h⟩ := Res.bind_eq_ok.mp h
  obtain ⟨-, -, h⟩ := Res.bind_eq_ok.mp h
  obtain ⟨sum, hsum, h⟩ := Res.bind_eq_ok.mp h
  obtain ⟨rfl, hle⟩ := Word.checkedAdd_eq_some.mp (Res.okOr_eq_ok.mp hsum)
  simp only [Res.ok.injEq] at h
  exact ⟨h.symm, hle⟩

/-- What the assignments of one tally leave, over what was there. -/
structure Assigned (asset : Txid) (out : Map ℕ Carry) (st : Map ℕ Carry × ℕ) : Prop where
  others : ∀ a, a ≠ asset → heldIn st.1 a = heldIn out a
  own : heldIn st.1 asset ≤ heldIn out asset + st.2
  fits : st.2 ≤ Word.maxVal 64
  amounts : AmountsOk st.1

omit [Bitcoin] in
theorem assigned_of_loop {tx : Transaction} {asset : Txid} {out : Map ℕ Carry} {t : Tally}
    {st : Map ℕ Carry × ℕ} (ht : t.Positive) (hout : AmountsOk out)
    (h : Res.foldlM (assignOutput tx asset) (out, 0) t.assigns = .ok st) :
    Assigned asset out st := by
  apply Res.foldlM_ok_ind h
  · exact ⟨fun _ _ => rfl, by simp, Nat.zero_le _, hout⟩
  · intro s p s' hp hs hstep
    obtain ⟨rfl, hle⟩ := assignOutput_ok hstep
    refine ⟨fun a ha => ?_, ?_, hle, hs.amounts.insert_set _ _ (ht p hp)⟩
    · exact (heldIn_set_of_ne _ _ _ ha).trans (hs.others a ha)
    · have h1 := heldIn_set_le s.1 p.1 asset p.2
      have h2 := hs.own
      dsimp only
      omega

/-- The sum assigned of an asset. -/
def TallyScan.assignedOf (st : TallyScan) (asset : Txid) : ℕ := (st.assigned.lookup asset).getD 0

/-- What the loop over the tallies keeps: no output map holds more of an asset
than the sum assigned of it. -/
structure Tallied (st : TallyScan) : Prop where
  bound : ∀ a, heldIn st.out a ≤ st.assignedOf a
  fits : ∀ p ∈ st.assigned, p.2 ≤ Word.maxVal 64
  amounts : AmountsOk st.out

omit [Bitcoin] in
theorem lookup_append_single {l : List (Txid × ℕ)} {asset : Txid} {n : ℕ} (a : Txid) :
    (l ++ [(asset, n)]).lookup a =
      (l.lookup a).or (if a = asset then some n else none) := by
  induction l with
  | nil =>
    by_cases h : a = asset
    · simp [h]
    · have hb : (a == asset) = false := by simpa using h
      simp [List.lookup_cons, hb, h]
  | cons p l ih =>
    rw [List.cons_append, List.lookup_cons, List.lookup_cons]
    cases h : a == p.1
    · simpa using ih
    · rfl

omit [Bitcoin] in
/-- One tally keeps the bound: its asset is new, so its amounts are all there is of it. -/
theorem tallied_step {tx : Transaction} {txid : Txid} {cls : Classified} {st st' : TallyScan}
    {t : ℕ × Tally} (ht : t.2.Positive) (hs : Tallied st)
    (h : scanTally tx txid cls st t = .ok st') : Tallied st' := by
  simp only [scanTally] at h
  obtain ⟨asset, -, h⟩ := Res.bind_eq_ok.mp h
  obtain ⟨_, hseen, h⟩ := Res.bind_eq_ok.mp h
  obtain ⟨⟨out, sum⟩, hloop, h⟩ := Res.bind_eq_ok.mp h
  simp only [Res.ok.injEq] at h
  subst h
  have hnew : st.assigned.lookup asset = none := by
    rw [List.lookup_eq_none_iff]
    intro p hp
    have hne := List.any_eq_false.mp (Res.refuseIf_eq_ok.mp hseen) p hp
    rw [beq_iff_eq] at hne
    simpa using fun e => hne e.symm
  have hasg := assigned_of_loop ht hs.amounts hloop
  refine ⟨fun a => ?_, fun p hp => ?_, hasg.amounts⟩
  · by_cases ha : a = asset
    · subst ha
      have h1 := hasg.own
      have h2 := hs.bound a
      simp only [TallyScan.assignedOf, hnew, Option.getD_none, lookup_append_single, ↓reduceIte,
        Option.none_or, Option.getD_some] at h1 h2 ⊢
      omega
    · have h1 := hasg.others a ha
      have h2 := hs.bound a
      simp only [TallyScan.assignedOf, lookup_append_single, if_neg ha, Option.or_none] at h1 h2 ⊢
      omega
  · rcases List.mem_append.mp hp with hp | hp
    · exact hs.fits p hp
    · rw [List.mem_singleton] at hp
      rw [hp]
      exact hasg.fits

omit [Bitcoin] in
theorem mem_of_lookup {l : List (Txid × ℕ)} {a : Txid} {n : ℕ} (h : l.lookup a = some n) :
    (a, n) ∈ l := by
  induction l with
  | nil => simp at h
  | cons p l ih =>
    rw [List.lookup_cons] at h
    cases hp : a == p.1
    · simp only [hp] at h
      exact List.mem_cons_of_mem _ (ih h)
    · simp only [hp, Option.some.injEq] at h
      rw [beq_iff_eq] at hp
      subst hp
      subst h
      exact List.mem_cons_self

/-- What the outputs of a checked transaction carry: of each asset no more
than its inputs do, unless it issues the asset or the policy waives it. -/
structure Checked (v : AssetView) (policy : AssetMintPolicy) (tx : Transaction)
    (out : Map ℕ Carry) : Prop where
  bound : ∀ a, heldIn out a ≤ v.carriedIn tx a ∨
    (a = Bitcoin.computeTxid tx ∧ (classify tx).issues ≠ []) ∨
    policy a (Bitcoin.computeTxid tx) (classify tx) = true
  fits : ∀ a, heldIn out a ≤ Word.maxVal 64
  amounts : AmountsOk out
  noIssue : (classify tx).opensPool = true → (classify tx).issues = []

theorem checkInner_ok {v : AssetView} {policy : AssetMintPolicy} {tx : Transaction}
    {out : Map ℕ Carry} (h : v.checkInner policy tx = .ok out) : Checked v policy tx out := by
  simp only [AssetView.checkInner] at h
  obtain ⟨-, -, h⟩ := Res.bind_eq_ok.mp h
  obtain ⟨-, -, h⟩ := Res.bind_eq_ok.mp h
  obtain ⟨_, hopen, h⟩ := Res.bind_eq_ok.mp h
  obtain ⟨scan, hscan, h⟩ := Res.bind_eq_ok.mp h
  obtain ⟨_, hall, h⟩ := Res.bind_eq_ok.mp h
  simp only [Res.ok.injEq] at h
  subst h
  have hinv : Tallied scan := by
    apply Res.foldlM_ok_ind hscan
    · exact ⟨fun a => Nat.zero_le _, by simp, fun k c hk => by simp at hk⟩
    · intro s t s' ht hs hstep
      exact tallied_step ((classify_parsed tx).tallies t ht) hs hstep
  simp only [Res.refuseIf_eq_ok, Bool.not_eq_false', List.all_eq_true, Bool.or_eq_true,
    Bool.and_eq_true, beq_iff_eq, decide_eq_true_eq, Bool.not_eq_true', List.isEmpty_eq_false_iff]
    at hall
  refine ⟨fun a => ?_, fun a => ?_, hinv.amounts, fun ho => ?_⟩
  · have hb := hinv.bound a
    cases hl : scan.assigned.lookup a with
    | none =>
      simp only [TallyScan.assignedOf, hl, Option.getD_none] at hb
      exact .inl (by omega)
    | some n =>
      simp only [TallyScan.assignedOf, hl, Option.getD_some] at hb
      rcases hall _ (mem_of_lookup hl) with (h | h) | h
      · exact .inr (.inl h)
      · exact .inr (.inr h)
      · exact .inl (hb.trans h)
  · have hb := hinv.bound a
    cases hl : scan.assigned.lookup a with
    | none =>
      simp only [TallyScan.assignedOf, hl, Option.getD_none] at hb
      omega
    | some n =>
      simp only [TallyScan.assignedOf, hl, Option.getD_some] at hb
      exact hb.trans (hinv.fits _ (mem_of_lookup hl))
  · have := Res.refuseIf_eq_ok.mp hopen
    simpa [ho] using this

/-! ### What a transaction does to the totals -/

omit [Bitcoin] in
/-- What the inputs are read to carry is at most what they carry. -/
theorem carriedIn_le {v : AssetView} {tx : Transaction} (hn : (tx.input.map TxIn.previousOutput).Nodup)
    (a : Txid) : v.carriedIn tx a ≤ heldIn (v.traceInputs tx) a := by
  have h := Word.satSum_le (w := 64) (tx.input.map fun i =>
    Map.at' (fun _ (c : Carry) => c.amount a) v.carried i.previousOutput)
  unfold AssetView.carriedIn heldIn AssetView.traceInputs
  rw [Map.total_restrict hn, List.map_map]
  exact h

omit [Bitcoin] in
/-- The entries put into the view are those of the outputs. -/
theorem sum_outEntries_le (tx : Transaction) (out : Map ℕ Carry) (a : Txid) :
    ((outEntries tx out).map fun p => p.2.amount a).sum ≤ heldIn out a := by
  have hsum : ((outEntries tx out).map fun p => p.2.amount a).sum =
      ((List.range tx.output.length).map
        (Map.at' (fun _ (c : Carry) => c.amount a) out)).sum := by
    unfold outEntries
    induction List.range tx.output.length with
    | nil => rfl
    | cons k l ih =>
      rw [List.map_cons, List.sum_cons, List.filterMap_cons]
      cases hk : out.lookup k with
      | none => simp [Map.at'_of_none hk, ih]
      | some c => simp [Map.at'_of_lookup hk, ih]
  have ht := Map.total_eraseAll (f := fun _ (c : Carry) => c.amount a) (m := out)
    (List.nodup_range (n := tx.output.length))
  rw [hsum]
  unfold heldIn
  omega

/-- **One transaction and the total.** A transaction takes what its inputs
carry of an asset off the total and adds at most what its outputs carry. -/
theorem total_applyTx_le {policy : AssetMintPolicy} {height : ℕ} {v v' : AssetView}
    {tx : Transaction} {out : Map ℕ Carry} (hn : (tx.input.map TxIn.previousOutput).Nodup)
    (h : v.applyTx policy height tx = (v', .ok out)) (a : Txid) :
    v'.total a + heldIn (v.traceInputs tx) a ≤ v.total a + heldIn out a := by
  have hins := Map.total_insertAll_le (f := fun _ (c : Carry) => c.amount a)
    ((outEntries tx out).map fun p => (outPointAt (Bitcoin.computeTxid tx) p.1, p.2))
    (Map.eraseAll (tx.input.map TxIn.previousOutput) v.carried)
  have hout := sum_outEntries_le tx out a
  have hsplit := Map.total_restrict_add_eraseAll (f := fun _ (c : Carry) => c.amount a)
    (m := v.carried) hn
  simp only [List.map_map, Function.comp_def] at hins
  have hv' : v'.carried = Map.insertAll
      ((outEntries tx out).map fun p => (outPointAt (Bitcoin.computeTxid tx) p.1, p.2))
      (Map.eraseAll (tx.input.map TxIn.previousOutput) v.carried) := by
    simp only [AssetView.applyTx] at h
    cases hc : v.checkInner policy tx with
    | ok o =>
      simp only [hc] at h
      split at h
      · simp only [Prod.mk.injEq, Res.ok.injEq] at h
        rw [← h.1, h.2]
      · simp only [Prod.mk.injEq, Res.ok.injEq] at h
        rw [← h.1, h.2]
    | err e => simp [hc] at h
    | panic => simp [hc] at h
  unfold AssetView.total heldIn AssetView.traceInputs
  unfold heldIn at hout
  rw [hv']
  omega

end

end Sidestr
