/-
# Where validation panics

Every phase and every rule runs on a block whatever an earlier one said, so
each must survive a block that breaks all the others. On every state a run
reaches, with or without the overlay rules, `judge` panics on exactly three
kinds of blocks (`judge_eq_panic`):

* a block with no transactions: the context phase indexes the coinbase;
* under the assets rule, a block with a coinbase-shaped transaction after the
  first, when the transactions before it keep the rule (`SecondCoinbase`): the
  rule expects a reading of it that is not there;
* under the pool rule, in a build that checks for overflow, a block with a
  swap whose products do not fit 128 bits (`SwapOverflow`).

Every other index, `expect` and unreachable branch is in its domain, by what
the rules' state keeps over a run (`held_ok_of_chain`) and by how the spending
lists the resolved inputs (`scriptsOk_returns`).

Key definitions: `installed`, `SecondCoinbase`, `SwapOverflow`, `PanicBlock`.
Key theorems: `judge_eq_panic`, `validation_panics_iff`, `empty_block_panics`.
-/
import Sidestr.Core.OverlayState
import Sidestr.Core.Resolved
import Sidestr.Core.Sample

namespace Sidestr

section

variable [Bitcoin] {H : Type} [HeaderFamily H]

/-- The rules of a chain: none, or the overlay rules. -/
def installed (checks : Bool) : Option OverlayRules → List (BlockRule H Overlays)
  | none => []
  | some r => r.boxed checks

/-! ### The blocks that panic -/

/-- A coinbase-shaped transaction after transactions that keep the assets rule. -/
def SecondCoinbase (r : OverlayRules) (held : Overlays) (height : ℕ) (txdata : List Transaction) :
    Prop :=
  ∃ pre tx post a, txdata = pre ++ tx :: post ∧ pre ≠ [] ∧ isCoinbase tx = true ∧
    assetCandidate (mintPolicy r held) held.assets.view pre height = .ok a

/-- The traces the pool rule reads: those of this block, when it keeps the
assets rule, else those kept for an earlier candidate with its header. -/
def judgedTraces (r : OverlayRules) (held : Overlays) (hash : BlockHash) (height : ℕ)
    (txdata : List Transaction) : Option (List AssetTrace) :=
  match assetCandidate (mintPolicy r held) held.assets.view txdata height with
  | .ok a => some a.2
  | _ => held.assets.trace hash

/-- A swap whose products do not fit, after transactions that keep the pool
rule, in a build that checks for overflow. -/
def SwapOverflow (checks : Bool) (r : OverlayRules) (held : Overlays) (hash : BlockHash)
    (height : ℕ) (txdata : List Transaction) : Prop :=
  checks = true ∧ r.pool = true ∧ ∃ traces, judgedTraces r held hash height txdata = some traces ∧
    traces.length = txdata.length ∧ ∃ pre tx trace post P,
      txdata.zip traces = pre ++ (tx, trace) :: post ∧ pre ≠ [] ∧
      Res.foldlM (poolTx checks height) held.pool.view pre.zipIdx = .ok P ∧
      P.Overflows tx trace height

/-- The blocks validation panics on. -/
def PanicBlock (checks : Bool) (rules : Option OverlayRules) (held : Overlays) (height : ℕ)
    (block : Block H) : Prop :=
  block.txdata = [] ∨ ∃ r, rules = some r ∧
    (SecondCoinbase r held height block.txdata ∨
      SwapOverflow checks r held (HeaderFamily.blockHash block.header) height block.txdata)

/-! ### The assets rule -/

omit [HeaderFamily H] in
/-- A transaction is read without a panic. -/
theorem checkInner_ne_panic (v : AssetView) (policy : AssetMintPolicy) (tx : Transaction) :
    v.checkInner policy tx ≠ .panic := by
  have hassign : ∀ (asset : Txid) (st : Map ℕ Carry × ℕ) (p : ℕ × ℕ),
      assignOutput tx asset st p ≠ .panic := by
    intro asset st p
    simp only [assignOutput]
    refine Res.bind_ne_panic (Res.okOr_ne_panic _ _) fun _ _ => ?_
    refine Res.bind_ne_panic (Res.refuseIf_ne_panic _ _) fun _ _ => ?_
    refine Res.bind_ne_panic (Res.refuseIf_ne_panic _ _) fun _ _ => ?_
    exact Res.bind_ne_panic (Res.okOr_ne_panic _ _) fun _ _ => by simp
  have hscan : ∀ (st : TallyScan) (t : ℕ × Tally),
      scanTally tx (Bitcoin.computeTxid tx) (classify tx) st t ≠ .panic := by
    intro st t
    simp only [scanTally]
    refine Res.bind_ne_panic ?_ fun asset _ => ?_
    · unfold tallyAsset
      split
      · split_ifs <;> simp
      · simp
    refine Res.bind_ne_panic (Res.refuseIf_ne_panic _ _) fun _ _ => ?_
    exact Res.bind_ne_panic (Res.foldlM_ne_panic (hassign asset)) fun _ _ => by simp
  simp only [AssetView.checkInner]
  refine Res.bind_ne_panic (Res.refuseIf_ne_panic _ _) fun _ _ => ?_
  refine Res.bind_ne_panic (Res.refuseIf_ne_panic _ _) fun _ _ => ?_
  refine Res.bind_ne_panic (Res.refuseIf_ne_panic _ _) fun _ _ => ?_
  refine Res.bind_ne_panic (Res.foldlM_ne_panic hscan) fun _ _ => ?_
  exact Res.bind_ne_panic (Res.refuseIf_ne_panic _ _) fun _ _ => by simp

omit [HeaderFamily H] in
/-- One transaction of a candidate panics when it is coinbase-shaped and not the first. -/
theorem candidateTx_eq_panic {policy : AssetMintPolicy} {height : ℕ}
    {st : AssetView × List AssetTrace} {tx : Transaction} {k : ℕ} :
    candidateTx policy height st (tx, k) = .panic ↔ k ≠ 0 ∧ isCoinbase tx = true := by
  cases hcb : isCoinbase tx with
  | true =>
    simp only [candidateTx, hcb, and_true]
    split_ifs with h0
    · simp [h0]
    · simp [AssetView.applyTransactions, hcb, h0]
  | false =>
    simp only [candidateTx, hcb, Bool.false_eq_true, and_false, ↓reduceIte,
      AssetView.applyTransactions, List.head?_cons, Res.expect_some, Res.ok_bind, iff_false]
    refine Res.bind_ne_panic ?_ fun _ _ => by simp
    have hread := checkInner_ne_panic st.1 policy tx
    simp only [AssetView.applyTx]
    cases hc : st.1.checkInner policy tx with
    | ok out =>
      simp only
      split <;> simp
    | err e => simp
    | panic => exact absurd hc hread

omit [HeaderFamily H] in
/-- A candidate panics at its second coinbase, when it gets there. -/
theorem assetCandidate_eq_panic {policy : AssetMintPolicy} {view : AssetView}
    {txdata : List Transaction} {height : ℕ} :
    assetCandidate policy view txdata height = .panic ↔ ∃ pre tx post a,
      txdata = pre ++ tx :: post ∧ pre ≠ [] ∧ isCoinbase tx = true ∧
      assetCandidate policy view pre height = .ok a := by
  simp only [assetCandidate]
  rw [Res.bind_eq_panic]
  constructor
  · rintro (h | ⟨_, hclean, h⟩)
    · exact absurd h (Res.refuseIf_ne_panic _ _)
    obtain ⟨l1, p, l2, st, hl, hpre, hp⟩ := Res.foldlM_eq_panic.mp h
    obtain ⟨pre, post', htx, rfl, hpost⟩ := List.zipIdx_eq_append_iff.mp hl
    obtain ⟨tx, post, rfl, rfl, -⟩ := List.zipIdx_eq_cons_iff.mp hpost.symm
    obtain ⟨hk, hcb⟩ := candidateTx_eq_panic.mp hp
    have hne : pre ≠ [] := by
      rintro rfl
      simp at hk
    refine ⟨pre, tx, post, st, htx, hne, hcb, Res.bind_eq_ok.mpr ⟨(), ?_, hpre⟩⟩
    rw [Res.refuseIf_eq_ok] at hclean ⊢
    rw [htx, List.head?_append_of_ne_nil _ hne] at hclean
    exact hclean
  · rintro ⟨pre, tx, post, a, rfl, hne, hcb, ha⟩
    obtain ⟨_, hclean, hpre⟩ := Res.bind_eq_ok.mp ha
    refine .inr ⟨(), ?_, Res.foldlM_eq_panic.mpr ⟨pre.zipIdx, (tx, pre.length),
      post.zipIdx (pre.length + 1), a, ?_, hpre, ?_⟩⟩
    · rw [Res.refuseIf_eq_ok] at hclean ⊢
      rw [List.head?_append_of_ne_nil _ hne]
      exact hclean
    · rw [List.zipIdx_append, List.zipIdx_cons, Nat.zero_add]
    · exact candidateTx_eq_panic.mpr ⟨by simpa using hne, hcb⟩

/-! ### The pool rule -/

omit [HeaderFamily H] in
/-- A candidate panics at its first swap that overflows, when it gets there. -/
theorem poolCandidate_eq_panic {checks : Bool} {view : PoolView} {txdata : List Transaction}
    {traces : List AssetTrace} {height : ℕ} (hv : view.Ok)
    (ham : ∀ t ∈ traces, AmountsOk t.outputs) :
    poolCandidate checks view txdata traces height = .panic ↔
      checks = true ∧ ∃ pre tx trace post P, txdata.zip traces = pre ++ (tx, trace) :: post ∧
        pre ≠ [] ∧ Res.foldlM (poolTx checks height) view pre.zipIdx = .ok P ∧
        P.Overflows tx trace height := by
  -- the pools stay in order up to any transaction of the block
  have hok : ∀ {pre post : List (Transaction × AssetTrace)} {P : PoolView},
      txdata.zip traces = pre ++ post → Res.foldlM (poolTx checks height) view pre.zipIdx = .ok P →
      P.Ok := by
    intro pre post P hl hpre
    apply Res.foldlM_ok_ind hpre hv
    intro P p P' hp hP hstep
    have hmem : (p.1.1, p.1.2) ∈ txdata.zip traces := by
      rw [hl]
      exact List.mem_append_left _ (List.fst_mem_of_mem_zipIdx hp)
    exact poolTx_ok hP (ham _ (List.of_mem_zip hmem).2) hstep
  have hcheck : ∀ {pre post : List (Transaction × AssetTrace)} {P : PoolView} {tx : Transaction}
      {trace : AssetTrace}, txdata.zip traces = pre ++ (tx, trace) :: post →
      Res.foldlM (poolTx checks height) view pre.zipIdx = .ok P →
      (poolTx checks height P ((tx, trace), pre.length) = .panic ↔
        checks = true ∧ pre ≠ [] ∧ P.Overflows tx trace height) := by
    intro pre post P tx trace hl hpre
    have hmem : (tx, trace) ∈ txdata.zip traces := by rw [hl]; simp
    have hiff := PoolView.check_eq_panic checks tx height (pre.length == 0)
      (hok hl hpre) (ham _ (List.of_mem_zip hmem).2)
    simp only [poolTx]
    rw [Res.bind_eq_panic]
    constructor
    · rintro (h | ⟨effect, -, h⟩)
      · obtain ⟨h1, h2, h3⟩ := hiff.mp h
        exact ⟨h1, by simpa using h2, h3⟩
      · cases effect <;> simp at h
    · rintro ⟨h1, h2, h3⟩
      exact .inl (hiff.mpr ⟨h1, by simpa using h2, h3⟩)
  rw [poolCandidate, Res.foldlM_eq_panic]
  constructor
  · rintro ⟨l1, p, l2, P, hl, hpre, hp⟩
    obtain ⟨pre, post', htx, rfl, hpost⟩ := List.zipIdx_eq_append_iff.mp hl
    obtain ⟨⟨tx, trace⟩, post, rfl, rfl, -⟩ := List.zipIdx_eq_cons_iff.mp hpost.symm
    rw [Nat.zero_add] at hp
    obtain ⟨h1, h2, h3⟩ := (hcheck htx hpre).mp hp
    exact ⟨h1, pre, tx, trace, post, P, htx, h2, hpre, h3⟩
  · rintro ⟨h1, pre, tx, trace, post, P, htx, h2, hpre, h3⟩
    refine ⟨pre.zipIdx, ((tx, trace), pre.length), post.zipIdx (pre.length + 1), P, ?_, hpre,
      (hcheck htx hpre).mpr ⟨h1, h2, h3⟩⟩
    rw [htx, List.zipIdx_append, List.zipIdx_cons, Nat.zero_add]

/-! ### The rules together -/

/-- The assets rule, with the state it leaves: a judged block's traces are the
ones the collateral rules read. -/
theorem assetsRule_run {r : OverlayRules} {held : Overlays} {ctx : BlockContext H} :
    ((assetsRule r).check held ctx = .panic ↔
      SecondCoinbase r held ctx.height ctx.block.txdata) ∧
    ∀ {ok : Option Bool} {held' : Overlays}, (assetsRule r).check held ctx = .ok (ok, held') →
      held'.assets.trace (HeaderFamily.blockHash ctx.block.header) =
        judgedTraces r held (HeaderFamily.blockHash ctx.block.header) ctx.height
          ctx.block.txdata ∧ held'.pool = held.pool ∧ held'.markets = held.markets := by
  constructor
  · simp only [assetsRule]
    rw [Res.bind_eq_panic, AssetsHeld.check]
    constructor
    · rintro (h | ⟨a, -, h⟩)
      · split at h
        · simp at h
        · simp at h
        · rename_i hc
          exact assetCandidate_eq_panic.mp hc
      · simp at h
    · intro h
      left
      rw [assetCandidate_eq_panic.mpr h]
  · intro ok held' h
    simp only [assetsRule] at h
    obtain ⟨⟨ok', assets⟩, hc, h⟩ := Res.bind_eq_ok.mp h
    simp only [Res.ok.injEq, Prod.mk.injEq] at h
    obtain ⟨-, rfl⟩ := h
    refine ⟨?_, rfl, rfl⟩
    unfold AssetsHeld.check at hc
    unfold judgedTraces
    split at hc
    · rename_i next traces hcand
      simp only [Res.ok.injEq, Prod.mk.injEq] at hc
      rw [← hc.2, hcand]
      simp only [AssetsHeld.trace, find?_kept, Option.map_some]
    · rename_i hcand
      simp only [Res.ok.injEq, Prod.mk.injEq] at hc
      rw [← hc.2, hcand]
    · simp at hc

/-- The pool rule panics at a swap that overflows. -/
theorem poolRule_eq_panic {checks : Bool} {held : Overlays} {ctx : BlockContext H} :
    (poolRule checks).check held ctx = .panic ↔ ∃ traces,
      held.assets.trace (HeaderFamily.blockHash ctx.block.header) = some traces ∧
      traces.length = ctx.block.txdata.length ∧
      poolCandidate checks held.pool.view ctx.block.txdata traces ctx.height = .panic := by
  simp only [poolRule]
  rw [Res.bind_eq_panic, PoolHeld.check.eq_def]
  constructor
  · rintro (h | ⟨a, -, h⟩)
    · cases htr : held.assets.trace (HeaderFamily.blockHash ctx.block.header) with
      | none => simp [htr] at h
      | some traces =>
        simp only [htr] at h
        split_ifs at h with hlen
        split at h
        · simp at h
        · simp at h
        · rename_i hc
          exact ⟨traces, rfl, not_not.mp hlen, hc⟩
    · simp at h
  · rintro ⟨traces, htr, hlen, hc⟩
    left
    simp only [htr, hc]
    rw [if_neg (not_not.mpr hlen)]

/-- The markets rule never panics. -/
theorem marketsRule_ne_panic {«from» : ℕ} {held : Overlays} {ctx : BlockContext H}
    (hok : held.Ok) : (marketsRule «from»).check held ctx ≠ .panic := by
  simp only [marketsRule]
  split_ifs
  · simp
  · refine Res.bind_ne_panic ?_ fun _ _ => by simp
    rw [MarketHeld.check.eq_def]
    split
    · simp
    · split_ifs
      · simp
      · split
        · simp
        · simp
        · rename_i hc
          exact absurd hc (marketCandidate_ne_panic hok.market _ _ _ _)

/-- The boxed rules: the assets rule, the pool rule where it is on, and at most
the markets rule. -/
theorem boxed_eq (r : OverlayRules) (checks : Bool) :
    ∃ ms : List (BlockRule H Overlays), (ms = [] ∨ ∃ first, ms = [marketsRule first]) ∧
      r.boxed checks = assetsRule r :: ((if r.pool then [poolRule checks] else []) ++ ms) := by
  unfold OverlayRules.boxed
  cases r.markets with
  | none => exact ⟨[], .inl rfl, rfl⟩
  | some first => exact ⟨[marketsRule first], .inr ⟨first, rfl⟩, rfl⟩

/-- **The overlay rules' panics.** -/
theorem boxed_eq_panic {r : OverlayRules} {checks : Bool} {held : Overlays} {ctx : BlockContext H}
    (hok : held.Ok) :
    runRules ctx held (r.boxed checks) = .panic ↔
      SecondCoinbase r held ctx.height ctx.block.txdata ∨
      SwapOverflow checks r held (HeaderFamily.blockHash ctx.block.header) ctx.height
        ctx.block.txdata := by
  obtain ⟨ms, hms, hboxed⟩ := boxed_eq (H := H) r checks
  have hrest : ∀ {ok : Option Bool} {h1 : Overlays}, (assetsRule r).check held ctx = .ok (ok, h1) →
      (runRules ctx h1 ((if r.pool then [poolRule checks] else []) ++ ms) = .panic ↔
        SwapOverflow checks r held (HeaderFamily.blockHash ctx.block.header) ctx.height
          ctx.block.txdata) := by
    intro ok h1 hc
    obtain ⟨htrace, hpool, hmarkets⟩ := assetsRule_run.2 hc
    have hok1 := ((assetsRule_keeps r).check hok hc).1
    -- the markets rule adds no panic
    have hm : ∀ {h2 : Overlays}, h2.Ok → runRules ctx h2 ms ≠ .panic := by
      intro h2 hok2
      rcases hms with rfl | ⟨first, rfl⟩
      · simp [runRules]
      · simp only [runRules]
        exact Res.bind_ne_panic (marketsRule_ne_panic hok2) fun _ _ => by simp
    by_cases hr : r.pool = true
    · rw [if_pos hr, List.singleton_append, runRules, Res.bind_eq_panic]
      unfold SwapOverflow
      rw [← htrace]
      constructor
      · rintro (h | ⟨⟨ok2, h2⟩, hp, h⟩)
        · obtain ⟨traces, htr, hlen, hcand⟩ := poolRule_eq_panic.mp h
          obtain ⟨hch, hov⟩ := (poolCandidate_eq_panic hok1.pool (trace_amounts hok1 htr)).mp hcand
          exact ⟨hch, hr, traces, htr, hlen, hpool ▸ hov⟩
        · have hok2 := ((poolRule_keeps checks).check hok1 hp).1
          rcases Res.bind_eq_panic.mp h with h | ⟨_, -, h⟩
          · exact absurd h (hm hok2)
          · simp at h
      · rintro ⟨hch, -, traces, htr, hlen, hov⟩
        left
        rw [poolRule_eq_panic]
        refine ⟨traces, htr, hlen, ?_⟩
        rw [poolCandidate_eq_panic hok1.pool (trace_amounts hok1 htr)]
        exact ⟨hch, hpool ▸ hov⟩
    · rw [if_neg hr, List.nil_append]
      constructor
      · intro h
        exact absurd h (hm hok1)
      · rintro ⟨-, hr', -⟩
        exact absurd hr' hr
  rw [hboxed, runRules, Res.bind_eq_panic, assetsRule_run.1]
  constructor
  · rintro (h | ⟨⟨ok, h1⟩, hc, h⟩)
    · exact .inl h
    · rcases Res.bind_eq_panic.mp h with h | ⟨_, -, h⟩
      · exact .inr ((hrest hc).mp h)
      · simp at h
  · rintro (h | h)
    · exact .inl h
    · cases hc : (assetsRule r).check held ctx with
      | ok a =>
        obtain ⟨ok, h1⟩ := a
        exact .inr ⟨_, rfl, Res.bind_eq_panic.mpr (.inl ((hrest hc).mpr h))⟩
      | err e =>
        simp only [assetsRule] at hc
        rw [AssetsHeld.check] at hc
        split at hc
        · simp at hc
        · simp at hc
        · simp at hc
      | panic => exact .inl (assetsRule_run.1.mp hc)

/-! ### Validation -/

/-- **Where `judge` panics.** -/
theorem judge_eq_panic {checks : Bool} {rules : Option OverlayRules} {s : StateOf H Overlays}
    (hrules : s.extraRules = installed checks rules) (hok : s.held.Ok) (height : UInt32)
    (block : Block H) (now : Option UInt32) :
    s.judge height block now = .panic ↔ PanicBlock checks rules s.held height.toNat block := by
  obtain ⟨signed, hsig⟩ := verifyBlockSolution_ne_panic block s.overlay.challenge
  simp only [StateOf.judge, validateBlockStructure, hsig, Res.ok_bind]
  rw [Res.bind_eq_panic]
  simp only [reduceCtorEq, and_false, exists_false, or_false, validateBlockContext,
    StateOf.candidate]
  unfold PanicBlock
  by_cases hne : block.txdata = []
  · simp [hne]
  · obtain ⟨cb, hhead⟩ := Option.isSome_iff_exists.mp (List.isSome_head?.mpr hne)
    obtain ⟨scripts, hscripts⟩ := scriptsOk_returns s.params s.utxo height.toNat
      (HeaderFamily.sighashRules H height.toNat) block.txdata
    have hrun : runRules (s.context height.toNat block) s.held s.extraRules = .panic ↔
        ∃ r, rules = some r ∧ (SecondCoinbase r s.held height.toNat block.txdata ∨
          SwapOverflow checks r s.held (HeaderFamily.blockHash block.header) height.toNat
            block.txdata) := by
      rw [hrules]
      cases rules with
      | none => simp [installed, runRules]
      | some r =>
        simp only [installed, Option.some.injEq, exists_eq_left']
        exact boxed_eq_panic hok
    rw [← hrun]
    simp only [hhead, hscripts, Res.expect_some, Res.ok_bind, hne, false_or]
    rw [Res.bind_eq_panic]
    simp

/-- **Where `apply` panics**: where it gets to judge the block, and there as `judge`. -/
theorem apply_eq_panic {s : StateOf H Overlays} {t : Tip} (ht : s.tip = .ok t) {height : UInt32}
    {block : Block H} {expect : Option BlockHash} {now : Option UInt32} :
    s.apply height block expect now = .panic ↔ height.toNat = t.height + 1 ∧
      HeaderFamily.prev block.header = t.hash ∧ s.judge height block now = .panic := by
  simp only [StateOf.apply, ht, Res.ok_bind]
  by_cases h1 : height.toNat = t.height + 1
  · by_cases h2 : HeaderFamily.prev block.header = t.hash
    · rw [if_neg (not_not.mpr h1), if_neg (not_not.mpr h2), Res.bind_eq_panic]
      simp only [h1, h2, true_and, or_iff_left_iff_imp, forall_exists_index]
      rintro ⟨v, next, held⟩ ⟨-, h⟩
      dsimp only at h
      split_ifs at h
    · rw [if_neg (not_not.mpr h1), if_pos h2]
      simp [h2]
  · rw [if_pos h1]
    simp [h1]

/-- **Where validation panics.** On every state a run reaches, with no extra
rules or with the overlay rules, `judge` panics on the blocks `PanicBlock`
names and on no other, and `apply` on those of them that are for the height
after the tip and link to it. -/
theorem validation_panics_iff {checks : Bool} {rules : Option OverlayRules} {doc : ChainDocument}
    {blocks : List (Block H)} {s : StateOf H Overlays}
    (hrun : Chain doc (installed checks rules) {} blocks s) (height : UInt32) (block : Block H)
    (now : Option UInt32) (expect : Option BlockHash) :
    (s.judge height block now ≠ .panic ↔ ¬ PanicBlock checks rules s.held height.toNat block) ∧
    ∃ t, s.tip = .ok t ∧ (s.apply height block expect now ≠ .panic ↔
      ¬ (height.toNat = t.height + 1 ∧ HeaderFamily.prev block.header = t.hash ∧
        PanicBlock checks rules s.held height.toNat block)) := by
  have hkeeps : ∀ rule ∈ installed (H := H) checks rules, Keeps rule := by
    cases rules with
    | none => simp [installed]
    | some r => exact boxed_keeps r checks
  have hok := held_ok_of_chain hkeeps Overlays.ok_empty hrun
  have hjudge := judge_eq_panic hrun.onChain.rules hok height block now
  obtain ⟨t, ht⟩ := hrun.onChain.tip_returns
  refine ⟨not_congr hjudge, t, ht, not_congr ?_⟩
  rw [apply_eq_panic ht, hjudge]

end

section

attribute [local instance] sampleBitcoin

set_option maxRecDepth 100000 in
/-- A run of one block under the three rules. -/
theorem validation_panics_iff_sample : ∃ (blocks : List (Block Header))
    (s : StateOf Header Overlays), blocks.length = 2 ∧
      Chain sampleDoc (installed true (some ⟨true, some 0⟩)) {} blocks s ∧
      ∀ (height : UInt32) (block : Block Header) (now : Option UInt32),
        s.judge height block now ≠ .panic ↔
          ¬ PanicBlock true (some ⟨true, some 0⟩) s.held height.toNat block := by
  obtain ⟨genesis, later, s, hrun, hp⟩ := exists_chain_of_sampleRun sampleDoc
    (installed true (some ⟨true, some 0⟩)) {} 1 [([], [])] (fun _ later _ => later.length == 1) (by decide +kernel)
  rw [beq_iff_eq] at hp
  exact ⟨genesis :: later, s, by simp [hp], hrun, fun height block now =>
    (validation_panics_iff hrun height block now none).1⟩

set_option maxRecDepth 100000 in
/-- A header that links to the tip and no transactions: `judge` and `apply`
panic, on a chain with no extra rules. -/
theorem empty_block_panics : ∃ (blocks : List (Block Header)) (s : StateOf Header Overlays)
    (block : Block Header), Chain sampleDoc (installed true none) {} blocks s ∧
      block.txdata = [] ∧ s.judge 1 block none = .panic ∧ s.apply 1 block none none = .panic := by
  obtain ⟨genesis, later, s, hrun, hp⟩ := exists_chain_of_sampleRun sampleDoc
    (installed true none) {} 1 [] (fun _ later s =>
      later.isEmpty && s.tip.any fun t => t.height == 0) (by decide +kernel)
  simp only [Bool.and_eq_true] at hp
  obtain ⟨t, ht, h0⟩ := Res.any_eq_true.mp hp.2
  rw [beq_iff_eq] at h0
  let block : Block Header := ⟨⟨2, t.hash, 0, 0, 0, 0⟩, []⟩
  have hj : s.judge 1 block none = .panic :=
    (judge_eq_panic hrun.onChain.rules (held_ok_of_chain (by simp [installed])
      Overlays.ok_empty hrun) 1 block none).mpr (.inl rfl)
  exact ⟨genesis :: later, s, block, hrun, rfl, hj,
    (apply_eq_panic ht).mpr ⟨by rw [h0]; rfl, rfl, hj⟩⟩

end

end Sidestr
