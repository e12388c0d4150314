/-
# Candidates leave no trace

A judged block may be kept by the rules under its header's hash, and a block
with the same header and other transactions is kept in its place. None of it
reaches the chain: whatever was judged, refused or admitted on the way, a state
is where applying its blocks alone to a new state arrives. The argument is a
simulation (`Clean`): what the checks of a block that is applied leave is a
function of the applied views (`overlays_run`), so a state with candidates kept
and one without take the same step.

Key definitions: `settledViews`, `Clean`, `AppliedOnly`.
Key theorems: `overlays_run`, `apply_clean`, `leaves_no_trace`.
-/
import Sidestr.Core.OverlayState
import Sidestr.Core.Sample

namespace Sidestr

section

variable [Bitcoin] {H : Type} [HeaderFamily H]

/-! ### The checks of a block that passes -/

omit [Bitcoin] [HeaderFamily H] in
/-- A rule's check before the rest of the rules'. -/
theorem runRules_cons {σ : Type} {ctx : BlockContext H} {rule : BlockRule H σ}
    {rules : List (BlockRule H σ)} {held held₁ held₂ : σ} {ok : Option Bool} {v : Verdict}
    (hcheck : rule.check held ctx = .ok (ok, held₁)) (hrest : runRules ctx held₁ rules = .ok (v, held₂)) :
    runRules ctx held (rule :: rules) = .ok (⟨rule.id, ok⟩ :: v, held₂) := by
  unfold runRules
  rw [hcheck, Res.ok_bind]
  dsimp only
  rw [hrest]
  rfl

omit [HeaderFamily H] in
theorem candidateTx_length {policy : AssetMintPolicy} {height : ℕ}
    {st st' : AssetView × List AssetTrace} {p : Transaction × ℕ}
    (h : candidateTx policy height st p = .ok st') : st'.2.length = st.2.length + 1 := by
  unfold candidateTx at h
  dsimp only at h
  split_ifs at h with hcb
  · cases h
    exact List.length_append
  · obtain ⟨outcome, -, h⟩ := Res.bind_eq_ok.mp h
    obtain ⟨out, -, h⟩ := Res.bind_eq_ok.mp h
    cases h
    exact List.length_append

omit [HeaderFamily H] in
theorem candidateFold_length {policy : AssetMintPolicy} {height : ℕ} :
    ∀ {txs : List (Transaction × ℕ)} {st st' : AssetView × List AssetTrace},
      Res.foldlM (candidateTx policy height) st txs = .ok st' →
      st'.2.length = st.2.length + txs.length
  | [], st, st', h => by
    cases h
    rfl
  | p :: txs, st, st', h => by
    rw [Res.foldlM_cons] at h
    obtain ⟨st₁, h₁, h⟩ := Res.bind_eq_ok.mp h
    rw [candidateFold_length h, candidateTx_length h₁, List.length_cons]
    omega

omit [HeaderFamily H] in
/-- A candidate has a trace for each of its transactions. -/
theorem assetCandidate_length {policy : AssetMintPolicy} {view : AssetView}
    {txdata : List Transaction} {height : ℕ} {a : AssetView × List AssetTrace}
    (h : assetCandidate policy view txdata height = .ok a) : a.2.length = txdata.length := by
  obtain ⟨_, -, h⟩ := Res.bind_eq_ok.mp h
  rw [candidateFold_length h, List.length_zipIdx]
  exact Nat.zero_add _

/-- What the three rules find of a block on some applied views. -/
structure Candidates (r : OverlayRules) (checks : Bool) (held : Overlays) (ctx : BlockContext H)
    (a : AssetView × List AssetTrace) (P : PoolView) (m : MarketView × List Txid) : Prop where
  assets : assetCandidate (mintPolicy r held) held.assets.view ctx.block.txdata ctx.height = .ok a
  pool : if r.pool then
    poolCandidate checks held.pool.view ctx.block.txdata a.2 ctx.height = .ok P
    else P = held.pool.view
  markets : if r.marketsFrom ctx.height then
    marketCandidate held.markets.view ctx.block.txdata a.2 ctx.spending ctx.height = .ok m
    else m = (held.markets.view, [])

theorem mintPolicy_views {r : OverlayRules} {held held₂ : Overlays} (h : held₂.views = held.views) :
    mintPolicy r held₂ = mintPolicy r held := by
  have hpool : held₂.pool.view = held.pool.view := congrArg Views.pool h
  have hmarkets : held₂.markets.view = held.markets.view := congrArg Views.markets h
  unfold mintPolicy
  rw [hpool, hmarkets]

omit [HeaderFamily H] in
/-- The candidates depend on the applied views alone. -/
theorem Candidates.views {r : OverlayRules} {checks : Bool} {held held₂ : Overlays}
    {ctx : BlockContext H} {a : AssetView × List AssetTrace} {P : PoolView}
    {m : MarketView × List Txid} (hc : Candidates r checks held ctx a P m)
    (h : held₂.views = held.views) : Candidates r checks held₂ ctx a P m := by
  have hassets : held₂.assets.view = held.assets.view := congrArg Views.assets h
  have hpool : held₂.pool.view = held.pool.view := congrArg Views.pool h
  have hmarkets : held₂.markets.view = held.markets.view := congrArg Views.markets h
  refine ⟨?_, ?_, ?_⟩
  · rw [mintPolicy_views h, hassets]
    exact hc.assets
  · rw [hpool]
    exact hc.pool
  · rw [hmarkets]
    exact hc.markets

/-- The candidates of a block that passed. -/
theorem candidates_of_passed {r : OverlayRules} {checks : Bool} {ctx : BlockContext H}
    {held held' : Overlays} {v : Verdict}
    (h : runRules ctx held (r.boxed checks) = .ok (v, held')) (hok : v.ok = true) :
    ∃ a P m, Candidates r checks held ctx a P m := by
  obtain ⟨a, P, m, hpass⟩ := overlays_passed h hok
  by_cases hfrom : r.marketsFrom ctx.height = true
  · refine ⟨a, P, m, hpass.assets, hpass.pool, ?_⟩
    have hmarkets := hpass.markets
    rw [if_pos hfrom] at hmarkets ⊢
    exact hmarkets
  · refine ⟨a, P, (held.markets.view, []), hpass.assets, hpass.pool, ?_⟩
    rw [if_neg hfrom]

/-- What is kept for a hash in the place of what was. -/
def keptFor {α : Type} (pending : List (BlockHash × α)) (hash : BlockHash) (a : α) :
    List (BlockHash × α) :=
  pending.filter (fun p => p.1 != hash) ++ [(hash, a)]

def AssetsHeld.keep (held : AssetsHeld) (hash : BlockHash) (a : AssetView × List AssetTrace) :
    AssetsHeld :=
  { held with pending := keptFor held.pending hash a }

def PoolHeld.keep (held : PoolHeld) (hash : BlockHash) (P : PoolView) : PoolHeld :=
  { held with pending := keptFor held.pending hash P }

def MarketHeld.keep (held : MarketHeld) (hash : BlockHash) (m : MarketView × List Txid) :
    MarketHeld :=
  { held with pending := keptFor held.pending hash m }

omit [Bitcoin] [HeaderFamily H] in
theorem find?_keptFor {α : Type} (pending : List (BlockHash × α)) (hash : BlockHash) (a : α) :
    (keptFor pending hash a).find? (fun p => p.1 == hash) = some (hash, a) :=
  find?_kept hash a pending

omit [Bitcoin] [HeaderFamily H] in
theorem trace_keep {held : AssetsHeld} {hash : BlockHash} {a : AssetView × List AssetTrace} :
    (held.keep hash a).trace hash = some a.2 := by
  unfold AssetsHeld.trace AssetsHeld.keep
  dsimp only
  rw [find?_keptFor]
  rfl

/-- The assets rule on a block that passes keeps its candidate, and commits it. -/
theorem assetsRule_passes {r : OverlayRules} {ctx : BlockContext H} {held : Overlays}
    {a : AssetView × List AssetTrace}
    (hc : assetCandidate (mintPolicy r held) held.assets.view ctx.block.txdata ctx.height = .ok a) :
    (assetsRule r).check held ctx = .ok (some true, { held with
      assets := held.assets.keep (HeaderFamily.blockHash ctx.block.header) a }) := by
  unfold assetsRule AssetsHeld.check
  dsimp only
  rw [hc]
  rfl

theorem assetsRule_commit {r : OverlayRules} {block : Block H} {height : ℕ} {assets : AssetsHeld}
    {pool : PoolHeld} {markets : MarketHeld} {a : AssetView × List AssetTrace} :
    (assetsRule r).applied ⟨assets.keep (HeaderFamily.blockHash block.header) a, pool, markets⟩
      block height = ⟨⟨a.1, []⟩, pool, markets⟩ := by
  unfold assetsRule AssetsHeld.applied AssetsHeld.keep
  dsimp only
  rw [find?_keptFor]

/-- The pool rule's place: its candidate is kept and committed, where it is there. -/
theorem poolRule_passes {r : OverlayRules} {checks : Bool} {ctx : BlockContext H} {held : Overlays}
    {traces : List AssetTrace} {P : PoolView}
    (htrace : held.assets.trace (HeaderFamily.blockHash ctx.block.header) = some traces)
    (hlen : traces.length = ctx.block.txdata.length)
    (hc : if r.pool then
      poolCandidate checks held.pool.view ctx.block.txdata traces ctx.height = .ok P
      else P = held.pool.view) :
    ∃ v pool, runRules ctx held (if r.pool then [poolRule checks] else []) =
        .ok (v, { held with pool }) ∧ v.ok = true ∧
      ∀ assets markets, ∃ pool', (if r.pool then [poolRule (H := H) checks] else []).foldl
          (fun held rule => rule.applied held ctx.block ctx.height) ⟨assets, pool, markets⟩ =
          ⟨assets, pool', markets⟩ ∧ pool'.view = P := by
  split_ifs at hc ⊢ with hr
  · have hcheck : (poolRule checks).check held ctx = .ok (some true, { held with
        pool := held.pool.keep (HeaderFamily.blockHash ctx.block.header) P }) := by
      unfold poolRule PoolHeld.check
      dsimp only
      rw [htrace]
      dsimp only
      rw [if_neg (not_not.mpr hlen), hc]
      rfl
    refine ⟨_, _, runRules_cons hcheck rfl, by simp, fun assets markets => ⟨⟨P, []⟩, ?_, rfl⟩⟩
    show (poolRule checks).applied _ ctx.block ctx.height = _
    unfold poolRule PoolHeld.applied PoolHeld.keep
    dsimp only
    rw [find?_keptFor]
  · exact ⟨[], held.pool, rfl, rfl, fun assets markets => ⟨held.pool, rfl, hc.symm⟩⟩

/-- The markets rule, where it is there. -/
def OverlayRules.marketRules (r : OverlayRules) : List (BlockRule H Overlays) :=
  match r.markets with
  | some «from» => [marketsRule «from»]
  | none => []

theorem boxed_split (r : OverlayRules) (checks : Bool) : r.boxed (H := H) checks =
    assetsRule r :: ((if r.pool then [poolRule checks] else []) ++ r.marketRules) := rfl

/-- The outcome assets of the markets a block opened, listed as issued. -/
def listMarkets (height : ℕ) (opened : List Txid) (view : AssetView) : AssetView :=
  (opened.foldl (fun (a : AssetsHeld) m => a.registerMarketAssets m (noIdOf m) height)
    ⟨view, []⟩).view

/-- The markets rule's place: from its height on its candidate is kept and
committed, and the markets it opened are listed. -/
theorem marketRules_pass {r : OverlayRules} {ctx : BlockContext H} {held : Overlays}
    {traces : List AssetTrace} {m : MarketView × List Txid}
    (htrace : held.assets.trace (HeaderFamily.blockHash ctx.block.header) = some traces)
    (hlen : traces.length = ctx.block.txdata.length)
    (hc : if r.marketsFrom ctx.height then
      marketCandidate held.markets.view ctx.block.txdata traces ctx.spending ctx.height = .ok m
      else m = (held.markets.view, [])) :
    ∃ v markets, runRules ctx held r.marketRules = .ok (v, { held with markets }) ∧ v.ok = true ∧
      ∀ (view : AssetView) (pool : PoolHeld), (r.marketRules.foldl
        (fun (held : Overlays) (rule : BlockRule H Overlays) => rule.applied held ctx.block ctx.height)
        ⟨⟨view, []⟩, pool, markets⟩).views =
        ⟨if r.marketsFrom ctx.height then listMarkets ctx.height m.2 view else view,
          pool.view, m.1⟩ := by
  unfold OverlayRules.marketRules OverlayRules.marketsFrom at *
  cases hm : r.markets with
  | none =>
    rw [hm] at hc
    change m = (held.markets.view, []) at hc
    subst hc
    exact ⟨[], held.markets, rfl, rfl, fun view pool => rfl⟩
  | some «from» =>
    simp only [hm, Option.any_some, decide_eq_true_eq] at hc ⊢
    by_cases hlt : ctx.height < «from»
    · rw [if_neg (Nat.not_le.mpr hlt)] at hc
      subst hc
      have hcheck : (marketsRule «from»).check held ctx = .ok (some true, held) := by
        unfold marketsRule
        dsimp only
        rw [if_pos hlt]
      refine ⟨_, held.markets, runRules_cons hcheck rfl, by simp, fun view pool => ?_⟩
      rw [if_neg (Nat.not_le.mpr hlt), List.foldl_cons, List.foldl_nil]
      unfold marketsRule
      dsimp only
      rw [if_pos hlt]
      rfl
    · have hfrom : «from» ≤ ctx.height := Nat.not_lt.mp hlt
      rw [if_pos hfrom] at hc
      have hcheck : (marketsRule «from»).check held ctx = .ok (some true, { held with
          markets := held.markets.keep (HeaderFamily.blockHash ctx.block.header) m }) := by
        unfold marketsRule MarketHeld.check
        dsimp only
        rw [if_neg hlt, htrace]
        dsimp only
        rw [if_neg (not_not.mpr hlen), hc]
        rfl
      refine ⟨_, _, runRules_cons hcheck rfl, by simp, fun view pool => ?_⟩
      rw [if_pos hfrom, List.foldl_cons, List.foldl_nil]
      unfold marketsRule MarketHeld.applied MarketHeld.keep
      dsimp only
      rw [if_neg hlt, find?_keptFor]
      rfl

/-- The views once a block is applied whose candidates came to `a`, `P` and `m`. -/
def settledViews (r : OverlayRules) (height : ℕ) (a : AssetView × List AssetTrace) (P : PoolView)
    (m : MarketView × List Txid) : Views :=
  ⟨if r.marketsFrom height then listMarkets height m.2 a.1 else a.1, P, m.1⟩

/-- **The checks of a block that passes.** They go through on any state with
these views, and applying the block leaves views that the candidates determine:
what was kept for other candidates, or for this hash before, has no part in it. -/
theorem overlays_run {r : OverlayRules} {checks : Bool} {ctx : BlockContext H} {held : Overlays}
    {a : AssetView × List AssetTrace} {P : PoolView} {m : MarketView × List Txid}
    (hc : Candidates r checks held ctx a P m) :
    ∃ v held', runRules ctx held (r.boxed checks) = .ok (v, held') ∧ v.ok = true ∧
      ((r.boxed checks).foldl (fun held rule => rule.applied held ctx.block ctx.height) held').views =
        settledViews r ctx.height a P m := by
  have hassets := assetsRule_passes hc.assets
  have hlen := assetCandidate_length hc.assets
  generalize hkept : held.assets.keep (HeaderFamily.blockHash ctx.block.header) a = kept at hassets
  have htrace : kept.trace (HeaderFamily.blockHash ctx.block.header) = some a.2 := by
    rw [← hkept]
    exact trace_keep
  obtain ⟨v₂, pool, hpool, hok₂, hpoolApplied⟩ :=
    @poolRule_passes _ H _ r checks ctx { held with assets := kept } a.2 P htrace hlen hc.pool
  obtain ⟨v₃, markets, hmarkets, hok₃, hmarketsApplied⟩ :=
    @marketRules_pass _ H _ r ctx { held with assets := kept, pool } a.2 m htrace hlen hc.markets
  obtain ⟨pool', hfold, hview⟩ := hpoolApplied ⟨a.1, []⟩ markets
  have hrest : runRules ctx { held with assets := kept }
      ((if r.pool then [poolRule checks] else []) ++ r.marketRules) =
      .ok (v₂ ++ v₃, ⟨kept, pool, markets⟩) := by
    rw [runRules_append, hpool, Res.ok_bind]
    dsimp only
    rw [hmarkets]
    rfl
  refine ⟨_, _, runRules_cons hassets hrest, ?_, ?_⟩
  · simp [hok₂, hok₃]
  · rw [boxed_split, List.foldl_cons, List.foldl_append, ← hkept, assetsRule_commit, hfold,
      hmarketsApplied, hview]
    rfl

/-! ### A step with and without what is kept -/

omit [Bitcoin] in
theorem allowances_boxed [Bitcoin] (r : OverlayRules) (checks : Bool) (ctx : BlockContext H)
    (held held₂ : Overlays) : allowances ctx held₂ 0 (r.boxed checks) =
      allowances ctx held 0 (r.boxed checks) := by
  have hsome : ∀ (rules : List (BlockRule H Overlays)), (∀ rule ∈ rules, ∀ held : Overlays,
      rule.coinbaseAllowance held ctx = some 0) →
      ∀ acc, allowances ctx held₂ acc rules = allowances ctx held acc rules := by
    intro rules
    induction rules with
    | nil => exact fun _ _ => rfl
    | cons rule rules ih =>
      intro hrules acc
      unfold allowances
      rw [hrules rule List.mem_cons_self, hrules rule List.mem_cons_self]
      simp only [Option.bind_eq_bind, Option.bind_some]
      cases Word.checkedAdd 64 acc 0 with
      | none => rfl
      | some n => exact ih (fun x hx => hrules x (List.mem_cons_of_mem _ hx)) n
  refine hsome _ (fun rule hrule held => ?_) 0
  rw [boxed_split, List.mem_cons, List.mem_append] at hrule
  rcases hrule with rfl | hpool | hmarkets
  · rfl
  · split_ifs at hpool with hr
    · rw [List.mem_singleton.mp hpool]
      rfl
    · cases hpool
  · unfold OverlayRules.marketRules at hmarkets
    cases hm : r.markets with
    | none =>
      rw [hm] at hmarkets
      cases hmarkets
    | some «from» =>
      rw [hm] at hmarkets
      rw [List.mem_singleton.mp hmarkets]
      rfl

/-- The block-context phase on two states of the rules: where the rules'
checks pass on the one they pass on the other, the rest is the same. -/
theorem validateBlockContext_held {σ : Type} {params : Params} {overlay : Overlay}
    {c : Candidate H σ} {held held' : σ} {v : Verdict} {next : Records} (held₂ : σ) (Q : σ → Prop)
    (h : validateBlockContext params overlay c held = .ok (v, next, held')) (hok : v.ok = true)
    (hallow : ∀ ctx : BlockContext H, allowances ctx held₂ 0 c.extra = allowances ctx held 0 c.extra)
    (hrules : ∀ ctx w, ctx.block = c.block → ctx.height = c.height →
      runRules ctx held c.extra = .ok (w, held') → w.ok = true →
      ∃ w₂ held₂', runRules ctx held₂ c.extra = .ok (w₂, held₂') ∧ w₂.ok = true ∧ Q held₂') :
    ∃ v₂ held₂', validateBlockContext params overlay c held₂ = .ok (v₂, next, held₂') ∧
      v₂.ok = true ∧ Q held₂' := by
  simp only [validateBlockContext] at h ⊢
  obtain ⟨cb, hcb, h⟩ := Res.bind_eq_ok.mp h
  obtain ⟨scripts, hscripts, h⟩ := Res.bind_eq_ok.mp h
  obtain ⟨⟨w, held''⟩, hrun, h⟩ := Res.bind_eq_ok.mp h
  simp only [Res.ok.injEq, Prod.mk.injEq] at h
  obtain ⟨rfl, rfl, rfl⟩ := h
  rw [Verdict.ok_append, Bool.and_eq_true] at hok
  obtain ⟨w₂, held₂', hrun₂, hw₂, hQ⟩ := hrules _ w rfl rfl hrun hok.2
  refine ⟨_, held₂', Res.bind_eq_ok.mpr ⟨cb, hcb, Res.bind_eq_ok.mpr ⟨scripts, hscripts,
    Res.bind_eq_ok.mpr ⟨_, hrun₂, rfl⟩⟩⟩, ?_, hQ⟩
  rw [Verdict.ok_append, Bool.and_eq_true, hallow]
  exact ⟨hok.1, hw₂⟩

/-- The same chain with the same applied views: the two may differ in what the
rules keep for candidates, and in the mempool. -/
structure Clean (s s₂ : StateOf H Overlays) : Prop where
  chain : SameChain s s₂
  views : s₂.held.views = s.held.views

/-- A block that passes on a state passes on a clean one, and leaves the same
records and the same views. -/
theorem judge_clean {s s₂ : StateOf H Overlays} {r : OverlayRules} {checks : Bool}
    (hc : Clean s s₂) (hrules : s.extraRules = r.boxed checks) {height : UInt32} {block : Block H}
    {now : Option UInt32} {v : Verdict} {next : Records} {held' : Overlays}
    (h : s.judge height block now = .ok (v, next, held')) (hok : v.ok = true) :
    ∃ v₂ held₂', s₂.judge height block now = .ok (v₂, next, held₂') ∧ v₂.ok = true ∧
      ((r.boxed checks).foldl (fun held rule => rule.applied held block height.toNat)
        held₂').views =
      ((r.boxed checks).foldl (fun held rule => rule.applied held block height.toNat)
        held').views := by
  have hwindow : s₂.window height.toNat = s.window height.toNat := by
    unfold StateOf.window
    rw [hc.chain.headers]
  have hoverlay : s₂.overlay = s.overlay := by
    unfold StateOf.overlay
    rw [hc.chain.challenge, hc.chain.doc]
  have hcandidate : s₂.candidate height.toNat block = s.candidate height.toNat block := by
    unfold StateOf.candidate
    rw [hwindow, hc.chain.utxo, hc.chain.records, hc.chain.extraRules]
  simp only [StateOf.judge] at h ⊢
  rw [hwindow, hoverlay, hcandidate, hc.chain.params, hc.chain.headers]
  obtain ⟨structural, hstructural, h⟩ := Res.bind_eq_ok.mp h
  obtain ⟨⟨context, next', held''⟩, hcontext, h⟩ := Res.bind_eq_ok.mp h
  simp only [Res.ok.injEq, Prod.mk.injEq] at h
  obtain ⟨rfl, rfl, rfl⟩ := h
  rw [Verdict.ok_append, Bool.and_eq_true] at hok
  have hextra : (s.candidate height.toNat block).extra = r.boxed checks := hrules
  obtain ⟨v₂, held₂', hcontext₂, hv₂, hviews⟩ := validateBlockContext_held s₂.held
    (fun held₂' => ((r.boxed checks).foldl
      (fun held rule => rule.applied held block height.toNat) held₂').views =
      ((r.boxed checks).foldl (fun held rule => rule.applied held block height.toNat)
        held'').views) hcontext hok.2
    (fun ctx => by rw [hextra]; exact allowances_boxed r checks ctx _ _)
    (fun ctx w hblock hheight hrun hw => by
      rw [hextra] at hrun ⊢
      obtain ⟨a, P, m, hcands⟩ := candidates_of_passed hrun hw
      obtain ⟨w₁, held₁, hrun₁, -, hviews₁⟩ := overlays_run hcands
      obtain ⟨w₂, held₂', hrun₂, hw₂, hviews₂⟩ := overlays_run (hcands.views hc.views)
      rw [hrun] at hrun₁
      cases hrun₁
      refine ⟨w₂, held₂', hrun₂, hw₂, ?_⟩
      have hblock' : ctx.block = block := hblock
      have hheight' : ctx.height = height.toNat := hheight
      rw [← hblock', ← hheight', hviews₁, hviews₂])
  refine ⟨_, held₂', Res.bind_eq_ok.mpr ⟨structural, hstructural, Res.bind_eq_ok.mpr
    ⟨_, hcontext₂, rfl⟩⟩, ?_, hviews⟩
  rw [Verdict.ok_append, Bool.and_eq_true]
  exact ⟨hok.1, hv₂⟩

/-- **An applied block on a clean state.** It is applied there too, and the
states are the same again. -/
theorem apply_clean {s s₂ s' : StateOf H Overlays} {r : OverlayRules} {checks : Bool}
    (hc : Clean s s₂) (hrules : s.extraRules = r.boxed checks) {height : UInt32} {block : Block H}
    {expect : Option BlockHash} {now : Option UInt32} {a : Applied}
    (h : s.apply height block expect now = .ok (s', .ok a)) :
    ∃ s₂', s₂.apply height block expect now = .ok (s₂', .ok a) ∧ Clean s' s₂' := by
  have htip : s₂.tip = s.tip := by
    unfold StateOf.tip
    rw [hc.chain.hashes, hc.chain.headers]
  simp only [StateOf.apply] at h ⊢
  obtain ⟨t, ht, h⟩ := Res.bind_eq_ok.mp h
  rw [htip, ht, Res.ok_bind]
  by_cases hheight : height.toNat = t.height + 1
  case neg =>
    rw [if_pos hheight] at h
    cases h
  by_cases hprev : HeaderFamily.prev block.header = t.hash
  case neg =>
    rw [if_neg (not_not.mpr hheight), if_pos hprev] at h
    cases h
  rw [if_neg (not_not.mpr hheight), if_neg (not_not.mpr hprev)] at h ⊢
  obtain ⟨⟨v, next, held'⟩, hj, h⟩ := Res.bind_eq_ok.mp h
  dsimp only at h
  split_ifs at h with hv hexpect
  · cases h
  · cases h
  cases h
  have hok : v.ok = true := by simpa using hv
  obtain ⟨v₂, held₂', hj₂, hv₂, hviews⟩ := judge_clean hc hrules hj hok
  rw [hj₂, Res.ok_bind]
  simp only [hv₂, Bool.not_true, Bool.false_eq_true, if_false, if_neg hexpect]
  refine ⟨_, rfl, ⟨?_, ?_⟩⟩
  · refine ⟨hc.chain.doc, hc.chain.params, hc.chain.bits, hc.chain.challenge, ?_, ?_, ?_, ?_,
      hc.chain.extraRules⟩
    · unfold StateOf.commit
      dsimp only
      rw [hc.chain.headers]
    · unfold StateOf.commit
      dsimp only
      rw [hc.chain.hashes]
    · unfold StateOf.commit
      dsimp only
      rw [hc.chain.utxo]
    · unfold StateOf.commit
      dsimp only
      rw [hc.chain.records]
  · unfold StateOf.commit
    dsimp only
    rw [hc.chain.extraRules, hrules]
    exact hviews

/-! ### Runs -/

/-- A run of nothing but applied blocks. -/
inductive AppliedOnly {σ : Type} (doc : ChainDocument) (rules : List (BlockRule H σ)) (held : σ) :
    List (Block H) → StateOf H σ → Prop
  | genesis {genesis expect s} : fromGenesisWithRules doc genesis expect rules held = .ok s →
      AppliedOnly doc rules held [genesis] s
  | applied {blocks s height block expect now s' a} : AppliedOnly doc rules held blocks s →
      s.apply height block expect now = .ok (s', .ok a) →
      AppliedOnly doc rules held (blocks ++ [block]) s'

omit [Bitcoin] [HeaderFamily H] in
/-- A call that moves neither the chain nor a view. -/
theorem Clean.quiet {s s' s₂ : StateOf H Overlays} (hc : Clean s s₂) (hsame : SameChain s s')
    (hviews : s'.held.views = s.held.views) : Clean s' s₂ := by
  refine ⟨⟨?_, ?_, ?_, ?_, ?_, ?_, ?_, ?_, ?_⟩, hc.views.trans hviews.symm⟩
  · exact hc.chain.doc.trans hsame.doc.symm
  · exact hc.chain.params.trans hsame.params.symm
  · exact hc.chain.bits.trans hsame.bits.symm
  · exact hc.chain.challenge.trans hsame.challenge.symm
  · exact hc.chain.headers.trans hsame.headers.symm
  · exact hc.chain.hashes.trans hsame.hashes.symm
  · exact hc.chain.utxo.trans hsame.utxo.symm
  · exact hc.chain.records.trans hsame.records.symm
  · exact hc.chain.extraRules.trans hsame.extraRules.symm

/-- The clean state of a run: its blocks applied, nothing judged between them. -/
theorem chain_clean {doc : ChainDocument} {r : OverlayRules} {checks : Bool}
    {blocks : List (Block H)} {s : StateOf H Overlays} (h : Chain doc (r.boxed checks) {} blocks s) :
    ∃ s₂, AppliedOnly doc (r.boxed checks) {} blocks s₂ ∧ Clean s s₂ := by
  induction h with
  | genesis hgen => exact ⟨_, .genesis hgen, .refl _, rfl⟩
  | @step blocks s b s' hc hstep ih =>
    obtain ⟨s₂, happlied, hclean⟩ := ih
    have hrules : s.extraRules = r.boxed checks := hc.onChain.rules
    cases b with
    | some block =>
      cases hstep with
      | applied happ =>
        obtain ⟨s₂', happ₂, hclean'⟩ := apply_clean hclean hrules happ
        exact ⟨s₂', happlied.applied happ₂, hclean'⟩
    | none =>
      refine ⟨s₂, by simpa using happlied, ?_⟩
      rcases hstep.cases with ⟨_, _, _, _, _, _, _, hb, -⟩ | ⟨-, hsame, hheld | hjudge⟩
      · cases hb
      · exact hclean.quiet hsame (congrArg Overlays.views hheld)
      · obtain ⟨height, block, now, v, next, hj⟩ := hjudge
        have hok : s.held.Ok := held_ok_of_chain (boxed_keeps r checks) Overlays.ok_empty hc
        have hkeeps : ∀ rule ∈ s.extraRules, Keeps rule := by
          rw [hrules]
          exact boxed_keeps r checks
        exact hclean.quiet hsame (judge_keeps hkeeps hok hj).2

/-- **Candidates leave no trace.** Over any run of blocks judged, refused and
applied in any order, the coins, the records, the headers and the views of the
three rules are those of a run of the applied blocks alone. -/
theorem leaves_no_trace {doc : ChainDocument} {r : OverlayRules} {checks : Bool}
    {blocks : List (Block H)} {s : StateOf H Overlays} (h : Chain doc (r.boxed checks) {} blocks s) :
    ∃ s', AppliedOnly doc (r.boxed checks) {} blocks s' ∧ s.utxo = s'.utxo ∧
      s.records = s'.records ∧ s.headers = s'.headers ∧ s.held.views = s'.held.views := by
  obtain ⟨s', happlied, hclean⟩ := chain_clean h
  exact ⟨s', happlied, hclean.chain.utxo.symm, hclean.chain.records.symm,
    hclean.chain.headers.symm, hclean.views.symm⟩

end

section

attribute [local instance] sampleBitcoin

set_option maxRecDepth 100000 in
/-- A run whose last call judges its block 1 again: the rules keep the
candidate, and its views are those of the block applied. -/
theorem leaves_no_trace_sample : ∃ (blocks : List (Block Header)) (s : StateOf Header Overlays),
    Chain sampleDoc (OverlayRules.boxed ⟨true, some 0⟩ true) {} blocks s ∧
      s.held.assets.pending ≠ [] ∧ ∃ s', AppliedOnly sampleDoc
        (OverlayRules.boxed ⟨true, some 0⟩ true) {} blocks s' ∧ s.held.views = s'.held.views := by
  obtain ⟨genesis, later, s, hrun, hp⟩ := exists_chain_of_sampleRun sampleDoc
    (OverlayRules.boxed ⟨true, some 0⟩ true) {} 1 [([], [])]
    (fun _ later s => later.head?.any fun block => (s.judge 1 block none).any fun j =>
      !j.2.2.assets.pending.isEmpty)
    (by decide +kernel)
  obtain ⟨block, -, hp⟩ := (Option.any_eq_true _ _).mp hp
  obtain ⟨⟨v, next, held⟩, hjudge, hp⟩ := Res.any_eq_true.mp hp
  have hchain := hrun.step (.judged hjudge)
  obtain ⟨s', happlied, -, -, -, hviews⟩ := leaves_no_trace hchain
  refine ⟨_, _, hchain, ?_, s', happlied, hviews⟩
  intro hnil
  dsimp only at hnil hp
  rw [hnil] at hp
  cases hp

end

end Sidestr
