/-
# What the overlay rules keep

The state of the overlay rules over a run: the views of the applied blocks,
and what was kept for candidates until one is applied. Each rule keeps it in
order (`Keeps`): its check may add to what is kept for candidates and moves no
view; applying a block takes what was kept for it.

So over every run the pools are not empty, the resolvers decode and the
amounts are ones a tally can assign (`held_ok_of_chain`), also in what was
kept for blocks that were never applied; and a block that is only judged moves
no view (`judge_keeps`).

Key definitions: `Overlays.Ok`, `Keeps`.
Key theorems: `boxed_keeps`, `judge_keeps`, `held_ok_of_chain`.
-/
import Sidestr.Core.Overlays

namespace Sidestr

section

variable [Bitcoin] {H : Type} [HeaderFamily H]

/-! ### What the rules' state keeps -/

/-- The views and what was kept for candidates are in order. -/
structure Overlays.Ok (o : Overlays) : Prop where
  pool : o.pool.view.Ok
  pools : ∀ p ∈ o.pool.pending, p.2.Ok
  market : o.markets.view.Ok
  markets : ∀ p ∈ o.markets.pending, p.2.1.Ok
  traces : ∀ p ∈ o.assets.pending, ∀ t ∈ p.2.2, AmountsOk t.outputs

omit [HeaderFamily H] in
theorem applyTx_result {policy : AssetMintPolicy} {height : ℕ} {v v' : AssetView}
    {tx : Transaction} {out : Map ℕ Carry} (h : v.applyTx policy height tx = (v', .ok out)) :
    v.checkInner policy tx = .ok out := by
  simp only [AssetView.applyTx] at h
  cases hc : v.checkInner policy tx with
  | ok o =>
    simp only [hc] at h
    split at h
    · rw [← (Prod.mk.inj h).2]
    · rw [← (Prod.mk.inj h).2]
  | err e => simp [hc] at h
  | panic => simp [hc] at h

omit [HeaderFamily H] in
theorem candidateTx_amounts {policy : AssetMintPolicy} {height : ℕ}
    {st st' : AssetView × List AssetTrace} {p : Transaction × ℕ}
    (hst : ∀ t ∈ st.2, AmountsOk t.outputs) (h : candidateTx policy height st p = .ok st') :
    ∀ t ∈ st'.2, AmountsOk t.outputs := by
  obtain ⟨tx, index⟩ := p
  by_cases hcb : isCoinbase tx = true
  · simp only [candidateTx, hcb, and_true] at h
    split_ifs at h with h0
    · simp only [Res.ok.injEq] at h
      subst h
      intro t ht
      rcases List.mem_append.mp ht with ht | ht
      · exact hst t ht
      · rw [List.mem_singleton] at ht
        rw [ht]
        intro k c hk
        simp at hk
    · simp [AssetView.applyTransactions, hcb] at h
  · obtain ⟨out, happly, htr⟩ := candidateTx_ok (by simpa using hcb) h
    intro t ht
    rw [htr] at ht
    rcases List.mem_append.mp ht with ht | ht
    · exact hst t ht
    · rw [List.mem_singleton] at ht
      rw [ht]
      exact (checkInner_ok (applyTx_result happly)).amounts

omit [HeaderFamily H] in
/-- The traces of a candidate hold amounts a tally can assign. -/
theorem assetCandidate_amounts {policy : AssetMintPolicy} {view : AssetView}
    {txdata : List Transaction} {height : ℕ} {a : AssetView × List AssetTrace}
    (h : assetCandidate policy view txdata height = .ok a) : ∀ t ∈ a.2, AmountsOk t.outputs := by
  obtain ⟨_, -, h⟩ := Res.bind_eq_ok.mp h
  exact Res.foldlM_ok_ind (P := fun st => ∀ t ∈ st.2, AmountsOk t.outputs) h (by simp)
    fun _ _ _ _ hst hstep => candidateTx_amounts hst hstep

omit [Bitcoin] [HeaderFamily H] in
theorem trace_amounts {o : Overlays} (ho : o.Ok) {hash : BlockHash} {traces : List AssetTrace}
    (h : o.assets.trace hash = some traces) : ∀ t ∈ traces, AmountsOk t.outputs := by
  obtain ⟨p, hp, rfl⟩ := Option.map_eq_some_iff.mp h
  exact ho.traces p (List.mem_of_find?_eq_some hp)

/-- What a rule of the overlays keeps: its check leaves the views and the order
of the state, its commit leaves the order. -/
structure Keeps (rule : BlockRule H Overlays) : Prop where
  check : ∀ {held held' : Overlays} {ctx : BlockContext H} {ok : Option Bool}, held.Ok →
    rule.check held ctx = .ok (ok, held') → held'.Ok ∧ held'.views = held.views
  applied : ∀ {held : Overlays} {block : Block H} {height : ℕ}, held.Ok →
    (rule.applied held block height).Ok

theorem assetsRule_keeps (r : OverlayRules) : Keeps (assetsRule (H := H) r) where
  check := by
    intro held held' ctx ok hok h
    simp only [assetsRule] at h
    obtain ⟨⟨ok', assets⟩, hc, h⟩ := Res.bind_eq_ok.mp h
    simp only [Res.ok.injEq, Prod.mk.injEq] at h
    obtain ⟨-, rfl⟩ := h
    unfold AssetsHeld.check at hc
    split at hc
    · rename_i next traces hcand
      simp only [Res.ok.injEq, Prod.mk.injEq] at hc
      obtain ⟨-, rfl⟩ := hc
      refine ⟨⟨hok.pool, hok.pools, hok.market, hok.markets, fun p hp => ?_⟩, rfl⟩
      rcases List.mem_append.mp hp with hp | hp
      · exact hok.traces p (List.mem_filter.mp hp).1
      · rw [List.mem_singleton] at hp
        rw [hp]
        exact assetCandidate_amounts hcand
    · simp only [Res.ok.injEq, Prod.mk.injEq] at hc
      obtain ⟨-, rfl⟩ := hc
      exact ⟨hok, rfl⟩
    · simp at hc
  applied := by
    intro held block height hok
    refine ⟨hok.pool, hok.pools, hok.market, hok.markets, fun p hp => ?_⟩
    simp only [assetsRule, AssetsHeld.applied] at hp
    split at hp
    · simp at hp
    · simp at hp

theorem poolRule_keeps (checks : Bool) : Keeps (poolRule (H := H) checks) where
  check := by
    intro held held' ctx ok hok h
    simp only [poolRule] at h
    obtain ⟨⟨ok', pool⟩, hc, h⟩ := Res.bind_eq_ok.mp h
    simp only [Res.ok.injEq, Prod.mk.injEq] at h
    obtain ⟨-, rfl⟩ := h
    cases htr : held.assets.trace (HeaderFamily.blockHash ctx.block.header) with
    | none =>
      simp only [htr, PoolHeld.check, Res.ok.injEq, Prod.mk.injEq] at hc
      obtain ⟨-, rfl⟩ := hc
      exact ⟨hok, rfl⟩
    | some traces =>
      simp only [htr, PoolHeld.check] at hc
      split_ifs at hc
      · simp only [Res.ok.injEq, Prod.mk.injEq] at hc
        obtain ⟨-, rfl⟩ := hc
        exact ⟨hok, rfl⟩
      · split at hc
        · rename_i next hcand
          simp only [Res.ok.injEq, Prod.mk.injEq] at hc
          obtain ⟨-, rfl⟩ := hc
          refine ⟨⟨hok.pool, fun p hp => ?_, hok.market, hok.markets, hok.traces⟩, rfl⟩
          rcases List.mem_append.mp hp with hp | hp
          · exact hok.pools p (List.mem_filter.mp hp).1
          · rw [List.mem_singleton] at hp
            rw [hp]
            exact poolCandidate_ok hok.pool (trace_amounts hok htr) hcand
        · simp only [Res.ok.injEq, Prod.mk.injEq] at hc
          obtain ⟨-, rfl⟩ := hc
          exact ⟨hok, rfl⟩
        · simp at hc
  applied := by
    intro held block height hok
    simp only [poolRule, PoolHeld.applied]
    split
    · rename_i view hf
      exact ⟨hok.pools _ (List.mem_of_find?_eq_some hf), by simp, hok.market, hok.markets,
        hok.traces⟩
    · exact ⟨hok.pool, by simp, hok.market, hok.markets, hok.traces⟩

omit [HeaderFamily H] in
theorem registerMarketAssets_pending (height : ℕ) : ∀ (opened : List Txid) (a : AssetsHeld),
    (opened.foldl (fun a m => a.registerMarketAssets m (noIdOf m) height) a).pending = a.pending
  | [], _ => rfl
  | m :: opened, a => by
    rw [List.foldl_cons, registerMarketAssets_pending height opened]
    rfl

theorem marketsRule_keeps («from» : ℕ) : Keeps (marketsRule (H := H) «from») where
  check := by
    intro held held' ctx ok hok h
    simp only [marketsRule] at h
    split_ifs at h
    · simp only [Res.ok.injEq, Prod.mk.injEq] at h
      obtain ⟨-, rfl⟩ := h
      exact ⟨hok, rfl⟩
    obtain ⟨⟨ok', markets⟩, hc, h⟩ := Res.bind_eq_ok.mp h
    simp only [Res.ok.injEq, Prod.mk.injEq] at h
    obtain ⟨-, rfl⟩ := h
    cases htr : held.assets.trace (HeaderFamily.blockHash ctx.block.header) with
    | none =>
      simp only [htr, MarketHeld.check, Res.ok.injEq, Prod.mk.injEq] at hc
      obtain ⟨-, rfl⟩ := hc
      exact ⟨hok, rfl⟩
    | some traces =>
      simp only [htr, MarketHeld.check] at hc
      split_ifs at hc
      · simp only [Res.ok.injEq, Prod.mk.injEq] at hc
        obtain ⟨-, rfl⟩ := hc
        exact ⟨hok, rfl⟩
      · split at hc
        · rename_i next opened hcand
          simp only [Res.ok.injEq, Prod.mk.injEq] at hc
          obtain ⟨-, rfl⟩ := hc
          refine ⟨⟨hok.pool, hok.pools, hok.market, fun p hp => ?_, hok.traces⟩, rfl⟩
          rcases List.mem_append.mp hp with hp | hp
          · exact hok.markets p (List.mem_filter.mp hp).1
          · rw [List.mem_singleton] at hp
            rw [hp]
            exact marketCandidate_ok hok.market hcand
        · simp only [Res.ok.injEq, Prod.mk.injEq] at hc
          obtain ⟨-, rfl⟩ := hc
          exact ⟨hok, rfl⟩
        · simp at hc
  applied := by
    intro held block height hok
    simp only [marketsRule, MarketHeld.applied]
    split_ifs
    · exact hok
    · split
      · rename_i view opened hf
        refine ⟨hok.pool, hok.pools, hok.markets _ (List.mem_of_find?_eq_some hf), by simp, ?_⟩
        rw [registerMarketAssets_pending]
        exact hok.traces
      · exact ⟨hok.pool, hok.pools, hok.market, by simp, hok.traces⟩

/-! ### Runs -/

theorem boxed_keeps (r : OverlayRules) (checks : Bool) :
    ∀ rule ∈ r.boxed (H := H) checks, Keeps rule := by
  intro rule h
  rw [OverlayRules.boxed, List.cons_append, List.mem_cons, List.mem_append] at h
  rcases h with rfl | h | h
  · exact assetsRule_keeps r
  · split_ifs at h
    · rw [List.mem_singleton] at h
      exact h ▸ poolRule_keeps checks
    · simp at h
  · split at h
    · rw [List.mem_singleton] at h
      exact h ▸ marketsRule_keeps _
    · simp at h

omit [Bitcoin] [HeaderFamily H] in
/-- The checks of a list of such rules. -/
theorem runRules_keeps {ctx : BlockContext H} : ∀ {rules : List (BlockRule H Overlays)}
    {held held' : Overlays} {v : Verdict}, (∀ rule ∈ rules, Keeps rule) → held.Ok →
    runRules ctx held rules = .ok (v, held') → held'.Ok ∧ held'.views = held.views
  | [], held, held', v, _, hok, h => by
    simp only [runRules, Res.ok.injEq, Prod.mk.injEq] at h
    exact h.2 ▸ ⟨hok, rfl⟩
  | rule :: rules, held, held', v, hk, hok, h => by
    simp only [runRules] at h
    obtain ⟨⟨ok, h1⟩, hc, h⟩ := Res.bind_eq_ok.mp h
    obtain ⟨⟨v', h2⟩, hr, h⟩ := Res.bind_eq_ok.mp h
    simp only [Res.ok.injEq, Prod.mk.injEq] at h
    obtain ⟨hok1, hv1⟩ := (hk rule List.mem_cons_self).check hok hc
    obtain ⟨hok2, hv2⟩ := runRules_keeps (fun x hx => hk x (List.mem_cons_of_mem _ hx)) hok1 hr
    exact h.2 ▸ ⟨hok2, hv2.trans hv1⟩

omit [Bitcoin] [HeaderFamily H] in
/-- Applying a block under a list of such rules. -/
theorem applied_keeps {block : Block H} {height : ℕ} : ∀ {rules : List (BlockRule H Overlays)}
    {held : Overlays}, (∀ rule ∈ rules, Keeps rule) → held.Ok →
    (rules.foldl (fun held rule => rule.applied held block height) held).Ok
  | [], _, _, hok => hok
  | rule :: rules, held, hk, hok => by
    have hrest : ∀ x ∈ rules, Keeps x := fun x hx => hk x (List.mem_cons_of_mem _ hx)
    rw [List.foldl_cons]
    exact applied_keeps hrest ((hk rule List.mem_cons_self).applied hok)

/-- **A judgement moves no view.** -/
theorem judge_keeps {s : StateOf H Overlays} (hk : ∀ rule ∈ s.extraRules, Keeps rule)
    (hok : s.held.Ok) {height : UInt32} {block : Block H} {now : Option UInt32} {v : Verdict}
    {next : Records} {held : Overlays} (h : s.judge height block now = .ok (v, next, held)) :
    held.Ok ∧ held.views = s.held.views := by
  obtain ⟨w, hrun⟩ := judge_runRules h
  exact runRules_keeps hk hok hrun

/-- **The rules' state is in order over every run.** -/
theorem held_ok_of_chain {doc : ChainDocument} {rules : List (BlockRule H Overlays)}
    {held : Overlays} {blocks : List (Block H)} {s : StateOf H Overlays}
    (hk : ∀ rule ∈ rules, Keeps rule) (hok : held.Ok) (h : Chain doc rules held blocks s) :
    s.held.Ok := by
  induction h with
  | genesis hgen =>
    obtain ⟨s0, cb, rest, next, held', h0, hacc, -, rfl⟩ := fromGenesis_ok hgen
    obtain ⟨bits, challenge, federation, -, rfl⟩ := empty_ok h0
    obtain ⟨v, hrun, -⟩ := hacc.extra
    exact applied_keeps hk (runRules_keeps hk hok hrun).1
  | step hc hstep ih =>
    have hs := hc.onChain.rules
    rcases hc.step_cases hstep with ⟨block, cb, rest, next, held', rfl, -, ha, rfl⟩ |
      ⟨rfl, -, hsame | ⟨height, block, now, v, next, hj⟩⟩
    · obtain ⟨v, hrun, -⟩ := ha.extra
      rw [hs] at hrun
      simp only [StateOf.commit, hs]
      exact applied_keeps hk (runRules_keeps hk ih hrun).1
    · exact hsame ▸ ih
    · exact (judge_keeps (by rw [hs]; exact hk) ih hj).1

omit [Bitcoin] [HeaderFamily H] in
/-- The rules start in order. -/
theorem Overlays.ok_empty : Overlays.Ok {} :=
  ⟨fun id p h => by simp at h, by simp, fun id m h => by simp at h, by simp, by simp⟩

end

end Sidestr
