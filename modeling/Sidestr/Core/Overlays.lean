/-
# The overlay rules of a chain

The assets, pool and markets rules as a state carries them (`overlays.rs`), in
that order: the collateral rules read the assets rule's trace of the candidate
block. The rules share a mint policy: the assets rule waives its check for a
mint that another rule accounts for. The policy reads the views the applied
blocks left, the checks read the views as the block's transactions move them.

A block accepted under these rules is a sequence of transaction steps on the
three views (`accepted_steps`); a judgement that is not applied moves none of
them (`judge_views`).

Key definitions: `OverlayRules`, `Overlays`, `mintPolicy`, `OverlayRules.boxed`,
`Views`, `TxStep`, `BlockSteps`.
Key theorems: `accepted_steps`, `judge_views`.
-/
import Sidestr.Core.Markets
import Sidestr.Core.Accept
import Sidestr.Core.Spending

namespace Sidestr

/-- Which rules join the assets rule: pools, and markets from a height on. -/
structure OverlayRules where
  pool : Bool
  markets : Option ℕ
  deriving DecidableEq, Repr

/-- The state of the three rules. -/
structure Overlays where
  assets : AssetsHeld := {}
  pool : PoolHeld := {}
  markets : MarketHeld := {}

section

variable [Bitcoin]

/-- What the collateral rules account for: a pool's opening and any mint of an
existing pool's shares; a split of an existing market. -/
def mintPolicy (r : OverlayRules) (held : Overlays) : AssetMintPolicy := fun asset txid cls =>
  (r.pool && ((asset == txid && cls.opensPool) || held.pool.view.contains asset)) ||
    (r.markets.isSome && cls.markets.any fun p => match p.2 with
      | .split market _ => held.markets.view.contains market &&
          (asset == market || asset == noIdOf market)
      | _ => false)

variable {H : Type} [HeaderFamily H]

/-- The assets rule. -/
def assetsRule (r : OverlayRules) : BlockRule H Overlays where
  id := .assets
  name := some assetsName
  check held ctx := do
    let (ok, assets) ← held.assets.check (mintPolicy r held)
      (HeaderFamily.blockHash ctx.block.header) ctx.block.txdata ctx.height
    .ok (ok, { held with assets })
  applied held block height :=
    let hash := HeaderFamily.blockHash block.header
    { held with assets := held.assets.applied (mintPolicy r held) hash block.txdata height }

/-- The pool rule; `checks` says whether the build checks for overflow. -/
def poolRule (checks : Bool) : BlockRule H Overlays where
  id := .pool
  name := some poolName
  check held ctx := do
    let hash := HeaderFamily.blockHash ctx.block.header
    let (ok, pool) ← held.pool.check checks (held.assets.trace hash) hash ctx.block.txdata ctx.height
    .ok (ok, { held with pool })
  applied held block _ :=
    { held with pool := held.pool.applied (HeaderFamily.blockHash block.header) }

/-- The markets rule from height `from` on. -/
def marketsRule («from» : ℕ) : BlockRule H Overlays where
  id := .markets
  name := some marketsName
  check held ctx :=
    if ctx.height < «from» then .ok (some true, held)
    else do
      let hash := HeaderFamily.blockHash ctx.block.header
      let (ok, markets) ← held.markets.check (held.assets.trace hash) hash ctx.block.txdata
        ctx.spending ctx.height
      .ok (ok, { held with markets })
  applied held block height :=
    if height < «from» then held
    else
      let (markets, opened) := held.markets.applied (HeaderFamily.blockHash block.header)
      let assets := opened.foldl (fun a m => a.registerMarketAssets m (noIdOf m) height) held.assets
      { held with markets, assets }

/-- The rules as a state takes them. -/
def OverlayRules.boxed (r : OverlayRules) (checks : Bool) : List (BlockRule H Overlays) :=
  assetsRule r :: (if r.pool then [poolRule checks] else []) ++
    (match r.markets with
      | some «from» => [marketsRule «from»]
      | none => [])

/-! ### The views -/

omit [Bitcoin] in
/-- Whether the markets rule judges blocks at this height. -/
def OverlayRules.marketsFrom (r : OverlayRules) (height : ℕ) : Bool :=
  r.markets.any fun «from» => «from» ≤ height

/-- The three views a transaction moves. -/
structure Views where
  assets : AssetView
  pool : PoolView
  markets : MarketView

omit [Bitcoin] in
/-- The views the applied blocks left. -/
def Overlays.views (h : Overlays) : Views := ⟨h.assets.view, h.pool.view, h.markets.view⟩

/-- One transaction after the coinbase on the three views; `held` is the
applied state the mint policy reads. -/
structure TxStep (r : OverlayRules) (held : Overlays) (height : ℕ) (V : Views) (tx : Transaction)
    (V' : Views) (trace : AssetTrace) : Prop where
  inputs : trace.inputs = V.assets.traceInputs tx
  assets : V.assets.applyTx (mintPolicy r held) height tx = (V'.assets, .ok trace.outputs)
  pool : if r.pool then ∃ act, V.pool.action tx trace height = .ok act ∧ act.Spec V.pool tx trace ∧
      V'.pool = act.result.elim V.pool V.pool.apply
    else V'.pool = V.pool
  markets : if r.marketsFrom height then
      ∃ effect, MarketEffect V.markets tx trace effect ∧
        (∀ m, effect = some m → m.Ok ∧ ∃ o ∈ tx.output, o.sats = m.collateral) ∧
        V'.markets = effect.elim V.markets V.markets.apply
    else V'.markets = V.markets

/-- The transactions of a block after its coinbase, in order, each with its trace. -/
inductive BlockSteps (r : OverlayRules) (held : Overlays) (height : ℕ) :
    Views → List (Transaction × AssetTrace) → Views → Prop
  | nil (V : Views) : BlockSteps r held height V [] V
  | cons {V V1 V' : Views} {tx : Transaction} {trace : AssetTrace}
      {txs : List (Transaction × AssetTrace)} :
      TxStep r held height V tx V1 trace → BlockSteps r held height V1 txs V' →
      BlockSteps r held height V ((tx, trace) :: txs) V'

/-! ### A candidate's folds are steps -/

/-- One transaction after the coinbase, as the assets rule reads it. -/
theorem candidateTx_ok {policy : AssetMintPolicy} {height k : ℕ}
    {st st' : AssetView × List AssetTrace} {tx : Transaction} (hcb : isCoinbase tx = false)
    (h : candidateTx policy height st (tx, k) = .ok st') :
    ∃ out, st.1.applyTx policy height tx = (st'.1, .ok out) ∧
      st'.2 = st.2 ++ [⟨st.1.traceInputs tx, out⟩] := by
  simp only [candidateTx, hcb, Bool.false_eq_true, and_false, ↓reduceIte,
    AssetView.applyTransactions, List.head?_cons, Res.expect_some, Res.ok_bind] at h
  obtain ⟨out, hout, h⟩ := Res.bind_eq_ok.mp h
  simp only [Res.ok.injEq] at h
  subst h
  exact ⟨out, Prod.ext rfl hout, rfl⟩

/-- The pool rule's fold over transactions with their traces, where the rule is there. -/
def PoolFold (r : OverlayRules) (checks : Bool) (height k : ℕ) (P : PoolView)
    (l : List (Transaction × AssetTrace)) (P' : PoolView) : Prop :=
  if r.pool then Res.foldlM (poolTx checks height) P (l.zipIdx k) = .ok P' else P' = P

/-- The markets rule's fold, where the rule judges the height. -/
def MarketFold (r : OverlayRules) (spending : Spending) (height k : ℕ) (st : MarketView × List Txid)
    (l : List (Transaction × AssetTrace)) (st' : MarketView × List Txid) : Prop :=
  if r.marketsFrom height then Res.foldlM (marketTx spending height) st (l.zipIdx k) = .ok st'
  else st'.1 = st.1

omit [HeaderFamily H] in
/-- The first transaction of a pool fold, after the coinbase. -/
theorem PoolFold.cons {r : OverlayRules} {checks : Bool} {height k : ℕ} {P P' : PoolView}
    {tx : Transaction} {trace : AssetTrace} {l : List (Transaction × AssetTrace)}
    (h : PoolFold r checks height (k + 1) P ((tx, trace) :: l) P') :
    ∃ P1, PoolFold r checks height (k + 1 + 1) P1 l P' ∧
      if r.pool then ∃ act, P.action tx trace height = .ok act ∧ act.Spec P tx trace ∧
        P1 = act.result.elim P P.apply
      else P1 = P := by
  unfold PoolFold at h ⊢
  split_ifs at h ⊢ with hr
  · rw [List.zipIdx_cons, Res.foldlM_cons] at h
    obtain ⟨P1, h1, h⟩ := Res.bind_eq_ok.mp h
    obtain ⟨effect, he, h1⟩ := Res.bind_eq_ok.mp h1
    obtain ⟨act, hact, hspec, rfl⟩ := PoolView.check_ok he
    refine ⟨P1, h, act, hact, hspec, ?_⟩
    cases hres : act.result with
    | none => simpa [hres] using h1.symm
    | some p => simpa [hres] using h1.symm
  · exact ⟨P, h, rfl⟩

omit [HeaderFamily H] in
/-- The first transaction of a market fold, after the coinbase. -/
theorem MarketFold.cons {r : OverlayRules} {spending : Spending} {height k : ℕ}
    {st st' : MarketView × List Txid} {tx : Transaction} {trace : AssetTrace}
    {l : List (Transaction × AssetTrace)} (hv : st.1.Ok)
    (h : MarketFold r spending height (k + 1) st ((tx, trace) :: l) st') :
    ∃ st1, MarketFold r spending height (k + 1 + 1) st1 l st' ∧ st1.1.Ok ∧
      if r.marketsFrom height then ∃ effect, MarketEffect st.1 tx trace effect ∧
        (∀ m, effect = some m → m.Ok ∧ ∃ o ∈ tx.output, o.sats = m.collateral) ∧
        st1.1 = effect.elim st.1 st.1.apply
      else st1.1 = st.1 := by
  unfold MarketFold at h ⊢
  split_ifs at h ⊢ with hr
  · rw [List.zipIdx_cons, Res.foldlM_cons] at h
    obtain ⟨st1, h1, h⟩ := Res.bind_eq_ok.mp h
    have hok := marketTx_ok hv h1
    obtain ⟨effect, he, h1⟩ := Res.bind_eq_ok.mp h1
    obtain ⟨heff, hm⟩ := MarketView.check_ok he hv
    refine ⟨st1, h, hok, effect, heff, hm, ?_⟩
    cases effect with
    | none => simpa using congrArg Prod.fst (Res.ok.inj h1).symm
    | some m => simpa using congrArg Prod.fst (Res.ok.inj h1).symm
  · exact ⟨st, h, hv, rfl⟩

omit [HeaderFamily H] in
/-- The three rules' folds over the transactions after the coinbase are steps. -/
theorem steps_of_folds {r : OverlayRules} (checks : Bool) {held : Overlays} {height : ℕ}
    (spending : Spending) : ∀ {txs : List Transaction} {k : ℕ} {v : AssetView}
    {ts : List AssetTrace} {a : AssetView × List AssetTrace},
    (∀ tx ∈ txs, isCoinbase tx = false) →
    Res.foldlM (candidateTx (mintPolicy r held) height) (v, ts) (txs.zipIdx (k + 1)) = .ok a →
    ∃ trs, a.2 = ts ++ trs ∧ trs.length = txs.length ∧
      ∀ {P P' : PoolView} {st st' : MarketView × List Txid}, st.1.Ok →
      PoolFold r checks height (k + 1) P (txs.zip trs) P' →
      MarketFold r spending height (k + 1) st (txs.zip trs) st' →
      BlockSteps r held height ⟨v, P, st.1⟩ (txs.zip trs) ⟨a.1, P', st'.1⟩
  | [], k, v, ts, a, _, hA => by
    simp only [List.zipIdx_nil, Res.foldlM_nil, Res.ok.injEq] at hA
    subst hA
    refine ⟨[], by simp, rfl, fun {P P' st st'} _ hP hM => ?_⟩
    have hp : P' = P := by
      unfold PoolFold at hP
      split_ifs at hP
      · simpa using hP.symm
      · exact hP
    have hm : st'.1 = st.1 := by
      unfold MarketFold at hM
      split_ifs at hM
      · exact congrArg Prod.fst (Res.ok.inj hM).symm
      · exact hM
    rw [hp, hm]
    exact .nil _
  | tx :: txs, k, v, ts, a, hcb, hA => by
    rw [List.zipIdx_cons, Res.foldlM_cons] at hA
    obtain ⟨⟨v1, ts1⟩, h1, hA⟩ := Res.bind_eq_ok.mp hA
    obtain ⟨out, happly, htrace⟩ := candidateTx_ok (hcb tx List.mem_cons_self) h1
    simp only at happly htrace
    subst htrace
    obtain ⟨trs, htrs, hlen, ih⟩ := steps_of_folds checks spending
      (fun t ht => hcb t (List.mem_cons_of_mem _ ht)) hA
    refine ⟨⟨v.traceInputs tx, out⟩ :: trs, by rw [htrs, List.append_assoc]; rfl, by simp [hlen], ?_⟩
    intro P P' st st' hok hP hM
    rw [List.zip_cons_cons] at hP hM
    obtain ⟨P1, hP1, hpool⟩ := hP.cons
    obtain ⟨st1, hM1, hok1, hmarket⟩ := hM.cons hok
    exact .cons ⟨rfl, happly, hpool, hmarket⟩ (ih hok1 hP1 hM1)

/-! ### What an accepted block does to the views -/

omit [Bitcoin] [HeaderFamily H] in
/-- What was kept last for a hash is what is found. -/
theorem find?_kept {α : Type} (hash : BlockHash) (a : α) (l : List (BlockHash × α)) :
    ((l.filter fun p => p.1 != hash) ++ [(hash, a)]).find? (fun p => p.1 == hash) =
      some (hash, a) := by
  rw [List.find?_append, List.find?_eq_none.mpr]
  · simp
  · intro p hp
    simpa using (List.mem_filter.mp hp).2

omit [HeaderFamily H] in
theorem AssetsHeld.check_passed {held held' : AssetsHeld} {policy : AssetMintPolicy}
    {hash : BlockHash} {txdata : List Transaction} {height : ℕ} {ok : Option Bool}
    (h : held.check policy hash txdata height = .ok (ok, held')) (hok : ok ≠ some false) :
    ∃ a, assetCandidate policy held.view txdata height = .ok a ∧ held' = { held with
      pending := held.pending.filter (fun p => p.1 != hash) ++ [(hash, a)] } := by
  unfold AssetsHeld.check at h
  split at h
  · rename_i next traces hc
    simp only [Res.ok.injEq, Prod.mk.injEq] at h
    exact ⟨_, hc, h.2.symm⟩
  · simp only [Res.ok.injEq, Prod.mk.injEq] at h
    exact absurd h.1.symm hok
  · simp at h

omit [HeaderFamily H] in
theorem PoolHeld.check_passed {checks : Bool} {held held' : PoolHeld} {traces : List AssetTrace}
    {hash : BlockHash} {txdata : List Transaction} {height : ℕ} {ok : Option Bool}
    (h : held.check checks (some traces) hash txdata height = .ok (ok, held'))
    (hok : ok ≠ some false) :
    ∃ next, poolCandidate checks held.view txdata traces height = .ok next ∧ held' = { held with
      pending := held.pending.filter (fun p => p.1 != hash) ++ [(hash, next)] } := by
  simp only [PoolHeld.check] at h
  split_ifs at h
  · simp only [Res.ok.injEq, Prod.mk.injEq] at h
    exact absurd h.1.symm hok
  · split at h
    · rename_i next hc
      simp only [Res.ok.injEq, Prod.mk.injEq] at h
      exact ⟨_, hc, h.2.symm⟩
    · simp only [Res.ok.injEq, Prod.mk.injEq] at h
      exact absurd h.1.symm hok
    · simp at h

omit [HeaderFamily H] in
theorem MarketHeld.check_passed {held held' : MarketHeld} {traces : List AssetTrace}
    {hash : BlockHash} {txdata : List Transaction} {spending : Spending} {height : ℕ}
    {ok : Option Bool}
    (h : held.check (some traces) hash txdata spending height = .ok (ok, held'))
    (hok : ok ≠ some false) :
    ∃ a, marketCandidate held.view txdata traces spending height = .ok a ∧ held' = { held with
      pending := held.pending.filter (fun p => p.1 != hash) ++ [(hash, a)] } := by
  simp only [MarketHeld.check] at h
  split_ifs at h
  · simp only [Res.ok.injEq, Prod.mk.injEq] at h
    exact absurd h.1.symm hok
  · split at h
    · rename_i next opened hc
      simp only [Res.ok.injEq, Prod.mk.injEq] at h
      exact ⟨_, hc, h.2.symm⟩
    · simp only [Res.ok.injEq, Prod.mk.injEq] at h
      exact absurd h.1.symm hok
    · simp at h

/-- What the three rules' checks of an accepted block say, and the views the
applied rules then hold. -/
structure OverlaysPassed (r : OverlayRules) (checks : Bool) (held : Overlays) (ctx : BlockContext H)
    (after : Overlays) (a : AssetView × List AssetTrace) (P : PoolView)
    (m : MarketView × List Txid) : Prop where
  assets : assetCandidate (mintPolicy r held) held.assets.view ctx.block.txdata ctx.height = .ok a
  pool : if r.pool then
    poolCandidate checks held.pool.view ctx.block.txdata a.2 ctx.height = .ok P
    else P = held.pool.view
  markets : if r.marketsFrom ctx.height then
    marketCandidate held.markets.view ctx.block.txdata a.2 ctx.spending ctx.height = .ok m
    else m.1 = held.markets.view
  carried : after.assets.view.carried = a.1.carried
  poolView : after.pool.view = P
  marketView : after.markets.view = m.1

omit [Bitcoin] [HeaderFamily H] in
theorem runRules_append {σ : Type} (ctx : BlockContext H) : ∀ (l l' : List (BlockRule H σ))
    (held : σ), runRules ctx held (l ++ l') = (do
      let (v, held) ← runRules ctx held l
      let (v', held) ← runRules ctx held l'
      .ok (v ++ v', held))
  | [], l', held => by
    simp only [List.nil_append, runRules, Res.ok_bind]
    cases runRules ctx held l' <;> rfl
  | rule :: l, l', held => by
    simp only [List.cons_append, runRules]
    cases h : rule.check held ctx with
    | ok a =>
      simp only [Res.ok_bind, runRules_append ctx l l']
      cases runRules ctx a.2 l with
      | ok b =>
        simp only [Res.ok_bind]
        cases runRules ctx b.2 l' <;> rfl
      | err e => rfl
      | panic => rfl
    | err e => rfl
    | panic => rfl

omit [Bitcoin] [HeaderFamily H] in
/-- One rule that passes. -/
theorem runRules_single {σ : Type} {ctx : BlockContext H} {rule : BlockRule H σ} {held held' : σ}
    {v : Verdict} (h : runRules ctx held [rule] = .ok (v, held')) (hok : v.ok = true) :
    ∃ ok, rule.check held ctx = .ok (ok, held') ∧ ok ≠ some false := by
  simp only [runRules] at h
  obtain ⟨⟨ok, h1⟩, hc, h⟩ := Res.bind_eq_ok.mp h
  simp only [Res.ok_bind, Res.ok.injEq, Prod.mk.injEq] at h
  obtain ⟨rfl, rfl⟩ := h
  exact ⟨ok, hc, by simpa using hok⟩

/-- The pool rule's place among the rules. -/
theorem poolRule_passed {r : OverlayRules} {checks : Bool} {ctx : BlockContext H}
    {held held' : Overlays} {v : Verdict} {traces : List AssetTrace}
    (htr : held.assets.trace (HeaderFamily.blockHash ctx.block.header) = some traces)
    (h : runRules ctx held (if r.pool then [poolRule checks] else []) = .ok (v, held'))
    (hok : v.ok = true) :
    ∃ P pool, held' = { held with pool } ∧ if r.pool then
      poolCandidate checks held.pool.view ctx.block.txdata traces ctx.height = .ok P ∧
        pool.pending.find? (fun p => p.1 == HeaderFamily.blockHash ctx.block.header) =
          some (HeaderFamily.blockHash ctx.block.header, P)
      else P = held.pool.view ∧ pool = held.pool := by
  split_ifs at h with hr
  · obtain ⟨ok, hc, hne⟩ := runRules_single h hok
    simp only [poolRule, htr] at hc
    obtain ⟨⟨ok', pool⟩, hp, hc⟩ := Res.bind_eq_ok.mp hc
    simp only [Res.ok.injEq, Prod.mk.injEq] at hc
    obtain ⟨rfl, rfl⟩ := hc
    obtain ⟨next, hnext, rfl⟩ := PoolHeld.check_passed hp hne
    exact ⟨next, _, rfl, by rw [if_pos hr]; exact ⟨hnext, find?_kept _ _ _⟩⟩
  · simp only [runRules, Res.ok.injEq, Prod.mk.injEq] at h
    exact ⟨held.pool.view, held.pool, h.2.symm, by rw [if_neg hr]; exact ⟨rfl, rfl⟩⟩

/-- The markets rule's place among the rules. -/
theorem marketsRule_passed {r : OverlayRules} {ctx : BlockContext H}
    {held held' : Overlays} {v : Verdict} {traces : List AssetTrace}
    (htr : held.assets.trace (HeaderFamily.blockHash ctx.block.header) = some traces)
    (h : runRules ctx held (match r.markets with
      | some «from» => [marketsRule «from»]
      | none => []) = .ok (v, held')) (hok : v.ok = true) :
    ∃ m markets, held' = { held with markets } ∧ if r.marketsFrom ctx.height then
      marketCandidate held.markets.view ctx.block.txdata traces ctx.spending ctx.height = .ok m ∧
        markets.pending.find? (fun p => p.1 == HeaderFamily.blockHash ctx.block.header) =
          some (HeaderFamily.blockHash ctx.block.header, m)
      else m.1 = held.markets.view ∧ markets = held.markets := by
  cases hm : r.markets with
  | none =>
    simp only [hm, runRules, Res.ok.injEq, Prod.mk.injEq] at h
    have hfrom : r.marketsFrom ctx.height = false := by simp [OverlayRules.marketsFrom, hm]
    exact ⟨(held.markets.view, []), held.markets, h.2.symm, by rw [hfrom]; exact ⟨rfl, rfl⟩⟩
  | some «from» =>
    simp only [hm] at h
    obtain ⟨ok, hc, hne⟩ := runRules_single h hok
    simp only [marketsRule, htr] at hc
    by_cases hlt : ctx.height < «from»
    · rw [if_pos hlt] at hc
      simp only [Res.ok.injEq, Prod.mk.injEq] at hc
      have hfrom : r.marketsFrom ctx.height = false := by
        simp only [OverlayRules.marketsFrom, hm, Option.any_some, decide_eq_false_iff_not]
        omega
      exact ⟨(held.markets.view, []), held.markets, hc.2.symm, by rw [hfrom]; exact ⟨rfl, rfl⟩⟩
    · rw [if_neg hlt] at hc
      obtain ⟨⟨ok', markets⟩, hp, hc⟩ := Res.bind_eq_ok.mp hc
      simp only [Res.ok.injEq, Prod.mk.injEq] at hc
      obtain ⟨rfl, rfl⟩ := hc
      obtain ⟨m, hnext, rfl⟩ := MarketHeld.check_passed hp hne
      have hfrom : r.marketsFrom ctx.height = true := by
        simp only [OverlayRules.marketsFrom, hm, Option.any_some, decide_eq_true_eq]
        omega
      exact ⟨m, _, rfl, by rw [hfrom]; exact ⟨hnext, find?_kept _ _ _⟩⟩

omit [HeaderFamily H] in
theorem registerMarketAssets_carried (height : ℕ) : ∀ (opened : List Txid) (a : AssetsHeld),
    (opened.foldl (fun a m => a.registerMarketAssets m (noIdOf m) height) a).view.carried =
      a.view.carried
  | [], _ => rfl
  | m :: opened, a => by
    rw [List.foldl_cons, registerMarketAssets_carried height opened]
    rfl

/-- **The rules and an accepted block.** The three candidates' folds went
through, and applying the block makes what they left the views. -/
theorem overlays_passed {r : OverlayRules} {checks : Bool} {ctx : BlockContext H}
    {held held' : Overlays} {v : Verdict}
    (h : runRules ctx held (r.boxed checks) = .ok (v, held')) (hok : v.ok = true) :
    ∃ a P m, OverlaysPassed r checks held ctx
      ((r.boxed checks).foldl (fun held rule => rule.applied held ctx.block ctx.height) held') a P m := by
  unfold OverlayRules.boxed at h ⊢
  rw [List.cons_append, ← List.singleton_append, runRules_append] at h
  obtain ⟨⟨v1, h1⟩, hassets, h⟩ := Res.bind_eq_ok.mp h
  obtain ⟨⟨v2, h2⟩, hrest, h⟩ := Res.bind_eq_ok.mp h
  rw [runRules_append] at hrest
  obtain ⟨⟨v3, h3⟩, hpool, hrest⟩ := Res.bind_eq_ok.mp hrest
  obtain ⟨⟨v4, h4⟩, hmarkets, hrest⟩ := Res.bind_eq_ok.mp hrest
  simp only [Res.ok.injEq, Prod.mk.injEq] at h hrest
  obtain ⟨rfl, rfl⟩ := hrest
  obtain ⟨rfl, rfl⟩ := h
  simp only [Verdict.ok_append, Bool.and_eq_true] at hok
  obtain ⟨ok, hc, hne⟩ := runRules_single hassets hok.1
  simp only [assetsRule] at hc
  obtain ⟨⟨ok', assets⟩, hcheck, hc⟩ := Res.bind_eq_ok.mp hc
  simp only [Res.ok.injEq, Prod.mk.injEq] at hc
  obtain ⟨rfl, rfl⟩ := hc
  obtain ⟨a, hcand, rfl⟩ := AssetsHeld.check_passed hcheck hne
  -- the trace the collateral rules read is the one just kept
  have htrace : AssetsHeld.trace { held.assets with
      pending := held.assets.pending.filter (fun p =>
        p.1 != HeaderFamily.blockHash ctx.block.header) ++
          [(HeaderFamily.blockHash ctx.block.header, a)] }
      (HeaderFamily.blockHash ctx.block.header) = some a.2 := by
    simp only [AssetsHeld.trace, find?_kept, Option.map_some]
  obtain ⟨P, pool, rfl, hP⟩ := poolRule_passed htrace hpool hok.2.1
  obtain ⟨m, markets, rfl, hM⟩ := marketsRule_passed htrace hmarkets hok.2.2
  suffices hafter : ∀ after : Overlays, after = _ → after.assets.view.carried = a.1.carried ∧
      after.pool.view = P ∧ after.markets.view = m.1 by
    obtain ⟨h1, h2, h3⟩ := hafter _ rfl
    refine ⟨a, P, m, hcand, ?_, ?_, h1, h2, h3⟩
    · split_ifs at hP ⊢
      · exact hP.1
      · exact hP.1
    · split_ifs at hM ⊢
      · exact hM.1
      · exact hM.1
  rintro after rfl
  rw [List.cons_append, List.foldl_cons, List.foldl_append]
  -- the assets rule is applied first and takes the view it kept
  have hA : (assetsRule (H := H) r).applied { assets := { held.assets with
      pending := held.assets.pending.filter (fun p =>
        p.1 != HeaderFamily.blockHash ctx.block.header) ++
          [(HeaderFamily.blockHash ctx.block.header, a)] }, pool, markets } ctx.block ctx.height =
      { assets := ⟨a.1, []⟩, pool, markets } := by
    simp only [assetsRule, AssetsHeld.applied, find?_kept]
  rw [hA]
  have hPool : ∃ pool', (if r.pool then [poolRule (H := H) checks] else []).foldl
      (fun held rule => rule.applied held ctx.block ctx.height)
      { assets := ⟨a.1, []⟩, pool, markets } = { assets := ⟨a.1, []⟩, pool := pool', markets } ∧
      pool'.view = P := by
    split_ifs at hP ⊢
    · exact ⟨⟨P, []⟩, by simp [poolRule, PoolHeld.applied, hP.2], rfl⟩
    · exact ⟨pool, rfl, by rw [hP.2, hP.1]⟩
  obtain ⟨pool', hPool, hPview⟩ := hPool
  rw [hPool]
  cases hm : r.markets with
  | none =>
    have hfrom : r.marketsFrom ctx.height = false := by simp [OverlayRules.marketsFrom, hm]
    rw [hfrom] at hM
    exact ⟨rfl, hPview, by simpa [hM.2] using hM.1.symm⟩
  | some «from» =>
    simp only [List.foldl_cons, List.foldl_nil, marketsRule]
    by_cases hlt : ctx.height < «from»
    · have hfrom : r.marketsFrom ctx.height = false := by
        simp only [OverlayRules.marketsFrom, hm, Option.any_some, decide_eq_false_iff_not]
        omega
      rw [hfrom] at hM
      rw [if_pos hlt]
      exact ⟨rfl, hPview, by simpa [hM.2] using hM.1.symm⟩
    · have hfrom : r.marketsFrom ctx.height = true := by
        simp only [OverlayRules.marketsFrom, hm, Option.any_some, decide_eq_true_eq]
        omega
      rw [hfrom] at hM
      rw [if_neg hlt]
      simp only [MarketHeld.applied, hM.2]
      exact ⟨registerMarketAssets_carried _ _ _, hPview, trivial⟩

omit [HeaderFamily H] in
/-- The coinbase moves no pool. -/
theorem poolTx_coinbase {checks : Bool} {height : ℕ} {v v' : PoolView} {tx : Transaction}
    {trace : AssetTrace} (h : poolTx checks height v ((tx, trace), 0) = .ok v') : v' = v := by
  obtain ⟨effect, he, h⟩ := Res.bind_eq_ok.mp h
  rw [PoolView.check_coinbase he] at h
  simpa using h.symm

omit [HeaderFamily H] in
/-- The coinbase moves no market. -/
theorem marketTx_coinbase {spending : Spending} {height : ℕ} {st st' : MarketView × List Txid}
    {tx : Transaction} {trace : AssetTrace}
    (h : marketTx spending height st ((tx, trace), 0) = .ok st') : st' = st := by
  obtain ⟨effect, he, h⟩ := Res.bind_eq_ok.mp h
  rw [MarketView.check_coinbase he] at h
  simpa using h.symm

/-- **An accepted block is steps on the views.** Applying it leaves the views
its transactions after the coinbase step to, from those of the state. -/
theorem accepted_steps {s : StateOf H Overlays} {r : OverlayRules} {checks : Bool} {height : ℕ}
    {block : Block H} {cb : Transaction} {rest : List Transaction} {next : Records}
    {held : Overlays} (hrules : s.extraRules = r.boxed checks) (hv : s.held.markets.view.Ok)
    (ha : Accepted s height block cb rest next held) :
    ∃ V v trace traces, assetCandidate (mintPolicy r s.held) s.held.assets.view block.txdata
        height = .ok (v, trace :: traces) ∧ traces.length = rest.length ∧
      BlockSteps r s.held height s.held.views (rest.zip traces) V ∧
      (s.commit height block next held).held.assets.view.carried = V.assets.carried ∧
      (s.commit height block next held).held.pool.view = V.pool ∧
      (s.commit height block next held).held.markets.view = V.markets := by
  obtain ⟨v, hrun, hok⟩ := ha.extra
  rw [hrules] at hrun
  obtain ⟨a, P, m, hpass⟩ := overlays_passed hrun hok
  have hheld : (s.commit height block next held).held = (r.boxed checks).foldl
      (fun held rule => rule.applied held block height) held := by
    simp only [StateOf.commit, hrules]
  rw [hheld]
  have hassets := hpass.assets
  have hpool := hpass.pool
  have hmarkets := hpass.markets
  dsimp only at hassets hpool hmarkets
  have hcand := hassets
  rw [ha.txdata] at hassets hpool hmarkets
  -- the coinbase: no step
  obtain ⟨_, -, hfold⟩ := Res.bind_eq_ok.mp hassets
  rw [List.zipIdx_cons, Res.foldlM_cons] at hfold
  obtain ⟨st, hst, hfold⟩ := Res.bind_eq_ok.mp hfold
  simp only [candidateTx, ha.coinbaseFirst, and_self, ↓reduceIte, List.nil_append,
    Res.ok.injEq] at hst
  subst hst
  obtain ⟨trs, htrs, hlen, hsteps⟩ := steps_of_folds checks
    (s.spending height block) (k := 0) ha.coinbaseSingle hfold
  rw [htrs] at hpool hmarkets
  refine ⟨⟨a.1, P, m.1⟩, a.1, _, trs, by rw [hcand, ← List.singleton_append, ← htrs], hlen, ?_,
    hpass.carried, hpass.poolView, hpass.marketView⟩
  refine @hsteps s.held.pool.view P (s.held.markets.view, []) m hv ?_ ?_
  · unfold PoolFold
    split_ifs at hpool ⊢
    · simp only [poolCandidate, List.singleton_append, List.zip_cons_cons, List.zipIdx_cons,
        Res.foldlM_cons] at hpool
      obtain ⟨P1, h1, hpool⟩ := Res.bind_eq_ok.mp hpool
      rw [poolTx_coinbase h1] at hpool
      exact hpool
    · exact hpool
  · unfold MarketFold
    split_ifs at hmarkets ⊢
    · simp only [marketCandidate, List.singleton_append, List.zip_cons_cons, List.zipIdx_cons,
        Res.foldlM_cons] at hmarkets
      obtain ⟨m1, h1, hmarkets⟩ := Res.bind_eq_ok.mp hmarkets
      rw [marketTx_coinbase h1] at hmarkets
      exact hmarkets
    · exact hmarkets

end

end Sidestr
