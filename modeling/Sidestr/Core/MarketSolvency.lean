/-
# The solvency of markets

A market's coin holds the sats its outcome assets may be redeemed for. While
it is open each outcome asset has at most as many units as the coin has sats;
once it is resolved that holds of the winner; while it refunds, the two
together have at most twice as many, at half a sat each.

Every way to move a market keeps that (`Market.Solvent`): a split adds to the
coin what it mints, a merge, a redeem and a refund burn for what they take
out. The mint policy waives the assets rule only for a split of a market in
the applied state, and the record of a split is the one market record of its
transaction, so that no other market's assets are minted along with it
(`Named.pair_kept`).

Key definitions: `Market.Solvent`, `Solvents`.
Key theorems: `Named.pair_kept`, `MarketMove.solvent`, `Solvents.step`,
`markets_solvent`.
-/
import Sidestr.Core.PoolBacking

namespace Sidestr

section

variable [Bitcoin]

/-- The collateral covers what the outcome assets may be redeemed for. -/
def Market.Solvent (m : Market) (v : AssetView) : Prop :=
  (m.status = .open →
    v.total m.id ≤ m.collateral ∧ v.total (noIdOf m.id) ≤ m.collateral) ∧
  (m.status = .resolved →
    ∃ w, m.winner = some w ∧ v.total (outcomeAsset m.id w) ≤ m.collateral) ∧
  (m.status = .refunding →
    v.total m.id + v.total (noIdOf m.id) ≤ 2 * m.collateral)

variable {r : OverlayRules} {held : Overlays} {height : ℕ} {V V' : Views} {tx : Transaction}
  {trace : AssetTrace} {mined : List Transaction}

/-! ### The outcome assets of a market a transaction does not split -/

/-- An asset is one of the two outcomes of market `id`. -/
def IsOutcome (id a : Txid) : Prop := a = id ∨ a = noIdOf id

/-- The outputs of a transaction carry no more of the outcomes of a market it
does not split than its inputs. -/
theorem Named.pair_kept (h : Named mined V) (hgrown : Grown held V)
    (hash : HashesApart (mined ++ [tx])) (hstep : TxStep r held height V tx V' trace)
    (hn : (tx.input.map TxIn.previousOutput).Nodup) {id a : Txid}
    (hid : Mined (mined ++ [tx]) id) (hpool : ¬ V.pool.contains id = true)
    (hown : id = Bitcoin.computeTxid tx →
      (classify tx).issues = [] ∧ (classify tx).opensPool = false)
    (hsplit : held.markets.view.contains id = true →
      ∀ p ∈ (classify tx).markets, p.2.splits ≠ some id) (ha : IsOutcome id a) :
    heldIn trace.outputs a ≤ heldIn trace.inputs a := by
  by_contra hlt
  have htxid : Mined (mined ++ [tx]) (Bitcoin.computeTxid tx) := mined_append.mpr (.inr rfl)
  cases hstep.mints hn (a := a) (by omega) with
  | own he how =>
    rcases ha with rfl | rfl
    · obtain ⟨h1, h2⟩ := hown he
      rcases how with h3 | h3
      · exact h3 h1
      · rw [h2] at h3
        simp at h3
    · exact hash.noIds id _ hid htxid he
  | shares hp =>
    have hp' := hgrown.pools a hp
    rcases ha with rfl | rfl
    · exact hpool hp'
    · exact hash.noIds id _ hid ((h.pools _ hp').append tx) rfl
  | pairs m hrec hm hpair =>
    obtain ⟨p, hp, hsp⟩ := hrec
    have hm' := (h.markets m (hgrown.markets m hm)).append tx
    have hne : id ≠ m := fun e => hsplit (e ▸ hm) p hp (e ▸ hsp)
    rcases ha with rfl | rfl
    · rcases hpair with he | he
      · exact hne he
      · exact hash.noIds m a hm' hid he.symm
    · rcases hpair with he | he
      · exact hash.noIds id m hid hm' he
      · exact hne (hash.injective id m hid hm' he)

/-! ### The market a transaction moves -/

/-- The values that a market's coin can hold. -/
def maxCollateral : ℕ := 2100000000000000

/-- **A move keeps the solvency** of the market it moves. -/
theorem MarketMove.solvent (hstep : TxStep r held height V tx V' trace)
    (hn : (tx.input.map TxIn.previousOutput).Nodup) {before after : Market} (hid : after.id = before.id)
    (hmove : MarketMove tx trace after.id before after) (hmax : before.collateral ≤ maxCollateral)
    (hkept : (∀ p ∈ (classify tx).markets, p.2.splits ≠ some after.id) → ∀ a, IsOutcome after.id a →
      heldIn trace.outputs a ≤ heldIn trace.inputs a)
    (h : before.Solvent V.assets) : after.Solvent V'.assets := by
  obtain ⟨hopen, hresolved, hrefunding⟩ := h
  rw [← hid] at hopen hresolved hrefunding
  -- what is read of an asset with a total below 2^64 is what is there
  have hread : ∀ a, V.assets.total a ≤ Word.maxVal 64 → carryIn trace a = heldIn trace.inputs a :=
    fun a ha => min_eq_left ((hstep.inputs_le hn a).trans ha)
  have hle : ∀ a, carryIn trace a ≤ heldIn trace.inputs a := fun a => min_le_left _ _
  have hfits : 2 * maxCollateral ≤ Word.maxVal 64 := by decide
  have hty := hstep.total hn after.id
  have htn := hstep.total hn (noIdOf after.id)
  cases hmove with
  | resolve w records status status' winner' collateral =>
    have hnone : ∀ p ∈ (classify tx).markets, p.2.splits ≠ some after.id := fun p hp => by
      simp [records p hp]
    have hy := hkept hnone after.id (.inl rfl)
    have hno := hkept hnone (noIdOf after.id) (.inr rfl)
    obtain ⟨h1, h2⟩ := hopen status
    refine ⟨by simp [status'], fun _ => ⟨w, winner', ?_⟩, by simp [status']⟩
    cases w with
    | yes =>
      simp only [outcomeAsset]
      omega
    | no =>
      simp only [outcomeAsset]
      omega
  | split amount status' winner' collateral yes no =>
    rw [hstep.carryOut_eq] at yes no
    refine ⟨fun hs => ?_, fun hs => ?_, fun hs => ?_⟩
    · obtain ⟨h1, h2⟩ := hopen (status' ▸ hs)
      rw [hread _ (by omega)] at yes no
      omega
    · obtain ⟨w, hw, h1⟩ := hresolved (status' ▸ hs)
      refine ⟨w, winner'.trans hw, ?_⟩
      cases w with
      | yes =>
        simp only [outcomeAsset] at h1 ⊢
        rw [hread _ (by omega)] at yes
        omega
      | no =>
        simp only [outcomeAsset] at h1 ⊢
        rw [hread _ (by omega)] at no
        omega
    · have h1 := hrefunding (status' ▸ hs)
      rw [hread _ (by omega)] at yes no
      omega
  | merge amount status' winner' collateral yes no =>
    rw [hstep.carryOut_eq] at yes no
    have hy := hle after.id
    have hno := hle (noIdOf after.id)
    refine ⟨fun hs => ?_, fun hs => ?_, fun hs => ?_⟩
    · obtain ⟨h1, h2⟩ := hopen (status' ▸ hs)
      omega
    · obtain ⟨w, hw, h1⟩ := hresolved (status' ▸ hs)
      refine ⟨w, winner'.trans hw, ?_⟩
      cases w with
      | yes =>
        simp only [outcomeAsset] at h1 ⊢
        omega
      | no =>
        simp only [outcomeAsset] at h1 ⊢
        omega
    · have h1 := hrefunding (status' ▸ hs)
      omega
  | redeem amount w status winner status' winner' collateral out =>
    rw [hstep.carryOut_eq] at out
    have hw := hle (outcomeAsset after.id w)
    have htw := hstep.total hn (outcomeAsset after.id w)
    obtain ⟨w', hw', h1⟩ := hresolved status
    obtain rfl : w' = w := by simpa using hw'.symm.trans winner
    exact ⟨by simp [status'], fun _ => ⟨w', winner', by omega⟩, by simp [status']⟩
  | refund amount status status' collateral yes no sum =>
    rw [hstep.carryOut_eq] at yes no
    rw [hstep.carryOut_eq, hstep.carryOut_eq] at sum
    have hy := hle after.id
    have hno := hle (noIdOf after.id)
    -- an open market's two bounds are a refunding market's one
    have hboth : V.assets.total after.id + V.assets.total (noIdOf after.id) ≤
        2 * before.collateral := by
      cases hb : before.status with
      | «open» =>
        obtain ⟨h1, h2⟩ := hopen hb
        omega
      | resolved => exact absurd hb status
      | refunding => exact hrefunding hb
    exact ⟨by simp [status'], by simp [status'], fun _ => by omega⟩

/-! ### All markets -/

/-- What a run keeps of the markets: their names, their order, what their coins
can hold, and the solvency. -/
structure Solvents (mined : List Transaction) (V : Views) : Prop where
  named : Named mined V
  order : V.markets.Ok
  bounded : ∀ id m, V.markets.markets.lookup id = some m → m.collateral ≤ maxCollateral
  solvent : ∀ id m, V.markets.markets.lookup id = some m → m.Solvent V.assets

omit [Bitcoin] in
theorem MarketView.lookup_apply {v : MarketView} {m n : Market} {id : Txid}
    (h : (v.apply m).markets.lookup id = some n) :
    (id = m.id ∧ n = m) ∨ (id ≠ m.id ∧ v.markets.lookup id = some n) := by
  simp only [MarketView.apply] at h
  by_cases hid : id = m.id
  · subst hid
    rw [Finmap.lookup_insert, Option.some.injEq] at h
    exact .inl ⟨rfl, h.symm⟩
  · rw [Finmap.lookup_insert_of_ne _ hid] at h
    exact .inr ⟨hid, h⟩

/-- A solvent market stays solvent when its outcomes are no more. -/
theorem Market.Solvent.mono {m : Market} {v v' : AssetView} (h : m.Solvent v)
    (hle : ∀ a, IsOutcome m.id a → v'.total a ≤ v.total a) : m.Solvent v' := by
  have hy := hle m.id (.inl rfl)
  have hno := hle (noIdOf m.id) (.inr rfl)
  refine ⟨fun hs => ?_, fun hs => ?_, fun hs => ?_⟩
  · obtain ⟨h1, h2⟩ := h.1 hs
    exact ⟨hy.trans h1, hno.trans h2⟩
  · obtain ⟨w, hw, h1⟩ := h.2.1 hs
    refine ⟨w, hw, (hle _ ?_).trans h1⟩
    cases w with
    | yes => exact .inl rfl
    | no => exact .inr rfl
  · have h1 := h.2.2 hs
    omega

/-- **A transaction keeps every market solvent.** -/
theorem Solvents.step (h : Solvents mined V) (hgrown : Grown held V)
    (hash : HashesApart (mined ++ [tx])) (hstep : TxStep r held height V tx V' trace)
    (hn : (tx.input.map TxIn.previousOutput).Nodup)
    (hnew : ¬ Mined mined (Bitcoin.computeTxid tx))
    (hout : ∀ o ∈ tx.output, o.sats ≤ maxCollateral)
    (hbefore : r.marketsFrom height = false → ∀ id, held.markets.view.contains id = false) :
    Solvents (mined ++ [tx]) V' := by
  have hnamed := h.named.step hgrown hstep hn hnew
  -- a market of the views that the transaction does not split
  have hkept : ∀ {id : Txid} {m : Market}, V.markets.markets.lookup id = some m →
      (held.markets.view.contains id = true → ∀ p ∈ (classify tx).markets, p.2.splits ≠ some id) →
      ∀ a, IsOutcome id a → heldIn trace.outputs a ≤ heldIn trace.inputs a := by
    intro id m hm hsplit a ha
    have hc : V.markets.contains id = true := by simp [MarketView.contains, hm]
    exact h.named.pair_kept hgrown hash hstep hn ((h.named.markets id hc).append tx)
      (fun hp => h.named.apart id hp hc) (fun e => absurd (e ▸ h.named.markets id hc) hnew) hsplit ha
  have hstay : ∀ {id : Txid} {m : Market}, V.markets.markets.lookup id = some m →
      (held.markets.view.contains id = true → ∀ p ∈ (classify tx).markets, p.2.splits ≠ some id) →
      m.Solvent V'.assets := by
    intro id m hm hsplit
    obtain ⟨hid, -⟩ := h.order id m hm
    refine (h.solvent id m hm).mono fun a ha => ?_
    have h1 := hkept hm hsplit a (hid ▸ ha)
    have h2 := hstep.total hn a
    omega
  have hmarkets := hstep.markets
  split_ifs at hmarkets with hfrom
  · obtain ⟨effect, heff, hm, hV⟩ := hmarkets
    cases heff with
    | nothing spent records =>
      simp only [Option.elim_none] at hV
      refine ⟨hnamed, hV ▸ h.order, hV ▸ h.bounded, fun id m hl => ?_⟩
      rw [hV] at hl
      exact hstay hl fun _ => by simp [records]
    | opens market spent records hid status issues pools =>
      simp only [Option.elim_some] at hV
      obtain ⟨hok, o, ho, hsats⟩ := hm market rfl
      refine ⟨hnamed, hV ▸ h.order.apply hok, fun id m hl => ?_, fun id m hl => ?_⟩
      · rw [hV] at hl
        rcases MarketView.lookup_apply hl with ⟨-, rfl⟩ | ⟨-, hl⟩
        · exact hsats ▸ hout o ho
        · exact h.bounded id m hl
      · have hnone : ∀ id, ∀ p ∈ (classify tx).markets, p.2.splits ≠ some id := fun id p hp => by
          have hrec := records p hp
          cases hp2 : p.2 with
          | split m v => simp [hp2, MarketRecord.market] at hrec
          | _ => simp [MarketRecord.splits]
        rw [hV] at hl
        rcases MarketView.lookup_apply hl with ⟨rfl, rfl⟩ | ⟨-, hl⟩
        · -- the outcomes of a new market: none before, none made
          obtain ⟨h1, h2⟩ := h.named.new_total hash hnew
          have hzero : ∀ a, IsOutcome m.id a → V'.assets.total a = 0 := by
            intro a ha
            have hmined : Mined (mined ++ [tx]) m.id := mined_append.mpr (.inr hid)
            have hk := h.named.pair_kept hgrown hash hstep hn hmined (fun hp => hnew (hid ▸ h.named.pools _ hp))
              (fun _ => ⟨issues, pools⟩) (fun _ => hnone m.id) ha
            have ht := hstep.total hn a
            rcases ha with rfl | rfl
            · rw [← hid] at h1
              omega
            · rw [← hid] at h2
              omega
          refine ⟨fun _ => ⟨?_, ?_⟩, by simp [status], by simp [status]⟩
          · rw [hzero _ (.inl rfl)]
            exact Nat.zero_le _
          · rw [hzero _ (.inr rfl)]
            exact Nat.zero_le _
        · exact hstay hl fun _ => hnone id
    | moves before after spent before' records move =>
      simp only [Option.elim_some] at hV
      obtain ⟨hok, o, ho, hsats⟩ := hm after rfl
      have hid := (h.order _ _ before').1
      refine ⟨hnamed, hV ▸ h.order.apply hok, fun id m hl => ?_, fun id m hl => ?_⟩
      · rw [hV] at hl
        rcases MarketView.lookup_apply hl with ⟨-, rfl⟩ | ⟨-, hl⟩
        · exact hsats ▸ hout o ho
        · exact h.bounded id m hl
      · rw [hV] at hl
        rcases MarketView.lookup_apply hl with ⟨rfl, rfl⟩ | ⟨hne, hl⟩
        · exact MarketMove.solvent hstep hn hid.symm move (h.bounded _ _ before')
            (fun hnone => hkept before' fun _ => hnone) (h.solvent _ _ before')
        · refine hstay hl fun _ p hp hsp => hne ?_
          have hrec := records p hp
          cases hp2 : p.2 with
          | split m' v =>
            simp only [hp2, MarketRecord.market, MarketRecord.splits, Option.some.injEq] at hrec hsp
            exact hsp.symm.trans hrec
          | _ => simp [hp2, MarketRecord.splits] at hsp
  · refine ⟨hnamed, hmarkets ▸ h.order, hmarkets ▸ h.bounded, fun id m hl => ?_⟩
    rw [hmarkets] at hl
    refine hstay hl fun hc => ?_
    rw [hbefore (by simpa using hfrom) id] at hc
    simp at hc

end

/-! ### Runs -/

section

variable [Bitcoin] {H : Type} [HeaderFamily H]

omit [HeaderFamily H] in
theorem BlockSteps.markets_before {r : OverlayRules} {held : Overlays} {height : ℕ} {V V' : Views}
    {l : List (Transaction × AssetTrace)} (h : BlockSteps r held height V l V')
    (hfrom : r.marketsFrom height = false) : V'.markets = V.markets := by
  induction h with
  | nil V => rfl
  | cons hstep _ ih =>
    have hm := hstep.markets
    rw [hfrom] at hm
    exact ih.trans hm

variable {pool checks : Bool} {first : ℕ} {doc : ChainDocument} {blocks : List (Block H)}
  {s : StateOf H Overlays}

/-- A chain below the height the markets rule starts at has no market. -/
theorem no_market_before (h : Chain doc (OverlayRules.boxed ⟨pool, some first⟩ checks) {} blocks s) :
    blocks.length ≤ first → ∀ id, s.held.markets.view.contains id = false := by
  induction h with
  | @genesis genesis expect s hgen =>
    intro hle id
    obtain ⟨s0, cb, rest, next, held', h0, ha, hg, rfl⟩ := fromGenesis_ok hgen
    obtain ⟨bits, challenge, federation, -, rfl⟩ := empty_ok h0
    obtain ⟨V, v, trace, traces, -, -, hsteps, -, -, hmar⟩ :=
      accepted_steps rfl Overlays.ok_empty.market ha
    have hV := hsteps.markets_before (by
      simp only [List.length_singleton] at hle
      simp only [OverlayRules.marketsFrom, Option.any_some, decide_eq_false_iff_not]
      omega)
    rw [← hmar] at hV
    simp only [StateOf.commit] at hV
    rw [hV]
    simp [Overlays.views, MarketView.contains]
  | @step blocks s b s' hc hb ih =>
    intro hle id
    have hok := held_ok_of_chain (boxed_keeps ⟨pool, some first⟩ checks) Overlays.ok_empty hc
    have hle' : blocks.length ≤ first := by
      rw [List.length_append] at hle
      omega
    rcases hc.step_cases hb with ⟨block, cb, rest, next, held', rfl, -, ha, rfl⟩ | ⟨-, -, hheld⟩
    · obtain ⟨V, v, trace, traces, -, -, hsteps, -, -, hmar⟩ :=
        accepted_steps hc.onChain.rules hok.market ha
      have hV := hsteps.markets_before (by
        simp only [Option.toList_some, List.length_append, List.length_singleton] at hle
        simp only [OverlayRules.marketsFrom, Option.any_some, decide_eq_false_iff_not]
        omega)
      rw [hmar, hV]
      exact ih hle' id
    · have hviews : s'.held.views = s.held.views := by
        rcases hheld with hheld | ⟨height, block, now, v, next, hj⟩
        · rw [hheld]
        · exact (judge_keeps (by rw [hc.onChain.rules]; exact boxed_keeps _ checks) hok hj).2
      have hm : s'.held.markets.view = s.held.markets.view := congrArg Views.markets hviews
      rw [hm]
      exact ih hle' id

/-- **Markets are solvent** in every state of every run under the markets rule:
the collateral of an open market covers each of its outcomes, that of a
resolved one the winner, and twice that of a refunding one both together. -/
theorem markets_solvent
    (hrun : Chain doc (OverlayRules.boxed ⟨pool, some first⟩ checks) {} blocks s)
    (hbind : GenesisBinds doc blocks) (hash : HashesApart (minedTxs blocks)) :
    ∀ id m, s.held.markets.view.markets.lookup id = some m → m.Solvent s.held.assets.view := by
  have hS : Solvents (minedTxs blocks) s.held.views := by
    refine overlay_ind (I := Solvents) ?_ ?_ ?_ ?_ hrun.chainWhere hbind hash
    · intro mined V V' hsame h
      refine ⟨h.named.sameViews hsame, hsame.markets ▸ h.order, hsame.markets ▸ h.bounded,
        fun id m hm => ?_⟩
      rw [hsame.markets] at hm
      exact (h.solvent id m hm).mono fun a _ => (hsame.total a).le
    · intro mined V cb h
      exact ⟨h.named.coinbase cb, h.order, h.bounded, h.solvent⟩
    · intro blocks s block mined V tx trace V' hc _ hash htx h
      have hout := htx.outputs
      rw [hc.onChain.params] at hout
      refine h.step htx.grown hash htx.step htx.nodup htx.new hout fun hfrom => ?_
      refine no_market_before hc ?_
      simp only [OverlayRules.marketsFrom, Option.any_some, decide_eq_false_iff_not] at hfrom
      omega
    · exact ⟨.empty, fun id m hm => by simp [Overlays.views] at hm,
        fun id m hm => by simp [Overlays.views] at hm, fun id m hm => by simp [Overlays.views] at hm⟩
  exact hS.solvent

end

section

attribute [local instance] sampleBitcoin

/-- The market of the sample run is open, and its collateral covers its outcomes. -/
theorem markets_solvent_sample : ∃ (blocks : List (Block Header)) (s : StateOf Header Overlays)
    (id : Txid) (m : Market), Chain sampleDoc (sampleRules.boxed true) {} blocks s ∧
      s.held.markets.view.markets.lookup id = some m ∧ m.status = .open ∧
      s.held.assets.view.total m.id ≤ m.collateral ∧
      s.held.assets.view.total (noIdOf m.id) ≤ m.collateral := by
  obtain ⟨genesis, later, s, block, s', hrun, -, hbind, hash, -, ⟨id, m, hm, ho⟩, -⟩ :=
    sample_pool_and_market
  have hash' : HashesApart (minedTxs (genesis :: later)) := hash.mono fun t h => by
    rw [minedTxs_append]
    exact List.mem_append_left _ h
  obtain ⟨hyes, hno⟩ := (markets_solvent hrun.chain hbind hash' id m hm).1 ho
  exact ⟨_, s, id, m, hrun.chain, hm, ho, hyes, hno⟩

end

end Sidestr
