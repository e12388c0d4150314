/-
# What acceptance means

The facts a verdict with no failed rule gives about a block, and what each
call of a run can do to the state. Later modules use these and do not unfold
`judge` or `apply`:

* `Accepted s height block next held`: the block passed every rule at
  `height`; one field for each rule that a proof needs.
* `judge_accepted`: a judgement without a failed rule gives `Accepted`.
* `apply_applied`, `fromGenesis_ok`: what an applied block and a genesis are.
* `Step.cases`: a step applies an accepted block, or changes only the mempool
  and what the extra rules keep.

Key definitions: `Accepted`, `SameChain`, `OnChain`.
Key theorems: `judge_accepted`, `apply_applied`, `fromGenesis_ok`, `Step.cases`,
`Chain.onChain`, `Chain.step_cases`.
-/
import Sidestr.Core.State

namespace Sidestr

variable [Bitcoin] {H σ : Type} [HeaderFamily H]

/-- The spending of a block in a state. -/
abbrev StateOf.spending (s : StateOf H σ) (height : ℕ) (block : Block H) : Spending :=
  resolveSpending s.params s.utxo height block.txdata

/-- What a block-context rule sees of a block in a state. -/
abbrev StateOf.context (s : StateOf H σ) (height : ℕ) (block : Block H) : BlockContext H :=
  ⟨block, height, s.spending height block, medianTimePast (s.window height), s.records⟩

/-- A block that passed every rule at `height`, its coinbase `cb` and the
rest; `next` are the records it leaves, `held` what the extra rules keep. -/
structure Accepted (s : StateOf H σ) (height : ℕ) (block : Block H) (cb : Transaction)
    (rest : List Transaction) (next : Records) (held : σ) : Prop where
  txdata : block.txdata = cb :: rest
  coinbaseFirst : isCoinbase cb = true
  coinbaseSingle : ∀ tx ∈ rest, isCoinbase tx = false
  txids : (block.txdata.map Bitcoin.computeTxid).Nodup
  coinbaseOk : (validateTransaction s.params cb true).ok = true
  restOk : ∀ tx ∈ rest, (validateTransaction s.params tx false).ok = true
  bip34 : s.params.bip34Height ≤ height → bip34HeightLenient cb = some height
  available : (s.spending height block).missing = []
  mature : (s.spending height block).premature = []
  fees : (s.spending height block).deficits = []
  amount : coinbaseAmountOk (if height = 0 then s.overlay.genesisSubsidy else 0)
    (s.spending height block).fees cb (parseClaims cb).1 (parseClaims cb).2
    (allowances (s.context height block) s.held 0 s.extraRules) = true
  pegouts : checkPegouts s.overlay.pegoutMin s.records height (outputsOf rest) ∅ =
    (true, next.pegouts)
  claims : claimsOk s.records height (parseClaims cb).1 = true
  nextClaims : next.claims =
    Map.insertAll ((parseClaims cb).1.map fun c => ((c.txid, c.vout), height)) ∅
  extra : ∃ v, runRules (s.context height block) s.held s.extraRules = .ok (v, held) ∧ v.ok = true

omit [Bitcoin] in
theorem all_zipIdx_succ {p : Transaction × ℕ → Bool} {q : Transaction → Bool}
    (hpq : ∀ tx i, p (tx, i + 1) = q tx) : ∀ (l : List Transaction) (k : ℕ),
    (l.zipIdx (k + 1)).all p = l.all q
  | [], _ => rfl
  | tx :: l, k => by
    rw [List.zipIdx_cons, List.all_cons, List.all_cons, hpq, all_zipIdx_succ hpq l (k + 1)]

theorem validateBlockStructure_ok {params : Params} {overlay : Overlay} {block : Block H}
    {v : Verdict} {cb : Transaction} {rest : List Transaction} (htx : block.txdata = cb :: rest)
    (h : validateBlockStructure params overlay block = .ok v) (hok : v.ok = true) :
    isCoinbase cb = true ∧ (∀ tx ∈ rest, isCoinbase tx = false) ∧
      (block.txdata.map Bitcoin.computeTxid).Nodup ∧
      (validateTransaction params cb true).ok = true ∧
      ∀ tx ∈ rest, (validateTransaction params tx false).ok = true := by
  obtain ⟨signed, -, h⟩ := Res.bind_eq_ok.mp h
  simp only [Res.ok.injEq] at h
  rw [← h] at hok
  simp only [Verdict.ok_append, Verdict.ok_cons, Bool.and_eq_true, bne_iff_ne, ne_eq,
    Option.some.injEq, Bool.not_eq_false, htx, List.head?_cons, Option.any_some, List.drop_one,
    List.tail_cons, List.all_eq_true, Bool.not_eq_true', decide_eq_true_eq] at hok
  obtain ⟨⟨h1, h2, -, h4, -, -, h7, -⟩, -⟩ := hok
  rw [List.zipIdx_cons, List.forall_mem_cons] at h7
  refine ⟨h1, h2, htx ▸ h4, by simpa using h7.1, ?_⟩
  have hall : (rest.zipIdx (0 + 1)).all (fun p => (validateTransaction params p.1 (p.2 == 0)).ok) =
      rest.all fun tx => (validateTransaction params tx false).ok :=
    all_zipIdx_succ (fun tx i => by simp) rest 0
  have h7' : (rest.zipIdx (0 + 1)).all
      (fun p => (validateTransaction params p.1 (p.2 == 0)).ok) = true :=
    List.all_eq_true.mpr h7.2
  rw [hall, List.all_eq_true] at h7'
  exact h7'

theorem validateBlockContext_ok {s : StateOf H σ} {height : ℕ} {block : Block H} {v : Verdict}
    {next : Records} {held : σ}
    (h : validateBlockContext s.params s.overlay (s.candidate height block) s.held =
      .ok (v, next, held)) (hok : v.ok = true) :
    ∃ cb rest, block.txdata = cb :: rest ∧
      (s.params.bip34Height ≤ height → bip34HeightLenient cb = some height) ∧
      (s.spending height block).missing = [] ∧ (s.spending height block).premature = [] ∧
      (s.spending height block).deficits = [] ∧
      coinbaseAmountOk (if height = 0 then s.overlay.genesisSubsidy else 0)
        (s.spending height block).fees cb (parseClaims cb).1 (parseClaims cb).2
        (allowances (s.context height block) s.held 0 s.extraRules) = true ∧
      checkPegouts s.overlay.pegoutMin s.records height (outputsOf rest) ∅ =
        (true, next.pegouts) ∧
      claimsOk s.records height (parseClaims cb).1 = true ∧
      next.claims =
        Map.insertAll ((parseClaims cb).1.map fun c => ((c.txid, c.vout), height)) ∅ ∧
      ∃ w, runRules (s.context height block) s.held s.extraRules = .ok (w, held) ∧
        w.ok = true := by
  simp only [validateBlockContext, StateOf.candidate] at h
  cases htx : block.txdata with
  | nil => simp [htx] at h
  | cons cb rest =>
    have hhead : block.txdata.head? = some cb := by rw [htx]; rfl
    have hdrop : block.txdata.drop 1 = rest := by rw [htx]; rfl
    simp only [hhead, hdrop, Res.expect_some, Res.ok_bind] at h
    obtain ⟨scripts, -, h⟩ := Res.bind_eq_ok.mp h
    obtain ⟨⟨w, held'⟩, hrun, h⟩ := Res.bind_eq_ok.mp h
    simp only [Res.ok.injEq, Prod.mk.injEq] at h
    obtain ⟨rfl, rfl, rfl⟩ := h
    simp only [Verdict.ok_append, Verdict.ok_cons, Bool.and_eq_true, bne_iff_ne, ne_eq,
      Option.some.injEq, Bool.not_eq_false, List.isEmpty_iff] at hok
    obtain ⟨⟨h1, -, -, h4, h5, h6, h7, -, -, h10, ⟨herr, h11⟩, -⟩, hw⟩ := hok
    refine ⟨cb, rest, rfl, ?_, h4, h5, h6, h7, ?_, h11, ?_, w, hrun, hw⟩
    · intro hb
      simpa [hb] using h1
    · by_cases hclean : (cb.output.all fun o => (parsePegout o.scriptPubkey).isNone) = true
      · rw [if_pos hclean] at h10 ⊢
        exact Prod.ext h10 rfl
      · rw [if_neg hclean] at h10
        simp at h10
    · simp [herr, h11]

/-- A judgement leaves what its run of the extra rules keeps. -/
theorem judge_runRules {s : StateOf H σ} {height : UInt32} {block : Block H} {now : Option UInt32}
    {v : Verdict} {next : Records} {held : σ} (h : s.judge height block now = .ok (v, next, held)) :
    ∃ w, runRules (s.context height.toNat block) s.held s.extraRules = .ok (w, held) := by
  simp only [StateOf.judge] at h
  obtain ⟨structural, -, h⟩ := Res.bind_eq_ok.mp h
  obtain ⟨⟨ctx, next', held'⟩, hctx, h⟩ := Res.bind_eq_ok.mp h
  simp only [Res.ok.injEq, Prod.mk.injEq] at h
  obtain ⟨-, -, rfl⟩ := h
  simp only [validateBlockContext] at hctx
  obtain ⟨cb, -, hctx⟩ := Res.bind_eq_ok.mp hctx
  obtain ⟨scripts, -, hctx⟩ := Res.bind_eq_ok.mp hctx
  obtain ⟨⟨w, h'⟩, hrun, hctx⟩ := Res.bind_eq_ok.mp hctx
  simp only [Res.ok.injEq, Prod.mk.injEq] at hctx
  obtain ⟨-, -, rfl⟩ := hctx
  exact ⟨w, hrun⟩

/-- A judgement without a failed rule. -/
theorem judge_accepted {s : StateOf H σ} {height : UInt32} {block : Block H} {now : Option UInt32}
    {v : Verdict} {next : Records} {held : σ} (h : s.judge height block now = .ok (v, next, held))
    (hok : v.ok = true) : ∃ cb rest, Accepted s height.toNat block cb rest next held := by
  simp only [StateOf.judge] at h
  obtain ⟨structural, hstruct, h⟩ := Res.bind_eq_ok.mp h
  obtain ⟨⟨ctx, next', held'⟩, hctx, h⟩ := Res.bind_eq_ok.mp h
  simp only [Res.ok.injEq, Prod.mk.injEq] at h
  obtain ⟨rfl, rfl, rfl⟩ := h
  simp only [Verdict.ok_append, Bool.and_eq_true] at hok
  obtain ⟨cb, rest, htx, h34, hav, hmat, hfee, ham, hpeg, hcl, hnext, hextra⟩ :=
    validateBlockContext_ok hctx hok.2
  obtain ⟨hfirst, hsingle, hids, hcb, hrest⟩ := validateBlockStructure_ok htx hstruct hok.1.2
  exact ⟨cb, rest, htx, hfirst, hsingle, hids, hcb, hrest, h34, hav, hmat, hfee, ham, hpeg, hcl,
    hnext, hextra⟩

omit [Bitcoin] in
theorem tip_ok {s : StateOf H σ} {t : Tip} (h : s.tip = .ok t) :
    s.hashes ≠ [] ∧ t.height = (s.hashes.length - 1) % 2 ^ 32 ∧
      s.hashes.getLast? = some t.hash ∧
      ∃ header, s.headers[s.hashes.length - 1]? = some header ∧ t.time = HeaderFamily.time header := by
  unfold StateOf.tip at h
  cases hl : s.hashes.getLast? with
  | none => simp [hl] at h
  | some hash =>
    cases hh : s.headers[s.hashes.length - 1]? with
    | none => simp [hl, hh] at h
    | some header =>
      simp only [hl, hh, Res.ok.injEq] at h
      refine ⟨?_, by rw [← h], by rw [← h], header, rfl, by rw [← h]⟩
      intro hnil
      rw [hnil] at hl
      simp at hl

/-- An applied block: it is the tip plus one, links to the tip, was judged
without a failed rule, and the new state is the old one with the block committed. -/
theorem apply_judged {s s' : StateOf H σ} {height : UInt32} {block : Block H}
    {expect : Option BlockHash} {now : Option UInt32} {a : Applied}
    (h : s.apply height block expect now = .ok (s', .ok a)) :
    ∃ t v next held, s.tip = .ok t ∧ height.toNat = t.height + 1 ∧
      HeaderFamily.prev block.header = t.hash ∧
      s.judge height block now = .ok (v, next, held) ∧ v.ok = true ∧
      s' = s.commit height.toNat block next held := by
  simp only [StateOf.apply] at h
  obtain ⟨t, ht, h⟩ := Res.bind_eq_ok.mp h
  by_cases h1 : height.toNat = t.height + 1
  · by_cases h2 : HeaderFamily.prev block.header = t.hash
    · rw [if_neg (not_not.mpr h1), if_neg (not_not.mpr h2)] at h
      obtain ⟨⟨v, next, held⟩, hj, h⟩ := Res.bind_eq_ok.mp h
      simp only [] at h
      split_ifs at h with h3 h4
      · simp at h
      · simp at h
      · simp only [Res.ok.injEq, Prod.mk.injEq] at h
        exact ⟨t, v, next, held, ht, h1, h2, hj, by simpa using h3, h.1.symm⟩
    · rw [if_neg (not_not.mpr h1), if_pos h2] at h
      simp at h
  · rw [if_pos h1] at h
    simp at h

/-- The same block passed every rule. -/
theorem apply_applied {s s' : StateOf H σ} {height : UInt32} {block : Block H}
    {expect : Option BlockHash} {now : Option UInt32} {a : Applied}
    (h : s.apply height block expect now = .ok (s', .ok a)) :
    ∃ t cb rest next held, s.tip = .ok t ∧ height.toNat = t.height + 1 ∧
      HeaderFamily.prev block.header = t.hash ∧
      Accepted s height.toNat block cb rest next held ∧
      s' = s.commit height.toNat block next held := by
  obtain ⟨t, v, next, held, ht, hheight, hprev, hj, hok, hs⟩ := apply_judged h
  obtain ⟨cb, rest, hacc⟩ := judge_accepted hj hok
  exact ⟨t, cb, rest, next, held, ht, hheight, hprev, hacc, hs⟩

/-- A refused block changes nothing but what the extra rules keep. -/
theorem apply_refused {s s' : StateOf H σ} {height : UInt32} {block : Block H}
    {expect : Option BlockHash} {now : Option UInt32} {e : Error}
    (h : s.apply height block expect now = .ok (s', .error e)) :
    s' = s ∨ ∃ v next held, s.judge height block now = .ok (v, next, held) ∧
      s' = { s with held } := by
  simp only [StateOf.apply] at h
  obtain ⟨t, ht, h⟩ := Res.bind_eq_ok.mp h
  by_cases h1 : height.toNat = t.height + 1
  · by_cases h2 : HeaderFamily.prev block.header = t.hash
    · rw [if_neg (not_not.mpr h1), if_neg (not_not.mpr h2)] at h
      obtain ⟨⟨v, next, held⟩, hj, h⟩ := Res.bind_eq_ok.mp h
      simp only [] at h
      split_ifs at h with h3 h4
      · simp only [Res.ok.injEq, Prod.mk.injEq] at h
        exact .inr ⟨v, next, held, hj, h.1.symm⟩
      · simp only [Res.ok.injEq, Prod.mk.injEq] at h
        exact .inr ⟨v, next, held, hj, h.1.symm⟩
      · simp at h
    · rw [if_neg (not_not.mpr h1), if_pos h2] at h
      simp only [Res.ok.injEq, Prod.mk.injEq] at h
      exact .inl h.1.symm
  · rw [if_pos h1] at h
    simp only [Res.ok.injEq, Prod.mk.injEq] at h
    exact .inl h.1.symm

/-- A genesis: judged in the state before any block, and the document's own. -/
theorem fromGenesis_ok {doc : ChainDocument} {genesis : Block H} {expect : Option BlockHash}
    {rules : List (BlockRule H σ)} {held : σ} {s : StateOf H σ}
    (h : fromGenesisWithRules doc genesis expect rules held = .ok s) :
    ∃ s0 cb rest next held', StateOf.empty doc rules held = .ok s0 ∧
      Accepted s0 0 genesis cb rest next held' ∧ isGenesisOf s0 genesis = .ok true ∧
      s = { s0 with utxo := applyBlock s0.utxo genesis.txdata 0
                    headers := [genesis.header]
                    hashes := [HeaderFamily.blockHash genesis.header]
                    held := s0.extraRules.foldl (fun h r => r.applied h genesis 0) held' } := by
  simp only [fromGenesisWithRules] at h
  obtain ⟨s0, h0, h⟩ := Res.bind_eq_ok.mp h
  obtain ⟨-, -, h⟩ := Res.bind_eq_ok.mp h
  obtain ⟨⟨v, next, held'⟩, hj, h⟩ := Res.bind_eq_ok.mp h
  obtain ⟨g, hg, h⟩ := Res.bind_eq_ok.mp h
  obtain ⟨_, hok, h⟩ := Res.bind_eq_ok.mp h
  obtain ⟨-, -, h⟩ := Res.bind_eq_ok.mp h
  obtain ⟨-, -, h⟩ := Res.bind_eq_ok.mp h
  simp only [Res.refuseIf_eq_ok, Bool.not_eq_false', Verdict.ok_append, Bool.and_eq_true,
    Verdict.ok_cons, bne_iff_ne, ne_eq, Option.some.injEq, Bool.not_eq_false] at hok
  obtain ⟨cb, rest, hacc⟩ := judge_accepted hj hok.1
  refine ⟨s0, cb, rest, next, held', h0, ?_, ?_, ?_⟩
  · simpa using hacc
  · rw [hg, hok.2.1]
  · simp only [Res.ok.injEq] at h
    exact h.symm

theorem empty_ok {doc : ChainDocument} {rules : List (BlockRule H σ)} {held : σ}
    {s : StateOf H σ} (h : StateOf.empty doc rules held = .ok s) :
    ∃ bits challenge federation, doc.bits = .ok bits ∧
      s = { doc, bits, challenge, federation, extraRules := rules, held } := by
  simp only [StateOf.empty] at h
  obtain ⟨-, -, h⟩ := Res.bind_eq_ok.mp h
  obtain ⟨-, -, h⟩ := Res.bind_eq_ok.mp h
  obtain ⟨bits, hb, h⟩ := Res.bind_eq_ok.mp h
  obtain ⟨challenge, -, h⟩ := Res.bind_eq_ok.mp h
  obtain ⟨federation, -, h⟩ := Res.bind_eq_ok.mp h
  simp only [Res.ok.injEq] at h
  exact ⟨bits, challenge, federation, hb, h.symm⟩

/-! ### Steps -/

/-- Two states with one chain: they differ in the mempool, in the transactions
refused, and in what the extra rules keep. -/
structure SameChain (s s' : StateOf H σ) : Prop where
  doc : s'.doc = s.doc
  params : s'.params = s.params
  bits : s'.bits = s.bits
  challenge : s'.challenge = s.challenge
  headers : s'.headers = s.headers
  hashes : s'.hashes = s.hashes
  utxo : s'.utxo = s.utxo
  records : s'.records = s.records
  extraRules : s'.extraRules = s.extraRules

omit [Bitcoin] [HeaderFamily H] in
theorem SameChain.refl (s : StateOf H σ) : SameChain s s := ⟨rfl, rfl, rfl, rfl, rfl, rfl, rfl, rfl, rfl⟩

theorem sameChain_submit {s s' : StateOf H σ} {tx : Transaction} {r : Submitted}
    (h : s.submit tx = .ok (s', r)) : SameChain s s' ∧ s'.held = s.held := by
  simp only [StateOf.submit] at h
  split_ifs at h with h1
  · simp only [Res.ok.injEq, Prod.mk.injEq] at h
    rw [← h.1]
    exact ⟨.refl s, rfl⟩
  · obtain ⟨-, -, h⟩ := Res.bind_eq_ok.mp h
    obtain ⟨fee, -, h⟩ := Res.bind_eq_ok.mp h
    simp only [Res.ok.injEq, Prod.mk.injEq] at h
    rw [← h.1]
    exact ⟨⟨rfl, rfl, rfl, rfl, rfl, rfl, rfl, rfl, rfl⟩, rfl⟩

omit [Bitcoin] [HeaderFamily H] in
theorem sameChain_discard (s : StateOf H σ) (txid : Txid) :
    SameChain s (s.discard txid).1 ∧ (s.discard txid).1.held = s.held := by
  simp only [StateOf.discard]
  split_ifs
  · exact ⟨.refl s, rfl⟩
  · exact ⟨⟨rfl, rfl, rfl, rfl, rfl, rfl, rfl, rfl, rfl⟩, rfl⟩

omit [HeaderFamily H] in
theorem sameChain_evict (s : StateOf H σ) (txid : Txid) :
    SameChain s (s.evict txid).1 ∧ (s.evict txid).1.held = s.held := by
  unfold StateOf.evict
  split
  · exact ⟨.refl s, rfl⟩
  · rename_i tx _
    obtain ⟨h, hh⟩ := sameChain_discard
      { s with rejected := s.rejected.insert txid (Bitcoin.serialize tx) } txid
    exact ⟨⟨h.doc, h.params, h.bits, h.challenge, h.headers, h.hashes, h.utxo, h.records,
      h.extraRules⟩, hh⟩

/-- **The steps of a run.** A step applies an accepted block at the tip plus
one, or leaves the chain as it was: the rules' state too, unless a block was
judged. -/
theorem Step.cases {s s' : StateOf H σ} {b : Option (Block H)} (h : Step s b s') :
    (∃ block t height cb rest next held, b = some block ∧ s.tip = .ok t ∧
      height = t.height + 1 ∧ height < 2 ^ 32 ∧ HeaderFamily.prev block.header = t.hash ∧
      Accepted s height block cb rest next held ∧ s' = s.commit height block next held) ∨
    (b = none ∧ SameChain s s' ∧ (s'.held = s.held ∨
      ∃ height block now v next, s.judge height block now = .ok (v, next, s'.held))) := by
  cases h with
  | @applied _ height block _ _ _ h =>
    obtain ⟨t, cb, rest, next, held, ht, hh, hp, hacc, hs⟩ := apply_applied h
    exact .inl ⟨block, t, height.toNat, cb, rest, next, held, rfl, ht, hh,
      height.toNat_lt, hp, hacc, hs⟩
  | @refused _ height block _ now _ h =>
    rcases apply_refused h with rfl | ⟨v, next, held, hj, rfl⟩
    · exact .inr ⟨rfl, .refl _, .inl rfl⟩
    · exact .inr ⟨rfl, ⟨rfl, rfl, rfl, rfl, rfl, rfl, rfl, rfl, rfl⟩,
        .inr ⟨height, block, now, v, next, hj⟩⟩
  | @judged height block now v next held h =>
    exact .inr ⟨rfl, ⟨rfl, rfl, rfl, rfl, rfl, rfl, rfl, rfl, rfl⟩,
      .inr ⟨height, block, now, v, next, h⟩⟩
  | submitted h =>
    obtain ⟨h1, h2⟩ := sameChain_submit h
    exact .inr ⟨rfl, h1, .inl h2⟩
  | discarded =>
    obtain ⟨h1, h2⟩ := sameChain_discard s _
    exact .inr ⟨rfl, h1, .inl h2⟩
  | evicted =>
    obtain ⟨h1, h2⟩ := sameChain_evict s _
    exact .inr ⟨rfl, h1, .inl h2⟩

/-! ### Runs -/

variable {doc : ChainDocument} {rules : List (BlockRule H σ)} {held : σ} {blocks : List (Block H)}

/-- The blocks of a run begin with its genesis. -/
theorem Chain.head {s : StateOf H σ} (h : Chain doc rules held blocks s) :
    ∃ genesis later, blocks = genesis :: later := by
  induction h with
  | genesis _ => exact ⟨_, [], rfl⟩
  | step _ _ ih =>
    obtain ⟨g, l, rfl⟩ := ih
    exact ⟨g, _, rfl⟩

/-- A run keeps its document, its parameters and its rules, and a header for
each block; its heights are 32-bit. -/
structure OnChain (doc : ChainDocument) (rules : List (BlockRule H σ)) (blocks : List (Block H))
    (s : StateOf H σ) : Prop where
  document : s.doc = doc
  params : s.params = {}
  rules : s.extraRules = rules
  headers : s.headers = blocks.map Block.header
  hashes : s.hashes = blocks.map fun b => HeaderFamily.blockHash b.header
  pos : 0 < blocks.length
  le : blocks.length ≤ 2 ^ 32

omit [Bitcoin] in
/-- The tip of a run with this many blocks. -/
theorem OnChain.tip_height {s : StateOf H σ} (h : OnChain doc rules blocks s) {t : Tip}
    (ht : s.tip = .ok t) : t.height + 1 = blocks.length := by
  obtain ⟨-, hh, -⟩ := tip_ok ht
  have hlen : s.hashes.length = blocks.length := by rw [h.hashes, List.length_map]
  have := h.pos
  have := h.le
  rw [hh, hlen, Nat.mod_eq_of_lt (by omega)]
  omega

omit [Bitcoin] in
/-- The tip of a run is there to ask. -/
theorem OnChain.tip_returns {s : StateOf H σ} (h : OnChain doc rules blocks s) :
    ∃ t, s.tip = .ok t := by
  have hpos := h.pos
  have hlen : s.hashes.length = blocks.length := by rw [h.hashes, List.length_map]
  have hlen' : s.headers.length = blocks.length := by rw [h.headers, List.length_map]
  unfold StateOf.tip
  cases hl : s.hashes.getLast? with
  | none =>
    rw [List.getLast?_eq_none_iff] at hl
    rw [hl, List.length_nil] at hlen
    omega
  | some hash =>
    have hget : s.headers[s.hashes.length - 1]? = some s.headers[s.hashes.length - 1] :=
      List.getElem?_eq_getElem (by omega)
    rw [hget]
    exact ⟨_, rfl⟩

theorem Chain.onChain {s : StateOf H σ} (h : Chain doc rules held blocks s) :
    OnChain doc rules blocks s := by
  induction h with
  | genesis hgen =>
    obtain ⟨s0, cb, rest, next, held', h0, hacc, hg, rfl⟩ := fromGenesis_ok hgen
    obtain ⟨bits, challenge, federation, -, rfl⟩ := empty_ok h0
    exact ⟨rfl, rfl, rfl, rfl, rfl, by simp, by simp⟩
  | step hc hstep ih =>
    rcases hstep.cases with ⟨block, t, height, cb, rest, next, held', rfl, ht, rfl, hlt, -, ha, rfl⟩ |
      ⟨rfl, hsame, -⟩
    · have hh := ih.tip_height ht
      refine ⟨ih.document, ih.params, ih.rules, ?_, ?_, by simp, ?_⟩
      · simp [StateOf.commit, ih.headers]
      · simp [StateOf.commit, ih.hashes]
      · simp only [Option.toList_some, List.length_append, List.length_cons, List.length_nil]
        omega
    · simp only [Option.toList_none, List.append_nil]
      exact ⟨hsame.doc.trans ih.document, hsame.params.trans ih.params,
        hsame.extraRules.trans ih.rules, hsame.headers.trans ih.headers,
        hsame.hashes.trans ih.hashes, ih.pos, ih.le⟩

/-- **The steps of a run, by height.** A run of `n` blocks takes an accepted
block at height `n`, or stays on its chain. -/
theorem Chain.step_cases {s s' : StateOf H σ} {b : Option (Block H)}
    (hc : Chain doc rules held blocks s) (h : Step s b s') :
    (∃ block cb rest next held', b = some block ∧ blocks.length < 2 ^ 32 ∧
      Accepted s blocks.length block cb rest next held' ∧
      s' = s.commit blocks.length block next held') ∨
    (b = none ∧ SameChain s s' ∧ (s'.held = s.held ∨
      ∃ height block now v next, s.judge height block now = .ok (v, next, s'.held))) := by
  rcases h.cases with ⟨block, t, height, cb, rest, next, held', hb, ht, rfl, hlt, -, ha, hs⟩ | hsame
  · have hh := hc.onChain.tip_height ht
    rw [hh] at ha hs hlt
    exact .inl ⟨block, cb, rest, next, held', hb, hlt, ha, hs⟩
  · exact .inr hsame

/-- A run whose applied blocks all meet `P`, each in the state it is applied to. -/
inductive ChainWhere (P : StateOf H σ → Block H → Prop) (doc : ChainDocument)
    (rules : List (BlockRule H σ)) (held : σ) : List (Block H) → StateOf H σ → Prop
  | genesis {genesis expect s} : fromGenesisWithRules doc genesis expect rules held = .ok s →
      ChainWhere P doc rules held [genesis] s
  | step {blocks s b s'} : ChainWhere P doc rules held blocks s → Step s b s' →
      (∀ block, b = some block → P s block) →
      ChainWhere P doc rules held (blocks ++ b.toList) s'

theorem ChainWhere.chain {P : StateOf H σ → Block H → Prop} {s : StateOf H σ}
    (h : ChainWhere P doc rules held blocks s) : Chain doc rules held blocks s := by
  induction h with
  | genesis hgen => exact .genesis hgen
  | step _ hstep _ ih => exact .step ih hstep

theorem ChainWhere.imp {P Q : StateOf H σ → Block H → Prop} (himp : ∀ s b, P s b → Q s b)
    {s : StateOf H σ} (h : ChainWhere P doc rules held blocks s) :
    ChainWhere Q doc rules held blocks s := by
  induction h with
  | genesis hgen => exact .genesis hgen
  | step _ hstep hp ih => exact .step ih hstep fun block hb => himp _ _ (hp block hb)

/-- Every run meets a condition that always holds. -/
theorem Chain.chainWhere {s : StateOf H σ} (h : Chain doc rules held blocks s) :
    ChainWhere (fun _ _ => True) doc rules held blocks s := by
  induction h with
  | genesis hgen => exact .genesis hgen
  | step _ hstep ih => exact .step ih hstep fun _ _ => trivial

end Sidestr
