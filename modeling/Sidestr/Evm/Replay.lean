/-
# What the EVM's state depends on

A chain that carries the EVM rule runs a candidate when it judges it, and
keeps what an accepted one leaves by the hash of its header alone. Every phase
runs even when the merkle root or the signature fails, so a body that is not
the header's own is kept under that header, and the block itself is then
applied with the other body's state (`forged_body`).

Where no candidate was accepted under the applied block's header hash with
another body, the state is the one that preparing and committing the applied
blocks gives (`evm_follows_applied`). The other rules of the chain may be any
rules on a state of their own.

Key definitions: `withEvm`, `Genuine`, `EvmRun`, `EvmState.durable`.
Key theorems: `Waiting.prepare`, `Waiting.accepted`, `evm_follows_applied`.
-/
import Sidestr.Evm.Backing
import Sidestr.Core.Accept

namespace Sidestr

section

variable {H α β : Type}

/-- A rule on the first part of the state. -/
def BlockRule.left (r : BlockRule H α) : BlockRule H (α × β) where
  id := r.id
  name := r.name
  check s ctx := do
    let (ok, a) ← r.check s.1 ctx
    .ok (ok, (a, s.2))
  coinbaseAllowance s ctx := r.coinbaseAllowance s.1 ctx
  applied s block height := (r.applied s.1 block height, s.2)

/-- A rule on the second part of the state. -/
def BlockRule.right (r : BlockRule H β) : BlockRule H (α × β) where
  id := r.id
  name := r.name
  check s ctx := do
    let (ok, b) ← r.check s.2 ctx
    .ok (ok, (s.1, b))
  coinbaseAllowance s ctx := r.coinbaseAllowance s.2 ctx
  applied s block height := (s.1, r.applied s.2 block height)

/-- Rules on the second part leave the first. -/
theorem runRules_right {ctx : BlockContext H} : ∀ {rules : List (BlockRule H β)}
    {rest : List (BlockRule H (α × β))} {held held' : α × β} {v : Verdict},
    runRules ctx held (rules.map BlockRule.right ++ rest) = .ok (v, held') →
    ∃ w b, runRules ctx (held.1, b) rest = .ok (w, held') ∧ (v.ok = true → w.ok = true)
  | [], rest, held, held', v, h => ⟨v, held.2, h, id⟩
  | r :: rules, rest, held, held', v, h => by
    simp only [List.map_cons, List.cons_append, runRules, BlockRule.right] at h
    obtain ⟨⟨ok, held1⟩, h1, h⟩ := Res.bind_eq_ok.mp h
    obtain ⟨⟨ok', b⟩, -, h1⟩ := Res.bind_eq_ok.mp h1
    obtain ⟨⟨w, held2⟩, h2, h⟩ := Res.bind_eq_ok.mp h
    simp only [Res.ok.injEq, Prod.mk.injEq] at h1 h
    obtain ⟨w', b', hrun, hok⟩ := runRules_right h2
    rw [← h1.2] at hrun
    rw [h.2] at hrun
    refine ⟨w', b', hrun, fun hv => hok ?_⟩
    rw [← h.1, Verdict.ok_cons, Bool.and_eq_true] at hv
    exact hv.2

theorem applied_right {block : Block H} {height : ℕ} : ∀ (rules : List (BlockRule H β))
    (held : α × β), ((rules.map BlockRule.right).foldl
      (fun held r => r.applied held block height) held).1 = held.1
  | [], _ => rfl
  | r :: rules, held => applied_right rules (r.right.applied held block height)

end

namespace Evm

section

variable [Machine] [Bitcoin] {H τ : Type} [HeaderFamily H]

/-- The rules of a chain that carries the EVM, the others on a state of their own. -/
def withEvm (pre post : List (BlockRule H τ)) : List (BlockRule H (EvmState × τ)) :=
  pre.map BlockRule.right ++ evmRule.left :: post.map BlockRule.right

/-- What running a block on the state gives. -/
def EvmState.own (s : EvmState) (block : Block H) (height : ℕ) : Executed :=
  execute s.config s.world height (HeaderFamily.time block.header) block.txdata

omit [Machine] [Bitcoin] in
/-- The state without the work on candidates. -/
def EvmState.durable (s : EvmState) : EvmState := { s with pending := [], verdicts := ∅ }

omit [Machine] [Bitcoin] in
/-- The root after the last applied block. -/
def EvmState.root (s : EvmState) : Option Hash256 := (s.blocks.lookup s.height).map BlockRecord.root

omit [Machine] [Bitcoin] in
/-- The durable state once a block that gave `e` is applied. -/
def EvmState.settle (s : EvmState) (height : ℕ) (time : UInt32) (e : Executed) : EvmState :=
  { s with
    pending := []
    verdicts := ∅
    receipts := Map.insertAll (e.receipts.map fun r => (r.transactionHash, r)) s.receipts
    blocks := s.blocks.insert height ⟨e.verdict.hashes, e.verdict.root.getD 0⟩
    world := e.world
    height := height
    time := time
    worlds := s.worlds.insert height e.world
    times := s.times.insert height time }

/-! ### Candidates -/

/-- The entry an accepted candidate leaves. -/
def EvmState.entry (s : EvmState) (c : ℕ × Block H) : Pending :=
  ⟨HeaderFamily.blockHash c.2.header, c.1, HeaderFamily.time c.2.header, (s.own c.2 c.1).world,
    (s.own c.2 c.1).receipts, (s.own c.2 c.1).verdict⟩

/-- No candidate judged since the last applied block, at the next height, was
accepted under the block's header hash with another body. -/
def Genuine (s : EvmState) (seen : List (ℕ × Block H)) (block : Block H) : Prop :=
  ∀ c ∈ seen, c.1 = s.height + 1 →
    HeaderFamily.blockHash c.2.header = HeaderFamily.blockHash block.header →
    (s.own c.2 c.1).verdict.ok = true →
    HeaderFamily.time c.2.header = HeaderFamily.time block.header ∧ c.2.txdata = block.txdata

/-- What waits is what accepted candidates left. -/
def Waiting (s : EvmState) (seen : List (ℕ × Block H)) : Prop :=
  ∀ p ∈ s.pending, ∃ c ∈ seen, c.1 = s.height + 1 ∧ (s.own c.2 c.1).verdict.ok = true ∧
    p = s.entry c

variable {s : EvmState} {seen : List (ℕ × Block H)} {block : Block H} {height : ℕ}

/-- The ways `prepare` goes. -/
theorem prepareBlock_cases (s : EvmState) (block : Block H) (height : ℕ) :
    (∃ p ∈ s.pending, p.hash = HeaderFamily.blockHash block.header ∧
      s.pending.find? (fun p => p.hash == HeaderFamily.blockHash block.header) = some p ∧
      s.prepareBlock block height = (p.verdict, s)) ∨
    ((s.prepareBlock block height).1.ok = false ∧
      (s.prepareBlock block height).2.pending = s.pending ∧
      (s.prepareBlock block height).2.durable = s.durable) ∨
    (s.pending.find? (fun p => p.hash == HeaderFamily.blockHash block.header) = none ∧
      height = s.height + 1 ∧ (s.own block height).verdict.ok = true ∧
      (s.prepareBlock block height).1 = (s.own block height).verdict ∧
      (s.prepareBlock block height).2.pending = s.pending ++ [s.entry (height, block)] ∧
      (s.prepareBlock block height).2.durable = s.durable) := by
  unfold EvmState.prepareBlock EvmState.prepare
  cases hfind : s.pending.find? fun p => p.hash == HeaderFamily.blockHash block.header with
  | some p =>
    exact .inl ⟨p, List.mem_of_find?_eq_some hfind, by simpa using List.find?_some hfind, rfl, rfl⟩
  | none =>
    dsimp only
    by_cases hheight : height = 0 ∨ height - 1 ≠ s.height
    · rw [if_pos hheight]
      exact .inr (.inl ⟨rfl, rfl, rfl⟩)
    · rw [if_neg hheight]
      dsimp only
      cases hok : (s.own block height).verdict.ok with
      | false =>
        unfold EvmState.own at hok
        rw [hok]
        exact .inr (.inl ⟨rfl, rfl, rfl⟩)
      | true =>
        unfold EvmState.own at hok
        rw [hok]
        exact .inr (.inr ⟨rfl, by omega, rfl, rfl, rfl, rfl⟩)

omit [Machine] [Bitcoin] in
theorem height_of_durable {s t : EvmState} (h : s.durable = t.durable) : s.height = t.height := by
  show s.durable.height = t.durable.height
  rw [h]

theorem own_of_durable {s t : EvmState} (h : s.durable = t.durable) (block : Block H) (height : ℕ) :
    s.own block height = t.own block height := by
  show s.durable.own block height = t.durable.own block height
  rw [h]

theorem entry_of_durable {s t : EvmState} (h : s.durable = t.durable) (c : ℕ × Block H) :
    s.entry c = t.entry c := by
  unfold EvmState.entry
  rw [own_of_durable h]

/-- Judging a candidate leaves the durable state, and adds at most its own entry. -/
theorem Waiting.prepare (h : Waiting s seen) (block : Block H) (height : ℕ) :
    (s.prepareBlock block height).2.durable = s.durable ∧
      Waiting (s.prepareBlock block height).2 (seen ++ [(height, block)]) := by
  have hkeep : ∀ {t : EvmState}, t.durable = s.durable → (∀ p ∈ t.pending, p ∈ s.pending ∨
      (height = s.height + 1 ∧ (s.own block height).verdict.ok = true ∧
        p = s.entry (height, block))) → Waiting t (seen ++ [(height, block)]) := by
    intro t ht hp p hmem
    rw [height_of_durable ht]
    rcases hp p hmem with hold | ⟨hh, hok, rfl⟩
    · obtain ⟨c, hc, hh, hok, rfl⟩ := h p hold
      refine ⟨c, List.mem_append_left _ hc, hh, ?_, (entry_of_durable ht c).symm⟩
      rw [own_of_durable ht]
      exact hok
    · refine ⟨(height, block), by simp, hh, ?_, (entry_of_durable ht _).symm⟩
      rw [own_of_durable ht]
      exact hok
  rcases prepareBlock_cases s block height with ⟨p, -, -, -, heq⟩ | ⟨-, hpend, hd⟩ |
      ⟨-, hh, hok, -, hpend, hd⟩
  · rw [heq]
    exact ⟨rfl, hkeep rfl fun q hq => .inl hq⟩
  · exact ⟨hd, hkeep hd fun q hq => .inl (hpend ▸ hq)⟩
  · refine ⟨hd, hkeep hd fun q hq => ?_⟩
    rw [hpend, List.mem_append, List.mem_singleton] at hq
    rcases hq with hq | rfl
    · exact .inl hq
    · exact .inr ⟨hh, hok, rfl⟩

omit [Machine] [Bitcoin] in
/-- Committing an entry settles what it holds. -/
theorem commit_durable {s : EvmState} {hash : BlockHash} {height : ℕ} {time : UInt32} {e : Executed}
    (h : s.pending.find? (fun p => p.hash == hash) =
      some ⟨hash, height, time, e.world, e.receipts, e.verdict⟩) :
    (s.commit hash).durable = s.settle height time e := by
  unfold EvmState.commit
  rw [h]
  rfl

omit [Machine] [Bitcoin] in
theorem settle_of_durable {s t : EvmState} (h : s.durable = t.durable) (height : ℕ) (time : UInt32)
    (e : Executed) : s.settle height time e = t.settle height time e := by
  have hs : s.settle height time e = s.durable.settle height time e := rfl
  rw [hs, h]
  rfl

/-- **An accepted block** that meets the condition is judged by its own
transactions, and its commit settles what these give. -/
theorem Waiting.accepted (h : Waiting s seen) (hg : Genuine s seen block)
    (hheight : height = s.height + 1) (hok : (s.prepareBlock block height).1.ok = true) :
    (s.prepareBlock block height).1 = (s.own block height).verdict ∧
      ((s.prepareBlock block height).2.commit (HeaderFamily.blockHash block.header)).durable =
        s.settle height (HeaderFamily.time block.header) (s.own block height) ∧
      ((s.prepareBlock block height).2.commit
        (HeaderFamily.blockHash block.header)).pending = [] := by
  have hdone : ∀ {t : EvmState}, t.durable = s.durable →
      t.pending.find? (fun p => p.hash == HeaderFamily.blockHash block.header) =
        some (s.entry (height, block)) →
      (t.commit (HeaderFamily.blockHash block.header)).durable =
        s.settle height (HeaderFamily.time block.header) (s.own block height) ∧
      (t.commit (HeaderFamily.blockHash block.header)).pending = [] := by
    intro t ht hfind
    refine ⟨?_, ?_⟩
    · rw [commit_durable (e := s.own block height) hfind, settle_of_durable ht]
    · unfold EvmState.commit
      rw [hfind]
  rcases prepareBlock_cases s block height with ⟨p, hp, hhash, hfind, heq⟩ | ⟨hno, -, -⟩ |
      ⟨hfind, -, -, hv, hpend, hd⟩
  · -- an entry waits under the header's hash: it is the one of a candidate with this body
    obtain ⟨c, hc, hh, hcok, rfl⟩ := h p hp
    obtain ⟨htime, htx⟩ := hg c hc hh hhash hcok
    have hown : s.own c.2 c.1 = s.own block height := by
      unfold EvmState.own
      rw [htime, htx, hh, hheight]
    have hentry : s.entry c = s.entry (height, block) := by
      have hhash' : HeaderFamily.blockHash c.2.header = HeaderFamily.blockHash block.header := hhash
      unfold EvmState.entry
      rw [hown, hhash', htime, hh, hheight]
    rw [heq]
    rw [hentry] at hfind
    refine ⟨?_, hdone rfl hfind⟩
    show (s.own c.2 c.1).verdict = _
    rw [hown]
  · rw [hno] at hok
    simp at hok
  · refine ⟨hv, hdone hd ?_⟩
    rw [hpend, List.find?_append, hfind]
    simp [EvmState.entry]

/-! ### The rule in a list -/

variable {pre post : List (BlockRule H τ)}

/-- The rules run: the EVM's part moves as its own check moves it. -/
theorem runRules_withEvm {ctx : BlockContext H} {held held' : EvmState × τ} {v : Sidestr.Verdict}
    (hpos : 0 < ctx.height) (h : runRules ctx held (withEvm pre post) = .ok (v, held')) :
    held'.1 = (held.1.prepareBlock ctx.block ctx.height).2 ∧
      (v.ok = true → (held.1.prepareBlock ctx.block ctx.height).1.ok = true) := by
  obtain ⟨w, b, h, hok⟩ := runRules_right h
  simp only [runRules, BlockRule.left, evmRule, hpos, if_true, Res.ok_bind] at h
  obtain ⟨⟨w', held1⟩, hrun, h⟩ := Res.bind_eq_ok.mp h
  simp only [Res.ok.injEq, Prod.mk.injEq] at h
  rw [← List.append_nil (post.map BlockRule.right)] at hrun
  obtain ⟨w'', b', hrun, -⟩ := runRules_right hrun
  simp only [runRules, Res.ok.injEq, Prod.mk.injEq] at hrun
  refine ⟨?_, fun hv => ?_⟩
  · rw [← h.2, ← hrun.2]
  · have hw := hok hv
    rw [← h.1, Verdict.ok_cons, Bool.and_eq_true] at hw
    simpa using hw.1

/-- At height 0 nothing is run. -/
theorem runRules_withEvm_zero {ctx : BlockContext H} {held held' : EvmState × τ}
    {v : Sidestr.Verdict} (hzero : ctx.height = 0)
    (h : runRules ctx held (withEvm pre post) = .ok (v, held')) : held'.1 = held.1 := by
  obtain ⟨w, b, h, -⟩ := runRules_right h
  simp only [runRules, BlockRule.left, evmRule, hzero, lt_irrefl, if_false, Res.ok_bind] at h
  obtain ⟨⟨w', held1⟩, hrun, h⟩ := Res.bind_eq_ok.mp h
  simp only [Res.ok.injEq, Prod.mk.injEq] at h
  rw [← List.append_nil (post.map BlockRule.right)] at hrun
  obtain ⟨w'', b', hrun, -⟩ := runRules_right hrun
  simp only [runRules, Res.ok.injEq, Prod.mk.injEq] at hrun
  rw [← h.2, ← hrun.2]

/-- An applied block commits the EVM's part. -/
theorem applied_withEvm (block : Block H) (height : ℕ) (held : EvmState × τ) :
    ((withEvm pre post).foldl (fun held r => r.applied held block height) held).1 =
      if 0 < height then held.1.commit (HeaderFamily.blockHash block.header) else held.1 := by
  unfold withEvm
  rw [List.foldl_append, List.foldl_cons, applied_right]
  show evmRule.applied _ block height = _
  rw [applied_right]
  rfl

/-! ### Runs -/

/-- A run: judged and refused candidates are remembered until a block is
applied, and each applied block meets the condition. -/
inductive EvmRun (doc : ChainDocument) (rules : List (BlockRule H (EvmState × τ)))
    (held : EvmState × τ) : List (Block H) → List (ℕ × Block H) → StateOf H (EvmState × τ) → Prop
  | genesis {genesis expect s} : fromGenesisWithRules doc genesis expect rules held = .ok s →
      EvmRun doc rules held [genesis] [] s
  | applied {blocks seen s s'} {height block expect now a} : EvmRun doc rules held blocks seen s →
      Genuine s.held.1 seen block → s.apply height block expect now = .ok (s', .ok a) →
      EvmRun doc rules held (blocks ++ [block]) [] s'
  | refused {blocks seen s s'} {height block expect now e} : EvmRun doc rules held blocks seen s →
      s.apply height block expect now = .ok (s', .error e) →
      EvmRun doc rules held blocks (seen ++ [(height.toNat, block)]) s'
  | judged {blocks seen s} {height block now v next held'} : EvmRun doc rules held blocks seen s →
      s.judge height block now = .ok (v, next, held') →
      EvmRun doc rules held blocks (seen ++ [(height.toNat, block)]) { s with held := held' }
  | submitted {blocks seen s s'} {tx r} : EvmRun doc rules held blocks seen s →
      s.submit tx = .ok (s', r) → EvmRun doc rules held blocks seen s'
  | discarded {blocks seen s} {txid} : EvmRun doc rules held blocks seen s →
      EvmRun doc rules held blocks seen (s.discard txid).1
  | evicted {blocks seen s} {txid} : EvmRun doc rules held blocks seen s →
      EvmRun doc rules held blocks seen (s.evict txid).1

variable {doc : ChainDocument} {rules : List (BlockRule H (EvmState × τ))} {held : EvmState × τ}
  {blocks : List (Block H)}

theorem EvmRun.chain {s : StateOf H (EvmState × τ)} (h : EvmRun doc rules held blocks seen s) :
    Chain doc rules held blocks s := by
  induction h with
  | genesis hgen => exact .genesis hgen
  | applied _ _ h ih => exact ih.step (.applied h)
  | refused _ h ih => simpa using ih.step (.refused h)
  | judged _ h ih => simpa using ih.step (.judged h)
  | submitted _ h ih => simpa using ih.step (.submitted h)
  | discarded _ ih => simpa using ih.step .discarded
  | evicted _ ih => simpa using ih.step .evicted

omit [Machine] [Bitcoin] in
/-- The blocks after the genesis, as the EVM reads them. -/
def evmBlocks (blocks : List (Block H)) : List EvmBlock :=
  (blocks.zipIdx.drop 1).map fun p =>
    ⟨HeaderFamily.blockHash p.1.header, p.2, HeaderFamily.time p.1.header, p.1.txdata⟩

omit [Machine] [Bitcoin] in
theorem evmBlocks_append (h : 0 < blocks.length) (block : Block H) :
    evmBlocks (blocks ++ [block]) = evmBlocks blocks ++
      [⟨HeaderFamily.blockHash block.header, blocks.length, HeaderFamily.time block.header,
        block.txdata⟩] := by
  unfold evmBlocks
  rw [List.zipIdx_append, List.drop_append_of_le_length (by rw [List.length_zipIdx]; exact h),
    List.map_append]
  simp

/-- One more block, accepted. -/
theorem replay_append {b : EvmBlock} : ∀ {bs : List EvmBlock} {s t : EvmState} {vs : List Verdict},
    replay s bs = some (vs, t) → (t.prepare b.hash b.height b.time b.txdata).1.ok = true →
    replay s (bs ++ [b]) = some (vs ++ [(t.prepare b.hash b.height b.time b.txdata).1],
      (t.prepare b.hash b.height b.time b.txdata).2.commit b.hash)
  | [], s, t, vs, h, hok => by
    simp only [replay, Option.some.injEq, Prod.mk.injEq] at h
    obtain ⟨rfl, rfl⟩ := h
    simp [replay, hok]
  | b' :: bs, s, t, vs, h, hok => by
    unfold replay at h
    dsimp only at h
    split_ifs at h with hb
    obtain ⟨⟨vs', t'⟩, hrest, heq⟩ := Option.map_eq_some_iff.mp h
    obtain ⟨rfl, rfl⟩ := Prod.mk.inj heq
    rw [List.cons_append]
    unfold replay
    dsimp only
    rw [if_pos hb, replay_append hrest hok]
    rfl

/-- What a run keeps: the durable state is the replay's, and what waits is
what the remembered candidates left. -/
structure Follows (cfg : EvmConfig) (blocks : List (Block H)) (seen : List (ℕ × Block H))
    (s : EvmState) : Prop where
  replayed : ∃ vs t, replay (EvmState.new cfg) (evmBlocks blocks) = some (vs, t) ∧
    t.pending = [] ∧ s.durable = t.durable
  height : s.height + 1 = blocks.length
  waiting : Waiting s seen

/-- A judgement keeps it. -/
theorem Follows.judged {cfg : EvmConfig} {held held' : EvmState × τ}
    (h : Follows cfg blocks seen held.1) {ctx : BlockContext H} {v : Sidestr.Verdict}
    (hrun : runRules ctx held (withEvm pre post) = .ok (v, held')) :
    Follows cfg blocks (seen ++ [(ctx.height, ctx.block)]) held'.1 := by
  rcases Nat.eq_zero_or_pos ctx.height with hzero | hpos
  · rw [runRules_withEvm_zero hzero hrun]
    refine ⟨h.replayed, h.height, fun p hp => ?_⟩
    obtain ⟨c, hc, hrest⟩ := h.waiting p hp
    exact ⟨c, List.mem_append_left _ hc, hrest⟩
  · rw [(runRules_withEvm hpos hrun).1]
    obtain ⟨hd, hw⟩ := h.waiting.prepare ctx.block ctx.height
    obtain ⟨vs, t, hreplay, hpend, hdur⟩ := h.replayed
    refine ⟨⟨vs, t, hreplay, hpend, hd.trans hdur⟩, ?_, hw⟩
    rw [height_of_durable hd]
    exact h.height

/-- **An applied block keeps it**: its commit is the replay's next one. -/
theorem Follows.applied {cfg : EvmConfig} (h : Follows cfg blocks seen s)
    (hg : Genuine s seen block) (hok : (s.prepareBlock block blocks.length).1.ok = true) :
    Follows cfg (blocks ++ [block]) []
      ((s.prepareBlock block blocks.length).2.commit (HeaderFamily.blockHash block.header)) := by
  obtain ⟨vs, t, hreplay, hpend, hdur⟩ := h.replayed
  obtain ⟨hv, hsettle, hnil⟩ := h.waiting.accepted hg h.height.symm hok
  have hheight : blocks.length = t.height + 1 := by
    rw [← height_of_durable hdur]
    exact h.height.symm
  -- the replayed state has nothing waiting, so it runs the block
  have hwait : Waiting t ([] : List (ℕ × Block H)) := by
    intro p hp
    rw [hpend] at hp
    simp at hp
  have htv : (t.prepareBlock block blocks.length).1 = (t.own block blocks.length).verdict := by
    unfold EvmState.prepareBlock EvmState.prepare EvmState.own
    rw [hpend, if_neg (by omega)]
    rfl
  have htok : (t.prepareBlock block blocks.length).1.ok = true := by
    rw [htv, ← own_of_durable hdur, ← hv]
    exact hok
  obtain ⟨-, htsettle, htnil⟩ := hwait.accepted (by simp [Genuine]) hheight htok
  have hmore : replay (EvmState.new cfg) (evmBlocks (blocks ++ [block])) =
      some (vs ++ [(t.prepareBlock block blocks.length).1],
        (t.prepareBlock block blocks.length).2.commit (HeaderFamily.blockHash block.header)) := by
    rw [evmBlocks_append (by rw [hheight]; omega)]
    exact replay_append hreplay htok
  refine ⟨⟨_, _, hmore, htnil, ?_⟩, ?_, fun p hp => ?_⟩
  · rw [hsettle, htsettle, settle_of_durable hdur, own_of_durable hdur]
  · have hh := height_of_durable (s := s.settle blocks.length
      (HeaderFamily.time block.header) (s.own block blocks.length)) hsettle.symm
    rw [← hh]
    simp [EvmState.settle]
  · rw [hnil] at hp
    simp at hp

/-- **The EVM follows the applied blocks.** In every run whose applied blocks
meet the condition, the durable state is the one that preparing and committing
these blocks gives from the fresh state; and a block applied next that meets it
is judged by the verdict of its own transactions. -/
theorem evm_follows_applied {cfg : EvmConfig} {b : τ} {s : StateOf H (EvmState × τ)}
    (hrun : EvmRun doc (withEvm pre post) (EvmState.new cfg, b) blocks seen s) :
    (∃ vs t, replay (EvmState.new cfg) (evmBlocks blocks) = some (vs, t) ∧
      s.held.1.durable = t.durable) ∧
    ∀ {height block expect now s' a}, s.apply height block expect now = .ok (s', .ok a) →
      Genuine s.held.1 seen block →
      (s.held.1.prepareBlock block height.toNat).1 =
        (s.held.1.own block height.toNat).verdict := by
  have hF : Follows cfg blocks seen s.held.1 := by
    induction hrun with
    | genesis hgen =>
      obtain ⟨s0, cb, rest, next, held', h0, hacc, -, rfl⟩ := fromGenesis_ok hgen
      obtain ⟨bits, challenge, federation, -, rfl⟩ := empty_ok h0
      obtain ⟨v, hrules, -⟩ := hacc.extra
      have hzero := runRules_withEvm_zero rfl hrules
      have hheld : ∀ (x : EvmState × τ) (g : Block H), ((withEvm pre post).foldl
          (fun h r => r.applied h g 0) x).1 = x.1 := fun x g => applied_withEvm g 0 x
      dsimp only
      rw [hheld, hzero]
      exact ⟨⟨[], _, rfl, rfl, rfl⟩, rfl, fun p hp => by simp [EvmState.new] at hp⟩
    | @applied blocks seen s s' height block expect now a hr hg happ ih =>
      obtain ⟨t, cb, rest, next, held', ht, hh, -, hacc, rfl⟩ := apply_applied happ
      have hc := hr.chain.onChain
      have hlen : height.toNat = blocks.length := hh.trans (hc.tip_height ht)
      obtain ⟨v, hrules, hvok⟩ := hacc.extra
      rw [hc.rules] at hrules
      have hpos : 0 < height.toNat := by omega
      obtain ⟨hmove, hev⟩ := runRules_withEvm hpos hrules
      have hheld : (s.commit height.toNat block next held').held.1 =
          held'.1.commit (HeaderFamily.blockHash block.header) := by
        show (s.extraRules.foldl (fun held r => r.applied held block height.toNat) held').1 = _
        rw [hc.rules, applied_withEvm, if_pos hpos]
      dsimp only at hmove hev
      rw [hheld, hmove, hlen]
      exact ih.applied hg (hlen ▸ hev hvok)
    | @refused blocks seen s s' height block expect now e hr happ ih =>
      rcases apply_refused happ with rfl | ⟨v, next, held', hj, rfl⟩
      · refine ⟨ih.replayed, ih.height, fun p hp => ?_⟩
        obtain ⟨c, hc, hrest⟩ := ih.waiting p hp
        exact ⟨c, List.mem_append_left _ hc, hrest⟩
      · obtain ⟨w, hrules⟩ := judge_runRules hj
        rw [hr.chain.onChain.rules] at hrules
        exact ih.judged hrules
    | judged hr hj ih =>
      obtain ⟨w, hrules⟩ := judge_runRules hj
      rw [hr.chain.onChain.rules] at hrules
      exact ih.judged hrules
    | submitted _ hsub ih => rwa [(sameChain_submit hsub).2]
    | discarded _ ih => rwa [(sameChain_discard _ _).2]
    | evicted _ ih => rwa [(sameChain_evict _ _).2]
  obtain ⟨vs, t, hreplay, -, hdur⟩ := hF.replayed
  refine ⟨⟨vs, t, hreplay, hdur⟩, fun {height block expect now s' a} happ hg => ?_⟩
  obtain ⟨t', cb, rest, next, held', ht, hh, -, hacc, -⟩ := apply_applied happ
  have hc := hrun.chain.onChain
  have hlen : height.toNat = blocks.length := hh.trans (hc.tip_height ht)
  obtain ⟨v, hrules, hvok⟩ := hacc.extra
  rw [hc.rules] at hrules
  have hev := (runRules_withEvm (by dsimp only; omega) hrules).2 hvok
  exact (hF.waiting.accepted hg (by rw [hlen]; exact hF.height.symm) hev).1

end

/-! ### A body under another block's header -/

section

attribute [local instance] transferMachine sampleBitcoin

/-- The sealed genesis and the state at it. -/
def sampleStart : Res Error (Block Header × StateOf Header (EvmState × Unit)) := do
  let unsigned ← buildGenesisFor sampleDoc
  let challenge ← sampleDoc.challengeScript
  let genesis ← signBlock unsigned challenge 1
  let s ← fromGenesisWithRules sampleDoc genesis none (withEvm [] []) (EvmState.new sampleConfig, ())
  .ok (genesis, s)

/-- The next block with no transaction, signed: its coinbase commits the empty world. -/
def emptyBlock (s : StateOf Header (EvmState × Unit)) : Res Error (Block Header) := do
  let tip ← s.tip
  signBlock (buildBlock {
    height := tip.height + 1, prev := tip.hash, time := tip.time + 600, transactions := []
    outputs := [⟨0, opReturn (rootPrefix ++ displayBytes 0)⟩], bits := s.bits, marker }) s.challenge 1

/-- A body with a deposit, and a coinbase that commits what it leaves. -/
def forgedBody (block : Block Header) : Block Header :=
  ⟨block.header, [sampleCoinbase (50000 * gwei) [],
    ⟨2, 0, [], [⟨50000, [0x51]⟩, ⟨0, opReturn (depositPrefix ++ List.replicate 19 0 ++ [0xaa])⟩]⟩]⟩

/-- A block applied after its genesis, once `judged` was judged. -/
def applyAfter (judged : Block Header → Block Header) :
    Res Error (Block Header × Block Header × StateOf Header (EvmState × Unit)) := do
  let (genesis, s) ← sampleStart
  let block ← emptyBlock s
  let (_, _, held) ← s.judge 1 (judged block) none
  let (s', r) ← StateOf.apply { s with held } 1 block none none
  match r with
  | .ok _ => .ok (genesis, block, s')
  | .error e => .err e

theorem applyAfter_ok {judged : Block Header → Block Header} {genesis block : Block Header}
    {s' : StateOf Header (EvmState × Unit)} (h : applyAfter judged = .ok (genesis, block, s')) :
    ∃ s v next held a, fromGenesisWithRules sampleDoc genesis none (withEvm [] [])
        (EvmState.new sampleConfig, ()) = .ok s ∧
      s.judge 1 (judged block) none = .ok (v, next, held) ∧
      StateOf.apply { s with held } 1 block none none = .ok (s', .ok a) := by
  simp only [applyAfter, sampleStart, Res.bind_eq_ok, Res.ok.injEq] at h
  obtain ⟨⟨g, s⟩, ⟨_, _, _, _, g', _, s0, hs, hg⟩, b, _, ⟨v, next, held⟩, hj, ⟨s1, r⟩, happ, h⟩ := h
  cases r with
  | error e => simp at h
  | ok a =>
    simp only [Res.ok.injEq, Prod.mk.injEq] at h hg
    obtain ⟨rfl, rfl, rfl⟩ := h
    obtain ⟨rfl, rfl⟩ := hg
    exact ⟨s0, v, next, held, a, hs, hj, happ⟩

set_option maxRecDepth 100000 in
/-- A block judged before it is applied: the state is the replay's. -/
theorem evm_follows_applied_sample : ∃ (blocks : List (Block Header))
    (s : StateOf Header (EvmState × Unit)), Chain sampleDoc (withEvm [] [])
      (EvmState.new sampleConfig, ()) blocks s ∧ s.held.1.height = 1 ∧
    ∃ vs t, replay (EvmState.new sampleConfig) (evmBlocks blocks) = some (vs, t) ∧
      s.held.1.durable = t.durable := by
  have h : (applyAfter id).any (fun r => r.2.2.held.1.height == 1) = true := by decide +kernel
  obtain ⟨⟨genesis, block, s'⟩, hrun, hp⟩ := Res.any_eq_true.mp h
  obtain ⟨s, v, next, held, a, hs, hj, happ⟩ := applyAfter_ok hrun
  have hr : EvmRun sampleDoc (withEvm [] []) (EvmState.new sampleConfig, ())
      ([genesis] ++ [block]) [] s' := by
    refine .applied (.judged (.genesis hs) hj) (fun c hc _ _ _ => ?_) happ
    simp only [List.nil_append, List.mem_singleton] at hc
    rw [hc]
    exact ⟨rfl, rfl⟩
  exact ⟨_, s', hr.chain, by simpa using hp, (evm_follows_applied hr).1⟩

set_option maxRecDepth 100000 in
/-- **A forged body is kept for the block.** Judged under the block's header
first, it gives the applied block's state: 50,000 gwei that no applied
transaction deposited. -/
theorem forged_body : ∃ (genesis block forged : Block Header) (s s' : StateOf Header (EvmState × Unit))
    (v : Sidestr.Verdict) (next : Records) (held : EvmState × Unit) (a : Applied),
    fromGenesisWithRules sampleDoc genesis none (withEvm [] []) (EvmState.new sampleConfig, ()) =
      .ok s ∧ forged.header = block.header ∧ s.judge 1 forged none = .ok (v, next, held) ∧
    StateOf.apply { s with held := held } 1 block none none = .ok (s', .ok a) ∧
    s'.held.1.world.total = 50000 * gwei ∧
    ∃ vs t, replay (EvmState.new sampleConfig) (evmBlocks [genesis, block]) = some (vs, t) ∧
      t.world.total = 0 := by
  have h : (applyAfter forgedBody).any (fun r => r.2.2.held.1.world.total == 50000 * gwei &&
      (replay (EvmState.new sampleConfig) (evmBlocks [r.1, r.2.1])).any
        fun t => t.2.world.total == 0) = true := by decide +kernel
  obtain ⟨⟨genesis, block, s'⟩, hrun, hp⟩ := Res.any_eq_true.mp h
  simp only [Bool.and_eq_true, beq_iff_eq] at hp
  obtain ⟨⟨vs, t⟩, hreplay, ht⟩ := (Option.any_eq_true _ _).mp hp.2
  obtain ⟨s, v, next, held, a, hs, hj, happ⟩ := applyAfter_ok hrun
  exact ⟨genesis, block, forgedBody block, s, s', v, next, held, a, hs, rfl, hj, happ, hp.1, vs, t,
    hreplay, beq_iff_eq.mp ht⟩

end

end Evm

end Sidestr
