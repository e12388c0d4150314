/-
# Producing a block

One signer builds the next block from the mempool, signs it and adds it. When
the block is refused for its transactions, the producer walks the mempool in
order, keeps what still makes a valid block and evicts the rest, and tries once
more with what is left.

Every call of the chain is a sequence of the steps of a run (`Steps`): a
producer's too, whatever it evicts on the way.

Key definitions: `StateOf.produce`, `Steps`, `ChainCall`.
Key theorems: `produce_steps`, `ChainCall.steps`, `Steps.chain`.
-/
import Sidestr.Lib.Method
import Sidestr.Core.Accept

namespace Sidestr

/-- The rules that look at nothing but the header and its place. -/
def RuleId.isHeader : RuleId → Bool
  | .headerPrevLink | .headerPow | .headerDifficulty | .headerMtp | .headerTimeFuture
  | .headerVersion | .headerTimewarp
  | .knotsHeaderV1UntilFork | .knotsHeaderV2FromFork | .knotsHeaderHeight
  | .knotsHeaderFlagsReserved => true
  | .other id => (ascii "btc:rule-header-".toList).isPrefixOf id ||
      (ascii "knots:rule-header-".toList).isPrefixOf id
  | _ => false

/-- A refusal that no eviction repairs. -/
def Error.isHeaderRejection : Error → Bool
  | .rejected _ rules => rules.any RuleId.isHeader
  | _ => false

variable [Bitcoin] {H σ : Type} [HeaderFamily H]

/-- What producing a block reports, and the block. -/
structure Produced (H : Type) where
  applied : Applied
  fees : ℕ
  claims : ℕ
  block : Block H

namespace StateOf

open Method

/-- `addBlock` as a call on the state. -/
def adding (block : Block H) (expect : Option BlockHash) (now : Option UInt32) :
    Method Error (StateOf H σ) Applied :=
  ofState fun s => s.addBlock block expect now

/-- A judgement, with what the extra rules keep of it. -/
def judging (height : UInt32) (block : Block H) (now : Option UInt32) :
    Method Error (StateOf H σ) (Verdict × Records) := fun s =>
  match s.judge height block now with
  | .ok (v, next, held) => ({ s with held }, .ok (v, next))
  | .err e => (s, .err e)
  | .panic => (s, .panic)

/-- An eviction, and whether there was something to evict. -/
def evicting (txid : Txid) : Method Error (StateOf H σ) Bool := fun s =>
  ((s.evict txid).1, .ok (s.evict txid).2)

/-- The next block with these transactions, signed. -/
def signedNext (s : StateOf H σ) (key : SecretKey) (next : NextBlock) (txs : List Transaction) :
    Res Error (Block H × ℕ) := do
  let (block, fees) ← s.buildNextWith next txs
  let signed ← signBlock block s.challenge key
  .ok (signed, fees)

/-- The walk of the mempool: keep a transaction the candidate is valid with,
evict it otherwise. Returns how many were evicted. -/
def keepValid (key : SecretKey) (next : NextBlock) (now : Option UInt32) :
    List Transaction → List Transaction → ℕ → Method Error (StateOf H σ) ℕ
  | [], _, evicted => pure evicted
  | tx :: pending, kept, evicted => do
    let (signed, _) ← read fun s => s.signedNext key next (kept ++ [tx])
    let tip ← read fun s => s.tip
    let (verdict, _) ← judging (UInt32.ofNat (tip.height + 1)) signed now
    if verdict.ok then keepValid key next now pending (kept ++ [tx]) evicted
    else
      let gone ← evicting (Bitcoin.computeTxid tx)
      keepValid key next now pending kept (if gone then evicted + 1 else evicted)

/-- One signer: build, sign, add. -/
def produce (key : SecretKey) (next : NextBlock) (now : Option UInt32) :
    Method Error (StateOf H σ) (Produced H) := do
  let s ← get
  ofRes (Res.refuseIf s.federation.isSome (.federation "a federated chain makes blocks through the round"))
  let (signed, fees) ← read fun s => s.signedNext key next (s.mempool.map Prod.snd)
  match ← attempt (adding signed none now) with
  | .ok applied => pure ⟨applied, fees, next.claims.length, signed⟩
  | .error first =>
    ofRes (Res.refuseIf first.isHeaderRejection first)
    let s ← get
    ofRes (Res.refuseIf s.mempool.isEmpty first)
    let evicted ← keepValid key next now (s.mempool.map Prod.snd) [] 0
    ofRes (Res.refuseIf (evicted == 0) first)
    let (signed, fees) ← read fun s => s.signedNext key next (s.mempool.map Prod.snd)
    let applied ← adding signed none now
    pure ⟨applied, fees, next.claims.length, signed⟩

end StateOf

/-! ### Calls as steps -/

/-- Steps in order, with the blocks applied. -/
inductive Steps : StateOf H σ → List (Block H) → StateOf H σ → Prop
  | refl (s : StateOf H σ) : Steps s [] s
  | step {s s' s'' : StateOf H σ} {bs : List (Block H)} {b : Option (Block H)} :
      Steps s bs s' → Step s' b s'' → Steps s (bs ++ b.toList) s''

theorem Steps.trans {s s' s'' : StateOf H σ} {bs bs' : List (Block H)} (h : Steps s bs s')
    (h' : Steps s' bs' s'') : Steps s (bs ++ bs') s'' := by
  induction h' with
  | refl =>
    rw [List.append_nil]
    exact h
  | step _ hstep ih =>
    rw [← List.append_assoc]
    exact .step ih hstep

theorem Step.steps {s s' : StateOf H σ} {b : Option (Block H)} (h : Step s b s') :
    Steps s b.toList s' :=
  .step (.refl s) h

/-- The steps of a call continue a run. -/
theorem Steps.chain {doc : ChainDocument} {rules : List (BlockRule H σ)} {held : σ}
    {s s' : StateOf H σ} {blocks bs : List (Block H)} (h : Steps s bs s')
    (hc : Chain doc rules held blocks s) : Chain doc rules held (blocks ++ bs) s' := by
  induction h with
  | refl =>
    rw [List.append_nil]
    exact hc
  | step _ hstep ih =>
    rw [← List.append_assoc]
    exact .step ih hstep

/-- Steps that apply no block. -/
def Quiet (s s' : StateOf H σ) : Prop := Steps s [] s'

theorem Quiet.refl (s : StateOf H σ) : Quiet s s := Steps.refl s

theorem Quiet.trans {s s' s'' : StateOf H σ} (h : Quiet s s') (h' : Quiet s' s'') : Quiet s s'' :=
  Steps.trans h h'

open StateOf Method

/-- The block a call applied, when it did. -/
def appliedBy (block : Block H) : Res Error Applied → List (Block H)
  | .ok _ => [block]
  | _ => []

theorem addBlock_apply {block : Block H} {expect : Option BlockHash} {now : Option UInt32}
    {s s' : StateOf H σ} {e : Except Error Applied} (h : s.addBlock block expect now = .ok (s', e)) :
    (∃ height, s.apply height block expect now = .ok (s', e)) ∨ (s' = s ∧ ∃ why, e = .error why) := by
  unfold StateOf.addBlock at h
  split at h
  · exact .inl ⟨_, h⟩
  · cases h
    exact .inr ⟨rfl, _, rfl⟩
  · cases h

/-- A block added is one applied. -/
theorem adding_ok {block : Block H} {expect : Option BlockHash} {now : Option UInt32}
    {s s' : StateOf H σ} {a : Applied} (h : adding block expect now s = (s', .ok a)) :
    ∃ height, s.apply height block expect now = .ok (s', .ok a) := by
  unfold adding ofState at h
  split at h
  · rename_i hadd
    cases h
    rcases addBlock_apply hadd with hrun | ⟨-, why, hwhy⟩
    · exact hrun
    · cases hwhy
  · cases h
  · cases h
  · cases h

theorem adding_steps {block : Block H} {expect : Option BlockHash} {now : Option UInt32}
    {s s' : StateOf H σ} {r : Res Error Applied}
    (h : adding block expect now s = (s', r)) : Steps s (appliedBy block r) s' := by
  unfold adding ofState at h
  split at h
  · rename_i hadd
    cases h
    rcases addBlock_apply hadd with ⟨height, hrun⟩ | ⟨-, why, hwhy⟩
    · exact (Step.applied hrun).steps
    · cases hwhy
  · rename_i hadd
    cases h
    rcases addBlock_apply hadd with ⟨height, hrun⟩ | ⟨rfl, -⟩
    · exact (Step.refused hrun).steps
    · exact .refl _
  · cases h
    exact .refl _
  · cases h
    exact .refl _

theorem judging_quiet (height : UInt32) (block : Block H) (now : Option UInt32) :
    Within (Quiet (σ := σ)) (judging height block now) := by
  intro s
  unfold judging
  split
  · rename_i v next held hj
    exact (Step.judged hj).steps
  · exact .refl _
  · exact .refl _

theorem evicting_quiet (txid : Txid) :
    Within (Quiet (H := H) (σ := σ)) (evicting txid) :=
  fun _ => Step.evicted.steps

/-- The walk applies no block. -/
theorem keepValid_quiet (key : SecretKey) (next : NextBlock) (now : Option UInt32) :
    ∀ (pending kept : List Transaction) (evicted : ℕ),
      Within (Quiet (H := H) (σ := σ)) (keepValid key next now pending kept evicted)
  | [], _, _ => Within.pure Quiet.refl _
  | tx :: pending, kept, evicted => by
    have htrans : ∀ a b c : StateOf H σ, Quiet a b → Quiet b c → Quiet a c :=
      fun _ _ _ => Quiet.trans
    unfold keepValid
    refine Within.bind htrans (Within.read Quiet.refl _) fun _ => ?_
    refine Within.bind htrans (Within.read Quiet.refl _) fun _ => ?_
    refine Within.bind htrans (judging_quiet _ _ _) fun p => ?_
    dsimp only
    split
    · exact keepValid_quiet key next now pending _ _
    · exact Within.bind htrans (evicting_quiet _) fun gone =>
        keepValid_quiet key next now pending _ _

/-- An attempt that returned added the block; any other applied none. -/
theorem attempt_adding {block : Block H} {expect : Option BlockHash} {now : Option UInt32}
    {s s' : StateOf H σ} {r : Res Error (Except Error Applied)}
    (h : attempt (adding block expect now) s = (s', r)) :
    (∃ a, r = .ok (.ok a) ∧ adding block expect now s = (s', .ok a)) ∨
      ((∀ a, r ≠ .ok (.ok a)) ∧ Quiet s s') := by
  unfold attempt at h
  split at h
  · rename_i s₁ a hadd
    cases h
    exact .inl ⟨a, rfl, hadd⟩
  · rename_i s₁ e hadd
    cases h
    exact .inr ⟨fun a ha => (by cases ha), adding_steps hadd⟩
  · rename_i s₁ hadd
    cases h
    exact .inr ⟨fun a ha => (by cases ha), adding_steps hadd⟩

/-- The block a producer made, when it did. -/
def producedBy : Res Error (Produced H) → List (Block H)
  | .ok p => [p.block]
  | _ => []

omit [Bitcoin] [HeaderFamily H] in
theorem producedBy_stopped {r : Res Error (Produced H)} (h : ∀ p, r ≠ .ok p) : producedBy r = [] := by
  cases r with
  | ok p => exact absurd rfl (h p)
  | err e => rfl
  | panic => rfl

/-- Producing applies no block when it returns none; else it adds the block it
returns after steps that apply none. -/
theorem produce_cases {key : SecretKey} {next : NextBlock} {now : Option UInt32}
    {s s' : StateOf H σ} {r : Res Error (Produced H)} (h : produce key next now s = (s', r)) :
    (Quiet s s' ∧ ∀ p, r ≠ .ok p) ∨
      ∃ p s₁, r = .ok p ∧ Quiet s s₁ ∧ adding p.block none now s₁ = (s', .ok p.applied) := by
  -- it stopped where the state is `x`
  have hstop : ∀ {x : StateOf H σ}, Quiet s x → s' = x ∧ (∀ p, r ≠ .ok p) →
      (Quiet s s' ∧ ∀ p, r ≠ .ok p) ∨
        ∃ p s₁, r = .ok p ∧ Quiet s s₁ ∧ adding p.block none now s₁ = (s', .ok p.applied) := by
    rintro x hx ⟨rfl, hr⟩
    exact .inl ⟨hx, hr⟩
  unfold produce at h
  rw [get_bind] at h
  rcases ofRes_bind_cases h with ⟨_, -, h⟩ | ⟨hs, hr, -⟩
  rotate_left
  · exact hstop (.refl s) ⟨hs, hr⟩
  rcases read_bind_cases h with ⟨⟨signed, fees⟩, -, h⟩ | ⟨hs, hr, -⟩
  rotate_left
  · exact hstop (.refl s) ⟨hs, hr⟩
  rcases bind_cases h with ⟨s₁, a, hadd, h⟩ | ⟨e, hadd, rfl⟩ | ⟨hadd, rfl⟩
  rotate_left
  · rcases attempt_adding hadd with ⟨a, ha, -⟩ | ⟨-, hq⟩
    · cases ha
    · exact .inl ⟨hq, fun p hp => by cases hp⟩
  · rcases attempt_adding hadd with ⟨a, ha, -⟩ | ⟨-, hq⟩
    · cases ha
    · exact .inl ⟨hq, fun p hp => by cases hp⟩
  cases a with
  | ok applied =>
    cases h
    rcases attempt_adding hadd with ⟨a, ha, hrun⟩ | ⟨hno, -⟩
    · cases ha
      exact .inr ⟨_, s, rfl, .refl s, hrun⟩
    · exact absurd rfl (hno applied)
  | error first =>
    have h₁ : Quiet s s₁ := by
      rcases attempt_adding hadd with ⟨a, ha, -⟩ | ⟨-, hq⟩
      · cases ha
      · exact hq
    rcases ofRes_bind_cases h with ⟨_, -, h⟩ | ⟨hs, hr, -⟩
    rotate_left
    · exact hstop h₁ ⟨hs, hr⟩
    rw [get_bind] at h
    rcases ofRes_bind_cases h with ⟨_, -, h⟩ | ⟨hs, hr, -⟩
    rotate_left
    · exact hstop h₁ ⟨hs, hr⟩
    have hwalk := keepValid_quiet key next now (s₁.mempool.map Prod.snd) [] 0 s₁
    rcases bind_cases h with ⟨s₂, evicted, hkeep, h⟩ | ⟨e, hkeep, rfl⟩ | ⟨hkeep, rfl⟩
    rotate_left
    · rw [hkeep] at hwalk
      exact .inl ⟨h₁.trans hwalk, fun p hp => by cases hp⟩
    · rw [hkeep] at hwalk
      exact .inl ⟨h₁.trans hwalk, fun p hp => by cases hp⟩
    rw [hkeep] at hwalk
    have h₂ : Quiet s s₂ := h₁.trans hwalk
    rcases ofRes_bind_cases h with ⟨_, -, h⟩ | ⟨hs, hr, -⟩
    rotate_left
    · exact hstop h₂ ⟨hs, hr⟩
    rcases read_bind_cases h with ⟨⟨signed', fees'⟩, -, h⟩ | ⟨hs, hr, -⟩
    rotate_left
    · exact hstop h₂ ⟨hs, hr⟩
    rcases bind_cases h with ⟨s₃, a, hadd, h⟩ | ⟨e, hadd, rfl⟩ | ⟨hadd, rfl⟩
    · cases h
      exact .inr ⟨_, s₂, rfl, h₂, hadd⟩
    · exact .inl ⟨h₂.trans (adding_steps hadd), fun p hp => by cases hp⟩
    · exact .inl ⟨h₂.trans (adding_steps hadd), fun p hp => by cases hp⟩

/-- **Producing is a sequence of steps**, one of them a block applied when it
returns one, and none otherwise. -/
theorem produce_steps {key : SecretKey} {next : NextBlock} {now : Option UInt32}
    {s s' : StateOf H σ} {r : Res Error (Produced H)} (h : produce key next now s = (s', r)) :
    Steps s (producedBy r) s' := by
  rcases produce_cases h with ⟨hq, hr⟩ | ⟨p, s₁, rfl, hq, hadd⟩
  · rw [producedBy_stopped hr]
    exact hq
  · exact Steps.trans hq (adding_steps hadd)


/-! ### Calls -/

/-- The calls on a chain in memory. -/
inductive ChainCall (H : Type)
  | submit (tx : Transaction)
  | discard (txid : Txid)
  | evict (txid : Txid)
  | apply (height : UInt32) (block : Block H) (expect : Option BlockHash) (now : Option UInt32)
  | addBlock (block : Block H) (expect : Option BlockHash) (now : Option UInt32)
  | produce (key : SecretKey) (next : NextBlock) (now : Option UInt32)

/-- What a call leaves, and the blocks it applied. -/
def ChainCall.run (s : StateOf H σ) : ChainCall H → StateOf H σ × List (Block H)
  | .submit tx =>
    match s.submit tx with
    | .ok (s', _) => (s', [])
    | _ => (s, [])
  | .discard txid => ((s.discard txid).1, [])
  | .evict txid => ((s.evict txid).1, [])
  | .apply height block expect now =>
    match s.apply height block expect now with
    | .ok (s', .ok _) => (s', [block])
    | .ok (s', .error _) => (s', [])
    | _ => (s, [])
  | .addBlock block expect now =>
    match adding block expect now s with
    | (s', r) => (s', appliedBy block r)
  | .produce key next now =>
    match StateOf.produce key next now s with
    | (s', r) => (s', producedBy r)

/-- **Every call is a sequence of steps.** -/
theorem ChainCall.steps (s : StateOf H σ) (c : ChainCall H) :
    Steps s (c.run s).2 (c.run s).1 := by
  cases c with
  | submit tx =>
    unfold ChainCall.run
    dsimp only
    split
    · rename_i s' r hsub
      exact (Step.submitted hsub).steps
    · exact .refl s
  | discard txid => exact Step.discarded.steps
  | evict txid => exact Step.evicted.steps
  | apply height block expect now =>
    unfold ChainCall.run
    dsimp only
    split
    · rename_i happly
      exact (Step.applied happly).steps
    · rename_i happly
      exact (Step.refused happly).steps
    · exact .refl s
  | addBlock block expect now => exact adding_steps rfl
  | produce key next now => exact produce_steps rfl

/-- A run of calls from the genesis, with the blocks applied. -/
inductive Calls (doc : ChainDocument) (rules : List (BlockRule H σ)) (held : σ) :
    List (Block H) → StateOf H σ → Prop
  | genesis {genesis expect s} : fromGenesisWithRules doc genesis expect rules held = .ok s →
      Calls doc rules held [genesis] s
  | call {blocks s} (c : ChainCall H) : Calls doc rules held blocks s →
      Calls doc rules held (blocks ++ (c.run s).2) (c.run s).1

theorem Calls.chain {doc : ChainDocument} {rules : List (BlockRule H σ)} {held : σ}
    {blocks : List (Block H)} {s : StateOf H σ} (h : Calls doc rules held blocks s) :
    Chain doc rules held blocks s := by
  induction h with
  | genesis hgen => exact .genesis hgen
  | call c _ ih => exact (c.steps _).chain ih

end Sidestr
