/-
# Withdrawals and claims paid apart

Two rules match a coinbase's outputs on their own: a claim's payout is the output
before its marker (`parse_claims`), a withdrawal's is the first output of its
script and value that no withdrawal before it took (`EvmState::prepare`). A third
lets the coinbase pay both totals. One output may serve a claim and a withdrawal,
and what the other was allowed is then paid to anyone (`paid_apart_iff`,
`payout_pays_withdrawal`).

Key definitions: `paidTo`, `PaidApart`.
Key theorems: `firstUnpaid_none_iff`, `payouts_ascend`, `paid_apart_iff`.
-/
import Sidestr.Lib.Matching
import Sidestr.Core.Quick
import Sidestr.Evm.Replay

namespace Sidestr

namespace Evm

/-! ### What an output pays -/

/-- The script an output pays, and its sats. -/
def paidTo (o : TxOut) : Bytes × ℕ := (o.scriptPubkey, o.sats)

/-- The script a withdrawal asks to be paid, and its sats. -/
def Withdrawal.asks (w : Withdrawal) : Bytes × ℕ := (w.script, w.sats)

/-- The script a claim's payout pays, and its sats. -/
def claimPaid (c : Claim) : Bytes × ℕ := (c.payout.scriptPubkey, c.payout.value)

/-- Each claim has its payout's output, and each withdrawal an output of its script
and value, all of them different. -/
def PaidApart (cb : Transaction) (ws : List Withdrawal) : Prop :=
  (∀ c ∈ (parseClaims cb).1, (cb.output.map paidTo)[c.payout.index]? = some (claimPaid c)) ∧
    Matching.Apart (cb.output.map paidTo) ((parseClaims cb).1.map fun c => c.payout.index)
      (ws.map Withdrawal.asks)

theorem map_eraseP_paidTo (k : Bytes × ℕ) (outputs : List TxOut) :
    (outputs.eraseP fun o => paidTo o == k).map paidTo = (outputs.map paidTo).erase k := by
  have hfun : (fun x : Bytes × ℕ => k == x) = fun x => x == k := by
    funext x
    exact Bool.beq_comm
  rw [List.erase_eq_eraseP, hfun, List.eraseP_map]
  rfl

/-- **The rule's matching** succeeds exactly when the coinbase pays every script
and value as often as the withdrawals ask for it. -/
theorem firstUnpaid_none_iff : ∀ {ws : List Withdrawal} {outputs : List TxOut},
    firstUnpaid ws outputs = none ↔
      ∀ k, (ws.map Withdrawal.asks).count k ≤ (outputs.map paidTo).count k
  | [], outputs => by
    refine iff_of_true rfl fun k => ?_
    rw [List.map_nil, List.count_nil]
    exact Nat.zero_le _
  | w :: ws, outputs => by
    have hpays : (fun o : TxOut => o.scriptPubkey == w.script && o.sats == w.sats) =
        fun o => paidTo o == w.asks := rfl
    unfold firstUnpaid
    dsimp only
    rw [hpays]
    by_cases hany : (outputs.any fun o => paidTo o == w.asks) = true
    · have hpos : 0 < (outputs.map paidTo).count w.asks := by
        obtain ⟨o, ho, heq⟩ := List.any_eq_true.mp hany
        exact List.count_pos_iff.mpr (beq_iff_eq.mp heq ▸ List.mem_map_of_mem ho)
      rw [if_pos hany, firstUnpaid_none_iff, map_eraseP_paidTo]
      refine forall_congr' fun k => ?_
      rw [List.map_cons, List.count_cons, List.count_erase]
      by_cases hk : w.asks = k
      · rw [if_pos (beq_iff_eq.mpr hk), ← hk]
        omega
      · rw [if_neg (mt beq_iff_eq.mp hk), Nat.add_zero, Nat.sub_zero]
    · rw [if_neg hany]
      refine iff_of_false (fun h => by cases h) fun h => hany ?_
      have hcount := h w.asks
      rw [List.map_cons, List.count_cons_self] at hcount
      have hmem := List.count_pos_iff.mp (Nat.lt_of_lt_of_le (Nat.succ_pos _) hcount)
      obtain ⟨o, ho, heq⟩ := List.mem_map.mp hmem
      exact List.any_eq_true.mpr ⟨o, ho, beq_iff_eq.mpr heq⟩

/-! ### The payouts of a coinbase -/

/-- The claims read after some outputs have their payouts at ascending places, the
last of these outputs the first of them. -/
theorem payouts_ascend : ∀ {outs before : List TxOut},
    ((parseClaimsFrom before.length before.getLast? outs).1.map fun c => c.payout.index).Pairwise
        (· < ·) ∧
      ∀ c ∈ (parseClaimsFrom before.length before.getLast? outs).1,
        before.length ≤ c.payout.index + 1 ∧
          ((before ++ outs).map paidTo)[c.payout.index]? = some (claimPaid c)
  | [], before => ⟨.nil, fun c hc => by cases hc⟩
  | o :: outs, before => by
    have ih := @payouts_ascend outs (before ++ [o])
    rw [List.getLast?_concat, List.length_append, List.length_singleton, List.append_assoc,
      List.singleton_append] at ih
    have hrest : ∀ c ∈ (parseClaimsFrom (before.length + 1) (some o) outs).1,
        before.length ≤ c.payout.index + 1 ∧
          ((before ++ o :: outs).map paidTo)[c.payout.index]? = some (claimPaid c) :=
      fun c hc => ⟨(Nat.le_succ _).trans (ih.2 c hc).1, (ih.2 c hc).2⟩
    unfold parseClaimsFrom
    dsimp only
    split
    · exact ⟨ih.1, hrest⟩
    · split
      · exact ⟨ih.1, hrest⟩
      · rename_i p hlast
        split_ifs
        · obtain ⟨front, rfl⟩ := List.getLast?_eq_some_iff.mp hlast
          rw [List.length_append, List.length_singleton] at ih hrest ⊢
          refine ⟨List.pairwise_cons.mpr ⟨fun n hn => ?_, ih.1⟩, fun c hc => ?_⟩
          · obtain ⟨c, hc, rfl⟩ := List.mem_map.mp hn
            have hnext := (ih.2 c hc).1
            show front.length + 1 - 1 < c.payout.index
            omega
          · rcases List.mem_cons.mp hc with rfl | hc
            · refine ⟨Nat.le_refl (front.length + 1), ?_⟩
              dsimp only
              rw [Nat.add_sub_cancel, List.append_assoc, List.map_append,
                List.getElem?_append_right (by rw [List.length_map]), List.length_map, Nat.sub_self]
              rfl
            · exact hrest c hc
        · exact ⟨ih.1, hrest⟩

/-- Every claim has its payout's output, and no two the same. -/
theorem payouts_of_parseClaims (cb : Transaction) :
    ((parseClaims cb).1.map fun c => c.payout.index).Nodup ∧
      ∀ c ∈ (parseClaims cb).1, (cb.output.map paidTo)[c.payout.index]? = some (claimPaid c) := by
  have h := @payouts_ascend cb.output []
  exact ⟨h.1.imp fun hlt => Nat.ne_of_lt hlt, fun c hc => (h.2 c hc).2⟩

/-- What the payouts' places hold is what the claims are paid. -/
theorem valuesAt_payouts (cb : Transaction) :
    Matching.valuesAt (cb.output.map paidTo) ((parseClaims cb).1.map fun c => c.payout.index) =
      (parseClaims cb).1.map claimPaid := by
  have h := (payouts_of_parseClaims cb).2
  refine Matching.valuesAt_of_forall₂ ?_
  rw [List.forall₂_map_left_iff, List.forall₂_map_right_iff]
  exact List.forall₂_same.mpr h

/-! ### Apart or not -/

/-- **Apart, by counting**: the coinbase pays every script and value as often as
its claims and the withdrawals together. -/
theorem paidApart_iff_count {cb : Transaction} {ws : List Withdrawal} : PaidApart cb ws ↔
    ∀ k, (ws.map Withdrawal.asks).count k + ((parseClaims cb).1.map claimPaid).count k ≤
      (cb.output.map paidTo).count k := by
  obtain ⟨hnodup, hheld⟩ := payouts_of_parseClaims cb
  have hin : ∀ i ∈ (parseClaims cb).1.map fun c => c.payout.index,
      i < (cb.output.map paidTo).length := by
    intro i hi
    obtain ⟨c, hc, rfl⟩ := List.mem_map.mp hi
    exact (List.getElem?_eq_some_iff.mp (hheld c hc)).1
  unfold PaidApart
  rw [Matching.apart_iff_count hnodup hin, valuesAt_payouts]
  exact and_iff_right hheld

section

variable [Machine] [Bitcoin] {H τ : Type} [HeaderFamily H]

/-- The withdrawals of a block's transactions, run from the state. -/
def EvmState.withdrawalsOf (s : EvmState) (block : Block H) (height : ℕ) : List Withdrawal :=
  (s.own block height).verdict.withdrawals

/-- A block that runs well pays its withdrawals. -/
theorem own_unpaid {s : EvmState} {block : Block H} {height : ℕ} {cb : Transaction}
    {rest : List Transaction} (hbody : block.txdata = cb :: rest)
    (hok : (s.own block height).verdict.ok = true) :
    firstUnpaid (s.withdrawalsOf block height) cb.output = none := by
  unfold EvmState.withdrawalsOf EvmState.own at *
  rw [hbody] at hok ⊢
  unfold execute Verdict.ok at hok
  dsimp only [List.head?_cons, Option.map_some, Option.getD_some] at hok
  rw [Option.isNone_iff_eq_none, Option.or_eq_none_iff, Option.map_eq_none_iff] at hok
  exact hok.2

/-- **Paid apart.** In an accepted block every claim and every withdrawal has an
output of its own exactly when the withdrawals have one each and, of the script and
value of each claim's payout, the coinbase has as many outputs as there are claims and
withdrawals; and the withdrawals have one each unless the rule kept a verdict under
the block's header hash. -/
theorem paid_apart_iff {pre post : List (BlockRule H τ)} {s s' : StateOf H (EvmState × τ)}
    {height : UInt32} {block : Block H} {expect : Option BlockHash} {now : Option UInt32}
    {a : Applied} (hrules : s.extraRules = withEvm pre post)
    (h : s.apply height block expect now = .ok (s', .ok a)) :
    ∃ cb rest, block.txdata = cb :: rest ∧
      (PaidApart cb (s.held.1.withdrawalsOf block height.toNat) ↔
        firstUnpaid (s.held.1.withdrawalsOf block height.toNat) cb.output = none ∧
        ∀ c ∈ (parseClaims cb).1,
          ((s.held.1.withdrawalsOf block height.toNat).map Withdrawal.asks).count (claimPaid c) +
              ((parseClaims cb).1.map claimPaid).count (claimPaid c) ≤
            (cb.output.map paidTo).count (claimPaid c)) ∧
      ((∀ p ∈ s.held.1.pending, p.hash ≠ HeaderFamily.blockHash block.header) →
        firstUnpaid (s.held.1.withdrawalsOf block height.toNat) cb.output = none) := by
  obtain ⟨t, cb, rest, next, held, -, hheight, -, hacc, -⟩ := apply_applied h
  refine ⟨cb, rest, hacc.txdata, ?_, fun hfresh => ?_⟩
  · rw [paidApart_iff_count, firstUnpaid_none_iff]
    constructor
    · exact fun hall => ⟨fun k => (Nat.le_add_right _ _).trans (hall k), fun c _ => hall _⟩
    · rintro ⟨hpaid, hclaims⟩ k
      by_cases hk : k ∈ (parseClaims cb).1.map claimPaid
      · obtain ⟨c, hc, rfl⟩ := List.mem_map.mp hk
        exact hclaims c hc
      · rw [List.count_eq_zero_of_not_mem hk, Nat.add_zero]
        exact hpaid k
  · obtain ⟨v, hrun, hv⟩ := hacc.extra
    rw [hrules] at hrun
    have hpos : 0 < height.toNat := by omega
    have hok := (runRules_withEvm hpos hrun).2 hv
    refine own_unpaid hacc.txdata ?_
    have hnone : s.held.1.pending.find? (fun p => p.hash == HeaderFamily.blockHash block.header) =
        none := by
      rw [List.find?_eq_none]
      exact fun p hp heq => hfresh p hp (beq_iff_eq.mp heq)
    unfold EvmState.prepareBlock EvmState.prepare at hok
    dsimp only [StateOf.context] at hok
    rw [hnone] at hok
    dsimp only at hok
    split_ifs at hok
    · cases hok
    · exact hok
    · exact hok

end

/-! ### One output for a claim and a withdrawal -/

section

attribute [local instance] transferMachine sampleBitcoin

/-- The state after the genesis and some empty blocks. -/
def emptyRun : ℕ → Res Error (StateOf Header (EvmState × Unit))
  | 0 => do
    let start ← sampleStart
    .ok start.2
  | n + 1 => do
    let s ← emptyRun n
    let block ← emptyBlock s
    let applied ← s.apply (UInt32.ofNat (n + 1)) block none none
    match applied.2 with
    | .ok _ => .ok applied.1
    | .error e => .err e

/-- `emptyRun`, by the recursor. -/
theorem emptyRun_eq_rec : emptyRun = fun n => Nat.rec (do
    let start ← sampleStart
    .ok start.2) (fun n ih => do
    let s ← ih
    let block ← emptyBlock s
    let applied ← s.apply (UInt32.ofNat (n + 1)) block none none
    match applied.2 with
    | .ok _ => .ok applied.1
    | .error e => .err e) n := by
  funext n
  induction n with
  | zero => rfl
  | succ n ih => rw [emptyRun, ih]

theorem chain_of_emptyRun {n : ℕ} {s : StateOf Header (EvmState × Unit)} (h : emptyRun n = .ok s) :
    ∃ blocks, Chain sampleDoc (withEvm [] []) (EvmState.new sampleConfig, ()) blocks s := by
  induction n generalizing s with
  | zero =>
    obtain ⟨start, hstart, h⟩ := Res.bind_eq_ok.mp h
    simp only [sampleStart, Res.bind_eq_ok, Res.ok.injEq] at hstart
    obtain ⟨_, _, _, _, _, _, s1, hs, rfl⟩ := hstart
    rw [← Res.ok.inj h]
    exact ⟨_, .genesis hs⟩
  | succ n ih =>
    obtain ⟨s0, hs0, h⟩ := Res.bind_eq_ok.mp h
    obtain ⟨block, -, h⟩ := Res.bind_eq_ok.mp h
    obtain ⟨⟨s1, r⟩, happ, h⟩ := Res.bind_eq_ok.mp h
    obtain ⟨blocks, hchain⟩ := ih hs0
    cases r with
    | error e => cases h
    | ok a =>
      rw [← Res.ok.inj h]
      exact ⟨_, hchain.step (.applied happ)⟩

/-- The script of the sample's withdrawal. -/
def withdrawScript : Bytes := List.replicate 34 0x51

/-- Spends a coin to deposit 50,000 sats and withdraw three of them. -/
def depositWithdrawTx (coin : OutPoint) : Transaction :=
  ⟨2, 0, [⟨coin, [], 0xffffffff, []⟩],
    [⟨50000, [0x51]⟩, ⟨0, opReturn (depositPrefix ++ List.replicate 19 0 ++ [0xaa])⟩,
      ⟨0, opReturn (carrierPrefix ++ [3])⟩]⟩

/-- The next block with that transaction. Its coinbase pays a claim of three sats to
the script of the withdrawal, and the withdrawal's three to another script. -/
def sharedBlock (s : StateOf Header (EvmState × Unit)) (coin : OutPoint) : Res Error (Block Header) := do
  let tip ← s.tip
  signBlock (buildBlock {
    height := tip.height + 1, prev := tip.hash, time := tip.time + 600
    transactions := [depositWithdrawTx coin]
    outputs := [⟨0, rootScript (BitVec.ofNat 256 (28453 * gwei))⟩, ⟨3, withdrawScript⟩,
      ⟨0, claimMarker (List.replicate 64 0x62) 0⟩, ⟨3, [0x51]⟩], bits := s.bits, marker }) s.challenge 1

/-- The genesis coin, mature, spent in the hundredth block. -/
def sharedRun : Res Error
    (StateOf Header (EvmState × Unit) × Block Header × StateOf Header (EvmState × Unit)) := do
  let start ← sampleStart
  let coinbase ← Res.expect start.1.txdata.head?
  let s ← emptyRun 99
  let block ← sharedBlock s ⟨Bitcoin.computeTxid coinbase, 0⟩
  let applied ← s.apply 100 block none none
  match applied.2 with
  | .ok _ => .ok (s, block, applied.1)
  | .error e => .err e

theorem sharedRun_ok {r : StateOf Header (EvmState × Unit) × Block Header ×
    StateOf Header (EvmState × Unit)} (h : sharedRun = .ok r) :
    emptyRun 99 = .ok r.1 ∧ ∃ a, r.1.apply 100 r.2.1 none none = .ok (r.2.2, .ok a) := by
  obtain ⟨start, -, h⟩ := Res.bind_eq_ok.mp h
  obtain ⟨coinbase, -, h⟩ := Res.bind_eq_ok.mp h
  obtain ⟨s, hs, h⟩ := Res.bind_eq_ok.mp h
  obtain ⟨block, -, h⟩ := Res.bind_eq_ok.mp h
  obtain ⟨⟨s', e⟩, happ, h⟩ := Res.bind_eq_ok.mp h
  cases e with
  | error e => cases h
  | ok a =>
    rw [← Res.ok.inj h]
    exact ⟨hs, a, happ⟩

/-- Whether a coinbase pays a script and value less often than a claim and a withdrawal. -/
def sharesPayout (r : StateOf Header (EvmState × Unit) × Block Header ×
    StateOf Header (EvmState × Unit)) : Bool :=
  r.1.held.1.pending.isEmpty && r.2.1.txdata.head?.any fun cb =>
    (r.1.held.1.withdrawalsOf r.2.1 100).map Withdrawal.asks == [(withdrawScript, 3)] &&
      (parseClaims cb).1.map claimPaid == [(withdrawScript, 3)] &&
      (cb.output.map paidTo).count (withdrawScript, 3) == 1

set_option maxRecDepth 100000 in
theorem sharedRun_shares : sharedRun.any sharesPayout = true := by
  unfold sharedRun
  rw [emptyRun_eq_rec]
  unfold sampleStart emptyBlock sharedBlock
  rw [← quickStock_eq, ← quickBitcoin_eq]
  decide +kernel

/-- What the run leaves: a block accepted by a state of the chain, with one claim and
one withdrawal that a single output pays. -/
theorem sharedRun_facts : ∃ (blocks : List (Block Header)) (s s' : StateOf Header (EvmState × Unit))
    (block : Block Header) (a : Applied) (cb : Transaction) (rest : List Transaction),
    Chain sampleDoc (withEvm [] []) (EvmState.new sampleConfig, ()) blocks s ∧
    s.apply 100 block none none = .ok (s', .ok a) ∧ block.txdata = cb :: rest ∧
    s.held.1.pending = [] ∧
    (s.held.1.withdrawalsOf block 100).map Withdrawal.asks = [(withdrawScript, 3)] ∧
    (parseClaims cb).1.map claimPaid = [(withdrawScript, 3)] ∧
    (cb.output.map paidTo).count (withdrawScript, 3) = 1 := by
  obtain ⟨⟨s, block, s'⟩, hrun, hp⟩ := Res.any_eq_true.mp sharedRun_shares
  obtain ⟨hempty, a, happ⟩ := sharedRun_ok hrun
  obtain ⟨blocks, hchain⟩ := chain_of_emptyRun hempty
  obtain ⟨hpending, hcb⟩ := Bool.and_eq_true_iff.mp hp
  obtain ⟨cb, hhead, hfacts⟩ := (Option.any_eq_true _ _).mp hcb
  obtain ⟨rest, hbody⟩ := List.head?_eq_some_iff.mp hhead
  rw [Bool.and_eq_true, Bool.and_eq_true, beq_iff_eq, beq_iff_eq, beq_iff_eq] at hfacts
  exact ⟨blocks, s, s', block, a, cb, rest, hchain, happ, hbody, List.isEmpty_iff.mp hpending,
    hfacts.1.1, hfacts.1.2, hfacts.2⟩

/-- The block's withdrawal has an output, and the claim's payout is the same one. -/
theorem paid_apart_sample : ∃ (s s' : StateOf Header (EvmState × Unit)) (block : Block Header)
    (a : Applied) (cb : Transaction), s.apply 100 block none none = .ok (s', .ok a) ∧
    firstUnpaid (s.held.1.withdrawalsOf block 100) cb.output = none ∧
    ¬ ∀ c ∈ (parseClaims cb).1,
      ((s.held.1.withdrawalsOf block 100).map Withdrawal.asks).count (claimPaid c) +
          ((parseClaims cb).1.map claimPaid).count (claimPaid c) ≤
        (cb.output.map paidTo).count (claimPaid c) := by
  obtain ⟨blocks, s, s', block, a, cb, rest, hchain, happ, hbody, hpending, hasks, hclaims, hcount⟩ :=
    sharedRun_facts
  obtain ⟨cb', rest', hbody', hiff, hpaid⟩ := paid_apart_iff hchain.onChain.rules happ
  obtain ⟨rfl, rfl⟩ := List.cons.inj (hbody'.symm.trans hbody)
  have hnone := hpaid fun p hp => (by rw [hpending] at hp; cases hp)
  refine ⟨s, s', block, a, cb', happ, hnone, fun hall => ?_⟩
  have hcounts := paidApart_iff_count.mp (hiff.mpr ⟨hnone, hall⟩) (withdrawScript, 3)
  rw [show (100 : UInt32).toNat = 100 from rfl, hasks, hclaims, hcount] at hcounts
  exact absurd hcounts (by decide)

/-- **A payout pays a withdrawal.** A chain's hundredth block, accepted: its one claim
and its one withdrawal have one output between them. -/
theorem payout_pays_withdrawal : ∃ (blocks : List (Block Header))
    (s s' : StateOf Header (EvmState × Unit)) (block : Block Header) (a : Applied) (cb : Transaction)
    (rest : List Transaction),
    Chain sampleDoc (withEvm [] []) (EvmState.new sampleConfig, ()) blocks s ∧
    s.apply 100 block none none = .ok (s', .ok a) ∧ block.txdata = cb :: rest ∧
    ¬ PaidApart cb (s.held.1.withdrawalsOf block 100) := by
  obtain ⟨blocks, s, s', block, a, cb, rest, hchain, happ, hbody, -, hasks, hclaims, hcount⟩ :=
    sharedRun_facts
  refine ⟨blocks, s, s', block, a, cb, rest, hchain, happ, hbody, fun hapart => ?_⟩
  have hcounts := paidApart_iff_count.mp hapart (withdrawScript, 3)
  rw [hasks, hclaims, hcount] at hcounts
  exact absurd hcounts (by decide)

end

end Evm

end Sidestr
