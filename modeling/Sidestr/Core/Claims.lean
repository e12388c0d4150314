/-
# No parent outpoint mints twice

Coins come onto the sidechain on two paths: the genesis coinbase mints the
document's pegs, and a later coinbase mints the payouts of its claims. Each
names a parent outpoint. The claim rule keeps the outpoints of the claims
apart, in a block and across blocks: the records remember every claimed
outpoint with the height that claimed it, and heights only grow
(`claims_nodup`).

The records do not hold the pegs, and a document may name one outpoint in two
pegs. So an outpoint is minted once over a whole run exactly when the pegs
name different outpoints and no later claim names a peg's
(`minted_once_iff`); `claim_of_a_peg` is a run whose second block claims the
peg of its document.

Key definitions: `claimedOutPoints`, `pegOutPoints`, `minted`.
Key theorems: `claims_nodup`, `minted_once_iff`, `claim_of_a_peg`.
-/
import Sidestr.Core.Accept
import Sidestr.Core.Sample

namespace Sidestr

/-- The parent outpoints the claims of a block name. -/
def claimedOutPoints {H : Type} (block : Block H) : List (Bytes × ℕ) :=
  match block.txdata with
  | [] => []
  | cb :: _ => (parseClaims cb).1.map fun c => (c.txid, c.vout)

/-- The parent outpoints the document's pegs name. A document may write a txid
in upper case; a claim does not. -/
def pegOutPoints (doc : ChainDocument) : List (Bytes × ℕ) :=
  doc.pegs.map fun p => (toLower p.txid, p.vout.toNat)

/-- The parent outpoints minted on a chain: the genesis mints the pegs, each
later block its claims. -/
def minted {H : Type} (doc : ChainDocument) (later : List (Block H)) : List (Bytes × ℕ) :=
  pegOutPoints doc ++ later.flatMap claimedOutPoints

section

variable [Bitcoin] {H σ : Type} [HeaderFamily H]

/-- What the records say of the claims of a run of `height` blocks: each is
there, at an earlier height. -/
structure ClaimsKept (claimed : List (Bytes × ℕ)) (height : ℕ) (s : StateOf H σ) : Prop where
  nodup : claimed.Nodup
  kept : ∀ op ∈ claimed, ∃ h, s.records.claims.lookup op = some h ∧ h < height

omit [Bitcoin] [HeaderFamily H] in
/-- The records after a block: its claims at its height, over those before. -/
theorem lookup_recorded {height : ℕ} {m : Map (Bytes × ℕ) ℕ} {cs : List Claim} {op : Bytes × ℕ} :
    (Map.insertAll (cs.map fun c => ((c.txid, c.vout), height)) ∅ ∪ m).lookup op =
      if op ∈ cs.map fun c => (c.txid, c.vout) then some height else m.lookup op := by
  have hmap : (cs.map fun c => ((c.txid, c.vout), height)) =
      (cs.map fun c => (c.txid, c.vout)).map fun op => (op, height) := by simp
  rw [Map.lookup_union, hmap, Map.lookup_insertAll_const, Finmap.lookup_empty]
  split_ifs
  · rfl
  · rfl

/-- An accepted block claims none of the outpoints recorded at earlier heights,
and leaves its own recorded. -/
theorem ClaimsKept.commit {claimed : List (Bytes × ℕ)} {height : ℕ} {s : StateOf H σ}
    {block : Block H} {cb : Transaction} {rest : List Transaction} {next : Records} {held : σ}
    (h : ClaimsKept claimed height s) (ha : Accepted s height block cb rest next held) :
    ClaimsKept (claimed ++ claimedOutPoints block) (height + 1) (s.commit height block next held) := by
  have hops : claimedOutPoints block = (parseClaims cb).1.map fun c => (c.txid, c.vout) := by
    simp [claimedOutPoints, ha.txdata]
  have hok := ha.claims
  simp only [claimsOk, Bool.and_eq_true, decide_eq_true_eq, List.all_eq_true] at hok
  rw [← hops] at hok
  refine ⟨List.Nodup.append h.nodup hok.1 ?_, ?_⟩
  · -- an outpoint recorded at an earlier height fails the rule
    intro op hold hnew
    obtain ⟨at', hl, hlt⟩ := h.kept op hold
    have := hok.2 op hnew
    simp [hl] at this
    omega
  · intro op hop
    simp only [StateOf.commit, ha.nextClaims, lookup_recorded, ← hops]
    by_cases hnew : op ∈ claimedOutPoints block
    · exact ⟨height, by rw [if_pos hnew], Nat.lt_succ_self _⟩
    · rw [if_neg hnew]
      obtain ⟨at', hl, hlt⟩ := h.kept op ((List.mem_append.mp hop).resolve_right hnew)
      exact ⟨at', hl, Nat.lt_succ_of_lt hlt⟩

/-- **Claims never repeat.** Over every run, the records hold the claims of the
blocks after the genesis, and no two of these name one outpoint. -/
theorem claimsKept_of_chain {doc : ChainDocument} {rules : List (BlockRule H σ)} {held : σ}
    {blocks : List (Block H)} {s : StateOf H σ} (h : Chain doc rules held blocks s) :
    ClaimsKept (blocks.tail.flatMap claimedOutPoints) blocks.length s := by
  induction h with
  | genesis _ => exact ⟨by simp, by simp⟩
  | step hc hstep ih =>
    obtain ⟨g, l, rfl⟩ := hc.head
    rcases hc.step_cases hstep with ⟨block, cb, rest, next, held', rfl, -, ha, rfl⟩ |
      ⟨rfl, hsame, -⟩
    · have := ih.commit ha
      simpa using this
    · refine ⟨by simpa using ih.nodup, ?_⟩
      rw [hsame.records]
      simpa using ih.kept

/-- **Minting twice.** Over every run, no parent outpoint is minted twice if
and only if the document's pegs name different outpoints and no block after
the genesis claims one of them. -/
theorem minted_once_iff {doc : ChainDocument} {rules : List (BlockRule H σ)} {held : σ}
    {genesis : Block H} {later : List (Block H)} {s : StateOf H σ}
    (hrun : Chain doc rules held (genesis :: later) s) :
    (minted doc later).Nodup ↔ (pegOutPoints doc).Nodup ∧
      ∀ block ∈ later, ∀ op ∈ claimedOutPoints block, op ∉ pegOutPoints doc := by
  have hclaims := (claimsKept_of_chain hrun).nodup
  rw [List.tail_cons] at hclaims
  rw [minted, List.nodup_append]
  constructor
  · rintro ⟨hpegs, -, hdis⟩
    exact ⟨hpegs, fun block hb op hop hpeg =>
      hdis op hpeg op (List.mem_flatMap.mpr ⟨block, hb, hop⟩) rfl⟩
  · rintro ⟨hpegs, hdis⟩
    refine ⟨hpegs, hclaims, ?_⟩
    rintro op hpeg _ hop rfl
    obtain ⟨block, hb, hop⟩ := List.mem_flatMap.mp hop
    exact hdis block hb op hop hpeg

end

section

attribute [local instance] sampleBitcoin

set_option maxRecDepth 100000 in
/-- A run of one block after the genesis, with a claim of an outpoint no peg names. -/
theorem minted_once_iff_sample : ∃ (genesis : Block Header) (later : List (Block Header))
    (s : StateOf Header Unit), Chain sampleDoc [] () (genesis :: later) s ∧
      (minted sampleDoc later).length = 2 ∧ (minted sampleDoc later).Nodup := by
  obtain ⟨genesis, later, s, hrun, hp⟩ := exists_chain_of_sampleRun sampleDoc [] () 1
    [([⟨List.replicate 64 0x62, 0, 5000, [0x51]⟩], [])]
    (fun _ later _ => (minted sampleDoc later).length == 2 &&
      decide ((pegOutPoints sampleDoc).Nodup ∧
        ∀ block ∈ later, ∀ op ∈ claimedOutPoints block, op ∉ pegOutPoints sampleDoc))
    (by decide +kernel)
  simp only [Bool.and_eq_true, beq_iff_eq, decide_eq_true_eq] at hp
  exact ⟨genesis, later, s, hrun, hp.1, (minted_once_iff hrun).mpr hp.2⟩

set_option maxRecDepth 100000 in
/-- The document's peg claimed again by block 1: the outpoint is minted twice. -/
theorem claim_of_a_peg : ∃ (genesis : Block Header) (later : List (Block Header))
    (s : StateOf Header Unit), Chain sampleDoc [] () (genesis :: later) s ∧
      minted sampleDoc later = [(List.replicate 64 0x61, 0), (List.replicate 64 0x61, 0)] ∧
      ¬ (minted sampleDoc later).Nodup := by
  obtain ⟨genesis, later, s, hrun, hp⟩ := exists_chain_of_sampleRun sampleDoc [] () 1
    [([⟨List.replicate 64 0x61, 0, 100000000, [0x51]⟩], [])]
    (fun _ later _ =>
      minted sampleDoc later == [(List.replicate 64 0x61, 0), (List.replicate 64 0x61, 0)])
    (by decide +kernel)
  rw [beq_iff_eq] at hp
  exact ⟨genesis, later, s, hrun, hp, by simp [hp]⟩

end

end Sidestr
