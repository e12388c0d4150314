/-
# Whose turn a proposal is

A signer co-signs a proposal of another's only in its turn: the ring's distance
from the height's signer to the proposer is within the whole `proposeAfter`
periods since the block became due. The periods are counted to the time that
the proposal carries, as the table of `round.rs` has it, so on the signer's own
clock the bound is that of a proposal which is not dated ahead of it.

Key definitions: `Asked`, `ReachesCustody`, `InTurn`.
Key theorems: `proposal_in_turn`.
-/
import Sidestr.Round.BlockVote

namespace Sidestr

namespace Round

/-- A signer, and the partial signatures it was asked for. -/
structure Asked (S : Type) where
  signer : S
  requests : List PartialRequest

instance askedSigner {S : Type} [PartialSigner S] : PartialSigner (Asked S) where
  pubkey a := RoundSigner.pubkey a.signer
  signPegoutInput a request :=
    let answer := RoundSigner.signPegoutInput a.signer request
    (⟨answer.1, a.requests⟩, answer.2)
  signEvent a ev :=
    let answer := RoundSigner.signEvent a.signer ev
    (⟨answer.1, a.requests⟩, answer.2)
  signPartial a request :=
    let answer := PartialSigner.signPartial a.signer request
    (⟨answer.1, request :: a.requests⟩, answer.2)

namespace BlockRound

section

variable [Bitcoin] {S J H : Type}

/-- The whole `proposeAfter` periods from when the block became due to a time;
none when no block is due. -/
def periods (r : BlockRound S J H) (time : ℕ) : ℕ :=
  (time - r.dueSince.getD time) / (max r.cfg.proposeAfter 1 * 1000)

/-- The author of a proposal is a signer whose distance in the ring from the
height's is within the periods to `time`. -/
def InTurn (r : BlockRound S J H) (ev : Event) (time : ℕ) : Prop :=
  ∃ height proposer slot, heightTag ev.tags = some height ∧
    signerFromHex ev.pubkey = some proposer ∧ r.fed.signers.idxOf? proposer = some slot ∧
    ((slot : ℤ) - (height % r.n : ℕ)) % r.n ≤ r.periods time

theorem periods_mono (r : BlockRound S J H) {time time' : ℕ} (h : time ≤ time') :
    r.periods time ≤ r.periods time' := by
  unfold periods
  cases r.dueSince with
  | none => simp
  | some due => exact Nat.div_le_div_right (Nat.sub_le_sub_right h due)

theorem InTurn.mono {r : BlockRound S J H} {ev : Event} {time time' : ℕ} (h : r.InTurn ev time)
    (hle : time ≤ time') : r.InTurn ev time' := by
  obtain ⟨height, proposer, slot, hheight, hproposer, hslot, hdistance⟩ := h
  refine ⟨height, proposer, slot, hheight, hproposer, hslot, hdistance.trans ?_⟩
  exact_mod_cast r.periods_mono hle

omit [Bitcoin] in
/-- The distance as the code has it, in naturals. -/
theorem ring_distance {slot height n : ℕ} (hn : 0 < n) :
    (((slot + n - height % n) % n : ℕ) : ℤ) = ((slot : ℤ) - (height % n : ℕ)) % n := by
  have hlt : height % n < n := Nat.mod_lt height hn
  have hsub : ((slot + n - height % n : ℕ) : ℤ) = ((slot : ℤ) - (height % n : ℕ)) + n := by omega
  rw [Int.natCast_mod, hsub, Int.add_emod_right]

theorem entitled_iff {r : BlockRound S J H} {proposer : XOnlyPublicKey} {height time : ℕ} :
    r.entitled proposer height time = true ↔ ∃ slot, r.fed.signers.idxOf? proposer = some slot ∧
      ((slot : ℤ) - (height % r.n : ℕ)) % r.n ≤ r.periods time := by
  unfold entitled
  cases hslot : r.fed.signers.idxOf? proposer with
  | none => simp
  | some slot =>
    have hmem : proposer ∈ r.fed.signers := List.isSome_idxOf?.mp (by rw [hslot]; rfl)
    have hn : 0 < r.n := List.length_pos_of_mem hmem
    simp only [decide_eq_true_eq, Option.some.injEq, exists_eq_left', ← ring_distance hn,
      Nat.cast_le]
    rfl

theorem inTurn_iff {r : BlockRound S J H} {ev : Event} {time : ℕ} :
    ((heightTag ev.tags).any fun height =>
      (signerFromHex ev.pubkey).any fun proposer => r.entitled proposer height time) = true ↔
      r.InTurn ev time := by
  simp only [Option.any_eq_true, entitled_iff]
  exact ⟨fun ⟨height, hheight, proposer, hproposer, slot, hslot, hdistance⟩ =>
      ⟨height, proposer, slot, hheight, hproposer, hslot, hdistance⟩,
    fun ⟨height, proposer, slot, hheight, hproposer, hslot, hdistance⟩ =>
      ⟨height, hheight, proposer, hproposer, slot, hslot, hdistance⟩⟩

instance (r : BlockRound S J H) (ev : Event) (time : ℕ) : Decidable (r.InTurn ev time) :=
  decidable_of_iff _ inTurn_iff

end

section

open Method

variable [Bitcoin] [Taproot] {S J C H σ : Type} [PartialSigner S] [VoteJournal J]
  [HeaderFamily H] [ChainView C H σ] [BlockCodec H]

/-- Handling the proposal asks the custody signer for a partial signature. -/
def ReachesCustody (now : ℕ) (ev : Event) (nd : Node (Asked S) J C H) : Prop :=
  (onProposal now ev nd).1.round.custody.signer.requests ≠ nd.round.custody.signer.requests

/-- **Nobody is co-signed out of turn.** When a proposal gets to the custody
signer, its author's distance in the ring is within the whole periods from when
the block became due to the time it carries; within those elapsed on this
signer's clock, when it is not dated ahead of it. -/
theorem proposal_in_turn {now : ℕ} {ev : Event} {nd : Node (Asked S) J C H}
    (h : ReachesCustody now ev nd) :
    nd.round.InTurn ev (Word.satMul 64 ev.createdAt 1000) ∧
      (Word.satMul 64 ev.createdAt 1000 ≤ now → nd.round.InTurn ev now) := by
  suffices hturn : nd.round.InTurn ev (Word.satMul 64 ev.createdAt 1000) from ⟨hturn, hturn.mono⟩
  by_contra hnot
  refine h ?_
  unfold onProposal
  rw [getRound_bind]
  cases hheight : heightTag ev.tags with
  | none => rfl
  | some height =>
    have hrefused : ((signerFromHex ev.pubkey).any fun p =>
        nd.round.entitled p height (Word.satMul 64 ev.createdAt 1000)) = false := by
      rw [← inTurn_iff, hheight] at hnot
      exact Bool.eq_false_of_not_eq_true hnot
    dsimp only
    by_cases hold : ev.pubkey = nd.round.meHex ∨
        nd.round.ringMs < now - Word.satMul 64 ev.createdAt 1000
    · rw [if_pos hold]
      rfl
    · rw [if_neg hold, hrefused]
      have htip : getTip nd = (nd, ofCore (ChainView.state nd.chain).tip) := rfl
      cases hstate : ofCore (ChainView.state nd.chain).tip with
      | ok tip =>
        rw [hstate] at htip
        rw [bind_ok htip]
        by_cases hheight : height ≠ tip.height + 1
        · rw [if_pos hheight]
          rfl
        · rw [if_neg hheight]
          rfl
      | err e =>
        rw [hstate] at htip
        rw [bind_err htip]
      | panic =>
        rw [hstate] at htip
        rw [bind_panic htip]

end

section

attribute [local instance] sampleBitcoin sampleTaproot sampleEventCodec keySigner listJournal
  templateSigner stateView

/-- The signer of a key on the sample's chain. -/
def askedNode (key : SecretKey) :
    Option (Node (Asked SecretKey) (List VoteEntry) (StateOf Header Unit) Header) :=
  sampleChain.bind fun chain =>
    match BlockRound.new chain ⟨⟨key, []⟩, []⟩ ([] : List VoteEntry) ⟨30, none⟩ none with
    | .ok r => some ⟨r, chain⟩
    | _ => none

/-- The signer of a key proposes at a time after the block became due. -/
def proposedAt [BlockCodec Header] (key : SecretKey) (due now : ℕ) :
    Option (Event × List (Block Header)) :=
  (askedNode key).bind fun nd =>
    let after := tick now true (tick due true nd).1
    match after.2 with
    | .ok (_ :: .publish ev :: _) => some (ev, after.1.round.pending.toList.map Pending.block)
    | _ => none

/-- The first signer, to which the block became due at a time. -/
def waitingNode [BlockCodec Header] (due : ℕ) :
    Option (Node (Asked SecretKey) (List VoteEntry) (StateOf Header Unit) Header) :=
  (askedNode 1).map fun nd => (tick due true nd).1

/-- A proposal as the first signer hears it, with a codec of its block. -/
structure Heard where
  codec : BlockCodec Header
  ev : Event
  node : Node (Asked SecretKey) (List VoteEntry) (StateOf Header Unit) Header

def heardAt (key : SecretKey) (due made : ℕ) : Option Heard :=
  (@proposedAt (sampleBlockCodec []) key due made).bind fun proposal =>
    let codec := sampleBlockCodec proposal.2
    (waitingNode due).map fun nd => ⟨codec, proposal.1, nd⟩

instance (x : Heard) (now : ℕ) :
    Decidable (@ReachesCustody _ _ _ _ _ _ _ _ _ _ _ x.codec now x.ev x.node) :=
  inferInstanceAs (Decidable (_ ≠ _))

/-- When the sample's block became due. -/
def sampleDue : ℕ := 1790000100000

set_option maxRecDepth 100000 in
/-- The third signer's proposal, a period ahead of its time: heard a second after
the block became due, and heard in its time. -/
theorem heard_sample : (heardAt 3 sampleDue (sampleDue + 31000)).map (fun x =>
    decide (@ReachesCustody _ _ _ _ _ _ _ _ _ _ _ x.codec (sampleDue + 1000) x.ev x.node ∧
      ¬ x.node.round.InTurn x.ev (sampleDue + 1000) ∧
      @ReachesCustody _ _ _ _ _ _ _ _ _ _ _ x.codec (sampleDue + 32000) x.ev x.node ∧
      Word.satMul 64 x.ev.createdAt 1000 ≤ sampleDue + 32000)) = some true := by
  decide +kernel

/-- The third signer, one place behind, dates its proposal a period ahead: the
first asks for its partial signature a second after the block became due. -/
theorem proposal_early : ¬ ∀ (_ : BlockCodec Header) (now : ℕ) (ev : Event)
    (nd : Node (Asked SecretKey) (List VoteEntry) (StateOf Header Unit) Header),
    ReachesCustody now ev nd → nd.round.InTurn ev now := by
  intro hall
  obtain ⟨x, -, hheard⟩ := Option.map_eq_some_iff.mp heard_sample
  obtain ⟨hreaches, hnot, -, -⟩ := of_decide_eq_true hheard
  exact hnot (hall x.codec (sampleDue + 1000) x.ev x.node hreaches)

/-- Heard once that period has passed, the same proposal is in turn. -/
theorem proposal_in_turn_sample : ∃ (_ : BlockCodec Header) (ev : Event)
    (nd : Node (Asked SecretKey) (List VoteEntry) (StateOf Header Unit) Header),
    ReachesCustody (sampleDue + 32000) ev nd ∧ nd.round.InTurn ev (sampleDue + 32000) := by
  obtain ⟨x, -, hheard⟩ := Option.map_eq_some_iff.mp heard_sample
  obtain ⟨-, -, hreaches, hcreated⟩ := of_decide_eq_true hheard
  exact ⟨x.codec, x.ev, x.node, hreaches,
    (@proposal_in_turn _ _ _ _ _ _ _ _ _ _ _ x.codec _ _ _ hreaches).2 hcreated⟩

end

end BlockRound

end Round

end Sidestr
