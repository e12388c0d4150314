/-
# HTLCs on the chain

Whether the HTLCs of the agreed state can be claimed after a forced close. Each
has its output in both sides' commitments: an HTLC is at least `minHtlc`, above
dust. A claim pays the channel's fee out of the HTLC, and an output that is not
worth claiming after it is left alone (`claim_value` of `lib.rs`, `record_claim`
of `chain.rs`): with the fees a channel may have, an HTLC can be too small
(`htlc_left_alone`).

Key theorems: `claimHtlc_pays`, `claimHtlc_dust`, `htlc_enforceable`.
-/
import Sidestr.Hitch.Protective

namespace Sidestr

namespace Hitch

section

variable [Hitch]

omit [Hitch] in
theorem claimValue_eq (value fee : ℕ) : claimValue value fee =
    if fee + dust ≤ value then .ok (value - fee) else .error .dustClaim := by
  unfold claimValue Word.checkedSub
  by_cases hle : fee ≤ value
  · rw [if_pos hle, Option.filter_some]
    by_cases hdust : dust ≤ value - fee
    · rw [if_pos (decide_eq_true hdust), if_pos (by omega)]
    · rw [if_neg (by simpa using hdust), if_neg (by omega)]
  · rw [if_neg hle, Option.filter_none, if_neg (by omega)]

/-- Too little for the fee and dust. -/
theorem claimHtlc_dust {c : Commitment} {info : CommitmentHtlc} {path : HtlcClaimPath}
    {destination : Bytes} {fee : ℕ} {preimage : Option Preimage} {key : SecretKey}
    {rules : SighashRules} {aux : Hash256} (hlt : info.htlc.amount < fee + dust) :
    claimHtlc c info path destination fee preimage key rules aux = .error .dustClaim := by
  unfold claimHtlc
  dsimp only
  rw [claimValue_eq, if_neg (by omega)]

section

variable (hsign : ∀ tx prevout leafHash key rules aux, tx.input.length = 1 →
  ∃ sig, Hitch.signLeaf tx [prevout] leafHash key rules aux = some sig)

include hsign

/-- Enough: the claim pays the HTLC less the fee. -/
theorem claimHtlc_pays {c : Commitment} {info : CommitmentHtlc} {path : HtlcClaimPath}
    {destination : Bytes} {fee : ℕ} {preimage : Option Preimage} {key : SecretKey}
    {rules : SighashRules} {aux : Hash256} (hpreimage : path = .success → preimage.isSome = true)
    (hle : fee + dust ≤ info.htlc.amount) :
    ∃ tx, claimHtlc c info path destination fee preimage key rules aux = .ok tx ∧
      tx.output = [payTo (info.htlc.amount - fee) destination] := by
  unfold claimHtlc
  dsimp only
  rw [claimValue_eq, if_pos hle]
  dsimp only
  generalize hu : oneInputTx _ _ _ _ = tx
  have hone : tx.input.length = 1 := by
    rw [← hu]
    rfl
  have hout : tx.output = [payTo (info.htlc.amount - fee) destination] := by
    rw [← hu]
    rfl
  obtain ⟨sig, hsig⟩ :=
    hsign tx (payTo info.htlc.amount info.scripts.scriptPubkey) _ key rules aux hone
  rw [hsig]
  dsimp only
  by_cases hpath : path = .success
  · obtain ⟨p, hp⟩ := Option.isSome_iff_exists.mp (hpreimage hpath)
    rw [if_pos hpath, hp]
    exact ⟨_, rfl, hout⟩
  · rw [if_neg hpath]
    exact ⟨_, rfl, hout⟩

/-- **An HTLC in force can be claimed when it is worth it.** In every machine of
a run, this peer's commitment for the agreed state can be built; it, and the other
side's, have an output for every HTLC; and a claim through any of the leaves with
the channel's fee succeeds, and pays the rest, exactly when the HTLC is the fee
and dust at least. A smaller one is refused as dust. -/
theorem htlc_enforceable {ok : ChannelMachine → Call → Prop} {o : Opened} {m : ChannelMachine}
    {log : List Done} (hrun : Run ok o m log) {h : ProtocolHtlc}
    (hh : h ∈ m.currentState.htlcs) :
    (∃ c, m.commitmentAt m.role m.stateNumber m.currentState = .ok c) ∧
    ∀ owner c, m.commitmentAt owner m.stateNumber m.currentState = .ok c →
      ∃ info ∈ c.htlcs, info.htlc = h.channelHtlc ∧
        c.tx.output[info.vout]? = some (payTo h.amount info.scripts.scriptPubkey) ∧
        ∀ path destination preimage key rules aux,
          (path = .success → Option.isSome preimage = true) →
          ((∃ tx, claimHtlc c info path destination m.channel.fee preimage key rules aux = .ok tx ∧
              tx.output = [payTo (h.amount - m.channel.fee) destination]) ↔
            m.channel.fee + dust ≤ h.amount) ∧
          (h.amount < m.channel.fee + dust →
            claimHtlc c info path destination m.channel.fee preimage key rules aux =
              .error .dustClaim) := by
  obtain ⟨c₀, sig, hc₀, -, -⟩ := hrun.closable
  obtain ⟨s, hs, hcommit⟩ := myCommitment_ok hc₀
  have hcurrent : m.currentState = s := by
    unfold ChannelMachine.currentState
    rw [hs, Option.getD_some]
  refine ⟨⟨c₀, by rw [hcurrent]; exact hcommit⟩, fun owner c hc => ?_⟩
  rw [hcurrent] at hh hc
  have hlarge : dust ≤ h.amount :=
    (by decide : dust ≤ minHtlc).trans ((hrun.sound.conserved.states _ s hs).amounts h hh)
  unfold ChannelMachine.commitmentAt at hc
  obtain ⟨key, -, hc⟩ := Res.bind_eq_ok.mp hc
  obtain ⟨info, hinfo, hhtlc, hpays⟩ := commitment_htlc (ofExcept_eq_ok.mp hc)
    (List.mem_map_of_mem hh : h.channelHtlc ∈ _) hlarge
  have hamount : info.htlc.amount = h.amount := by
    rw [hhtlc]
    rfl
  refine ⟨info, hinfo, hhtlc, hpays, fun path destination preimage key rules aux hpreimage => ?_⟩
  rw [← hamount]
  refine ⟨⟨?_, claimHtlc_pays hsign hpreimage⟩, claimHtlc_dust⟩
  rintro ⟨tx, htx, -⟩
  by_contra hlt
  rw [claimHtlc_dust (by omega)] at htx
  cases htx

end

end

attribute [local instance] sampleHitch

/-- An HTLC of side A's that side B holds. -/
def inForceCalls (amount : ℕ) : List Call :=
  .confirmFunding 100 :: (lastSent (sampleRunOf .a [.confirmFunding 100,
    .addHtlc amount (Hitch.sha 77) 300 none none (sampleSecret 33 next_ne_zero)
      (sampleContext 101)])).flatMap answerOf

set_option maxRecDepth 100000 in
theorem inForceCalls_held : [1000, 5000].map (fun amount =>
    (sampleRunOf .b (inForceCalls amount)).map fun r =>
      (r.1.currentState.htlcs.map ProtocolHtlc.amount, r.1.channel.fee)) =
    [some ([1000], 1000), some ([5000], 1000)] := by
  decide +kernel

/-- A run that ends with one HTLC in force, in a channel of 1,000 sats a transaction. -/
theorem inForce_run {amount : ℕ} (h : (sampleRunOf .b (inForceCalls amount)).map (fun r =>
    (r.1.currentState.htlcs.map ProtocolHtlc.amount, r.1.channel.fee)) = some ([amount], 1000)) :
    ∃ m log x, Run (fun _ _ => True) (sampleOpened .b) m log ∧ m.channel.fee = 1000 ∧
      x ∈ m.currentState.htlcs ∧ x.amount = amount := by
  obtain ⟨⟨m, log⟩, hr, hheld⟩ := Option.map_eq_some_iff.mp h
  obtain ⟨hamounts, hfee⟩ := Prod.mk.inj hheld
  obtain ⟨x, hx⟩ := List.length_eq_one_iff.mp
    ((List.length_map _).symm.trans (congrArg List.length hamounts))
  dsimp only at hamounts hfee hx
  rw [hx, List.map_singleton, List.singleton_inj] at hamounts
  exact ⟨m, log, x, run_of_sample (fun _ _ _ => trivial) hr, hfee, hx ▸ List.mem_singleton_self x,
    hamounts⟩

/-- An HTLC of 5,000 sats can be claimed through every leaf. -/
theorem htlc_enforceable_sample : ∃ m log x c info, Run (fun _ _ => True) (sampleOpened .b) m log ∧
    x ∈ m.currentState.htlcs ∧ x.amount = 5000 ∧
    m.commitmentAt m.role m.stateNumber m.currentState = .ok c ∧ info ∈ c.htlcs ∧
    ∀ path destination preimage key rules aux,
      ∃ tx, claimHtlc c info path destination m.channel.fee (some preimage) key rules aux = .ok tx ∧
        tx.output = [payTo (x.amount - m.channel.fee) destination] := by
  obtain ⟨-, hheld⟩ := List.cons.inj inForceCalls_held
  obtain ⟨m, log, x, hrun, hfee, hx, hamount⟩ := inForce_run (List.cons.inj hheld).1
  obtain ⟨⟨c, hc⟩, hall⟩ := htlc_enforceable
    (fun tx prevout leafHash key rules aux _ => ⟨_, rfl⟩) hrun hx
  obtain ⟨info, hinfo, -, -, hclaim⟩ := hall _ c hc
  refine ⟨m, log, x, c, info, hrun, hx, hamount, hc, hinfo,
    fun path destination preimage key rules aux => ?_⟩
  refine (hclaim path destination (some preimage) key rules aux fun _ => rfl).1.mpr ?_
  rw [hfee, hamount]
  decide

/-- **An HTLC in force that no claim takes.** 1,000 sats, the least an HTLC may be,
in a channel whose fee is 1,000: no leaf of either side's commitment gives a claim. -/
theorem htlc_left_alone : ∃ m log x, Run (fun _ _ => True) (sampleOpened .b) m log ∧
    x ∈ m.currentState.htlcs ∧ ∀ (c : Commitment) (info : CommitmentHtlc),
      info.htlc = x.channelHtlc → ∀ path destination preimage key rules aux,
        claimHtlc c info path destination m.channel.fee preimage key rules aux =
          .error .dustClaim := by
  obtain ⟨hheld, -⟩ := List.cons.inj inForceCalls_held
  obtain ⟨m, log, x, hrun, hfee, hx, hamount⟩ := inForce_run hheld
  refine ⟨m, log, x, hrun, hx, fun c info hinfo path destination preimage key rules aux => ?_⟩
  refine claimHtlc_dust ?_
  have hx' : info.htlc.amount = x.amount := by
    rw [hinfo]
    rfl
  rw [hx', hfee, hamount]
  decide

end Hitch

end Sidestr
