/-
# A saved channel and its restart

A snapshot is restored only after a dozen relations are checked: the states
and their signatures, the keys of the next state, what is pending, awaited or
held back, the ids and the recorded transactions. Every call keeps them all,
but for one: an update held back while another awaits its revocation must be
for the next state, and nothing drops it when the agreed state moves on. So a
snapshot restores wherever the agreed state moves on with nothing held back.

Key definitions: `Placed`, `Built`, `Recorded`, `Call.Advances`, `Unbuffered`.
Key theorems: `restore_ok`, `snapshot_restores`.
-/
import Sidestr.Hitch.Signed
import Sidestr.Hitch.Recognition

namespace Sidestr

namespace Hitch

section

variable [Hitch] {named : Prop}

open ChannelMachine

/-! ### Calls that move on -/

/-- The call makes a next state the agreed one: it accepts an update, or takes
an acknowledgement of this peer's. -/
def Call.Advances (m : ChannelMachine) : Call → Prop
  | .receiveUpdate message _ ctx => ∃ s, m.judgeUpdate message ctx = .ok (.accept s)
  | .receiveAck message =>
    (∃ p s, m.judgeAck message = .ok (.agree p s)) ∨
    (m.judgeAck message = .ok .adopt ∧ ∃ r, m.adoption message = .ok r) ∨
    (m.judgeAck message = .ok .earlier ∧ ∃ r, (m.dropPending
      "they acknowledged an earlier attempt at this state instead".toList).adoption message = .ok r)
  | _ => False

namespace ChannelMachine

variable {m : ChannelMachine}

theorem propose_same (update : Update) (next : SecretKey) (ctx : Context) :
    (m.propose update next ctx).1.stateNumber = m.stateNumber := by
  unfold propose
  split <;> rfl

theorem takeReveals_stateNumber (message : SyncMessage) :
    (m.takeReveals message).stateNumber = m.stateNumber := by
  have hfold : ∀ (l : List (ℕ × Hash256)) (m : ChannelMachine),
      (l.foldl (fun m r => m.takeTheirReveal r.1 r.2) m).stateNumber = m.stateNumber := by
    intro l
    induction l with
    | nil => exact fun m => rfl
    | cons r l ih =>
      intro m
      rw [List.foldl_cons, ih, takeTheirReveal_frame]
  unfold takeReveals
  rw [hfold]
  split
  · split
    · rw [takeTheirReveal_frame]
    · rfl
  · rfl

theorem receiveSync_same (message : SyncMessage) (ctx : Context) :
    (m.receiveSync message ctx).1.stateNumber = m.stateNumber := by
  unfold receiveSync
  dsimp only
  split
  · rfl
  · rfl
  · exact ((reconcile_same message ctx).stateNumber.trans finalise_same.stateNumber).trans
      (takeReveals_stateNumber message)

theorem receiveRevoke_same (message : RevokeMessage) :
    (m.receiveRevoke message).1.stateNumber = m.stateNumber := by
  unfold receiveRevoke
  dsimp only
  split
  · rfl
  · rfl
  · split
    · rfl
    · refine finalise_same.stateNumber.trans ?_
      rw [takeTheirReveal_frame]

theorem receiveReject_same (message : RejectMessage) (ctx : Context) :
    (m.receiveReject message ctx).1.stateNumber = m.stateNumber := by
  unfold receiveReject
  dsimp only
  split
  · rfl
  · rfl
  · exact ((resync_quiet ctx false).field ChannelMachine.stateNumber).trans
      ((announceDropped_quiet.field ChannelMachine.stateNumber).trans (dropPending_stateNumber _))

theorem onSpend_same (spend : ChainSpend) (destination : Bytes) (ctx : Context)
    (lookup : Lookup) : (m.onSpend spend destination ctx lookup).1.stateNumber = m.stateNumber := by
  have hpunish : ∀ (m : ChannelMachine) (n : ℕ) (c : Commitment),
      (m.punish n c destination ctx).1.stateNumber = m.stateNumber := by
    intro m n c
    unfold punish
    split
    · rfl
    · split
      · rfl
      · exact (recordPenalties_quiet _ _ _).field ChannelMachine.stateNumber
  unfold onSpend
  split
  · exact (afterClose_follows destination ctx lookup).stateNumber
  dsimp only
  split
  · rfl
  split
  · exact (afterClose_follows destination ctx lookup).stateNumber
  split
  · rfl
  · rfl
  · split
    · rfl
    · split
      · exact (afterClose_follows destination ctx lookup).stateNumber
      · split
        · exact hpunish _ _ _
        · rfl
        · rfl

theorem unSpend_same : m.unSpend.1.stateNumber = m.stateNumber := by
  unfold unSpend
  split
  · rfl
  · dsimp only
    split <;> rfl

theorem tick_same (ctx : Context) (pendingTimeout : ℕ) :
    (m.tick ctx pendingTimeout).1.stateNumber = m.stateNumber := by
  have h₀ := (rebroadcast_step (m := m) ctx).1.stateNumber
  have h₁ := (tickPending_step (m := (m.rebroadcast ctx).1) ctx pendingTimeout).1.stateNumber
  have h₂ := (tickResync_step
    (m := ((m.rebroadcast ctx).1.tickPending ctx pendingTimeout).1) ctx).1.stateNumber
  have h₃ := (tickOpen_step (m :=
    (((m.rebroadcast ctx).1.tickPending ctx pendingTimeout).1.tickResync ctx).1) ctx).1.stateNumber
  unfold tick
  dsimp only
  split_ifs
  · exact h₀
  · exact h₂.trans (h₁.trans h₀)
  · exact h₃.trans (h₂.trans (h₁.trans h₀))

end ChannelMachine

/-- Only an update accepted or an acknowledgement taken changes the agreed state. -/
theorem Call.stateNumber {m m' : ChannelMachine} {c : Call} {out : Emitted} (hch : m.Rebuilds)
    (h : c.run m = some (m', out)) (hc : ¬ c.Advances m) : m'.stateNumber = m.stateNumber := by
  cases c with
  | receiveUpdate message next ctx =>
    cases h
    unfold ChannelMachine.receiveUpdate
    split
    · rfl
    · rfl
    · rfl
    · rfl
    · rename_i s hj
      exact absurd ⟨s, hj⟩ hc
  | receiveAck message =>
    cases h
    have hadopt : ∀ {m : ChannelMachine}, (¬ ∃ r, m.adoption message = .ok r) →
        (m.adoptAlternative message).1.stateNumber = m.stateNumber := by
      intro m hnone
      unfold adoptAlternative
      split
      · rfl
      · rfl
      · rename_i hj
        exact absurd ⟨_, hj⟩ hnone
    unfold ChannelMachine.receiveAck
    split
    · rfl
    · rfl
    · rename_i hj
      exact hadopt fun h => hc (.inr (.inl ⟨hj, h⟩))
    · rename_i hj
      refine (announceDropped_quiet.field ChannelMachine.stateNumber).trans ?_
      exact (hadopt fun h => hc (.inr (.inr ⟨hj, h⟩))).trans (dropPending_stateNumber _)
    · rename_i p s hj
      exact absurd (.inl ⟨p, s, hj⟩) hc
  | confirmFunding height =>
    cases h
    unfold ChannelMachine.confirmFunding
    rfl
  | propose => cases h; exact propose_same _ _ _
  | pay =>
    cases h
    unfold ChannelMachine.pay
    split_ifs
    · rfl
    · rfl
    · exact propose_same _ _ _
  | addHtlc =>
    cases h
    unfold ChannelMachine.addHtlc
    split_ifs
    · rfl
    · rfl
    · exact propose_same _ _ _
    · rfl
  | settleHtlc htlcId preimage next ctx =>
    cases h
    exact (propose_same _ _ _).trans
      ((rememberPreimage_quiet preimage).field ChannelMachine.stateNumber)
  | failHtlc => cases h; exact propose_same _ _ _
  | resendUpdate ctx => cases h; exact (resendUpdate_same ctx).stateNumber
  | receiveRevoke message => cases h; exact receiveRevoke_same message
  | receiveReject message ctx => cases h; exact receiveReject_same message ctx
  | takeBufferedUpdate =>
    cases h
    unfold ChannelMachine.takeBufferedUpdate
    split_ifs <;> rfl
  | closeChannel ctx =>
    cases h
    unfold ChannelMachine.closeChannel
    dsimp only
    split <;> rfl
  | receiveClose message ctx =>
    cases h
    unfold ChannelMachine.receiveClose
    dsimp only
    split <;> rfl
  | forceClose at' why ctx => cases h; exact (forceClose_same at' why ctx).stateNumber
  | resync ctx force => cases h; exact (resync_quiet ctx force).field ChannelMachine.stateNumber
  | receiveSync message ctx => cases h; exact receiveSync_same message ctx
  | tick ctx pendingTimeout => cases h; exact tick_same ctx pendingTimeout
  | rememberPreimage preimage =>
    cases h
    exact (rememberPreimage_quiet preimage).field ChannelMachine.stateNumber
  | onSpend => cases h; exact onSpend_same _ _ _ _
  | unSpend => cases h; exact unSpend_same
  | afterClose => cases h; exact (afterClose_follows _ _ _).stateNumber
  | watchOutputs => cases h; exact (watchOutputs_follows _ _).stateNumber
  | restart =>
    unfold Call.run at h
    dsimp only at h
    split at h
    · rename_i m₁ hm
      cases h
      rw [restore_eq hch hm]
    · cases h
  | _ =>
    cases h
    rfl

/-! ### What is recorded -/

/-- Preimages are kept by their hash, transactions by their id. -/
structure Recorded (m : ChannelMachine) : Prop where
  preimages : ∀ h p, m.preimages.lookup h = some p → Hitch.sha p = h
  claims : ∀ c ∈ m.claims, c.txid = Bitcoin.computeTxid c.tx
  close : ∀ c, m.close = some c → c.txid = Bitcoin.computeTxid c.tx

theorem rememberSettled_preimages {m : ChannelMachine}
    (hm : ∀ h p, m.preimages.lookup h = some p → Hitch.sha p = h) (update : Update) :
    ∀ h p, (m.rememberSettled update).preimages.lookup h = some p → Hitch.sha p = h := by
  intro h p hp
  unfold rememberSettled at hp
  split at hp
  · rcases (rememberPreimage_quiet _).preimages h p hp with hp | hp
    · exact hm h p hp
    · exact hp
  · exact hm h p hp

theorem Move.recorded {m m' : ChannelMachine} (h : Move named m m') (hm : Recorded m) :
    Recorded m' := by
  have hagreed : ∀ {m : ChannelMachine} (message : AckMessage) (s : ProtocolState)
      (update : Update), Recorded m → Recorded (m.agreed message s update) := by
    intro m message s update hm
    refine ⟨?_, ?_, ?_⟩
    · refine rememberSettled_preimages ?_ update
      rw [takeTheirReveal_frame]
      exact hm.preimages
    · unfold agreed
      dsimp only
      rw [takeTheirReveal_frame]
      exact hm.claims
    · rw [(agreed_closes message s update).1]
      exact hm.close
  cases h with
  | quiet hq =>
    refine ⟨fun h p hp => ?_, fun c hc => ?_, ?_⟩
    · rcases hq.preimages h p hp with hp | hp
      · exact hm.preimages h p hp
      · exact hp
    · rcases hq.claims c hc with ⟨c₀, hc₀, htx, htxid⟩ | hc
      · rw [htx, htxid]
        exact hm.claims c₀ hc₀
      · exact hc
    · rw [hq.field ChannelMachine.close]
      exact hm.close
  | accept next hj =>
    refine ⟨?_, ?_, ?_⟩
    · refine rememberSettled_preimages ?_ _
      rw [dropPending_frame]
      exact hm.preimages
    · unfold accepted
      dsimp only
      rw [dropPending_frame]
      exact hm.claims
    · unfold accepted
      dsimp only
      rw [dropPending_close]
      exact hm.close
  | agree hj =>
    rename_i message pending s
    exact hagreed (m := { m with pending := none }) message s pending.update
      ⟨hm.preimages, hm.claims, hm.close⟩
  | adopt hp hn hj =>
    rename_i message index alt
    exact hagreed (m := m.removeAlternative message.n index) message alt.state alt.update
      ⟨hm.preimages, hm.claims, hm.close⟩
  | drop why =>
    rw [dropPending_frame]
    exact ⟨hm.preimages, hm.claims, hm.close⟩
  | reveal index reveal =>
    rw [takeTheirReveal_frame]
    exact ⟨hm.preimages, hm.claims, hm.close⟩
  | coopClose w height hlive hp ha htx =>
    refine ⟨hm.preimages, hm.claims, fun c hc => ?_⟩
    cases hc
    rfl
  | force why hn hlive htx =>
    rw [dropPending_frame]
    refine ⟨hm.preimages, hm.claims, fun c hc => ?_⟩
    cases hc
    rfl
  | rebroadcast height hc =>
    refine ⟨hm.preimages, hm.claims, fun c' hc' => ?_⟩
    cases hc'
    exact (hm.close _ hc :)
  | _ => exact ⟨hm.preimages, hm.claims, hm.close⟩

theorem machine_recorded (o : Opened) : Recorded o.machine := by
  refine ⟨fun h p hp => ?_, fun c hc => ?_, fun c hc => ?_⟩
  · unfold Opened.machine at hp
    dsimp only at hp
    rw [Finmap.lookup_empty] at hp
    cases hp
  · cases hc
  · cases hc

/-! ### Where things stand -/

/-- States, alternatives, what is pending and what is awaited stand at their numbers. -/
structure Placed (m : ChannelMachine) : Prop where
  seq : m.htlcSeq ≠ 0
  beyond : ∀ k s, m.states.lookup k = some s → k ≤ m.stateNumber ∨
    ∃ p, m.pending = some p ∧ p.n = k
  alternatives : ∀ k, ∀ alt ∈ m.alternativesAt k, k ≤ m.stateNumber + 1
  pending : ∀ p, m.pending = some p → p.message.id = m.id ∧ p.message.n = p.n ∧
    p.message.update = p.update
  /-- While the other side owes a secret, this peer has signed nothing newer. -/
  awaiting : ∀ a, m.awaiting = some a → a.n = m.stateNumber ∧ a.previous + 1 = a.n ∧
    a.sender = m.role.other ∧ m.pending = none ∧ m.alternativesAt (m.stateNumber + 1) = []

theorem Placed.congr {m m' : ChannelMachine} (hm : Placed m) (hterms : m'.terms = m.terms)
    (hseq : m'.htlcSeq = m.htlcSeq) (hn : m'.stateNumber = m.stateNumber)
    (hstates : m'.states = m.states) (halternatives : m'.signedAlternatives = m.signedAlternatives)
    (hpending : m'.pending = m.pending) (hawaiting : m'.awaiting = m.awaiting) : Placed m' := by
  unfold ChannelMachine.terms at hterms
  simp only [Prod.mk.injEq] at hterms
  obtain ⟨-, hrole, hid, -⟩ := hterms
  have halts : ∀ k, m'.alternativesAt k = m.alternativesAt k := by
    intro k
    unfold alternativesAt
    rw [halternatives]
  refine ⟨?_, ?_, ?_, ?_, ?_⟩
  · rw [hseq]
    exact hm.seq
  · rw [hstates, hn, hpending]
    exact hm.beyond
  · intro k
    rw [halts, hn]
    exact hm.alternatives k
  · rw [hpending, hid]
    exact hm.pending
  · rw [hawaiting, hn, hrole, hpending, halts]
    exact hm.awaiting

theorem proposal_id {m : ChannelMachine} {update : Update} {next : SecretKey} {ctx : Context}
    {s : ProtocolState} {message : UpdateMessage} (h : m.proposal update next ctx = .ok (s, message)) :
    message.id = m.id := by
  unfold ChannelMachine.proposal at h
  obtain ⟨_, -, h⟩ := Res.bind_eq_ok.mp h
  obtain ⟨_, -, h⟩ := Res.bind_eq_ok.mp h
  obtain ⟨_, -, h⟩ := Res.bind_eq_ok.mp h
  obtain ⟨_, -, h⟩ := Res.bind_eq_ok.mp h
  obtain ⟨_, -, h⟩ := Res.bind_eq_ok.mp h
  obtain ⟨_, -, h⟩ := Res.bind_eq_ok.mp h
  obtain ⟨_, -, h⟩ := Res.bind_eq_ok.mp h
  obtain ⟨_, -, h⟩ := Res.bind_eq_ok.mp h
  obtain ⟨_, -, h⟩ := Res.bind_eq_ok.mp h
  obtain ⟨_, -, h⟩ := Res.bind_eq_ok.mp h
  obtain ⟨_, -, h⟩ := Res.bind_eq_ok.mp h
  obtain ⟨_, -, h⟩ := Res.bind_eq_ok.mp h
  obtain ⟨_, -, h⟩ := Res.bind_eq_ok.mp h
  rw [Res.ok.injEq, Prod.mk.injEq] at h
  rw [← h.2]

theorem dropPending_of_none {m : ChannelMachine} (why : Text) (h : m.pending = none) :
    m.dropPending why = m := by
  unfold dropPending
  rw [h]

theorem dropPending_erased {m : ChannelMachine} (why : Text) {p : PendingUpdate}
    (h : m.pending = some p) : (m.dropPending why).states.lookup p.n = none := by
  unfold dropPending
  rw [h]
  dsimp only
  split
  · unfold rememberAlternative
    split_ifs
    · exact Finmap.lookup_erase _ _
    · exact Finmap.lookup_erase _ _
  · assumption

theorem dropPending_placed {m : ChannelMachine} (why : Text) (hnext : m.PendingNext)
    (hm : Placed m) : Placed (m.dropPending why) := by
  refine ⟨?_, fun k s hs => ?_, fun k alt halt => ?_, fun p hp => ?_, fun a ha => ?_⟩
  · rw [dropPending_htlcSeq]
    exact hm.seq
  · rw [dropPending_stateNumber]
    rcases hm.beyond k s (dropPending_lookup why hs) with hle | ⟨p, hp, rfl⟩
    · exact .inl hle
    · rw [dropPending_erased why hp] at hs
      cases hs
  · rw [dropPending_stateNumber]
    rcases dropPending_alternatives why halt with halt | ⟨p, hp, rfl, -⟩
    · exact hm.alternatives k alt halt
    · exact (hnext p hp).le
  · rw [dropPending_pending] at hp
    cases hp
  · rw [dropPending_awaiting] at ha
    rw [dropPending_of_none why (hm.awaiting a ha).2.2.2.1]
    exact hm.awaiting a ha

theorem agreed_placed {m : ChannelMachine} (hpos : m.htlcSeq ≠ 0) (hnone : m.awaiting = none)
    (hpending : m.pending = none) {message : AckMessage} (hn : message.n = m.stateNumber + 1)
    (s : ProtocolState) (update : Update)
    (hbeyond : ∀ k s, m.states.lookup k = some s → k ≤ m.stateNumber + 1)
    (halternatives : ∀ k, ∀ alt ∈ m.alternativesAt k, k ≤ m.stateNumber + 1) :
    Placed (m.agreed message s update) := by
  have hseq : m.htlcSeq ≤ (m.agreed message s update).htlcSeq := by
    unfold agreed
    dsimp only
    rw [takeTheirReveal_frame]
    exact htlcSeq_le_bump update
  unfold agreed at hseq ⊢
  dsimp only at hseq ⊢
  rw [takeTheirReveal_frame] at hseq ⊢
  refine ⟨?_, fun k s' hs => ?_, fun k alt halt => ?_, fun p hp => ?_, fun a ha => ?_⟩
  · dsimp only at hseq ⊢
    omega
  · left
    dsimp only at hs ⊢
    by_cases hk : k = message.n
    · exact hk.le
    · rw [Finmap.lookup_insert_of_ne _ hk] at hs
      rw [hn]
      exact hbeyond k s' hs
  · have hle := halternatives k alt halt
    dsimp only
    omega
  · have hnone := hpending.symm.trans hp
    cases hnone
  · have hfalse := hnone.symm.trans ha
    cases hfalse

theorem Move.placed {m m' : ChannelMachine} (h : Move named m m') (hnext : m.PendingNext)
    (hm : Placed m) : Placed m' := by
  have hbeyond : ∀ k s, m.states.lookup k = some s → k ≤ m.stateNumber + 1 := by
    intro k s hs
    rcases hm.beyond k s hs with hle | ⟨p, hp, rfl⟩
    · omega
    · exact (hnext p hp).le
  have hterms := h.terms
  cases h with
  | quiet hq =>
    exact hm.congr hterms (hq.field htlcSeq) (hq.field stateNumber) (hq.field states)
      (hq.field signedAlternatives) (hq.field ChannelMachine.pending)
      (hq.field ChannelMachine.awaiting)
  | propose hj =>
    rename_i update next ctx s message
    obtain ⟨-, -, hawaiting, hn, -⟩ := proposal_ok hj
    refine ⟨hm.seq, fun k s' hs => ?_, hm.alternatives, fun p hp => ?_, fun a ha => ?_⟩
    · by_cases hk : k = message.n
      · exact .inr ⟨_, rfl, hk.symm⟩
      · unfold proposed at hs
        dsimp only at hs
        rw [Finmap.lookup_insert_of_ne _ hk] at hs
        left
        have hle := hbeyond k s' hs
        change k ≤ m.stateNumber
        omega
    · cases hp
      exact ⟨(proposal_id hj :), rfl, rfl⟩
    · have hnone := hawaiting.symm.trans ha
      cases hnone
  | resend now tries hp =>
    refine ⟨hm.seq, fun k s hs => ?_, hm.alternatives, fun p' hp' => ?_, fun a ha => ?_⟩
    · rcases hm.beyond k s hs with hle | ⟨p', hp', rfl⟩
      · exact .inl hle
      · rw [hp] at hp'
        cases hp'
        exact .inr ⟨_, rfl, rfl⟩
    · cases hp'
      exact (hm.pending _ hp :)
    · have hnone := hp.symm.trans (hm.awaiting a ha).2.2.2.1
      cases hnone
  | accept next hj =>
    rename_i message ctx s
    have hn := (judgeUpdate_accept hj).2.2.1
    have hd := dropPending_placed
      "they proposed at the same time and the lower key wins".toList hnext hm
    have hsn := dropPending_stateNumber (m := m)
      "they proposed at the same time and the lower key wins".toList
    have hseq := htlcSeq_le_bump (m := m.dropPending
      "they proposed at the same time and the lower key wins".toList) message.update
    have halts : ∀ k, ∀ alt ∈ (m.accepted message s next ctx).alternativesAt k,
        k ≤ m.stateNumber + 1 := fun k alt halt => hsn ▸ hd.alternatives k alt halt
    refine ⟨?_, fun k s' hs => ?_, fun k alt halt => ?_, fun p hp => ?_, fun a ha => ?_⟩
    · have hpos := hd.seq
      unfold accepted
      dsimp only
      omega
    · left
      unfold accepted at hs ⊢
      dsimp only at hs ⊢
      by_cases hk : k = message.n
      · exact hk.le
      · rw [Finmap.lookup_insert_of_ne _ hk] at hs
        rw [hn]
        exact hbeyond k s' (dropPending_lookup _ hs)
    · have hle := halts k alt halt
      unfold accepted
      dsimp only
      omega
    · rw [accepted_pending] at hp
      cases hp
    · unfold accepted at ha
      cases ha
      refine ⟨rfl, ?_, rfl, accepted_pending _ _ _ _, List.eq_nil_iff_forall_not_mem.mpr fun alt halt => ?_⟩
      · rw [hsn, hn]
      · have hle := halts _ alt halt
        unfold accepted at hle
        dsimp only at hle
        omega
  | agree hj =>
    rename_i message pending s
    obtain ⟨-, hp, hn, hs⟩ := judgeAck_agree hj
    have hnone : m.awaiting = none := by
      by_contra hsome
      obtain ⟨a, ha⟩ := Option.ne_none_iff_exists'.mp hsome
      have hnone := (hm.awaiting a ha).2.2.2.1
      rw [hp] at hnone
      cases hnone
    have hn' : message.n = m.stateNumber + 1 := by rw [← hn, hnext pending hp]
    exact agreed_placed (m := { m with pending := none }) hm.seq hnone rfl hn' s pending.update
      hbeyond hm.alternatives
  | adopt hp hn hj =>
    rename_i message index alt
    have halt := List.mem_of_getElem? (adoption_ok hj).2
    have hnone : m.awaiting = none := by
      by_contra hsome
      obtain ⟨a, ha⟩ := Option.ne_none_iff_exists'.mp hsome
      have hnil := (hm.awaiting a ha).2.2.2.2
      rw [hn, hnil] at halt
      cases halt
    exact agreed_placed (m := m.removeAlternative message.n index) hm.seq hnone hp hn alt.state
      alt.update hbeyond fun k alt' halt' => hm.alternatives k alt' (removeAlternative_mem halt')
  | drop why => exact dropPending_placed why hnext hm
  | reveal index reveal =>
    rw [takeTheirReveal_frame] at hterms ⊢
    exact hm.congr hterms rfl rfl rfl rfl rfl rfl
  | final ha =>
    exact ⟨hm.seq, hm.beyond, hm.alternatives, hm.pending, fun a ha' => by cases ha'⟩
  | force why hn hlive htx =>
    have hd := dropPending_placed why hnext hm
    exact ⟨hd.seq, hd.beyond, hd.alternatives, hd.pending, fun a ha' => by cases ha'⟩
  | _ => exact hm.congr hterms rfl rfl rfl rfl rfl rfl

theorem machine_placed (o : Opened) : Placed o.machine := by
  refine ⟨Nat.one_ne_zero, fun k s hs => ?_, fun k alt halt => ?_, fun p hp => ?_, fun a ha => ?_⟩
  · unfold Opened.machine at hs ⊢
    dsimp only at hs ⊢
    by_cases hk : k = 0
    · exact .inl hk.le
    · rw [Finmap.lookup_insert_of_ne _ hk, Finmap.lookup_empty] at hs
      cases hs
  · unfold alternativesAt Opened.machine at halt
    dsimp only at halt
    rw [Finmap.lookup_empty] at halt
    cases halt
  · cases hp
  · cases ha

/-! ### What can be built -/

/-- The keys of a machine go on: its terms, its secrets and the other side's points stay. -/
structure Extends (m m' : ChannelMachine) : Prop where
  terms : m'.terms = m.terms
  mine : ∀ n k, m.myRevocation.lookup n = some k → m'.myRevocation.lookup n = some k
  theirs : ∀ n p, m.theirRevocationPublic.lookup n = some p →
    m'.theirRevocationPublic.lookup n = some p

theorem Extends.theirCommitment {m m' : ChannelMachine} (h : Extends m m') {n : ℕ}
    {s : ProtocolState} {c : Commitment} (hc : m.theirCommitment n s = .ok c) :
    m'.theirCommitment n s = .ok c :=
  theirCommitment_congr h.terms (h.theirs n) hc

/-- This peer's own commitment stays what it was. -/
theorem Extends.myCommitment {m m' : ChannelMachine} (h : Extends m m') {n : ℕ}
    {s : ProtocolState} {c : Commitment} (hc : m.commitmentAt m.role n s = .ok c) :
    m'.commitmentAt m'.role n s = .ok c := by
  have hterms := h.terms
  unfold ChannelMachine.terms at hterms
  simp only [Prod.mk.injEq] at hterms
  obtain ⟨hchannel, hrole, -, -, -, hbase, -⟩ := hterms
  unfold commitmentAt revocationFor at hc ⊢
  rw [if_pos rfl] at hc ⊢
  rw [hchannel, hrole, hbase]
  obtain ⟨key, hkey, hc⟩ := Res.bind_eq_ok.mp hc
  obtain ⟨secret, hlookup, hkey⟩ := Res.bind_eq_ok.mp hkey
  rw [Res.okOr_eq_ok] at hlookup
  rw [h.mine n secret hlookup]
  exact Res.bind_eq_ok.mpr ⟨key, Res.bind_eq_ok.mpr ⟨secret, rfl, hkey⟩, hc⟩

theorem Extends.theirSigOk {m m' : ChannelMachine} (h : Extends m m') (tx : Transaction)
    (sig : Sig) : m'.theirSigOk tx sig = m.theirSigOk tx sig := by
  have hterms := h.terms
  unfold ChannelMachine.terms at hterms
  simp only [Prod.mk.injEq] at hterms
  obtain ⟨hchannel, hrole, -, -, -, -, hrules⟩ := hterms
  unfold ChannelMachine.theirSigOk peerKey
  rw [hchannel, hrole, hrules]

theorem Extends.mySigOk {m m' : ChannelMachine} (h : Extends m m') (tx : Transaction) (sig : Sig) :
    m'.channel.verifyFunding tx m'.myKey sig m'.rules =
      m.channel.verifyFunding tx m.myKey sig m.rules := by
  have hterms := h.terms
  unfold ChannelMachine.terms at hterms
  simp only [Prod.mk.injEq] at hterms
  obtain ⟨hchannel, hrole, -, -, -, -, hrules⟩ := hterms
  unfold myKey
  rw [hchannel, hrole, hrules]

theorem revocationOr_kept {m : ChannelMachine} {n k : ℕ} {key : SecretKey} (next : SecretKey)
    (h : m.myRevocation.lookup k = some key) :
    (m.myRevocation.insert n (m.revocationOr n next)).lookup k = some key := by
  by_cases hk : k = n
  · rw [hk, Finmap.lookup_insert]
    unfold revocationOr
    rw [← hk, h, Option.getD_some]
  · rw [Finmap.lookup_insert_of_ne _ hk]
    exact h

theorem Move.extends {m m' : ChannelMachine} (h : Move named m m') (hnext : m.PendingNext)
    (hpoints : PointsMatch m) : Extends m m' := by
  refine ⟨h.terms, fun n k hk => ?_, fun n p hp => h.points_kept hnext hpoints hp⟩
  cases h with
  | quiet hq =>
    rw [hq.field myRevocation]
    exact hk
  | propose hj => exact revocationOr_kept _ hk
  | accept next hj =>
    unfold accepted
    dsimp only
    refine revocationOr_kept next ?_
    rw [dropPending_myRevocation]
    exact hk
  | agree hj =>
    unfold agreed
    dsimp only
    rw [takeTheirReveal_frame]
    exact hk
  | adopt hp hn hj =>
    unfold agreed
    dsimp only
    rw [takeTheirReveal_frame]
    exact hk
  | drop why =>
    rw [dropPending_myRevocation]
    exact hk
  | force why hn hlive htx => exact (congrArg (Finmap.lookup n) (dropPending_myRevocation why)).trans hk
  | reveal index reveal =>
    rw [takeTheirReveal_frame]
    exact hk
  | _ => exact hk

/-- The keys of the agreed state and the next are there, every commitment of the
other side's can be built, and every agreed state is signed by both. -/
structure Built (m : ChannelMachine) : Prop where
  mine : ∀ k ≤ m.stateNumber + 1, (m.myRevocation.lookup k).isSome = true
  theirs : ∀ k ≤ m.stateNumber + 1, (m.theirRevocationPublic.lookup k).isSome = true
  states : ∀ k s, m.states.lookup k = some s → ∃ c, m.theirCommitment k s = .ok c
  alternatives : ∀ k, ∀ alt ∈ m.alternativesAt k, ∃ c, m.theirCommitment k alt.state = .ok c
  agreed : ∀ k s, k ≤ m.stateNumber → m.states.lookup k = some s → ∃ c sig,
    m.commitmentAt m.role k s = .ok c ∧ m.signatures.lookup k = some sig ∧
      m.theirSigOk c.tx sig = true
  pending : ∀ p, m.pending = some p → (m.myRevocation.lookup (p.n + 1)).isSome = true ∧
    ∀ s c, m.states.lookup p.n = some s → m.theirCommitment p.n s = .ok c →
      m.channel.verifyFunding c.tx m.myKey p.message.sig m.rules = true

omit [Hitch] in
theorem isSome_kept {α β : Type} [DecidableEq α] {f g : Map α β} {k : α}
    (h : ∀ v, f.lookup k = some v → g.lookup k = some v) (hk : (f.lookup k).isSome = true) :
    (g.lookup k).isSome = true := by
  obtain ⟨v, hv⟩ := Option.isSome_iff_exists.mp hk
  rw [h v hv]
  rfl

/-- A move that stays at the agreed state and sets states aside or drops them. -/
theorem Built.fewer {m m' : ChannelMachine} (hm : Built m) (he : Extends m m')
    (hn : m'.stateNumber = m.stateNumber) (hsignatures : m'.signatures = m.signatures)
    (hstates : ∀ k s, m'.states.lookup k = some s → m.states.lookup k = some s)
    (halternatives : ∀ k, ∀ alt ∈ m'.alternativesAt k, alt ∈ m.alternativesAt k ∨
      ∃ p, m.pending = some p ∧ k = p.n ∧ m.states.lookup p.n = some alt.state)
    (hpending : ∀ p, m'.pending = some p → ∃ p₀, m.pending = some p₀ ∧ p.n = p₀.n ∧
      p.message = p₀.message) : Built m' := by
  refine ⟨fun k hk => ?_, fun k hk => ?_, fun k s hs => ?_, fun k alt halt => ?_,
    fun k s hk hs => ?_, fun p hp => ?_⟩
  · exact isSome_kept (he.mine k) (hm.mine k (hn ▸ hk))
  · exact isSome_kept (he.theirs k) (hm.theirs k (hn ▸ hk))
  · obtain ⟨c, hc⟩ := hm.states k s (hstates k s hs)
    exact ⟨c, he.theirCommitment hc⟩
  · rcases halternatives k alt halt with halt | ⟨p, -, rfl, hs⟩
    · obtain ⟨c, hc⟩ := hm.alternatives k alt halt
      exact ⟨c, he.theirCommitment hc⟩
    · obtain ⟨c, hc⟩ := hm.states p.n alt.state hs
      exact ⟨c, he.theirCommitment hc⟩
  · obtain ⟨c, sig, hc, hsig, hok⟩ := hm.agreed k s (hn ▸ hk) (hstates k s hs)
    refine ⟨c, sig, he.myCommitment hc, ?_, ?_⟩
    · rw [hsignatures]
      exact hsig
    · rw [he.theirSigOk]
      exact hok
  · obtain ⟨p₀, hp₀, hpn, hmessage⟩ := hpending p hp
    obtain ⟨hkey, hsig⟩ := hm.pending p₀ hp₀
    refine ⟨?_, fun s c hs hc => ?_⟩
    · rw [hpn]
      exact isSome_kept (he.mine _) hkey
    · rw [hpn] at hs hc
      rw [hmessage, he.mySigOk]
      have hs := hstates _ _ hs
      obtain ⟨c₀, hc₀⟩ := hm.states p₀.n s hs
      have hc₁ := he.theirCommitment hc₀
      rw [hc] at hc₁
      cases hc₁
      exact hsig s c hs hc₀

/-- A move to the next state, which this peer can build and the other side has signed. -/
theorem Built.next {m m' : ChannelMachine} (hm : Built m) (he : Extends m m') {s : ProtocolState}
    {sig : Sig} {c : Commitment} (hn : m'.stateNumber = m.stateNumber + 1)
    (hsignatures : m'.signatures = m.signatures.insert (m.stateNumber + 1) sig)
    (hkey : (m'.myRevocation.lookup (m.stateNumber + 2)).isSome = true)
    (hpoint : (m'.theirRevocationPublic.lookup (m.stateNumber + 2)).isSome = true)
    (hnew : m'.states.lookup (m.stateNumber + 1) = some s)
    (htheirs : ∃ c, m.theirCommitment (m.stateNumber + 1) s = .ok c)
    (hmine : m.commitmentAt m.role (m.stateNumber + 1) s = .ok c)
    (hsig : m.theirSigOk c.tx sig = true)
    (hstates : ∀ k s', k ≠ m.stateNumber + 1 → m'.states.lookup k = some s' →
      m.states.lookup k = some s')
    (halternatives : ∀ k, ∀ alt ∈ m'.alternativesAt k, alt ∈ m.alternativesAt k ∨
      ∃ p, m.pending = some p ∧ k = p.n ∧ m.states.lookup p.n = some alt.state)
    (hpending : m'.pending = none) : Built m' := by
  refine ⟨fun k hk => ?_, fun k hk => ?_, fun k s' hs => ?_, fun k alt halt => ?_,
    fun k s' hk hs => ?_, fun p hp => ?_⟩
  · by_cases hlast : k = m.stateNumber + 2
    · rw [hlast]
      exact hkey
    · exact isSome_kept (he.mine k) (hm.mine k (by omega))
  · by_cases hlast : k = m.stateNumber + 2
    · rw [hlast]
      exact hpoint
    · exact isSome_kept (he.theirs k) (hm.theirs k (by omega))
  · by_cases hk : k = m.stateNumber + 1
    · rw [hk, hnew] at hs
      cases hs
      obtain ⟨c, hc⟩ := htheirs
      exact ⟨c, hk ▸ he.theirCommitment hc⟩
    · obtain ⟨c, hc⟩ := hm.states k s' (hstates k s' hk hs)
      exact ⟨c, he.theirCommitment hc⟩
  · rcases halternatives k alt halt with halt | ⟨p, -, rfl, hs⟩
    · obtain ⟨c, hc⟩ := hm.alternatives k alt halt
      exact ⟨c, he.theirCommitment hc⟩
    · obtain ⟨c, hc⟩ := hm.states p.n alt.state hs
      exact ⟨c, he.theirCommitment hc⟩
  · by_cases hlast : k = m.stateNumber + 1
    · rw [hlast, hnew] at hs
      cases hs
      refine ⟨c, sig, hlast ▸ he.myCommitment hmine, ?_, ?_⟩
      · rw [hsignatures, hlast, Finmap.lookup_insert]
      · rw [he.theirSigOk]
        exact hsig
    · obtain ⟨c, sig', hc, hsig', hok⟩ := hm.agreed k s' (by omega) (hstates k s' hlast hs)
      refine ⟨c, sig', he.myCommitment hc, ?_, ?_⟩
      · rw [hsignatures, Finmap.lookup_insert_of_ne _ hlast]
        exact hsig'
      · rw [he.theirSigOk]
        exact hok
  · rw [hpending] at hp
    cases hp

theorem incomingState_signed {m : ChannelMachine} {message : UpdateMessage} {ctx : Context}
    {s : ProtocolState} (h : m.incomingState message ctx = .ok (.accept s)) :
    ∃ c, m.commitmentAt m.role message.n s = .ok c ∧ m.theirSigOk c.tx message.sig = true := by
  unfold ChannelMachine.incomingState at h
  split at h
  · cases h
  · cases h
  · obtain ⟨mine, hmine, h⟩ := Res.bind_eq_ok.mp h
    split_ifs at h with hsig
    · cases h
    · cases h
    · cases h
      exact ⟨mine, hmine, by simpa using hsig⟩

theorem judgeAck_signed {m : ChannelMachine} {message : AckMessage} {pending : PendingUpdate}
    {s : ProtocolState} (h : m.judgeAck message = .ok (.agree pending s)) :
    ∃ c, m.commitmentAt m.role pending.n s = .ok c ∧ m.theirSigOk c.tx message.sig = true := by
  unfold ChannelMachine.judgeAck at h
  obtain ⟨_, -, h⟩ := Res.bind_eq_ok.mp h
  obtain ⟨_, -, h⟩ := Res.bind_eq_ok.mp h
  obtain ⟨_, -, h⟩ := Res.bind_eq_ok.mp h
  split_ifs at h
  · cases h
  obtain ⟨p, -, h⟩ := Res.bind_eq_ok.mp h
  obtain ⟨s', -, h⟩ := Res.bind_eq_ok.mp h
  obtain ⟨mine, hmine, h⟩ := Res.bind_eq_ok.mp h
  dsimp only at h
  split_ifs at h with hsig
  · cases h
  obtain ⟨_, -, h⟩ := Res.bind_eq_ok.mp h
  obtain ⟨_, -, h⟩ := Res.bind_eq_ok.mp h
  rw [Res.ok.injEq, AckVerdict.agree.injEq] at h
  obtain ⟨rfl, rfl⟩ := h
  exact ⟨mine, hmine, by simpa using hsig⟩

theorem adoption_signed {m : ChannelMachine} {message : AckMessage} {index : ℕ}
    {alt : SignedAlternative} (h : m.adoption message = .ok (index, alt)) :
    (m.myRevocation.lookup (message.n + 1)).isSome = true ∧
      ∃ c, m.commitmentAt m.role message.n alt.state = .ok c ∧
        m.theirSigOk c.tx message.sig = true := by
  unfold ChannelMachine.adoption at h
  obtain ⟨_, -, h⟩ := Res.bind_eq_ok.mp h
  obtain ⟨i, hi, h⟩ := Res.bind_eq_ok.mp h
  obtain ⟨_, -, h⟩ := Res.bind_eq_ok.mp h
  obtain ⟨_, hkey, h⟩ := Res.bind_eq_ok.mp h
  obtain ⟨_, -, h⟩ := Res.bind_eq_ok.mp h
  obtain ⟨alt', halt, h⟩ := Res.bind_eq_ok.mp h
  rw [Res.ok.injEq, Prod.mk.injEq] at h
  obtain ⟨rfl, rfl⟩ := h
  rw [Res.refuseIf_eq_ok] at hkey
  rw [Res.okOr_eq_ok] at halt hi
  have hkey : (m.myRevocation.lookup (message.n + 1)).isSome = true := by simpa using hkey
  unfold findAlternative at hi
  have hfound := List.of_findIdx?_eq_some hi
  rw [halt] at hfound
  dsimp only at hfound
  split at hfound
  · rename_i mine hmine
    exact ⟨hkey, mine, hmine, hfound⟩
  · cases hfound

theorem agreed_built {m₀ m : ChannelMachine} (hm : Built m₀) {message : AckMessage}
    {s : ProtocolState} {update : Update} (he : Extends m₀ (m.agreed message s update))
    (hn : message.n = m₀.stateNumber + 1) (hsignatures : m.signatures = m₀.signatures)
    (hkey : (m.myRevocation.lookup (m₀.stateNumber + 2)).isSome = true)
    (hstates : m.states = m₀.states) (hpending : m.pending = none)
    (htheirs : ∃ c, m₀.theirCommitment (m₀.stateNumber + 1) s = .ok c)
    (hmine : ∃ c, m₀.commitmentAt m₀.role (m₀.stateNumber + 1) s = .ok c ∧
      m₀.theirSigOk c.tx message.sig = true)
    (halternatives : ∀ k, ∀ alt ∈ m.alternativesAt k, alt ∈ m₀.alternativesAt k) :
    Built (m.agreed message s update) := by
  obtain ⟨c, hmine, hsig⟩ := hmine
  unfold agreed at he ⊢
  dsimp only at he ⊢
  rw [takeTheirReveal_frame] at he ⊢
  refine hm.next (s := s) he hn ?_ hkey ?_ ?_ htheirs hmine hsig
    (fun k s' hk hs => ?_) (fun k alt halt => .inl (halternatives k alt halt)) hpending
  · dsimp only
    rw [hsignatures, hn]
  · dsimp only
    rw [hn, Finmap.lookup_insert]
    rfl
  · dsimp only
    rw [hn, Finmap.lookup_insert]
  · dsimp only at hs
    rw [hn, Finmap.lookup_insert_of_ne _ hk, hstates] at hs
    exact hs

/-- An update accepted is built, if the other side's commitment of it can be. -/
theorem accepted_built {m : ChannelMachine} (hnext : m.PendingNext) (hpoints : PointsMatch m)
    (hm : Built m) {message : UpdateMessage} {ctx : Context} {s : ProtocolState}
    (next : SecretKey) (hj : m.judgeUpdate message ctx = .ok (.accept s))
    (htheirs : ∃ c, m.theirCommitment message.n s = .ok c) :
    Built (m.accepted message s next ctx) := by
  have he : Extends m (m.accepted message s next ctx) :=
    Move.extends (.accept next hj : Move True _ _) hnext hpoints
  obtain ⟨-, -, hn, -, hs⟩ := judgeUpdate_accept hj
  obtain ⟨c, hmine, hsig⟩ := incomingState_signed hs
  rw [hn] at htheirs hmine
  refine hm.next (s := s) he hn ?_ ?_ ?_ ?_ htheirs hmine hsig
    (fun k s' hk h => ?_) (fun k alt h => ?_) (accepted_pending _ _ _ _)
  · unfold accepted
    dsimp only
    rw [dropPending_frame, hn]
  · unfold accepted
    dsimp only
    rw [hn, Finmap.lookup_insert]
    rfl
  · unfold accepted
    dsimp only
    rw [hn, Finmap.lookup_insert]
    rfl
  · unfold accepted
    dsimp only
    rw [hn, Finmap.lookup_insert]
  · unfold accepted at h
    dsimp only at h
    rw [hn, Finmap.lookup_insert_of_ne _ hk] at h
    exact dropPending_lookup _ h
  · rcases dropPending_alternatives _ h with h | ⟨p, hp, hpn, hs, -⟩
    · exact .inl h
    · exact .inr ⟨p, hp, hpn, hs⟩

theorem agree_built {m : ChannelMachine} (hnext : m.PendingNext) (hpoints : PointsMatch m)
    (hm : Built m) {message : AckMessage} {pending : PendingUpdate} {s : ProtocolState}
    (hj : m.judgeAck message = .ok (.agree pending s)) :
    Built ({ m with pending := none }.agreed message s pending.update) := by
  have he : Extends m ({ m with pending := none }.agreed message s pending.update) :=
    Move.extends (.agree hj : Move True _ _) hnext hpoints
  obtain ⟨-, hp, hn, hs⟩ := judgeAck_agree hj
  have hpn := hnext pending hp
  refine agreed_built (m := { m with pending := none }) hm he (hn ▸ hpn) rfl ?_ rfl rfl ?_ ?_
    fun k alt h => h
  · have hpkey := (hm.pending pending hp).1
    rwa [hpn] at hpkey
  · rw [← hpn]
    exact hm.states _ s hs
  · rw [← hpn]
    exact judgeAck_signed hj

theorem adopt_built {m : ChannelMachine} (hnext : m.PendingNext) (hpoints : PointsMatch m)
    (hm : Built m) {message : AckMessage} {index : ℕ} {alt : SignedAlternative}
    (hp : m.pending = none) (hn : message.n = m.stateNumber + 1)
    (hj : m.adoption message = .ok (index, alt)) :
    Built ((m.removeAlternative message.n index).agreed message alt.state alt.update) := by
  have he : Extends m ((m.removeAlternative message.n index).agreed message alt.state alt.update) :=
    Move.extends (.adopt hp hn hj : Move True _ _) hnext hpoints
  have halt := List.mem_of_getElem? (adoption_ok hj).2
  obtain ⟨hmykey, hmine⟩ := adoption_signed hj
  rw [hn] at hmykey hmine halt
  exact agreed_built (m := m.removeAlternative message.n index) hm he hn rfl hmykey rfl hp
    (hm.alternatives _ alt halt) hmine fun k alt' h => removeAlternative_mem h

theorem Quiet.built {m m' : ChannelMachine} (h : Quiet m m') (hm : Built m) : Built m' := by
  have he : Extends m m' := by
    refine ⟨Move.terms (.quiet h : Move True m m'), fun n k hk => ?_, fun n p hp => ?_⟩
    · rw [h.field myRevocation]
      exact hk
    · rw [h.field theirRevocationPublic]
      exact hp
  refine hm.fewer he (h.field ChannelMachine.stateNumber) (h.field signatures) ?_ ?_ ?_
  · rw [h.field ChannelMachine.states]
    exact fun k s hs => hs
  · intro k alt halt
    rw [h.field fun m => m.alternativesAt k] at halt
    exact .inl halt
  · rw [h.field ChannelMachine.pending]
    exact fun p hp => ⟨p, hp, rfl, rfl⟩

theorem dropPending_built {m : ChannelMachine} (why : Text) (hm : Built m) :
    Built (m.dropPending why) := by
  have he : Extends m (m.dropPending why) := by
    refine ⟨Move.terms (.drop why : Move True m _), fun n k hk => ?_, fun n p hp => ?_⟩
    · rw [dropPending_myRevocation]
      exact hk
    · rw [dropPending_frame]
      exact hp
  refine hm.fewer he (dropPending_stateNumber why) ?_ (fun k s h => dropPending_lookup why h)
    (fun k alt h => ?_) fun p h => ?_
  · rw [dropPending_frame]
  · rcases dropPending_alternatives why h with h | ⟨p, hp, hpn, hs, -⟩
    · exact .inl h
    · exact .inr ⟨p, hp, hpn, hs⟩
  · rw [dropPending_pending] at h
    cases h

/-- A move that stays at the agreed state keeps what is built. -/
theorem Move.built {m m' : ChannelMachine} (h : Move named m m') (hnext : m.PendingNext)
    (hpoints : PointsMatch m)
    (hverify : ∀ tx prevouts leafHash key rules aux sig,
      Hitch.signLeaf tx prevouts leafHash key rules aux = some sig →
      Hitch.verifyLeafSignature tx prevouts leafHash (Hitch.public key) sig rules = true)
    (hkey : Hitch.public m.channelKey = m.myKey) (hn : m'.stateNumber = m.stateNumber)
    (hm : Built m) : Built m' := by
  have he := h.extends hnext hpoints
  cases h with
  | quiet hq => exact hq.built hm
  | propose hj =>
    rename_i update next ctx s message
    have hnew' := (proposal_ok hj).2.2.2.1
    obtain ⟨c, hc, hsig⟩ := proposal_signed hj
    have hold : ∀ k s', k ≠ message.n →
        (m.proposed s message next ctx).states.lookup k = some s' → m.states.lookup k = some s' := by
      intro k s' hk hs
      unfold proposed at hs
      dsimp only at hs
      rwa [Finmap.lookup_insert_of_ne _ hk] at hs
    have hnew : (m.proposed s message next ctx).states.lookup message.n = some s := by
      unfold proposed
      dsimp only
      rw [Finmap.lookup_insert]
    refine ⟨fun k hk => isSome_kept (he.mine k) (hm.mine k hk),
      fun k hk => isSome_kept (he.theirs k) (hm.theirs k hk), fun k s' hs => ?_,
      fun k alt halt => ?_, fun k s' hk hs => ?_, fun p hp => ?_⟩
    · by_cases hk : k = message.n
      · rw [hk, hnew] at hs
        cases hs
        exact ⟨c, hk ▸ he.theirCommitment hc⟩
      · obtain ⟨c', hc'⟩ := hm.states k s' (hold k s' hk hs)
        exact ⟨c', he.theirCommitment hc'⟩
    · obtain ⟨c', hc'⟩ := hm.alternatives k alt halt
      exact ⟨c', he.theirCommitment hc'⟩
    · change k ≤ m.stateNumber at hk
      have hne : k ≠ message.n := by omega
      obtain ⟨c', sig, hc', hlookup, hok⟩ := hm.agreed k s' hk (hold k s' hne hs)
      refine ⟨c', sig, he.myCommitment hc', hlookup, ?_⟩
      rw [he.theirSigOk]
      exact hok
    · cases hp
      refine ⟨?_, fun s' c' hs hc' => ?_⟩
      · unfold proposed
        dsimp only
        rw [Finmap.lookup_insert]
        rfl
      · dsimp only at hs hc' ⊢
        rw [hnew] at hs
        cases hs
        have hc₁ := he.theirCommitment hc
        rw [hc'] at hc₁
        cases hc₁
        have hsigned := signFunding_ok hsig
        unfold Channel.signFunding at hsigned
        split at hsigned
        · rename_i sig hleaf
          cases hsigned
          rw [he.mySigOk, ← hkey]
          exact hverify _ _ _ _ _ _ _ hleaf
        · cases hsigned
  | resend now tries hp =>
    refine hm.fewer he rfl rfl (fun _ _ h => h) (fun k alt h => .inl h) fun p' hp' => ?_
    cases hp'
    exact ⟨_, hp, rfl, rfl⟩
  | accept next hj =>
    have hnew := (judgeUpdate_accept hj).2.2.1
    change UpdateMessage.n _ = m.stateNumber at hn
    omega
  | agree hj =>
    obtain ⟨-, hp, hnew, -⟩ := judgeAck_agree hj
    have hpn := hnext _ hp
    change AckMessage.n _ = m.stateNumber at hn
    omega
  | adopt hp hnew hj =>
    change AckMessage.n _ = m.stateNumber at hn
    omega
  | drop why => exact dropPending_built why hm
  | reveal index reveal =>
    rw [takeTheirReveal_frame] at he ⊢
    exact hm.fewer he rfl rfl (fun _ _ h => h) (fun k alt h => .inl h)
      fun p hp => ⟨p, hp, rfl, rfl⟩
  | force why hn hlive htx =>
    have hd := dropPending_built why hm
    exact ⟨hd.mine, hd.theirs, hd.states, hd.alternatives, hd.agreed, hd.pending⟩
  | _ =>
    exact hm.fewer he rfl rfl (fun _ _ h => h) (fun k alt h => .inl h)
      fun p hp => ⟨p, hp, rfl, rfl⟩

/-! ### The checks of a restart -/

omit [Hitch] in
theorem checkEach_ok {α : Type} {check : α → Res ProtocolError Unit} :
    ∀ {l : List α}, (∀ a ∈ l, check a = .ok ()) → checkEach check l = .ok ()
  | [], _ => rfl
  | a :: l, h => by
    unfold checkEach
    rw [h a List.mem_cons_self, Res.ok_bind]
    exact checkEach_ok fun b hb => h b (List.mem_cons_of_mem a hb)

/-- What is held back is the next state's. -/
def Buffered (m : ChannelMachine) : Prop :=
  ∀ b, m.buffered = some b → b.id = m.id ∧ b.n = m.stateNumber + 1

/-- Everything a restart checks. -/
structure Restorable (m : ChannelMachine) : Prop where
  id : m.id = channelIdOf m.channel.fundingOutpoint.txid
  key : Hitch.public m.channelKey = m.myKey
  rebuilds : m.Rebuilds
  points : PointsMatch m
  conserved : Conserved m
  recorded : Recorded m
  placed : Placed m
  built : Built m
  buffered : Buffered m

theorem validateState_ok {m : ChannelMachine} (hm : Restorable m) {k : ℕ}
    (hk : k ≤ m.stateNumber) : m.validateState k = .ok () := by
  unfold validateState
  split
  · rfl
  · rename_i s hs
    obtain ⟨c, sig, hc, hsig, hok⟩ := hm.built.agreed k s hk hs
    obtain ⟨c', hc'⟩ := hm.built.states k s hs
    unfold ChannelMachine.theirCommitment at hc'
    rw [hc, Res.ok_bind, hc', Res.ok_bind, hsig, Res.okOr_some, Res.ok_bind]
    refine Res.bind_eq_ok.mpr ⟨(), ?_, ?_⟩
    · rw [Res.refuseIf_eq_ok, hok]
      rfl
    · rw [Res.refuseIf_eq_ok, List.any_eq_false]
      intro h hh
      have hlt := hm.conserved.agreed k s hs hk h hh
      simpa using hlt

theorem validatePending_ok {m : ChannelMachine} (hm : Restorable m) (hnext : m.PendingNext)
    (hpresent : ∀ p, m.pending = some p → (m.states.lookup p.n).isSome = true) :
    m.validatePending = .ok () := by
  unfold validatePending
  split
  · rfl
  · rename_i p hp
    obtain ⟨hid, hn, hupdate⟩ := hm.placed.pending p hp
    obtain ⟨s, hs⟩ := Option.isSome_iff_exists.mp (hpresent p hp)
    obtain ⟨c, hc⟩ := hm.built.states p.n s hs
    have hsig := (hm.built.pending p hp).2 s c hs hc
    unfold ChannelMachine.theirCommitment at hc
    unfold ChannelMachine.state
    refine Res.bind_eq_ok.mpr ⟨(), ?_, ?_⟩
    · rw [Res.refuseIf_eq_ok, hid, hn, hupdate, hnext p hp]
      simp
    · rw [hs, Res.okOr_some, Res.ok_bind, hc, Res.ok_bind, Res.refuseIf_eq_ok, hsig]
      rfl

theorem validate_ok {m : ChannelMachine} (hm : Restorable m) (hnext : m.PendingNext)
    (hpresent : Present m) : m.validate = .ok () := by
  have hcurrent := hm.conserved.current
  unfold validate
  refine Res.bind_eq_ok.mpr ⟨(), Res.refuseIf_eq_ok.mpr ?_, ?_⟩
  · rw [hm.id]
    simp
  refine Res.bind_eq_ok.mpr ⟨(), Res.refuseIf_eq_ok.mpr ?_, ?_⟩
  · rw [hm.key]
    simp
  refine Res.bind_eq_ok.mpr ⟨(), Res.refuseIf_eq_ok.mpr ?_, ?_⟩
  · have hseq := hm.placed.seq
    simpa using hseq
  dsimp only
  refine Res.bind_eq_ok.mpr ⟨(), Res.refuseIf_eq_ok.mpr ?_, ?_⟩
  · rw [Option.isNone_eq_false_iff]
    exact hcurrent
  refine Res.bind_eq_ok.mpr ⟨(), Res.refuseIf_eq_ok.mpr ?_, ?_⟩
  · rw [decide_eq_false_iff_not]
    rintro ⟨k, hk, hlt, hnone⟩
    obtain ⟨s, hs⟩ := Finmap.mem_iff.mp (Finmap.mem_keys.mp hk)
    rcases hm.placed.beyond k s hs with hle | ⟨p, hp, rfl⟩
    · omega
    · rw [hp] at hnone
      exact hnone (beq_self_eq_true _)
  refine Res.bind_eq_ok.mpr ⟨(), checkEach_ok fun k hk => ?_, ?_⟩
  · have hle : k ≤ m.stateNumber + 1 := by
      simp only [List.mem_cons, List.not_mem_nil, or_false] at hk
      omega
    have hmine := hm.built.mine k hle
    have htheirs := hm.built.theirs k hle
    rw [Res.refuseIf_eq_ok, ← Option.not_isSome, ← Option.not_isSome, hmine, htheirs]
    rfl
  refine Res.bind_eq_ok.mpr ⟨(), Res.refuseIf_eq_ok.mpr ?_, ?_⟩
  · rw [decide_eq_false_iff_not]
    rintro ⟨k, -, hwrong⟩
    obtain ⟨s, hs, hwrong⟩ := (Option.any_eq_true _ _).mp hwrong
    rw [hm.points.secrets k s hs] at hwrong
    simp at hwrong
  refine Res.bind_eq_ok.mpr ⟨(), Res.refuseIf_eq_ok.mpr ?_, ?_⟩
  · rw [decide_eq_false_iff_not]
    rintro ⟨h, -, hwrong⟩
    obtain ⟨p, hp, hwrong⟩ := (Option.any_eq_true _ _).mp hwrong
    rw [hm.recorded.preimages h p hp] at hwrong
    simp at hwrong
  refine Res.bind_eq_ok.mpr ⟨(), checkEach_ok fun k hk => ?_, ?_⟩
  · rw [List.mem_range] at hk
    exact validateState_ok hm (Nat.lt_succ_iff.mp hk)
  refine Res.bind_eq_ok.mpr ⟨(), checkEach_ok fun k _ => checkEach_ok fun alt halt => ?_, ?_⟩
  · obtain ⟨c, hc⟩ := hm.built.alternatives k alt halt
    unfold ChannelMachine.theirCommitment at hc
    rw [hc, Res.ok_bind]
  refine Res.bind_eq_ok.mpr ⟨(), validatePending_ok hm hnext hpresent.pending, ?_⟩
  refine Res.bind_eq_ok.mpr ⟨(), Res.refuseIf_eq_ok.mpr ?_, ?_⟩
  · rw [Option.any_eq_false]
    intro a ha
    obtain ⟨hn, hprevious, hsender, -⟩ := hm.placed.awaiting a ha
    rw [hprevious, hn, hsender]
    simp
  refine Res.bind_eq_ok.mpr ⟨(), Res.refuseIf_eq_ok.mpr ?_, ?_⟩
  · rw [Option.any_eq_false]
    intro b hb
    obtain ⟨hid, hn⟩ := hm.buffered b hb
    rw [hid, hn]
    simp
  refine Res.bind_eq_ok.mpr ⟨(), Res.refuseIf_eq_ok.mpr ?_, Res.refuseIf_eq_ok.mpr ?_⟩
  · rw [Option.any_eq_false]
    intro c hc
    rw [hm.recorded.close c hc]
    simp
  · rw [List.any_eq_false]
    intro c hc
    rw [hm.recorded.claims c hc]
    simp

/-- What is restored is the machine, less its events and the record of a peer far ahead. -/
theorem restore_ok {m : ChannelMachine} (hm : Restorable m) (hnext : m.PendingNext)
    (hpresent : Present m) :
    restore m.snapshot = .ok { m with events := [], peerAhead := none } := by
  have hvalid := validate_ok hm hnext hpresent
  unfold restore ChannelMachine.snapshot
  refine Res.bind_eq_ok.mpr ⟨(), rfl, ?_⟩
  refine Res.bind_eq_ok.mpr ⟨m.channel, ofExcept_eq_ok.mpr hm.rebuilds, ?_⟩
  exact Res.bind_eq_ok.mpr ⟨(), hvalid, rfl⟩

/-- What restores holds back only an update for the next state. -/
theorem restore_buffered {m m' : ChannelMachine} (h : restore m.snapshot = .ok m') (b : UpdateMessage)
    (hb : m.buffered = some b) : b.n = m.stateNumber + 1 := by
  unfold restore ChannelMachine.snapshot at h
  obtain ⟨_, -, h⟩ := Res.bind_eq_ok.mp h
  obtain ⟨_, -, h⟩ := Res.bind_eq_ok.mp h
  obtain ⟨_, hvalid, -⟩ := Res.bind_eq_ok.mp h
  unfold ChannelMachine.validate at hvalid
  -- the twelve relations before it
  obtain ⟨_, -, hvalid⟩ := Res.bind_eq_ok.mp hvalid
  obtain ⟨_, -, hvalid⟩ := Res.bind_eq_ok.mp hvalid
  obtain ⟨_, -, hvalid⟩ := Res.bind_eq_ok.mp hvalid
  obtain ⟨_, -, hvalid⟩ := Res.bind_eq_ok.mp hvalid
  obtain ⟨_, -, hvalid⟩ := Res.bind_eq_ok.mp hvalid
  obtain ⟨_, -, hvalid⟩ := Res.bind_eq_ok.mp hvalid
  obtain ⟨_, -, hvalid⟩ := Res.bind_eq_ok.mp hvalid
  obtain ⟨_, -, hvalid⟩ := Res.bind_eq_ok.mp hvalid
  obtain ⟨_, -, hvalid⟩ := Res.bind_eq_ok.mp hvalid
  obtain ⟨_, -, hvalid⟩ := Res.bind_eq_ok.mp hvalid
  obtain ⟨_, -, hvalid⟩ := Res.bind_eq_ok.mp hvalid
  obtain ⟨_, -, hvalid⟩ := Res.bind_eq_ok.mp hvalid
  obtain ⟨_, hheld, -⟩ := Res.bind_eq_ok.mp hvalid
  rw [Res.refuseIf_eq_ok, Option.any_eq_false] at hheld
  have hplace := hheld b hb
  rw [Bool.or_eq_false_iff, bne_eq_false_iff_eq, bne_eq_false_iff_eq] at hplace
  exact hplace.2

/-! ### A run -/

/-- Nothing is held back when the agreed state moves on, and the other side's
commitment of an update accepted can be built. -/
def Unbuffered (m : ChannelMachine) (c : Call) : Prop :=
  (c.Advances m → m.buffered = none) ∧
  ∀ message next ctx s, c = .receiveUpdate message next ctx →
    m.judgeUpdate message ctx = .ok (.accept s) → ∃ c, m.theirCommitment message.n s = .ok c

theorem judgeUpdate_buffer {m : ChannelMachine} {message : UpdateMessage} {ctx : Context}
    (h : m.judgeUpdate message ctx = .ok .buffer) :
    message.id = m.id ∧ message.n = m.stateNumber + 1 := by
  unfold ChannelMachine.judgeUpdate at h
  obtain ⟨_, -, h⟩ := Res.bind_eq_ok.mp h
  obtain ⟨_, hid, h⟩ := Res.bind_eq_ok.mp h
  split at h
  · cases h
  obtain ⟨_, -, h⟩ := Res.bind_eq_ok.mp h
  split at h
  · obtain ⟨_, -, h⟩ := Res.bind_eq_ok.mp h
    obtain ⟨_, -, h⟩ := Res.bind_eq_ok.mp h
    cases h
  split at h
  · cases h
  obtain ⟨_, hn, h⟩ := Res.bind_eq_ok.mp h
  rw [Res.refuseIf_eq_ok] at hid hn
  exact ⟨by simpa using hid, by simpa using hn⟩

/-- A move that stays at the agreed state keeps what is held back in its place. -/
theorem Move.buffered {m m' : ChannelMachine} (h : Move named m m')
    (hn : m'.stateNumber = m.stateNumber) (hm : Buffered m) : Buffered m' := by
  have hsame : m'.id = m.id := by
    have hterms := h.terms
    unfold ChannelMachine.terms at hterms
    simp only [Prod.mk.injEq] at hterms
    exact hterms.2.2.1
  have hkept : m'.buffered = m.buffered → Buffered m' := by
    intro hb
    unfold Buffered
    rw [hb, hsame, hn]
    exact hm
  cases h with
  | quiet hq => exact hkept (hq.field ChannelMachine.buffered)
  | accept next hj =>
    refine hkept ?_
    unfold accepted
    dsimp only
    rw [dropPending_frame]
  | buffer hj =>
    intro b hb
    cases hb
    exact judgeUpdate_buffer hj
  | unbuffer ha => exact fun b hb => by cases hb
  | agree hj =>
    refine hkept ?_
    unfold agreed
    dsimp only
    rw [takeTheirReveal_frame]
  | adopt hp hn hj =>
    refine hkept ?_
    unfold agreed
    dsimp only
    rw [takeTheirReveal_frame]
    rfl
  | drop why =>
    refine hkept ?_
    rw [dropPending_frame]
  | reveal index reveal =>
    refine hkept ?_
    rw [takeTheirReveal_frame]
  | force why hn' hlive htx => exact fun b hb => by cases hb
  | _ => exact hkept rfl

theorem Move.stateNumber_mono {m m' : ChannelMachine} (h : Move named m m')
    (hnext : m.PendingNext) : m.stateNumber ≤ m'.stateNumber := by
  cases h with
  | quiet hq => exact (hq.field ChannelMachine.stateNumber).ge
  | accept next hj =>
    have hn := (judgeUpdate_accept hj).2.2.1
    change m.stateNumber ≤ UpdateMessage.n _
    omega
  | agree hj =>
    obtain ⟨-, hp, hn, -⟩ := judgeAck_agree hj
    have hpn := hnext _ hp
    change m.stateNumber ≤ AckMessage.n _
    omega
  | adopt hp hn hj =>
    change m.stateNumber ≤ AckMessage.n _
    omega
  | drop why => exact (dropPending_stateNumber why).ge
  | reveal index reveal =>
    rw [takeTheirReveal_frame]
  | force why hn hlive htx => exact (dropPending_stateNumber why).ge
  | _ => exact le_rfl

/-- Moves that end at the agreed state they start at stay at it throughout. -/
theorem Moves.steady {P : ChannelMachine → Prop} {m m' : ChannelMachine} (h : Moves named m m')
    (hnext : m.PendingNext) (hn : m'.stateNumber = m.stateNumber)
    (step : ∀ {a b}, Move named a b → b.stateNumber = a.stateNumber → a.PendingNext → P a → P b)
    (hm : P m) : P m' := by
  have hall := h.run_ind
    (P := fun a => m.stateNumber ≤ a.stateNumber ∧ (a.stateNumber = m.stateNumber → P a))
    (fun {a b} hab hnexta ha => by
      have hle := hab.stateNumber_mono hnexta
      refine ⟨ha.1.trans hle, fun hb => ?_⟩
      have hsame : a.stateNumber = m.stateNumber := le_antisymm (hle.trans hb.le) ha.1
      exact step hab (hb.trans hsame.symm) hnexta (ha.2 hsame)) hnext ⟨le_rfl, fun _ => hm⟩
  exact hall.1.2 hn

theorem machine_built {o : Opened}
    (hzero : ∃ c, o.machine.theirCommitment 0 o.initialState = .ok c) {m : ChannelMachine}
    (hnew : ChannelMachine.new o = .ok m) : Built o.machine := by
  unfold ChannelMachine.new at hnew
  obtain ⟨_, -, hnew⟩ := Res.bind_eq_ok.mp hnew
  obtain ⟨initial, hinitial, hnew⟩ := Res.bind_eq_ok.mp hnew
  obtain ⟨_, hsig, -⟩ := Res.bind_eq_ok.mp hnew
  rw [Res.refuseIf_eq_ok] at hsig
  have hstate : ∀ k s, o.machine.states.lookup k = some s → k = 0 ∧ s = o.initialState := by
    intro k s hs
    unfold Opened.machine at hs
    dsimp only at hs
    by_cases hk : k = 0
    · rw [hk, Finmap.lookup_insert, Option.some.injEq] at hs
      exact ⟨hk, hs.symm⟩
    · rw [Finmap.lookup_insert_of_ne _ hk, Finmap.lookup_empty] at hs
      cases hs
  have htwo : ∀ {α : Type} (a b : α) (k : ℕ), k ≤ 1 →
      ((((∅ : Map ℕ α).insert 0 a).insert 1 b).lookup k).isSome = true := by
    intro α a b k hk
    rcases Nat.le_one_iff_eq_zero_or_eq_one.mp hk with rfl | rfl
    · rw [Finmap.lookup_insert_of_ne _ Nat.zero_ne_one, Finmap.lookup_insert]
      rfl
    · rw [Finmap.lookup_insert]
      rfl
  refine ⟨fun k hk => htwo _ _ k hk, fun k hk => htwo _ _ k hk, fun k s hs => ?_,
    fun k alt halt => ?_, fun k s _ hs => ?_, fun p hp => ?_⟩
  · obtain ⟨rfl, rfl⟩ := hstate k s hs
    exact hzero
  · unfold alternativesAt Opened.machine at halt
    dsimp only at halt
    rw [Finmap.lookup_empty] at halt
    cases halt
  · obtain ⟨rfl, rfl⟩ := hstate k s hs
    unfold myCommitment ChannelMachine.state at hinitial
    rw [hs, Res.okOr_some, Res.ok_bind] at hinitial
    refine ⟨initial, o.theirSignatureZero, hinitial, ?_, by simpa using hsig⟩
    unfold Opened.machine
    dsimp only
    rw [Finmap.lookup_insert]
  · cases hp

/-- What every move of a run keeps. -/
structure Sound (m : ChannelMachine) : Prop where
  points : PointsMatch m
  present : Present m
  conserved : Conserved m
  recorded : Recorded m
  placed : Placed m

theorem Move.sound {m m' : ChannelMachine} (h : Move named m m') (hnext : m.PendingNext)
    (hm : Sound m) : Sound m' where
  points := h.points hnext hm.points
  present := h.present hnext hm.present
  conserved := h.conserved hnext hm.conserved
  recorded := h.recorded hm.recorded
  placed := h.placed hnext hm.placed

theorem Run.sound {ok : ChannelMachine → Call → Prop} {o : Opened} {m : ChannelMachine}
    {log : List Done} (h : Run ok o m log) : Sound m :=
  h.ind (fun _ _ => trivial) (fun hv => ⟨machine_points o, (machine_tracked o : Tracked True _).present,
      machine_conserved hv, machine_recorded o, machine_placed o⟩)
    fun (hab : Move True _ _) hnext ha => hab.sound hnext ha

theorem accepted_buffered {m : ChannelMachine} (message : UpdateMessage) (s : ProtocolState)
    (next : SecretKey) (ctx : Context) : (m.accepted message s next ctx).buffered = m.buffered := by
  unfold accepted
  dsimp only
  rw [dropPending_frame]

theorem agreed_buffered {m : ChannelMachine} (message : AckMessage) (s : ProtocolState)
    (update : Update) : (m.agreed message s update).buffered = m.buffered := by
  unfold agreed
  dsimp only
  rw [takeTheirReveal_frame]

/-- A call that moves on with nothing held back leaves nothing held back. -/
theorem Call.unbuffered {m m' : ChannelMachine} {c : Call} {out : Emitted}
    (h : c.run m = some (m', out)) (hc : c.Advances m) (hnone : m.buffered = none) :
    m'.buffered = none := by
  cases c with
  | receiveUpdate message next ctx =>
    cases h
    obtain ⟨s, hj⟩ := hc
    unfold ChannelMachine.receiveUpdate
    rw [hj]
    exact (accepted_buffered message s next ctx).trans hnone
  | receiveAck message =>
    cases h
    have hadopt : ∀ {m : ChannelMachine}, m.buffered = none →
        (m.adoptAlternative message).1.buffered = none := by
      intro m hnone
      unfold adoptAlternative
      split
      · exact hnone
      · exact hnone
      · rename_i index alt _
        exact (agreed_buffered message alt.state alt.update).trans hnone
    unfold ChannelMachine.receiveAck
    split
    · exact hnone
    · exact hnone
    · exact hadopt hnone
    · refine (announceDropped_quiet.field ChannelMachine.buffered).trans (hadopt ?_)
      rw [dropPending_frame]
      exact hnone
    · rename_i pending s _
      exact (agreed_buffered message s pending.update).trans hnone
  | _ => cases hc

/-- What is held back stays in its place over a call of the run. -/
theorem Call.buffered {m m' : ChannelMachine} {c : Call} {out : Emitted} (hnext : m.PendingNext)
    (hch : m.Rebuilds) (hok : Unbuffered m c) (h : c.run m = some (m', out)) (hm : Buffered m) :
    Buffered m' := by
  by_cases hc : c.Advances m
  · intro b hb
    rw [c.unbuffered h hc (hok.1 hc)] at hb
    cases hb
  · have hmoves : Moves True m m' := run_moves hnext hch (fun _ => trivial) h
    exact hmoves.steady hnext (c.stateNumber hch h hc) (fun hab hn _ ha => hab.buffered hn ha) hm

section

variable (hverify : ∀ tx prevouts leafHash key rules aux sig,
  Hitch.signLeaf tx prevouts leafHash key rules aux = some sig →
  Hitch.verifyLeafSignature tx prevouts leafHash (Hitch.public key) sig rules = true)

include hverify

/-- What is built with, over moves that accept no update. -/
theorem Moves.built {m m' : ChannelMachine} (h : Moves named m m') (hnext : m.PendingNext)
    (hn : m'.stateNumber = m.stateNumber) (hkey : Hitch.public m.channelKey = m.myKey)
    (hpoints : PointsMatch m) (hm : Built m) : Built m' := by
  have hall := h.steady (P := fun a => Built a ∧ PointsMatch a ∧ a.terms = m.terms) hnext hn
    (fun {a b} hab hsame hnexta ha => by
      refine ⟨hab.built hnexta ha.2.1 hverify ?_ hsame ha.1,
        hab.points hnexta ha.2.1, hab.terms.trans ha.2.2⟩
      have hterms := ha.2.2
      unfold ChannelMachine.terms at hterms
      simp only [Prod.mk.injEq] at hterms
      obtain ⟨hchannel, hrole, -, hkeys, -⟩ := hterms
      unfold myKey at hkey ⊢
      rw [hchannel, hrole, hkeys]
      exact hkey) ⟨hm, hpoints, rfl⟩
  exact hall.1

theorem Call.built {m m' : ChannelMachine} {c : Call} {out : Emitted} (hnext : m.PendingNext)
    (hch : m.Rebuilds) (hkey : Hitch.public m.channelKey = m.myKey) (hpoints : PointsMatch m)
    (hok : ∀ message next ctx s, c = .receiveUpdate message next ctx →
      m.judgeUpdate message ctx = .ok (.accept s) → ∃ c, m.theirCommitment message.n s = .ok c)
    (h : c.run m = some (m', out)) (hm : Built m) : Built m' := by
  by_cases hc : c.Advances m
  · cases c with
    | receiveUpdate message next ctx =>
      cases h
      obtain ⟨s, hj⟩ := hc
      unfold ChannelMachine.receiveUpdate
      rw [hj]
      exact accepted_built hnext hpoints hm next hj (hok message next ctx s rfl hj)
    | receiveAck message =>
      cases h
      have hadopt : ∀ {a : ChannelMachine}, a.PendingNext → PointsMatch a → Built a →
          a.pending = none → message.n = a.stateNumber + 1 →
          Built (a.adoptAlternative message).1 := by
        intro a hnexta hpointsa ha hp hn
        unfold adoptAlternative
        split
        · exact ha
        · exact ha
        · rename_i hj
          exact (pushEvents_quiet _).built (adopt_built hnexta hpointsa ha hp hn hj)
      unfold ChannelMachine.receiveAck
      split
      · exact hm
      · exact hm
      · rename_i hj
        obtain ⟨hp, hn⟩ := judgeAck_adopt hj
        exact hadopt hnext hpoints hm hp hn
      · rename_i hj
        obtain ⟨p, hp, hn⟩ := judgeAck_earlier hj
        refine announceDropped_quiet.built (hadopt ?_ ?_ (dropPending_built _ hm)
          (dropPending_pending _) ?_)
        · exact pendingNext_of_none (dropPending_pending _)
        · exact Move.points (.drop _ : Move True m _) hnext hpoints
        · rw [dropPending_stateNumber, ← hn, hnext p hp]
      · rename_i hj
        exact (pushEvents_quiet _).built (agree_built hnext hpoints hm hj)
    | _ => cases hc
  · have hmoves : Moves True m m' := run_moves hnext hch (fun _ => trivial) h
    exact hmoves.built hverify hnext (c.stateNumber hch h hc) hkey hpoints hm

/-- **A saved channel restores, while nothing is held back as the agreed state
moves on.** Over such a run, the snapshot of the machine restores to it, less
its events and the record of a peer far ahead. -/
theorem snapshot_restores {o : Opened}
    (hzero : ∃ c, o.machine.theirCommitment 0 o.initialState = .ok c) {m : ChannelMachine}
    {log : List Done} (hrun : Run Unbuffered o m log) :
    restore m.snapshot = .ok { m with events := [], peerAhead := none } := by
  have hkept : Built m ∧ Buffered m := by
    induction hrun with
    | start hv hnew =>
      have hbuilt := machine_built hzero hnew
      unfold ChannelMachine.new at hnew
      obtain ⟨_, -, hnew⟩ := Res.bind_eq_ok.mp hnew
      obtain ⟨_, -, hnew⟩ := Res.bind_eq_ok.mp hnew
      obtain ⟨_, -, hnew⟩ := Res.bind_eq_ok.mp hnew
      cases hnew
      exact ⟨hbuilt, fun b hb => by cases hb⟩
    | call c hrun hok hc ih =>
      obtain ⟨hnext, -, hch⟩ := hrun.kept
      obtain ⟨hbuilt, hbuffered⟩ := ih
      exact ⟨c.built hverify hnext hch hrun.public_key hrun.sound.points hok.2 hc hbuilt,
        c.buffered hnext hch hok hc hbuffered⟩
  obtain ⟨hnext, hterms, hch⟩ := hrun.kept
  have hsound := hrun.sound
  have hid : m.id = channelIdOf m.channel.fundingOutpoint.txid := by
    unfold ChannelMachine.terms at hterms
    simp only [Prod.mk.injEq] at hterms
    obtain ⟨hchannel, -, hid, -⟩ := hterms
    rw [hid, hchannel]
    exact hrun.valid.id
  exact restore_ok ⟨hid, hrun.public_key, hch, hsound.points, hsound.conserved, hsound.recorded,
    hsound.placed, hkept.1, hkept.2⟩ hnext hsound.present

end

end

attribute [local instance] sampleHitch

/-- The second update of side A's, after the first is acknowledged. -/
def secondSent : List PeerMessage :=
  lastSent (sampleRunOf .a (ackedCalls ++ [.pay 1000 none (sampleSecret 24) (sampleContext 102)]))

/-- A message as an update received. -/
def receiveOf (next : SecretKey) (height : ℕ) : PeerMessage → List Call
  | .update u => [.receiveUpdate u next (sampleContext height)]
  | _ => []

theorem next_ne_zero : (BitVec.ofNat 256 33 != 0) = true := by decide

/-- Side B holds the second update back, learns of the first's revocation by a
sync, and receives the second update again. -/
def heldCalls : List Call :=
  .confirmFunding 100 :: (lastSent (sampleRunOf .a payCalls)).flatMap (receiveOf (sampleSecret 33 next_ne_zero) 101) ++
    secondSent.flatMap (receiveOf (sampleSecret 34) 102) ++
    [.receiveSync ⟨.sync, channelIdOf sampleChannel.fundingOutpoint.txid, 1, none, none, some 21, [],
      none⟩ (sampleContext 103)] ++
    secondSent.flatMap (receiveOf (sampleSecret 34) 104)

set_option maxRecDepth 100000 in
theorem heldCalls_held : (sampleRunOf .b heldCalls).map (fun r =>
    (r.1.stateNumber, r.1.buffered.map UpdateMessage.n)) = some (2, some 2) := by
  decide +kernel

/-- A run whose snapshot does not restore: side B holds the second update back
and then accepts it. -/
theorem snapshot_lost : ¬ ∀ m log, Run (fun _ _ => True) (sampleOpened .b) m log →
    ∃ m', restore m.snapshot = .ok m' := by
  intro hall
  have hheld := heldCalls_held
  rw [Option.map_eq_some_iff] at hheld
  obtain ⟨⟨m, log⟩, hr, hheld⟩ := hheld
  rw [Prod.mk.injEq, Option.map_eq_some_iff] at hheld
  obtain ⟨hn, b, hb, hbn⟩ := hheld
  have hrun : Run (fun _ _ => True) (sampleOpened .b) m log :=
    run_of_sample (fun _ _ _ => trivial) hr
  obtain ⟨m', hm'⟩ := hall m log hrun
  have hnext := restore_buffered hm' b hb
  dsimp only at hn hbn
  rw [hbn, hn] at hnext
  cases hnext

set_option maxRecDepth 100000 in
theorem payCalls_runs : (sampleRunOf .a payCalls).isSome = true := by
  decide +kernel

theorem sampleOpened_theirs :
    (theirsOf (sampleOpened .a).machine 0 (sampleOpened .a).initialState).isSome = true := by
  decide +kernel

theorem snapshot_restores_sample : ∃ m log, Run Unbuffered (sampleOpened .a) m log ∧
    restore m.snapshot = .ok { m with events := [], peerAhead := none } := by
  obtain ⟨⟨m, log⟩, hr⟩ := Option.isSome_iff_exists.mp payCalls_runs
  have hrun : Run Unbuffered (sampleOpened .a) m log := by
    refine run_of_sample (fun c hc m => ?_) hr
    unfold payCalls at hc
    simp only [List.mem_cons, List.not_mem_nil, or_false] at hc
    rcases hc with rfl | rfl <;> exact ⟨fun h => h.elim, fun _ _ _ _ h => by cases h⟩
  obtain ⟨c, hc, -⟩ := theirsOf_eq_some (Option.eq_some_of_isSome sampleOpened_theirs)
  have hverify : ∀ tx prevouts leafHash key rules aux sig,
      Hitch.signLeaf tx prevouts leafHash key rules aux = some sig →
      Hitch.verifyLeafSignature tx prevouts leafHash (Hitch.public key) sig rules = true := by
    intro tx prevouts leafHash key rules aux sig h
    cases h
    exact beq_self_eq_true _
  exact ⟨m, log, hrun, snapshot_restores hverify ⟨c, hc⟩ hrun⟩

end Hitch

end Sidestr
