/-
# Every spend this peer signed is recognised

A signature of this peer's leaves it in an update, an acknowledgement, the
opening commit or a close, and its transactions leave it as closes. Whatever
happens afterwards, a spend of the funding output that carries one of them is
recognised when it is first seen: as the cooperative close, as this peer's own
commitment, or as the other side's at a state, revoked exactly when that
state's secret is held, and then every output worth it is claimed.

A spend that was seen before keeps the kind it was recorded with.

Key definitions: `Lawful`, `SignatureOut`, `Punishes`, `Classified`.
Key theorems: `Call.signsIn`, `Run.tracked`, `spend_recognised`.
-/
import Sidestr.Hitch.Signed

namespace Sidestr

namespace Hitch

/-- The signature of the sender's on a spend of the funding output. -/
def PeerMessage.fundingSig : PeerMessage → Option Sig
  | .update m => some m.sig
  | .ack m => some m.sig
  | .commit m => some m.sig
  | .close m => some m.sig
  | _ => none

section

variable [Hitch] {named : Prop}

open ChannelMachine

/-- What is taken of the curve, the signatures and the transaction ids. -/
structure Lawful [Hitch] : Prop where
  /-- A sum of two secrets fails only where that of their points does. -/
  keys : ∀ r b : SecretKey, Hitch.revocationKey b r = none →
    Hitch.revocationPub (Hitch.public r) b = none
  /-- An id does not read the witness. -/
  witness : ∀ tx w, Bitcoin.computeTxid (withWitness tx w) = Bitcoin.computeTxid tx
  /-- A signature verifies on the transaction it was made on and no other. -/
  binds : ∀ tx tx' prevouts leafHash key rules aux sig,
    Hitch.signLeaf tx prevouts leafHash key rules aux = some sig →
    Hitch.verifyLeafSignature tx' prevouts leafHash (Hitch.public key) sig rules = true →
    Bitcoin.computeTxid tx' = Bitcoin.computeTxid tx
  /-- A transaction of one input can be signed with the output it spends. -/
  signs : ∀ tx prevout leafHash key rules aux, tx.input.length = 1 →
    (Hitch.signLeaf tx [prevout] leafHash key rules aux).isSome = true

/-! ### What a call signs -/

namespace ChannelMachine

variable {m : ChannelMachine}

/-- The signature a message carries is on a recognised spend. -/
def SignsIn (m : ChannelMachine) (message : PeerMessage) : Prop :=
  ∀ sig, message.fundingSig = some sig → m.SignedFor sig

theorem signsIn_of_none {message : PeerMessage} (h : message.fundingSig = none) :
    m.SignsIn message := by
  intro sig hsig
  rw [h] at hsig
  cases hsig

theorem SignsIn.moves (hlaw : Lawful) {m' : ChannelMachine} {message : PeerMessage}
    (h : m.SignsIn message) (hm : Tracked named m) (hmoves : Moves named m m') :
    m'.SignsIn message :=
  fun sig hsig => (hmoves.tracked hlaw.keys hlaw.witness hm).2.2 sig (h sig hsig)

theorem pending_signsIn (hm : Tracked named m) {p : PendingUpdate} (hp : m.pending = some p) :
    m.SignsIn (.update p.message) := by
  intro sig hsig
  cases hsig
  exact hm.pending p hp

theorem acknowledgement_signsIn {ctx : Context} {ack : AckMessage}
    (h : m.acknowledgement ctx = .ok (some ack)) : m.SignsIn (.ack ack) := by
  unfold acknowledgement at h
  dsimp only at h
  split at h
  · cases h
  split at h
  · cases h
  obtain ⟨s, hs, h⟩ := Res.bind_eq_ok.mp h
  obtain ⟨c, hc, h⟩ := Res.bind_eq_ok.mp h
  obtain ⟨sig, hsig, h⟩ := Res.bind_eq_ok.mp h
  obtain ⟨next, -, h⟩ := Res.bind_eq_ok.mp h
  split at h
  · cases h
  · cases h
    intro sig' hsig'
    cases hsig'
    unfold ChannelMachine.state at hs
    rw [Res.okOr_eq_ok] at hs
    exact signedFor_commitment (.inl ⟨le_rfl, hs⟩) hc hsig

theorem closeMessage_signsIn (hm : Closes m) {ctx : Context} {message : CloseMessage}
    (h : m.closeMessage ctx = .ok message) (hcoop : m.coopTxid.isSome = true) :
    m.SignsIn (.close message) := by
  unfold closeMessage at h
  obtain ⟨tx, htx, h⟩ := Res.bind_eq_ok.mp h
  obtain ⟨sig, hsig, h⟩ := Res.bind_eq_ok.mp h
  cases h
  intro sig' hsig'
  cases hsig'
  obtain ⟨t, ht⟩ := Option.isSome_iff_exists.mp hcoop
  obtain ⟨tx', htx', rfl⟩ := hm.coop t ht
  rw [htx] at htx'
  cases htx'
  exact ⟨tx, ctx.aux, signFunding_ok hsig, .inl ht⟩

theorem propose_pending {update : Update} {next : SecretKey} {ctx : Context}
    {message : UpdateMessage} (h : (m.propose update next ctx).2 = .ok message) :
    ∃ p, (m.propose update next ctx).1.pending = some p ∧ p.message = message := by
  unfold propose at h ⊢
  split at h
  · cases h
    exact ⟨_, rfl, rfl⟩
  · cases h
  · cases h

theorem pay_pending {amount : ℕ} {memo : Option Text} {next : SecretKey} {ctx : Context}
    {message : UpdateMessage} (h : (m.pay amount memo next ctx).2 = .ok message) :
    ∃ p, (m.pay amount memo next ctx).1.pending = some p ∧ p.message = message := by
  unfold pay at h ⊢
  split_ifs at h ⊢
  exact propose_pending h

theorem addHtlc_pending {amount : ℕ} {hash : Hash256} {expiry : ℕ} {route : Option Point}
    {memo : Option Text} {next : SecretKey} {ctx : Context} {message : UpdateMessage}
    (h : (m.addHtlc amount hash expiry route memo next ctx).2 = .ok message) :
    ∃ p, (m.addHtlc amount hash expiry route memo next ctx).1.pending = some p ∧
      p.message = message := by
  unfold addHtlc at h ⊢
  split_ifs at h ⊢
  exact propose_pending h

theorem resendUpdate_pending {ctx : Context} {u : UpdateMessage}
    (h : (m.resendUpdate ctx).2 = some u) :
    ∃ p, (m.resendUpdate ctx).1.pending = some p ∧ p.message = u := by
  unfold resendUpdate at h ⊢
  split at h
  · cases h
  · cases h
    exact ⟨_, rfl, rfl⟩

theorem closeChannel_signsIn {ctx : Context} {message : CloseMessage}
    (h : (m.closeChannel ctx).2 = .ok message) (hm : Tracked named (m.closeChannel ctx).1) :
    (m.closeChannel ctx).1.SignsIn (.close message) := by
  have hsame : (m.closeChannel ctx).1.closeMessage ctx = .ok message ∧
      (m.closeChannel ctx).1.coopTxid.isSome = true := by
    unfold closeChannel at h ⊢
    dsimp only at h ⊢
    split at h
    · cases h
    · cases h
    · rename_i message' tx hchecks
      cases h
      obtain ⟨_, -, hchecks⟩ := Res.bind_eq_ok.mp hchecks
      obtain ⟨_, -, hchecks⟩ := Res.bind_eq_ok.mp hchecks
      obtain ⟨message'', hmessage, hchecks⟩ := Res.bind_eq_ok.mp hchecks
      obtain ⟨tx', -, hchecks⟩ := Res.bind_eq_ok.mp hchecks
      cases hchecks
      exact ⟨hmessage, rfl⟩
  exact closeMessage_signsIn hm.closes hsame.1 hsame.2

theorem receiveUpdate_signsIn {message : UpdateMessage} {next : SecretKey} {ctx : Context} {answer : ReceiveUpdate}
    (h : (m.receiveUpdate message next ctx).2 = .ok answer) :
    ∀ reply ∈ answer.messages, (m.receiveUpdate message next ctx).1.SignsIn reply := by
  unfold receiveUpdate at h ⊢
  split at h
  · cases h
  · cases h
  · rename_i hj
    cases h
    intro reply hreply
    rcases judgeUpdate_answer hj with ⟨ack, hack, rfl⟩ | ⟨r, hr⟩
    · unfold ReceiveUpdate.messages at hreply
      rw [List.mem_singleton] at hreply
      rw [hreply]
      exact acknowledgement_signsIn hack
    · rw [hr, List.mem_singleton] at hreply
      rw [hreply]
      exact signsIn_of_none rfl
  · cases h
    exact fun reply hreply => by cases hreply
  · obtain ⟨ack, hack, h⟩ := Res.bind_eq_ok.mp h
    obtain ⟨ack', hack', h⟩ := Res.bind_eq_ok.mp h
    rw [Res.okOr_eq_ok] at hack'
    cases h
    intro reply hreply
    unfold ReceiveUpdate.messages at hreply
    rw [List.mem_singleton] at hreply
    rw [hreply]
    rw [hack'] at hack
    exact acknowledgement_signsIn hack

theorem reconcile_signsIn (hlaw : Lawful) (hm : Tracked named m) {message : SyncMessage}
    {ctx : Context} {replies : List PeerMessage}
    (h : (m.reconcile message ctx).2 = .ok replies) :
    ∀ reply ∈ replies, (m.reconcile message ctx).1.SignsIn reply := by
  have hmoves : Moves named m (m.reconcile message ctx).1 := reconcile_moves message ctx
  have htracked := (hmoves.tracked hlaw.keys hlaw.witness hm).1
  have hclose : ∀ {close : List PeerMessage} {P : Prop} [Decidable P],
      (if m.status = .closingAsked ∧ P then do
          let c ← m.closeMessage ctx
          .ok [.close c]
        else .ok [] : Res ProtocolError (List PeerMessage)) = .ok close →
      ∀ reply ∈ close, m.SignsIn reply := by
    intro close P _ hc reply hreply
    split at hc
    · rename_i hasked
      obtain ⟨c, hmessage, hc⟩ := Res.bind_eq_ok.mp hc
      cases hc
      rw [List.mem_singleton] at hreply
      rw [hreply]
      exact closeMessage_signsIn hm.closes hmessage (hm.closes.asked hasked.1)
    · cases hc
      cases hreply
  rcases hr : m.reconcile message ctx with ⟨m', r⟩
  rw [hr] at h hmoves htracked
  dsimp only at h hmoves htracked ⊢
  subst h
  -- an update sent again is the pending one after
  have hupdate : ∀ {close : List PeerMessage} {u : Option UpdateMessage},
      (∀ reply ∈ close, m.SignsIn reply) → m.resendUpdate ctx = (m', u) →
      ∀ reply ∈ close ++ (u.map PeerMessage.update).toList, m'.SignsIn reply := by
    intro close u hc heq reply hreply
    rcases List.mem_append.mp hreply with hreply | hreply
    · exact (hc reply hreply).moves hlaw hm hmoves
    · rw [Option.mem_toList, Option.map_eq_some_iff] at hreply
      obtain ⟨message', hu, rfl⟩ := hreply
      have hresend : (m.resendUpdate ctx).2 = some message' := by rw [heq, hu]
      obtain ⟨p, hp, rfl⟩ := resendUpdate_pending hresend
      rw [heq] at hp
      exact pending_signsIn htracked hp
  have hkeep : ∀ {close : List PeerMessage}, (∀ reply ∈ close, m.SignsIn reply) →
      ∀ reply ∈ close, m'.SignsIn reply :=
    fun hc reply hreply => (hc reply hreply).moves hlaw hm hmoves
  clear htracked
  unfold reconcile at hr
  dsimp only at hr
  split at hr
  · rename_i hfunding
    rw [Prod.mk.injEq] at hr
    obtain ⟨rfl, hr⟩ := hr
    split at hr
    · obtain ⟨s, hs, hr⟩ := Res.bind_eq_ok.mp hr
      obtain ⟨c, hc, hr⟩ := Res.bind_eq_ok.mp hr
      obtain ⟨sig, hsig, hr⟩ := Res.bind_eq_ok.mp hr
      cases hr
      intro reply hreply
      rw [List.mem_singleton] at hreply
      rw [hreply]
      intro sig' hsig'
      cases hsig'
      unfold ChannelMachine.state at hs
      rw [Res.okOr_eq_ok] at hs
      refine signedFor_commitment (.inl ⟨Nat.zero_le _, hs⟩) ?_ hsig
      unfold theirCommitment
      rw [hfunding.2]
      exact hc
    · cases hr
      exact fun reply hreply => by cases hreply
  split at hr
  · rw [Prod.mk.injEq] at hr
    obtain ⟨rfl, hr⟩ := hr
    cases hr
    intro reply hreply
    split at hreply
    · rw [List.mem_singleton] at hreply
      rw [hreply]
      exact signsIn_of_none rfl
    · cases hreply
  split at hr
  · cases hr
  · cases hr
  rename_i close hc
  have hc := hclose hc
  split at hr
  · cases hr
    exact hc
  split at hr
  · split at hr
    · cases hr
      exact hupdate hc rfl
    · split at hr
      · split at hr
        · cases hr
          exact hkeep hc
        · cases hr
          exact hupdate hc rfl
      · cases hr
        exact hc
    · cases hr
      exact hc
  split at hr
  · rw [Prod.mk.injEq] at hr
    obtain ⟨rfl, hr⟩ := hr
    obtain ⟨ack, hack, hr⟩ := Res.bind_eq_ok.mp hr
    cases hr
    intro reply hreply
    rcases List.mem_append.mp hreply with hreply | hreply
    · exact hc reply hreply
    · rw [Option.mem_toList, Option.map_eq_some_iff] at hreply
      obtain ⟨a, rfl, rfl⟩ := hreply
      exact acknowledgement_signsIn hack
  split at hr
  · cases hr
    exact hc
  split at hr
  · cases hr
    exact hkeep hc
  · cases hr
    exact hc

theorem receiveSync_signsIn (hlaw : Lawful) (hm : Tracked named m) {message : SyncMessage}
    {ctx : Context} {outcome : SyncOutcome} (h : (m.receiveSync message ctx).2 = .ok outcome) :
    ∀ reply ∈ outcome.replies, (m.receiveSync message ctx).1.SignsIn reply := by
  have hmoves : Moves named m (m.takeReveals message).finalise.1 :=
    (takeReveals_moves message).trans finalise_moves
  have hm' := (hmoves.tracked hlaw.keys hlaw.witness hm).1
  unfold receiveSync at h ⊢
  dsimp only at h ⊢
  split at h
  · cases h
  · cases h
  obtain ⟨replies, hreplies, h⟩ := Res.bind_eq_ok.mp h
  cases h
  intro reply hreply
  rcases List.mem_append.mp hreply with hreply | hreply
  · split at hreply
    · rw [List.mem_singleton] at hreply
      rw [hreply]
      exact signsIn_of_none rfl
    · cases hreply
  · exact reconcile_signsIn hlaw hm' hreplies reply hreply

/-- What a tick sends is a resync or the pending update, both of the tick's step on it. -/
theorem tickPending_signsIn (hm : Tracked named m) (hlaw : Lawful) {ctx : Context}
    {pendingTimeout : ℕ} : ∀ message ∈ (m.tickPending ctx pendingTimeout).2.flatMap
      TickAction.messages, (m.tickPending ctx pendingTimeout).1.SignsIn message := by
  have hmoves : Moves named m (m.tickPending ctx pendingTimeout).1 :=
    tickPending_moves ctx pendingTimeout
  have htracked := (hmoves.tracked hlaw.keys hlaw.witness hm).1
  unfold tickPending at htracked ⊢
  split
  · exact fun message h => by cases h
  rename_i pending hpending
  simp only [hpending] at htracked
  dsimp only at htracked ⊢
  split_ifs at htracked ⊢
  · exact fun message h => by cases h
  · intro message h
    rw [List.flatMap_append, List.mem_append, List.mem_flatMap, List.mem_flatMap] at h
    rcases h with ⟨action, haction, h⟩ | ⟨action, haction, h⟩
    · rw [Option.mem_toList, Option.map_eq_some_iff] at haction
      obtain ⟨s, -, rfl⟩ := haction
      unfold TickAction.messages at h
      rw [List.mem_singleton] at h
      rw [h]
      exact signsIn_of_none rfl
    · rw [Option.mem_toList, Option.map_eq_some_iff] at haction
      obtain ⟨u, hu, rfl⟩ := haction
      unfold TickAction.messages at h
      rw [List.mem_singleton] at h
      rw [h]
      obtain ⟨p, hp, rfl⟩ := resendUpdate_pending hu
      exact pending_signsIn htracked hp
  · exact fun message h => by cases h

theorem tickResync_signsIn {ctx : Context} {m' : ChannelMachine} :
    ∀ message ∈ (m.tickResync ctx).2.flatMap TickAction.messages, m'.SignsIn message := by
  unfold tickResync
  split_ifs
  · intro message h
    obtain ⟨action, haction, h⟩ := List.mem_flatMap.mp h
    rw [Option.mem_toList, Option.map_eq_some_iff] at haction
    obtain ⟨s, -, rfl⟩ := haction
    unfold TickAction.messages at h
    rw [List.mem_singleton] at h
    rw [h]
    exact signsIn_of_none rfl
  · exact fun message h => by cases h

theorem tick_signsIn (hlaw : Lawful) (hm : Tracked named m) {ctx : Context} {pendingTimeout : ℕ} :
    ∀ message ∈ (m.tick ctx pendingTimeout).2.flatMap TickAction.messages,
      (m.tick ctx pendingTimeout).1.SignsIn message := by
  have hnone := (rebroadcast_step (m := m) ctx).2
  have h₀ : Moves named m (m.rebroadcast ctx).1 := rebroadcast_moves ctx
  have hm₀ := (h₀.tracked hlaw.keys hlaw.witness hm).1
  have h₁ : Moves named (m.rebroadcast ctx).1 _ := tickPending_moves ctx pendingTimeout
  have hm₁ := (h₁.tracked hlaw.keys hlaw.witness hm₀).1
  have h₂ : Moves named ((m.rebroadcast ctx).1.tickPending ctx pendingTimeout).1 _ :=
    tickResync_moves ctx
  have hm₂ := (h₂.tracked hlaw.keys hlaw.witness hm₁).1
  have hout : ∀ message ∈ ((m.rebroadcast ctx).2 ++
      ((m.rebroadcast ctx).1.tickPending ctx pendingTimeout).2 ++
      (((m.rebroadcast ctx).1.tickPending ctx pendingTimeout).1.tickResync ctx).2).flatMap
        TickAction.messages,
      (((m.rebroadcast ctx).1.tickPending ctx pendingTimeout).1.tickResync ctx).1.SignsIn
        message := by
    intro message h
    rw [List.flatMap_append, List.flatMap_append, hnone, List.nil_append, List.mem_append] at h
    rcases h with h | h
    · exact (tickPending_signsIn hm₀ hlaw message h).moves hlaw hm₁ h₂
    · exact tickResync_signsIn message h
  unfold tick
  dsimp only
  split_ifs
  · intro message h
    rw [hnone] at h
    cases h
  · exact hout
  · intro message h
    rw [List.flatMap_append, (tickOpen_step ctx).2, List.append_nil] at h
    exact (hout message h).moves hlaw hm₂ (tickOpen_moves ctx)

end ChannelMachine

/-- The signatures a call sends are on spends recognised after it. -/
theorem Call.signsIn {m m' : ChannelMachine} {c : Call} {out : Emitted} (hlaw : Lawful)
    (hm : Tracked named m) (hm' : Tracked named m') (h : c.run m = some (m', out)) :
    ∀ message ∈ out.messages, m'.SignsIn message := by
  have hupdates : ∀ {m' : ChannelMachine} {r : Res ProtocolError UpdateMessage},
      Tracked named m' →
      (∀ u, r = .ok u → ∃ p, m'.pending = some p ∧ p.message = u) →
      ∀ message ∈ (okList r).map PeerMessage.update, m'.SignsIn message := by
    intro m' r hm' hr message hmem
    obtain ⟨u, hu, rfl⟩ := List.mem_map.mp hmem
    obtain ⟨p, hp, rfl⟩ := hr u (okList_eq_single hu)
    exact pending_signsIn hm' hp
  intro message hmem
  cases c with
  | propose => cases h; exact hupdates hm' (fun _ => propose_pending) _ hmem
  | pay => cases h; exact hupdates hm' (fun _ => pay_pending) _ hmem
  | addHtlc => cases h; exact hupdates hm' (fun _ => addHtlc_pending) _ hmem
  | settleHtlc => cases h; exact hupdates hm' (fun _ => propose_pending) _ hmem
  | failHtlc => cases h; exact hupdates hm' (fun _ => propose_pending) _ hmem
  | resendUpdate ctx =>
    cases h
    obtain ⟨u, hu, rfl⟩ := List.mem_map.mp hmem
    obtain ⟨p, hp, rfl⟩ := resendUpdate_pending (Option.mem_toList.mp hu)
    exact pending_signsIn hm' hp
  | receiveUpdate message next ctx =>
    cases h
    obtain ⟨answer, hanswer, hmem⟩ := List.mem_flatMap.mp hmem
    exact receiveUpdate_signsIn (okList_eq_single hanswer) _ hmem
  | receiveAck message =>
    cases h
    obtain ⟨outcome, -, rfl⟩ := List.mem_map.mp hmem
    exact signsIn_of_none rfl
  | receiveReject message ctx =>
    cases h
    obtain ⟨s, -, rfl⟩ := List.mem_map.mp hmem
    exact signsIn_of_none rfl
  | closeChannel ctx =>
    cases h
    obtain ⟨message', hmessage, rfl⟩ := List.mem_map.mp hmem
    exact closeChannel_signsIn (okList_eq_single hmessage) hm'
  | syncMessage t =>
    cases h
    rw [List.mem_singleton] at hmem
    rw [hmem]
    exact signsIn_of_none rfl
  | resync ctx force =>
    cases h
    obtain ⟨s, -, rfl⟩ := List.mem_map.mp hmem
    exact signsIn_of_none rfl
  | receiveSync message ctx =>
    cases h
    obtain ⟨outcome, houtcome, hmem⟩ := List.mem_flatMap.mp hmem
    exact receiveSync_signsIn hlaw hm (okList_eq_single houtcome) _ hmem
  | acknowledgement ctx =>
    cases h
    obtain ⟨ack, hack, rfl⟩ := List.mem_map.mp hmem
    obtain ⟨o, ho, hack⟩ := List.mem_flatMap.mp hack
    rw [Option.mem_toList] at hack
    refine acknowledgement_signsIn ((okList_eq_single ho).trans ?_)
    rw [hack]
  | tick ctx pendingTimeout =>
    cases h
    exact tick_signsIn hlaw hm _ hmem
  | restart =>
    unfold Call.run at h
    dsimp only at h
    split at h
    · cases h
      cases hmem
    · cases h
  | _ =>
    cases h
    cases hmem

theorem keeps_recognised {m : ChannelMachine} (hm : Tracked named m) {tx : Transaction}
    (h : m.Keeps tx) : m.Recognised (Bitcoin.computeTxid tx) := by
  obtain ⟨c, hc, rfl⟩ := h
  exact .inr (.inl ⟨c, hc, (hm.closes.txid c hc).symm⟩)

/-! ### A run -/

/-- A signature of this peer's that has left it: in the opening, in a message,
or on a close broadcast. -/
def SignatureOut (o : Opened) (m : ChannelMachine) (log : List Done) (sig : Sig) : Prop :=
  (∃ c aux, m.theirCommitment 0 o.initialState = .ok c ∧
    m.channel.signFunding c.tx m.channelKey m.rules aux = .ok sig) ∨
  ∃ d ∈ log, (∃ message ∈ d.2.messages, message.fundingSig = some sig) ∨
    ∃ close ∈ d.2.closes, ∃ tx aux, Bitcoin.computeTxid tx = Bitcoin.computeTxid close ∧
      m.channel.signFunding tx m.channelKey m.rules aux = .ok sig

/-- What is kept over a run. -/
structure RunTracked (o : Opened) (m : ChannelMachine) (log : List Done) : Prop where
  tracked : Tracked True m
  zero : m.Signs 0 o.initialState
  messages : ∀ d ∈ log, ∀ message ∈ d.2.messages, m.SignsIn message
  closes : ∀ d ∈ log, ∀ tx ∈ d.2.closes, m.Recognised (Bitcoin.computeTxid tx)

theorem Moves.signs {m m' : ChannelMachine} (h : Moves named m m') (hnext : m.PendingNext) {n : ℕ}
    {s : ProtocolState} (hs : m.Signs n s) : m'.Signs n s :=
  (h.run_ind (P := fun a => a.Signs n s) (fun hab hn ha => hab.signs hn ha) hnext hs).1

theorem Run.tracked {o : Opened} {m : ChannelMachine} {log : List Done} (hlaw : Lawful)
    (h : Run (fun _ _ => True) o m log) : RunTracked o m log := by
  induction h with
  | start hv hnew =>
    rename_i o m
    unfold ChannelMachine.new at hnew
    obtain ⟨_, -, hnew⟩ := Res.bind_eq_ok.mp hnew
    obtain ⟨_, -, hnew⟩ := Res.bind_eq_ok.mp hnew
    obtain ⟨_, -, hnew⟩ := Res.bind_eq_ok.mp hnew
    cases hnew
    refine ⟨machine_tracked o, .inl ⟨le_rfl, ?_⟩, by simp, by simp⟩
    unfold Opened.machine
    dsimp only
    rw [Finmap.lookup_insert]
  | call c hrun hok hc ih =>
    rename_i o m m' log out
    clear hok
    obtain ⟨hnext, -, hch⟩ := hrun.kept
    have hmoves : Moves True m m' := run_moves hnext hch (fun _ => trivial) hc
    obtain ⟨hm', hrecognised, -⟩ := hmoves.tracked hlaw.keys hlaw.witness ih.tracked
    have hcase : ∀ {P : Done → Prop}, (∀ d ∈ log, P d) → P (m', out) →
        ∀ d ∈ log ++ [(m', out)], P d := by
      intro P hold hnew d hd
      rcases List.mem_append.mp hd with hd | hd
      · exact hold d hd
      · rw [List.mem_singleton] at hd
        rw [hd]
        exact hnew
    refine ⟨hm', hmoves.signs hnext ih.zero, ?_, ?_⟩
    · refine hcase (fun d hd message hmessage => ?_) (c.signsIn hlaw ih.tracked hm' hc)
      exact (ih.messages d hd message hmessage).moves hlaw ih.tracked hmoves
    · refine hcase (fun d hd tx htx => ?_) (fun tx htx => keeps_recognised hm' (c.keeps hc tx htx))
      exact hrecognised _ (ih.closes d hd tx htx)

/-- This peer's key is its channel key's, as it was when the channel was made. -/
theorem Run.public_key {ok : ChannelMachine → Call → Prop} {o : Opened} {m : ChannelMachine}
    {log : List Done} (h : Run ok o m log) : Hitch.public m.channelKey = m.myKey := by
  have hopened : Hitch.public o.channelKey = o.channel.key o.role := by
    induction h with
    | start hv hnew =>
      unfold ChannelMachine.new at hnew
      obtain ⟨_, hkey, -⟩ := Res.bind_eq_ok.mp hnew
      rw [Res.refuseIf_eq_ok] at hkey
      simpa using hkey
    | call _ _ _ _ ih => exact ih
  have hterms := h.kept.2.1
  unfold ChannelMachine.terms at hterms
  simp only [Prod.mk.injEq] at hterms
  obtain ⟨hchannel, hrole, -, hkey, -⟩ := hterms
  unfold myKey
  rw [hchannel, hrole, hkey]
  exact hopened

/-- A spend with a signature that has left this peer is recognised. -/
theorem SignatureOut.recognised {o : Opened} {m : ChannelMachine} {log : List Done}
    (hlaw : Lawful) (hrun : Run (fun _ _ => True) o m log) {sig : Sig}
    (h : SignatureOut o m log sig) {tx : Transaction}
    (hverify : m.channel.verifyFunding tx m.myKey sig m.rules = true) :
    m.Recognised (Bitcoin.computeTxid tx) := by
  have htracked := hrun.tracked hlaw
  have hsigned : m.SignedFor sig := by
    rcases h with ⟨c, aux, hc, hsig⟩ | ⟨d, hd, ⟨message, hmessage, hsig⟩ | ⟨close, hclose, h⟩⟩
    · exact ⟨c.tx, aux, hsig, .inr (.inr ⟨0, o.initialState, c, htracked.zero, hc, rfl⟩)⟩
    · exact htracked.messages d hd message hmessage sig hsig
    · obtain ⟨tx', aux, htx', hsig⟩ := h
      exact ⟨tx', aux, hsig, htx' ▸ htracked.closes d hd close hclose⟩
  obtain ⟨tx', aux, hsig, hrecognised⟩ := hsigned
  rw [← hrun.public_key] at hverify
  unfold Channel.signFunding at hsig
  split at hsig
  · rename_i sig' hleaf
    cases hsig
    rw [hlaw.binds _ _ _ _ _ _ _ _ hleaf hverify]
    exact hrecognised
  · cases hsig

/-! ### The outputs of a commitment -/

omit [Hitch] in
theorem payTo_sats_le (value : ℕ) (script : Bytes) : (payTo value script).sats ≤ value := by
  unfold payTo TxOut.sats
  rw [UInt64.toNat_ofNat']
  exact Nat.mod_le _ _

/-- The HTLC outputs are listed where they stand, each with its HTLC's amount. -/
theorem htlcOutputs_listed {ch : Channel} {owner : Side} {revocation : Point} :
    ∀ {hs : List Htlc} {vout : ℕ} {outs : List TxOut} {infos : List CommitmentHtlc},
      ch.htlcOutputs owner revocation vout hs = .ok (outs, infos) →
      ∀ {i : ℕ} {out : TxOut}, outs[i]? = some out →
        ∃ info ∈ infos, info.vout = vout + i ∧ out.sats ≤ info.htlc.amount
  | [], vout, outs, infos, h, i, out, hout => by
    unfold Channel.htlcOutputs at h
    cases h
    cases hout
  | x :: hs, vout, outs, infos, h, i, out, hout => by
    unfold Channel.htlcOutputs at h
    split at h
    · cases h
    split at h
    · exact htlcOutputs_listed h hout
    dsimp only at h
    split at h
    · cases h
    split at h
    · cases h
    · rename_i scripts _ _ outs' infos' hrest
      cases h
      cases i with
      | zero =>
        rw [List.getElem?_cons_zero, Option.some.injEq] at hout
        refine ⟨_, List.mem_cons_self, rfl, ?_⟩
        rw [← hout]
        exact payTo_sats_le x.amount _
      | succ i =>
        obtain ⟨info, hinfo, hvout, hle⟩ := htlcOutputs_listed hrest hout
        exact ⟨info, List.mem_cons_of_mem _ hinfo, by omega, hle⟩

omit [Hitch] in
/-- Where an output of three runs of outputs stands, with its kind. -/
theorem kinds_cases {l r outs : List TxOut} {v : ℕ} {out : TxOut}
    (h : (l ++ r ++ outs)[v]? = some out) {kinds : List OutputKind}
    (hkinds : kinds = l.map (fun _ => .toLocal) ++ r.map (fun _ => .toRemote) ++
      outs.map fun _ => .htlc) :
    (l[v]? = some out ∧ kinds[v]? = some .toLocal) ∨ kinds[v]? = some .toRemote ∨
      ∃ i, v = (l ++ r).length + i ∧ outs[i]? = some out ∧ kinds[v]? = some .htlc := by
  rw [List.getElem?_append] at h
  rw [hkinds, List.getElem?_append, List.length_append, List.length_map, List.length_map]
  rw [List.length_append] at h
  split_ifs at h ⊢ with hlt
  · rw [List.getElem?_append] at h ⊢
    rw [List.length_map]
    split_ifs at h ⊢ with hl
    · exact .inl ⟨h, by rw [List.getElem?_map, h]; rfl⟩
    · exact .inr (.inl (by rw [List.getElem?_map, h]; rfl))
  · refine .inr (.inr ⟨_, ?_, h, by rw [List.getElem?_map, h]; rfl⟩)
    rw [List.length_append]
    omega

/-- An output of a kind of the owner's or of an HTLC is the one the commitment lists. -/
theorem commitment_listed {ch : Channel} {number : ℕ} {owner : Side} {s : ChannelState}
    {c : Commitment} (h : ch.commitment number owner s = .ok c) {v : ℕ} {out : TxOut}
    (hout : c.tx.output[v]? = some out) :
    (c.kinds[v]? = some .toLocal → c.toLocalVout = some v ∧ out.sats ≤ c.localValue) ∧
    (c.kinds[v]? = some .htlc → ∃ info ∈ c.htlcs, info.vout = v ∧
      out.sats ≤ info.htlc.amount) := by
  unfold Channel.commitment at h
  split at h
  · cases h
  dsimp only at h
  split at h
  · cases h
  split at h
  · cases h
  rename_i toLocal _ _ outs infos houts
  rcases ite_eq_iff.mp h with ⟨-, h⟩ | ⟨-, h⟩
  · cases h
  cases h
  unfold oneInputTx at hout
  dsimp only at hout ⊢
  rcases kinds_cases hout rfl with ⟨hl, hkind⟩ | hkind | ⟨i, rfl, hi, hkind⟩
  · rw [hkind]
    refine ⟨fun _ => ?_, fun h => (by cases h)⟩
    split_ifs at hl ⊢ with hdust
    · rw [List.getElem?_singleton] at hl
      split_ifs at hl with hv
      rw [Option.some.injEq] at hl
      rw [hv, ← hl]
      exact ⟨rfl, payTo_sats_le _ _⟩
    · cases hl
  · rw [hkind]
    exact ⟨fun h => (by cases h), fun h => (by cases h)⟩
  · rw [hkind]
    exact ⟨fun h => (by cases h), fun _ => htlcOutputs_listed houts hi⟩

/-! ### The penalties -/

/-- The transaction spends the output. -/
def Takes (tx : Transaction) (outpoint : OutPoint) : Prop :=
  ∃ i ∈ tx.input, i.previousOutput = outpoint

omit [Hitch] in
theorem claimValue_ok {value fee : ℕ} (h : dust + fee ≤ value) :
    claimValue value fee = .ok (value - fee) := by
  unfold claimValue
  have hsub : Word.checkedSub value fee = some (value - fee) := by
    rw [Word.checkedSub_eq_some]
    omega
  rw [hsub, Option.filter_some, if_pos (decide_eq_true (by omega))]

/-- The delayed output is taken with the revocation key when it is worth it. -/
theorem sweepToLocal_takes (hlaw : Lawful) {c : Commitment} {vout fee : ℕ}
    (hvout : c.toLocalVout = some vout) (hvalue : dust + fee ≤ c.localValue)
    (destination : Bytes) (key : SecretKey) (rules : SighashRules) (aux : Hash256) :
    ∃ tx, sweepToLocal c .revocation destination fee key rules aux = .ok tx ∧
      Takes tx (outPointAt (Bitcoin.computeTxid c.tx) vout) := by
  unfold sweepToLocal
  rw [hvout]
  dsimp only
  rw [claimValue_ok hvalue]
  dsimp only
  obtain ⟨sig, hsig⟩ := Option.isSome_iff_exists.mp (hlaw.signs
    (oneInputTx (outPointAt (Bitcoin.computeTxid c.tx) vout) inputSequence 0
      [payTo (c.localValue - fee) destination]) (payTo c.localValue c.toLocal.scriptPubkey)
    c.toLocal.revocation.leafHash key rules aux rfl)
  rw [if_neg (by decide), if_neg (by decide), hsig]
  exact ⟨_, rfl, _, List.mem_singleton.mpr rfl, rfl⟩

/-- So is an HTLC output. -/
theorem claimHtlc_takes (hlaw : Lawful) (c : Commitment) {h : CommitmentHtlc} {fee : ℕ}
    (hvalue : dust + fee ≤ h.htlc.amount) (destination : Bytes) (key : SecretKey)
    (rules : SighashRules) (aux : Hash256) :
    ∃ tx, claimHtlc c h .revocation destination fee none key rules aux = .ok tx ∧
      Takes tx (outPointAt (Bitcoin.computeTxid c.tx) h.vout) := by
  unfold claimHtlc
  dsimp only
  rw [claimValue_ok hvalue]
  dsimp only
  obtain ⟨sig, hsig⟩ := Option.isSome_iff_exists.mp (hlaw.signs
    (oneInputTx (outPointAt (Bitcoin.computeTxid c.tx) h.vout) inputSequence 0
      [payTo (h.htlc.amount - fee) destination]) (payTo h.htlc.amount h.scripts.scriptPubkey)
    h.scripts.revocation.leafHash key rules aux rfl)
  rw [if_pos rfl, if_neg (by decide), hsig]
  exact ⟨_, rfl, _, List.mem_singleton.mpr rfl, rfl⟩

/-- The penalties take every output of a commitment that is worth it. -/
def Punishes (c : Commitment) (fee : ℕ) (broadcasts : List Broadcast) : Prop :=
  ∀ v out, c.tx.output[v]? = some out → dust + fee ≤ out.sats →
    (c.kinds[v]? = some .toLocal ∨ c.kinds[v]? = some .htlc) →
    ∃ b ∈ broadcasts, Takes b.tx (outPointAt (Bitcoin.computeTxid c.tx) v)

theorem penaltiesOn_takes (hlaw : Lawful) {m : ChannelMachine} {number : ℕ} {owner : Side}
    {s : ChannelState} {c : Commitment} (hc : m.channel.commitment number owner s = .ok c)
    {v : ℕ} {out : TxOut} (hout : c.tx.output[v]? = some out)
    (hvalue : dust + m.channel.fee ≤ out.sats)
    (hkind : c.kinds[v]? = some .toLocal ∨ c.kinds[v]? = some .htlc) (key : SecretKey)
    (destination : Bytes) (ctx : Context) :
    ∃ p ∈ m.penaltiesOn c key destination ctx,
      Takes p.2.2 (outPointAt (Bitcoin.computeTxid c.tx) v) := by
  obtain ⟨hlocal, hhtlc⟩ := commitment_listed hc hout
  unfold penaltiesOn
  rcases hkind with hkind | hkind
  · obtain ⟨hvout, hle⟩ := hlocal hkind
    obtain ⟨tx, htx, htakes⟩ := sweepToLocal_takes hlaw hvout (hvalue.trans hle) destination key
      m.rules ctx.aux
    refine ⟨(.penaltyToLocal, v, tx), List.mem_append_left _ ?_, htakes⟩
    rw [hvout, htx]
    exact List.mem_singleton.mpr rfl
  · obtain ⟨info, hinfo, rfl, hle⟩ := hhtlc hkind
    obtain ⟨tx, htx, htakes⟩ := claimHtlc_takes hlaw c (hvalue.trans hle) destination key
      m.rules ctx.aux
    refine ⟨(.penaltyHtlc info.htlc.id, info.vout, tx), List.mem_append_right _ ?_, htakes⟩
    refine List.mem_filterMap.mpr ⟨info, hinfo, ?_⟩
    rw [htx]

/-- A commitment whose secret is held is punished. -/
theorem punish_punishes (hlaw : Lawful) {m : ChannelMachine} {n number : ℕ} {owner : Side}
    {s : ChannelState} {c : Commitment} (hc : m.channel.commitment number owner s = .ok c)
    {theirs key : SecretKey} (htheirs : m.theirRevocation.lookup n = some theirs)
    (hkey : Hitch.revocationKey m.myRevocationBase theirs = some key) (destination : Bytes)
    (ctx : Context) : ∃ broadcasts, (m.punish n c destination ctx).2 = .ok broadcasts ∧
      Punishes c m.channel.fee broadcasts := by
  unfold punish
  rw [htheirs]
  dsimp only
  rw [hkey]
  refine ⟨_, rfl, fun v out hout hvalue hkind => ?_⟩
  obtain ⟨p, hp, htakes⟩ := penaltiesOn_takes hlaw hc hout hvalue hkind key destination ctx
  exact ⟨_, List.mem_map.mpr ⟨p, hp, rfl⟩, htakes⟩

/-! ### The spend -/

theorem candidatesUpTo_ok {m : ChannelMachine} : ∀ {k : ℕ},
    (∀ n < k, (m.states.lookup n).isSome = true) → ∃ cs, m.candidatesUpTo k = .ok cs ∧
      (∀ n < k, ∀ s, m.states.lookup n = some s → (n, s, false) ∈ cs) ∧
      ∀ n < k, ∀ alt ∈ m.alternativesAt n, (n, alt.state, true) ∈ cs
  | 0, _ => ⟨[], rfl, fun n h => absurd h (Nat.not_lt_zero n), fun n h =>
      absurd h (Nat.not_lt_zero n)⟩
  | k + 1, h => by
    obtain ⟨cs, hcs, hstates, halts⟩ := candidatesUpTo_ok fun n hn =>
      h n (Nat.lt_succ_of_lt hn)
    obtain ⟨s, hs⟩ := Option.isSome_iff_exists.mp (h k (Nat.lt_succ_self k))
    refine ⟨cs ++ (k, s, false) :: (m.alternativesAt k).map fun alt => (k, alt.state, true),
      ?_, fun n hn s' hs' => ?_, fun n hn alt halt => ?_⟩
    · unfold candidatesUpTo
      rw [hcs, Res.ok_bind]
      unfold ChannelMachine.state
      rw [hs, Res.okOr_some, Res.ok_bind]
    · rcases Nat.lt_succ_iff_lt_or_eq.mp hn with hlt | rfl
      · exact List.mem_append_left _ (hstates n hlt s' hs')
      · rw [hs] at hs'
        cases hs'
        exact List.mem_append_right _ List.mem_cons_self
    · rcases Nat.lt_succ_iff_lt_or_eq.mp hn with hlt | rfl
      · exact List.mem_append_left _ (halts n hlt alt halt)
      · refine List.mem_append_right _ (List.mem_cons_of_mem _ ?_)
        exact List.mem_map.mpr ⟨alt, halt, rfl⟩

/-- Every commitment signed is a candidate. -/
theorem candidates_signs {m : ChannelMachine} (hm : Present m) : ∃ cs, m.candidates = .ok cs ∧
    ∀ n s, m.Signs n s → ∃ alternative, (n, s, alternative) ∈ cs := by
  obtain ⟨agreed, hagreed, hstates, halts⟩ := candidatesUpTo_ok fun n hn =>
    hm.agreed n (Nat.lt_succ_iff.mp hn)
  have hpending : ∃ pending, m.candidates = .ok (agreed ++ pending ++
      (m.alternativesAt (m.stateNumber + 1)).map fun alt =>
        (m.stateNumber + 1, alt.state, true)) ∧
      ∀ p s, m.pending = some p → m.states.lookup p.n = some s → (p.n, s, false) ∈ pending := by
    unfold ChannelMachine.candidates
    cases hp : m.pending with
    | none =>
      refine ⟨[], Res.bind_eq_ok.mpr ⟨agreed, hagreed, rfl⟩, fun p s hsome => ?_⟩
      cases hsome
    | some p =>
      obtain ⟨s, hs⟩ := Option.isSome_iff_exists.mp (hm.pending p hp)
      have hstate : m.state p.n = .ok s := by
        unfold ChannelMachine.state
        rw [hs]
        rfl
      refine ⟨[(p.n, s, false)], Res.bind_eq_ok.mpr ⟨agreed, hagreed, ?_⟩, fun p' s' hp' hs' => ?_⟩
      · exact Res.bind_eq_ok.mpr
          ⟨_, Res.bind_eq_ok.mpr ⟨s, hstate, rfl⟩, rfl⟩
      · cases hp'
        rw [hs] at hs'
        cases hs'
        exact List.mem_singleton.mpr rfl
  obtain ⟨pending, hpending, hmem⟩ := hpending
  refine ⟨_, hpending, fun n s hsigns => ?_⟩
  rcases hsigns with ⟨hle, hs⟩ | ⟨p, hp, rfl, hs⟩ | ⟨hle, alt, halt, rfl⟩
  · refine ⟨false, List.mem_append_left _ (List.mem_append_left _ ?_)⟩
    exact hstates n (Nat.lt_succ_iff.mpr hle) s hs
  · exact ⟨false, List.mem_append_left _ (List.mem_append_right _ (hmem p s hp hs))⟩
  · refine ⟨true, ?_⟩
    rcases Nat.lt_succ_iff_lt_or_eq.mp (Nat.lt_succ_of_le hle) with hlt | rfl
    · exact List.mem_append_left _ (List.mem_append_left _ (halts n hlt alt halt))
    · exact List.mem_append_right _ (List.mem_map.mpr ⟨alt, halt, rfl⟩)

theorem candidatesUpTo_only {m : ChannelMachine} : ∀ {k : ℕ}
    {cs : List (ℕ × ProtocolState × Bool)}, m.candidatesUpTo k = .ok cs →
    ∀ c ∈ cs, c.1 < k ∧ (m.states.lookup c.1 = some c.2.1 ∨
      ∃ alt ∈ m.alternativesAt c.1, alt.state = c.2.1)
  | 0, cs, h, c, hc => by
    cases h
    cases hc
  | k + 1, cs, h, c, hc => by
    unfold candidatesUpTo at h
    obtain ⟨before, hbefore, h⟩ := Res.bind_eq_ok.mp h
    obtain ⟨s, hs, h⟩ := Res.bind_eq_ok.mp h
    cases h
    rcases List.mem_append.mp hc with hc | hc
    · obtain ⟨hlt, hc⟩ := candidatesUpTo_only hbefore c hc
      exact ⟨Nat.lt_succ_of_lt hlt, hc⟩
    rcases List.mem_cons.mp hc with rfl | hc
    · unfold ChannelMachine.state at hs
      rw [Res.okOr_eq_ok] at hs
      exact ⟨Nat.lt_succ_self k, .inl hs⟩
    · obtain ⟨alt, halt, rfl⟩ := List.mem_map.mp hc
      exact ⟨Nat.lt_succ_self k, .inr ⟨alt, halt, rfl⟩⟩

/-- Every candidate is a commitment signed. -/
theorem candidates_only {m : ChannelMachine} {cs : List (ℕ × ProtocolState × Bool)}
    (h : m.candidates = .ok cs) {n : ℕ} {s : ProtocolState} {alternative : Bool}
    (hmem : (n, s, alternative) ∈ cs) : m.Signs n s := by
  unfold candidates at h
  obtain ⟨agreed, hagreed, h⟩ := Res.bind_eq_ok.mp h
  obtain ⟨pending, hpending, h⟩ := Res.bind_eq_ok.mp h
  cases h
  rcases List.mem_append.mp hmem with hmem | hmem
  · rcases List.mem_append.mp hmem with hmem | hmem
    · obtain ⟨hlt, hs⟩ := candidatesUpTo_only hagreed _ hmem
      rcases hs with hs | hs
      · exact .inl ⟨Nat.lt_succ_iff.mp hlt, hs⟩
      · exact .inr (.inr ⟨hlt.le, hs⟩)
    · split at hpending
      · cases hpending
        cases hmem
      · rename_i p hp
        obtain ⟨s', hs, hpending⟩ := Res.bind_eq_ok.mp hpending
        cases hpending
        rw [List.mem_singleton] at hmem
        cases hmem
        unfold ChannelMachine.state at hs
        rw [Res.okOr_eq_ok] at hs
        exact .inr (.inl ⟨p, hp, rfl, hs⟩)
  · obtain ⟨alt, halt, heq⟩ := List.mem_map.mp hmem
    cases heq
    exact .inr (.inr ⟨le_rfl, alt, halt, rfl⟩)

/-- What the classification of a spend says, at the machine before it. -/
structure Classified (m : ChannelMachine) (txid : Txid) (outcome : SpendOutcome) : Prop where
  known : outcome.kind ≠ .unknown
  cooperative : outcome.kind = .cooperative → m.coopTxid = some txid
  own : ∀ k, outcome.kind = .localCommitment k → ∃ c, m.close = some c ∧ c.txid = txid
  /-- The other side's: a commitment signed for it, revoked when its secret is
  held, and then punished. -/
  theirs : ∀ n alternative revoked, outcome.kind = .remoteCommitment n alternative revoked →
    revoked = (m.theirRevocation.lookup n).isSome ∧
    ∃ s c, m.Signs n s ∧ m.theirCommitment n s = .ok c ∧ Bitcoin.computeTxid c.tx = txid ∧
      (revoked = true → Punishes c m.channel.fee outcome.broadcasts)

theorem onSpend_classified (hlaw : Lawful) {m : ChannelMachine} (hm : Tracked named m)
    {spend : ChainSpend} (hrecognised : m.Recognised spend.txid)
    (hnew : ∀ seen, m.spend = some seen → seen.txid ≠ spend.txid) (destination : Bytes)
    (ctx : Context) (lookup : Lookup) :
    ∃ outcome, (m.onSpend spend destination ctx lookup).2 = .ok outcome ∧
      Classified m spend.txid outcome := by
  have hfilter : m.spend.filter (fun seen => seen.txid == spend.txid) = none := by
    rw [Option.filter_eq_none_iff]
    intro seen hseen
    rw [beq_iff_eq]
    exact hnew seen hseen
  obtain ⟨cs, hcs, hcandidates⟩ := candidates_signs hm.present
  unfold onSpend
  rw [hfilter]
  dsimp only
  by_cases hcoop : m.coopTxid = some spend.txid
  · rw [if_pos hcoop]
    exact ⟨_, rfl, fun h => (by cases h), fun _ => hcoop, fun k h => (by cases h),
      fun n a r h => (by cases h)⟩
  rw [if_neg hcoop]
  cases hclose : m.close.filter fun c => c.txid == spend.txid with
  | some c =>
    rw [Option.filter_eq_some_iff, beq_iff_eq] at hclose
    exact ⟨_, rfl, fun h => (by cases h), fun h => (by cases h), fun _ _ => ⟨c, hclose⟩,
      fun n a r h => (by cases h)⟩
  | none =>
    dsimp only
    rw [hcs]
    dsimp only
    cases hfind : cs.find? (m.isSpentBy spend.txid) with
    | none =>
      -- what is recognised is the cooperative close, a close of this peer's or a candidate
      exfalso
      rcases hrecognised with h | ⟨c, hc, htxid⟩ | ⟨n, s, c, hsigns, hc, htxid⟩
      · exact hcoop h
      · rw [Option.filter_eq_none_iff] at hclose
        exact hclose c hc (beq_iff_eq.mpr htxid)
      · obtain ⟨alternative, hmem⟩ := hcandidates n s hsigns
        have hnot := List.find?_eq_none.mp hfind _ hmem
        unfold isSpentBy at hnot
        rw [hc] at hnot
        exact hnot (beq_iff_eq.mpr htxid)
    | some found =>
      obtain ⟨n, s, alternative⟩ := found
      have hspent := List.find?_some hfind
      have hsigns := candidates_only hcs (List.mem_of_find?_eq_some hfind)
      unfold isSpentBy at hspent
      split at hspent
      · rename_i c hc
        dsimp only at hc hspent ⊢
        rw [beq_iff_eq] at hspent
        by_cases hrevoked : (m.theirRevocation.lookup n).isSome = true
        · obtain ⟨theirs, htheirs⟩ := Option.isSome_iff_exists.mp hrevoked
          obtain ⟨key, hkey⟩ := Option.ne_none_iff_exists'.mp
            (penalty_key hm.points hlaw.keys hc htheirs)
          rw [if_neg (by rw [hrevoked]; decide), hc]
          have hbuilt : ∃ key, m.channel.commitment n m.role.other (channelState s key) = .ok c := by
            obtain ⟨key, -, hc⟩ := Res.bind_eq_ok.mp hc
            exact ⟨key, ofExcept_eq_ok.mp hc⟩
          obtain ⟨_, hbuilt⟩ := hbuilt
          obtain ⟨broadcasts, hpunish, hpunishes⟩ := punish_punishes (m := { m with
            outputs := ∅
            spend := some ⟨spend.txid, spend.height, m.status,
              .remoteCommitment n alternative (m.theirRevocation.lookup n).isSome⟩
            closeState := some n
            closeStateObj := some s }) hlaw hbuilt htheirs hkey destination ctx
          refine ⟨_, Res.bind_eq_ok.mpr ⟨broadcasts, hpunish, rfl⟩, fun h => (by cases h),
            fun h => (by cases h), fun k h => (by cases h), fun n' a r h => ?_⟩
          cases h
          exact ⟨rfl, s, c, hsigns, hc, hspent, fun _ => hpunishes⟩
        · rw [if_pos (by simpa using hrevoked)]
          refine ⟨_, rfl, fun h => (by cases h), fun h => (by cases h), fun k h => (by cases h),
            fun n' a r h => ?_⟩
          cases h
          exact ⟨rfl, s, c, hsigns, hc, hspent, fun h => absurd h hrevoked⟩
      · cases hspent

end

attribute [local instance] sampleHitch

theorem displayBytes_injective {a b : Hash256} (h : displayBytes a = displayBytes b) : a = b := by
  have htext : hashText a = hashText b := congrArg hexEncode h
  rw [← parseHash_hashText a, htext, parseHash_hashText]

theorem sampleHitch_lawful : Lawful where
  keys := sampleHitch_keys
  witness tx w := by
    show numsHash 1 (baseNats (withWitness tx w)) = numsHash 1 (baseNats tx)
    unfold baseNats withWitness
    simp only [List.length_map, List.flatMap_map]
  binds tx tx' prevouts leafHash key rules aux sig hsign hverify := by
    change some (sampleSignature key.1 tx prevouts leafHash) = some sig at hsign
    change (sig == sampleSignature key.1 tx' prevouts leafHash) = true at hverify
    rw [Option.some.injEq] at hsign
    rw [beq_iff_eq, ← hsign] at hverify
    unfold sampleSignature at hverify
    refine displayBytes_injective (List.append_inj hverify ?_).1.symm
    rw [length_displayBytes, length_displayBytes]
  signs tx prevout leafHash key rules aux _ := rfl

/-- The other side's commitment. -/
def theirsOf (m : ChannelMachine) (n : ℕ) (s : ProtocolState) : Option Transaction :=
  match m.theirCommitment n s with
  | .ok c => some c.tx
  | _ => none

theorem theirsOf_eq_some {m : ChannelMachine} {n : ℕ} {s : ProtocolState} {tx : Transaction}
    (h : theirsOf m n s = some tx) : ∃ c, m.theirCommitment n s = .ok c ∧ c.tx = tx := by
  unfold theirsOf at h
  split at h
  · rename_i c hc
    exact ⟨c, hc, Option.some.inj h⟩
  · cases h

/-- This peer's signature on a spend of the funding output. -/
def signatureOn (m : ChannelMachine) (tx : Transaction) : Sig :=
  sampleSignature m.channelKey.1 tx [m.channel.fundingPrevout]
    m.channel.fundingScript.leaf.leafHash

theorem signatureOn_verifies {m : ChannelMachine} (hkey : Hitch.public m.channelKey = m.myKey)
    (tx : Transaction) :
    m.channel.verifyFunding tx m.myKey (signatureOn m tx) m.rules = true := by
  rw [← hkey]
  exact beq_self_eq_true _

/-- A spend by a transaction, and nothing else seen. -/
def spendBy (tx : Transaction) : ChainSpend := ⟨sampleBitcoin.computeTxid tx, 103⟩

def allUnspent : Lookup := fun _ _ => .unspent

/-- The other side publishes its commitment at state 1, and then reveals that state's secret. -/
def revealedCalls : List Call :=
  let theirs := (sampleRunOf .a ackedCalls).bind fun r => theirsOf r.1 1 r.1.currentState
  ackedCalls ++ theirs.toList.map (fun tx => .onSpend (spendBy tx) [] (sampleContext 103)
    allUnspent) ++ [.receiveSync ⟨.synced, channelIdOf sampleChannel.fundingOutpoint.txid, 1, none,
      none, none, [], some [(1, 32)]⟩ (sampleContext 104)]

set_option maxRecDepth 100000 in
/-- The commitment before the payment is revoked. -/
theorem ackedCalls_revoked : (sampleRunOf .a ackedCalls).bind (fun r =>
      (theirsOf r.1 0 (sampleOpened .a).initialState).map fun _ =>
        (r.1.spend.isNone, (r.1.theirRevocation.lookup 0).isSome)) = some (true, true) := by
  decide +kernel

set_option maxRecDepth 100000 in
/-- The spend stays recorded as not revoked. -/
theorem revealedCalls_seen : (sampleRunOf .a revealedCalls).bind (fun r =>
      (theirsOf r.1 1 r.1.currentState).map fun tx =>
        (r.2.any fun d => d.2.messages.any fun message =>
            decide (message.fundingSig = some (signatureOn r.1 tx)),
         r.1.spend.map fun s => (decide (s.txid = sampleBitcoin.computeTxid tx), s.kind),
         (r.1.theirRevocation.lookup 1).isSome)) =
    some (true, some (true, .remoteCommitment 1 false false), true) := by
  decide +kernel

end Hitch

end Sidestr
