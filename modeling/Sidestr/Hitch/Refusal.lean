/-
# Refused calls

A call that returns an error leaves the channel as it was, by the contract of the
machine. Three of them change the machine first and only then call what may fail:
an update is acknowledged once it is accepted, an acknowledgement of an earlier
attempt is adopted once the pending update is set aside, and a sync is answered
once its secrets are taken. What a run builds makes the first and the last of
these answers succeed. The second compares bytes where the check before it
compares points, and two secrets can have one point.

Key definitions: `Refuses`, `Answerable`.
Key theorems: `acknowledgement_ok`, `reconcile_ok`, `adoption_earlier`, `refused_same`.
-/
import Sidestr.Hitch.Words

namespace Sidestr

namespace Hitch

section

variable [Hitch]

open ChannelMachine

/-- The call returns an error. -/
def Refuses (m : ChannelMachine) : Call → Prop
  | .propose update next ctx => ∃ e, (m.propose update next ctx).2 = .err e
  | .pay amount memo next ctx => ∃ e, (m.pay amount memo next ctx).2 = .err e
  | .addHtlc amount hash expiry route memo next ctx =>
    ∃ e, (m.addHtlc amount hash expiry route memo next ctx).2 = .err e
  | .failHtlc htlcId reason next ctx => ∃ e, (m.failHtlc htlcId reason next ctx).2 = .err e
  | .receiveUpdate message next ctx => ∃ e, (m.receiveUpdate message next ctx).2 = .err e
  | .receiveAck message => ∃ e, (m.receiveAck message).2 = .err e
  | .receiveRevoke message => ∃ e, (m.receiveRevoke message).2 = .err e
  | .receiveReject message ctx => ∃ e, (m.receiveReject message ctx).2 = .err e
  | .closeChannel ctx => ∃ e, (m.closeChannel ctx).2 = .err e
  | .receiveClose message ctx => ∃ e, (m.receiveClose message ctx).2 = .err e
  | .forceClose at' why ctx => ∃ e, (m.forceClose at' why ctx).2 = .err e
  | .receiveSync message ctx => ∃ e, (m.receiveSync message ctx).2 = .err e
  | _ => False

/-- The other side's commitment of an update accepted can be built, and an
acknowledgement that fits an earlier attempt shows the bytes of the secret held. -/
def Answerable (m : ChannelMachine) : Call → Prop
  | .receiveUpdate message _ ctx => ∀ s, m.judgeUpdate message ctx = .ok (.accept s) →
    ∃ c, m.theirCommitment message.n s = .ok c
  | .receiveAck message => m.judgeAck message = .ok .earlier →
    ∀ k, m.theirRevocation.lookup m.stateNumber = some k → k.1 = message.reveal
  | _ => True

/-! ### Refused at a check -/

namespace ChannelMachine

variable {m : ChannelMachine} {e : ProtocolError}

theorem propose_refused {update : Update} {next : SecretKey} {ctx : Context}
    (h : (m.propose update next ctx).2 = .err e) : (m.propose update next ctx).1 = m := by
  unfold propose at h ⊢
  split at h
  · cases h
  · rfl
  · rfl

theorem pay_refused {amount : ℕ} {memo : Option Text} {next : SecretKey} {ctx : Context}
    (h : (m.pay amount memo next ctx).2 = .err e) : (m.pay amount memo next ctx).1 = m := by
  unfold pay at h ⊢
  split_ifs at h ⊢
  · rfl
  · rfl
  · exact propose_refused h

theorem addHtlc_refused {amount : ℕ} {hash : Hash256} {expiry : ℕ} {route : Option Point}
    {memo : Option Text} {next : SecretKey} {ctx : Context}
    (h : (m.addHtlc amount hash expiry route memo next ctx).2 = .err e) :
    (m.addHtlc amount hash expiry route memo next ctx).1 = m := by
  unfold addHtlc at h ⊢
  split_ifs at h ⊢
  · rfl
  · rfl
  · exact propose_refused h
  · rfl

theorem receiveRevoke_refused {message : RevokeMessage}
    (h : (m.receiveRevoke message).2 = .err e) : (m.receiveRevoke message).1 = m := by
  unfold receiveRevoke at h ⊢
  dsimp only at h ⊢
  split at h
  · cases h
  · rfl
  · split at h
    · rename_i hnone
      rw [if_pos hnone]
    · cases h

theorem receiveReject_refused {message : RejectMessage} {ctx : Context}
    (h : (m.receiveReject message ctx).2 = .err e) : (m.receiveReject message ctx).1 = m := by
  unfold receiveReject at h ⊢
  dsimp only at h ⊢
  split at h
  · cases h
  · rfl
  · cases h

theorem closeChannel_refused {ctx : Context} (h : (m.closeChannel ctx).2 = .err e) :
    (m.closeChannel ctx).1 = m := by
  unfold closeChannel at h ⊢
  dsimp only at h ⊢
  split at h
  · cases h
  · rfl
  · cases h

theorem receiveClose_refused {message : CloseMessage} {ctx : Context}
    (h : (m.receiveClose message ctx).2 = .err e) : (m.receiveClose message ctx).1 = m := by
  unfold receiveClose at h ⊢
  dsimp only at h ⊢
  split at h
  · cases h
  · rfl
  · cases h

theorem forceClose_refused {at' : Option ℕ} {why : Text} {ctx : Context}
    (h : (m.forceClose at' why ctx).2 = .err e) : (m.forceClose at' why ctx).1 = m := by
  unfold forceClose at h ⊢
  dsimp only at h ⊢
  split at h
  · cases h
  · rfl
  · cases h

/-! ### Answers after a change -/

section

variable (hsign : ∀ tx prevout leafHash key rules aux, tx.input.length = 1 →
    ∃ sig, Hitch.signLeaf tx [prevout] leafHash key rules aux = some sig)

include hsign

theorem signFunding_single {tx : Transaction} (htx : tx.input.length = 1) (ctx : Context) :
    ∃ sig, m.signFunding tx ctx = .ok sig := by
  obtain ⟨sig, hsig⟩ := hsign tx m.channel.fundingPrevout m.channel.fundingScript.leaf.leafHash
    m.channelKey m.rules ctx.aux htx
  refine ⟨sig, ?_⟩
  unfold ChannelMachine.signFunding Channel.signFunding
  rw [hsig]
  rfl

theorem signFunding_commitment {owner : Side} {n : ℕ} {s : ProtocolState} {c : Commitment}
    (hc : m.commitmentAt owner n s = .ok c) (ctx : Context) :
    ∃ sig, m.signFunding c.tx ctx = .ok sig := by
  unfold commitmentAt at hc
  obtain ⟨key, -, hc⟩ := Res.bind_eq_ok.mp hc
  refine signFunding_single hsign ?_ ctx
  rw [commitment_input (ofExcept_eq_ok.mp hc)]
  rfl

/-- A close that was asked for can be asked for again. -/
theorem closeMessage_ok (hm : Closes m) (hasked : m.status = .closingAsked) (ctx : Context) :
    ∃ c, m.closeMessage ctx = .ok c := by
  obtain ⟨t, ht⟩ := Option.isSome_iff_exists.mp (hm.asked hasked)
  obtain ⟨tx, htx, -⟩ := hm.coop t ht
  have hinput : tx.input.length = 1 := by
    have hcoop := ofExcept_eq_ok.mp htx
    unfold Channel.cooperativeClose at hcoop
    split at hcoop
    · cases hcoop
    split at hcoop
    · cases hcoop
    rcases ite_eq_iff.mp hcoop with ⟨-, hcoop⟩ | ⟨-, hcoop⟩
    · cases hcoop
    · cases hcoop
      rfl
  obtain ⟨sig, hsig⟩ := signFunding_single (m := m) hsign hinput ctx
  refine ⟨⟨m.id, m.stateNumber, sig⟩, ?_⟩
  unfold closeMessage
  rw [htx, Res.ok_bind, hsig, Res.ok_bind]

/-- The acknowledgement of the agreed state is built; there is one where the other
side has signed the state and the secret before may be shown. -/
theorem acknowledgement_ok (hm : Built m) (hpresent : (m.states.lookup m.stateNumber).isSome = true)
    (ctx : Context) : ∃ ack, m.acknowledgement ctx = .ok ack ∧
      (m.stateNumber ≠ 0 → (m.signatures.lookup m.stateNumber).isSome = true →
        m.mayReveal (m.stateNumber - 1) = true → ack.isSome = true) := by
  unfold acknowledgement
  dsimp only
  by_cases hzero : m.stateNumber = 0
  · rw [if_pos hzero]
    exact ⟨none, rfl, fun h => absurd hzero h⟩
  rw [if_neg hzero]
  by_cases hkept : ((m.signatures.lookup m.stateNumber).isNone ||
      !m.mayReveal (m.stateNumber - 1)) = true
  · rw [if_pos hkept]
    refine ⟨none, rfl, fun _ hsig hmay => ?_⟩
    rw [hmay, Bool.not_true, Bool.or_false, Option.isNone_iff_eq_none] at hkept
    rw [hkept] at hsig
    cases hsig
  rw [if_neg hkept]
  obtain ⟨s, hs⟩ := Option.isSome_iff_exists.mp hpresent
  obtain ⟨c, hc⟩ := hm.states _ s hs
  obtain ⟨sig, hsig⟩ := signFunding_commitment hsign hc ctx
  obtain ⟨next, hnext⟩ := Option.isSome_iff_exists.mp (hm.mine (m.stateNumber + 1) le_rfl)
  obtain ⟨previous, hprevious⟩ := Option.isSome_iff_exists.mp (hm.mine (m.stateNumber - 1) (by omega))
  unfold theirCommitment at hc
  unfold ChannelMachine.state
  rw [hs, Res.okOr_some, Res.ok_bind, hc, Res.ok_bind, hsig, Res.ok_bind, hnext, Res.okOr_some,
    Res.ok_bind, hprevious]
  exact ⟨_, rfl, fun _ _ _ => rfl⟩

/-- A sync is answered. -/
theorem reconcile_ok (hm : Built m) (hpresent : Present m) (hcloses : Closes m)
    (message : SyncMessage) (ctx : Context) : ∃ l, (m.reconcile message ctx).2 = .ok l := by
  unfold reconcile
  dsimp only
  split
  · rename_i hfunding
    dsimp only
    split
    · obtain ⟨s, hs⟩ := Option.isSome_iff_exists.mp (hpresent.agreed 0 (Nat.zero_le _))
      obtain ⟨c, hc⟩ := hm.states 0 s hs
      obtain ⟨sig, hsig⟩ := signFunding_commitment hsign hc ctx
      unfold theirCommitment at hc
      rw [hfunding.2] at hc
      change m.commitmentAt .b 0 s = .ok c at hc
      unfold ChannelMachine.state
      rw [hs, Res.okOr_some, Res.ok_bind, hc, Res.ok_bind, hsig]
      exact ⟨_, rfl⟩
    · exact ⟨_, rfl⟩
  split
  · exact ⟨_, rfl⟩
  split
  · rename_i hpanic
    split at hpanic
    · exact absurd hpanic (Res.bind_ne_panic (closeMessage_ne_panic ctx) fun _ _ h => by cases h)
    · cases hpanic
  · rename_i herr
    split at herr
    · rename_i hasked
      obtain ⟨c, hc⟩ := closeMessage_ok hsign hcloses hasked.1 ctx
      rw [hc] at herr
      cases herr
    · cases herr
  split
  · exact ⟨_, rfl⟩
  split
  · split
    · exact ⟨_, rfl⟩
    · split
      · split <;> exact ⟨_, rfl⟩
      · exact ⟨_, rfl⟩
    · exact ⟨_, rfl⟩
  split
  · obtain ⟨ack, hack, -⟩ := acknowledgement_ok hsign hm (hpresent.agreed _ le_rfl) ctx
    dsimp only
    rw [hack]
    exact ⟨_, rfl⟩
  split
  · exact ⟨_, rfl⟩
  split <;> exact ⟨_, rfl⟩

end

/-! ### An earlier attempt -/

/-- What the check of an acknowledgement finds where it fits an earlier attempt. -/
theorem judgeAck_attempt {message : AckMessage} (h : m.judgeAck message = .ok .earlier) :
    m.status = .open ∧ (m.findAlternative message.n message.sig).isSome = true ∧
      m.theirPopOk (message.n + 1) message.nextRev message.nextRevPop = true ∧
      ((m.theirRevocation.lookup m.stateNumber).isSome = true ∨
        ∃ k, secret message.reveal = some k ∧
          m.theirRevocationPublic.lookup m.stateNumber = some (Hitch.public k)) := by
  unfold judgeAck at h
  obtain ⟨_, -, h⟩ := Res.bind_eq_ok.mp h
  obtain ⟨_, -, h⟩ := Res.bind_eq_ok.mp h
  obtain ⟨_, -, h⟩ := Res.bind_eq_ok.mp h
  split at h
  · cases h
  obtain ⟨p, -, h⟩ := Res.bind_eq_ok.mp h
  obtain ⟨s, -, h⟩ := Res.bind_eq_ok.mp h
  obtain ⟨c, -, h⟩ := Res.bind_eq_ok.mp h
  dsimp only at h
  split at h
  · split at h
    · rename_i hearlier
      rw [Bool.and_eq_true, Bool.and_eq_true, Bool.and_eq_true, decide_eq_true_eq,
        Bool.or_eq_true, Option.any_eq_true, Option.any_eq_true] at hearlier
      obtain ⟨⟨⟨hopen, hreveal⟩, hpop⟩, hfound⟩ := hearlier
      refine ⟨hopen, hfound, hpop, ?_⟩
      rcases hreveal with ⟨k, hk, -⟩ | ⟨k, hk, hpoint⟩
      · rw [hk]
        exact .inl rfl
      · exact .inr ⟨k, hk, beq_iff_eq.mp hpoint⟩
    · cases h
  · obtain ⟨_, -, h⟩ := Res.bind_eq_ok.mp h
    obtain ⟨_, -, h⟩ := Res.bind_eq_ok.mp h
    cases h

/-- With the pending update set aside, the earlier attempt is adopted, if its secret is
none yet held or the one held. -/
theorem adoption_earlier (why : Text) (hm : Built m) {message : AckMessage}
    (h : m.judgeAck message = .ok .earlier)
    (hheld : ∀ k, m.theirRevocation.lookup m.stateNumber = some k → k.1 = message.reveal) :
    ∃ r, (m.dropPending why).adoption message = .ok r := by
  obtain ⟨hopen, hfound, hpop, hreveal⟩ := judgeAck_attempt h
  obtain ⟨p, hp, hpn⟩ := judgeAck_earlier h
  have he : Extends m (m.dropPending why) := by
    refine ⟨Move.terms (.drop why : Move True m _), fun n k hk => ?_, fun n p hp => ?_⟩
    · rw [dropPending_myRevocation]
      exact hk
    · rw [dropPending_frame]
      exact hp
  have hindex : ((m.dropPending why).findAlternative message.n message.sig).isSome = true := by
    unfold findAlternative at hfound ⊢
    rw [List.findIdx?_isSome, List.any_eq_true] at hfound ⊢
    obtain ⟨alt, halt, hsig⟩ := hfound
    refine ⟨alt, mem_dropPending why halt, ?_⟩
    split at hsig
    · rename_i mine hmine
      rw [he.myCommitment hmine]
      dsimp only
      rw [he.theirSigOk]
      exact hsig
    · cases hsig
  obtain ⟨index, hindex⟩ := Option.isSome_iff_exists.mp hindex
  obtain ⟨alt, halt⟩ : ∃ alt, ((m.dropPending why).alternativesAt message.n)[index]? = some alt :=
    ⟨_, List.getElem?_eq_getElem (findAlternative_found hindex)⟩
  have hpop' : (m.dropPending why).theirPopOk (message.n + 1) message.nextRev message.nextRevPop =
      true := by
    unfold theirPopOk at hpop ⊢
    rw [dropPending_id, dropPending_role]
    exact hpop
  have hkey : ((m.dropPending why).myRevocation.lookup (message.n + 1)).isSome = true := by
    rw [dropPending_myRevocation, ← hpn]
    exact (hm.pending p hp).1
  have hsecret : (m.dropPending why).revealOk (m.dropPending why).stateNumber message.reveal =
      true := by
    unfold revealOk newReveal
    rw [dropPending_frame]
    dsimp only
    cases hk : m.theirRevocation.lookup m.stateNumber with
    | some k =>
      rw [Option.any_some, hheld k hk, beq_self_eq_true, Bool.or_true]
    | none =>
      rw [hk] at hreveal
      obtain ⟨k, hk, hpoint⟩ := hreveal.resolve_left fun h => by cases h
      rw [hpoint, hk]
      dsimp only
      rw [if_pos rfl]
      rfl
  refine ⟨(index, alt), ?_⟩
  unfold adoption
  rw [dropPending_status, hopen, hindex, Res.okOr_some, Res.ok_bind, hpop', hsecret, halt]
  rw [← Option.not_isSome, hkey]
  rfl

theorem ackOutcome_ne_err {n previous : ℕ} {update : Update} {adopted : Bool} {e : ProtocolError} :
    m.ackOutcome n previous update adopted ≠ .err e := by
  unfold ackOutcome
  split <;> exact fun h => by cases h

theorem adoptAlternative_refused {message : AckMessage} {e : ProtocolError}
    (h : (m.adoptAlternative message).2 = .err e) : m.adoption message = .err e := by
  unfold adoptAlternative at h
  split at h
  · cases h
  · rename_i herr
    cases h
    exact herr
  · exact absurd h ackOutcome_ne_err

theorem receiveAck_refused (hm : Built m) {message : AckMessage} {e : ProtocolError}
    (hok : Answerable m (.receiveAck message)) (h : (m.receiveAck message).2 = .err e) :
    (m.receiveAck message).1 = m := by
  unfold receiveAck at h ⊢
  split at h
  · rfl
  · rfl
  · have hrefused := adoptAlternative_refused h
    unfold adoptAlternative
    rw [hrefused]
  · rename_i hj
    obtain ⟨r, hr⟩ := adoption_earlier
      "they acknowledged an earlier attempt at this state instead".toList hm hj (hok hj)
    have hrefused := adoptAlternative_refused h
    rw [hr] at hrefused
    cases hrefused
  · exact absurd h ackOutcome_ne_err

end ChannelMachine

/-! ### Over a run -/

section

variable (hverify : ∀ tx prevouts leafHash key rules aux sig,
    Hitch.signLeaf tx prevouts leafHash key rules aux = some sig →
    Hitch.verifyLeafSignature tx prevouts leafHash (Hitch.public key) sig rules = true)
  (hsign : ∀ tx prevout leafHash key rules aux, tx.input.length = 1 →
    ∃ sig, Hitch.signLeaf tx [prevout] leafHash key rules aux = some sig)
  (hkeys : ∀ r b : SecretKey, Hitch.revocationKey b r = none →
    Hitch.revocationPub (Hitch.public r) b = none)
  (hwitness : ∀ tx w, Bitcoin.computeTxid (withWitness tx w) = Bitcoin.computeTxid tx)

include hsign in
/-- An update accepted is acknowledged. -/
theorem receiveUpdate_refused {m : ChannelMachine} (hm : Built m) (htracked : Tracked True m)
    {message : UpdateMessage} {next : SecretKey} {ctx : Context} {e : ProtocolError}
    (hok : Answerable m (.receiveUpdate message next ctx))
    (h : (m.receiveUpdate message next ctx).2 = .err e) :
    (m.receiveUpdate message next ctx).1 = m := by
  unfold receiveUpdate at h ⊢
  split at h
  · cases h
  · rfl
  · cases h
  · cases h
  rename_i s hj
  exfalso
  have hbuilt := accepted_built htracked.next htracked.points hm next hj (hok s hj)
  obtain ⟨hopen, -, hn, -⟩ := judgeUpdate_accept hj
  have hstates : ((m.accepted message s next ctx).states.lookup
      (m.accepted message s next ctx).stateNumber).isSome = true := by
    unfold accepted
    dsimp only
    rw [Finmap.lookup_insert]
    rfl
  have hsignatures : ((m.accepted message s next ctx).signatures.lookup
      (m.accepted message s next ctx).stateNumber).isSome = true := by
    unfold accepted
    dsimp only
    rw [Finmap.lookup_insert]
    rfl
  have hnumber : (m.accepted message s next ctx).stateNumber = m.stateNumber + 1 := hn
  have hmay : (m.accepted message s next ctx).mayReveal
      ((m.accepted message s next ctx).stateNumber - 1) = true := by
    have hclose : (m.accepted message s next ctx).close = none :=
      (dropPending_close _).trans (htracked.settled.open_none hopen).1
    unfold mayReveal
    rw [hclose, hnumber, Option.any_none, Bool.not_false, Bool.and_true, decide_eq_true_eq]
    omega
  obtain ⟨ack, hack, hsome⟩ := acknowledgement_ok hsign hbuilt hstates ctx
  obtain ⟨ack, rfl⟩ := Option.isSome_iff_exists.mp (hsome (by omega) hsignatures hmay)
  dsimp only at h
  rw [hack] at h
  cases h

include hverify hsign hkeys hwitness in
/-- A sync that passes its checks is answered. -/
theorem receiveSync_refused {m : ChannelMachine} (hm : Built m) (htracked : Tracked True m)
    (hkey : Hitch.public m.channelKey = m.myKey) {message : SyncMessage} {ctx : Context}
    {e : ProtocolError} (h : (m.receiveSync message ctx).2 = .err e) :
    (m.receiveSync message ctx).1 = m := by
  unfold receiveSync at h ⊢
  dsimp only at h ⊢
  split at h
  · cases h
  · rfl
  exfalso
  have hmoves : Moves True m (m.takeReveals message).finalise.1 :=
    (takeReveals_moves message).trans finalise_moves
  have hsame := (takeReveals_same (m := m) message).trans finalise_same
  have hbuilt := hmoves.built hverify htracked.next hsame.stateNumber hkey htracked.points hm
  have htracked' := (hmoves.tracked hkeys hwitness htracked).1
  obtain ⟨l, hl⟩ := reconcile_ok hsign hbuilt htracked'.present htracked'.closes message ctx
  rw [hl] at h
  cases h

variable {o : Opened} (hzero : ∃ c, o.machine.theirCommitment 0 o.initialState = .ok c)

include hverify hkeys hwitness hzero in
/-- What a run of answerable calls builds. -/
theorem Run.answerable {m : ChannelMachine} {log : List Done} (hrun : Run Answerable o m log) :
    Built m ∧ Tracked True m := by
  refine ⟨?_, hrun.ind (fun _ _ => trivial) (fun _ => machine_tracked o)
    fun hab _ ha => (hab.tracked hkeys hwitness ha).1⟩
  induction hrun with
  | start hv hnew =>
    have hbuilt := machine_built hzero hnew
    unfold ChannelMachine.new at hnew
    obtain ⟨_, -, hnew⟩ := Res.bind_eq_ok.mp hnew
    obtain ⟨_, -, hnew⟩ := Res.bind_eq_ok.mp hnew
    obtain ⟨_, -, hnew⟩ := Res.bind_eq_ok.mp hnew
    cases hnew
    exact hbuilt
  | call c hrun hok hc ih =>
    obtain ⟨hnext, -, hch⟩ := hrun.kept
    refine c.built hverify hnext hch hrun.public_key hrun.sound.points ?_ hc ih
    rintro message next ctx s rfl hj
    exact hok s hj

include hverify hsign hkeys hwitness hzero in
/-- **A refused call leaves the channel as it was.** In every run whose updates
accepted can be built, a call that returns an error leaves the snapshot unchanged;
an acknowledgement of an earlier attempt does where it shows the bytes of the
secret held, if one is. -/
theorem refused_same {m m' : ChannelMachine} {log : List Done} {c : Call} {out : Emitted}
    (hrun : Run Answerable o m log) (hok : Answerable m c) (hrefused : Refuses m c)
    (h : c.run m = some (m', out)) : m'.snapshot = m.snapshot := by
  obtain ⟨hbuilt, htracked⟩ := hrun.answerable hverify hkeys hwitness hzero
  refine congrArg ChannelMachine.snapshot ?_
  cases c with
  | propose update next ctx =>
    obtain ⟨e, he⟩ := hrefused
    cases h
    exact propose_refused he
  | pay amount memo next ctx =>
    obtain ⟨e, he⟩ := hrefused
    cases h
    exact pay_refused he
  | addHtlc amount hash expiry route memo next ctx =>
    obtain ⟨e, he⟩ := hrefused
    cases h
    exact addHtlc_refused he
  | failHtlc htlcId reason next ctx =>
    obtain ⟨e, he⟩ := hrefused
    cases h
    exact propose_refused he
  | receiveUpdate message next ctx =>
    obtain ⟨e, he⟩ := hrefused
    cases h
    exact receiveUpdate_refused hsign hbuilt htracked hok he
  | receiveAck message =>
    obtain ⟨e, he⟩ := hrefused
    cases h
    exact receiveAck_refused hbuilt hok he
  | receiveRevoke message =>
    obtain ⟨e, he⟩ := hrefused
    cases h
    exact receiveRevoke_refused he
  | receiveReject message ctx =>
    obtain ⟨e, he⟩ := hrefused
    cases h
    exact receiveReject_refused he
  | closeChannel ctx =>
    obtain ⟨e, he⟩ := hrefused
    cases h
    exact closeChannel_refused he
  | receiveClose message ctx =>
    obtain ⟨e, he⟩ := hrefused
    cases h
    exact receiveClose_refused he
  | forceClose at' why ctx =>
    obtain ⟨e, he⟩ := hrefused
    cases h
    exact forceClose_refused he
  | receiveSync message ctx =>
    obtain ⟨e, he⟩ := hrefused
    cases h
    exact receiveSync_refused hverify hsign hkeys hwitness hbuilt htracked hrun.public_key he
  | _ => exact hrefused.elim

end

/-- Calls made in order continue a run. -/
theorem Run.foldlM {ok : ChannelMachine → Call → Prop} {o : Opened} :
    ∀ {cs : List Call} {m m' : ChannelMachine} {log : List Done}, Run ok o m log →
      (∀ c ∈ cs, ∀ m, ok m c) → cs.foldlM (fun m c => (c.run m).map Prod.fst) m = some m' →
      ∃ log', Run ok o m' log'
  | [], m, m', log, hrun, _, h => by
    cases h
    exact ⟨log, hrun⟩
  | c :: cs, m, m', log, hrun, hok, h => by
    rw [List.foldlM_cons] at h
    obtain ⟨m₁, hc, h⟩ := Option.bind_eq_some_iff.mp h
    obtain ⟨⟨m₂, out⟩, hcall, rfl⟩ := Option.map_eq_some_iff.mp hc
    exact (Run.call c hrun (hok c List.mem_cons_self m) hcall).foldlM
      (fun c' hc' => hok c' (List.mem_cons_of_mem c hc')) h

end

section

attribute [local instance] sampleHitch

/-- Side A, with its payment pending, cannot pay nothing, and is as it was. -/
theorem refused_same_sample : ∃ m log, Run Answerable (sampleOpened .a) m log ∧
    Refuses m (.pay 0 none (sampleSecret 24) (sampleContext 102)) ∧
    (m.pay 0 none (sampleSecret 24) (sampleContext 102)).1.snapshot = m.snapshot := by
  obtain ⟨⟨m, log⟩, hr⟩ := Option.isSome_iff_exists.mp payCalls_runs
  have hrun : Run Answerable (sampleOpened .a) m log := by
    refine run_of_sample (fun c hc m => ?_) hr
    unfold payCalls at hc
    simp only [List.mem_cons, List.not_mem_nil, or_false] at hc
    rcases hc with rfl | rfl <;> trivial
  obtain ⟨c, hc, -⟩ := theirsOf_eq_some (Option.eq_some_of_isSome sampleOpened_theirs)
  have hrefuses : Refuses m (.pay 0 none (sampleSecret 24) (sampleContext 102)) :=
    ⟨.zeroAmount, rfl⟩
  refine ⟨m, log, hrun, hrefuses, refused_same
    (c := .pay 0 none (sampleSecret 24) (sampleContext 102))
    (fun tx prevouts leafHash key rules aux sig h => ?_)
    (fun tx prevout leafHash key rules aux _ => ⟨_, rfl⟩) sampleHitch_keys (fun tx w => ?_)
    ⟨c, hc⟩ hrun trivial hrefuses rfl⟩
  · cases h
    exact beq_self_eq_true _
  · change numsHash 1 (baseNats (withWitness tx w)) = numsHash 1 (baseNats tx)
    rw [baseNats_unsigned]

/-- Side B's refusal of the payment. -/
def payRefusalOf : PeerMessage → List RejectMessage
  | .update u => [⟨u.id, u.n, u.sig, none⟩]
  | _ => []

/-- Side A's payment as side B refuses it. -/
def paymentRefused : List RejectMessage :=
  (lastSent (sampleRunOf .a payCalls)).flatMap payRefusalOf

/-- An acknowledgement that shows the negative of its secret. -/
def negatedAck : PeerMessage → List AckMessage
  | .ack a => [{ a with reveal := -a.reveal }]
  | _ => []

/-- Side B's acknowledgement of the payment it refused. -/
def lateAck : List AckMessage :=
  (lastSent (sampleRunOf .b
    (.confirmFunding 100 :: (lastSent (sampleRunOf .a payCalls)).flatMap answerOf))).flatMap
    negatedAck

end

/-! ### Two secrets of one point -/

/-- The smaller of a number and its negative. -/
def evenOf (b : Hash256) : Hash256 := if b.toNat ≤ (-b).toNat then b else -b

/-- The sample instance with a secret's point that of its negative too. -/
@[reducible] def evenHitch : Hitch :=
  { sampleHitch with
    «public» := fun s => evenOf s.1
    revocationPub := fun p s => if p + evenOf s.1 = 0 then none else some (p + evenOf s.1)
    revocationKey := fun b s =>
      if h : (evenOf b.1 + evenOf s.1 != 0) = true then some ⟨evenOf b.1 + evenOf s.1, h⟩ else none
    popSign := fun key ctx _ => keyedHash 12 (evenOf key.1) [ctx.id.toNat, ctx.owner.toNat, ctx.n]
    signLeaf := fun tx prevouts leafHash key _ _ =>
      some (sampleSignature (evenOf key.1) tx prevouts leafHash) }

attribute [local instance] evenHitch

/-- Side A's end of the opening. -/
def evenOpened : Opened where
  id := channelIdOf sampleChannel.fundingOutpoint.txid
  role := .a
  channel := sampleChannel
  initialState := ⟨80000, 20000, []⟩
  channelKey := @Opened.channelKey sampleHitch (sampleUnsigned .a)
  revocationBase := @Opened.revocationBase sampleHitch (sampleUnsigned .a)
  revocation := @Opened.revocation sampleHitch (sampleUnsigned .a)
  theirRevocationBase := 12
  theirRevocation := (31, 32)
  theirSignatureZero := sampleSignatureZero .a
  peerHubFee := none
  rules := .bip341

theorem paidNext_ne_zero : (BitVec.ofNat 256 23 != 0) = true := by
  decide

theorem againNext_ne_zero : (BitVec.ofNat 256 24 != 0) = true := by
  decide

/-- Side A pays, is refused and pays again; a sync shows it side B's first secret. -/
def attemptCalls : List Call :=
  [.confirmFunding 100, .pay 5000 none (sampleSecret 23 paidNext_ne_zero) (sampleContext 101)] ++
    paymentRefused.map (fun r => .receiveReject r (sampleContext 102)) ++
    [.pay 6000 none (sampleSecret 24 againNext_ne_zero) (sampleContext 103),
      .receiveSync ⟨.sync, evenOpened.id, 0, none, none, none, [], some [(0, 31)]⟩
        (sampleContext 104)]

/-- The calls from side A's opening. -/
def attemptMachine : Option ChannelMachine :=
  match ChannelMachine.new evenOpened with
  | .ok m => attemptCalls.foldlM (fun m c => (c.run m).map Prod.fst) m
  | _ => none

set_option maxRecDepth 100000 in
theorem attempt_refused : attemptMachine.map (fun m => (m.pending.isSome, lateAck.map fun a =>
    ((okList (m.receiveAck a).2).length, (m.receiveAck a).1.pending.isSome))) =
      some (true, [(0, false)]) := by
  decide +kernel

theorem evenOpened_valid : evenOpened.Valid where
  id := (rfl : evenOpened.id = channelIdOf sampleChannel.fundingOutpoint.txid)
  value := (by decide : sampleChannel.fundingValue ≤ maxSats)
  channel := sampleChannel_new
  state := ⟨20000, sampleState⟩

/-- **A refused acknowledgement that is not undone.** Side A, its second payment
pending, is shown side B's first secret by a sync, and then an acknowledgement of the
first payment with the secret's negative. The call returns an error, and the pending
payment is set aside. -/
theorem refused_dropped : ∃ o m log a, Run (fun _ _ => True) o m log ∧
    Refuses m (.receiveAck a) ∧ (m.receiveAck a).1.snapshot ≠ m.snapshot := by
  obtain ⟨m, hm, hfacts⟩ := Option.map_eq_some_iff.mp attempt_refused
  rw [Prod.mk.injEq] at hfacts
  obtain ⟨hpending, hacks⟩ := hfacts
  obtain ⟨a, -, hack⟩ := List.mem_map.mp (hacks ▸ List.mem_singleton_self (0, false))
  rw [Prod.mk.injEq] at hack
  obtain ⟨hnone, hdropped⟩ := hack
  have hruns : ∃ log, Run (fun _ _ => True) evenOpened m log := by
    unfold attemptMachine at hm
    split at hm
    · rename_i m₀ hnew
      have hstart : Run (fun _ _ => True) evenOpened m₀ [] := .start evenOpened_valid hnew
      exact hstart.foldlM (fun _ _ _ => trivial) hm
    · cases hm
  obtain ⟨log, hrun⟩ := hruns
  refine ⟨evenOpened, m, log, a, hrun, ?_, fun hsame => ?_⟩
  · have hpanic := ChannelMachine.receiveAck_ne_panic a hrun.words.1
    change ∃ e, (m.receiveAck a).2 = .err e
    generalize (m.receiveAck a).2 = r at hnone hpanic
    cases r with
    | ok outcome => cases hnone
    | err e => exact ⟨e, rfl⟩
    | panic => exact absurd rfl hpanic
  · have hkept := congrArg (fun s => s.kept.pending.isSome) hsame
    change (m.receiveAck a).1.pending.isSome = m.pending.isSome at hkept
    rw [hdropped, hpending] at hkept
    cases hkept

end Hitch

end Sidestr
