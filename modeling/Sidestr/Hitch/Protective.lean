/-
# The protective close

An HTLC from the other side whose preimage is known is claimed on the chain
before the other side can take it back. A tick close enough to the expiry
publishes this peer's commitment. What could stop it, a missing signature or one
that does not verify, no run brings about: the agreed state is always signed.

Key definitions: `Closable`, `Steady`, `Channel.SpendsFunding`.
Key theorems: `Move.closable`, `protective_close`.
-/
import Sidestr.Hitch.Restart

namespace Sidestr

namespace Hitch

section

variable [Hitch] {named : Prop}

open ChannelMachine

/-! ### The agreed state is signed -/

/-- This peer's commitment for the agreed state can be built, and the other side
has signed it. -/
def Closable (m : ChannelMachine) : Prop :=
  ∃ c sig, m.myCommitment m.stateNumber = .ok c ∧ m.signatures.lookup m.stateNumber = some sig ∧
    m.theirSigOk c.tx sig = true

theorem myCommitment_eq {m : ChannelMachine} {n : ℕ} {s : ProtocolState}
    (hs : m.states.lookup n = some s) : m.myCommitment n = m.commitmentAt m.role n s := by
  unfold myCommitment ChannelMachine.state
  rw [hs, Res.okOr_some, Res.ok_bind]

theorem myCommitment_ok {m : ChannelMachine} {n : ℕ} {c : Commitment}
    (h : m.myCommitment n = .ok c) :
    ∃ s, m.states.lookup n = some s ∧ m.commitmentAt m.role n s = .ok c := by
  unfold myCommitment ChannelMachine.state at h
  obtain ⟨s, hs, h⟩ := Res.bind_eq_ok.mp h
  rw [Res.okOr_eq_ok] at hs
  exact ⟨s, hs, h⟩

/-- A move that stays at the agreed state and its signature. -/
theorem Closable.stays {m m' : ChannelMachine} (hm : Closable m) (he : Extends m m')
    (hn : m'.stateNumber = m.stateNumber) (hsignatures : m'.signatures = m.signatures)
    (hstate : m'.states.lookup m.stateNumber = m.states.lookup m.stateNumber) : Closable m' := by
  obtain ⟨c, sig, hc, hsig, hok⟩ := hm
  obtain ⟨s, hs, hc⟩ := myCommitment_ok hc
  refine ⟨c, sig, ?_, ?_, ?_⟩
  · rw [hn, myCommitment_eq (hstate.trans hs)]
    exact he.myCommitment hc
  · rw [hn, hsignatures]
    exact hsig
  · rw [he.theirSigOk]
    exact hok

/-- A move to a next state that the other side has signed. -/
theorem Closable.next {m m' : ChannelMachine} (he : Extends m m') {n : ℕ} {s : ProtocolState}
    {sig : Sig} {c : Commitment} (hn : m'.stateNumber = n)
    (hsig : m'.signatures.lookup n = some sig) (hs : m'.states.lookup n = some s)
    (hc : m.commitmentAt m.role n s = .ok c) (hok : m.theirSigOk c.tx sig = true) :
    Closable m' := by
  refine ⟨c, sig, ?_, ?_, ?_⟩
  · rw [hn, myCommitment_eq hs]
    exact he.myCommitment hc
  · rw [hn]
    exact hsig
  · rw [he.theirSigOk]
    exact hok

theorem agreed_closable {m₀ m : ChannelMachine} {message : AckMessage} {s : ProtocolState}
    {update : Update} {c : Commitment} (he : Extends m₀ (m.agreed message s update))
    (hc : m₀.commitmentAt m₀.role message.n s = .ok c)
    (hok : m₀.theirSigOk c.tx message.sig = true) : Closable (m.agreed message s update) := by
  refine Closable.next he (n := message.n) (s := s) ?_ ?_ ?_ hc hok
  · rfl
  · unfold agreed
    dsimp only
    rw [Finmap.lookup_insert]
  · unfold agreed
    dsimp only
    rw [Finmap.lookup_insert]

/-- **Every move leaves the agreed state signed.** -/
theorem Move.closable {m m' : ChannelMachine} (h : Move named m m') (hnext : m.PendingNext)
    (hpoints : PointsMatch m) (hm : Closable m) : Closable m' := by
  have he := h.extends hnext hpoints
  cases h with
  | quiet hq =>
    refine hm.stays he (hq.field ChannelMachine.stateNumber) (hq.field signatures) ?_
    rw [hq.field ChannelMachine.states]
  | propose hj =>
    rename_i update next ctx s message
    have hn := (proposal_ok hj).2.2.2.1
    refine hm.stays he rfl rfl ?_
    unfold proposed
    dsimp only
    rw [Finmap.lookup_insert_of_ne]
    omega
  | accept next hj =>
    rename_i message ctx s
    obtain ⟨c, hc, hok⟩ := incomingState_signed (judgeUpdate_accept hj).2.2.2.2
    refine Closable.next he (n := message.n) (s := s) rfl ?_ ?_ hc hok
    all_goals
      unfold accepted
      dsimp only
      rw [Finmap.lookup_insert]
  | agree hj =>
    have hn := (judgeAck_agree hj).2.2.1
    obtain ⟨c, hc, hok⟩ := judgeAck_signed hj
    rw [hn] at hc
    exact agreed_closable he hc hok
  | adopt hp hn hj =>
    obtain ⟨c, hc, hok⟩ := (adoption_signed hj).2
    exact agreed_closable he hc hok
  | drop why =>
    refine hm.stays he (dropPending_stateNumber why) ?_ (dropPending_below why hnext le_rfl)
    rw [dropPending_frame]
  | reveal index reveal =>
    rw [takeTheirReveal_frame] at he ⊢
    exact hm.stays he rfl rfl rfl
  | force why hn hlive htx =>
    refine hm.stays he (dropPending_stateNumber why) ?_ (dropPending_below why hnext le_rfl)
    dsimp only
    rw [dropPending_frame]
  | _ => exact hm.stays he rfl rfl rfl

theorem machine_closable {o : Opened} {m : ChannelMachine} (hnew : ChannelMachine.new o = .ok m) :
    Closable m := by
  unfold ChannelMachine.new at hnew
  obtain ⟨_, -, hnew⟩ := Res.bind_eq_ok.mp hnew
  obtain ⟨initial, hinitial, hnew⟩ := Res.bind_eq_ok.mp hnew
  obtain ⟨_, hsig, hnew⟩ := Res.bind_eq_ok.mp hnew
  rw [Res.refuseIf_eq_ok] at hsig
  cases hnew
  refine ⟨initial, o.theirSignatureZero, hinitial, ?_, by simpa using hsig⟩
  unfold Opened.machine
  dsimp only
  rw [Finmap.lookup_insert]

/-- In every machine of a run the agreed state is signed. -/
theorem Run.closable {ok : ChannelMachine → Call → Prop} {o : Opened} {m : ChannelMachine}
    {log : List Done} (h : Run ok o m log) : Closable m := by
  induction h with
  | start hv hnew => exact machine_closable hnew
  | call c hrun _ hc ih =>
    obtain ⟨hnext, -, hch⟩ := hrun.kept
    have hmoves : Moves True _ _ := run_moves hnext hch (fun _ => trivial) hc
    have hall := hmoves.run_ind (P := fun a => PointsMatch a ∧ Closable a)
      (fun hab hnexta ha => ⟨hab.points hnexta ha.1, hab.closable hnexta ha.1 ha.2⟩)
      hnext ⟨hrun.sound.points, ih⟩
    exact hall.1.2

/-! ### What comes before the close in a tick -/

/-- The agreed state stays, with its signature and everything its commitment is
built from; what is pending may be dropped or sent again. -/
structure Steady (m m' : ChannelMachine) : Prop where
  terms : m'.terms = m.terms
  status : m'.status = m.status
  stateNumber : m'.stateNumber = m.stateNumber
  current : m'.states.lookup m.stateNumber = m.states.lookup m.stateNumber
  signatures : m'.signatures = m.signatures
  myRevocation : m'.myRevocation = m.myRevocation
  preimages : m'.preimages = m.preimages

theorem Steady.refl (m : ChannelMachine) : Steady m m := ⟨rfl, rfl, rfl, rfl, rfl, rfl, rfl⟩

theorem Steady.trans {a b c : ChannelMachine} (h : Steady a b) (h' : Steady b c) : Steady a c where
  terms := h'.terms.trans h.terms
  status := h'.status.trans h.status
  stateNumber := h'.stateNumber.trans h.stateNumber
  current := by
    have hcurrent := h'.current
    rw [h.stateNumber] at hcurrent
    exact hcurrent.trans h.current
  signatures := h'.signatures.trans h.signatures
  myRevocation := h'.myRevocation.trans h.myRevocation
  preimages := h'.preimages.trans h.preimages

theorem Steady.parts {m m' : ChannelMachine} (h : Steady m m') : m'.channel = m.channel ∧
    m'.role = m.role ∧ m'.channelKey = m.channelKey ∧
    m'.theirRevocationBase = m.theirRevocationBase ∧ m'.rules = m.rules := by
  have hterms := h.terms
  unfold ChannelMachine.terms at hterms
  simp only [Prod.mk.injEq] at hterms
  obtain ⟨hchannel, hrole, -, hkey, -, hbase, hrules⟩ := hterms
  exact ⟨hchannel, hrole, hkey, hbase, hrules⟩

theorem Steady.currentState {m m' : ChannelMachine} (h : Steady m m') :
    m'.currentState = m.currentState := by
  unfold ChannelMachine.currentState
  rw [h.stateNumber, h.current]

theorem Steady.myCommitment {m m' : ChannelMachine} (h : Steady m m') :
    m'.myCommitment m'.stateNumber = m.myCommitment m.stateNumber := by
  obtain ⟨hchannel, hrole, -, hbase, -⟩ := h.parts
  unfold ChannelMachine.myCommitment ChannelMachine.state commitmentAt revocationFor
  rw [h.stateNumber, h.current]
  simp only [if_true]
  rw [hchannel, hrole, hbase, h.myRevocation]

theorem Steady.theirSigOk {m m' : ChannelMachine} (h : Steady m m') (tx : Transaction) (sig : Sig) :
    m'.theirSigOk tx sig = m.theirSigOk tx sig := by
  obtain ⟨hchannel, hrole, -, -, hrules⟩ := h.parts
  unfold ChannelMachine.theirSigOk peerKey
  rw [hchannel, hrole, hrules]

theorem Steady.keys {m m' : ChannelMachine} (h : Steady m m') (hch : m.Rebuilds)
    (hkey : Hitch.public m.channelKey = m.myKey) :
    m'.Rebuilds ∧ Hitch.public m'.channelKey = m'.myKey := by
  obtain ⟨hchannel, hrole, hchannelKey, -, -⟩ := h.parts
  unfold Rebuilds myKey at *
  rw [hchannel, hrole, hchannelKey]
  exact ⟨hch, hkey⟩

theorem dropPending_steady {m : ChannelMachine} (why : Text) (hnext : m.PendingNext) :
    Steady m (m.dropPending why) where
  terms := Move.terms (.drop why : Move True m _)
  status := dropPending_status why
  stateNumber := dropPending_stateNumber why
  current := dropPending_below why hnext le_rfl
  signatures := by rw [dropPending_frame]
  myRevocation := dropPending_myRevocation why
  preimages := by rw [dropPending_frame]

theorem announceDropped_steady {m : ChannelMachine} : Steady m m.announceDropped := by
  unfold announceDropped
  split_ifs
  · exact .refl m
  · split
    · exact .refl m
    · exact ⟨rfl, rfl, rfl, rfl, rfl, rfl, rfl⟩

theorem resync_steady {m : ChannelMachine} (ctx : Context) (force : Bool) :
    Steady m (m.resync ctx force).1 := by
  unfold resync
  split_ifs
  · exact .refl m
  · exact ⟨rfl, rfl, rfl, rfl, rfl, rfl, rfl⟩

theorem resendUpdate_steady {m : ChannelMachine} (ctx : Context) :
    Steady m (m.resendUpdate ctx).1 := by
  unfold resendUpdate
  split
  · exact .refl m
  · exact ⟨rfl, rfl, rfl, rfl, rfl, rfl, rfl⟩

theorem tickPending_steady {m : ChannelMachine} (ctx : Context) (pendingTimeout : ℕ)
    (hnext : m.PendingNext) : Steady m (m.tickPending ctx pendingTimeout).1 := by
  unfold tickPending
  split
  · exact .refl m
  · dsimp only
    split_ifs
    · exact (dropPending_steady _ hnext).trans announceDropped_steady
    · exact (resync_steady ctx false).trans (resendUpdate_steady ctx)
    · exact .refl m

theorem tickResync_steady {m : ChannelMachine} (ctx : Context) :
    Steady m (m.tickResync ctx).1 := by
  unfold tickResync
  split_ifs
  · exact resync_steady ctx false
  · exact .refl m

/-! ### The close -/

theorem htlcOutputs_mem {ch : Channel} {owner : Side} {revocation : Point} {x : Htlc}
    (hdust : dust ≤ x.amount) :
    ∀ {hs : List Htlc} {vout : ℕ} {outs : List TxOut} {infos : List CommitmentHtlc},
      ch.htlcOutputs owner revocation vout hs = .ok (outs, infos) → x ∈ hs →
      ∃ info ∈ infos, ∃ i, info.htlc = x ∧ info.vout = vout + i ∧
        outs[i]? = some (payTo x.amount info.scripts.scriptPubkey)
  | y :: hs, vout, outs, infos, h, hx => by
    unfold Channel.htlcOutputs at h
    split at h
    · cases h
    split_ifs at h with hsmall
    · rcases List.mem_cons.mp hx with rfl | hx
      · omega
      · exact htlcOutputs_mem hdust h hx
    dsimp only at h
    split at h
    · cases h
    split at h
    · cases h
    · rename_i scripts _ _ outs' infos' hrest
      cases h
      rcases List.mem_cons.mp hx with rfl | hx
      · exact ⟨_, List.mem_cons_self, 0, rfl, rfl, rfl⟩
      · obtain ⟨info, hinfo, i, hhtlc, hvout, hout⟩ := htlcOutputs_mem hdust hrest hx
        refine ⟨info, List.mem_cons_of_mem _ hinfo, i + 1, hhtlc, by omega, ?_⟩
        rw [List.getElem?_cons_succ]
        exact hout

/-- **Every HTLC above dust has its output in a commitment.** -/
theorem commitment_htlc {ch : Channel} {number : ℕ} {owner : Side} {s : ChannelState}
    {c : Commitment} (h : ch.commitment number owner s = .ok c) {x : Htlc} (hx : x ∈ s.htlcs)
    (hdust : dust ≤ x.amount) :
    ∃ info ∈ c.htlcs, info.htlc = x ∧
      c.tx.output[info.vout]? = some (payTo x.amount info.scripts.scriptPubkey) := by
  unfold Channel.commitment at h
  split at h
  · cases h
  dsimp only at h
  split at h
  · cases h
  split at h
  · cases h
  rename_i toLocal _ _ outs infos houts
  rcases ite_eq_iff.mp h with ⟨-, h⟩ | ⟨-, h⟩
  · cases h
  cases h
  have hperm := List.mergeSort_perm s.htlcs fun x y => decide (x.id ≤ y.id)
  obtain ⟨info, hinfo, i, hhtlc, hvout, hout⟩ :=
    htlcOutputs_mem hdust houts (hperm.mem_iff.mpr hx)
  refine ⟨info, hinfo, hhtlc, ?_⟩
  unfold oneInputTx
  dsimp only
  rw [hvout, List.getElem?_append_right (Nat.le_add_right _ _), Nat.add_sub_cancel_left]
  exact hout

theorem commitment_input {ch : Channel} {number : ℕ} {owner : Side} {s : ChannelState}
    {c : Commitment} (h : ch.commitment number owner s = .ok c) :
    c.tx.input = [⟨ch.fundingOutpoint, [], inputSequence, []⟩] := by
  unfold Channel.commitment at h
  split at h
  · cases h
  dsimp only at h
  split at h
  · cases h
  split at h
  · cases h
  rcases ite_eq_iff.mp h with ⟨-, h⟩ | ⟨-, h⟩
  · cases h
  cases h
  rfl

/-- The transaction spends the funding output by its leaf, with a signature of
each key that verifies. -/
def Channel.SpendsFunding (ch : Channel) (tx : Transaction) (rules : SighashRules) : Prop :=
  ∃ first second sequence, tx.input = [⟨ch.fundingOutpoint, [], sequence,
    [second, first, ch.fundingScript.leaf.script, ch.fundingScript.leaf.controlBlock]⟩] ∧
    ch.verifyFunding tx ch.fundingScript.signers.1 first rules = true ∧
    ch.verifyFunding tx ch.fundingScript.signers.2 second rules = true

omit [Hitch] in
theorem lookup_pair {a b k : Point} (x y : Sig) (hk : k = a ∨ k = b) :
    ∃ s, [(a, x), (b, y)].lookup k = some s ∧ ((k = a ∧ s = x) ∨ (k = b ∧ s = y)) := by
  by_cases ha : k = a
  · exact ⟨x, by rw [ha, List.lookup_cons_self], .inl ⟨ha, rfl⟩⟩
  · have hb := hk.resolve_left ha
    refine ⟨y, ?_, .inr ⟨hb, rfl⟩⟩
    rw [List.lookup_cons, beq_false_of_ne ha, hb, List.lookup_cons_self]

section

variable (hverify : ∀ tx prevouts leafHash key rules aux sig,
    Hitch.signLeaf tx prevouts leafHash key rules aux = some sig →
    Hitch.verifyLeafSignature tx prevouts leafHash (Hitch.public key) sig rules = true)
  (hsign : ∀ tx prevout leafHash key rules aux, tx.input.length = 1 →
    ∃ sig, Hitch.signLeaf tx [prevout] leafHash key rules aux = some sig)
  (hunsigned : ∀ tx witness prevouts leafHash key sig rules,
    Hitch.verifyLeafSignature (withWitness tx witness) prevouts leafHash key sig rules =
      Hitch.verifyLeafSignature tx prevouts leafHash key sig rules)
  (hsigners : ∀ a b script, Hitch.fundingScript a b = some script →
    script.signers = (a, b) ∨ script.signers = (b, a))

include hverify hsign hunsigned hsigners

/-- The commitment of the agreed state, signed by both sides. -/
theorem signedCommitment_ok {m : ChannelMachine} (hch : m.Rebuilds)
    (hkey : Hitch.public m.channelKey = m.myKey) {c : Commitment} {sig : Sig} {n : ℕ}
    (hc : m.myCommitment n = .ok c) (hsig : m.signatures.lookup n = some sig)
    (hok : m.theirSigOk c.tx sig = true) (ctx : Context) :
    ∃ tx witness, m.signedCommitment n ctx = .ok tx ∧ tx = withWitness c.tx witness ∧
      m.channel.SpendsFunding tx m.rules := by
  have hinput : c.tx.input = [⟨m.channel.fundingOutpoint, [], inputSequence, []⟩] := by
    obtain ⟨s, -, hc⟩ := myCommitment_ok hc
    unfold commitmentAt at hc
    obtain ⟨key, -, hc⟩ := Res.bind_eq_ok.mp hc
    exact commitment_input (ofExcept_eq_ok.mp hc)
  obtain ⟨mine, hmine⟩ := hsign c.tx m.channel.fundingPrevout
    m.channel.fundingScript.leaf.leafHash m.channelKey m.rules ctx.aux (by rw [hinput]; rfl)
  have hminesig : m.channel.verifyFunding c.tx m.myKey mine m.rules = true := by
    rw [← hkey]
    exact hverify _ _ _ _ _ _ _ hmine
  have hslot : ∀ k, k = m.myKey ∨ k = m.peerKey →
      ∃ s, [(m.myKey, mine), (m.peerKey, sig)].lookup k = some s ∧
        m.channel.verifyFunding c.tx k s m.rules = true := by
    intro k hk
    obtain ⟨s, hs, ⟨hk, hsk⟩ | ⟨hk, hsk⟩⟩ := lookup_pair mine sig hk
    · exact ⟨s, hs, by rw [hk, hsk]; exact hminesig⟩
    · exact ⟨s, hs, by rw [hk, hsk]; exact hok⟩
  have hkeys : ∀ k, k = m.channel.keys.1 ∨ k = m.channel.keys.2 → k = m.myKey ∨ k = m.peerKey := by
    intro k hk
    unfold myKey peerKey
    cases m.role
    · exact hk
    · exact hk.symm
  have hpair : m.channel.fundingScript.signers = (m.channel.keys.1, m.channel.keys.2) ∨
      m.channel.fundingScript.signers = (m.channel.keys.2, m.channel.keys.1) := by
    unfold Rebuilds Channel.new at hch
    split_ifs at hch
    · split at hch
      · rename_i script hscript
        have hsame := congrArg Channel.fundingScript (Except.ok.inj hch)
        rw [← hsame]
        exact hsigners _ _ _ hscript
      · cases hch
  have hfirst : m.channel.fundingScript.signers.1 = m.myKey ∨
      m.channel.fundingScript.signers.1 = m.peerKey := by
    refine hkeys _ ?_
    rcases hpair with h | h
    · exact .inl (by rw [h])
    · exact .inr (by rw [h])
  have hsecond : m.channel.fundingScript.signers.2 = m.myKey ∨
      m.channel.fundingScript.signers.2 = m.peerKey := by
    refine hkeys _ ?_
    rcases hpair with h | h
    · exact .inr (by rw [h])
    · exact .inl (by rw [h])
  obtain ⟨first, hfirst, hfirstok⟩ := hslot _ hfirst
  obtain ⟨second, hsecond, hsecondok⟩ := hslot _ hsecond
  have hwitnessed : m.witnessed c.tx mine sig = .ok (withWitness c.tx [second, first,
      m.channel.fundingScript.leaf.script, m.channel.fundingScript.leaf.controlBlock]) := by
    unfold witnessed Channel.fundingWitness
    rw [hfirst, hsecond]
    rfl
  have hsigned : m.signFunding c.tx ctx = .ok mine := by
    unfold ChannelMachine.signFunding Channel.signFunding
    rw [hmine]
    rfl
  refine ⟨_, [second, first, m.channel.fundingScript.leaf.script,
    m.channel.fundingScript.leaf.controlBlock], ?_, rfl, first, second, inputSequence, ?_, ?_, ?_⟩
  · unfold signedCommitment
    rw [hsig, Res.okOr_some, Res.ok_bind, hc, Res.ok_bind, hok, hsigned, Res.ok_bind, hwitnessed]
    rfl
  · unfold withWitness
    dsimp only
    rw [hinput]
    rfl
  · unfold Channel.verifyFunding at hfirstok ⊢
    rw [hunsigned]
    exact hfirstok
  · unfold Channel.verifyFunding at hsecondok ⊢
    rw [hunsigned]
    exact hsecondok

/-- The protective close of an open channel whose agreed state is signed. -/
theorem protect_ok {m : ChannelMachine} (hopen : m.status = .open) (hch : m.Rebuilds)
    (hkey : Hitch.public m.channelKey = m.myKey) {c : Commitment} {sig : Sig}
    (hc : m.myCommitment m.stateNumber = .ok c)
    (hsig : m.signatures.lookup m.stateNumber = some sig) (hok : m.theirSigOk c.tx sig = true)
    (ctx : Context) : ∃ tx witness, (m.protect ctx).2 = [.broadcast ⟨"protective close".toList, tx⟩] ∧
      (m.protect ctx).1.status = .forceClosing ∧ tx = withWitness c.tx witness ∧
      m.channel.SpendsFunding tx m.rules := by
  obtain ⟨tx, witness, htx, hwitness, hspends⟩ := signedCommitment_ok hverify hsign hunsigned
    hsigners hch hkey hc hsig hok ctx
  have hfunded : (m.fundedHeight.isNone && ChannelStatus.open != .open) = false := by
    rw [bne_self_eq_false, Bool.and_false]
  have hforced : (m.forceClose none "protective".toList ctx).2 =
        .ok ⟨"protective close".toList, tx⟩ ∧
      (m.forceClose none "protective".toList ctx).1.status = .forceClosing := by
    unfold forceClose
    dsimp only
    rw [Option.getD_none, htx, hsig, hopen, hfunded]
    exact ⟨rfl, announceDropped_steady.status⟩
  refine ⟨tx, witness, ?_, hforced.2, hwitness, hspends⟩
  unfold protect
  dsimp only
  rw [hforced.1]

/-- **The protective close always fires.** In every machine of a run with the
channel open, an HTLC of the other side's whose preimage is known, `delay` and the
claim margin from its expiry, makes the tick publish this peer's commitment for
the agreed state, whatever is pending, awaited or held back. -/
theorem protective_close {ok : ChannelMachine → Call → Prop} {o : Opened} {m : ChannelMachine}
    {log : List Done} (hrun : Run ok o m log) (hopen : m.status = .open) (ctx : Context)
    (pendingTimeout : ℕ) {h : ProtocolHtlc} (hh : h ∈ m.currentState.htlcs)
    (hfrom : h.from ≠ m.role) (hknown : (m.preimages.lookup h.hash).isSome = true)
    (hurgent : h.expiry - (m.channel.delay + claimMargin) ≤ ctx.height) :
    (m.tick ctx pendingTimeout).1.status = .forceClosing ∧
    ∃ b c info witness, .broadcast b ∈ (m.tick ctx pendingTimeout).2 ∧
      m.myCommitment m.stateNumber = .ok c ∧ b.tx = withWitness c.tx witness ∧
      m.channel.SpendsFunding b.tx m.rules ∧
      info ∈ c.htlcs ∧ info.htlc = h.channelHtlc ∧
      b.tx.output[info.vout]? = some (payTo h.amount info.scripts.scriptPubkey) := by
  obtain ⟨hnext, -, hch⟩ := hrun.kept
  obtain ⟨c, sig, hc, hsig, hok⟩ := hrun.closable
  -- what the tick does first
  have hfirst : m.rebroadcast ctx = (m, []) := by
    unfold rebroadcast
    rw [hopen]
    simp
  have hbefore := (tickPending_steady ctx pendingTimeout hnext).trans (tickResync_steady ctx)
  have hsteady := hbefore.trans announceDropped_steady
  obtain ⟨hch', hkey'⟩ := hsteady.keys hch hrun.public_key
  obtain ⟨tx, witness, hbroadcast, hforced, hwitness, hspends⟩ := protect_ok hverify hsign hunsigned hsigners
    (hsteady.status.trans hopen) hch' hkey' (hsteady.myCommitment.trans hc)
    (hsteady.signatures ▸ hsteady.stateNumber ▸ hsig) ((hsteady.theirSigOk c.tx sig).trans hok) ctx
  -- the HTLC makes it urgent
  have hopened : (((m.tickPending ctx pendingTimeout).1.tickResync ctx).1.tickOpen ctx) =
      (((m.tickPending ctx pendingTimeout).1.tickResync ctx).1.announceDropped).protect ctx := by
    unfold tickOpen
    dsimp only
    rw [if_pos]
    rw [hsteady.currentState, hsteady.parts.1, hsteady.parts.2.1, hsteady.preimages]
    rw [List.any_eq_true]
    exact ⟨h, hh, by simp [hfrom, hknown, hurgent]⟩
  have htick : (m.tick ctx pendingTimeout).1 =
      ((((m.tickPending ctx pendingTimeout).1.tickResync ctx).1.announceDropped).protect ctx).1 ∧
      ∃ out, (m.tick ctx pendingTimeout).2 = out ++
        ((((m.tickPending ctx pendingTimeout).1.tickResync ctx).1.announceDropped).protect ctx).2 := by
    unfold tick
    dsimp only
    rw [hfirst, hopen, if_neg (by decide), if_neg (by rw [hbefore.status, hopen]; decide), hopened]
    exact ⟨rfl, _, rfl⟩
  obtain ⟨hmachine, out, hout⟩ := htick
  -- and its output is in the commitment
  obtain ⟨s, hs, hcommit⟩ := myCommitment_ok hc
  have hcurrent : m.currentState = s := by
    unfold ChannelMachine.currentState
    rw [hs, Option.getD_some]
  rw [hcurrent] at hh
  have hlarge : dust ≤ h.amount :=
    (by decide : dust ≤ minHtlc).trans ((hrun.sound.conserved.states _ s hs).amounts h hh)
  unfold commitmentAt at hcommit
  obtain ⟨key, -, hcommit⟩ := Res.bind_eq_ok.mp hcommit
  obtain ⟨info, hinfo, hhtlc, hpays⟩ := commitment_htlc (ofExcept_eq_ok.mp hcommit)
    (List.mem_map_of_mem hh : h.channelHtlc ∈ _) hlarge
  refine ⟨?_, ⟨"protective close".toList, tx⟩, c, info, witness, ?_, hc, hwitness, ?_, hinfo, hhtlc,
    ?_⟩
  · rw [hmachine]
    exact hforced
  · rw [hout, hbroadcast]
    exact List.mem_append_right _ (List.mem_singleton_self _)
  · rw [← hsteady.parts.1, ← hsteady.parts.2.2.2.2]
    exact hspends
  · dsimp only
    rw [hwitness]
    exact hpays

end

end

attribute [local instance] sampleHitch

/-- An HTLC of side A's that side B holds and whose preimage it learns. -/
def offerCalls : List Call :=
  [.confirmFunding 100, .addHtlc 5000 (Hitch.sha 77) 300 none none (sampleSecret 33 next_ne_zero)
    (sampleContext 101)]

def claimableCalls : List Call :=
  .confirmFunding 100 :: (lastSent (sampleRunOf .a offerCalls)).flatMap answerOf ++
    [.rememberPreimage 77]

set_option maxRecDepth 100000 in
theorem claimableCalls_held : (sampleRunOf .b claimableCalls).map (fun r =>
    (decide (r.1.status = .open), r.1.currentState.htlcs.map fun h =>
      decide (h.from ≠ r.1.role ∧ (r.1.preimages.lookup h.hash).isSome = true ∧
        h.expiry - (r.1.channel.delay + claimMargin) ≤ 290))) = some (true, [true]) := by
  decide +kernel

theorem baseNats_unsigned (tx : Transaction) (witness : List Bytes) :
    baseNats (withWitness tx witness) = baseNats tx := by
  unfold baseNats withWitness
  dsimp only
  rw [List.length_map, List.flatMap_map]

/-- Ten blocks before the expiry side B's tick publishes its commitment, with the
output of the HTLC. -/
theorem protective_close_sample : ∃ m log b, Run (fun _ _ => True) (sampleOpened .b) m log ∧
    m.status = .open ∧ (m.tick (sampleContext 290) 0).1.status = .forceClosing ∧
    .broadcast b ∈ (m.tick (sampleContext 290) 0).2 ∧ m.channel.SpendsFunding b.tx m.rules := by
  have hheld := claimableCalls_held
  rw [Option.map_eq_some_iff] at hheld
  obtain ⟨⟨m, log⟩, hr, hheld⟩ := hheld
  rw [Prod.mk.injEq, decide_eq_true_eq] at hheld
  obtain ⟨hopen, hhtlcs⟩ := hheld
  obtain ⟨h, hh⟩ := List.length_eq_one_iff.mp
    ((List.length_map _).symm.trans (congrArg List.length hhtlcs))
  dsimp only at hopen hhtlcs hh
  rw [hh, List.map_singleton, List.singleton_inj, decide_eq_true_eq] at hhtlcs
  obtain ⟨hfrom, hknown, hurgent⟩ := hhtlcs
  have hrun : Run (fun _ _ => True) (sampleOpened .b) m log :=
    run_of_sample (fun _ _ _ => trivial) hr
  obtain ⟨hforced, b, c, info, witness, hb, -, -, hspends, -⟩ := protective_close
    (fun tx prevouts leafHash key rules aux sig h => by
      cases h
      exact beq_self_eq_true _)
    (fun tx prevout leafHash key rules aux _ => ⟨_, rfl⟩)
    (fun tx witness prevouts leafHash key sig rules => by
      change (sig == sampleSignature key (withWitness tx witness) prevouts leafHash) =
        (sig == sampleSignature key tx prevouts leafHash)
      unfold sampleSignature leafHashOf
      change (sig == displayBytes (numsHash 1 (baseNats (withWitness tx witness))) ++ _) =
        (sig == displayBytes (numsHash 1 (baseNats tx)) ++ _)
      rw [baseNats_unsigned])
    (fun a b script h => by
      cases h
      exact .inl rfl)
    hrun hopen (sampleContext 290) 0 (hh ▸ List.mem_singleton_self h) hfrom hknown hurgent
  exact ⟨m, log, b, hrun, hopen, hforced, hb, hspends⟩

end Hitch

end Sidestr
