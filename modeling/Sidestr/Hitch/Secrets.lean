/-
# No live secret is revealed

The per-state secrets leave this peer in acknowledgements, revocations and
syncs, and its commitments leave it in closes. Over a run in which a forced
close is always of the current state, every secret sent is of an earlier state
than the agreed one, and once a close is signed or published the agreed state
stays what it was. So no commitment ever broadcast is of a revealed state.

The one fact about the curve: a revocation key whose point exists, exists.

Key definitions: `PeerMessage.reveals`, `PointsMatch`, `Settled`.
Key theorems: `Move.settled`, `no_live_secret`.
-/
import Sidestr.Hitch.Moves
import Sidestr.Hitch.Sample

namespace Sidestr

namespace Hitch

section

variable [Hitch] {named : Prop}

open ChannelMachine

/-! ### What moves keep of the other side's points -/

/-- Points are announced one state ahead at most, and every secret held is its point's. -/
structure PointsMatch (m : ChannelMachine) : Prop where
  points : ∀ n p, m.theirRevocationPublic.lookup n = some p → n ≤ m.stateNumber + 1
  secrets : ∀ n k, m.theirRevocation.lookup n = some k →
    m.theirRevocationPublic.lookup n = some (Hitch.public k)

theorem newReveal_eq_some {m : ChannelMachine} {index : ℕ} {reveal : Hash256} {s : SecretKey}
    (h : m.newReveal index reveal = some s) :
    m.theirRevocationPublic.lookup index = some (Hitch.public s) := by
  unfold newReveal at h
  split at h
  · cases h
  split at h
  · rename_i point k hpoint _
    split at h
    · rename_i hk
      cases h
      rw [hpoint, hk]
    · cases h
  · cases h

theorem takeTheirReveal_points {m : ChannelMachine} (hm : PointsMatch m) (index : ℕ)
    (reveal : Hash256) : PointsMatch (m.takeTheirReveal index reveal) := by
  unfold takeTheirReveal
  split
  · rename_i s hs
    refine ⟨hm.points, fun n k hk => ?_⟩
    by_cases hn : n = index
    · dsimp only at hk
      rw [hn, Finmap.lookup_insert, Option.some.injEq] at hk
      rw [hn, ← hk]
      exact (newReveal_eq_some hs :)
    · dsimp only at hk
      rw [Finmap.lookup_insert_of_ne _ hn] at hk
      exact hm.secrets n k hk
  · exact hm

/-- The next state, with the point after it announced. -/
theorem PointsMatch.next {m m' : ChannelMachine} (hm : PointsMatch m) (point : Point)
    (hn : m'.stateNumber = m.stateNumber + 1)
    (hpoints : m'.theirRevocationPublic = m.theirRevocationPublic.insert (m.stateNumber + 2) point)
    (hsecrets : m'.theirRevocation = m.theirRevocation) : PointsMatch m' where
  points n p hp := by
    rw [hpoints] at hp
    rw [hn]
    by_cases hnew : n = m.stateNumber + 2
    · omega
    · rw [Finmap.lookup_insert_of_ne _ hnew] at hp
      have hle := hm.points n p hp
      omega
  secrets n k hk := by
    rw [hsecrets] at hk
    have hpoint := hm.secrets n k hk
    have hle := hm.points n _ hpoint
    have hne : n ≠ m.stateNumber + 2 := by omega
    rw [hpoints, Finmap.lookup_insert_of_ne _ hne]
    exact hpoint

theorem agreed_points {m : ChannelMachine} (hm : PointsMatch m) {message : AckMessage}
    (hn : message.n = m.stateNumber + 1) (s : ProtocolState) (update : Update) :
    PointsMatch (m.agreed message s update) := by
  refine (takeTheirReveal_points hm m.stateNumber message.reveal).next message.nextRev
    ?_ ?_ rfl
  · rw [takeTheirReveal_frame]
    exact hn
  · unfold agreed
    dsimp only
    rw [takeTheirReveal_frame, hn]

theorem Move.points {m m' : ChannelMachine} (h : Move named m m') (hnext : m.PendingNext)
    (hm : PointsMatch m) : PointsMatch m' := by
  cases h with
  | quiet hq =>
    refine ⟨fun n p hp => ?_, fun n k hk => ?_⟩
    · rw [hq.field theirRevocationPublic] at hp
      rw [hq.field stateNumber]
      exact hm.points n p hp
    · rw [hq.field theirRevocation] at hk
      rw [hq.field theirRevocationPublic]
      exact hm.secrets n k hk
  | drop why =>
    rw [dropPending_frame]
    exact ⟨hm.points, hm.secrets⟩
  | force why hn hlive htx =>
    rw [dropPending_frame]
    exact ⟨hm.points, hm.secrets⟩
  | reveal index reveal => exact takeTheirReveal_points hm index reveal
  | accept next hj =>
    rename_i message ctx s
    have hn := (judgeUpdate_accept hj).2.2.1
    refine hm.next message.nextRev hn ?_ ?_
    · unfold accepted
      dsimp only
      rw [dropPending_frame, hn]
    · unfold accepted
      dsimp only
      rw [dropPending_frame]
  | agree hj =>
    rename_i message pending s
    obtain ⟨-, hp, hn, -⟩ := judgeAck_agree hj
    refine agreed_points (m := { m with pending := none }) ⟨hm.points, hm.secrets⟩ ?_ _ _
    rw [← hn]
    exact hnext pending hp
  | adopt hp hn hj =>
    exact agreed_points (m := m.removeAlternative _ _) ⟨hm.points, hm.secrets⟩ hn _ _
  | _ => exact ⟨hm.points, hm.secrets⟩

theorem machine_points (o : Opened) : PointsMatch o.machine := by
  refine ⟨fun n p hp => ?_, fun n k hk => ?_⟩
  · unfold Opened.machine at hp ⊢
    dsimp only at hp ⊢
    by_cases h1 : n = 1
    · omega
    · rw [Finmap.lookup_insert_of_ne _ h1] at hp
      by_cases h0 : n = 0
      · omega
      · rw [Finmap.lookup_insert_of_ne _ h0, Finmap.lookup_empty] at hp
        cases hp
  · unfold Opened.machine at hk
    dsimp only at hk
    rw [Finmap.lookup_empty] at hk
    cases hk

/-! ### Once a close is out -/

/-- The transaction is this peer's commitment at state `n`, with a witness. -/
def ChannelMachine.Published (m : ChannelMachine) (n : ℕ) (tx : Transaction) : Prop :=
  ∃ c w, m.myCommitment n = .ok c ∧ tx = withWitness c.tx w

/-- The fields a commitment of this peer's is built from. -/
theorem published_congr {m m' : ChannelMachine} {n : ℕ} {tx : Transaction}
    (hterms : m'.terms = m.terms) (hstate : m'.states.lookup n = m.states.lookup n)
    (hkey : m'.myRevocation.lookup n = m.myRevocation.lookup n) (h : m.Published n tx) :
    m'.Published n tx := by
  unfold ChannelMachine.terms at hterms
  simp only [Prod.mk.injEq] at hterms
  obtain ⟨hchannel, hrole, -, -, -, htheirs, -⟩ := hterms
  obtain ⟨c, w, hc, rfl⟩ := h
  refine ⟨c, w, ?_, rfl⟩
  unfold myCommitment ChannelMachine.state commitmentAt revocationFor at hc ⊢
  rw [hchannel, hrole, htheirs, hstate, hkey]
  simp only [↓reduceIte] at hc ⊢
  exact hc

/-- What holds of a channel's closes: a spent channel says so; a channel with a
close published is not live, and the close is of the agreed state; a channel
whose cooperative close was signed agrees nothing more. -/
structure Settled (named : Prop) (m : ChannelMachine) : Prop where
  spent : m.spend.isSome = true → m.status.isSpent = true
  back : ∀ sp, m.spend = some sp → (m.close.isSome = true → sp.previousStatus.isLive = false) ∧
    (m.coopTxid.isSome = true → sp.previousStatus ≠ .funding ∧ sp.previousStatus ≠ .open)
  close : ∀ c, m.close = some c → m.status.isLive = false ∧ m.pending = none ∧
    ∀ k, c.state = some k → named ∨ k = m.stateNumber ∧ m.Published k c.tx
  coop : m.coopTxid.isSome = true →
    m.pending = none ∧ m.status ≠ .funding ∧ m.status ≠ .open

omit [Hitch] in
theorem isSpent_not_live {status : ChannelStatus} (h : status.isSpent = true) :
    status.isLive = false := by
  cases status <;> first | rfl | cases h

/-- A move that leaves the closes and what they are of. -/
theorem Settled.congr {m m' : ChannelMachine} (hm : Settled named m) (hterms : m'.terms = m.terms)
    (hspend : m'.spend = m.spend) (hclose : m'.close = m.close)
    (hcoop : m'.coopTxid = m.coopTxid) (hstatus : m'.status = m.status)
    (hn : m'.stateNumber = m.stateNumber) (hpending : m.pending = none → m'.pending = none)
    (hstates : m.pending = none → m'.states.lookup m.stateNumber = m.states.lookup m.stateNumber)
    (hkeys : m'.myRevocation.lookup m.stateNumber = m.myRevocation.lookup m.stateNumber) :
    Settled named m' where
  spent h := by
    rw [hspend] at h
    rw [hstatus]
    exact hm.spent h
  back sp h := by
    rw [hspend] at h
    rw [hclose, hcoop]
    exact hm.back sp h
  close c h := by
    rw [hclose] at h
    obtain ⟨hlive, hp, hk⟩ := hm.close c h
    rw [hstatus, hn]
    refine ⟨hlive, hpending hp, fun k hck => ?_⟩
    refine (hk k hck).imp id fun ⟨hkn, hpub⟩ => ⟨hkn, ?_⟩
    subst hkn
    exact published_congr hterms (hstates hp) hkeys hpub
  coop h := by
    rw [hcoop] at h
    rw [hstatus]
    exact ⟨hpending (hm.coop h).1, (hm.coop h).2⟩

/-- An open channel has no close, signed or published, and no spend. -/
theorem Settled.open_none {m : ChannelMachine} (hm : Settled named m) (h : m.status = .open) :
    m.close = none ∧ m.coopTxid = none ∧ m.spend = none := by
  refine ⟨?_, ?_, ?_⟩
  · cases hc : m.close with
    | none => rfl
    | some c =>
      have hlive := (hm.close c hc).1
      rw [h] at hlive
      cases hlive
  · cases hc : m.coopTxid with
    | none => rfl
    | some t => exact absurd h (hm.coop (by rw [hc]; rfl)).2.2
  · cases hs : m.spend with
    | none => rfl
    | some sp =>
      have hspent := hm.spent (by rw [hs]; rfl)
      rw [h] at hspent
      cases hspent

/-- With nothing signed or spent, nothing is asked of the rest. -/
theorem settled_of_none {m : ChannelMachine} (hclose : m.close = none) (hcoop : m.coopTxid = none)
    (hspend : m.spend = none) : Settled named m := by
  refine ⟨fun h => ?_, fun sp h => ?_, fun c h => ?_, fun h => ?_⟩
  · rw [hspend] at h
    cases h
  · rw [hspend] at h
    cases h
  · rw [hclose] at h
    cases h
  · rw [hcoop] at h
    cases h

/-- A live channel, or one that closes, has no spend. -/
theorem Settled.spend_none {m : ChannelMachine} (hm : Settled named m)
    (h : m.status.isSpent = false) : m.spend = none := by
  cases hs : m.spend with
  | none => rfl
  | some sp =>
    have hspent := hm.spent (by rw [hs]; rfl)
    rw [h] at hspent
    cases hspent

/-- A live channel has published no close. -/
theorem Settled.close_none {m : ChannelMachine} (hm : Settled named m) (h : m.status.isLive = true) :
    m.close = none := by
  cases hc : m.close with
  | none => rfl
  | some c =>
    have hlive := (hm.close c hc).1
    rw [h] at hlive
    cases hlive

theorem Settled.coop_none {m : ChannelMachine} (hm : Settled named m)
    (h : m.pending ≠ none ∨ m.status = .funding ∨ m.status = .open) : m.coopTxid = none := by
  cases hc : m.coopTxid with
  | none => rfl
  | some t =>
    obtain ⟨hp, hf, ho⟩ := hm.coop (by rw [hc]; rfl)
    rcases h with h | h | h
    · exact absurd hp h
    · exact absurd h hf
    · exact absurd h ho

omit [Hitch] in
theorem isLive_not_spent {status : ChannelStatus} (h : status.isLive = true) :
    status.isSpent = false := by
  cases status <;> first | rfl | cases h

/-- The signed commitment of a state is that state's, with a witness. -/
theorem signedCommitment_published {m : ChannelMachine} {n : ℕ} {ctx : Context} {tx : Transaction}
    (h : m.signedCommitment n ctx = .ok tx) : m.Published n tx := by
  unfold signedCommitment at h
  obtain ⟨theirs, -, h⟩ := Res.bind_eq_ok.mp h
  obtain ⟨c, hc, h⟩ := Res.bind_eq_ok.mp h
  obtain ⟨-, -, h⟩ := Res.bind_eq_ok.mp h
  obtain ⟨mine, -, h⟩ := Res.bind_eq_ok.mp h
  obtain ⟨w, rfl⟩ := witnessed_ok h
  exact ⟨c, w, hc, rfl⟩

/-- Where the point of a revocation key exists, the key does. -/
theorem penalty_key {m : ChannelMachine} (hm : PointsMatch m)
    (hkeys : ∀ r b : SecretKey, Hitch.revocationKey b r = none →
      Hitch.revocationPub (Hitch.public r) b = none)
    {n : ℕ} {s : ProtocolState} {c : Commitment} {k : SecretKey}
    (hc : m.theirCommitment n s = .ok c) (hk : m.theirRevocation.lookup n = some k) :
    Hitch.revocationKey m.myRevocationBase k ≠ none := by
  intro hnone
  unfold theirCommitment commitmentAt revocationFor at hc
  obtain ⟨key, hkey, -⟩ := Res.bind_eq_ok.mp hc
  have hother : m.role.other ≠ m.role := by cases m.role <;> decide
  rw [if_neg hother] at hkey
  obtain ⟨point, hpoint, hkey⟩ := Res.bind_eq_ok.mp hkey
  rw [Res.okOr_eq_ok, hm.secrets n k hk, Option.some.injEq] at hpoint
  rw [← hpoint, hkeys _ _ hnone] at hkey
  cases hkey

theorem Move.settled {m m' : ChannelMachine} (h : Move named m m')
    (hkeys : ∀ r b : SecretKey, Hitch.revocationKey b r = none →
      Hitch.revocationPub (Hitch.public r) b = none)
    (hnext : m.PendingNext) (hpoints : PointsMatch m) (hm : Settled named m) : Settled named m' := by
  have hterms := h.terms
  cases h with
  | quiet hq =>
    refine hm.congr hterms (hq.field ChannelMachine.spend) (hq.field ChannelMachine.close)
      (hq.field coopTxid) (hq.field status) (hq.field stateNumber) ?_ ?_ ?_
    · rw [hq.field pending]
      exact id
    · rw [hq.field states]
      exact fun _ => rfl
    · rw [hq.field myRevocation]
  | propose hj =>
    obtain ⟨hclose, hcoop, hspend⟩ := hm.open_none (proposal_ok hj).1
    exact settled_of_none hclose hcoop hspend
  | resend now tries hp =>
    exact hm.congr hterms rfl rfl rfl rfl rfl (fun h => by rw [hp] at h; cases h)
      (fun _ => rfl) rfl
  | accept next hj =>
    obtain ⟨hclose, hcoop, hspend⟩ := hm.open_none (judgeUpdate_accept hj).1
    refine settled_of_none ?_ ?_ ?_
    · exact (dropPending_close _).trans hclose
    · exact (dropPending_coopTxid _).trans hcoop
    · exact (dropPending_spend _).trans hspend
  | buffer hj => exact hm.congr hterms rfl rfl rfl rfl rfl id (fun _ => rfl) rfl
  | unbuffer ha => exact hm.congr hterms rfl rfl rfl rfl rfl id (fun _ => rfl) rfl
  | agree hj =>
    obtain ⟨hstatus, hp, -⟩ := judgeAck_agree hj
    have hlive : m.status.isLive = true := by
      rcases hstatus with h | h <;> rw [h] <;> rfl
    refine settled_of_none ?_ ?_ ?_
    · unfold agreed
      dsimp only
      rw [takeTheirReveal_frame]
      exact hm.close_none hlive
    · unfold agreed
      dsimp only
      rw [takeTheirReveal_frame]
      exact hm.coop_none (.inl (by rw [hp]; exact Option.some_ne_none _))
    · unfold agreed
      dsimp only
      rw [takeTheirReveal_frame]
      exact hm.spend_none (isLive_not_spent hlive)
  | adopt hp hn hj =>
    obtain ⟨hclose, hcoop, hspend⟩ := hm.open_none (adoption_ok hj).1
    refine settled_of_none ?_ ?_ ?_
    all_goals
      unfold agreed
      dsimp only
      rw [takeTheirReveal_frame]
      assumption
  | drop why =>
    refine hm.congr hterms (dropPending_spend why) (dropPending_close why)
      (dropPending_coopTxid why) (dropPending_status why) (dropPending_stateNumber why)
      (fun _ => dropPending_pending why) (fun hp => ?_) ?_
    · refine dropPending_states why fun p h => ?_
      rw [hp] at h
      cases h
    · rw [dropPending_myRevocation]
  | reveal index reveal =>
    rw [takeTheirReveal_frame] at hterms ⊢
    exact hm.congr hterms rfl rfl rfl rfl rfl id (fun _ => rfl) rfl
  | final ha hr => exact hm.congr hterms rfl rfl rfl rfl rfl id (fun _ => rfl) rfl
  | confirm hf =>
    refine settled_of_none (hm.close_none ?_) (hm.coop_none (.inr (.inl hf)))
      (hm.spend_none ?_)
    · rw [hf]
      rfl
    · rw [hf]
      rfl
  | askClose hstatus hp ha htx =>
    have hlive : m.status.isLive = true := by
      rcases hstatus with h | h <;> rw [h] <;> rfl
    have hclose := hm.close_none hlive
    have hspend := hm.spend_none (isLive_not_spent hlive)
    refine ⟨fun h => ?_, fun sp h => ?_, fun c h => ?_, fun _ => ⟨hp, ?_, ?_⟩⟩
    · rw [hspend] at h
      cases h
    · rw [hspend] at h
      cases h
    · rw [hclose] at h
      cases h
    · exact fun h => by cases h
    · exact fun h => by cases h
  | coopClose w height hlive hp ha htx =>
    have hspend := hm.spend_none (isLive_not_spent hlive)
    refine ⟨fun h => ?_, fun sp h => ?_, fun c h => ?_, fun _ => ⟨hp, ?_, ?_⟩⟩
    · rw [hspend] at h
      cases h
    · rw [hspend] at h
      cases h
    · cases h
      exact ⟨rfl, hp, fun k hk => by cases hk⟩
    · exact fun h => by cases h
    · exact fun h => by cases h
  | force why hn hlive htx =>
    rename_i n tx ctx
    have hspend : m.spend = none := by
      refine hm.spend_none ?_
      rcases hlive with h | h
      · exact isLive_not_spent h
      · rw [h]
        rfl
    have hspend' : (m.dropPending why).spend = none := (dropPending_spend why).trans hspend
    refine ⟨fun h => ?_, fun sp h => ?_, fun c h => ?_, fun _ => ⟨dropPending_pending why, ?_, ?_⟩⟩
    · rw [hspend'] at h
      cases h
    · rw [hspend'] at h
      cases h
    · cases h
      refine ⟨rfl, dropPending_pending why, fun k hk => ?_⟩
      cases hk
      rcases hn with rfl | hnamed
      case inr => exact .inl hnamed
      refine .inr ⟨(dropPending_stateNumber why).symm, ?_⟩
      refine published_congr hterms (dropPending_states why fun p hp => ?_) ?_
        (signedCommitment_published htx)
      · rw [hnext p hp]
        exact Nat.succ_ne_self _
      · exact congrArg (Finmap.lookup m.stateNumber) (dropPending_myRevocation why)
    · exact fun h => by cases h
    · exact fun h => by cases h
  | rebroadcast height hc =>
    refine ⟨hm.spent, fun sp h => ?_, fun c' h => ?_, hm.coop⟩
    · have hback := hm.back sp h
      rw [hc] at hback
      exact hback
    · cases h
      exact (hm.close _ hc :)
  | spent txid height kind hs =>
    refine ⟨fun _ => hs, fun sp h => ?_, fun c h => ?_, fun h => ?_⟩
    · cases h
      refine ⟨fun hc => ?_, fun hc => (hm.coop hc).2⟩
      obtain ⟨c, hc⟩ := Option.isSome_iff_exists.mp hc
      exact (hm.close c hc).1
    · exact ⟨isSpent_not_live hs, (hm.close c h).2⟩
    · refine ⟨(hm.coop h).1, ?_, ?_⟩
      · rintro rfl
        cases hs
      · rintro rfl
        cases hs
  | unpunished txid height kind hc hk hnone =>
    exact absurd hnone (penalty_key hpoints hkeys hc hk)
  | follow hs hs' =>
    refine ⟨fun _ => hs', hm.back, fun c h => ⟨isSpent_not_live hs', (hm.close c h).2⟩,
      fun h => ⟨(hm.coop h).1, ?_, ?_⟩⟩
    · rintro rfl
      cases hs'
    · rintro rfl
      cases hs'
  | unSpend hsp =>
    rename_i sp
    obtain ⟨hlive, hcoop⟩ := hm.back sp hsp
    refine ⟨fun h => absurd h (by simp), fun sp h => absurd h (by simp),
      fun c h => ⟨?_, (hm.close c h).2⟩, fun h => ⟨(hm.coop h).1, ?_, ?_⟩⟩
    · have hprev := hlive (by rw [h]; rfl)
      dsimp only [backTo]
      split_ifs
      · rfl
      · exact hprev
    · dsimp only [backTo]
      split_ifs
      · exact fun h => by cases h
      · exact (hcoop h).1
    · dsimp only [backTo]
      split_ifs
      · exact fun h => by cases h
      · exact (hcoop h).2

/-! ### The agreed state goes on, and then stays -/

/-- A close of this peer's is published, or its cooperative close is signed. -/
def ChannelMachine.Frozen (m : ChannelMachine) : Prop :=
  m.close.isSome = true ∨ m.coopTxid.isSome = true

theorem Settled.frozen_of_status {m : ChannelMachine} (hm : Settled named m)
    (h : m.status = .open ∨ m.status = .closingAsked ∧ m.pending ≠ none) : ¬ m.Frozen := by
  have hlive : m.status.isLive = true := by
    rcases h with h | ⟨h, -⟩ <;> rw [h] <;> rfl
  rintro (hc | hc)
  · rw [hm.close_none hlive] at hc
    cases hc
  · rw [hm.coop_none] at hc
    · cases hc
    · rcases h with h | ⟨-, h⟩
      · exact .inr (.inr h)
      · exact .inl h

/-- A move keeps the agreed state or goes to the next; on a frozen channel it
keeps it, and the channel stays frozen. -/
theorem Move.stateNumber_le {m m' : ChannelMachine} (h : Move named m m') (hnext : m.PendingNext)
    (hm : Settled named m) : m.stateNumber ≤ m'.stateNumber ∧
      (m.Frozen → m'.Frozen ∧ m'.stateNumber = m.stateNumber) := by
  cases h with
  | quiet hq =>
    unfold ChannelMachine.Frozen
    rw [hq.field stateNumber, hq.field ChannelMachine.close, hq.field coopTxid]
    exact ⟨le_rfl, fun h => ⟨h, rfl⟩⟩
  | propose hj => exact ⟨le_rfl, fun h => ⟨h, rfl⟩⟩
  | accept next hj =>
    refine ⟨?_, fun h => absurd h (hm.frozen_of_status (.inl (judgeUpdate_accept hj).1))⟩
    exact (Nat.le_succ _).trans (judgeUpdate_accept hj).2.2.1.ge
  | agree hj =>
    obtain ⟨hstatus, hp, hn, -⟩ := judgeAck_agree hj
    refine ⟨?_, fun h => absurd h (hm.frozen_of_status ?_)⟩
    · have := hnext _ hp
      change _ ≤ AckMessage.n _
      omega
    · exact hstatus.imp id fun h => ⟨h, by rw [hp]; exact Option.some_ne_none _⟩
  | adopt hp hn hj =>
    refine ⟨?_, fun h => absurd h (hm.frozen_of_status (.inl (adoption_ok hj).1))⟩
    exact (Nat.le_succ _).trans hn.ge
  | drop why =>
    unfold ChannelMachine.Frozen
    rw [dropPending_stateNumber, dropPending_close, dropPending_coopTxid]
    exact ⟨le_rfl, fun h => ⟨h, rfl⟩⟩
  | reveal index reveal =>
    rw [takeTheirReveal_frame]
    exact ⟨le_rfl, fun h => ⟨h, rfl⟩⟩
  | askClose hstatus hp ha htx => exact ⟨le_rfl, fun _ => ⟨.inr rfl, rfl⟩⟩
  | coopClose w height hlive hp ha htx => exact ⟨le_rfl, fun _ => ⟨.inl rfl, rfl⟩⟩
  | force why hn hlive htx =>
    exact ⟨(dropPending_stateNumber why).ge, fun _ => ⟨.inl rfl, dropPending_stateNumber why⟩⟩
  | rebroadcast height hc => exact ⟨le_rfl, fun _ => ⟨.inl rfl, rfl⟩⟩
  | _ => exact ⟨le_rfl, fun h => ⟨h, rfl⟩⟩

/-- Some moves of a channel whose closes are in order. -/
theorem Moves.settled {m m' : ChannelMachine} (h : Moves named m m')
    (hkeys : ∀ r b : SecretKey, Hitch.revocationKey b r = none →
      Hitch.revocationPub (Hitch.public r) b = none)
    (hnext : m.PendingNext) (hpoints : PointsMatch m) (hm : Settled named m) :
    m'.PendingNext ∧ PointsMatch m' ∧ Settled named m' ∧ m.stateNumber ≤ m'.stateNumber ∧
      (m.Frozen → m'.Frozen ∧ m'.stateNumber = m.stateNumber) := by
  refine h.ind (P := fun b => b.PendingNext ∧ PointsMatch b ∧ Settled named b ∧
    m.stateNumber ≤ b.stateNumber ∧ (m.Frozen → b.Frozen ∧ b.stateNumber = m.stateNumber))
    ?_ ⟨hnext, hpoints, hm, le_rfl, fun h => ⟨h, rfl⟩⟩
  rintro a b hab ⟨hanext, hapoints, ha, hle, hfrozen⟩
  obtain ⟨hle', hfrozen'⟩ := hab.stateNumber_le hanext ha
  refine ⟨hab.pendingNext hanext, hab.points hanext hapoints,
    hab.settled hkeys hanext hapoints ha, hle.trans hle', fun h => ?_⟩
  obtain ⟨hf, hn⟩ := hfrozen h
  obtain ⟨hf', hn'⟩ := hfrozen' hf
  exact ⟨hf', hn'.trans hn⟩

/-! ### What a message reveals -/

omit [Hitch] in
/-- The per-state secrets a message carries, each with its state. -/
def PeerMessage.reveals : PeerMessage → List (ℕ × Hash256)
  | .ack m => [(m.n - 1, m.reveal)]
  | .revoke m => [(m.n - 1, m.reveal)]
  | .sync m => (m.reveal.map fun r => (m.n - 1, r)).toList ++ m.reveals.getD []
  | _ => []

namespace ChannelMachine

variable {m : ChannelMachine}

/-- The secrets a message carries are this peer's, of states before the agreed one. -/
def OnlyPast (m : ChannelMachine) (message : PeerMessage) : Prop :=
  ∀ r ∈ message.reveals, r.1 < m.stateNumber ∧
    (m.myRevocation.lookup r.1).map Subtype.val = some r.2

/-- The agreed state's number and this peer's secrets are the same. -/
structure SameSecrets (m m' : ChannelMachine) : Prop where
  stateNumber : m'.stateNumber = m.stateNumber
  myRevocation : m'.myRevocation = m.myRevocation

theorem SameSecrets.refl (m : ChannelMachine) : SameSecrets m m := ⟨rfl, rfl⟩

theorem SameSecrets.trans {a b c : ChannelMachine} (h : SameSecrets a b) (h' : SameSecrets b c) :
    SameSecrets a c :=
  ⟨h'.stateNumber.trans h.stateNumber, h'.myRevocation.trans h.myRevocation⟩

theorem quiet_same {m' : ChannelMachine} (h : Quiet m m') : SameSecrets m m' :=
  ⟨h.field ChannelMachine.stateNumber, h.field ChannelMachine.myRevocation⟩

theorem SameSecrets.onlyPast {m' : ChannelMachine} (h : SameSecrets m m') {message : PeerMessage}
    (hm : m.OnlyPast message) : m'.OnlyPast message := by
  intro r hr
  rw [h.stateNumber, h.myRevocation]
  exact hm r hr

theorem dropPending_same (why : Text) : SameSecrets m (m.dropPending why) :=
  ⟨dropPending_stateNumber why, dropPending_myRevocation why⟩

theorem resendUpdate_same (ctx : Context) : SameSecrets m (m.resendUpdate ctx).1 := by
  unfold resendUpdate
  split
  · exact .refl m
  · exact ⟨rfl, rfl⟩

theorem finalise_same : SameSecrets m m.finalise.1 := by
  unfold finalise
  split
  · exact .refl m
  · split_ifs
    · exact .refl m
    · exact ⟨announceDropped_quiet.field ChannelMachine.stateNumber,
        announceDropped_quiet.field ChannelMachine.myRevocation⟩

theorem acknowledgement_onlyPast {ctx : Context} {ack : AckMessage}
    (h : m.acknowledgement ctx = .ok (some ack)) : m.OnlyPast (.ack ack) := by
  unfold acknowledgement at h
  dsimp only at h
  split at h
  · cases h
  rename_i hn
  split at h
  · cases h
  obtain ⟨s, -, h⟩ := Res.bind_eq_ok.mp h
  obtain ⟨c, -, h⟩ := Res.bind_eq_ok.mp h
  obtain ⟨sig, -, h⟩ := Res.bind_eq_ok.mp h
  obtain ⟨next, -, h⟩ := Res.bind_eq_ok.mp h
  split at h
  · cases h
  · rename_i previous hprevious
    cases h
    intro r hr
    unfold PeerMessage.reveals at hr
    rw [List.mem_singleton] at hr
    subst hr
    dsimp only
    rw [hprevious]
    exact ⟨by omega, rfl⟩

theorem syncMessage_onlyPast (t : SyncTag) : m.OnlyPast (.sync (m.syncMessage t)) := by
  intro r hr
  unfold PeerMessage.reveals syncMessage at hr
  simp only [Option.getD_none, List.append_nil, Option.mem_toList] at hr
  split_ifs at hr with hn
  · rw [Option.map_map, Option.map_eq_some_iff] at hr
    obtain ⟨s, hs, rfl⟩ := hr
    dsimp only [Function.comp]
    rw [hs]
    exact ⟨by omega, rfl⟩
  · cases hr

theorem synced_onlyPast (message : SyncMessage) : m.OnlyPast (.sync (m.synced message)) := by
  intro r hr
  unfold PeerMessage.reveals synced at hr
  rw [List.mem_append] at hr
  rcases hr with hr | hr
  · refine syncMessage_onlyPast .synced r ?_
    unfold PeerMessage.reveals
    exact List.mem_append_left _ hr
  · rw [Option.getD_some, List.mem_filterMap] at hr
    obtain ⟨n, hn, hr⟩ := hr
    rw [Option.map_eq_some_iff] at hr
    obtain ⟨s, hs, rfl⟩ := hr
    have hmay := (List.mem_filter.mp hn).2
    unfold mayReveal at hmay
    rw [Bool.and_eq_true, decide_eq_true_iff] at hmay
    dsimp only
    rw [hs]
    exact ⟨hmay.1, rfl⟩

theorem resync_onlyPast {ctx : Context} {force : Bool} {s : SyncMessage}
    (h : (m.resync ctx force).2 = some s) : m.OnlyPast (.sync s) := by
  unfold resync at h
  split_ifs at h
  cases h
  exact syncMessage_onlyPast (m := m) .sync

theorem ackOutcome_onlyPast {n previous : ℕ} {update : Update} {adopted : Bool}
    {outcome : AckOutcome} (h : m.ackOutcome n previous update adopted = .ok outcome)
    (hn : n = previous + 1) (hm : m.stateNumber = n) : m.OnlyPast (.revoke outcome.revoke) := by
  unfold ackOutcome at h
  split at h
  · cases h
  · rename_i s hs
    cases h
    intro r hr
    unfold PeerMessage.reveals at hr
    rw [List.mem_singleton] at hr
    subst hr
    dsimp only
    rw [hn, Nat.add_sub_cancel, hs]
    exact ⟨by omega, rfl⟩

theorem agreed_stateNumber (message : AckMessage) (s : ProtocolState) (update : Update) :
    (m.agreed message s update).stateNumber = message.n := rfl

theorem adoptAlternative_onlyPast {message : AckMessage} {outcome : AckOutcome}
    (hn : message.n = m.stateNumber + 1) (h : (m.adoptAlternative message).2 = .ok outcome) :
    (m.adoptAlternative message).1.OnlyPast (.revoke outcome.revoke) := by
  unfold adoptAlternative at h ⊢
  split at h
  · cases h
  · cases h
  · exact ackOutcome_onlyPast h hn rfl

theorem receiveAck_onlyPast (hnext : m.PendingNext) {message : AckMessage} {outcome : AckOutcome}
    (h : (m.receiveAck message).2 = .ok outcome) :
    (m.receiveAck message).1.OnlyPast (.revoke outcome.revoke) := by
  unfold receiveAck at h ⊢
  split at h
  · cases h
  · cases h
  · rename_i hj
    exact adoptAlternative_onlyPast (judgeAck_adopt hj).2 h
  · rename_i hj
    obtain ⟨p, hp, hn⟩ := judgeAck_earlier hj
    refine (quiet_same announceDropped_quiet).onlyPast (adoptAlternative_onlyPast ?_ h)
    rw [dropPending_stateNumber, ← hn, hnext p hp]
  · rename_i pending s hj
    obtain ⟨-, hp, hn, -⟩ := judgeAck_agree hj
    exact ackOutcome_onlyPast h (hnext pending hp) hn.symm

theorem reconcile_same (message : SyncMessage) (ctx : Context) :
    SameSecrets m (m.reconcile message ctx).1 := by
  have hdrop : ∀ why, SameSecrets m (m.dropPending why).announceDropped := fun why =>
    (dropPending_same why).trans (quiet_same announceDropped_quiet)
  unfold reconcile
  dsimp only
  split
  · exact .refl m
  split
  · exact .refl m
  split
  · exact .refl m
  · exact .refl m
  split
  · exact .refl m
  split
  · split
    · exact resendUpdate_same ctx
    · split
      · split
        · exact hdrop _
        · exact resendUpdate_same ctx
      · exact .refl m
    · exact .refl m
  split
  · exact .refl m
  split
  · exact .refl m
  split
  · exact ⟨rfl, rfl⟩
  · exact .refl m

/-- Of its answers, only an acknowledgement carries a secret. -/
theorem reconcile_onlyPast {message : SyncMessage} {ctx : Context} {replies : List PeerMessage}
    (h : (m.reconcile message ctx).2 = .ok replies) : ∀ reply ∈ replies, m.OnlyPast reply := by
  have hnone : ∀ message : PeerMessage, message.reveals = [] → m.OnlyPast message := by
    intro message hr r hmem
    rw [hr] at hmem
    cases hmem
  have hclose : ∀ {close : List PeerMessage} {P : Prop} [Decidable P],
      (if P then do
          let c ← m.closeMessage ctx
          .ok [.close c]
        else .ok [] : Res ProtocolError (List PeerMessage)) = .ok close →
      ∀ reply ∈ close, m.OnlyPast reply := by
    intro close P _ hc reply hreply
    split at hc
    · obtain ⟨c, -, hc⟩ := Res.bind_eq_ok.mp hc
      cases hc
      rw [List.mem_singleton] at hreply
      exact hnone _ (by rw [hreply]; rfl)
    · cases hc
      cases hreply
  have hupdate : ∀ {close : List PeerMessage} (u : Option UpdateMessage),
      (∀ reply ∈ close, m.OnlyPast reply) →
      ∀ reply ∈ close ++ (u.map PeerMessage.update).toList, m.OnlyPast reply := by
    intro close u hc reply hreply
    rcases List.mem_append.mp hreply with hreply | hreply
    · exact hc reply hreply
    · rw [Option.mem_toList, Option.map_eq_some_iff] at hreply
      obtain ⟨message, -, rfl⟩ := hreply
      exact hnone _ rfl
  unfold reconcile at h
  dsimp only at h
  split at h
  · split at h
    · obtain ⟨s, -, h⟩ := Res.bind_eq_ok.mp h
      obtain ⟨c, -, h⟩ := Res.bind_eq_ok.mp h
      obtain ⟨sig, -, h⟩ := Res.bind_eq_ok.mp h
      cases h
      intro reply hreply
      rw [List.mem_singleton] at hreply
      exact hnone _ (by rw [hreply]; rfl)
    · cases h
      exact fun reply hreply => by cases hreply
  split at h
  · cases h
    intro reply hreply
    split at hreply
    · rw [List.mem_singleton] at hreply
      exact hnone _ (by rw [hreply]; rfl)
    · cases hreply
  split at h
  · cases h
  · cases h
  rename_i close hc
  have hc := hclose hc
  split at h
  · cases h
    exact hc
  split at h
  · split at h
    · cases h
      exact hupdate _ hc
    · split at h
      · split at h
        · cases h
          exact hc
        · cases h
          exact hupdate _ hc
      · cases h
        exact hc
    · cases h
      exact hc
  split at h
  · obtain ⟨ack, hack, h⟩ := Res.bind_eq_ok.mp h
    cases h
    intro reply hreply
    rcases List.mem_append.mp hreply with hreply | hreply
    · exact hc reply hreply
    · rw [Option.mem_toList, Option.map_eq_some_iff] at hreply
      obtain ⟨a, rfl, rfl⟩ := hreply
      exact acknowledgement_onlyPast hack
  split at h
  · cases h
    exact hc
  split at h
  · cases h
    exact hc
  · cases h
    exact hc

theorem receiveSync_onlyPast {message : SyncMessage} {ctx : Context} {outcome : SyncOutcome}
    (h : (m.receiveSync message ctx).2 = .ok outcome) :
    ∀ reply ∈ outcome.replies, (m.receiveSync message ctx).1.OnlyPast reply := by
  unfold receiveSync at h ⊢
  dsimp only at h ⊢
  split at h
  · cases h
  · cases h
  obtain ⟨replies, hreplies, h⟩ := Res.bind_eq_ok.mp h
  cases h
  intro reply hreply
  refine (reconcile_same message ctx).onlyPast ?_
  rcases List.mem_append.mp hreply with hreply | hreply
  · split at hreply
    · rw [List.mem_singleton] at hreply
      rw [hreply]
      exact synced_onlyPast message
    · cases hreply
  · exact reconcile_onlyPast hreplies reply hreply

theorem forceClose_same (at' : Option ℕ) (why : Text) (ctx : Context) :
    SameSecrets m (m.forceClose at' why ctx).1 := by
  unfold forceClose
  dsimp only
  split
  · exact .refl m
  · exact .refl m
  · refine ⟨?_, ?_⟩
    · exact (announceDropped_quiet.field ChannelMachine.stateNumber).trans
        (dropPending_stateNumber _)
    · exact (announceDropped_quiet.field ChannelMachine.myRevocation).trans
        (dropPending_myRevocation _)

theorem resync_messages {ctx : Context} {message : PeerMessage}
    (h : message ∈ (((m.resync ctx false).2.map fun s => TickAction.send (.sync s)).toList).flatMap
      TickAction.messages) : m.OnlyPast message := by
  rw [List.mem_flatMap] at h
  obtain ⟨action, haction, h⟩ := h
  rw [Option.mem_toList, Option.map_eq_some_iff] at haction
  obtain ⟨s, hs, rfl⟩ := haction
  unfold TickAction.messages at h
  rw [List.mem_singleton] at h
  rw [h]
  exact resync_onlyPast hs

theorem rebroadcast_step (ctx : Context) : SameSecrets m (m.rebroadcast ctx).1 ∧
    (m.rebroadcast ctx).2.flatMap TickAction.messages = [] := by
  unfold rebroadcast
  split_ifs
  · split
    · exact ⟨.refl m, rfl⟩
    · split_ifs
      · exact ⟨⟨rfl, rfl⟩, rfl⟩
      · exact ⟨.refl m, rfl⟩
  · exact ⟨.refl m, rfl⟩

theorem tickPending_step (ctx : Context) (pendingTimeout : ℕ) :
    SameSecrets m (m.tickPending ctx pendingTimeout).1 ∧
      ∀ message ∈ (m.tickPending ctx pendingTimeout).2.flatMap TickAction.messages,
        m.OnlyPast message := by
  unfold tickPending
  split
  · exact ⟨.refl m, fun message h => by cases h⟩
  dsimp only
  split_ifs
  · exact ⟨(dropPending_same _).trans (quiet_same announceDropped_quiet),
      fun message h => by cases h⟩
  · refine ⟨(quiet_same (resync_quiet ctx false)).trans (resendUpdate_same ctx),
      fun message h => ?_⟩
    rw [List.flatMap_append, List.mem_append] at h
    rcases h with h | h
    · exact resync_messages h
    · rw [List.mem_flatMap] at h
      obtain ⟨action, haction, h⟩ := h
      rw [Option.mem_toList, Option.map_eq_some_iff] at haction
      obtain ⟨u, -, rfl⟩ := haction
      unfold TickAction.messages at h
      rw [List.mem_singleton] at h
      rw [h]
      exact fun r hr => by cases hr
  · exact ⟨.refl m, fun message h => by cases h⟩

theorem tickResync_step (ctx : Context) : SameSecrets m (m.tickResync ctx).1 ∧
    ∀ message ∈ (m.tickResync ctx).2.flatMap TickAction.messages, m.OnlyPast message := by
  unfold tickResync
  split_ifs
  · exact ⟨quiet_same (resync_quiet ctx false), fun message h => resync_messages h⟩
  · exact ⟨.refl m, fun message h => by cases h⟩

theorem tickOpen_step (ctx : Context) : SameSecrets m (m.tickOpen ctx).1 ∧
    (m.tickOpen ctx).2.flatMap TickAction.messages = [] := by
  have hprotect : ∀ m : ChannelMachine, SameSecrets m (m.protect ctx).1 ∧
      (m.protect ctx).2.flatMap TickAction.messages = [] := by
    intro m
    refine ⟨forceClose_same _ _ _, ?_⟩
    unfold protect
    dsimp only
    split <;> rfl
  have hpropose : ∀ m : ChannelMachine,
      (m.tickPropose ctx).flatMap TickAction.messages = [] := by
    intro m
    rw [List.flatMap_eq_nil_iff]
    intro action haction
    unfold tickPropose at haction
    rw [Option.mem_toList] at haction
    obtain ⟨h, -, haction⟩ := List.exists_of_findSome?_eq_some haction
    split_ifs at haction
    · rw [Option.map_eq_some_iff] at haction
      obtain ⟨preimage, -, rfl⟩ := haction
      rfl
    · cases haction
      rfl
  have hannounce : SameSecrets m m.announceDropped := quiet_same announceDropped_quiet
  unfold tickOpen
  dsimp only
  split_ifs
  · exact ⟨hannounce.trans (hprotect _).1, (hprotect _).2⟩
  · exact ⟨hannounce.trans (hprotect _).1, (hprotect _).2⟩
  · exact ⟨hannounce, rfl⟩
  · exact ⟨hannounce, hpropose _⟩

theorem tick_onlyPast {ctx : Context} {pendingTimeout : ℕ} :
    ∀ message ∈ (m.tick ctx pendingTimeout).2.flatMap TickAction.messages,
      (m.tick ctx pendingTimeout).1.OnlyPast message := by
  obtain ⟨h₀, hnone₀⟩ := rebroadcast_step (m := m) ctx
  obtain ⟨h₁, hmsg₁⟩ := tickPending_step (m := (m.rebroadcast ctx).1) ctx pendingTimeout
  obtain ⟨h₂, hmsg₂⟩ := tickResync_step
    (m := ((m.rebroadcast ctx).1.tickPending ctx pendingTimeout).1) ctx
  obtain ⟨h₃, hnone₃⟩ := tickOpen_step
    (m := (((m.rebroadcast ctx).1.tickPending ctx pendingTimeout).1.tickResync ctx).1) ctx
  have hout : ∀ message ∈ ((m.rebroadcast ctx).2 ++
      ((m.rebroadcast ctx).1.tickPending ctx pendingTimeout).2 ++
      (((m.rebroadcast ctx).1.tickPending ctx pendingTimeout).1.tickResync ctx).2).flatMap
        TickAction.messages,
      (((m.rebroadcast ctx).1.tickPending ctx pendingTimeout).1.tickResync ctx).1.OnlyPast
        message := by
    intro message h
    rw [List.flatMap_append, List.flatMap_append, hnone₀, List.nil_append, List.mem_append] at h
    rcases h with h | h
    · exact (h₁.trans h₂).onlyPast (hmsg₁ message h)
    · exact h₂.onlyPast (hmsg₂ message h)
  unfold tick
  dsimp only
  split_ifs
  · intro message h
    rw [hnone₀] at h
    cases h
  · exact hout
  · intro message h
    rw [List.flatMap_append, hnone₃, List.append_nil] at h
    exact h₃.onlyPast (hout message h)

/-- An update answered at once gets the acknowledgement again, or a refusal. -/
theorem judgeUpdate_answer {message : UpdateMessage} {ctx : Context} {answer : ReceiveUpdate}
    (h : m.judgeUpdate message ctx = .ok (.answer answer)) :
    (∃ ack, m.acknowledgement ctx = .ok (some ack) ∧ answer = .resendAcknowledgement ack) ∨
      ∃ r, answer.messages = [.reject r] := by
  unfold judgeUpdate at h
  obtain ⟨_, -, h⟩ := Res.bind_eq_ok.mp h
  obtain ⟨_, -, h⟩ := Res.bind_eq_ok.mp h
  split at h
  · cases h
    exact .inr ⟨_, rfl⟩
  obtain ⟨_, -, h⟩ := Res.bind_eq_ok.mp h
  split at h
  · obtain ⟨ack, hack, h⟩ := Res.bind_eq_ok.mp h
    obtain ⟨ack', hack', h⟩ := Res.bind_eq_ok.mp h
    cases h
    rw [Res.okOr_eq_ok] at hack'
    exact .inl ⟨ack', hack' ▸ hack, rfl⟩
  split at h
  · cases h
    exact .inr ⟨_, rfl⟩
  obtain ⟨_, -, h⟩ := Res.bind_eq_ok.mp h
  split at h
  · cases h
  obtain ⟨_, -, h⟩ := Res.bind_eq_ok.mp h
  obtain ⟨_, -, h⟩ := Res.bind_eq_ok.mp h
  split at h
  · cases h
    exact .inr ⟨_, rfl⟩
  unfold incomingState at h
  split at h
  · cases h
  · cases h
    exact .inr ⟨_, rfl⟩
  obtain ⟨_, -, h⟩ := Res.bind_eq_ok.mp h
  split at h
  · cases h
    exact .inr ⟨_, rfl⟩
  split at h
  · cases h
    exact .inr ⟨_, rfl⟩
  · cases h

theorem receiveUpdate_onlyPast {message : UpdateMessage} {next : SecretKey} {ctx : Context}
    {answer : ReceiveUpdate} (h : (m.receiveUpdate message next ctx).2 = .ok answer) :
    ∀ reply ∈ answer.messages, (m.receiveUpdate message next ctx).1.OnlyPast reply := by
  have hanswer : m.judgeUpdate message ctx = .ok (.answer answer) →
      ∀ reply ∈ answer.messages, m.OnlyPast reply := by
    intro hj reply hreply
    rcases judgeUpdate_answer hj with ⟨ack, hack, rfl⟩ | ⟨r, hr⟩
    · unfold ReceiveUpdate.messages at hreply
      rw [List.mem_singleton] at hreply
      rw [hreply]
      exact acknowledgement_onlyPast hack
    · rw [hr, List.mem_singleton] at hreply
      rw [hreply]
      exact fun r hr => by cases hr
  unfold receiveUpdate at h ⊢
  split at h
  · cases h
  · cases h
  · rename_i hj
    cases h
    exact hanswer hj
  · cases h
    exact fun reply hreply => by cases hreply
  · obtain ⟨ack, hack, h⟩ := Res.bind_eq_ok.mp h
    obtain ⟨ack', hack', h⟩ := Res.bind_eq_ok.mp h
    rw [Res.okOr_eq_ok] at hack'
    cases h
    intro reply hreply
    unfold ReceiveUpdate.messages at hreply
    rw [List.mem_singleton] at hreply
    rw [hreply]
    rw [hack'] at hack
    exact acknowledgement_onlyPast hack

/-! ### Closes are recorded -/

/-- The close is the one this peer keeps. -/
def Keeps (m : ChannelMachine) (tx : Transaction) : Prop := ∃ c, m.close = some c ∧ c.tx = tx

theorem forceClose_keeps {at' : Option ℕ} {why : Text} {ctx : Context} {b : Broadcast}
    (h : (m.forceClose at' why ctx).2 = .ok b) : (m.forceClose at' why ctx).1.Keeps b.tx := by
  unfold forceClose at h ⊢
  dsimp only at h ⊢
  split at h
  · cases h
  · cases h
  · cases h
    exact ⟨_, announceDropped_quiet.field ChannelMachine.close, rfl⟩

theorem receiveClose_keeps {message : CloseMessage} {ctx : Context} {b : Broadcast}
    (h : (m.receiveClose message ctx).2 = .ok b) : (m.receiveClose message ctx).1.Keeps b.tx := by
  unfold receiveClose at h ⊢
  dsimp only at h ⊢
  split at h
  · cases h
  · cases h
  · cases h
    exact ⟨_, rfl, rfl⟩

theorem unSpend_keeps {b : Broadcast} (h : m.unSpend.2 = some b) : m.unSpend.1.Keeps b.tx := by
  unfold unSpend at h ⊢
  split at h
  · cases h
  · dsimp only at h ⊢
    split at h
    · rename_i close hclose
      cases h
      rw [Option.filter_eq_some_iff] at hclose
      exact ⟨close, hclose.1, rfl⟩
    · cases h

theorem rebroadcast_keeps {ctx : Context} {tx : Transaction}
    (h : tx ∈ (m.rebroadcast ctx).2.flatMap TickAction.closes) :
    (m.rebroadcast ctx).1.Keeps tx ∧ (m.rebroadcast ctx).1.status.isLive = false := by
  unfold rebroadcast at h ⊢
  split at h
  · rename_i hstatus
    split at h
    · cases h
    · split at h
      · rename_i hdue
        simp only [TickAction.closes, List.flatMap_cons, List.flatMap_nil, List.append_nil,
          List.mem_singleton] at h
        rw [if_pos hstatus, if_pos hdue]
        refine ⟨⟨_, rfl, h.symm⟩, ?_⟩
        rcases hstatus.1 with hs | hs
        · exact congrArg ChannelStatus.isLive hs
        · exact congrArg ChannelStatus.isLive hs
      · cases h
  · cases h

theorem tickPending_closes (ctx : Context) (pendingTimeout : ℕ) :
    (m.tickPending ctx pendingTimeout).2.flatMap TickAction.closes = [] := by
  unfold tickPending
  split
  · rfl
  dsimp only
  split_ifs
  · rfl
  · rw [List.flatMap_eq_nil_iff]
    intro action haction
    simp only [List.mem_append, Option.mem_toList, Option.map_eq_some_iff] at haction
    rcases haction with ⟨_, -, rfl⟩ | ⟨_, -, rfl⟩ <;> rfl
  · rfl

theorem tickResync_closes (ctx : Context) :
    (m.tickResync ctx).2.flatMap TickAction.closes = [] := by
  unfold tickResync
  split_ifs
  · rw [List.flatMap_eq_nil_iff]
    intro action haction
    simp only [Option.mem_toList, Option.map_eq_some_iff] at haction
    obtain ⟨_, -, rfl⟩ := haction
    rfl
  · rfl

theorem tickOpen_keeps {ctx : Context} {tx : Transaction}
    (h : tx ∈ (m.tickOpen ctx).2.flatMap TickAction.closes) : (m.tickOpen ctx).1.Keeps tx := by
  have hprotect : ∀ m : ChannelMachine, tx ∈ (m.protect ctx).2.flatMap TickAction.closes →
      (m.protect ctx).1.Keeps tx := by
    intro m h
    unfold protect at h ⊢
    dsimp only at h ⊢
    split at h
    · rename_i b hb
      simp only [TickAction.closes, List.flatMap_cons, List.flatMap_nil, List.append_nil,
        List.mem_singleton] at h
      rw [h]
      exact forceClose_keeps hb
    · cases h
  have hpropose : ∀ m : ChannelMachine, (m.tickPropose ctx).flatMap TickAction.closes = [] := by
    intro m
    rw [List.flatMap_eq_nil_iff]
    intro action haction
    unfold tickPropose at haction
    rw [Option.mem_toList] at haction
    obtain ⟨h, -, haction⟩ := List.exists_of_findSome?_eq_some haction
    split_ifs at haction
    · rw [Option.map_eq_some_iff] at haction
      obtain ⟨preimage, -, rfl⟩ := haction
      rfl
    · cases haction
      rfl
  unfold tickOpen at h ⊢
  dsimp only at h ⊢
  split at h
  · rename_i hu
    rw [if_pos hu]
    exact hprotect _ h
  rename_i hu
  rw [if_neg hu]
  split at h
  · rename_i hf
    rw [if_pos hf]
    exact hprotect _ h
  · split at h
    · cases h
    · rw [hpropose] at h
      cases h

theorem tick_keeps {ctx : Context} {pendingTimeout : ℕ} {tx : Transaction}
    (h : tx ∈ (m.tick ctx pendingTimeout).2.flatMap TickAction.closes) :
    (m.tick ctx pendingTimeout).1.Keeps tx := by
  unfold tick at h ⊢
  dsimp only at h ⊢
  split at h
  · rename_i hdead
    rw [if_pos hdead]
    exact (rebroadcast_keeps h).1
  rename_i hlive
  rw [if_neg hlive]
  have hnone : ∀ tx, tx ∉ (m.rebroadcast ctx).2.flatMap TickAction.closes := by
    intro tx h
    rw [(rebroadcast_keeps h).2] at hlive
    exact hlive rfl
  split at h
  · rw [List.flatMap_append, List.flatMap_append, tickPending_closes, tickResync_closes,
      List.append_nil, List.append_nil] at h
    exact absurd h (hnone tx)
  · rename_i hopen
    rw [if_neg hopen]
    rw [List.flatMap_append, List.flatMap_append, List.flatMap_append, tickPending_closes,
      tickResync_closes, List.append_nil, List.append_nil, List.mem_append] at h
    exact tickOpen_keeps (h.resolve_left (hnone tx))

end ChannelMachine

/-! ### A call -/

omit [Hitch] in
theorem okList_eq_single {α : Type} {r : Res ProtocolError α} {a : α} (h : a ∈ okList r) :
    r = .ok a := by
  unfold okList at h
  split at h
  · rw [List.mem_singleton] at h
    rw [h]
  · cases h

/-- The secrets a call sends are of states before the agreed one. -/
theorem Call.onlyPast {m m' : ChannelMachine} {c : Call} {out : Emitted} (hnext : m.PendingNext)
    (h : c.run m = some (m', out)) : ∀ message ∈ out.messages, m'.OnlyPast message := by
  have hnone : ∀ (m : ChannelMachine) (message : PeerMessage), message.reveals = [] →
      m.OnlyPast message := by
    intro m message hr r hmem
    rw [hr] at hmem
    cases hmem
  have hupdates : ∀ (m : ChannelMachine) (r : Res ProtocolError UpdateMessage),
      ∀ message ∈ (okList r).map PeerMessage.update, m.OnlyPast message := by
    intro m r message hmem
    obtain ⟨u, -, rfl⟩ := List.mem_map.mp hmem
    exact hnone m _ rfl
  intro message hmem
  cases c with
  | propose => cases h; exact hupdates _ _ _ hmem
  | pay => cases h; exact hupdates _ _ _ hmem
  | addHtlc => cases h; exact hupdates _ _ _ hmem
  | settleHtlc => cases h; exact hupdates _ _ _ hmem
  | failHtlc => cases h; exact hupdates _ _ _ hmem
  | resendUpdate ctx =>
    cases h
    obtain ⟨u, -, rfl⟩ := List.mem_map.mp hmem
    exact hnone _ _ rfl
  | receiveUpdate message next ctx =>
    cases h
    obtain ⟨answer, hanswer, hmem⟩ := List.mem_flatMap.mp hmem
    exact receiveUpdate_onlyPast (okList_eq_single hanswer) _ hmem
  | receiveAck message =>
    cases h
    obtain ⟨outcome, houtcome, rfl⟩ := List.mem_map.mp hmem
    exact receiveAck_onlyPast hnext (okList_eq_single houtcome)
  | receiveReject message ctx =>
    cases h
    obtain ⟨s, hs, rfl⟩ := List.mem_map.mp hmem
    obtain ⟨o, ho, hs⟩ := List.mem_flatMap.mp hs
    have ho := okList_eq_single ho
    rw [Option.mem_toList] at hs
    unfold ChannelMachine.receiveReject at ho ⊢
    dsimp only at ho ⊢
    split at ho
    · cases ho
    · cases ho
    · cases ho
      exact (quiet_same (resync_quiet ctx false)).onlyPast (resync_onlyPast hs)
  | closeChannel ctx =>
    cases h
    obtain ⟨u, -, rfl⟩ := List.mem_map.mp hmem
    exact hnone _ _ rfl
  | syncMessage t =>
    cases h
    rw [List.mem_singleton] at hmem
    rw [hmem]
    exact syncMessage_onlyPast t
  | resync ctx force =>
    cases h
    obtain ⟨s, hs, rfl⟩ := List.mem_map.mp hmem
    exact (quiet_same (resync_quiet ctx force)).onlyPast
      (resync_onlyPast (Option.mem_toList.mp hs))
  | receiveSync message ctx =>
    cases h
    obtain ⟨outcome, houtcome, hmem⟩ := List.mem_flatMap.mp hmem
    exact receiveSync_onlyPast (okList_eq_single houtcome) _ hmem
  | acknowledgement ctx =>
    cases h
    obtain ⟨ack, hack, rfl⟩ := List.mem_map.mp hmem
    obtain ⟨o, ho, hack⟩ := List.mem_flatMap.mp hack
    rw [Option.mem_toList] at hack
    refine acknowledgement_onlyPast ((okList_eq_single ho).trans ?_)
    rw [hack]
  | tick ctx pendingTimeout =>
    cases h
    exact tick_onlyPast _ hmem
  | restart =>
    unfold Call.run at h
    dsimp only at h
    split at h
    · cases h
      cases hmem
    · cases h
  | _ =>
    cases h
    cases hmem

/-- The closes a call broadcasts are kept. -/
theorem Call.keeps {m m' : ChannelMachine} {c : Call} {out : Emitted}
    (h : c.run m = some (m', out)) : ∀ tx ∈ out.closes, m'.Keeps tx := by
  intro tx hmem
  cases c with
  | receiveClose message ctx =>
    cases h
    obtain ⟨b, hb, rfl⟩ := List.mem_map.mp hmem
    exact receiveClose_keeps (okList_eq_single hb)
  | forceClose at' why ctx =>
    cases h
    obtain ⟨b, hb, rfl⟩ := List.mem_map.mp hmem
    exact forceClose_keeps (okList_eq_single hb)
  | tick ctx pendingTimeout =>
    cases h
    exact tick_keeps hmem
  | unSpend =>
    cases h
    obtain ⟨b, hb, rfl⟩ := List.mem_map.mp hmem
    exact unSpend_keeps (Option.mem_toList.mp hb)
  | restart =>
    unfold Call.run at h
    dsimp only at h
    split at h
    · cases h
      cases hmem
    · cases h
  | _ =>
    cases h
    cases hmem

/-! ### A run -/

/-- A forced close never names its state. -/
def AtCurrent (_ : ChannelMachine) (c : Call) : Prop := ¬ c.namesState

theorem machine_settled (o : Opened) : Settled named o.machine := settled_of_none rfl rfl rfl

/-- What the calls done leave true of the machine after them. -/
structure LogOk (m : ChannelMachine) (log : List Done) : Prop where
  below : ∀ d ∈ log, d.1.stateNumber ≤ m.stateNumber
  past : ∀ d ∈ log, ∀ message ∈ d.2.messages, d.1.OnlyPast message
  settled : ∀ d ∈ log, Settled False d.1
  keeps : ∀ d ∈ log, ∀ tx ∈ d.2.closes, d.1.Keeps tx
  frozen : ∀ d ∈ log, d.1.Frozen → m.Frozen ∧ m.stateNumber = d.1.stateNumber
  pairwise : log.Pairwise fun d d' => d.1.Frozen → d'.1.stateNumber = d.1.stateNumber

theorem Run.logOk {o : Opened} {m : ChannelMachine} {log : List Done}
    (hkeys : ∀ r b : SecretKey, Hitch.revocationKey b r = none →
      Hitch.revocationPub (Hitch.public r) b = none)
    (h : Run AtCurrent o m log) : PointsMatch m ∧ Settled False m ∧ LogOk m log := by
  induction h with
  | start hv hnew =>
    rename_i o m
    unfold ChannelMachine.new at hnew
    obtain ⟨_, -, hnew⟩ := Res.bind_eq_ok.mp hnew
    obtain ⟨_, -, hnew⟩ := Res.bind_eq_ok.mp hnew
    obtain ⟨_, -, hnew⟩ := Res.bind_eq_ok.mp hnew
    cases hnew
    refine ⟨machine_points o, machine_settled o, ?_⟩
    exact ⟨by simp, by simp, by simp, by simp, by simp, List.Pairwise.nil⟩
  | call c hrun hcall hc ih =>
    rename_i o m m' log out
    obtain ⟨hpoints, hsettled, hlog⟩ := ih
    obtain ⟨hnext, -, hch⟩ := hrun.kept
    have hmoves : Moves False m m' := run_moves hnext hch hcall hc
    obtain ⟨-, hpoints', hsettled', hle, hfrozen⟩ :=
      hmoves.settled hkeys hnext hpoints hsettled
    refine ⟨hpoints', hsettled', ?_⟩
    have hcase : ∀ {P : Done → Prop}, (∀ d ∈ log, P d) → P (m', out) →
        ∀ d ∈ log ++ [(m', out)], P d := by
      intro P hold hnew d hd
      rcases List.mem_append.mp hd with hd | hd
      · exact hold d hd
      · rw [List.mem_singleton] at hd
        rw [hd]
        exact hnew
    constructor
    · exact hcase (fun d hd => (hlog.below d hd).trans hle) le_rfl
    · exact hcase hlog.past (c.onlyPast hnext hc)
    · exact hcase hlog.settled hsettled'
    · exact hcase hlog.keeps (c.keeps hc)
    · refine hcase (fun d hd hf => ?_) (fun hf => ⟨hf, rfl⟩)
      obtain ⟨hm, hn⟩ := hlog.frozen d hd hf
      obtain ⟨hm', hn'⟩ := hfrozen hm
      exact ⟨hm', hn'.trans hn⟩
    · rw [List.pairwise_append]
      refine ⟨hlog.pairwise, List.pairwise_singleton _ _, fun d hd d' hd' hf => ?_⟩
      rw [List.mem_singleton] at hd'
      obtain ⟨hm, hn⟩ := hlog.frozen d hd hf
      rw [hd']
      exact (hfrozen hm).2.trans hn

/-- **No live secret is revealed.** Over a run whose forced closes name no
state, every secret sent is this peer's of a state before the agreed one; every
close broadcast is the one kept, and where it is a commitment, it is that of a
state whose secret is never sent in the run; and once the cooperative close is
signed, the agreed state stays. -/
theorem no_live_secret {o : Opened} {m : ChannelMachine} {log : List Done}
    (hkeys : ∀ r b : SecretKey, Hitch.revocationKey b r = none →
      Hitch.revocationPub (Hitch.public r) b = none)
    (h : Run AtCurrent o m log) :
    (∀ d ∈ log, ∀ message ∈ d.2.messages, d.1.OnlyPast message) ∧
    (∀ d ∈ log, ∀ tx ∈ d.2.closes, ∃ c, d.1.close = some c ∧ c.tx = tx ∧
      ∀ k, c.state = some k → d.1.Published k tx ∧
        ∀ d' ∈ log, ∀ message ∈ d'.2.messages, ∀ r ∈ message.reveals, r.1 ≠ k) ∧
    log.Pairwise fun d d' => d.1.coopTxid.isSome = true →
      d'.1.stateNumber = d.1.stateNumber := by
  obtain ⟨-, -, hlog⟩ := h.logOk hkeys
  refine ⟨hlog.past, fun d hd tx htx => ?_, hlog.pairwise.imp fun hf hc => hf (.inr hc)⟩
  obtain ⟨c, hc, rfl⟩ := hlog.keeps d hd tx htx
  refine ⟨c, hc, rfl, fun k hk => ?_⟩
  obtain ⟨rfl, hpub⟩ := (((hlog.settled d hd).close c hc).2.2 k hk).resolve_left id
  refine ⟨hpub, fun d' hd' message hmessage r hr => ?_⟩
  -- every secret sent is below the last agreed state, and that is the state closed
  have hlt := (hlog.past d' hd' message hmessage r hr).1
  have hle := hlog.below d' hd'
  have hlast := (hlog.frozen d hd (.inl (by rw [hc]; rfl))).2
  omega

end

attribute [local instance] sampleHitch

set_option maxRecDepth 100000 in
/-- The first state's secret goes out twice, and the commitment of the second state. -/
theorem paidCalls_sent : (sampleRunOf .a paidCalls).map (fun r =>
      (r.2.flatMap fun d => d.2.messages.flatMap PeerMessage.reveals,
       r.2.map fun d => (d.2.closes.length, d.1.close.bind CloseRecord.state))) =
    some ([(0, 21), (0, 21)], [(0, none), (0, none), (0, none), (0, none), (1, some 1)]) := by
  decide +kernel

theorem no_live_secret_sample : ∃ m log, Run AtCurrent (sampleOpened .a) m log ∧
    (log.flatMap fun d => d.2.messages.flatMap PeerMessage.reveals) = [(0, 21), (0, 21)] ∧
    (∀ d ∈ log, ∀ message ∈ d.2.messages, d.1.OnlyPast message) ∧
    ∀ d ∈ log, ∀ tx ∈ d.2.closes, ∃ c, d.1.close = some c ∧ c.tx = tx ∧
      ∀ k, c.state = some k → d.1.Published k tx ∧
        ∀ d' ∈ log, ∀ message ∈ d'.2.messages, ∀ r ∈ message.reveals, r.1 ≠ k := by
  obtain ⟨⟨m, log⟩, hr, hs⟩ := Option.map_eq_some_iff.mp paidCalls_sent
  have hrun : Run AtCurrent (sampleOpened .a) m log := by
    refine run_of_sample (fun c hc m => ?_) hr
    unfold paidCalls at hc
    unfold AtCurrent
    simp only [List.mem_append, List.mem_cons, List.not_mem_nil, or_false] at hc
    rcases hc with hc | rfl | rfl
    · exact ackedCalls_names hc
    · exact id
    · exact id
  obtain ⟨hpast, hcloses, -⟩ := no_live_secret sampleHitch_keys hrun
  exact ⟨m, log, hrun, (Prod.mk.inj hs).1, hpast, hcloses⟩

end Hitch

end Sidestr
