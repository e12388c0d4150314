/-
# What a final update leaves the other side to publish

An update is final once the other side has revoked the state before it. The
secrets of all the states before are held by then, nothing is pending, and
nothing is signed at the next number; so what the other side may still publish
unpunished is its commitment at the final number alone. That need not be the
one with the update: a proposal of this peer's set aside at the same number was
signed too, and the secret of that number covers both (`mod.rs`, the
invariants).

Key definitions: `Owed`, `FinalAt`.
Key theorems: `Move.owed`, `Call.final`, `update_final`.
-/
import Sidestr.Hitch.Recognition
import Sidestr.Hitch.Restart

namespace Sidestr

namespace Hitch

section

variable [Hitch] {named : Prop}

open ChannelMachine

/-- The other side owes the secret of the previous state at most, and while it
does the channel is not closed. -/
structure Owed (m : ChannelMachine) : Prop where
  older : ∀ k, k + 1 < m.stateNumber → (m.theirRevocation.lookup k).isSome = true
  previous : m.close = none → m.awaiting = none → ∀ k < m.stateNumber,
    (m.theirRevocation.lookup k).isSome = true
  unclosed : m.awaiting.isSome = true → m.close = none ∧ m.coopTxid = none

/-- An update is final: the secrets of all earlier states are held, and nothing
newer is signed. -/
structure FinalAt (m : ChannelMachine) (u : FinalisedUpdate) : Prop where
  number : u.n = m.stateNumber
  pending : m.pending = none
  newer : m.alternativesAt (m.stateNumber + 1) = []
  held : ∀ k < m.stateNumber, (m.theirRevocation.lookup k).isSome = true
  unclosed : m.close = none ∧ m.coopTxid = none

/-! ### Secrets taken -/

/-- A secret held stays held. -/
theorem takeTheirReveal_kept {m : ChannelMachine} (index : ℕ) (reveal : Hash256) {k : ℕ}
    (h : (m.theirRevocation.lookup k).isSome = true) :
    ((m.takeTheirReveal index reveal).theirRevocation.lookup k).isSome = true := by
  unfold takeTheirReveal
  split
  · dsimp only
    by_cases hk : k = index
    · rw [hk, Finmap.lookup_insert]
      rfl
    · rw [Finmap.lookup_insert_of_ne _ hk]
      exact h
  · exact h

/-- A secret that passed its check is held once it is taken. -/
theorem takeTheirReveal_held {m : ChannelMachine} {index : ℕ} {reveal : Hash256}
    (h : m.revealOk index reveal = true) :
    ((m.takeTheirReveal index reveal).theirRevocation.lookup index).isSome = true := by
  unfold revealOk at h
  rw [Bool.or_eq_true] at h
  rcases h with hnew | hold
  · obtain ⟨s, hs⟩ := Option.isSome_iff_exists.mp hnew
    have htake : m.takeTheirReveal index reveal =
        { m with theirRevocation := m.theirRevocation.insert index s } := by
      unfold takeTheirReveal
      rw [hs]
    rw [htake]
    dsimp only
    rw [Finmap.lookup_insert]
    rfl
  · obtain ⟨s, hs, -⟩ := (Option.any_eq_true _ _).mp hold
    refine takeTheirReveal_kept index reveal ?_
    rw [hs]
    rfl

theorem judgeAck_reveal {m : ChannelMachine} {message : AckMessage} {pending : PendingUpdate}
    {s : ProtocolState} (h : m.judgeAck message = .ok (.agree pending s)) :
    m.revealOk m.stateNumber message.reveal = true := by
  unfold ChannelMachine.judgeAck at h
  obtain ⟨_, -, h⟩ := Res.bind_eq_ok.mp h
  obtain ⟨_, -, h⟩ := Res.bind_eq_ok.mp h
  obtain ⟨_, -, h⟩ := Res.bind_eq_ok.mp h
  split_ifs at h
  · cases h
  obtain ⟨p, -, h⟩ := Res.bind_eq_ok.mp h
  obtain ⟨s', -, h⟩ := Res.bind_eq_ok.mp h
  obtain ⟨mine, -, h⟩ := Res.bind_eq_ok.mp h
  dsimp only at h
  split_ifs at h
  · cases h
  obtain ⟨_, -, h⟩ := Res.bind_eq_ok.mp h
  obtain ⟨_, hreveal, -⟩ := Res.bind_eq_ok.mp h
  rw [Res.refuseIf_eq_ok] at hreveal
  simpa using hreveal

theorem adoption_reveal {m : ChannelMachine} {message : AckMessage} {index : ℕ}
    {alt : SignedAlternative} (h : m.adoption message = .ok (index, alt)) :
    m.revealOk m.stateNumber message.reveal = true := by
  unfold ChannelMachine.adoption at h
  obtain ⟨_, -, h⟩ := Res.bind_eq_ok.mp h
  obtain ⟨_, -, h⟩ := Res.bind_eq_ok.mp h
  obtain ⟨_, -, h⟩ := Res.bind_eq_ok.mp h
  obtain ⟨_, -, h⟩ := Res.bind_eq_ok.mp h
  obtain ⟨_, hreveal, -⟩ := Res.bind_eq_ok.mp h
  rw [Res.refuseIf_eq_ok] at hreveal
  simpa using hreveal

/-! ### What is owed, over the moves -/

/-- A move that leaves the number, the secrets, what is awaited and the closes. -/
theorem Owed.congr {m m' : ChannelMachine} (hm : Owed m) (hn : m'.stateNumber = m.stateNumber)
    (hsecrets : m'.theirRevocation = m.theirRevocation) (hawaiting : m'.awaiting = m.awaiting)
    (hclose : m'.close = m.close) (hcoop : m'.coopTxid = m.coopTxid) : Owed m' := by
  refine ⟨?_, ?_, ?_⟩
  · rw [hn, hsecrets]
    exact hm.older
  · rw [hn, hsecrets, hclose, hawaiting]
    exact hm.previous
  · rw [hawaiting, hclose, hcoop]
    exact hm.unclosed

/-- The next state agreed by this peer, with the secret of the one before. -/
theorem agreed_owed {m : ChannelMachine} (hm : Owed m) (hclose : m.close = none)
    (hawaiting : m.awaiting = none) {message : AckMessage} (hn : message.n = m.stateNumber + 1)
    (hreveal : m.revealOk m.stateNumber message.reveal = true) (s : ProtocolState)
    (update : Update) : Owed (m.agreed message s update) ∧
      ∀ k < (m.agreed message s update).stateNumber,
        ((m.agreed message s update).theirRevocation.lookup k).isSome = true := by
  have hall : ∀ k < m.stateNumber + 1,
      ((m.takeTheirReveal m.stateNumber message.reveal).theirRevocation.lookup k).isSome = true := by
    intro k hk
    by_cases hlast : k = m.stateNumber
    · rw [hlast]
      exact takeTheirReveal_held hreveal
    · exact takeTheirReveal_kept _ _ (hm.previous hclose hawaiting k (by omega))
  have hheld : ∀ k < (m.agreed message s update).stateNumber,
      ((m.agreed message s update).theirRevocation.lookup k).isSome = true := by
    rw [agreed_stateNumber, hn]
    exact hall
  refine ⟨⟨fun k hk => hheld k (by omega), fun _ _ => hheld, fun hsome => ?_⟩, hheld⟩
  have hsame : (m.agreed message s update).awaiting = m.awaiting := by
    unfold agreed
    dsimp only
    rw [takeTheirReveal_frame]
  rw [hsame, hawaiting] at hsome
  cases hsome

/-- Nothing is awaited while an update is pending. -/
theorem Placed.awaiting_none {m : ChannelMachine} (hp : Placed m) {p : PendingUpdate}
    (h : m.pending = some p) : m.awaiting = none := by
  by_contra hsome
  obtain ⟨a, ha⟩ := Option.ne_none_iff_exists'.mp hsome
  have hnone := (hp.awaiting a ha).2.2.2.1
  rw [h] at hnone
  cases hnone

/-- Nor while an alternative is signed at the next number. -/
theorem Placed.awaiting_none_of_next {m : ChannelMachine} (hp : Placed m) {alt : SignedAlternative}
    (h : alt ∈ m.alternativesAt (m.stateNumber + 1)) : m.awaiting = none := by
  by_contra hsome
  obtain ⟨a, ha⟩ := Option.ne_none_iff_exists'.mp hsome
  rw [(hp.awaiting a ha).2.2.2.2] at h
  cases h

theorem Move.owed {m m' : ChannelMachine} (h : Move named m m') (hnext : m.PendingNext)
    (hplaced : Placed m) (hs : Settled named m) (hc : Closes m) (hm : Owed m) : Owed m' := by
  cases h with
  | quiet hq =>
    exact hm.congr (hq.field stateNumber) (hq.field theirRevocation)
      (hq.field ChannelMachine.awaiting) (hq.field ChannelMachine.close) (hq.field coopTxid)
  | accept next hj =>
    rename_i message ctx s
    obtain ⟨hopen, hawaiting, hn, -⟩ := judgeUpdate_accept hj
    obtain ⟨hclose, hcoop, -⟩ := hs.open_none hopen
    have hall := hm.previous hclose hawaiting
    have hsecrets : (m.accepted message s next ctx).theirRevocation = m.theirRevocation := by
      unfold accepted
      dsimp only
      rw [dropPending_frame]
    have hnumber : (m.accepted message s next ctx).stateNumber = m.stateNumber + 1 := hn
    refine ⟨fun k hk => ?_, fun _ hnone => ?_, fun _ => ⟨?_, ?_⟩⟩
    · rw [hsecrets]
      rw [hnumber] at hk
      exact hall k (by omega)
    · unfold accepted at hnone
      cases hnone
    · exact (dropPending_close _).trans hclose
    · exact (dropPending_coopTxid _).trans hcoop
  | agree hj =>
    rename_i message pending s
    obtain ⟨-, hp, hn, -⟩ := judgeAck_agree hj
    have hn' : message.n = m.stateNumber + 1 := by rw [← hn, hnext pending hp]
    have hclose := (hs.open_none (agree_open hs hc hj)).1
    have hm' : Owed { m with pending := none } := hm.congr rfl rfl rfl rfl rfl
    exact (agreed_owed hm' hclose (hplaced.awaiting_none hp) hn' (judgeAck_reveal hj :) s
      pending.update).1
  | adopt hp hn hj =>
    rename_i message index alt
    obtain ⟨hopen, halt⟩ := adoption_ok hj
    have hclose := (hs.open_none hopen).1
    have hnone := hplaced.awaiting_none_of_next (hn ▸ List.mem_of_getElem? halt)
    have hm' : Owed (m.removeAlternative message.n index) := hm.congr rfl rfl rfl rfl rfl
    exact (agreed_owed hm' hclose hnone hn (adoption_reveal hj :) alt.state alt.update).1
  | drop why =>
    refine hm.congr (dropPending_stateNumber why) ?_ (dropPending_awaiting why)
      (dropPending_close why) (dropPending_coopTxid why)
    rw [dropPending_frame]
  | reveal index reveal =>
    refine ⟨fun k hk => ?_, fun hclose hawaiting k hk => ?_, fun hsome => ?_⟩
    · rw [takeTheirReveal_frame] at hk
      exact takeTheirReveal_kept index reveal (hm.older k hk)
    · rw [takeTheirReveal_frame] at hclose hawaiting hk
      exact takeTheirReveal_kept index reveal (hm.previous hclose hawaiting k hk)
    · rw [takeTheirReveal_frame] at hsome ⊢
      exact hm.unclosed hsome
  | final ha hr =>
    rename_i a
    obtain ⟨han, hprevious, -⟩ := hplaced.awaiting a ha
    refine ⟨hm.older, fun _ _ k hk => ?_, fun hsome => by cases hsome⟩
    by_cases hlast : k = a.previous
    · rw [hlast]
      exact hr
    · refine hm.older k ?_
      change k < m.stateNumber at hk
      omega
  | askClose hstatus hp ha htx =>
    refine ⟨hm.older, hm.previous, fun hsome => ?_⟩
    change m.awaiting.isSome = true at hsome
    rw [ha] at hsome
    cases hsome
  | coopClose w height hlive hp ha htx =>
    refine ⟨hm.older, fun hclose => (by cases hclose), fun hsome => ?_⟩
    change m.awaiting.isSome = true at hsome
    rw [ha] at hsome
    cases hsome
  | force why hn hlive htx =>
    refine ⟨fun k hk => ?_, fun hclose => (by cases hclose), fun hsome => by cases hsome⟩
    have hk' : k + 1 < m.stateNumber := (dropPending_stateNumber (m := m) why).subst hk
    have hheld := hm.older k hk'
    rw [dropPending_frame]
    exact hheld
  | rebroadcast height hclose' =>
    refine ⟨hm.older, fun hclose => (by cases hclose), fun hsome => ?_⟩
    have hclose := (hm.unclosed hsome).1
    rw [hclose'] at hclose
    cases hclose
  | _ => exact hm.congr rfl rfl rfl rfl rfl

theorem machine_owed (o : Opened) : Owed o.machine where
  older k hk := by cases hk
  previous _ _ k hk := by cases hk
  unclosed h := by cases h

/-- What is kept over a run, for what is final in it. -/
structure Binding (m : ChannelMachine) : Prop where
  tracked : Tracked True m
  placed : Placed m
  owed : Owed m

theorem Moves.binding {m m' : ChannelMachine} (h : Moves True m m') (hlaw : Lawful)
    (hm : Binding m) : Binding m' := by
  refine h.ind (fun {a b} hab ha => ?_) hm
  obtain ⟨htracked, -⟩ := hab.tracked hlaw.keys hlaw.witness ha.tracked
  refine ⟨htracked, hab.placed ha.tracked.next ha.placed, ?_⟩
  exact hab.owed ha.tracked.next ha.placed ha.tracked.settled ha.tracked.closes ha.owed

theorem Run.binding {o : Opened} {m : ChannelMachine} {log : List Done} (hlaw : Lawful)
    (h : Run (fun _ _ => True) o m log) : Binding m :=
  h.ind (fun _ _ => trivial) (fun _ => ⟨machine_tracked o, machine_placed o, machine_owed o⟩)
    fun (hab : Move True _ _) _ ha => hab.moves.binding hlaw ha

/-! ### The moment an update is final -/

theorem FinalAt.quiet {m m' : ChannelMachine} {u : FinalisedUpdate} (hm : FinalAt m u)
    (h : Quiet m m') : FinalAt m' u := by
  have halternatives : m'.signedAlternatives = m.signedAlternatives := h.field signedAlternatives
  refine ⟨?_, ?_, ?_, ?_, ?_⟩
  · exact hm.number.trans (h.field stateNumber).symm
  · exact (h.field ChannelMachine.pending).trans hm.pending
  · unfold alternativesAt
    rw [halternatives, h.field stateNumber]
    exact hm.newer
  · rw [h.field stateNumber, h.field theirRevocation]
    exact hm.held
  · rw [h.field ChannelMachine.close, h.field coopTxid]
    exact hm.unclosed

/-- The awaited update, its secret taken. -/
theorem finalise_final {m : ChannelMachine} (hm : Binding m) {u : FinalisedUpdate}
    (h : m.finalise.2 = some u) : FinalAt m.finalise.1 u := by
  unfold finalise at h ⊢
  split at h
  · cases h
  · rename_i a ha
    split_ifs at h ⊢ with hr
    cases h
    obtain ⟨hn, hprevious, -, hpending, hnewer⟩ := hm.placed.awaiting a ha
    have hunclosed := hm.owed.unclosed (by rw [ha]; rfl)
    have hfinal : FinalAt { m with awaiting := none } ⟨a.n, a.update, a.sender⟩ := by
      refine ⟨hn, hpending, hnewer, fun k hk => ?_, hunclosed⟩
      by_cases hlast : k = a.previous
      · rw [hlast, ← Option.ne_none_iff_isSome]
        simpa using hr
      · refine hm.owed.older k ?_
        change k < m.stateNumber at hk
        omega
    exact hfinal.quiet (.after announceDropped_quiet (pushEvents_quiet _))

/-- An own update agreed. -/
theorem agreed_final {m : ChannelMachine} (hm : Owed m) (hclose : m.close = none)
    (hcoop : m.coopTxid = none) (hawaiting : m.awaiting = none) (hpending : m.pending = none)
    (halternatives : ∀ k, ∀ alt ∈ m.alternativesAt k, k ≤ m.stateNumber + 1)
    {message : AckMessage} (hn : message.n = m.stateNumber + 1)
    (hreveal : m.revealOk m.stateNumber message.reveal = true) (s : ProtocolState)
    (update : Update) (sender : Side) :
    FinalAt (m.agreed message s update) ⟨message.n, update, sender⟩ := by
  obtain ⟨hclose', hcoop', -⟩ := agreed_closes (m := m) message s update
  refine ⟨rfl, (agreed_pending _ _ _).trans hpending, ?_,
    (agreed_owed hm hclose hawaiting hn hreveal s update).2, hclose'.trans hclose,
    hcoop'.trans hcoop⟩
  refine List.eq_nil_iff_forall_not_mem.mpr fun alt halt => ?_
  have hle : message.n + 1 ≤ m.stateNumber + 1 := by
    refine halternatives _ alt ?_
    unfold alternativesAt at halt ⊢
    rw [(agreed_frame message s update).2, agreed_stateNumber] at halt
    exact halt
  omega

theorem ackOutcome_update {m : ChannelMachine} {n previous : ℕ} {update : Update} {adopted : Bool}
    {outcome : AckOutcome} (h : m.ackOutcome n previous update adopted = .ok outcome) :
    outcome.update = ⟨n, update, m.role⟩ := by
  unfold ackOutcome at h
  split at h
  · cases h
  · cases h
    rfl

theorem adoptAlternative_final {m : ChannelMachine} (hm : Binding m) (hpending : m.pending = none)
    {message : AckMessage} (hn : message.n = m.stateNumber + 1) {outcome : AckOutcome}
    (h : (m.adoptAlternative message).2 = .ok outcome) :
    FinalAt (m.adoptAlternative message).1 outcome.update := by
  unfold adoptAlternative at h ⊢
  split at h
  · cases h
  · cases h
  · rename_i index alt hj
    obtain ⟨hopen, halt⟩ := adoption_ok hj
    obtain ⟨hclose, hcoop, -⟩ := hm.tracked.settled.open_none hopen
    have hnone := hm.placed.awaiting_none_of_next (hn ▸ List.mem_of_getElem? halt)
    have howed : Owed (m.removeAlternative message.n index) := hm.owed.congr rfl rfl rfl rfl rfl
    rw [ackOutcome_update h]
    refine FinalAt.quiet ?_ (pushEvents_quiet _)
    exact agreed_final howed hclose hcoop hnone hpending
      (fun k alt' halt' => hm.placed.alternatives k alt' (removeAlternative_mem halt')) hn
      (adoption_reveal hj :) alt.state alt.update _

theorem receiveAck_final (hlaw : Lawful) {m : ChannelMachine} (hm : Binding m)
    {message : AckMessage} {outcome : AckOutcome} (h : (m.receiveAck message).2 = .ok outcome) :
    FinalAt (m.receiveAck message).1 outcome.update := by
  unfold ChannelMachine.receiveAck at h ⊢
  split at h
  · cases h
  · cases h
  · rename_i hj
    obtain ⟨hpending, hn⟩ := judgeAck_adopt hj
    exact adoptAlternative_final hm hpending hn h
  · rename_i hj
    obtain ⟨p, hp, hn⟩ := judgeAck_earlier hj
    have hdropped := (Move.drop (m := m)
      "they acknowledged an earlier attempt at this state instead".toList).moves.binding hlaw hm
    refine FinalAt.quiet ?_ announceDropped_quiet
    refine adoptAlternative_final hdropped (dropPending_pending _) ?_ h
    rw [dropPending_stateNumber, ← hn, hm.tracked.next p hp]
  · rename_i pending s hj
    obtain ⟨-, hp, hn, -⟩ := judgeAck_agree hj
    have hopen := agree_open hm.tracked.settled hm.tracked.closes hj
    obtain ⟨hclose, hcoop, -⟩ := hm.tracked.settled.open_none hopen
    have hn' : message.n = m.stateNumber + 1 := by rw [← hn, hm.tracked.next pending hp]
    have howed : Owed { m with pending := none } := hm.owed.congr rfl rfl rfl rfl rfl
    rw [ackOutcome_update h, hn]
    refine FinalAt.quiet ?_ (pushEvents_quiet _)
    exact agreed_final howed hclose hcoop (hm.placed.awaiting_none hp) rfl hm.placed.alternatives
      hn' (judgeAck_reveal hj :) s pending.update _

theorem receiveRevoke_final (hlaw : Lawful) {m : ChannelMachine} (hm : Binding m)
    {message : RevokeMessage} {u : FinalisedUpdate}
    (h : (m.receiveRevoke message).2 = .ok (some u)) : FinalAt (m.receiveRevoke message).1 u := by
  unfold ChannelMachine.receiveRevoke at h ⊢
  dsimp only at h ⊢
  split at h
  · cases h
  · cases h
  · split_ifs at h ⊢
    · cases h
    · have htaken := (Move.reveal (m := m) (message.n - 1) message.reveal).moves.binding hlaw hm
      rw [Res.ok.injEq] at h
      exact finalise_final htaken h

/-- With nothing pending a sync changes nothing that is signed. -/
theorem reconcile_quiet {m : ChannelMachine} (hpending : m.pending = none) (message : SyncMessage)
    (ctx : Context) : Quiet m (m.reconcile message ctx).1 := by
  unfold ChannelMachine.reconcile
  dsimp only
  split
  · exact .refl m
  split
  · exact .refl m
  split
  · exact .refl m
  · exact .refl m
  split
  · exact .refl m
  split
  · split
    · rename_i p _ hp _
      rw [hpending] at hp
      cases hp
    · rename_i p n hp _
      rw [hpending] at hp
      cases hp
    · exact .refl m
  split
  · exact .refl m
  split
  · exact .refl m
  split
  · refine quiet_of_eq rfl rfl rfl
  · exact .refl m

theorem receiveSync_final (hlaw : Lawful) {m : ChannelMachine} (hm : Binding m)
    {message : SyncMessage} {ctx : Context} {outcome : SyncOutcome} {u : FinalisedUpdate}
    (h : (m.receiveSync message ctx).2 = .ok outcome) (hu : outcome.finalised = some u) :
    FinalAt (m.receiveSync message ctx).1 u := by
  unfold ChannelMachine.receiveSync at h ⊢
  dsimp only at h ⊢
  split at h
  · cases h
  · cases h
  · obtain ⟨replies, -, h⟩ := Res.bind_eq_ok.mp h
    cases h
    have hfinal := finalise_final ((takeReveals_moves message).binding hlaw hm) hu
    exact hfinal.quiet (reconcile_quiet hfinal.pending message ctx)

/-- What a call reports final is final where the call leaves the channel. -/
theorem Call.final (hlaw : Lawful) {m m' : ChannelMachine} {c : Call} {out : Emitted}
    (hm : Binding m) (h : c.run m = some (m', out)) {u : FinalisedUpdate}
    (hu : u ∈ out.finalised) : FinalAt m' u := by
  have hok : ∀ {α : Type} {r : Res ProtocolError α} {a : α}, a ∈ okList r → r = .ok a := by
    intro α r a ha
    unfold okList at ha
    split at ha
    · rw [List.mem_singleton] at ha
      rw [ha]
    · cases ha
  cases c with
  | receiveAck message =>
    cases h
    obtain ⟨outcome, houtcome, rfl⟩ := List.mem_map.mp hu
    exact receiveAck_final hlaw hm (hok houtcome)
  | receiveRevoke message =>
    cases h
    obtain ⟨final, hfinal, hmem⟩ := List.mem_flatMap.mp hu
    rw [Option.mem_toList] at hmem
    cases hmem
    exact receiveRevoke_final hlaw hm (hok hfinal)
  | receiveSync message ctx =>
    cases h
    obtain ⟨outcome, houtcome, hmem⟩ := List.mem_flatMap.mp hu
    rw [Option.mem_toList] at hmem
    exact receiveSync_final hlaw hm (hok houtcome) hmem
  | restart =>
    unfold Call.run at h
    dsimp only at h
    split at h
    · cases h
      cases hu
    · cases h
  | _ =>
    cases h
    cases hu

/-! ### What the other side may publish -/

/-- The state stands at `n`: agreed, or set aside there. -/
def ChannelMachine.StandsAt (m : ChannelMachine) (n : ℕ) (s : ProtocolState) : Prop :=
  m.states.lookup n = some s ∨ ∃ alt ∈ m.alternativesAt n, alt.state = s

/-- What is signed and not revoked stands at the number of the final update. -/
theorem FinalAt.stands {m : ChannelMachine} {u : FinalisedUpdate} (hm : FinalAt m u) {n : ℕ}
    {s : ProtocolState} (h : m.Signs n s) (hsecret : m.theirRevocation.lookup n = none) :
    n = u.n ∧ m.StandsAt n s := by
  have hlate : m.stateNumber ≤ n := by
    by_contra hearly
    have hheld := hm.held n (by omega)
    rw [hsecret] at hheld
    cases hheld
  rcases h with ⟨hle, hs⟩ | ⟨p, hp, -⟩ | ⟨hle, alt, halt, rfl⟩
  · exact ⟨(le_antisymm hle hlate).trans hm.number.symm, .inl hs⟩
  · have hnone := hm.pending.symm.trans hp
    cases hnone
  · have hn : n = m.stateNumber := by
      by_contra hne
      have hnext : n = m.stateNumber + 1 := by omega
      rw [hnext, hm.newer] at halt
      cases halt
    exact ⟨hn.trans hm.number.symm, .inr ⟨alt, halt, rfl⟩⟩

/-- What was signed at any moment of a run stays signed. -/
theorem Run.signs {o : Opened} {m : ChannelMachine} {log : List Done}
    (h : Run (fun _ _ => True) o m log) : ∀ a ∈ o.machine :: log.map Prod.fst, ∀ n s,
      a.Signs n s → m.Signs n s := by
  induction h with
  | start hv hnew =>
    intro a ha n s hs
    unfold ChannelMachine.new at hnew
    obtain ⟨_, -, hnew⟩ := Res.bind_eq_ok.mp hnew
    obtain ⟨_, -, hnew⟩ := Res.bind_eq_ok.mp hnew
    obtain ⟨_, -, hnew⟩ := Res.bind_eq_ok.mp hnew
    cases hnew
    rw [List.map_nil, List.mem_singleton] at ha
    exact ha ▸ hs
  | call c hrun hok hc ih =>
    rename_i o m m' log out
    clear hok
    intro a ha n s hs
    obtain ⟨hnext, -, hch⟩ := hrun.kept
    have hmoves : Moves True m m' := run_moves hnext hch (fun _ => trivial) hc
    rw [List.map_append, List.map_singleton, ← List.cons_append, List.mem_append,
      List.mem_singleton] at ha
    rcases ha with ha | rfl
    · exact hmoves.signs hnext (ih a ha n s hs)
    · exact hs

/-- The last call of a run left the machine. -/
theorem Run.last {ok : ChannelMachine → Call → Prop} {o : Opened} {m : ChannelMachine}
    {log : List Done} {d : Done} (h : Run ok o m (log ++ [d])) : d.1 = m := by
  generalize hall : log ++ [d] = l at h
  cases h with
  | start => simp at hall
  | call c hrun hok hc =>
    have hlast := (List.append_inj' hall rfl).2
    rw [List.singleton_inj] at hlast
    rw [hlast]

/-- What the last call of a run reports final. -/
theorem Run.final (hlaw : Lawful) {o : Opened} {m : ChannelMachine} {log : List Done}
    {out : Emitted} (h : Run (fun _ _ => True) o m (log ++ [(m, out)])) {u : FinalisedUpdate}
    (hu : u ∈ out.finalised) : FinalAt m u := by
  generalize hall : log ++ [(m, out)] = l at h
  cases h with
  | start => simp at hall
  | call c hrun _ hc =>
    have hlast := (List.append_inj' hall rfl).2
    rw [List.singleton_inj, Prod.mk.injEq] at hlast
    obtain ⟨-, rfl⟩ := hlast
    exact c.final hlaw (hrun.binding hlaw) hc hu

/-- **A final update is final at its number.** When a call reports an update
final, every commitment of the other side's that this peer has signed at any
moment of the run is revoked, or is at the update's number: that of the agreed
state, or that of a proposal set aside there. So a transaction that a signature
of this peer's was given for is one of those commitments. -/
theorem update_final (hlaw : Lawful) {o : Opened} {m : ChannelMachine} {log : List Done}
    {out : Emitted} (h : Run (fun _ _ => True) o m (log ++ [(m, out)])) {u : FinalisedUpdate}
    (hu : u ∈ out.finalised) :
    u.n = m.stateNumber ∧
      (∀ a ∈ o.machine :: (log ++ [(m, out)]).map Prod.fst, ∀ n s, a.Signs n s →
        m.theirRevocation.lookup n = none → n = u.n ∧ m.StandsAt n s) ∧
      ∀ sig, SignatureOut o m (log ++ [(m, out)]) sig →
        ∀ tx, m.channel.verifyFunding tx m.myKey sig m.rules = true →
        ∃ n s c, m.theirCommitment n s = .ok c ∧
          Bitcoin.computeTxid c.tx = Bitcoin.computeTxid tx ∧
          ((m.theirRevocation.lookup n).isSome = true ∨ n = u.n ∧ m.StandsAt n s) := by
  have hfinal := h.final hlaw hu
  refine ⟨hfinal.number, fun a ha n s hs => hfinal.stands (h.signs a ha n s hs), ?_⟩
  intro sig hsig tx hverify
  obtain ⟨hclose, hcoop⟩ := hfinal.unclosed
  rcases hsig.recognised hlaw h hverify with ht | ⟨c, hc, -⟩ | ⟨n, s, c, hsigns, hc, ht⟩
  · rw [hcoop] at ht
    cases ht
  · rw [hclose] at hc
    cases hc
  · refine ⟨n, s, c, hc, ht, ?_⟩
    by_cases hsecret : m.theirRevocation.lookup n = none
    · exact .inr (hfinal.stands hsigns hsecret)
    · left
      rw [← Option.ne_none_iff_isSome]
      exact hsecret

end

attribute [local instance] sampleHitch

/-- What side B answers to a proposal it does not take. -/
def refusalOf : PeerMessage → List Call
  | .update u => [.receiveReject ⟨u.id, u.n, u.sig, none⟩ (sampleContext 102)]
  | _ => []

/-- What side A makes of a proposal of the other side's. -/
def acceptOf : PeerMessage → List Call := receiveOf (sampleSecret 33 next_ne_zero) 103

/-- What side A makes of a secret. -/
def revokeOf : PeerMessage → List Call
  | .revoke r => [.receiveRevoke r]
  | _ => []

/-- A payment of side B's, proposed. -/
def theirPay : List Call :=
  [.confirmFunding 100, .pay 3000 none (sampleSecret 33 next_ne_zero) (sampleContext 102)]

/-- Side A's payment is refused, and side B's at the same number is accepted. -/
def refusedCalls : List Call :=
  payCalls ++ (lastSent (sampleRunOf .a payCalls)).flatMap refusalOf ++
    (lastSent (sampleRunOf .b theirPay)).flatMap acceptOf

/-- Side B revokes the state before, and its payment is final. -/
def revokedCalls : List Call :=
  refusedCalls ++ (lastSent (sampleRunOf .b
    (theirPay ++ (lastSent (sampleRunOf .a refusedCalls)).flatMap closingOf))).flatMap revokeOf

set_option maxRecDepth 100000 in
theorem revokedCalls_final : (sampleRunOf .a revokedCalls).bind (fun r =>
      (r.1.alternativesAt 1).head?.bind fun alt => (theirsOf r.1 1 alt.state).map fun tx =>
        (r.2.any fun d => d.2.messages.any fun message =>
            decide (message.fundingSig = some (signatureOn r.1 tx)),
          r.2.getLast?.map (fun d => d.2.finalised.map FinalisedUpdate.n),
          (r.1.theirRevocation.lookup 1).isSome, decide (r.1.states.lookup 1 = some alt.state))) =
    some (true, some [1], false, false) := by
  decide +kernel

/-- A run whose last call reports update 1 final, with a proposal set aside at 1. -/
theorem revokedCalls_run : ∃ m log out u alt c,
    Run (fun _ _ => True) (sampleOpened .a) m (log ++ [(m, out)]) ∧ u ∈ out.finalised ∧ u.n = 1 ∧
    alt ∈ m.alternativesAt 1 ∧ m.theirCommitment 1 alt.state = .ok c ∧
    SignatureOut (sampleOpened .a) m (log ++ [(m, out)]) (signatureOn m c.tx) ∧
    m.theirRevocation.lookup 1 = none ∧ m.states.lookup 1 ≠ some alt.state := by
  obtain ⟨⟨m, log⟩, hr, h⟩ := Option.bind_eq_some_iff.mp revokedCalls_final
  obtain ⟨alt, halt, h⟩ := Option.bind_eq_some_iff.mp h
  obtain ⟨tx, htx, h⟩ := Option.map_eq_some_iff.mp h
  obtain ⟨c, hc, rfl⟩ := theirsOf_eq_some htx
  simp only [Prod.mk.injEq, Option.isSome_eq_false_iff, Option.isNone_iff_eq_none,
    decide_eq_false_iff_not] at h
  obtain ⟨hsent, hlast, hsecret, hstate⟩ := h
  obtain ⟨d, hd, hfinal⟩ := Option.map_eq_some_iff.mp hlast
  obtain ⟨log, rfl⟩ := List.getLast?_eq_some_iff.mp hd
  have hrun : Run (fun _ _ => True) (sampleOpened .a) m (log ++ [d]) :=
    run_of_sample (fun _ _ _ => trivial) hr
  obtain ⟨m', out⟩ := d
  obtain rfl : m' = m := hrun.last
  obtain ⟨u, hu, hn⟩ := List.mem_map.mp (hfinal ▸ List.mem_singleton_self 1)
  obtain ⟨d, hd, hmessage⟩ := List.any_eq_true.mp hsent
  obtain ⟨message, hmessage, hsig⟩ := List.any_eq_true.mp hmessage
  exact ⟨m', log, out, u, alt, c, hrun, hu, hn, List.mem_of_mem_head? halt, hc,
    .inr ⟨d, hd, .inl ⟨message, hmessage, of_decide_eq_true hsig⟩⟩, hsecret, hstate⟩

/-- The payment of side B's is final, and that set aside is at the same number. -/
theorem update_final_sample : ∃ m log out u, Run (fun _ _ => True) (sampleOpened .a) m
      (log ++ [(m, out)]) ∧ u ∈ out.finalised ∧ u.n = 1 ∧ m.stateNumber = 1 ∧
    ∀ n s, m.Signs n s → m.theirRevocation.lookup n = none → n = u.n ∧ m.StandsAt n s := by
  obtain ⟨m, log, out, u, alt, c, hrun, hu, hn, -⟩ := revokedCalls_run
  obtain ⟨hnumber, hsigned, -⟩ := update_final sampleHitch_lawful hrun hu
  refine ⟨m, log, out, u, hrun, hu, hn, hnumber.symm.trans hn, hsigned m ?_⟩
  simp

/-- The final update is not all that the other side may publish: it was given a
signature for the payment it refused. -/
theorem update_final_set_aside : Lawful ∧ ¬ ∀ m log out u,
    Run (fun _ _ => True) (sampleOpened .a) m (log ++ [(m, out)]) → u ∈ out.finalised →
    ∀ sig, SignatureOut (sampleOpened .a) m (log ++ [(m, out)]) sig →
    ∀ n s c, m.theirCommitment n s = .ok c →
      m.channel.verifyFunding c.tx m.myKey sig m.rules = true →
      m.theirRevocation.lookup n = none → n = u.n ∧ m.states.lookup u.n = some s := by
  refine ⟨sampleHitch_lawful, fun hall => ?_⟩
  obtain ⟨m, log, out, u, alt, c, hrun, hu, hn, -, hc, hsig, hsecret, hstate⟩ := revokedCalls_run
  have hsame := (hall m log out u hrun hu _ hsig 1 alt.state c hc
    (signatureOn_verifies hrun.public_key c.tx) hsecret).2
  rw [hn] at hsame
  exact hstate hsame

end Hitch

end Sidestr
