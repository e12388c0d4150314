/-
# What this peer has signed stays known

A signature of this peer's for the other side is on its commitment at an
agreed state, at the pending one, or at one set aside. A move carries a state
from one of these places to another and drops none, and the points those
commitments were built with stay. The same holds of the closes: the
transaction id of the cooperative close, and of the close published.

Key definitions: `ChannelMachine.Signs`, `ChannelMachine.Recognised`, `Closes`.
Key theorems: `Move.signs`, `Move.recognised`, `Moves.tracked`.
-/
import Sidestr.Hitch.Secrets
import Sidestr.Hitch.Conservation

namespace Sidestr

namespace Hitch

section

variable [Hitch] {named : Prop}

open ChannelMachine

/-- This peer has signed the other side's commitment at state `n` for `s`. -/
def ChannelMachine.Signs (m : ChannelMachine) (n : ℕ) (s : ProtocolState) : Prop :=
  (n ≤ m.stateNumber ∧ m.states.lookup n = some s) ∨
    (∃ p, m.pending = some p ∧ p.n = n ∧ m.states.lookup n = some s) ∨
    (n ≤ m.stateNumber + 1 ∧ ∃ alt ∈ m.alternativesAt n, alt.state = s)

/-- The agreed states and the pending one are there. -/
structure Present (m : ChannelMachine) : Prop where
  agreed : ∀ n ≤ m.stateNumber, (m.states.lookup n).isSome = true
  pending : ∀ p, m.pending = some p → (m.states.lookup p.n).isSome = true

/-! ### Nothing signed is forgotten -/

/-- Setting aside keeps every state signed: the pending one becomes an alternative. -/
theorem dropPending_alternative {m : ChannelMachine} (why : Text) {p : PendingUpdate}
    {s : ProtocolState} (hp : m.pending = some p) (hs : m.states.lookup p.n = some s) :
    ∃ alt ∈ (m.dropPending why).alternativesAt p.n, alt.state = s := by
  have hdrop : (m.dropPending why).signedAlternatives =
      ({ m with states := m.states.erase p.n }.rememberAlternative p.n s
        p.update).signedAlternatives := by
    unfold dropPending
    simp only [hp, hs]
  unfold alternativesAt
  rw [hdrop]
  unfold rememberAlternative
  split_ifs with hany
  · obtain ⟨alt, halt, heq⟩ := List.any_eq_true.mp hany
    exact ⟨alt, halt, of_decide_eq_true heq⟩
  · refine ⟨⟨s, p.update⟩, ?_, rfl⟩
    dsimp only
    rw [Finmap.lookup_insert, Option.getD_some]
    exact List.mem_append_right _ (List.mem_singleton.mpr rfl)

theorem mem_rememberAlternative {m : ChannelMachine} {n k : ℕ} {s : ProtocolState}
    {update : Update} {alt : SignedAlternative} (h : alt ∈ m.alternativesAt k) :
    alt ∈ (m.rememberAlternative n s update).alternativesAt k := by
  unfold rememberAlternative
  split_ifs
  · exact h
  · unfold alternativesAt
    dsimp only
    by_cases hk : k = n
    · rw [hk, Finmap.lookup_insert, Option.getD_some]
      exact List.mem_append_left _ (hk ▸ h)
    · rw [Finmap.lookup_insert_of_ne _ hk]
      exact h

theorem mem_dropPending {m : ChannelMachine} (why : Text) {k : ℕ} {alt : SignedAlternative}
    (h : alt ∈ m.alternativesAt k) : alt ∈ (m.dropPending why).alternativesAt k := by
  unfold dropPending
  split
  · exact h
  · dsimp only
    split
    · exact mem_rememberAlternative (m := { m with states := m.states.erase _ }) h
    · exact h

/-- What setting aside leaves, whatever else changes, if the states below stay. -/
theorem dropPending_signs {m m' : ChannelMachine} (why : Text) (hnext : m.PendingNext) {n : ℕ}
    {s : ProtocolState} (hn : m.stateNumber ≤ m'.stateNumber)
    (hstates : ∀ k ≤ m.stateNumber, m'.states.lookup k = (m.dropPending why).states.lookup k)
    (halternatives : ∀ k, m'.alternativesAt k = (m.dropPending why).alternativesAt k)
    (h : m.Signs n s) : m'.Signs n s := by
  rcases h with ⟨hle, hs⟩ | ⟨p, hp, rfl, hs⟩ | ⟨hle, alt, halt, rfl⟩
  · refine .inl ⟨hle.trans hn, ?_⟩
    rw [hstates n hle, dropPending_states why fun p hp => ?_]
    · exact hs
    · rw [hnext p hp]
      omega
  · refine .inr (.inr ⟨?_, ?_⟩)
    · rw [hnext p hp]
      omega
    · rw [halternatives]
      exact dropPending_alternative why hp hs
  · refine .inr (.inr ⟨by omega, alt, ?_, rfl⟩)
    rw [halternatives]
    exact mem_dropPending why halt

/-- A move that leaves the states, the alternatives and what is pending. -/
theorem signs_congr {m m' : ChannelMachine} (hn : m'.stateNumber = m.stateNumber)
    (hstates : m'.states = m.states) (halternatives : m'.signedAlternatives = m.signedAlternatives)
    (hpending : ∀ p, m.pending = some p → ∃ p', m'.pending = some p' ∧ p'.n = p.n) {n : ℕ}
    {s : ProtocolState} (h : m.Signs n s) : m'.Signs n s := by
  unfold ChannelMachine.Signs alternativesAt
  rw [hn, hstates, halternatives]
  rcases h with h | ⟨p, hp, hpn, hs⟩ | h
  · exact .inl h
  · obtain ⟨p', hp', hpn'⟩ := hpending p hp
    exact .inr (.inl ⟨p', hp', hpn'.trans hpn, hs⟩)
  · exact .inr (.inr h)

theorem agreed_frame {m : ChannelMachine} (message : AckMessage) (s : ProtocolState)
    (update : Update) : (m.agreed message s update).states = m.states.insert message.n s ∧
      (m.agreed message s update).signedAlternatives = m.signedAlternatives := by
  unfold agreed
  dsimp only
  rw [takeTheirReveal_frame]
  exact ⟨rfl, rfl⟩

omit [Hitch] in
/-- An element is the one taken out, or stays. -/
theorem eq_or_mem_eraseIdx {α : Type} {l : List α} {i : ℕ} {a b : α} (hb : b ∈ l)
    (ha : l[i]? = some a) : b = a ∨ b ∈ l.eraseIdx i := by
  obtain ⟨j, hj⟩ := List.mem_iff_getElem?.mp hb
  by_cases hij : j = i
  · rw [hij, ha] at hj
    exact .inl (Option.some.inj hj).symm
  · exact .inr (List.mem_eraseIdx_iff_getElem?.mpr ⟨j, hij, hj⟩)

theorem Move.signs {m m' : ChannelMachine} (h : Move named m m') (hnext : m.PendingNext) {n : ℕ}
    {s : ProtocolState} (hs : m.Signs n s) : m'.Signs n s := by
  have hsame : ∀ p, m.pending = some p → ∃ p', m.pending = some p' ∧ p'.n = p.n :=
    fun p hp => ⟨p, hp, rfl⟩
  cases h with
  | quiet hq =>
    refine signs_congr (hq.field stateNumber) (hq.field states) (hq.field signedAlternatives) ?_ hs
    rw [hq.field pending]
    exact hsame
  | propose hj =>
    rename_i update next ctx s' message
    obtain ⟨-, hnone, -, hn, -⟩ := proposal_ok hj
    rcases hs with ⟨hle, hs⟩ | ⟨p, hp, -⟩ | hs
    · refine .inl ⟨hle, ?_⟩
      unfold proposed
      dsimp only
      rw [hn, Finmap.lookup_insert_of_ne _ (by omega)]
      exact hs
    · rw [hnone] at hp
      cases hp
    · exact .inr (.inr hs)
  | resend now tries hp =>
    refine signs_congr ?_ ?_ ?_ (fun p' hp' => ?_) hs
    · rfl
    · rfl
    · rfl
    · rw [hp] at hp'
      cases hp'
      exact ⟨_, rfl, rfl⟩
  | accept next hj =>
    rename_i message ctx s'
    have hn := (judgeUpdate_accept hj).2.2.1
    refine dropPending_signs "they proposed at the same time and the lower key wins".toList hnext
      ?_ (fun k hk => ?_) (fun k => rfl) hs
    · exact (Nat.le_succ _).trans hn.ge
    · unfold accepted
      dsimp only
      rw [hn, Finmap.lookup_insert_of_ne _ (by omega)]
  | agree hj =>
    rename_i message pending s'
    obtain ⟨-, hp, hn, hs'⟩ := judgeAck_agree hj
    have hn' : message.n = m.stateNumber + 1 := hn ▸ hnext pending hp
    obtain ⟨hstates, halternatives⟩ :=
      agreed_frame (m := { m with pending := none }) message s' pending.update
    unfold ChannelMachine.Signs alternativesAt
    rw [hstates, halternatives, agreed_stateNumber]
    rcases hs with ⟨hle, hs⟩ | ⟨p, hp', rfl, hs⟩ | ⟨hle, hs⟩
    · refine .inl ⟨by omega, ?_⟩
      rw [Finmap.lookup_insert_of_ne _ (by omega)]
      exact hs
    · rw [hp] at hp'
      cases hp'
      rw [hs'] at hs
      refine .inl ⟨hn.le, ?_⟩
      rw [hn, Finmap.lookup_insert]
      exact hs
    · exact .inr (.inr ⟨by omega, hs⟩)
  | adopt hp hn hj =>
    rename_i message index alt
    have halt := (adoption_ok hj).2
    obtain ⟨hstates, halternatives⟩ :=
      agreed_frame (m := m.removeAlternative message.n index) message alt.state alt.update
    unfold ChannelMachine.Signs alternativesAt
    rw [hstates, halternatives, agreed_stateNumber]
    rcases hs with ⟨hle, hs⟩ | ⟨p, hp', -⟩ | ⟨hle, alt', halt', rfl⟩
    · refine .inl ⟨by omega, ?_⟩
      rw [Finmap.lookup_insert_of_ne _ (by omega)]
      exact hs
    · rw [hp] at hp'
      cases hp'
    · by_cases hk : n = message.n
      · subst hk
        rcases eq_or_mem_eraseIdx halt' halt with rfl | hrest
        · exact .inl ⟨le_rfl, Finmap.lookup_insert _⟩
        · refine .inr (.inr ⟨by omega, alt', ?_, rfl⟩)
          unfold removeAlternative
          dsimp only
          rw [Finmap.lookup_insert, Option.getD_some]
          exact hrest
      · refine .inr (.inr ⟨by omega, alt', ?_, rfl⟩)
        unfold removeAlternative
        dsimp only
        rw [Finmap.lookup_insert_of_ne _ hk]
        exact halt'
  | drop why =>
    exact dropPending_signs why hnext (dropPending_stateNumber why).ge (fun _ _ => rfl)
      (fun _ => rfl) hs
  | force why hn hlive htx =>
    exact dropPending_signs why hnext (dropPending_stateNumber why).ge (fun _ _ => rfl)
      (fun _ => rfl) hs
  | reveal index reveal =>
    rw [takeTheirReveal_frame]
    exact signs_congr rfl rfl rfl hsame hs
  | _ => exact signs_congr rfl rfl rfl hsame hs

/-! ### The states are there -/

theorem Present.of_states {m m' : ChannelMachine} (hm : Present m)
    (hn : m'.stateNumber = m.stateNumber)
    (hstates : ∀ k, (m.states.lookup k).isSome = true → k ≤ m.stateNumber ∨
      (∃ p, m'.pending = some p ∧ p.n = k) → (m'.states.lookup k).isSome = true)
    (hpending : ∀ p, m'.pending = some p → ∃ p', m.pending = some p' ∧ p'.n = p.n) :
    Present m' := by
  refine ⟨fun n hle => ?_, fun p hp => ?_⟩
  · rw [hn] at hle
    exact hstates n (hm.agreed n hle) (.inl hle)
  · obtain ⟨p', hp', hpn⟩ := hpending p hp
    exact hstates p.n (hpn ▸ hm.pending p' hp') (.inr ⟨p, hp, rfl⟩)

/-- The next state is there with those before it, and nothing is pending. -/
theorem Present.next {m m' : ChannelMachine} (hm : Present m)
    (hn : m'.stateNumber = m.stateNumber + 1) (hpending : m'.pending = none)
    (hnew : (m'.states.lookup (m.stateNumber + 1)).isSome = true)
    (hstates : ∀ k ≤ m.stateNumber, m'.states.lookup k = m.states.lookup k) : Present m' := by
  refine ⟨fun n hle => ?_, fun p hp => ?_⟩
  · by_cases hk : n = m.stateNumber + 1
    · rw [hk]
      exact hnew
    · have hle' : n ≤ m.stateNumber := by omega
      rw [hstates n hle']
      exact hm.agreed n hle'
  · rw [hpending] at hp
    cases hp

theorem dropPending_below {m : ChannelMachine} (why : Text) (hnext : m.PendingNext) {k : ℕ}
    (hk : k ≤ m.stateNumber) : (m.dropPending why).states.lookup k = m.states.lookup k := by
  refine dropPending_states why fun p hp => ?_
  rw [hnext p hp]
  omega

theorem Move.present {m m' : ChannelMachine} (h : Move named m m') (hnext : m.PendingNext)
    (hm : Present m) : Present m' := by
  have hdrop : ∀ why, ∀ k ≤ m.stateNumber,
      ((m.dropPending why).states.lookup k).isSome = true := by
    intro why k hk
    rw [dropPending_below why hnext hk]
    exact hm.agreed k hk
  cases h with
  | quiet hq =>
    refine hm.of_states (hq.field stateNumber) ?_ ?_
    · rw [hq.field states]
      exact fun _ h _ => h
    · rw [hq.field pending]
      exact fun p hp => ⟨p, hp, rfl⟩
  | propose hj =>
    rename_i update next ctx s' message
    have hn := (proposal_ok hj).2.2.2.1
    refine ⟨fun n hle => ?_, fun p hp => ?_⟩
    · unfold proposed at hle ⊢
      dsimp only at hle ⊢
      rw [hn, Finmap.lookup_insert_of_ne _ (by omega)]
      exact hm.agreed n hle
    · cases hp
      unfold proposed
      dsimp only
      rw [Finmap.lookup_insert]
      rfl
  | resend now tries hp =>
    refine hm.of_states rfl (fun _ h _ => h) fun p' hp' => ?_
    cases hp'
    exact ⟨_, hp, rfl⟩
  | accept next hj =>
    rename_i message ctx s'
    have hn := (judgeUpdate_accept hj).2.2.1
    refine hm.next hn (dropPending_pending _) ?_ fun k hk => ?_
    · unfold accepted
      dsimp only
      rw [hn, Finmap.lookup_insert]
      rfl
    · unfold accepted
      dsimp only
      rw [hn, Finmap.lookup_insert_of_ne _ (by omega)]
      exact dropPending_below _ hnext hk
  | agree hj =>
    rename_i message pending s'
    obtain ⟨-, hp, hn, hs'⟩ := judgeAck_agree hj
    have hn' : message.n = m.stateNumber + 1 := hn ▸ hnext pending hp
    obtain ⟨hstates, -⟩ := agreed_frame (m := { m with pending := none }) message s' pending.update
    refine hm.next hn' (agreed_pending _ _ _) ?_ fun k hk => ?_
    · rw [hstates, hn', Finmap.lookup_insert]
      rfl
    · rw [hstates, hn', Finmap.lookup_insert_of_ne _ (by omega)]
  | adopt hp hn hj =>
    rename_i message index alt
    obtain ⟨hstates, -⟩ :=
      agreed_frame (m := m.removeAlternative message.n index) message alt.state alt.update
    refine hm.next hn ((agreed_pending _ _ _).trans hp) ?_ fun k hk => ?_
    · rw [hstates, hn, Finmap.lookup_insert]
      rfl
    · rw [hstates, hn, Finmap.lookup_insert_of_ne _ (by omega)]
      rfl
  | drop why =>
    refine ⟨fun n hle => hdrop why n ?_, fun p hp => ?_⟩
    · exact (dropPending_stateNumber why).subst hle
    · rw [dropPending_pending] at hp
      cases hp
  | force why hn hlive htx =>
    refine ⟨fun n hle => hdrop why n ?_, fun p hp => ?_⟩
    · exact (dropPending_stateNumber why).subst hle
    · have hnone := hp.symm.trans (dropPending_pending why)
      cases hnone
  | reveal index reveal =>
    rw [takeTheirReveal_frame]
    exact ⟨hm.agreed, hm.pending⟩
  | _ => exact ⟨hm.agreed, hm.pending⟩

/-! ### The points stay -/

theorem Move.points_kept {m m' : ChannelMachine} (h : Move named m m') (hnext : m.PendingNext)
    (hm : PointsMatch m) {n : ℕ} {p : Point} (hp : m.theirRevocationPublic.lookup n = some p) :
    m'.theirRevocationPublic.lookup n = some p := by
  have hle := hm.points n p hp
  cases h with
  | quiet hq =>
    rw [hq.field theirRevocationPublic]
    exact hp
  | drop why =>
    rw [dropPending_frame]
    exact hp
  | force why hn hlive htx =>
    rw [dropPending_frame]
    exact hp
  | reveal index reveal =>
    rw [takeTheirReveal_frame]
    exact hp
  | accept next hj =>
    rename_i message ctx s
    have hn := (judgeUpdate_accept hj).2.2.1
    unfold accepted
    dsimp only
    rw [dropPending_frame, hn, Finmap.lookup_insert_of_ne _ (by omega)]
    exact hp
  | agree hj =>
    rename_i message pending s
    obtain ⟨-, hp', hn, -⟩ := judgeAck_agree hj
    have hn' : message.n = m.stateNumber + 1 := hn ▸ hnext pending hp'
    unfold agreed
    dsimp only
    rw [takeTheirReveal_frame, hn', Finmap.lookup_insert_of_ne _ (by omega)]
    exact hp
  | adopt hpending hn hj =>
    unfold agreed
    dsimp only
    rw [takeTheirReveal_frame, hn, Finmap.lookup_insert_of_ne _ (by omega)]
    exact hp
  | _ => exact hp

/-- The other side's commitment stays what it was. -/
theorem theirCommitment_congr {m m' : ChannelMachine} {n : ℕ} {s : ProtocolState} {c : Commitment}
    (hterms : m'.terms = m.terms)
    (hpoint : ∀ p, m.theirRevocationPublic.lookup n = some p →
      m'.theirRevocationPublic.lookup n = some p)
    (h : m.theirCommitment n s = .ok c) : m'.theirCommitment n s = .ok c := by
  unfold ChannelMachine.terms at hterms
  simp only [Prod.mk.injEq] at hterms
  obtain ⟨hchannel, hrole, -, -, hbase, -, -⟩ := hterms
  have hother : m.role.other ≠ m.role := by cases m.role <;> decide
  unfold theirCommitment commitmentAt revocationFor at h ⊢
  rw [hchannel, hrole, hbase]
  rw [if_neg hother] at h ⊢
  obtain ⟨key, hkey, h⟩ := Res.bind_eq_ok.mp h
  obtain ⟨point, hlookup, hkey⟩ := Res.bind_eq_ok.mp hkey
  rw [Res.okOr_eq_ok] at hlookup
  rw [hpoint point hlookup]
  refine Res.bind_eq_ok.mpr ⟨key, ?_, h⟩
  exact Res.bind_eq_ok.mpr ⟨point, rfl, hkey⟩

/-! ### The closes -/

/-- What a close of this peer's is: the cooperative close is that of the agreed
state, its commitment is published last, and a close asked for has been signed. -/
structure Closes (m : ChannelMachine) : Prop where
  txid : ∀ c, m.close = some c → Bitcoin.computeTxid c.tx = c.txid
  coop : ∀ t, m.coopTxid = some t → ∃ tx, m.cooperativeTx = .ok tx ∧ Bitcoin.computeTxid tx = t
  shared : ∀ c, m.close = some c → c.state = none → m.coopTxid = some c.txid
  own : ∀ c, m.close = some c → c.state ≠ none → m.status ≠ .closing ∧
    ∀ sp, m.spend = some sp → sp.previousStatus ≠ .closing
  asked : m.status = .closingAsked → m.coopTxid.isSome = true
  back : ∀ sp, m.spend = some sp → sp.previousStatus = .closingAsked → m.coopTxid.isSome = true

theorem cooperativeTx_congr {m m' : ChannelMachine} (hterms : m'.terms = m.terms)
    (hn : m'.stateNumber = m.stateNumber)
    (hstates : m'.states.lookup m.stateNumber = m.states.lookup m.stateNumber) :
    m'.cooperativeTx = m.cooperativeTx := by
  have hchannel : m'.channel = m.channel := congrArg Prod.fst hterms
  unfold cooperativeTx currentState
  rw [hchannel, hn, hstates]

theorem closes_of_none {m : ChannelMachine} (hclose : m.close = none) (hcoop : m.coopTxid = none)
    (hspend : m.spend = none) (hstatus : m.status ≠ .closingAsked) : Closes m := by
  refine ⟨fun c h => ?_, fun t h => ?_, fun c h => ?_, fun c h => ?_, fun h => absurd h hstatus,
    fun sp h => ?_⟩
  · rw [hclose] at h
    cases h
  · rw [hcoop] at h
    cases h
  · rw [hclose] at h
    cases h
  · rw [hclose] at h
    cases h
  · rw [hspend] at h
    cases h

/-- A move that leaves the closes, the spend, the status and the agreed state. -/
theorem Closes.congr {m m' : ChannelMachine} (hm : Closes m) (hterms : m'.terms = m.terms)
    (hspend : m'.spend = m.spend) (hclose : m'.close = m.close)
    (hcoop : m'.coopTxid = m.coopTxid) (hstatus : m'.status = m.status)
    (hn : m'.stateNumber = m.stateNumber)
    (hstates : m'.states.lookup m.stateNumber = m.states.lookup m.stateNumber) : Closes m' := by
  refine ⟨?_, ?_, ?_, ?_, ?_, ?_⟩
  · rw [hclose]
    exact hm.txid
  · rw [hcoop, cooperativeTx_congr hterms hn hstates]
    exact hm.coop
  · rw [hclose, hcoop]
    exact hm.shared
  · rw [hclose, hstatus, hspend]
    exact hm.own
  · rw [hstatus, hcoop]
    exact hm.asked
  · rw [hspend, hcoop]
    exact hm.back

/-- An acknowledgement agrees only on an open channel. -/
theorem agree_open {m : ChannelMachine} (hm : Settled named m) (hc : Closes m)
    {message : AckMessage} {pending : PendingUpdate} {s : ProtocolState}
    (hj : m.judgeAck message = .ok (.agree pending s)) : m.status = .open := by
  obtain ⟨hstatus, hp, -⟩ := judgeAck_agree hj
  rcases hstatus with h | h
  · exact h
  · have hnone := (hm.coop (hc.asked h)).1
    rw [hp] at hnone
    cases hnone

theorem agreed_closes {m : ChannelMachine} (message : AckMessage) (s : ProtocolState)
    (update : Update) : (m.agreed message s update).close = m.close ∧
      (m.agreed message s update).coopTxid = m.coopTxid ∧
      (m.agreed message s update).spend = m.spend ∧
      (m.agreed message s update).status = m.status := by
  unfold agreed
  dsimp only
  rw [takeTheirReveal_frame]
  exact ⟨rfl, rfl, rfl, rfl⟩

theorem Move.closes {m m' : ChannelMachine} (h : Move named m m')
    (hwitness : ∀ tx w, Bitcoin.computeTxid (withWitness tx w) = Bitcoin.computeTxid tx)
    (hnext : m.PendingNext) (hs : Settled named m) (hm : Closes m) : Closes m' := by
  have hterms := h.terms
  have hopen : m.status = .open → m.status ≠ .closingAsked := by
    intro h
    rw [h]
    exact fun h => by cases h
  cases h with
  | quiet hq =>
    refine hm.congr hterms (hq.field ChannelMachine.spend) (hq.field ChannelMachine.close)
      (hq.field coopTxid) (hq.field status) (hq.field stateNumber) ?_
    rw [hq.field states]
  | propose hj =>
    have ho := (proposal_ok hj).1
    obtain ⟨hclose, hcoop, hspend⟩ := hs.open_none ho
    exact closes_of_none hclose hcoop hspend (hopen ho)
  | accept next hj =>
    have ho := (judgeUpdate_accept hj).1
    obtain ⟨hclose, hcoop, hspend⟩ := hs.open_none ho
    refine closes_of_none ?_ ?_ ?_ ?_
    · exact (dropPending_close _).trans hclose
    · exact (dropPending_coopTxid _).trans hcoop
    · exact (dropPending_spend _).trans hspend
    · exact fun h => hopen ho ((dropPending_status _).symm.trans h)
  | agree hj =>
    rename_i message pending s
    have ho := agree_open hs hm hj
    obtain ⟨hclose, hcoop, hspend⟩ := hs.open_none ho
    obtain ⟨hclose', hcoop', hspend', hstatus'⟩ :=
      agreed_closes (m := { m with pending := none }) message s pending.update
    exact closes_of_none (hclose'.trans hclose) (hcoop'.trans hcoop) (hspend'.trans hspend)
      fun h => hopen ho (hstatus'.symm.trans h)
  | adopt hp hn hj =>
    rename_i message index alt
    have ho := (adoption_ok hj).1
    obtain ⟨hclose, hcoop, hspend⟩ := hs.open_none ho
    obtain ⟨hclose', hcoop', hspend', hstatus'⟩ :=
      agreed_closes (m := m.removeAlternative message.n index) message alt.state alt.update
    exact closes_of_none (hclose'.trans hclose) (hcoop'.trans hcoop) (hspend'.trans hspend)
      fun h => hopen ho (hstatus'.symm.trans h)
  | drop why =>
    exact hm.congr hterms (dropPending_spend why) (dropPending_close why)
      (dropPending_coopTxid why) (dropPending_status why) (dropPending_stateNumber why)
      (dropPending_below why hnext le_rfl)
  | reveal index reveal =>
    rw [takeTheirReveal_frame] at hterms ⊢
    exact hm.congr hterms rfl rfl rfl rfl rfl rfl
  | confirm hf =>
    have hlive : m.status.isLive = true := by
      rw [hf]
      rfl
    exact closes_of_none (hs.close_none hlive) (hs.coop_none (.inr (.inl hf)))
      (hs.spend_none (isLive_not_spent hlive)) fun h => by cases h
  | askClose hstatus hp ha htx =>
    rename_i tx
    have hlive : m.status.isLive = true := by
      rcases hstatus with h | h <;> rw [h] <;> rfl
    have hclose := hs.close_none hlive
    have hspend := hs.spend_none (isLive_not_spent hlive)
    refine ⟨fun c h => ?_, fun t h => ?_, fun c h => ?_, fun c h => ?_, fun _ => rfl,
      fun sp _ _ => rfl⟩
    · rw [hclose] at h
      cases h
    · cases h
      exact ⟨tx, htx, rfl⟩
    · rw [hclose] at h
      cases h
    · rw [hclose] at h
      cases h
  | coopClose w height hlive hp ha htx =>
    rename_i tx
    have hspend := hs.spend_none (isLive_not_spent hlive)
    refine ⟨fun c h => ?_, fun t h => ?_, fun c h _ => ?_, fun c h hne => ?_, fun h => ?_,
      fun sp _ _ => rfl⟩
    · cases h
      rfl
    · cases h
      exact ⟨tx, htx, (hwitness tx w).symm⟩
    · cases h
      rfl
    · cases h
      exact absurd rfl hne
    · cases h
  | force why hn hlive htx =>
    rename_i n tx ctx
    have hspend : m.spend = none := by
      refine hs.spend_none ?_
      rcases hlive with h | h
      · exact isLive_not_spent h
      · rw [h]
        rfl
    have hspend' : (m.dropPending why).spend = none := (dropPending_spend why).trans hspend
    refine ⟨fun c h => ?_, fun t h => ?_, fun c h hnone => ?_, fun c h _ => ⟨?_, fun sp hsp => ?_⟩,
      fun h => ?_, fun sp hsp => ?_⟩
    · cases h
      rfl
    · obtain ⟨coop, hcoop, ht⟩ := hm.coop t ((dropPending_coopTxid why).symm.trans h)
      refine ⟨coop, ?_, ht⟩
      exact (cooperativeTx_congr hterms (dropPending_stateNumber why)
        (dropPending_below why hnext le_rfl)).trans hcoop
    · cases h
      cases hnone
    · exact fun h => by cases h
    · have hnone := hspend'.symm.trans hsp
      cases hnone
    · cases h
    · have hnone := hspend'.symm.trans hsp
      cases hnone
  | rebroadcast height hc =>
    refine ⟨fun c' h => ?_, hm.coop, fun c' h hnone => ?_, fun c' h hne => ?_, hm.asked, hm.back⟩
    · cases h
      exact (hm.txid _ hc :)
    · cases h
      exact (hm.shared _ hc hnone :)
    · cases h
      exact (hm.own _ hc hne :)
  | spent txid height kind hspent =>
    refine ⟨hm.txid, hm.coop, hm.shared, fun c h hne => ⟨?_, fun sp hsp => ?_⟩, fun h => ?_,
      fun sp hsp hasked => ?_⟩
    · rintro rfl
      cases hspent
    · cases hsp
      exact (hm.own c h hne).1
    · dsimp only at h
      rw [h] at hspent
      cases hspent
    · cases hsp
      exact hm.asked hasked
  | unpunished txid height kind hc hk hnone =>
    refine ⟨hm.txid, hm.coop, hm.shared, fun c h hne => ⟨(hm.own c h hne).1, fun sp hsp => ?_⟩,
      hm.asked, fun sp hsp hasked => ?_⟩
    · cases hsp
      exact (hm.own c h hne).1
    · cases hsp
      exact hm.asked hasked
  | follow hspent hspent' =>
    refine ⟨hm.txid, hm.coop, hm.shared, fun c h hne => ⟨?_, (hm.own c h hne).2⟩, fun h => ?_,
      hm.back⟩
    · rintro rfl
      cases hspent'
    · dsimp only at h
      rw [h] at hspent'
      cases hspent'
  | unSpend hsp =>
    rename_i sp
    refine ⟨hm.txid, hm.coop, hm.shared, fun c h hne => ⟨?_, fun sp' h' => absurd h' (by simp)⟩,
      fun h => ?_, fun sp' h' => absurd h' (by simp)⟩
    · have hlive := (hs.back sp hsp).1 (by rw [h]; rfl)
      dsimp only [backTo]
      split_ifs with hback
      · rw [hback.2] at hlive
        cases hlive
      · exact (hm.own c h hne).2 sp hsp
    · dsimp only [backTo] at h
      split_ifs at h
      exact hm.back sp hsp h
  | _ => exact hm.congr hterms rfl rfl rfl rfl rfl rfl

/-! ### What is recognised -/

/-- A spend of the funding output with this id is one this peer has signed for. -/
def ChannelMachine.Recognised (m : ChannelMachine) (t : Txid) : Prop :=
  m.coopTxid = some t ∨ (∃ c, m.close = some c ∧ c.txid = t) ∨
    ∃ n s c, m.Signs n s ∧ m.theirCommitment n s = .ok c ∧ Bitcoin.computeTxid c.tx = t

theorem Move.coopTxid_kept {m m' : ChannelMachine} (h : Move named m m')
    (hwitness : ∀ tx w, Bitcoin.computeTxid (withWitness tx w) = Bitcoin.computeTxid tx)
    (hs : Settled named m) (hm : Closes m) {t : Txid} (ht : m.coopTxid = some t) :
    m'.coopTxid = some t := by
  cases h with
  | quiet hq => exact (hq.field coopTxid).trans ht
  | accept next hj => exact (dropPending_coopTxid _).trans ht
  | agree hj => exact (agreed_closes _ _ _).2.1.trans ht
  | adopt hp hn hj => exact (agreed_closes _ _ _).2.1.trans ht
  | drop why => exact (dropPending_coopTxid why).trans ht
  | force why hn hlive htx => exact (dropPending_coopTxid why).trans ht
  | reveal index reveal =>
    rw [takeTheirReveal_frame]
    exact ht
  | askClose hstatus hp ha htx =>
    have hnone := hs.coop_none (.inr hstatus.symm)
    rw [ht] at hnone
    cases hnone
  | coopClose w height hlive hp ha htx =>
    obtain ⟨tx, htx', rfl⟩ := hm.coop t ht
    rw [htx] at htx'
    cases htx'
    exact congrArg some (hwitness _ w)
  | _ => exact ht

theorem Move.close_kept {m m' : ChannelMachine} (h : Move named m m') (hs : Settled named m)
    (hm : Closes m) {c : CloseRecord} (hc : m.close = some c) :
    (∃ c', m'.close = some c' ∧ c'.txid = c.txid) ∨ m.coopTxid = some c.txid := by
  cases h with
  | quiet hq => exact .inl ⟨c, (hq.field ChannelMachine.close).trans hc, rfl⟩
  | accept next hj => exact .inl ⟨c, (dropPending_close _).trans hc, rfl⟩
  | agree hj => exact .inl ⟨c, (agreed_closes _ _ _).1.trans hc, rfl⟩
  | adopt hp hn hj => exact .inl ⟨c, (agreed_closes _ _ _).1.trans hc, rfl⟩
  | drop why => exact .inl ⟨c, (dropPending_close why).trans hc, rfl⟩
  | reveal index reveal =>
    rw [takeTheirReveal_frame]
    exact .inl ⟨c, hc, rfl⟩
  | coopClose w height hlive hp ha htx =>
    have hnone := hs.close_none hlive
    rw [hc] at hnone
    cases hnone
  | force why hn hlive htx =>
    right
    rcases hlive with hlive | hclosing
    · have hnone := hs.close_none hlive
      rw [hc] at hnone
      cases hnone
    · refine hm.shared c hc ?_
      by_contra hne
      exact (hm.own c hc hne).1 hclosing
  | rebroadcast height hc' =>
    rw [hc'] at hc
    cases hc
    exact .inl ⟨_, rfl, rfl⟩
  | _ => exact .inl ⟨c, hc, rfl⟩

theorem Move.recognised {m m' : ChannelMachine} (h : Move named m m')
    (hwitness : ∀ tx w, Bitcoin.computeTxid (withWitness tx w) = Bitcoin.computeTxid tx)
    (hnext : m.PendingNext) (hpoints : PointsMatch m) (hs : Settled named m) (hm : Closes m)
    {t : Txid} (ht : m.Recognised t) : m'.Recognised t := by
  rcases ht with ht | ⟨c, hc, rfl⟩ | ⟨n, s, c, hsigns, hc, rfl⟩
  · exact .inl (h.coopTxid_kept hwitness hs hm ht)
  · rcases h.close_kept hs hm hc with hc | ht
    · exact .inr (.inl hc)
    · exact .inl (h.coopTxid_kept hwitness hs hm ht)
  · refine .inr (.inr ⟨n, s, c, h.signs hnext hsigns, ?_, rfl⟩)
    exact theirCommitment_congr h.terms (fun p hp => h.points_kept hnext hpoints hp) hc

/-! ### Signatures -/

/-- The signature is this peer's on a recognised spend of the funding output. -/
def ChannelMachine.SignedFor (m : ChannelMachine) (sig : Sig) : Prop :=
  ∃ tx aux, m.channel.signFunding tx m.channelKey m.rules aux = .ok sig ∧
    m.Recognised (Bitcoin.computeTxid tx)

/-- Everything kept of a channel's states, closes and signatures. -/
structure Tracked (named : Prop) (m : ChannelMachine) : Prop where
  next : m.PendingNext
  points : PointsMatch m
  settled : Settled named m
  present : Present m
  closes : Closes m
  pending : ∀ p, m.pending = some p → m.SignedFor p.message.sig

theorem signFunding_ok {m : ChannelMachine} {tx : Transaction} {ctx : Context} {sig : Sig}
    (h : m.signFunding tx ctx = .ok sig) :
    m.channel.signFunding tx m.channelKey m.rules ctx.aux = .ok sig := by
  unfold ChannelMachine.signFunding ofProtocol at h
  split at h
  · rename_i hsig
    cases h
    exact hsig
  · cases h

theorem signedFor_commitment {m : ChannelMachine} {n : ℕ} {s : ProtocolState} {c : Commitment}
    {ctx : Context} {sig : Sig} (hs : m.Signs n s) (hc : m.theirCommitment n s = .ok c)
    (hsig : m.signFunding c.tx ctx = .ok sig) : m.SignedFor sig :=
  ⟨c.tx, ctx.aux, signFunding_ok hsig, .inr (.inr ⟨n, s, c, hs, hc, rfl⟩)⟩

theorem signedFor_congr {m m' : ChannelMachine} (hterms : m'.terms = m.terms)
    (hrecognised : ∀ t, m.Recognised t → m'.Recognised t) {sig : Sig} (h : m.SignedFor sig) :
    m'.SignedFor sig := by
  unfold ChannelMachine.terms at hterms
  simp only [Prod.mk.injEq] at hterms
  obtain ⟨hchannel, -, -, hkey, -, -, hrules⟩ := hterms
  obtain ⟨tx, aux, hsig, ht⟩ := h
  refine ⟨tx, aux, ?_, hrecognised _ ht⟩
  rw [hchannel, hkey, hrules]
  exact hsig

theorem proposal_signed {m : ChannelMachine} {update : Update} {next : SecretKey} {ctx : Context}
    {s : ProtocolState} {message : UpdateMessage}
    (h : m.proposal update next ctx = .ok (s, message)) :
    ∃ c, m.theirCommitment message.n s = .ok c ∧ m.signFunding c.tx ctx = .ok message.sig := by
  unfold ChannelMachine.proposal at h
  obtain ⟨_, -, h⟩ := Res.bind_eq_ok.mp h
  obtain ⟨_, -, h⟩ := Res.bind_eq_ok.mp h
  obtain ⟨_, -, h⟩ := Res.bind_eq_ok.mp h
  obtain ⟨_, -, h⟩ := Res.bind_eq_ok.mp h
  obtain ⟨_, -, h⟩ := Res.bind_eq_ok.mp h
  obtain ⟨_, -, h⟩ := Res.bind_eq_ok.mp h
  obtain ⟨_, -, h⟩ := Res.bind_eq_ok.mp h
  obtain ⟨update', -, h⟩ := Res.bind_eq_ok.mp h
  obtain ⟨_, -, h⟩ := Res.bind_eq_ok.mp h
  obtain ⟨s', -, h⟩ := Res.bind_eq_ok.mp h
  obtain ⟨_, -, h⟩ := Res.bind_eq_ok.mp h
  obtain ⟨c, hc, h⟩ := Res.bind_eq_ok.mp h
  obtain ⟨sig, hsig, h⟩ := Res.bind_eq_ok.mp h
  rw [Res.ok.injEq, Prod.mk.injEq] at h
  obtain ⟨rfl, rfl⟩ := h
  exact ⟨c, hc, hsig⟩

theorem Move.pending_signed {m m' : ChannelMachine} (h : Move named m m')
    (hrecognised : ∀ t, m.Recognised t → m'.Recognised t) (hpoints : PointsMatch m)
    (hnext : m.PendingNext)
    (hm : ∀ p, m.pending = some p → m.SignedFor p.message.sig) :
    ∀ p, m'.pending = some p → m'.SignedFor p.message.sig := by
  have hterms := h.terms
  have hkept : ∀ {p}, m.pending = some p → m'.SignedFor p.message.sig := fun hp =>
    signedFor_congr hterms hrecognised (hm _ hp)
  have hcommitment : ∀ {n s c}, m.theirCommitment n s = .ok c →
      m'.theirCommitment n s = .ok c :=
    fun hc => theirCommitment_congr hterms (fun p hp => h.points_kept hnext hpoints hp) hc
  cases h with
  | quiet hq =>
    intro p hp
    exact hkept ((hq.field pending).symm.trans hp)
  | propose hj =>
    rename_i update next ctx s message
    intro p hp
    cases hp
    obtain ⟨c, hc, hsig⟩ := proposal_signed hj
    refine signedFor_commitment (n := message.n) (s := s) (.inr (.inl ⟨_, rfl, rfl, ?_⟩))
      (hcommitment hc) (hsig :)
    unfold proposed
    dsimp only
    rw [Finmap.lookup_insert]
  | resend now tries hp =>
    intro p' hp'
    cases hp'
    exact (hkept hp :)
  | accept next hj =>
    intro p hp
    rw [accepted_pending] at hp
    cases hp
  | agree hj =>
    intro p hp
    rw [agreed_pending] at hp
    cases hp
  | adopt hnone hn hj =>
    intro p hp
    rw [agreed_pending] at hp
    exact hkept hp
  | drop why =>
    intro p hp
    rw [dropPending_pending] at hp
    cases hp
  | force why hn hlive htx =>
    intro p hp
    have hnone := hp.symm.trans (dropPending_pending why)
    cases hnone
  | reveal index reveal =>
    intro p hp
    rw [takeTheirReveal_pending] at hp
    exact hkept hp
  | _ => exact fun p hp => hkept hp

theorem Move.tracked {m m' : ChannelMachine} (h : Move named m m')
    (hkeys : ∀ r b : SecretKey, Hitch.revocationKey b r = none →
      Hitch.revocationPub (Hitch.public r) b = none)
    (hwitness : ∀ tx w, Bitcoin.computeTxid (withWitness tx w) = Bitcoin.computeTxid tx)
    (hm : Tracked named m) : Tracked named m' ∧ ∀ t, m.Recognised t → m'.Recognised t := by
  have hrecognised : ∀ t, m.Recognised t → m'.Recognised t := fun t ht =>
    h.recognised hwitness hm.next hm.points hm.settled hm.closes ht
  refine ⟨⟨h.pendingNext hm.next, h.points hm.next hm.points,
    h.settled hkeys hm.next hm.points hm.settled, h.present hm.next hm.present,
    h.closes hwitness hm.next hm.settled hm.closes,
    h.pending_signed hrecognised hm.points hm.next hm.pending⟩, hrecognised⟩

theorem Moves.tracked {m m' : ChannelMachine} (h : Moves named m m')
    (hkeys : ∀ r b : SecretKey, Hitch.revocationKey b r = none →
      Hitch.revocationPub (Hitch.public r) b = none)
    (hwitness : ∀ tx w, Bitcoin.computeTxid (withWitness tx w) = Bitcoin.computeTxid tx)
    (hm : Tracked named m) : Tracked named m' ∧ (∀ t, m.Recognised t → m'.Recognised t) ∧
      ∀ sig, m.SignedFor sig → m'.SignedFor sig := by
  refine h.ind (P := fun b => Tracked named b ∧ (∀ t, m.Recognised t → b.Recognised t) ∧
    ∀ sig, m.SignedFor sig → b.SignedFor sig) ?_ ⟨hm, fun _ h => h, fun _ h => h⟩
  rintro a b hab ⟨ha, hrecognised, hsigned⟩
  obtain ⟨hb, hrecognised'⟩ := hab.tracked hkeys hwitness ha
  exact ⟨hb, fun t ht => hrecognised' t (hrecognised t ht), fun sig hs =>
    signedFor_congr hab.terms hrecognised' (hsigned sig hs)⟩

theorem machine_tracked (o : Opened) : Tracked named o.machine where
  next := pendingNext_of_none rfl
  points := machine_points o
  settled := machine_settled o
  present := by
    refine ⟨fun n hle => ?_, fun p hp => by cases hp⟩
    obtain rfl : n = 0 := Nat.le_zero.mp hle
    unfold Opened.machine
    dsimp only
    rw [Finmap.lookup_insert]
    rfl
  closes := closes_of_none rfl rfl rfl fun h => by cases h
  pending p hp := by cases hp

end

end Hitch

end Sidestr
