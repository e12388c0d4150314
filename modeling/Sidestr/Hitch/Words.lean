/-
# The machine's words

State numbers and HTLC ids are 64-bit words, and the calls that take a message of
the other side's add one to them without a check. Most of these sums are of a
number an earlier check has tied to the machine's own; the one of a sync's
number is not.

The other ways such a call could stop, a key missing from a map or an entry
found before and gone, no run brings about: the secrets of the states up to the
next are all kept.

Key definitions: `Adds`, `Panics`, `Survives`, `Fits`.
Key theorems: `Move.keyed`, `Move.numbered`, `message_survives`.
-/
import Sidestr.Hitch.Protective

namespace Sidestr

namespace Hitch

section

variable [Hitch] {named : Prop}

open ChannelMachine

/-! ### Results that are values or errors -/

omit [Hitch] in
theorem ofExcept_ne_panic {α : Type} (x : Except ChannelError α) : ofExcept x ≠ .panic := by
  cases x <;> exact fun h => by cases h

omit [Hitch] in
theorem ofProtocol_ne_panic {α : Type} (x : Except ProtocolError α) : ofProtocol x ≠ .panic := by
  cases x <;> exact fun h => by cases h

omit [Hitch] in
theorem subtractBalance_ne_panic (s : ProtocolState) (side : Side) (amount : ℕ) :
    subtractBalance s side amount ≠ .panic := by
  unfold subtractBalance
  refine Res.bind_ne_panic (Res.okOr_ne_panic _ _) fun _ _ => ?_
  cases side <;> exact fun h => by cases h

omit [Hitch] in
theorem addBalance_ne_panic (s : ProtocolState) (side : Side) (amount : ℕ) :
    addBalance s side amount ≠ .panic := by
  unfold addBalance
  refine Res.bind_ne_panic (Res.okOr_ne_panic _ _) fun _ _ => ?_
  cases side <;> exact fun h => by cases h

omit [Hitch] in
theorem takeHtlc_ne_panic (s : ProtocolState) (htlcId : ℕ) : takeHtlc s htlcId ≠ .panic := by
  unfold takeHtlc
  exact Res.bind_ne_panic (Res.okOr_ne_panic _ _) fun _ _ h => by cases h

namespace ChannelMachine

variable {m : ChannelMachine}

theorem keepsFee_ne_panic (s : ProtocolState) : m.keepsFee s ≠ .panic := by
  unfold keepsFee
  exact Res.bind_ne_panic (Res.refuseIf_ne_panic _ _) fun _ _ h => by cases h

theorem nextState_ne_panic (current : ProtocolState) (update : Update) (sender : Side)
    (height : ℕ) : m.nextState current update sender height ≠ .panic := by
  unfold nextState
  cases update with
  | pay amount memo =>
    exact Res.bind_ne_panic (subtractBalance_ne_panic _ _ _) fun _ _ =>
      Res.bind_ne_panic (addBalance_ne_panic _ _ _) fun _ _ => keepsFee_ne_panic _
  | add htlc memo =>
    exact Res.bind_ne_panic (Res.refuseIf_ne_panic _ _) fun _ _ =>
      Res.bind_ne_panic (Res.refuseIf_ne_panic _ _) fun _ _ =>
      Res.bind_ne_panic (Res.refuseIf_ne_panic _ _) fun _ _ =>
      Res.bind_ne_panic (subtractBalance_ne_panic _ _ _) fun _ _ => keepsFee_ne_panic _
  | settle htlcId preimage =>
    exact Res.bind_ne_panic (takeHtlc_ne_panic _ _) fun _ _ =>
      Res.bind_ne_panic (Res.refuseIf_ne_panic _ _) fun _ _ =>
      Res.bind_ne_panic (Res.refuseIf_ne_panic _ _) fun _ _ =>
      Res.bind_ne_panic (Res.refuseIf_ne_panic _ _) fun _ _ =>
      Res.bind_ne_panic (addBalance_ne_panic _ _ _) fun _ _ => keepsFee_ne_panic _
  | fail htlcId reason =>
    exact Res.bind_ne_panic (takeHtlc_ne_panic _ _) fun _ _ =>
      Res.bind_ne_panic (Res.refuseIf_ne_panic _ _) fun _ _ =>
      Res.bind_ne_panic (Res.refuseIf_ne_panic _ _) fun _ _ =>
      Res.bind_ne_panic (addBalance_ne_panic _ _ _) fun _ _ => keepsFee_ne_panic _

theorem state_ne_panic (n : ℕ) : m.state n ≠ .panic := Res.okOr_ne_panic _ _

theorem commitmentAt_ne_panic (owner : Side) (n : ℕ) (s : ProtocolState) :
    m.commitmentAt owner n s ≠ .panic := by
  unfold commitmentAt revocationFor
  refine Res.bind_ne_panic ?_ fun _ _ => ofExcept_ne_panic _
  split_ifs
  · exact Res.bind_ne_panic (Res.okOr_ne_panic _ _) fun _ _ => Res.okOr_ne_panic _ _
  · exact Res.bind_ne_panic (Res.okOr_ne_panic _ _) fun _ _ => Res.okOr_ne_panic _ _

theorem signFunding_ne_panic (tx : Transaction) (ctx : Context) : m.signFunding tx ctx ≠ .panic :=
  ofProtocol_ne_panic _

theorem cooperativeTx_ne_panic : m.cooperativeTx ≠ .panic := ofExcept_ne_panic _

theorem closeMessage_ne_panic (ctx : Context) : m.closeMessage ctx ≠ .panic := by
  unfold closeMessage
  exact Res.bind_ne_panic cooperativeTx_ne_panic fun _ _ =>
    Res.bind_ne_panic (signFunding_ne_panic _ _) fun _ _ h => by cases h

/-- The acknowledgement finds the secret of the state before. -/
theorem acknowledgement_ne_panic (ctx : Context)
    (hkey : m.stateNumber ≠ 0 → (m.myRevocation.lookup (m.stateNumber - 1)).isSome = true) :
    m.acknowledgement ctx ≠ .panic := by
  unfold acknowledgement
  dsimp only
  split_ifs with hn
  · exact fun h => by cases h
  · exact fun h => by cases h
  · refine Res.bind_ne_panic (state_ne_panic _) fun _ _ =>
      Res.bind_ne_panic (commitmentAt_ne_panic _ _ _) fun _ _ =>
      Res.bind_ne_panic (signFunding_ne_panic _ _) fun _ _ =>
      Res.bind_ne_panic (Res.okOr_ne_panic _ _) fun _ _ => ?_
    split
    · rename_i hnone
      have hsome := hkey hn
      rw [hnone] at hsome
      cases hsome
    · exact fun h => by cases h

theorem ackOutcome_ne_panic {n previous : ℕ} (update : Update) (adopted : Bool)
    (hkey : (m.myRevocation.lookup previous).isSome = true) :
    m.ackOutcome n previous update adopted ≠ .panic := by
  unfold ackOutcome
  split
  · rename_i hnone
    rw [hnone] at hkey
    cases hkey
  · exact fun h => by cases h

theorem incomingState_ne_panic (message : UpdateMessage) (ctx : Context) :
    m.incomingState message ctx ≠ .panic := by
  unfold incomingState
  split
  · rename_i hpanic
    exact absurd hpanic (nextState_ne_panic _ _ _ _)
  · exact fun h => by cases h
  · refine Res.bind_ne_panic (commitmentAt_ne_panic _ _ _) fun _ _ => ?_
    split_ifs <;> exact fun h => by cases h

theorem judgeUpdate_ne_panic (message : UpdateMessage) (ctx : Context)
    (hkey : m.stateNumber ≠ 0 → (m.myRevocation.lookup (m.stateNumber - 1)).isSome = true) :
    m.judgeUpdate message ctx ≠ .panic := by
  unfold judgeUpdate
  refine Res.bind_ne_panic (ofProtocol_ne_panic _) fun _ _ =>
    Res.bind_ne_panic (Res.refuseIf_ne_panic _ _) fun _ _ => ?_
  split
  · exact fun h => by cases h
  refine Res.bind_ne_panic (Res.refuseIf_ne_panic _ _) fun _ _ => ?_
  split
  · exact Res.bind_ne_panic (acknowledgement_ne_panic ctx hkey) fun _ _ =>
      Res.bind_ne_panic (Res.okOr_ne_panic _ _) fun _ _ h => by cases h
  split
  · exact fun h => by cases h
  refine Res.bind_ne_panic (Res.refuseIf_ne_panic _ _) fun _ _ => ?_
  split
  · exact fun h => by cases h
  refine Res.bind_ne_panic (Res.refuseIf_ne_panic _ _) fun _ _ =>
    Res.bind_ne_panic (Res.refuseIf_ne_panic _ _) fun _ _ => ?_
  split
  · exact fun h => by cases h
  · exact incomingState_ne_panic _ _

theorem judgeAck_ne_panic (message : AckMessage) : m.judgeAck message ≠ .panic := by
  unfold judgeAck
  refine Res.bind_ne_panic (ofProtocol_ne_panic _) fun _ _ =>
    Res.bind_ne_panic (Res.refuseIf_ne_panic _ _) fun _ _ =>
    Res.bind_ne_panic (Res.refuseIf_ne_panic _ _) fun _ _ => ?_
  split
  · exact fun h => by cases h
  refine Res.bind_ne_panic (Res.okOr_ne_panic _ _) fun _ _ =>
    Res.bind_ne_panic (state_ne_panic _) fun _ _ =>
    Res.bind_ne_panic (commitmentAt_ne_panic _ _ _) fun _ _ => ?_
  dsimp only
  split
  · split <;> exact fun h => by cases h
  · exact Res.bind_ne_panic (Res.refuseIf_ne_panic _ _) fun _ _ =>
      Res.bind_ne_panic (Res.refuseIf_ne_panic _ _) fun _ _ h => by cases h

theorem adoption_ne_panic (message : AckMessage) : m.adoption message ≠ .panic := by
  unfold adoption
  exact Res.bind_ne_panic (Res.refuseIf_ne_panic _ _) fun _ _ =>
    Res.bind_ne_panic (Res.okOr_ne_panic _ _) fun _ _ =>
    Res.bind_ne_panic (Res.refuseIf_ne_panic _ _) fun _ _ =>
    Res.bind_ne_panic (Res.refuseIf_ne_panic _ _) fun _ _ =>
    Res.bind_ne_panic (Res.refuseIf_ne_panic _ _) fun _ _ =>
    Res.bind_ne_panic (Res.okOr_ne_panic _ _) fun _ _ h => by cases h

theorem witnessed_ne_panic (tx : Transaction) (mine theirs : Sig) :
    m.witnessed tx mine theirs ≠ .panic := by
  unfold witnessed
  exact Res.bind_ne_panic (ofProtocol_ne_panic _) fun _ _ h => by cases h

end ChannelMachine

/-! ### What a run keeps -/

/-- The secrets of the states up to the next are kept, and that after a pending state. -/
structure Keyed (m : ChannelMachine) : Prop where
  mine : ∀ k ≤ m.stateNumber + 1, (m.myRevocation.lookup k).isSome = true
  pending : ∀ p, m.pending = some p → (m.myRevocation.lookup (p.n + 1)).isSome = true

/-- The id an update adds is no greater. -/
def AddsUpTo (bound : ℕ) (update : Update) : Prop :=
  ∀ htlc memo, update = .add htlc memo → htlc.id ≤ bound

/-- Every update signed adds an id used or the next. -/
structure Numbered (m : ChannelMachine) : Prop where
  pending : ∀ p, m.pending = some p → AddsUpTo m.htlcSeq p.update
  alternatives : ∀ k, ∀ alt ∈ m.alternativesAt k, AddsUpTo m.htlcSeq alt.update

omit [Hitch] in
theorem AddsUpTo.mono {bound bound' : ℕ} {update : Update} (h : AddsUpTo bound update)
    (hle : bound ≤ bound') : AddsUpTo bound' update :=
  fun htlc memo hu => (h htlc memo hu).trans hle

/-- The secrets kept by a move, where the agreed state stays or goes to the next. -/
theorem Keyed.step {m m' : ChannelMachine} (hm : Keyed m) (he : Extends m m')
    (hn : m'.stateNumber = m.stateNumber ∨ m'.stateNumber = m.stateNumber + 1 ∧
      (m'.myRevocation.lookup (m.stateNumber + 2)).isSome = true)
    (hpending : ∀ p, m'.pending = some p → (∃ p₀, m.pending = some p₀ ∧ p.n = p₀.n) ∨
      (m'.myRevocation.lookup (p.n + 1)).isSome = true) : Keyed m' where
  mine k hk := by
    rcases hn with hn | ⟨hn, hlast⟩
    · exact isSome_kept (he.mine k) (hm.mine k (hn ▸ hk))
    · by_cases hk' : k = m.stateNumber + 2
      · rw [hk']
        exact hlast
      · exact isSome_kept (he.mine k) (hm.mine k (by omega))
  pending p hp := by
    rcases hpending p hp with ⟨p₀, hp₀, hpn⟩ | hkey
    · rw [hpn]
      exact isSome_kept (he.mine _) (hm.pending p₀ hp₀)
    · exact hkey

/-- **Every move keeps the secrets.** -/
theorem Move.keyed {m m' : ChannelMachine} (h : Move named m m') (hnext : m.PendingNext)
    (hpoints : PointsMatch m) (hm : Keyed m) : Keyed m' := by
  have he := h.extends hnext hpoints
  cases h with
  | quiet hq =>
    refine hm.step he (.inl (hq.field ChannelMachine.stateNumber)) fun p hp => ?_
    rw [hq.field ChannelMachine.pending] at hp
    exact .inl ⟨p, hp, rfl⟩
  | propose hj =>
    refine hm.step he (.inl rfl) fun p hp => .inr ?_
    cases hp
    unfold proposed
    dsimp only
    rw [Finmap.lookup_insert]
    rfl
  | resend now tries hp =>
    refine hm.step he (.inl rfl) fun p hp' => .inl ⟨_, hp, ?_⟩
    cases hp'
    rfl
  | accept next hj =>
    have hn := (judgeUpdate_accept hj).2.2.1
    refine hm.step he (.inr ⟨hn, ?_⟩) fun p hp => ?_
    · unfold accepted
      dsimp only
      rw [hn, Finmap.lookup_insert]
      rfl
    · rw [accepted_pending] at hp
      cases hp
  | agree hj =>
    rename_i message pending s
    obtain ⟨-, hp, hn, -⟩ := judgeAck_agree hj
    have hpn := hnext pending hp
    have hkey := isSome_kept (he.mine _) (hm.pending pending hp)
    rw [hpn] at hkey
    refine hm.step he (.inr ⟨hn.symm.trans hpn, hkey⟩) fun p hp' => ?_
    unfold agreed at hp'
    dsimp only at hp'
    rw [takeTheirReveal_frame] at hp'
    cases hp'
  | adopt hp hn hj =>
    rename_i message index alt
    have hkey := (adoption_signed hj).1
    rw [hn] at hkey
    refine hm.step he (.inr ⟨hn, isSome_kept (he.mine _) hkey⟩) fun p hp' => ?_
    unfold agreed at hp'
    dsimp only at hp'
    rw [takeTheirReveal_frame] at hp'
    have hnone := hp.symm.trans hp'
    cases hnone
  | drop why =>
    refine hm.step he (.inl (dropPending_stateNumber why)) fun p hp => ?_
    rw [dropPending_pending] at hp
    cases hp
  | reveal index reveal =>
    rw [takeTheirReveal_frame] at he ⊢
    exact hm.step he (.inl rfl) fun p hp => .inl ⟨p, hp, rfl⟩
  | force why hn hlive htx =>
    refine hm.step he (.inl (dropPending_stateNumber why)) fun p hp => ?_
    have hnone := (dropPending_pending (m := m) why).symm.trans hp
    cases hnone
  | _ => exact hm.step he (.inl rfl) fun p hp => .inl ⟨p, hp, rfl⟩

theorem Numbered.step {m m' : ChannelMachine} (hm : Numbered m) (hle : m.htlcSeq ≤ m'.htlcSeq)
    (hpending : ∀ p, m'.pending = some p → (∃ p₀, m.pending = some p₀ ∧ p.update = p₀.update) ∨
      AddsUpTo m'.htlcSeq p.update)
    (halternatives : ∀ k, ∀ alt ∈ m'.alternativesAt k, alt ∈ m.alternativesAt k ∨
      ∃ p, m.pending = some p ∧ alt.update = p.update) : Numbered m' where
  pending p hp := by
    rcases hpending p hp with ⟨p₀, hp₀, hu⟩ | hu
    · rw [hu]
      exact (hm.pending p₀ hp₀).mono hle
    · exact hu
  alternatives k alt halt := by
    rcases halternatives k alt halt with halt | ⟨p, hp, hu⟩
    · exact (hm.alternatives k alt halt).mono hle
    · rw [hu]
      exact (hm.pending p hp).mono hle

/-- The id an update is given or must have is the next one. -/
theorem nextHtlcId_le {m : ChannelMachine} {s : ProtocolState} (hids : IdsBelow m.htlcSeq s)
    (hseq : m.htlcSeq ≠ 0) :
    (s.htlcs.map ProtocolHtlc.id).foldl max 0 + 1 ≤ m.htlcSeq ∧ m.nextHtlcId s = m.htlcSeq := by
  have hfold : ∀ (l : List ProtocolHtlc) (a : ℕ), a < m.htlcSeq → (∀ h ∈ l, h.id < m.htlcSeq) →
      (l.map ProtocolHtlc.id).foldl max a < m.htlcSeq := by
    intro l
    induction l with
    | nil => exact fun a ha _ => ha
    | cons x l ih =>
      intro a ha hl
      rw [List.map_cons, List.foldl_cons]
      exact ih _ (Nat.max_lt.mpr ⟨ha, hl x List.mem_cons_self⟩)
        fun h hh => hl h (List.mem_cons_of_mem x hh)
  have hmax := hfold s.htlcs 0 (Nat.pos_of_ne_zero hseq) hids
  refine ⟨hmax, ?_⟩
  unfold nextHtlcId
  exact Nat.max_eq_left hmax

theorem nextState_adds {m : ChannelMachine} {current s : ProtocolState} {update : Update}
    {sender : Side} {height : ℕ} (h : m.nextState current update sender height = .ok s) :
    AddsUpTo (m.nextHtlcId current) update := by
  rintro htlc memo rfl
  unfold nextState at h
  dsimp only at h
  obtain ⟨_, hid, -⟩ := Res.bind_eq_ok.mp h
  rw [Res.refuseIf_eq_ok, bne_eq_false_iff_eq] at hid
  exact hid.le

/-- **Every move keeps the ids.** -/
theorem Move.numbered {m m' : ChannelMachine} (h : Move named m m')
    (hconserved : Conserved m) (hplaced : Placed m) (hm : Numbered m) : Numbered m' := by
  have hcurrent := hconserved.currentState
  have hid := (nextHtlcId_le (hconserved.agreed _ _ hcurrent le_rfl) hplaced.seq).2
  cases h with
  | quiet hq =>
    refine hm.step (hq.field htlcSeq).ge (fun p hp => ?_) fun k alt halt => ?_
    · rw [hq.field ChannelMachine.pending] at hp
      exact .inl ⟨p, hp, rfl⟩
    · rw [hq.field fun m => m.alternativesAt k] at halt
      exact .inl halt
  | propose hj =>
    refine hm.step le_rfl (fun p hp => .inr ?_) fun k alt halt => .inl halt
    cases hp
    have hadds := nextState_adds (proposal_ok hj).2.2.2.2.2
    rw [hid] at hadds
    exact hadds
  | resend now tries hp =>
    refine hm.step le_rfl (fun p hp' => .inl ⟨_, hp, ?_⟩) fun k alt halt => .inl halt
    cases hp'
    rfl
  | accept next hj =>
    rename_i message ctx s
    refine hm.step ?_ (fun p hp => ?_) fun k alt halt => ?_
    · unfold accepted
      dsimp only
      exact (dropPending_htlcSeq (m := m) _).ge.trans (htlcSeq_le_bump _)
    · rw [accepted_pending] at hp
      cases hp
    · rcases dropPending_alternatives _ halt with halt | ⟨p, hp, -, -, hu⟩
      · exact .inl halt
      · exact .inr ⟨p, hp, hu⟩
  | agree hj =>
    unfold agreed
    dsimp only
    rw [takeTheirReveal_frame]
    exact hm.step (htlcSeq_le_bump _) (fun p hp => by cases hp) fun k alt halt => .inl halt
  | adopt hp hn hj =>
    unfold agreed
    dsimp only
    rw [takeTheirReveal_frame]
    refine hm.step (htlcSeq_le_bump _) (fun p hp' => ?_) fun k alt halt =>
      .inl (removeAlternative_mem halt)
    have hnone := hp.symm.trans hp'
    cases hnone
  | drop why =>
    refine hm.step (dropPending_htlcSeq why).ge (fun p hp => ?_) fun k alt halt => ?_
    · rw [dropPending_pending] at hp
      cases hp
    · rcases dropPending_alternatives why halt with halt | ⟨p, hp, -, -, hu⟩
      · exact .inl halt
      · exact .inr ⟨p, hp, hu⟩
  | reveal index reveal =>
    rw [takeTheirReveal_frame]
    exact hm.step le_rfl (fun p hp => .inl ⟨p, hp, rfl⟩) fun k alt halt => .inl halt
  | force why hn hlive htx =>
    refine hm.step (dropPending_htlcSeq why).ge (fun p hp => ?_) fun k alt halt => ?_
    · have hnone := (dropPending_pending (m := m) why).symm.trans hp
      cases hnone
    · rcases dropPending_alternatives why halt with halt | ⟨p, hp, -, -, hu⟩
      · exact .inl halt
      · exact .inr ⟨p, hp, hu⟩
  | _ => exact hm.step le_rfl (fun p hp => .inl ⟨p, hp, rfl⟩) fun k alt halt => .inl halt

theorem machine_keyed (o : Opened) : Keyed o.machine where
  mine k hk := by
    unfold Opened.machine at hk ⊢
    dsimp only at hk ⊢
    by_cases hone : k = 1
    · rw [hone, Finmap.lookup_insert]
      rfl
    · rw [Finmap.lookup_insert_of_ne _ hone, (by omega : k = 0), Finmap.lookup_insert]
      rfl
  pending p hp := by cases hp

theorem machine_numbered (o : Opened) : Numbered o.machine where
  pending p hp := by cases hp
  alternatives k alt halt := by
    unfold alternativesAt Opened.machine at halt
    dsimp only at halt
    rw [Finmap.lookup_empty] at halt
    cases halt

/-- In every machine of a run the secrets and the ids are in their place. -/
theorem Run.words {ok : ChannelMachine → Call → Prop} {o : Opened} {m : ChannelMachine}
    {log : List Done} (h : Run ok o m log) : Keyed m ∧ Numbered m := by
  have hall := h.ind (P := fun m => Sound m ∧ Keyed m ∧ Numbered m) (fun _ _ => trivial)
    (fun hv => ⟨⟨machine_points o, (machine_tracked o : Tracked True _).present,
      machine_conserved hv, machine_recorded o, machine_placed o⟩, machine_keyed o,
      machine_numbered o⟩)
    fun (hab : Move True _ _) hnext ha => ⟨hab.sound hnext ha.1,
      hab.keyed hnext ha.1.points ha.2.1, hab.numbered ha.1.conserved ha.1.placed ha.2.2⟩
  exact hall.2

/-! ### A message of the other side's -/

/-- The call takes a message of the other side's. -/
def Call.isMessage : Call → Bool
  | .receiveUpdate .. => true
  | .receiveAck .. => true
  | .receiveRevoke .. => true
  | .receiveReject .. => true
  | .receiveClose .. => true
  | .receiveSync .. => true
  | _ => false

/-- The unchecked sums a call may make, with what its checks have left of it by then. -/
inductive Adds (m : ChannelMachine) : Call → ℕ → Prop
  /-- `receive_update`: the next state's number, for a message of no agreed state. -/
  | updateNext {message : UpdateMessage} {next : SecretKey} {ctx : Context} :
      m.status = .open → message.n ≠ m.stateNumber →
      Adds m (.receiveUpdate message next ctx) (m.stateNumber + 1)
  /-- `acknowledgement`, of the agreed state again. -/
  | updateAgain {message : UpdateMessage} {next : SecretKey} {ctx : Context} :
      m.status = .open → message.n = m.stateNumber →
      Adds m (.receiveUpdate message next ctx) (m.stateNumber + 1)
  /-- `receive_update` and `acknowledgement`: the state after the message's. -/
  | updateProof {message : UpdateMessage} {next : SecretKey} {ctx : Context} :
      m.status = .open → message.n = m.stateNumber + 1 → m.awaiting = none →
      Adds m (.receiveUpdate message next ctx) (message.n + 1)
  /-- `next_htlc_id`. -/
  | updateId {message : UpdateMessage} {next : SecretKey} {ctx : Context} :
      m.status = .open → message.n = m.stateNumber + 1 → m.awaiting = none →
      Adds m (.receiveUpdate message next ctx)
        ((m.currentState.htlcs.map ProtocolHtlc.id).foldl max 0 + 1)
  /-- `bump_htlc_seq`, of an update accepted. -/
  | updateBump {message : UpdateMessage} {next : SecretKey} {ctx : Context} {s : ProtocolState}
      {htlc : OfferedHtlc} {memo : Option Text} : m.judgeUpdate message ctx = .ok (.accept s) →
      message.update = .add htlc memo → Adds m (.receiveUpdate message next ctx) (htlc.id + 1)
  /-- `receive_ack`: the next state's number, with nothing pending. -/
  | ackNext {message : AckMessage} : m.pending = none →
      Adds m (.receiveAck message) (m.stateNumber + 1)
  /-- `adopt_alternative`, with nothing pending. -/
  | ackAdopt {message : AckMessage} : m.pending = none → message.n = m.stateNumber + 1 →
      Adds m (.receiveAck message) (message.n + 1)
  /-- `receive_ack` and `adopt_alternative`: the state after the pending one. -/
  | ackProof {message : AckMessage} {p : PendingUpdate} : m.pending = some p →
      p.n = message.n → Adds m (.receiveAck message) (message.n + 1)
  /-- `bump_htlc_seq`, of the pending update. -/
  | ackBump {message : AckMessage} {p : PendingUpdate} {htlc : OfferedHtlc} {memo : Option Text} :
      m.pending = some p → p.n = message.n → p.update = .add htlc memo →
      Adds m (.receiveAck message) (htlc.id + 1)
  /-- `bump_htlc_seq`, of one adopted. -/
  | adoptBump {message : AckMessage} {alt : SignedAlternative} {htlc : OfferedHtlc}
      {memo : Option Text} (why : Text) : alt ∈ (m.dropPending why).alternativesAt message.n →
      alt.update = .add htlc memo → Adds m (.receiveAck message) (htlc.id + 1)
  /-- `reconcile`: the state after the sync's. -/
  | syncBehind {message : SyncMessage} {ctx : Context} : message.wellFormed = .ok () →
      message.id = m.id → m.status = .open ∨ m.status = .closingAsked →
      message.n ≠ m.stateNumber →
      Adds m (.receiveSync message ctx) (message.n + 1)
  /-- `reconcile` and `acknowledgement`: the next state's number. -/
  | syncAhead {message : SyncMessage} {ctx : Context} : message.wellFormed = .ok () →
      message.id = m.id → m.status = .open ∨ m.status = .closingAsked →
      message.n ≠ m.stateNumber →
      Adds m (.receiveSync message ctx) (m.stateNumber + 1)

/-- The call reads an entry that a map does not have. -/
def Panics (m : ChannelMachine) : Call → Prop
  | .receiveUpdate message next ctx => (m.receiveUpdate message next ctx).2 = .panic
  | .receiveAck message => (m.receiveAck message).2 = .panic
  | .receiveRevoke message => (m.receiveRevoke message).2 = .panic
  | .receiveReject message ctx => (m.receiveReject message ctx).2 = .panic
  | .receiveClose message ctx => (m.receiveClose message ctx).2 = .panic
  | .receiveSync message ctx => (m.receiveSync message ctx).2 = .panic
  | _ => False

/-- No sum of the call's overflows, the one difference is of a positive number, and
what it expects to be there is. -/
structure Survives (m : ChannelMachine) (c : Call) : Prop where
  sums : ∀ v, Adds m c v → v ≤ Word.maxVal 64
  /-- `receive_revoke`: the state before the message's. -/
  difference : ∀ message, c = .receiveRevoke message → message.wellFormed = .ok () →
    1 ≤ message.n
  /-- `current_state` expects it. -/
  current : (m.states.lookup m.stateNumber).isSome = true
  /-- `adopt_alternative` takes what it found, of the machine or with the pending
  update set aside. -/
  found : ∀ message, c = .receiveAck message → ∀ why, ∀ a ∈ [m, m.dropPending why], ∀ i,
    a.findAlternative message.n message.sig = some i → i < (a.alternativesAt message.n).length
  returns : ¬ Panics m c

/-- The counters have room, and the number of a sync that is compared has a next. -/
structure Fits (m : ChannelMachine) (c : Call) : Prop where
  states : m.stateNumber + 2 ≤ Word.maxVal 64
  htlcs : m.htlcSeq + 1 ≤ Word.maxVal 64
  sync : ∀ message ctx, c = .receiveSync message ctx → message.wellFormed = .ok () →
    message.id = m.id → m.status = .open ∨ m.status = .closingAsked →
    message.n ≠ m.stateNumber → message.n < Word.maxVal 64

theorem findAlternative_found {m : ChannelMachine} {n i : ℕ} {sig : Sig}
    (h : m.findAlternative n sig = some i) : i < (m.alternativesAt n).length := by
  unfold findAlternative at h
  exact (List.findIdx?_eq_some_iff_getElem.mp h).1

namespace ChannelMachine

variable {m : ChannelMachine}

theorem adoptAlternative_ne_panic (message : AckMessage)
    (hkey : (m.myRevocation.lookup m.stateNumber).isSome = true) :
    (m.adoptAlternative message).2 ≠ .panic := by
  unfold adoptAlternative
  split
  · rename_i hpanic
    exact absurd hpanic (adoption_ne_panic message)
  · exact fun h => by cases h
  · refine ackOutcome_ne_panic _ _ ?_
    unfold agreed pushEvents
    dsimp only
    rw [takeTheirReveal_frame]
    exact hkey

theorem receiveUpdate_ne_panic (message : UpdateMessage) (next : SecretKey) (ctx : Context)
    (hnext : m.PendingNext) (hpoints : PointsMatch m) (hm : Keyed m) :
    (m.receiveUpdate message next ctx).2 ≠ .panic := by
  unfold receiveUpdate
  split
  · rename_i hpanic
    exact absurd hpanic (judgeUpdate_ne_panic message ctx fun _ => hm.mine _ (by omega))
  · exact fun h => by cases h
  · exact fun h => by cases h
  · exact fun h => by cases h
  · rename_i s hj
    have hkeyed : Keyed (m.accepted message s next ctx) :=
      Move.keyed (.accept next hj : Move True _ _) hnext hpoints hm
    exact Res.bind_ne_panic (acknowledgement_ne_panic ctx fun _ => hkeyed.mine _ (by omega))
      fun _ _ => Res.bind_ne_panic (Res.okOr_ne_panic _ _) fun _ _ h => by cases h

theorem receiveAck_ne_panic (message : AckMessage) (hm : Keyed m) :
    (m.receiveAck message).2 ≠ .panic := by
  have hkey := hm.mine m.stateNumber (Nat.le_succ _)
  unfold receiveAck
  split
  · rename_i hpanic
    exact absurd hpanic (judgeAck_ne_panic message)
  · exact fun h => by cases h
  · exact adoptAlternative_ne_panic message hkey
  · refine adoptAlternative_ne_panic message ?_
    rw [dropPending_myRevocation, dropPending_stateNumber]
    exact hkey
  · refine ackOutcome_ne_panic _ _ ?_
    unfold agreed pushEvents
    dsimp only
    rw [takeTheirReveal_frame]
    exact hkey

theorem receiveRevoke_ne_panic (message : RevokeMessage) :
    (m.receiveRevoke message).2 ≠ .panic := by
  unfold receiveRevoke
  dsimp only
  split
  · rename_i hpanic
    refine absurd hpanic ?_
    exact Res.bind_ne_panic (ofProtocol_ne_panic _) fun _ _ =>
      Res.bind_ne_panic (Res.refuseIf_ne_panic _ _) fun _ _ =>
      Res.bind_ne_panic (Res.refuseIf_ne_panic _ _) fun _ _ => Res.refuseIf_ne_panic _ _
  · exact fun h => by cases h
  · split
    · dsimp only
      split <;> exact fun h => by cases h
    · exact fun h => by cases h

theorem receiveReject_ne_panic (message : RejectMessage) (ctx : Context) :
    (m.receiveReject message ctx).2 ≠ .panic := by
  unfold receiveReject
  dsimp only
  split
  · rename_i hpanic
    refine absurd hpanic ?_
    exact Res.bind_ne_panic (ofProtocol_ne_panic _) fun _ _ =>
      Res.bind_ne_panic (Res.refuseIf_ne_panic _ _) fun _ _ => Res.refuseIf_ne_panic _ _
  · exact fun h => by cases h
  · exact fun h => by cases h

theorem receiveClose_ne_panic (message : CloseMessage) (ctx : Context) :
    (m.receiveClose message ctx).2 ≠ .panic := by
  unfold receiveClose
  dsimp only
  split
  · rename_i hpanic
    refine absurd hpanic ?_
    exact Res.bind_ne_panic (Res.refuseIf_ne_panic _ _) fun _ _ =>
      Res.bind_ne_panic (Res.refuseIf_ne_panic _ _) fun _ _ =>
      Res.bind_ne_panic (Res.refuseIf_ne_panic _ _) fun _ _ =>
      Res.bind_ne_panic (Res.refuseIf_ne_panic _ _) fun _ _ =>
      Res.bind_ne_panic cooperativeTx_ne_panic fun _ _ =>
      Res.bind_ne_panic (Res.refuseIf_ne_panic _ _) fun _ _ =>
      Res.bind_ne_panic (signFunding_ne_panic _ _) fun _ _ => witnessed_ne_panic _ _ _
  · exact fun h => by cases h
  · exact fun h => by cases h

theorem takeTheirReveal_same (index : ℕ) (reveal : Hash256) :
    SameSecrets m (m.takeTheirReveal index reveal) := by
  rw [takeTheirReveal_frame]
  exact ⟨rfl, rfl⟩

theorem takeReveals_same (message : SyncMessage) : SameSecrets m (m.takeReveals message) := by
  have hfold : ∀ (l : List (ℕ × Hash256)) (a : ChannelMachine),
      SameSecrets a (l.foldl (fun m r => m.takeTheirReveal r.1 r.2) a) := by
    intro l
    induction l with
    | nil => exact fun a => .refl a
    | cons r l ih => exact fun a => (takeTheirReveal_same r.1 r.2).trans (ih _)
  unfold takeReveals
  refine SameSecrets.trans ?_ (hfold _ _)
  split
  · split
    · exact takeTheirReveal_same _ _
    · exact .refl m
  · exact .refl m

theorem reconcile_ne_panic (message : SyncMessage) (ctx : Context)
    (hkey : m.stateNumber ≠ 0 → (m.myRevocation.lookup (m.stateNumber - 1)).isSome = true) :
    (m.reconcile message ctx).2 ≠ .panic := by
  unfold reconcile
  dsimp only
  split
  · dsimp only
    split
    · exact Res.bind_ne_panic (state_ne_panic _) fun _ _ =>
        Res.bind_ne_panic (commitmentAt_ne_panic _ _ _) fun _ _ =>
        Res.bind_ne_panic (signFunding_ne_panic _ _) fun _ _ h => by cases h
    · exact fun h => by cases h
  split
  · exact fun h => by cases h
  split
  · rename_i hpanic
    split at hpanic
    · exact absurd hpanic (Res.bind_ne_panic (closeMessage_ne_panic ctx) fun _ _ h => by cases h)
    · cases hpanic
  · exact fun h => by cases h
  split
  · exact fun h => by cases h
  split
  · split
    · exact fun h => by cases h
    · split
      · split <;> exact fun h => by cases h
      · exact fun h => by cases h
    · exact fun h => by cases h
  split
  · exact Res.bind_ne_panic (acknowledgement_ne_panic ctx hkey) fun _ _ h => by cases h
  split
  · exact fun h => by cases h
  split <;> exact fun h => by cases h

theorem receiveSync_ne_panic (message : SyncMessage) (ctx : Context) (hm : Keyed m) :
    (m.receiveSync message ctx).2 ≠ .panic := by
  unfold receiveSync
  dsimp only
  split
  · rename_i hpanic
    exact absurd hpanic (Res.bind_ne_panic (ofProtocol_ne_panic _) fun _ _ =>
      Res.refuseIf_ne_panic _ _)
  · exact fun h => by cases h
  · have hsame := (takeReveals_same (m := m) message).trans finalise_same
    refine Res.bind_ne_panic (reconcile_ne_panic message ctx fun _ => ?_) fun _ _ h => by cases h
    rw [hsame.stateNumber, hsame.myRevocation]
    exact hm.mine _ (by omega)

end ChannelMachine

/-- **No message stops a channel whose counters have room, but for a sync of the
last state number.** In every machine of a run, a call that takes a message of the
other side's survives it wherever `Fits` holds; a sync whose number is compared and
has no next does not. -/
theorem message_survives {ok : ChannelMachine → Call → Prop} {o : Opened} {m : ChannelMachine}
    {log : List Done} (hrun : Run ok o m log) {c : Call} (hc : c.isMessage = true) :
    (Fits m c → Survives m c) ∧
    ∀ message ctx, c = .receiveSync message ctx → message.wellFormed = .ok () →
      message.id = m.id → m.status = .open ∨ m.status = .closingAsked →
      message.n ≠ m.stateNumber → Word.maxVal 64 ≤ message.n → ¬ Survives m c := by
  obtain ⟨hnext, -, -⟩ := hrun.kept
  obtain ⟨hkeyed, hnumbered⟩ := hrun.words
  have hsound := hrun.sound
  have hcurrent := hsound.conserved.currentState
  have hids := nextHtlcId_le (hsound.conserved.agreed _ _ hcurrent le_rfl) hsound.placed.seq
  refine ⟨fun hfits => ⟨fun v hv => ?_, ?_, hsound.conserved.current, ?_, fun hpanic => ?_⟩, ?_⟩
  · have hstates := hfits.states
    have hhtlcs := hfits.htlcs
    cases hv with
    | updateNext => omega
    | updateAgain => omega
    | updateProof _ hn => omega
    | updateId => omega
    | updateBump hj hu =>
      have hadds := nextState_adds (incomingState_accept (judgeUpdate_accept hj).2.2.2.2)
      have hid := hadds _ _ hu
      omega
    | ackNext => omega
    | ackAdopt _ hn => omega
    | ackProof hp hn =>
      have hpn := hnext _ hp
      omega
    | ackBump hp _ hu =>
      have hid := hnumbered.pending _ hp _ _ hu
      omega
    | @adoptBump message alt htlc memo why halt hu =>
      have hid : htlc.id ≤ m.htlcSeq := by
        rcases dropPending_alternatives why halt with halt | ⟨p, hp, -, -, hsame⟩
        · exact hnumbered.alternatives _ _ halt _ _ hu
        · exact hnumbered.pending p hp _ _ (hsame ▸ hu)
      omega
    | syncBehind hwell hid hlive hn =>
      have hlt := hfits.sync _ _ rfl hwell hid hlive hn
      omega
    | syncAhead => omega
  · intro message _ hwell
    unfold RevokeMessage.wellFormed at hwell
    split at hwell
    · cases hwell
    · omega
  · exact fun message _ why a _ i hi => findAlternative_found hi
  · cases c with
    | receiveUpdate message next ctx =>
      exact receiveUpdate_ne_panic message next ctx hnext hsound.points hkeyed hpanic
    | receiveAck message => exact receiveAck_ne_panic message hkeyed hpanic
    | receiveRevoke message => exact receiveRevoke_ne_panic message hpanic
    | receiveReject message ctx => exact receiveReject_ne_panic message ctx hpanic
    | receiveClose message ctx => exact receiveClose_ne_panic message ctx hpanic
    | receiveSync message ctx => exact receiveSync_ne_panic message ctx hkeyed hpanic
    | _ => cases hc
  · rintro message ctx rfl hwell hid hlive hn hlast hsurvives
    have hle := hsurvives.sums _ (.syncBehind hwell hid hlive hn)
    omega

end

attribute [local instance] sampleHitch

/-- A sync of the last state number. -/
def lastSync : SyncMessage :=
  ⟨.sync, channelIdOf sampleChannel.fundingOutpoint.txid, 2 ^ 64 - 1, none, none, none, [], none⟩

set_option maxRecDepth 100000 in
theorem payCalls_fits : (sampleRunOf .a payCalls).map (fun r => decide (r.1.status = .open ∧
    r.1.stateNumber = 0 ∧ r.1.htlcSeq = 1 ∧ r.1.id = lastSync.id)) = some true := by
  decide +kernel

/-- Side A survives a sync of the state after the next. -/
theorem message_survives_sample : ∃ m log, Run (fun _ _ => True) (sampleOpened .a) m log ∧
    Survives m (.receiveSync { lastSync with n := 2 } (sampleContext 102)) := by
  obtain ⟨⟨m, log⟩, hr, hm⟩ := Option.map_eq_some_iff.mp payCalls_fits
  obtain ⟨-, hn, hseq, -⟩ := of_decide_eq_true hm
  dsimp only at hn hseq
  have hrun : Run (fun _ _ => True) (sampleOpened .a) m log :=
    run_of_sample (fun _ _ _ => trivial) hr
  refine ⟨m, log, hrun, (message_survives hrun rfl).1 ⟨?_, ?_, ?_⟩⟩
  · rw [hn]
    decide
  · rw [hseq]
    decide
  · intro message ctx hc _ _ _ _
    cases hc
    decide

/-- **A sync that overflows.** Side A, open at the first state, adds one to the last
state number. -/
theorem sync_overflows : ∃ m log, Run (fun _ _ => True) (sampleOpened .a) m log ∧
    Adds m (.receiveSync lastSync (sampleContext 102)) (2 ^ 64) ∧
    ¬ Survives m (.receiveSync lastSync (sampleContext 102)) := by
  obtain ⟨⟨m, log⟩, hr, hm⟩ := Option.map_eq_some_iff.mp payCalls_fits
  obtain ⟨hopen, hn, -, hid⟩ := of_decide_eq_true hm
  have hrun : Run (fun _ _ => True) (sampleOpened .a) m log :=
    run_of_sample (fun _ _ _ => trivial) hr
  have hadds : Adds m (.receiveSync lastSync (sampleContext 102)) (2 ^ 64) :=
    .syncBehind (by decide +kernel) hid.symm (.inl hopen) (by rw [hn]; decide)
  exact ⟨m, log, hrun, hadds, fun h => absurd (h.sums _ hadds) (by decide)⟩

end Hitch

end Sidestr
