/-
# What a call can do to a channel

Every call of the host is a sequence of a few moves: a proposal, an update
accepted, an own update acknowledged or adopted, a pending update set aside, a
secret learned, an update final, one held back, a close, a spend seen or undone,
a restart. The rest of what a call changes (events, claims, followed outputs,
preimages, positions) is quiet: no move reads it but to refuse. So an invariant
of the moves is one of every run.

Key definitions: `ChannelMachine.core`, `Quiet`, `Move`, `Moves`.
Key theorems: `Call.moves`, `Run.ind`.
-/
import Mathlib.Logic.Relation
import Sidestr.Hitch.Run

namespace Sidestr

namespace Hitch

/-- The statuses of a channel whose funding output is spent. -/
def ChannelStatus.isSpent : ChannelStatus → Bool
  | .funding | .open | .closingAsked | .closing | .forceClosing => false
  | _ => true

section

variable [Hitch]

/-- The machine without its quiet fields. -/
def ChannelMachine.core (m : ChannelMachine) : ChannelMachine :=
  { m with
    fundedHeight := none
    dropped := none
    preimages := ∅
    peerHubFee := none
    closeState := none
    closeStateObj := none
    outputs := ∅
    claims := []
    penalties := []
    lastSyncAt := none
    peerAhead := none
    events := [] }

/-- Only quiet fields change; preimages are kept by their hash, and claims by
their transaction's id. -/
structure Quiet (m m' : ChannelMachine) : Prop where
  core : m'.core = m.core
  preimages : ∀ h p, m'.preimages.lookup h = some p →
    m.preimages.lookup h = some p ∨ Hitch.sha p = h
  claims : ∀ c ∈ m'.claims, (∃ c₀ ∈ m.claims, c.tx = c₀.tx ∧ c.txid = c₀.txid) ∨
    c.txid = Bitcoin.computeTxid c.tx

theorem Quiet.refl (m : ChannelMachine) : Quiet m m :=
  ⟨rfl, fun _ _ h => .inl h, fun c hc => .inl ⟨c, hc, rfl, rfl⟩⟩

theorem Quiet.trans {a b c : ChannelMachine} (h : Quiet a b) (h' : Quiet b c) : Quiet a c where
  core := h'.core.trans h.core
  preimages x p hp := (h'.preimages x p hp).elim (h.preimages x p) .inr
  claims d hd := by
    rcases h'.claims d hd with ⟨d₀, hd₀, htx, htxid⟩ | hd
    · rcases h.claims d₀ hd₀ with ⟨e, he, htx', htxid'⟩ | he
      · exact .inl ⟨e, he, htx.trans htx', htxid.trans htxid'⟩
      · right
        rw [htx, htxid]
        exact he
    · exact .inr hd

theorem Quiet.after {a b c : ChannelMachine} (h' : Quiet b c) (h : Quiet a b) : Quiet a c :=
  h.trans h'

/-- The status an undone spend leaves. -/
def ChannelMachine.backTo (m : ChannelMachine) (back : ChannelStatus) : ChannelStatus :=
  if m.close.isSome ∧ back = .closingAsked then .closing else back

/-- One move of a channel. Where `named` holds, a forced close may name its state. -/
inductive Move (named : Prop) : ChannelMachine → ChannelMachine → Prop
  | quiet {m m' : ChannelMachine} : Quiet m m' → Move named m m'
  | propose {m : ChannelMachine} {update : Update} {next : SecretKey} {ctx : Context}
      {s : ProtocolState} {message : UpdateMessage} :
      m.proposal update next ctx = .ok (s, message) → Move named m (m.proposed s message next ctx)
  | resend {m : ChannelMachine} {p : PendingUpdate} (now tries : ℕ) : m.pending = some p →
      Move named m { m with pending := some ⟨p.n, p.update, p.message, now, tries⟩ }
  | accept {m : ChannelMachine} {message : UpdateMessage} {ctx : Context} {s : ProtocolState}
      (next : SecretKey) : m.judgeUpdate message ctx = .ok (.accept s) →
      Move named m (m.accepted message s next ctx)
  | buffer {m : ChannelMachine} {message : UpdateMessage} {ctx : Context} :
      m.judgeUpdate message ctx = .ok .buffer → Move named m { m with buffered := some message }
  | unbuffer {m : ChannelMachine} : m.awaiting = none → Move named m { m with buffered := none }
  | agree {m : ChannelMachine} {message : AckMessage} {pending : PendingUpdate}
      {s : ProtocolState} : m.judgeAck message = .ok (.agree pending s) →
      Move named m ({ m with pending := none }.agreed message s pending.update)
  | adopt {m : ChannelMachine} {message : AckMessage} {index : ℕ} {alt : SignedAlternative} :
      m.pending = none → message.n = m.stateNumber + 1 →
      m.adoption message = .ok (index, alt) →
      Move named m ((m.removeAlternative message.n index).agreed message alt.state alt.update)
  | drop {m : ChannelMachine} (why : Text) : Move named m (m.dropPending why)
  | reveal {m : ChannelMachine} (index : ℕ) (reveal : Hash256) :
      Move named m (m.takeTheirReveal index reveal)
  | final {m : ChannelMachine} {a : AwaitingRevoke} : m.awaiting = some a →
      (m.theirRevocation.lookup a.previous).isSome = true → Move named m { m with awaiting := none }
  | confirm {m : ChannelMachine} : m.status = .funding → Move named m { m with status := .open }
  | askClose {m : ChannelMachine} {tx : Transaction} : m.status = .open ∨ m.status = .funding →
      m.pending = none → m.awaiting = none → m.cooperativeTx = .ok tx →
      Move named m { m with status := .closingAsked, coopTxid := some (Bitcoin.computeTxid tx) }
  | coopClose {m : ChannelMachine} {tx : Transaction} (witness : List Bytes) (height : ℕ) :
      m.status.isLive = true → m.pending = none → m.awaiting = none → m.cooperativeTx = .ok tx →
      Move named m { m with
        status := .closing
        coopTxid := some (Bitcoin.computeTxid (withWitness tx witness))
        close := some ⟨Bitcoin.computeTxid (withWitness tx witness), withWitness tx witness, none,
          height⟩ }
  | force {m : ChannelMachine} {n : ℕ} {tx : Transaction} {ctx : Context} (why : Text) :
      n = m.stateNumber ∨ named → m.status.isLive = true ∨ m.status = .closing →
      m.signedCommitment n ctx = .ok tx →
      Move named m { m.dropPending why with
        status := .forceClosing
        close := some ⟨Bitcoin.computeTxid tx, tx, some n, ctx.height⟩
        awaiting := none
        buffered := none }
  | rebroadcast {m : ChannelMachine} {c : CloseRecord} (height : ℕ) : m.close = some c →
      Move named m { m with close := some ⟨c.txid, c.tx, c.state, height⟩ }
  | spent {m : ChannelMachine} {status : ChannelStatus} (txid : Txid) (height : ℕ)
      (kind : FundingSpend) : status.isSpent = true →
      Move named m { m with spend := some ⟨txid, height, m.status, kind⟩, status }
  /-- The penalty key does not exist: the spend is recorded and the status stays. -/
  | unpunished {m : ChannelMachine} {n : ℕ} {s : ProtocolState} {c : Commitment} {k : SecretKey}
      (txid : Txid) (height : ℕ) (kind : FundingSpend) : m.theirCommitment n s = .ok c →
      m.theirRevocation.lookup n = some k → Hitch.revocationKey m.myRevocationBase k = none →
      Move named m { m with spend := some ⟨txid, height, m.status, kind⟩ }
  | follow {m : ChannelMachine} {status : ChannelStatus} : m.status.isSpent = true →
      status.isSpent = true → Move named m { m with status }
  | unSpend {m : ChannelMachine} {sp : SpendRecord} : m.spend = some sp →
      Move named m { m with spend := none, status := m.backTo sp.previousStatus }

/-- Some moves in a row. -/
def Moves (named : Prop) : ChannelMachine → ChannelMachine → Prop :=
  Relation.ReflTransGen (Move named)

variable {named : Prop}

theorem Moves.refl (m : ChannelMachine) : Moves named m m := Relation.ReflTransGen.refl

theorem Moves.trans {a b c : ChannelMachine} (h : Moves named a b) (h' : Moves named b c) :
    Moves named a c :=
  Relation.ReflTransGen.trans h h'

theorem Move.moves {m m' : ChannelMachine} (h : Move named m m') : Moves named m m' :=
  Relation.ReflTransGen.single h

theorem Quiet.moves {m m' : ChannelMachine} (h : Quiet m m') : Moves named m m' :=
  (Move.quiet h).moves

/-- What each move keeps, some moves keep. -/
theorem Moves.ind {P : ChannelMachine → Prop} {m m' : ChannelMachine}
    (step : ∀ {a b}, Move named a b → P a → P b) (h : Moves named m m') (hm : P m) : P m' := by
  induction h with
  | refl => exact hm
  | tail _ hlast ih => exact step hlast ih

/-- What follows a spend: quiet changes, and one status of a spent channel after another. -/
inductive Follow : ChannelMachine → ChannelMachine → Prop
  | quiet {m m' : ChannelMachine} : Quiet m m' → Follow m m'
  | status {m : ChannelMachine} {status : ChannelStatus} : m.status.isSpent = true →
      status.isSpent = true → Follow m { m with status }

def Follows : ChannelMachine → ChannelMachine → Prop := Relation.ReflTransGen Follow

theorem Follows.refl (m : ChannelMachine) : Follows m m := Relation.ReflTransGen.refl

theorem Follows.trans {a b c : ChannelMachine} (h : Follows a b) (h' : Follows b c) :
    Follows a c :=
  Relation.ReflTransGen.trans h h'

theorem Quiet.follows {m m' : ChannelMachine} (h : Quiet m m') : Follows m m' :=
  Relation.ReflTransGen.single (.quiet h)

theorem follows_status {m : ChannelMachine} {status : ChannelStatus} (h : m.status.isSpent = true)
    (h' : status.isSpent = true) : Follows m { m with status } :=
  Relation.ReflTransGen.single (.status h h')

theorem Follows.moves {m m' : ChannelMachine} (h : Follows m m') : Moves named m m' := by
  induction h with
  | refl => exact .refl m
  | tail _ hlast ih =>
    refine ih.trans ?_
    cases hlast with
    | quiet hq => exact hq.moves
    | status hs hs' => exact (Move.follow hs hs').moves

theorem Follows.stateNumber {m m' : ChannelMachine} (h : Follows m m') :
    m'.stateNumber = m.stateNumber := by
  induction h with
  | refl => rfl
  | tail _ hlast ih =>
    cases hlast with
    | quiet hq => exact (congrArg ChannelMachine.stateNumber hq.core).trans ih
    | status hs hs' => exact ih

namespace ChannelMachine

variable {m : ChannelMachine}

/-! ### Quiet changes -/

/-- A change that keeps the core, the preimages and the claims. -/
theorem quiet_of_eq {m' : ChannelMachine} (hcore : m'.core = m.core)
    (hpre : m'.preimages = m.preimages) (hclaims : m'.claims = m.claims) : Quiet m m' :=
  ⟨hcore, fun _ _ h => .inl (hpre ▸ h), fun c hc => .inl ⟨c, hclaims ▸ hc, rfl, rfl⟩⟩

theorem pushEvents_quiet (events : List ChannelEvent) : Quiet m (m.pushEvents events) :=
  quiet_of_eq rfl rfl rfl

theorem rememberPreimage_quiet (preimage : Preimage) : Quiet m (m.rememberPreimage preimage) := by
  unfold rememberPreimage
  split_ifs
  · exact .refl m
  · refine ⟨rfl, fun h p hp => ?_, fun c hc => .inl ⟨c, hc, rfl, rfl⟩⟩
    by_cases he : h = Hitch.sha preimage
    · rw [he] at hp ⊢
      rw [Finmap.lookup_insert, Option.some.injEq] at hp
      exact .inr (by rw [hp])
    · rw [Finmap.lookup_insert_of_ne _ he] at hp
      exact .inl hp

theorem announceDropped_quiet : Quiet m m.announceDropped := by
  unfold announceDropped
  split_ifs
  · exact .refl m
  · split
    · exact .refl m
    · exact quiet_of_eq rfl rfl rfl

theorem resync_quiet (ctx : Context) (force : Bool) : Quiet m (m.resync ctx force).1 := by
  unfold resync
  split_ifs
  · exact .refl m
  · exact quiet_of_eq rfl rfl rfl

theorem recordClaim_quiet (kind : ClaimKind) (vout : ℕ) (built : Except ChannelError Transaction)
    (height : ℕ) : Quiet m (m.recordClaim kind vout built height).1 := by
  unfold recordClaim
  split_ifs
  · exact .refl m
  · split
    · exact .refl m
    · refine ⟨rfl, fun _ _ h => .inl h, fun c hc => ?_⟩
      rcases List.mem_append.mp hc with hc | hc
      · exact .inl ⟨c, hc, rfl, rfl⟩
      · rw [List.mem_singleton] at hc
        exact .inr (by rw [hc])

theorem watchOutput_quiet (spend : SpendRecord) (height : ℕ) (lookup : Lookup) (vout : ℕ) :
    Quiet m (m.watchOutput spend height lookup vout).1 := by
  unfold watchOutput
  split
  · exact .refl m
  · rename_i output houtput
    split_ifs
    · exact .refl m
    · split
      · exact .refl m
      · split
        · exact .refl m
        · rename_i i hi
          split
          · exact .refl m
          · rename_i c hc
            split_ifs
            · refine ⟨rfl, fun _ _ h => .inl h, fun d hd => ?_⟩
              rcases List.mem_or_eq_of_mem_set hd with hd | hd
              · exact .inl ⟨d, hd, rfl, rfl⟩
              · exact .inl ⟨c, List.mem_of_getElem? hc, by rw [hd], by rw [hd]⟩
            · exact .refl m
      · split_ifs
        · dsimp only
          split <;> exact quiet_of_eq rfl rfl rfl
        · dsimp only
          split
          · split_ifs
            · exact quiet_of_eq rfl rfl rfl
            · split
              · exact quiet_of_eq rfl rfl rfl
              · exact .after (pushEvents_quiet _) (.after (rememberPreimage_quiet _)
                  (quiet_of_eq rfl rfl rfl))
          · exact quiet_of_eq rfl rfl rfl

theorem watchAll_quiet (spend : SpendRecord) (height : ℕ) (lookup : Lookup) :
    ∀ (vouts : List ℕ) (m : ChannelMachine), Quiet m (watchAll spend height lookup vouts m).1
  | [], _ => .refl _
  | vout :: vouts, _ =>
    (watchOutput_quiet spend height lookup vout).trans
      (watchAll_quiet spend height lookup vouts _)

theorem claimHtlcs_quiet (c : Commitment) (mine : Bool) (confs : ℕ) (destination : Bytes)
    (ctx : Context) : ∀ (hs : List CommitmentHtlc) (m : ChannelMachine),
    Quiet m (claimHtlcs c mine confs destination ctx hs m).1
  | [], m => .refl m
  | h :: hs, m => by
    unfold claimHtlcs
    dsimp only
    refine Quiet.trans ?_ (claimHtlcs_quiet c mine confs destination ctx hs _)
    split_ifs
    all_goals first
      | exact quiet_of_eq rfl rfl rfl
      | exact .after (recordClaim_quiet _ _ _ _) (quiet_of_eq rfl rfl rfl)

theorem recordPenalty_quiet (height : ℕ) (p : ClaimKind × ℕ × Transaction) :
    Quiet m (recordPenalty height m p) := by
  refine ⟨rfl, fun _ _ h => .inl h, fun c hc => ?_⟩
  rcases List.mem_append.mp hc with hc | hc
  · exact .inl ⟨c, List.mem_of_mem_filter hc, rfl, rfl⟩
  · rw [List.mem_singleton] at hc
    exact .inr (by rw [hc])

theorem recordPenalties_quiet (height : ℕ) : ∀ (ps : List (ClaimKind × ℕ × Transaction))
    (m : ChannelMachine), Quiet m (ps.foldl (recordPenalty height) m)
  | [], _ => .refl _
  | p :: ps, _ => (recordPenalty_quiet height p).trans (recordPenalties_quiet height ps _)

/-! ### Frames -/

/-- Setting aside touches the states, the alternatives, what is pending and what is dropped. -/
theorem dropPending_frame (why : Text) :
    m.dropPending why = { m with
      states := (m.dropPending why).states
      signedAlternatives := (m.dropPending why).signedAlternatives
      pending := none
      dropped := (m.dropPending why).dropped } := by
  unfold dropPending
  split
  · rename_i h
    rw [← h]
  · dsimp only
    split
    · unfold rememberAlternative
      split_ifs <;> rfl
    · rfl

/-- A secret of the other side's touches only its secrets. -/
theorem takeTheirReveal_frame (index : ℕ) (reveal : Hash256) :
    m.takeTheirReveal index reveal =
      { m with theirRevocation := (m.takeTheirReveal index reveal).theirRevocation } := by
  unfold takeTheirReveal
  split <;> rfl

@[simp] theorem dropPending_pending (why : Text) : (m.dropPending why).pending = none := by
  rw [dropPending_frame]

section

variable (why : Text)

@[simp] theorem dropPending_id : (m.dropPending why).id = m.id := by
  rw [dropPending_frame]

@[simp] theorem dropPending_role : (m.dropPending why).role = m.role := by
  rw [dropPending_frame]

@[simp] theorem dropPending_channel : (m.dropPending why).channel = m.channel := by
  rw [dropPending_frame]

@[simp] theorem dropPending_channelKey : (m.dropPending why).channelKey = m.channelKey := by
  rw [dropPending_frame]

@[simp] theorem dropPending_status : (m.dropPending why).status = m.status := by
  rw [dropPending_frame]

@[simp] theorem dropPending_stateNumber : (m.dropPending why).stateNumber = m.stateNumber := by
  rw [dropPending_frame]

@[simp] theorem dropPending_myRevocation : (m.dropPending why).myRevocation = m.myRevocation := by
  rw [dropPending_frame]

@[simp] theorem dropPending_htlcSeq : (m.dropPending why).htlcSeq = m.htlcSeq := by
  rw [dropPending_frame]

@[simp] theorem dropPending_awaiting : (m.dropPending why).awaiting = m.awaiting := by
  rw [dropPending_frame]

@[simp] theorem dropPending_coopTxid : (m.dropPending why).coopTxid = m.coopTxid := by
  rw [dropPending_frame]

@[simp] theorem dropPending_close : (m.dropPending why).close = m.close := by
  rw [dropPending_frame]

@[simp] theorem dropPending_spend : (m.dropPending why).spend = m.spend := by
  rw [dropPending_frame]

end

section

variable (index : ℕ) (reveal : Hash256)

@[simp] theorem takeTheirReveal_status : (m.takeTheirReveal index reveal).status = m.status := by
  rw [takeTheirReveal_frame]

@[simp] theorem takeTheirReveal_pending : (m.takeTheirReveal index reveal).pending = m.pending := by
  rw [takeTheirReveal_frame]

end

/-- Setting aside leaves every state but the pending one. -/
theorem dropPending_states (why : Text) {n : ℕ}
    (hn : ∀ p, m.pending = some p → p.n ≠ n) :
    (m.dropPending why).states.lookup n = m.states.lookup n := by
  unfold dropPending
  split
  · rfl
  · rename_i p hp
    dsimp only
    split
    · unfold rememberAlternative
      split_ifs
      · exact Finmap.lookup_erase_ne (hn p hp).symm
      · exact Finmap.lookup_erase_ne (hn p hp).symm
    · rfl

/-! ### Calls as moves -/

theorem finalise_moves : Moves named m m.finalise.1 := by
  unfold finalise
  split
  · exact .refl m
  · rename_i a ha
    split_ifs with hr
    · exact .refl m
    · rw [Option.isNone_iff_eq_none, ← ne_eq, Option.ne_none_iff_isSome] at hr
      exact (Move.final ha hr).moves.trans
        (.after announceDropped_quiet (pushEvents_quiet _) : Quiet _ _).moves

theorem takeReveals_moves (message : SyncMessage) : Moves named m (m.takeReveals message) := by
  have hlist : ∀ (rs : List (ℕ × Hash256)) (m : ChannelMachine),
      Moves named m (rs.foldl (fun m r => m.takeTheirReveal r.1 r.2) m) := by
    intro rs
    induction rs with
    | nil => exact fun m => .refl m
    | cons r rs ih => exact fun m => (Move.reveal r.1 r.2).moves.trans (ih _)
  unfold takeReveals
  dsimp only
  refine Moves.trans ?_ (hlist _ _)
  split
  · split_ifs
    · exact (Move.reveal _ _).moves
    · exact .refl m
  · exact .refl m

theorem propose_moves (update : Update) (next : SecretKey) (ctx : Context) :
    Moves named m (m.propose update next ctx).1 := by
  unfold propose
  split
  · rename_i s message h
    exact (Move.propose h).moves
  · exact .refl m
  · exact .refl m

theorem pay_moves (amount : ℕ) (memo : Option Text) (next : SecretKey) (ctx : Context) :
    Moves named m (m.pay amount memo next ctx).1 := by
  unfold pay
  split_ifs
  · exact .refl m
  · exact .refl m
  · exact propose_moves _ _ _

theorem addHtlc_moves (amount : ℕ) (hash : Hash256) (expiry : ℕ) (route : Option Point)
    (memo : Option Text) (next : SecretKey) (ctx : Context) :
    Moves named m (m.addHtlc amount hash expiry route memo next ctx).1 := by
  unfold addHtlc
  split_ifs
  · exact .refl m
  · exact .refl m
  · exact propose_moves _ _ _
  · exact .refl m

theorem resendUpdate_moves (ctx : Context) : Moves named m (m.resendUpdate ctx).1 := by
  unfold resendUpdate
  split
  · exact .refl m
  · rename_i p hp
    exact (Move.resend _ _ hp).moves

theorem receiveUpdate_moves (message : UpdateMessage) (next : SecretKey) (ctx : Context) :
    Moves named m (m.receiveUpdate message next ctx).1 := by
  unfold receiveUpdate
  split
  · exact .refl m
  · exact .refl m
  · exact .refl m
  · rename_i h
    exact (Move.buffer h).moves
  · rename_i s h
    exact (Move.accept next h).moves

theorem adoptAlternative_moves {message : AckMessage} (hp : m.pending = none)
    (hn : message.n = m.stateNumber + 1) : Moves named m (m.adoptAlternative message).1 := by
  unfold adoptAlternative
  split
  · exact .refl m
  · exact .refl m
  · rename_i index alt h
    exact (Move.adopt hp hn h).moves.trans (pushEvents_quiet _).moves

/-- The acknowledgement that adopts an alternative is of the next state, with nothing pending. -/
theorem judgeAck_adopt {message : AckMessage} (h : m.judgeAck message = .ok .adopt) :
    m.pending = none ∧ message.n = m.stateNumber + 1 := by
  unfold judgeAck at h
  obtain ⟨-, -, h⟩ := Res.bind_eq_ok.mp h
  obtain ⟨-, -, h⟩ := Res.bind_eq_ok.mp h
  obtain ⟨-, -, h⟩ := Res.bind_eq_ok.mp h
  split_ifs at h with ha
  · exact ⟨Option.isNone_iff_eq_none.mp ha.1, ha.2⟩
  · obtain ⟨p, -, h⟩ := Res.bind_eq_ok.mp h
    obtain ⟨s, -, h⟩ := Res.bind_eq_ok.mp h
    obtain ⟨c, -, h⟩ := Res.bind_eq_ok.mp h
    dsimp only at h
    split_ifs at h
    · cases h
    · obtain ⟨-, -, h⟩ := Res.bind_eq_ok.mp h
      obtain ⟨-, -, h⟩ := Res.bind_eq_ok.mp h
      cases h

theorem judgeAck_earlier {message : AckMessage} (h : m.judgeAck message = .ok .earlier) :
    ∃ p, m.pending = some p ∧ p.n = message.n := by
  unfold judgeAck at h
  obtain ⟨-, -, h⟩ := Res.bind_eq_ok.mp h
  obtain ⟨-, -, h⟩ := Res.bind_eq_ok.mp h
  obtain ⟨-, -, h⟩ := Res.bind_eq_ok.mp h
  split_ifs at h with ha
  · cases h
  · obtain ⟨p, hp, -⟩ := Res.bind_eq_ok.mp h
    rw [Res.okOr_eq_ok, Option.filter_eq_some_iff, beq_iff_eq] at hp
    exact ⟨p, hp⟩

/-- What is pending is of the next state. -/
def PendingNext (m : ChannelMachine) : Prop := ∀ p, m.pending = some p → p.n = m.stateNumber + 1

theorem receiveAck_moves (hnext : m.PendingNext) (message : AckMessage) :
    Moves named m (m.receiveAck message).1 := by
  unfold receiveAck
  split
  · exact .refl m
  · exact .refl m
  · rename_i h
    obtain ⟨hp, hn⟩ := judgeAck_adopt h
    exact adoptAlternative_moves hp hn
  · rename_i h
    obtain ⟨p, hp, hn⟩ := judgeAck_earlier h
    refine ((Move.drop _).moves.trans (adoptAlternative_moves (dropPending_pending _) ?_)).trans
      announceDropped_quiet.moves
    rw [dropPending_stateNumber, ← hn, hnext p hp]
  · rename_i pending s h
    exact (Move.agree h).moves.trans (pushEvents_quiet _).moves

theorem receiveRevoke_moves (message : RevokeMessage) :
    Moves named m (m.receiveRevoke message).1 := by
  unfold receiveRevoke
  dsimp only
  split
  · exact .refl m
  · exact .refl m
  · split_ifs
    · exact .refl m
    · exact .refl m
    · exact (Move.reveal _ _).moves.trans finalise_moves

theorem receiveReject_moves (message : RejectMessage) (ctx : Context) :
    Moves named m (m.receiveReject message ctx).1 := by
  unfold receiveReject
  dsimp only
  split
  · exact .refl m
  · exact .refl m
  · exact (Move.drop _).moves.trans
      (announceDropped_quiet.trans (resync_quiet ctx false)).moves

theorem takeBufferedUpdate_moves : Moves named m m.takeBufferedUpdate.1 := by
  unfold takeBufferedUpdate
  split_ifs with h
  · exact (Move.unbuffer (Option.isNone_iff_eq_none.mp h)).moves
  · exact .refl m

theorem inFlight_none {m : ChannelMachine} (h : (m.pending.isSome || m.awaiting.isSome) = false) :
    m.pending = none ∧ m.awaiting = none := by
  rw [Bool.or_eq_false_iff, Option.isSome_eq_false_iff, Option.isSome_eq_false_iff,
    Option.isNone_iff_eq_none, Option.isNone_iff_eq_none] at h
  exact h

theorem closeChannel_moves (ctx : Context) : Moves named m (m.closeChannel ctx).1 := by
  unfold closeChannel
  dsimp only
  split
  · exact .refl m
  · exact .refl m
  · rename_i message tx h
    obtain ⟨_, hstatus, h⟩ := Res.bind_eq_ok.mp h
    obtain ⟨_, hflight, h⟩ := Res.bind_eq_ok.mp h
    obtain ⟨_, -, h⟩ := Res.bind_eq_ok.mp h
    obtain ⟨tx', htx, h⟩ := Res.bind_eq_ok.mp h
    rw [Res.refuseIf_eq_ok] at hstatus hflight
    rw [Res.ok.injEq, Prod.mk.injEq] at h
    obtain ⟨-, rfl⟩ := h
    obtain ⟨hp, ha⟩ := inFlight_none hflight
    refine (Move.askClose ?_ hp ha htx).moves
    by_cases ho : m.status = .open
    · exact .inl ho
    · right
      simpa [ho] using hstatus

theorem witnessed_ok {tx tx' : Transaction} {mine theirs : Sig}
    (h : m.witnessed tx mine theirs = .ok tx') : ∃ w, tx' = withWitness tx w := by
  unfold witnessed at h
  obtain ⟨w, -, h⟩ := Res.bind_eq_ok.mp h
  exact ⟨w, (Res.ok.inj h).symm⟩

theorem receiveClose_moves (message : CloseMessage) (ctx : Context) :
    Moves named m (m.receiveClose message ctx).1 := by
  unfold receiveClose
  dsimp only
  split
  · exact .refl m
  · exact .refl m
  · rename_i tx h
    obtain ⟨-, -, h⟩ := Res.bind_eq_ok.mp h
    obtain ⟨_, hlive, h⟩ := Res.bind_eq_ok.mp h
    obtain ⟨-, -, h⟩ := Res.bind_eq_ok.mp h
    obtain ⟨_, hflight, h⟩ := Res.bind_eq_ok.mp h
    obtain ⟨coop, hcoop, h⟩ := Res.bind_eq_ok.mp h
    obtain ⟨-, -, h⟩ := Res.bind_eq_ok.mp h
    obtain ⟨mine, -, h⟩ := Res.bind_eq_ok.mp h
    obtain ⟨w, rfl⟩ := witnessed_ok h
    rw [Res.refuseIf_eq_ok] at hlive hflight
    obtain ⟨hp, ha⟩ := inFlight_none hflight
    exact (Move.coopClose w ctx.height (by simpa using hlive) hp ha hcoop).moves

theorem forceClose_moves (at' : Option ℕ) (why : Text) (ctx : Context)
    (hnamed : at'.isSome = true → named) : Moves named m (m.forceClose at' why ctx).1 := by
  unfold forceClose
  dsimp only
  split
  · exact .refl m
  · exact .refl m
  · rename_i tx h
    obtain ⟨_, hstatus, h⟩ := Res.bind_eq_ok.mp h
    obtain ⟨-, -, h⟩ := Res.bind_eq_ok.mp h
    obtain ⟨-, -, h⟩ := Res.bind_eq_ok.mp h
    rw [Res.refuseIf_eq_ok] at hstatus
    have hn : at'.getD m.stateNumber = m.stateNumber ∨ named := by
      cases at' with
      | none => exact .inl rfl
      | some k => exact .inr (hnamed rfl)
    have hlive : m.status.isLive = true ∨ m.status = .closing := by
      by_cases hl : m.status.isLive = true
      · exact .inl hl
      · right
        simpa [hl] using hstatus
    exact (Move.force _ hn hlive h).moves.trans announceDropped_quiet.moves

theorem reconcile_moves (message : SyncMessage) (ctx : Context) :
    Moves named m (m.reconcile message ctx).1 := by
  unfold reconcile
  dsimp only
  split
  · exact .refl m
  split
  · exact .refl m
  split
  · exact .refl m
  · exact .refl m
  split
  · exact .refl m
  split
  · split
    · exact resendUpdate_moves ctx
    · split
      · split
        · exact (Move.drop _).moves.trans announceDropped_quiet.moves
        · exact resendUpdate_moves ctx
      · exact .refl m
    · exact .refl m
  split
  · exact .refl m
  split
  · exact .refl m
  split
  · refine Quiet.moves ?_
    exact quiet_of_eq rfl rfl rfl
  · exact .refl m

theorem receiveSync_moves (message : SyncMessage) (ctx : Context) :
    Moves named m (m.receiveSync message ctx).1 := by
  unfold receiveSync
  dsimp only
  split
  · exact .refl m
  · exact .refl m
  · exact ((takeReveals_moves message).trans finalise_moves).trans (reconcile_moves _ _)

theorem rebroadcast_moves (ctx : Context) : Moves named m (m.rebroadcast ctx).1 := by
  unfold rebroadcast
  split_ifs
  · split
    · exact .refl m
    · rename_i c hc
      split_ifs
      · exact (Move.rebroadcast _ hc).moves
      · exact .refl m
  · exact .refl m

theorem tickPending_moves (ctx : Context) (pendingTimeout : ℕ) :
    Moves named m (m.tickPending ctx pendingTimeout).1 := by
  unfold tickPending
  split
  · exact .refl m
  · dsimp only
    split_ifs
    · exact (Move.drop _).moves.trans announceDropped_quiet.moves
    · exact (resync_quiet ctx false).moves.trans (resendUpdate_moves ctx)
    · exact .refl m

theorem tickResync_moves (ctx : Context) : Moves named m (m.tickResync ctx).1 := by
  unfold tickResync
  split_ifs
  · exact (resync_quiet ctx false).moves
  · exact .refl m

theorem tickOpen_moves (ctx : Context) : Moves named m (m.tickOpen ctx).1 := by
  unfold tickOpen
  dsimp only
  refine announceDropped_quiet.moves.trans ?_
  split_ifs
  · exact forceClose_moves _ _ _ (fun h => by cases h)
  · exact forceClose_moves _ _ _ (fun h => by cases h)
  · exact .refl _
  · exact .refl _

theorem tick_moves (ctx : Context) (pendingTimeout : ℕ) :
    Moves named m (m.tick ctx pendingTimeout).1 := by
  have h₀ : Moves named m (m.rebroadcast ctx).1 := rebroadcast_moves ctx
  have h₁ := h₀.trans (tickPending_moves ctx pendingTimeout)
  have h₂ := h₁.trans (tickResync_moves ctx)
  unfold tick
  dsimp only
  split_ifs
  · exact h₀
  · exact h₂
  · exact h₂.trans (tickOpen_moves ctx)

theorem confirmFunding_moves (height : ℕ) : Moves named m (m.confirmFunding height) := by
  unfold confirmFunding
  have hq : Quiet m { m with fundedHeight := m.fundedHeight.or (some height) } :=
    quiet_of_eq rfl rfl rfl
  split_ifs with h
  · refine hq.moves.trans (Move.confirm ?_).moves
    exact h
  · exact hq.moves

theorem watchOutputs_follows (ctx : Context) (lookup : Lookup) :
    Follows m (m.watchOutputs ctx lookup).1 := by
  unfold watchOutputs
  split
  · exact .refl m
  · rename_i spend hspend
    have hq := watchAll_quiet spend ctx.height lookup (m.outputs.keys.sort (· ≤ ·)) m
    dsimp only
    split_ifs
    · exact hq.follows
    · split
      · rename_i hs
        exact hq.follows.trans (follows_status (by rw [hs]; rfl) rfl)
      · rename_i hs
        exact hq.follows.trans (follows_status (by rw [hs]; rfl) rfl)
      · exact hq.follows

/-- What follows the sweep of a close. -/
theorem followClaims_follows (spend : SpendRecord) (c : Commitment) (mine : Bool)
    (destination : Bytes) (ctx : Context) (lookup : Lookup) (hs : m.status.isSpent = true)
    {s : ChannelMachine × List Broadcast × Bool} (hq : Quiet m s.1) :
    Follows m ((if s.2.2 || (claimHtlcs c mine (confirmations ctx.height spend) destination ctx
          c.htlcs s.1).2.2 then
        (claimHtlcs c mine (confirmations ctx.height spend) destination ctx c.htlcs s.1).1
      else { (claimHtlcs c mine (confirmations ctx.height spend) destination ctx c.htlcs s.1).1
        with status := .settling }).watchOutputs ctx lookup).1 := by
  have hclaims := hq.trans
    (claimHtlcs_quiet c mine (confirmations ctx.height spend) destination ctx c.htlcs s.1)
  refine Follows.trans ?_ (watchOutputs_follows ctx lookup)
  split
  · exact hclaims.follows
  · have hstatus := congrArg ChannelMachine.status hclaims.core
    refine hclaims.follows.trans (follows_status ?_ rfl)
    exact (congrArg ChannelStatus.isSpent hstatus).trans hs

theorem followClose_follows (spend : SpendRecord) (c : Commitment) (mine : Bool)
    (destination : Bytes) (ctx : Context) (lookup : Lookup) (hs : m.status.isSpent = true) :
    Follows m (m.followClose spend c mine destination ctx lookup).1 := by
  unfold followClose
  refine followClaims_follows spend c mine destination ctx lookup hs ?_
  split
  · split
    · exact recordClaim_quiet _ _ _ _
    · exact .refl m
  · exact .refl m

theorem afterClose_follows (destination : Bytes) (ctx : Context) (lookup : Lookup) :
    Follows m (m.afterClose destination ctx lookup).1 := by
  unfold afterClose
  split
  · rename_i hs
    split_ifs
    · exact follows_status (by rw [hs]; rfl) rfl
    · exact .refl m
  · exact watchOutputs_follows ctx lookup
  · exact watchOutputs_follows ctx lookup
  all_goals
    first
      | exact .refl m
      | (rename_i hs
         split
         · exact .refl m
         · dsimp only
           split
           · exact followClose_follows _ _ _ _ _ _ (by rw [hs]; rfl)
           · exact .refl m)

theorem afterClose_moves (destination : Bytes) (ctx : Context) (lookup : Lookup) :
    Moves named m (m.afterClose destination ctx lookup).1 :=
  (afterClose_follows destination ctx lookup).moves

/-- The penalties of a commitment whose spend has just been recorded. -/
theorem punish_moves {m₁ : ChannelMachine} {n : ℕ} {s : ProtocolState} {c : Commitment}
    {k : SecretKey} (txid : Txid) (height : ℕ) (kind : FundingSpend) (destination : Bytes)
    (ctx : Context) (hc : m.theirCommitment n s = .ok c) (hk : m.theirRevocation.lookup n = some k)
    (hm : m₁ = { m with spend := some ⟨txid, height, m.status, kind⟩ }) :
    Moves named m (m₁.punish n c destination ctx).1 := by
  subst hm
  unfold punish
  dsimp only
  rw [hk]
  dsimp only
  split
  · rename_i hnone
    exact (Move.unpunished txid height kind hc hk hnone).moves
  · refine Moves.trans (Move.spent txid height kind (rfl : ChannelStatus.punishing.isSpent = true)
      ).moves (Quiet.moves ?_)
    exact .after (recordPenalties_quiet _ _ _) (quiet_of_eq rfl rfl rfl)

theorem onSpend_moves (spend : ChainSpend) (destination : Bytes) (ctx : Context)
    (lookup : Lookup) : Moves named m (m.onSpend spend destination ctx lookup).1 := by
  have hq : ∀ m : ChannelMachine, Quiet m { m with outputs := ∅ } := fun m =>
    quiet_of_eq rfl rfl rfl
  unfold onSpend
  split
  · exact afterClose_moves destination ctx lookup
  dsimp only
  split
  · exact (hq m).moves.trans (Move.spent spend.txid spend.height .cooperative rfl).moves
  split
  · rename_i c _
    have hs : Move named _ _ := Move.spent (m := { m with outputs := ∅ }) spend.txid spend.height
      (.localCommitment (c.state.getD m.stateNumber))
      (rfl : ChannelStatus.closedMine.isSpent = true)
    refine (((hq m).moves.trans hs.moves).trans ?_).trans (afterClose_moves _ _ _)
    exact Quiet.moves (quiet_of_eq rfl rfl rfl)
  split
  · exact (hq m).moves
  · exact (hq m).moves
  · rename_i candidates _
    split
    · exact (hq m).moves.trans (Move.spent spend.txid spend.height .unknown rfl).moves
    · rename_i n s alternative hfind
      have hspent := List.find?_some hfind
      unfold isSpentBy at hspent
      have hq' : Quiet m { m with outputs := ∅, closeState := some n, closeStateObj := some s } :=
        quiet_of_eq rfl rfl rfl
      split
      · refine Moves.trans ?_ (afterClose_moves _ _ _)
        refine hq'.moves.trans (Move.spent spend.txid spend.height
          (.remoteCommitment n alternative (m.theirRevocation.lookup n).isSome) ?_).moves
        split <;> rfl
      · rename_i hrev
        rw [Bool.not_eq_true, Bool.not_eq_false'] at hrev
        obtain ⟨k, hk⟩ := Option.isSome_iff_exists.mp hrev
        split
        · rename_i c hc
          exact hq'.moves.trans (punish_moves spend.txid spend.height _ destination ctx hc hk rfl)
        · rename_i hc
          rw [hc] at hspent
          cases hspent
        · rename_i hc
          rw [hc] at hspent
          cases hspent

theorem unSpend_moves : Moves named m m.unSpend.1 := by
  have hq : ∀ m : ChannelMachine, Quiet m { m with claims := [], penalties := [], outputs := ∅,
                                                   closeStateObj := none } := fun m =>
    ⟨rfl, fun _ _ h => .inl h, fun c hc => absurd hc List.not_mem_nil⟩
  unfold unSpend
  split
  · exact .refl m
  · rename_i spend hspend
    have hm : Moves named m _ := (Move.unSpend hspend).moves.trans (hq _).moves
    dsimp only
    split
    · rename_i close hclose
      rw [Option.filter_eq_some_iff] at hclose
      have hback : m.backTo spend.previousStatus =
          if spend.previousStatus = .closingAsked then .closing else spend.previousStatus := by
        unfold backTo
        rw [hclose.1]
        simp only [Option.isSome_some, true_and]
      rw [hback] at hm
      exact hm
    · rename_i hclose
      rw [Option.filter_eq_none_iff] at hclose
      have hback : m.backTo spend.previousStatus = spend.previousStatus := by
        unfold backTo
        rw [if_neg]
        rintro ⟨hsome, hasked⟩
        obtain ⟨c, hc⟩ := Option.isSome_iff_exists.mp hsome
        exact hclose c hc (by rw [hasked]; rfl)
      rw [hback] at hm
      exact hm

/-! ### Calls and runs -/

/-- The channel is the one its parameters make. -/
def Rebuilds (m : ChannelMachine) : Prop :=
  Channel.new m.channel.keys.1 m.channel.keys.2 m.channel.fundingOutpoint m.channel.fundingValue
    m.channel.fee m.channel.delay = .ok m.channel

/-- What is restored is what was saved. -/
theorem restore_eq {m' : ChannelMachine} (hch : m.Rebuilds) (h : restore m.snapshot = .ok m') :
    m' = { m with events := [], peerAhead := none } := by
  unfold restore at h
  obtain ⟨_, _, h⟩ := Res.bind_eq_ok.mp h
  obtain ⟨channel, hnew, h⟩ := Res.bind_eq_ok.mp h
  obtain ⟨_, _, h⟩ := Res.bind_eq_ok.mp h
  have hsame : channel = m.channel := by
    have hnew' : ofExcept (.ok m.channel) = .ok channel := hch ▸ hnew
    exact (Res.ok.inj hnew').symm
  rw [hsame] at h
  exact (Res.ok.inj h).symm

/-- A call of the host is some moves. -/
theorem run_moves {m' : ChannelMachine} {out : Emitted} (hnext : m.PendingNext)
    (hch : m.Rebuilds) {c : Call} (hnamed : c.namesState → named)
    (h : c.run m = some (m', out)) : Moves named m m' := by
  have hset : ∀ (update : Update) (preimage : Preimage) (next : SecretKey) (ctx : Context),
      Moves named m ((m.rememberPreimage preimage).propose update next ctx).1 :=
    fun _ preimage _ _ => (rememberPreimage_quiet preimage).moves.trans (propose_moves _ _ _)
  have hkept : ∀ peerAhead, Quiet m { m with events := [], peerAhead } := fun _ =>
    quiet_of_eq rfl rfl rfl
  cases c with
  | restart =>
    unfold Call.run at h
    dsimp only at h
    split at h
    · rename_i m₁ hm
      cases h
      rw [restore_eq hch hm]
      exact (hkept none).moves
    · cases h
  | forceClose at' why ctx =>
    cases h
    refine forceClose_moves at' why ctx fun hat => hnamed ?_
    obtain ⟨k, rfl⟩ := Option.isSome_iff_exists.mp hat
    trivial
  | _ =>
    cases h
    first
      | exact .refl m
      | exact confirmFunding_moves _
      | exact propose_moves _ _ _
      | exact pay_moves _ _ _ _
      | exact addHtlc_moves _ _ _ _ _ _ _
      | exact hset _ _ _ _
      | exact resendUpdate_moves _
      | exact receiveUpdate_moves _ _ _
      | exact receiveAck_moves hnext _
      | exact receiveRevoke_moves _
      | exact receiveReject_moves _ _
      | exact takeBufferedUpdate_moves
      | exact closeChannel_moves _
      | exact receiveClose_moves _ _
      | exact (resync_quiet _ _).moves
      | exact receiveSync_moves _ _
      | exact tick_moves _ _
      | exact (rememberPreimage_quiet _).moves
      | exact (hkept m.peerAhead).moves
      | exact onSpend_moves _ _ _ _
      | exact unSpend_moves
      | exact afterClose_moves _ _ _
      | exact (watchOutputs_follows _ _).moves

end ChannelMachine

open ChannelMachine

/-! ### What every move keeps -/

/-- The proposal's message is for the next state, with the update that makes it. -/
theorem proposal_ok {m : ChannelMachine} {update : Update} {next : SecretKey} {ctx : Context}
    {s : ProtocolState} {message : UpdateMessage} (h : m.proposal update next ctx = .ok (s, message)) :
    m.status = .open ∧ m.pending = none ∧ m.awaiting = none ∧ message.n = m.stateNumber + 1 ∧
      message.update.wellFormed = .ok () ∧
      m.nextState m.currentState message.update m.role ctx.height = .ok s := by
  unfold ChannelMachine.proposal at h
  obtain ⟨_, hopen, h⟩ := Res.bind_eq_ok.mp h
  obtain ⟨_, hpending, h⟩ := Res.bind_eq_ok.mp h
  obtain ⟨_, hawaiting, h⟩ := Res.bind_eq_ok.mp h
  obtain ⟨_, -, h⟩ := Res.bind_eq_ok.mp h
  obtain ⟨_, -, h⟩ := Res.bind_eq_ok.mp h
  obtain ⟨_, -, h⟩ := Res.bind_eq_ok.mp h
  obtain ⟨_, -, h⟩ := Res.bind_eq_ok.mp h
  obtain ⟨update', -, h⟩ := Res.bind_eq_ok.mp h
  obtain ⟨_, hwell, h⟩ := Res.bind_eq_ok.mp h
  obtain ⟨s', hs, h⟩ := Res.bind_eq_ok.mp h
  obtain ⟨_, -, h⟩ := Res.bind_eq_ok.mp h
  obtain ⟨_, -, h⟩ := Res.bind_eq_ok.mp h
  obtain ⟨_, -, h⟩ := Res.bind_eq_ok.mp h
  rw [Res.ok.injEq, Prod.mk.injEq] at h
  obtain ⟨rfl, rfl⟩ := h
  rw [Res.refuseIf_eq_ok] at hopen hpending hawaiting
  refine ⟨by simpa using hopen, by simpa using hpending, by simpa using hawaiting, rfl, ?_, hs⟩
  unfold ofProtocol at hwell
  split at hwell
  · assumption
  · cases hwell

theorem incomingState_accept {m : ChannelMachine} {message : UpdateMessage} {ctx : Context}
    {s : ProtocolState} (h : m.incomingState message ctx = .ok (.accept s)) :
    m.nextState m.currentState message.update m.role.other ctx.height = .ok s := by
  unfold ChannelMachine.incomingState at h
  split at h
  · cases h
  · cases h
  · rename_i s' hs
    obtain ⟨mine, -, h⟩ := Res.bind_eq_ok.mp h
    split_ifs at h
    · cases h
    · cases h
    · cases h
      exact hs

theorem judgeUpdate_accept {m : ChannelMachine} {message : UpdateMessage} {ctx : Context}
    {s : ProtocolState} (h : m.judgeUpdate message ctx = .ok (.accept s)) :
    m.status = .open ∧ m.awaiting = none ∧ message.n = m.stateNumber + 1 ∧
      message.update.wellFormed = .ok () ∧ m.incomingState message ctx = .ok (.accept s) := by
  unfold ChannelMachine.judgeUpdate at h
  obtain ⟨_, hwell, h⟩ := Res.bind_eq_ok.mp h
  obtain ⟨_, -, h⟩ := Res.bind_eq_ok.mp h
  split at h
  · cases h
  obtain ⟨_, hopen, h⟩ := Res.bind_eq_ok.mp h
  split at h
  · obtain ⟨_, -, h⟩ := Res.bind_eq_ok.mp h
    obtain ⟨_, -, h⟩ := Res.bind_eq_ok.mp h
    cases h
  split at h
  · cases h
  obtain ⟨_, hn, h⟩ := Res.bind_eq_ok.mp h
  split at h
  · cases h
  rename_i hawaiting
  obtain ⟨_, -, h⟩ := Res.bind_eq_ok.mp h
  obtain ⟨_, -, h⟩ := Res.bind_eq_ok.mp h
  split at h
  · cases h
  rw [Res.refuseIf_eq_ok] at hopen hn
  have hwell' : message.wellFormed = .ok () := by
    unfold ofProtocol at hwell
    split at hwell
    · assumption
    · cases hwell
  unfold UpdateMessage.wellFormed at hwell'
  split at hwell'
  · cases hwell'
  · exact ⟨by simpa using hopen, by simpa using hawaiting, by simpa using hn, hwell', h⟩

theorem judgeAck_agree {m : ChannelMachine} {message : AckMessage} {pending : PendingUpdate}
    {s : ProtocolState} (h : m.judgeAck message = .ok (.agree pending s)) :
    (m.status = .open ∨ m.status = .closingAsked) ∧ m.pending = some pending ∧
      pending.n = message.n ∧ m.states.lookup pending.n = some s := by
  unfold ChannelMachine.judgeAck at h
  obtain ⟨_, -, h⟩ := Res.bind_eq_ok.mp h
  obtain ⟨_, -, h⟩ := Res.bind_eq_ok.mp h
  obtain ⟨_, hstatus, h⟩ := Res.bind_eq_ok.mp h
  split_ifs at h
  · cases h
  obtain ⟨p, hp, h⟩ := Res.bind_eq_ok.mp h
  obtain ⟨s', hs, h⟩ := Res.bind_eq_ok.mp h
  obtain ⟨mine, -, h⟩ := Res.bind_eq_ok.mp h
  dsimp only at h
  split_ifs at h
  · cases h
  obtain ⟨_, -, h⟩ := Res.bind_eq_ok.mp h
  obtain ⟨_, -, h⟩ := Res.bind_eq_ok.mp h
  rw [Res.ok.injEq, AckVerdict.agree.injEq] at h
  obtain ⟨rfl, rfl⟩ := h
  rw [Res.refuseIf_eq_ok] at hstatus
  rw [Res.okOr_eq_ok, Option.filter_eq_some_iff, beq_iff_eq] at hp
  unfold ChannelMachine.state at hs
  rw [Res.okOr_eq_ok] at hs
  refine ⟨?_, hp.1, hp.2, hs⟩
  by_cases ho : m.status = .open
  · exact .inl ho
  · right
    simpa [ho] using hstatus

theorem adoption_ok {m : ChannelMachine} {message : AckMessage} {index : ℕ}
    {alt : SignedAlternative} (h : m.adoption message = .ok (index, alt)) :
    m.status = .open ∧ (m.alternativesAt message.n)[index]? = some alt := by
  unfold ChannelMachine.adoption at h
  obtain ⟨_, hopen, h⟩ := Res.bind_eq_ok.mp h
  obtain ⟨i, -, h⟩ := Res.bind_eq_ok.mp h
  obtain ⟨_, -, h⟩ := Res.bind_eq_ok.mp h
  obtain ⟨_, -, h⟩ := Res.bind_eq_ok.mp h
  obtain ⟨_, -, h⟩ := Res.bind_eq_ok.mp h
  obtain ⟨alt', halt, h⟩ := Res.bind_eq_ok.mp h
  rw [Res.ok.injEq, Prod.mk.injEq] at h
  obtain ⟨rfl, rfl⟩ := h
  rw [Res.refuseIf_eq_ok] at hopen
  rw [Res.okOr_eq_ok] at halt
  exact ⟨by simpa using hopen, halt⟩

/-- The core of a machine is kept by a quiet change. -/
theorem Quiet.field {m m' : ChannelMachine} {α : Type} (h : Quiet m m')
    (f : ChannelMachine → α) (hf : ∀ m, f m = f m.core := by exact fun _ => rfl) : f m' = f m := by
  rw [hf m', hf m, h.core]

/-- Who the channel is between, and what it was funded with. -/
def ChannelMachine.terms (m : ChannelMachine) : Channel × Side × ChannelId × SecretKey × SecretKey ×
    Point × SighashRules :=
  (m.channel, m.role, m.id, m.channelKey, m.myRevocationBase, m.theirRevocationBase, m.rules)

theorem Move.terms {m m' : ChannelMachine} (h : Move named m m') : m'.terms = m.terms := by
  cases h with
  | quiet hq => exact hq.field ChannelMachine.terms
  | drop why =>
    rw [dropPending_frame]
    rfl
  | force why hn hlive htx =>
    rw [dropPending_frame]
    rfl
  | reveal index reveal =>
    rw [takeTheirReveal_frame]
    rfl
  | accept next hj =>
    unfold ChannelMachine.accepted
    dsimp only
    rw [dropPending_frame]
    rfl
  | agree hj =>
    unfold ChannelMachine.agreed
    dsimp only
    rw [takeTheirReveal_frame]
    rfl
  | adopt hp hn hj =>
    unfold ChannelMachine.agreed
    dsimp only
    rw [takeTheirReveal_frame]
    rfl
  | _ => rfl

@[simp] theorem agreed_pending {m : ChannelMachine} (message : AckMessage) (s : ProtocolState)
    (update : Update) : (m.agreed message s update).pending = m.pending := by
  unfold ChannelMachine.agreed
  dsimp only
  rw [takeTheirReveal_pending]

@[simp] theorem accepted_pending {m : ChannelMachine} (message : UpdateMessage) (s : ProtocolState)
    (next : SecretKey) (ctx : Context) : (m.accepted message s next ctx).pending = none :=
  dropPending_pending _

theorem pendingNext_of_none {m : ChannelMachine} (h : m.pending = none) : m.PendingNext := by
  intro p hp
  rw [h] at hp
  cases hp

theorem Move.pendingNext {m m' : ChannelMachine} (h : Move named m m') (hm : m.PendingNext) :
    m'.PendingNext := by
  cases h with
  | quiet hq =>
    intro p hp
    rw [hq.field ChannelMachine.pending] at hp
    rw [hq.field ChannelMachine.stateNumber]
    exact hm p hp
  | propose hj =>
    rintro p hp
    cases hp
    exact (proposal_ok hj).2.2.2.1
  | resend now tries hp =>
    rintro p' hp'
    cases hp'
    exact (hm _ hp :)
  | drop why => exact pendingNext_of_none (dropPending_pending why)
  | force why hn hlive htx => exact pendingNext_of_none (dropPending_pending why)
  | accept next hj => exact pendingNext_of_none (accepted_pending _ _ _ _)
  | agree hj => exact pendingNext_of_none (agreed_pending _ _ _)
  | adopt hp hn hj => exact pendingNext_of_none ((agreed_pending _ _ _).trans hp)
  | reveal index reveal =>
    intro p hp
    rw [takeTheirReveal_frame] at hp ⊢
    exact hm p hp
  | _ => exact hm

/-- Moves from a machine of a run. -/
theorem Moves.run_ind {P : ChannelMachine → Prop} {m m' : ChannelMachine}
    (step : ∀ {a b}, Move named a b → a.PendingNext → P a → P b) (h : Moves named m m')
    (hnext : m.PendingNext) (hm : P m) : P m' ∧ m'.PendingNext ∧ m'.terms = m.terms :=
  h.ind (P := fun a => P a ∧ a.PendingNext ∧ a.terms = m.terms)
    (fun hab ha => ⟨step hab ha.2.1 ha.1, hab.pendingNext ha.2.1, hab.terms.trans ha.2.2⟩)
    ⟨hm, hnext, rfl⟩

/-- A machine of a run keeps the terms of its opening. -/
theorem Run.kept {ok : ChannelMachine → Call → Prop} {o : Opened} {m : ChannelMachine}
    {log : List Done} (h : Run ok o m log) :
    m.PendingNext ∧ m.terms = o.machine.terms ∧ m.Rebuilds := by
  induction h with
  | start hv hnew =>
    unfold ChannelMachine.new at hnew
    obtain ⟨_, -, hnew⟩ := Res.bind_eq_ok.mp hnew
    obtain ⟨_, -, hnew⟩ := Res.bind_eq_ok.mp hnew
    obtain ⟨_, -, hnew⟩ := Res.bind_eq_ok.mp hnew
    cases hnew
    exact ⟨pendingNext_of_none rfl, rfl, hv.channel⟩
  | call c _ _ hc ih =>
    obtain ⟨hnext, hterms, hch⟩ := ih
    have hmoves : Moves True _ _ := run_moves hnext hch (fun _ => trivial) hc
    have h := hmoves.run_ind (P := fun _ => True) (fun _ _ _ => trivial) hnext trivial
    have hchannel := congrArg Prod.fst h.2.2
    refine ⟨h.2.1, h.2.2.trans hterms, ?_⟩
    unfold ChannelMachine.Rebuilds
    change ChannelMachine.channel _ = ChannelMachine.channel _ at hchannel
    rw [hchannel]
    exact hch

theorem Run.valid {ok : ChannelMachine → Call → Prop} {o : Opened} {m : ChannelMachine}
    {log : List Done} (h : Run ok o m log) : o.Valid := by
  induction h with
  | start hv _ => exact hv
  | call _ _ _ _ ih => exact ih

/-- What an opening has and every move keeps, every machine of a run has. -/
theorem Run.ind {ok : ChannelMachine → Call → Prop} (hok : ∀ {m c}, ok m c → c.namesState → named)
    {P : ChannelMachine → Prop} {o : Opened} {m : ChannelMachine} {log : List Done}
    (start : o.Valid → P o.machine)
    (step : ∀ {a b}, Move named a b → a.PendingNext → P a → P b) (h : Run ok o m log) : P m := by
  induction h with
  | start hv hnew =>
    unfold ChannelMachine.new at hnew
    obtain ⟨_, -, hnew⟩ := Res.bind_eq_ok.mp hnew
    obtain ⟨_, -, hnew⟩ := Res.bind_eq_ok.mp hnew
    obtain ⟨_, -, hnew⟩ := Res.bind_eq_ok.mp hnew
    cases hnew
    exact start hv
  | call c hrun hmay hc ih =>
    obtain ⟨hnext, -, hch⟩ := hrun.kept
    exact ((run_moves hnext hch (hok hmay) hc).run_ind step hnext ih).1

end

end Hitch

end Sidestr
