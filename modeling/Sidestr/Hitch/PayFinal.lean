/-
# A payment reported final

`pay` with no invoice proposes a payment and waits for its state number
(`host.rs`): it is answered once the machine has reached that number and has
nothing pending at it. The number stands for the payment only while nothing
else takes it. An update of the other side's may (after a collision or a
refusal), and so may an earlier attempt or a later proposal of this peer's.

Key definitions: `payFinal`, `Made`, `After`, `ByAck`.
Key theorems: `Move.agreed_kept`, `Move.payPending`, `After.tracked`,
`pay_final_made`, `pay_final_unmade`.
-/
import Sidestr.Hitch.Finality

namespace Sidestr

namespace Hitch

section

variable [Hitch] {named : Prop}

open ChannelMachine

namespace ChannelMachine

variable (m : ChannelMachine)

/-- `Goal::PayFinal`: the number is reached, and nothing is pending at it. -/
def payFinal (n : ℕ) : Bool :=
  decide (n ≤ m.stateNumber) && !(m.pending.any fun p => p.n == n)

/-- State `n` is what this peer's payment makes of the state before it. -/
def Made (n amount : ℕ) (memo : Option Text) : Prop :=
  ∃ prev s, m.states.lookup (n - 1) = some prev ∧ m.states.lookup n = some s ∧
    m.nextState prev (.pay amount memo) m.role 0 = .ok s

/-- A payment that is pending stands at its number, made of the agreed state. -/
def PayPending : Prop :=
  ∀ p amount memo, m.pending = some p → p.update = .pay amount memo →
    ∃ s, m.states.lookup p.n = some s ∧
      m.nextState m.currentState (.pay amount memo) m.role 0 = .ok s

end ChannelMachine

/-- The machines after any calls that meet `ok`. -/
inductive After (ok : ChannelMachine → Call → Prop) (m₁ : ChannelMachine) : ChannelMachine → Prop
  | start : After ok m₁ m₁
  | call {m m' : ChannelMachine} {out : Emitted} (c : Call) : After ok m₁ m → ok m c →
      c.run m = some (m', out) → After ok m₁ m'

/-- What takes the message's number is an acknowledgement of it. -/
def ByAck (message : UpdateMessage) (m : ChannelMachine) (c : Call) : Prop :=
  m.stateNumber + 1 = message.n → c.Advances m →
    ∃ ack p s, c = .receiveAck ack ∧ m.judgeAck ack = .ok (.agree p s) ∧ p.message = message

/-- A payment depends on the machine's terms alone. -/
theorem nextState_pay {m m' : ChannelMachine} (hterms : m'.terms = m.terms) (current : ProtocolState)
    (amount : ℕ) (memo : Option Text) (side : Side) (height height' : ℕ) :
    m'.nextState current (.pay amount memo) side height =
      m.nextState current (.pay amount memo) side height' := by
  have hchannel : m'.channel = m.channel := congrArg Prod.fst hterms
  unfold nextState keepsFee
  rw [hchannel]

theorem role_of_terms {m m' : ChannelMachine} (hterms : m'.terms = m.terms) : m'.role = m.role :=
  congrArg (fun t => t.2.1) hterms

/-! ### One move -/

/-- Agreed states stay. -/
theorem Move.agreed_kept {m m' : ChannelMachine} (h : Move named m m') (hnext : m.PendingNext)
    {k : ℕ} (hk : k ≤ m.stateNumber) : m'.states.lookup k = m.states.lookup k := by
  cases h with
  | quiet hq => rw [hq.field states]
  | propose hj =>
    have hn := (proposal_ok hj).2.2.2.1
    unfold proposed
    dsimp only
    rw [hn, Finmap.lookup_insert_of_ne _ (by omega)]
  | accept next hj =>
    have hn := (judgeUpdate_accept hj).2.2.1
    unfold accepted
    dsimp only
    rw [hn, Finmap.lookup_insert_of_ne _ (by omega)]
    exact dropPending_below _ hnext hk
  | agree hj =>
    rename_i message pending s
    obtain ⟨-, hp, hn, -⟩ := judgeAck_agree hj
    have hn' : message.n = m.stateNumber + 1 := hn ▸ hnext pending hp
    rw [(agreed_frame (m := { m with pending := none }) message s pending.update).1, hn',
      Finmap.lookup_insert_of_ne _ (by omega)]
  | adopt hp hn hj =>
    rename_i message index alt
    rw [(agreed_frame (m := m.removeAlternative message.n index) message alt.state alt.update).1, hn,
      Finmap.lookup_insert_of_ne _ (by omega)]
    rfl
  | drop why => exact dropPending_below why hnext hk
  | force why hn hlive htx => exact dropPending_below why hnext hk
  | reveal index reveal => rw [takeTheirReveal_frame]
  | _ => rfl

/-- A machine with the same states at the same number, and the same pending update. -/
theorem payPending_of_eq {m m' : ChannelMachine} (hm : m.PayPending) (hterms : m'.terms = m.terms)
    (hstates : m'.states = m.states) (hn : m'.stateNumber = m.stateNumber)
    (hpending : ∀ p, m'.pending = some p → ∃ p₀, m.pending = some p₀ ∧ p₀.n = p.n ∧
      p₀.update = p.update) : m'.PayPending := by
  intro p amount memo hp hu
  obtain ⟨p₀, hp₀, hpn, hpu⟩ := hpending p hp
  obtain ⟨s, hs, hmade⟩ := hm p₀ amount memo hp₀ (hpu.trans hu)
  refine ⟨s, by rw [hstates, ← hpn, hs], ?_⟩
  have hcurrent : m'.currentState = m.currentState := by
    unfold currentState
    rw [hstates, hn]
  rw [nextState_pay hterms _ _ _ _ 0 0, hcurrent, role_of_terms hterms]
  exact hmade

theorem payPending_of_none {m : ChannelMachine} (h : m.pending = none) : m.PayPending := by
  intro p amount memo hp
  rw [h] at hp
  cases hp

theorem Move.payPending {m m' : ChannelMachine} (h : Move named m m') (hm : m.PayPending) :
    m'.PayPending := by
  have hterms := h.terms
  cases h with
  | quiet hq =>
    refine payPending_of_eq hm hterms (hq.field states) (hq.field stateNumber) fun p hp => ?_
    rw [hq.field pending] at hp
    exact ⟨p, hp, rfl, rfl⟩
  | propose hj =>
    rename_i update next ctx s message
    obtain ⟨-, -, -, hn, -, hmade⟩ := proposal_ok hj
    intro p amount memo hp hu
    cases hp
    refine ⟨s, by unfold proposed; dsimp only; rw [Finmap.lookup_insert], ?_⟩
    have hcurrent : (m.proposed s message next ctx).currentState = m.currentState := by
      unfold currentState proposed
      dsimp only
      rw [hn, Finmap.lookup_insert_of_ne _ (by omega)]
    rw [nextState_pay hterms _ _ _ _ 0 ctx.height, hcurrent, role_of_terms hterms]
    rw [show message.update = .pay amount memo from hu] at hmade
    exact hmade
  | resend now tries hp =>
    rename_i p
    refine payPending_of_eq hm hterms rfl rfl fun p' hp' => ?_
    cases hp'
    exact ⟨p, hp, rfl, rfl⟩
  | accept next hj => exact payPending_of_none (accepted_pending _ _ _ _)
  | agree hj => exact payPending_of_none (agreed_pending _ _ _)
  | adopt hp hn hj => exact payPending_of_none ((agreed_pending _ _ _).trans hp)
  | drop why => exact payPending_of_none (dropPending_pending why)
  | force why hn hlive htx => exact payPending_of_none (dropPending_pending why)
  | reveal index reveal =>
    have hframe := takeTheirReveal_frame (m := m) index reveal
    refine payPending_of_eq hm hterms (by rw [hframe]) (by rw [hframe]) fun p hp => ?_
    rw [hframe] at hp
    exact ⟨p, hp, rfl, rfl⟩
  | _ => exact payPending_of_eq hm hterms rfl rfl fun p hp => ⟨p, hp, rfl, rfl⟩

theorem Run.payPending {ok : ChannelMachine → Call → Prop} {o : Opened} {m : ChannelMachine}
    {log : List Done} (h : Run ok o m log) : m.PayPending :=
  h.ind (fun _ _ => trivial) (fun _ => payPending_of_none rfl)
    fun (hab : Move True _ _) _ ha => hab.payPending ha

/-! ### A run after the payment -/

theorem proposal_pay {m : ChannelMachine} {amount : ℕ} {memo : Option Text} {next : SecretKey}
    {ctx : Context} {s : ProtocolState} {message : UpdateMessage}
    (h : m.proposal (.pay amount memo) next ctx = .ok (s, message)) :
    message.update = .pay amount memo := by
  unfold proposal at h
  obtain ⟨_, -, h⟩ := Res.bind_eq_ok.mp h
  obtain ⟨_, -, h⟩ := Res.bind_eq_ok.mp h
  obtain ⟨_, -, h⟩ := Res.bind_eq_ok.mp h
  obtain ⟨_, -, h⟩ := Res.bind_eq_ok.mp h
  obtain ⟨_, -, h⟩ := Res.bind_eq_ok.mp h
  obtain ⟨_, -, h⟩ := Res.bind_eq_ok.mp h
  obtain ⟨_, -, h⟩ := Res.bind_eq_ok.mp h
  obtain ⟨update, hnumbered, h⟩ := Res.bind_eq_ok.mp h
  obtain ⟨_, -, h⟩ := Res.bind_eq_ok.mp h
  obtain ⟨_, -, h⟩ := Res.bind_eq_ok.mp h
  obtain ⟨_, -, h⟩ := Res.bind_eq_ok.mp h
  obtain ⟨_, -, h⟩ := Res.bind_eq_ok.mp h
  obtain ⟨_, -, h⟩ := Res.bind_eq_ok.mp h
  cases hnumbered
  cases h
  rfl

theorem pay_ok {m m₁ : ChannelMachine} {amount : ℕ} {memo : Option Text} {next : SecretKey}
    {ctx : Context} {message : UpdateMessage} (h : m.pay amount memo next ctx = (m₁, .ok message)) :
    ∃ s, m.proposal (.pay amount memo) next ctx = .ok (s, message) ∧
      m₁ = m.proposed s message next ctx := by
  unfold pay at h
  split_ifs at h
  · cases h
  · cases h
  · unfold propose at h
    cases hp : m.proposal (.pay amount memo) next ctx with
    | err e => rw [hp] at h; cases h
    | panic => rw [hp] at h; cases h
    | ok r =>
      rw [hp] at h
      cases h
      exact ⟨r.1, rfl, rfl⟩

/-- What was made stays made. -/
theorem ChannelMachine.Made.moves {m m' : ChannelMachine} {n amount : ℕ} {memo : Option Text}
    (hm : m.Made n amount memo) (hn : n ≤ m.stateNumber) (hnext : m.PendingNext)
    (h : Moves named m m') : n ≤ m'.stateNumber ∧ m'.Made n amount memo := by
  refine (h.run_ind (P := fun a => n ≤ a.stateNumber ∧ a.Made n amount memo) ?_ hnext ⟨hn, hm⟩).1
  rintro a b hab hnexta ⟨hle, prev, s, hprev, hs, hmade⟩
  refine ⟨hle.trans (hab.stateNumber_mono hnexta), prev, s, ?_, ?_, ?_⟩
  · rw [hab.agreed_kept hnexta (by omega), hprev]
  · rw [hab.agreed_kept hnexta hle, hs]
  · rw [nextState_pay hab.terms _ _ _ _ 0 0, role_of_terms hab.terms]
    exact hmade

/-- The state that an acknowledgement of the payment agrees is the payment's. -/
theorem receiveAck_made {m : ChannelMachine} (hm : Sound m) (hpay : m.PayPending)
    (hnext : m.PendingNext) {ack : AckMessage} {p : PendingUpdate} {s : ProtocolState}
    (hj : m.judgeAck ack = .ok (.agree p s)) {message : UpdateMessage} (hmessage : p.message = message)
    {amount : ℕ} {memo : Option Text} (hupdate : message.update = .pay amount memo)
    (hn : m.stateNumber + 1 = message.n) :
    message.n ≤ (m.receiveAck ack).1.stateNumber ∧
      (m.receiveAck ack).1.Made message.n amount memo := by
  obtain ⟨-, hp, hpn, hs⟩ := judgeAck_agree hj
  have hplaced := hm.placed.pending p hp
  have hack : ack.n = message.n := by rw [← hn, ← hpn, hnext p hp]
  obtain ⟨s', hs', hmade⟩ := hpay p amount memo hp (by rw [← hplaced.2.2, hmessage, hupdate])
  obtain rfl : s = s' := Option.some.inj (hs.symm.trans hs')
  set m' := ({ m with pending := none }.agreed ack s p.update).pushEvents
    (m.agreedEvents m.stateNumber p.update) with hm'
  have hrun : (m.receiveAck ack).1 = m' := by
    unfold receiveAck
    rw [hj]
  have hstates : m'.states = m.states.insert ack.n s :=
    (agreed_frame (m := { m with pending := none }) ack s p.update).1
  have hmove : Move True m ({ m with pending := none }.agreed ack s p.update) := .agree hj
  have hterms : m'.terms = m.terms := hmove.terms
  rw [hrun]
  refine ⟨hack.ge, m.currentState, s, ?_, ?_, ?_⟩
  · rw [hstates, hack, ← hn, Nat.add_sub_cancel, Finmap.lookup_insert_of_ne _ (by omega)]
    exact hm.conserved.currentState
  · rw [hstates, hack, Finmap.lookup_insert]
  · rw [nextState_pay hterms _ _ _ _ 0 0, role_of_terms hterms]
    exact hmade

/-- Along a run: the number is not reached yet, or it is the payment's. -/
theorem After.tracked {o : Opened} {m₁ m : ChannelMachine} {log : List Done}
    {message : UpdateMessage} {amount : ℕ} {memo : Option Text}
    (hrun : Run (fun _ _ => True) o m₁ log) (hn : m₁.stateNumber + 1 = message.n)
    (hupdate : message.update = .pay amount memo) (h : After (ByAck message) m₁ m) :
    (∃ log, Run (fun _ _ => True) o m log) ∧ (m.stateNumber + 1 = message.n ∨
      message.n ≤ m.stateNumber ∧ m.Made message.n amount memo) := by
  induction h with
  | start => exact ⟨⟨log, hrun⟩, .inl hn⟩
  | call c _ hok hc ih =>
    obtain ⟨⟨log, hrun⟩, htracked⟩ := ih
    refine ⟨⟨_, hrun.call c trivial hc⟩, ?_⟩
    obtain ⟨hnext, -, hch⟩ := hrun.kept
    rcases htracked with hbefore | ⟨hle, hmade⟩
    · rename_i a b out _
      by_cases hadv : c.Advances a
      · obtain ⟨ack, p, s, rfl, hj, hmessage⟩ := hok hbefore hadv
        cases hc
        exact .inr (receiveAck_made hrun.sound hrun.payPending hnext hj hmessage hupdate hbefore)
      · exact .inl (by rw [Call.stateNumber hch hc hadv, hbefore])
    · have hmoves : Moves True _ _ := run_moves hnext hch (fun _ => trivial) hc
      exact .inr (hmade.moves hle hnext hmoves)

/-- **What a payment reported final stands for.** Where the call that takes the
payment's number, if any, is an acknowledgement of the payment itself, the waiter
is answered only when the agreed state at that number is the payment's. -/
theorem pay_final_made {o : Opened} {m₀ m₁ m : ChannelMachine} {log : List Done}
    (hrun : Run (fun _ _ => True) o m₀ log) {amount : ℕ} {memo : Option Text} {next : SecretKey}
    {ctx : Context} {message : UpdateMessage}
    (hpay : m₀.pay amount memo next ctx = (m₁, .ok message)) (hafter : After (ByAck message) m₁ m)
    (hfinal : m.payFinal message.n = true) : m.Made message.n amount memo := by
  obtain ⟨s, hproposal, rfl⟩ := pay_ok hpay
  have hn := (proposal_ok hproposal).2.2.2.1
  have hcall : (Call.pay amount memo next ctx).run m₀ =
      some (sentUpdate (m₀.proposed s message next ctx, .ok message)) := by
    show some (sentUpdate (m₀.pay amount memo next ctx)) = _
    rw [hpay]
  have hrun₁ := hrun.call (.pay amount memo next ctx) trivial hcall
  obtain ⟨-, hbefore | ⟨-, hmade⟩⟩ := hafter.tracked hrun₁ hn.symm (proposal_pay hproposal)
  · unfold payFinal at hfinal
    rw [Bool.and_eq_true, decide_eq_true_eq] at hfinal
    omega
  · exact hmade

end

/-! ### The payment and another -/

attribute [local instance] sampleHitch

theorem after_of_runAll {m₁ : ChannelMachine} : ∀ {cs : List Call} {m m' : ChannelMachine}
    {done : List Done}, After (fun _ _ => True) m₁ m → runAll m cs = some (m', done) →
    After (fun _ _ => True) m₁ m'
  | [], m, m', done, hm, h => by
    cases h
    exact hm
  | c :: cs, m, m', done, hm, h => by
    unfold runAll at h
    split at h
    · cases h
    · rename_i m₂ out hc
      obtain ⟨⟨m₃, rest⟩, hrest, h⟩ := Option.map_eq_some_iff.mp h
      cases h
      exact after_of_runAll (hm.call c trivial hc) hrest

/-- Side A's end, open. -/
def openMachine : Option (ChannelMachine × List Done) := sampleRunOf .a [.confirmFunding 100]

theorem payment_next_ne_zero : (BitVec.ofNat 256 23 != 0) = true := by decide

/-- Side A's payment from there. -/
def paidFrom (m : ChannelMachine) : ChannelMachine × Res ProtocolError UpdateMessage :=
  m.pay 5000 none (sampleSecret 23 payment_next_ne_zero) (sampleContext 101)

/-- The acknowledgement judged to agree the update. -/
def agreesTo (m : ChannelMachine) (ack : AckMessage) (message : UpdateMessage) : Bool :=
  match m.judgeAck ack with
  | .ok (.agree p _) => decide (p.message = message)
  | _ => false

theorem agreesTo_eq_true {m : ChannelMachine} {ack : AckMessage} {message : UpdateMessage}
    (h : agreesTo m ack message = true) :
    ∃ p s, m.judgeAck ack = .ok (.agree p s) ∧ p.message = message := by
  unfold agreesTo at h
  split at h
  · rename_i p s hj
    exact ⟨p, s, hj, of_decide_eq_true h⟩
  · cases h

/-- The state at the number is the payment's, as a test. -/
def madeAt (m : ChannelMachine) (n : ℕ) : Bool :=
  match m.states.lookup (n - 1), m.states.lookup n with
  | some prev, some s => okList (m.nextState prev (.pay 5000 none) m.role 0) == [s]
  | _, _ => false

theorem madeAt_of_made {m : ChannelMachine} {n : ℕ} (h : m.Made n 5000 none) :
    madeAt m n = true := by
  obtain ⟨prev, s, hprev, hs, hmade⟩ := h
  unfold madeAt
  rw [hprev, hs]
  dsimp only
  rw [hmade]
  exact beq_self_eq_true _

/-- Side B's answers to the payment. -/
def paymentAcks : List AckMessage :=
  (lastSent (sampleRunOf .b
    (.confirmFunding 100 :: (lastSent (sampleRunOf .a payCalls)).flatMap answerOf))).filterMap
      fun
      | .ack a => some a
      | _ => none

/-- The payment is refused, and side B's is accepted at its number. -/
def replacedCalls : List Call := refusedCalls.drop 2

set_option maxRecDepth 100000 in
theorem paymentAcks_agree : openMachine.bind (fun r => (okList (paidFrom r.1).2).head?.bind fun u =>
      paymentAcks.head?.map fun a => (agreesTo (paidFrom r.1).1 a u,
        ((paidFrom r.1).1.receiveAck a).1.payFinal u.n, u.n)) = some (true, true, 1) := by
  decide +kernel

set_option maxRecDepth 100000 in
theorem replacedCalls_take : openMachine.bind (fun r => (okList (paidFrom r.1).2).head?.bind fun u =>
      (runAll (paidFrom r.1).1 replacedCalls).map fun q =>
        (q.1.payFinal u.n, madeAt q.1 u.n, u.n)) = some (true, false, 1) := by
  decide +kernel

theorem ok_of_head {α : Type} {x : Res ProtocolError α} {a : α} (h : (okList x).head? = some a) :
    x = .ok a := by
  cases x with
  | ok b =>
    cases h
    rfl
  | err e => cases h
  | panic => cases h

theorem openMachine_run {m : ChannelMachine} {log : List Done} (h : openMachine = some (m, log)) :
    Run (fun _ _ => True) (sampleOpened .a) m log :=
  run_of_sample (fun _ _ _ => trivial) h

/-- The payment is acknowledged, and its waiter answered. -/
theorem pay_final_acked : ∃ m₀ log message m, Run (fun _ _ => True) (sampleOpened .a) m₀ log ∧
    (paidFrom m₀).2 = .ok message ∧ message.n = 1 ∧
    After (ByAck message) (paidFrom m₀).1 m ∧ m.payFinal message.n = true ∧
    m.Made message.n 5000 none := by
  obtain ⟨⟨m₀, log⟩, hopen, h⟩ := Option.bind_eq_some_iff.mp paymentAcks_agree
  obtain ⟨message, hmessage, h⟩ := Option.bind_eq_some_iff.mp h
  obtain ⟨ack, -, h⟩ := Option.map_eq_some_iff.mp h
  simp only [Prod.mk.injEq] at h
  obtain ⟨hagrees, hfinal, hn⟩ := h
  obtain ⟨p, s, hj, hp⟩ := agreesTo_eq_true hagrees
  have hafter : After (ByAck message) (paidFrom m₀).1 ((paidFrom m₀).1.receiveAck ack).1 :=
    After.start.call (.receiveAck ack) (fun _ _ => ⟨ack, p, s, rfl, hj, hp⟩) rfl
  exact ⟨m₀, log, message, _, openMachine_run hopen, ok_of_head hmessage, hn, hafter, hfinal,
    pay_final_made (openMachine_run hopen) (Prod.ext rfl (ok_of_head hmessage)) hafter hfinal⟩

/-- The payment is refused and side B's accepted at its number: the waiter is
answered, and the state is not the payment's. -/
theorem pay_final_unmade : ∃ m₀ log message m, Run (fun _ _ => True) (sampleOpened .a) m₀ log ∧
    (paidFrom m₀).2 = .ok message ∧ message.n = 1 ∧
    After (fun _ _ => True) (paidFrom m₀).1 m ∧ m.payFinal message.n = true ∧
    ¬ m.Made message.n 5000 none := by
  obtain ⟨⟨m₀, log⟩, hopen, h⟩ := Option.bind_eq_some_iff.mp replacedCalls_take
  obtain ⟨message, hmessage, h⟩ := Option.bind_eq_some_iff.mp h
  obtain ⟨⟨m, done⟩, hdone, h⟩ := Option.map_eq_some_iff.mp h
  simp only [Prod.mk.injEq] at h
  obtain ⟨hfinal, hunmade, hn⟩ := h
  refine ⟨m₀, log, message, m, openMachine_run hopen, ok_of_head hmessage, hn,
    after_of_runAll .start hdone, hfinal, fun hmade => ?_⟩
  have := madeAt_of_made hmade
  rw [hunmade] at this
  cases this

end Hitch

end Sidestr
