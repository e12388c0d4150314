/-
# The coins of concurrent payments

A tick offers one list of coins to every burn it proposes a payment for, and
each payment takes the largest of them. Nothing keeps a coin a pending payment
spends out of the next one, so two pending payments spend different coins
exactly as far as what is offered keeps them apart: as long as no proposal
takes a coin that an entry pending at that moment spends, all pending payments
spend different coins, over every run of ticks and events.

Key definitions: `picks`, `Apart`, `TickApart`, `PegoutRun`.
Key theorems: `propose_pending`, `Apart.tick`, `Apart.onEvent`, `pending_apart`.
-/
import Sidestr.Round.PegoutVote

namespace Sidestr

namespace Round

open Method

/-! ### What a payment spends -/

/-- The outpoints a PSBT spends. -/
def Psbt.spends (p : Psbt) : List OutPoint := p.unsignedTx.input.map TxIn.previousOutput

/-- The coins a payment of the burn takes from those offered. -/
def picks [Bitcoin] (fed : Federation) (chainId : Bytes) (burn : Burn) (coins : List PegCoin)
    (feeRate : ℕ) : List OutPoint :=
  match hexDecode burn.script, pegoutMarkerOutput chainId burn.txid with
  | some script, .ok marker =>
    match chooseCoins fed ⟨UInt64.ofNat burn.value, script⟩ marker burn.value feeRate [] 0
        (coins.insertionSort fun a b => coinLe a b) with
    | .ok (chosen, _) => chosen.map PegCoin.outpoint
    | _ => []
  | _, _ => []

theorem spends_of_build [Bitcoin] [PsbtCodec] {fed : Federation} {chainId : Bytes} {burn : Burn}
    {coins : List PegCoin} {feeRate : ℕ} {psbt : Psbt}
    (h : buildPegoutPsbt fed chainId burn coins feeRate = .ok psbt) :
    psbt.spends = picks fed chainId burn coins feeRate := by
  unfold buildPegoutPsbt at h
  obtain ⟨script, hscript, h⟩ := Res.bind_eq_ok.mp h
  obtain ⟨marker, hmarker, h⟩ := Res.bind_eq_ok.mp h
  obtain ⟨⟨chosen, rest⟩, hchosen, h⟩ := Res.bind_eq_ok.mp h
  obtain ⟨_, -, h⟩ := Res.bind_eq_ok.mp h
  cases h
  unfold picks Psbt.spends payoutShape
  rw [Res.okOr_eq_ok.mp hscript, hmarker]
  dsimp only
  rw [hchosen, List.map_map]
  rfl

/-- Different entries spend different coins. -/
def Apart (pending : List (BurnKey × PendingPegout)) : Prop :=
  ∀ e ∈ pending, ∀ e' ∈ pending, e.1 ≠ e'.1 → ∀ o ∈ e.2.psbt.spends, o ∉ e'.2.psbt.spends

instance {pending : List (BurnKey × PendingPegout)} : Decidable (Apart pending) :=
  inferInstanceAs (Decidable (∀ e ∈ pending, ∀ e' ∈ pending, e.1 ≠ e'.1 →
    ∀ o ∈ e.2.psbt.spends, o ∉ e'.2.psbt.spends))

section

variable {S J : Type}

/-- Every entry was there, or is the one payment of this burn. -/
def Adds (key : BurnKey) (tx : Transaction) (r r' : PegoutRound S J) : Prop :=
  ∀ e ∈ r'.pending, (∃ e₀ ∈ r.pending, e₀.1 = e.1 ∧
    e₀.2.psbt.unsignedTx = e.2.psbt.unsignedTx) ∨ (e.1 = key ∧ e.2.psbt.unsignedTx = tx)

/-- Every entry was there. -/
def Keeps (r r' : PegoutRound S J) : Prop :=
  ∀ e ∈ r'.pending, ∃ e₀ ∈ r.pending, e₀.1 = e.1 ∧ e₀.2.psbt.unsignedTx = e.2.psbt.unsignedTx

theorem Keeps.refl (r : PegoutRound S J) : Keeps r r := fun e he => ⟨e, he, rfl, rfl⟩

theorem Keeps.trans (a b c : PegoutRound S J) (h : Keeps a b) (h' : Keeps b c) : Keeps a c := by
  intro e he
  obtain ⟨e₁, he₁, hk, ht⟩ := h' e he
  obtain ⟨e₀, he₀, hk₀, ht₀⟩ := h e₁ he₁
  exact ⟨e₀, he₀, hk₀.trans hk, ht₀.trans ht⟩

theorem Keeps.adds {r r' : PegoutRound S J} (h : Keeps r r') (key : BurnKey) (tx : Transaction) :
    Adds key tx r r' :=
  fun e he => Or.inl (h e he)

theorem Adds.trans {key : BurnKey} {tx : Transaction} (a b c : PegoutRound S J)
    (h : Adds key tx a b) (h' : Adds key tx b c) : Adds key tx a c := by
  intro e he
  rcases h' e he with ⟨e₁, he₁, hk, ht⟩ | hnew
  · rcases h e₁ he₁ with ⟨e₀, he₀, hk₀, ht₀⟩ | ⟨hk₁, ht₁⟩
    · exact Or.inl ⟨e₀, he₀, hk₀.trans hk, ht₀.trans ht⟩
    · exact Or.inr ⟨hk.symm.trans hk₁, ht.symm.trans ht₁⟩
  · exact Or.inr hnew

theorem Keeps.within {key : BurnKey} {tx : Transaction} {α : Type}
    {x : Method PegoutError (PegoutRound S J) α} (h : Within Keeps x) :
    Within (Adds key tx) x :=
  fun r => (h r).adds key tx

theorem Keeps.of_eq {r r' : PegoutRound S J} (h : r'.pending = r.pending) : Keeps r r' :=
  fun e he => ⟨e, h ▸ he, rfl, rfl⟩

theorem Keeps.of_sublist {r r' : PegoutRound S J} (h : ∀ e ∈ r'.pending, e ∈ r.pending) :
    Keeps r r' :=
  fun e he => ⟨e, h e he, rfl, rfl⟩

theorem Apart.keeps {r r' : PegoutRound S J} (h : Apart r.pending) (hk : Keeps r r') :
    Apart r'.pending := by
  intro e he e' he' hne o ho
  obtain ⟨e₀, he₀, hkey, htx⟩ := hk e he
  obtain ⟨e₁, he₁, hkey', htx'⟩ := hk e' he'
  unfold Psbt.spends at ho ⊢
  rw [← htx] at ho
  rw [← htx']
  exact h e₀ he₀ e₁ he₁ (by rw [hkey, hkey']; exact hne) o ho

/-- A payment that spends nothing a pending one does goes beside them. -/
theorem Apart.adds {key : BurnKey} {tx : Transaction} {r r' : PegoutRound S J}
    (h : Apart r.pending) (ha : Adds key tx r r')
    (hfree : ∀ o ∈ tx.input.map TxIn.previousOutput, ∀ e ∈ r.pending, o ∉ e.2.psbt.spends) :
    Apart r'.pending := by
  intro e he e' he' hne o ho
  unfold Psbt.spends at ho ⊢
  rcases ha e he with ⟨e₀, he₀, hkey, htx⟩ | ⟨hkey, htx⟩ <;>
    rcases ha e' he' with ⟨e₁, he₁, hkey', htx'⟩ | ⟨hkey', htx'⟩
  · rw [← htx] at ho
    rw [← htx']
    exact h e₀ he₀ e₁ he₁ (by rw [hkey, hkey']; exact hne) o ho
  · rw [← htx] at ho
    rw [htx']
    intro ho'
    exact hfree o ho' e₀ he₀ ho
  · rw [htx] at ho
    rw [← htx']
    exact hfree o ho e₁ he₁
  · exact absurd (hkey.trans hkey'.symm) hne

/-! ### What each call does to the pending payments -/

theorem keeps_entitled (signer : Bytes) (height time now : ℕ) :
    Within Keeps (PegoutRound.entitled signer height time now :
      Method PegoutError (PegoutRound S J) Bool) := by
  intro r
  obtain ⟨seen, h⟩ := entitled_fst signer height time now r
  rw [h]
  exact Keeps.of_eq rfl

variable [RoundSigner S] [VoteJournal J] [Bitcoin]

omit [VoteJournal J] [Bitcoin] in
theorem keeps_signEvent (ev : Option UnsignedEvent) :
    Within Keeps (PegoutRound.signEvent ev : Method PegoutError (PegoutRound S J) Event) := by
  intro r
  unfold PegoutRound.signEvent
  cases ev with
  | none => exact Keeps.refl r
  | some ev => exact Keeps.of_eq rfl

omit [RoundSigner S] in
theorem keeps_journalRecord (key : BurnKey) (role : VoteRole) (subject : Bytes) (psbt : Psbt)
    (time : ℕ) (signatures : Option (List Bytes)) :
    Within Keeps (PegoutRound.journalRecord key role subject psbt time signatures :
      Method PegoutError (PegoutRound S J) Unit) :=
  fun _ => Keeps.of_eq rfl

omit [RoundSigner S] in
theorem keeps_intent (key : BurnKey) (role : VoteRole) (subject : Bytes) (psbt : Psbt) (now : ℕ) :
    Within Keeps (PegoutRound.intent key role subject psbt now :
      Method PegoutError (PegoutRound S J) Unit) := by
  refine Within.bind Keeps.trans (keeps_journalRecord _ _ _ _ _ _) fun _ => ?_
  exact fun r => Keeps.of_eq rfl

variable [PsbtCodec]

omit [VoteJournal J] in
theorem keeps_sign (key : BurnKey) (psbt : Psbt) :
    Within Keeps (PegoutRound.sign key psbt : Method PegoutError (PegoutRound S J) Psbt) :=
  fun _ => Keeps.of_eq rfl

theorem keeps_signAndRecord (key : BurnKey) (role : VoteRole) (subject : Bytes) (psbt : Psbt)
    (now : ℕ) : Within Keeps (PegoutRound.signAndRecord key role subject psbt now :
      Method PegoutError (PegoutRound S J) Psbt) := by
  refine Within.bind Keeps.trans (keeps_sign key psbt) fun psbt' => ?_
  refine Within.bind Keeps.trans (Within.get Keeps.refl) fun r => ?_
  refine Within.bind Keeps.trans (keeps_journalRecord _ _ _ _ _ _) fun _ => ?_
  exact Within.pure Keeps.refl _

theorem keeps_authorise (key : BurnKey) (role : VoteRole) (subject : Bytes) (psbt : Psbt)
    (now : ℕ) : Within Keeps (PegoutRound.authorise key role subject psbt now :
      Method PegoutError (PegoutRound S J) (Except (Bool × PegoutError) Psbt)) := by
  refine Within.bind Keeps.trans (Within.attempt (keeps_intent _ _ _ _ _)) fun x => ?_
  cases x with
  | error e => exact Within.pure Keeps.refl _
  | ok u =>
    refine Within.bind Keeps.trans (Within.attempt (keeps_signAndRecord _ _ _ _ _)) fun y => ?_
    cases y with
    | error e => exact Within.pure Keeps.refl _
    | ok psbt => exact Within.pure Keeps.refl _

theorem keeps_coSign (now : ℕ) (ev : Event) (key : BurnKey) (psbt : Psbt) :
    Within Keeps (PegoutRound.coSign now ev key psbt :
      Method PegoutError (PegoutRound S J) (List PegoutAction)) := by
  refine Within.bind Keeps.trans (keeps_authorise _ _ _ _ _) fun x => ?_
  rcases x with ⟨asked, e⟩ | psbt'
  · cases asked <;> exact Within.pure Keeps.refl _
  · refine Within.bind Keeps.trans (Within.get Keeps.refl) fun r => ?_
    refine Within.bind Keeps.trans (Within.attempt (keeps_signEvent _)) fun y => ?_
    cases y with
    | error e => exact Within.pure Keeps.refl _
    | ok answer => exact Within.pure Keeps.refl _

theorem keeps_judgeProposal (now : ℕ) (ev : Event) (p : PegoutPsbt) (b : Burn) (author : Bytes) :
    Within Keeps (PegoutRound.judgeProposal now ev p b author :
      Method PegoutError (PegoutRound S J) (List PegoutAction)) := by
  refine Within.bind Keeps.trans (keeps_entitled _ _ _ _) fun theirs => ?_
  refine Within.bind Keeps.trans (Within.get Keeps.refl) fun r => ?_
  split_ifs
  · exact Within.pure Keeps.refl _
  · cases PsbtCodec.psbtFromText p.psbt with
    | none => exact Within.pure Keeps.refl _
    | some psbt =>
      dsimp only
      cases checkPegoutPsbt psbt r.fed r.chainId b r.cfg.maxFee with
      | some why => exact Within.pure Keeps.refl _
      | none => exact keeps_coSign _ _ _ _

theorem keeps_onProposal (now : ℕ) (ev : Event) (burns : List Burn) :
    Within Keeps (PegoutRound.onProposal now ev burns :
      Method PegoutError (PegoutRound S J) (List PegoutAction)) := by
  refine Within.bind Keeps.trans (Within.get Keeps.refl) fun r => ?_
  cases parsePegoutPsbt ev r.chainId with
  | none => exact Within.pure Keeps.refl _
  | some p =>
    cases pubkeyFromHex ev.pubkey with
    | none => exact Within.pure Keeps.refl _
    | some author =>
      dsimp only
      by_cases hauthor : ev.pubkey = r.meHex ∨ author ∉ r.fed.signers
      · rw [if_pos hauthor]
        exact Within.pure Keeps.refl _
      · rw [if_neg hauthor]
        cases burns.find? fun b => burnKey b == p.burn with
        | none => exact Within.pure Keeps.refl _
        | some b =>
          dsimp only
          split_ifs
          · exact Within.pure Keeps.refl _
          · exact Within.pure Keeps.refl _
          · exact keeps_judgeProposal _ _ _ _ _

omit [RoundSigner S] [VoteJournal J] [PsbtCodec] in
theorem keeps_maybeFinish (now : ℕ) (key : BurnKey) :
    Within Keeps (PegoutRound.maybeFinish now key :
      Method PegoutError (PegoutRound S J) (List PegoutAction)) := by
  intro r
  unfold PegoutRound.maybeFinish
  rw [get_bind]
  cases r.pending.lookup key with
  | none => exact Keeps.refl r
  | some p =>
    dsimp only
    split_ifs with hfew
    · exact Keeps.refl r
    · cases combinePegoutPsbts (p.sigs.map Prod.snd) with
      | ok combined =>
        dsimp only
        cases finalizePegoutPsbt r.fed combined with
        | none => exact Keeps.refl r
        | some tx => exact Keeps.of_sublist fun e he => (List.mem_filter.mp he).1
      | err e => exact Keeps.refl r
      | panic => exact Keeps.refl r

omit [Bitcoin] [PsbtCodec] [RoundSigner S] [VoteJournal J] in
theorem mem_of_lookup {key : BurnKey} {p : PendingPegout} :
    ∀ {l : List (BurnKey × PendingPegout)}, l.lookup key = some p → (key, p) ∈ l
  | [], h => by cases h
  | (k, q) :: l, h => by
    rw [List.lookup_cons] at h
    by_cases hk : key = k
    · subst hk
      rw [beq_self_eq_true] at h
      cases h
      exact List.mem_cons_self
    · rw [beq_eq_false_iff_ne.mpr hk] at h
      exact List.mem_cons_of_mem _ (mem_of_lookup h)

omit [RoundSigner S] [VoteJournal J] [PsbtCodec] in
/-- A counted answer changes no transaction. -/
theorem keeps_count {now : ℕ} {ev : Event} {key : BurnKey} {mine : PendingPegout} {theirs : Psbt}
    {r : PegoutRound S J} (h : (key, mine) ∈ r.pending) :
    Keeps r (PegoutRound.count now ev key mine theirs r).1 := by
  have hrest : Within Keeps (do
      let r ← get
      let finished ← PegoutRound.maybeFinish now key
      pure (.log (.signatures (PegoutRound.insertEntry ev.pubkey theirs mine.sigs).length
        r.fed.threshold key) :: finished) :
      Method PegoutError (PegoutRound S J) (List PegoutAction)) := by
    refine Within.bind Keeps.trans (Within.get Keeps.refl) fun r => ?_
    exact Within.bind Keeps.trans (keeps_maybeFinish now key) fun _ => Within.pure Keeps.refl _
  unfold PegoutRound.count
  rw [modify_bind]
  refine Keeps.trans r _ _ (fun e he => ?_) (hrest _)
  rcases List.mem_cons.mp he with rfl | he
  · exact ⟨_, h, rfl, rfl⟩
  · exact ⟨e, (List.mem_filter.mp he).1, rfl, rfl⟩

omit [RoundSigner S] [VoteJournal J] in
theorem keeps_onSigned (now : ℕ) (ev : Event) :
    Within Keeps (PegoutRound.onSigned now ev :
      Method PegoutError (PegoutRound S J) (List PegoutAction)) := by
  intro r
  unfold PegoutRound.onSigned
  rw [get_bind]
  cases parsePegoutSigned ev r.chainId with
  | none => exact Keeps.refl r
  | some p =>
    dsimp only
    cases hmine : r.pending.lookup p.burn with
    | none => exact Keeps.refl r
    | some mine =>
      cases pubkeyFromHex ev.pubkey with
      | none => exact Keeps.refl r
      | some author =>
        dsimp only
        by_cases hauthor : p.request ≠ mine.id ∨ ev.pubkey = r.meHex ∨ author ∉ r.fed.signers
        · rw [if_pos hauthor]
          exact Keeps.refl r
        · rw [if_neg hauthor]
          cases PsbtCodec.psbtFromText p.psbt with
          | none => exact Keeps.refl r
          | some theirs =>
            dsimp only
            cases PegoutRound.verifyAnswer r.fed mine.psbt theirs author with
            | err e => exact Keeps.refl r
            | panic => exact Keeps.refl r
            | ok u =>
              have hmem := mem_of_lookup hmine
              exact keeps_count hmem

/-- The payments pending after a proposal: those before it, and the one it builds. -/
theorem propose_adds {now : ℕ} {b : Burn} {coins : List PegCoin} {r : PegoutRound S J}
    {built : Psbt} (hbuild : buildPegoutPsbt r.fed r.chainId b coins r.cfg.feeRate = .ok built) :
    Adds (burnKey b) built.unsignedTx r (PegoutRound.propose now b coins r).1 := by
  unfold PegoutRound.propose
  rw [get_bind, hbuild, ofRes_ok_bind]
  refine Within.bind Adds.trans (Keeps.within (keeps_intent _ _ _ _ _)) (fun _ => ?_) r
  refine Within.bind_ok Adds.trans (Keeps.within (keeps_sign _ _)) fun s s₁ psbt hsign => ?_
  have htx : psbt.unsignedTx = built.unsignedTx :=
    (signPegoutPsbt_cases (Prod.eta _).symm).2 psbt (congrArg Prod.snd hsign)
  refine Within.bind Adds.trans (Keeps.within (keeps_signEvent _)) (fun ev => ?_) s₁
  refine Within.bind Adds.trans (Keeps.within (Within.get Keeps.refl)) fun r₁ => ?_
  refine Within.bind Adds.trans (Keeps.within (keeps_journalRecord _ _ _ _ _ _)) fun _ => ?_
  refine Within.bind Adds.trans (fun r₂ e he => ?_) fun _ => ?_
  · rcases List.mem_cons.mp he with rfl | he
    · exact Or.inr ⟨rfl, htx⟩
    · exact Or.inl ⟨e, (List.mem_filter.mp he).1, rfl, rfl⟩
  · refine Within.bind Adds.trans (Keeps.within (keeps_maybeFinish _ _)) fun finished => ?_
    exact Keeps.within (Within.pure Keeps.refl _)

/-! ### Runs -/

/-- A proposal of the burn takes no coin that a pending payment spends. -/
def PicksFree (r : PegoutRound S J) (b : Burn) (coins : List PegCoin) : Prop :=
  ∀ o ∈ picks r.fed r.chainId b coins r.cfg.feeRate, ∀ e ∈ r.pending, o ∉ e.2.psbt.spends

theorem Apart.propose {now : ℕ} {b : Burn} {coins : List PegCoin} {r : PegoutRound S J}
    (h : Apart r.pending) (hfree : PicksFree r b coins) :
    Apart (PegoutRound.propose now b coins r).1.pending := by
  cases hbuild : buildPegoutPsbt r.fed r.chainId b coins r.cfg.feeRate with
  | ok built =>
    refine h.adds (propose_adds hbuild) fun o ho => hfree o ?_
    rw [← spends_of_build hbuild]
    exact ho
  | err e =>
    unfold PegoutRound.propose
    rw [get_bind, hbuild]
    exact h
  | panic =>
    unfold PegoutRound.propose
    rw [get_bind, hbuild]
    exact h

/-- At each proposal of a tick, the coins it takes are free. -/
def TickApart (now : ℕ) (coins : List PegCoin) : List Burn → PegoutRound S J → Prop
  | [], _ => True
  | b :: burns, r =>
    (r.isOpen now (burnKey b) = true → (PegoutRound.entitled r.me b.height now now r).2 = .ok true →
      PicksFree r b coins) ∧
    TickApart now coins burns (PegoutRound.tickBurn now coins b r).1

/-- Whether a tick's proposals take free coins, decided burn by burn. -/
def decideTickApart (now : ℕ) (coins : List PegCoin) : ∀ (burns : List Burn)
    (r : PegoutRound S J), Decidable (TickApart now coins burns r)
  | [], _ => .isTrue trivial
  | b :: burns, r =>
    let _ : Decidable (PicksFree r b coins) := inferInstanceAs (Decidable
      (∀ o ∈ picks r.fed r.chainId b coins r.cfg.feeRate, ∀ e ∈ r.pending, o ∉ e.2.psbt.spends))
    let _ := decideTickApart now coins burns (PegoutRound.tickBurn now coins b r).1
    inferInstanceAs (Decidable (_ ∧ _))

instance {now : ℕ} {coins : List PegCoin} {burns : List Burn} {r : PegoutRound S J} :
    Decidable (TickApart now coins burns r) :=
  decideTickApart now coins burns r

theorem Apart.tickBurn {now : ℕ} {coins : List PegCoin} {b : Burn} {r : PegoutRound S J}
    (h : Apart r.pending) (hfree : r.isOpen now (burnKey b) = true →
      (PegoutRound.entitled r.me b.height now now r).2 = .ok true → PicksFree r b coins) :
    Apart (PegoutRound.tickBurn now coins b r).1.pending := by
  rcases hrun : PegoutRound.tickBurn now coins b r with ⟨r', res⟩
  unfold PegoutRound.tickBurn at hrun
  rw [get_bind] at hrun
  split_ifs at hrun with hopen
  · cases hrun
    exact h
  · obtain ⟨seen, hseen⟩ := entitled_fst r.me b.height now now r
    have hopen : r.isOpen now (burnKey b) = true := by simpa using hopen
    rcases bind_cases hrun with ⟨r₁, mine, h₁, h'⟩ | ⟨e, h₁, -⟩ | ⟨h₁, -⟩
    · rw [h₁] at hseen
      cases hseen
      split_ifs at h' with hmine
      · cases h'
        exact h
      · have hmine : mine = true := by simpa using hmine
        have hpicks := hfree hopen (by rw [h₁, hmine])
        have hpropose : Apart
            (PegoutRound.propose now b coins { r with seen := seen }).1.pending :=
          Apart.propose h hpicks
        rcases attempt_bind_cases h' with ⟨r₂, actions, h₂, h'⟩ | ⟨r₂, e, h₂, h'⟩ | ⟨h₂, -⟩
        · rw [h₂] at hpropose
          cases h'
          exact hpropose
        · rw [h₂] at hpropose
          cases h'
          exact hpropose
        · rw [h₂] at hpropose
          exact hpropose
    · rw [h₁] at hseen
      cases hseen
      exact h
    · rw [h₁] at hseen
      cases hseen
      exact h

theorem Apart.tickBurns {now : ℕ} {coins : List PegCoin} : ∀ {burns : List Burn}
    {r : PegoutRound S J}, Apart r.pending → TickApart now coins burns r →
      Apart (PegoutRound.tickBurns now coins burns r).1.pending
  | [], _, h, _ => h
  | b :: burns, r, h, ha => by
    rcases hrun : PegoutRound.tickBurns now coins (b :: burns) r with ⟨r', res⟩
    unfold PegoutRound.tickBurns at hrun
    have hburn := h.tickBurn ha.1
    have hnext := ha.2
    rcases bind_cases hrun with ⟨r₁, actions, h₁, h'⟩ | ⟨e, h₁, -⟩ | ⟨h₁, -⟩
    · rw [h₁] at hburn hnext
      have hrest := Apart.tickBurns hburn hnext
      rcases hrun' : PegoutRound.tickBurns now coins burns r₁ with ⟨r₂, res₂⟩
      rw [hrun'] at hrest
      have hkeep : ∀ rest (s : PegoutRound S J),
          ((pure (actions ++ rest) : Method PegoutError (PegoutRound S J) _) s).1 = s :=
        fun _ _ => rfl
      rw [show r' = _ from (congrArg Prod.fst h').symm, bind_fst hrun' hkeep]
      exact hrest
    · rw [h₁] at hburn
      exact hburn
    · rw [h₁] at hburn
      exact hburn

theorem Apart.tick {now : ℕ} {burns : List Burn} {coins : List PegCoin} {r : PegoutRound S J}
    (h : Apart r.pending) (ha : TickApart now coins burns r) :
    Apart (PegoutRound.tick now burns coins r).1.pending := by
  rcases hrun : PegoutRound.tick now burns coins r with ⟨r', res⟩
  unfold PegoutRound.tick at hrun
  have hburns := h.tickBurns ha
  rcases bind_cases hrun with ⟨r₁, actions, h₁, h'⟩ | ⟨e, h₁, -⟩ | ⟨h₁, -⟩
  · rw [h₁] at hburns
    cases h'
    exact hburns.keeps (Keeps.of_sublist fun e he => (List.mem_filter.mp he).1)
  · rw [h₁] at hburns
    exact hburns
  · rw [h₁] at hburns
    exact hburns

variable [EventCodec]

theorem keeps_onEvent (now : ℕ) (ev : Event) (burns : List Burn) :
    Within Keeps (PegoutRound.onEvent now ev burns :
      Method PegoutError (PegoutRound S J) (List PegoutAction)) := by
  intro r
  unfold PegoutRound.onEvent
  rw [get_bind]
  by_cases hpsbt : ev.kind = kindPegoutPsbt
  · rw [if_pos hpsbt, modify_bind]
    split_ifs
    · exact keeps_onProposal now ev burns { r with psbts := (r.psbts.accept ev).1 }
    · exact Keeps.of_eq rfl
  · rw [if_neg hpsbt]
    by_cases hsigned : ev.kind = kindPegoutSigned
    · rw [if_pos hsigned, modify_bind]
      split_ifs
      · exact keeps_onSigned now ev { r with signed := (r.signed.accept ev).1 }
      · exact Keeps.of_eq rfl
    · rw [if_neg hsigned]
      exact Keeps.refl r

/-- The runs of one signer's round whose proposals take free coins: from a
start, ticks on any burns and coins, events from anyone, payments recorded. -/
inductive PegoutRun (fed : Federation) (chainId : Bytes) : PegoutRound S J → Prop
  | new {c j cfg ledger r} (h : PegoutRound.new fed chainId c j cfg ledger = some r) :
      PegoutRun fed chainId r
  | tick {r now burns coins} (h : PegoutRun fed chainId r) (ha : TickApart now coins burns r) :
      PegoutRun fed chainId (PegoutRound.tick now burns coins r).1
  | event {r} (now ev burns) (h : PegoutRun fed chainId r) :
      PegoutRun fed chainId (PegoutRound.onEvent now ev burns r).1
  | paid {r} (burn record) (h : PegoutRun fed chainId r) :
      PegoutRun fed chainId (PegoutRound.markPaid burn record r)

/-- **The pending payments spend different coins**, in every state of every run
in which each proposal takes coins that no payment pending then spends. -/
theorem pending_apart {fed : Federation} {chainId : Bytes} {r : PegoutRound S J}
    (h : PegoutRun fed chainId r) : Apart r.pending := by
  induction h with
  | new h =>
    unfold PegoutRound.new at h
    dsimp only at h
    split_ifs at h
    obtain ⟨es, -, rfl⟩ := Option.map_eq_some_iff.mp h
    exact List.forall_mem_nil _
  | tick _ ha ih => exact ih.tick ha
  | event now ev burns _ ih => exact ih.keeps (keeps_onEvent now ev burns _)
  | paid burn record _ ih => exact ih

end

/-! ### Two burns at once -/

section

attribute [local instance] sampleBitcoin sampleEventCodec keySigner listJournal

/-- A second burn, of the same height. -/
def otherBurn : Burn := ⟨8, 0, ascii ['5', '2', '5', '2'], 30000, 3⟩

/-- The first signer, just started. -/
def sampleStart : Option (PegoutRound SecretKey (List VoteEntry)) :=
  PegoutRound.new sampleSigners (ascii ['d']) ⟨1, []⟩ [] sampleConfig ⟨∅⟩

set_option maxRecDepth 100000 in
/-- Two burns paid in two ticks, each from the coin offered then, are apart. -/
theorem pending_apart_sample :
    let _ := samplePsbtCodec []
    ∃ r : PegoutRound SecretKey (List VoteEntry),
      (sampleStart.map fun r => (PegoutRound.tick 6000 [otherBurn] [⟨⟨10, 0⟩, 1000000⟩]
        (PegoutRound.tick 5000 [sampleBurn] [⟨⟨9, 0⟩, 1000000⟩] r).1).1) = some r ∧
      r.pending.length = 2 ∧ Apart r.pending := by
  intro _
  have hrun : (sampleStart.map fun r =>
      let r₁ := (PegoutRound.tick 5000 [sampleBurn] [⟨⟨9, 0⟩, 1000000⟩] r).1
      let r₂ := (PegoutRound.tick 6000 [otherBurn] [⟨⟨10, 0⟩, 1000000⟩] r₁).1
      (decide (TickApart 5000 [⟨⟨9, 0⟩, 1000000⟩] [sampleBurn] r),
        decide (TickApart 6000 [⟨⟨10, 0⟩, 1000000⟩] [otherBurn] r₁), r₂.pending.length)) =
      some (true, true, 2) := by decide +kernel
  obtain ⟨r, hr, h⟩ := Option.map_eq_some_iff.mp hrun
  obtain ⟨h₁, h⟩ := Prod.mk.inj h
  obtain ⟨h₂, hlen⟩ := Prod.mk.inj h
  refine ⟨_, by rw [hr]; rfl, hlen, ?_⟩
  have hstart : PegoutRun sampleSigners (ascii ['d']) r := .new hr
  exact pending_apart (.tick (.tick hstart (of_decide_eq_true h₁)) (of_decide_eq_true h₂))

set_option maxRecDepth 100000 in
/-- **Two payments of one coin.** A tick with two burns and one coin proposes a
payment of each from it, and both are pending. -/
theorem tick_spends_twice :
    let _ := samplePsbtCodec []
    (sampleStart.map fun r =>
      let after := (PegoutRound.tick 5000 [sampleBurn, otherBurn] [⟨⟨9, 0⟩, 1000000⟩] r).1
      (after.pending.map fun e => (e.1, e.2.psbt.spends), decide (Apart after.pending))) =
      some ([(burnKey otherBurn, [⟨9, 0⟩]), (burnKey sampleBurn, [⟨9, 0⟩])], false) := by
  decide +kernel

end

end Round

end Sidestr
