/-
# One payment for a burn

A burn is authorised by one guard on both paths. With re-signing off it is
voted for at most once: an intent for it is in the journal, and the guard has
it, before the custody key is asked, and neither is ever taken back; a signer
that restarts loads the guard from the journal. So each signer gives, over all
its restarts, signatures for one unsigned transaction of each burn, and no two
transactions of a burn gather a majority of the signers.

What the journal is assumed to do is to keep what it has said it recorded
(`Durable`); it may fail at any time, and hold more than it has said.

Key definitions: `Durable`, `Safe`, `SignerStep`, `FederationRun`.
Key theorems: `Safe.tick`, `Safe.onEvent`, `FederationRun.safe`, `burn_paid_once`.
-/
import Sidestr.Lib.Vote
import Sidestr.Round.Sample

namespace Sidestr

namespace Round

open Method Vote

/-- A journal keeps what it has said it recorded. -/
structure Durable {J : Type} [VoteJournal J] (held : J → VoteEntry → Prop) : Prop where
  keeps : ∀ j e e', held j e' → held (VoteJournal.record j e).1 e'
  wrote : ∀ j e, (VoteJournal.record j e).2 = true → held (VoteJournal.record j e).1 e
  reads : ∀ j es, VoteJournal.entries j = some es → ∀ e, held j e → e ∈ es

/-- The payments the custody key has signed an input of. -/
def Custody.votes {S : Type} (c : Custody S) : List (BurnKey × Transaction) :=
  c.signed.map fun e => (e.burn, e.tx)

/-! ### What a call signs -/

section

variable {S J : Type} {held : J → VoteEntry → Prop}

/-- A call takes nothing back from the guard and the journal. -/
structure Kept (held : J → VoteEntry → Prop) (r r' : PegoutRound S J) : Prop where
  authorised : ∀ k, k ∈ r.authorised → k ∈ r'.authorised
  journal : ∀ e, held r.journal e → held r'.journal e
  cfg : r'.cfg = r.cfg

/-- A call gives no signature. -/
structure Calm (held : J → VoteEntry → Prop) (r r' : PegoutRound S J) : Prop
    extends Kept held r r' where
  votes : r'.custody.votes = r.custody.votes

/-- A call gives signatures for one transaction of one burn at most. -/
structure Signing (held : J → VoteEntry → Prop) (key : BurnKey) (tx : Transaction)
    (r r' : PegoutRound S J) : Prop extends Kept held r r' where
  signed : ∃ new, r'.custody.votes = new ++ r.custody.votes ∧ ∀ v ∈ new, v = (key, tx)

theorem Kept.trans {a b c : PegoutRound S J} (h : Kept held a b) (h' : Kept held b c) :
    Kept held a c :=
  ⟨fun k hk => h'.authorised k (h.authorised k hk), fun e he => h'.journal e (h.journal e he),
    h'.cfg.trans h.cfg⟩

theorem Calm.refl (r : PegoutRound S J) : Calm held r r :=
  ⟨⟨fun _ h => h, fun _ h => h, rfl⟩, rfl⟩

theorem Calm.trans (a b c : PegoutRound S J) (h : Calm held a b) (h' : Calm held b c) :
    Calm held a c :=
  ⟨h.toKept.trans h'.toKept, h'.votes.trans h.votes⟩

theorem Calm.signing {r r' : PegoutRound S J} (h : Calm held r r') (key : BurnKey)
    (tx : Transaction) : Signing held key tx r r' :=
  ⟨h.toKept, [], h.votes, List.forall_mem_nil _⟩

theorem Signing.trans {key : BurnKey} {tx : Transaction} (a b c : PegoutRound S J)
    (h : Signing held key tx a b) (h' : Signing held key tx b c) : Signing held key tx a c := by
  obtain ⟨new, hnew, hall⟩ := h.signed
  obtain ⟨new', hnew', hall'⟩ := h'.signed
  refine ⟨h.toKept.trans h'.toKept, new' ++ new, ?_, ?_⟩
  · rw [hnew', hnew, List.append_assoc]
  · intro v hv
    rcases List.mem_append.mp hv with hv | hv
    · exact hall' v hv
    · exact hall v hv

theorem Calm.within {key : BurnKey} {tx : Transaction} {α : Type}
    {x : Method PegoutError (PegoutRound S J) α} (h : Within (Calm held) x) :
    Within (Signing held key tx) x :=
  fun r => (h r).signing key tx

/-- Whether the guard has a burn, in memory and in the journal. -/
def Guard (held : J → VoteEntry → Prop) (r : PegoutRound S J) (key : BurnKey) : Prop :=
  key ∈ r.authorised ∧ ∃ e, held r.journal e ∧ e.scope = .burn key

theorem Kept.guard {r r' : PegoutRound S J} (h : Kept held r r') {k : BurnKey}
    (hk : Guard held r k) : Guard held r' k := by
  obtain ⟨ha, e, he, hs⟩ := hk
  exact ⟨h.authorised k ha, e, h.journal e he, hs⟩

/-- A signer that does not re-sign, with the burns it has signed for in its guard. -/
structure Safe (held : J → VoteEntry → Prop) (r : PegoutRound S J) : Prop where
  guarded : Guarded (Guard held r) r.custody.votes
  resign : r.cfg.resignAfter = none

theorem Safe.calm {r r' : PegoutRound S J} (hs : Safe held r) (h : Calm held r r') :
    Safe held r' := by
  refine ⟨?_, ?_⟩
  · rw [h.votes]
    exact hs.guarded.mono fun k hk => h.guard hk
  · rw [h.cfg]
    exact hs.resign

/-- A burn the guard did not have is put into it, and then signed for. -/
theorem Safe.signing {key : BurnKey} {tx : Transaction} {r r₁ r' : PegoutRound S J}
    (hs : Safe held r) (hfresh : key ∉ r.authorised) (hcalm : Calm held r r₁)
    (hguard : Guard held r₁ key) (h : Signing held key tx r₁ r') : Safe held r' := by
  obtain ⟨new, hnew, hall⟩ := h.signed
  refine ⟨?_, ?_⟩
  · rw [hnew, hcalm.votes]
    refine hs.guarded.vote (k := key) (a := tx) (fun hk => hfresh hk.1) ?_ hall
      fun _ => h.guard hguard
    intro k hk
    exact h.guard (hcalm.guard hk)
  · rw [h.cfg, hcalm.cfg]
    exact hs.resign

/-! ### What each part of a call does -/

variable [RoundSigner S] [VoteJournal J]

omit [RoundSigner S] [VoteJournal J] in
/-- Whether a signer is entitled is answered by remembering when the burn's
height was first seen, and nothing else. -/
theorem entitled_fst (signer : Bytes) (height time now : ℕ) (r : PegoutRound S J) :
    ∃ seen, (PegoutRound.entitled signer height time now r).1 = { r with seen := seen } := by
  unfold PegoutRound.entitled
  rw [get_bind]
  cases r.fed.signers.idxOf? signer with
  | none => exact ⟨r.seen, rfl⟩
  | some slot => exact ⟨_, rfl⟩

omit [RoundSigner S] [VoteJournal J] in
theorem calm_entitled (signer : Bytes) (height time now : ℕ) :
    Within (Calm held) (PegoutRound.entitled signer height time now :
      Method PegoutError (PegoutRound S J) Bool) := by
  intro r
  obtain ⟨seen, h⟩ := entitled_fst signer height time now r
  rw [h]
  exact ⟨⟨fun _ h => h, fun _ h => h, rfl⟩, rfl⟩

variable [Bitcoin]

omit [VoteJournal J] [Bitcoin] in
theorem calm_signEvent (ev : Option UnsignedEvent) :
    Within (Calm held) (PegoutRound.signEvent ev :
      Method PegoutError (PegoutRound S J) Event) := by
  intro r
  unfold PegoutRound.signEvent
  cases ev with
  | none => exact Calm.refl r
  | some ev => exact ⟨⟨fun _ h => h, fun _ h => h, rfl⟩, rfl⟩

omit [RoundSigner S] in
theorem calm_journalRecord (hd : Durable held) (key : BurnKey) (role : VoteRole) (subject : Bytes)
    (psbt : Psbt) (time : ℕ) (signatures : Option (List Bytes)) :
    Within (Calm held) (PegoutRound.journalRecord key role subject psbt time signatures :
      Method PegoutError (PegoutRound S J) Unit) :=
  fun _ => ⟨⟨fun _ h => h, fun e he => hd.keeps _ _ e he, rfl⟩, rfl⟩

omit [RoundSigner S] in
/-- A record that returns is in the journal. -/
theorem journalRecord_ok (hd : Durable held) {key : BurnKey} {role : VoteRole} {subject : Bytes}
    {psbt : Psbt} {time : ℕ} {signatures : Option (List Bytes)} {r r' : PegoutRound S J}
    (h : PegoutRound.journalRecord key role subject psbt time signatures r = (r', .ok ())) :
    ∃ e, held r'.journal e ∧ e.scope = .burn key := by
  have hres := congrArg Prod.snd h
  have hround := congrArg Prod.fst h
  unfold PegoutRound.journalRecord at hres hround
  dsimp only at hres hround
  rw [← hround]
  refine ⟨_, hd.wrote _ _ ?_, rfl⟩
  by_contra hno
  rw [if_neg hno] at hres
  cases hres

omit [RoundSigner S] in
/-- An intent gives no signature, and when it returns the guard has the burn. -/
theorem intent_cases (hd : Durable held) {key : BurnKey} {role : VoteRole} {subject : Bytes}
    {psbt : Psbt} {now : ℕ} {r r' : PegoutRound S J} {res : Res PegoutError Unit}
    (h : PegoutRound.intent key role subject psbt now r = (r', res)) :
    Calm held r r' ∧ (res = .ok () → Guard held r' key) := by
  unfold PegoutRound.intent at h
  rcases bind_cases h with ⟨r₁, ⟨⟩, h₁, h⟩ | ⟨e, h₁, rfl⟩ | ⟨h₁, rfl⟩
  · have hcalm := calm_journalRecord hd key role subject psbt now none r
    rw [h₁] at hcalm
    cases h
    refine ⟨Calm.trans _ _ _ hcalm ⟨⟨?_, fun _ he => he, rfl⟩, rfl⟩, fun _ => ⟨?_, ?_⟩⟩
    · intro k hk
      exact Finmap.mem_insert.mpr (Or.inr hk)
    · exact Finmap.mem_insert.mpr (Or.inl rfl)
    · have hheld := journalRecord_ok hd h₁
      exact hheld
  · have hcalm := calm_journalRecord hd key role subject psbt now none r
    rw [h₁] at hcalm
    exact ⟨hcalm, fun h => by cases h⟩
  · have hcalm := calm_journalRecord hd key role subject psbt now none r
    rw [h₁] at hcalm
    exact ⟨hcalm, fun h => by cases h⟩

variable [PsbtCodec]

/-- Signing one input gives at most its signature, and changes no transaction. -/
theorem signInput_cases {fed : Federation} {chainId : Bytes} {burn : BurnKey}
    {prevouts : List TxOut} {i : ℕ} {c c' : Custody S} {psbt : Psbt} {res : Res PegoutError Psbt}
    (h : signInput fed chainId burn prevouts i c psbt = (c', res)) :
    (∃ new, c'.votes = new ++ c.votes ∧ ∀ v ∈ new, v = (burn, psbt.unsignedTx)) ∧
      ∀ psbt', res = .ok psbt' → psbt'.unsignedTx = psbt.unsignedTx := by
  unfold signInput at h
  split at h
  · cases h
    exact ⟨⟨[], rfl, List.forall_mem_nil _⟩, fun psbt' h => by cases h⟩
  · dsimp only at h
    split at h
    · cases h
      exact ⟨⟨[], rfl, List.forall_mem_nil _⟩, fun psbt' h => by cases h⟩
    · cases h
      refine ⟨⟨[(burn, psbt.unsignedTx)], rfl, ?_⟩, fun psbt' h => ?_⟩
      · intro v hv
        exact List.mem_singleton.mp hv
      · cases h
        rfl

theorem signInputs_cases {fed : Federation} {chainId : Bytes} {burn : BurnKey}
    {prevouts : List TxOut} : ∀ {is : List ℕ} {c c' : Custody S} {psbt : Psbt}
      {res : Res PegoutError Psbt},
    signInputs fed chainId burn prevouts is c psbt = (c', res) →
    (∃ new, c'.votes = new ++ c.votes ∧ ∀ v ∈ new, v = (burn, psbt.unsignedTx)) ∧
      ∀ psbt', res = .ok psbt' → psbt'.unsignedTx = psbt.unsignedTx
  | [], c, c', psbt, res, h => by
    cases h
    exact ⟨⟨[], rfl, List.forall_mem_nil _⟩, fun psbt' h => by cases h; rfl⟩
  | i :: is, c, c', psbt, res, h => by
    unfold signInputs at h
    split at h
    · rename_i c₁ psbt₁ h₁
      obtain ⟨⟨new, hnew, hall⟩, htx⟩ := signInput_cases h₁
      obtain ⟨⟨new', hnew', hall'⟩, htx'⟩ := signInputs_cases h
      rw [htx psbt₁ rfl] at hall' htx'
      refine ⟨⟨new' ++ new, ?_, ?_⟩, htx'⟩
      · rw [hnew', hnew, List.append_assoc]
      · intro v hv
        rcases List.mem_append.mp hv with hv | hv
        · exact hall' v hv
        · exact hall v hv
    · rename_i c₁ e h₁
      cases h
      exact ⟨(signInput_cases h₁).1, fun psbt' h => by cases h⟩
    · rename_i c₁ h₁
      cases h
      exact ⟨(signInput_cases h₁).1, fun psbt' h => by cases h⟩

/-- Signing a payment signs its transaction, and gives back a PSBT of it. -/
theorem signPegoutPsbt_cases {fed : Federation} {chainId : Bytes} {burn : BurnKey}
    {c c' : Custody S} {psbt : Psbt} {res : Res PegoutError Psbt}
    (h : signPegoutPsbt fed chainId burn c psbt = (c', res)) :
    (∃ new, c'.votes = new ++ c.votes ∧ ∀ v ∈ new, v = (burn, psbt.unsignedTx)) ∧
      ∀ psbt', res = .ok psbt' → psbt'.unsignedTx = psbt.unsignedTx := by
  unfold signPegoutPsbt at h
  split at h
  · cases h
    exact ⟨⟨[], rfl, List.forall_mem_nil _⟩, fun psbt' h => by cases h⟩
  · split at h
    · exact signInputs_cases h
    · cases h
      exact ⟨⟨[], rfl, List.forall_mem_nil _⟩, fun psbt' h => by cases h⟩
    · cases h
      exact ⟨⟨[], rfl, List.forall_mem_nil _⟩, fun psbt' h => by cases h⟩

omit [VoteJournal J] in
theorem signing_sign (key : BurnKey) (psbt : Psbt) :
    Within (Signing held key psbt.unsignedTx) (PegoutRound.sign key psbt :
      Method PegoutError (PegoutRound S J) Psbt) := by
  intro r
  have hcases := signPegoutPsbt_cases (S := S) (Prod.eta
    (signPegoutPsbt r.fed r.chainId key r.custody psbt)).symm
  exact ⟨⟨fun _ h => h, fun _ h => h, rfl⟩, hcases.1⟩

omit [RoundSigner S] [VoteJournal J] [PsbtCodec] in
theorem calm_maybeFinish (now : ℕ) (key : BurnKey) :
    Within (Calm held) (PegoutRound.maybeFinish now key :
      Method PegoutError (PegoutRound S J) (List PegoutAction)) := by
  intro r
  unfold PegoutRound.maybeFinish
  rw [get_bind]
  cases r.pending.lookup key with
  | none => exact Calm.refl r
  | some p =>
    dsimp only
    split_ifs with hfew
    · exact Calm.refl r
    · cases combinePegoutPsbts (p.sigs.map Prod.snd) with
      | ok combined =>
        dsimp only
        cases finalizePegoutPsbt r.fed combined with
        | none => exact Calm.refl r
        | some tx => exact ⟨⟨fun _ h => h, fun _ h => h, rfl⟩, rfl⟩
      | err e => exact Calm.refl r
      | panic => exact Calm.refl r

/-- What follows an intent signs the payment it was for. -/
theorem signing_signAndRecord (hd : Durable held) (key : BurnKey) (role : VoteRole)
    (subject : Bytes) (psbt : Psbt) (now : ℕ) :
    Within (Signing held key psbt.unsignedTx)
      (PegoutRound.signAndRecord key role subject psbt now :
        Method PegoutError (PegoutRound S J) Psbt) := by
  refine Within.bind Signing.trans (signing_sign key psbt) fun psbt' => ?_
  refine Within.bind Signing.trans (Calm.within (Within.get Calm.refl)) fun r => ?_
  refine Within.bind Signing.trans (Calm.within (calm_journalRecord hd _ _ _ _ _ _)) fun _ => ?_
  exact Calm.within (Within.pure Calm.refl _)

/-! ### The two paths -/

omit [PsbtCodec] [RoundSigner S] in
/-- An intent for a burn the guard did not have, and then signatures for it. -/
theorem Safe.intent_bind (hd : Durable held) {key : BurnKey} {role : VoteRole} {subject : Bytes}
    {psbt : Psbt} {now : ℕ} {α : Type} {f : Unit → Method PegoutError (PegoutRound S J) α}
    {r : PegoutRound S J} (hs : Safe held r) (tx : Transaction) (hfresh : key ∉ r.authorised)
    (hf : Within (Signing held key tx) (f ())) :
    Safe held ((PegoutRound.intent key role subject psbt now >>= f) r).1 := by
  rcases hrun : (PegoutRound.intent key role subject psbt now >>= f) r with ⟨r', res⟩
  rcases bind_cases hrun with ⟨r₁, ⟨⟩, h₁, h⟩ | ⟨e, h₁, -⟩ | ⟨h₁, -⟩
  · obtain ⟨hcalm, hguard⟩ := intent_cases hd h₁
    have hsign := hf r₁
    rw [h] at hsign
    exact hs.signing hfresh hcalm (hguard rfl) hsign
  · exact hs.calm (intent_cases hd h₁).1
  · exact hs.calm (intent_cases hd h₁).1

omit [RoundSigner S] [VoteJournal J] [Bitcoin] [PsbtCodec] in
/-- With re-signing off the guard lets a burn through only when it does not have it. -/
theorem Safe.fresh {r : PegoutRound S J} (hs : Safe held r) {key : BurnKey} {now : ℕ}
    (h : r.maySignBurn key now = true) : key ∉ r.authorised := by
  intro hmem
  obtain ⟨time, htime⟩ := Finmap.mem_iff.mp hmem
  unfold PegoutRound.maySignBurn at h
  rw [htime, hs.resign] at h
  cases h

theorem Safe.propose (hd : Durable held) (now : ℕ) {b : Burn} (coins : List PegCoin)
    {r : PegoutRound S J} (hs : Safe held r) (hfresh : burnKey b ∉ r.authorised) :
    Safe held (PegoutRound.propose now b coins r).1 := by
  unfold PegoutRound.propose
  rw [get_bind]
  cases buildPegoutPsbt r.fed r.chainId b coins r.cfg.feeRate with
  | err e => exact hs
  | panic => exact hs
  | ok built =>
    rw [ofRes_ok_bind]
    refine hs.intent_bind hd built.unsignedTx hfresh ?_
    refine Within.bind Signing.trans (signing_sign _ built) fun psbt => ?_
    refine Within.bind Signing.trans (Calm.within (calm_signEvent _)) fun ev => ?_
    refine Within.bind Signing.trans (Calm.within (Within.get Calm.refl)) fun r => ?_
    refine Within.bind Signing.trans (Calm.within (calm_journalRecord hd _ _ _ _ _ _)) fun _ => ?_
    refine Within.bind Signing.trans (Calm.within ?_) fun _ => ?_
    · exact fun r => ⟨⟨fun _ h => h, fun _ h => h, rfl⟩, rfl⟩
    · refine Within.bind Signing.trans (Calm.within (calm_maybeFinish _ _)) fun finished => ?_
      exact Calm.within (Within.pure Calm.refl _)

theorem Safe.authorise (hd : Durable held) {key : BurnKey} {role : VoteRole} {subject : Bytes}
    {psbt : Psbt} {now : ℕ} {r : PegoutRound S J} (hs : Safe held r)
    (hfresh : key ∉ r.authorised) :
    Safe held (PegoutRound.authorise key role subject psbt now r).1 := by
  rcases hrun : PegoutRound.authorise key role subject psbt now r with ⟨r', res⟩
  unfold PegoutRound.authorise at hrun
  rcases attempt_bind_cases hrun with ⟨r₁, ⟨⟩, h₁, h⟩ | ⟨r₁, e, h₁, h⟩ | ⟨h₁, -⟩
  · obtain ⟨hcalm, hguard⟩ := intent_cases hd h₁
    have hsign : Signing held key psbt.unsignedTx r₁ r' := by
      rw [show r' = _ from (congrArg Prod.fst h).symm]
      refine Within.bind Signing.trans
        (Within.attempt (signing_signAndRecord hd _ _ _ _ _)) (fun x => ?_) r₁
      cases x with
      | error e => exact Calm.within (Within.pure Calm.refl _)
      | ok psbt => exact Calm.within (Within.pure Calm.refl _)
    exact hs.signing hfresh hcalm (hguard rfl) hsign
  · cases h
    exact hs.calm (intent_cases hd h₁).1
  · exact hs.calm (intent_cases hd h₁).1

omit [RoundSigner S] [VoteJournal J] [Bitcoin] [PsbtCodec] in
theorem maySignBurn_of_isOpen {r : PegoutRound S J} {now : ℕ} {key : BurnKey}
    (h : r.isOpen now key = true) : r.maySignBurn key now = true :=
  (Bool.and_eq_true_iff.mp (Bool.and_eq_true_iff.mp h).1).2

omit [RoundSigner S] [VoteJournal J] [Bitcoin] [PsbtCodec] in
/-- Asking whether a signer is entitled leaves the guard as it was. -/
theorem fresh_entitled {signer : Bytes} {height time now : ℕ} {r r₁ : PegoutRound S J}
    {res : Res PegoutError Bool} {key : BurnKey}
    (h : PegoutRound.entitled signer height time now r = (r₁, res)) (hfresh : key ∉ r.authorised) :
    key ∉ r₁.authorised := by
  obtain ⟨seen, hseen⟩ := entitled_fst signer height time now r
  rw [h] at hseen
  rw [show r₁ = _ from hseen]
  exact hfresh

theorem Safe.tickBurn (hd : Durable held) (now : ℕ) (coins : List PegCoin) (b : Burn)
    {r : PegoutRound S J} (hs : Safe held r) :
    Safe held (PegoutRound.tickBurn now coins b r).1 := by
  rcases hrun : PegoutRound.tickBurn now coins b r with ⟨r', res⟩
  unfold PegoutRound.tickBurn at hrun
  rw [get_bind] at hrun
  split_ifs at hrun with hopen
  · cases hrun
    exact hs
  · have hentitled : Calm held r _ := calm_entitled r.me b.height now now r
    rcases bind_cases hrun with ⟨r₁, mine, h₁, h⟩ | ⟨e, h₁, -⟩ | ⟨h₁, -⟩
    · rw [h₁] at hentitled
      have hs₁ := hs.calm hentitled
      split_ifs at h with hmine
      · cases h
        exact hs₁
      · have hfresh : burnKey b ∉ r₁.authorised :=
          fresh_entitled h₁ (hs.fresh (maySignBurn_of_isOpen (by simpa using hopen)))
        have hpropose := hs₁.propose hd now coins hfresh
        rcases attempt_bind_cases h with ⟨r₂, actions, h₂, h⟩ | ⟨r₂, e, h₂, h⟩ | ⟨h₂, -⟩
        · rw [h₂] at hpropose
          cases h
          exact hpropose
        · rw [h₂] at hpropose
          cases h
          exact hpropose.calm ⟨⟨fun _ h => h, fun _ h => h, rfl⟩, rfl⟩
        · rw [h₂] at hpropose
          exact hpropose
    · rw [h₁] at hentitled
      exact hs.calm hentitled
    · rw [h₁] at hentitled
      exact hs.calm hentitled

theorem Safe.tickBurns (hd : Durable held) (now : ℕ) (coins : List PegCoin) :
    ∀ (burns : List Burn) {r : PegoutRound S J}, Safe held r →
      Safe held (PegoutRound.tickBurns now coins burns r).1
  | [], _, hs => hs
  | b :: burns, r, hs => by
    rcases hrun : PegoutRound.tickBurns now coins (b :: burns) r with ⟨r', res⟩
    unfold PegoutRound.tickBurns at hrun
    have hburn := hs.tickBurn hd now coins b
    rcases bind_cases hrun with ⟨r₁, actions, h₁, h⟩ | ⟨e, h₁, -⟩ | ⟨h₁, -⟩
    · rw [h₁] at hburn
      have hrest := Safe.tickBurns hd now coins burns hburn
      rcases hrun' : PegoutRound.tickBurns now coins burns r₁ with ⟨r₂, res₂⟩
      rw [hrun'] at hrest
      have hfst := bind_fst (f := fun rest => pure (actions ++ rest)) hrun' fun _ _ => rfl
      rw [show r' = _ from (congrArg Prod.fst h).symm, hfst]
      exact hrest
    · rw [h₁] at hburn
      exact hburn
    · rw [h₁] at hburn
      exact hburn

theorem Safe.tick (hd : Durable held) (now : ℕ) (burns : List Burn) (coins : List PegCoin)
    {r : PegoutRound S J} (hs : Safe held r) :
    Safe held (PegoutRound.tick now burns coins r).1 := by
  rcases hrun : PegoutRound.tick now burns coins r with ⟨r', res⟩
  unfold PegoutRound.tick at hrun
  have hburns := Safe.tickBurns hd now coins burns hs
  rcases bind_cases hrun with ⟨r₁, actions, h₁, h⟩ | ⟨e, h₁, -⟩ | ⟨h₁, -⟩
  · rw [h₁] at hburns
    cases h
    exact hburns.calm ⟨⟨fun _ h => h, fun _ h => h, rfl⟩, rfl⟩
  · rw [h₁] at hburns
    exact hburns
  · rw [h₁] at hburns
    exact hburns

/-- Co-signing a burn the guard did not have. -/
theorem Safe.coSign (hd : Durable held) (now : ℕ) (ev : Event) {key : BurnKey} (psbt : Psbt)
    {r : PegoutRound S J} (hs : Safe held r) (hfresh : key ∉ r.authorised) :
    Safe held (PegoutRound.coSign now ev key psbt r).1 := by
  have hauth : Safe held (PegoutRound.authorise key .signed ev.id psbt now r).1 :=
    hs.authorise hd hfresh
  rcases hrun : PegoutRound.coSign now ev key psbt r with ⟨r', res⟩
  unfold PegoutRound.coSign at hrun
  rcases bind_cases hrun with ⟨r₁, answer, h₁, h⟩ | ⟨e, h₁, -⟩ | ⟨h₁, -⟩
  · rw [h₁] at hauth
    rcases answer with ⟨asked, e⟩ | psbt'
    · cases asked <;> cases h <;> exact hauth
    · have hmove : Calm held r₁ r' := by
        rw [show r' = _ from (congrArg Prod.fst h).symm]
        refine Within.bind Calm.trans (Within.get Calm.refl) (fun r => ?_) r₁
        refine Within.bind Calm.trans (Within.attempt (calm_signEvent _)) fun x => ?_
        cases x with
        | error e => exact Within.pure Calm.refl _
        | ok answer => exact Within.pure Calm.refl _
      exact hauth.calm hmove
  · rw [h₁] at hauth
    exact hauth
  · rw [h₁] at hauth
    exact hauth

theorem Safe.judgeProposal (hd : Durable held) (now : ℕ) (ev : Event) (p : PegoutPsbt) (b : Burn)
    (author : Bytes) {r : PegoutRound S J} (hs : Safe held r) (hfresh : p.burn ∉ r.authorised) :
    Safe held (PegoutRound.judgeProposal now ev p b author r).1 := by
  rcases hrun : PegoutRound.judgeProposal now ev p b author r with ⟨r', res⟩
  unfold PegoutRound.judgeProposal at hrun
  have hentitled : Calm held r _ :=
    calm_entitled author b.height (Word.satMul 64 ev.createdAt 1000) now r
  rcases bind_cases hrun with ⟨r₁, theirs, h₁, h⟩ | ⟨e, h₁, -⟩ | ⟨h₁, -⟩
  · rw [h₁] at hentitled
    have hs₁ := hs.calm hentitled
    have hfresh₁ := fresh_entitled h₁ hfresh
    rw [show r' = _ from (congrArg Prod.fst h).symm, get_bind]
    split_ifs
    · exact hs₁
    · cases PsbtCodec.psbtFromText p.psbt with
      | none => exact hs₁
      | some psbt =>
        dsimp only
        cases checkPegoutPsbt psbt r₁.fed r₁.chainId b r₁.cfg.maxFee with
        | some why => exact hs₁
        | none => exact hs₁.coSign hd now ev psbt hfresh₁
  · rw [h₁] at hentitled
    exact hs.calm hentitled
  · rw [h₁] at hentitled
    exact hs.calm hentitled

theorem Safe.onProposal (hd : Durable held) (now : ℕ) (ev : Event) (burns : List Burn)
    {r : PegoutRound S J} (hs : Safe held r) :
    Safe held (PegoutRound.onProposal now ev burns r).1 := by
  unfold PegoutRound.onProposal
  rw [get_bind]
  cases parsePegoutPsbt ev r.chainId with
  | none => exact hs
  | some p =>
    cases pubkeyFromHex ev.pubkey with
    | none => exact hs
    | some author =>
      dsimp only
      by_cases hauthor : ev.pubkey = r.meHex ∨ author ∉ r.fed.signers
      · rw [if_pos hauthor]
        exact hs
      · rw [if_neg hauthor]
        cases burns.find? fun b => burnKey b == p.burn with
        | none => exact hs
        | some b =>
          dsimp only
          by_cases hpaid : p.burn ∈ r.ledger.paid
          · rw [if_pos hpaid]
            exact hs
          · rw [if_neg hpaid]
            cases hmay : r.maySignBurn p.burn now with
            | true => exact hs.judgeProposal hd now ev p b author (hs.fresh hmay)
            | false => exact hs

omit [RoundSigner S] [VoteJournal J] [PsbtCodec] in
/-- Counting an answer gives no signature. -/
theorem calm_count (now : ℕ) (ev : Event) (key : BurnKey) (mine : PendingPegout) (theirs : Psbt) :
    Within (Calm held) (PegoutRound.count now ev key mine theirs :
      Method PegoutError (PegoutRound S J) (List PegoutAction)) := by
  unfold PegoutRound.count
  refine Within.bind Calm.trans ?_ fun _ => ?_
  · exact fun r => ⟨⟨fun _ h => h, fun _ h => h, rfl⟩, rfl⟩
  · refine Within.bind Calm.trans (Within.get Calm.refl) fun r => ?_
    exact Within.bind Calm.trans (calm_maybeFinish now key) fun _ => Within.pure Calm.refl _

omit [RoundSigner S] [VoteJournal J] in
theorem calm_onSigned (now : ℕ) (ev : Event) :
    Within (Calm held) (PegoutRound.onSigned now ev :
      Method PegoutError (PegoutRound S J) (List PegoutAction)) := by
  intro r
  unfold PegoutRound.onSigned
  rw [get_bind]
  cases parsePegoutSigned ev r.chainId with
  | none => exact Calm.refl r
  | some p =>
    dsimp only
    cases r.pending.lookup p.burn with
    | none => exact Calm.refl r
    | some mine =>
      cases pubkeyFromHex ev.pubkey with
      | none => exact Calm.refl r
      | some author =>
        dsimp only
        by_cases hauthor : p.request ≠ mine.id ∨ ev.pubkey = r.meHex ∨ author ∉ r.fed.signers
        · rw [if_pos hauthor]
          exact Calm.refl r
        · rw [if_neg hauthor]
          cases PsbtCodec.psbtFromText p.psbt with
          | none => exact Calm.refl r
          | some theirs =>
            dsimp only
            cases PegoutRound.verifyAnswer r.fed mine.psbt theirs author with
            | err e => exact Calm.refl r
            | panic => exact Calm.refl r
            | ok u => exact calm_count now ev p.burn mine theirs r

theorem Safe.onEvent [EventCodec] (hd : Durable held) (now : ℕ) (ev : Event) (burns : List Burn)
    {r : PegoutRound S J} (hs : Safe held r) :
    Safe held (PegoutRound.onEvent now ev burns r).1 := by
  unfold PegoutRound.onEvent
  rw [get_bind]
  by_cases hpsbt : ev.kind = kindPegoutPsbt
  · rw [if_pos hpsbt, modify_bind]
    have hs₁ : Safe held { r with psbts := (r.psbts.accept ev).1 } :=
      hs.calm ⟨⟨fun _ h => h, fun _ h => h, rfl⟩, rfl⟩
    split_ifs
    · exact hs₁.onProposal hd now ev burns
    · exact hs₁
  · rw [if_neg hpsbt]
    by_cases hsigned : ev.kind = kindPegoutSigned
    · rw [if_pos hsigned, modify_bind]
      have hs₁ : Safe held { r with signed := (r.signed.accept ev).1 } :=
        hs.calm ⟨⟨fun _ h => h, fun _ h => h, rfl⟩, rfl⟩
      split_ifs
      · exact hs₁.calm (calm_onSigned now ev _)
      · exact hs₁
    · rw [if_neg hsigned]
      exact hs

end

/-! ### Restarts -/

section

variable {S J : Type} {held : J → VoteEntry → Prop}

/-- The guard loaded from the journal has every burn the journal has. -/
theorem mem_foldl_guardEntry {key : BurnKey} : ∀ {es : List VoteEntry} {guard : Map BurnKey ℕ},
    (key ∈ guard ∨ ∃ e ∈ es, e.scope = .burn key) → key ∈ es.foldl PegoutRound.guardEntry guard
  | [], guard, h => by
    rcases h with h | ⟨e, he, -⟩
    · exact h
    · cases he
  | e :: es, guard, h => by
    rw [List.foldl_cons]
    refine mem_foldl_guardEntry ?_
    unfold PegoutRound.guardEntry
    rcases h with h | ⟨e', he', hscope⟩
    · left
      cases e.scope with
      | height _ => exact h
      | burn b => exact Finmap.mem_insert.mpr (Or.inr h)
    · rcases List.mem_cons.mp he' with rfl | he'
      · left
        rw [hscope]
        exact Finmap.mem_insert.mpr (Or.inl rfl)
      · exact Or.inr ⟨e', he', hscope⟩

/-- A stopped signer: its key and its journal. -/
structure Stopped (held : J → VoteEntry → Prop) (c : Custody S) (j : J) : Prop where
  guarded : Guarded (fun key => ∃ e, held j e ∧ e.scope = .burn key) c.votes

theorem Safe.stop {r : PegoutRound S J} (hs : Safe held r) : Stopped held r.custody r.journal :=
  ⟨hs.guarded.mono fun _ hk => hk.2⟩

variable [RoundSigner S] [VoteJournal J]

/-- A signer that starts has in its guard what it signed for before it stopped. -/
theorem Safe.new (hd : Durable held) {fed : Federation} {chainId : Bytes} {c : Custody S} {j : J}
    {cfg : PegoutConfig} {ledger : PegoutLedger} {r : PegoutRound S J}
    (h : PegoutRound.new fed chainId c j cfg ledger = some r) (hs : Stopped held c j)
    (hresign : cfg.resignAfter = none) : Safe held r := by
  unfold PegoutRound.new at h
  dsimp only at h
  split_ifs at h with hmember
  obtain ⟨es, hes, rfl⟩ := Option.map_eq_some_iff.mp h
  refine ⟨hs.guarded.mono ?_, hresign⟩
  rintro key ⟨e, he, hscope⟩
  exact ⟨mem_foldl_guardEntry (Or.inr ⟨e, hd.reads j es hes e he, hscope⟩), e, he, hscope⟩

/-! ### The federation -/

/-- A signer of the federation: stopped, or running its round. -/
inductive SignerState (S J : Type) where
  | stopped (c : Custody S) (j : J)
  | running (r : PegoutRound S J)

/-- The payments a signer's key has signed an input of. -/
def SignerState.votes : SignerState S J → List (BurnKey × Transaction)
  | .stopped c _ => c.votes
  | .running r => r.custody.votes

variable [Bitcoin] [PsbtCodec] [EventCodec]

/-- What one signer does next: a start from its journal with any ledger, a stop,
a tick on any burns and coins, any event from anyone, or a payment recorded. -/
inductive SignerStep (fed : Federation) (chainId : Bytes) :
    SignerState S J → SignerState S J → Prop
  | start {c j cfg ledger r} (hresign : cfg.resignAfter = none)
      (h : PegoutRound.new fed chainId c j cfg ledger = some r) :
      SignerStep fed chainId (.stopped c j) (.running r)
  | stop {r} : SignerStep fed chainId (.running r) (.stopped r.custody r.journal)
  | tick {r} (now burns coins) : SignerStep fed chainId (.running r)
      (.running (PegoutRound.tick now burns coins r).1)
  | event {r} (now ev burns) : SignerStep fed chainId (.running r)
      (.running (PegoutRound.onEvent now ev burns r).1)
  | paid {r} (burn record) : SignerStep fed chainId (.running r)
      (.running (PegoutRound.markPaid burn record r))

/-- The runs of a federation's signers: from signers that have signed nothing,
one of them takes a step at a time. -/
inductive FederationRun (fed : Federation) (chainId : Bytes) :
    (Fin fed.signers.length → SignerState S J) → Prop
  | init {σ} (h : ∀ i, ∃ signer j, σ i = .stopped ⟨signer, []⟩ j) : FederationRun fed chainId σ
  | step {σ i s'} (h : FederationRun fed chainId σ) (hs : SignerStep fed chainId (σ i) s') :
      FederationRun fed chainId (Function.update σ i s')

/-- What holds of every signer in every state of a run. -/
def SignerState.Safe (held : J → VoteEntry → Prop) : SignerState S J → Prop
  | .stopped c j => Stopped held c j
  | .running r => Round.Safe held r

theorem SignerStep.safe (hd : Durable held) {fed : Federation} {chainId : Bytes}
    {s s' : SignerState S J} (h : SignerStep fed chainId s s') (hs : s.Safe held) :
    s'.Safe held := by
  cases h with
  | start hresign h => exact Safe.new hd h hs hresign
  | stop => exact Round.Safe.stop hs
  | tick now burns coins => exact Round.Safe.tick hd now burns coins hs
  | event now ev burns => exact Round.Safe.onEvent hd now ev burns hs
  | paid burn record => exact Round.Safe.calm hs ⟨⟨fun _ h => h, fun _ h => h, rfl⟩, rfl⟩

theorem FederationRun.safe (hd : Durable held) {fed : Federation} {chainId : Bytes}
    {σ : Fin fed.signers.length → SignerState S J} (h : FederationRun fed chainId σ) :
    ∀ i, (σ i).Safe held := by
  induction h with
  | init h =>
    intro i
    obtain ⟨signer, j, hi⟩ := h i
    rw [hi]
    exact ⟨Guarded.nil⟩
  | @step σ i s' _ hs ih =>
    intro k
    by_cases hk : k = i
    · subst hk
      rw [Function.update_self]
      exact hs.safe hd (ih k)
    · rw [Function.update_of_ne hk]
      exact ih k

omit [RoundSigner S] [VoteJournal J] [Bitcoin] [PsbtCodec] [EventCodec] in
theorem SignerState.Safe.guarded {s : SignerState S J} (h : s.Safe held) :
    ∃ guard, Guarded guard s.votes := by
  cases s with
  | stopped c j => exact ⟨_, Stopped.guarded h⟩
  | running r => exact ⟨_, Round.Safe.guarded h⟩

/-- **A burn is paid once.** In every state of every run of a federation whose
threshold is more than half of its signers, none of which re-signs, with
durable journals: no two transactions for one burn both have signatures of a
threshold of the signers. -/
theorem burn_paid_once (hd : Durable held) {fed : Federation}
    (hk : fed.signers.length < 2 * fed.threshold) {chainId : Bytes}
    {σ : Fin fed.signers.length → SignerState S J} (h : FederationRun fed chainId σ)
    {key : BurnKey} {tx tx' : Transaction}
    (htx : Gathers (fun i => (σ i).votes) fed.threshold key tx)
    (htx' : Gathers (fun i => (σ i).votes) fed.threshold key tx') : tx = tx' := by
  choose guard hguard using fun i => (h.safe hd i).guarded
  have hcard : Fintype.card (Fin fed.signers.length) < 2 * fed.threshold := by
    rw [Fintype.card_fin]
    exact hk
  exact agreement hcard hguard htx htx'

end

/-! ### A run -/

section

attribute [local instance] sampleBitcoin sampleEventCodec keySigner listJournal

theorem durable_list : Durable (J := List VoteEntry) fun j e => e ∈ j where
  keeps _ _ _ h := List.mem_append_left _ h
  wrote _ _ _ := List.mem_append_right _ (List.mem_singleton_self _)
  reads _ _ h _ he := Option.some.inj h ▸ he

/-- What a signer of the run is asked to do. -/
inductive SignerCall where
  | start
  | tick (now : ℕ) (burns : List Burn) (coins : List PegCoin)
  | event (now : ℕ) (ev : Event) (burns : List Burn)

/-- A call of a signer, and the first event it publishes. -/
def callSigner [PsbtCodec] (chainId : Bytes) :
    SignerState SecretKey (List VoteEntry) → SignerCall →
      Option (SignerState SecretKey (List VoteEntry) × Option Event)
  | .stopped c j, .start =>
    (PegoutRound.new sampleSigners chainId c j sampleConfig ⟨∅⟩).map fun r => (.running r, none)
  | .running r, .tick now burns coins =>
    let after := PegoutRound.tick now burns coins r
    some (.running after.1, match after.2 with
      | .ok (.publish ev :: _) => some ev
      | _ => none)
  | .running r, .event now ev burns => some (.running (PegoutRound.onEvent now ev burns r).1, none)
  | _, _ => none

theorem callSigner_step [PsbtCodec] {chainId : Bytes} {call : SignerCall} {ev : Option Event}
    {s s' : SignerState SecretKey (List VoteEntry)}
    (h : callSigner chainId s call = some (s', ev)) : SignerStep sampleSigners chainId s s' := by
  cases s with
  | stopped c j =>
    cases call with
    | start =>
      obtain ⟨r, hr, h⟩ := Option.map_eq_some_iff.mp h
      cases h
      exact .start rfl hr
    | tick now burns coins => cases h
    | event now ev burns => cases h
  | running r =>
    cases call with
    | start => cases h
    | tick now burns coins =>
      cases h
      exact .tick now burns coins
    | event now ev burns =>
      cases h
      exact .event now ev burns

def firstSigner : Fin sampleSigners.signers.length := ⟨0, by decide⟩

def secondSigner : Fin sampleSigners.signers.length := ⟨1, by decide⟩

/-- The first signer proposes a payment of the burn and the second co-signs it. -/
def sampleSigning [PsbtCodec] : Option (Fin sampleSigners.signers.length →
    SignerState SecretKey (List VoteEntry)) := do
  let σ₀ := fun i : Fin sampleSigners.signers.length =>
    SignerState.stopped ⟨(i : ℕ) + 1, []⟩ ([] : List VoteEntry)
  let a ← callSigner (ascii ['d']) (σ₀ firstSigner) .start
  let σ₁ := Function.update σ₀ firstSigner a.1
  let b ← callSigner (ascii ['d']) (σ₁ secondSigner) .start
  let σ₂ := Function.update σ₁ secondSigner b.1
  let c ← callSigner (ascii ['d']) (σ₂ firstSigner)
    (.tick 5000 [sampleBurn] [⟨⟨9, 0⟩, 1000000⟩])
  let σ₃ := Function.update σ₂ firstSigner c.1
  let ev ← c.2
  let d ← callSigner (ascii ['d']) (σ₃ secondSigner) (.event 6000 ev [sampleBurn])
  some (Function.update σ₃ secondSigner d.1)

theorem sampleSigning_run [PsbtCodec] {σ : Fin sampleSigners.signers.length →
    SignerState SecretKey (List VoteEntry)} (h : sampleSigning = some σ) :
    FederationRun sampleSigners (ascii ['d']) σ := by
  unfold sampleSigning at h
  obtain ⟨⟨a, aev⟩, ha, h⟩ := Option.bind_eq_some_iff.mp h
  obtain ⟨⟨b, bev⟩, hb, h⟩ := Option.bind_eq_some_iff.mp h
  obtain ⟨⟨c, cev⟩, hc, h⟩ := Option.bind_eq_some_iff.mp h
  obtain ⟨ev, -, h⟩ := Option.bind_eq_some_iff.mp h
  obtain ⟨⟨d, dev⟩, hd, h⟩ := Option.bind_eq_some_iff.mp h
  cases h
  refine .step (.step (.step (.step (.init fun i => ⟨_, _, rfl⟩) ?_) ?_) ?_) ?_
  · exact callSigner_step ha
  · exact callSigner_step hb
  · exact callSigner_step hc
  · exact callSigner_step hd

/-- The payment proposed in the run. -/
def sampleProposal : List Psbt :=
  let codec := samplePsbtCodec []
  match @sampleSigning codec with
  | none => []
  | some σ =>
    match σ firstSigner with
    | .running r => r.pending.map fun e => e.2.psbt
    | .stopped _ _ => []

/-- The transaction it proposes. -/
def samplePaid : Transaction := (sampleProposal.map Psbt.unsignedTx).headD ⟨0, 0, [], []⟩

set_option maxRecDepth 100000 in
/-- The run's payment has the signatures of two of three, and no other one has. -/
theorem burn_paid_once_sample :
    ∃ σ : Fin sampleSigners.signers.length → SignerState SecretKey (List VoteEntry),
      Gathers (fun i => (σ i).votes) 2 (burnKey sampleBurn) samplePaid ∧
      ∀ tx, Gathers (fun i => (σ i).votes) 2 (burnKey sampleBurn) tx → samplePaid = tx := by
  let codec := samplePsbtCodec sampleProposal
  have hrun : ((@sampleSigning codec).map fun σ =>
      decide (Gathers (fun i => (σ i).votes) 2 (burnKey sampleBurn) samplePaid)) = some true := by
    decide +kernel
  obtain ⟨σ, hσ, hgathers⟩ := Option.map_eq_some_iff.mp hrun
  have hgathers := of_decide_eq_true hgathers
  exact ⟨σ, hgathers, fun tx htx => burn_paid_once durable_list (by decide)
    (@sampleSigning_run codec σ hσ) hgathers htx⟩

end

end Round

end Sidestr
