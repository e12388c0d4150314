/-
# Paid burns

A burn is paid once as long as the ledger has it: a tick passes over it. The
ledger is kept in memory and rewritten whole to `pegouts.json` when the parent
takes a payment and when the wallet's history shows one. The write is in place,
and a file that cannot be read is an empty ledger: a crash that cuts the write
short forgets every burn that was ever paid.

Key definitions: `readJson`, `PegoutDisk`, `PaidStep`, `Untorn`.
Key theorems: `tick_ledger`, `onEvent_ledger`, `tick_paid`, `paid_kept`.
-/
import Sidestr.Round.Journal
import Sidestr.Round.Ledger
import Sidestr.Round.Sample

namespace Sidestr

namespace Round

open Method

/-! ### The ledger over the calls -/

section

variable {S J α β : Type}

def SameLedger (r r' : PegoutRound S J) : Prop := r'.ledger = r.ledger

/-- The ledger is as it was, whatever the method ends in. -/
structure KeepsLedger (x : Method PegoutError (PegoutRound S J) α) : Prop where
  within : Within SameLedger x

theorem SameLedger.refl (r : PegoutRound S J) : SameLedger r r := rfl

theorem KeepsLedger.bind {x : Method PegoutError (PegoutRound S J) α}
    {f : α → Method PegoutError (PegoutRound S J) β} (hx : KeepsLedger x)
    (hf : ∀ a, KeepsLedger (f a)) : KeepsLedger (x >>= f) :=
  ⟨Within.bind (fun _ _ _ h h' => h'.trans h) hx.within fun a => (hf a).within⟩

theorem KeepsLedger.attempt {x : Method PegoutError (PegoutRound S J) α} (hx : KeepsLedger x) :
    KeepsLedger x.attempt :=
  ⟨hx.within.attempt⟩

theorem KeepsLedger.pure (a : α) :
    KeepsLedger (Pure.pure a : Method PegoutError (PegoutRound S J) α) :=
  ⟨Within.pure SameLedger.refl a⟩

theorem KeepsLedger.get : KeepsLedger (get : Method PegoutError (PegoutRound S J) _) :=
  ⟨Within.get SameLedger.refl⟩

theorem KeepsLedger.ofRes (x : Res PegoutError α) :
    KeepsLedger (ofRes x : Method PegoutError (PegoutRound S J) α) :=
  ⟨Within.ofRes SameLedger.refl x⟩

theorem KeepsLedger.modify {g : PegoutRound S J → PegoutRound S J}
    (hg : ∀ r, (g r).ledger = r.ledger) :
    KeepsLedger (modify g : Method PegoutError (PegoutRound S J) Unit) := ⟨hg⟩

theorem entitled_ledger (signer : Bytes) (height time now : ℕ) :
    KeepsLedger (PegoutRound.entitled signer height time now :
      Method PegoutError (PegoutRound S J) Bool) := by
  refine .bind .get fun r => ?_
  cases r.fed.signers.idxOf? signer with
  | none => exact .pure false
  | some slot => exact .bind (.modify fun _ => rfl) fun _ => .pure _

variable [RoundSigner S] [VoteJournal J] [Bitcoin]

omit [RoundSigner S] in
theorem journalRecord_ledger (key : BurnKey) (role : VoteRole) (subject : Bytes) (psbt : Psbt)
    (time : ℕ) (signatures : Option (List Bytes)) :
    KeepsLedger (PegoutRound.journalRecord key role subject psbt time signatures :
      Method PegoutError (PegoutRound S J) Unit) := ⟨fun _ => rfl⟩

omit [RoundSigner S] in
theorem intent_ledger (key : BurnKey) (role : VoteRole) (subject : Bytes) (psbt : Psbt) (now : ℕ) :
    KeepsLedger (PegoutRound.intent key role subject psbt now :
      Method PegoutError (PegoutRound S J) Unit) :=
  .bind (journalRecord_ledger ..) fun _ => .modify fun _ => rfl

omit [VoteJournal J] [Bitcoin] in
theorem signEvent_ledger (ev : Option UnsignedEvent) :
    KeepsLedger (PegoutRound.signEvent ev : Method PegoutError (PegoutRound S J) Event) := by
  refine ⟨fun r => ?_⟩
  cases ev <;> rfl

variable [PsbtCodec]

omit [VoteJournal J] in
theorem sign_ledger (key : BurnKey) (psbt : Psbt) :
    KeepsLedger (PegoutRound.sign key psbt : Method PegoutError (PegoutRound S J) Psbt) :=
  ⟨fun _ => rfl⟩

theorem signAndRecord_ledger (key : BurnKey) (role : VoteRole) (subject : Bytes) (psbt : Psbt)
    (now : ℕ) :
    KeepsLedger (PegoutRound.signAndRecord key role subject psbt now :
      Method PegoutError (PegoutRound S J) Psbt) :=
  .bind (sign_ledger key psbt) fun _ => .bind .get fun _ =>
    .bind (journalRecord_ledger ..) fun _ => .pure _

theorem authorise_ledger (key : BurnKey) (role : VoteRole) (subject : Bytes) (psbt : Psbt)
    (now : ℕ) :
    KeepsLedger (PegoutRound.authorise key role subject psbt now :
      Method PegoutError (PegoutRound S J) (Except (Bool × PegoutError) Psbt)) := by
  refine .bind (intent_ledger ..).attempt fun intended => ?_
  rcases intended with e | -
  · exact .pure _
  · refine .bind (signAndRecord_ledger ..).attempt fun signed => ?_
    cases signed <;> exact .pure _

omit [RoundSigner S] [VoteJournal J] [PsbtCodec] in
theorem maybeFinish_ledger (now : ℕ) (key : BurnKey) :
    KeepsLedger (PegoutRound.maybeFinish now key :
      Method PegoutError (PegoutRound S J) (List PegoutAction)) := by
  refine .bind .get fun r => ?_
  cases r.pending.lookup key with
  | none => exact .pure _
  | some p =>
    by_cases hfew : p.sigs.length < r.fed.threshold
    · dsimp only
      rw [if_pos hfew]
      exact .pure _
    · dsimp only
      rw [if_neg hfew]
      cases combinePegoutPsbts (p.sigs.map Prod.snd) with
      | ok combined =>
        dsimp only
        cases finalizePegoutPsbt r.fed combined with
        | none => exact .pure _
        | some tx => exact .bind (.modify fun _ => rfl) fun _ => .pure _
      | err e => exact .pure _
      | panic => exact .ofRes _

theorem propose_ledger (now : ℕ) (b : Burn) (coins : List PegCoin) :
    KeepsLedger (PegoutRound.propose now b coins :
      Method PegoutError (PegoutRound S J) (List PegoutAction)) := by
  refine .bind .get fun r => .bind (.ofRes _) fun built => .bind (intent_ledger ..) fun _ => ?_
  refine .bind (sign_ledger ..) fun psbt => .bind (signEvent_ledger _) fun ev => ?_
  refine .bind .get fun r => .bind (journalRecord_ledger ..) fun _ => ?_
  exact .bind (.modify fun _ => rfl) fun _ => .bind (maybeFinish_ledger now _) fun _ => .pure _

theorem tickBurn_ledger (now : ℕ) (coins : List PegCoin) (b : Burn) :
    KeepsLedger (PegoutRound.tickBurn now coins b :
      Method PegoutError (PegoutRound S J) (List PegoutAction)) := by
  refine .bind .get fun r => ?_
  by_cases hopen : (!r.isOpen now (burnKey b)) = true
  · rw [if_pos hopen]
    exact .pure _
  rw [if_neg hopen]
  refine .bind (entitled_ledger ..) fun mine => ?_
  by_cases hmine : (!mine) = true
  · rw [if_pos hmine]
    exact .pure _
  rw [if_neg hmine]
  refine .bind (propose_ledger ..).attempt fun proposed => ?_
  cases proposed with
  | ok actions => exact .pure _
  | error e => exact .bind (.modify fun _ => rfl) fun _ => .pure _

theorem tickBurns_ledger (now : ℕ) (coins : List PegCoin) : ∀ burns : List Burn,
    KeepsLedger (PegoutRound.tickBurns now coins burns :
      Method PegoutError (PegoutRound S J) (List PegoutAction))
  | [] => .pure []
  | b :: burns =>
    .bind (tickBurn_ledger now coins b) fun _ =>
      .bind (tickBurns_ledger now coins burns) fun _ => .pure _

/-- A tick leaves the ledger alone. -/
theorem tick_ledger (now : ℕ) (burns : List Burn) (coins : List PegCoin) :
    KeepsLedger (PegoutRound.tick now burns coins :
      Method PegoutError (PegoutRound S J) (List PegoutAction)) :=
  .bind (tickBurns_ledger now coins burns) fun _ => .bind .get fun _ =>
    .bind (.modify fun _ => rfl) fun _ => .pure _

theorem coSign_ledger (now : ℕ) (ev : Event) (key : BurnKey) (psbt : Psbt) :
    KeepsLedger (PegoutRound.coSign now ev key psbt :
      Method PegoutError (PegoutRound S J) (List PegoutAction)) := by
  refine .bind (authorise_ledger ..) fun authorised => ?_
  rcases authorised with ⟨asked, e⟩ | signed
  · cases asked <;> exact .pure _
  · refine .bind .get fun r => .bind (signEvent_ledger _).attempt fun answer => ?_
    cases answer <;> exact .pure _

theorem judgeProposal_ledger (now : ℕ) (ev : Event) (p : PegoutPsbt) (b : Burn) (author : Bytes) :
    KeepsLedger (PegoutRound.judgeProposal now ev p b author :
      Method PegoutError (PegoutRound S J) (List PegoutAction)) := by
  refine .bind (entitled_ledger ..) fun theirs => .bind .get fun r => ?_
  by_cases htheirs : (!theirs) = true
  · rw [if_pos htheirs]
    exact .pure _
  rw [if_neg htheirs]
  cases PsbtCodec.psbtFromText p.psbt with
  | none => exact .pure _
  | some psbt =>
    dsimp only
    cases checkPegoutPsbt psbt r.fed r.chainId b r.cfg.maxFee with
    | some why => exact .pure _
    | none => exact coSign_ledger now ev p.burn psbt

theorem onProposal_ledger (now : ℕ) (ev : Event) (burns : List Burn) :
    KeepsLedger (PegoutRound.onProposal now ev burns :
      Method PegoutError (PegoutRound S J) (List PegoutAction)) := by
  refine .bind .get fun r => ?_
  cases parsePegoutPsbt ev r.chainId with
  | none => exact .pure _
  | some p =>
    cases pubkeyFromHex ev.pubkey with
    | none => exact .pure _
    | some author =>
      dsimp only
      by_cases hmine : ev.pubkey = r.meHex ∨ author ∉ r.fed.signers
      · rw [if_pos hmine]
        exact .pure _
      rw [if_neg hmine]
      cases burns.find? fun b => burnKey b == p.burn with
      | none => exact .pure _
      | some b =>
        dsimp only
        by_cases hpaid : p.burn ∈ r.ledger.paid
        · rw [if_pos hpaid]
          exact .pure _
        rw [if_neg hpaid]
        by_cases hguard : (!r.maySignBurn p.burn now) = true
        · rw [if_pos hguard]
          exact .pure _
        rw [if_neg hguard]
        exact judgeProposal_ledger now ev p b author

omit [RoundSigner S] [VoteJournal J] [PsbtCodec] in
theorem count_ledger (now : ℕ) (ev : Event) (key : BurnKey) (mine : PendingPegout) (theirs : Psbt) :
    KeepsLedger (PegoutRound.count now ev key mine theirs :
      Method PegoutError (PegoutRound S J) (List PegoutAction)) :=
  .bind (.modify fun _ => rfl) fun _ => .bind .get fun _ =>
    .bind (maybeFinish_ledger now key) fun _ => .pure _

omit [RoundSigner S] [VoteJournal J] in
theorem onSigned_ledger (now : ℕ) (ev : Event) :
    KeepsLedger (PegoutRound.onSigned now ev :
      Method PegoutError (PegoutRound S J) (List PegoutAction)) := by
  refine .bind .get fun r => ?_
  cases parsePegoutSigned ev r.chainId with
  | none => exact .pure _
  | some p =>
    dsimp only
    cases r.pending.lookup p.burn with
    | none => exact .pure _
    | some mine =>
      cases pubkeyFromHex ev.pubkey with
      | none => exact .pure _
      | some author =>
        dsimp only
        by_cases hother : p.request ≠ mine.id ∨ ev.pubkey = r.meHex ∨ author ∉ r.fed.signers
        · rw [if_pos hother]
          exact .pure _
        rw [if_neg hother]
        cases PsbtCodec.psbtFromText p.psbt with
        | none => exact .pure _
        | some theirs =>
          refine .bind (KeepsLedger.ofRes _).attempt fun verified => ?_
          rcases verified with e | -
          · exact .pure _
          · exact count_ledger now ev p.burn mine theirs

/-- So does an event. -/
theorem onEvent_ledger [EventCodec] (now : ℕ) (ev : Event) (burns : List Burn) :
    KeepsLedger (PegoutRound.onEvent now ev burns :
      Method PegoutError (PegoutRound S J) (List PegoutAction)) := by
  refine .bind .get fun r => ?_
  by_cases hpsbt : ev.kind = kindPegoutPsbt
  · rw [if_pos hpsbt]
    refine .bind (.modify fun _ => rfl) fun _ => ?_
    by_cases hnew : (r.psbts.accept ev).2 = true
    · rw [if_pos hnew]
      exact onProposal_ledger now ev burns
    · rw [if_neg hnew]
      exact .pure _
  rw [if_neg hpsbt]
  by_cases hsigned : ev.kind = kindPegoutSigned
  · rw [if_pos hsigned]
    refine .bind (.modify fun _ => rfl) fun _ => ?_
    by_cases hnew : (r.signed.accept ev).2 = true
    · rw [if_pos hnew]
      exact onSigned_ledger now ev
    · rw [if_neg hnew]
      exact .pure _
  · rw [if_neg hsigned]
    exact .pure _

/-! ### A tick over paid burns -/

theorem tickBurn_paid (now : ℕ) (coins : List PegCoin) {b : Burn} {r : PegoutRound S J}
    (hpaid : burnKey b ∈ r.ledger.paid) : PegoutRound.tickBurn now coins b r = (r, .ok []) := by
  have hopen : r.isOpen now (burnKey b) = false := by
    unfold PegoutRound.isOpen
    simp [hpaid]
  unfold PegoutRound.tickBurn
  rw [get_bind, hopen]
  rfl

/-- The burns that a ledger does not have. -/
def unpaid (l : PegoutLedger) (burns : List Burn) : List Burn :=
  burns.filter fun b => decide (burnKey b ∉ l.paid)

theorem tickBurns_unpaid (now : ℕ) (coins : List PegCoin) : ∀ (burns : List Burn)
    (r : PegoutRound S J), PegoutRound.tickBurns now coins burns r =
      PegoutRound.tickBurns now coins (unpaid r.ledger burns) r
  | [], _ => rfl
  | b :: burns, r => by
    have ih := tickBurns_unpaid now coins burns
    unfold unpaid at ih ⊢
    by_cases hpaid : burnKey b ∈ r.ledger.paid
    · rw [List.filter_cons_of_neg (by simpa using hpaid), ← ih r, PegoutRound.tickBurns,
        bind_ok (tickBurn_paid now coins hpaid)]
      rcases hrest : PegoutRound.tickBurns now coins burns r with ⟨r', actions | e | -⟩
      · rw [bind_ok hrest]
        rfl
      · rw [bind_err hrest]
      · rw [bind_panic hrest]
    · rw [List.filter_cons_of_pos (by simpa using hpaid), PegoutRound.tickBurns,
        PegoutRound.tickBurns]
      have hsame := (tickBurn_ledger now coins b).within r
      rcases hfirst : PegoutRound.tickBurn now coins b r with ⟨r₁, actions | e | -⟩
      · rw [hfirst] at hsame
        have hrest := ih r₁
        rw [show r₁.ledger = r.ledger from hsame] at hrest
        rw [bind_ok hfirst, bind_ok hfirst]
        exact bind_congr_run hrest
      · rw [bind_err hfirst, bind_err hfirst]
      · rw [bind_panic hfirst, bind_panic hfirst]

/-- **A paid burn is passed over.** A tick is the one without it. -/
theorem tick_paid (now : ℕ) (burns : List Burn) (coins : List PegCoin) {r : PegoutRound S J}
    {key : BurnKey} (hpaid : key ∈ r.ledger.paid) :
    PegoutRound.tick now burns coins r =
      PegoutRound.tick now (burns.filter fun b => decide (burnKey b ≠ key)) coins r := by
  refine bind_congr_run ?_
  rw [tickBurns_unpaid, tickBurns_unpaid now coins (burns.filter _)]
  unfold unpaid
  rw [List.filter_filter]
  refine congrArg (fun l => PegoutRound.tickBurns now coins l r) (List.filter_congr fun b _ => ?_)
  by_cases hkey : burnKey b = key
  · simp [hkey, hpaid]
  · simp [hkey]

end

/-! ### The ledger's file -/

theorem mem_reconcile (v : ReconcileView) {l : PegoutLedger} {key : BurnKey} (h : key ∈ l.paid) :
    key ∈ (v.reconcile l).1.paid := by
  unfold ReconcileView.reconcile
  cases v.sent with
  | none => exact h
  | some sent =>
    obtain ⟨p, hp⟩ := Finmap.mem_iff.mp h
    refine Finmap.mem_iff.mpr ⟨p, ?_⟩
    rw [reconcileBurns_lookup, hp, Option.some_or]

theorem reconcile_written {v : ReconcileView} {l l' : PegoutLedger}
    (h : (v.reconcile l).2 = some l') : (v.reconcile l).1 = l' := by
  unfold ReconcileView.reconcile at h ⊢
  cases hsent : v.sent with
  | none =>
    rw [hsent] at h
    cases h
  | some sent =>
    rw [hsent] at h
    dsimp only at h ⊢
    split_ifs at h
    exact Option.some.inj h

theorem new_ledger {S J : Type} [RoundSigner S] [VoteJournal J] {fed : Federation} {chainId : Bytes} {custody : Custody S} {journal : J}
    {cfg : PegoutConfig} {l : PegoutLedger} {r : PegoutRound S J}
    (h : PegoutRound.new fed chainId custody journal cfg l = some r) : r.ledger = l := by
  unfold PegoutRound.new at h
  dsimp only at h
  split_ifs at h
  obtain ⟨es, -, hr⟩ := Option.map_eq_some_iff.mp h
  rw [← hr]

/-- The JSON of the ledger, and its reader. -/
class LedgerCodec where
  text : PegoutLedger → Bytes
  read : Bytes → Option PegoutLedger

/-- How a write of the file ends: all of it there, or the process dies with so
many bytes of it. -/
inductive WriteFate
  | whole
  | cut (written : ℕ)

section

variable [LedgerCodec]

/-- What is relied on of a ledger's JSON: it is a text that reads back, and no
part of it reads as a ledger. -/
structure Legible (l : PegoutLedger) : Prop where
  text : utf8Valid (LedgerCodec.text l) = true
  reads : LedgerCodec.read (LedgerCodec.text l) = some l
  whole : ∀ n < (LedgerCodec.text l).length,
    LedgerCodec.read ((LedgerCodec.text l).take n) = none

/-- The file read; a missing or unreadable one is an empty ledger. -/
def readJson (file : Option Bytes) : PegoutLedger :=
  ((file.bind fun b => if utf8Valid b then some b else none).bind LedgerCodec.read).getD ⟨∅⟩

theorem readJson_text {l : PegoutLedger} (hl : Legible l) :
    readJson (some (LedgerCodec.text l)) = l := by
  unfold readJson
  rw [Option.bind_some, if_pos hl.text, Option.bind_some, hl.reads, Option.getD_some]

/-- The file and the round that runs on it, and the burns whose record was in a
completed write. -/
structure PegoutDisk (S J : Type) where
  file : Option Bytes
  round : Option (PegoutRound S J)
  recorded : Set BurnKey

variable {S J : Type}

/-- The file rewritten in place with a round's ledger. -/
def PegoutDisk.writeJson (d : PegoutDisk S J) (r : PegoutRound S J) : WriteFate → PegoutDisk S J
  | .whole => ⟨some (LedgerCodec.text r.ledger), some r, d.recorded ∪ {k | k ∈ r.ledger.paid}⟩
  | .cut n => ⟨some ((LedgerCodec.text r.ledger).take n), none, d.recorded⟩

/-- A reconciliation, and the write that follows one that found a payment. -/
def PegoutDisk.reconcile (d : PegoutDisk S J) (r : PegoutRound S J) (v : ReconcileView)
    (fate : WriteFate) : PegoutDisk S J :=
  let after := v.reconcile r.ledger
  match after.2 with
  | some l => d.writeJson { r with ledger := l } fate
  | none => { d with round := some { r with ledger := after.1 } }

theorem PegoutDisk.reconcile_some (d : PegoutDisk S J) {r : PegoutRound S J} {v : ReconcileView}
    (fate : WriteFate) {l : PegoutLedger} (h : (v.reconcile r.ledger).2 = some l) :
    d.reconcile r v fate = d.writeJson { r with ledger := l } fate := by
  unfold reconcile
  dsimp only
  rw [h]

theorem PegoutDisk.reconcile_none (d : PegoutDisk S J) {r : PegoutRound S J} {v : ReconcileView}
    (fate : WriteFate) (h : (v.reconcile r.ledger).2 = none) :
    d.reconcile r v fate =
      { d with round := some { r with ledger := (v.reconcile r.ledger).1 } } := by
  unfold reconcile
  dsimp only
  rw [h]

/-- The crash is not in a write that it cuts short, unless nothing was recorded. -/
def Untorn (recorded : Set BurnKey) (text : Bytes) : WriteFate → Prop
  | .whole => True
  | .cut n => text.length ≤ n ∨ recorded = ∅

variable [RoundSigner S] [VoteJournal J] [Bitcoin] [PsbtCodec] [EventCodec]

/-- A step of a signer whose writes end as `ends` allows: a start on the file, a
call, a payment the parent took, a reconciliation, or a crash. -/
inductive PaidStep (ends : Set BurnKey → Bytes → WriteFate → Prop) :
    PegoutDisk S J → PegoutDisk S J → Prop
  | started {d : PegoutDisk S J} {fed : Federation} {chainId : Bytes} {custody : Custody S}
      {journal : J} {cfg : PegoutConfig} {r : PegoutRound S J} (hdead : d.round = none)
      (hnew : PegoutRound.new fed chainId custody journal cfg (readJson d.file) = some r) :
      PaidStep ends d { d with round := some r }
  | ticked {d : PegoutDisk S J} {r : PegoutRound S J} (hlive : d.round = some r) (now : ℕ)
      (burns : List Burn) (coins : List PegCoin) :
      PaidStep ends d { d with round := some (PegoutRound.tick now burns coins r).1 }
  | heard {d : PegoutDisk S J} {r : PegoutRound S J} (hlive : d.round = some r) (now : ℕ)
      (ev : Event) (burns : List Burn) :
      PaidStep ends d { d with round := some (PegoutRound.onEvent now ev burns r).1 }
  | broadcast {d : PegoutDisk S J} {r : PegoutRound S J} (hlive : d.round = some r)
      (f : FinalisedPegout) (fate : WriteFate)
      (hl : Legible (r.markPaid f.burn f.record).ledger)
      (hends : ends d.recorded (LedgerCodec.text (r.markPaid f.burn f.record).ledger) fate) :
      PaidStep ends d (d.writeJson (r.markPaid f.burn f.record) fate)
  | reconciled {d : PegoutDisk S J} {r : PegoutRound S J} (hlive : d.round = some r)
      (v : ReconcileView) (fate : WriteFate) (hl : Legible (v.reconcile r.ledger).1)
      (hends : ends d.recorded (LedgerCodec.text (v.reconcile r.ledger).1) fate) :
      PaidStep ends d (d.reconcile r v fate)
  | crashed {d : PegoutDisk S J} : PaidStep ends d { d with round := none }

inductive PaidRun (ends : Set BurnKey → Bytes → WriteFate → Prop) : PegoutDisk S J → Prop
  | fresh : PaidRun ends ⟨none, none, ∅⟩
  | step {d d' : PegoutDisk S J} (h : PaidRun ends d) (hstep : PaidStep ends d d') : PaidRun ends d'

/-! ### Runs that tear no write -/

/-- What a completed write recorded is in the file, and in the running round's ledger. -/
structure Remembered (d : PegoutDisk S J) : Prop where
  file : ∀ key ∈ d.recorded, key ∈ (readJson d.file).paid
  round : ∀ r, d.round = some r → ∀ key ∈ d.recorded, key ∈ r.ledger.paid

omit [RoundSigner S] [VoteJournal J] [Bitcoin] [PsbtCodec] [EventCodec] in
theorem Remembered.writeJson {d : PegoutDisk S J} {r : PegoutRound S J} {fate : WriteFate}
    (hl : Legible r.ledger) (hgrown : ∀ key ∈ d.recorded, key ∈ r.ledger.paid)
    (hends : Untorn d.recorded (LedgerCodec.text r.ledger) fate) :
    Remembered (d.writeJson r fate) := by
  cases fate with
  | whole =>
    have hall : ∀ key ∈ d.recorded ∪ {k | k ∈ r.ledger.paid}, key ∈ r.ledger.paid :=
      fun key hkey => hkey.elim (hgrown key) id
    refine ⟨?_, ?_⟩
    · intro key hkey
      show key ∈ (readJson (some (LedgerCodec.text r.ledger))).paid
      rw [readJson_text hl]
      exact hall key hkey
    · intro r' hr' key hkey
      rw [← Option.some.inj hr']
      exact hall key hkey
  | cut n =>
    refine ⟨?_, fun r' hr' => absurd hr' (by simp [PegoutDisk.writeJson])⟩
    intro key hkey
    rcases hends with hwhole | hnone
    · show key ∈ (readJson (some ((LedgerCodec.text r.ledger).take n))).paid
      rw [List.take_of_length_le hwhole, readJson_text hl]
      exact hgrown key hkey
    · rw [show (d.writeJson r (.cut n)).recorded = d.recorded from rfl, hnone] at hkey
      cases hkey

omit [RoundSigner S] [VoteJournal J] [Bitcoin] [PsbtCodec] [EventCodec] in
theorem Remembered.running {d : PegoutDisk S J} {r r' : PegoutRound S J} (h : Remembered d)
    (hlive : d.round = some r) (hsame : r'.ledger = r.ledger) :
    Remembered { d with round := some r' } := by
  refine ⟨h.file, ?_⟩
  intro r'' hr''
  rw [← Option.some.inj hr'', hsame]
  exact h.round r hlive

theorem Remembered.step {d d' : PegoutDisk S J} (h : Remembered d) (hstep : PaidStep Untorn d d') :
    Remembered d' := by
  cases hstep with
  | started hdead hnew =>
    refine ⟨h.file, ?_⟩
    intro r hr
    rw [← Option.some.inj hr, new_ledger hnew]
    exact h.file
  | ticked hlive now burns coins => exact h.running hlive ((tick_ledger now burns coins).within _)
  | heard hlive now ev burns => exact h.running hlive ((onEvent_ledger now ev burns).within _)
  | broadcast hlive f fate hl hends =>
    exact .writeJson hl (fun key hkey => Finmap.mem_insert.mpr (.inr (h.round _ hlive key hkey)))
      hends
  | @reconciled r hlive v fate hl hends =>
    have hgrown := fun key hkey => mem_reconcile v (h.round r hlive key hkey)
    cases hwritten : (v.reconcile r.ledger).2 with
    | some l =>
      rw [reconcile_written hwritten] at hl hends hgrown
      rw [d.reconcile_some fate hwritten]
      exact .writeJson hl hgrown hends
    | none =>
      rw [d.reconcile_none fate hwritten]
      refine ⟨h.file, ?_⟩
      intro r' hr'
      rw [← Option.some.inj hr']
      exact hgrown
  | crashed => exact ⟨h.file, fun _ hr => absurd hr (by simp)⟩

theorem PaidRun.remembered {d : PegoutDisk S J} (h : PaidRun Untorn d) : Remembered d := by
  induction h with
  | fresh => exact ⟨fun _ hkey => absurd hkey (Set.notMem_empty _), fun _ hr => absurd hr (by simp)⟩
  | step _ hstep ih => exact ih.step hstep

/-- **Paid burns are not forgotten where no write is torn.** In every run whose
crashes cut no write short once a burn is recorded, what a completed write
recorded is in the running round's ledger, so a tick is the one without that
burn; and a restart loads it again. -/
theorem paid_kept {d : PegoutDisk S J} (h : PaidRun Untorn d) {key : BurnKey}
    (hkey : key ∈ d.recorded) :
    (∀ r, d.round = some r → key ∈ r.ledger.paid ∧ ∀ now burns coins,
      PegoutRound.tick now burns coins r =
        PegoutRound.tick now (burns.filter fun b => decide (burnKey b ≠ key)) coins r) ∧
    ∀ fed chainId (custody : Custody S) (journal : J) cfg r,
      PegoutRound.new fed chainId custody journal cfg (readJson d.file) = some r →
        key ∈ r.ledger.paid := by
  have hremembered := h.remembered
  refine ⟨?_, ?_⟩
  · intro r hr
    have hpaid := hremembered.round r hr key hkey
    exact ⟨hpaid, fun now burns coins => tick_paid now burns coins hpaid⟩
  · intro fed chainId custody journal cfg r hnew
    rw [new_ledger hnew]
    exact hremembered.file key hkey

end

/-! ### A torn write -/

section

/-- An object over several lines, so many levels deep. -/
def prettyObject (depth : ℕ) (fields : List Bytes) : Bytes :=
  let line (depth : ℕ) : Bytes := 0x0a :: List.replicate (2 * depth) 0x20
  0x7b :: [0x2c].intercalate (fields.map fun f => line (depth + 1) ++ f) ++ line depth ++ [0x7d]

def prettyField (name value : Bytes) : Bytes := jsonString name ++ [0x3a, 0x20] ++ value

/-- The JSON of a payment whose address is not known, and which was not reconciled. -/
def paidText (p : PaidPegout) : Bytes :=
  prettyObject 2 [
    prettyField (ascii ['p', 'a', 'r', 'e', 'n', 't', 'T', 'x', 'i', 'd'])
      (jsonString (hashText p.parentTxid)),
    prettyField (ascii ['v', 'a', 'l', 'u', 'e']) (decimalText p.value),
    prettyField (ascii ['s', 'c', 'r', 'i', 'p', 't']) (jsonString (hexEncode p.script)),
    prettyField (ascii ['h', 'e', 'i', 'g', 'h', 't']) (decimalText p.height),
    prettyField (ascii ['a', 't']) (decimalText p.time),
    prettyField (ascii ['s', 'i', 'g', 'n', 'e', 'r', 's']) [0x5b, 0x5d]]

def ledgerText (entries : List (BurnKey × PaidPegout)) : Bytes :=
  prettyObject 0 [prettyField (ascii ['p', 'a', 'i', 'd'])
    (prettyObject 1 (entries.map fun e => prettyField (burnKeyText e.1) (paidText e.2)))]

def ledgerOf (entries : List (BurnKey × PaidPegout)) : PegoutLedger :=
  ⟨entries.foldl (fun m e => m.insert e.1 e.2) ∅⟩

/-- A codec that knows the ledgers of a list, by their burns. -/
@[reducible] def sampleLedgerCodec (known : List (List (BurnKey × PaidPegout))) : LedgerCodec where
  text l := ((known.find? fun es => decide (es.map Prod.fst = (es.map Prod.fst).filter (· ∈ l.paid)) &&
    es.length == l.paid.keys.card).map ledgerText).getD []
  read b := (known.find? fun es => ledgerText es == b).map ledgerOf

/-- The payment of an output of a burn transaction. -/
def paidEntry (vout : ℕ) : BurnKey × PaidPegout :=
  ((1, vout), ⟨7, none, 1000, [0x51], 3, 1790000000, [], none⟩)

@[reducible] def twoLedgers : LedgerCodec :=
  sampleLedgerCodec [[paidEntry 0], [paidEntry 0, paidEntry 1]]

attribute [local instance] sampleBitcoin sampleEventCodec keySigner listJournal twoLedgers

/-- The ledgers that the codec knows. -/
def knownLedgers : List (List (BurnKey × PaidPegout)) :=
  [[paidEntry 0], [paidEntry 0, paidEntry 1]]

/-- What the codec makes of each of its ledgers. -/
theorem knownLedgers_read : ∀ es ∈ knownLedgers,
    LedgerCodec.text (ledgerOf es) = ledgerText es ∧ utf8Valid (ledgerText es) = true ∧
      (knownLedgers.find? fun es' => ledgerText es' == ledgerText es) = some es ∧
      (∀ es' ∈ knownLedgers, (ledgerText es).take (ledgerText es').length = ledgerText es' →
        (ledgerText es).length ≤ (ledgerText es').length) ∧ 100 < (ledgerText es).length := by
  decide +kernel

theorem ledgerOf_legible {es : List (BurnKey × PaidPegout)} (hes : es ∈ knownLedgers) :
    Legible (ledgerOf es) := by
  obtain ⟨htext, hutf8, hreads, hpart, -⟩ := knownLedgers_read es hes
  refine ⟨by rw [htext, hutf8], ?_, ?_⟩
  · rw [htext]
    exact congrArg (Option.map ledgerOf) hreads
  · rw [htext]
    intro n hn
    exact congrArg (Option.map ledgerOf) (find_part hpart n hn)

theorem firstLedger_mem : [paidEntry 0] ∈ knownLedgers :=
  List.mem_cons_self

theorem secondLedger_mem : [paidEntry 0, paidEntry 1] ∈ knownLedgers :=
  List.mem_cons_of_mem _ List.mem_cons_self

theorem firstLedger_paid : ((1, 0) : BurnKey) ∈ (ledgerOf [paidEntry 0]).paid := by
  change ((1, 0) : BurnKey) ∈ Finmap.insert (1, 0) (paidEntry 0).2 ∅
  exact Finmap.mem_insert.mpr (.inl rfl)

/-- A round of the sample's first signer with a ledger. -/
def paidRound (l : PegoutLedger) : PegoutRound SecretKey (List VoteEntry) :=
  ⟨sampleConfig, ascii ['d'], sampleSigners, sampleKey 1, ⟨1, []⟩, [], [], ∅, ∅, ∅, l,
    Follower.new kindPegoutPsbt (ascii ['d']), Follower.new kindPegoutSigned (ascii ['d'])⟩

theorem paidRound_new (l : PegoutLedger) :
    PegoutRound.new sampleSigners (ascii ['d']) ⟨1, []⟩ ([] : List VoteEntry) sampleConfig l =
      some (paidRound l) := by
  have hmember : RoundSigner.pubkey (1 : SecretKey) ∈ sampleSigners.signers := List.mem_cons_self
  unfold PegoutRound.new
  rw [if_neg (not_not.mpr hmember)]
  rfl

/-- What the parent took. -/
def finalised (e : BurnKey × PaidPegout) : FinalisedPegout := ⟨e.1, ⟨2, 0, [], []⟩, e.2⟩

@[reducible] def noPsbts : PsbtCodec := samplePsbtCodec []

attribute [local instance] noPsbts

/-- One burn paid, its record in a completed write. -/
theorem onePaid_run {ends : Set BurnKey → Bytes → WriteFate → Prop}
    (hends : ∀ recorded text, ends recorded text .whole) :
    PaidRun ends (⟨some (ledgerText [paidEntry 0]), some (paidRound (ledgerOf [paidEntry 0])),
      ∅ ∪ {k | k ∈ (ledgerOf [paidEntry 0]).paid}⟩ : PegoutDisk SecretKey (List VoteEntry)) := by
  have hstarted : PaidRun ends (⟨none, some (paidRound ⟨∅⟩), ∅⟩ :
      PegoutDisk SecretKey (List VoteEntry)) := .step .fresh (.started rfl (paidRound_new ⟨∅⟩))
  rw [← (knownLedgers_read _ firstLedger_mem).1]
  exact .step hstarted (.broadcast (r := paidRound ⟨∅⟩) rfl (finalised (paidEntry 0)) .whole
    (ledgerOf_legible firstLedger_mem) (hends _ _))

/-- A crash in the write of the second payment, and the first one is forgotten. -/
theorem paid_forgotten : ¬ ∀ d : PegoutDisk SecretKey (List VoteEntry),
    PaidRun (fun _ _ _ => True) d →
      ∀ key ∈ d.recorded, ∀ r, d.round = some r → key ∈ r.ledger.paid := by
  intro hall
  have hkey : ((1, 0) : BurnKey) ∈ (∅ ∪ {k | k ∈ (ledgerOf [paidEntry 0]).paid} : Set BurnKey) :=
    .inr firstLedger_paid
  obtain ⟨htext, -, -, -, hlong⟩ := knownLedgers_read _ secondLedger_mem
  have htorn : PaidRun (fun _ _ _ => True) (⟨some ((LedgerCodec.text
      (ledgerOf [paidEntry 0, paidEntry 1])).take 100), none, _⟩ :
      PegoutDisk SecretKey (List VoteEntry)) := PaidRun.step (@onePaid_run (fun _ _ _ => True) fun _ _ => trivial) (.broadcast
    (r := paidRound (ledgerOf [paidEntry 0])) rfl (finalised (paidEntry 1)) (.cut 100)
    (ledgerOf_legible secondLedger_mem) trivial)
  have hread : LedgerCodec.read ((LedgerCodec.text
      (ledgerOf [paidEntry 0, paidEntry 1])).take 100) = none :=
    (ledgerOf_legible secondLedger_mem).whole 100 (by rw [htext]; exact hlong)
  have hempty : readJson (some ((LedgerCodec.text
      (ledgerOf [paidEntry 0, paidEntry 1])).take 100)) = ⟨∅⟩ := by
    unfold readJson
    rw [Option.bind_some]
    by_cases hvalid : utf8Valid ((LedgerCodec.text
        (ledgerOf [paidEntry 0, paidEntry 1])).take 100) = true
    · rw [if_pos hvalid, Option.bind_some, hread, Option.getD_none]
    · rw [if_neg hvalid, Option.bind_none, Option.getD_none]
  have hpaid := hall _ (.step htorn (.started rfl (paidRound_new _))) (1, 0) hkey _ rfl
  rw [hempty] at hpaid
  exact Finmap.notMem_empty hpaid

theorem paid_kept_sample : ∃ d : PegoutDisk SecretKey (List VoteEntry), ∃ r,
    PaidRun Untorn d ∧ ((1, 0) : BurnKey) ∈ d.recorded ∧ d.round = some r ∧
      (1, 0) ∈ r.ledger.paid := by
  have hkey : ((1, 0) : BurnKey) ∈ (∅ ∪ {k | k ∈ (ledgerOf [paidEntry 0]).paid} : Set BurnKey) :=
    .inr firstLedger_paid
  have hrun := @onePaid_run Untorn fun _ _ => trivial
  exact ⟨_, _, hrun, hkey, rfl, ((paid_kept hrun hkey).1 _ rfl).1⟩

end

end Round

end Sidestr
