/-
# One template for a height

A height is authorised by one guard on both paths of the block round, the own
proposal and the co-signature. With re-signing off it is voted for at most
once: the intent is in the journal, and the guard has the height, before the
custody key is asked, and neither is ever taken back; a signer that restarts
loads the guard from its journal. So no two templates of one height gather the
partial signatures of a majority.

The own proposal is guarded at the tip's next height and recorded at the height
of the block that was built: that these are one is read off the coinbase
(`blockHeight_buildNext`).

Key definitions: `CarriesHeight`, `BlockRound.Safe`, `BlockRound.SignerStep`,
`BlockRound.FederationRun`.
Key theorems: `blockHeight_buildNext`, `BlockRound.FederationRun.safe`, `template_signed_once`.
-/
import Sidestr.Core.Heights
import Sidestr.Round.Block
import Sidestr.Round.PegoutVote

namespace Sidestr

namespace Round

open Method Vote

/-! ### The height of a block built -/

/-- A header built for a height carries that height, where it carries one. -/
def CarriesHeight (H : Type) [HeaderFamily H] : Prop :=
  ∀ prev root time bits height txs,
    HeaderFamily.headerHeight (HeaderFamily.newHeader prev root time bits height txs : H) = none ∨
      HeaderFamily.headerHeight (HeaderFamily.newHeader prev root time bits height txs : H) =
        some height

theorem carriesHeight_stock [Bitcoin] : CarriesHeight Header := fun _ _ _ _ _ _ => Or.inl rfl

section

variable [Bitcoin] {S J C H σ : Type} {held : J → VoteEntry → Prop}

theorem blockHeight_buildBlock [HeaderFamily H] (hcarries : CarriesHeight H) (t : BlockTemplate)
    (h : t.height < 2 ^ 32) : blockHeight (buildBlock t : Block H) = .ok t.height := by
  unfold blockHeight buildBlock
  dsimp only
  rcases hcarries t.prev (merkleRootOfTxs (buildCoinbase t :: t.transactions)) t.time t.bits
    t.height (buildCoinbase t :: t.transactions).length with hnone | hsome
  · rw [hnone]
    exact coinbaseHeight_push h rfl
  · rw [hsome]

/-- The next block is at the height after the tip. -/
theorem blockHeight_buildNext [HeaderFamily H] (hcarries : CarriesHeight H) {s : StateOf H σ}
    {tip : Tip} (htip : s.tip = .ok tip) {next : NextBlock} {block : Block H} {fees : ℕ}
    (h : s.buildNext next = .ok (block, fees)) :
    blockHeight block = .ok (Word.satAdd 32 tip.height 1) := by
  unfold StateOf.buildNext StateOf.buildNextWith at h
  rw [htip, Res.ok_bind] at h
  obtain ⟨_, hlast, h⟩ := Res.bind_eq_ok.mp h
  obtain ⟨_, -, h⟩ := Res.bind_eq_ok.mp h
  obtain ⟨_, -, h⟩ := Res.bind_eq_ok.mp h
  rw [Res.ok.injEq, Prod.mk.injEq] at h
  rw [Res.refuseIf_eq_ok, decide_eq_false_iff_not] at hlast
  obtain ⟨rfl, -⟩ := h
  have hmax : Word.maxVal 32 = 2 ^ 32 - 1 := rfl
  have hnext : Word.satAdd 32 tip.height 1 = tip.height + 1 := by
    unfold Word.satAdd
    omega
  rw [hnext]
  exact blockHeight_buildBlock hcarries _ (by dsimp only; omega)

/-! ### What a call signs -/

namespace BlockRound

/-- A call takes nothing back from the guard and the journal. -/
structure Kept (held : J → VoteEntry → Prop) (a b : Node S J C H) : Prop where
  signed : ∀ h, h ∈ a.round.signed → h ∈ b.round.signed
  journal : ∀ e, held a.round.journal e → held b.round.journal e
  cfg : b.round.cfg = a.round.cfg

/-- A call gives no signature and leaves the guard. -/
structure Calm (held : J → VoteEntry → Prop) (a b : Node S J C H) : Prop where
  signed : b.round.signed = a.round.signed
  journal : ∀ e, held a.round.journal e → held b.round.journal e
  cfg : b.round.cfg = a.round.cfg
  votes : b.round.custody.signed = a.round.custody.signed

/-- A call gives signatures for one template of one height at most. -/
structure Signing (held : J → VoteEntry → Prop) (height : ℕ) (tid : Hash256) (a b : Node S J C H) :
    Prop extends Kept held a b where
  given : ∃ new, b.round.custody.signed = new ++ a.round.custody.signed ∧
    ∀ v ∈ new, v = (height, tid)

theorem Kept.trans {a b c : Node S J C H} (h : Kept held a b) (h' : Kept held b c) :
    Kept held a c :=
  ⟨fun k hk => h'.signed k (h.signed k hk), fun e he => h'.journal e (h.journal e he),
    h'.cfg.trans h.cfg⟩

theorem Calm.refl (nd : Node S J C H) : Calm held nd nd := ⟨rfl, fun _ h => h, rfl, rfl⟩

theorem Calm.trans (a b c : Node S J C H) (h : Calm held a b) (h' : Calm held b c) :
    Calm held a c :=
  ⟨h'.signed.trans h.signed, fun e he => h'.journal e (h.journal e he), h'.cfg.trans h.cfg,
    h'.votes.trans h.votes⟩

theorem Calm.kept {a b : Node S J C H} (h : Calm held a b) : Kept held a b :=
  ⟨fun k hk => (congrArg (k ∈ ·) h.signed).mpr hk, h.journal, h.cfg⟩

theorem Calm.signing {a b : Node S J C H} (h : Calm held a b) (height : ℕ) (tid : Hash256) :
    Signing held height tid a b :=
  ⟨h.kept, [], h.votes, List.forall_mem_nil _⟩

theorem Signing.trans {height : ℕ} {tid : Hash256} (a b c : Node S J C H)
    (h : Signing held height tid a b) (h' : Signing held height tid b c) :
    Signing held height tid a c := by
  obtain ⟨new, hnew, hall⟩ := h.given
  obtain ⟨new', hnew', hall'⟩ := h'.given
  refine ⟨h.toKept.trans h'.toKept, new' ++ new, ?_, ?_⟩
  · rw [hnew', hnew, List.append_assoc]
  · intro v hv
    rcases List.mem_append.mp hv with hv | hv
    · exact hall' v hv
    · exact hall v hv

/-- Whether the guard has a height, in memory and in the journal. -/
def Guard (held : J → VoteEntry → Prop) (nd : Node S J C H) (height : ℕ) : Prop :=
  height ∈ nd.round.signed ∧ ∃ e, held nd.round.journal e ∧ e.scope = .height height

theorem Kept.guard {a b : Node S J C H} (h : Kept held a b) {height : ℕ}
    (hg : Guard held a height) : Guard held b height := by
  obtain ⟨hs, e, he, hscope⟩ := hg
  exact ⟨h.signed height hs, e, h.journal e he, hscope⟩

/-- A signer that does not re-sign, with the heights it has signed for in its guard. -/
structure Safe (held : J → VoteEntry → Prop) (nd : Node S J C H) : Prop where
  guarded : Guarded (Guard held nd) nd.round.custody.signed
  resign : nd.round.cfg.resignAfter = none

theorem Safe.kept {a b : Node S J C H} (hs : Safe held a) (h : Kept held a b)
    (hvotes : b.round.custody.signed = a.round.custody.signed) : Safe held b := by
  refine ⟨?_, ?_⟩
  · rw [hvotes]
    exact hs.guarded.mono fun k hk => h.guard hk
  · rw [h.cfg]
    exact hs.resign

theorem Safe.calm {a b : Node S J C H} (hs : Safe held a) (h : Calm held a b) : Safe held b :=
  hs.kept h.kept h.votes

/-- A height the guard did not have is put into it, and then signed for. -/
theorem Safe.signing {height : ℕ} {tid : Hash256} {a b c : Node S J C H} (hs : Safe held a)
    (hfresh : height ∉ a.round.signed) (hkept : Kept held a b)
    (hvotes : b.round.custody.signed = a.round.custody.signed) (hguard : Guard held b height)
    (h : Signing held height tid b c) : Safe held c := by
  obtain ⟨new, hnew, hall⟩ := h.given
  refine ⟨?_, ?_⟩
  · rw [hnew, hvotes]
    refine hs.guarded.vote (k := height) (a := tid) (fun hk => hfresh hk.1) ?_ hall
      fun _ => h.guard hguard
    intro k hk
    exact h.guard (hkept.guard hk)
  · rw [h.cfg, hkept.cfg]
    exact hs.resign

/-- What runs after a safe part gives no signature. -/
theorem Safe.bind {α β : Type} {x : Method RoundError (Node S J C H) α}
    {f : α → Method RoundError (Node S J C H) β} {nd : Node S J C H} (hx : Safe held (x nd).1)
    (hf : ∀ a, Within (Calm held) (f a)) : Safe held ((x >>= f) nd).1 := by
  rcases hrun : (x >>= f) nd with ⟨nd', res⟩
  rcases bind_cases hrun with ⟨nd₁, a, h₁, h⟩ | ⟨e, h₁, -⟩ | ⟨h₁, -⟩
  · rw [h₁] at hx
    have hcalm := hf a nd₁
    rw [h] at hcalm
    exact hx.calm hcalm
  · rw [h₁] at hx
    exact hx
  · rw [h₁] at hx
    exact hx

/-- An attempt leaves what it attempts leaves. -/
theorem Safe.attempt {α : Type} {x : Method RoundError (Node S J C H) α} {nd : Node S J C H}
    (hx : Safe held (x nd).1) : Safe held (x.attempt nd).1 := by
  unfold Method.attempt
  rcases hrun : x nd with ⟨nd', ⟨a⟩ | ⟨e⟩ | -⟩ <;> rw [hrun] at hx <;> exact hx

/-- A safe rest after a part that gives no signature. -/
theorem Safe.after {α β : Type} {x : Method RoundError (Node S J C H) α}
    {f : α → Method RoundError (Node S J C H) β} {nd : Node S J C H} (hs : Safe held nd)
    (hx : Calm held nd (x nd).1)
    (hf : ∀ nd₁ a, x nd = (nd₁, .ok a) → Calm held nd nd₁ → Safe held nd₁ →
      Safe held (f a nd₁).1) : Safe held ((x >>= f) nd).1 := by
  rcases hrun : (x >>= f) nd with ⟨nd', res⟩
  rcases bind_cases hrun with ⟨nd₁, a, h₁, h⟩ | ⟨e, h₁, -⟩ | ⟨h₁, -⟩
  · rw [h₁] at hx
    have hsafe := hf nd₁ a h₁ hx (hs.calm hx)
    rw [h] at hsafe
    exact hsafe
  · rw [h₁] at hx
    exact hs.calm hx
  · rw [h₁] at hx
    exact hs.calm hx

/-- With re-signing off the guard lets a height through only when it does not have it. -/
theorem Safe.fresh {nd : Node S J C H} (hs : Safe held nd) {height now : ℕ}
    (h : nd.round.mayResign height now = true) : height ∉ nd.round.signed := by
  intro hmem
  obtain ⟨prev, hprev⟩ := Finmap.mem_iff.mp hmem
  unfold mayResign at h
  rw [hprev, hs.resign] at h
  cases h

/-! ### What each part of a call does -/

/-- A change of the round outside of the guard, the journal and the custody. -/
theorem calm_modifyRound {f : BlockRound S J H → BlockRound S J H}
    (hf : ∀ r, (f r).signed = r.signed ∧ (f r).journal = r.journal ∧ (f r).cfg = r.cfg ∧
      (f r).custody.signed = r.custody.signed) :
    Within (Calm held) (modifyRound f : Method RoundError (Node S J C H) Unit) := by
  intro nd
  obtain ⟨hsigned, hjournal, hcfg, hvotes⟩ := hf nd.round
  refine ⟨hsigned, fun e he => ?_, hcfg, hvotes⟩
  change held (f nd.round).journal e
  rw [hjournal]
  exact he

theorem calm_getRound : Within (Calm held)
    (getRound : Method RoundError (Node S J C H) (BlockRound S J H)) := Calm.refl

variable [PartialSigner S] [VoteJournal J]

omit [VoteJournal J] in
theorem calm_signEvent (ev : Option UnsignedEvent) :
    Within (Calm held) (signEvent ev : Method RoundError (Node S J C H) Event) := by
  intro nd
  unfold signEvent
  cases ev with
  | none => exact Calm.refl nd
  | some ev => exact ⟨rfl, fun _ h => h, rfl, rfl⟩

omit [PartialSigner S] in
theorem calm_journalRecord (hd : Durable held) (tid : Hash256) (height : ℕ) (role : VoteRole)
    (subject : Bytes) (time : ℕ) (signature : Option Signature) :
    Within (Calm held) (journalRecord tid height role subject time signature :
      Method RoundError (Node S J C H) Unit) :=
  fun _ => ⟨rfl, fun e he => hd.keeps _ _ e he, rfl, rfl⟩

omit [PartialSigner S] in
/-- A record that returns is in the journal. -/
theorem journalRecord_ok (hd : Durable held) {tid : Hash256} {height : ℕ} {role : VoteRole}
    {subject : Bytes} {time : ℕ} {signature : Option Signature} {nd nd' : Node S J C H}
    (h : journalRecord tid height role subject time signature nd = (nd', .ok ())) :
    ∃ e, held nd'.round.journal e ∧ e.scope = .height height := by
  have hres := congrArg Prod.snd h
  have hnode := congrArg Prod.fst h
  unfold journalRecord at hres hnode
  dsimp only at hres hnode
  rw [← hnode]
  refine ⟨_, hd.wrote _ _ ?_, rfl⟩
  by_contra hno
  rw [if_neg hno] at hres
  cases hres

omit [PartialSigner S] in
/-- An intent gives no signature, and when it returns the guard has the height. -/
theorem intent_cases (hd : Durable held) {tid : Hash256} {height : ℕ} {role : VoteRole}
    {subject : Bytes} {now : ℕ} {nd nd' : Node S J C H} {res : Res RoundError Unit}
    (h : intent tid height role subject now nd = (nd', res)) :
    Kept held nd nd' ∧ nd'.round.custody.signed = nd.round.custody.signed ∧
      (res = .ok () → Guard held nd' height) := by
  have hcalm := calm_journalRecord hd tid height role subject now none nd
  unfold intent at h
  rcases bind_cases h with ⟨nd₁, ⟨⟩, h₁, h⟩ | ⟨e, h₁, rfl⟩ | ⟨h₁, rfl⟩
  · rw [h₁] at hcalm
    cases h
    refine ⟨hcalm.kept.trans ⟨fun k hk => ?_, fun _ he => he, rfl⟩, hcalm.votes, fun _ => ⟨?_, ?_⟩⟩
    · exact Finmap.mem_insert.mpr (Or.inr hk)
    · exact Finmap.mem_insert.mpr (Or.inl rfl)
    · have hheld := journalRecord_ok hd h₁
      exact hheld
  · rw [h₁] at hcalm
    exact ⟨hcalm.kept, hcalm.votes, fun h => by cases h⟩
  · rw [h₁] at hcalm
    exact ⟨hcalm.kept, hcalm.votes, fun h => by cases h⟩

variable [Taproot] [HeaderFamily H]

omit [VoteJournal J] in
theorem signing_askPartial (block : Block H) (height : ℕ) (tid : Hash256) :
    Within (Signing held height tid) (askPartial block height tid :
      Method RoundError (Node S J C H) Signature) := by
  intro nd
  unfold askPartial
  split
  · exact (Calm.refl nd).signing height tid
  · exact (Calm.refl nd).signing height tid
  · dsimp only
    split
    · exact ⟨⟨fun _ h => h, fun _ h => h, rfl⟩, [], rfl, List.forall_mem_nil _⟩
    · exact ⟨⟨fun _ h => h, fun _ h => h, rfl⟩, [(height, tid)], rfl,
        fun v hv => List.mem_singleton.mp hv⟩

/-- What follows an intent signs the template it was for. -/
theorem signing_signAndRecord (hd : Durable held) (block : Block H) (height : ℕ) (tid : Hash256)
    (role : VoteRole) (subject : Bytes) (now : ℕ) :
    Within (Signing held height tid) (signAndRecord block height tid role subject now :
      Method RoundError (Node S J C H) Signature) := by
  refine Within.bind Signing.trans (signing_askPartial block height tid) fun sig => ?_
  refine Within.bind Signing.trans (fun nd => ?_) fun _ => ?_
  · exact (calm_journalRecord hd tid height role subject now (some sig) nd).signing height tid
  · exact fun nd => (Calm.refl nd).signing height tid

omit [PartialSigner S] [Taproot] in
theorem announce_cases (hd : Durable held) {block : Block H} {height : ℕ} {role : VoteRole}
    {subject : Bytes} {now : ℕ} {nd nd' : Node S J C H} {res : Res RoundError Hash256}
    (h : announce block height role subject now nd = (nd', res)) :
    Kept held nd nd' ∧ nd'.round.custody.signed = nd.round.custody.signed ∧
      ∀ tid, res = .ok tid → Guard held nd' height := by
  unfold announce at h
  rcases bind_cases h with ⟨nd₁, tid, h₁, h⟩ | ⟨e, h₁, rfl⟩ | ⟨h₁, rfl⟩
  · obtain rfl : nd = nd₁ := congrArg Prod.fst h₁
    rcases bind_cases h with ⟨nd₂, ⟨⟩, h₂, h⟩ | ⟨e, h₂, rfl⟩ | ⟨h₂, rfl⟩
    · obtain ⟨hkept, hvotes, hguard⟩ := intent_cases hd h₂
      cases h
      exact ⟨hkept, hvotes, fun _ _ => hguard rfl⟩
    · obtain ⟨hkept, hvotes, -⟩ := intent_cases hd h₂
      exact ⟨hkept, hvotes, fun _ h => by cases h⟩
    · obtain ⟨hkept, hvotes, -⟩ := intent_cases hd h₂
      exact ⟨hkept, hvotes, fun _ h => by cases h⟩
  · obtain rfl : nd = nd' := congrArg Prod.fst h₁
    exact ⟨(Calm.refl nd).kept, rfl, fun _ h => by cases h⟩
  · obtain rfl : nd = nd' := congrArg Prod.fst h₁
    exact ⟨(Calm.refl nd).kept, rfl, fun _ h => by cases h⟩

/-- **One guard.** Authorising a template at a height the guard does not have
keeps a signer safe, wherever it stops. -/
theorem Safe.authorise (hd : Durable held) {block : Block H} {height : ℕ} {role : VoteRole}
    {subject : Bytes} {now : ℕ} {nd : Node S J C H} (hs : Safe held nd)
    (hfresh : height ∉ nd.round.signed) :
    Safe held (BlockRound.authorise block height role subject now nd).1 := by
  rcases hrun : BlockRound.authorise block height role subject now nd with ⟨nd', res⟩
  unfold BlockRound.authorise at hrun
  rcases attempt_bind_cases hrun with ⟨nd₁, tid, h₁, h⟩ | ⟨nd₁, e, h₁, h⟩ | ⟨h₁, -⟩
  · obtain ⟨hkept, hvotes, hguard⟩ := announce_cases hd h₁
    have hsign : Signing held height tid nd₁ nd' := by
      rw [show nd' = _ from (congrArg Prod.fst h).symm]
      refine Within.bind Signing.trans
        (Within.attempt (signing_signAndRecord hd _ _ _ _ _ _)) (fun x => ?_) nd₁
      cases x with
      | error e => exact fun nd => (Calm.refl nd).signing height tid
      | ok sig => exact fun nd => (Calm.refl nd).signing height tid
    exact hs.signing hfresh hkept hvotes (hguard tid rfl) hsign
  · obtain ⟨hkept, hvotes, -⟩ := announce_cases hd h₁
    cases h
    exact hs.kept hkept hvotes
  · obtain ⟨hkept, hvotes, -⟩ := announce_cases hd h₁
    exact hs.kept hkept hvotes

/-! ### A proposal of one's own -/

omit [PartialSigner S] [VoteJournal J] [Taproot] [HeaderFamily H] in
theorem getRound_bind {α : Type} (f : BlockRound S J H → Method RoundError (Node S J C H) α)
    (nd : Node S J C H) : (getRound >>= f) nd = f nd.round nd := rfl

omit [Bitcoin] [Taproot] in
theorem ofCore_eq_ok {α : Type} {x : Res Error α} {a : α} : ofCore x = .ok a ↔ x = .ok a := by
  cases x <;> simp [ofCore]

variable [ChainView C H σ]

omit [PartialSigner S] [VoteJournal J] [Taproot] [HeaderFamily H] in
theorem calm_addBlock (block : Block H) (now : ℕ) :
    Within (Calm held) (addBlock block now :
      Method RoundError (Node S J C H) (Except Error Applied)) :=
  fun _ => ⟨rfl, fun _ h => h, rfl, rfl⟩

variable [BlockCodec H]

omit [VoteJournal J] [Taproot] [HeaderFamily H] [ChainView C H σ] in
theorem calm_announceSealed (now : ℕ) (p : Pending H) (sealed : Block H) (a : Applied) :
    Within (Calm held) (announceSealed now p sealed a :
      Method RoundError (Node S J C H) (List RoundAction)) := by
  unfold announceSealed
  refine Within.bind Calm.trans (calm_modifyRound fun r => ⟨rfl, rfl, rfl, rfl⟩) fun _ => ?_
  refine Within.bind Calm.trans calm_getRound fun r => ?_
  refine Within.bind Calm.trans (Within.attempt (calm_signEvent _)) fun published => ?_
  exact Within.pure Calm.refl _

omit [VoteJournal J] [Taproot] in
/-- Counting the signatures, and sealing with them, gives none. -/
theorem calm_maybeSeal (now : ℕ) :
    Within (Calm held) (maybeSeal now : Method RoundError (Node S J C H) (List RoundAction)) := by
  unfold maybeSeal
  refine Within.bind Calm.trans calm_getRound fun r => ?_
  cases r.pending with
  | none => exact Within.pure Calm.refl _
  | some p =>
    dsimp only
    by_cases hfew : p.sigs.keys.card < r.fed.threshold
    · rw [if_pos hfew]
      exact Within.pure Calm.refl _
    · rw [if_neg hfew]
      refine Within.bind Calm.trans (calm_modifyRound fun r => ⟨rfl, rfl, rfl, rfl⟩) fun _ => ?_
      cases sealFederated p.block r.fed p.sigs with
      | panic => exact Within.ofRes Calm.refl _
      | err e => exact Within.pure Calm.refl _
      | ok sealed =>
        refine Within.bind Calm.trans (calm_addBlock sealed now) fun added => ?_
        cases added with
        | error e => exact Within.pure Calm.refl _
        | ok a => exact calm_announceSealed now p sealed a

/-- A proposal at the tip's next height, when the guard does not have it. -/
theorem Safe.propose (hd : Durable held) (hcarries : CarriesHeight H) (now : ℕ)
    {nd : Node S J C H} (hs : Safe held nd) {tip : Tip}
    (htip : (ChainView.state nd.chain).tip = .ok tip)
    (hfresh : Word.satAdd 32 tip.height 1 ∉ nd.round.signed) :
    Safe held (BlockRound.propose now nd).1 := by
  rcases hrun : BlockRound.propose now nd with ⟨nd', res⟩
  unfold BlockRound.propose at hrun
  rw [getRound_bind] at hrun
  rcases read_bind_cases hrun with ⟨wanted, -, h⟩ | ⟨rfl, -, -⟩
  · dsimp only at h
    rcases read_bind_cases h with ⟨⟨block, fees⟩, hbuild, h⟩ | ⟨rfl, -, -⟩
    · dsimp only at h
      rcases ofRes_bind_cases h with ⟨height, hheight, h⟩ | ⟨rfl, -, -⟩
      · -- the height recorded is the one the guard was asked about
        have hsame : height = Word.satAdd 32 tip.height 1 := by
          have hnext := blockHeight_buildNext hcarries htip (ofCore_eq_ok.mp hbuild)
          rw [ofCore_eq_ok.mp hheight] at hnext
          exact Res.ok.inj hnext
        rw [← hsame] at hfresh
        rw [show nd' = _ from (congrArg Prod.fst h).symm]
        refine hs.after (calm_signEvent _ nd) fun nd₁ ev _ hcalm hs₁ => ?_
        have hfresh₁ : height ∉ nd₁.round.signed := by
          rw [hcalm.signed]
          exact hfresh
        refine (hs₁.authorise hd hfresh₁).bind fun answer => ?_
        cases answer with
        | error e => exact Within.ofRes Calm.refl _
        | ok sig =>
          refine Within.bind Calm.trans
            (calm_modifyRound fun r => ⟨rfl, rfl, rfl, rfl⟩) fun _ => ?_
          exact Within.bind Calm.trans (calm_maybeSeal now) fun _ => Within.pure Calm.refl _
      · exact hs
    · exact hs
  · exact hs

omit [PartialSigner S] [VoteJournal J] [Taproot] [HeaderFamily H] [ChainView C H σ] [BlockCodec H] in
/-- Dropping a proposal leaves the chain as it was. -/
theorem tickPending_spec (now tipHeight : ℕ) (nd : Node S J C H) :
    Calm held nd (tickPending now tipHeight nd).1 ∧
      (tickPending now tipHeight nd).1.chain = nd.chain := by
  unfold tickPending
  rw [getRound_bind]
  cases nd.round.pending with
  | none => exact ⟨Calm.refl nd, rfl⟩
  | some p =>
    dsimp only
    by_cases htaken : p.height ≤ tipHeight
    · rw [if_pos htaken]
      exact ⟨⟨rfl, fun _ h => h, rfl, rfl⟩, rfl⟩
    · rw [if_neg htaken]
      by_cases hover : nd.round.ringMs < now - p.time
      · rw [if_pos hover]
        exact ⟨⟨rfl, fun _ h => h, rfl, rfl⟩, rfl⟩
      · rw [if_neg hover]
        exact ⟨Calm.refl nd, rfl⟩

theorem Safe.tickDue (hd : Durable held) (hcarries : CarriesHeight H) (now : ℕ) (due : Bool)
    {nd : Node S J C H} (hs : Safe held nd) {tip : Tip}
    (htip : (ChainView.state nd.chain).tip = .ok tip) :
    Safe held (BlockRound.tickDue now (Word.satAdd 32 tip.height 1) due nd).1 := by
  unfold BlockRound.tickDue
  cases due with
  | false => exact hs.calm ⟨rfl, fun _ h => h, rfl, rfl⟩
  | true =>
    refine hs.after ⟨rfl, fun _ h => h, rfl, rfl⟩ fun nd₁ _ h₁ hcalm hs₁ => ?_
    have hchain : nd₁.chain = nd.chain := by
      cases h₁
      rfl
    rw [← hchain] at htip
    rw [getRound_bind]
    cases hmay : nd₁.round.mayResign (Word.satAdd 32 tip.height 1) now with
    | false => exact hs₁
    | true =>
      cases nd₁.round.entitled nd₁.round.me (Word.satAdd 32 tip.height 1) now with
      | false => exact hs₁
      | true =>
        refine (Safe.attempt (hs₁.propose hd hcarries now htip (hs₁.fresh hmay))).bind
          fun answer => ?_
        cases answer with
        | error e => exact Within.pure Calm.refl _
        | ok actions => exact Within.pure Calm.refl _

theorem Safe.tick (hd : Durable held) (hcarries : CarriesHeight H) (now : ℕ) (due : Bool)
    {nd : Node S J C H} (hs : Safe held nd) : Safe held (BlockRound.tick now due nd).1 := by
  unfold BlockRound.tick
  refine hs.after (Calm.refl nd) fun nd₁ tip h₁ _ hs₁ => ?_
  have htip : (ChainView.state nd₁.chain).tip = .ok tip := by
    cases congrArg Prod.fst h₁
    exact ofCore_eq_ok.mp (congrArg Prod.snd h₁)
  obtain ⟨hcalm, hchain⟩ : Calm held nd₁ _ ∧ _ := tickPending_spec now tip.height nd₁
  refine hs₁.after hcalm fun nd₂ answer h₂ _ hs₂ => ?_
  rw [h₂] at hchain
  rw [← hchain] at htip
  obtain ⟨busy, actions⟩ := answer
  cases busy with
  | true => exact hs₂
  | false => exact (hs₂.tickDue hd hcarries now due htip).bind fun _ => Within.pure Calm.refl _

/-! ### A proposal of another's -/

omit [BlockCodec H] in
/-- Co-signing at a height the guard does not have. -/
theorem Safe.coSign (hd : Durable held) (now : ℕ) (ev : Event) {height : ℕ} (block : Block H)
    {nd : Node S J C H} (hs : Safe held nd) (hfresh : height ∉ nd.round.signed) :
    Safe held (BlockRound.coSign now ev height block nd).1 := by
  unfold BlockRound.coSign
  refine (hs.authorise hd hfresh).bind fun answer => ?_
  rcases answer with ⟨asked, e⟩ | sig
  · cases asked <;> exact Within.pure Calm.refl _
  · refine Within.bind Calm.trans calm_getRound fun r => ?_
    refine Within.bind Calm.trans (Within.attempt (calm_signEvent _)) fun published => ?_
    cases published with
    | error e => exact Within.pure Calm.refl _
    | ok answer => exact Within.pure Calm.refl _

omit [PartialSigner S] [VoteJournal J] [Taproot] [BlockCodec H] in
theorem calm_judgeTemplate (height now : ℕ) (block : Block H) :
    Within (Calm held) (judgeTemplate height now block :
      Method RoundError (Node S J C H) (List RuleId)) := by
  intro nd
  unfold judgeTemplate
  cases (ChainView.state nd.chain).judge (UInt32.ofNat height) block
      (some (UInt32.ofNat (min (now / 1000) (Word.maxVal 32)))) with
  | err e => exact Calm.refl nd
  | panic => exact Calm.refl nd
  | ok verdict => exact ⟨rfl, fun _ h => h, rfl, rfl⟩

omit [PartialSigner S] [VoteJournal J] [Taproot] [HeaderFamily H] [BlockCodec H] in
/-- The mempool's answers, one transaction after another. -/
theorem calm_submitAll : ∀ txs : List Transaction,
    Within (Calm held) (submitAll txs :
      Method RoundError (Node S J C H) (Option (Txid × Error)))
  | [] => Within.pure Calm.refl _
  | tx :: txs => by
    unfold submitAll
    refine Within.bind Calm.trans (Within.read Calm.refl _) fun known => ?_
    cases known with
    | true => exact calm_submitAll txs
    | false =>
      refine Within.bind Calm.trans (fun nd => ?_) fun answer => ?_
      · exact ⟨rfl, fun _ h => h, rfl, rfl⟩
      · cases answer with
        | ok dup => exact calm_submitAll txs
        | err e => exact Within.pure Calm.refl _
        | panic => exact Within.ofRes Calm.refl _

omit [BlockCodec H] in
theorem Safe.judgeProposal (hd : Durable held) (now : ℕ) (ev : Event) {height : ℕ} (tip : Tip)
    (block : Block H) {nd : Node S J C H} (hs : Safe held nd) (hfresh : height ∉ nd.round.signed) :
    Safe held (BlockRound.judgeProposal now ev height tip block nd).1 := by
  unfold BlockRound.judgeProposal
  by_cases htop : HeaderFamily.prev block.header ≠ tip.hash ∨
      HeaderFamily.time block.header ≤ tip.time
  · rw [if_pos htop]
    exact hs
  · rw [if_neg htop]
    refine hs.after (calm_judgeTemplate height now block nd) fun nd₁ failed _ hcalm₁ hs₁ => ?_
    by_cases hfailed : failed ≠ []
    · rw [if_pos hfailed]
      exact hs₁
    · rw [if_neg hfailed]
      refine hs₁.after (calm_submitAll block.txdata.tail nd₁) fun nd₂ refused _ hcalm₂ hs₂ => ?_
      cases refused with
      | some why => exact hs₂
      | none =>
        dsimp only
        rw [getRound_bind]
        cases nd₂.round.checkClaims.bind fun check => check block with
        | some why => exact hs₂
        | none =>
          refine hs₂.coSign hd now ev block ?_
          rw [hcalm₂.signed, hcalm₁.signed]
          exact hfresh

theorem Safe.onProposal (hd : Durable held) (now : ℕ) (ev : Event) {nd : Node S J C H}
    (hs : Safe held nd) : Safe held (BlockRound.onProposal now ev nd).1 := by
  unfold BlockRound.onProposal
  rw [getRound_bind]
  cases heightTag ev.tags with
  | none => exact hs
  | some height =>
    dsimp only
    by_cases hmine : ev.pubkey = nd.round.meHex ∨
        nd.round.ringMs < now - Word.satMul 64 ev.createdAt 1000
    · rw [if_pos hmine]
      exact hs
    · rw [if_neg hmine]
      refine hs.after (Calm.refl nd) fun nd₁ tip h₁ _ hs₁ => ?_
      obtain rfl : nd = nd₁ := congrArg Prod.fst h₁
      by_cases hnext : height ≠ tip.height + 1
      · rw [if_pos hnext]
        exact hs₁
      · rw [if_neg hnext]
        split_ifs with hturn hmay
        · exact hs₁
        · cases nd.round.signed.lookup height with
          | none => exact hs₁
          | some prev => exact hs₁
        · cases (hexDecode (trim ev.content)).bind (BlockCodec.decode (H := H)) with
          | none => exact hs₁
          | some block =>
            exact hs₁.judgeProposal hd now ev tip block (hs₁.fresh (by simpa using hmay))

/-! ### The other events -/

omit [VoteJournal J] in
/-- Counting a partial signature gives none. -/
theorem calm_onPartial (now : ℕ) (ev : Event) :
    Within (Calm held) (onPartial now ev : Method RoundError (Node S J C H) (List RoundAction)) := by
  unfold onPartial
  refine Within.bind Calm.trans calm_getRound fun r => ?_
  cases r.pending with
  | none => exact Within.pure Calm.refl _
  | some p =>
    cases signerFromHex ev.pubkey with
    | none => exact Within.pure Calm.refl _
    | some pk =>
      dsimp only
      by_cases hother : firstTag tagE ev.tags ≠ some p.id ∨ ev.pubkey = r.meHex ∨ pk ∉ r.fed.signers
      · rw [if_pos hother]
        exact Within.pure Calm.refl _
      · rw [if_neg hother]
        cases (hexDecode (trim ev.content)).bind signatureFromSlice with
        | none => exact Within.pure Calm.refl _
        | some sig =>
          refine Within.bind Calm.trans (Within.ofRes Calm.refl _) fun good => ?_
          cases good with
          | false => exact Within.pure Calm.refl _
          | true =>
            refine Within.bind Calm.trans
              (calm_modifyRound fun r => ⟨rfl, rfl, rfl, rfl⟩) fun _ => ?_
            exact Within.bind Calm.trans (calm_maybeSeal now) fun _ => Within.pure Calm.refl _

omit [PartialSigner S] [VoteJournal J] [Taproot] in
theorem calm_onSealed (now : ℕ) (ev : Event) :
    Within (Calm held) (onSealed now ev : Method RoundError (Node S J C H) (List RoundAction)) := by
  unfold onSealed
  refine Within.bind Calm.trans calm_getRound fun r => ?_
  cases heightTag ev.tags with
  | none => exact Within.pure Calm.refl _
  | some height =>
    refine Within.bind Calm.trans (fun nd => Calm.refl nd) fun tip => ?_
    split_ifs with hother
    · exact Within.pure Calm.refl _
    · cases (hexDecode (trim ev.content)).bind (BlockCodec.decode (H := H)) with
      | none => exact Within.pure Calm.refl _
      | some block =>
        refine Within.bind Calm.trans (calm_addBlock block now) fun added => ?_
        cases added with
        | error e => exact Within.pure Calm.refl _
        | ok a =>
          refine Within.bind Calm.trans
            (calm_modifyRound fun r => ⟨rfl, rfl, rfl, rfl⟩) fun _ => ?_
          exact Within.pure Calm.refl _

theorem Safe.onEvent [EventCodec] (hd : Durable held) (now : ℕ) (ev : Event) {nd : Node S J C H}
    (hs : Safe held nd) : Safe held (BlockRound.onEvent now ev nd).1 := by
  unfold BlockRound.onEvent
  rw [getRound_bind]
  by_cases hproposal : ev.kind = kindBlockProposal
  · rw [if_pos hproposal]
    refine hs.after ⟨rfl, fun _ h => h, rfl, rfl⟩ fun nd₁ _ _ _ hs₁ => ?_
    split_ifs
    · exact hs₁.onProposal hd now ev
    · exact hs₁
  · rw [if_neg hproposal]
    by_cases hpartial : ev.kind = kindPartialSignature
    · rw [if_pos hpartial]
      refine hs.after ⟨rfl, fun _ h => h, rfl, rfl⟩ fun nd₁ _ _ _ hs₁ => ?_
      split_ifs
      · exact hs₁.calm (calm_onPartial now ev nd₁)
      · exact hs₁
    · rw [if_neg hpartial]
      by_cases hsealed : ev.kind = kindSealedBlock
      · rw [if_pos hsealed]
        refine hs.after ⟨rfl, fun _ h => h, rfl, rfl⟩ fun nd₁ _ _ _ hs₁ => ?_
        split_ifs
        · exact hs₁.calm (calm_onSealed now ev nd₁)
        · exact hs₁
      · rw [if_neg hsealed]
        exact hs

/-! ### Restarts -/

omit [Bitcoin] [Taproot] in
/-- The guard loaded from the journal has every height the journal has. -/
theorem mem_foldl_guardHeights {height : ℕ} : ∀ {es : List VoteEntry} {guard : Map ℕ SignedAt},
    (height ∈ guard ∨ ∃ e ∈ es, e.scope = .height height) → height ∈ es.foldl guardEntry guard
  | [], guard, h => by
    rcases h with h | ⟨e, he, -⟩
    · exact h
    · cases he
  | e :: es, guard, h => by
    rw [List.foldl_cons]
    refine mem_foldl_guardHeights ?_
    unfold guardEntry
    rcases h with h | ⟨e', he', hscope⟩
    · left
      cases e.scope with
      | height _ => exact Finmap.mem_insert.mpr (Or.inr h)
      | burn _ => exact h
    · rcases List.mem_cons.mp he' with rfl | he'
      · left
        rw [hscope]
        exact Finmap.mem_insert.mpr (Or.inl rfl)
      · exact Or.inr ⟨e', he', hscope⟩

/-- A stopped signer: its key and its journal. -/
structure Stopped (held : J → VoteEntry → Prop) (c : TemplateCustody S) (j : J) : Prop where
  guarded : Guarded (fun height => ∃ e, held j e ∧ e.scope = .height height) c.signed

omit [PartialSigner S] [VoteJournal J] [Taproot] [HeaderFamily H] [BlockCodec H] in
theorem Safe.stop {nd : Node S J C H} (hs : Safe held nd) :
    Stopped held nd.round.custody nd.round.journal :=
  ⟨hs.guarded.mono fun _ hk => hk.2⟩

omit [HeaderFamily H] [ChainView C H σ] [BlockCodec H] in
/-- A signer that starts has in its guard what it signed for before it stopped. -/
theorem Safe.new (hd : Durable held) {s : StateOf H σ} {c : TemplateCustody S} {j : J}
    {cfg : RoundConfig} {check : Option (Block H → Option Bytes)} {r : BlockRound S J H}
    (h : BlockRound.new s c j cfg check = .ok r) (hs : Stopped held c j)
    (hresign : cfg.resignAfter = none) (chain : C) : Safe held (⟨r, chain⟩ : Node S J C H) := by
  unfold BlockRound.new at h
  obtain ⟨fed, -, h⟩ := Res.bind_eq_ok.mp h
  obtain ⟨me, -, h⟩ := Res.bind_eq_ok.mp h
  obtain ⟨_, -, h⟩ := Res.bind_eq_ok.mp h
  obtain ⟨es, hes, h⟩ := Res.bind_eq_ok.mp h
  rw [Res.okOr_eq_ok] at hes
  cases hgenesis : s.hashes.head? with
  | none =>
    rw [hgenesis] at h
    cases h
  | some genesisHash =>
    rw [hgenesis] at h
    cases h
    refine ⟨hs.guarded.mono ?_, hresign⟩
    rintro height ⟨e, he, hscope⟩
    exact ⟨mem_foldl_guardHeights (Or.inr ⟨e, hd.reads j es hes e he, hscope⟩), e, he, hscope⟩

/-! ### The federation -/

/-- A signer of the federation: stopped, or running its round over its chain. -/
inductive SignerState (S J C H : Type) [Bitcoin] where
  | stopped (c : TemplateCustody S) (j : J)
  | running (nd : Node S J C H)

/-- The templates a signer's key has given a partial signature for. -/
def SignerState.votes : SignerState S J C H → List (ℕ × Hash256)
  | .stopped c _ => c.signed
  | .running nd => nd.round.custody.signed

variable [EventCodec]

/-- What one signer does next: a start from its journal over any chain, a stop,
a tick, any event from anyone, claims asked for, or its chain changed by
something else. -/
inductive SignerStep (fed : TaprootFederation) :
    SignerState S J C H → SignerState S J C H → Prop
  | start {c j cfg check r chain} (hresign : cfg.resignAfter = none) (hfed : r.fed = fed)
      (h : BlockRound.new (ChainView.state chain) c j cfg check = .ok r) :
      SignerStep fed (.stopped c j) (.running ⟨r, chain⟩)
  | stop {nd} : SignerStep fed (.running nd) (.stopped nd.round.custody nd.round.journal)
  | tick {nd} (now due) : SignerStep fed (.running nd) (.running (BlockRound.tick now due nd).1)
  | event {nd} (now ev) : SignerStep fed (.running nd) (.running (BlockRound.onEvent now ev nd).1)
  | wanted {nd} (claims) :
      SignerStep fed (.running nd) (.running { nd with round := nd.round.wantClaims claims })
  | chain {nd} (c) : SignerStep fed (.running nd) (.running { nd with chain := c })

/-- A stopped signer that has signed nothing. -/
def SignerState.Fresh : SignerState S J C H → Prop
  | .stopped c _ => c.signed = []
  | .running _ => False

/-- The runs of a federation's signers, from signers that have signed nothing.
What is sent may arrive at any time, any number of times, or never: an event is
from anyone. -/
def FederationRun (fed : TaprootFederation) :
    (Fin fed.signers.length → SignerState S J C H) → Prop :=
  Run SignerState.Fresh (SignerStep fed)

/-- What holds of every signer in every state of a run. -/
def SignerState.Safe (held : J → VoteEntry → Prop) : SignerState S J C H → Prop
  | .stopped c j => Stopped held c j
  | .running nd => BlockRound.Safe held nd

theorem SignerStep.safe (hd : Durable held) (hcarries : CarriesHeight H) {fed : TaprootFederation}
    {s s' : SignerState S J C H} (h : SignerStep fed s s') (hs : s.Safe held) : s'.Safe held := by
  cases h with
  | start hresign hfed h => exact BlockRound.Safe.new hd h hs hresign _
  | stop => exact BlockRound.Safe.stop hs
  | tick now due => exact BlockRound.Safe.tick hd hcarries now due hs
  | event now ev => exact BlockRound.Safe.onEvent hd now ev hs
  | wanted claims => exact BlockRound.Safe.calm hs ⟨rfl, fun _ h => h, rfl, rfl⟩
  | chain c => exact BlockRound.Safe.calm hs ⟨rfl, fun _ h => h, rfl, rfl⟩

omit [PartialSigner S] [VoteJournal J] [Taproot] [HeaderFamily H] [ChainView C H σ] [BlockCodec H]
  [EventCodec] in
theorem SignerState.Fresh.safe {s : SignerState S J C H} (h : s.Fresh) : s.Safe held := by
  rcases s with ⟨c, j⟩ | nd
  · refine ⟨?_⟩
    rw [show c.signed = [] from h]
    exact Guarded.nil
  · exact absurd h id

theorem FederationRun.safe (hd : Durable held) (hcarries : CarriesHeight H)
    {fed : TaprootFederation} {w : Fin fed.signers.length → SignerState S J C H}
    (h : FederationRun fed w) : ∀ i, (w i).Safe held :=
  Run.holds (fun _ hfresh => hfresh.safe) (fun _ _ hstep hs => hstep.safe hd hcarries hs) h

omit [PartialSigner S] [VoteJournal J] [Taproot] [HeaderFamily H] [ChainView C H σ] [BlockCodec H]
  [EventCodec] in
theorem SignerState.Safe.guarded {s : SignerState S J C H} (h : s.Safe held) :
    ∃ guard, Guarded guard s.votes := by
  cases s with
  | stopped c j => exact ⟨_, Stopped.guarded h⟩
  | running nd => exact ⟨_, BlockRound.Safe.guarded h⟩

end BlockRound

end

/-! ### A run -/

namespace BlockRound

section

attribute [local instance] sampleBitcoin sampleTaproot sampleEventCodec keySigner listJournal

/-- A key that signs whatever template it is asked. -/
@[reducible] def templateSigner : PartialSigner SecretKey where
  toRoundSigner := keySigner
  signPartial key req := (key, some (sampleSignature key req.digest))

/-- A chain in memory and nothing else. -/
@[reducible] def stateView : ChainView (StateOf Header Unit) Header Unit where
  state s := s
  kept s _ := s
  submit s tx :=
    match s.submit tx with
    | .ok (s', submitted) => (s', .ok submitted)
    | .err e => (s, .err e)
    | .panic => (s, .panic)
  addBlock s block now :=
    match s.apply (UInt32.ofNat s.hashes.length) block none (some (UInt32.ofNat now)) with
    | .ok (s', .ok a) => (s', .ok a)
    | .ok (s', .error e) => (s', .err e)
    | .err e => (s, .err e)
    | .panic => (s, .panic)

/-- A codec that reads back the blocks of a list. -/
@[reducible] def sampleBlockCodec (known : List (Block Header)) : BlockCodec Header where
  encode block := block.header.encode ++ block.txdata.flatMap serializeTx
  decode b := known.find? fun block =>
    block.header.encode ++ block.txdata.flatMap serializeTx == b

attribute [local instance] templateSigner stateView

/-- The federation of the sample's three signers. -/
def sampleFed : TaprootFederation where
  signers := Sidestr.sampleSigners
  threshold := 2
  script := sampleLeaf
  leafHash := 1
  internalKey := (numsKey sampleDoc.id).getD []
  outputKey := displayBytes 1
  parity := false
  controlBlock := 0xc0 :: (numsKey sampleDoc.id).getD []

/-- The sample's chain at its genesis, with the federation. -/
def sampleChain : Option (StateOf Header Unit) :=
  match sampleRun (fun _ _ => true) sampleDoc [] () 1 fun _ => [] with
  | .ok (_, s) => some { s with federation := some sampleFed.toFederation }
  | _ => none

/-- What a signer of the run is asked to do. -/
inductive NodeCall where
  | start
  | tick (now : ℕ)
  | event (now : ℕ) (ev : Event)

/-- A start of a signer of the sample's federation. -/
def startNode (chain : StateOf Header Unit) (c : TemplateCustody SecretKey) (j : List VoteEntry) :
    Option (SignerState SecretKey (List VoteEntry) (StateOf Header Unit) Header) :=
  match BlockRound.new chain c j ⟨30, none⟩ none with
  | .ok r => if r.fed = sampleFed then some (.running ⟨r, chain⟩) else none
  | _ => none

theorem startNode_step [BlockCodec Header] {chain : StateOf Header Unit}
    {c : TemplateCustody SecretKey} {j : List VoteEntry}
    {s : SignerState SecretKey (List VoteEntry) (StateOf Header Unit) Header}
    (h : startNode chain c j = some s) : SignerStep sampleFed (.stopped c j) s := by
  unfold startNode at h
  rcases hnew : BlockRound.new chain c j ⟨30, none⟩ none with r | e | -
  · rw [hnew] at h
    dsimp only at h
    split_ifs at h with hfed
    rw [← Option.some.inj h]
    exact .start rfl hfed hnew
  · rw [hnew] at h
    exact absurd h (by simp)
  · rw [hnew] at h
    exact absurd h (by simp)

/-- A call of a signer, and the event it publishes. -/
def callNode [BlockCodec Header] (chain : StateOf Header Unit) :
    SignerState SecretKey (List VoteEntry) (StateOf Header Unit) Header → NodeCall →
      Option (SignerState SecretKey (List VoteEntry) (StateOf Header Unit) Header × Option Event)
  | .stopped c j, .start => (startNode chain c j).map fun s => (s, none)
  | .running nd, .tick now =>
    let after := BlockRound.tick now true nd
    some (.running after.1, match after.2 with
      | .ok (_ :: .publish ev :: _) => some ev
      | _ => none)
  | .running nd, .event now ev => some (.running (BlockRound.onEvent now ev nd).1, none)
  | _, _ => none

theorem callNode_step [BlockCodec Header] {chain : StateOf Header Unit} {call : NodeCall}
    {ev : Option Event}
    {s s' : SignerState SecretKey (List VoteEntry) (StateOf Header Unit) Header}
    (h : callNode chain s call = some (s', ev)) : SignerStep sampleFed s s' := by
  rcases s with ⟨c, j⟩ | nd
  · rcases call with - | now | ⟨now, received⟩
    · obtain ⟨started, hstart, h⟩ := Option.map_eq_some_iff.mp h
      obtain rfl : started = s' := congrArg Prod.fst h
      exact startNode_step hstart
    · cases h
    · cases h
  · rcases call with - | now | ⟨now, received⟩
    · cases h
    · obtain rfl : _ = s' := congrArg Prod.fst (Option.some.inj h)
      exact .tick now true
    · obtain rfl : _ = s' := congrArg Prod.fst (Option.some.inj h)
      exact .event now received

def firstNode : Fin sampleFed.signers.length := ⟨0, by decide⟩

def secondNode : Fin sampleFed.signers.length := ⟨1, by decide⟩

/-- The second signer, whose turn it is, proposes the block after the genesis
and the first co-signs it. -/
def sampleVoting [BlockCodec Header] : Option (Fin sampleFed.signers.length →
    SignerState SecretKey (List VoteEntry) (StateOf Header Unit) Header) := do
  let chain ← sampleChain
  let w₀ := fun i : Fin sampleFed.signers.length =>
    SignerState.stopped ⟨(i : ℕ) + 1, []⟩ ([] : List VoteEntry)
  let a ← callNode chain (w₀ firstNode) .start
  let w₁ := Function.update w₀ firstNode a.1
  let b ← callNode chain (w₁ secondNode) .start
  let w₂ := Function.update w₁ secondNode b.1
  let c ← callNode chain (w₂ secondNode) (.tick 1790000100000)
  let w₃ := Function.update w₂ secondNode c.1
  let ev ← c.2
  let d ← callNode chain (w₃ firstNode) (.event 1790000101000 ev)
  some (Function.update w₃ firstNode d.1)

theorem sampleVoting_run [BlockCodec Header] {w : Fin sampleFed.signers.length →
    SignerState SecretKey (List VoteEntry) (StateOf Header Unit) Header}
    (h : sampleVoting = some w) : FederationRun sampleFed w := by
  unfold sampleVoting at h
  obtain ⟨chain, -, h⟩ := Option.bind_eq_some_iff.mp h
  obtain ⟨⟨a, aev⟩, ha, h⟩ := Option.bind_eq_some_iff.mp h
  obtain ⟨⟨b, bev⟩, hb, h⟩ := Option.bind_eq_some_iff.mp h
  obtain ⟨⟨c, cev⟩, hc, h⟩ := Option.bind_eq_some_iff.mp h
  obtain ⟨ev, -, h⟩ := Option.bind_eq_some_iff.mp h
  obtain ⟨⟨d, dev⟩, hd, h⟩ := Option.bind_eq_some_iff.mp h
  rw [← Option.some.inj h]
  refine .step (.step (.step (.step (.init fun _ => rfl) ?_) ?_) ?_) ?_
  · exact callNode_step ha
  · exact callNode_step hb
  · exact callNode_step hc
  · exact callNode_step hd

/-- The blocks proposed in the run, which their own proposer needs not read. -/
def sampleProposed : List (Block Header) :=
  match @sampleVoting (sampleBlockCodec []) with
  | none => []
  | some w =>
    match w secondNode with
    | .running nd => nd.round.pending.toList.map Pending.block
    | .stopped _ _ => []

/-- The template they are of. -/
def sampleTemplate : Hash256 :=
  match @sampleVoting (sampleBlockCodec []) with
  | none => 0
  | some w => ((w secondNode).votes.map Prod.snd).headD 0

end

end BlockRound

end Round

end Sidestr
