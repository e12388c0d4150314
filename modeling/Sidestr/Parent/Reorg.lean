/-
# Peg-ins across reorganisations

What the ticks of a signer say about the parent when its best chain changes
between them (`peg_tick` of `node.rs`). The scan keeps a height and no block
hash: a height it has scanned is never scanned again, and what was found there
stays recorded. So the record is right as long as every later chain has, at the
heights already scanned, the peg-ins that were found there.

Key definitions: `Scanned`, `PegRun`, `Scanned.Covers`, `Scanned.Unreplaced`.
Key theorems: `Scanned.Sound.tick`, `sound_of_run`, `covers_of_unreplaced`,
`replaced_tail`.
-/
import Sidestr.Parent.Pegin
import Sidestr.Core.Sample

namespace Sidestr

namespace Parent

/-- A peg-in state, with what the scan of each height found. -/
structure Scanned where
  state : PeginState
  found : ℕ → List FoundPegin

/-- Nothing scanned yet, `first` being the first height to scan. -/
def Scanned.fresh (first : ℕ) : Scanned := ⟨⟨first - 1, []⟩, fun _ => []⟩

/-- What a restart makes of `pegins.json`. -/
def Scanned.reload (file : Scanned) (first : ℕ) : Scanned :=
  if file.state = ⟨0, []⟩ then .fresh first else file

section

variable [Bitcoin]

/-- Whether the tick's scan succeeds. -/
def ParentView.ScanSucceeds (view : ParentView) (cfg : PegConfig) (claimedTx : Txid → Bool)
    (s : PeginState) : Prop :=
  view.reachable = true ∧ (s.scan cfg view claimedTx).isSome = true

namespace Scanned

variable (m : Scanned) (cfg : PegConfig) (first : ℕ) (view : ParentView) (claimedTx : Txid → Bool)

/-- After a tick: the heights just scanned have the view's peg-ins. -/
def tick : Scanned where
  state := (pegTick cfg view claimedTx m.state).1
  found h := if m.state.scanned < h ∧ h ≤ (pegTick cfg view claimedTx m.state).1.scanned then
    view.judged cfg h else m.found h

/-- What a tick should leave: when its scan succeeded, every peg-in of the best
chain from `first` on is claimed, or recorded as it is there; and every claim it
hands on is of a peg-in of the best chain, deep enough. -/
def Covers : Prop :=
  (view.ScanSucceeds cfg claimedTx m.state → ∀ h, first ≤ h → ∀ p ∈ view.judged cfg h,
    claimedTx p.txid = true ∨ p ∈ (m.tick cfg view claimedTx).state.pegins) ∧
  ∀ claims, (pegTick cfg view claimedTx m.state).2 = some claims → ∀ c ∈ claims,
    ∃ h, ∃ p ∈ view.judged cfg h, c = p.request ∧
      h + cfg.pegConfirmations ≤ view.chain.tip + 1

/-- The best chain has, at the heights scanned before, the unclaimed peg-ins
that were found there. A height above the tip counts only where its peg-ins
would pass for deep enough, which no confirmations at all allow. -/
def Unreplaced : Prop :=
  ∀ h, first ≤ h → (h : ℤ) ≤ m.state.scanned →
    h ≤ view.chain.tip ∨ h + cfg.pegConfirmations ≤ view.chain.tip + 1 →
    ∀ p : FoundPegin, claimedTx p.txid = false → (p ∈ view.judged cfg h ↔ p ∈ m.found h)

end Scanned

/-- The runs of a signer whose ticks all meet `ok`: what is claimed on the
sidechain, the state in memory and the one in the file. A tick's write may fail
or tear the file, which then reads as none. Claims only grow. -/
inductive PegRun (cfg : PegConfig) (first : ℕ)
    (ok : Scanned → ParentView → (Txid → Bool) → Prop) :
    (Txid → Bool) → Scanned → Scanned → Prop
  | start (claimedTx : Txid → Bool) : PegRun cfg first ok claimedTx (.fresh first) (.fresh first)
  | tick {claimedTx : Txid → Bool} {m file file' : Scanned} (view : ParentView) :
      PegRun cfg first ok claimedTx m file → ok m view claimedTx →
      file' = file ∨ file' = m.tick cfg view claimedTx ∨ file' = .fresh first →
      PegRun cfg first ok claimedTx (m.tick cfg view claimedTx) file'
  | claim {claimedTx claimedTx' : Txid → Bool} {m file : Scanned} :
      PegRun cfg first ok claimedTx m file →
      (∀ t, claimedTx t = true → claimedTx' t = true) → PegRun cfg first ok claimedTx' m file
  | restart {claimedTx : Txid → Bool} {m file : Scanned} :
      PegRun cfg first ok claimedTx m file → PegRun cfg first ok claimedTx (file.reload first) file

/-! ### What a tick does -/

/-- A scan leaves the state alone when there is nothing above it, and else
appends the new peg-ins of the heights up to the tip. -/
theorem scan_cases {cfg : PegConfig} {view : ParentView} {claimedTx : Txid → Bool}
    {s s' : PeginState} (h : s.scan cfg view claimedTx = some s') :
    (view.chain.tip ≤ s.scanned ∧ s' = s) ∨
    (s.scanned < view.chain.tip ∧ s' = ⟨view.chain.tip, s.pegins ++
      newPegins claimedTx (s.pegins.map FoundPegin.txid)
        ((List.range' (s.scanned + 1).toNat
          (view.chain.tip + 1 - (s.scanned + 1).toNat)).flatMap (view.judged cfg))⟩) := by
  unfold PeginState.scan at h
  dsimp only at h
  split_ifs at h with hlt
  · obtain ⟨found, hfound, h⟩ := Option.map_eq_some_iff.mp h
    rw [scanPegins_eq hfound] at h
    exact .inr ⟨hlt, h.symm⟩
  · rw [Option.some.injEq] at h
    exact .inl ⟨by omega, h.symm⟩

/-- The state after a tick is the one before it or the one its scan gives. -/
theorem pegTick_cases (cfg : PegConfig) (view : ParentView) (claimedTx : Txid → Bool)
    (s : PeginState) :
    (pegTick cfg view claimedTx s).1 = s ∨
      s.scan cfg view claimedTx = some (pegTick cfg view claimedTx s).1 := by
  unfold pegTick
  split_ifs with hr
  · exact .inl rfl
  · dsimp only
    cases hscan : s.scan cfg view claimedTx with
    | none => exact .inl rfl
    | some s' => exact .inr rfl

/-- A claim handed on is of a peg-in recorded before or found on the chain. -/
theorem mem_pegTick_claims {cfg : PegConfig} {view : ParentView} {claimedTx : Txid → Bool}
    {s : PeginState} {claims : List ClaimRequest} {c : ClaimRequest}
    (h : (pegTick cfg view claimedTx s).2 = some claims) (hc : c ∈ claims) :
    ∃ p : FoundPegin, (p ∈ s.pegins ∨ p ∈ view.judged cfg p.height) ∧ c = p.request ∧
      p.height + cfg.pegConfirmations ≤ view.chain.tip + 1 ∧ claimedTx p.txid = false := by
  unfold pegTick at h
  split_ifs at h with hr
  dsimp only at h
  rw [Option.some.injEq] at h
  rw [← h] at hc
  obtain ⟨p, hp, rfl, hdeep, hun⟩ := mem_claimable hc
  refine ⟨p, ?_, rfl, hdeep, hun⟩
  cases hscan : s.scan cfg view claimedTx with
  | none =>
    rw [hscan] at hp
    exact .inl hp
  | some s' =>
    rw [hscan] at hp
    change p ∈ s'.pegins at hp
    rcases scan_cases hscan with ⟨-, rfl⟩ | ⟨-, rfl⟩
    · exact .inl hp
    · rcases List.mem_append.mp hp with hp | hp
      · exact .inl hp
      · obtain ⟨h', -, hpj⟩ := List.mem_flatMap.mp (mem_of_mem_newPegins hp)
        rw [(height_of_judged hpj).1]
        exact .inr hpj

/-- The new peg-ins of the heights above the last scanned one. -/
def Scanned.fresher (m : Scanned) (cfg : PegConfig) (view : ParentView)
    (claimedTx : Txid → Bool) : List FoundPegin :=
  newPegins claimedTx (m.state.pegins.map FoundPegin.txid)
    ((List.range' (m.state.scanned + 1).toNat
      (view.chain.tip + 1 - (m.state.scanned + 1).toNat)).flatMap (view.judged cfg))

/-- A tick changes nothing, or it scans up to the tip. -/
theorem Scanned.tick_cases (m : Scanned) (cfg : PegConfig) (view : ParentView)
    (claimedTx : Txid → Bool) :
    m.tick cfg view claimedTx = m ∨
      m.state.scanned < view.chain.tip ∧ (m.tick cfg view claimedTx).state =
        ⟨view.chain.tip, m.state.pegins ++ m.fresher cfg view claimedTx⟩ := by
  have hsame (he : (pegTick cfg view claimedTx m.state).1 = m.state) :
      m.tick cfg view claimedTx = m := by
    unfold Scanned.tick
    rw [he]
    have hnone : ∀ h : ℕ, ¬ (m.state.scanned < h ∧ (h : ℤ) ≤ m.state.scanned) := by omega
    simp only [hnone, if_false]
  rcases pegTick_cases cfg view claimedTx m.state with he | hscan
  · exact .inl (hsame he)
  · rcases scan_cases hscan with ⟨-, he⟩ | ⟨hlt, hnew⟩
    · exact .inl (hsame he)
    · exact .inr ⟨hlt, hnew⟩

/-! ### What a run keeps -/

/-- The record is sound: it is of what the scans found, and it has what they
found but is not claimed. -/
structure Scanned.Sound (m : Scanned) (first : ℕ) (claimedTx : Txid → Bool) : Prop where
  start : (first : ℤ) - 1 ≤ m.state.scanned
  recorded : ∀ p ∈ m.state.pegins,
    first ≤ p.height ∧ (p.height : ℤ) ≤ m.state.scanned ∧ p ∈ m.found p.height
  kept : ∀ h, first ≤ h → (h : ℤ) ≤ m.state.scanned → ∀ p ∈ m.found h,
    claimedTx p.txid = true ∨ p ∈ m.state.pegins

namespace Scanned.Sound

variable {m : Scanned} {cfg : PegConfig} {first : ℕ} {view : ParentView} {claimedTx : Txid → Bool}

omit [Bitcoin] in
theorem fresh : (Scanned.fresh first).Sound first claimedTx where
  start := le_refl _
  recorded p h := by simp [Scanned.fresh] at h
  kept h _ _ p hp := by simp [Scanned.fresh] at hp

omit [Bitcoin] in
theorem reload (hs : m.Sound first claimedTx) : (m.reload first).Sound first claimedTx := by
  unfold Scanned.reload
  split_ifs
  · exact fresh
  · exact hs

omit [Bitcoin] in
theorem claim {claimedTx' : Txid → Bool} (hs : m.Sound first claimedTx)
    (hgrow : ∀ t, claimedTx t = true → claimedTx' t = true) : m.Sound first claimedTx' where
  start := hs.start
  recorded := hs.recorded
  kept h hfirst hle p hp := (hs.kept h hfirst hle p hp).imp_left (hgrow p.txid)

/-- An unclaimed peg-in of a new height that a scan takes for known is the recorded one. -/
theorem known (hs : m.Sound first claimedTx) (hok : m.Unreplaced cfg first view claimedTx)
    (hlt : m.state.scanned < view.chain.tip) {h : ℕ} {p : FoundPegin}
    (hp : p ∈ view.judged cfg h) (hc : claimedTx p.txid = false)
    (hk : p.txid ∈ m.state.pegins.map FoundPegin.txid) : p ∈ m.state.pegins := by
  obtain ⟨q, hq, he⟩ := List.mem_map.mp hk
  obtain ⟨hfirst, hle, hfound⟩ := hs.recorded q hq
  have hqj : q ∈ view.judged cfg q.height :=
    (hok q.height hfirst hle (.inl (by omega)) q (by rw [he]; exact hc)).mpr hfound
  rw [ParentView.judged_unique hp hqj he.symm]
  exact hq

/-- What a scan finds at the new heights is claimed or recorded by it. -/
theorem scanned_kept (hs : m.Sound first claimedTx)
    (hok : m.Unreplaced cfg first view claimedTx) (hlt : m.state.scanned < view.chain.tip)
    {h : ℕ} (hnew : m.state.scanned < h) {p : FoundPegin} (hp : p ∈ view.judged cfg h) :
    claimedTx p.txid = true ∨ p ∈ m.state.pegins ++ m.fresher cfg view claimedTx := by
  have htip := (height_of_judged hp).2
  have hin : h ∈ List.range' (m.state.scanned + 1).toNat
      (view.chain.tip + 1 - (m.state.scanned + 1).toNat) := by
    rw [List.mem_range'_1]
    omega
  by_cases hc : claimedTx p.txid = true
  · exact .inl hc
  rw [Bool.not_eq_true] at hc
  right
  rw [List.mem_append]
  have hall := List.mem_flatMap.mpr ⟨h, hin, hp⟩
  rcases newPegins_covers claimedTx (m.state.pegins.map FoundPegin.txid) hall with
    hcl | hk | ⟨q, hq, he⟩
  · rw [hc] at hcl
    exact absurd hcl Bool.false_ne_true
  · exact .inl (hs.known hok hlt hp hc hk)
  · -- the new peg-in of its transaction: one chain has one
    obtain ⟨h', -, hqj⟩ := List.mem_flatMap.mp (mem_of_mem_newPegins hq)
    rw [ParentView.judged_unique hp hqj he.symm]
    exact .inr hq

/-- A tick keeps the record sound. -/
theorem tick (hs : m.Sound first claimedTx) (hok : m.Unreplaced cfg first view claimedTx) :
    (m.tick cfg view claimedTx).Sound first claimedTx := by
  have hstart := hs.start
  rcases m.tick_cases cfg view claimedTx with he | ⟨hlt, hnew⟩
  · rw [he]
    exact hs
  have hstate : (pegTick cfg view claimedTx m.state).1 =
      ⟨view.chain.tip, m.state.pegins ++ m.fresher cfg view claimedTx⟩ := hnew
  have hfound : ∀ h : ℕ, (m.tick cfg view claimedTx).found h =
      if m.state.scanned < h ∧ h ≤ (view.chain.tip : ℤ) then view.judged cfg h else m.found h := by
    intro h
    show (if _ then _ else _) = _
    rw [hstate]
  constructor
  · rw [hnew]
    show (first : ℤ) - 1 ≤ view.chain.tip
    omega
  · intro p hp
    rw [hnew] at hp ⊢
    rw [hfound]
    show first ≤ p.height ∧ (p.height : ℤ) ≤ view.chain.tip ∧ _
    rcases List.mem_append.mp hp with hp | hp
    · obtain ⟨hfirst, hle, hin⟩ := hs.recorded p hp
      rw [if_neg (by omega)]
      exact ⟨hfirst, by omega, hin⟩
    · obtain ⟨h, hh, hpj⟩ := List.mem_flatMap.mp (mem_of_mem_newPegins hp)
      obtain ⟨rfl, htip⟩ := height_of_judged hpj
      rw [List.mem_range'_1] at hh
      rw [if_pos (by omega)]
      exact ⟨by omega, by omega, hpj⟩
  · intro h hfirst hle p hp
    rw [hnew] at hle ⊢
    rw [hfound] at hp
    show claimedTx p.txid = true ∨ p ∈ m.state.pegins ++ m.fresher cfg view claimedTx
    split_ifs at hp with hh
    · exact hs.scanned_kept hok hlt hh.1 hp
    · change (h : ℤ) ≤ view.chain.tip at hle
      have hold : (h : ℤ) ≤ m.state.scanned := by omega
      exact (hs.kept h hfirst hold p hp).imp_right (List.mem_append_left _)

/-- **A tick over an unreplaced chain.** It leaves every peg-in claimed or
recorded, and claims those of the chain only. -/
theorem covers (hs : m.Sound first claimedTx) (hok : m.Unreplaced cfg first view claimedTx) :
    m.Covers cfg first view claimedTx := by
  constructor
  · rintro ⟨hr, hscan⟩ h hfirst p hp
    have htip := (height_of_judged hp).2
    obtain ⟨s', hs'⟩ := Option.isSome_iff_exists.mp hscan
    have hstate : (m.tick cfg view claimedTx).state = s' := by
      show (pegTick cfg view claimedTx m.state).1 = s'
      unfold pegTick
      rw [if_neg (by simp [hr]), hs']
      rfl
    rw [hstate]
    by_cases hold : (h : ℤ) ≤ m.state.scanned
    · -- a height scanned before: the record has what was found there
      by_cases hc : claimedTx p.txid = true
      · exact .inl hc
      rw [Bool.not_eq_true] at hc
      have hfound := (hok h hfirst hold (.inl htip) p hc).mp hp
      rcases hs.kept h hfirst hold p hfound with hcl | hp'
      · exact .inl hcl
      · rcases scan_cases hs' with ⟨-, he⟩ | ⟨-, he⟩
        · exact .inr (he ▸ hp')
        · rw [he]
          exact .inr (List.mem_append_left _ hp')
    · rcases scan_cases hs' with ⟨hle, -⟩ | ⟨hlt, he⟩
      · omega
      · rw [he]
        exact hs.scanned_kept hok hlt (by omega) hp
  · intro claims hclaims c hc
    obtain ⟨p, hp, rfl, hdeep, hun⟩ := mem_pegTick_claims hclaims hc
    rcases hp with hp | hp
    · obtain ⟨hfirst, hle, hin⟩ := hs.recorded p hp
      exact ⟨p.height, p, (hok p.height hfirst hle (.inr hdeep) p hun).mpr hin, rfl, hdeep⟩
    · exact ⟨p.height, p, hp, rfl, hdeep⟩

end Scanned.Sound

/-- In a run over chains that replace nothing scanned, the records in memory and
in the file are sound. -/
theorem sound_of_run {cfg : PegConfig} {first : ℕ} {claimedTx : Txid → Bool} {m file : Scanned}
    (hrun : PegRun cfg first (fun m view c => m.Unreplaced cfg first view c) claimedTx m file) :
    m.Sound first claimedTx ∧ file.Sound first claimedTx := by
  induction hrun with
  | start => exact ⟨.fresh, .fresh⟩
  | tick view _ hok hfile ih =>
    refine ⟨ih.1.tick hok, ?_⟩
    rcases hfile with rfl | rfl | rfl
    · exact ih.2
    · exact ih.1.tick hok
    · exact .fresh
  | claim _ hgrow ih => exact ⟨ih.1.claim hgrow, ih.2.claim hgrow⟩
  | restart _ ih => exact ⟨ih.2.reload, ih.2⟩

/-- **Peg-ins while nothing scanned is replaced.** In every run whose ticks see,
at the heights scanned before, the unclaimed peg-ins that were found there, each
such tick leaves every peg-in of the best chain claimed or recorded, and hands
on claims of its peg-ins only, each deep enough. -/
theorem covers_of_unreplaced {cfg : PegConfig} {first : ℕ} {claimedTx : Txid → Bool}
    {m file : Scanned}
    (hrun : PegRun cfg first (fun m view c => m.Unreplaced cfg first view c) claimedTx m file)
    (view : ParentView) (hok : m.Unreplaced cfg first view claimedTx) :
    m.Covers cfg first view claimedTx :=
  (sound_of_run hrun).1.covers hok

end

section

attribute [local instance] sampleBitcoin

/-- A deposit of 1000 to the script `51` of the chain `c`. -/
def depositTx : Transaction where
  version := 2
  input := []
  output := [⟨1000, 0x51 :: 0x20 :: List.replicate 32 1⟩,
    ⟨0, opReturn (pegTag ++ ascii ['c', ':', '5', '1'])⟩]
  lockTime := 0

/-- Any other transaction of the parent. -/
def otherTx (lockTime : UInt32) : Transaction := ⟨2, lockTime, [], []⟩

def depositConfig : PegConfig := ⟨ascii ['c'], none, 1, fun _ => none⟩

def blockOf (tx : Transaction) : ParentBlock := ⟨[tx], []⟩

/-- A view of the chain of these blocks, every answer given and no wallet. -/
def viewOf (blocks : List ParentBlock) (hne : blocks ≠ [])
    (hn : ((blocks.flatMap ParentBlock.txs).map Bitcoin.computeTxid).Nodup) : ParentView :=
  ⟨⟨blocks, hne, hn⟩, true, fun _ => true, none⟩

/-- The deposit is in the block at height 1. -/
def withDeposit : ParentView :=
  viewOf [blockOf (otherTx 0), blockOf depositTx] (by decide) (by decide +kernel)

/-- The chain of the same length that replaced it. -/
def withoutDeposit : ParentView :=
  viewOf [blockOf (otherTx 0), blockOf (otherTx 1)] (by decide) (by decide +kernel)

/-- The chain with the deposit, one block longer. -/
def deeperDeposit : ParentView :=
  viewOf [blockOf (otherTx 0), blockOf depositTx, blockOf (otherTx 1)] (by decide)
    (by decide +kernel)

/-- The deposit as the scan records it. -/
def deposit : FoundPegin := ⟨Bitcoin.computeTxid depositTx, 0, 1000, [0x51], 1, none⟩

/-- The state after a first tick over a view, nothing being claimed. -/
def afterTick (view : ParentView) : Scanned :=
  (Scanned.fresh 0).tick depositConfig view fun _ => false

set_option maxRecDepth 100000 in
theorem deposit_facts :
    withDeposit.judged depositConfig 1 = [deposit] ∧
    withoutDeposit.judged depositConfig 0 = [] ∧ withoutDeposit.judged depositConfig 1 = [] ∧
    (afterTick withDeposit).state = ⟨1, [deposit]⟩ ∧
    (afterTick withoutDeposit).state = ⟨1, []⟩ ∧
    (pegTick depositConfig deeperDeposit (fun _ => false) ⟨1, [deposit]⟩).2 =
      some [deposit.request] ∧
    (pegTick depositConfig withoutDeposit (fun _ => false) ⟨1, [deposit]⟩).2 =
      some [deposit.request] := by
  decide +kernel

set_option maxRecDepth 100000 in
/-- A second tick over the chain one block longer: the deposit is claimed. -/
theorem covers_of_unreplaced_sample :
    (afterTick withDeposit).Covers depositConfig 0 deeperDeposit (fun _ => false) ∧
    (pegTick depositConfig deeperDeposit (fun _ => false) (afterTick withDeposit).state).2 =
      some [deposit.request] := by
  obtain ⟨-, -, -, hstate, -, hclaims, -⟩ := deposit_facts
  refine ⟨covers_of_unreplaced
    (.tick withDeposit (.start _) ?_ (.inl rfl)) deeperDeposit ?_, hstate ▸ hclaims⟩
  · intro h _ hle
    have hscanned : (Scanned.fresh 0).state.scanned = -1 := by decide
    omega
  · intro h _ hle _ p _
    change (h : ℤ) ≤ (afterTick withDeposit).state.scanned at hle
    show p ∈ _ ↔ p ∈ (afterTick withDeposit).found h
    have hnew : (Scanned.fresh 0).state.scanned < h := by
      have hscanned : (Scanned.fresh 0).state.scanned = -1 := by decide
      omega
    have hfound : (afterTick withDeposit).found h = withDeposit.judged depositConfig h :=
      if_pos ⟨hnew, hle⟩
    rw [hfound]
    rw [hstate] at hle
    change (h : ℤ) ≤ 1 at hle
    obtain rfl | rfl : h = 0 ∨ h = 1 := by omega
    · exact Iff.rfl
    · exact Iff.rfl

/-- **A replaced tail.** Over the chain without the deposit, seen after the one
with it, the vanished deposit is claimed; over the chain with it, seen after
the one without, the deposit is neither claimed nor recorded. -/
theorem replaced_tail :
    (PegRun depositConfig 0 (fun _ _ _ => True) (fun _ => false) (afterTick withDeposit)
        (afterTick withDeposit) ∧
      ¬ (afterTick withDeposit).Covers depositConfig 0 withoutDeposit fun _ => false) ∧
    (PegRun depositConfig 0 (fun _ _ _ => True) (fun _ => false) (afterTick withoutDeposit)
        (afterTick withoutDeposit) ∧
      ¬ (afterTick withoutDeposit).Covers depositConfig 0 withDeposit fun _ => false) := by
  obtain ⟨hjudged, hnone, hnone', hstate, hstate', -, hclaims⟩ := deposit_facts
  refine ⟨⟨.tick withDeposit (.start _) trivial (.inr (.inl rfl)), ?_⟩,
    ⟨.tick withoutDeposit (.start _) trivial (.inr (.inl rfl)), ?_⟩⟩
  · rintro ⟨-, hreal⟩
    rw [hstate] at hreal
    obtain ⟨h, p, hp, -⟩ := hreal _ hclaims _ (List.mem_singleton_self _)
    have htip := (height_of_judged hp).2
    change h ≤ 1 at htip
    obtain rfl | rfl : h = 0 ∨ h = 1 := by omega
    · rw [hnone] at hp
      exact absurd hp (List.not_mem_nil)
    · rw [hnone'] at hp
      exact absurd hp (List.not_mem_nil)
  · rintro ⟨hcovered, -⟩
    rcases hcovered ⟨rfl, rfl⟩ 1 (Nat.zero_le _) deposit (by rw [hjudged]; simp) with hc | hp
    · exact Bool.false_ne_true hc
    · have hempty : ((afterTick withoutDeposit).tick depositConfig withDeposit
          fun _ => false).state = ⟨1, []⟩ := by
        show (pegTick _ _ _ (afterTick withoutDeposit).state).1 = _
        rw [hstate']
        rfl
      rw [hempty] at hp
      exact absurd hp (List.not_mem_nil)

end

end Parent

end Sidestr
