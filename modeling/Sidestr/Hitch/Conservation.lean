/-
# The channel's value is conserved

Every state a channel holds, agreed, pending or set aside, accounts for the
whole funding, leaves the funder its fee, and has HTLCs worth an output with
ids and hashes of their own. An update keeps this whoever sends it, and every
other move carries states from one place to another. So both commitments of
any of them pay out the funding less the fee and the balances below dust.

Key definitions: `Balanced`, `Conserved`.
Key theorems: `nextState_balanced`, `Move.conserved`, `value_conserved`.
-/
import Sidestr.Hitch.Moves
import Sidestr.Hitch.Sample

namespace Sidestr

namespace Hitch

/-- A state that accounts for the whole funding of a channel. -/
structure Balanced (ch : Channel) (s : ProtocolState) : Prop where
  total : s.balanceA + s.balanceB + (s.htlcs.map ProtocolHtlc.amount).sum = ch.fundingValue
  fee : ch.fee ≤ s.balanceA
  ids : (s.htlcs.map ProtocolHtlc.id).Nodup
  hashes : (s.htlcs.map ProtocolHtlc.hash).Nodup
  amounts : ∀ h ∈ s.htlcs, minHtlc ≤ h.amount

/-- Every id of the state is below the bound. -/
def IdsBelow (bound : ℕ) (s : ProtocolState) : Prop := ∀ h ∈ s.htlcs, h.id < bound

theorem IdsBelow.mono {bound bound' : ℕ} {s : ProtocolState} (h : IdsBelow bound s)
    (hle : bound ≤ bound') : IdsBelow bound' s := fun x hx => (h x hx).trans_le hle

/-! ### One update -/

/-- Free money and HTLCs of a state. -/
def ProtocolState.total (s : ProtocolState) : ℕ :=
  s.balanceA + s.balanceB + (s.htlcs.map ProtocolHtlc.amount).sum

theorem subtractBalance_ok {s s' : ProtocolState} {side : Side} {amount : ℕ}
    (h : subtractBalance s side amount = .ok s') :
    s'.total + amount = s.total ∧ s'.htlcs = s.htlcs := by
  unfold subtractBalance at h
  obtain ⟨balance, hb, h⟩ := Res.bind_eq_ok.mp h
  rw [Res.okOr_eq_ok, Word.checkedSub_eq_some] at hb
  obtain ⟨hle, rfl⟩ := hb
  unfold ProtocolState.total
  cases side
  all_goals
    cases h
    unfold ProtocolState.balance at hle ⊢
    dsimp only at hle ⊢
    exact ⟨by omega, rfl⟩

theorem addBalance_ok {s s' : ProtocolState} {side : Side} {amount : ℕ}
    (h : addBalance s side amount = .ok s') :
    s'.total = s.total + amount ∧ s'.htlcs = s.htlcs := by
  unfold addBalance at h
  obtain ⟨balance, hb, h⟩ := Res.bind_eq_ok.mp h
  rw [Res.okOr_eq_ok, Word.checkedAdd_eq_some] at hb
  obtain ⟨rfl, -⟩ := hb
  unfold ProtocolState.total
  cases side
  all_goals
    cases h
    unfold ProtocolState.balance
    dsimp only
    exact ⟨by omega, rfl⟩

section

variable [Hitch] {named : Prop} {m : ChannelMachine}

open ChannelMachine

theorem keepsFee_ok {s s' : ProtocolState} (h : m.keepsFee s = .ok s') :
    s' = s ∧ m.channel.fee ≤ s.balanceA := by
  unfold keepsFee at h
  obtain ⟨_, hfee, h⟩ := Res.bind_eq_ok.mp h
  rw [Res.refuseIf_eq_ok, decide_eq_false_iff_not] at hfee
  cases h
  exact ⟨rfl, by omega⟩

omit [Hitch] in
/-- The first element found, taken out of a sum. -/
theorem sum_eraseP {α : Type} {p : α → Bool} (f : α → ℕ) {a : α} : ∀ {l : List α},
    l.find? p = some a → ((l.eraseP p).map f).sum + f a = (l.map f).sum
  | y :: l, h => by
    by_cases hy : p y = true
    · rw [List.find?_cons_of_pos hy, Option.some.injEq] at h
      rw [List.eraseP_cons_of_pos hy, List.map_cons, List.sum_cons, h, Nat.add_comm]
    · rw [List.find?_cons_of_neg hy] at h
      have ih := sum_eraseP f h
      rw [List.eraseP_cons_of_neg hy, List.map_cons, List.map_cons, List.sum_cons, List.sum_cons]
      omega

omit [Hitch] in
/-- The HTLC taken out of a state, and what is left. -/
theorem takeHtlc_ok {s s' : ProtocolState} {htlcId : ℕ} {htlc : ProtocolHtlc}
    (h : takeHtlc s htlcId = .ok (htlc, s')) :
    s'.total + htlc.amount = s.total ∧ s'.htlcs.Sublist s.htlcs := by
  unfold takeHtlc at h
  obtain ⟨x, hx, h⟩ := Res.bind_eq_ok.mp h
  rw [Res.okOr_eq_ok] at hx
  cases h
  refine ⟨?_, List.eraseP_sublist⟩
  have hsum := sum_eraseP ProtocolHtlc.amount hx
  unfold ProtocolState.total
  dsimp only
  omega

omit [Hitch] in
/-- A state with the same money and some of the HTLCs. -/
theorem Balanced.of_sublist {ch : Channel} {s s' : ProtocolState} (hs : Balanced ch s)
    (htotal : s'.total = s.total) (hfee : ch.fee ≤ s'.balanceA)
    (hsub : s'.htlcs.Sublist s.htlcs) : Balanced ch s' where
  total := htotal.trans hs.total
  fee := hfee
  ids := hs.ids.sublist (hsub.map _)
  hashes := hs.hashes.sublist (hsub.map _)
  amounts h hh := hs.amounts h (hsub.subset hh)

omit [Hitch] in
theorem le_foldl_max : ∀ (l : List ℕ) (a : ℕ), a ≤ l.foldl max a ∧ ∀ x ∈ l, x ≤ l.foldl max a
  | [], a => ⟨le_rfl, fun x hx => by cases hx⟩
  | y :: l, a => by
    obtain ⟨ha, hl⟩ := le_foldl_max l (max a y)
    rw [List.foldl_cons]
    refine ⟨(Nat.le_max_left a y).trans ha, fun x hx => ?_⟩
    rcases List.mem_cons.mp hx with rfl | hx
    · exact (Nat.le_max_right a x).trans ha
    · exact hl x hx

/-- The next id is above every id of the state and every one used. -/
theorem lt_nextHtlcId {s : ProtocolState} :
    m.htlcSeq ≤ m.nextHtlcId s ∧ ∀ h ∈ s.htlcs, h.id < m.nextHtlcId s := by
  unfold nextHtlcId
  refine ⟨Nat.le_max_left _ _, fun h hh => ?_⟩
  have hle := (le_foldl_max (s.htlcs.map ProtocolHtlc.id) 0).2 h.id (List.mem_map_of_mem hh)
  exact (Nat.lt_succ_of_le hle).trans_le (Nat.le_max_right _ _)

theorem htlcSeq_le_bump (update : Update) : m.htlcSeq ≤ m.bumpHtlcSeq update := by
  unfold bumpHtlcSeq
  split
  · exact Nat.le_max_left _ _
  · exact le_rfl

omit [Hitch] in
theorem add_amount {htlc : OfferedHtlc} {memo : Option Text}
    (h : (Update.add htlc memo).wellFormed = .ok ()) : minHtlc ≤ htlc.amount := by
  unfold Update.wellFormed at h
  dsimp only at h
  split at h
  · cases h
  · split at h
    · rename_i hw
      exact hw.2.1.1
    · cases h

/-- **An update conserves the value.** -/
theorem nextState_balanced {current s : ProtocolState} {update : Update} {sender : Side}
    {height : ℕ} (hs : Balanced m.channel current) (hids : IdsBelow m.htlcSeq current)
    (hwell : update.wellFormed = .ok ())
    (h : m.nextState current update sender height = .ok s) :
    Balanced m.channel s ∧ IdsBelow (m.bumpHtlcSeq update) s := by
  unfold nextState at h
  cases update with
  | pay amount memo =>
    dsimp only at h
    obtain ⟨s₁, h₁, h⟩ := Res.bind_eq_ok.mp h
    obtain ⟨s₂, h₂, h⟩ := Res.bind_eq_ok.mp h
    obtain ⟨ht₁, hl₁⟩ := subtractBalance_ok h₁
    obtain ⟨ht₂, hl₂⟩ := addBalance_ok h₂
    obtain ⟨rfl, hfee⟩ := keepsFee_ok h
    have hl := hl₂.trans hl₁
    refine ⟨hs.of_sublist (by omega) hfee (hl ▸ List.Sublist.refl _), fun x hx => ?_⟩
    exact hids x (hl ▸ hx)
  | add htlc memo =>
    dsimp only at h
    obtain ⟨_, hid, h⟩ := Res.bind_eq_ok.mp h
    obtain ⟨_, -, h⟩ := Res.bind_eq_ok.mp h
    obtain ⟨_, hhash, h⟩ := Res.bind_eq_ok.mp h
    obtain ⟨s₁, h₁, h⟩ := Res.bind_eq_ok.mp h
    obtain ⟨ht₁, hl₁⟩ := subtractBalance_ok h₁
    obtain ⟨rfl, hfee⟩ := keepsFee_ok h
    rw [Res.refuseIf_eq_ok] at hid hhash
    rw [bne_eq_false_iff_eq] at hid
    rw [Bool.or_eq_false_iff] at hhash
    have hlt := (lt_nextHtlcId (m := m) (s := current)).2
    have hnew : ∀ x ∈ current.htlcs, x.hash ≠ htlc.hash := by
      intro x hx he
      have hany := List.any_eq_false.mp hhash.1 x hx
      exact hany (by rw [he, beq_self_eq_true])
    refine ⟨⟨?_, hfee, ?_, ?_, ?_⟩, ?_⟩
    · have htotal := hs.total
      unfold ProtocolState.total at ht₁
      dsimp only
      rw [List.map_append, List.sum_append, List.map_singleton, List.sum_singleton, hl₁]
      rw [hl₁] at ht₁
      dsimp only
      omega
    · dsimp only
      rw [hl₁, List.map_append, List.map_singleton]
      refine List.nodup_append.mpr ⟨hs.ids, List.nodup_singleton _, ?_⟩
      intro a ha b hb
      obtain ⟨x, hx, rfl⟩ := List.mem_map.mp ha
      rw [List.mem_singleton] at hb
      rw [hb, hid]
      exact (hlt x hx).ne
    · dsimp only
      rw [hl₁, List.map_append, List.map_singleton]
      refine List.nodup_append.mpr ⟨hs.hashes, List.nodup_singleton _, ?_⟩
      intro a ha b hb
      obtain ⟨x, hx, rfl⟩ := List.mem_map.mp ha
      rw [List.mem_singleton] at hb
      rw [hb]
      exact hnew x hx
    · intro x hx
      rcases List.mem_append.mp hx with hx | hx
      · exact hs.amounts x (hl₁ ▸ hx)
      · rw [List.mem_singleton] at hx
        rw [hx]
        exact add_amount hwell
    · intro x hx
      unfold bumpHtlcSeq
      dsimp only
      rcases List.mem_append.mp hx with hx | hx
      · exact (hids x (hl₁ ▸ hx)).trans_le (Nat.le_max_left _ _)
      · rw [List.mem_singleton] at hx
        rw [hx]
        exact (Nat.lt_succ_self _).trans_le (Nat.le_max_right _ _)
  | settle htlcId preimage =>
    dsimp only at h
    obtain ⟨⟨htlc, s₁⟩, h₁, h⟩ := Res.bind_eq_ok.mp h
    dsimp only at h
    obtain ⟨_, -, h⟩ := Res.bind_eq_ok.mp h
    obtain ⟨_, -, h⟩ := Res.bind_eq_ok.mp h
    obtain ⟨_, -, h⟩ := Res.bind_eq_ok.mp h
    obtain ⟨s₂, h₂, h⟩ := Res.bind_eq_ok.mp h
    obtain ⟨ht₁, hl₁⟩ := takeHtlc_ok h₁
    obtain ⟨ht₂, hl₂⟩ := addBalance_ok h₂
    obtain ⟨rfl, hfee⟩ := keepsFee_ok h
    have hl : s.htlcs.Sublist current.htlcs := hl₂ ▸ hl₁
    exact ⟨hs.of_sublist (by omega) hfee hl, fun x hx => hids x (hl.subset hx)⟩
  | fail htlcId reason =>
    dsimp only at h
    obtain ⟨⟨htlc, s₁⟩, h₁, h⟩ := Res.bind_eq_ok.mp h
    dsimp only at h
    obtain ⟨_, -, h⟩ := Res.bind_eq_ok.mp h
    obtain ⟨_, -, h⟩ := Res.bind_eq_ok.mp h
    obtain ⟨s₂, h₂, h⟩ := Res.bind_eq_ok.mp h
    obtain ⟨ht₁, hl₁⟩ := takeHtlc_ok h₁
    obtain ⟨ht₂, hl₂⟩ := addBalance_ok h₂
    obtain ⟨rfl, hfee⟩ := keepsFee_ok h
    have hl : s.htlcs.Sublist current.htlcs := hl₂ ▸ hl₁
    exact ⟨hs.of_sublist (by omega) hfee hl, fun x hx => hids x (hl.subset hx)⟩

/-! ### Where states are kept -/

/-- Setting aside drops a state, or moves it to the alternatives. -/
theorem dropPending_lookup (why : Text) {k : ℕ} {s : ProtocolState}
    (h : (m.dropPending why).states.lookup k = some s) : m.states.lookup k = some s := by
  unfold dropPending at h
  split at h
  · exact h
  · rename_i p hp
    dsimp only at h
    split at h
    · have herase : (m.states.erase p.n).lookup k = some s := by
        unfold rememberAlternative at h
        split_ifs at h <;> exact h
      by_cases hk : k = p.n
      · rw [hk, Finmap.lookup_erase] at herase
        cases herase
      · rwa [Finmap.lookup_erase_ne hk] at herase
    · exact h

omit [Hitch] in
theorem alternativesAt_insert {alternatives : Map ℕ (List SignedAlternative)} {n k : ℕ}
    {l : List SignedAlternative} {alt : SignedAlternative}
    (h : alt ∈ ((alternatives.insert n l).lookup k).getD []) :
    k = n ∧ alt ∈ l ∨ alt ∈ (alternatives.lookup k).getD [] := by
  by_cases hk : k = n
  · rw [hk, Finmap.lookup_insert] at h
    exact .inl ⟨hk, h⟩
  · rw [Finmap.lookup_insert_of_ne _ hk] at h
    exact .inr h

theorem rememberAlternative_mem {n k : ℕ} {s : ProtocolState} {update : Update}
    {alt : SignedAlternative} (h : alt ∈ (m.rememberAlternative n s update).alternativesAt k) :
    alt ∈ m.alternativesAt k ∨ k = n ∧ alt = ⟨s, update⟩ := by
  unfold rememberAlternative at h
  split_ifs at h
  · exact .inl h
  · rcases alternativesAt_insert h with ⟨rfl, h⟩ | h
    · rcases List.mem_append.mp h with h | h
      · exact .inl h
      · exact .inr ⟨rfl, List.mem_singleton.mp h⟩
    · exact .inl h

theorem dropPending_alternatives (why : Text) {k : ℕ} {alt : SignedAlternative}
    (h : alt ∈ (m.dropPending why).alternativesAt k) :
    alt ∈ m.alternativesAt k ∨ ∃ p, m.pending = some p ∧ k = p.n ∧
      m.states.lookup p.n = some alt.state ∧ alt.update = p.update := by
  unfold dropPending at h
  split at h
  · exact .inl h
  · rename_i p hp
    dsimp only at h
    split at h
    · rename_i s hs
      rcases rememberAlternative_mem h with h | ⟨rfl, rfl⟩
      · exact .inl h
      · exact .inr ⟨p, hp, rfl, hs, rfl⟩
    · exact .inl h

theorem removeAlternative_mem {n index k : ℕ} {alt : SignedAlternative}
    (h : alt ∈ (m.removeAlternative n index).alternativesAt k) : alt ∈ m.alternativesAt k := by
  rcases alternativesAt_insert h with ⟨rfl, h⟩ | h
  · exact List.mem_of_mem_eraseIdx h
  · exact h

/-! ### Every state of a channel -/

/-- The states a channel holds are balanced, with ids below the next one. -/
structure Conserved (m : ChannelMachine) : Prop where
  current : (m.states.lookup m.stateNumber).isSome = true
  states : ∀ k s, m.states.lookup k = some s → Balanced m.channel s
  agreed : ∀ k s, m.states.lookup k = some s → k ≤ m.stateNumber → IdsBelow m.htlcSeq s
  pending : ∀ p s, m.pending = some p → m.states.lookup p.n = some s →
    IdsBelow (m.bumpHtlcSeq p.update) s
  alternatives : ∀ k, ∀ alt ∈ m.alternativesAt k, Balanced m.channel alt.state ∧
    IdsBelow (m.bumpHtlcSeq alt.update) alt.state

theorem Conserved.currentState {m : ChannelMachine} (hm : Conserved m) :
    m.states.lookup m.stateNumber = some m.currentState := by
  obtain ⟨s, hs⟩ := Option.isSome_iff_exists.mp hm.current
  unfold ChannelMachine.currentState
  rw [hs]
  rfl

theorem bump_mono {m m' : ChannelMachine} (h : m.htlcSeq ≤ m'.htlcSeq) (update : Update) :
    m.bumpHtlcSeq update ≤ m'.bumpHtlcSeq update := by
  unfold bumpHtlcSeq
  split
  · exact max_le_max h le_rfl
  · exact h

/-- A move that only drops states, or sets them aside. -/
theorem Conserved.fewer {m m' : ChannelMachine} (hm : Conserved m)
    (hchannel : m'.channel = m.channel) (hn : m'.stateNumber = m.stateNumber)
    (hseq : m'.htlcSeq = m.htlcSeq)
    (hcurrent : (m'.states.lookup m.stateNumber).isSome = true)
    (hstates : ∀ k s, m'.states.lookup k = some s → m.states.lookup k = some s)
    (hpending : ∀ p, m'.pending = some p → ∃ p₀, m.pending = some p₀ ∧ p.n = p₀.n ∧
      p.update = p₀.update)
    (halternatives : ∀ k, ∀ alt ∈ m'.alternativesAt k, alt ∈ m.alternativesAt k ∨
      ∃ p, m.pending = some p ∧ m.states.lookup p.n = some alt.state ∧ alt.update = p.update) :
    Conserved m' := by
  have hbump : ∀ update, m'.bumpHtlcSeq update = m.bumpHtlcSeq update := by
    intro update
    unfold bumpHtlcSeq
    rw [hseq]
  refine ⟨?_, fun k s hs => ?_, fun k s hs hk => ?_, fun p s hp hs => ?_, fun k alt halt => ?_⟩
  · rw [hn]
    exact hcurrent
  · rw [hchannel]
    exact hm.states k s (hstates k s hs)
  · rw [hseq]
    exact hm.agreed k s (hstates k s hs) (hn ▸ hk)
  · obtain ⟨p₀, hp₀, hpn, hupdate⟩ := hpending p hp
    rw [hbump, hupdate]
    rw [hpn] at hs
    exact hm.pending p₀ s hp₀ (hstates _ _ hs)
  · rw [hchannel, hbump]
    rcases halternatives k alt halt with halt | ⟨p, hp, hs, hupdate⟩
    · exact hm.alternatives k alt halt
    · rw [hupdate]
      exact ⟨hm.states _ _ hs, hm.pending p _ hp hs⟩

/-- A move to the next state. -/
theorem Conserved.next {m m' : ChannelMachine} {s : ProtocolState} (hm : Conserved m)
    (update : Update) (hchannel : m'.channel = m.channel) (hn : m'.stateNumber = m.stateNumber + 1)
    (hseq : m'.htlcSeq = m.bumpHtlcSeq update) (hpending : m'.pending = none)
    (hnew : m'.states.lookup (m.stateNumber + 1) = some s)
    (hstates : ∀ k s', k ≠ m.stateNumber + 1 → m'.states.lookup k = some s' →
      m.states.lookup k = some s')
    (halternatives : ∀ k, ∀ alt ∈ m'.alternativesAt k, alt ∈ m.alternativesAt k ∨
      ∃ p, m.pending = some p ∧ m.states.lookup p.n = some alt.state ∧ alt.update = p.update)
    (hs : Balanced m.channel s) (hids : IdsBelow (m.bumpHtlcSeq update) s) : Conserved m' := by
  have hle : m.htlcSeq ≤ m'.htlcSeq := hseq ▸ htlcSeq_le_bump update
  refine ⟨?_, fun k s' hs' => ?_, fun k s' hs' hk => ?_, fun p s' hp => ?_, fun k alt halt => ?_⟩
  · rw [hn, hnew]
    rfl
  · rw [hchannel]
    by_cases hk : k = m.stateNumber + 1
    · rw [hk, hnew] at hs'
      cases hs'
      exact hs
    · exact hm.states k s' (hstates k s' hk hs')
  · by_cases hnext : k = m.stateNumber + 1
    · rw [hnext, hnew] at hs'
      cases hs'
      rw [hseq]
      exact hids
    · exact (hm.agreed k s' (hstates k s' hnext hs') (by omega)).mono hle
  · rw [hpending] at hp
    cases hp
  · rw [hchannel]
    rcases halternatives k alt halt with halt | ⟨p, hp, hs, hupdate⟩
    · obtain ⟨hb, hi⟩ := hm.alternatives k alt halt
      exact ⟨hb, hi.mono (bump_mono hle alt.update)⟩
    · rw [hupdate]
      exact ⟨hm.states _ _ hs, (hm.pending p _ hp hs).mono (bump_mono hle p.update)⟩

theorem Move.conserved {m m' : ChannelMachine} (h : Move named m m') (hnext : m.PendingNext)
    (hm : Conserved m) : Conserved m' := by
  cases h with
  | quiet hq =>
    refine hm.fewer (hq.field channel) (hq.field stateNumber) (hq.field htlcSeq) ?_ ?_ ?_ ?_
    · rw [hq.field states]
      exact hm.current
    · rw [hq.field states]
      exact fun k s hs => hs
    · rw [hq.field pending]
      exact fun p hp => ⟨p, hp, rfl, rfl⟩
    · intro k alt halt
      rw [hq.field fun m => m.alternativesAt k] at halt
      exact .inl halt
  | propose hj =>
    rename_i update next ctx s message
    obtain ⟨-, -, -, hn, hwell, hs⟩ := proposal_ok hj
    have hcurrent := hm.currentState
    obtain ⟨hb, hi⟩ := nextState_balanced (hm.states _ _ hcurrent)
      (hm.agreed _ _ hcurrent le_rfl) hwell hs
    have hold : ∀ k s', k ≠ m.stateNumber + 1 →
        (m.proposed s message next ctx).states.lookup k = some s' → m.states.lookup k = some s' := by
      intro k s' hk h
      unfold proposed at h
      dsimp only at h
      rwa [hn, Finmap.lookup_insert_of_ne _ hk] at h
    have hnew : (m.proposed s message next ctx).states.lookup (m.stateNumber + 1) = some s := by
      unfold proposed
      dsimp only
      rw [hn, Finmap.lookup_insert]
    refine ⟨?_, fun k s' hs' => ?_, fun k s' hs' hk => ?_, fun p s' hp hs' => ?_,
      fun k alt halt => hm.alternatives k alt halt⟩
    · unfold proposed
      dsimp only
      rw [hn, Finmap.lookup_insert_of_ne _ (Nat.succ_ne_self _).symm]
      exact hm.current
    · by_cases hk : k = m.stateNumber + 1
      · rw [hk, hnew] at hs'
        cases hs'
        exact hb
      · exact hm.states k s' (hold k s' hk hs')
    · change k ≤ m.stateNumber at hk
      exact hm.agreed k s' (hold k s' (by omega) hs') hk
    · cases hp
      dsimp only at hs' ⊢
      rw [hn, hnew] at hs'
      cases hs'
      exact hi
  | resend now tries hp =>
    refine hm.fewer rfl rfl rfl hm.current (fun _ _ h => h) ?_ fun k alt h => .inl h
    intro p' hp'
    cases hp'
    exact ⟨_, hp, rfl, rfl⟩
  | accept next hj =>
    rename_i message ctx s
    obtain ⟨-, -, hn, hwell, hs⟩ := judgeUpdate_accept hj
    have hcurrent := hm.currentState
    obtain ⟨hb, hi⟩ := nextState_balanced (hm.states _ _ hcurrent)
      (hm.agreed _ _ hcurrent le_rfl) hwell (incomingState_accept hs)
    refine hm.next (s := s) message.update (dropPending_channel _) hn ?_ (dropPending_pending _) ?_
      (fun k s' hk h => ?_) (fun k alt h => ?_) hb hi
    · unfold accepted bumpHtlcSeq
      dsimp only
      rw [dropPending_htlcSeq]
    · unfold accepted
      dsimp only
      rw [hn, Finmap.lookup_insert]
    · unfold accepted at h
      dsimp only at h
      rw [hn, Finmap.lookup_insert_of_ne _ hk] at h
      exact dropPending_lookup _ h
    · rcases dropPending_alternatives _ h with h | ⟨p, hp, -, hs, hupdate⟩
      · exact .inl h
      · exact .inr ⟨p, hp, hs, hupdate⟩
  | agree hj =>
    rename_i message pending s
    obtain ⟨-, hp, hn, hs⟩ := judgeAck_agree hj
    have hn' : message.n = m.stateNumber + 1 := hn ▸ hnext pending hp
    unfold agreed
    dsimp only
    rw [takeTheirReveal_frame]
    refine hm.next (s := s) pending.update rfl hn' rfl rfl ?_ (fun k s' hk h => ?_)
      (fun k alt h => .inl h) (hm.states _ _ hs) (hm.pending _ _ hp hs)
    · dsimp only
      rw [hn', Finmap.lookup_insert]
    · dsimp only at h
      rwa [hn', Finmap.lookup_insert_of_ne _ hk] at h
  | adopt hp hn hj =>
    rename_i message index alt
    have halt := List.mem_of_getElem? (adoption_ok hj).2
    obtain ⟨hb, hi⟩ := hm.alternatives _ _ halt
    unfold agreed
    dsimp only
    rw [takeTheirReveal_frame]
    refine hm.next (s := alt.state) alt.update rfl hn rfl hp ?_ (fun k s' hk h => ?_)
      (fun k alt h => .inl (removeAlternative_mem h)) hb hi
    · dsimp only
      rw [hn, Finmap.lookup_insert]
    · dsimp only at h
      rwa [hn, Finmap.lookup_insert_of_ne _ hk] at h
  | drop why =>
    refine hm.fewer (dropPending_channel why) (dropPending_stateNumber why)
      (dropPending_htlcSeq why) ?_ (fun k s h => dropPending_lookup why h) (fun p h => ?_)
      fun k alt h => ?_
    · rw [dropPending_states why fun p hp => by rw [hnext p hp]; exact Nat.succ_ne_self _]
      exact hm.current
    · rw [dropPending_pending] at h
      cases h
    · rcases dropPending_alternatives why h with h | ⟨p, hp, -, hs, hupdate⟩
      · exact .inl h
      · exact .inr ⟨p, hp, hs, hupdate⟩
  | reveal index reveal =>
    rw [takeTheirReveal_frame]
    exact hm.fewer rfl rfl rfl hm.current (fun _ _ h => h) (fun p hp => ⟨p, hp, rfl, rfl⟩)
      fun k alt h => .inl h
  | force why hn hlive htx =>
    refine hm.fewer (dropPending_channel why) (dropPending_stateNumber why)
      (dropPending_htlcSeq why) ?_ (fun k s h => dropPending_lookup why h) (fun p h => ?_)
      fun k alt h => ?_
    · have hsame := dropPending_states (m := m) why (n := m.stateNumber) fun p hp => by
        rw [hnext p hp]
        exact Nat.succ_ne_self _
      exact (congrArg Option.isSome hsame).trans hm.current
    · exact absurd h (by rw [dropPending_pending]; exact Option.some_ne_none p ∘ Eq.symm)
    · rcases dropPending_alternatives why h with h | ⟨p, hp, -, hs, hupdate⟩
      · exact .inl h
      · exact .inr ⟨p, hp, hs, hupdate⟩
  | _ =>
    exact hm.fewer rfl rfl rfl hm.current (fun _ _ h => h) (fun p hp => ⟨p, hp, rfl, rfl⟩)
      fun k alt h => .inl h

/-! ### A run -/

/-- The first state is balanced: the push leaves the funder its fee. -/
theorem machine_conserved {o : Opened} (hv : o.Valid) : Conserved o.machine := by
  obtain ⟨push, hpush, hinitial⟩ := hv.state
  unfold validatePush at hpush
  obtain ⟨most, hmost, hpush⟩ := Res.bind_eq_ok.mp hpush
  rw [Res.okOr_eq_ok, Word.checkedSub_eq_some] at hmost
  rw [Res.refuseIf_eq_ok, decide_eq_false_iff_not] at hpush
  unfold initialState at hinitial
  obtain ⟨balanceA, hbalance, hinitial⟩ := Res.bind_eq_ok.mp hinitial
  rw [Res.okOr_eq_ok, Word.checkedSub_eq_some] at hbalance
  rw [Res.ok.injEq] at hinitial
  have hzero : ∀ k s, o.machine.states.lookup k = some s → s = ⟨balanceA, push, []⟩ := by
    intro k s hs
    unfold Opened.machine at hs
    dsimp only at hs
    by_cases hk : k = 0
    · rw [hk, Finmap.lookup_insert, Option.some.injEq] at hs
      rw [← hs, hinitial]
    · rw [Finmap.lookup_insert_of_ne _ hk, Finmap.lookup_empty] at hs
      cases hs
  refine ⟨?_, fun k s hs => ?_, fun k s hs _ => ?_, fun p s hp => ?_, fun k alt halt => ?_⟩
  · unfold Opened.machine
    dsimp only
    rw [Finmap.lookup_insert]
    rfl
  · rw [hzero k s hs]
    have hfunding : o.machine.channel = o.channel := rfl
    refine ⟨?_, ?_, List.nodup_nil, List.nodup_nil, fun h hh => by cases hh⟩
    · rw [hfunding]
      simp only [List.map_nil, List.sum_nil]
      omega
    · rw [hfunding]
      dsimp only
      omega
  · rw [hzero k s hs]
    exact fun h hh => by cases hh
  · cases hp
  · unfold alternativesAt Opened.machine at halt
    dsimp only at halt
    rw [Finmap.lookup_empty] at halt
    cases halt

theorem Run.conserved {ok : ChannelMachine → Call → Prop} {o : Opened} {m : ChannelMachine}
    {log : List Done} (h : Run ok o m log) : Conserved m :=
  h.ind (fun _ _ => trivial) machine_conserved fun (hab : Move True _ _) hnext ha =>
    hab.conserved hnext ha

/-- The channel holds the state: agreed or pending, or signed and set aside. -/
def ChannelMachine.Holds (m : ChannelMachine) (s : ProtocolState) : Prop :=
  (∃ k, m.states.lookup k = some s) ∨ ∃ k, ∃ alt ∈ m.alternativesAt k, alt.state = s

/-- **The channel's value is conserved.** In every run, every state held is
balanced for the channel as it was opened, both sides' commitments built from
it carry the funding less the fee and the balances below dust, and the ids of
an agreed state are below the next one. -/
theorem value_conserved {ok : ChannelMachine → Call → Prop} {o : Opened} {m : ChannelMachine}
    {log : List Done} (h : Run ok o m log) :
    (∀ s, m.Holds s → Balanced o.channel s ∧
      ∀ number owner revocation c,
        o.channel.commitment number owner (channelState s revocation) = .ok c →
        (c.tx.output.map TxOut.sats).sum + (Channel.trimmed (s.balanceA - o.channel.fee) +
          Channel.trimmed s.balanceB) = o.channel.fundingValue - o.channel.fee) ∧
    ∀ k s, k ≤ m.stateNumber → m.states.lookup k = some s → ∀ h ∈ s.htlcs, h.id < m.htlcSeq := by
  have hm := h.conserved
  have hchannel : m.channel = o.channel := congrArg Prod.fst h.kept.2.1
  have hvalue := h.valid.value
  refine ⟨fun s hs => ?_, fun k s hk hs => hm.agreed k s hs hk⟩
  have hb : Balanced o.channel s := by
    rw [← hchannel]
    rcases hs with ⟨k, hs⟩ | ⟨k, alt, halt, rfl⟩
    · exact hm.states k s hs
    · exact (hm.alternatives k alt halt).1
  refine ⟨hb, fun number owner revocation c hc => ?_⟩
  refine Channel.commitment_value hc ?_ hb.fee fun x hx => ?_
  · unfold maxSats at hvalue
    omega
  · unfold channelState at hx
    obtain ⟨y, hy, rfl⟩ := List.mem_map.mp hx
    have hmin := hb.amounts y hy
    unfold minHtlc at hmin
    unfold dust
    exact le_trans (by decide) hmin

end

attribute [local instance] sampleHitch

set_option maxRecDepth 100000 in
theorem paidCalls_state : (sampleRunOf .a paidCalls).map (fun r => r.1.currentState) =
    some ⟨75000, 25000, []⟩ := by
  decide +kernel

/-- A payment of 5,000 sats, acknowledged. -/
theorem value_conserved_sample : ∃ m log, Run (fun _ _ => True) (sampleOpened .a) m log ∧
    m.currentState = ⟨75000, 25000, []⟩ ∧ Balanced sampleChannel ⟨75000, 25000, []⟩ := by
  obtain ⟨⟨m, log⟩, hr, hs⟩ := Option.map_eq_some_iff.mp paidCalls_state
  have hrun : Run (fun _ _ => True) (sampleOpened .a) m log :=
    run_of_sample (fun _ _ _ => trivial) hr
  have hheld : m.Holds m.currentState := .inl ⟨m.stateNumber, hrun.conserved.currentState⟩
  have hbalanced := ((value_conserved hrun).1 m.currentState hheld).1
  exact ⟨m, log, hrun, hs, hs ▸ hbalanced⟩

end Hitch

end Sidestr
