/-
# Header times

Along a run each new header's time is above the median time of the up to
eleven headers before it, and so the median time past never falls: the window
grows to eleven and then slides, and what comes in is above the median it
meets.

The clock is another matter. `judge` moves the clock ahead by 7,200 seconds
before it hands it on, and `validateHeader` allows a header as much again
beyond the clock it is given. A header is held to 14,400 seconds, and a run
keeps to the parameters exactly when no block of it lies in the second half.

Key definitions: `ClockedChain`, `Disciplined`.
Key theorems: `medianTimePast_mono`, `judge_times`, `header_times_disciplined`.
-/
import Sidestr.Core.Sample
import Sidestr.Lib.Median

namespace Sidestr

open Median

section

variable [Bitcoin] {H σ : Type} [HeaderFamily H]

/-! ### The window -/

omit [Bitcoin] in
/-- The headers before eleven do not count. -/
theorem medianTimePast_drop (l : List H) :
    medianTimePast (l.drop (l.length - 11)) = medianTimePast l := by
  have hlen : (l.drop (l.length - 11)).length - 11 = 0 := by
    rw [List.length_drop]
    omega
  unfold medianTimePast
  rw [hlen, List.drop_zero]

omit [Bitcoin] in
theorem medianTimePast_isSome {l : List H} (h : l ≠ []) : ∃ m, medianTimePast l = some m := by
  have hpos : 0 < l.length := List.length_pos_iff.mpr h
  refine upperMedian_isSome (l := (l.drop (l.length - 11)).map fun h => (HeaderFamily.time h).toNat)
    fun hnil => ?_
  have hlen := congrArg List.length hnil
  rw [List.length_map, List.length_drop, List.length_nil] at hlen
  omega

omit [Bitcoin] in
/-- A header above the median it meets does not lower the median. -/
theorem medianTimePast_concat {l : List H} {header : H} {m m' : ℕ} (h : medianTimePast l = some m)
    (ht : m < (HeaderFamily.time header).toNat) (h' : medianTimePast (l ++ [header]) = some m') :
    m ≤ m' := by
  unfold medianTimePast at h h'
  rw [List.length_append, List.length_singleton] at h'
  by_cases hshort : l.length < 11
  · -- the window grows
    rw [Nat.sub_eq_zero_of_le (by omega), List.drop_zero] at h h'
    rw [List.map_append, List.map_singleton] at h'
    exact upperMedian_concat h ht.le h'
  · -- the window slides
    have hone : l.length + 1 - 11 = l.length - 11 + 1 := by omega
    rw [hone, List.drop_append_of_le_length (by omega), List.map_append, List.map_singleton] at h'
    rw [List.drop_eq_getElem_cons (by omega), List.map_cons] at h
    exact upperMedian_slide h ht.le h'

omit [Bitcoin] in
/-- Where every header is above the median before it, the medians rise with the headers. -/
theorem medianTimePast_mono {l : List H}
    (habove : ∀ i header, 1 ≤ i → l[i]? = some header →
      ∃ m, medianTimePast (l.take i) = some m ∧ m < (HeaderFamily.time header).toNat)
    {i : ℕ} (hi : 1 ≤ i) {m : ℕ} (hm : medianTimePast (l.take i) = some m) :
    ∀ j, i ≤ j → j ≤ l.length → ∀ m', medianTimePast (l.take j) = some m' → m ≤ m' := by
  intro j hij
  induction j, hij using Nat.le_induction with
  | base =>
    intro _ m' hm'
    rw [hm, Option.some.injEq] at hm'
    exact hm'.le
  | succ j hij ih =>
    intro hj m' hm'
    obtain ⟨n, hn, hlt⟩ := habove j l[j] (hi.trans hij) (List.getElem?_eq_getElem (by omega))
    rw [List.take_succ_eq_append_getElem (by omega)] at hm'
    exact (ih (by omega) n hn).trans (medianTimePast_concat hn hlt hm')

/-! ### One block -/

/-- **What a judgement says of the time.** It is above the median before it; and
at most as far ahead of the clock as the two functions allow together. -/
theorem judge_times {s : StateOf H σ} {height : UInt32} {block : Block H} {now : Option UInt32}
    {v : Verdict} {next : Records} {held : σ} (h : s.judge height block now = .ok (v, next, held))
    (hok : v.ok = true) (hheight : height.toNat = s.headers.length) :
    (∀ m, medianTimePast s.headers = some m → m < (HeaderFamily.time block.header).toNat) ∧
      ∀ n, now = some n → (HeaderFamily.time block.header).toNat ≤
        Word.satAdd 32 n.toNat 7200 + s.params.maxFutureBlockTime := by
  simp only [StateOf.judge] at h
  obtain ⟨structural, -, h⟩ := Res.bind_eq_ok.mp h
  obtain ⟨⟨ctx, next', held'⟩, -, h⟩ := Res.bind_eq_ok.mp h
  simp only [Res.ok.injEq, Prod.mk.injEq] at h
  obtain ⟨rfl, -, -⟩ := h
  simp only [validateHeader, Verdict.ok_append, Verdict.ok_cons, Bool.and_eq_true, bne_iff_ne,
    ne_eq] at hok
  obtain ⟨⟨⟨⟨-, -, -, hmtp, hfuture, -⟩, -⟩, -⟩, -⟩ := hok
  have hwindow : s.window height.toNat = s.headers.drop (s.headers.length - 11) := by
    unfold StateOf.window
    dsimp only
    rw [hheight, Nat.min_self, List.take_length]
  have hneed : min 11 height.toNat ≤ (s.window height.toNat).length := by
    rw [hwindow, List.length_drop]
    omega
  rw [if_pos hneed, hwindow, medianTimePast_drop] at hmtp
  refine ⟨?_, ?_⟩
  · intro m hm
    rw [hm, Option.map_some, Option.some.injEq, decide_eq_false_iff_not, not_not] at hmtp
    exact hmtp
  · intro n hn
    rw [hn, Option.map_some, Option.map_some, Option.some.injEq, decide_eq_false_iff_not,
      not_not] at hfuture
    exact hfuture

/-! ### Runs with their clocks -/

/-- A run of the chain that remembers the clock each block was applied with. -/
inductive ClockedChain (doc : ChainDocument) (rules : List (BlockRule H σ)) (held : σ) :
    List (Block H × Option UInt32) → StateOf H σ → Prop
  | genesis {genesis expect s} : fromGenesisWithRules doc genesis expect rules held = .ok s →
      ClockedChain doc rules held [(genesis, none)] s
  | applied {log s height block expect now s' a} : ClockedChain doc rules held log s →
      s.apply height block expect now = .ok (s', .ok a) →
      ClockedChain doc rules held (log ++ [(block, now)]) s'
  | other {log s s'} : ClockedChain doc rules held log s → Step s none s' →
      ClockedChain doc rules held log s'

variable {doc : ChainDocument} {rules : List (BlockRule H σ)} {held : σ}

theorem ClockedChain.chain {log : List (Block H × Option UInt32)} {s : StateOf H σ}
    (h : ClockedChain doc rules held log s) : Chain doc rules held (log.map Prod.fst) s := by
  induction h with
  | genesis hgen => exact .genesis hgen
  | applied _ happ ih =>
    rw [List.map_append]
    exact .step ih (.applied happ)
  | other _ hstep ih =>
    have hc := Chain.step ih hstep
    rwa [Option.toList_none, List.append_nil] at hc

/-- The genesis is applied without a clock. -/
theorem ClockedChain.head {log : List (Block H × Option UInt32)} {s : StateOf H σ}
    (h : ClockedChain doc rules held log s) : ∃ genesis later, log = (genesis, none) :: later := by
  induction h with
  | genesis _ => exact ⟨_, [], rfl⟩
  | applied _ _ ih =>
    obtain ⟨g, l, rfl⟩ := ih
    exact ⟨g, _, rfl⟩
  | other _ _ ih => exact ih

/-- Every run was run by some clocks. -/
theorem Chain.clocked {blocks : List (Block H)} {s : StateOf H σ}
    (h : Chain doc rules held blocks s) :
    ∃ log, log.map Prod.fst = blocks ∧ ClockedChain doc rules held log s := by
  induction h with
  | genesis hgen => exact ⟨_, rfl, .genesis hgen⟩
  | @step blocks s b s' _ hstep ih =>
    obtain ⟨log, rfl, hc⟩ := ih
    cases b with
    | none => exact ⟨log, by simp, .other hc hstep⟩
    | some block =>
      cases hstep with
      | @applied _ _ _ _ now _ happ => exact ⟨log ++ [(block, now)], by simp, .applied hc happ⟩

/-- The header times of a run: each above the median before it, the medians not
falling, and no block ahead of its clock by more than the parameters allow. -/
structure Disciplined (params : Params) (headers : List H)
    (log : List (Block H × Option UInt32)) : Prop where
  above : ∀ i header, 1 ≤ i → headers[i]? = some header →
    ∃ m, medianTimePast (headers.take i) = some m ∧ m < (HeaderFamily.time header).toNat
  rising : ∀ i j m m', 1 ≤ i → i ≤ j → j ≤ headers.length →
    medianTimePast (headers.take i) = some m → medianTimePast (headers.take j) = some m' → m ≤ m'
  clock : ∀ p ∈ log, ∀ n, p.2 = some n →
    (HeaderFamily.time p.1.header).toNat ≤ n.toNat + params.maxFutureBlockTime

/-- What every step of a run keeps of the times. -/
structure TimesKept (headers : List H) (log : List (Block H × Option UInt32)) : Prop where
  above : ∀ i header, 1 ≤ i → headers[i]? = some header →
    ∃ m, medianTimePast (headers.take i) = some m ∧ m < (HeaderFamily.time header).toNat
  clock : ∀ p ∈ log, ∀ n, p.2 = some n → (HeaderFamily.time p.1.header).toNat ≤ n.toNat + 14400

theorem ClockedChain.timesKept {log : List (Block H × Option UInt32)} {s : StateOf H σ}
    (h : ClockedChain doc rules held log s) : TimesKept s.headers log := by
  induction h with
  | genesis hgen =>
    have hheaders := (Chain.genesis hgen).onChain.headers
    refine ⟨?_, ?_⟩
    · intro i header hi hget
      rw [hheaders, List.map_singleton, List.getElem?_eq_none (by simpa using hi)] at hget
      simp at hget
    · intro p hp n hn
      rw [List.mem_singleton.mp hp] at hn
      simp at hn
  | @applied log s height block expect now s' a hc happ ih =>
    obtain ⟨t, v, next, held', ht, hheight, -, hj, hok, rfl⟩ := apply_judged happ
    have hon := hc.chain.onChain
    have hlen : s.headers.length = (log.map Prod.fst).length := by rw [hon.headers, List.length_map]
    have hnext : height.toNat = s.headers.length := by
      rw [hheight, hon.tip_height ht, hlen]
    obtain ⟨habove, hclock⟩ := judge_times hj hok hnext
    refine ⟨?_, ?_⟩
    · intro i header hi hget
      unfold StateOf.commit at hget ⊢
      dsimp only at hget ⊢
      by_cases hlt : i < s.headers.length
      · rw [List.getElem?_append_left hlt] at hget
        rw [List.take_append_of_le_length hlt.le]
        exact ih.above i header hi hget
      · -- the block just applied
        rw [List.getElem?_append_right (by omega), List.getElem?_singleton] at hget
        split_ifs at hget with hzero
        obtain rfl : i = s.headers.length := by omega
        obtain rfl := Option.some.inj hget
        obtain ⟨m, hm⟩ := medianTimePast_isSome (List.length_pos_iff.mp hi)
        rw [List.take_left]
        exact ⟨m, hm, habove m hm⟩
    · intro p hp n hn
      rcases List.mem_append.mp hp with hp | hp
      · exact ih.clock p hp n hn
      · obtain rfl := List.mem_singleton.mp hp
        have hle := hclock n hn
        have hsat := Word.satAdd_le_add (w := 32) n.toNat 7200
        have hmax : s.params.maxFutureBlockTime = 7200 := by rw [hon.params]
        dsimp only
        omega
  | other _ hstep ih =>
    rcases hstep.cases with ⟨_, _, _, _, _, _, _, hnone, -⟩ | ⟨-, hsame, -⟩
    · simp at hnone
    · rw [hsame.headers]
      exact ih

/-- **Header times are disciplined**, but for the clock: a run keeps to the
parameters exactly when no block of it is applied with a time in the 7,200
seconds after those they allow. -/
theorem header_times_disciplined {log : List (Block H × Option UInt32)} {s : StateOf H σ}
    (h : ClockedChain doc rules held log s) :
    Disciplined s.params s.headers log ↔ ∀ p ∈ log, ∀ n, p.2 = some n →
      ¬ (n.toNat + 7200 < (HeaderFamily.time p.1.header).toNat ∧
        (HeaderFamily.time p.1.header).toNat ≤ n.toNat + 14400) := by
  have hkept := h.timesKept
  have hmax : s.params.maxFutureBlockTime = 7200 := by rw [h.chain.onChain.params]
  constructor
  · intro hd p hp n hn hin
    have hle := hd.clock p hp n hn
    omega
  · intro hout
    refine ⟨hkept.above, ?_, ?_⟩
    · intro i j m m' hi hij hj hm hm'
      exact medianTimePast_mono hkept.above hi hm j hij hj m' hm'
    · intro p hp n hn
      have hle := hkept.clock p hp n hn
      have hnot := hout p hp n hn
      omega

end

section

attribute [local instance] sampleBitcoin

/-- The block after the sample's genesis, 14,400 seconds later. -/
def blockAhead (s : StateOf Header Unit) : Res Error (Block Header) := do
  let (unsigned, _) ← s.buildNextWith { time := 1790014400 } []
  signBlock unsigned s.challenge 1

/-- The block is for that time, and is applied by this clock. -/
def appliedUnder (now : UInt32) (s : StateOf Header Unit) : Bool :=
  (blockAhead s).any fun block => block.header.time == 1790014400 &&
    (s.apply 1 block none (some now)).any fun r => r.2.toBool

set_option maxRecDepth 100000 in
theorem appliedUnder_run : ∃ genesis s, Chain (H := Header) sampleDoc [] () [genesis] s ∧
    appliedUnder 1790000000 s = true ∧ appliedUnder 1790007200 s = true := by
  obtain ⟨genesis, later, s, hc, hp⟩ := exists_chain_of_sampleRun sampleDoc [] () 1 []
    (fun _ later s => later.isEmpty && (appliedUnder 1790000000 s && appliedUnder 1790007200 s))
    (by decide +kernel)
  simp only [Bool.and_eq_true, List.isEmpty_iff] at hp
  obtain ⟨rfl, hp⟩ := hp
  exact ⟨genesis, s, hc, hp⟩

/-- A run whose last block is for 1790014400 and applied by this clock. -/
theorem clocked_of_appliedUnder {now : UInt32} {genesis : Block Header}
    {s : StateOf Header Unit} (hc : Chain sampleDoc [] () [genesis] s)
    (h : appliedUnder now s = true) :
    ∃ block s', ClockedChain sampleDoc [] () [(genesis, none), (block, some now)] s' ∧
      (HeaderFamily.time block.header).toNat = 1790014400 := by
  obtain ⟨log, hlog, hclocked⟩ := hc.clocked
  obtain ⟨g, later, rfl⟩ := hclocked.head
  rw [List.map_cons, List.cons.injEq, List.map_eq_nil_iff] at hlog
  obtain ⟨rfl, rfl⟩ := hlog
  obtain ⟨block, -, hp⟩ := Res.any_eq_true.mp h
  rw [Bool.and_eq_true, beq_iff_eq] at hp
  obtain ⟨⟨s', r⟩, happ, hr⟩ := Res.any_eq_true.mp hp.2
  cases r with
  | error e => simp [Except.toBool] at hr
  | ok a => exact ⟨block, s', .applied hclocked happ, congrArg UInt32.toNat hp.1⟩

/-- Two hours ahead of the clock the run keeps to the parameters. -/
theorem header_times_disciplined_sample : ∃ log s,
    ClockedChain (H := Header) sampleDoc [] () log s ∧ (∃ p ∈ log, p.2 = some 1790007200) ∧
      Disciplined s.params s.headers log := by
  obtain ⟨genesis, s, hc, -, happ⟩ := appliedUnder_run
  obtain ⟨block, s', hrun, htime⟩ := clocked_of_appliedUnder hc happ
  refine ⟨_, s', hrun, ⟨(block, some 1790007200), by simp, rfl⟩, ?_⟩
  refine (header_times_disciplined hrun).mpr ?_
  intro p hp n hn
  rcases List.mem_cons.mp hp with rfl | hp
  · simp at hn
  · obtain rfl := List.mem_singleton.mp hp
    obtain rfl := Option.some.inj hn
    dsimp only
    rw [htime]
    decide

/-- Four hours ahead of the clock the block is applied all the same. -/
theorem header_times_four_hours : ¬ ∀ log s,
    ClockedChain (H := Header) sampleDoc [] () log s → Disciplined s.params s.headers log := by
  intro hall
  obtain ⟨genesis, s, hc, happ, -⟩ := appliedUnder_run
  obtain ⟨block, s', hrun, htime⟩ := clocked_of_appliedUnder hc happ
  have hmax : s'.params.maxFutureBlockTime = 7200 := by rw [hrun.chain.onChain.params]
  have hle := (hall _ _ hrun).clock (block, some 1790000000) (by simp) 1790000000 rfl
  rw [hmax, htime] at hle
  exact absurd hle (by decide)

end

end Sidestr
