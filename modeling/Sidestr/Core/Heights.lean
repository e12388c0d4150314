/-
# Coinbase heights

A stock header does not carry its height: the coinbase pushes it. The strict
reader (`coinbaseHeight`) inverts the writer (`heightPush`), whatever follows
the push. The lenient reader of the rule (`bip34HeightLenient`) gives what the
strict one gave, except for height 0, so a block whose height was read to be
the next one passes the rule, and one whose height was not is turned away
before the rules run.

Key theorems: `coinbaseHeight_push`, `bip34HeightLenient_of_coinbaseHeight`,
`coinbase_heights_unambiguous`.
-/
import Sidestr.Core.Sample
import Sidestr.Core.BlockFile

namespace Sidestr

/-! ### The writer and the strict reader -/

theorem leNat_concat_zero (l : Bytes) : leNat (l ++ [0]) = leNat l := by
  unfold leNat beNat
  rw [List.reverse_append, List.foldl_append]
  rfl

/-- The bytes of a height read back, and the last of them is not zero. -/
theorem heightBytes_spec : ∀ (k n : ℕ), n < 256 ^ k →
    leNat (heightBytes k n) = n ∧ (heightBytes k n).length ≤ k ∧
      (heightBytes k n = [] ↔ n = 0) ∧ ∀ b ∈ (heightBytes k n).getLast?, b.toNat ≠ 0
  | 0, n, h => by
    obtain rfl : n = 0 := by simpa using h
    exact ⟨rfl, le_rfl, Iff.intro (fun _ => rfl) fun _ => rfl, by simp [heightBytes]⟩
  | k + 1, n, h => by
    by_cases hn : n = 0
    · rw [hn]
      exact ⟨rfl, Nat.zero_le _, Iff.intro (fun _ => rfl) fun _ => rfl, by simp [heightBytes]⟩
    · have hdiv : n / 256 < 256 ^ k := by
        rw [pow_succ] at h
        omega
      obtain ⟨hread, hlen, hnil, hlast⟩ := heightBytes_spec k (n / 256) hdiv
      have hbyte : (UInt8.ofNat n).toNat = n % 256 := UInt8.toNat_ofNat' ..
      unfold heightBytes
      rw [if_neg hn]
      refine ⟨?_, ?_, ?_, ?_⟩
      · rw [leNat_cons, hread, hbyte]
        omega
      · rw [List.length_cons]
        omega
      · simp [hn]
      · intro b hb
        by_cases hrest : heightBytes k (n / 256) = []
        · rw [hrest, List.getLast?_singleton, Option.mem_some_iff] at hb
          have hzero := hnil.mp hrest
          rw [← hb, hbyte]
          omega
        · rw [List.getLast?_cons, List.getLast?_eq_some_getLast hrest] at hb
          refine hlast b ?_
          rw [List.getLast?_eq_some_getLast hrest]
          exact hb

/-- A push of at most five bytes, minimal and not negative, is read as a height. -/
theorem coinbaseHeight_of_push {tx : Transaction} {push rest : Bytes}
    (hsig : (tx.input.head?.map TxIn.scriptSig).getD [] =
      UInt8.ofNat push.length :: (push ++ rest)) (hpos : push ≠ []) (hlen : push.length ≤ 5)
    (hlast : ((push.getLast?).getD 0).toNat < 0x80)
    (hmin : (push.getLast?).getD 0 = 0 → 0x80 ≤ ((push.dropLast.getLast?).getD 0).toNat)
    (hread : leNat push < 2 ^ 32) : coinbaseHeight tx = .ok (leNat push) := by
  have hn : (UInt8.ofNat push.length).toNat = push.length := by
    rw [UInt8.toNat_ofNat']
    omega
  have hlength : 0 < push.length := List.length_pos_iff.mpr hpos
  have htake : (push ++ rest).take push.length = push := List.take_left
  unfold coinbaseHeight
  rw [hsig]
  dsimp only
  rw [hn, htake, if_neg (by omega), if_neg (by omega), if_neg, if_neg, if_neg (by omega),
    if_neg (by omega), if_pos hread]
  · rintro ⟨-, hzero, hbefore⟩
    have hhigh := hmin hzero
    omega
  · rw [List.length_append]
    omega

/-- **The push of a height**: at most five bytes behind their number, minimal,
not negative, and the height again. -/
theorem heightPush_spec {height : ℕ} (hpos : 0 < height) (h : height < 2 ^ 32) :
    ∃ push : Bytes, heightPush height = UInt8.ofNat push.length :: push ∧ push ≠ [] ∧
      push.length ≤ 5 ∧ ((push.getLast?).getD 0).toNat < 0x80 ∧
      ((push.getLast?).getD 0 = 0 → 0x80 ≤ ((push.dropLast.getLast?).getD 0).toNat) ∧
      leNat push = height := by
  obtain ⟨hread, hlen, hnil, hlast⟩ := heightBytes_spec 4 height (by omega)
  have hne : heightBytes 4 height ≠ [] := fun he => absurd (hnil.mp he) (by omega)
  have hb := List.getLast?_eq_some_getLast hne
  have hbyte := hlast _ hb
  unfold heightPush
  dsimp only
  simp only [hb]
  by_cases hhigh : 0x80 ≤ ((heightBytes 4 height).getLast hne).toNat
  · -- a high bit: a byte of padding
    simp only [if_pos hhigh]
    rw [if_neg (by simp)]
    refine ⟨heightBytes 4 height ++ [0], rfl, by simp, ?_, ?_, ?_, ?_⟩
    · rw [List.length_append, List.length_singleton]
      omega
    · rw [List.getLast?_concat]
      decide
    · intro _
      rw [List.dropLast_concat, hb]
      exact hhigh
    · exact (leNat_concat_zero _).trans hread
  · simp only [if_neg hhigh]
    rw [if_neg hne]
    refine ⟨heightBytes 4 height, rfl, hne, by omega, ?_, ?_, hread⟩
    · rw [hb]
      exact Nat.not_le.mp hhigh
    · intro hzero
      rw [hb] at hzero
      exact absurd (congrArg UInt8.toNat hzero) hbyte

/-- A coinbase that pushes a height is read as that height. -/
theorem coinbaseHeight_push {height : ℕ} (h : height < 2 ^ 32) {tx : Transaction} {rest : Bytes}
    (hsig : (tx.input.head?.map TxIn.scriptSig).getD [] = heightPush height ++ rest) :
    coinbaseHeight tx = .ok height := by
  rcases Nat.eq_zero_or_pos height with rfl | hpos
  · unfold coinbaseHeight
    rw [hsig]
    rfl
  · obtain ⟨push, hpush, hne, hlen, hlast, hmin, hread⟩ := heightPush_spec hpos h
    rw [hpush, List.cons_append] at hsig
    rw [← hread] at h ⊢
    exact coinbaseHeight_of_push hsig hne hlen hlast hmin h

/-! ### The lenient reader -/

/-- The height the strict reader gives fits 32 bits. -/
theorem coinbaseHeight_lt {cb : Transaction} {h : ℕ} (hr : coinbaseHeight cb = .ok h) :
    h < 2 ^ 32 := by
  unfold coinbaseHeight at hr
  dsimp only at hr
  split at hr
  · simp at hr
  · split_ifs at hr <;> simp only [Res.ok.injEq] at hr <;> omega

/-- **The two readers.** The lenient reader gives what the strict one gave, or
nothing for a height 0. -/
theorem bip34HeightLenient_cases {cb : Transaction} {h : ℕ} (hr : coinbaseHeight cb = .ok h) :
    bip34HeightLenient cb = some h ∨ h = 0 ∧ bip34HeightLenient cb = none := by
  unfold coinbaseHeight at hr
  dsimp only at hr
  unfold bip34HeightLenient
  cases hin : cb.input.head? with
  | none => simp [hin] at hr
  | some inp =>
    simp only [hin, Option.map_some, Option.getD_some] at hr
    rw [Option.bind_eq_bind, Option.bind_some]
    cases hsig : inp.scriptSig with
    | nil => simp [hsig] at hr
    | cons op rest =>
      simp only [hsig] at hr
      dsimp only
      by_cases hzero : op.toNat = 0
      · -- `OP_0`: the lenient reader knows no such push
        rw [if_pos hzero, Res.ok.injEq] at hr
        rw [if_neg (by omega), if_pos (by omega)]
        exact .inr ⟨hr.symm, rfl⟩
      · rw [if_neg hzero] at hr
        by_cases hop : 0x51 ≤ op.toNat ∧ op.toNat ≤ 0x60
        · rw [if_pos hop, Res.ok.injEq] at hr
          rw [if_pos hop, hr]
          exact .inl rfl
        · rw [if_neg hop] at hr
          rw [if_neg hop]
          split_ifs at hr with hlen hmin hneg hlong hfit
          rw [Res.ok.injEq] at hr
          rw [if_neg (by omega), if_pos hfit, hr]
          exact .inl rfl

/-- Above height 0 the two readers agree. -/
theorem bip34HeightLenient_of_coinbaseHeight {cb : Transaction} {h : ℕ}
    (hr : coinbaseHeight cb = .ok h) (hpos : 1 ≤ h) : bip34HeightLenient cb = some h := by
  rcases bip34HeightLenient_cases hr with hsome | ⟨hzero, -⟩
  · exact hsome
  · omega

/-! ### Blocks from elsewhere -/

section

variable [Bitcoin] {H σ : Type} [HeaderFamily H]

/-- The height of a stock block is the one its coinbase pushes. -/
theorem blockHeight_stock {block : Block Header} {cb : Transaction} {rest : List Transaction}
    (htx : block.txdata = cb :: rest) : blockHeight block = coinbaseHeight cb := by
  unfold blockHeight
  rw [htx]
  rfl

theorem blockHeight_lt {block : Block Header} {h : ℕ} (hr : blockHeight block = .ok h) :
    h < 2 ^ 32 := by
  cases htx : block.txdata with
  | nil =>
    unfold blockHeight at hr
    rw [htx] at hr
    simp [HeaderFamily.headerHeight] at hr
  | cons cb rest =>
    rw [blockHeight_stock htx] at hr
    exact coinbaseHeight_lt hr

/-- What a rule answered: the first result under its id; none when it was skipped. -/
def Verdict.result (v : Verdict) (rule : RuleId) : Option Bool :=
  (v.find? fun r => r.rule == rule).bind RuleResult.ok

/-- The height rule in a judgement of a stock block: skipped at height 0, the
lenient read everywhere else. -/
theorem judge_bip34 {s : StateOf Header σ} (hparams : s.params = {}) {height : UInt32}
    {block : Block Header} {now : Option UInt32} {v : Verdict} {next : Records} {held : σ}
    (h : s.judge height block now = .ok (v, next, held)) :
    ∃ cb rest, block.txdata = cb :: rest ∧
      v.result .ctxBip34Height = if 1 ≤ height.toNat then
        some (bip34HeightLenient cb == some height.toNat) else none := by
  simp only [StateOf.judge] at h
  obtain ⟨structural, hstruct, h⟩ := Res.bind_eq_ok.mp h
  obtain ⟨⟨ctx, next', held'⟩, hctx, h⟩ := Res.bind_eq_ok.mp h
  simp only [Res.ok.injEq, Prod.mk.injEq] at h
  obtain ⟨rfl, -, -⟩ := h
  obtain ⟨signed, -, hstruct⟩ := Res.bind_eq_ok.mp hstruct
  rw [Res.ok.injEq] at hstruct
  simp only [validateBlockContext, StateOf.candidate] at hctx
  cases htx : block.txdata with
  | nil => simp [htx] at hctx
  | cons cb rest =>
    have hhead : block.txdata.head? = some cb := by rw [htx]; rfl
    simp only [hhead, Res.expect_some, Res.ok_bind] at hctx
    obtain ⟨scripts, -, hctx⟩ := Res.bind_eq_ok.mp hctx
    obtain ⟨⟨w, held''⟩, -, hctx⟩ := Res.bind_eq_ok.mp hctx
    simp only [Res.ok.injEq, Prod.mk.injEq] at hctx
    obtain ⟨rfl, -, -⟩ := hctx
    refine ⟨cb, rest, rfl, ?_⟩
    have hone : s.params.bip34Height = 1 := by rw [hparams]
    rw [← hstruct, hone]
    rfl

/-- **Coinbase heights are unambiguous.** The strict reader inverts the writer
whatever follows the push; above height 0 the lenient reader agrees with it;
and a stock block from elsewhere is judged at the next height only, where it
passes the height rule exactly when its strict height is the next one. -/
theorem coinbase_heights_unambiguous :
    (∀ (height : UInt32) (suffix : Bytes) (cb : Transaction),
      (cb.input.head?.map TxIn.scriptSig).getD [] = heightPush height.toNat ++ suffix →
        coinbaseHeight cb = .ok height.toNat) ∧
    (∀ (cb : Transaction) (h : ℕ), coinbaseHeight cb = .ok h → 1 ≤ h →
      bip34HeightLenient cb = some h) ∧
    ∀ (doc : ChainDocument) (rules : List (BlockRule Header σ)) (held : σ)
      (blocks : List (Block Header)) (s : StateOf Header σ), Chain doc rules held blocks s →
      ∃ t, s.tip = .ok t ∧ ∀ (block : Block Header) (expect : Option BlockHash)
        (now : Option UInt32),
        (∀ h, blockHeight block = .ok h →
          s.addBlock block expect now = s.apply (UInt32.ofNat h) block expect now ∧
          (h ≠ t.height + 1 → ∃ why, s.addBlock block expect now = .ok (s, .error (.chain why))) ∧
          ∀ v next held', s.judge (UInt32.ofNat (t.height + 1)) block now = .ok (v, next, held') →
            (v.result .ctxBip34Height = some true ↔ h = t.height + 1)) ∧
        ∀ e, blockHeight block = .err e → s.addBlock block expect now = .ok (s, .error e) := by
  refine ⟨fun height suffix cb hsig => coinbaseHeight_push height.toNat_lt hsig,
    fun cb h => bip34HeightLenient_of_coinbaseHeight, ?_⟩
  intro doc rules held blocks s hc
  have hon := hc.onChain
  obtain ⟨t, ht⟩ := hon.tip_returns
  refine ⟨t, ht, fun block expect now => ⟨?_, ?_⟩⟩
  · intro h hread
    have hadd : s.addBlock block expect now = s.apply (UInt32.ofNat h) block expect now := by
      unfold StateOf.addBlock
      rw [hread]
    have hlt := blockHeight_lt hread
    refine ⟨hadd, ?_, ?_⟩
    · intro hne
      have hback : (UInt32.ofNat h).toNat = h := UInt32.toNat_ofNat_of_lt' hlt
      refine ⟨"not the tip plus one", ?_⟩
      rw [hadd]
      unfold StateOf.apply
      rw [ht, Res.ok_bind, hback, if_pos hne]
    · intro v next held' hj
      obtain ⟨cb, rest, htx, hres⟩ := judge_bip34 hon.params hj
      rw [blockHeight_stock htx] at hread
      have hback : (UInt32.ofNat (t.height + 1)).toNat = (t.height + 1) % 2 ^ 32 :=
        UInt32.toNat_ofNat'
      rw [hres, hback]
      by_cases hpos : 1 ≤ (t.height + 1) % 2 ^ 32
      · have hnext : (t.height + 1) % 2 ^ 32 = t.height + 1 := by
          have := (tip_ok ht).2.1
          omega
        rw [if_pos hpos, hnext, Option.some.injEq, beq_iff_eq]
        rcases bip34HeightLenient_cases hread with hsome | ⟨hzero, hnone⟩
        · rw [hsome, Option.some.injEq]
        · rw [hnone, hzero]
          simp
      · -- the last height has none after it
        rw [if_neg hpos]
        refine Iff.intro (fun h => absurd h (by simp)) ?_
        intro heq
        omega
  · intro e hread
    unfold StateOf.addBlock
    rw [hread]

end

section

attribute [local instance] sampleBitcoin

/-- A coinbase that pushes the height 300, a byte after it. -/
def pushing300 : Transaction where
  version := 2
  lockTime := 0
  input := [⟨OutPoint.null, heightPush 300 ++ [0xff], 0xffffffff, []⟩]
  output := []

set_option maxRecDepth 100000 in
theorem coinbase_heights_unambiguous_sample :
    coinbaseHeight pushing300 = .ok 300 ∧ bip34HeightLenient pushing300 = some 300 ∧
    ∃ blocks s t, Chain (H := Header) sampleDoc [] () blocks s ∧ s.tip = .ok t ∧
      ∀ block : Block Header, blockHeight block = .ok 300 → t.height ≠ 299 →
        ∃ why, s.addBlock block none none = .ok (s, .error (.chain why)) := by
  obtain ⟨hpush, hread, hchain⟩ := coinbase_heights_unambiguous (σ := Unit)
  obtain ⟨genesis, later, s, hrun, -⟩ := exists_chain_of_sampleRun sampleDoc [] () 1 []
    (fun _ _ _ => true) (by decide +kernel)
  obtain ⟨t, ht, hadd⟩ := hchain sampleDoc [] () _ s hrun
  have h300 : coinbaseHeight pushing300 = .ok 300 := hpush 300 [0xff] pushing300 rfl
  refine ⟨h300, hread pushing300 300 h300 (by decide), _, s, t, hrun, ht, ?_⟩
  intro block hblock hne
  exact ((hadd block none none).1 300 hblock).2.1 (by omega)

end

end Sidestr
