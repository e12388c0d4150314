/-
# The pool rule

A pool is one `OP_TRUE` coin that holds sats and one issued asset (`pool.rs`).
The transaction that opens it mints its shares, an asset whose id is the
transaction's own; each later transaction that spends the coin recreates it,
as a swap, an add or a remove. The rule reads the assets rule's trace of the
transaction for what its inputs and outputs carry.

A transition is judged on 128-bit products of 64-bit values. A product that
does not fit panics in a build with overflow checks and wraps in one without;
the rule's functions take that as the flag `checks`.

Key definitions: `Pool`, `PoolView`, `PoolAction`, `PoolView.action`,
`checkTransition`, `PoolView.check`, `PoolHeld`.
Key theorems: `PoolView.check_ok`, `PoolView.check_panic`, `isqrt_eq_sqrt`.
-/
import Mathlib.Data.Nat.Sqrt
import Mathlib.Tactic.Linarith
import Sidestr.Core.Assets

namespace Sidestr

/-- The locking script of a pool coin: `OP_TRUE`. -/
def poolScript : Bytes := [0x51]

/-- One pool's state. -/
structure Pool where
  /-- The opening transaction's id, and the id of the share asset. -/
  id : Txid
  asset : Txid
  sats : ℕ
  /-- Units of `asset` held. -/
  assets : ℕ
  /-- Outstanding shares. -/
  shares : ℕ
  outpoint : OutPoint
  /-- The height at which it opened. -/
  opened : ℕ
  deriving DecidableEq, Repr

/-- The pools, by id and by coin. -/
structure PoolView where
  pools : Map Txid Pool := ∅
  byOutpoint : Map OutPoint Txid := ∅

namespace PoolView

/-- Whether an asset id is an existing pool's share asset. -/
def contains (v : PoolView) (id : Txid) : Bool := (v.pools.lookup id).isSome

/-- A pool opened or recreated: its old coin is no longer a pool's. -/
def apply (v : PoolView) (pool : Pool) : PoolView :=
  let coins := match v.pools.lookup pool.id with
    | some before => v.byOutpoint.erase before.outpoint
    | none => v.byOutpoint
  ⟨v.pools.insert pool.id pool, coins.insert pool.outpoint pool.id⟩

/-- The pools whose coins a transaction spends. -/
def spent (v : PoolView) (tx : Transaction) : List Txid :=
  tx.input.filterMap fun i => v.byOutpoint.lookup i.previousOutput

end PoolView

/-- The value of a pool coin: an `OP_TRUE` output with one. -/
def poolCoin (tx : Transaction) (vout : ℕ) : Option ℕ :=
  tx.output[vout]?.bind fun o =>
    if o.scriptPubkey = poolScript ∧ 1 ≤ o.sats then some o.sats else none

/-- What the entries carry of an asset, added up to the largest value. -/
def sumCarry {K : Type} (m : Map K Carry) (asset : Txid) : ℕ := min (heldIn m asset) (Word.maxVal 64)

def carryIn (trace : AssetTrace) (asset : Txid) : ℕ := sumCarry trace.inputs asset

def carryOut (trace : AssetTrace) (asset : Txid) : ℕ := sumCarry trace.outputs asset

/-! ### Arithmetic -/

/-- A 128-bit product. -/
def mulWide (checks : Bool) (a b : ℕ) : Res String ℕ :=
  if a * b < 2 ^ 128 then .ok (a * b) else if checks then .panic else .ok (a * b % 2 ^ 128)

/-- A division, which panics on zero. -/
def divWide (a b : ℕ) : Res String ℕ := if b = 0 then .panic else .ok (a / b)

/-- Newton's iteration from above; `fuel` bounds the guesses, which decrease. -/
def isqrtLoop (n : ℕ) : ℕ → ℕ → ℕ → ℕ
  | 0, x, _ => x
  | fuel + 1, x, y => if y < x then isqrtLoop n fuel y ((y + n / y) / 2) else x

/-- The integer square root. -/
def isqrt (n : ℕ) : ℕ := if n < 2 then n else isqrtLoop n n n ((n + 1) / 2)

/-! ### The check -/

section

variable [Bitcoin]

/-- A transaction that opens a pool: the pool it makes. -/
def openPool (tx : Transaction) (trace : AssetTrace) (height : ℕ) (record : PoolRecord) :
    Res String Pool := do
  let txid := Bitcoin.computeTxid tx
  let sats ← Res.okOr "the pool coin is an OP_TRUE output with value" (poolCoin tx record.vout)
  match (trace.outputs.lookup record.vout).getD [] with
  | [(asset, assets)] =>
    Res.refuseIf (asset == txid) "a pool does not hold its own shares"
    let shares := isqrt (Word.satMul 128 sats assets)
    Res.refuseIf (Word.maxVal 64 < shares) "the opening share supply overflows"
    Res.refuseIf (carryOut trace txid != shares) "opening tallies exactly its shares (tally:self)"
    .ok ⟨txid, asset, sats, assets, shares, outPointAt txid record.vout, height⟩
  | _ => .err "a pool coin carries exactly one asset"

/-- A transaction that spends the coin of pool `id`: the pool before, and the
pool it proposes. -/
def PoolView.recreated (v : PoolView) (tx : Transaction) (trace : AssetTrace) (id : Txid)
    (records : List (ℕ × PoolRecord)) : Res String (Pool × Pool) := do
  let before ← Res.okOr "the spent pool is not known" (v.pools.lookup id)
  let (_, record) ← Res.okOr "a spent pool coin is recreated with pool:<its id>:<vout>" records.head?
  Res.refuseIf (record.pool != .id id) "a spent pool coin is recreated with pool:<its id>:<vout>"
  let sats ← Res.okOr "the pool coin is an OP_TRUE output with value" (poolCoin tx record.vout)
  let carried := (trace.outputs.lookup record.vout).getD []
  Res.refuseIf (carried.length != 1 || (carried.lookup before.asset).isNone)
    "the pool coin carries exactly its asset"
  let assets := carried.amount before.asset
  Res.refuseIf (assets == 0) "a pool is never emptied"
  let shares ← Res.okOr "more shares destroyed than exist"
    ((Word.checkedSub before.shares (carryIn trace id)).bind fun n =>
      Word.checkedAdd 64 n (carryOut trace id))
  .ok (before, ⟨id, before.asset, sats, assets, shares,
    outPointAt (Bitcoin.computeTxid tx) record.vout, before.opened⟩)

/-- What a transaction does to the pools, before a transition is judged. -/
inductive PoolAction where
  | nothing
  | opens (pool : Pool)
  | recreates (before after : Pool)

/-- What a transaction that is not the first of its block does. -/
def PoolView.action (v : PoolView) (tx : Transaction) (trace : AssetTrace) (height : ℕ) :
    Res String PoolAction := do
  let cls := classify tx
  let spent := v.spent tx
  Res.refuseIf (1 < spent.length) "a transaction spends at most one pool coin"
  Res.refuseIf (1 < cls.pools.length) "a transaction carries at most one pool: record"
  if spent.isEmpty && cls.pools.isEmpty then .ok .nothing
  else
    match (cls.pools.filter fun p => p.2.pool == .selfTx).head? with
    | some (_, record) => do
      Res.refuseIf (!spent.isEmpty) "a transaction opens a pool or spends one, not both"
      let pool ← openPool tx trace height record
      .ok (.opens pool)
    | none =>
      match spent with
      | [] => .err "pool: names a pool this transaction does not spend"
      | id :: _ => do
        let (before, after) ← v.recreated tx trace id
          (cls.pools.filter fun p => p.2.pool != .selfTx)
        .ok (.recreates before after)

omit [Bitcoin] in
/-- A swap keeps the product after its fee, an add mints no more than its part,
a remove takes no more than its part. -/
def checkTransition (checks : Bool) (before : Pool) (sats assets shares : ℕ) : Res String Unit :=
  let (x, y, s) := (before.sats, before.assets, before.shares)
  let (x2, y2, s2) := (sats, assets, shares)
  if s2 = s then do
    let dx := x2 - x
    let dy := y2 - y
    let left ← mulWide checks (1000 * x2 - 3 * dx) (1000 * y2 - 3 * dy)
    let right ← mulWide checks (1000000 * x) y
    Res.refuseIf (left < right) "swap: the constant product does not hold after the fee"
  else if s < s2 then do
    Res.refuseIf (x2 < x || y2 < y) "add: the pool does not shrink"
    let p ← mulWide checks (x2 - x) s
    let a ← divWide p x
    let q ← mulWide checks (y2 - y) s
    let b ← divWide q y
    Res.refuseIf (min a b < s2 - s) "add: at most the cap of shares for what was added"
  else do
    Res.refuseIf (x < x2 || y < y2) "remove: the pool does not grow"
    let p ← mulWide checks x (s - s2)
    let a ← divWide p s
    Res.refuseIf (a < x - x2) "remove: more than the shares' pro-rata part"
    let q ← mulWide checks y (s - s2)
    let b ← divWide q s
    Res.refuseIf (b < y - y2) "remove: more than the shares' pro-rata part"

/-- The pool a transaction opens or recreates, if it does. -/
def PoolView.check (checks : Bool) (v : PoolView) (tx : Transaction) (trace : AssetTrace)
    (height : ℕ) (coinbase : Bool) : Res String (Option Pool) :=
  if coinbase then
    if (classify tx).pools.isEmpty then .ok none else .err "the coinbase carries no records"
  else do
    let action ← v.action tx trace height
    match action with
    | .nothing => .ok none
    | .opens pool => .ok (some pool)
    | .recreates before after => do
      checkTransition checks before after.sats after.assets after.shares
      .ok (some after)

/-! ### The rule -/

/-- One transaction of a candidate block with its trace. -/
def poolTx (checks : Bool) (height : ℕ) (v : PoolView) (p : (Transaction × AssetTrace) × ℕ) :
    Res String PoolView := do
  let effect ← v.check checks p.1.1 p.1.2 height (p.2 == 0)
  match effect with
  | some pool => .ok (v.apply pool)
  | none => .ok v

/-- The pools a candidate block leaves. -/
def poolCandidate (checks : Bool) (view : PoolView) (txdata : List Transaction)
    (traces : List AssetTrace) (height : ℕ) : Res String PoolView :=
  Res.foldlM (poolTx checks height) view (txdata.zip traces).zipIdx

/-- The rule's state. -/
structure PoolHeld where
  view : PoolView := {}
  pending : List (BlockHash × PoolView) := []

/-- Judge a candidate on the assets rule's traces of it. -/
def PoolHeld.check (checks : Bool) (held : PoolHeld) (traces : Option (List AssetTrace))
    (hash : BlockHash) (txdata : List Transaction) (height : ℕ) :
    Res Error (Option Bool × PoolHeld) :=
  match traces with
  | none => .ok (some false, held)
  | some traces =>
    if traces.length ≠ txdata.length then .ok (some false, held)
    else
      match poolCandidate checks held.view txdata traces height with
      | .ok next => .ok (some true, { held with
          pending := held.pending.filter (fun p => p.1 != hash) ++ [(hash, next)] })
      | .err _ => .ok (some false, held)
      | .panic => .panic

omit [Bitcoin] in
def PoolHeld.applied (held : PoolHeld) (hash : BlockHash) : PoolHeld :=
  match held.pending.find? fun p => p.1 == hash with
  | some (_, view) => ⟨view, []⟩
  | none => ⟨held.view, []⟩

/-! ### Bounds and panics -/

omit [Bitcoin] in
/-- A guess after the first is not below the root, by the inequality of the means. -/
theorem lt_guess_sq {n x : ℕ} (hx : 0 < x) :
    n < ((x + n / x) / 2 + 1) * ((x + n / x) / 2 + 1) := by
  have hn : n < x * (n / x + 1) := Nat.lt_mul_div_succ n hx
  generalize n / x = q at hn ⊢
  have hm : x + (q + 1) ≤ 2 * ((x + q) / 2 + 1) := by omega
  generalize (x + q) / 2 + 1 = m at hm ⊢
  have h1 : 4 * x * (q + 1) ≤ (x + (q + 1)) ^ 2 := four_mul_le_sq_add x (q + 1)
  have h2 := Nat.pow_le_pow_left hm 2
  nlinarith

omit [Bitcoin] in
/-- A guess after a positive one is positive, when `n` is. -/
theorem guess_pos {n x : ℕ} (hn : 0 < n) (hpos : 0 < x) : 0 < (x + n / x) / 2 := by
  have hguess := lt_guess_sq (n := n) hpos
  rcases Nat.eq_zero_or_pos ((x + n / x) / 2) with h0 | h0
  · rw [h0] at hguess
    omega
  · exact h0

omit [Bitcoin] in
/-- The loop returns the root from any guess not below it, given fuel for the
guesses, which decrease. -/
theorem isqrtLoop_spec {n : ℕ} (hn : 0 < n) : ∀ fuel x, 0 < x → x ≤ fuel → n < (x + 1) * (x + 1) →
    isqrtLoop n fuel x ((x + n / x) / 2) = Nat.sqrt n
  | 0, x, hpos, hle, _ => by omega
  | fuel + 1, x, hpos, hle, hlt => by
    unfold isqrtLoop
    split_ifs with h
    · exact isqrtLoop_spec hn fuel _ (guess_pos hn hpos) (Nat.le_of_lt_succ (h.trans_le hle))
        (lt_guess_sq hpos)
    · -- the next guess is no smaller: the square of this one fits
      have hdiv : x ≤ n / x := by omega
      exact Nat.eq_sqrt.mpr ⟨(Nat.le_div_iff_mul_le hpos).mp hdiv, hlt⟩

omit [Bitcoin] in
/-- The loop of the code returns the integer square root. -/
theorem isqrt_eq_sqrt (n : ℕ) : isqrt n = Nat.sqrt n := by
  unfold isqrt
  split_ifs with h
  · have hn : n = 0 ∨ n = 1 := by omega
    rcases hn with rfl | rfl
    · rfl
    · rfl
  · have hstart : (n + 1) / 2 = (n + n / n) / 2 := by rw [Nat.div_self (by omega)]
    rw [hstart]
    exact isqrtLoop_spec (by omega) n n (by omega) le_rfl (by nlinarith)

/-- The fields of a pool are 64-bit values, its coin has a value and it is not empty. -/
structure Pool.Ok (p : Pool) : Prop where
  sats : 1 ≤ p.sats ∧ p.sats ≤ Word.maxVal 64
  assets : 1 ≤ p.assets ∧ p.assets ≤ Word.maxVal 64
  shares : p.shares ≤ Word.maxVal 64

/-- Every pool of a view is in order, under its own id. -/
def PoolView.Ok (v : PoolView) : Prop := ∀ id p, v.pools.lookup id = some p → p.id = id ∧ p.Ok

/-- The products of a swap that do not fit 128 bits. -/
def swapOverflows (before : Pool) (sats assets : ℕ) : Prop :=
  2 ^ 128 ≤ (1000 * sats - 3 * (sats - before.sats)) *
    (1000 * assets - 3 * (assets - before.assets)) ∨
  2 ^ 128 ≤ 1000000 * before.sats * before.assets

omit [Bitcoin] in
theorem mulWide_eq_panic {checks : Bool} {a b : ℕ} :
    mulWide checks a b = .panic ↔ checks = true ∧ 2 ^ 128 ≤ a * b := by
  unfold mulWide
  split_ifs with h1 h2
  · simp only [false_iff, not_and]
    omega
  · simpa [h2] using h1
  · simp [h2]

omit [Bitcoin] in
/-- The product of two 64-bit values fits. -/
theorem mulWide_ok (checks : Bool) {a b : ℕ} (ha : a ≤ Word.maxVal 64) (hb : b ≤ Word.maxVal 64) :
    mulWide checks a b = .ok (a * b) := by
  have h := Nat.mul_le_mul ha hb
  have hlt : Word.maxVal 64 * Word.maxVal 64 < 2 ^ 128 := by decide
  unfold mulWide
  rw [if_pos (by omega)]

omit [Bitcoin] in
theorem divWide_ne_panic {a b : ℕ} (h : b ≠ 0) : divWide a b ≠ .panic := by
  unfold divWide
  rw [if_neg h]
  simp

omit [Bitcoin] in
/-- A transition panics exactly at a swap whose products do not fit, in a build
that checks for it: the add and the remove have no product that overflows and
no divisor that is zero. -/
theorem checkTransition_panic {checks : Bool} {before : Pool} {sats assets shares : ℕ}
    (hb : before.Ok) (hx : sats ≤ Word.maxVal 64) (hy : assets ≤ Word.maxVal 64) :
    checkTransition checks before sats assets shares = .panic ↔
      checks = true ∧ shares = before.shares ∧ swapOverflows before sats assets := by
  obtain ⟨⟨hx1, hx2⟩, ⟨hy1, hy2⟩, hs⟩ := hb
  simp only [checkTransition]
  by_cases h1 : shares = before.shares
  · rw [if_pos h1, Res.bind_eq_panic, mulWide_eq_panic]
    constructor
    · rintro (⟨hc, ho⟩ | ⟨left, -, h⟩)
      · exact ⟨hc, h1, .inl ho⟩
      · rcases Res.bind_eq_panic.mp h with h | ⟨_, -, h⟩
        · obtain ⟨hc, ho⟩ := mulWide_eq_panic.mp h
          exact ⟨hc, h1, .inr ho⟩
        · exact absurd h (Res.refuseIf_ne_panic _ _)
    · rintro ⟨hc, -, ho⟩
      by_cases hleft : 2 ^ 128 ≤ (1000 * sats - 3 * (sats - before.sats)) *
          (1000 * assets - 3 * (assets - before.assets))
      · exact .inl ⟨hc, hleft⟩
      · right
        refine ⟨_, by unfold mulWide; rw [if_pos (by omega)], ?_⟩
        exact Res.bind_eq_panic.mpr (.inl (mulWide_eq_panic.mpr ⟨hc, ho.resolve_left hleft⟩))
  · rw [if_neg h1]
    simp only [h1, false_and, and_false, iff_false]
    by_cases h2 : before.shares < shares
    · rw [if_pos h2, mulWide_ok checks (by omega) hs, mulWide_ok checks (by omega) hs]
      intro h
      rcases Res.bind_eq_panic.mp h with h | ⟨_, -, h⟩
      · exact Res.refuseIf_ne_panic _ _ h
      rw [Res.ok_bind] at h
      rcases Res.bind_eq_panic.mp h with h | ⟨_, -, h⟩
      · exact divWide_ne_panic (by omega) h
      rw [Res.ok_bind] at h
      rcases Res.bind_eq_panic.mp h with h | ⟨_, -, h⟩
      · exact divWide_ne_panic (by omega) h
      · exact Res.refuseIf_ne_panic _ _ h
    · rw [if_neg h2, mulWide_ok checks hx2 (by omega), mulWide_ok checks hy2 (by omega)]
      intro h
      rcases Res.bind_eq_panic.mp h with h | ⟨_, -, h⟩
      · exact Res.refuseIf_ne_panic _ _ h
      rw [Res.ok_bind] at h
      rcases Res.bind_eq_panic.mp h with h | ⟨_, -, h⟩
      · exact divWide_ne_panic (by omega) h
      rcases Res.bind_eq_panic.mp h with h | ⟨_, -, h⟩
      · exact Res.refuseIf_ne_panic _ _ h
      rw [Res.ok_bind] at h
      rcases Res.bind_eq_panic.mp h with h | ⟨_, -, h⟩
      · exact divWide_ne_panic (by omega) h
      · exact Res.refuseIf_ne_panic _ _ h

/-! ### What a transaction can do to the pools -/

/-- The three things a transaction can do to the pools. -/
def PoolAction.Spec (v : PoolView) (tx : Transaction) (trace : AssetTrace) : PoolAction → Prop
  | .nothing => v.spent tx = [] ∧ (classify tx).pools = []
  | .opens pool => v.spent tx = [] ∧ (classify tx).opensPool = true ∧
      (∀ p ∈ (classify tx).pools, p.2.pool = .selfTx) ∧ pool.id = Bitcoin.computeTxid tx ∧ carryOut trace pool.id = pool.shares
  | .recreates before after => v.spent tx = [after.id] ∧
      (∀ p ∈ (classify tx).pools, p.2.pool = .id after.id) ∧
      v.pools.lookup after.id = some before ∧ carryIn trace after.id ≤ before.shares ∧
      after.shares = before.shares - carryIn trace after.id + carryOut trace after.id

omit [Bitcoin] in
theorem poolCoin_bounds {tx : Transaction} {vout n : ℕ} (h : poolCoin tx vout = some n) :
    1 ≤ n ∧ n ≤ Word.maxVal 64 := by
  obtain ⟨o, -, h⟩ := Option.bind_eq_some_iff.mp h
  split_ifs at h with hc
  rw [Option.some.injEq] at h
  subst h
  exact ⟨hc.2, o.sats_le⟩

omit [Bitcoin] in
theorem maxAmount_le : maxAmount ≤ Word.maxVal 64 := by decide

theorem openPool_ok {tx : Transaction} {trace : AssetTrace} {height : ℕ} {record : PoolRecord}
    {pool : Pool} (h : openPool tx trace height record = .ok pool) :
    pool.id = Bitcoin.computeTxid tx ∧ carryOut trace pool.id = pool.shares ∧
      (AmountsOk trace.outputs → pool.Ok) := by
  simp only [openPool] at h
  obtain ⟨sats, hsats, h⟩ := Res.bind_eq_ok.mp h
  cases hc : trace.outputs.lookup record.vout with
  | none => simp [hc] at h
  | some c =>
    simp only [hc, Option.getD_some] at h
    match c, h with
    | [], h => simp at h
    | _ :: _ :: _, h => simp at h
    | [(asset, assets)], h =>
      obtain ⟨_, -, h⟩ := Res.bind_eq_ok.mp h
      obtain ⟨_, hfit, h⟩ := Res.bind_eq_ok.mp h
      obtain ⟨_, hshares, h⟩ := Res.bind_eq_ok.mp h
      rw [Res.refuseIf_eq_ok] at hfit hshares
      simp only [Res.ok.injEq] at h
      subst h
      refine ⟨rfl, by simpa using hshares, fun ham => ?_⟩
      have hb := ham _ _ hc _ (List.mem_singleton_self _)
      exact ⟨poolCoin_bounds (Res.okOr_eq_ok.mp hsats), ⟨hb.1, hb.2.trans maxAmount_le⟩,
        by simpa using hfit⟩

theorem recreated_ok {v : PoolView} {tx : Transaction} {trace : AssetTrace} {id : Txid}
    {records : List (ℕ × PoolRecord)} {before after : Pool}
    (h : v.recreated tx trace id records = .ok (before, after)) :
    after.id = id ∧ (∃ p, records.head? = some p ∧ p.2.pool = .id id) ∧
      v.pools.lookup id = some before ∧ carryIn trace id ≤ before.shares ∧
      after.shares = before.shares - carryIn trace id + carryOut trace id ∧
      (AmountsOk trace.outputs → after.Ok) := by
  simp only [PoolView.recreated] at h
  obtain ⟨before', hbefore, h⟩ := Res.bind_eq_ok.mp h
  obtain ⟨⟨i, record⟩, hhead, h⟩ := Res.bind_eq_ok.mp h
  obtain ⟨_, hnames, h⟩ := Res.bind_eq_ok.mp h
  obtain ⟨sats, hsats, h⟩ := Res.bind_eq_ok.mp h
  obtain ⟨_, hcarried, h⟩ := Res.bind_eq_ok.mp h
  obtain ⟨_, hzero, h⟩ := Res.bind_eq_ok.mp h
  obtain ⟨shares, hshares, h⟩ := Res.bind_eq_ok.mp h
  simp only [Res.ok.injEq, Prod.mk.injEq] at h
  obtain ⟨rfl, rfl⟩ := h
  obtain ⟨n, hn, hshares⟩ := Option.bind_eq_some_iff.mp (Res.okOr_eq_ok.mp hshares)
  obtain ⟨hle, rfl⟩ := Word.checkedSub_eq_some.mp hn
  obtain ⟨rfl, hfit⟩ := Word.checkedAdd_eq_some.mp hshares
  rw [Res.refuseIf_eq_ok, bne_eq_false_iff_eq] at hnames
  refine ⟨rfl, ⟨(i, record), Res.okOr_eq_ok.mp hhead, hnames⟩, Res.okOr_eq_ok.mp hbefore, hle, rfl,
    fun ham => ?_⟩
  refine ⟨poolCoin_bounds (Res.okOr_eq_ok.mp hsats), ?_, hfit⟩
  rw [Res.refuseIf_eq_ok] at hcarried hzero
  simp only [Bool.or_eq_false_iff, Option.isNone_eq_false_iff] at hcarried
  obtain ⟨n, hn⟩ := Option.isSome_iff_exists.mp hcarried.2
  simp only [Carry.amount, hn, Option.getD_some]
  -- the carry that holds the asset is one of the trace's
  cases hc : trace.outputs.lookup record.vout with
  | none => simp [hc] at hn
  | some c =>
    rw [hc, Option.getD_some] at hn
    have hb := ham _ _ hc _ (mem_of_lookup hn)
    exact ⟨hb.1, hb.2.trans maxAmount_le⟩

theorem PoolView.action_ok {v : PoolView} {tx : Transaction} {trace : AssetTrace} {height : ℕ}
    {act : PoolAction} (h : v.action tx trace height = .ok act) : act.Spec v tx trace := by
  simp only [PoolView.action] at h
  obtain ⟨_, hone, h⟩ := Res.bind_eq_ok.mp h
  obtain ⟨_, hrec, h⟩ := Res.bind_eq_ok.mp h
  rw [Res.refuseIf_eq_ok, decide_eq_false_iff_not] at hone hrec
  -- the one record says what the transaction is
  have hall : ∀ {p : ℕ × PoolRecord}, p ∈ (classify tx).pools → ∀ q ∈ (classify tx).pools, q = p := by
    intro p hp q hq
    match hl : (classify tx).pools with
    | [] => simp [hl] at hp
    | [r] =>
      rw [hl, List.mem_singleton] at hp hq
      rw [hp, hq]
    | _ :: _ :: _ =>
      rw [hl, List.length_cons, List.length_cons] at hrec
      omega
  split_ifs at h with hnone
  · simp only [Res.ok.injEq] at h
    subst h
    simp only [Bool.and_eq_true, List.isEmpty_iff] at hnone
    exact hnone
  · cases hop : ((classify tx).pools.filter fun p => p.2.pool == .selfTx).head? with
    | some r =>
      simp only [hop] at h
      obtain ⟨_, hspent, h⟩ := Res.bind_eq_ok.mp h
      obtain ⟨pool, hpool, h⟩ := Res.bind_eq_ok.mp h
      simp only [Res.ok.injEq] at h
      subst h
      obtain ⟨hid, hcarry, -⟩ := openPool_ok hpool
      obtain ⟨hmem, hself⟩ := List.mem_filter.mp (List.mem_of_mem_head? (Option.mem_def.mpr hop))
      have hopens : (classify tx).opensPool = true := List.any_eq_true.mpr ⟨r, hmem, hself⟩
      rw [beq_iff_eq] at hself
      refine ⟨?_, hopens, fun p hp => hall hmem p hp ▸ hself, hid, hcarry⟩
      simpa [Res.refuseIf_eq_ok] using hspent
    | none =>
      simp only [hop] at h
      cases hsp : v.spent tx with
      | nil => simp [hsp] at h
      | cons id ids =>
        simp only [hsp] at h
        obtain ⟨⟨before, after⟩, hre, h⟩ := Res.bind_eq_ok.mp h
        simp only [Res.ok.injEq] at h
        subst h
        obtain ⟨rfl, ⟨r, hhead, hnames⟩, hlook, hle, hshares, -⟩ := recreated_ok hre
        have hids : ids = [] := by
          rw [hsp, List.length_cons] at hone
          exact List.length_eq_zero_iff.mp (by omega)
        have hmem := (List.mem_filter.mp (List.mem_of_mem_head? (Option.mem_def.mpr hhead))).1
        exact ⟨by rw [hsp, hids], fun p hp => hall hmem p hp ▸ hnames, hlook, hle, hshares⟩

/-- The pools a transaction makes are in order. -/
def PoolAction.Ok : PoolAction → Prop
  | .nothing => True
  | .opens pool => pool.Ok
  | .recreates _ after => after.Ok

theorem PoolView.action_pools {v : PoolView} {tx : Transaction} {trace : AssetTrace} {height : ℕ}
    {act : PoolAction} (h : v.action tx trace height = .ok act) (ham : AmountsOk trace.outputs) :
    act.Ok := by
  simp only [PoolView.action] at h
  obtain ⟨_, -, h⟩ := Res.bind_eq_ok.mp h
  obtain ⟨_, -, h⟩ := Res.bind_eq_ok.mp h
  split_ifs at h
  · simp only [Res.ok.injEq] at h
    exact h ▸ trivial
  · split at h
    · obtain ⟨_, -, h⟩ := Res.bind_eq_ok.mp h
      obtain ⟨pool, hpool, h⟩ := Res.bind_eq_ok.mp h
      simp only [Res.ok.injEq] at h
      exact h ▸ (openPool_ok hpool).2.2 ham
    · split at h
      · simp at h
      · obtain ⟨⟨before, after⟩, hre, h⟩ := Res.bind_eq_ok.mp h
        simp only [Res.ok.injEq] at h
        exact h ▸ (recreated_ok hre).2.2.2.2.2 ham

theorem openPool_ne_panic (tx : Transaction) (trace : AssetTrace) (height : ℕ)
    (record : PoolRecord) : openPool tx trace height record ≠ .panic := by
  simp only [openPool]
  refine Res.bind_ne_panic (Res.okOr_ne_panic _ _) fun sats _ => ?_
  split
  · refine Res.bind_ne_panic (Res.refuseIf_ne_panic _ _) fun _ _ => ?_
    refine Res.bind_ne_panic (Res.refuseIf_ne_panic _ _) fun _ _ => ?_
    refine Res.bind_ne_panic (Res.refuseIf_ne_panic _ _) fun _ _ => ?_
    simp
  · simp

theorem recreated_ne_panic (v : PoolView) (tx : Transaction) (trace : AssetTrace) (id : Txid)
    (records : List (ℕ × PoolRecord)) : v.recreated tx trace id records ≠ .panic := by
  simp only [PoolView.recreated]
  refine Res.bind_ne_panic (Res.okOr_ne_panic _ _) fun _ _ => ?_
  refine Res.bind_ne_panic (Res.okOr_ne_panic _ _) fun _ _ => ?_
  refine Res.bind_ne_panic (Res.refuseIf_ne_panic _ _) fun _ _ => ?_
  refine Res.bind_ne_panic (Res.okOr_ne_panic _ _) fun _ _ => ?_
  refine Res.bind_ne_panic (Res.refuseIf_ne_panic _ _) fun _ _ => ?_
  refine Res.bind_ne_panic (Res.refuseIf_ne_panic _ _) fun _ _ => ?_
  refine Res.bind_ne_panic (Res.okOr_ne_panic _ _) fun _ _ => ?_
  simp

theorem PoolView.action_ne_panic (v : PoolView) (tx : Transaction) (trace : AssetTrace)
    (height : ℕ) : v.action tx trace height ≠ .panic := by
  simp only [PoolView.action]
  refine Res.bind_ne_panic (Res.refuseIf_ne_panic _ _) fun _ _ => ?_
  refine Res.bind_ne_panic (Res.refuseIf_ne_panic _ _) fun _ _ => ?_
  split_ifs
  · simp
  · split
    · refine Res.bind_ne_panic (Res.refuseIf_ne_panic _ _) fun _ _ => ?_
      exact Res.bind_ne_panic (openPool_ne_panic _ _ _ _) fun _ _ => by simp
    · split
      · simp
      · exact Res.bind_ne_panic (recreated_ne_panic _ _ _ _ _) fun _ _ => by simp

/-- The pool a transaction leaves. -/
def PoolAction.result : PoolAction → Option Pool
  | .nothing => none
  | .opens pool => some pool
  | .recreates _ after => some after

/-- **The pool check.** A transaction that passes does one of the three things. -/
theorem PoolView.check_ok {checks : Bool} {v : PoolView} {tx : Transaction} {trace : AssetTrace}
    {height : ℕ} {effect : Option Pool} (h : v.check checks tx trace height false = .ok effect) :
    ∃ act, v.action tx trace height = .ok act ∧ act.Spec v tx trace ∧ effect = act.result := by
  simp only [PoolView.check, Bool.false_eq_true, ↓reduceIte] at h
  obtain ⟨act, hact, h⟩ := Res.bind_eq_ok.mp h
  refine ⟨act, hact, v.action_ok hact, ?_⟩
  cases act with
  | nothing => simpa [PoolAction.result] using h.symm
  | opens pool => simpa [PoolAction.result] using h.symm
  | recreates before after =>
    obtain ⟨_, -, h⟩ := Res.bind_eq_ok.mp h
    simpa [PoolAction.result] using h.symm

theorem PoolView.check_coinbase {checks : Bool} {v : PoolView} {tx : Transaction}
    {trace : AssetTrace} {height : ℕ} {effect : Option Pool}
    (h : v.check checks tx trace height true = .ok effect) : effect = none := by
  simp only [PoolView.check, ↓reduceIte] at h
  split_ifs at h
  simpa using h.symm

/-- A transaction recreates a pool as a swap whose products do not fit. -/
def PoolView.Overflows (v : PoolView) (tx : Transaction) (trace : AssetTrace) (height : ℕ) : Prop :=
  ∃ before after, v.action tx trace height = .ok (.recreates before after) ∧
    after.shares = before.shares ∧ swapOverflows before after.sats after.assets

/-- **The pool check's panics.** On pools in order and amounts of a tally, the
check panics at a swap that overflows and nowhere else. -/
theorem PoolView.check_eq_panic {v : PoolView} {trace : AssetTrace} (checks : Bool)
    (tx : Transaction) (height : ℕ) (coinbase : Bool) (hv : v.Ok)
    (ham : AmountsOk trace.outputs) :
    v.check checks tx trace height coinbase = .panic ↔
      checks = true ∧ coinbase = false ∧ v.Overflows tx trace height := by
  cases coinbase with
  | true =>
    simp only [PoolView.check, ↓reduceIte, Bool.true_eq_false, false_and, and_false, iff_false]
    split_ifs <;> simp
  | false =>
    simp only [PoolView.check, Bool.false_eq_true, ↓reduceIte, true_and]
    rw [Res.bind_eq_panic]
    constructor
    · rintro (h | ⟨act, hact, h⟩)
      · exact absurd h (v.action_ne_panic tx trace height)
      · cases act with
        | nothing => simp at h
        | opens pool => simp at h
        | recreates before after =>
          obtain ⟨-, -, hlook, -⟩ := v.action_ok hact
          have hafter := v.action_pools hact ham
          rcases Res.bind_eq_panic.mp h with h | ⟨_, -, h⟩
          · obtain ⟨hc, hs, ho⟩ := (checkTransition_panic (hv _ _ hlook).2
              hafter.sats.2 hafter.assets.2).mp h
            exact ⟨hc, before, after, hact, hs, ho⟩
          · simp at h
    · rintro ⟨hc, before, after, hact, hs, ho⟩
      obtain ⟨-, -, hlook, -⟩ := v.action_ok hact
      have hafter := v.action_pools hact ham
      refine .inr ⟨_, hact, Res.bind_eq_panic.mpr (.inl ?_)⟩
      exact (checkTransition_panic (hv _ _ hlook).2 hafter.sats.2 hafter.assets.2).mpr ⟨hc, hs, ho⟩

omit [Bitcoin] in
theorem PoolView.Ok.apply {v : PoolView} (hv : v.Ok) {pool : Pool} (hp : pool.Ok) :
    (v.apply pool).Ok := by
  intro id p h
  simp only [PoolView.apply] at h
  by_cases hid : id = pool.id
  · subst hid
    rw [Finmap.lookup_insert, Option.some.injEq] at h
    exact ⟨h ▸ rfl, h ▸ hp⟩
  · rw [Finmap.lookup_insert_of_ne _ hid] at h
    exact hv id p h

/-- One transaction keeps the pools in order. -/
theorem poolTx_ok {checks : Bool} {height : ℕ} {v v' : PoolView}
    {p : (Transaction × AssetTrace) × ℕ} (hv : v.Ok) (ham : AmountsOk p.1.2.outputs)
    (h : poolTx checks height v p = .ok v') : v'.Ok := by
  simp only [poolTx] at h
  obtain ⟨effect, he, h⟩ := Res.bind_eq_ok.mp h
  cases hcb : p.2 == 0 with
  | true =>
    rw [hcb] at he
    rw [PoolView.check_coinbase he] at h
    simp only [Res.ok.injEq] at h
    exact h ▸ hv
  | false =>
    rw [hcb] at he
    obtain ⟨act, hact, -, rfl⟩ := PoolView.check_ok he
    have hok := v.action_pools hact ham
    cases act with
    | nothing =>
      simp only [PoolAction.result, Res.ok.injEq] at h
      exact h ▸ hv
    | opens pool =>
      simp only [PoolAction.result, Res.ok.injEq] at h
      exact h ▸ hv.apply hok
    | recreates before after =>
      simp only [PoolAction.result, Res.ok.injEq] at h
      exact h ▸ hv.apply hok

/-- A candidate keeps the pools in order. -/
theorem poolCandidate_ok {checks : Bool} {view next : PoolView} {txdata : List Transaction}
    {traces : List AssetTrace} {height : ℕ} (hv : view.Ok)
    (ham : ∀ t ∈ traces, AmountsOk t.outputs)
    (h : poolCandidate checks view txdata traces height = .ok next) : next.Ok := by
  apply Res.foldlM_ok_ind h hv
  intro v p v' hp hv hstep
  have hmem : (p.1.1, p.1.2) ∈ txdata.zip traces := List.fst_mem_of_mem_zipIdx hp
  exact poolTx_ok hv (ham _ (List.of_mem_zip hmem).2) hstep

end

end Sidestr
