/-
# The markets rule

A binary market is one `OP_TRUE` coin that holds all its collateral
(`markets.rs`). A split adds sats and mints as many of the YES asset, whose id
is the market's, and of the NO asset (`noIdOf`); a merge burns pairs and takes
sats out; the resolver's answer makes one of them redeemable at par; after
expiry and grace an unanswered market refunds both at half par.

`MarketMove` is what a transaction that spends a market's coin does to it:
one constructor for each action, with what the inputs and outputs carry.

Key definitions: `Market`, `MarketView`, `MarketView.check`, `MarketMove`,
`MarketHeld`.
Key theorems: `MarketView.check_ok`, `MarketView.check_ne_panic`.
-/
import Sidestr.Core.Pool
import Sidestr.Core.Rules

namespace Sidestr

/-- A market's settlement phase. -/
inductive MarketStatus where
  | open
  | resolved
  | refunding
  deriving DecidableEq, Repr

/-- One market's state. -/
structure Market where
  /-- The opening transaction's id, and the id of the YES asset. -/
  id : Txid
  coin : OutPoint
  /-- Sats held by the coin. -/
  collateral : ℕ
  /-- The resolver's x-only key, lower-case hex. -/
  resolver : Bytes
  expiry : ℕ
  grace : ℕ
  question : Bytes
  status : MarketStatus
  winner : Option MarketOutcome
  /-- The height at which it opened. -/
  opened : ℕ
  deriving DecidableEq, Repr

/-- The markets, by id and by coin. -/
structure MarketView where
  markets : Map Txid Market := ∅
  byOutpoint : Map OutPoint Txid := ∅

namespace MarketView

def contains (v : MarketView) (id : Txid) : Bool := (v.markets.lookup id).isSome

/-- A market opened or moved: its old coin is no longer a market's. -/
def apply (v : MarketView) (market : Market) : MarketView :=
  let coins := match v.markets.lookup market.id with
    | some before => v.byOutpoint.erase before.coin
    | none => v.byOutpoint
  ⟨v.markets.insert market.id market, coins.insert market.coin market.id⟩

/-- The markets whose coins a transaction spends. -/
def spent (v : MarketView) (tx : Transaction) : List Txid :=
  tx.input.filterMap fun i => v.byOutpoint.lookup i.previousOutput

end MarketView

/-- The value of a market coin: an `OP_TRUE` output with one, that carries nothing. -/
def marketCoin (tx : Transaction) (trace : AssetTrace) (vout : ℕ) : Option ℕ :=
  tx.output[vout]?.bind fun o =>
    if o.scriptPubkey = poolScript ∧ 1 ≤ o.sats ∧ (trace.outputs.lookup vout).isNone then
      some o.sats else none

/-- The output a record names for the market's coin; an opening and an answer
were dealt with before. -/
def MarketRecord.coinVout : MarketRecord → Res String ℕ
  | .split _ v => .ok v
  | .merge _ v => .ok v
  | .redeem _ v => .ok v
  | _ => .panic

/-- The `OP_TRUE` outputs of a transaction, each with its value. -/
def trueOutputs (tx : Transaction) : List (ℕ × ℕ) :=
  (tx.output.zipIdx.filter fun p => p.1.scriptPubkey == poolScript).map fun p => (p.2, p.1.sats)

section

variable [Bitcoin]

/-- The NO asset of a market: the digest of `no:<market>`. -/
def noIdOf (market : Txid) : Txid := Bitcoin.sha256 (ascii ['n', 'o', ':'] ++ hashText market)

/-- The asset of a market's outcome. -/
def outcomeAsset (market : Txid) : MarketOutcome → Txid
  | .yes => market
  | .no => noIdOf market

/-! ### The check -/

/-- A transaction that opens a market: the market it makes. -/
def openMarket (tx : Transaction) (trace : AssetTrace) (height vout : ℕ) (resolver : Bytes)
    (expiry grace : ℕ) : Res String Market := do
  let cls := classify tx
  let txid := Bitcoin.computeTxid tx
  let collateral ← Res.okOr "the market coin is an OP_TRUE output with value and no asset"
    (marketCoin tx trace vout)
  match cls.questions with
  | [(_, question)] =>
    Res.refuseIf (expiry ≤ height) "expiry is a future height"
    Res.refuseIf (grace < 1) "grace is at least one block"
    Res.refuseIf (!cls.issues.isEmpty || cls.opensPool)
      "a transaction that opens a market issues nothing and opens no pool"
    .ok ⟨txid, outPointAt txid vout, collateral, resolver, expiry, grace, question, .open, none,
      height⟩
  | _ => .err "a market has exactly one question:"

/-- The resolver answers: one of the inputs spends a coin of theirs, and the
market's coin is recreated as it was. -/
def resolveMarket (before : Market) (tx : Transaction) (trace : AssetTrace) (height : ℕ)
    (scripts : List (ℕ × Bytes)) (outcome : MarketOutcome) : Res String Market := do
  Res.refuseIf (before.status != .open) "resolve: the market is not open"
  Res.refuseIf (Word.satAdd 32 before.expiry before.grace < height)
    "resolve: the grace period has passed"
  let resolver ← Res.expect (hexDecode before.resolver)
  let resolverScript := 0x51 :: 0x20 :: resolver
  Res.refuseIf (!scripts.any fun p => p.2 == resolverScript)
    "resolve: no input spends a coin of the resolver"
  match trueOutputs tx with
  | [(vout, sats)] =>
    Res.refuseIf (sats != before.collateral || (trace.outputs.lookup vout).isSome)
      "resolve: recreates the market coin unchanged"
    .ok { before with coin := outPointAt (Bitcoin.computeTxid tx) vout, status := .resolved
                      winner := some outcome }
  | _ => .err "resolve: recreates the market coin unchanged"

/-- A difference that is positive. -/
def positiveDiff (a b : ℕ) : Option ℕ := (Word.checkedSub a b).filter fun n => 0 < n

/-- A split, a merge or a redeem: the collateral moves, and the outcome assets
the transaction makes or destroys account for it. -/
def moveCollateral (id : Txid) (before : Market) (tx : Transaction) (trace : AssetTrace)
    (height : ℕ) (record : MarketRecord) : Res String Market := do
  let vout ← record.coinVout
  let collateral ← Res.okOr "the market coin is an OP_TRUE output with value and no asset"
    (marketCoin tx trace vout)
  let yesIn := carryIn trace id
  let noIn := carryIn trace (noIdOf id)
  let yesOut := carryOut trace id
  let noOut := carryOut trace (noIdOf id)
  let effect := { before with coin := outPointAt (Bitcoin.computeTxid tx) vout, collateral }
  match record with
  | .split _ _ => do
    let amount ← Res.okOr "split: the collateral grows" (positiveDiff collateral before.collateral)
    Res.refuseIf (Word.checkedSub yesOut yesIn != some amount ||
      Word.checkedSub noOut noIn != some amount) "split: tallies exactly the pairs"
    .ok effect
  | .merge _ _ => do
    let amount ← Res.okOr "merge: the collateral shrinks" (positiveDiff before.collateral collateral)
    Res.refuseIf (yesIn < amount || noIn < amount) "merge: carries in at least the pairs"
    Res.refuseIf (yesIn - amount < yesOut || noIn - amount < noOut) "merge: destroys the pairs"
    .ok effect
  | .redeem _ _ => do
    let amount ← Res.okOr "redeem: the collateral shrinks" (positiveDiff before.collateral collateral)
    if before.status = .resolved then
      let (winnerIn, winnerOut) ← Res.okOr "resolved market has no winner"
        (before.winner.map fun w => match w with
          | .yes => (yesIn, yesOut)
          | .no => (noIn, noOut))
      Res.refuseIf (winnerIn < amount || winnerIn - amount < winnerOut)
        "redeem: carries in the winner and destroys it"
      .ok effect
    else
      Res.refuseIf (height ≤ Word.satAdd 32 before.expiry before.grace)
        "redeem: the market is open until expiry plus grace"
      let enough := match Word.checkedSub yesIn yesOut, Word.checkedSub noIn noOut with
        | some yes, some no => decide (2 * amount ≤ yes + no)
        | _, _ => false
      Res.refuseIf (!enough) "refund: destroys YES and NO at half a sat each"
      .ok { effect with status := .refunding }
  | _ => .panic

/-- The market a transaction opens or moves, if it does. -/
def MarketView.check (v : MarketView) (tx : Transaction) (trace : AssetTrace) (height : ℕ)
    (coinbase : Bool) (scripts : List (ℕ × Bytes)) : Res String (Option Market) :=
  let cls := classify tx
  if coinbase then
    if cls.markets.isEmpty && cls.questions.isEmpty then .ok none
    else .err "the coinbase carries no records"
  else do
    let spent := v.spent tx
    Res.refuseIf (1 < spent.length) "a transaction spends at most one market coin"
    Res.refuseIf (1 < cls.markets.length) "a transaction carries at most one market record"
    if spent.isEmpty && cls.markets.isEmpty then
      if cls.questions.isEmpty then .ok none
      else .err "question: belongs to the transaction that opens a market"
    else do
      let (_, record) ← Res.okOr "a spent market coin is recreated with a market record"
        cls.markets.head?
      match record with
      | .open vout resolver expiry grace => do
        Res.refuseIf (!spent.isEmpty) "a transaction opens a market or spends one, not both"
        let market ← openMarket tx trace height vout resolver expiry grace
        .ok (some market)
      | _ => do
        let id ← Res.okOr "names a market this transaction does not spend" spent.head?
        Res.refuseIf (record.market != some id) "names a market other than the coin spent"
        Res.refuseIf (!cls.questions.isEmpty)
          "question: belongs to the transaction that opens a market"
        let before ← Res.okOr "the spent market is not known" (v.markets.lookup id)
        match record with
        | .resolve _ outcome => do
          let after ← resolveMarket before tx trace height scripts outcome
          .ok (some after)
        | _ => do
          let after ← moveCollateral id before tx trace height record
          .ok (some after)

/-! ### The rule -/

/-- The scripts of the coins transaction `index` spends, by input. -/
def scriptsAt (spending : Spending) (index : ℕ) : List (ℕ × Bytes) :=
  (resolvedOf spending.resolved index).map fun p => (p.1, p.2.scriptPubkey)

/-- One transaction of a candidate block with its trace; a market that was not
there before is listed as opened. -/
def marketTx (spending : Spending) (height : ℕ) (st : MarketView × List Txid)
    (p : (Transaction × AssetTrace) × ℕ) : Res String (MarketView × List Txid) := do
  let effect ← st.1.check p.1.1 p.1.2 height (p.2 == 0) (scriptsAt spending p.2)
  match effect with
  | some market =>
    .ok (st.1.apply market, if st.1.contains market.id then st.2 else st.2 ++ [market.id])
  | none => .ok st

/-- The markets a candidate block leaves, and those it opens. -/
def marketCandidate (view : MarketView) (txdata : List Transaction) (traces : List AssetTrace)
    (spending : Spending) (height : ℕ) : Res String (MarketView × List Txid) :=
  Res.foldlM (marketTx spending height) (view, []) (txdata.zip traces).zipIdx

/-- The rule's state. -/
structure MarketHeld where
  view : MarketView := {}
  pending : List (BlockHash × MarketView × List Txid) := []

/-- Judge a candidate on the assets rule's traces of it. -/
def MarketHeld.check (held : MarketHeld) (traces : Option (List AssetTrace)) (hash : BlockHash)
    (txdata : List Transaction) (spending : Spending) (height : ℕ) :
    Res Error (Option Bool × MarketHeld) :=
  match traces with
  | none => .ok (some false, held)
  | some traces =>
    if traces.length ≠ txdata.length then .ok (some false, held)
    else
      match marketCandidate held.view txdata traces spending height with
      | .ok (next, opened) => .ok (some true, { held with
          pending := held.pending.filter (fun p => p.1 != hash) ++ [(hash, next, opened)] })
      | .err _ => .ok (some false, held)
      | .panic => .panic

/-- The block was applied: its view is the view; returns the markets it opened. -/
def MarketHeld.applied (held : MarketHeld) (hash : BlockHash) : MarketHeld × List Txid :=
  match held.pending.find? fun p => p.1 == hash with
  | some (_, view, opened) => (⟨view, []⟩, opened)
  | none => (⟨held.view, []⟩, [])

/-! ### What a transaction can do to the markets -/

/-- The market a record splits. -/
def MarketRecord.splits : MarketRecord → Option Txid
  | .split m _ => some m
  | _ => none

/-- What a transaction that spends the coin of market `id` does to it. -/
inductive MarketMove (tx : Transaction) (trace : AssetTrace) (id : Txid) (before after : Market) :
    Prop
  | resolve (w : MarketOutcome) (records : ∀ p ∈ (classify tx).markets, p.2.splits = none)
      (status : before.status = .open)
      (status' : after.status = .resolved) (winner' : after.winner = some w)
      (collateral : after.collateral = before.collateral)
  | split (amount : ℕ) (status' : after.status = before.status)
      (winner' : after.winner = before.winner)
      (collateral : after.collateral = before.collateral + amount)
      (yes : carryOut trace id = carryIn trace id + amount)
      (no : carryOut trace (noIdOf id) = carryIn trace (noIdOf id) + amount)
  | merge (amount : ℕ) (status' : after.status = before.status)
      (winner' : after.winner = before.winner)
      (collateral : before.collateral = after.collateral + amount)
      (yes : carryOut trace id + amount ≤ carryIn trace id)
      (no : carryOut trace (noIdOf id) + amount ≤ carryIn trace (noIdOf id))
  | redeem (amount : ℕ) (w : MarketOutcome) (status : before.status = .resolved)
      (winner : before.winner = some w) (status' : after.status = .resolved)
      (winner' : after.winner = some w)
      (collateral : before.collateral = after.collateral + amount)
      (out : carryOut trace (outcomeAsset id w) + amount ≤ carryIn trace (outcomeAsset id w))
  | refund (amount : ℕ) (status : before.status ≠ .resolved) (status' : after.status = .refunding)
      (collateral : before.collateral = after.collateral + amount)
      (yes : carryOut trace id ≤ carryIn trace id)
      (no : carryOut trace (noIdOf id) ≤ carryIn trace (noIdOf id))
      (sum : 2 * amount + carryOut trace id + carryOut trace (noIdOf id) ≤
        carryIn trace id + carryIn trace (noIdOf id))

/-- What a transaction does to the markets, by the market it leaves. -/
inductive MarketEffect (v : MarketView) (tx : Transaction) (trace : AssetTrace) :
    Option Market → Prop
  | nothing (spent : v.spent tx = []) (records : (classify tx).markets = []) :
      MarketEffect v tx trace none
  | opens (market : Market) (spent : v.spent tx = [])
      (records : ∀ p ∈ (classify tx).markets, p.2.market = none)
      (id : market.id = Bitcoin.computeTxid tx) (status : market.status = .open)
      (issues : (classify tx).issues = []) (pools : (classify tx).opensPool = false) :
      MarketEffect v tx trace (some market)
  | moves (before after : Market) (spent : v.spent tx = [after.id])
      (before' : v.markets.lookup after.id = some before)
      (records : ∀ p ∈ (classify tx).markets, p.2.market = some after.id)
      (move : MarketMove tx trace after.id before after) : MarketEffect v tx trace (some after)

/-- A market's resolver decodes, and an answered market has a winner; its
collateral is the value of some output. -/
structure Market.Ok (m : Market) : Prop where
  resolver : (hexDecode m.resolver).isSome = true
  winner : m.status = .resolved → m.winner.isSome = true

/-- Every market of a view is in order, under its own id. -/
def MarketView.Ok (v : MarketView) : Prop :=
  ∀ id m, v.markets.lookup id = some m → m.id = id ∧ m.Ok

omit [Bitcoin] in
theorem positiveDiff_eq_some {a b n : ℕ} (h : positiveDiff a b = some n) : a = b + n := by
  obtain ⟨h1, -⟩ := Option.filter_eq_some_iff.mp h
  obtain ⟨hle, rfl⟩ := Word.checkedSub_eq_some.mp h1
  omega

omit [Bitcoin] in
theorem marketCoin_mem {tx : Transaction} {trace : AssetTrace} {vout n : ℕ}
    (h : marketCoin tx trace vout = some n) : ∃ o ∈ tx.output, o.sats = n := by
  obtain ⟨o, ho, h⟩ := Option.bind_eq_some_iff.mp h
  split_ifs at h
  rw [Option.some.injEq] at h
  exact ⟨o, List.mem_of_getElem? ho, h⟩

omit [Bitcoin] in
theorem trueOutputs_mem {tx : Transaction} {p : ℕ × ℕ} (h : p ∈ trueOutputs tx) :
    ∃ o ∈ tx.output, o.sats = p.2 := by
  simp only [trueOutputs, List.mem_map] at h
  obtain ⟨q, hq, rfl⟩ := h
  exact ⟨q.1, List.fst_mem_of_mem_zipIdx (List.mem_filter.mp hq).1, rfl⟩

theorem openMarket_ok {tx : Transaction} {trace : AssetTrace} {height vout expiry grace : ℕ}
    {resolver : Bytes} {m : Market}
    (h : openMarket tx trace height vout resolver expiry grace = .ok m) :
    m.id = Bitcoin.computeTxid tx ∧ m.status = .open ∧ m.resolver = resolver ∧
      (classify tx).issues = [] ∧ (classify tx).opensPool = false ∧
      ∃ o ∈ tx.output, o.sats = m.collateral := by
  simp only [openMarket] at h
  obtain ⟨collateral, hcol, h⟩ := Res.bind_eq_ok.mp h
  split at h
  · obtain ⟨_, -, h⟩ := Res.bind_eq_ok.mp h
    obtain ⟨_, -, h⟩ := Res.bind_eq_ok.mp h
    obtain ⟨_, hclean, h⟩ := Res.bind_eq_ok.mp h
    simp only [Res.ok.injEq] at h
    subst h
    simp only [Res.refuseIf_eq_ok, Bool.or_eq_false_iff, Bool.not_eq_false',
      List.isEmpty_iff] at hclean
    exact ⟨rfl, rfl, rfl, hclean.1, hclean.2, marketCoin_mem (Res.okOr_eq_ok.mp hcol)⟩
  · simp at h

theorem resolveMarket_ok {before after : Market} {tx : Transaction} {trace : AssetTrace}
    {height : ℕ} {scripts : List (ℕ × Bytes)} {outcome : MarketOutcome}
    (h : resolveMarket before tx trace height scripts outcome = .ok after) :
    before.status = .open ∧ after.status = .resolved ∧ after.winner = some outcome ∧
      after.collateral = before.collateral ∧ after.id = before.id ∧
      after.resolver = before.resolver ∧ ∃ o ∈ tx.output, o.sats = after.collateral := by
  simp only [resolveMarket] at h
  obtain ⟨_, hopen, h⟩ := Res.bind_eq_ok.mp h
  obtain ⟨_, -, h⟩ := Res.bind_eq_ok.mp h
  obtain ⟨resolver, -, h⟩ := Res.bind_eq_ok.mp h
  obtain ⟨_, -, h⟩ := Res.bind_eq_ok.mp h
  split at h
  · rename_i vout sats hout
    obtain ⟨_, hsame, h⟩ := Res.bind_eq_ok.mp h
    simp only [Res.ok.injEq] at h
    subst h
    simp only [Res.refuseIf_eq_ok, Bool.or_eq_false_iff, bne_eq_false_iff_eq] at hopen hsame
    obtain ⟨o, ho, hsats⟩ := trueOutputs_mem (p := (vout, sats)) (by rw [hout]; simp)
    exact ⟨hopen, rfl, rfl, rfl, rfl, rfl, o, ho, hsats.trans hsame.1⟩
  · simp at h

theorem moveCollateral_ok {id : Txid} {before after : Market} {tx : Transaction}
    {trace : AssetTrace} {height : ℕ} {record : MarketRecord}
    (h : moveCollateral id before tx trace height record = .ok after) :
    MarketMove tx trace id before after ∧ after.id = before.id ∧ after.resolver = before.resolver ∧
      (after.status = .resolved → before.status = .resolved ∧ after.winner = before.winner) ∧
      ∃ o ∈ tx.output, o.sats = after.collateral := by
  simp only [moveCollateral] at h
  obtain ⟨vout, -, h⟩ := Res.bind_eq_ok.mp h
  obtain ⟨collateral, hcol, h⟩ := Res.bind_eq_ok.mp h
  have hout := marketCoin_mem (Res.okOr_eq_ok.mp hcol)
  split at h
  · obtain ⟨amount, ham, h⟩ := Res.bind_eq_ok.mp h
    obtain ⟨_, hpairs, h⟩ := Res.bind_eq_ok.mp h
    simp only [Res.ok.injEq] at h
    subst h
    simp only [Res.refuseIf_eq_ok, Bool.or_eq_false_iff, bne_eq_false_iff_eq,
      Word.checkedSub_eq_some] at hpairs
    have hamount := positiveDiff_eq_some (Res.okOr_eq_ok.mp ham)
    exact ⟨.split amount rfl rfl hamount (by omega) (by omega), rfl, rfl, fun h => ⟨h, rfl⟩, hout⟩
  · obtain ⟨amount, ham, h⟩ := Res.bind_eq_ok.mp h
    obtain ⟨_, hin, h⟩ := Res.bind_eq_ok.mp h
    obtain ⟨_, hburn, h⟩ := Res.bind_eq_ok.mp h
    simp only [Res.ok.injEq] at h
    subst h
    simp only [Res.refuseIf_eq_ok, Bool.or_eq_false_iff, decide_eq_false_iff_not,
      Nat.not_lt] at hin hburn
    have hamount := positiveDiff_eq_some (Res.okOr_eq_ok.mp ham)
    exact ⟨.merge amount rfl rfl hamount (by omega) (by omega), rfl, rfl, fun h => ⟨h, rfl⟩, hout⟩
  · obtain ⟨amount, ham, h⟩ := Res.bind_eq_ok.mp h
    have hamount := positiveDiff_eq_some (Res.okOr_eq_ok.mp ham)
    split_ifs at h with hres
    · obtain ⟨⟨winnerIn, winnerOut⟩, hw, h⟩ := Res.bind_eq_ok.mp h
      obtain ⟨_, hburn, h⟩ := Res.bind_eq_ok.mp h
      simp only [Res.ok.injEq] at h
      subst h
      simp only [Res.refuseIf_eq_ok, Bool.or_eq_false_iff, decide_eq_false_iff_not,
        Nat.not_lt] at hburn
      obtain ⟨w, hwin, hpair⟩ := Option.map_eq_some_iff.mp (Res.okOr_eq_ok.mp hw)
      refine ⟨.redeem amount w hres hwin hres hwin hamount ?_, rfl, rfl, fun h => ⟨h, rfl⟩, hout⟩
      cases w with
      | yes =>
        simp only [Prod.mk.injEq] at hpair
        simp only [outcomeAsset]
        omega
      | no =>
        simp only [Prod.mk.injEq] at hpair
        simp only [outcomeAsset]
        omega
    · obtain ⟨_, -, h⟩ := Res.bind_eq_ok.mp h
      obtain ⟨_, henough, h⟩ := Res.bind_eq_ok.mp h
      simp only [Res.ok.injEq] at h
      subst h
      rw [Res.refuseIf_eq_ok, Bool.not_eq_false'] at henough
      split at henough
      · rename_i yes no hy hn
        obtain ⟨hy1, rfl⟩ := Word.checkedSub_eq_some.mp hy
        obtain ⟨hn1, rfl⟩ := Word.checkedSub_eq_some.mp hn
        rw [decide_eq_true_eq] at henough
        exact ⟨.refund amount hres rfl hamount hy1 hn1 (by omega), rfl, rfl, fun h => by simp at h,
          hout⟩
      · simp at henough
  · simp at h

/-- **The market check.** A transaction that passes leaves the markets alone,
opens one, or moves the one whose coin it spends; the market it leaves is in
order, and its collateral is an output of the transaction. -/
theorem MarketView.check_ok {v : MarketView} {tx : Transaction} {trace : AssetTrace} {height : ℕ}
    {scripts : List (ℕ × Bytes)} {effect : Option Market}
    (h : v.check tx trace height false scripts = .ok effect) (hv : v.Ok) :
    MarketEffect v tx trace effect ∧
      ∀ m, effect = some m → m.Ok ∧ ∃ o ∈ tx.output, o.sats = m.collateral := by
  simp only [MarketView.check, Bool.false_eq_true, ↓reduceIte] at h
  obtain ⟨_, hone, h⟩ := Res.bind_eq_ok.mp h
  obtain ⟨_, hrec, h⟩ := Res.bind_eq_ok.mp h
  rw [Res.refuseIf_eq_ok, decide_eq_false_iff_not] at hone hrec
  split_ifs at h with hnone hq
  · simp only [Res.ok.injEq] at h
    subst h
    simp only [Bool.and_eq_true, List.isEmpty_iff] at hnone
    exact ⟨.nothing hnone.1 hnone.2, by simp⟩
  · obtain ⟨⟨i, record⟩, hhead, h⟩ := Res.bind_eq_ok.mp h
    have hmarkets : (classify tx).markets = [(i, record)] := by
      cases hm : (classify tx).markets with
      | nil => simp [hm] at hhead
      | cons p ps =>
        rw [hm, List.length_cons] at hrec
        have hps : ps = [] := List.length_eq_zero_iff.mp (by omega)
        simpa [hm, hps] using hhead
    have hkeyed := (classify_parsed tx).markets (i, record) (by rw [hmarkets]; simp)
    have hall : ∀ {α : Type} {f : MarketRecord → α} {x : α}, f record = x →
        ∀ p ∈ (classify tx).markets, f p.2 = x := by
      intro α f x hx p hp
      rw [hmarkets, List.mem_singleton] at hp
      rw [hp]
      exact hx
    -- what a record other than an opening needs: the coin of the market it names
    have hspent : ∀ {id : Txid}, (v.spent tx).head? = some id → v.spent tx = [id] := by
      intro id hid
      cases hs : v.spent tx with
      | nil => simp [hs] at hid
      | cons a l =>
        rw [hs, List.length_cons] at hone
        have hl : l = [] := List.length_eq_zero_iff.mp (by omega)
        simpa [hs, hl] using hid
    cases record with
    | «open» vout resolver expiry grace =>
      obtain ⟨_, hempty, h⟩ := Res.bind_eq_ok.mp h
      obtain ⟨m, hm, h⟩ := Res.bind_eq_ok.mp h
      simp only [Res.ok.injEq] at h
      subst h
      obtain ⟨hid, hst, hr, hiss, hop, hout⟩ := openMarket_ok hm
      simp only [Res.refuseIf_eq_ok, Bool.not_eq_false', List.isEmpty_iff] at hempty
      refine ⟨.opens m hempty (hall rfl) hid hst hiss hop, fun m' hm' => ?_⟩
      rw [Option.some.injEq] at hm'
      subst hm'
      exact ⟨⟨hr ▸ isKeyText_decodes hkeyed, by simp [hst]⟩, hout⟩
    | resolve market outcome =>
      obtain ⟨id, hid, h⟩ := Res.bind_eq_ok.mp h
      obtain ⟨_, hnames, h⟩ := Res.bind_eq_ok.mp h
      obtain ⟨_, -, h⟩ := Res.bind_eq_ok.mp h
      obtain ⟨before, hbefore, h⟩ := Res.bind_eq_ok.mp h
      obtain ⟨after, hafter, h⟩ := Res.bind_eq_ok.mp h
      simp only [Res.ok.injEq] at h
      subst h
      rw [Res.refuseIf_eq_ok, bne_eq_false_iff_eq] at hnames
      rw [Res.okOr_eq_ok] at hbefore hid
      obtain ⟨rfl, hok⟩ := hv _ _ hbefore
      obtain ⟨h1, h2, h3, h4, h5, h6, hout⟩ := resolveMarket_ok hafter
      rw [← h5] at hbefore hnames hid
      refine ⟨.moves before after (hspent hid) hbefore (hall hnames)
        (.resolve outcome (hall rfl) h1 h2 h3 h4), fun m' hm' => ?_⟩
      rw [Option.some.injEq] at hm'
      subst hm'
      exact ⟨⟨h6 ▸ hok.resolver, by simp [h3]⟩, hout⟩
    | split market vout | merge market vout | redeem market vout =>
      obtain ⟨id, hid, h⟩ := Res.bind_eq_ok.mp h
      obtain ⟨_, hnames, h⟩ := Res.bind_eq_ok.mp h
      obtain ⟨_, -, h⟩ := Res.bind_eq_ok.mp h
      obtain ⟨before, hbefore, h⟩ := Res.bind_eq_ok.mp h
      obtain ⟨after, hafter, h⟩ := Res.bind_eq_ok.mp h
      simp only [Res.ok.injEq] at h
      subst h
      rw [Res.refuseIf_eq_ok, bne_eq_false_iff_eq] at hnames
      rw [Res.okOr_eq_ok] at hbefore hid
      obtain ⟨rfl, hok⟩ := hv _ _ hbefore
      obtain ⟨hmove, h5, h6, h7, hout⟩ := moveCollateral_ok hafter
      rw [← h5] at hbefore hnames hid hmove
      refine ⟨.moves before after (hspent hid) hbefore (hall hnames) hmove, fun m' hm' => ?_⟩
      rw [Option.some.injEq] at hm'
      subst hm'
      refine ⟨⟨h6 ▸ hok.resolver, fun hres => ?_⟩, hout⟩
      obtain ⟨hb, hwin⟩ := h7 hres
      exact hwin ▸ hok.winner hb

/-! ### No panic -/

theorem openMarket_ne_panic (tx : Transaction) (trace : AssetTrace) (height vout : ℕ)
    (resolver : Bytes) (expiry grace : ℕ) :
    openMarket tx trace height vout resolver expiry grace ≠ .panic := by
  simp only [openMarket]
  refine Res.bind_ne_panic (Res.okOr_ne_panic _ _) fun _ _ => ?_
  split
  · refine Res.bind_ne_panic (Res.refuseIf_ne_panic _ _) fun _ _ => ?_
    refine Res.bind_ne_panic (Res.refuseIf_ne_panic _ _) fun _ _ => ?_
    exact Res.bind_ne_panic (Res.refuseIf_ne_panic _ _) fun _ _ => by simp
  · simp

/-- The answer's one `expect` holds: the resolver of a market in order decodes. -/
theorem resolveMarket_ne_panic {before : Market} (hok : before.Ok) (tx : Transaction)
    (trace : AssetTrace) (height : ℕ) (scripts : List (ℕ × Bytes)) (outcome : MarketOutcome) :
    resolveMarket before tx trace height scripts outcome ≠ .panic := by
  obtain ⟨resolver, hr⟩ := Option.isSome_iff_exists.mp hok.resolver
  simp only [resolveMarket, hr, Res.expect_some, Res.ok_bind]
  refine Res.bind_ne_panic (Res.refuseIf_ne_panic _ _) fun _ _ => ?_
  refine Res.bind_ne_panic (Res.refuseIf_ne_panic _ _) fun _ _ => ?_
  refine Res.bind_ne_panic (Res.refuseIf_ne_panic _ _) fun _ _ => ?_
  split
  · exact Res.bind_ne_panic (Res.refuseIf_ne_panic _ _) fun _ _ => by simp
  · simp

/-- A record that names an existing market's coin: not an opening, not an answer. -/
def MarketRecord.moves : MarketRecord → Bool
  | .split .. => true
  | .merge .. => true
  | .redeem .. => true
  | _ => false

/-- The unreachable branches are not reached by a record that moves collateral. -/
theorem moveCollateral_ne_panic {record : MarketRecord} (hr : record.moves = true) (id : Txid)
    (before : Market) (tx : Transaction) (trace : AssetTrace) (height : ℕ) :
    moveCollateral id before tx trace height record ≠ .panic := by
  cases record with
  | «open» vout resolver expiry grace => simp [MarketRecord.moves] at hr
  | resolve market outcome => simp [MarketRecord.moves] at hr
  | split market vout =>
    simp only [moveCollateral, MarketRecord.coinVout, Res.ok_bind]
    refine Res.bind_ne_panic (Res.okOr_ne_panic _ _) fun _ _ => ?_
    refine Res.bind_ne_panic (Res.okOr_ne_panic _ _) fun _ _ => ?_
    exact Res.bind_ne_panic (Res.refuseIf_ne_panic _ _) fun _ _ => by simp
  | merge market vout =>
    simp only [moveCollateral, MarketRecord.coinVout, Res.ok_bind]
    refine Res.bind_ne_panic (Res.okOr_ne_panic _ _) fun _ _ => ?_
    refine Res.bind_ne_panic (Res.okOr_ne_panic _ _) fun _ _ => ?_
    refine Res.bind_ne_panic (Res.refuseIf_ne_panic _ _) fun _ _ => ?_
    exact Res.bind_ne_panic (Res.refuseIf_ne_panic _ _) fun _ _ => by simp
  | redeem market vout =>
    simp only [moveCollateral, MarketRecord.coinVout, Res.ok_bind]
    refine Res.bind_ne_panic (Res.okOr_ne_panic _ _) fun _ _ => ?_
    refine Res.bind_ne_panic (Res.okOr_ne_panic _ _) fun _ _ => ?_
    split_ifs
    · refine Res.bind_ne_panic (Res.okOr_ne_panic _ _) fun _ _ => ?_
      exact Res.bind_ne_panic (Res.refuseIf_ne_panic _ _) fun _ _ => by simp
    · refine Res.bind_ne_panic (Res.refuseIf_ne_panic _ _) fun _ _ => ?_
      exact Res.bind_ne_panic (Res.refuseIf_ne_panic _ _) fun _ _ => by simp

/-- **The market check never panics** on markets in order. -/
theorem MarketView.check_ne_panic {v : MarketView} (hv : v.Ok) (tx : Transaction)
    (trace : AssetTrace) (height : ℕ) (coinbase : Bool) (scripts : List (ℕ × Bytes)) :
    v.check tx trace height coinbase scripts ≠ .panic := by
  cases coinbase with
  | true =>
    simp only [MarketView.check, ↓reduceIte]
    split_ifs <;> simp
  | false =>
    simp only [MarketView.check, Bool.false_eq_true, ↓reduceIte]
    refine Res.bind_ne_panic (Res.refuseIf_ne_panic _ _) fun _ _ => ?_
    refine Res.bind_ne_panic (Res.refuseIf_ne_panic _ _) fun _ _ => ?_
    split_ifs
    · simp
    · simp
    · refine Res.bind_ne_panic (Res.okOr_ne_panic _ _) fun ⟨_, record⟩ _ => ?_
      cases record with
      | «open» vout resolver expiry grace =>
        refine Res.bind_ne_panic (Res.refuseIf_ne_panic _ _) fun _ _ => ?_
        exact Res.bind_ne_panic (openMarket_ne_panic _ _ _ _ _ _ _) fun _ _ => by simp
      | resolve market outcome =>
        refine Res.bind_ne_panic (Res.okOr_ne_panic _ _) fun _ _ => ?_
        refine Res.bind_ne_panic (Res.refuseIf_ne_panic _ _) fun _ _ => ?_
        refine Res.bind_ne_panic (Res.refuseIf_ne_panic _ _) fun _ _ => ?_
        refine Res.bind_ne_panic (Res.okOr_ne_panic _ _) fun before hb => ?_
        rw [Res.okOr_eq_ok] at hb
        exact Res.bind_ne_panic (resolveMarket_ne_panic (hv _ _ hb).2 _ _ _ _ _) fun _ _ => by simp
      | split market vout | merge market vout | redeem market vout =>
        refine Res.bind_ne_panic (Res.okOr_ne_panic _ _) fun _ _ => ?_
        refine Res.bind_ne_panic (Res.refuseIf_ne_panic _ _) fun _ _ => ?_
        refine Res.bind_ne_panic (Res.refuseIf_ne_panic _ _) fun _ _ => ?_
        refine Res.bind_ne_panic (Res.okOr_ne_panic _ _) fun before hb => ?_
        exact Res.bind_ne_panic (moveCollateral_ne_panic rfl _ _ _ _ _) fun _ _ => by simp

omit [Bitcoin] in
theorem MarketView.Ok.apply {v : MarketView} (hv : v.Ok) {m : Market} (hm : m.Ok) :
    (v.apply m).Ok := by
  intro id n h
  simp only [MarketView.apply] at h
  by_cases hid : id = m.id
  · subst hid
    rw [Finmap.lookup_insert, Option.some.injEq] at h
    exact ⟨h ▸ rfl, h ▸ hm⟩
  · rw [Finmap.lookup_insert_of_ne _ hid] at h
    exact hv id n h

theorem MarketView.check_coinbase {v : MarketView} {tx : Transaction} {trace : AssetTrace}
    {height : ℕ} {scripts : List (ℕ × Bytes)} {effect : Option Market}
    (h : v.check tx trace height true scripts = .ok effect) : effect = none := by
  simp only [MarketView.check, ↓reduceIte] at h
  split_ifs at h
  simpa using h.symm

/-- One transaction keeps the markets in order. -/
theorem marketTx_ok {spending : Spending} {height : ℕ} {st st' : MarketView × List Txid}
    {p : (Transaction × AssetTrace) × ℕ} (hv : st.1.Ok) (h : marketTx spending height st p = .ok st') :
    st'.1.Ok := by
  simp only [marketTx] at h
  obtain ⟨effect, he, h⟩ := Res.bind_eq_ok.mp h
  cases effect with
  | none =>
    simp only [Res.ok.injEq] at h
    exact h ▸ hv
  | some m =>
    simp only [Res.ok.injEq] at h
    subst h
    cases hcb : p.2 == 0 with
    | true =>
      rw [hcb] at he
      exact absurd (MarketView.check_coinbase he) (by simp)
    | false =>
      rw [hcb] at he
      exact hv.apply ((MarketView.check_ok he hv).2 m rfl).1

/-- A candidate keeps the markets in order. -/
theorem marketCandidate_ok {view : MarketView} {txdata : List Transaction}
    {traces : List AssetTrace} {spending : Spending} {height : ℕ} {st : MarketView × List Txid}
    (hv : view.Ok) (h : marketCandidate view txdata traces spending height = .ok st) : st.1.Ok :=
  Res.foldlM_ok_ind (P := fun st => st.1.Ok) h hv fun _ _ _ _ hv hstep => marketTx_ok hv hstep

/-- A candidate is judged without a panic. -/
theorem marketCandidate_ne_panic {view : MarketView} (hv : view.Ok) (txdata : List Transaction)
    (traces : List AssetTrace) (spending : Spending) (height : ℕ) :
    marketCandidate view txdata traces spending height ≠ .panic := by
  intro h
  obtain ⟨pre, p, post, st, -, hpre, hp⟩ := Res.foldlM_eq_panic.mp h
  have hst : st.1.Ok := Res.foldlM_ok_ind (P := fun st => st.1.Ok) hpre hv
    fun _ _ _ _ hv hstep => marketTx_ok hv hstep
  simp only [marketTx] at hp
  rcases Res.bind_eq_panic.mp hp with hp | ⟨effect, -, hp⟩
  · exact MarketView.check_ne_panic hst _ _ _ _ _ hp
  · cases effect <;> simp at hp

end

end Sidestr
