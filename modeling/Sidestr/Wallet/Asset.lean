/-
# An asset transfer

The wallet's transfer of an asset (`asset.rs`): carriers are picked, largest
first, until they hold the amount; output 0 carries it, output 1 what is left;
a tally says so, and the caller's memos follow as records. A memo may not start
like a record of the assets or the pool rule, but it may like one of the markets'
or a question, and a well-formed one is read as such (`transfer_moves_iff`,
`memo_asks`).

Key definitions: `sortCoins`, `tallyText`, `buildTransfer`, `Moves`.
Key theorems: `parseTally_tallyText`, `classify_transfer`, `transfer_moves_iff`.
-/
import Sidestr.Core.Assets
import Sidestr.Core.RecordReaders
import Sidestr.Core.Text
import Sidestr.Wallet.Spend

namespace Sidestr

namespace Wallet

/-! ### The builder -/

/-- The sats each carrier holds. -/
def carrierSats : ℕ := 330

/-- A wallet's coins by what they carry: the asset alone, nothing, or else. -/
structure Sorted where
  carriers : List (Coin × ℕ) := []
  plain : List Coin := []
  other : List Coin := []

/-- One coin sorted. -/
def sortOne (view : AssetView) (asset : Txid) (s : Sorted) (c : Coin) : Sorted :=
  match view.carried.lookup c.outpoint with
  | none => { s with plain := s.plain ++ [c] }
  | some [(a, n)] =>
    if a = asset then { s with carriers := s.carriers ++ [(c, n)] }
    else { s with other := s.other ++ [c] }
  | some _ => { s with other := s.other ++ [c] }

def sortCoins (coins : List Coin) (view : AssetView) (asset : Txid) : Sorted :=
  coins.foldl (sortOne view asset) {}

/-- Carriers until they hold the amount, and what they hold. -/
def pickCarriers (amount : ℕ) : ℕ → List (Coin × ℕ) → List Coin × ℕ
  | held, [] => ([], held)
  | held, p :: rest =>
    if amount ≤ held then ([], held)
    else
      let next := pickCarriers amount (Word.satAdd 64 held p.2) rest
      (p.1 :: next.1, next.2)

/-- The assignment of an amount to an output, as a tally writes it. -/
def assignText (p : ℕ × ℕ) : Bytes := decimalText p.1 ++ [0x3d] ++ decimalText p.2

/-- Texts with a comma between them. -/
def joinComma : List Bytes → Bytes
  | [] => []
  | [t] => t
  | t :: u :: rest => t ++ 0x2c :: joinComma (u :: rest)

/-- The `tally:` text of an asset's assignments. -/
def tallyText (asset : Txid) (assigns : List (ℕ × ℕ)) : Res Error Bytes :=
  if (assigns.filter fun p => decide (0 < p.2)) = [] then
    .err (.encoding "a tally assigns at least one output")
  else if assigns.any fun p => decide (maxAmount < p.2) then
    .err (.encoding "above the largest amount")
  else .ok (tallyTag ++ hashText asset ++ [0x3a] ++
    joinComma ((assigns.filter fun p => decide (0 < p.2)).map assignText))

structure TransferRequest where
  chain : ChainDocument
  coins : List Coin
  view : AssetView
  tipHeight : UInt32
  asset : Txid
  /-- A script in hex, or an address. -/
  «to» : Bytes
  amount : UInt64
  /-- Texts, which are UTF-8. -/
  memos : List { m : Bytes // utf8Valid m = true }
  fee : Option UInt64

structure Transfer where
  spend : Spend
  assetChange : ℕ

/-- The starts a memo may not have. -/
def assetsMemo (m : Bytes) : Bool :=
  startsWith issueTag m || startsWith tallyTag m || startsWith poolTag m

/-- No asset is made by a plain transfer. -/
def noMint : AssetMintPolicy := fun _ _ _ => false

section

variable [Bitcoin]

/-- The view reads the spend as these assignments. What the inputs carry besides
the asset is another asset. -/
def verifyTransfer (view : AssetView) (tx : Transaction) (asset : Txid) (assigns : List (ℕ × ℕ)) :
    Res WalletError Unit :=
  match view.checkInner noMint tx with
  | .ok out =>
    if tx.input.any fun i => ((view.carried.lookup i.previousOutput).getD []).any fun p =>
        p.1 != asset then
      .err (.asset "an input carries another asset")
    else if assigns.all fun p => ((out.lookup p.1).getD []).lookup asset == some p.2 then .ok ()
    else .err (.asset "an output does not read back")
  | .err why => .err (.asset why)
  | .panic => .panic

variable [Addresses]

omit [Bitcoin] [Addresses] in
/-- The assignments of a transfer: the amount on output 0, what is left on output 1. -/
def transferAssigns (amount change : ℕ) : List (ℕ × ℕ) :=
  (0, amount) :: if 0 < change then [(1, change)] else []

omit [Bitcoin] in
/-- The carriers of a transfer: the recipient's, and the signer's for what is left. -/
def transferOutputs (dest me : Bytes) (change : ℕ) : List (Bytes × UInt64) :=
  (dest, UInt64.ofNat (max carrierSats (Addresses.minimalNonDust dest))) ::
    if 0 < change then [(me, UInt64.ofNat carrierSats)] else []

/-- Move an amount of an asset. -/
def buildTransfer (r : TransferRequest) (signer : SpendSigner) (policy : Intent → Option Bytes) :
    Res WalletError Transfer :=
  if r.amount = 0 then .err .badAmount
  else if r.memos.any fun m => assetsMemo m.val then .err (.asset "a memo may not be an assets record")
  else do
    let dest ← resolveTo r.to
    let sorted := sortCoins r.coins r.view r.asset
    let mature := sorted.carriers.filter fun p => p.1.isMature r.tipHeight
    let picked := pickCarriers r.amount.toNat 0 (mature.insertionSort fun a b => b.2 ≤ a.2)
    if picked.2 < r.amount.toNat then .err (.asset "holds less of the asset than was asked")
    else do
      let change := picked.2 - r.amount.toNat
      let assigns := transferAssigns r.amount.toNat change
      let tally ← ofCore (tallyText r.asset assigns)
      let spend ← buildOutputs {
        chain := r.chain, coins := sorted.plain, required := picked.1, tipHeight := r.tipHeight
        outputs := transferOutputs dest signer.script change
        records := tally :: r.memos.map Subtype.val, fee := r.fee } signer policy
      let _ ← verifyTransfer r.view spend.tx r.asset assigns
      .ok ⟨spend, change⟩

end

/-! ### What the coins carry -/

/-- What sorting makes of the coins. -/
structure SortedWell (view : AssetView) (asset : Txid) (coins : List Coin) (s : Sorted) : Prop where
  carriers : ∀ p ∈ s.carriers, view.carried.lookup p.1.outpoint = some [(asset, p.2)]
  plain : ∀ c ∈ s.plain, view.carried.lookup c.outpoint = none
  carriersSub : (s.carriers.map Prod.fst).Sublist coins
  plainSub : s.plain.Sublist coins

theorem sortedWell_sortCoins (view : AssetView) (asset : Txid) (coins : List Coin) :
    SortedWell view asset coins (sortCoins coins view asset) := by
  unfold sortCoins
  induction coins using List.reverseRecOn with
  | nil =>
    exact ⟨fun p hp => (by cases hp), fun c hc => (by cases hc), List.nil_sublist _,
      List.nil_sublist _⟩
  | append_singleton coins c ih =>
    rw [List.foldl_append, List.foldl_cons, List.foldl_nil]
    have hleft := List.sublist_append_left coins [c]
    unfold sortOne
    split
    · rename_i hnone
      refine ⟨ih.carriers, fun d hd => ?_, ih.carriersSub.trans hleft,
        ih.plainSub.append (List.Sublist.refl [c])⟩
      rcases List.mem_append.mp hd with hd | hd
      · exact ih.plain d hd
      · rw [List.mem_singleton.mp hd]
        exact hnone
    · rename_i a n hsome
      split_ifs with ha
      · refine ⟨fun p hp => ?_, ih.plain, ?_, ih.plainSub.trans hleft⟩
        · rcases List.mem_append.mp hp with hp | hp
          · exact ih.carriers p hp
          · rw [List.mem_singleton.mp hp, ← ha]
            exact hsome
        · rw [List.map_append]
          exact ih.carriersSub.append (List.Sublist.refl [c])
      · exact ⟨ih.carriers, ih.plain, ih.carriersSub.trans hleft, ih.plainSub.trans hleft⟩
    · exact ⟨ih.carriers, ih.plain, ih.carriersSub.trans hleft, ih.plainSub.trans hleft⟩

/-- The carriers picked are the first ones, and hold what was added up. -/
theorem pickCarriers_takes {amount : ℕ} : ∀ {l : List (Coin × ℕ)} {held : ℕ},
    ∃ t, t <+: l ∧ (pickCarriers amount held l).1 = t.map Prod.fst ∧
      (pickCarriers amount held l).2 = Word.satSum 64 held (t.map Prod.snd)
  | [], held => ⟨[], List.prefix_rfl, rfl, rfl⟩
  | p :: rest, held => by
    unfold pickCarriers
    split_ifs
    · exact ⟨[], List.nil_prefix, rfl, rfl⟩
    · obtain ⟨t, ht, hcoins, hsum⟩ := @pickCarriers_takes amount rest (Word.satAdd 64 held p.2)
      exact ⟨p :: t, (List.cons_prefix_cons).mpr ⟨rfl, ht⟩, congrArg _ hcoins, hsum⟩

/-! ### The tally -/

theorem isDigit_ne {b c : UInt8} (h : isDigit b = true) (hc : isDigit c = false) : b ≠ c := by
  rintro rfl
  rw [h] at hc
  cases hc

theorem notMem_decimalText {n : ℕ} {c : UInt8} (hc : isDigit c = false) : c ∉ decimalText n :=
  fun hmem => isDigit_ne (List.all_eq_true.mp (decimalText_digits n) c hmem) hc rfl

theorem splitAll_of_notMem {sep : UInt8} : ∀ {b : Bytes}, sep ∉ b → splitAll sep b = [b]
  | [], _ => rfl
  | x :: b, h => by
    rw [List.mem_cons, not_or] at h
    rw [splitAll, splitAll_of_notMem h.2]
    exact if_neg (Ne.symm h.1)

theorem splitAll_append {sep : UInt8} {r : Bytes} : ∀ {b : Bytes}, sep ∉ b →
    splitAll sep (b ++ sep :: r) = b :: splitAll sep r
  | [], _ => by
    rw [List.nil_append, splitAll]
    cases hr : splitAll sep r with
    | nil =>
      cases r with
      | nil => cases hr
      | cons x r =>
        rw [splitAll] at hr
        split at hr
        · cases hr
        · split_ifs at hr
    | cons p ps => exact if_pos rfl
  | x :: b, h => by
    rw [List.mem_cons, not_or] at h
    rw [List.cons_append, splitAll, splitAll_append h.2]
    exact if_neg (Ne.symm h.1)

theorem splitAll_joinComma : ∀ {l : List Bytes}, l ≠ [] → (∀ t ∈ l, (0x2c : UInt8) ∉ t) →
    splitAll 0x2c (joinComma l) = l
  | [], h, _ => absurd rfl h
  | [t], _, h => splitAll_of_notMem (h t List.mem_cons_self)
  | t :: u :: rest, _, h => by
    rw [joinComma, splitAll_append (h t List.mem_cons_self),
      splitAll_joinComma (List.cons_ne_nil _ _) fun x hx => h x (List.mem_cons_of_mem _ hx)]

/-- The digits of a positive number start with no zero. -/
theorem decimalText_head {n : ℕ} (hpos : 0 < n) : (decimalText n).head? ≠ some 0x30 := by
  induction n using Nat.strong_induction_on with
  | _ n ih =>
    rw [decimalText_eq]
    split_ifs with h
    · rw [List.head?_cons, ne_eq, Option.some.injEq]
      intro heq
      have hdigit := congrArg UInt8.toNat heq
      rw [digit_toNat h] at hdigit
      exact absurd hdigit (by show 48 + n ≠ 48; omega)
    · rw [List.head?_append_of_ne_nil _ (decimalText_ne_nil _)]
      exact ih (n / 10) (by omega) (by omega)

/-- An amount's digits read back. -/
theorem amount_decimalText {n : ℕ} (hpos : 0 < n) (hmax : n ≤ maxAmount) :
    Record.amount (decimalText n) = some n := by
  have hlen : (decimalText n).length ≤ 16 :=
    length_decimalText_le (by omega) (Nat.lt_of_le_of_lt hmax (by decide))
  have hhead := decimalText_head hpos
  unfold Record.amount
  rw [if_neg, decimal_decimalText, if_pos hmax]
  rintro (h | h | h | h)
  · exact decimalText_ne_nil n h
  · omega
  · exact hhead h
  · exact h (decimalText_digits n)

theorem vout_decimalText {n : ℕ} (h : n < 10 ^ 5) : Record.vout (decimalText n) = some n := by
  unfold Record.vout Record.digits
  rw [if_pos, decimal_decimalText]
  exact ⟨List.length_pos_iff.mpr (decimalText_ne_nil n), length_decimalText_le (by omega) h,
    decimalText_digits n⟩

theorem assetRef_hashText (h : Hash256) : Record.assetRef (hashText h) = some (.id h) := by
  unfold Record.assetRef
  rw [if_neg, if_pos ⟨length_hashText h, hashText_lower h⟩, parseHash_hashText]
  intro heq
  have hlen := congrArg List.length heq
  rw [length_hashText] at hlen
  exact absurd hlen (by decide)

/-- Assignments that a tally may write. -/
def Assignable (assigns : List (ℕ × ℕ)) : Prop :=
  ∀ p ∈ assigns, p.1 < 10 ^ 5 ∧ 0 < p.2 ∧ p.2 ≤ maxAmount

theorem parseAssigns_assignText : ∀ {assigns seen : List (ℕ × ℕ)}, Assignable assigns →
    (seen.map Prod.fst ++ assigns.map Prod.fst).Nodup →
    parseAssigns seen (assigns.map assignText) = some (seen ++ assigns)
  | [], seen, _, _ => by
    rw [List.append_nil]
    rfl
  | p :: assigns, seen, h, hnodup => by
    obtain ⟨hv, hpos, hmax⟩ := h p List.mem_cons_self
    have hsplit : splitOnce 0x3d (assignText p) = some (decimalText p.1, decimalText p.2) := by
      unfold assignText
      rw [List.append_assoc]
      exact splitOnce_append _ (notMem_decimalText (by decide))
    have hnew : (seen.any fun q => q.1 == p.1) = false := by
      rw [List.any_eq_false]
      intro q hq heq
      have hdisj := (List.nodup_append.mp hnodup).2.2
      exact hdisj q.1 (List.mem_map_of_mem hq) p.1 (by
        rw [List.map_cons]; exact List.mem_cons_self) (beq_iff_eq.mp heq)
    have ih := @parseAssigns_assignText assigns (seen ++ [p])
      (fun q hq => h q (List.mem_cons_of_mem _ hq)) (by
        rw [List.map_append, List.append_assoc]
        exact hnodup)
    rw [List.map_cons, parseAssigns, hsplit]
    simp only [Option.bind_eq_bind, Option.bind_some, vout_decimalText hv,
      amount_decimalText hpos hmax, hnew]
    rw [if_neg Bool.false_ne_true, ih, List.append_assoc, List.singleton_append]

/-- **A tally reads back.** -/
theorem parseTally_tallyText {asset : Txid} {assigns : List (ℕ × ℕ)} {text : Bytes}
    (hne : assigns ≠ []) (h : Assignable assigns) (hnodup : (assigns.map Prod.fst).Nodup)
    (htext : tallyText asset assigns = .ok text) :
    parseTally text = some ⟨.id asset, assigns⟩ := by
  have hall : (assigns.filter fun p => decide (0 < p.2)) = assigns :=
    List.filter_eq_self.mpr fun p hp => decide_eq_true (h p hp).2.1
  unfold tallyText at htext
  rw [hall] at htext
  split_ifs at htext
  rw [← Res.ok.inj htext]
  have hcomma : ∀ t ∈ assigns.map assignText, (0x2c : UInt8) ∉ t := by
    intro t ht hmem
    obtain ⟨p, -, rfl⟩ := List.mem_map.mp ht
    unfold assignText at hmem
    rw [List.mem_append, List.mem_append] at hmem
    rcases hmem with (hmem | hmem) | hmem
    · exact notMem_decimalText (by decide) hmem
    · exact absurd hmem (by decide)
    · exact notMem_decimalText (by decide) hmem
  have hcolon : (0x3a : UInt8) ∉ hashText asset := fun hmem =>
    absurd (List.all_eq_true.mp (hashText_lower asset) _ hmem) (by decide)
  unfold parseTally
  rw [List.append_assoc, List.append_assoc, stripPrefix_append]
  simp only [Option.bind_eq_bind, Option.bind_some]
  rw [List.singleton_append, splitOnce_append _ hcolon]
  simp only [Option.bind_some, assetRef_hashText]
  rw [splitAll_joinComma (by simpa using hne) hcomma, parseAssigns_assignText h (by simpa using hnodup)]
  rfl

/-! ### The records -/

/-- The starts of the market actions and of a question. -/
def asksMarkets (m : Bytes) : Bool :=
  ([marketWord, splitWord, mergeWord, redeemWord, resolveWord].any fun w =>
    startsWith (w ++ [0x3a]) m) || startsWith questionTag m

/-- The tally one record adds. -/
def tallyOf (p : ℕ × Bytes) : Option (ℕ × Tally) :=
  if startsWith issueTag p.2 then none
  else if startsWith tallyTag p.2 then (parseTally p.2).map fun t => (p.1, t)
  else none

/-- How many records there are besides the assets' and the pool's. -/
def askedBy (c : Classified) : ℕ := c.markets.length + c.questions.length + c.bad.length

theorem tallies_classifyRecord (out : Classified) (p : ℕ × Bytes) :
    (classifyRecord out p).tallies = out.tallies ++ (tallyOf p).toList := by
  obtain ⟨v, text⟩ := p
  unfold classifyRecord tallyOf
  dsimp only
  split_ifs
  · split <;> exact (List.append_nil _).symm
  · cases parseTally text with
    | none => exact (List.append_nil _).symm
    | some t => rfl
  · split <;> exact (List.append_nil _).symm
  · split <;> exact (List.append_nil _).symm
  · split <;> exact (List.append_nil _).symm
  · exact (List.append_nil _).symm

theorem tallies_foldl : ∀ (l : List (ℕ × Bytes)) (out : Classified),
    (l.foldl classifyRecord out).tallies = out.tallies ++ l.filterMap tallyOf
  | [], out => (List.append_nil _).symm
  | p :: l, out => by
    rw [List.foldl_cons, tallies_foldl l, tallies_classifyRecord, List.append_assoc]
    cases h : tallyOf p with
    | none => rw [List.filterMap_cons_none h]; rfl
    | some t => rw [List.filterMap_cons_some h]; rfl

/-- **A memo's part** in what is classified: nothing of the assets' or the pool's, and
one record more exactly when it asks for a market or a question. -/
theorem classifyRecord_memo (out : Classified) {v : ℕ} {m : Bytes} (h : assetsMemo m = false) :
    (classifyRecord out (v, m)).issues = out.issues ∧
      (classifyRecord out (v, m)).tallies = out.tallies ∧
      (classifyRecord out (v, m)).pools = out.pools ∧
      askedBy (classifyRecord out (v, m)) = askedBy out + if asksMarkets m then 1 else 0 := by
  unfold assetsMemo at h
  rw [Bool.or_eq_false_iff, Bool.or_eq_false_iff] at h
  unfold classifyRecord asksMarkets askedBy
  dsimp only
  rw [if_neg (by rw [h.1.1]; exact Bool.false_ne_true), if_neg (by rw [h.1.2]; exact Bool.false_ne_true),
    if_neg (by rw [h.2]; exact Bool.false_ne_true)]
  by_cases hmarket : ([marketWord, splitWord, mergeWord, redeemWord, resolveWord].any fun w =>
      startsWith (w ++ [0x3a]) m) = true
  · rw [if_pos hmarket, if_pos (by rw [hmarket]; rfl)]
    split
    · exact ⟨rfl, rfl, rfl, by
        simp only [List.length_append, List.length_singleton]
        omega⟩
    · exact ⟨rfl, rfl, rfl, by
        simp only [List.length_append, List.length_singleton]
        omega⟩
  · rw [if_neg hmarket]
    by_cases hquestion : startsWith questionTag m = true
    · rw [if_pos hquestion, if_pos (by rw [hquestion, Bool.or_true])]
      split
      · exact ⟨rfl, rfl, rfl, by
        simp only [List.length_append, List.length_singleton]
        omega⟩
      · exact ⟨rfl, rfl, rfl, by
        simp only [List.length_append, List.length_singleton]
        omega⟩
    · rw [if_neg hquestion, if_neg (by
        rw [Bool.not_eq_true] at hmarket hquestion
        rw [hmarket, hquestion]
        exact Bool.false_ne_true)]
      exact ⟨rfl, rfl, rfl, rfl⟩

theorem classify_memos : ∀ (l : List (ℕ × Bytes)) (out : Classified),
    (∀ p ∈ l, assetsMemo p.2 = false) →
    (l.foldl classifyRecord out).issues = out.issues ∧
      (l.foldl classifyRecord out).tallies = out.tallies ∧
      (l.foldl classifyRecord out).pools = out.pools ∧
      askedBy (l.foldl classifyRecord out) =
        askedBy out + (l.countP fun p => asksMarkets p.2)
  | [], out, _ => ⟨rfl, rfl, rfl, rfl⟩
  | (v, m) :: l, out, h => by
    obtain ⟨hi, ht, hp, hs⟩ := classifyRecord_memo out (v := v) (h (v, m) List.mem_cons_self)
    obtain ⟨hi', ht', hp', hs'⟩ := classify_memos l (classifyRecord out (v, m))
      fun p hp => h p (List.mem_cons_of_mem _ hp)
    rw [List.foldl_cons, List.countP_cons]
    refine ⟨hi'.trans hi, ht'.trans ht, hp'.trans hp, ?_⟩
    rw [hs', hs]
    dsimp only
    omega

/-- The records of some outputs, the first of them output `k`. -/
def recordsFrom (k : ℕ) (outs : List TxOut) : List (ℕ × Bytes) :=
  (outs.zipIdx k).filterMap fun p => (recordText p.1.scriptPubkey).map fun t => (p.2, t)

theorem recordsFrom_append (k : ℕ) (a b : List TxOut) :
    recordsFrom k (a ++ b) = recordsFrom k a ++ recordsFrom (k + a.length) b := by
  unfold recordsFrom
  rw [List.zipIdx_append, List.filterMap_append]

theorem recordsFrom_none : ∀ {outs : List TxOut} {k : ℕ},
    (∀ o ∈ outs, recordText o.scriptPubkey = none) → recordsFrom k outs = []
  | [], _, _ => rfl
  | o :: outs, k, h => by
    unfold recordsFrom
    rw [List.zipIdx_cons, List.filterMap_cons_none (by rw [h o List.mem_cons_self]; rfl)]
    exact recordsFrom_none fun o' ho' => h o' (List.mem_cons_of_mem _ ho')

theorem recordsFrom_texts : ∀ {texts : List Bytes} {k : ℕ},
    (∀ t ∈ texts, recordText (opReturn t) = some t) →
    recordsFrom k (texts.map fun t => ⟨0, opReturn t⟩) = (texts.zipIdx k).map fun p => (p.2, p.1)
  | [], _, _ => rfl
  | t :: texts, k, h => by
    unfold recordsFrom
    rw [List.map_cons, List.zipIdx_cons,
      List.filterMap_cons_some (by rw [h t List.mem_cons_self]; rfl), List.zipIdx_cons, List.map_cons]
    exact congrArg _ (recordsFrom_texts fun t' ht' => h t' (List.mem_cons_of_mem _ ht'))

theorem recordText_none {script : Bytes} (h : isOpReturn script = false) : recordText script = none := by
  unfold isOpReturn at h
  unfold recordText
  split
  · rename_i op n data
    rw [List.head?_cons] at h
    exact if_pos fun hop => by rw [hop] at h; cases h
  · rfl

theorem mem_joinComma {b : UInt8} : ∀ {l : List Bytes}, b ∈ joinComma l →
    b = 0x2c ∨ ∃ t ∈ l, b ∈ t
  | [], h => by cases h
  | [t], h => .inr ⟨t, List.mem_cons_self, h⟩
  | t :: u :: rest, h => by
    rw [joinComma, List.mem_append, List.mem_cons] at h
    rcases h with h | h | h
    · exact .inr ⟨t, List.mem_cons_self, h⟩
    · exact .inl h
    · rcases mem_joinComma h with h | ⟨x, hx, hb⟩
      · exact .inl h
      · exact .inr ⟨x, List.mem_cons_of_mem _ hx, hb⟩

theorem ascii_of_all {d : Bytes} (h : d.all fun b => b.toNat ≤ 0x7f) : ∀ b ∈ d, b.toNat ≤ 0x7f :=
  fun b hb => of_decide_eq_true (List.all_eq_true.mp h b hb)

/-- A tally is ASCII. -/
theorem tallyText_ascii {asset : Txid} {assigns : List (ℕ × ℕ)} {text : Bytes}
    (h : tallyText asset assigns = .ok text) : ∀ b ∈ text, b.toNat ≤ 0x7f := by
  unfold tallyText at h
  split_ifs at h
  rw [← Res.ok.inj h]
  have hdigit : ∀ n : ℕ, ∀ b ∈ decimalText n, b.toNat ≤ 0x7f := by
    intro n b hb
    have hd := List.all_eq_true.mp (decimalText_digits n) b hb
    unfold isDigit at hd
    rw [Bool.and_eq_true, decide_eq_true_eq, decide_eq_true_eq] at hd
    omega
  intro b hb
  rw [List.mem_append, List.mem_append, List.mem_append] at hb
  rcases hb with ((hb | hb) | hb) | hb
  · exact ascii_of_all (by decide) b hb
  · have hlow := List.all_eq_true.mp (hashText_lower asset) b hb
    exact isHexDigit_ascii (hexVal_isSome hlow)
  · rw [List.mem_singleton.mp hb]
    decide
  · rcases mem_joinComma hb with rfl | ⟨t, ht, hb⟩
    · decide
    · obtain ⟨p, -, rfl⟩ := List.mem_map.mp ht
      unfold assignText at hb
      rw [List.mem_append, List.mem_append] at hb
      rcases hb with (hb | hb) | hb
      · exact hdigit _ b hb
      · rw [List.mem_singleton.mp hb]
        decide
      · exact hdigit _ b hb

/-- A tally starts like one, and like nothing before it. -/
theorem tallyText_starts {asset : Txid} {assigns : List (ℕ × ℕ)} {text : Bytes}
    (h : tallyText asset assigns = .ok text) :
    startsWith issueTag text = false ∧ startsWith tallyTag text = true := by
  unfold tallyText at h
  split_ifs at h
  rw [← Res.ok.inj h, List.append_assoc, List.append_assoc]
  unfold startsWith
  rw [stripPrefix_append]
  exact ⟨rfl, rfl⟩

/-! ### The check -/

theorem foldlM_step_ok {ε α σ : Type} {f : σ → α → Res ε σ} : ∀ {l : List α} {s t : σ},
    Res.foldlM f s l = .ok t → ∀ a ∈ l, ∃ s' s'', f s' a = .ok s''
  | [], _, _, _, a, ha => by cases ha
  | b :: l, s, t, h, a, ha => by
    obtain ⟨s', hb, hrest⟩ := Res.bind_eq_ok.mp h
    rcases List.mem_cons.mp ha with rfl | ha
    · exact ⟨s, s', hb⟩
    · exact foldlM_step_ok hrest a ha

section

variable [Bitcoin]

/-- A tally that was scanned names an output that can be spent. -/
theorem scanned_spendable {view : AssetView} {tx : Transaction} {out : Map ℕ Carry}
    (h : view.checkInner noMint tx = .ok out) {k : ℕ} {asset : Txid} {p : ℕ × ℕ}
    {rest : List (ℕ × ℕ)}
    (hmem : (k, (⟨.id asset, p :: rest⟩ : Tally)) ∈ (classify tx).tallies) :
    ∃ o, tx.output[p.1]? = some o ∧ isOpReturn o.scriptPubkey = false := by
  simp only [AssetView.checkInner] at h
  obtain ⟨-, -, h⟩ := Res.bind_eq_ok.mp h
  obtain ⟨-, -, h⟩ := Res.bind_eq_ok.mp h
  obtain ⟨-, -, h⟩ := Res.bind_eq_ok.mp h
  obtain ⟨scan, hscan, -⟩ := Res.bind_eq_ok.mp h
  obtain ⟨s, s', hstep⟩ := foldlM_step_ok hscan _ hmem
  unfold scanTally at hstep
  obtain ⟨a, -, hstep⟩ := Res.bind_eq_ok.mp hstep
  obtain ⟨-, -, hstep⟩ := Res.bind_eq_ok.mp hstep
  obtain ⟨loop, hloop, -⟩ := Res.bind_eq_ok.mp hstep
  obtain ⟨first, hfirst, -⟩ := Res.bind_eq_ok.mp hloop
  simp only [assignOutput] at hfirst
  obtain ⟨o, ho, hfirst⟩ := Res.bind_eq_ok.mp hfirst
  obtain ⟨_, hop, -⟩ := Res.bind_eq_ok.mp hfirst
  exact ⟨o, Res.okOr_eq_ok.mp ho, Res.refuseIf_eq_ok.mp hop⟩

/-- **What one tally carries** is what the check answers. -/
theorem checkInner_one {view : AssetView} {tx : Transaction} {out : Map ℕ Carry} {k : ℕ} {asset : Txid}
    {assigns : List (ℕ × ℕ)} (htally : (classify tx).tallies = [(k, ⟨.id asset, assigns⟩)])
    (h : view.checkInner noMint tx = .ok out) :
    (classify tx).bad = [] ∧
      ∃ sum, Res.foldlM (assignOutput tx asset) (∅, 0) assigns = .ok (out, sum) := by
  simp only [AssetView.checkInner, htally] at h
  obtain ⟨_, hbad, h⟩ := Res.bind_eq_ok.mp h
  obtain ⟨-, -, h⟩ := Res.bind_eq_ok.mp h
  obtain ⟨-, -, h⟩ := Res.bind_eq_ok.mp h
  obtain ⟨scan, hscan, h⟩ := Res.bind_eq_ok.mp h
  obtain ⟨-, -, h⟩ := Res.bind_eq_ok.mp h
  rw [Res.refuseIf_eq_ok, Bool.not_eq_false', List.isEmpty_iff] at hbad
  refine ⟨hbad, ?_⟩
  obtain ⟨s, hstep, hdone⟩ := Res.bind_eq_ok.mp hscan
  unfold scanTally at hstep
  obtain ⟨a, hasset, hstep⟩ := Res.bind_eq_ok.mp hstep
  obtain ⟨-, -, hstep⟩ := Res.bind_eq_ok.mp hstep
  obtain ⟨loop, hloop, hstep⟩ := Res.bind_eq_ok.mp hstep
  have ha : asset = a := Res.ok.inj hasset
  subst ha
  refine ⟨loop.2, ?_⟩
  rw [← Res.ok.inj h, ← Res.ok.inj hdone, ← Res.ok.inj hstep]
  exact hloop

end

/-! ### The view after -/

theorem outPointAt_inj {txid : Txid} {i j : ℕ} (hi : i < 2 ^ 32) (hj : j < 2 ^ 32)
    (h : outPointAt txid i = outPointAt txid j) : i = j := by
  have hv := congrArg (fun o : OutPoint => o.vout.toNat) h
  unfold outPointAt at hv
  dsimp only at hv
  rwa [UInt32.toNat_ofNat_of_lt' hi, UInt32.toNat_ofNat_of_lt' hj] at hv

theorem total_insert_fresh {K V : Type} [DecidableEq K] {f : K → V → ℕ} {m : Map K V} {k : K} {v : V}
    (h : m.lookup k = none) : Map.total f (m.insert k v) = f k v + Map.total f m := by
  have ht := Map.total_insert (f := f) (m := m) (k := k) (v := v)
  rw [Map.at'_of_none h] at ht
  exact ht

/-- What a transfer's outputs carry. -/
def transferCarry (asset : Txid) (amount change i : ℕ) : Option Carry :=
  if i = 0 then some [(asset, amount)]
  else if i = 1 ∧ 0 < change then some [(asset, change)] else none

/-- The assignments run give what they say. -/
theorem lookup_assigned {tx : Transaction} {asset : Txid} {amount change sum : ℕ} {out : Map ℕ Carry}
    (h : Res.foldlM (assignOutput tx asset) (∅, 0) (transferAssigns amount change) = .ok (out, sum))
    (i : ℕ) : out.lookup i = transferCarry asset amount change i := by
  unfold transferAssigns at h
  obtain ⟨s, hfirst, h⟩ := Res.bind_eq_ok.mp h
  obtain ⟨rfl, -⟩ := assignOutput_ok hfirst
  unfold transferCarry
  split_ifs at h with hchange
  · obtain ⟨s, hsecond, h⟩ := Res.bind_eq_ok.mp h
    obtain ⟨rfl, -⟩ := assignOutput_ok hsecond
    have hlast := congrArg Prod.fst (Res.ok.inj h)
    dsimp only at hlast
    rw [← hlast]
    rw [Finmap.lookup_insert_of_ne _ (show (1 : ℕ) ≠ 0 by omega), Finmap.lookup_empty,
      Option.getD_none]
    by_cases h1 : i = 1
    · rw [h1, Finmap.lookup_insert, if_neg (by omega), if_pos ⟨rfl, hchange⟩]
      rfl
    · rw [Finmap.lookup_insert_of_ne _ h1]
      by_cases h0 : i = 0
      · rw [h0, Finmap.lookup_insert, if_pos rfl]
        rfl
      · rw [Finmap.lookup_insert_of_ne _ h0, Finmap.lookup_empty, if_neg h0, if_neg fun hc => h1 hc.1]
  · have hlast := congrArg Prod.fst (Res.ok.inj h)
    dsimp only at hlast
    rw [← hlast]
    rw [Finmap.lookup_empty, Option.getD_none]
    by_cases h0 : i = 0
    · rw [h0, Finmap.lookup_insert, if_pos rfl]
      rfl
    · rw [Finmap.lookup_insert_of_ne _ h0, Finmap.lookup_empty, if_neg h0,
        if_neg fun hc => hchange hc.2]

/-- The entries put into the view are the assignments. -/
theorem outEntries_assigned {tx : Transaction} {asset : Txid} {amount change : ℕ} {out : Map ℕ Carry}
    (hout : ∀ i, out.lookup i = transferCarry asset amount change i)
    (hlen : (transferAssigns amount change).length ≤ tx.output.length) :
    outEntries tx out = (transferAssigns amount change).map fun p => (p.1, [(asset, p.2)]) := by
  have hrest : ∀ k (l : List ℕ), (∀ i, out.lookup (i + k) = none) →
      ((l.map (· + k)).filterMap fun v => (out.lookup v).map fun c => (v, c)) = [] := by
    intro k l hnone
    rw [List.filterMap_eq_nil_iff]
    intro v hv
    obtain ⟨i, -, rfl⟩ := List.mem_map.mp hv
    rw [hnone i]
    rfl
  unfold outEntries transferAssigns at *
  split_ifs at hlen ⊢ with hchange
  · obtain ⟨n, hn⟩ : ∃ n, tx.output.length = n + 2 := ⟨tx.output.length - 2, by
      simp only [List.length_cons, List.length_nil] at hlen
      omega⟩
    have hrange : List.range (n + 2) = 0 :: 1 :: (List.range n).map (· + 2) := by
      rw [List.range_succ_eq_map, List.range_succ_eq_map, List.map_cons, List.map_map]
      rfl
    rw [hn, hrange, List.filterMap_cons_some (b := (0, [(asset, amount)])) (by rw [hout]; rfl),
      List.filterMap_cons_some (b := (1, [(asset, change)])) (by
        rw [hout, transferCarry, if_neg (by omega), if_pos ⟨rfl, hchange⟩]; rfl),
      hrest 2 _ fun i => by rw [hout, transferCarry, if_neg (by omega), if_neg (by omega)]]
    rfl
  · obtain ⟨n, hn⟩ : ∃ n, tx.output.length = n + 1 := ⟨tx.output.length - 1, by
      simp only [List.length_cons, List.length_nil] at hlen
      omega⟩
    rw [hn, List.range_succ_eq_map,
      List.filterMap_cons_some (b := (0, [(asset, amount)])) (by rw [hout]; rfl),
      hrest 1 _ fun i => by rw [hout, transferCarry, if_neg (by omega), if_neg (by omega)]]
    rfl

section

variable [Bitcoin]

/-- The view after a transfer. -/
theorem carried_applyTx {view : AssetView} {tx : Transaction} {out : Map ℕ Carry} {asset : Txid}
    {amount change : ℕ} (height : ℕ) (h : view.checkInner noMint tx = .ok out)
    (hissues : (classify tx).issues = [])
    (hout : ∀ i, out.lookup i = transferCarry asset amount change i)
    (hlen : (transferAssigns amount change).length ≤ tx.output.length) :
    (view.applyTx noMint height tx).1.carried = Map.insertAll
      ((transferAssigns amount change).map fun p =>
        (outPointAt (Bitcoin.computeTxid tx) p.1, [(asset, p.2)]))
      (Map.eraseAll (tx.input.map TxIn.previousOutput) view.carried) := by
  simp only [AssetView.applyTx, h, hissues, outEntries_assigned hout hlen, List.map_map]
  rfl

variable {view : AssetView} {tx : Transaction} {asset : Txid} {amount change : ℕ}
  {m : Map OutPoint Carry} {txid : Txid}

omit [Bitcoin] in
/-- What is looked up after the assignments are inserted. -/
theorem lookup_transfer (hfresh : ∀ i, m.lookup (outPointAt txid i) = none) {i : ℕ} (hi : i < 2 ^ 32) :
    (Map.insertAll ((transferAssigns amount change).map fun p =>
      (outPointAt txid p.1, [(asset, p.2)])) m).lookup (outPointAt txid i) =
        transferCarry asset amount change i := by
  have hne : ∀ {j : ℕ}, j < 2 ^ 32 → i ≠ j → outPointAt txid i ≠ outPointAt txid j :=
    fun hj hij heq => hij (outPointAt_inj hi hj heq)
  unfold transferAssigns transferCarry
  split_ifs with hchange h0 h1 h0 h1
  · subst h0
    rw [List.map_cons, List.map_cons, List.map_nil, Map.insertAll_cons, Map.insertAll_cons,
      Map.insertAll_nil, Finmap.lookup_insert_of_ne _ (hne (by omega) (by omega)), Finmap.lookup_insert]
  · rw [h1.1, List.map_cons, List.map_cons, List.map_nil, Map.insertAll_cons, Map.insertAll_cons,
      Map.insertAll_nil, Finmap.lookup_insert]
  · rw [List.map_cons, List.map_cons, List.map_nil, Map.insertAll_cons, Map.insertAll_cons,
      Map.insertAll_nil, Finmap.lookup_insert_of_ne _ (hne (by omega) fun hc => h1 ⟨hc, hchange⟩),
      Finmap.lookup_insert_of_ne _ (hne (by omega) h0), hfresh]
  · rw [h0, List.map_cons, List.map_nil, Map.insertAll_cons, Map.insertAll_nil, Finmap.lookup_insert]
  · exact absurd h1.2 hchange
  · rw [List.map_cons, List.map_nil, Map.insertAll_cons, Map.insertAll_nil,
      Finmap.lookup_insert_of_ne _ (hne (by omega) h0), hfresh]

omit [Bitcoin] in
theorem amount_single (asset a : Txid) (n : ℕ) :
    Carry.amount [(asset, n)] a = if a = asset then n else 0 := by
  unfold Carry.amount
  rw [List.lookup_cons]
  by_cases h : a = asset
  · rw [if_pos h, beq_iff_eq.mpr h]
    rfl
  · rw [if_neg h, beq_eq_false_iff_ne.mpr h]
    rfl

omit [Bitcoin] in
/-- The assignments add the amount and what is left to the asset's total. -/
theorem total_transfer (hfresh : ∀ i, m.lookup (outPointAt txid i) = none) (a : Txid) :
    heldIn (Map.insertAll ((transferAssigns amount change).map fun p =>
      (outPointAt txid p.1, [(asset, p.2)])) m) a =
        (if a = asset then amount + change else 0) + heldIn m a := by
  unfold transferAssigns heldIn
  split_ifs with hchange ha ha
  · rw [List.map_cons, List.map_cons, List.map_nil, Map.insertAll_cons, Map.insertAll_cons,
      Map.insertAll_nil, total_insert_fresh, total_insert_fresh (hfresh 0), amount_single,
      amount_single, if_pos ha, if_pos ha]
    · omega
    · rw [Finmap.lookup_insert_of_ne _ fun heq =>
        absurd (outPointAt_inj (by omega) (by omega) heq) (show (1 : ℕ) ≠ 0 by omega)]
      exact hfresh 1
  · rw [List.map_cons, List.map_cons, List.map_nil, Map.insertAll_cons, Map.insertAll_cons,
      Map.insertAll_nil, total_insert_fresh, total_insert_fresh (hfresh 0), amount_single,
      amount_single, if_neg ha, if_neg ha]
    · omega
    · rw [Finmap.lookup_insert_of_ne _ fun heq =>
        absurd (outPointAt_inj (by omega) (by omega) heq) (show (1 : ℕ) ≠ 0 by omega)]
      exact hfresh 1
  · rw [List.map_cons, List.map_nil, Map.insertAll_cons, Map.insertAll_nil,
      total_insert_fresh (hfresh 0), amount_single, if_pos ha]
    omega
  · rw [List.map_cons, List.map_nil, Map.insertAll_cons, Map.insertAll_nil,
      total_insert_fresh (hfresh 0), amount_single, if_neg ha]

end

/-! ### The transfer -/

/-- A transfer moves what it says: output 0 carries the amount and output 1 what is
left, no other output carries anything, every total stays, nothing spent carries
another asset, and the records are one tally. -/
structure Moves [Bitcoin] (r : TransferRequest) (t : Transfer) : Prop where
  carries : ∀ height i, i < 2 ^ 32 →
    (r.view.applyTx noMint height t.spend.tx).1.carried.lookup
        (outPointAt (Bitcoin.computeTxid t.spend.tx) i) =
      transferCarry r.asset r.amount.toNat t.assetChange i
  totals : ∀ height a, (r.view.applyTx noMint height t.spend.tx).1.total a = r.view.total a
  spends : ∀ i ∈ t.spend.tx.input, ∀ carry, r.view.carried.lookup i.previousOutput = some carry →
    ∃ n, carry = [(r.asset, n)]
  tally : (classify t.spend.tx).tallies.length = 1
  issues : (classify t.spend.tx).issues = []
  pools : (classify t.spend.tx).pools = []
  markets : (classify t.spend.tx).markets = []
  questions : (classify t.spend.tx).questions = []
  wellFormed : (classify t.spend.tx).bad = []

section

variable [Bitcoin] [Addresses]

/-- What a transfer was built of. -/
structure BuiltTransfer (r : TransferRequest) (signer : SpendSigner) (t : Transfer) (dest tally : Bytes)
    (picked : List (Coin × ℕ)) (plain : List Coin) : Prop where
  memos : ∀ m ∈ r.memos, assetsMemo m.val = false
  carriers : ∀ p ∈ picked, r.view.carried.lookup p.1.outpoint = some [(r.asset, p.2)]
  bare : ∀ c ∈ plain, r.view.carried.lookup c.outpoint = none
  pickedSub : (picked.map Prod.fst).Subperm r.coins
  plainSub : plain.Sublist r.coins
  amount : 0 < r.amount.toNat
  held : Word.satSum 64 0 (picked.map Prod.snd) = r.amount.toNat + t.assetChange
  text : tallyText r.asset (transferAssigns r.amount.toNat t.assetChange) = .ok tally
  built : ∃ policy, buildOutputs {
    chain := r.chain, coins := plain, required := picked.map Prod.fst, tipHeight := r.tipHeight
    outputs := transferOutputs dest signer.script t.assetChange
    records := tally :: r.memos.map Subtype.val, fee := r.fee } signer policy = .ok t.spend
  checked : ∃ out, r.view.checkInner noMint t.spend.tx = .ok out

omit [Bitcoin] [Addresses] in
theorem subperm_map {α β : Type} (f : α → β) {l l' : List α} (h : l.Subperm l') :
    (l.map f).Subperm (l'.map f) := by
  obtain ⟨m, hperm, hsub⟩ := h
  exact ⟨m.map f, hperm.map f, hsub.map f⟩

theorem buildTransfer_ok {r : TransferRequest} {signer : SpendSigner}
    {policy : Intent → Option Bytes} {t : Transfer} (h : buildTransfer r signer policy = .ok t) :
    ∃ dest tally picked plain, BuiltTransfer r signer t dest tally picked plain := by
  unfold buildTransfer at h
  split_ifs at h with hzero hmemos
  obtain ⟨dest, -, h⟩ := Res.bind_eq_ok.mp h
  dsimp only at h
  have hsorted := sortedWell_sortCoins r.view r.asset r.coins
  obtain ⟨picked, hfirst, hcoins, hsum⟩ := @pickCarriers_takes r.amount.toNat
    (((sortCoins r.coins r.view r.asset).carriers.filter fun p =>
      p.1.isMature r.tipHeight).insertionSort fun a b => b.2 ≤ a.2) 0
  rw [hcoins, hsum] at h
  split_ifs at h with hshort
  obtain ⟨tally, htally, h⟩ := Res.bind_eq_ok.mp h
  obtain ⟨spend, hspend, h⟩ := Res.bind_eq_ok.mp h
  obtain ⟨_, hverify, h⟩ := Res.bind_eq_ok.mp h
  have hperm := List.perm_insertionSort (fun a b : Coin × ℕ => b.2 ≤ a.2)
    ((sortCoins r.coins r.view r.asset).carriers.filter fun p => p.1.isMature r.tipHeight)
  have hsub : picked.Subperm (sortCoins r.coins r.view r.asset).carriers :=
    hfirst.sublist.subperm.trans (hperm.subperm.trans List.filter_sublist.subperm)
  have htext : tallyText r.asset (transferAssigns r.amount.toNat
      (Word.satSum 64 0 (picked.map Prod.snd) - r.amount.toNat)) = .ok tally := by
    cases hc : tallyText r.asset (transferAssigns r.amount.toNat
      (Word.satSum 64 0 (picked.map Prod.snd) - r.amount.toNat)) with
    | ok text =>
      rw [hc] at htally
      rw [Res.ok.inj htally]
    | err e => rw [hc] at htally; cases htally
    | panic => rw [hc] at htally; cases htally
  rw [← Res.ok.inj h]
  refine ⟨dest, tally, picked, _, ?_, fun p hp => hsorted.carriers p (hsub.subset hp), hsorted.plain,
    (subperm_map Prod.fst hsub).trans hsorted.carriersSub.subperm, hsorted.plainSub, ?_, ?_,
    htext, ⟨policy, hspend⟩, ?_⟩
  · intro m hm
    rw [Bool.not_eq_true, List.any_eq_false] at hmemos
    exact Bool.not_eq_true _ ▸ hmemos m hm
  · exact Nat.pos_of_ne_zero fun hn => hzero (UInt64.toNat_inj.mp hn)
  · dsimp only
    omega
  · unfold verifyTransfer at hverify
    split at hverify
    · exact ⟨_, by assumption⟩
    · cases hverify
    · cases hverify

variable {r : TransferRequest} {signer : SpendSigner} {t : Transfer} {dest tally : Bytes}
  {picked : List (Coin × ℕ)} {plain : List Coin}

/-- The amounts of a transfer fit a tally. -/
theorem assignable_of_text (h : BuiltTransfer r signer t dest tally picked plain) :
    Assignable (transferAssigns r.amount.toNat t.assetChange) := by
  have htext := h.text
  have hpos := h.amount
  unfold tallyText at htext
  split_ifs at htext with hnone hlarge
  rw [Bool.not_eq_true, List.any_eq_false] at hlarge
  intro p hp
  have hmax : p.2 ≤ maxAmount := Nat.not_lt.mp fun hlt => hlarge p hp (decide_eq_true hlt)
  unfold transferAssigns at hp
  split_ifs at hp with hchange
  · rcases List.mem_cons.mp hp with rfl | hp
    · exact ⟨by omega, hpos, hmax⟩
    · rw [List.mem_singleton.mp hp] at hmax ⊢
      exact ⟨by omega, hchange, hmax⟩
  · rw [List.mem_singleton.mp hp] at hmax ⊢
    exact ⟨by omega, hpos, hmax⟩

omit [Bitcoin] [Addresses] in
theorem transferAssigns_nodup (amount change : ℕ) :
    ((transferAssigns amount change).map Prod.fst).Nodup := by
  unfold transferAssigns
  split_ifs
  · exact (show [0, 1].Nodup by decide)
  · exact (show [0].Nodup by decide)

/-- The transaction's outputs, in order. -/
theorem outputs_of_built (hcoins : (r.coins.map Coin.outpoint).Nodup)
    (h : BuiltTransfer r signer t dest tally picked plain) :
    (∃ extra : List Coin, (∀ c ∈ extra, c ∈ plain) ∧
      t.spend.tx.input.map TxIn.previousOutput = (picked.map Prod.fst ++ extra).map Coin.outpoint) ∧
    (t.spend.tx.input.map TxIn.previousOutput).Nodup ∧
    (∀ text ∈ tally :: r.memos.map Subtype.val, 1 ≤ text.length ∧ text.length ≤ 255) ∧
    ∃ left : List TxOut, (∀ o ∈ left, o.scriptPubkey = signer.script) ∧
      t.spend.tx.output = (transferOutputs dest signer.script t.assetChange).map (fun o => ⟨o.2, o.1⟩) ++
        ((tally :: r.memos.map Subtype.val).map fun text => ⟨0, opReturn text⟩) ++ left := by
  obtain ⟨policy, hbuilt⟩ := h.built
  obtain ⟨extra, hextra, hinputs, hnodup, hout⟩ := buildOutputs_spends
    (nodup_of_subperm h.pickedSub hcoins) (hcoins.sublist (h.plainSub.map _)) hbuilt
  refine ⟨⟨extra, hextra, hinputs⟩, hnodup, buildOutputs_records hbuilt, ?_⟩
  rcases hout with hout | ⟨o, hout, ho⟩
  · exact ⟨[], fun o ho => (by cases ho), by rw [hout, List.append_nil]; rfl⟩
  · refine ⟨[o], fun o' ho' => ?_, hout⟩
    rw [List.mem_singleton.mp ho']
    exact ho

omit [Bitcoin] [Addresses] in
theorem isOpReturn_p2tr {script : Bytes} (h : isP2tr script = true) : isOpReturn script = false := by
  unfold isP2tr at h
  rw [Bool.and_eq_true, beq_iff_eq, beq_iff_eq] at h
  unfold isOpReturn
  cases script with
  | nil => rfl
  | cons b rest =>
    have hb := (List.cons.inj ((List.take_succ_cons).symm.trans h.2)).1
    rw [List.head?_cons, hb]
    rfl

/-- **What a transfer is read as**: its tally, nothing of an issue or a pool, and a
record more for each memo that asks for a market or a question. -/
theorem classify_transfer (hme : isP2tr signer.script = true)
    (hcoins : (r.coins.map Coin.outpoint).Nodup)
    (h : BuiltTransfer r signer t dest tally picked plain) :
    ∃ k, (classify t.spend.tx).tallies =
        [(k, ⟨.id r.asset, transferAssigns r.amount.toNat t.assetChange⟩)] ∧
      (classify t.spend.tx).issues = [] ∧ (classify t.spend.tx).pools = [] ∧
      askedBy (classify t.spend.tx) = r.memos.countP fun m => asksMarkets m.val := by
  obtain ⟨-, -, hlengths, left, hleft, hout⟩ := outputs_of_built hcoins h
  obtain ⟨out, hcheck⟩ := h.checked
  have hmenone := recordText_none (isOpReturn_p2tr hme)
  have hparse := parseTally_tallyText (List.cons_ne_nil _ _) (assignable_of_text h)
    (transferAssigns_nodup _ _) h.text
  obtain ⟨hissue, hstarts⟩ := tallyText_starts h.text
  have htexts : ∀ text ∈ tally :: r.memos.map Subtype.val, recordText (opReturn text) = some text := by
    intro text htext
    obtain ⟨h1, h255⟩ := hlengths text htext
    rw [recordText_opReturn h1 h255, if_pos]
    rcases List.mem_cons.mp htext with rfl | hmem
    · exact utf8Valid_of_ascii (tallyText_ascii h.text)
    · obtain ⟨m, -, rfl⟩ := List.mem_map.mp hmem
      exact m.property
  have hleftnone : ∀ n, recordsFrom n left = [] := fun n =>
    recordsFrom_none fun o ho => (congrArg recordText (hleft o ho)).trans hmenone
  have hrecords : ∃ first k, recordsOf t.spend.tx = first ++
      ((k, tally) :: ((r.memos.map Subtype.val).zipIdx (k + 1)).map fun p => (p.2, p.1)) ∧
      first = recordsFrom 0 ((transferOutputs dest signer.script t.assetChange).map
        fun o => (⟨o.2, o.1⟩ : TxOut)) := by
    refine ⟨_, 0 + ((transferOutputs dest signer.script t.assetChange).map
        fun o => (⟨o.2, o.1⟩ : TxOut)).length, ?_, rfl⟩
    have hfrom : recordsOf t.spend.tx = recordsFrom 0 t.spend.tx.output := rfl
    rw [hfrom, hout, recordsFrom_append, recordsFrom_append, recordsFrom_texts htexts,
      hleftnone, List.append_nil]
    rfl
  obtain ⟨first, k, hrecords, hfirst⟩ := hrecords
  have htally : tallyOf (k, tally) =
      some (k, ⟨.id r.asset, transferAssigns r.amount.toNat t.assetChange⟩) := by
    unfold tallyOf
    rw [if_neg (by rw [hissue]; exact Bool.false_ne_true), if_pos hstarts, hparse]
    rfl
  -- the tally is scanned, so the output it names first can be spent: no record stands before it
  have hmem : (k, (⟨.id r.asset, transferAssigns r.amount.toNat t.assetChange⟩ : Tally)) ∈
      (classify t.spend.tx).tallies := by
    unfold classify
    rw [tallies_foldl, hrecords, List.filterMap_append, List.filterMap_cons_some htally]
    exact List.mem_append_right _ (List.mem_append_right _ List.mem_cons_self)
  obtain ⟨o, ho, hspendable⟩ := scanned_spendable hcheck hmem
  have hfirstnone : first = [] := by
    rw [hfirst]
    refine recordsFrom_none fun o' ho' => ?_
    have hdest : o.scriptPubkey = dest := by
      rw [hout] at ho
      exact congrArg TxOut.scriptPubkey (Option.some.inj ho).symm
    unfold transferOutputs at ho'
    rw [List.map_cons] at ho'
    rcases List.mem_cons.mp ho' with rfl | ho'
    · exact recordText_none (hdest ▸ hspendable)
    · split_ifs at ho'
      · rw [List.map_singleton, List.mem_singleton] at ho'
        rw [ho']
        exact hmenone
      · cases ho'
  rw [hfirstnone, List.nil_append] at hrecords
  have hone : classifyRecord {} (k, tally) =
      { tallies := [(k, ⟨.id r.asset, transferAssigns r.amount.toNat t.assetChange⟩)] } := by
    unfold classifyRecord
    dsimp only
    rw [if_neg (by rw [hissue]; exact Bool.false_ne_true), if_pos hstarts, hparse]
    rfl
  have hmemos : ∀ p ∈ ((r.memos.map Subtype.val).zipIdx (k + 1)).map fun p => (p.2, p.1),
      assetsMemo p.2 = false := by
    intro p hp
    obtain ⟨q, hq, rfl⟩ := List.mem_map.mp hp
    obtain ⟨m, hm, hval⟩ := List.mem_map.mp (List.fst_mem_of_mem_zipIdx hq)
    exact hval ▸ h.memos m hm
  obtain ⟨hi, ht, hp, hs⟩ := classify_memos _ (classifyRecord {} (k, tally)) hmemos
  have hclassify : classify t.spend.tx =
      (((r.memos.map Subtype.val).zipIdx (k + 1)).map fun p => (p.2, p.1)).foldl classifyRecord
        (classifyRecord {} (k, tally)) := by
    unfold classify
    rw [hrecords, List.foldl_cons]
  rw [← hclassify, hone] at hi ht hp hs
  refine ⟨k, ht, hi, hp, ?_⟩
  rw [hs, List.countP_map]
  have hcount : ∀ (l : List { m : Bytes // utf8Valid m = true }) (n : ℕ),
      ((l.map Subtype.val).zipIdx n).countP ((fun p : ℕ × Bytes => asksMarkets p.2) ∘
        fun p => (p.2, p.1)) = l.countP fun m => asksMarkets m.val := by
    intro l
    induction l with
    | nil => exact fun _ => rfl
    | cons m l ih =>
      intro n
      rw [List.map_cons, List.zipIdx_cons, List.countP_cons, List.countP_cons, ih]
      rfl
  rw [hcount]
  exact Nat.zero_add _

/-- What was picked is far below the largest value. -/
theorem held_lt (h : BuiltTransfer r signer t dest tally picked plain) :
    r.amount.toNat + t.assetChange < Word.maxVal 64 := by
  have hall := assignable_of_text h
  have hamount := (hall (0, r.amount.toNat) List.mem_cons_self).2.2
  have hmax : maxAmount + maxAmount < Word.maxVal 64 := by decide
  by_cases hchange : 0 < t.assetChange
  · have hleft := (hall (1, t.assetChange) (by
      unfold transferAssigns
      rw [if_pos hchange]
      exact List.mem_cons_of_mem _ List.mem_cons_self)).2.2
    dsimp only at hamount hleft
    omega
  · dsimp only at hamount
    omega

/-- What a transfer's inputs carry: the asset, as much as was picked. -/
theorem carried_inputs (h : BuiltTransfer r signer t dest tally picked plain) {extra : List Coin}
    (hextra : ∀ c ∈ extra, c ∈ plain) (a : Txid) :
    (((picked.map Prod.fst ++ extra).map Coin.outpoint).map
      (Map.at' (fun _ (c : Carry) => c.amount a) r.view.carried)).sum =
        if a = r.asset then r.amount.toNat + t.assetChange else 0 := by
  have hplain : ((extra.map Coin.outpoint).map
      (Map.at' (fun _ (c : Carry) => c.amount a) r.view.carried)).sum = 0 := by
    refine List.sum_eq_zero fun n hn => ?_
    rw [List.map_map] at hn
    obtain ⟨c, hc, rfl⟩ := List.mem_map.mp hn
    exact Map.at'_of_none (h.bare c (hextra c hc))
  have hpicked : (((picked.map Prod.fst).map Coin.outpoint).map
      (Map.at' (fun _ (c : Carry) => c.amount a) r.view.carried)) =
        picked.map fun p => if a = r.asset then p.2 else 0 := by
    rw [List.map_map, List.map_map]
    refine List.map_congr_left fun p hp => ?_
    rw [Function.comp_apply, Function.comp_apply, Map.at'_of_lookup (h.carriers p hp), amount_single]
  have hheld := h.held
  rw [Word.satSum_eq _ _ (Nat.zero_le _), Nat.zero_add] at hheld
  have hsmall := held_lt h
  rw [List.map_append, List.map_append, List.sum_append, hplain, hpicked, Nat.add_zero]
  split_ifs
  · have hmin : (picked.map Prod.snd).sum = r.amount.toNat + t.assetChange := by omega
    exact hmin
  · exact List.sum_eq_zero fun n hn => by
      obtain ⟨_, -, rfl⟩ := List.mem_map.mp hn
      rfl

/-- **A transfer moves what it says** exactly when no memo starts like a market action
or a question. -/
theorem transfer_moves_iff {policy : Intent → Option Bytes} (hme : isP2tr signer.script = true)
    (hcoins : (r.coins.map Coin.outpoint).Nodup) (h : buildTransfer r signer policy = .ok t)
    (hfresh : ∀ vout, r.view.carried.lookup ⟨Bitcoin.computeTxid t.spend.tx, vout⟩ = none) :
    Moves r t ↔ ∀ m ∈ r.memos, asksMarkets m.val = false := by
  obtain ⟨dest, tally, picked, plain, hb⟩ := buildTransfer_ok h
  obtain ⟨k, htally, hissues, hpools, hasked⟩ := classify_transfer hme hcoins hb
  have hcount : askedBy (classify t.spend.tx) = 0 ↔ ∀ m ∈ r.memos, asksMarkets m.val = false := by
    rw [hasked, List.countP_eq_zero]
    exact forall_congr' fun m => imp_congr_right fun _ => Bool.not_eq_true _ ▸ Iff.rfl
  rw [← hcount]
  constructor
  · intro hm
    unfold askedBy
    rw [hm.markets, hm.questions, hm.wellFormed]
    rfl
  intro hzero
  unfold askedBy at hzero
  obtain ⟨⟨extra, hextra, hinputs⟩, hnodup, -, left, hleft, hout⟩ := outputs_of_built hcoins hb
  obtain ⟨out, hcheck⟩ := hb.checked
  obtain ⟨hbad, sum, hloop⟩ := checkInner_one htally hcheck
  have hlookup := lookup_assigned hloop
  have hlen : (transferAssigns r.amount.toNat t.assetChange).length ≤ t.spend.tx.output.length := by
    rw [hout]
    unfold transferAssigns transferOutputs
    split_ifs <;> simp
  have hafter := fun height => carried_applyTx height hcheck hissues hlookup hlen
  have hclear : ∀ i, (Map.eraseAll (t.spend.tx.input.map TxIn.previousOutput)
      r.view.carried).lookup (outPointAt (Bitcoin.computeTxid t.spend.tx) i) = none := by
    intro i
    by_cases hi : outPointAt (Bitcoin.computeTxid t.spend.tx) i ∈
        t.spend.tx.input.map TxIn.previousOutput
    · exact Map.lookup_eraseAll_of_mem hi
    · rw [Map.lookup_eraseAll_of_notMem hi]
      exact hfresh _
  refine ⟨fun height i hi => ?_, fun height a => ?_, fun i hi carry hcarry => ?_, ?_, hissues, hpools,
    List.length_eq_zero_iff.mp (by omega), List.length_eq_zero_iff.mp (by omega), hbad⟩
  · rw [hafter]
    exact lookup_transfer hclear hi
  · have hspent := Map.total_eraseAll (f := fun _ (c : Carry) => c.amount a) (m := r.view.carried) hnodup
    have hin : ((t.spend.tx.input.map TxIn.previousOutput).map
        (Map.at' (fun _ (c : Carry) => c.amount a) r.view.carried)).sum =
          if a = r.asset then r.amount.toNat + t.assetChange else 0 := by
      rw [hinputs]
      exact carried_inputs hb hextra a
    rw [hin] at hspent
    unfold AssetView.total heldIn
    rw [hafter, hspent]
    exact total_transfer hclear a
  · have hmem : i.previousOutput ∈ (picked.map Prod.fst ++ extra).map Coin.outpoint := by
      rw [← hinputs]
      exact List.mem_map_of_mem hi
    obtain ⟨c, hc, hout⟩ := List.mem_map.mp hmem
    rw [← hout] at hcarry
    rcases List.mem_append.mp hc with hc | hc
    · obtain ⟨p, hp, rfl⟩ := List.mem_map.mp hc
      rw [hb.carriers p hp] at hcarry
      exact ⟨p.2, (Option.some.inj hcarry).symm⟩
    · rw [hb.bare c (hextra c hc)] at hcarry
      cases hcarry
  · rw [htally]
    rfl

end

/-! ### A memo that asks -/

section

attribute [local instance] sampleBitcoin sampleAddresses

/-- One coin carries a hundred of asset 7. -/
def sampleView : AssetView where
  carried := Finmap.singleton ⟨5, 0⟩ [(7, 100)]

def sampleMemo : Bytes := ascii ['t', 'i', 'p']

def sampleQuestion : Bytes := ascii ['q', 'u', 'e', 's', 't', 'i', 'o', 'n', ':', 'w', 'h', 'y']

theorem sampleMemo_valid : utf8Valid sampleMemo = true :=
  utf8Valid_of_ascii (ascii_of_all (by decide))

theorem sampleQuestion_valid : utf8Valid sampleQuestion = true :=
  utf8Valid_of_ascii (ascii_of_all (by decide))

/-- Forty of the hundred to another key, with a memo. -/
def sampleTransfer (memo : { m : Bytes // utf8Valid m = true }) : TransferRequest where
  chain := sampleDoc
  coins := [⟨⟨5, 0⟩, 330, 0, false⟩, ⟨⟨2, 0⟩, 5000, 3, false⟩]
  view := sampleView
  tipHeight := 10
  asset := 7
  «to» := hexEncode (challengeFor (sampleKey 1))
  amount := 40
  memos := [memo]
  fee := none

theorem sampleView_fresh {txid : Txid} (h : txid ≠ 5) (vout : UInt32) :
    sampleView.carried.lookup ⟨txid, vout⟩ = none := by
  refine Finmap.lookup_eq_none.mpr fun hmem => h ?_
  exact congrArg OutPoint.txid (Finmap.mem_singleton _ _ _ |>.mp hmem)

theorem sampleTransfer_coins (memo : { m : Bytes // utf8Valid m = true }) :
    ((sampleTransfer memo).coins.map Coin.outpoint).Nodup := by
  show [(⟨5, 0⟩ : OutPoint), ⟨2, 0⟩].Nodup
  decide

theorem transfer_moves_sample : ∃ t, buildTransfer (sampleTransfer ⟨sampleMemo, sampleMemo_valid⟩)
    sampleSigner (fun _ => none) = .ok t ∧ t.assetChange = 60 ∧
      Moves (sampleTransfer ⟨sampleMemo, sampleMemo_valid⟩) t := by
  have h : (buildTransfer (sampleTransfer ⟨sampleMemo, sampleMemo_valid⟩) sampleSigner
      fun _ => none).any (fun t => t.assetChange == 60 && Bitcoin.computeTxid t.spend.tx != 5) = true := by
    decide +kernel
  obtain ⟨t, ht, hp⟩ := Res.any_eq_true.mp h
  rw [Bool.and_eq_true, beq_iff_eq, bne_iff_ne] at hp
  refine ⟨t, ht, hp.1, (transfer_moves_iff (by decide) (sampleTransfer_coins _) ht
    (sampleView_fresh hp.2)).mpr fun m hm => ?_⟩
  rw [List.mem_singleton.mp hm]
  decide

/-- **A memo asks.** A memo that is a question is taken, and read as a question. -/
theorem memo_asks : ¬ ∀ (r : TransferRequest) (signer : SpendSigner) (policy : Intent → Option Bytes)
    (t : Transfer), isP2tr signer.script = true → (r.coins.map Coin.outpoint).Nodup →
    buildTransfer r signer policy = .ok t →
    (∀ vout, r.view.carried.lookup ⟨Bitcoin.computeTxid t.spend.tx, vout⟩ = none) → Moves r t := by
  intro hall
  have h : (buildTransfer (sampleTransfer ⟨sampleQuestion, sampleQuestion_valid⟩) sampleSigner
      fun _ => none).any (fun t => !(classify t.spend.tx).questions.isEmpty &&
        Bitcoin.computeTxid t.spend.tx != 5) = true := by
    decide +kernel
  obtain ⟨t, ht, hp⟩ := Res.any_eq_true.mp h
  rw [Bool.and_eq_true, bne_iff_ne] at hp
  have hmoves := hall _ _ _ t (by decide) (sampleTransfer_coins _) ht (sampleView_fresh hp.2)
  rw [hmoves.questions] at hp
  exact absurd hp.1 (by decide)

end

end Wallet

end Sidestr
